import FactorPlan.Target.Forms

/-!
Expressions in pandas code. Columns are items of `df`, operators over time are
methods of a rolling window, and logical connectives parenthesize their sides.

Correspondence:
  `PandasStrPrinter`                   ↔ `pandas`
  its methods `_print_..` of operators ↔ `pandasForms`
-/

namespace FactorPlan

namespace Target

/-- A method of a rolling window. -/
def rollingForm (method : String) : List Part :=
  [.bound 0, .text ".rolling(", .arg 1, .text (")." ++ method)]

/-- The forms of calls in pandas code. -/
def pandasForms : List (String × List Part) :=
  [("Equality", [.bound 0, .text "==", .bound 1]),
   ("Or", [.factor 0, .text " | ", .factor 1]),
   ("Xor", [.factor 0, .text " ^ ", .factor 1]),
   ("And", [.factor 0, .text " & ", .factor 1]),
   ("Not", [.text "~", .factor 0]),
   ("if_else", callForm "np.where" [0, 1, 2]),
   ("ts_mean", rollingForm "mean()"),
   ("ts_std_dev", rollingForm "std(ddof=0)"),
   ("ts_arg_max", callForm "bn.move_argmax" [0, 1]),
   ("ts_arg_min", callForm "bn.move_argmin" [0, 1]),
   ("ts_product", rollingForm "apply(np.product, raw=True)"),
   ("ts_max", rollingForm "max()"),
   ("ts_min", rollingForm "min()"),
   ("ts_delta", methodForm ".diff(" ")"),
   ("ts_delay", methodForm ".shift(" ")"),
   ("ts_corr", [.bound 0, .text ".rolling(", .arg 2, .text ").corr(", .arg 1, .text ", ddof=0)"]),
   ("ts_covariance", [.bound 0, .text ".rolling(", .arg 2, .text ").cov(", .arg 1, .text ", ddof=0)"]),
   ("ts_rank", rollingForm "rank(pct=True)"),
   ("ts_sum", rollingForm "sum()"),
   ("ts_decay_linear", callForm "ta.WMA" [0, 1]),
   ("cs_rank", [.bound 0, .text ".rank(pct=True)"]),
   ("cs_scale", callForm "_scale" [0]),
   ("log", callForm "np.log" [0]),
   ("Max", callForm "np.maximum" [0, 1]),
   ("Min", callForm "np.minimum" [0, 1]),
   ("sign", callForm "np.sign" [0]),
   ("signed_power", callForm "_signed_power" [0, 1]),
   ("gp_rank", [.bound 0, .text ".rank(pct=True)"]),
   ("gp_neutralize", callForm "_neutralize" [1])]

/-- The dialect of pandas code. -/
def pandas : Dialect where
  symbol n := "df['" ++ n ++ "']"
  call name :=
    match name with
    | "Abs" => some (numberOr "np.abs" ".abs()")
    | name => (pandasForms.lookup name).map writeForm
  byName := true

end Target

end FactorPlan
