import FactorPlan.Target.Forms

/-!
Expressions in polars code. Columns are `pl.col`, operators over time are methods
of a column, and operators across the market are helper functions.

Correspondence:
  `PolarsStrPrinter`                   ↔ `polars`
  its methods `_print_..` of operators ↔ `polarsForms`
-/

namespace FactorPlan

namespace Target

/-- The forms of calls in polars code. -/
def polarsForms : List (String × List Part) :=
  [("Equality", [.bound 0, .text "==", .bound 1]),
   ("if_else", [.text "pl.when(", .arg 0, .text ").then(", .arg 1, .text ").otherwise(", .arg 2, .text ")"]),
   ("ts_mean", methodForm ".rolling_mean(" ")"),
   ("ts_std_dev", methodForm ".rolling_std(" ", ddof=0)"),
   ("ts_arg_max", callForm "_rolling_argmax" [0, 1]),
   ("ts_arg_min", callForm "_rolling_argmin" [0, 1]),
   ("ts_product", methodForm ".rolling_apply(lambda x: np.product(x.to_numpy()), window_size=" ")"),
   ("ts_max", methodForm ".rolling_max(" ")"),
   ("ts_min", methodForm ".rolling_min(" ")"),
   ("ts_delta", methodForm ".diff(" ")"),
   ("ts_delay", methodForm ".shift(" ")"),
   ("ts_corr", [.text "pl.rolling_corr(", .arg 0, .text ", ", .arg 1, .text ", window_size=", .arg 2, .text ", ddof=0)"]),
   ("ts_covariance", [.text "pl.rolling_cov(", .arg 0, .text ", ", .arg 1, .text ", window_size=", .arg 2, .text ", ddof=0)"]),
   ("ts_rank", callForm "_rolling_rank" [0, 1]),
   ("ts_sum", methodForm ".rolling_sum(" ")"),
   ("ts_decay_linear", callForm "_ts_decay_linear" [0, 1]),
   ("cs_rank", callForm "_rank_pct" [0]),
   ("cs_scale", callForm "_scale" [0]),
   ("Max", [.text "pl.max_horizontal([", .arg 0, .text ", ", .arg 1, .text "])"]),
   ("Min", [.text "pl.min_horizontal([", .arg 0, .text ", ", .arg 1, .text "])"]),
   ("signed_power", callForm "_signed_power" [0, 1]),
   ("gp_rank", callForm "_rank_pct" [1]),
   ("gp_neutralize", callForm "_neutralize" [1])]

/-- The dialect of polars code. -/
def polars : Dialect where
  symbol n := "pl.col('" ++ n ++ "')"
  call name :=
    match name with
    | "log" => some (numberOr "np.log" ".log()")
    | "Abs" => some (numberOr "np.abs" ".abs()")
    | "sign" => some (numberOr "np.sign" ".sign()")
    | name => (polarsForms.lookup name).map writeForm
  byName := true

end Target

end FactorPlan
