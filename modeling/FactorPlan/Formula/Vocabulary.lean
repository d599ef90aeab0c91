import FactorPlan.Formula.Eval

/-!
The names that formulas may use: built-in functions, the operators on columns,
and the columns.

Correspondence:
  the functions made by `symbols(.., cls=Function)`     ↔ `operatorNames`
  the columns made by `symbols(.., cls=Symbol)`         ↔ `columnNames`
  `Add`, `Mul`, `Pow`, `Eq`, `Abs`, `Max`, `Min`, `log` ↔ `builtinNames`
  `globals()`                                           ↔ `scope`
-/

namespace FactorPlan

namespace Formula

/-- The operators on columns, known by name. A name begins with the way of its
grouping: over time (`ts_`), across the market (`cs_`), within a group (`gp_`). -/
def operatorNames : List String :=
  ["if_else", "signed_power", "sign", "ts_delay", "ts_delta", "ts_arg_max", "ts_arg_min", "ts_max",
   "ts_min", "ts_sum", "ts_mean", "ts_decay_linear", "ts_product", "ts_std_dev", "ts_corr",
   "ts_covariance", "ts_rank", "cs_rank", "cs_scale", "gp_neutralize", "gp_rank"]

/-- The columns. -/
def columnNames : List String :=
  ["OPEN", "HIGH", "LOW", "CLOSE", "VOLUME", "AMOUNT", "RETURNS", "VWAP", "CAP", "ADV5", "ADV10",
   "ADV15", "ADV20", "ADV30", "ADV40", "ADV50", "ADV60", "ADV81", "ADV120", "ADV150", "ADV180",
   "SECTOR", "INDUSTRY", "SUBINDUSTRY", "sw_l1"]

/-- The built-in functions by name. -/
def builtinNames : List (String × Builtin) :=
  [("symbols", Builtin.symbols), ("Symbol", .symbol), ("Function", .functionNamed), ("Add", .sum),
   ("Mul", .product), ("Pow", .power), ("Eq", .equal), ("Abs", .absolute), ("Max", .largest),
   ("Min", .smallest), ("log", .logarithm),
   ("abs", .abs), ("max", .max), ("min", .min), ("str", .text)] ++
  ["all", "any", "bool", "bytes", "callable", "chr", "complex", "dict", "dir", "divmod", "enumerate",
   "filter", "float", "format", "frozenset", "hash", "hex", "id", "int", "iter", "len", "list", "map",
   "next", "object", "oct", "ord", "pow", "range", "repr", "reversed", "round", "set", "slice", "sorted",
   "sum", "super", "tuple", "type", "zip"].map (fun n => (n, Builtin.other n))

/-- The names of a formula with further columns and operators, which come first;
an operator hides a column of its name. -/
def scope (columns operators : List String) : Scope :=
  operators.map (fun n => (n, Value.function n)) ++
  columns.map (fun n => (n, Value.expr (.symbol n))) ++
  operatorNames.map (fun n => (n, Value.function n)) ++
  columnNames.map (fun n => (n, Value.expr (.symbol n))) ++
  builtinNames.map (fun p => (p.1, Value.builtin p.2))

end Formula

end FactorPlan
