import FactorPlan.Table

/-!
What a genetic search may build factors from: operators with the kinds of their
arguments, columns, and constants that are drawn when they are needed.

Correspondence:
  `add_constants`               ↔ `constants`
  `add_operators`               ↔ `operators`
  `add_factors`                 ↔ `columns`
  `pass_through`, `dummy`       ↔ `Action`
  `prim.args` of `pset.mapping` ↔ `signatures`
-/

namespace FactorPlan

namespace Genetic

/-- The kinds of values that operators take and give. -/
inductive Kind where
  | column
  | whole
  | real
  deriving DecidableEq, Repr

namespace Kind

def name : Kind → String
  | .column => "ndarray"
  | .whole => "int"
  | .real => "float"

def ofName? : String → Option Kind
  | "ndarray" => some .column
  | "int" => some .whole
  | "float" => some .real
  | _ => none

theorem ofName?_name (k : Kind) : ofName? k.name = some k := by cases k <;> rfl

end Kind

/-- What an operator does with numbers. The search only builds formulas, so all but
the one that passes its argument on are stand-ins with a fixed value. -/
inductive Action where
  | pass
  | standIn
  deriving DecidableEq, Repr

/-- The value of an operator on numbers. -/
def Action.run : Action → List Int → Int
  | .pass, x :: _ => x
  | .pass, [] => 1
  | .standIn, _ => 1

/-- An operator with the kinds of its arguments and of its result. -/
structure Operator where
  name : String
  takes : List Kind
  gives : Kind := .column
  action : Action := .standIn
  deriving DecidableEq, Repr

/-- Something a factor can be built from. -/
inductive Entry where
  | operator (o : Operator)
  | terminal (name : String) (value : Int) (kind : Kind)
  /-- A constant that is drawn when it is needed. -/
  | drawn (name : String) (kind : Kind)
  deriving DecidableEq, Repr

/-- The constants: window lengths. -/
def constants : List Entry := [.drawn "random_int" .whole]

/-- Operators on two columns. -/
def columnOperators : List String := ["fadd", "fsub", "fmul", "fdiv", "fmax", "fmin"]

/-- Operators on a column and a whole number. -/
def scaledOperators : List String := ["iadd", "isub", "imul", "idiv"]

/-- Functions of a column, value by value. -/
def plainOperators : List String := ["log", "sign", "Abs"]

/-- Functions of a column over a window. -/
def windowOperators : List String :=
  ["ts_delay", "ts_delta", "ts_arg_max", "ts_arg_min", "ts_max", "ts_min", "ts_sum", "ts_mean",
    "ts_decay_linear", "ts_std_dev", "ts_rank"]

/-- Functions of a column within one date. -/
def sectionOperators : List String := ["cs_rank", "cs_scale"]

/-- All operators. `pass_int` gives whole numbers a way to stand at any depth. -/
def operators : List Operator :=
  { name := "pass_int", takes := [.whole], gives := .whole, action := .pass }
    :: columnOperators.map (⟨·, [.column, .column], .column, .standIn⟩)
    ++ scaledOperators.map (⟨·, [.column, .whole], .column, .standIn⟩)
    ++ plainOperators.map (⟨·, [.column], .column, .standIn⟩)
    ++ windowOperators.map (⟨·, [.column, .whole], .column, .standIn⟩)
    ++ sectionOperators.map (⟨·, [.column], .column, .standIn⟩)

/-- The columns factors start from. -/
def columns : List Entry := ["OPEN", "HIGH", "LOW", "CLOSE"].map (.terminal · 1 .column)

/-- The parts of what a search may use. -/
inductive Part where
  | constants | operators | factors
  deriving DecidableEq, Repr

namespace Part

def all : List Part := [.constants, .operators, .factors]

def ofName? : String → Option Part
  | "constants" => some .constants
  | "operators" => some .operators
  | "factors" => some .factors
  | _ => none

def entries : Part → List Entry
  | .constants => Genetic.constants
  | .operators => Genetic.operators.map .operator
  | .factors => columns

end Part

/-- What the listed parts bring, in their order. -/
def entries (parts : List Part) : List Entry := parts.flatMap Part.entries

/-- The kinds of arguments by name; a terminal takes none. -/
abbrev Signatures := Table String (List Kind)

/-- The name and the kinds of arguments of an entry that has them. -/
def Entry.signature? : Entry → Option (String × List Kind)
  | .operator o => some (o.name, o.takes)
  | .terminal n _ _ => some (n, [])
  | .drawn _ _ => none

/-- The signatures of entries; a later one of the same name counts. -/
def signatures (es : List Entry) : Signatures := Table.ofList (es.filterMap Entry.signature?)

end Genetic

end FactorPlan
