import FactorPlan.Formula.Value
import FactorPlan.Graph.Paths

/-!
Reports on graphs: the generations with the attributes of their nodes, as lines of
text.

Correspondence:
  `show_nodes` ↔ `report`
  `show_paths` ↔ `reportPaths`
-/

namespace FactorPlan

/-- Attributes by name. -/
abbrev Attributes := Table String Formula.Value

namespace Attributes

/-- The text of attributes: names and values in braces. -/
def text (a : Attributes) : String :=
  "\x7b" ++ ", ".intercalate (a.map (fun p => Text.quoted p.1 ++ ": " ++ p.2.shown)) ++ "\x7d"

end Attributes

namespace Digraph

/-- The lines that report one generation. -/
def generationLines (g : Digraph String Attributes) (i : Nat) (vs : List String) : List String :=
  (toString i ++ " " ++ String.ofList (List.replicate 20 '=') ++ " " ++ Text.quotedList vs) ::
    vs.map (fun v => ((g.get? v).getD []).text)

/-- The lines that report all generations. A cycle is noticed after the last. -/
def report (g : Digraph String Attributes) : List String × Except GraphError Unit :=
  let (gs, rest) := g.generations
  ((gs.mapIdx (generationLines g)).flatten, if rest.isEmpty then .ok () else .error .cyclic)

/-- The lines that report the way back from the listed nodes. -/
def reportPaths (g : Digraph String Attributes) (starts : List String) :
    List String × Except GraphError Unit :=
  let (as, r) := g.trace List.eraseDups starts
  (as.map Attributes.text, r)

end Digraph

end FactorPlan
