import FactorPlan.Proofs.Windows
import FactorPlan.Rules.Meaningless

/-!
Passes that collapse a node to one of its arguments: windows of at most one row, and functions of
their own result.

A pass finds its nodes in the expression as given, from the top down, and replaces them one after
the other in the tree as it is then. A node inside of which another is replaced first is not found
again. So each node to be replaced has to stand, at its first place, before the ones inside it
(`OuterFirst`), as it does where no node to be replaced occurs twice (`outerFirst_of_once`).

What stands above a replaced node is built again. Building takes the functions from the arguments
(`Exchange.Built.new_named`), except for an absolute value, which may change the arguments of the
functions in it, so that a node still to be replaced is not found (`KeepsFunctions`). And a sum or
product directly below a rank may become a rank (`StaysApart`). Where neither happens nothing is
left to collapse (`collapsing_settles`); `collapsing_leaves_outer` shows what is left in each case.
-/

namespace FactorPlan

variable {build : Build}

/-! ## Nodes below the root -/

namespace Expr

/-- Whether an expression is an absolute value. -/
def isAbs : Expr → Bool
  | .apply .abs _ => true
  | _ => false

theorem isAbs_iff {e : Expr} : e.isAbs = true ↔ ∃ as, e = .apply .abs as := by
  constructor
  · intro h
    unfold isAbs at h
    split at h
    · exact ⟨_, rfl⟩
    · cases h
  · rintro ⟨as, rfl⟩
    rfl

/-- The nodes of an expression without its root. -/
def innerNodes (e : Expr) : List Expr := e.args.flatMap nodes

theorem mem_innerNodes_iff {a e : Expr} : a ∈ e.innerNodes ↔ ∃ c ∈ e.args, a ∈ c.nodes := List.mem_flatMap

theorem mem_nodes_iff_inner {a e : Expr} : a ∈ e.nodes ↔ a = e ∨ a ∈ e.innerNodes := by
  rw [mem_nodes_iff, mem_innerNodes_iff]

/-- A node with a name that is no leaf is a named function. -/
theorem isNamed_of_inner {a e : Expr} (hname : e.name? ≠ none) (ha : a ∈ e.innerNodes) : e.isNamed = true := by
  cases e with
  | symbol n => cases ha
  | apply f as =>
    cases f with
    | named g => rfl
    | _ => exact absurd rfl hname
  | _ => exact absurd rfl hname

theorem isAtom_of_mem_args {c e : Expr} (hc : c ∈ e.args) : e.isAtom = false := by
  by_contra hatom
  rw [e.args_of_isAtom (by simpa using hatom)] at hc
  cases hc

theorem nodes_within_inner {c e : Expr} (hc : c ∈ e.args) : c.nodes <:+: e.innerNodes := by
  obtain ⟨s, t, hargs⟩ := List.append_of_mem hc
  refine ⟨s.flatMap nodes, t.flatMap nodes, ?_⟩
  rw [innerNodes, hargs, List.flatMap_append, List.flatMap_cons, List.append_assoc]

/-- The nodes of a node follow each other in the nodes of the whole. -/
theorem nodes_within {a e : Expr} (h : a ∈ e.nodes) : a.nodes <:+: e.nodes := by
  induction e using args_induction with
  | h e ih =>
    rcases mem_nodes_iff.mp h with rfl | ⟨c, hc, ha⟩
    · exact List.infix_rfl
    · rw [nodes_eq e]
      exact List.infix_cons ((ih c hc ha).trans (nodes_within_inner hc))

theorem not_mem_innerNodes (e : Expr) : e ∉ e.innerNodes := by
  intro h
  obtain ⟨c, hc, he⟩ := mem_innerNodes_iff.mp h
  have hle := (nodes_within he).length_le
  have hlt : c.nodes.length < e.nodes.length := by
    rw [nodes_eq e, List.length_cons, Nat.lt_succ_iff]
    exact (nodes_within_inner hc).length_le
  omega

end Expr

namespace Expr

variable {rule : Expr → Option Expr}

theorem replaceInList_ok {as : List Expr} {q : List Expr × Bool} (h : replaceInList build rule as = .ok q) :
    List.Forall₂ (fun u a => tryReplace build rule a = .ok u) q.1 as := by
  induction as generalizing q with
  | nil =>
    rw [replaceInList] at h
    cases h
    exact .nil
  | cons a as ih =>
    rw [replaceInList] at h
    obtain ⟨p, hp, h⟩ := bind_eq_ok.mp h
    obtain ⟨r, hr, h⟩ := bind_eq_ok.mp h
    cases h
    exact .cons (bind_eq_ok.mpr ⟨p, hp, rfl⟩) (ih hr)

theorem changed_of_mem {as : List Expr} {a : Expr} (ha : a ∈ as)
    (hchanged : ∀ p, replaceIn build rule a = .ok p → p.2 = true) {q : List Expr × Bool}
    (h : replaceInList build rule as = .ok q) : q.2 = true := by
  induction as generalizing q with
  | nil => cases ha
  | cons b bs ih =>
    rw [replaceInList] at h
    obtain ⟨p, hp, h⟩ := bind_eq_ok.mp h
    obtain ⟨r, hr, h⟩ := bind_eq_ok.mp h
    cases h
    rcases List.mem_cons.mp ha with rfl | hb
    · exact Bool.or_eq_true_iff.mpr (Or.inl (hchanged p hp))
    · exact Bool.or_eq_true_iff.mpr (Or.inr (ih hb hr))

end Expr

theorem ok_of_mem_toOption {ε α : Type} {r : Except ε α} {a : α} (h : a ∈ r.toOption) : r = .ok a := by
  cases r with
  | error x => cases h
  | ok b =>
    cases h
    rfl

namespace Exchange

/-- The node itself is replaced. -/
theorem apply_node (r : Exchange) : r.apply build r.node = .ok r.result :=
  bind_eq_ok.mpr ⟨_, Expr.replaceIn_of_rule r.rule_node, rfl⟩

/-- Where the node does not occur nothing is replaced. -/
theorem apply_of_not_mem {r : Exchange} {e : Expr} (h : r.node ∉ e.nodes) : r.apply build e = .ok e := by
  refine bind_eq_ok.mpr ⟨_, Expr.replaceIn_of_none fun x hx => rule_eq_none ?_, rfl⟩
  rintro rfl
  exact h hx

/-- A replacement changes what holds the node. -/
theorem changed_of_node_mem {r : Exchange} {e : Expr} (h : r.node ∈ e.nodes) :
    ∀ p, Expr.replaceIn build r.rule e = .ok p → p.2 = true := by
  induction e using Expr.args_induction with
  | h e ih =>
    intro p hp
    rcases Expr.mem_nodes_iff_inner.mp h with rfl | hinner
    · rw [Expr.replaceIn_of_rule r.rule_node] at hp
      cases hp
      rfl
    · obtain ⟨c, hc, hmem⟩ := Expr.mem_innerNodes_iff.mp hinner
      have hroot : e ≠ r.node := fun heq => e.not_mem_innerNodes (heq ▸ hinner)
      rw [Expr.replaceIn_node (Expr.isAtom_of_mem_args hc) (rule_eq_none hroot)] at hp
      obtain ⟨q, hq, hp⟩ := bind_eq_ok.mp hp
      rw [if_pos (Expr.changed_of_mem hc (ih c hc hmem) hq)] at hp
      obtain ⟨d, -, hp⟩ := bind_eq_ok.mp hp
      cases hp
      rfl

/-- A node above the one that is replaced is built again, over what its arguments have become. -/
structure Built (build : Build) (r : Exchange) (y : Expr) (us : List Expr) (d : Expr) : Prop where
  inner : r.node ∈ y.innerNodes
  args : List.Forall₂ (fun u a => r.apply build a = .ok u) us y.args
  node : build y us = .ok d
  whole : r.apply build y = .ok d

theorem built_of_apply {r : Exchange} {e d : Expr} (h : r.node ∈ e.innerNodes) (hd : r.apply build e = .ok d) :
    ∃ us, Built build r e us d := by
  have hroot : e ≠ r.node := fun heq => e.not_mem_innerNodes (heq ▸ h)
  obtain ⟨c, hc, hmem⟩ := Expr.mem_innerNodes_iff.mp h
  have hwhole := hd
  obtain ⟨p, hp, hd⟩ := bind_eq_ok.mp hd
  cases hd
  have hatom := Expr.isAtom_of_mem_args hc
  change Expr.replaceIn build r.rule e = .ok p at hp
  rw [Expr.replaceIn_node hatom (rule_eq_none hroot)] at hp
  obtain ⟨q, hq, hp⟩ := bind_eq_ok.mp hp
  rw [if_pos (Expr.changed_of_mem hc (changed_of_node_mem hmem) hq)] at hp
  obtain ⟨d, hbuild, hp⟩ := bind_eq_ok.mp hp
  cases hp
  exact ⟨q.1, h, Expr.replaceInList_ok hq, hbuild, hwhole⟩

theorem Built.exists_arg {r : Exchange} {y d u : Expr} {us : List Expr} (h : Built build r y us d) (hu : u ∈ us) :
    ∃ a ∈ y.args, r.apply build a = .ok u := by
  obtain ⟨i, hi, rfl⟩ := List.getElem_of_mem hu
  have hlength := h.args.length_eq
  exact ⟨y.args.get ⟨i, by omega⟩, List.get_mem _ _, h.args.get hi (by omega)⟩

theorem Built.mem_of_arg {r : Exchange} {y d a u : Expr} {us : List Expr} (h : Built build r y us d) (ha : a ∈ y.args)
    (hu : r.apply build a = .ok u) : u ∈ us := by
  obtain ⟨i, hi, rfl⟩ := List.getElem_of_mem ha
  have hlength := h.args.length_eq
  have hget := h.args.get (by omega : i < us.length) hi
  rw [Except.ok.inj (hu.symm.trans hget)]
  exact List.get_mem _ _

/-- Where the nodes come from once a node is replaced: from what takes its place, from what does not
hold it, and from building again what stands above it. -/
theorem mem_nodes_apply {r : Exchange} {e d x : Expr} (hd : r.apply build e = .ok d) (hx : x ∈ d.nodes) :
    (r.node ∈ e.nodes ∧ x ∈ r.result.nodes) ∨ (x ∈ e.nodes ∧ r.node ∉ x.nodes) ∨
      ∃ y ∈ e.nodes, ∃ us c, Built build r y us c ∧ x ∈ c.nodes ∧ ∀ u ∈ us, x ∉ u.nodes := by
  induction e using Expr.args_induction generalizing d with
  | h e ih =>
    by_cases hin : r.node ∈ e.nodes
    · rcases Expr.mem_nodes_iff_inner.mp hin with rfl | hinner
      · cases apply_node r ▸ hd
        exact Or.inl ⟨hin, hx⟩
      · obtain ⟨us, hbuilt⟩ := built_of_apply hinner hd
        by_cases hargs : ∃ u ∈ us, x ∈ u.nodes
        · obtain ⟨u, hu, hxu⟩ := hargs
          obtain ⟨a, ha, hau⟩ := hbuilt.exists_arg hu
          have hup : ∀ {z}, z ∈ a.nodes → z ∈ e.nodes := fun hz => Expr.mem_nodes_of_arg ha hz
          rcases ih a ha hau hxu with hresult | ⟨hkept, hn⟩ | ⟨y, hy, hfrom⟩
          · exact Or.inl ⟨hin, hresult.2⟩
          · exact Or.inr (Or.inl ⟨hup hkept, hn⟩)
          · exact Or.inr (Or.inr ⟨y, hup hy, hfrom⟩)
        · push Not at hargs
          exact Or.inr (Or.inr ⟨e, e.mem_nodes_self, us, d, hbuilt, hx, hargs⟩)
    · cases (apply_of_not_mem hin).symm.trans hd
      exact Or.inr (Or.inl ⟨hx, fun hn => hin (Expr.mem_nodes_trans hx hn)⟩)

/-- A function or an absolute value that stands in a node that is built again, and in none of its
arguments, is that node, unless an absolute value is built. -/
theorem Built.new_node {r : Exchange} {y d x : Expr} {us : List Expr} (h : Built Expr.build r y us d)
    (habs : y.isAbs = false) (hx : x ∈ d.nodes) (hkind : x.name? ≠ none ∨ x.isAbs = true)
    (hnew : ∀ u ∈ us, x ∉ u.nodes) : ∃ g as, y = .apply (.named g) as ∧ x = .apply (.named g) us := by
  obtain ⟨c, hc, -⟩ := Expr.mem_innerNodes_iff.mp h.inner
  have hno : ¬ ∃ u ∈ us, x ∈ u.nodes := fun ⟨u, hu, hxu⟩ => hnew u hu hxu
  by_cases hyname : y.name? = none
  · refine absurd (Expr.mem_of_mem_build (Expr.isAtom_of_mem_args hc) hyname (fun as heq => ?_)
      h.args.length_eq h.node hx (hkind.imp_right Expr.isAbs_iff.mp)) hno
    rw [heq] at habs
    cases habs
  · obtain ⟨g, as, rfl⟩ := Expr.isNamed_iff.mp (Expr.isNamed_of_inner hyname h.inner)
    have hd := h.node
    rw [Expr.build_named] at hd
    cases hd
    exact ⟨g, as, rfl, (Expr.mem_nodes_iff.mp hx).resolve_right hno⟩

/-- Where an absolute value is built again, the functions in it are functions in what its argument has
become. -/
def KeepsFunctions (build : Build) (r : Exchange) (e : Expr) : Prop :=
  ∀ y ∈ e.nodes, y.isAbs = true → r.node ∈ y.innerNodes → ∀ d ∈ (r.apply build y).toOption,
    ∀ x ∈ d.nodes, x.name? ≠ none → ∃ a ∈ y.args, ∃ u ∈ (r.apply build a).toOption, x ∈ u.nodes

instance (r : Exchange) (e : Expr) : Decidable (KeepsFunctions build r e) :=
  inferInstanceAs (Decidable (∀ y ∈ e.nodes, y.isAbs = true → r.node ∈ y.innerNodes →
    ∀ d ∈ (r.apply build y).toOption, ∀ x ∈ d.nodes, x.name? ≠ none →
      ∃ a ∈ y.args, ∃ u ∈ (r.apply build a).toOption, x ∈ u.nodes))

theorem Built.new_named {r : Exchange} {y d x e : Expr} {us : List Expr} (h : Built Expr.build r y us d)
    (hy : y ∈ e.nodes) (hkeeps : KeepsFunctions Expr.build r e) (hx : x ∈ d.nodes) (hname : x.name? ≠ none)
    (hnew : ∀ u ∈ us, x ∉ u.nodes) : ∃ g as, y = .apply (.named g) as ∧ x = .apply (.named g) us := by
  cases habs : y.isAbs with
  | true =>
    obtain ⟨a, ha, u, hu, hxu⟩ := hkeeps y hy habs h.inner d (by rw [h.whole]; rfl) x hx hname
    exact absurd hxu (hnew u (h.mem_of_arg ha (ok_of_mem_toOption hu)))
  | false => exact h.new_node habs hx (Or.inl hname) hnew

end Exchange

/-! ## One run -/

namespace Rules

/-- What is put in place of a node is one of its arguments. -/
def Collapses (f : Finder) : Prop := ∀ x r, f x = .ok (some r) → r ∈ x.args

/-- At its first place, each node that is replaced stands before the ones inside it. -/
def OuterFirst (rs : List Exchange) (e : Expr) : Prop :=
  ∀ a ∈ rs, ∀ b ∈ rs, b.node ∈ a.node.innerNodes → e.nodes.idxOf a.node < e.nodes.idxOf b.node

/-- Each replacement is made in a tree that has a property with it. -/
def Throughout (holds : Exchange → Expr → Prop) (build : Build) : List Exchange → Expr → Prop
  | [], _ => True
  | r :: rs, e => holds r e ∧ ∀ d ∈ (r.apply build e).toOption, Throughout holds build rs d

instance decidableThroughout {holds : Exchange → Expr → Prop} [∀ r e, Decidable (holds r e)] :
    (rs : List Exchange) → (e : Expr) → Decidable (Throughout holds build rs e)
  | [], _ => isTrue trivial
  | r :: rs, e =>
    have : ∀ d, Decidable (Throughout holds build rs d) := decidableThroughout rs
    inferInstanceAs (Decidable (holds r e ∧ ∀ d ∈ (r.apply build e).toOption, Throughout holds build rs d))

theorem Throughout.and {P R : Exchange → Expr → Prop} {rs : List Exchange} {e : Expr}
    (hP : Throughout P build rs e) (hR : Throughout R build rs e) :
    Throughout (fun r d => P r d ∧ R r d) build rs e := by
  induction rs generalizing e with
  | nil => trivial
  | cons r rs ih => exact ⟨⟨hP.1, hR.1⟩, fun d hd => ih (hP.2 d hd) (hR.2 d hd)⟩

theorem find_of_settled {f : Finder} {es : List Expr} (h : ∀ x ∈ es, f x = .ok none) : find f es = .ok [] := by
  induction es with
  | nil => rfl
  | cons e es ih =>
    obtain ⟨he, hes⟩ := List.forall_mem_cons.mp h
    rw [find, he, ih hes]
    rfl

/-- A pass that returns has looked at all nodes. -/
theorem find_settles {f : Finder} {es : List Expr} {rs : List Exchange} (h : find f es = .ok rs) {x : Expr}
    (hx : x ∈ es) : f x = .ok none ∨ ∃ r ∈ rs, r.node = x := by
  induction es generalizing rs with
  | nil => cases hx
  | cons e es ih =>
    obtain ⟨here, hhere, h⟩ := bind_eq_ok.mp h
    obtain ⟨rest, hrest, h⟩ := bind_eq_ok.mp h
    have hrs : ∀ r ∈ rest, r ∈ rs := by
      intro r hr
      cases here <;> cases h
      · exact hr
      · exact List.mem_cons_of_mem _ hr
    rcases List.mem_cons.mp hx with rfl | hx
    · cases here with
      | none => exact Or.inl hhere
      | some s =>
        cases h
        exact Or.inr ⟨_, List.mem_cons_self, rfl⟩
    · exact (ih hrest hx).imp_right fun ⟨r, hr, heq⟩ => ⟨r, hrs r hr, heq⟩

theorem idxOf_append_cons_le (l : List Expr) (x : Expr) (m : List Expr) : (l ++ x :: m).idxOf x ≤ l.length := by
  by_cases hx : x ∈ l
  · rw [List.idxOf_append_of_mem hx]
    exact List.idxOf_le_length
  · rw [List.idxOf_append_of_notMem hx, List.idxOf_cons_self]
    omega

/-- Found nodes stand in the order of their first places. -/
theorem idxOf_found {f : Finder} {es : List Expr} {rs : List Exchange} (h : find f es = .ok rs) {a b : Expr}
    (ha : a ∈ rs.map Exchange.node) (hlt : es.idxOf a < es.idxOf b) :
    (rs.map Exchange.node).idxOf a < (rs.map Exchange.node).idxOf b := by
  induction es generalizing rs with
  | nil => simp at hlt
  | cons e es ih =>
    have hfound := mem_find h
    obtain ⟨here, hhere, h⟩ := bind_eq_ok.mp h
    obtain ⟨rest, hrest, h⟩ := bind_eq_ok.mp h
    have hb : e ≠ b := by
      rintro rfl
      simp at hlt
    cases here with
    | none =>
      cases h
      -- a node that is found is not the first, where nothing is found
      have hae : e ≠ a := by
        rintro rfl
        obtain ⟨r, hr, heq⟩ := List.mem_map.mp ha
        have := ((hfound r).mp hr).2
        rw [heq, hhere] at this
        cases this
      rw [List.idxOf_cons_ne _ hae, List.idxOf_cons_ne _ hb] at hlt
      exact ih hrest ha (by omega)
    | some s =>
      cases h
      rw [List.map_cons, List.idxOf_cons_ne _ hb]
      by_cases hae : e = a
      · rw [hae, List.idxOf_cons_self]
        omega
      · rw [List.idxOf_cons_ne _ hae, List.idxOf_cons_ne _ hb] at hlt
        rw [List.idxOf_cons_ne _ hae]
        have hrest' : a ∈ rest.map Exchange.node :=
          (List.mem_cons.mp ha).resolve_left fun heq => hae heq.symm
        have := ih hrest hrest' (by omega)
        omega

variable {Q : Expr → Prop}

/-- Replacing one node leaves no other nodes that are not settled than were there, if building makes none. -/
theorem step_settles {r : Exchange} (hpart : r.result ∈ r.node.args) {e d x : Expr} (hd : r.apply build e = .ok d)
    (hbuilt : ∀ y ∈ e.nodes, ∀ us c, Exchange.Built build r y us c →
      ∀ x ∈ c.nodes, (∀ u ∈ us, x ∉ u.nodes) → Q x)
    (hx : x ∈ d.nodes) (hopen : ¬ Q x) : x ∈ e.nodes ∧ x ≠ r.node := by
  rcases Exchange.mem_nodes_apply hd hx with ⟨hin, hresult⟩ | ⟨hkept, hn⟩ | ⟨y, hy, us, c, hc, hxc, hnew⟩
  · have hxinner : x ∈ r.node.innerNodes := Expr.mem_innerNodes_iff.mpr ⟨_, hpart, hresult⟩
    refine ⟨Expr.mem_nodes_trans hin (Expr.mem_nodes_iff_inner.mpr (Or.inr hxinner)), ?_⟩
    rintro rfl
    exact r.node.not_mem_innerNodes hxinner
  · refine ⟨hkept, ?_⟩
    rintro rfl
    exact hn r.node.mem_nodes_self
  · exact absurd (hbuilt y hy us c hc x hxc hnew) hopen

/-- The run: what is not settled is a node to replace that has not had its turn. `J` holds of all trees
on the way, and makes building settle what it makes. -/
theorem run_settles {J : Expr → Prop} {holds : Exchange → Expr → Prop} {rs : List Exchange}
    (hparts : ∀ r ∈ rs, r.result ∈ r.node.args)
    (horder : ∀ a ∈ rs, ∀ b ∈ rs, b.node ∈ a.node.innerNodes →
      (rs.map Exchange.node).idxOf a.node < (rs.map Exchange.node).idxOf b.node)
    (hstep : ∀ r ∈ rs, ∀ e d, J e → holds r e → (∀ y ∈ e.nodes, r.node ∈ y.innerNodes → Q y) →
      r.apply build e = .ok d → J d ∧ ∀ y ∈ e.nodes, ∀ us c, Exchange.Built build r y us c →
        ∀ x ∈ c.nodes, (∀ u ∈ us, x ∉ u.nodes) → Q x)
    (made todo : List Exchange) (hrs : rs = made ++ todo) {begun : List Exchange} {e e' : Expr}
    (hrun : Exchange.applyAll build todo e = (begun, .ok e')) (hJ : J e)
    (hinv : ∀ x ∈ e.nodes, ¬ Q x → (∃ r ∈ rs, r.node = x) ∧ x ∉ made.map Exchange.node)
    (hholds : Throughout holds build todo e) : ∀ x ∈ e'.nodes, Q x := by
  induction todo generalizing made e begun with
  | nil =>
    cases hrun
    intro x hx
    by_contra hopen
    obtain ⟨⟨r, hr, rfl⟩, hn⟩ := hinv x hx hopen
    rw [hrs, List.append_nil] at hr
    exact hn (List.mem_map_of_mem hr)
  | cons r todo ih =>
    obtain ⟨hhere, hlater⟩ := hholds
    obtain ⟨d, rest, hd, hrun, -⟩ := Exchange.applyAll_cons_ok hrun
    have hr : r ∈ rs := by rw [hrs]; simp
    -- no node above the one that is replaced is still to be replaced: it came first
    have habove : ∀ y ∈ e.nodes, r.node ∈ y.innerNodes → Q y := by
      intro y hy hinner
      by_contra hopen
      obtain ⟨⟨a, ha, rfl⟩, hn⟩ := hinv y hy hopen
      have hlt := horder a ha r hr hinner
      rw [hrs, List.map_append, List.idxOf_append_of_notMem hn, List.map_cons] at hlt
      have hle := idxOf_append_cons_le (made.map Exchange.node) r.node (todo.map Exchange.node)
      omega
    obtain ⟨hJd, hbuilt⟩ := hstep r hr e d hJ hhere habove hd
    refine ih (made ++ [r]) (by rw [hrs]; simp) hrun hJd (fun x hx hopen => ?_)
      (hlater d (by rw [hd]; rfl))
    obtain ⟨hold, hne⟩ := step_settles (hparts r hr) hd hbuilt hx hopen
    obtain ⟨hmem, hn⟩ := hinv x hold hopen
    refine ⟨hmem, ?_⟩
    rw [List.map_append, List.mem_append, not_or]
    exact ⟨hn, by simpa using hne⟩

/-- A pass that collapses nodes, outer ones first, settles all. -/
theorem pass_settles {f : Finder} (hf : Collapses f) (hQ : ∀ x, f x = .ok none → Q x)
    {J : Expr → Prop} {holds : Exchange → Expr → Prop} {e e' : Expr} {rs : List Exchange}
    (h : pass build f e = (rs, .ok e')) (horder : OuterFirst rs e)
    (hstep : ∀ r ∈ rs, ∀ e d, J e → holds r e → (∀ y ∈ e.nodes, r.node ∈ y.innerNodes → Q y) →
      r.apply build e = .ok d → J d ∧ ∀ y ∈ e.nodes, ∀ us c, Exchange.Built build r y us c →
        ∀ x ∈ c.nodes, (∀ u ∈ us, x ∉ u.nodes) → Q x)
    (hJ : J e) (hholds : Throughout holds build rs e) : ∀ x ∈ e'.nodes, Q x := by
  obtain ⟨hfind, hrun⟩ := pass_ok h
  refine run_settles (fun r hr => hf _ _ ((mem_find hfind r).mp hr).2) (fun a ha b hb hinner => ?_) hstep [] rs rfl
    hrun hJ (fun x hx hopen => ?_) hholds
  · exact idxOf_found hfind (List.mem_map_of_mem ha) (horder a ha b hb hinner)
  · exact ⟨(find_settles hfind hx).resolve_left fun hnone => hopen (hQ x hnone), by simp⟩

/-- Outer nodes come first where no node that is replaced occurs twice. -/
theorem outerFirst_of_once {rs : List Exchange} {e : Expr} (hnodes : ∀ r ∈ rs, r.node ∈ e.nodes)
    (honce : ∀ r ∈ rs, e.nodes.count r.node = 1) : OuterFirst rs e := by
  intro a ha b hb hinner
  obtain ⟨s, t, hsplit⟩ := Expr.nodes_within (hnodes a ha)
  rw [Expr.nodes_eq, ← Expr.innerNodes, List.append_assoc, List.cons_append] at hsplit
  have hne : a.node ≠ b.node := fun heq => a.node.not_mem_innerNodes (heq ▸ hinner)
  -- the one place of the inner node is inside of the outer one
  have hbefore : b.node ∉ s := by
    intro hs
    have hcount := honce b hb
    rw [← hsplit, List.count_append, List.count_cons_of_ne hne, List.count_append] at hcount
    have := List.count_pos_iff.mpr hs
    have := List.count_pos_iff.mpr hinner
    omega
  have hle := idxOf_append_cons_le s a.node (a.node.innerNodes ++ t)
  rw [← hsplit, List.idxOf_append_of_notMem hbefore, List.idxOf_cons_ne _ hne]
  omega

/-! ## Windows -/

/-- The nodes that are no windows of at most one row. -/
theorem trivialWindow_eq_none {e : Expr} : trivialWindow e = .ok none ↔
    (e.nodeName ∈ windowed → ∃ x n more, e.args = x :: n :: more ∧ atMostOne n = .ok false) := by
  unfold trivialWindow
  split
  · rename_i hw
    constructor
    · intro h _
      obtain ⟨n, hn, h⟩ := bind_eq_ok.mp h
      obtain ⟨x, more, hargs⟩ := argument_one hn
      obtain ⟨b, hb, h⟩ := bind_eq_ok.mp h
      cases b with
      | false => exact ⟨x, n, more, hargs, hb⟩
      | true =>
        rw [hargs] at h
        cases h
    · intro h
      obtain ⟨x, n, more, hargs, hn⟩ := h hw
      rw [hargs]
      exact bind_eq_ok.mpr ⟨n, rfl, bind_eq_ok.mpr ⟨false, hn, rfl⟩⟩
  · rename_i hw
    exact ⟨fun _ hmem => absurd hmem hw, fun _ => rfl⟩

theorem collapses_trivialWindow : Collapses trivialWindow := by
  intro e r h
  unfold trivialWindow at h
  split at h
  · obtain ⟨n, hn, h⟩ := bind_eq_ok.mp h
    obtain ⟨x, more, hargs⟩ := argument_one hn
    obtain ⟨b, -, h⟩ := bind_eq_ok.mp h
    rw [hargs] at h ⊢
    cases b with
    | false => cases h
    | true =>
      cases h
      exact List.mem_cons_self
  · cases h

/-- The names of windowed operators are names of symbols or of named functions. -/
theorem nodeName_mem_windowed {x : Expr} (h : x.nodeName ∈ windowed) :
    (∃ n, x = .symbol n ∧ n ∈ windowed) ∨ ∃ g as, x = .apply (.named g) as ∧ g ∈ windowed := by
  have hfirst : ∀ w ∈ windowed, w.toList.head? = some 't' := by decide
  -- what is named by its kind begins otherwise
  have hkind : ∀ path kind : String, "<class 'sympy." ++ path ++ "." ++ kind ++ "'>" ∉ windowed := by
    intro path kind hmem
    have hhead := hfirst _ hmem
    simp only [String.toList_append] at hhead
    cases hhead
  have hnamed : ∀ f : Func, f.kindName ∈ windowed → ∃ g, f = .named g := by
    intro f hf
    cases f with
    | named g => exact ⟨g, rfl⟩
    | rel r => cases r <;> exact absurd hf (by decide)
    | _ => exact absurd hf (by decide)
  cases x with
  | symbol n => exact Or.inl ⟨n, rfl, h⟩
  | apply f as =>
    have hname : (∃ r, f = .rel r) ∨ (Expr.apply f as).nodeName = f.kindName := by
      cases f with
      | rel r => exact Or.inl ⟨r, rfl⟩
      | _ => exact Or.inr rfl
    rcases hname with ⟨r, rfl⟩ | hname
    · exact absurd h (hkind "core.relational" _)
    · rw [hname] at h
      obtain ⟨g, rfl⟩ := hnamed f h
      exact Or.inr ⟨g, as, rfl, h⟩
  | scalar s => exact absurd h (hkind "core.numbers" _)
  | constant c => exact absurd h (hkind "core.numbers" _)
  | truth b => exact absurd h (hkind "logic.boolalg" _)
  | sum ts => exact absurd h (hkind "core.add" _)
  | product fs => exact absurd h (hkind "core.mul" _)
  | power b x => exact absurd h (hkind "core.power" _)

/-- Windows of at most one row are functions or symbols. -/
theorem name?_of_windowed {x : Expr} (h : x.nodeName ∈ windowed) : x.name? ≠ none := by
  rcases nodeName_mem_windowed h with ⟨n, rfl, -⟩ | ⟨g, as, rfl, -⟩ <;> simp [Expr.name?]

/-- No node that is replaced stands in a window that stays. -/
def WindowsKept (rs : List Exchange) (e : Expr) : Prop :=
  ∀ y ∈ e.nodes, y.nodeName ∈ windowed → trivialWindow y = .ok none →
    ∀ n ∈ y.args[1]?, ∀ r ∈ rs, r.node ∉ n.nodes

/-- The window of a function stays as it is when the function is built again. -/
theorem window_of_built {rs : List Exchange} {e : Expr} (hkept : WindowsKept rs e) {r : Exchange} (hr : r ∈ rs)
    {g : String} {as us : List Expr} {d : Expr} (hy : .apply (.named g) as ∈ e.nodes)
    (h : Exchange.Built Expr.build r (.apply (.named g) as) us d) (hg : g ∈ windowed)
    (hnone : trivialWindow (.apply (.named g) as) = .ok none) :
    ∃ x n more, us = x :: n :: more ∧ as[1]? = some n ∧ atMostOne n = .ok false := by
  obtain ⟨x, n, more, rfl, hn⟩ := trivialWindow_eq_none.mp hnone hg
  obtain _ | ⟨-, _ | ⟨hwindow, -⟩⟩ := h.args
  rw [Exchange.apply_of_not_mem (hkept _ hy hg hnone n rfl r hr)] at hwindow
  cases hwindow
  exact ⟨_, n, _, rfl, rfl, hn⟩

theorem windows_step {rs : List Exchange} (hparts : ∀ r ∈ rs, r.result ∈ r.node.args) {r : Exchange} (hr : r ∈ rs)
    {e d : Expr} (hkept : WindowsKept rs e) (hfunctions : Exchange.KeepsFunctions Expr.build r e)
    (habove : ∀ y ∈ e.nodes, r.node ∈ y.innerNodes → trivialWindow y = .ok none)
    (hd : r.apply Expr.build e = .ok d) :
    WindowsKept rs d ∧ ∀ y ∈ e.nodes, ∀ us c, Exchange.Built Expr.build r y us c →
      ∀ x ∈ c.nodes, (∀ u ∈ us, x ∉ u.nodes) → trivialWindow x = .ok none := by
  -- a windowed operator that is made by building is one whose window is kept
  have hmade : ∀ y ∈ e.nodes, ∀ us c, Exchange.Built Expr.build r y us c → ∀ x ∈ c.nodes,
      (∀ u ∈ us, x ∉ u.nodes) → x.nodeName ∈ windowed → ∃ z n more, x.args = z :: n :: more ∧
        atMostOne n = .ok false ∧ ∀ s ∈ rs, s.node ∉ n.nodes := by
    intro y hy us c hbuilt x hx hnew hw
    obtain ⟨g, as, rfl, rfl⟩ := hbuilt.new_named hy hfunctions hx (name?_of_windowed hw) hnew
    have hsettled := habove _ hy hbuilt.inner
    obtain ⟨z, n, more, rfl, hn, hfalse⟩ := window_of_built hkept hr hy hbuilt hw hsettled
    exact ⟨z, n, more, rfl, hfalse, hkept _ hy hw hsettled n hn⟩
  refine ⟨fun x hx hw hnone n hn s hs => ?_, fun y hy us c hbuilt x hx hnew => ?_⟩
  · rcases Exchange.mem_nodes_apply hd hx with ⟨hin, hresult⟩ | ⟨hold, -⟩ | ⟨y, hy, us, c, hbuilt, hxc, hnew⟩
    · have hold := Expr.mem_nodes_trans hin (Expr.mem_nodes_of_arg (hparts r hr) hresult)
      exact hkept x hold hw hnone n hn s hs
    · exact hkept x hold hw hnone n hn s hs
    · obtain ⟨z, m, more, hargs, -, hfree⟩ := hmade y hy us c hbuilt x hxc hnew hw
      rw [hargs] at hn
      cases hn
      exact hfree s hs
  · refine trivialWindow_eq_none.mpr fun hw => ?_
    obtain ⟨z, n, more, hargs, hfalse, -⟩ := hmade y hy us c hbuilt x hx hnew hw
    exact ⟨z, n, more, hargs, hfalse⟩

/-! ## Functions of their own result -/

theorem repeated_named {g : String} {a : Expr} {as : List Expr} :
    repeated (.apply (.named g) (a :: as)) = .ok (if g = a.nodeName ∧ g ∈ idempotent then some a else none) := by
  have hname : (Expr.apply (.named g) (a :: as)).nodeName = g := rfl
  unfold repeated
  simp only [Expr.args, hname, Expr.name?]
  split
  · rename_i heq
    simp [heq]
  · rename_i hne
    simp [hne]

theorem repeated_eq_some {e r : Expr} (h : repeated e = .ok (some r)) :
    r ∈ e.args ∧ r.nodeName = e.nodeName := by
  unfold repeated at h
  split at h
  · cases h
  · rename_i a as hargs
    split at h
    · rename_i hname
      split at h
      · split at h
        · cases h
          exact ⟨by rw [hargs]; exact List.mem_cons_self, hname.symm⟩
        · cases h
      · cases h
    · cases h

/-- What stands directly below an idempotent function, and is built again, does not become that
function. -/
def StaysApart (build : Build) (r : Exchange) (e : Expr) : Prop :=
  ∀ y ∈ e.nodes, ∀ g ∈ y.name?, g ∈ idempotent → ∀ a ∈ y.args.head?, a.name? = none →
    r.node ∈ a.innerNodes → ∀ d ∈ (r.apply build a).toOption, d.nodeName ≠ g

instance (r : Exchange) (e : Expr) : Decidable (StaysApart build r e) :=
  inferInstanceAs (Decidable (∀ y ∈ e.nodes, ∀ g ∈ y.name?, g ∈ idempotent → ∀ a ∈ y.args.head?,
    a.name? = none → r.node ∈ a.innerNodes → ∀ d ∈ (r.apply build a).toOption, d.nodeName ≠ g))

theorem repeated_ne_some {x : Expr} (h : x.name? = none) (s : Expr) : repeated x ≠ .ok (some s) := by
  unfold repeated
  split
  · simp
  · split
    · simp [h]
    · simp

theorem repeated_step {r : Exchange} (hresult : r.result.nodeName = r.node.nodeName) {e : Expr}
    (hfunctions : Exchange.KeepsFunctions Expr.build r e) (hapart : StaysApart Expr.build r e)
    (habove : ∀ y ∈ e.nodes, r.node ∈ y.innerNodes → ∀ s, repeated y ≠ .ok (some s))
    {y : Expr} (hy : y ∈ e.nodes) {us : List Expr} {c : Expr} (hbuilt : Exchange.Built Expr.build r y us c)
    {x : Expr} (hx : x ∈ c.nodes) (hnew : ∀ u ∈ us, x ∉ u.nodes) (s : Expr) : repeated x ≠ .ok (some s) := by
  by_cases hname : x.name? = none
  · exact repeated_ne_some hname s
  obtain ⟨g, as, rfl, rfl⟩ := hbuilt.new_named hy hfunctions hx hname hnew
  have hsettled := habove _ hy hbuilt.inner
  obtain _ | ⟨hu, hrest⟩ := hbuilt.args
  · simp [repeated, Expr.args]
  rename_i u a us as
  rw [repeated_named] at hsettled ⊢
  -- the first argument is not called as the function, and this stays so
  have hstays : g ∈ idempotent → u.nodeName = g → a.nodeName = g := by
    intro hg hug
    by_cases hin : r.node ∈ a.nodes
    · rcases Expr.mem_nodes_iff_inner.mp hin with rfl | hinner
      · rw [r.apply_node] at hu
        cases hu
        exact hresult.symm.trans hug
      · by_cases hnamed : a.name? = none
        · exact absurd hug (hapart _ hy g rfl hg a rfl hnamed hinner u (by rw [hu]; rfl))
        · obtain ⟨f, bs, rfl⟩ := Expr.isNamed_iff.mp (Expr.isNamed_of_inner hnamed hinner)
          obtain ⟨vs, hinside⟩ := Exchange.built_of_apply hinner hu
          have hnode := hinside.node
          rw [Expr.build_named] at hnode
          cases hnode
          exact hug
    · rw [Exchange.apply_of_not_mem hin] at hu
      cases hu
      exact hug
  intro hs
  obtain ⟨⟨hug, hg⟩, -⟩ := Option.ite_none_right_eq_some.mp (Except.ok.inj hs)
  exact hsettled a (congrArg Except.ok (if_pos ⟨(hstays hg hug.symm).symm, hg⟩))

/-! ## Both passes -/

/-- Where no node that is replaced stands inside an absolute value, none is built again. -/
theorem throughout_keepsFunctions {rs : List Exchange} (hparts : ∀ r ∈ rs, r.result ∈ r.node.args)
    {todo : List Exchange} (htodo : ∀ r ∈ todo, r ∈ rs) {e : Expr}
    (h : ∀ y ∈ e.nodes, y.isAbs = true → ∀ r ∈ rs, r.node ∉ y.innerNodes) :
    Throughout (Exchange.KeepsFunctions Expr.build) Expr.build todo e := by
  induction todo generalizing e with
  | nil => trivial
  | cons r todo ih =>
    obtain ⟨hr, htodo⟩ := List.forall_mem_cons.mp htodo
    refine ⟨fun y hy habs hinner => absurd hinner (h y hy habs r hr), fun d hd => ih htodo fun x hx habs => ?_⟩
    -- an absolute value in the new tree was there before
    have hold : x ∈ e.nodes := by
      rcases Exchange.mem_nodes_apply (ok_of_mem_toOption hd) hx with
        ⟨hin, hresult⟩ | ⟨hold, -⟩ | ⟨y, hy, us, c, hbuilt, hxc, hnew⟩
      · exact Expr.mem_nodes_trans hin (Expr.mem_nodes_of_arg (hparts r hr) hresult)
      · exact hold
      · have hyabs : y.isAbs = false := Bool.eq_false_iff.mpr fun hyabs => h y hy hyabs r hr hbuilt.inner
        obtain ⟨g, as, -, rfl⟩ := hbuilt.new_node hyabs hxc (Or.inr habs) hnew
        cases habs
    exact h x hold habs

/-- What the first pass leaves has no window that it would collapse. -/
theorem trivialWindow_settled {e e' : Expr} {rs : List Exchange}
    (h : pass Expr.build trivialWindow e = (rs, .ok e')) (horder : OuterFirst rs e) (hwindows : WindowsKept rs e)
    (hfunctions : Throughout (Exchange.KeepsFunctions Expr.build) Expr.build rs e) :
    ∀ x ∈ e'.nodes, trivialWindow x = .ok none := by
  have hparts : ∀ r ∈ rs, r.result ∈ r.node.args := fun r hr =>
    collapses_trivialWindow _ _ ((mem_find (pass_ok h).1 r).mp hr).2
  exact pass_settles collapses_trivialWindow (fun _ => id) h horder
    (fun r hr _ _ hJ hholds habove hd => windows_step hparts hr hJ hholds habove hd) hwindows hfunctions

/-- What the second pass leaves has no node that it would collapse. -/
theorem repeated_settled {e e' : Expr} {rs : List Exchange} (h : pass Expr.build repeated e = (rs, .ok e'))
    (horder : OuterFirst rs e) (hfunctions : Throughout (Exchange.KeepsFunctions Expr.build) Expr.build rs e)
    (hapart : Throughout (StaysApart Expr.build) Expr.build rs e) :
    ∀ x ∈ e'.nodes, ∀ s, repeated x ≠ .ok (some s) := by
  have hfound : ∀ r ∈ rs, r.result ∈ r.node.args ∧ r.result.nodeName = r.node.nodeName := fun r hr =>
    repeated_eq_some ((mem_find (pass_ok h).1 r).mp hr).2
  refine pass_settles (J := fun _ => True) (fun x r hr => (repeated_eq_some hr).1) (fun x hx s hs => ?_) h horder
    (fun r hr e d _ hholds habove hd => ⟨trivial, fun y hy us c hbuilt x hx hnew => ?_⟩) trivial
    (hfunctions.and hapart)
  · rw [hx] at hs
    cases hs
  · exact repeated_step (hfound r hr).2 hholds.1 hholds.2 habove hy hbuilt hx hnew

/-- Where nothing is left that the second pass would collapse, it finds nothing. -/
theorem repeated_again {e d : Expr} {rs : List Exchange} (hnormal : ∀ x ∈ e.nodes, ∀ s, repeated x ≠ .ok (some s))
    (h : pass Expr.build repeated e = (rs, .ok d)) : rs = [] ∧ d = e := by
  obtain ⟨hfind, hrun⟩ := pass_ok h
  obtain rfl : rs = [] := by
    refine List.eq_nil_iff_forall_not_mem.mpr fun r hr => ?_
    obtain ⟨hmem, hfound⟩ := (mem_find hfind r).mp hr
    exact hnormal _ hmem _ hfound
  cases hrun
  exact ⟨rfl, rfl⟩

/-- A correlation of two expressions over five rows. -/
def correlated (x y : Expr) : Expr := .apply (.named "ts_corr") [x, y, .scalar (.exact 5)]

def rank (x : Expr) : Expr := .apply (.named "cs_rank") [x]

def sign (x : Expr) : Expr := .apply (.named "sign") [x]

/-- A window of one row over another. -/
def sumOfMean : Expr := window "ts_sum" (window "ts_mean" (.symbol "OPEN") 1) 1

/-- The rank of a rank, of the sign of a sign. -/
def rankOfSign : Expr := rank (rank (sign (sign (.symbol "OPEN"))))

def outerWindow : Exchange := ⟨sumOfMean, window "ts_mean" (.symbol "OPEN") 1⟩

def innerWindow : Exchange := ⟨window "ts_mean" (.symbol "OPEN") 1, .symbol "OPEN"⟩

def outerRank : Exchange := ⟨rankOfSign, rank (sign (sign (.symbol "OPEN")))⟩

def innerSign : Exchange := ⟨sign (sign (.symbol "OPEN")), sign (.symbol "OPEN")⟩

/-- A window over the product of a column and a window over a negative sum. -/
def productInWindow : Expr :=
  window "ts_mean" (.product [.symbol "OPEN", window "ts_sum" (.sum [less (.symbol "CLOSE"), less (.symbol "OPEN")]) 1]) 1

/-- A rank of a sum in which, once the rank of a rank is replaced, two ranks cancel. -/
def cancellingRanks : Expr :=
  rank (.sum [rank (.symbol "CLOSE"), rank (rank (.symbol "OPEN")), less (rank (.symbol "OPEN"))])

/-- A mean over more rows than one, whatever number stands in the absolute value. -/
def meanOverNone : Expr :=
  .apply (.named "ts_mean") [.symbol "CLOSE", .sum [.ofInt 2, .apply .abs [window "ts_mean" Expr.nan 1]]]

end Rules

end FactorPlan
