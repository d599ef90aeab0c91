/-!
Computations that may fail. A computation in steps succeeds when each step does, and fails with
the failure of the first step that does not. `Yields` asks for success and for a property of the
result.
-/

namespace FactorPlan

section

variable {ε α β : Type} {x : Except ε α}

theorem bind_eq_ok {f : α → Except ε β} {b : β} :
    (x >>= f) = .ok b ↔ ∃ a, x = .ok a ∧ f a = .ok b := by
  cases x <;> simp [bind, Except.bind]

theorem bind_eq_error {f : α → Except ε β} {e : ε} :
    (x >>= f) = .error e ↔ x = .error e ∨ ∃ a, x = .ok a ∧ f a = .error e := by
  cases x <;> simp [bind, Except.bind]

theorem map_eq_ok {f : α → β} {b : β} : x.map f = .ok b ↔ ∃ a, x = .ok a ∧ f a = b := by
  cases x <;> simp [Except.map]

theorem map_eq_error {f : α → β} {e : ε} : x.map f = .error e ↔ x = .error e := by
  cases x <;> simp [Except.map]

end

/-- The computation succeeds, and `P` holds of its result. -/
def Yields {ε α : Type} (x : Except ε α) (P : α → Prop) : Prop := ∃ a, x = .ok a ∧ P a

namespace Yields

variable {ε α β : Type} {x : Except ε α} {P : α → Prop} {R : β → Prop}

theorem pure {a : α} (h : P a) : Yields (Pure.pure a : Except ε α) P := ⟨a, rfl, h⟩

theorem bind {f : α → Except ε β} (hx : Yields x P) (hf : ∀ a, P a → Yields (f a) R) : Yields (x >>= f) R := by
  obtain ⟨a, ha, hp⟩ := hx
  obtain ⟨b, hb, hr⟩ := hf a hp
  exact ⟨b, bind_eq_ok.mpr ⟨a, ha, hb⟩, hr⟩

/-- One result, and those of a list behind it. -/
theorem cons {xs : Except ε (List α)} (hx : Yields x P) (hxs : Yields xs fun as => ∀ a ∈ as, P a) :
    Yields (do let a ← x; let as ← xs; Pure.pure (a :: as)) fun as => ∀ a ∈ as, P a :=
  hx.bind fun _ ha => hxs.bind fun _ has => pure (List.forall_mem_cons.mpr ⟨ha, has⟩)

end Yields

end FactorPlan
