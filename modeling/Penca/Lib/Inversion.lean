import Mathlib.Data.List.Forall2

/-!
# `Lib.Inversion` — what a computation that succeeds says about its parts

Sequencing in `Except` and traversals in `Option`, taken apart.
-/

namespace Inversion

/-- A computation in `Except` succeeds exactly if both its parts do. -/
theorem bind_eq_ok_iff {ε α β : Type} {x : Except ε α} {f : α → Except ε β} {b : β} :
    x >>= f = .ok b ↔ ∃ a, x = .ok a ∧ f a = .ok b := by
  cases x with
  | error e =>
      constructor
      · intro h
        cases h
      · rintro ⟨a, ha, -⟩
        cases ha
  | ok a =>
      constructor
      · exact fun h => ⟨a, rfl, h⟩
      · rintro ⟨a', ha', h⟩
        cases ha'
        exact h

/-- What a traversal that succeeds says element by element. -/
theorem forall₂_of_mapM_eq_some {α β : Type*} {f : α → Option β} {l : List α} {l' : List β}
    (h : l.mapM f = some l') : List.Forall₂ (fun a b => f a = some b) l l' := by
  induction l generalizing l' with
  | nil =>
      cases h
      exact .nil
  | cons a l ih =>
      rw [List.mapM_cons] at h
      obtain ⟨b, hb, h⟩ := Option.bind_eq_some_iff.mp h
      obtain ⟨bs, hbs, h⟩ := Option.bind_eq_some_iff.mp h
      cases h
      exact .cons hb (ih hbs)

/-- A traversal that succeeds at every element succeeds, position by position. -/
theorem exists_mapM_eq_some {α β : Type*} {f : α → Option β} {l : List α} (h : ∀ a ∈ l, (f a).isSome) :
    ∃ l', l.mapM f = some l' ∧ ∀ i : Nat, l'[i]? = (l[i]?).bind f := by
  induction l with
  | nil => exact ⟨[], rfl, by simp⟩
  | cons a l ih =>
      obtain ⟨b, hb⟩ := Option.isSome_iff_exists.mp (h a List.mem_cons_self)
      obtain ⟨l', hl', hget⟩ := ih (fun a' ha' => h a' (List.mem_cons_of_mem _ ha'))
      refine ⟨b :: l', ?_, fun i => ?_⟩
      · rw [List.mapM_cons, hb, hl']
        rfl
      · cases i with
        | zero => simp [hb]
        | succ i => simpa using hget i

end Inversion
