import Mathlib.Data.List.Basic

/-!
# `Lib.InFlight` — a table of processes in flight

A concurrent system keeps its running processes in a list of `(id, state)` pairs: `set` moves a process to a
new state (or starts it), `remove` ends it. What holds of every process in flight is carried over a step by
`forall_mem_set` and `forall_mem_remove`.
-/

namespace InFlight

variable {κ α : Type*} [DecidableEq κ] {t : List (κ × α)} {id : κ} {a : α} {P : κ × α → Prop}

/-- End a process. -/
def remove (t : List (κ × α)) (id : κ) : List (κ × α) := t.filter (fun p => p.1 != id)

/-- Put a process into state `a`. -/
def set (t : List (κ × α)) (id : κ) (a : α) : List (κ × α) := (id, a) :: remove t id

theorem mem_of_lookup (h : t.lookup id = some a) : (id, a) ∈ t := by
  obtain ⟨before, after, rfl, -⟩ := List.lookup_eq_some_iff.mp h
  exact List.mem_append_right _ List.mem_cons_self

/-- In a table with distinct keys a lookup finds every entry. -/
theorem lookup_eq_some_iff_mem (hnodup : (t.map Prod.fst).Nodup) : t.lookup id = some a ↔ (id, a) ∈ t := by
  induction t with
  | nil => simp
  | cons p t ih =>
      obtain ⟨hnot, hnodup⟩ := List.nodup_cons.mp hnodup
      rw [List.mem_cons]
      by_cases hr : id = p.1
      · subst hr
        rw [List.lookup_cons_self, Option.some.injEq]
        constructor
        · rintro rfl
          exact .inl rfl
        · rintro (heq | hmem)
          · exact (congrArg Prod.snd heq).symm
          · exact absurd (List.mem_map_of_mem hmem) hnot
      · have hne : (id == p.1) = false := beq_false_of_ne hr
        rw [List.lookup_cons, hne, ih hnodup]
        constructor
        · exact .inr
        · rintro (heq | hmem)
          · exact absurd (congrArg Prod.fst heq) hr
          · exact hmem

theorem mem_remove {p : κ × α} : p ∈ remove t id ↔ p ∈ t ∧ p.1 ≠ id := by
  simp [remove]

theorem mem_set {p : κ × α} : p ∈ set t id a ↔ p = (id, a) ∨ p ∈ t ∧ p.1 ≠ id := by
  rw [set, List.mem_cons, mem_remove]

theorem forall_mem_remove (h : ∀ p ∈ t, P p) : ∀ p ∈ remove t id, P p :=
  fun p hp => h p (mem_remove.mp hp).1

theorem forall_mem_set (h : ∀ p ∈ t, P p) (ha : P (id, a)) : ∀ p ∈ set t id a, P p := by
  intro p hp
  rcases mem_set.mp hp with rfl | hp
  · exact ha
  · exact h p hp.1

/-! ## At most one -/

/-- At most one process is in a state with `hold`. -/
def Alone (hold : α → Bool) (t : List (κ × α)) : Prop :=
  ∀ p ∈ t, ∀ q ∈ t, hold p.2 = true → hold q.2 = true → p.1 = q.1

variable {hold : α → Bool}

omit [DecidableEq κ] in
theorem Alone.nil : Alone hold ([] : List (κ × α)) := by simp [Alone]

theorem Alone.remove (h : Alone hold t) : Alone hold (remove t id) :=
  fun p hp q hq => h p (mem_remove.mp hp).1 q (mem_remove.mp hq).1

/-- A process that is not in such a state, or is the one that was, does not disturb. -/
theorem Alone.set (h : Alone hold t) (ha : hold a = true → ∀ p ∈ t, p.1 ≠ id → hold p.2 = false) :
    Alone hold (set t id a) := by
  intro p hp q hq hholdp hholdq
  rcases mem_set.mp hp with rfl | ⟨hp, hpid⟩ <;> rcases mem_set.mp hq with rfl | ⟨hq, hqid⟩
  · rfl
  · simp [ha hholdp q hq hqid] at hholdq
  · simp [ha hholdq p hp hpid] at hholdp
  · exact h p hp q hq hholdp hholdq

omit [DecidableEq κ] in
/-- While one process holds, no other does. -/
theorem Alone.others (h : Alone hold t) (hmem : (id, a) ∈ t) (ha : hold a = true) :
    ∀ p ∈ t, p.1 ≠ id → hold p.2 = false := by
  intro p hp hne
  rw [Bool.eq_false_iff]
  exact fun hholdp => hne (h p hp (id, a) hmem hholdp ha)

end InFlight
