import Mathlib.Data.List.Nodup

/-!
# `Lib.Keyed` — the rows of a table with a primary key

A table with a primary key, as a list. `insertNew` adds a row unless a row of the same key is there, and
`insertAllNew` inserts rows one after the other. Of every key exactly the rows there first survive; the two
rules proofs use are that nothing else is in the result and that no key is lost.

`upsert` updates the row of the key instead, `update` changes the row of a key if there is one. What they
leave in the table is said row by row (`mem_upsert`, `mem_update`), and both keep the keys distinct.
-/

namespace Keyed

variable {α κ : Type*} [DecidableEq κ] {key : α → κ} {l xs : List α} {x : α}

/-- Add `x` unless its key is taken. -/
def insertNew (key : α → κ) (l : List α) (x : α) : List α :=
  if l.any (fun y => key y = key x) then l else l ++ [x]

/-- Insert rows one after the other. -/
def insertAllNew (key : α → κ) (l xs : List α) : List α := xs.foldl (insertNew key) l

theorem mem_insertNew {y : α} (h : y ∈ insertNew key l x) : y ∈ l ∨ y = x := by
  unfold insertNew at h
  split at h
  · exact .inl h
  · rcases List.mem_append.mp h with h | h
    · exact .inl h
    · exact .inr (List.mem_singleton.mp h)

theorem mem_insertNew_of_mem {y : α} (h : y ∈ l) : y ∈ insertNew key l x := by
  unfold insertNew
  split
  · exact h
  · exact List.mem_append_left _ h

theorem exists_mem_insertNew (key : α → κ) (l : List α) (x : α) : ∃ y ∈ insertNew key l x, key y = key x := by
  unfold insertNew
  split
  · rename_i hany
    obtain ⟨y, hy, hkey⟩ := List.any_eq_true.mp hany
    exact ⟨y, hy, of_decide_eq_true hkey⟩
  · exact ⟨x, List.mem_append_right _ List.mem_cons_self, rfl⟩

theorem mem_insertAllNew_of_mem (h : x ∈ l) : x ∈ insertAllNew key l xs := by
  induction xs generalizing l with
  | nil => exact h
  | cons a xs ih => exact ih (mem_insertNew_of_mem h)

/-- Nothing is in the table that was not there or inserted. -/
theorem mem_insertAllNew (h : x ∈ insertAllNew key l xs) : x ∈ l ∨ x ∈ xs := by
  induction xs generalizing l with
  | nil => exact .inl h
  | cons a xs ih =>
      rcases ih h with h | h
      · rcases mem_insertNew h with h | rfl
        · exact .inl h
        · exact .inr List.mem_cons_self
      · exact .inr (List.mem_cons_of_mem _ h)

theorem exists_mem_insertAllNew (h : x ∈ xs) : ∃ y ∈ insertAllNew key l xs, key y = key x := by
  induction xs generalizing l with
  | nil => cases h
  | cons a xs ih =>
      rcases List.mem_cons.mp h with rfl | h
      · obtain ⟨y, hy, hkey⟩ := exists_mem_insertNew key l x
        have hkept : y ∈ insertAllNew key (insertNew key l x) xs := mem_insertAllNew_of_mem hy
        exact ⟨y, hkept, hkey⟩
      · exact ih h

/-! ## Updates -/

/-- Apply `f` to the rows of key `k`. -/
def update (key : α → κ) (k : κ) (f : α → α) (l : List α) : List α :=
  l.map (fun y => if key y = k then f y else y)

/-- Apply `f` to the row of the key of `x`, or add `x` if there is none. -/
def upsert (key : α → κ) (f : α → α) (l : List α) (x : α) : List α :=
  if l.any (fun y => key y = key x) then update key (key x) f l else l ++ [x]

variable {f : α → α} {k : κ} {y : α}

theorem mem_update : y ∈ update key k f l ↔ (y ∈ l ∧ key y ≠ k) ∨ ∃ z ∈ l, key z = k ∧ y = f z := by
  rw [update, List.mem_map]
  constructor
  · rintro ⟨z, hz, rfl⟩
    by_cases hk : key z = k
    · exact .inr ⟨z, hz, hk, if_pos hk⟩
    · rw [if_neg hk]
      exact .inl ⟨hz, hk⟩
  · rintro (⟨hy, hk⟩ | ⟨z, hz, hk, rfl⟩)
    · exact ⟨y, hy, if_neg hk⟩
    · exact ⟨z, hz, if_pos hk⟩

theorem mem_upsert : y ∈ upsert key f l x ↔
    (y ∈ l ∧ key y ≠ key x) ∨ (∃ z ∈ l, key z = key x ∧ y = f z) ∨
      (∀ z ∈ l, key z ≠ key x) ∧ y = x := by
  unfold upsert
  split
  · rename_i hany
    obtain ⟨w, hw, hkey⟩ := List.any_eq_true.mp hany
    have htaken : ¬ ∀ z ∈ l, key z ≠ key x := fun hno => hno w hw (of_decide_eq_true hkey)
    rw [mem_update]
    simp only [htaken, false_and, or_false]
  · rename_i hany
    have hfree : ∀ z ∈ l, key z ≠ key x :=
      fun z hz hkey => hany (List.any_eq_true.mpr ⟨z, hz, decide_eq_true hkey⟩)
    rw [List.mem_append, List.mem_singleton]
    constructor
    · rintro (hy | rfl)
      · exact .inl ⟨hy, hfree y hy⟩
      · exact .inr (.inr ⟨hfree, rfl⟩)
    · rintro (⟨hy, -⟩ | ⟨z, hz, hkey, -⟩ | ⟨-, rfl⟩)
      · exact .inl hy
      · exact absurd hkey (hfree z hz)
      · exact .inr rfl

theorem map_key_update (hf : ∀ y, key (f y) = key y) (l : List α) : (update key k f l).map key = l.map key := by
  rw [update, List.map_map]
  refine List.map_congr_left (fun y _ => ?_)
  simp only [Function.comp_apply]
  split
  · exact hf y
  · rfl

theorem nodup_upsert (hf : ∀ y, key (f y) = key y) (h : (l.map key).Nodup) :
    ((upsert key f l x).map key).Nodup := by
  unfold upsert
  split
  · rw [map_key_update hf]
    exact h
  · rename_i hany
    rw [List.map_append, List.map_singleton, List.nodup_append]
    refine ⟨h, List.nodup_singleton _, ?_⟩
    intro a ha b hb hab
    obtain ⟨z, hz, rfl⟩ := List.mem_map.mp ha
    rw [List.mem_singleton.mp hb] at hab
    exact hany (List.any_eq_true.mpr ⟨z, hz, decide_eq_true hab⟩)

/-! ## Lookup -/

/-- The row of a key. -/
def get (key : α → κ) (l : List α) (k : κ) : Option α := l.find? (fun y => key y = k)

theorem get_eq_some (h : (l.map key).Nodup) : get key l k = some y ↔ y ∈ l ∧ key y = k := by
  constructor
  · intro hget
    have hkey := List.find?_some hget
    rw [decide_eq_true_eq] at hkey
    exact ⟨List.mem_of_find?_eq_some hget, hkey⟩
  · rintro ⟨hy, rfl⟩
    induction l with
    | nil => cases hy
    | cons z l ih =>
        rw [List.map_cons, List.nodup_cons] at h
        rcases List.mem_cons.mp hy with rfl | hy
        · simp [get]
        · have hne : key z ≠ key y := fun heq => h.1 (heq ▸ List.mem_map_of_mem hy)
          rw [get, List.find?_cons_of_neg (by simpa using hne)]
          exact ih h.2 hy

end Keyed
