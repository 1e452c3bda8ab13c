import Mathlib.Data.List.TakeWhile
import Mathlib.Order.Lattice

/-!
# `Lib.StableMerge` — a stable merge whose left run arrives in slices

`List.merge` takes the left element on a tie. When the left run arrives cut into slices, a merger may send out, for
every element that arrives, the held elements of the right run *strictly* below it, and must hold the others
back: a later slice can bring more left elements of the same key. `pushSlice` is that walk, and `pushSlice_merge`
says that it loses nothing against the merge of the whole runs, wherever the cuts are.

Where an element of a merge comes from is said by tags: `exists_tagged_merge`.
-/

namespace StableMerge

variable {α κ : Type*} [LinearOrder κ] (key : α → κ)

/-- The order of the keys, in the form `List.merge` takes. -/
def keyLe (a b : α) : Bool := decide (key a ≤ key b)

/-- The elements strictly below `x`. -/
def below (x d : α) : Bool := decide (key d < key x)

/-- One slice of the left run against the held right elements: what goes out, and what is still held. -/
def pushSlice : List α → List α → List α × List α
  | held, []         => ([], held)
  | held, x :: slice =>
      let rest := pushSlice (held.dropWhile (below key x)) slice
      (held.takeWhile (below key x) ++ x :: rest.1, rest.2)

/-- The side an element of a merge comes from. -/
inductive Side where
  | left
  | right
  deriving DecidableEq, Repr

variable {key}

theorem below_iff {x d : α} : below key x d = true ↔ key d < key x := by simp [below]

/-- The first element of the left run goes out after the right elements strictly below it. -/
theorem cons_merge (x : α) (xs ys : List α) :
    (x :: xs).merge ys (keyLe key) =
      ys.takeWhile (below key x) ++ x :: xs.merge (ys.dropWhile (below key x)) (keyLe key) := by
  induction ys with
  | nil => simp
  | cons y ys ih =>
      by_cases hlt : below key x y = true
      · have hle : ¬ keyLe key x y = true := by simpa [keyLe, below] using hlt
        rw [List.cons_merge_cons_neg _ _ _ hle, ih]
        simp [hlt]
      · have hle : keyLe key x y = true := by simpa [keyLe, below] using hlt
        rw [List.cons_merge_cons_pos _ _ _ hle]
        simp [hlt]

/-- **Cutting the left run changes nothing**: what a slice sends out, followed by the merge of the rest of the run
    with what is held, is the merge of all of it. -/
theorem pushSlice_merge (held slice more : List α) :
    (pushSlice key held slice).1 ++ more.merge (pushSlice key held slice).2 (keyLe key) =
      (slice ++ more).merge held (keyLe key) := by
  induction slice generalizing held with
  | nil => rfl
  | cons x slice ih =>
      rw [List.cons_append, cons_merge, ← ih]
      simp [pushSlice]

theorem pairwise_merge {xs ys : List α} (hxs : xs.Pairwise (fun a b => key a ≤ key b))
    (hys : ys.Pairwise (fun a b => key a ≤ key b)) :
    (xs.merge ys (keyLe key)).Pairwise (fun a b => key a ≤ key b) := by
  have htrans : ∀ a b c : α, keyLe key a b = true → keyLe key b c = true → keyLe key a c = true := by
    intro a b c hab hbc
    simp only [keyLe, decide_eq_true_eq] at *
    exact le_trans hab hbc
  have htotal : ∀ a b : α, (keyLe key a b || keyLe key b a) = true := by
    intro a b
    simpa [keyLe] using le_total (key a) (key b)
  have hmerge := List.pairwise_merge htrans htotal xs ys (by simpa [keyLe] using hxs) (by simpa [keyLe] using hys)
  simpa [keyLe] using hmerge

/-- The elements with a tag, without it. -/
def ofSide (side : Side) (tagged : List (Side × α)) : List α :=
  (tagged.filter (fun t => t.1 = side)).map Prod.snd

theorem ofSide_append (side : Side) (tagged tagged' : List (Side × α)) :
    ofSide side (tagged ++ tagged') = ofSide side tagged ++ ofSide side tagged' := by
  simp [ofSide]

theorem ofSide_map (side side' : Side) (xs : List α) :
    ofSide side (xs.map (Prod.mk side')) = if side' = side then xs else [] := by
  induction xs with
  | nil => simp [ofSide]
  | cons x xs ih =>
      by_cases hside : side' = side
      · rw [if_pos hside] at ih
        rw [if_pos hside, List.map_cons, ofSide, List.filter_cons_of_pos (by simpa using hside), List.map_cons,
          ← ofSide, ih]
      · rw [if_neg hside] at ih
        rw [if_neg hside, List.map_cons, ofSide, List.filter_cons_of_neg (by simpa using hside), ← ofSide, ih]

/-- **Where the elements of a merge come from**: each run is kept in its order, and if the left run is sorted no
    right element stands before a left element that is not strictly above it. -/
theorem exists_tagged_merge (key : α → κ) (xs ys : List α) :
    ∃ tagged : List (Side × α), tagged.map Prod.snd = xs.merge ys (keyLe key) ∧
      ofSide .left tagged = xs ∧ ofSide .right tagged = ys ∧
      (xs.Pairwise (fun a b => key a ≤ key b) →
        tagged.Pairwise (fun a b => a.1 = .right → b.1 = .left → key a.2 < key b.2)) := by
  induction xs generalizing ys with
  | nil =>
      refine ⟨ys.map (Prod.mk .right), ?_, ?_, ?_, fun _ => ?_⟩
      · simp [Function.comp_def]
      · simp [ofSide_map]
      · simp [ofSide_map]
      · refine List.pairwise_of_forall_mem_list ?_
        intro a _ b hb _ hleft
        obtain ⟨y, -, rfl⟩ := List.mem_map.mp hb
        cases hleft
  | cons x xs ih =>
      obtain ⟨tagged, hmap, hleft, hright, htie⟩ := ih (ys.dropWhile (below key x))
      refine ⟨(ys.takeWhile (below key x)).map (Prod.mk .right) ++ (.left, x) :: tagged, ?_, ?_, ?_, ?_⟩
      · rw [cons_merge, List.map_append, List.map_cons, hmap]
        simp [Function.comp_def]
      · rw [ofSide_append, ofSide_map, if_neg (by decide), List.nil_append, ofSide,
          List.filter_cons_of_pos (by simp), List.map_cons, ← ofSide, hleft]
      · rw [ofSide_append, ofSide_map, if_pos rfl, ofSide, List.filter_cons_of_neg (by simp), ← ofSide, hright]
        exact List.takeWhile_append_dropWhile
      · intro hsorted
        obtain ⟨habove, hrest⟩ := List.pairwise_cons.mp hsorted
        have hlefts : ∀ b ∈ tagged, b.1 = Side.left → key x ≤ key b.2 := by
          intro b hb hside
          have hmem : b.2 ∈ ofSide .left tagged :=
            List.mem_map.mpr ⟨b, List.mem_filter.mpr ⟨hb, by simpa using hside⟩, rfl⟩
          exact habove b.2 (hleft ▸ hmem)
        refine List.pairwise_append.mpr ⟨?_, ?_, ?_⟩
        · refine List.pairwise_of_forall_mem_list ?_
          intro a _ b hb _ hside
          obtain ⟨y, -, rfl⟩ := List.mem_map.mp hb
          cases hside
        · refine List.pairwise_cons.mpr ⟨?_, htie hrest⟩
          intro b _ hside
          simp at hside
        · -- A right element that goes out before `x` is strictly below it, hence below every later left element.
          intro a ha b hb _ hside
          obtain ⟨y, hy, rfl⟩ := List.mem_map.mp ha
          have hlt : key y < key x := below_iff.mp (List.mem_takeWhile_imp hy)
          rcases List.mem_cons.mp hb with rfl | hb
          · exact hlt
          · exact lt_of_lt_of_le hlt (hlefts b hb hside)

end StableMerge
