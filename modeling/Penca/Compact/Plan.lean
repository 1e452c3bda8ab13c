import Mathlib
import Penca.Log.Entry

/-!
# `Compact.Plan` — which segments a compaction wave takes

`plan_wave` looks at the unsealed rows of one scope, each with its `object_uri` and its recorded size. At most one
uri is shared: that file is the active one, and every other row is uncompacted. The wave folds uncompacted rows
into the active file while the total stays within the cap, and seals what can no longer be folded. Its sums are
`i64` and wrap.

`PlannerContract` says when there is no plan, what a plan consists of, that carrying one out leaves at most one
shared uri, and that waves cannot go on forever. It holds exactly when the sums compare with the cap as they would
without overflow (`plannerContract_iff`). This rests on `foldUncompacted_inv`, which says what the fold's accumulator
holds after any part of the uncompacted rows; only the bound on the inputs' total depends on the sums.
-/

namespace Penca.Compact

variable {U : Type} [DecidableEq U]

/-! ## The planner -/

/-- `WavePlan`: the rows to merge into one new file and the rows to seal in place, by index. -/
structure WavePlan where
  inputIndices : List Nat
  sealIndices  : List Nat
  deriving DecidableEq, Repr

/-- The first uri of more than one row that the scan of `uri_counts` meets. A `HashMap` yields its keys in any order:
    `order` lists those it yields first. -/
def activeUri (order uris : List U) : Option U := (order ++ uris).find? (fun u => 1 < uris.count u)

/-- The rows of the active file. -/
def activeIndices (order uris : List U) : List Nat :=
  match activeUri order uris with
  | some u => (List.range uris.length).filter (fun i => uris[i]? = some u)
  | none   => []

/-- Everything else, in input order. -/
def uncompactedIndices (order uris : List U) : List Nat :=
  (List.range uris.length).filter (fun i => i ∉ activeIndices order uris)

/-- What a release build keeps of an `i64` result. -/
def wrapI64 (x : Int) : Int := (x + 9223372036854775808) % 18446744073709551616 - 9223372036854775808

/-- The recorded size of a row. -/
def sizeAt (sizes : List Int) (i : Nat) : Int := sizes.getD i 0

/-- The recorded sizes of some rows together. -/
def totalSize (sizes : List Int) (indices : List Nat) : Int := (indices.map (sizeAt sizes)).sum

/-- `active_size`. -/
def activeSize (sizes : List Int) (indices : List Nat) : Int :=
  indices.foldl (fun sum i => wrapI64 (sum + sizeAt sizes i)) 0

/-- The mutable state of the fold. -/
structure FoldState where
  current     : List Nat
  currentSize : Int
  sealIndices : List Nat
  folded      : Nat
  deriving DecidableEq, Repr

/-- The loop body on one uncompacted row; `none` is its `break`. -/
def foldRow (sizes : List Int) (maxSegmentBytes : Int) (st : FoldState) (idx : Nat) : Option FoldState :=
  let s := sizeAt sizes idx
  if wrapI64 (st.currentSize + s) ≤ maxSegmentBytes then
    some { st with
      current := st.current ++ [idx], currentSize := wrapI64 (st.currentSize + s), folded := st.folded + 1 }
  else if 1 ≤ st.folded ∧ 2 ≤ st.current.length then
    -- `current` is a writable new active file: one merged file per wave.
    none
  else if st.current ≠ [] then
    -- The prior active alone, or a single row: seal it and start again from this row.
    some { current := [idx], currentSize := s, sealIndices := st.sealIndices ++ st.current, folded := 1 }
  else
    -- A row above the cap on its own.
    some { st with sealIndices := st.sealIndices ++ [idx] }

/-- The loop over the uncompacted rows. -/
def foldUncompacted (sizes : List Int) (maxSegmentBytes : Int) : FoldState → List Nat → FoldState
  | st, []          => st
  | st, idx :: rest =>
      match foldRow sizes maxSegmentBytes st idx with
      | none     => st
      | some st' => foldUncompacted sizes maxSegmentBytes st' rest

/-- The state the fold starts from: the active file. -/
def startState (order uris : List U) (sizes : List Int) : FoldState where
  current := activeIndices order uris
  currentSize := activeSize sizes (activeIndices order uris)
  sealIndices := []
  folded := 0

/-- What the wave does with the folded state. -/
def FoldState.toPlan (st : FoldState) : Option WavePlan :=
  if st.folded = 0 ∧ st.sealIndices = [] then none
  else if st.current.length < 2 then
    if st.sealIndices = [] then none else some ⟨[], st.sealIndices⟩
  else some ⟨st.current, st.sealIndices⟩

/-- `plan_wave_projected`. -/
def planWaveProjected (order uris : List U) (sizes : List Int) (maxSegmentBytes : Int) : Option WavePlan :=
  if uris = [] then none
  else
    (foldUncompacted sizes maxSegmentBytes (startState order uris sizes) (uncompactedIndices order uris)).toPlan

/-- `plan_wave`: the projections of the rows. -/
def planWave (order : List U) (rows : List (U × Int)) (maxSegmentBytes : Int) : Option WavePlan :=
  planWaveProjected order (rows.map Prod.fst) (rows.map Prod.snd) maxSegmentBytes

/-! ## The active and sealed model -/

/-- At most one uri occurs more than once: what the planner relies on. -/
def AtMostOneShared (uris : List U) : Prop :=
  ∀ u ∈ uris, ∀ v ∈ uris, 1 < uris.count u → 1 < uris.count v → u = v

instance (uris : List U) : Decidable (AtMostOneShared uris) :=
  inferInstanceAs (Decidable (∀ u ∈ uris, ∀ v ∈ uris, 1 < uris.count u → 1 < uris.count v → u = v))

theorem one_lt_count_iff {uris : List U} {u : U} :
    1 < uris.count u ↔ ∃ i j : Nat, i < j ∧ uris[i]? = some u ∧ uris[j]? = some u := by
  rw [Nat.lt_iff_add_one_le, ← List.duplicate_iff_two_le_count, List.duplicate_iff_exists_distinct_get]
  constructor
  · rintro ⟨n, m, hlt, hn, hm⟩
    exact ⟨n, m, hlt, by simp [hn], by simp [hm]⟩
  · rintro ⟨i, j, hlt, hi, hj⟩
    obtain ⟨hil, hi⟩ := List.getElem?_eq_some_iff.mp hi
    obtain ⟨hjl, hj⟩ := List.getElem?_eq_some_iff.mp hj
    exact ⟨⟨i, hil⟩, ⟨j, hjl⟩, hlt, hi.symm, hj.symm⟩

theorem AtMostOneShared.perm {uris uris' : List U} (h : AtMostOneShared uris) (hperm : uris'.Perm uris) :
    AtMostOneShared uris' := by
  intro u hu v hv hcu hcv
  rw [hperm.count_eq] at hcu hcv
  exact h u (hperm.mem_iff.mp hu) v (hperm.mem_iff.mp hv) hcu hcv

theorem AtMostOneShared.sublist {uris uris' : List U} (h : AtMostOneShared uris) (hsub : uris'.Sublist uris) :
    AtMostOneShared uris' := by
  intro u hu v hv hcu hcv
  exact h u (hsub.subset hu) v (hsub.subset hv) (hcu.trans_le (hsub.count_le u)) (hcv.trans_le (hsub.count_le v))

theorem AtMostOneShared.append_fresh {uris new : List U} (h : AtMostOneShared uris) (hnodup : new.Nodup)
    (hfresh : ∀ u ∈ new, u ∉ uris) : AtMostOneShared (uris ++ new) := by
  have hold : ∀ {u}, 1 < (uris ++ new).count u → 1 < uris.count u := by
    intro u hu
    rw [List.count_append] at hu
    have hle := List.nodup_iff_count_le_one.mp hnodup u
    by_cases hnew : u ∈ new
    · have hzero := List.count_eq_zero.mpr (hfresh u hnew)
      omega
    · have hzero := List.count_eq_zero.mpr hnew
      omega
  intro u _ v _ hu hv
  have hu := hold hu
  have hv := hold hv
  exact h u (List.count_pos_iff.mp (by omega)) v (List.count_pos_iff.mp (by omega)) hu hv

/-- Rows move to a new file: it is the only shared one if the rows left behind lie in different files. -/
theorem atMostOneShared_merge {α : Type} {rows : List α} {uri : α → U} {moved : α → Bool} {merged : U}
    (hnodup : ((rows.filter (fun a => !moved a)).map uri).Nodup) :
    AtMostOneShared (rows.map (fun a => if moved a then merged else uri a)) := by
  have hleft : ∀ {u}, u ≠ merged → (rows.map (fun a => if moved a then merged else uri a)).count u =
      ((rows.filter (fun a => !moved a)).map uri).count u := by
    intro u hu
    rw [List.count_eq_countP, List.count_eq_countP, List.countP_map, List.countP_map, List.countP_filter]
    refine List.countP_congr ?_
    intro a _
    by_cases ha : moved a
    · simp [ha, hu.symm]
    · simp [ha]
  have honly : ∀ {u}, 1 < (rows.map (fun a => if moved a then merged else uri a)).count u → u = merged := by
    intro u hu
    by_contra hne
    have hcount := hleft hne
    have hle := List.nodup_iff_count_le_one.mp hnodup u
    omega
  intro u _ v _ hu hv
  rw [honly hu, honly hv]

section Active

variable {order uris : List U}

theorem activeUri_eq_some {u : U} (h : activeUri order uris = some u) : 1 < uris.count u := by
  have hfound := List.find?_some h
  simpa using hfound

/-- Under the invariant the active uri is the shared one, whichever order the counts are visited in. -/
theorem activeUri_of_shared (h : AtMostOneShared uris) {u : U} (hu : 1 < uris.count u) :
    activeUri order uris = some u := by
  have hmem : u ∈ uris := List.count_pos_iff.mp (by omega)
  cases hactive : activeUri order uris with
  | none =>
      have hnone := List.find?_eq_none.mp hactive u (List.mem_append_right _ hmem)
      simp [hu] at hnone
  | some v =>
      have hv := activeUri_eq_some hactive
      have hvmem : v ∈ uris := List.count_pos_iff.mp (by omega)
      rw [h u hmem v hvmem hu hv]

theorem mem_activeIndices {i : Nat} :
    i ∈ activeIndices order uris ↔ ∃ u, activeUri order uris = some u ∧ uris[i]? = some u := by
  unfold activeIndices
  cases hactive : activeUri order uris with
  | none => simp
  | some u =>
      simp only [List.mem_filter, List.mem_range, decide_eq_true_eq, Option.some.injEq, exists_eq_left']
      constructor
      · intro h
        exact h.2
      · intro h
        exact ⟨(List.getElem?_eq_some_iff.mp h).1, h⟩

theorem mem_uncompactedIndices {i : Nat} :
    i ∈ uncompactedIndices order uris ↔ i < uris.length ∧ i ∉ activeIndices order uris := by
  simp [uncompactedIndices]

theorem activeIndices_nodup (order uris : List U) : (activeIndices order uris).Nodup := by
  unfold activeIndices
  split
  · exact List.nodup_range.filter _
  · exact List.nodup_nil

theorem lt_of_mem_activeIndices {i : Nat} (h : i ∈ activeIndices order uris) : i < uris.length := by
  obtain ⟨u, -, hi⟩ := mem_activeIndices.mp h
  exact (List.getElem?_eq_some_iff.mp hi).1

/-- Every row is of the active file or uncompacted, and not both. -/
theorem perm_range (order uris : List U) :
    (activeIndices order uris ++ uncompactedIndices order uris).Perm (List.range uris.length) := by
  refine (List.perm_ext_iff_of_nodup ?_ List.nodup_range).mpr ?_
  · refine List.nodup_append.mpr ⟨activeIndices_nodup order uris, List.nodup_range.filter _, ?_⟩
    rintro i hi j hj rfl
    exact (mem_uncompactedIndices.mp hj).2 hi
  · intro i
    rw [List.mem_append, mem_uncompactedIndices, List.mem_range]
    constructor
    · rintro (hi | hi)
      · exact lt_of_mem_activeIndices hi
      · exact hi.1
    · intro hi
      by_cases hactive : i ∈ activeIndices order uris
      · exact .inl hactive
      · exact .inr ⟨hi, hactive⟩

theorem two_le_length_activeIndices (h : activeIndices order uris ≠ []) :
    2 ≤ (activeIndices order uris).length := by
  obtain ⟨i, hi⟩ := List.exists_mem_of_ne_nil _ h
  obtain ⟨u, hactive, -⟩ := mem_activeIndices.mp hi
  obtain ⟨j, k, hlt, hj, hk⟩ := one_lt_count_iff.mp (activeUri_eq_some hactive)
  have hsub : [j, k] ⊆ activeIndices order uris := by
    intro x hx
    rcases List.mem_pair.mp hx with rfl | rfl
    · exact mem_activeIndices.mpr ⟨u, hactive, hj⟩
    · exact mem_activeIndices.mpr ⟨u, hactive, hk⟩
  have hnodup : [j, k].Nodup := by
    simp only [List.nodup_cons, List.mem_singleton, List.not_mem_nil, not_false_eq_true, List.nodup_nil, and_true]
    omega
  exact (List.subperm_of_subset hnodup hsub).length_le

theorem eq_of_uncompacted (h : AtMostOneShared uris) {i j : Nat} (hi : i ∈ uncompactedIndices order uris)
    (huri : uris[i]? = uris[j]?) : i = j := by
  obtain ⟨hlt, hnot⟩ := mem_uncompactedIndices.mp hi
  by_contra hne
  have hget : uris[i]? = some uris[i] := List.getElem?_eq_getElem hlt
  have hshared : 1 < uris.count uris[i] := by
    rw [one_lt_count_iff]
    rcases Nat.lt_or_gt_of_ne hne with hij | hij
    · exact ⟨i, j, hij, hget, huri ▸ hget⟩
    · exact ⟨j, i, hij, huri ▸ hget, hget⟩
  exact hnot (mem_activeIndices.mpr ⟨_, activeUri_of_shared h hshared, hget⟩)

/-- Under the invariant the order of the map does not matter. -/
theorem activeUri_eq (h : AtMostOneShared uris) (order order' : List U) :
    activeUri order uris = activeUri order' uris := by
  cases hactive : activeUri order uris with
  | some u => exact (activeUri_of_shared h (activeUri_eq_some hactive)).symm
  | none =>
      cases hactive' : activeUri order' uris with
      | none => rfl
      | some u =>
          rw [activeUri_of_shared h (activeUri_eq_some hactive')] at hactive
          cases hactive

end Active

/-! ## What the fold holds -/

/-- The accumulator after the uncompacted rows `taken`: each row so far is in `current` or sealed, the active file
    stays whole, and `folded` counts the uncompacted rows of `current`. The running size is right up to overflow. -/
structure FoldInv (sizes : List Int) (active taken : List Nat) (st : FoldState) : Prop where
  account : (st.current ++ st.sealIndices).Perm (active ++ taken)
  size    : wrapI64 st.currentSize = wrapI64 (totalSize sizes st.current)
  whole   : (st.sealIndices = [] ∧ ∃ part, st.current = active ++ part ∧ part.length = st.folded) ∨
    (active ⊆ st.sealIndices ∧ st.current.length = st.folded)

variable {sizes : List Int} {maxSegmentBytes : Int} {active taken : List Nat} {st st' : FoldState}

theorem wrapI64_add (x y z : Int) (h : wrapI64 x = wrapI64 y) : wrapI64 (x + z) = wrapI64 (y + z) := by
  simp only [wrapI64] at h ⊢
  omega

theorem wrapI64_of_fits {x : Int} (hlo : 0 ≤ x) (hhi : x ≤ i64Max) : wrapI64 x = x := by
  simp only [wrapI64, i64Max] at hhi ⊢
  omega

theorem totalSize_append (sizes : List Int) (l l' : List Nat) :
    totalSize sizes (l ++ l') = totalSize sizes l + totalSize sizes l' := by
  simp [totalSize]

theorem totalSize_singleton (sizes : List Int) (i : Nat) : totalSize sizes [i] = sizeAt sizes i := by
  simp [totalSize]

theorem wrapI64_activeSize (sizes : List Int) (indices : List Nat) :
    wrapI64 (activeSize sizes indices) = wrapI64 (totalSize sizes indices) := by
  induction indices using List.reverseRecOn with
  | nil => rfl
  | append_singleton rest i ih =>
      rw [totalSize_append, totalSize_singleton, ← wrapI64_add _ _ _ ih]
      simp [activeSize, wrapI64]

theorem FoldInv.start (sizes : List Int) (active : List Nat) :
    FoldInv sizes active [] ⟨active, activeSize sizes active, [], 0⟩ where
  account := by simp
  size := wrapI64_activeSize sizes active
  whole := .inl ⟨rfl, [], by simp, rfl⟩

/-- What the loop body compares, up to overflow. -/
theorem FoldInv.compared (h : FoldInv sizes active taken st) (idx : Nat) :
    wrapI64 (st.currentSize + sizeAt sizes idx) = wrapI64 (totalSize sizes (st.current ++ [idx])) := by
  rw [totalSize_append, totalSize_singleton]
  exact wrapI64_add _ _ _ h.size

theorem FoldInv.fold (h : FoldInv sizes active taken st) (idx : Nat) :
    FoldInv sizes active (taken ++ [idx])
      ⟨st.current ++ [idx], wrapI64 (st.currentSize + sizeAt sizes idx), st.sealIndices, st.folded + 1⟩ where
  account := by
    have hmove : (st.current ++ [idx] ++ st.sealIndices).Perm (st.current ++ st.sealIndices ++ [idx]) := by
      rw [List.append_assoc, List.append_assoc]
      exact List.perm_append_comm.append_left _
    refine hmove.trans ?_
    rw [← List.append_assoc]
    exact h.account.append_right _
  size := by
    rw [← h.compared]
    simp [wrapI64]
  whole := by
    rcases h.whole with ⟨hseal, part, hcurrent, hlen⟩ | ⟨hsub, hlen⟩
    · exact .inl ⟨hseal, part ++ [idx], by simp [hcurrent], by simp [hlen]⟩
    · exact .inr ⟨hsub, by simp [hlen]⟩

theorem FoldInv.restart (h : FoldInv sizes active taken st) (idx : Nat) :
    FoldInv sizes active (taken ++ [idx]) ⟨[idx], sizeAt sizes idx, st.sealIndices ++ st.current, 1⟩ := by
  have hall : (st.sealIndices ++ st.current).Perm (active ++ taken) := List.perm_append_comm.trans h.account
  have hactive : active ⊆ st.sealIndices ++ st.current := by
    intro i hi
    exact hall.mem_iff.mpr (List.mem_append_left _ hi)
  refine ⟨?_, by rw [totalSize_singleton], .inr ⟨hactive, rfl⟩⟩
  refine List.perm_append_comm.trans ?_
  rw [← List.append_assoc]
  exact hall.append_right _

theorem FoldInv.folded_eq_zero (h : FoldInv sizes active taken st) (hcurrent : st.current = []) :
    active ⊆ st.sealIndices ∧ st.folded = 0 := by
  rcases h.whole with ⟨-, part, hpart, hlen⟩ | ⟨hsub, hlen⟩
  · obtain ⟨rfl, rfl⟩ := List.append_eq_nil_iff.mp (hpart.symm.trans hcurrent)
    exact ⟨List.nil_subset _, hlen.symm⟩
  · rw [hcurrent] at hlen
    exact ⟨hsub, hlen.symm⟩

theorem FoldInv.sealOne (h : FoldInv sizes active taken st) (hcurrent : st.current = []) (idx : Nat) :
    FoldInv sizes active (taken ++ [idx]) { st with sealIndices := st.sealIndices ++ [idx] } := by
  obtain ⟨hsub, hfolded⟩ := h.folded_eq_zero hcurrent
  refine ⟨?_, h.size, .inr ⟨?_, ?_⟩⟩
  · show (st.current ++ (st.sealIndices ++ [idx])).Perm _
    rw [← List.append_assoc, ← List.append_assoc]
    exact h.account.append_right _
  · intro i hi
    exact List.mem_append_left _ (hsub hi)
  · show st.current.length = st.folded
    rw [hcurrent, hfolded, List.length_nil]

/-- What the loop body does: fold the row in, stop, start again from the row, or seal it. -/
theorem foldRow_cases (sizes : List Int) (maxSegmentBytes : Int) (st : FoldState) (idx : Nat) :
    (wrapI64 (st.currentSize + sizeAt sizes idx) ≤ maxSegmentBytes ∧ foldRow sizes maxSegmentBytes st idx =
      some ⟨st.current ++ [idx], wrapI64 (st.currentSize + sizeAt sizes idx), st.sealIndices, st.folded + 1⟩) ∨
    (1 ≤ st.folded ∧ 2 ≤ st.current.length ∧ foldRow sizes maxSegmentBytes st idx = none) ∨
    (st.current ≠ [] ∧ foldRow sizes maxSegmentBytes st idx =
      some ⟨[idx], sizeAt sizes idx, st.sealIndices ++ st.current, 1⟩) ∨
    (st.current = [] ∧ foldRow sizes maxSegmentBytes st idx =
      some { st with sealIndices := st.sealIndices ++ [idx] }) := by
  unfold foldRow
  by_cases hfits : wrapI64 (st.currentSize + sizeAt sizes idx) ≤ maxSegmentBytes
  · exact .inl ⟨hfits, if_pos hfits⟩
  · by_cases hstop : 1 ≤ st.folded ∧ 2 ≤ st.current.length
    · exact .inr (.inl ⟨hstop.1, hstop.2, by simp [hfits, hstop]⟩)
    · by_cases hcurrent : st.current = []
      · exact .inr (.inr (.inr ⟨hcurrent, by simp [hfits, hcurrent]⟩))
      · exact .inr (.inr (.inl ⟨hcurrent, by simp [hfits, hstop, hcurrent]⟩))

theorem FoldInv.foldRow {idx : Nat} (h : FoldInv sizes active taken st)
    (hrow : Compact.foldRow sizes maxSegmentBytes st idx = some st') : FoldInv sizes active (taken ++ [idx]) st' := by
  obtain ⟨-, heq⟩ | ⟨-, -, heq⟩ | ⟨-, heq⟩ | ⟨hnil, heq⟩ := foldRow_cases sizes maxSegmentBytes st idx
  · exact Option.some.inj (heq.symm.trans hrow) ▸ h.fold idx
  · rw [heq] at hrow
    cases hrow
  · exact Option.some.inj (heq.symm.trans hrow) ▸ h.restart idx
  · exact Option.some.inj (heq.symm.trans hrow) ▸ h.sealOne hnil idx

/-- The loop keeps the account; it stops early only on a writable active file. -/
theorem foldUncompacted_inv (sizes : List Int) (maxSegmentBytes : Int) (active rest : List Nat) {taken : List Nat}
    {st : FoldState} (h : FoldInv sizes active taken st) :
    ∃ more left, rest = more ++ left ∧
      FoldInv sizes active (taken ++ more) (foldUncompacted sizes maxSegmentBytes st rest) ∧
      (left = [] ∨ (1 ≤ (foldUncompacted sizes maxSegmentBytes st rest).folded ∧
        2 ≤ (foldUncompacted sizes maxSegmentBytes st rest).current.length)) := by
  induction rest generalizing taken st with
  | nil => exact ⟨[], [], rfl, by simpa [foldUncompacted] using h, .inl rfl⟩
  | cons idx rest ih =>
      cases hrow : foldRow sizes maxSegmentBytes st idx with
      | none =>
          simp only [foldUncompacted, hrow]
          obtain ⟨-, heq⟩ | ⟨hfolded, hlen, -⟩ | ⟨-, heq⟩ | ⟨-, heq⟩ := foldRow_cases sizes maxSegmentBytes st idx
          · rw [heq] at hrow
            cases hrow
          · exact ⟨[], idx :: rest, rfl, by rwa [List.append_nil], .inr ⟨hfolded, hlen⟩⟩
          · rw [heq] at hrow
            cases hrow
          · rw [heq] at hrow
            cases hrow
      | some st' =>
          -- Every arm but the early stop takes one more row.
          obtain ⟨more, left, hrest, hinv, hstop⟩ := ih (h.foldRow hrow)
          simp only [foldUncompacted, hrow]
          refine ⟨idx :: more, left, by rw [hrest, List.cons_append], ?_, hstop⟩
          rwa [List.append_assoc, List.singleton_append] at hinv

theorem foldUncompacted_start (order uris : List U) (sizes : List Int) (maxSegmentBytes : Int) :
    ∃ taken left, uncompactedIndices order uris = taken ++ left ∧
      FoldInv sizes (activeIndices order uris) taken
        (foldUncompacted sizes maxSegmentBytes (startState order uris sizes) (uncompactedIndices order uris)) ∧
      (left = [] ∨
        (1 ≤ (foldUncompacted sizes maxSegmentBytes (startState order uris sizes)
          (uncompactedIndices order uris)).folded ∧
        2 ≤ (foldUncompacted sizes maxSegmentBytes (startState order uris sizes)
          (uncompactedIndices order uris)).current.length)) :=
  foldUncompacted_inv sizes maxSegmentBytes (activeIndices order uris) (uncompactedIndices order uris)
    (FoldInv.start sizes (activeIndices order uris))

/-! ## Overflow -/

/-- The sums the loop compares with the cap, as they are without overflow. -/
def comparedSums (sizes : List Int) (maxSegmentBytes : Int) : FoldState → List Nat → List Int
  | _,  []          => []
  | st, idx :: rest =>
      totalSize sizes (st.current ++ [idx]) ::
        match foldRow sizes maxSegmentBytes st idx with
        | none     => []
        | some st' => comparedSums sizes maxSegmentBytes st' rest

/-- A sum past `i64::MAX` still compares as too large. -/
def SumsCompare (sizes : List Int) (maxSegmentBytes : Int) (st : FoldState) (rest : List Nat) : Prop :=
  ∀ x ∈ comparedSums sizes maxSegmentBytes st rest, i64Max < x → maxSegmentBytes < wrapI64 x

/-- A merged file made of `current` is within the cap. -/
def FoldState.Fits (sizes : List Int) (maxSegmentBytes : Int) (st : FoldState) : Prop :=
  1 ≤ st.folded → 2 ≤ st.current.length → totalSize sizes st.current ≤ maxSegmentBytes

section Overflow

variable (hpos : ∀ i, 0 ≤ sizeAt sizes i) {rest : List Nat}
include hpos

theorem totalSize_nonneg (indices : List Nat) : 0 ≤ totalSize sizes indices :=
  List.sum_nonneg (by simpa [totalSize] using fun i _ => hpos i)

/-- If no sum misleads the loop, what it folds fits. -/
theorem FoldInv.fits_of_sumsCompare (h : FoldInv sizes active taken st)
    (hsums : SumsCompare sizes maxSegmentBytes st rest) (hfits : st.Fits sizes maxSegmentBytes) :
    (foldUncompacted sizes maxSegmentBytes st rest).Fits sizes maxSegmentBytes := by
  induction rest generalizing taken st with
  | nil => exact hfits
  | cons idx rest ih =>
      have hhead := hsums _ List.mem_cons_self
      cases hrow : Compact.foldRow sizes maxSegmentBytes st idx with
      | none => simpa only [foldUncompacted, hrow] using hfits
      | some st' =>
          simp only [foldUncompacted, hrow]
          refine ih (h.foldRow hrow) ?_ ?_
          · intro x hx
            exact hsums x (List.mem_cons_of_mem _ (by simpa only [hrow] using hx))
          · obtain ⟨hle, heq⟩ | ⟨-, -, heq⟩ | ⟨-, heq⟩ | ⟨hnil, heq⟩ := foldRow_cases sizes maxSegmentBytes st idx
            · -- The sum did not pass `i64::MAX`, so it is what was compared.
              obtain rfl := Option.some.inj (heq.symm.trans hrow)
              rw [h.compared] at hle
              intro _ _
              have hmax : totalSize sizes (st.current ++ [idx]) ≤ i64Max := by
                by_contra hgt
                exact absurd (hhead (by omega)) (by omega)
              rwa [wrapI64_of_fits (totalSize_nonneg hpos _) hmax] at hle
            · rw [heq] at hrow
              cases hrow
            · obtain rfl := Option.some.inj (heq.symm.trans hrow)
              intro _ hlen
              exact absurd hlen (by simp)
            · obtain rfl := Option.some.inj (heq.symm.trans hrow)
              intro _ hlen
              rw [show st.current = [] from hnil] at hlen
              exact absurd hlen (by simp)

omit hpos in
/-- A writable active file only grows. -/
theorem foldUncompacted_grows (sizes : List Int) (maxSegmentBytes : Int) {st : FoldState} (rest : List Nat)
    (hfolded : 1 ≤ st.folded) (hlen : 2 ≤ st.current.length) :
    1 ≤ (foldUncompacted sizes maxSegmentBytes st rest).folded ∧
      ∃ part, (foldUncompacted sizes maxSegmentBytes st rest).current = st.current ++ part := by
  induction rest generalizing st with
  | nil => exact ⟨hfolded, [], by simp [foldUncompacted]⟩
  | cons idx rest ih =>
      unfold foldUncompacted
      by_cases hfits : wrapI64 (st.currentSize + sizeAt sizes idx) ≤ maxSegmentBytes
      · simp only [foldRow, hfits, if_true]
        have hlen' : 2 ≤ (st.current ++ [idx]).length := by
          rw [List.length_append]
          omega
        obtain ⟨hfolded', part, hpart⟩ := @ih ⟨st.current ++ [idx], wrapI64 (st.currentSize + sizeAt sizes idx),
          st.sealIndices, st.folded + 1⟩ (Nat.le_add_left 1 _) hlen'
        exact ⟨hfolded', idx :: part, by simpa using hpart⟩
      · simp only [foldRow, hfits, if_false, hfolded, hlen, and_self, if_true]
        exact ⟨trivial, [], by simp⟩

/-- If what the loop folds fits, no sum misled it. -/
theorem FoldInv.sumsCompare_of_fits (hcap : maxSegmentBytes ≤ i64Max) (hmax : ∀ i, sizeAt sizes i ≤ i64Max)
    (h : FoldInv sizes active taken st)
    (hfits : (foldUncompacted sizes maxSegmentBytes st rest).Fits sizes maxSegmentBytes) :
    SumsCompare sizes maxSegmentBytes st rest := by
  induction rest generalizing taken st with
  | nil => exact fun x hx => absurd hx List.not_mem_nil
  | cons idx rest ih =>
      intro x hx hgt
      rcases List.mem_cons.mp hx with rfl | hx
      · -- Folding a row that overflows leaves a file past `i64::MAX`.
        by_contra hle
        rw [not_lt, ← h.compared] at hle
        have hcurrent : 1 ≤ st.current.length := by
          by_contra hnil
          have hnil : st.current = [] := List.eq_nil_of_length_eq_zero (by omega)
          rw [hnil, List.nil_append, totalSize_singleton] at hgt
          have := hmax idx
          omega
        simp only [foldUncompacted, Compact.foldRow, hle, if_true] at hfits
        have hlen : 2 ≤ (st.current ++ [idx]).length := by
          rw [List.length_append, List.length_singleton]
          omega
        obtain ⟨hfolded, part, hpart⟩ := @foldUncompacted_grows sizes maxSegmentBytes
          ⟨st.current ++ [idx], wrapI64 (st.currentSize + sizeAt sizes idx), st.sealIndices, st.folded + 1⟩ rest
          (Nat.le_add_left 1 _) hlen
        replace hpart : (foldUncompacted sizes maxSegmentBytes _ rest).current = (st.current ++ [idx]) ++ part := hpart
        have htotal := hfits hfolded (by rw [hpart, List.length_append]; omega)
        rw [hpart, totalSize_append] at htotal
        have hrest := totalSize_nonneg hpos part
        omega
      · cases hrow : Compact.foldRow sizes maxSegmentBytes st idx with
        | none => simp [hrow] at hx
        | some st' =>
            simp only [foldUncompacted, hrow] at hfits hx
            exact ih (h.foldRow hrow) hfits x hx hgt

end Overflow

/-! ## When there is no plan -/

/-- Nothing to do: no rows, only the active file, or one row within the cap. -/
def Settled (rows : List (U × Int)) (maxSegmentBytes : Int) : Prop :=
  rows = [] ∨ (2 ≤ rows.length ∧ ∃ u, ∀ row ∈ rows, row.1 = u) ∨
    ∃ row, rows = [row] ∧ row.2 ≤ maxSegmentBytes

theorem FoldState.toPlan_eq_none_iff {st : FoldState} :
    st.toPlan = none ↔ st.sealIndices = [] ∧ (st.folded = 0 ∨ st.current.length < 2) := by
  unfold FoldState.toPlan
  by_cases hseal : st.sealIndices = []
  · by_cases hfolded : st.folded = 0
    · simp [hseal, hfolded]
    · by_cases hlen : st.current.length < 2 <;> simp [hseal, hfolded, hlen]
  · by_cases hlen : st.current.length < 2 <;> simp [hseal, hlen]

theorem FoldState.toPlan_eq_some {st : FoldState} {plan : WavePlan} (h : st.toPlan = some plan) :
    plan.sealIndices = st.sealIndices ∧
      ((st.current.length < 2 ∧ st.sealIndices ≠ [] ∧ plan.inputIndices = []) ∨
        (2 ≤ st.current.length ∧ ¬ (st.folded = 0 ∧ st.sealIndices = []) ∧ plan.inputIndices = st.current)) := by
  unfold FoldState.toPlan at h
  split at h
  · cases h
  · rename_i hidle
    split at h
    · split at h
      · cases h
      · cases h
        exact ⟨rfl, .inl ⟨‹_›, ‹_›, rfl⟩⟩
    · cases h
      exact ⟨rfl, .inr ⟨by omega, hidle, rfl⟩⟩

theorem FoldState.toPlan_of_writable {st : FoldState} (hfolded : 1 ≤ st.folded) (hlen : 2 ≤ st.current.length) :
    st.toPlan = some ⟨st.current, st.sealIndices⟩ := by
  unfold FoldState.toPlan
  rw [if_neg (fun hidle => absurd hidle.1 (by omega)), if_neg (by omega)]

variable {order : List U} {rows : List (U × Int)}

/-- Without an uncompacted row every row is of the active file. -/
theorem settled_of_uncompacted_eq_nil (h : uncompactedIndices order (rows.map Prod.fst) = []) :
    Settled rows maxSegmentBytes := by
  have hall : ∀ i < rows.length, i ∈ activeIndices order (rows.map Prod.fst) := by
    intro i hi
    by_contra hnot
    have hmem : i ∈ uncompactedIndices order (rows.map Prod.fst) :=
      mem_uncompactedIndices.mpr ⟨by simpa using hi, hnot⟩
    rw [h] at hmem
    exact List.not_mem_nil hmem
  rcases List.eq_nil_or_concat rows with hnil | ⟨before, last, hrows⟩
  · exact .inl hnil
  · have hpos : 0 < rows.length := by simp [hrows]
    obtain ⟨u, hactive, -⟩ := mem_activeIndices.mp (hall 0 hpos)
    obtain ⟨i, j, hlt, -, hj⟩ := one_lt_count_iff.mp (activeUri_eq_some hactive)
    have hjlt : j < rows.length := by simpa using (List.getElem?_eq_some_iff.mp hj).1
    refine .inr (.inl ⟨by omega, u, ?_⟩)
    intro row hrow
    obtain ⟨k, hk, rfl⟩ := List.mem_iff_getElem.mp hrow
    obtain ⟨v, hv, hget⟩ := mem_activeIndices.mp (hall k hk)
    rw [hactive] at hv
    cases hv
    simpa [hk] using hget

theorem uncompactedIndices_of_all_shared {uris : List U} (hlen : 2 ≤ uris.length) {u : U}
    (hall : ∀ v ∈ uris, v = u) : uncompactedIndices order uris = [] := by
  have hcount : uris.count u = uris.length := List.count_eq_length.mpr (fun v hv => (hall v hv).symm)
  have hactive : activeUri order uris = some u := by
    refine activeUri_of_shared ?_ (by omega)
    intro v hv w hw _ _
    rw [hall v hv, hall w hw]
  rw [List.eq_nil_iff_forall_not_mem]
  intro i hi
  obtain ⟨hlt, hnot⟩ := mem_uncompactedIndices.mp hi
  refine hnot (mem_activeIndices.mpr ⟨u, hactive, ?_⟩)
  rw [List.getElem?_eq_getElem hlt, hall _ (List.getElem_mem hlt)]

/-- A row alone is sealed if it is above the cap. -/
theorem planWave_singleton (order : List U) {row : U × Int} (hpos : 0 ≤ row.2) (hmax : row.2 ≤ i64Max) :
    planWave order [row] maxSegmentBytes = if row.2 ≤ maxSegmentBytes then none else some ⟨[], [0]⟩ := by
  have hactive : activeIndices order [row.1] = [] := by
    cases hactive : activeUri order [row.1] with
    | none => simp [activeIndices, hactive]
    | some u =>
        have hcount := activeUri_eq_some hactive
        have hle : [row.1].count u ≤ 1 := List.count_le_length
        omega
  have huncompacted : uncompactedIndices order [row.1] = [0] := by
    simp [uncompactedIndices, hactive]
  by_cases hsize : row.2 ≤ maxSegmentBytes
  · simp [planWave, planWaveProjected, huncompacted, startState, hactive, foldUncompacted, foldRow, activeSize, sizeAt,
      wrapI64_of_fits hpos hmax, hsize, FoldState.toPlan]
  · simp [planWave, planWaveProjected, huncompacted, startState, hactive, foldUncompacted, foldRow, activeSize, sizeAt,
      wrapI64_of_fits hpos hmax, hsize, FoldState.toPlan]

section Sizes

variable (hsizes : ∀ row ∈ rows, 0 ≤ row.2 ∧ row.2 ≤ i64Max)
include hsizes

theorem planWave_eq_none_of_settled (h : Settled rows maxSegmentBytes) :
    planWave order rows maxSegmentBytes = none := by
  rcases h with rfl | ⟨hlen, u, hall⟩ | ⟨row, rfl, hsize⟩
  · rfl
  · have huncompacted : uncompactedIndices order (rows.map Prod.fst) = [] := by
      refine uncompactedIndices_of_all_shared (u := u) (by simpa using hlen) ?_
      intro v hv
      obtain ⟨row, hrow, rfl⟩ := List.mem_map.mp hv
      exact hall row hrow
    unfold planWave planWaveProjected
    rw [huncompacted]
    split
    · rfl
    · exact FoldState.toPlan_eq_none_iff.mpr ⟨rfl, .inl rfl⟩
  · obtain ⟨hpos, hmax⟩ := hsizes row (List.mem_singleton_self row)
    rw [planWave_singleton order hpos hmax, if_pos hsize]

theorem settled_of_planWave_eq_none (h : planWave order rows maxSegmentBytes = none) :
    Settled rows maxSegmentBytes := by
  have hnone := h
  unfold planWave planWaveProjected at h
  split at h
  · rename_i hnil
    exact .inl (List.map_eq_nil_iff.mp hnil)
  · obtain ⟨taken, left, hsplit, hinv, hstop⟩ :=
      foldUncompacted_start order (rows.map Prod.fst) (rows.map Prod.snd) maxSegmentBytes
    generalize hst : foldUncompacted (rows.map Prod.snd) maxSegmentBytes (startState order (rows.map Prod.fst)
      (rows.map Prod.snd)) (uncompactedIndices order (rows.map Prod.fst)) = st at h hinv hstop
    obtain ⟨hseal, hidle⟩ := FoldState.toPlan_eq_none_iff.mp h
    have hleft : left = [] := by
      rcases hstop with hleft | ⟨hfolded, hlen⟩
      · exact hleft
      · omega
    rw [hleft, List.append_nil] at hsplit
    -- Nothing is sealed, so `current` holds the active file and every uncompacted row.
    have haccount : st.current.length = (activeIndices order (rows.map Prod.fst)).length + taken.length := by
      have hlen := hinv.account.length_eq
      rwa [hseal, List.append_nil, List.length_append] at hlen
    have hfolded : taken.length = st.folded := by
      rcases hinv.whole with ⟨-, part, hcurrent, hlen⟩ | ⟨hsub, hlen⟩
      · rw [hcurrent, List.length_append] at haccount
        omega
      · rw [hseal] at hsub
        rw [List.eq_nil_of_subset_nil hsub, List.length_nil] at haccount
        omega
    rcases Nat.eq_zero_or_pos taken.length with hzero | hpos
    · rw [List.length_eq_zero_iff.mp hzero] at hsplit
      exact settled_of_uncompacted_eq_nil hsplit
    · -- One uncompacted row and no active file.
      have hactive : activeIndices order (rows.map Prod.fst) = [] := by
        by_contra hne
        have := two_le_length_activeIndices hne
        omega
      have hrange : taken = List.range rows.length := by
        rw [← hsplit, uncompactedIndices, hactive]
        simp
      have hone : rows.length = 1 := by
        rw [hactive, List.length_nil, hrange, List.length_range] at haccount
        rw [hrange, List.length_range] at hpos hfolded
        omega
      obtain ⟨row, rfl⟩ := List.length_eq_one_iff.mp hone
      obtain ⟨hpos, hmax⟩ := hsizes row (List.mem_singleton_self row)
      refine .inr (.inr ⟨row, rfl, ?_⟩)
      by_contra hsize
      rw [planWave_singleton order hpos hmax, if_neg hsize] at hnone
      cases hnone

end Sizes

/-! ## What a plan does -/

/-- The rows a plan takes, whatever the uris. -/
structure WavePlan.Picks (plan : WavePlan) (rows : List (U × Int)) : Prop where
  nodup    : (plan.inputIndices ++ plan.sealIndices).Nodup
  inRange  : ∀ i ∈ plan.inputIndices ++ plan.sealIndices, i < rows.length
  progress : plan.inputIndices ≠ [] ∨ plan.sealIndices ≠ []
  two      : plan.inputIndices = [] ∨ 2 ≤ plan.inputIndices.length

/-- A plan under the invariant: the inputs lie in different files, and the rows of the active file are taken
    together or sealed together. -/
structure WavePlan.Sound (plan : WavePlan) (rows : List (U × Int)) : Prop extends plan.Picks rows where
  differ   : plan.inputIndices = [] ∨
    ∃ i ∈ plan.inputIndices, ∃ j ∈ plan.inputIndices, (rows.map Prod.fst)[i]? ≠ (rows.map Prod.fst)[j]?
  shared   : ∀ u, 1 < (rows.map Prod.fst).count u →
    (∀ i, (rows.map Prod.fst)[i]? = some u → i ∈ plan.inputIndices) ∨
    (∀ i, (rows.map Prod.fst)[i]? = some u → i ∈ plan.sealIndices)

/-- The recorded sizes of the inputs are within the cap. -/
def WavePlan.Fits (plan : WavePlan) (rows : List (U × Int)) (maxSegmentBytes : Int) : Prop :=
  plan.inputIndices = [] ∨ totalSize (rows.map Prod.snd) plan.inputIndices ≤ maxSegmentBytes

theorem FoldInv.nodup {uris : List U} {left : List Nat}
    (h : FoldInv sizes (activeIndices order uris) taken st)
    (hsplit : uncompactedIndices order uris = taken ++ left) : (st.current ++ st.sealIndices).Nodup := by
  have hnodup := (perm_range order uris).nodup_iff.mpr List.nodup_range
  rw [hsplit, ← List.append_assoc] at hnodup
  exact h.account.nodup_iff.mpr hnodup.of_append_left

theorem FoldInv.inRange {uris : List U} {left : List Nat}
    (h : FoldInv sizes (activeIndices order uris) taken st)
    (hsplit : uncompactedIndices order uris = taken ++ left) {i : Nat} (hi : i ∈ st.current ++ st.sealIndices) :
    i < uris.length := by
  rcases List.mem_append.mp (h.account.mem_iff.mp hi) with hi | hi
  · exact lt_of_mem_activeIndices hi
  · have hmem : i ∈ uncompactedIndices order uris := hsplit ▸ List.mem_append_left _ hi
    exact (mem_uncompactedIndices.mp hmem).1

theorem FoldInv.two_uris {uris : List U} {left : List Nat} (hshared : AtMostOneShared uris)
    (h : FoldInv sizes (activeIndices order uris) taken st)
    (hsplit : uncompactedIndices order uris = taken ++ left) (hfolded : 1 ≤ st.folded) (hlen : 2 ≤ st.current.length) :
    ∃ i ∈ st.current, ∃ j ∈ st.current, uris[i]? ≠ uris[j]? := by
  have hnodup : st.current.Nodup := (h.nodup hsplit).of_append_left
  -- An uncompacted row of `current` differs in uri from every other row.
  obtain ⟨i, hi, huncompacted⟩ : ∃ i ∈ st.current, i ∈ uncompactedIndices order uris := by
    by_contra hnone
    have hactive : st.current ⊆ activeIndices order uris := by
      intro i hi
      rcases List.mem_append.mp (h.account.mem_iff.mp (List.mem_append_left _ hi)) with hi' | hi'
      · exact hi'
      · exact absurd ⟨i, hi, hsplit ▸ List.mem_append_left _ hi'⟩ hnone
    rcases h.whole with ⟨-, part, hcurrent, hpart⟩ | ⟨hsub, -⟩
    · have hle := (List.subperm_of_subset hnodup hactive).length_le
      rw [hcurrent, List.length_append] at hle
      omega
    · obtain ⟨i, hi⟩ := List.exists_mem_of_length_pos (by omega : 0 < st.current.length)
      exact (List.disjoint_of_nodup_append (h.nodup hsplit)) hi (hsub (hactive hi))
  obtain ⟨j, hj, hne⟩ : ∃ j ∈ st.current, j ≠ i := by
    by_contra hnone
    have hsub : st.current ⊆ [i] := by
      intro j hj
      by_contra hji
      exact hnone ⟨j, hj, by simpa using hji⟩
    have hle := (List.subperm_of_subset hnodup hsub).length_le
    simp only [List.length_singleton] at hle
    omega
  refine ⟨i, hi, j, hj, ?_⟩
  intro huri
  exact hne (eq_of_uncompacted hshared huncompacted huri).symm

theorem FoldInv.one_le_folded (h : FoldInv sizes active taken st) (hlen : 2 ≤ st.current.length)
    (hidle : ¬ (st.folded = 0 ∧ st.sealIndices = [])) : 1 ≤ st.folded := by
  by_contra hzero
  rcases h.whole with ⟨hseal, -⟩ | ⟨-, hcount⟩
  · exact hidle ⟨by omega, hseal⟩
  · omega

/-- Where a plan comes from: the folded state, seal-only or writable. -/
theorem planWave_eq_some {plan : WavePlan} (hplan : planWave order rows maxSegmentBytes = some plan) :
    ∃ taken left st, uncompactedIndices order (rows.map Prod.fst) = taken ++ left ∧
      FoldInv (rows.map Prod.snd) (activeIndices order (rows.map Prod.fst)) taken st ∧
      plan.sealIndices = st.sealIndices ∧
      ((st.current.length < 2 ∧ st.sealIndices ≠ [] ∧ plan.inputIndices = []) ∨
        (2 ≤ st.current.length ∧ 1 ≤ st.folded ∧ plan.inputIndices = st.current)) := by
  unfold planWave planWaveProjected at hplan
  split at hplan
  · cases hplan
  · obtain ⟨taken, left, hsplit, hinv, -⟩ :=
      foldUncompacted_start order (rows.map Prod.fst) (rows.map Prod.snd) maxSegmentBytes
    obtain ⟨hseals, hsealOnly | ⟨hlen, hidle, hinputs⟩⟩ := FoldState.toPlan_eq_some hplan
    · exact ⟨taken, left, _, hsplit, hinv, hseals, .inl hsealOnly⟩
    · exact ⟨taken, left, _, hsplit, hinv, hseals, .inr ⟨hlen, hinv.one_le_folded hlen hidle, hinputs⟩⟩

theorem planWave_picks {plan : WavePlan} (hplan : planWave order rows maxSegmentBytes = some plan) :
    plan.Picks rows := by
  obtain ⟨taken, left, st, hsplit, hinv, hseals, hcases⟩ := planWave_eq_some hplan
  have hnodup := hinv.nodup hsplit
  have hrange : ∀ i ∈ st.current ++ st.sealIndices, i < rows.length := by
    intro i hi
    simpa using hinv.inRange hsplit hi
  rcases hcases with ⟨-, hne, hinputs⟩ | ⟨hlen, hfolded, hinputs⟩
  · refine ⟨?_, ?_, .inr (hseals ▸ hne), .inl hinputs⟩
    · rw [hinputs, hseals, List.nil_append]
      exact hnodup.of_append_right
    · intro i hi
      rw [hinputs, hseals, List.nil_append] at hi
      exact hrange i (List.mem_append_right _ hi)
  · refine ⟨?_, ?_, .inl ?_, .inr ?_⟩
    · rwa [hinputs, hseals]
    · rwa [hinputs, hseals]
    · rw [hinputs]
      exact List.ne_nil_of_length_pos (by omega)
    · rwa [hinputs]

theorem planWave_sound (hshared : AtMostOneShared (rows.map Prod.fst)) {plan : WavePlan}
    (hplan : planWave order rows maxSegmentBytes = some plan) : plan.Sound rows := by
  obtain ⟨taken, left, st, hsplit, hinv, hseals, hcases⟩ := planWave_eq_some hplan
  refine ⟨planWave_picks hplan, ?_, ?_⟩
  · rcases hcases with ⟨-, -, hinputs⟩ | ⟨hlen, hfolded, hinputs⟩
    · exact .inl hinputs
    · rw [hinputs]
      exact .inr (hinv.two_uris hshared hsplit hfolded hlen)
  · intro u hu
    have hactive : ∀ i, (rows.map Prod.fst)[i]? = some u → i ∈ activeIndices order (rows.map Prod.fst) := by
      intro i hi
      exact mem_activeIndices.mpr ⟨u, activeUri_of_shared hshared hu, hi⟩
    rcases hinv.whole with ⟨-, part, hcurrent, -⟩ | ⟨hsub, -⟩
    · rcases hcases with ⟨hlen, -, -⟩ | ⟨-, -, hinputs⟩
      · -- `current` is too short to hold the active file.
        obtain ⟨i, -, -, hi, -⟩ := one_lt_count_iff.mp hu
        have htwo := two_le_length_activeIndices (List.ne_nil_of_mem (hactive i hi))
        rw [hcurrent, List.length_append] at hlen
        omega
      · left
        intro i hi
        rw [hinputs, hcurrent]
        exact List.mem_append_left _ (hactive i hi)
    · right
      intro i hi
      rw [hseals]
      exact hsub (hactive i hi)

/-- The sums of a wave compare with the cap as they would without overflow. -/
def WaveSumsCompare (order : List U) (rows : List (U × Int)) (maxSegmentBytes : Int) : Prop :=
  SumsCompare (rows.map Prod.snd) maxSegmentBytes (startState order (rows.map Prod.fst) (rows.map Prod.snd))
    (uncompactedIndices order (rows.map Prod.fst))

omit [DecidableEq U] in
theorem sizeAt_bounds (hsizes : ∀ row ∈ rows, 0 ≤ row.2 ∧ row.2 ≤ i64Max) (i : Nat) :
    0 ≤ sizeAt (rows.map Prod.snd) i ∧ sizeAt (rows.map Prod.snd) i ≤ i64Max := by
  by_cases hi : i < rows.length
  · simpa [sizeAt, hi] using hsizes rows[i] (List.getElem_mem hi)
  · simp [sizeAt, hi, i64Max]

theorem planWave_fits (hsizes : ∀ row ∈ rows, 0 ≤ row.2 ∧ row.2 ≤ i64Max)
    (hsums : WaveSumsCompare order rows maxSegmentBytes) {plan : WavePlan}
    (hplan : planWave order rows maxSegmentBytes = some plan) : plan.Fits rows maxSegmentBytes := by
  have hstart := FoldInv.start (rows.map Prod.snd) (activeIndices order (rows.map Prod.fst))
  have hfits := hstart.fits_of_sumsCompare (fun i => (sizeAt_bounds hsizes i).1) hsums
    (fun hzero => absurd hzero (by simp))
  unfold planWave planWaveProjected at hplan
  split at hplan
  · cases hplan
  · obtain ⟨-, ⟨-, -, hinputs⟩ | ⟨hlen, hidle, hinputs⟩⟩ := FoldState.toPlan_eq_some hplan
    · exact .inl hinputs
    · obtain ⟨taken, left, -, hinv, -⟩ :=
        foldUncompacted_start order (rows.map Prod.fst) (rows.map Prod.snd) maxSegmentBytes
      right
      rw [hinputs]
      exact hfits (hinv.one_le_folded hlen hidle) hlen

/-- **Overflow.** Plans are within the cap exactly when no sum misleads the loop. -/
theorem planWave_fits_iff (hsizes : ∀ row ∈ rows, 0 ≤ row.2 ∧ row.2 ≤ i64Max) (hcap : maxSegmentBytes ≤ i64Max) :
    (∀ plan, planWave order rows maxSegmentBytes = some plan → plan.Fits rows maxSegmentBytes) ↔
      WaveSumsCompare order rows maxSegmentBytes := by
  refine ⟨fun hfits => ?_, fun hsums plan hplan => planWave_fits hsizes hsums hplan⟩
  have hstart := FoldInv.start (rows.map Prod.snd) (activeIndices order (rows.map Prod.fst))
  refine hstart.sumsCompare_of_fits (fun i => (sizeAt_bounds hsizes i).1) hcap
    (fun i => (sizeAt_bounds hsizes i).2) ?_
  intro hfolded hlen
  have hne : rows.map Prod.fst ≠ [] := by
    intro hnil
    simp [foldUncompacted, uncompactedIndices, startState, hnil] at hfolded
  unfold planWave planWaveProjected at hfits
  rw [if_neg hne, FoldState.toPlan_of_writable hfolded hlen] at hfits
  exact (hfits _ rfl).resolve_left (List.ne_nil_of_length_pos (Nat.lt_of_lt_of_le Nat.two_pos hlen))

omit [DecidableEq U] in
theorem totalSize_le_sum (hsizes : ∀ row ∈ rows, 0 ≤ row.2 ∧ row.2 ≤ i64Max) {indices : List Nat}
    (hnodup : indices.Nodup) (hrange : ∀ i ∈ indices, i < rows.length) :
    totalSize (rows.map Prod.snd) indices ≤ (rows.map Prod.snd).sum := by
  have hall : (rows.map Prod.snd).sum = totalSize (rows.map Prod.snd) (List.range rows.length) := by
    refine congrArg _ (List.ext_getElem (by simp) ?_)
    intro i hi hi'
    simp [sizeAt, show i < rows.length by simpa using hi]
  rw [hall, totalSize, totalSize, ← List.sum_toFinset _ hnodup, ← List.sum_toFinset _ List.nodup_range]
  refine Finset.sum_le_sum_of_subset_of_nonneg ?_ (fun i _ _ => (sizeAt_bounds hsizes i).1)
  intro i hi
  simpa using hrange i (List.mem_toFinset.mp hi)

/-- Sizes that add up within `i64` do not overflow. -/
theorem waveSumsCompare_of_sum_le (hsizes : ∀ row ∈ rows, 0 ≤ row.2 ∧ row.2 ≤ i64Max)
    (hsum : (rows.map Prod.snd).sum ≤ i64Max) : WaveSumsCompare order rows maxSegmentBytes := by
  have hall := perm_range order (rows.map Prod.fst)
  have hstart := FoldInv.start (rows.map Prod.snd) (activeIndices order (rows.map Prod.fst))
  -- What is left of the loop are rows it has not taken.
  suffices hloop : ∀ rest taken st, FoldInv (rows.map Prod.snd) (activeIndices order (rows.map Prod.fst)) taken st →
      (activeIndices order (rows.map Prod.fst) ++ (taken ++ rest)).Perm (List.range rows.length) →
      SumsCompare (rows.map Prod.snd) maxSegmentBytes st rest by
    exact hloop _ [] _ hstart (by simpa using hall)
  intro rest
  induction rest with
  | nil => exact fun _ _ _ _ x hx => absurd hx List.not_mem_nil
  | cons idx rest ih =>
      intro taken st hinv hperm x hx hgt
      rcases List.mem_cons.mp hx with rfl | hx
      · have htaken : ((st.current ++ st.sealIndices) ++ idx :: rest).Perm (List.range rows.length) := by
          rw [← List.append_assoc] at hperm
          exact (hinv.account.append_right _).trans hperm
        have hsub : (st.current ++ [idx]).Subperm (List.range rows.length) := by
          refine List.Subperm.trans ?_ htaken.subperm
          rw [List.append_assoc]
          exact (List.Sublist.append (List.Sublist.refl _)
            (List.sublist_append_of_sublist_right (by simp))).subperm
        obtain ⟨l, hl, hsublist⟩ := hsub
        have hle := totalSize_le_sum hsizes (hl.nodup_iff.mp (hsublist.nodup List.nodup_range))
          (fun i hi => List.mem_range.mp (hsublist.subset (hl.mem_iff.mpr hi)))
        omega
      · cases hrow : foldRow (rows.map Prod.snd) maxSegmentBytes st idx with
        | none => simp [hrow] at hx
        | some st' =>
            simp only [hrow] at hx
            refine ih (taken ++ [idx]) st' (hinv.foldRow hrow) ?_ x hx hgt
            rwa [List.append_assoc, List.singleton_append]

/-! ## Carrying a plan out -/

/-- What a wave does to the row at an index: a sealed row leaves, an input moves to the merged file with whatever
    size is recorded for it. -/
def WavePlan.applyRow (plan : WavePlan) (merged : U) (recorded : Nat → Int) (x : (U × Int) × Nat) :
    Option (U × Int) :=
  if x.2 ∈ plan.sealIndices then none
  else if x.2 ∈ plan.inputIndices then some (merged, recorded x.2)
  else some x.1

/-- The unsealed rows after a wave. -/
def WavePlan.apply (plan : WavePlan) (merged : U) (recorded : Nat → Int) (rows : List (U × Int)) :
    List (U × Int) :=
  rows.zipIdx.filterMap (plan.applyRow merged recorded)

omit [DecidableEq U] in
theorem WavePlan.mem_apply {plan : WavePlan} {merged : U} {recorded : Nat → Int} {row : U × Int}
    (h : row ∈ plan.apply merged recorded rows) :
    row.1 = merged ∨ ∃ i, (rows.map Prod.fst)[i]? = some row.1 ∧ i ∉ plan.inputIndices ∧ i ∉ plan.sealIndices := by
  obtain ⟨⟨old, i⟩, hmem, hrow⟩ := List.mem_filterMap.mp h
  have hold : rows[i]? = some old := List.mk_mem_zipIdx_iff_getElem?.mp hmem
  unfold applyRow at hrow
  split at hrow
  · cases hrow
  · split at hrow
    · cases hrow
      exact .inl rfl
    · cases hrow
      exact .inr ⟨i, by simp [hold], ‹_›, ‹_›⟩

/-- A uri other than the new one is in no more rows than before. -/
theorem WavePlan.count_apply_le (plan : WavePlan) {merged : U} (recorded : Nat → Int) {u : U} (hne : u ≠ merged) :
    ((plan.apply merged recorded rows).map Prod.fst).count u ≤ (rows.map Prod.fst).count u := by
  have hrows : rows.map Prod.fst = rows.zipIdx.map (fun x => x.1.1) := by
    conv_lhs => rw [← List.zipIdx_map_fst 0 rows, List.map_map]
    rfl
  rw [hrows, List.count_eq_countP, List.count_eq_countP, List.countP_map, List.countP_map, WavePlan.apply,
    List.countP_filterMap]
  refine List.countP_mono_left ?_
  intro x _ hx
  simp only [Function.comp, applyRow] at hx ⊢
  split at hx
  · simp at hx
  · split at hx
    · exact absurd (by simpa using hx) hne.symm
    · simpa using hx

/-- Carrying out a plan leaves at most the merged file shared. -/
theorem WavePlan.Sound.eq_merged {plan : WavePlan} (h : plan.Sound rows) {merged : U}
    {recorded : Nat → Int} {u : U} (hu : 1 < ((plan.apply merged recorded rows).map Prod.fst).count u) :
    u = merged := by
  by_contra hne
  have hold : 1 < (rows.map Prod.fst).count u := lt_of_lt_of_le hu (plan.count_apply_le recorded hne)
  have hmem : u ∈ (plan.apply merged recorded rows).map Prod.fst := List.count_pos_iff.mp (by omega)
  obtain ⟨row, hrow, rfl⟩ := List.mem_map.mp hmem
  obtain hm | ⟨i, hi, hinput, hseal⟩ := plan.mem_apply hrow
  · exact hne hm
  · rcases h.shared _ hold with hall | hall
    · exact hinput (hall i hi)
    · exact hseal (hall i hi)

theorem WavePlan.Sound.atMostOneShared {plan : WavePlan} (h : plan.Sound rows) (merged : U)
    (recorded : Nat → Int) : AtMostOneShared ((plan.apply merged recorded rows).map Prod.fst) := by
  intro u _ v _ hu hv
  rw [h.eq_merged hu, h.eq_merged hv]

/-! ## Waves come to an end -/

/-- The rows and the files they lie in. -/
def waveMeasure (rows : List (U × Int)) : Nat := rows.length + (rows.map Prod.fst).toFinset.card

theorem waveMeasure_perm {rows' : List (U × Int)} (h : rows'.Perm rows) : waveMeasure rows' = waveMeasure rows := by
  unfold waveMeasure
  rw [h.length_eq, List.toFinset_eq_of_perm _ _ (h.map Prod.fst)]

omit [DecidableEq U] in
theorem WavePlan.length_apply_le (plan : WavePlan) (merged : U) (recorded : Nat → Int) (rows : List (U × Int)) :
    (plan.apply merged recorded rows).length ≤ rows.length := by
  have hle := List.length_filterMap_le (plan.applyRow merged recorded) rows.zipIdx
  rwa [List.length_zipIdx] at hle

omit [DecidableEq U] in
/-- A sealed row leaves the list. -/
theorem WavePlan.length_apply_lt {plan : WavePlan} {i : Nat} (hi : i ∈ plan.sealIndices) (hlt : i < rows.length)
    (merged : U) (recorded : Nat → Int) : (plan.apply merged recorded rows).length < rows.length := by
  have hmem : (rows[i], i) ∈ rows.zipIdx := List.mk_mem_zipIdx_iff_getElem?.mpr (List.getElem?_eq_getElem hlt)
  obtain ⟨before, after, hsplit⟩ := List.append_of_mem hmem
  have hlen : rows.length = before.length + (after.length + 1) := by
    have hzip := congrArg List.length hsplit
    rwa [List.length_zipIdx, List.length_append, List.length_cons] at hzip
  have hgone : plan.applyRow merged recorded (rows[i], i) = none := if_pos hi
  have hbefore := List.length_filterMap_le (plan.applyRow merged recorded) before
  have hafter := List.length_filterMap_le (plan.applyRow merged recorded) after
  unfold WavePlan.apply
  rw [hsplit, List.filterMap_append, List.filterMap_cons_none hgone, List.length_append]
  omega

theorem WavePlan.Sound.not_mem_of_input {plan : WavePlan} (h : plan.Sound rows) {merged : U}
    {recorded : Nat → Int} {i : Nat} {u : U} (hi : i ∈ plan.inputIndices) (hu : (rows.map Prod.fst)[i]? = some u)
    (hne : u ≠ merged) : u ∉ (plan.apply merged recorded rows).map Prod.fst := by
  intro hmem
  obtain ⟨row, hrow, rfl⟩ := List.mem_map.mp hmem
  obtain hm | ⟨j, hj, hinput, hseal⟩ := plan.mem_apply hrow
  · exact hne hm
  have hij : i ≠ j := fun heq => hinput (heq ▸ hi)
  have hshared : 1 < (rows.map Prod.fst).count row.1 := by
    rw [one_lt_count_iff]
    rcases Nat.lt_or_gt_of_ne hij with hlt | hlt
    · exact ⟨i, j, hlt, hu, hj⟩
    · exact ⟨j, i, hlt, hj, hu⟩
  rcases h.shared _ hshared with hall | hall
  · exact hinput (hall j hj)
  · exact hseal (hall j hj)

theorem WavePlan.Sound.card_apply_lt {plan : WavePlan} (h : plan.Sound rows) {merged : U}
    (hmerged : merged ∉ rows.map Prod.fst) (recorded : Nat → Int) (hinputs : plan.inputIndices ≠ []) :
    ((plan.apply merged recorded rows).map Prod.fst).toFinset.card < (rows.map Prod.fst).toFinset.card := by
  obtain hnil | ⟨i, hi, j, hj, hne⟩ := h.differ
  · exact absurd hnil hinputs
  have hget : ∀ k ∈ plan.inputIndices, ∃ u, (rows.map Prod.fst)[k]? = some u := by
    intro k hk
    have hlt := h.inRange k (List.mem_append_left _ hk)
    exact ⟨_, List.getElem?_eq_getElem (by simpa using hlt)⟩
  obtain ⟨u, hu⟩ := hget i hi
  obtain ⟨v, hv⟩ := hget j hj
  have huv : u ≠ v := by
    rintro rfl
    exact hne (hu.trans hv.symm)
  have humem : u ∈ (rows.map Prod.fst).toFinset := List.mem_toFinset.mpr (List.mem_of_getElem? hu)
  have hvmem : v ∈ (rows.map Prod.fst).toFinset := List.mem_toFinset.mpr (List.mem_of_getElem? hv)
  have hold : ∀ {w}, w ∈ (rows.map Prod.fst).toFinset → w ≠ merged := by
    rintro w hw rfl
    exact hmerged (List.mem_toFinset.mp hw)
  -- The new uris are the merged file and old ones, without those of the two inputs.
  have hsub : ((plan.apply merged recorded rows).map Prod.fst).toFinset ⊆
      insert merged (((rows.map Prod.fst).toFinset.erase u).erase v) := by
    intro w hw
    have hw := List.mem_toFinset.mp hw
    have hwu : w ≠ merged → w ≠ u := by
      rintro hne rfl
      exact h.not_mem_of_input hi hu hne hw
    have hwv : w ≠ merged → w ≠ v := by
      rintro hne rfl
      exact h.not_mem_of_input hj hv hne hw
    obtain ⟨row, hrow, rfl⟩ := List.mem_map.mp hw
    by_cases hm : row.1 = merged
    · exact Finset.mem_insert.mpr (.inl hm)
    · obtain hm' | ⟨k, hk, -, -⟩ := plan.mem_apply hrow
      · exact absurd hm' hm
      · refine Finset.mem_insert.mpr (.inr (Finset.mem_erase.mpr ⟨hwv hm, Finset.mem_erase.mpr ⟨hwu hm, ?_⟩⟩))
        exact List.mem_toFinset.mpr (List.mem_of_getElem? hk)
  have hcard : (((rows.map Prod.fst).toFinset.erase u).erase v).card + 2 = (rows.map Prod.fst).toFinset.card := by
    rw [Finset.card_erase_of_mem (Finset.mem_erase.mpr ⟨huv.symm, hvmem⟩), Finset.card_erase_of_mem humem]
    have htwo : 1 < (rows.map Prod.fst).toFinset.card := Finset.one_lt_card.mpr ⟨u, humem, v, hvmem, huv⟩
    omega
  have hle := (Finset.card_le_card hsub).trans (Finset.card_insert_le _ _)
  omega

theorem WavePlan.card_apply_le {plan : WavePlan} (hinputs : plan.inputIndices = []) (merged : U)
    (recorded : Nat → Int) (rows : List (U × Int)) :
    ((plan.apply merged recorded rows).map Prod.fst).toFinset.card ≤ (rows.map Prod.fst).toFinset.card := by
  refine Finset.card_le_card ?_
  intro u hu
  obtain ⟨row, hrow, rfl⟩ := List.mem_map.mp (List.mem_toFinset.mp hu)
  obtain ⟨⟨old, i⟩, hmem, happ⟩ := List.mem_filterMap.mp hrow
  have hold : old ∈ rows := List.mem_of_getElem? (List.mk_mem_zipIdx_iff_getElem?.mp hmem)
  simp only [applyRow, hinputs, List.not_mem_nil, if_false, Option.ite_none_left_eq_some, Option.some.injEq] at happ
  rw [← happ.2]
  exact List.mem_toFinset.mpr (List.mem_map_of_mem hold)

theorem WavePlan.Sound.waveMeasure_lt {plan : WavePlan} (h : plan.Sound rows) {merged : U}
    (hmerged : merged ∉ rows.map Prod.fst) (recorded : Nat → Int) :
    waveMeasure (plan.apply merged recorded rows) < waveMeasure rows := by
  have hle := plan.length_apply_le merged recorded rows
  unfold waveMeasure
  by_cases hinputs : plan.inputIndices = []
  · have hseals : plan.sealIndices ≠ [] := h.progress.resolve_left (not_not.mpr hinputs)
    obtain ⟨i, hi⟩ := List.exists_mem_of_ne_nil _ hseals
    have hlt := length_apply_lt hi (h.inRange i (List.mem_append_right _ hi)) merged recorded
    have hcard := card_apply_le hinputs merged recorded rows
    omega
  · have hcard := h.card_apply_lt hmerged recorded hinputs
    omega

/-- One wave follows another: the plan carried out with some new uri and some recorded sizes, the rows listed in
    any order. -/
def WaveStep (maxSegmentBytes : Int) (rows rows' : List (U × Int)) : Prop :=
  ∃ order, ∀ plan, planWave order rows maxSegmentBytes = some plan →
    ∃ merged recorded, merged ∉ rows.map Prod.fst ∧ rows'.Perm (plan.apply merged recorded rows)

theorem planWave_eq (hshared : AtMostOneShared (rows.map Prod.fst)) (order order' : List U) :
    planWave order rows maxSegmentBytes = planWave order' rows maxSegmentBytes := by
  have hindices : activeIndices order (rows.map Prod.fst) = activeIndices order' (rows.map Prod.fst) := by
    unfold activeIndices
    rw [activeUri_eq hshared order order']
  simp only [planWave, planWaveProjected, startState, uncompactedIndices, hindices]

theorem WaveStep.next {rows' : List (U × Int)} (hshared : AtMostOneShared (rows.map Prod.fst))
    (hstep : WaveStep maxSegmentBytes rows rows') {plan : WavePlan}
    (hplan : planWave order rows maxSegmentBytes = some plan) :
    AtMostOneShared (rows'.map Prod.fst) ∧ waveMeasure rows' < waveMeasure rows := by
  obtain ⟨order', hstep⟩ := hstep
  obtain ⟨merged, recorded, hmerged, hperm⟩ := hstep plan (planWave_eq hshared order' order ▸ hplan)
  have hsound := planWave_sound hshared hplan
  refine ⟨(hsound.atMostOneShared merged recorded).perm (hperm.map Prod.fst), ?_⟩
  rw [waveMeasure_perm hperm]
  exact hsound.waveMeasure_lt hmerged recorded

/-- Waves reach a list without a plan. -/
theorem exists_planWave_eq_none (waves : Nat → List (U × Int))
    (hshared : AtMostOneShared ((waves 0).map Prod.fst))
    (hstep : ∀ k, WaveStep maxSegmentBytes (waves k) (waves (k + 1))) :
    ∃ k, ∀ order, planWave order (waves k) maxSegmentBytes = none := by
  -- By strong induction on the measure of the first list.
  induction hm : waveMeasure (waves 0) using Nat.strong_induction_on generalizing waves with
  | _ m ih =>
      cases hplan : planWave [] (waves 0) maxSegmentBytes with
      | none => exact ⟨0, fun order => (planWave_eq hshared order []).trans hplan⟩
      | some plan =>
          obtain ⟨hnext, hlt⟩ := (hstep 0).next hshared hplan
          obtain ⟨k, hk⟩ := ih _ (hm ▸ hlt) (fun k => waves (k + 1)) hnext (fun k => hstep (k + 1)) rfl
          exact ⟨k + 1, hk⟩

/-- **The planner's contract** on a list of rows: when there is no plan, what a plan takes, that one carried out
    leaves at most one shared uri, and that waves come to an end. -/
structure PlannerContract (order : List U) (rows : List (U × Int)) (maxSegmentBytes : Int) : Prop where
  none_iff : planWave order rows maxSegmentBytes = none ↔ Settled rows maxSegmentBytes
  sound    : ∀ plan, planWave order rows maxSegmentBytes = some plan →
    plan.Sound rows ∧ plan.Fits rows maxSegmentBytes
  shared   : ∀ plan, planWave order rows maxSegmentBytes = some plan → ∀ merged recorded,
    merged ∉ rows.map Prod.fst → AtMostOneShared ((plan.apply merged recorded rows).map Prod.fst)
  ends     : ∀ waves : Nat → List (U × Int), waves 0 = rows →
    (∀ k, WaveStep maxSegmentBytes (waves k) (waves (k + 1))) →
    ∃ k, ∀ order, planWave order (waves k) maxSegmentBytes = none

/-- **The planner** meets its contract exactly when its `i64` sums compare with the cap as they would without
    overflow, which they do if all the sizes together fit. -/
theorem plannerContract_iff (order : List U) (rows : List (U × Int)) (maxSegmentBytes : Int)
    (hshared : AtMostOneShared (rows.map Prod.fst)) (hsizes : ∀ row ∈ rows, 0 ≤ row.2 ∧ row.2 ≤ i64Max)
    (hcap : maxSegmentBytes ≤ i64Max) :
    (PlannerContract order rows maxSegmentBytes ↔ WaveSumsCompare order rows maxSegmentBytes) ∧
      ((rows.map Prod.snd).sum ≤ i64Max → WaveSumsCompare order rows maxSegmentBytes) := by
  refine ⟨?_, waveSumsCompare_of_sum_le hsizes⟩
  rw [← planWave_fits_iff hsizes hcap]
  constructor
  · intro h plan hplan
    exact (h.sound plan hplan).2
  · intro hfits
    refine ⟨⟨settled_of_planWave_eq_none hsizes, planWave_eq_none_of_settled hsizes⟩, ?_, ?_, ?_⟩
    · intro plan hplan
      exact ⟨planWave_sound hshared hplan, hfits plan hplan⟩
    · intro plan hplan merged recorded _
      exact (planWave_sound hshared hplan).atMostOneShared merged recorded
    · rintro waves rfl hstep
      exact exists_planWave_eq_none waves hshared hstep

/-- The second sum wraps to `i64::MIN`: both rows are merged, and their total is past the cap. -/
theorem plannerContract_fails :
    planWave [] [(0, i64Max), (1, 1)] i64Max = some ⟨[0, 1], []⟩ ∧
      ¬ PlannerContract [] [(0, i64Max), (1, 1)] i64Max := by
  have hplan : planWave [] [(0, i64Max), (1, 1)] i64Max = some ⟨[0, 1], []⟩ := by decide +kernel
  refine ⟨hplan, fun h => ?_⟩
  have hover : ¬ (totalSize ([(0, i64Max), (1, 1)].map Prod.snd) [0, 1] ≤ i64Max) := by decide +kernel
  exact hover (((h.sound _ hplan).2).resolve_left (by simp))

/-- A file of two rows and two uncompacted rows, the second of which no longer fits. -/
theorem plannerContract_active :
    planWave [] [(0, 30), (1, 40), (0, 20), (2, 50)] 100 = some ⟨[0, 2, 1], []⟩ ∧
      PlannerContract [] [(0, 30), (1, 40), (0, 20), (2, 50)] 100 := by
  obtain ⟨hiff, hsum⟩ := plannerContract_iff [] [(0, 30), (1, 40), (0, 20), (2, 50)] 100 (by decide +kernel)
    (by decide +kernel) (by decide +kernel)
  exact ⟨by decide +kernel, hiff.mpr (hsum (by decide +kernel))⟩

end Penca.Compact
