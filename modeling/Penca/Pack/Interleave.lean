import Penca.Lib.StableMerge
import Penca.Pack.Partition

/-!
# `Pack.Interleave` — the sorted merge of one partition, with its cursors

`PartitionMerger` merges the prior rows of one partition, which arrive as slices of a sorted stream, with the
partition's delta, sorted once. It keeps a cursor into the delta, turns every slice into a list of
`(source, row)` indices and gathers the rows those name. A delta row of the key a slice ends with is held back,
since the next slice may bring more prior rows of that key.

## Contents
- **The merger.** `new`, `pushPrior`, `finish`, and `run` for a whole prior stream.
- **The cursor.** `pushPrior_spec`: with the delta rows past the cursor as the held ones, a slice is one
  `StableMerge.pushSlice`; no index is out of range.
- **The result.** `run_spec`: the outputs together are the stable merge of the prior rows and the sorted delta.

`lexsort_to_indices` is library code. It need not be stable, so it is any function that returns a sorted
permutation.
-/

namespace Penca.Files

open StableMerge
open Pack (Row sortRow PartitionOrderKey)

variable {n : Nat} {R V T : Type} [LinearOrder V]

/-- `lexsort_to_indices` and `take`: some sorted permutation of the rows, in the order of the row encoding. -/
structure Lexsort (n : Nat) (R V : Type) [LinearOrder V] where
  sort   : List (Fin n) → List (Row n R V) → List (Row n R V)
  perm   : ∀ keys rows, (sort keys rows).Perm rows
  sorted : ∀ keys rows, (sort keys rows).Pairwise (fun a b => sortRow keys a.2 ≤ sortRow keys b.2)

/-- `sort_record_batch_by_keys`. -/
def Lexsort.sortRecordBatchByKeys (lex : Lexsort n R V) (keys : List (Fin n)) (rows : List (Row n R V)) :
    List (Row n R V) :=
  if keys.isEmpty || rows.isEmpty then rows else lex.sort keys rows

/-! ## The merger -/

/-- `PartitionMerger`. The encoded delta rows are there exactly when there is a converter. -/
structure PartitionMerger (n : Nat) (R V T : Type) where
  key       : PartitionOrderKey V T
  delta     : Option (List (Row n R V))
  deltaRows : Option (List (List (WithBot V)))
  deltaPos  : Nat
  sortKeys  : List (Fin n)

namespace PartitionMerger

/-- `PartitionMerger::new`: no converter without sort keys or without a delta. -/
def new (lex : Lexsort n R V) (key : PartitionOrderKey V T) (delta : Option (List (Row n R V)))
    (sortKeys : List (Fin n)) : PartitionMerger n R V T :=
  match delta with
  | none => ⟨key, none, none, 0, sortKeys⟩
  | some rows =>
      if sortKeys.isEmpty then ⟨key, some rows, none, 0, sortKeys⟩
      else
        let sorted := lex.sortRecordBatchByKeys sortKeys rows
        ⟨key, some sorted, some (sorted.map (fun row => sortRow sortKeys row.2)), 0, sortKeys⟩

/-- The inner loop of `push_prior`: delta rows strictly below the prior key, from the cursor on. -/
def takeBelow (deltaRows : List (List (WithBot V))) (priorKey : List (WithBot V)) :
    Nat → Nat → List (Side × Nat) × Nat
  | 0,        j => ([], j)
  | fuel + 1, j =>
      match deltaRows[j]? with
      | none     => ([], j)
      | some row =>
          if row < priorKey then
            let rest := takeBelow deltaRows priorKey fuel (j + 1)
            ((.right, j) :: rest.1, rest.2)
          else ([], j)

/-- The loop over the rows of a slice, from row `i` on: `(source, row)` indices, the prior slice on the left and the
    delta on the right, and the cursor afterwards. -/
def mergeIndices (deltaRows : List (List (WithBot V))) :
    List (List (WithBot V)) → Nat → Nat → List (Side × Nat) × Nat
  | [],                    _, j => ([], j)
  | priorKey :: priorRows, i, j =>
      let below := takeBelow deltaRows priorKey (deltaRows.length - j) j
      let rest := mergeIndices deltaRows priorRows (i + 1) below.2
      (below.1 ++ (.left, i) :: rest.1, rest.2)

/-- `interleave_two`. An index out of range would panic; `pushPrior_spec` shows that there is none. -/
def interleaveTwo (a b : List (Row n R V)) (indices : List (Side × Nat)) : List (Row n R V) :=
  indices.filterMap (fun index =>
    match index.1 with
    | .left  => a[index.2]?
    | .right => b[index.2]?)

/-- `push_prior`. -/
def pushPrior (m : PartitionMerger n R V T) (slice : List (Row n R V)) :
    Option (List (Row n R V)) × PartitionMerger n R V T :=
  if slice.isEmpty then (none, m)
  else
    match m.delta, m.deltaRows with
    | some delta, some deltaRows =>
        let indices := mergeIndices deltaRows (slice.map (fun row => sortRow m.sortKeys row.2)) 0 m.deltaPos
        (some (interleaveTwo slice delta indices.1), { m with deltaPos := indices.2 })
    | _, _ => (some slice, m)

/-- `finish`: the delta from the cursor on, all of it without a converter. -/
def finish (m : PartitionMerger n R V T) : Option (List (Row n R V)) :=
  match m.delta with
  | none       => none
  | some delta =>
      let start := if m.deltaRows.isSome then m.deltaPos else 0
      if delta.length ≤ start then none else some (delta.drop start)

/-- The batches a merger puts out for a prior stream: `push_prior` for each slice, then `finish`. -/
def run (m : PartitionMerger n R V T) : List (List (Row n R V)) → List (List (Row n R V))
  | []              => m.finish.toList
  | slice :: slices => (m.pushPrior slice).1.toList ++ (m.pushPrior slice).2.run slices

/-! ## The cursor -/

/-- The delta rows that are not merged yet. -/
def rest (m : PartitionMerger n R V T) : List (Row n R V) := (m.delta.getD []).drop m.deltaPos

/-- The key of a row under the merger's sort keys. -/
def rowKey (sortKeys : List (Fin n)) (row : Row n R V) : List (WithBot V) := sortRow sortKeys row.2

/-- What holds of every merger: the encoded rows are those of the delta, and without them no row is merged. -/
structure Inv (m : PartitionMerger n R V T) : Prop where
  encoded : ∀ rows ∈ m.deltaRows, ∃ delta ∈ m.delta, rows = delta.map (rowKey m.sortKeys)
  whole   : m.deltaRows = none → m.deltaPos = 0

theorem takeBelow_spec (delta : List (Row n R V)) (sortKeys : List (Fin n)) (slice : List (Row n R V))
    (priorKey : List (WithBot V)) {below : Row n R V → Bool} (hbelow : ∀ d, below d ↔ rowKey sortKeys d < priorKey)
    (fuel j : Nat) (hfuel : delta.length ≤ fuel + j) :
    interleaveTwo slice delta (takeBelow (delta.map (rowKey sortKeys)) priorKey fuel j).1 =
        (delta.drop j).takeWhile below ∧
      delta.drop (takeBelow (delta.map (rowKey sortKeys)) priorKey fuel j).2 =
        (delta.drop j).dropWhile below := by
  induction fuel generalizing j with
  | zero =>
      have hnil : delta.drop j = [] := List.drop_eq_nil_of_le (by omega)
      simp [takeBelow, interleaveTwo, hnil]
  | succ fuel ih =>
      rw [takeBelow, List.getElem?_map]
      cases hrow : delta[j]? with
      | none =>
          have hnil : delta.drop j = [] := List.drop_eq_nil_of_le (List.getElem?_eq_none_iff.mp hrow)
          simp [interleaveTwo, hnil]
      | some row =>
          obtain ⟨hj, hget⟩ := List.getElem?_eq_some_iff.mp hrow
          have hdrop : delta.drop j = row :: delta.drop (j + 1) := by rw [List.drop_eq_getElem_cons hj, hget]
          rw [hdrop, Option.map_some]
          dsimp only
          by_cases hlt : rowKey sortKeys row < priorKey
          · obtain ⟨hout, hcursor⟩ := ih (j + 1) (by omega)
            rw [if_pos hlt]
            refine ⟨?_, ?_⟩
            · rw [List.takeWhile_cons_of_pos ((hbelow row).mpr hlt), ← hout]
              simp [interleaveTwo, hrow]
            · rw [List.dropWhile_cons_of_pos ((hbelow row).mpr hlt), ← hcursor]
          · have hnot : ¬ below row = true := fun h => hlt ((hbelow row).mp h)
            rw [if_neg hlt, List.takeWhile_cons_of_neg hnot, List.dropWhile_cons_of_neg hnot]
            exact ⟨rfl, hdrop⟩

omit [LinearOrder V] in
theorem interleaveTwo_append (a b : List (Row n R V)) (indices indices' : List (Side × Nat)) :
    interleaveTwo a b (indices ++ indices') = interleaveTwo a b indices ++ interleaveTwo a b indices' :=
  List.filterMap_append

/-- The index walk gathers what the list walk sends out, and its cursor stands before what is still held. -/
theorem mergeIndices_spec (delta : List (Row n R V)) (sortKeys : List (Fin n)) (slice rows : List (Row n R V))
    (i j : Nat) (hrows : slice.drop i = rows) :
    interleaveTwo slice delta (mergeIndices (delta.map (rowKey sortKeys)) (rows.map (rowKey sortKeys)) i j).1 =
        (pushSlice (rowKey sortKeys) (delta.drop j) rows).1 ∧
      delta.drop (mergeIndices (delta.map (rowKey sortKeys)) (rows.map (rowKey sortKeys)) i j).2 =
        (pushSlice (rowKey sortKeys) (delta.drop j) rows).2 := by
  induction rows generalizing i j with
  | nil => exact ⟨rfl, rfl⟩
  | cons row rows ih =>
      have hget : slice[i]? = some row := by
        rw [← List.head?_drop, hrows]
        rfl
      have hnext : slice.drop (i + 1) = rows := by
        rw [← List.drop_drop, hrows]
        rfl
      have hfuel : delta.length ≤ (delta.map (rowKey sortKeys)).length - j + j := by
        rw [List.length_map]
        omega
      obtain ⟨hbelow, hcursor⟩ := takeBelow_spec delta sortKeys slice (rowKey sortKeys row)
        (fun _ => below_iff) _ j hfuel
      obtain ⟨hout, hheld⟩ := ih (i + 1)
        (takeBelow (delta.map (rowKey sortKeys)) (rowKey sortKeys row) ((delta.map (rowKey sortKeys)).length - j) j).2
        hnext
      rw [hcursor] at hout hheld
      rw [List.map_cons, mergeIndices, pushSlice]
      dsimp only
      refine ⟨?_, hheld⟩
      rw [interleaveTwo_append, hbelow, ← hout]
      simp [interleaveTwo, hget]

/-- What a slice puts out and what is left of the delta. -/
def pushed (m : PartitionMerger n R V T) (slice : List (Row n R V)) : List (Row n R V) × List (Row n R V) :=
  if m.deltaRows.isSome then pushSlice (rowKey m.sortKeys) m.rest slice else (slice, m.rest)

/-- **One slice.** -/
theorem pushPrior_spec {m : PartitionMerger n R V T} (h : m.Inv) (slice : List (Row n R V)) :
    ((m.pushPrior slice).1.getD [], (m.pushPrior slice).2.rest) = m.pushed slice ∧ (m.pushPrior slice).2.Inv ∧
      (m.pushPrior slice).2 = { m with deltaPos := (m.pushPrior slice).2.deltaPos } := by
  obtain ⟨key, delta, deltaRows, deltaPos, sortKeys⟩ := m
  unfold pushPrior pushed
  by_cases hslice : slice = []
  · subst hslice
    refine ⟨?_, h, rfl⟩
    cases deltaRows <;> rfl
  · rw [if_neg (by simpa using hslice)]
    cases deltaRows with
    | none => cases delta <;> exact ⟨rfl, h, rfl⟩
    | some rows =>
        obtain ⟨rows', hdelta, hrows⟩ := h.encoded rows rfl
        obtain rfl : delta = some rows' := hdelta
        obtain rfl : rows = rows'.map (rowKey sortKeys) := hrows
        obtain ⟨hout, hheld⟩ := mergeIndices_spec rows' sortKeys slice slice 0 deltaPos rfl
        exact ⟨Prod.ext hout hheld, ⟨h.encoded, fun hnone => (by cases hnone)⟩, rfl⟩

omit [LinearOrder V] in
/-- `finish` drains what is left. -/
theorem finish_spec {m : PartitionMerger n R V T} (h : m.Inv) : m.finish.getD [] = m.rest := by
  unfold finish rest
  cases hdelta : m.delta with
  | none => simp
  | some delta =>
      have hstart : (if m.deltaRows.isSome then m.deltaPos else 0) = m.deltaPos := by
        cases hrows : m.deltaRows with
        | none => exact (h.whole hrows).symm
        | some rows => rfl
      dsimp only
      rw [hstart]
      by_cases hend : delta.length ≤ m.deltaPos
      · rw [if_pos hend, Option.getD_some, List.drop_eq_nil_of_le hend]
        rfl
      · rw [if_neg hend]
        rfl

theorem inv_new (lex : Lexsort n R V) (key : PartitionOrderKey V T) (delta : Option (List (Row n R V)))
    (sortKeys : List (Fin n)) : (new lex key delta sortKeys).Inv := by
  unfold new
  cases delta with
  | none => exact ⟨fun rows hrows => (by cases hrows), fun _ => rfl⟩
  | some rows =>
      dsimp only
      split
      · exact ⟨fun rows' hrows' => (by cases hrows'), fun _ => rfl⟩
      · refine ⟨fun rows' hrows' => ?_, fun _ => rfl⟩
        exact ⟨_, rfl, (Option.some_inj.mp hrows').symm⟩

/-! ## A whole prior stream -/

omit [LinearOrder V] in
theorem flatten_toList (out : Option (List (Row n R V))) : out.toList.flatten = out.getD [] := by
  cases out <;> simp

/-- **The run**: however the prior stream is cut, the outputs together are one stable merge; without a converter
    they are the prior rows and then the delta. -/
theorem run_spec {m : PartitionMerger n R V T} (h : m.Inv) (slices : List (List (Row n R V))) :
    (m.run slices).flatten =
      if m.deltaRows.isSome then slices.flatten.merge m.rest (keyLe (rowKey m.sortKeys))
      else slices.flatten ++ m.rest := by
  induction slices generalizing m with
  | nil =>
      rw [run, flatten_toList, finish_spec h]
      split <;> simp
  | cons slice slices ih =>
      obtain ⟨hpushed, hinv, hframe⟩ := pushPrior_spec h slice
      have hrows : (m.pushPrior slice).2.deltaRows = m.deltaRows := by rw [hframe]
      have hkeys : (m.pushPrior slice).2.sortKeys = m.sortKeys := by rw [hframe]
      have hout : (m.pushPrior slice).1.getD [] = (m.pushed slice).1 := congrArg Prod.fst hpushed
      have hrest : (m.pushPrior slice).2.rest = (m.pushed slice).2 := congrArg Prod.snd hpushed
      rw [run, List.flatten_append, flatten_toList, ih hinv, hrows, hkeys, List.flatten_cons, hout, hrest]
      unfold pushed
      by_cases hsome : m.deltaRows.isSome
      · simp only [if_pos hsome]
        exact pushSlice_merge _ _ _
      · simp only [if_neg hsome, List.append_assoc]

/-- The rows a partition merges to. -/
def merged (lex : Lexsort n R V) (sortKeys : List (Fin n)) (prior delta : List (Row n R V)) : List (Row n R V) :=
  if sortKeys = [] then prior ++ delta
  else prior.merge (lex.sortRecordBatchByKeys sortKeys delta) (keyLe (rowKey sortKeys))

theorem flatten_run_new (lex : Lexsort n R V) (key : PartitionOrderKey V T) (delta : Option (List (Row n R V)))
    (sortKeys : List (Fin n)) (slices : List (List (Row n R V))) :
    ((new lex key delta sortKeys).run slices).flatten = merged lex sortKeys slices.flatten (delta.getD []) := by
  rw [run_spec (inv_new lex key delta sortKeys), merged]
  cases delta with
  | none => simp [new, rest, Lexsort.sortRecordBatchByKeys]
  | some rows =>
      by_cases hkeys : sortKeys = []
      · simp [new, rest, hkeys]
      · simp [new, rest, hkeys]

end PartitionMerger

/-! ## What the merger is for -/

/-- `out` merges the prior rows and the delta of a partition: it is sorted by the keys and holds the rows of both,
    and its rows can be told apart so that the prior rows stand in their order, each before every delta row
    of its key. -/
structure Merges (sortKeys : List (Fin n)) (prior delta out : List (Row n R V)) : Prop where
  sorted : out.Pairwise (fun a b => sortRow sortKeys a.2 ≤ sortRow sortKeys b.2)
  perm   : out.Perm (prior ++ delta)
  tagged : ∃ tagged : List (Side × Row n R V), tagged.map Prod.snd = out ∧ ofSide .left tagged = prior ∧
    (ofSide .right tagged).Perm delta ∧
    tagged.Pairwise (fun a b => a.1 = .right → b.1 = .left → sortRow sortKeys a.2.2 ≠ sortRow sortKeys b.2.2)

theorem Lexsort.sortRecordBatchByKeys_perm (lex : Lexsort n R V) (keys : List (Fin n)) (rows : List (Row n R V)) :
    (lex.sortRecordBatchByKeys keys rows).Perm rows := by
  unfold sortRecordBatchByKeys
  split
  · exact List.Perm.refl _
  · exact lex.perm keys rows

theorem Lexsort.sortRecordBatchByKeys_sorted (lex : Lexsort n R V) {keys : List (Fin n)} (hkeys : keys ≠ [])
    (rows : List (Row n R V)) :
    (lex.sortRecordBatchByKeys keys rows).Pairwise (fun a b => sortRow keys a.2 ≤ sortRow keys b.2) := by
  unfold sortRecordBatchByKeys
  split
  · rename_i hempty
    have hrows : rows = [] := by simpa [hkeys] using hempty
    rw [hrows]
    exact List.Pairwise.nil
  · exact lex.sorted keys rows

theorem merged_perm (lex : Lexsort n R V) (sortKeys : List (Fin n)) (prior delta : List (Row n R V)) :
    (PartitionMerger.merged lex sortKeys prior delta).Perm (prior ++ delta) := by
  unfold PartitionMerger.merged
  split
  · exact List.Perm.refl _
  · exact (List.merge_perm_append _).trans ((lex.sortRecordBatchByKeys_perm sortKeys delta).append_left prior)

/-- **One partition**: for every cut of a sorted prior stream the outputs of a merger together merge the prior rows
    and the delta. Without sort keys they are the prior rows and then the delta. -/
theorem partitionMerger_merges (lex : Lexsort n R V) (key : PartitionOrderKey V T) (sortKeys : List (Fin n))
    (slices : List (List (Row n R V))) (delta : Option (List (Row n R V)))
    (hprior : slices.flatten.Pairwise (fun a b => sortRow sortKeys a.2 ≤ sortRow sortKeys b.2)) :
    (sortKeys ≠ [] → Merges sortKeys slices.flatten (delta.getD [])
      ((PartitionMerger.new lex key delta sortKeys).run slices).flatten) ∧
    (sortKeys = [] →
      ((PartitionMerger.new lex key delta sortKeys).run slices).flatten = slices.flatten ++ delta.getD []) := by
  rw [PartitionMerger.flatten_run_new]
  constructor
  · intro hkeys
    have hsorted := lex.sortRecordBatchByKeys_sorted hkeys (delta.getD [])
    obtain ⟨tagged, hmap, hleft, hright, htie⟩ := exists_tagged_merge (PartitionMerger.rowKey sortKeys)
      slices.flatten (lex.sortRecordBatchByKeys sortKeys (delta.getD []))
    refine ⟨?_, merged_perm lex sortKeys _ _, tagged, ?_, hleft, ?_, ?_⟩
    · rw [PartitionMerger.merged, if_neg hkeys]
      exact StableMerge.pairwise_merge hprior hsorted
    · rw [PartitionMerger.merged, if_neg hkeys, hmap]
    · rw [hright]
      exact lex.sortRecordBatchByKeys_perm sortKeys _
    · exact (htie hprior).imp (fun hlt ha hb => ne_of_lt (hlt ha hb))
  · intro hkeys
    rw [PartitionMerger.merged, if_pos hkeys]

/-- A row with one column. -/
def oneColumn (uuid : Nat) (value : Option Nat) : Row 1 Nat Nat := (uuid, fun _ => value)

/-- The insertion sort, as one such sort. -/
def Lexsort.insertion : Lexsort n R V where
  sort keys rows := rows.insertionSort (fun a b => sortRow keys a.2 ≤ sortRow keys b.2)
  perm _ rows := List.perm_insertionSort _ rows
  sorted _ rows := List.pairwise_insertionSort _ rows

/-- A key that spans two slices: its delta row waits for both. -/
theorem partitionMerger_merges_span :
    Merges [0] [oneColumn 1 none, oneColumn 2 (some 5), oneColumn 3 (some 5), oneColumn 4 (some 7)]
      [oneColumn 9 (some 5), oneColumn 8 (some 4)]
      ((PartitionMerger.new Lexsort.insertion (⟨[], none⟩ : PartitionOrderKey Nat Nat)
        (some [oneColumn 9 (some 5), oneColumn 8 (some 4)]) [0]).run
        [[oneColumn 1 none, oneColumn 2 (some 5)], [], [oneColumn 3 (some 5), oneColumn 4 (some 7)]]).flatten :=
  (partitionMerger_merges Lexsort.insertion _ [0]
    [[oneColumn 1 none, oneColumn 2 (some 5)], [], [oneColumn 3 (some 5), oneColumn 4 (some 7)]]
    (some [oneColumn 9 (some 5), oneColumn 8 (some 4)]) (by decide)).1 (by decide)

example :
    (((PartitionMerger.new Lexsort.insertion (⟨[], none⟩ : PartitionOrderKey Nat Nat)
        (some [oneColumn 9 (some 5), oneColumn 8 (some 4)]) [0]).run
        [[oneColumn 1 none, oneColumn 2 (some 5)], [], [oneColumn 3 (some 5), oneColumn 4 (some 7)]]).map
      (List.map Prod.fst)) = [[1, 8, 2], [3, 9, 4]] := by decide

end Penca.Files
