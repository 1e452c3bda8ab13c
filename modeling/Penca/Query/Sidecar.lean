import Mathlib.Order.WithBot
import Penca.Core.Types
import Penca.Lib.Inversion
import Penca.Lib.SortedSeek

/-!
# `Query.Sidecar` — building and seeking a segment's index

`build_segment_index` sorts the key columns of a segment and keeps, beside the sorted keys, the position each row came from.
`seek_row_offsets` casts probe strings to the key types, searches every probe tuple in the sorted keys and returns the
positions of the rows found, sorted, each once. A probe shorter than the key is a seek by the leading columns.

Arrow's sort and casts are parameters. A NULL key is the greatest value of its column, which is where the sort puts it and
how the comparator ranks it; a probe is never NULL, so no NULL is ever found.
-/

namespace Penca.Index

open SortedSeek

variable {V : Type}

/-! ## The code -/

/-- The errors of the index kernel. -/
inductive FormatError where
  /-- "build_segment_index requires at least one key column" -/
  | noKeyColumns
  /-- "build_segment_index key columns must all have the same length (expected …, found …)" -/
  | columnLength (expected found : Nat)
  /-- "seek probe tuples have mixed arity (… vs …); all tuples in one seek must share arity" -/
  | mixedArity (first other : Nat)
  /-- "seek probe arity … must be in 1..=… (the index key-column count)" -/
  | probeArity (arity numKeys : Nat)
  /-- Arrow's error for a string that does not cast. -/
  | cast
  deriving DecidableEq, Repr

/-- A key column: its type and its values, `none` for NULL. -/
structure KeyColumn (V : Type) where
  dataType : DataType
  values   : List (Option V)

/-- A value as it is ranked: NULL last. -/
def rank (value : Option V) : WithTop V := value

theorem rank_inj {a b : Option V} : rank a = rank b ↔ a = b := Iff.rfl

/-- The value of a column at a position. -/
def KeyColumn.at (col : KeyColumn V) (i : Nat) : WithTop V := rank (col.values[i]?).join

/-- The key of a row. -/
def keyTuple (cols : List (KeyColumn V)) (i : Nat) : List (WithTop V) := cols.map (fun col => col.at i)

/-- An index artifact: the sorted key columns and `row_offset`. -/
structure Sidecar (V : Type) where
  keys      : List (KeyColumn V)
  rowOffset : List Int

/-- What Arrow does for the index: `lexsort_to_indices` (ascending, nulls last) and the strict `cast_with_options` of a string to
    a key type. -/
structure Kernel (V : Type) [LinearOrder V] where
  lexsortToIndices : List (KeyColumn V) → List Nat
  perm   : ∀ cols n, cols ≠ [] → (∀ col ∈ cols, col.values.length = n) →
    (lexsortToIndices cols).Perm (List.range n)
  sorted : ∀ cols n, cols ≠ [] → (∀ col ∈ cols, col.values.length = n) →
    (lexsortToIndices cols).Pairwise (fun i j => cmpTuple (keyTuple cols i) (keyTuple cols j) ≠ .gt)
  strictCast : DataType → String → Option V

variable [LinearOrder V] (K : Kernel V)

/-- The key columns and the positions in the order of `indices`. -/
def takeIndices (indices : List Nat) (keyCols : List (KeyColumn V)) : Sidecar V where
  keys      := keyCols.map (fun col => { col with values := indices.map (fun i => (col.values[i]?).join) })
  rowOffset := indices.map Int.ofNat

/-- `build_segment_index`. -/
def buildSegmentIndex (keyCols : List (KeyColumn V)) : Except FormatError (Sidecar V) :=
  match keyCols with
  | [] => .error .noKeyColumns
  | first :: rest =>
      let rowCount := first.values.length
      match (first :: rest).find? (fun col => col.values.length ≠ rowCount) with
      | some col => .error (.columnLength rowCount col.values.length)
      | none => .ok (takeIndices (K.lexsortToIndices (first :: rest)) (first :: rest))

/-- One key column's typed comparator: the slot's value against the probe's. -/
def comparator (col : KeyColumn V) (probeCol : List V) (row probeIdx : Nat) : Ordering :=
  cmp (col.at row) (rank probeCol[probeIdx]?)

/-- `cmp_row_to_probe`. -/
def cmpRowToProbe (comparators : List (Nat → Nat → Ordering)) (row probeIdx : Nat) : Ordering :=
  match comparators with
  | [] => .eq
  | comparator :: comparators =>
      match comparator row probeIdx with
      | .eq => cmpRowToProbe comparators row probeIdx
      | nonEqual => nonEqual

/-- The probes' elements for one key column, cast to its type. -/
def castProbes (probeTuples : List (List String)) (col : KeyColumn V) (keyIdx : Nat) : Except FormatError (List V) :=
  match probeTuples.mapM (fun tuple => K.strictCast col.dataType (tuple.getD keyIdx "")) with
  | some probeCol => .ok probeCol
  | none => .error .cast

/-- `seek_row_offsets`. -/
def seekRowOffsets (sidecar : Sidecar V) (probeTuples : List (List String)) : Except FormatError (List Int) :=
  let numKeys := sidecar.keys.length
  match probeTuples with
  | [] => .ok []
  | first :: rest =>
      let probeArity := first.length
      match (first :: rest).find? (fun probe => probe.length ≠ probeArity) with
      | some probe => .error (.mixedArity probeArity probe.length)
      | none =>
          if probeArity = 0 ∨ probeArity > numKeys then .error (.probeArity probeArity numKeys)
          else
            let n := sidecar.rowOffset.length
            if n = 0 then .ok []
            else do
              let comparators ← (sidecar.keys.take probeArity).zipIdx.mapM (fun key =>
                (castProbes K (first :: rest) key.1 key.2).map (comparator key.1))
              let out := (List.range (first :: rest).length).flatMap (fun probeIdx =>
                (seekRun n (fun row => cmpRowToProbe comparators row probeIdx)).map (fun i => sidecar.rowOffset.getD i 0))
              .ok (dedupAdjacent (out.insertionSort (· ≤ ·)))

/-! ## What a seek is for -/

/-- Every string of the probe casts to the type of its key column. -/
def Casts (cols : List (KeyColumn V)) (probe : List String) : Prop :=
  List.Forall₂ (fun s col => (K.strictCast col.dataType s).isSome) probe (cols.take probe.length)

/-- The leading key values of the row are not NULL and equal the probe's. -/
def Matches (cols : List (KeyColumn V)) (probe : List String) (i : Nat) : Prop :=
  List.Forall₂ (fun s col => ∃ v, K.strictCast col.dataType s = some v ∧ col.values[i]? = some (some v)) probe
    (cols.take probe.length)

/-! ## The artifact -/

section Build

variable {K} {cols : List (KeyColumn V)} {n : Nat}

theorem buildSegmentIndex_eq (hne : cols ≠ []) (hlen : ∀ col ∈ cols, col.values.length = n) :
    buildSegmentIndex K cols = .ok (takeIndices (K.lexsortToIndices cols) cols) := by
  match cols, hne with
  | first :: rest, _ =>
      have hfirst := hlen first List.mem_cons_self
      have hfind : (first :: rest).find? (fun col => col.values.length ≠ first.values.length) = none := by
        refine List.find?_eq_none.mpr (fun col hcol => ?_)
        simp [hlen col hcol, hfirst]
      simp only [buildSegmentIndex, hfind]

omit [LinearOrder V] in
/-- A slot of the artifact holds the key of the row it came from. -/
theorem keyTuple_takeIndices (indices : List Nat) (cols : List (KeyColumn V)) {row : Nat} (hrow : row < indices.length) :
    keyTuple (takeIndices indices cols).keys row = keyTuple cols indices[row] := by
  simp only [keyTuple, takeIndices, List.map_map]
  refine List.map_congr_left (fun col _ => ?_)
  show rank ((indices.map (fun i => (col.values[i]?).join))[row]?).join = rank (col.values[indices[row]]?).join
  rw [List.getElem?_map, List.getElem?_eq_getElem hrow]
  rfl

omit [LinearOrder V] in
theorem width_keyTuple (cols : List (KeyColumn V)) (i : Nat) : (keyTuple cols i).length = cols.length := List.length_map _

/-- The positions of the rows in an order in which the keys go up. -/
structure SortedBy (indices : List Nat) (cols : List (KeyColumn V)) (n : Nat) : Prop where
  perm   : indices.Perm (List.range n)
  sorted : indices.Pairwise (fun i j => cmpTuple (keyTuple cols i) (keyTuple cols j) ≠ .gt)

theorem SortedBy.length {indices : List Nat} (h : SortedBy indices cols n) : indices.length = n := by
  simpa using h.perm.length_eq

theorem sortedBy_lexsortToIndices (hne : cols ≠ []) (hlen : ∀ col ∈ cols, col.values.length = n) :
    SortedBy (K.lexsortToIndices cols) cols n :=
  ⟨K.perm cols n hne hlen, K.sorted cols n hne hlen⟩

/-- **The artifact goes up against every probe.** -/
theorem ascending_takeIndices {indices : List Nat} (h : SortedBy indices cols n) (probe : List (WithTop V)) :
    Ascending n (fun row => cmpTuple (keyTuple (takeIndices indices cols).keys row) probe) := by
  have hlength := h.length
  refine ascending_cmpTuple (fun i => width_keyTuple _ i) (fun i j hij hj => ?_) probe
  rw [keyTuple_takeIndices _ _ (by omega), keyTuple_takeIndices _ _ (by omega)]
  rcases Nat.eq_or_lt_of_le hij with rfl | hlt
  · rw [cmpTuple_self]
    decide
  · exact List.pairwise_iff_getElem.mp h.sorted i j (by omega) (by omega) hlt

end Build

/-! ## The comparators -/

section Compare

variable {K}

/-- A probe cast to the types of some key columns, each with its place in the tuple. -/
def probeTuple (K : Kernel V) (keys : List (KeyColumn V × Nat)) (probe : List String) : List (WithTop V) :=
  keys.map (fun key => rank (K.strictCast key.1.dataType (probe.getD key.2 "")))

/-- **The comparators of a seek** compare slots with the probes cast to the key types. -/
theorem comparators_spec {probes : List (List String)} {keys : List (KeyColumn V × Nat)}
    (hcasts : ∀ key ∈ keys, ∀ probe ∈ probes, (K.strictCast key.1.dataType (probe.getD key.2 "")).isSome) :
    ∃ comparators, keys.mapM (fun key => (castProbes K probes key.1 key.2).map (comparator key.1)) = .ok comparators ∧
      ∀ (row probeIdx : Nat) (probe : List String), probes[probeIdx]? = some probe →
        cmpRowToProbe comparators row probeIdx = cmpTuple (keyTuple (keys.map Prod.fst) row) (probeTuple K keys probe) := by
  induction keys with
  | nil => exact ⟨[], rfl, fun _ _ _ _ => rfl⟩
  | cons key keys ih =>
      obtain ⟨comparators, hrest, hcmp⟩ := ih (fun key' hkey' => hcasts key' (List.mem_cons_of_mem _ hkey'))
      obtain ⟨probeCol, hcol, hget⟩ := Inversion.exists_mapM_eq_some (hcasts key List.mem_cons_self)
      refine ⟨comparator key.1 probeCol :: comparators, ?_, fun row probeIdx probe hprobe => ?_⟩
      · rw [List.mapM_cons, castProbes, hcol, hrest]
        rfl
      · have hcell : probeCol[probeIdx]? = K.strictCast key.1.dataType (probe.getD key.2 "") := by
          rw [hget, hprobe]
          rfl
        have hfirst : comparator key.1 probeCol row probeIdx =
            cmp (key.1.at row) (rank (K.strictCast key.1.dataType (probe.getD key.2 ""))) := by
          rw [comparator, hcell]
        have htuple : cmpTuple (keyTuple ((key :: keys).map Prod.fst) row) (probeTuple K (key :: keys) probe) =
            (cmp (key.1.at row) (rank (K.strictCast key.1.dataType (probe.getD key.2 "")))).then
              (cmpTuple (keyTuple (keys.map Prod.fst) row) (probeTuple K keys probe)) := rfl
        rw [cmpRowToProbe, htuple, hfirst, hcmp row probeIdx probe hprobe]
        cases cmp (key.1.at row) (rank (K.strictCast key.1.dataType (probe.getD key.2 ""))) <;> rfl

/-- The places of the probe's strings are the places of its columns. -/
theorem probeTuple_eq_zipWith (cols : List (KeyColumn V)) (before probe : List String) (h : cols.length = probe.length) :
    probeTuple K (cols.zipIdx before.length) (before ++ probe) =
      List.zipWith (fun col s => rank (K.strictCast col.dataType s)) cols probe := by
  induction cols generalizing before probe with
  | nil => rfl
  | cons col cols ih =>
      match probe with
      | [] => simp at h
      | s :: probe =>
          have hrest := ih (before ++ [s]) probe (by simpa using h)
          rw [List.append_assoc, List.singleton_append, List.length_append, List.length_singleton] at hrest
          rw [List.zipIdx_cons, probeTuple, List.map_cons, List.zipWith_cons_cons, ← hrest, probeTuple]
          simp

theorem forall₂_of_zipWith_eq {cols : List (KeyColumn V)} {probe : List String} {i : Nat}
    (hcasts : List.Forall₂ (fun s col => (K.strictCast col.dataType s).isSome) probe cols) :
    keyTuple cols i = List.zipWith (fun col s => rank (K.strictCast col.dataType s)) cols probe ↔
      List.Forall₂ (fun s col => ∃ v, K.strictCast col.dataType s = some v ∧ col.values[i]? = some (some v)) probe cols := by
  induction hcasts with
  | nil => simp [keyTuple]
  | @cons s col probe cols hcast _ ih =>
      obtain ⟨v, hv⟩ := Option.isSome_iff_exists.mp hcast
      have hcell : col.at i = rank (some v) ↔ col.values[i]? = some (some v) :=
        rank_inj.trans Option.join_eq_some_iff
      have hcons : keyTuple (col :: cols) i = col.at i :: keyTuple cols i := rfl
      rw [hcons, List.zipWith_cons_cons, List.cons.injEq, List.forall₂_cons, ← ih, hv]
      refine and_congr_left (fun _ => ?_)
      constructor
      · exact fun heq => ⟨v, rfl, hcell.mp heq⟩
      · rintro ⟨w, hw, heq⟩
        obtain rfl := Option.some_inj.mp hw
        exact hcell.mpr heq

/-- A slot equals a probe exactly if the row it came from matches it. -/
theorem cmpTuple_eq_iff_matches {cols : List (KeyColumn V)} {probe : List String} (hcasts : Casts K cols probe) (i : Nat) :
    cmpTuple (keyTuple cols i) (probeTuple K (cols.take probe.length).zipIdx probe) = .eq ↔ Matches K cols probe i := by
  have hlength : (cols.take probe.length).length = probe.length := hcasts.length_eq.symm
  have hprobe := probeTuple_eq_zipWith (K := K) (cols.take probe.length) [] probe hlength
  rw [List.nil_append, List.length_nil] at hprobe
  rw [Matches, ← forall₂_of_zipWith_eq hcasts, ← hprobe]
  have hwidth : (probeTuple K (cols.take probe.length).zipIdx probe).length = probe.length := by
    rw [probeTuple, List.length_map, List.length_zipIdx, hlength]
  rw [cmpTuple_eq_eq, hwidth]
  · rw [keyTuple, keyTuple, List.map_take]
  · rw [hwidth, width_keyTuple]
    simpa using hlength.ge

end Compare

/-! ## Build and seek -/

section Seek

variable {K} {indices : List Nat} {cols : List (KeyColumn V)} {n k : Nat} {probes : List (List String)}

/-- The positions found for one probe are those of the rows that match it. -/
theorem mem_seekRun_offsets (hsorted : SortedBy indices cols n) {probe : List String}
    (hcasts : Casts K cols probe) {ord : Nat → Ordering}
    (hord : ∀ row, ord row = cmpTuple (keyTuple (takeIndices indices cols).keys row)
      (probeTuple K (cols.take probe.length).zipIdx probe)) {offset : Int} :
    offset ∈ (seekRun n ord).map (fun i => (takeIndices indices cols).rowOffset.getD i 0) ↔
      ∃ i : Nat, i < n ∧ offset = i ∧ Matches K cols probe i := by
  have hlength := hsorted.length
  have hasc := ascending_takeIndices hsorted (probeTuple K (cols.take probe.length).zipIdx probe)
  rw [← funext hord] at hasc
  have hslot : ∀ row (hrow : row < indices.length),
      (takeIndices indices cols).rowOffset.getD row 0 = (indices[row] : Int) := by
    intro row hrow
    simp [takeIndices, hrow]
  have hmatch : ∀ row (hrow : row < indices.length), ord row = .eq ↔ Matches K cols probe indices[row] := by
    intro row hrow
    rw [hord, keyTuple_takeIndices _ _ hrow, cmpTuple_eq_iff_matches hcasts]
  rw [seekRun_eq_filter hasc]
  constructor
  · intro hoffset
    obtain ⟨row, hrow, rfl⟩ := List.mem_map.mp hoffset
    obtain ⟨hrow, heq⟩ := List.mem_filter.mp hrow
    have hlt : row < indices.length := by
      rw [hlength]
      exact List.mem_range.mp hrow
    refine ⟨indices[row], ?_, hslot row hlt, (hmatch row hlt).mp (of_decide_eq_true heq)⟩
    exact List.mem_range.mp (hsorted.perm.subset (List.getElem_mem hlt))
  · -- Every position stands in some slot.
    rintro ⟨i, hi, rfl, hmatches⟩
    obtain ⟨row, hrow, rfl⟩ := List.getElem_of_mem (hsorted.perm.symm.subset (List.mem_range.mpr hi))
    refine List.mem_map.mpr ⟨row, List.mem_filter.mpr ⟨List.mem_range.mpr (hlength ▸ hrow), ?_⟩, hslot row hrow⟩
    exact decide_eq_true ((hmatch row hrow).mpr hmatches)

/-- The strings of the probes that are cast, place by place, cast exactly if each probe does. -/
theorem casts_iff (indices : List Nat) (harity : ∀ probe ∈ probes, probe.length = k) (hk : k ≤ cols.length) :
    (∀ key ∈ ((takeIndices indices cols).keys.take k).zipIdx, ∀ probe ∈ probes,
        (K.strictCast key.1.dataType (probe.getD key.2 "")).isSome) ↔
      ∀ probe ∈ probes, Casts K cols probe := by
  have hkeys : ((takeIndices indices cols).keys.take k).zipIdx =
      (cols.take k).zipIdx.map (fun c => ({ c.1 with values := indices.map (fun i => (c.1.values[i]?).join) }, c.2)) := by
    simp only [takeIndices, ← List.map_take, List.zipIdx_map]
    rfl
  rw [hkeys]
  constructor
  · intro hcast probe hprobe
    have hlen : probe.length = (cols.take k).length := by rw [harity probe hprobe, List.length_take, min_eq_left hk]
    rw [Casts, harity probe hprobe]
    refine List.forall₂_iff_get.mpr ⟨hlen, fun i hi hi' => ?_⟩
    have hmem : ((cols.take k)[i], i) ∈ (cols.take k).zipIdx := by
      rw [List.mk_mem_zipIdx_iff_getElem?, List.getElem?_eq_getElem hi']
    have hsome := hcast _ (List.mem_map_of_mem hmem) probe hprobe
    simpa [hi] using hsome
  · intro hcasts key hkey probe hprobe
    have hall := hcasts probe hprobe
    rw [Casts, harity probe hprobe] at hall
    obtain ⟨col, hcol, rfl⟩ := List.mem_map.mp hkey
    obtain ⟨hlt, hget⟩ := List.getElem?_eq_some_iff.mp (List.mk_mem_zipIdx_iff_getElem?.mp hcol)
    have hpos : col.2 < probe.length := hall.length_eq ▸ hlt
    have hsome := hall.get hpos hlt
    simp only [List.get_eq_getElem, hget] at hsome
    simpa [hpos] using hsome

/-- What a seek of a built artifact comes to once its checks are passed. -/
theorem seekRowOffsets_of_casts (hsorted : SortedBy indices cols n) {first : List String}
    {rest : List (List String)} (hk : 1 ≤ k) (hk' : k ≤ cols.length)
    (harity : ∀ probe ∈ first :: rest, probe.length = k) (hcasts : ∀ probe ∈ first :: rest, Casts K cols probe) :
    ∃ offsets, seekRowOffsets K (takeIndices indices cols) (first :: rest) = .ok offsets ∧ offsets.Pairwise (· < ·) ∧
      ∀ offset, offset ∈ offsets ↔ ∃ i : Nat, i < n ∧ offset = i ∧ ∃ probe ∈ first :: rest, Matches K cols probe i := by
  let sidecar := takeIndices indices cols
  have hfirst := harity first List.mem_cons_self
  have hfind : (first :: rest).find? (fun probe => probe.length ≠ first.length) = none := by
    refine List.find?_eq_none.mpr (fun probe hprobe => ?_)
    simp [harity probe hprobe, hfirst]
  have hrows : sidecar.rowOffset.length = n := by simpa [sidecar, takeIndices] using hsorted.length
  have hbounds : ¬ (first.length = 0 ∨ first.length > sidecar.keys.length) := by
    simp only [hfirst, sidecar, takeIndices, List.length_map]
    omega
  by_cases hn : n = 0
  · refine ⟨[], ?_, .nil, by simp [hn]⟩
    simp only [seekRowOffsets, hfind]
    rw [if_neg hbounds, hrows, if_pos hn]
  -- The columns compared are the leading ones of the artifact, of the types of the key columns.
  have htypes : ∀ probe, probeTuple K (sidecar.keys.take k).zipIdx probe = probeTuple K (cols.take k).zipIdx probe := by
    intro probe
    simp only [probeTuple, sidecar, takeIndices, ← List.map_take, List.zipIdx_map, List.map_map]
    rfl
  obtain ⟨comparators, hcomparators, hcmp⟩ := comparators_spec ((casts_iff indices harity hk').mpr hcasts)
  have hkeys : ((sidecar.keys.take k).zipIdx).map Prod.fst = sidecar.keys.take k := List.zipIdx_map_fst 0 _
  let out := (List.range (first :: rest).length).flatMap (fun probeIdx =>
    (seekRun n (fun row => cmpRowToProbe comparators row probeIdx)).map (fun i => sidecar.rowOffset.getD i 0))
  refine ⟨dedupAdjacent (out.insertionSort (· ≤ ·)), ?_, ?_, fun offset => ?_⟩
  · rw [hfirst] at hfind hbounds
    simp only [seekRowOffsets, hfirst, hfind]
    rw [if_neg hbounds, hrows, if_neg hn, hcomparators]
    rfl
  · exact pairwise_dedupAdjacent (List.pairwise_insertionSort (· ≤ ·) out)
  · rw [mem_dedupAdjacent, (List.perm_insertionSort (· ≤ ·) out).mem_iff, List.mem_flatMap]
    have hprobe : ∀ probeIdx probe, (first :: rest)[probeIdx]? = some probe →
        (offset ∈ (seekRun n (fun row => cmpRowToProbe comparators row probeIdx)).map
            (fun i => sidecar.rowOffset.getD i 0) ↔
          ∃ i : Nat, i < n ∧ offset = i ∧ Matches K cols probe i) := by
      intro probeIdx probe hget
      have hmem : probe ∈ first :: rest := List.mem_of_getElem? hget
      refine mem_seekRun_offsets hsorted (hcasts probe hmem) (fun row => ?_)
      rw [hcmp row probeIdx probe hget, hkeys, htypes, harity probe hmem]
      have hlength : (probeTuple K (cols.take k).zipIdx probe).length = k := by
        rw [probeTuple, List.length_map, List.length_zipIdx, List.length_take, min_eq_left hk']
      rw [← cmpTuple_take (keyTuple sidecar.keys row), hlength, keyTuple, keyTuple, List.map_take]
    constructor
    · rintro ⟨probeIdx, hidx, hoffset⟩
      have hget := List.getElem?_eq_getElem (List.mem_range.mp hidx)
      obtain ⟨i, hi, heq, hmatches⟩ := (hprobe probeIdx _ hget).mp hoffset
      exact ⟨i, hi, heq, _, List.getElem_mem _, hmatches⟩
    · rintro ⟨i, hi, heq, probe, hmem, hmatches⟩
      obtain ⟨probeIdx, hidx, hget⟩ := List.getElem_of_mem hmem
      refine ⟨probeIdx, List.mem_range.mpr hidx, (hprobe probeIdx probe ?_).mpr ⟨i, hi, heq, hmatches⟩⟩
      rw [List.getElem?_eq_getElem hidx, hget]

/-- **Build and seek.** Seeking the index built from some key columns for probes of one arity returns, in order and each once,
    the positions of the rows whose leading key values are not NULL and equal those of a probe. -/
theorem seekRowOffsets_buildSegmentIndex (K : Kernel V) (hne : cols ≠ [])
    (hlen : ∀ col ∈ cols, col.values.length = n) (hk : 1 ≤ k) (hk' : k ≤ cols.length)
    (harity : ∀ probe ∈ probes, probe.length = k) (hcasts : ∀ probe ∈ probes, Casts K cols probe) :
    ∃ sidecar offsets, buildSegmentIndex K cols = .ok sidecar ∧ seekRowOffsets K sidecar probes = .ok offsets ∧
      offsets.Pairwise (· < ·) ∧
      ∀ offset, offset ∈ offsets ↔ ∃ i : Nat, i < n ∧ offset = i ∧ ∃ probe ∈ probes, Matches K cols probe i := by
  have hbuild : buildSegmentIndex K cols = .ok _ := buildSegmentIndex_eq hne hlen
  have hsorted := sortedBy_lexsortToIndices (K := K) hne hlen
  match probes with
  | [] => exact ⟨_, [], hbuild, rfl, .nil, by simp⟩
  | first :: rest =>
      obtain ⟨offsets, hok, hspec⟩ := seekRowOffsets_of_casts hsorted hk hk' harity hcasts
      exact ⟨_, offsets, hbuild, hok, hspec⟩

end Seek

/-! ### A composite key with NULLs and repeats -/

section Example

/-- The order in which rows are sorted by insertion. -/
def rowLe (cols : List (KeyColumn V)) (i j : Nat) : Prop := cmpTuple (keyTuple cols i) (keyTuple cols j) ≠ .gt

instance (cols : List (KeyColumn V)) : DecidableRel (rowLe cols) := fun _ _ => instDecidableNot

instance (cols : List (KeyColumn V)) : Std.Total (rowLe cols) where
  total i j := by
    rw [rowLe, rowLe, ← swap_cmpTuple (keyTuple cols i)]
    cases cmpTuple (keyTuple cols i) (keyTuple cols j) <;> decide

instance (cols : List (KeyColumn V)) : IsTrans Nat (rowLe cols) where
  trans i j k hij hjk hgt := by
    refine hjk (cmpTuple_gt_of_le ?_ hij hgt)
    rw [width_keyTuple, width_keyTuple]

/-- Numbers, sorted by insertion; a number casts from its digits in unary. -/
def unaryKernel : Kernel Nat where
  lexsortToIndices cols :=
    (List.range ((cols.head?.map (fun col => col.values.length)).getD 0)).insertionSort (rowLe cols)
  perm cols n hne hlen := by
    refine (List.perm_insertionSort _ _).trans ?_
    match cols, hne with
    | first :: rest, _ => simp [hlen first List.mem_cons_self]
  sorted cols n _ _ := List.pairwise_insertionSort (rowLe cols) _
  strictCast _ s := some s.length

/-- Two key columns of five rows. -/
def twoKeys : List (KeyColumn Nat) :=
  [⟨.int64, [some 2, none, some 2, some 1, some 2]⟩, ⟨.int64, [some 1, some 1, none, some 1, some 1]⟩]

/-- By both columns, with a probe twice, and by the first column alone. -/
theorem seekRowOffsets_buildSegmentIndex_twoKeys :
    (∃ sidecar offsets, buildSegmentIndex unaryKernel twoKeys = .ok sidecar ∧
      seekRowOffsets unaryKernel sidecar [["ii", "i"], ["i", "i"], ["ii", "i"]] = .ok offsets ∧
      offsets.Pairwise (· < ·) ∧ ∀ offset, offset ∈ offsets ↔ ∃ i : Nat, i < 5 ∧ offset = i ∧
        ∃ probe ∈ [["ii", "i"], ["i", "i"], ["ii", "i"]], Matches unaryKernel twoKeys probe i) ∧
    ∃ sidecar offsets, buildSegmentIndex unaryKernel twoKeys = .ok sidecar ∧
      seekRowOffsets unaryKernel sidecar [["ii"]] = .ok offsets ∧
      offsets.Pairwise (· < ·) ∧ ∀ offset, offset ∈ offsets ↔ ∃ i : Nat, i < 5 ∧ offset = i ∧
        ∃ probe ∈ [["ii"]], Matches unaryKernel twoKeys probe i := by
  refine ⟨?_, ?_⟩
  · exact seekRowOffsets_buildSegmentIndex (k := 2) unaryKernel (by simp [twoKeys]) (by simp [twoKeys]) (by decide)
      (by simp [twoKeys]) (by simp) (by simp [Casts, twoKeys, unaryKernel])
  · exact seekRowOffsets_buildSegmentIndex (k := 1) unaryKernel (by simp [twoKeys]) (by simp [twoKeys]) (by decide)
      (by simp [twoKeys]) (by simp) (by simp [Casts, twoKeys, unaryKernel])

example : ((buildSegmentIndex unaryKernel twoKeys).bind (fun sidecar =>
    seekRowOffsets unaryKernel sidecar [["ii", "i"], ["i", "i"], ["ii", "i"]])).toOption = some [0, 3, 4] := by
  decide +kernel

end Example

end Penca.Index
