import Penca.Compact.Plan
import Penca.Lib.Runs
import Penca.Lifecycle.Compact
import Penca.Pack.Partition

/-!
# `Compact.Waves` — compaction calls on the segments of a table

A compaction call enumerates the unsealed segments of one log whose own `commit_micros` lies in the call's window,
plans a wave over them (`Compact.Plan`) and carries it out on the catalog: inputs are read under the table's current
schema, pointed at their slices of the merged file and given a share of its size, sealed rows get their flag. Between
the calls Persists add segments under new uris.

The planner relies on there being at most one shared uri among the rows it sees. A window can hide rows of the active
file from it. `activeSealed_run`: if the windows of a run never do, at most one uri is shared all along.

## Contents
- **The catalog**: segment rows with the columns only compaction reads.
- **Waves**: enumeration, planning, merge, sealing (`compactOneScope`), and what a wave takes (`wave_takes`).
- **The unsealed rows** after a Persist and after a wave.
- **The active file** along runs.
-/

namespace Penca.Compact

open Pack

variable {n : Nat} {R V W : Type}

/-! ## The catalog -/

/-- What Persist and compaction are configured with; `column` and `prunable` describe the columns of a log. -/
structure CompactConfig (n : Nat) (R V W : Type) extends PersistConfig R V where
  column : Fin n → LogEntry R V → Option W
  prunable : Fin n → Bool
  /-- What a stored value is under the table's current schema, `none` if the reader refuses it. -/
  reread : V → Option V

/-- A row of a segment under the current schema. A tombstone has no value. -/
def rereadEntry (reread : V → Option V) (e : LogEntry R V) : Option (LogEntry R V) :=
  match e.change with
  | .upsert v => (reread v).map (fun v => { e with change := .upsert v })
  | .delete   => some e

/-- The rows as they are under the current schema. -/
def CompactConfig.rereadRows (cfg : CompactConfig n R V W) (rows : List (LogEntry R V)) : List (LogEntry R V) :=
  rows.filterMap (rereadEntry cfg.reread)

/-- Reading rows under the current schema fails if one of them is refused. -/
def CompactConfig.readMerged (cfg : CompactConfig n R V W) (rows : List (LogEntry R V)) :
    Option (List (LogEntry R V)) :=
  if rows.all (fun e => (rereadEntry cfg.reread e).isSome) then some (cfg.rereadRows rows) else none

/-- `batch_in_memory_bytes`: an `i64` in the source, which no batch in memory overflows. -/
def CompactConfig.batchInMemoryBytes (cfg : CompactConfig n R V W) (rows : List (LogEntry R V)) : Int :=
  (rows.map cfg.rowBytes).sum

/-- `compute_segment_statistics` of a log batch. -/
def CompactConfig.computeSegmentStatistics [Min W] [Max W] (cfg : CompactConfig n R V W)
    (rows : List (LogEntry R V)) : SegmentStatistics n W where
  rowCount := rows.length
  perColumn k :=
    { min := if cfg.prunable k then (rows.filterMap (cfg.column k)).min? else none
      max := if cfg.prunable k then (rows.filterMap (cfg.column k)).max? else none
      nullCount := rows.countP (fun e => (cfg.column k e).isNone) }

/-- The columns of a segment row that only compaction and planning statistics read. -/
structure SegmentColumns (n : Nat) (W : Type) where
  sizeBytes    : Int
  statistics   : SegmentStatistics n W
  commitMicros : Int
  isSealed     : Bool

/-- The store together with these columns. -/
structure Catalog (n : Nat) (R V W : Type) where
  store   : Store R V
  columns : SegmentUuid → SegmentColumns n W

/-- A table just created. -/
def Catalog.init : Catalog n R V W where
  store := Store.init
  columns := fun _ => ⟨0, ⟨0, fun _ => ⟨none, none, 0⟩⟩, 0, false⟩

/-! ## Waves -/

/-- `AND seg.commit_micros >= min AND seg.commit_micros < max`, either end optional. -/
def inWindow (minPersistedAt maxPersistedAt : Option Int) (commitMicros : Int) : Bool :=
  minPersistedAt.all (fun lo => decide (lo ≤ commitMicros)) &&
    maxPersistedAt.all (fun hi => decide (commitMicros < hi))

/-- The unsealed rows of a scope: committed rows of the log whose parent row exists. -/
def Catalog.unsealedSegments (c : Catalog n R V W) (logKind : LogKind) : List PersistSegment :=
  c.store.persistSegments.filter (fun seg =>
    c.store.tablePersists.any (fun p => p.uuid = seg.uuid.parent) && decide (seg.logKind = logKind) &&
      !(c.columns seg.uuid).isSealed && seg.committed)

/-- The order of the enumeration; rows that tie may come in either order. -/
def enumerationKey (seg : PersistSegment) : Int ×ₗ Nat := toLex (seg.minTxCommitMicros, seg.uuid.chunkIdx)

/-- `enumerate_unsealed_persist_segments_for_scope`. -/
def Catalog.enumerateUnsealed (c : Catalog n R V W) (logKind : LogKind) (minPersistedAt maxPersistedAt : Option Int) :
    List PersistSegment :=
  ((c.unsealedSegments logKind).filter (fun seg =>
    inWindow minPersistedAt maxPersistedAt (c.columns seg.uuid).commitMicros)).insertionSort
      (fun a b => enumerationKey a ≤ enumerationKey b)

/-- The rows at some indices. -/
def pick (rows : List PersistSegment) (indices : List Nat) : List PersistSegment :=
  indices.filterMap (fun i => rows[i]?)

/-- The segments a wave merges and the segments it seals. -/
structure Wave where
  inputs : List PersistSegment
  seals  : List PersistSegment
  deriving DecidableEq, Repr

/-- `plan_wave` on the enumerated rows. `order` is that of the map of uri counts. -/
def Catalog.wave (cfg : CompactConfig n R V W) (c : Catalog n R V W) (order : List ObjectUri) (logKind : LogKind)
    (minPersistedAt maxPersistedAt : Option Int) : Option Wave :=
  let rows := c.enumerateUnsealed logKind minPersistedAt maxPersistedAt
  (planWave order (rows.map (fun seg => (seg.objectUri, (c.columns seg.uuid).sizeBytes))) cfg.maxSegmentBytes).map
    (fun plan => ⟨pick rows plan.inputIndices, pick rows plan.sealIndices⟩)

/-- The share of the merged size that one input records: an `i64` product, and integer division. -/
def proportionalSize (mergedSizeBytes totalRows rowCount : Int) : Int :=
  if 0 < totalRows then (wrapI64 (mergedSizeBytes * rowCount)).tdiv totalRows else 0

/-- `compact_one_scope` on the inputs, up to `repoint_table_persist_segment` of each. Every input gets the statistics
    of the whole merged file. -/
def Catalog.mergeSegments [Min W] [Max W] (cfg : CompactConfig n R V W) (c : Catalog n R V W) (logKind : LogKind)
    (inputs : List PersistSegment) : Option (Catalog n R V W) :=
  let totalRows : Int := (inputs.map (fun seg => (seg.rowCount : Int))).sum
  (cfg.readMerged (inputs.flatMap c.store.segmentRows)).bind (fun merged =>
    (c.store.mergeInto logKind inputs merged).map (fun store =>
      { store := store
        columns := fun uuid =>
          match (mergedSlices 0 inputs).lookup uuid with
          | some slice =>
              { c.columns uuid with
                sizeBytes := proportionalSize (cfg.batchInMemoryBytes merged) totalRows slice.2
                statistics := cfg.computeSegmentStatistics merged }
          | none => c.columns uuid }))

/-- `seal_table_persist_segments_by_uuids`. -/
def Catalog.sealSegments (c : Catalog n R V W) (uuids : List SegmentUuid) : Catalog n R V W :=
  { c with
    columns := fun uuid =>
      if uuid ∈ uuids then { c.columns uuid with isSealed := true } else c.columns uuid }

/-- `compact_one_scope`. A call that cannot read its inputs fails and changes nothing. -/
def Catalog.compactOneScope [Min W] [Max W] (cfg : CompactConfig n R V W) (c : Catalog n R V W)
    (order : List ObjectUri) (logKind : LogKind) (minPersistedAt maxPersistedAt : Option Int) : Catalog n R V W :=
  match c.wave cfg order logKind minPersistedAt maxPersistedAt with
  | none      => c
  | some wave =>
      if wave.inputs = [] then c.sealSegments (wave.seals.map PersistSegment.uuid)
      else
        match c.mergeSegments cfg logKind wave.inputs with
        | none        => c
        | some merged => merged.sealSegments (wave.seals.map PersistSegment.uuid)

/-- A Persist that commits its segments at `now`: the durable writes, and the columns of the new rows. -/
def Catalog.persist [Min W] [Max W] (cfg : CompactConfig n R V W) (c : Catalog n R V W) (target : Int)
    (upserts deletes : List (LogEntry R V)) (persistedAt seq now : Int) : Catalog n R V W where
  store := c.store.writePersist cfg.toPersistConfig target upserts deletes persistedAt seq
  columns := fun uuid =>
    match (persistWrites cfg.toPersistConfig target upserts deletes).lookup uuid with
    | some rows => ⟨cfg.batchInMemoryBytes rows, cfg.computeSegmentStatistics rows, now, false⟩
    | none      => c.columns uuid

/-- What happens to the segments of a table. -/
inductive ScopeOp (R V : Type) where
  | persist (target : Int) (upserts deletes : List (LogEntry R V)) (persistedAt seq now : Int)
  | compact (order : List ObjectUri) (logKind : LogKind) (minPersistedAt maxPersistedAt : Option Int)

/-- One step. A Persist writes under new uuids, so its uris are new. -/
def scopeStep [Min W] [Max W] (cfg : CompactConfig n R V W) (c : Catalog n R V W) :
    ScopeOp R V → Option (Catalog n R V W)
  | .persist target upserts deletes persistedAt seq now =>
      if (persistWrites cfg.toPersistConfig target upserts deletes).all (fun w => !c.store.hasSegment w.1) then
        some (c.persist cfg target upserts deletes persistedAt seq now)
      else none
  | .compact order logKind minPersistedAt maxPersistedAt =>
      some (c.compactOneScope cfg order logKind minPersistedAt maxPersistedAt)

/-! ### What a wave takes -/

/-- The rows of a catalog in good order. -/
structure Catalog.Ok (c : Catalog n R V W) : Prop where
  segments : c.store.SegmentsOk
  uuids    : c.store.UuidsNodup

theorem Catalog.ok_init : (Catalog.init : Catalog n R V W).Ok :=
  ⟨Store.SegmentsWF.init.ok, List.nodup_nil⟩

section Wave

variable {c c' : Catalog n R V W} {cfg : CompactConfig n R V W} {logKind logKind' : LogKind}
  {minPersistedAt maxPersistedAt : Option Int} {wave : Wave} {order : List ObjectUri}

theorem Catalog.mem_unsealedSegments {seg : PersistSegment} (hok : c.Ok) :
    seg ∈ c.unsealedSegments logKind ↔
      seg ∈ c.store.persistSegments ∧ seg.logKind = logKind ∧ (c.columns seg.uuid).isSealed = false := by
  simp only [unsealedSegments, List.mem_filter, Bool.and_eq_true, List.any_eq_true, decide_eq_true_eq,
    Bool.not_eq_true']
  constructor
  · rintro ⟨hseg, ⟨⟨-, hkind⟩, hsealed⟩, -⟩
    exact ⟨hseg, hkind, hsealed⟩
  · rintro ⟨hseg, hkind, hsealed⟩
    exact ⟨hseg, ⟨⟨hok.segments.parent seg hseg, hkind⟩, hsealed⟩, hok.segments.committed seg hseg⟩

theorem Catalog.unsealedSegments_eq (hok : c.Ok) (logKind : LogKind) :
    c.unsealedSegments logKind = c.store.persistSegments.filter (fun seg =>
      decide (seg.logKind = logKind) && !(c.columns seg.uuid).isSealed) := by
  refine List.filter_congr ?_
  intro seg hseg
  have hparent : c.store.tablePersists.any (fun p => p.uuid = seg.uuid.parent) = true := by
    obtain ⟨p, hp, hu⟩ := hok.segments.parent seg hseg
    exact List.any_eq_true.mpr ⟨p, hp, by simpa using hu⟩
  rw [hparent, hok.segments.committed seg hseg, Bool.true_and, Bool.and_true]

theorem Catalog.mem_enumerateUnsealed {seg : PersistSegment}
    (h : seg ∈ c.enumerateUnsealed logKind minPersistedAt maxPersistedAt) : seg ∈ c.unsealedSegments logKind :=
  (List.mem_filter.mp ((List.mem_insertionSort _).mp h)).1

theorem Catalog.nodup_enumerateUnsealed (hok : c.Ok) :
    ((c.enumerateUnsealed logKind minPersistedAt maxPersistedAt).map PersistSegment.uuid).Nodup := by
  have hperm := (List.perm_insertionSort (fun a b => enumerationKey a ≤ enumerationKey b)
    ((c.unsealedSegments logKind).filter (fun seg =>
      inWindow minPersistedAt maxPersistedAt (c.columns seg.uuid).commitMicros))).map PersistSegment.uuid
  refine hperm.nodup_iff.mpr ?_
  refine List.Nodup.sublist ?_ hok.uuids
  exact (List.filter_sublist.trans List.filter_sublist).map _

theorem pick_append (rows : List PersistSegment) (l l' : List Nat) :
    pick rows (l ++ l') = pick rows l ++ pick rows l' := List.filterMap_append

theorem mem_of_mem_pick {rows : List PersistSegment} {indices : List Nat} {seg : PersistSegment}
    (h : seg ∈ pick rows indices) : seg ∈ rows := by
  obtain ⟨i, -, hi⟩ := List.mem_filterMap.mp h
  exact List.mem_of_getElem? hi

theorem pick_nodup {rows : List PersistSegment} {indices : List Nat} (hrows : rows.Nodup) (h : indices.Nodup) :
    (pick rows indices).Nodup := by
  refine h.filterMap ?_
  intro i j seg hi hj
  obtain ⟨hilt, hi⟩ := List.getElem?_eq_some_iff.mp hi
  obtain ⟨hjlt, hj⟩ := List.getElem?_eq_some_iff.mp hj
  exact (hrows.getElem_inj_iff).mp (hi.trans hj.symm)

theorem map_pick {α : Type} (rows : List PersistSegment) (f : PersistSegment → α) {indices : List Nat}
    (h : ∀ i ∈ indices, i < rows.length) (d : α) :
    (pick rows indices).map f = indices.map (fun i => (rows.map f).getD i d) := by
  induction indices with
  | nil => rfl
  | cons i rest ih =>
      have hi : i < rows.length := h i List.mem_cons_self
      have hrest := ih (fun j hj => h j (List.mem_cons_of_mem _ hj))
      have hget : rows[i]? = some rows[i] := List.getElem?_eq_getElem hi
      show ((i :: rest).filterMap (fun i => rows[i]?)).map f = _
      rw [List.filterMap_cons_some hget, List.map_cons, List.map_cons]
      refine congrArg₂ List.cons ?_ hrest
      simp [hi]

theorem length_pick {rows : List PersistSegment} {indices : List Nat} (h : ∀ i ∈ indices, i < rows.length) :
    (pick rows indices).length = indices.length := by
  have hmap := congrArg List.length (map_pick rows (fun _ => ()) h ())
  rwa [List.length_map, List.length_map] at hmap

/-- What a wave takes: unsealed rows of the scope, each once; at least two inputs or none. -/
structure Wave.Takes (wave : Wave) (c : Catalog n R V W) (logKind : LogKind) : Prop where
  mem   : ∀ seg ∈ wave.inputs ++ wave.seals, seg ∈ c.unsealedSegments logKind
  nodup : ((wave.inputs ++ wave.seals).map PersistSegment.uuid).Nodup
  two   : wave.inputs = [] ∨ 2 ≤ wave.inputs.length

theorem Catalog.wave_takes (hok : c.Ok) (h : c.wave cfg order logKind minPersistedAt maxPersistedAt = some wave) :
    wave.Takes c logKind := by
  obtain ⟨plan, hplan, rfl⟩ := Option.map_eq_some_iff.mp h
  have hpicks := planWave_picks hplan
  have hrange : ∀ i ∈ plan.inputIndices ++ plan.sealIndices,
      i < (c.enumerateUnsealed logKind minPersistedAt maxPersistedAt).length := by
    intro i hi
    simpa using hpicks.inRange i hi
  have hnodup : ((c.enumerateUnsealed logKind minPersistedAt maxPersistedAt).map PersistSegment.uuid).Nodup :=
    c.nodup_enumerateUnsealed hok
  refine ⟨?_, ?_, ?_⟩
  · intro seg hseg
    rw [← pick_append] at hseg
    exact mem_enumerateUnsealed (mem_of_mem_pick hseg)
  · rw [← pick_append]
    refine List.Nodup.map_on ?_ (pick_nodup hnodup.of_map hpicks.nodup)
    intro a ha b hb hab
    exact List.inj_on_of_nodup_map hnodup (mem_of_mem_pick ha) (mem_of_mem_pick hb) hab
  · rcases hpicks.two with hnil | hlen
    · left
      show pick _ plan.inputIndices = []
      rw [hnil]
      rfl
    · right
      show 2 ≤ (pick _ plan.inputIndices).length
      rwa [length_pick (fun i hi => hrange i (List.mem_append_left _ hi))]

theorem Wave.Takes.mergeable (hok : c.Ok) (htakes : wave.Takes c logKind) (hne : wave.inputs ≠ []) :
    c.store.Mergeable logKind wave.inputs := by
  refine ⟨htakes.two.resolve_left hne, ?_, ?_⟩
  · have hnodup := htakes.nodup
    rw [List.map_append] at hnodup
    exact hnodup.of_append_left
  · intro seg hseg
    obtain ⟨hmem, hkind, -⟩ := (c.mem_unsealedSegments hok).mp (htakes.mem seg (List.mem_append_left _ hseg))
    exact ⟨hmem, hok.segments.committed seg hmem, hkind⟩

theorem Wave.Takes.not_sealed (htakes : wave.Takes c logKind) {seg : PersistSegment} (hseg : seg ∈ wave.inputs) :
    seg.uuid ∉ wave.seals.map PersistSegment.uuid := by
  have hnodup := htakes.nodup
  rw [List.map_append] at hnodup
  exact List.disjoint_of_nodup_append hnodup (List.mem_map_of_mem hseg)

variable [Min W] [Max W]

/-- What a call does: nothing, seal, or merge and seal. -/
theorem Catalog.compactOneScope_cases (cfg : CompactConfig n R V W) (c : Catalog n R V W) (order : List ObjectUri)
    (logKind : LogKind) (minPersistedAt maxPersistedAt : Option Int) :
    c.compactOneScope cfg order logKind minPersistedAt maxPersistedAt = c ∨
    ∃ wave, c.wave cfg order logKind minPersistedAt maxPersistedAt = some wave ∧
      ((wave.inputs = [] ∧ c.compactOneScope cfg order logKind minPersistedAt maxPersistedAt =
          c.sealSegments (wave.seals.map PersistSegment.uuid)) ∨
        (wave.inputs ≠ [] ∧ ∃ m, c.mergeSegments cfg logKind wave.inputs = some m ∧
          c.compactOneScope cfg order logKind minPersistedAt maxPersistedAt =
            m.sealSegments (wave.seals.map PersistSegment.uuid))) := by
  cases hwave : c.wave cfg order logKind minPersistedAt maxPersistedAt with
  | none => exact .inl (by simp [compactOneScope, hwave])
  | some wave =>
      by_cases hinputs : wave.inputs = []
      · exact .inr ⟨wave, rfl, .inl ⟨hinputs, by simp [compactOneScope, hwave, hinputs]⟩⟩
      · cases hmerge : c.mergeSegments cfg logKind wave.inputs with
        | none => exact .inl (by simp [compactOneScope, hwave, hinputs, hmerge])
        | some m =>
            exact .inr ⟨wave, rfl, .inr ⟨hinputs, m, hmerge, by simp [compactOneScope, hwave, hinputs, hmerge]⟩⟩

omit [Min W] [Max W] in
theorem Catalog.Ok.sealSegments (hok : c.Ok) (uuids : List SegmentUuid) : (c.sealSegments uuids).Ok :=
  ⟨hok.segments, hok.uuids⟩

omit [Min W] [Max W] in
theorem CompactConfig.readMerged_eq_some {rows merged : List (LogEntry R V)} (h : cfg.readMerged rows = some merged) :
    merged = cfg.rereadRows rows ∧ ∀ e ∈ rows, (rereadEntry cfg.reread e).isSome = true := by
  unfold readMerged at h
  split at h
  · rename_i hall
    exact ⟨(Option.some.inj h).symm, List.all_eq_true.mp hall⟩
  · cases h

omit [Min W] [Max W] in
theorem CompactConfig.length_rereadRows {rows : List (LogEntry R V)}
    (h : ∀ e ∈ rows, (rereadEntry cfg.reread e).isSome = true) : (cfg.rereadRows rows).length = rows.length := by
  induction rows with
  | nil => rfl
  | cons e rest ih =>
      obtain ⟨e', he'⟩ := Option.isSome_iff_exists.mp (h e List.mem_cons_self)
      have hrest := ih (fun a ha => h a (List.mem_cons_of_mem _ ha))
      simpa [rereadRows, List.filterMap_cons_some he'] using hrest

/-- A merge writes, for each input, its rows under the current schema. -/
theorem Catalog.mergeSegments_eq_some {inputs : List PersistSegment}
    (h : c.mergeSegments cfg logKind inputs = some c') :
    c.store.mergeInto logKind inputs (inputs.flatMap (fun seg => cfg.rereadRows (c.store.segmentRows seg))) =
        some c'.store ∧
      (∀ seg ∈ inputs, ∀ e ∈ c.store.segmentRows seg, (rereadEntry cfg.reread e).isSome = true) ∧
      c'.columns = fun uuid =>
        match (mergedSlices 0 inputs).lookup uuid with
        | some slice =>
            { c.columns uuid with
              sizeBytes := proportionalSize (cfg.batchInMemoryBytes (cfg.rereadRows (inputs.flatMap
                c.store.segmentRows))) (inputs.map (fun seg => (seg.rowCount : Int))).sum slice.2
              statistics := cfg.computeSegmentStatistics (cfg.rereadRows (inputs.flatMap c.store.segmentRows)) }
        | none => c.columns uuid := by
  obtain ⟨merged, hread, h⟩ := Option.bind_eq_some_iff.mp h
  obtain ⟨rfl, hall⟩ := CompactConfig.readMerged_eq_some hread
  obtain ⟨store, hstore, rfl⟩ := Option.map_eq_some_iff.mp h
  refine ⟨?_, fun seg hseg e he => hall e (List.mem_flatMap.mpr ⟨seg, hseg, he⟩), rfl⟩
  rw [← hstore, CompactConfig.rereadRows, List.filterMap_flatMap]
  rfl

theorem Catalog.Ok.mergeSegments (hok : c.Ok) {inputs : List PersistSegment}
    (h : c.mergeSegments cfg logKind inputs = some c') : c'.Ok := by
  obtain ⟨hstore, hread, -⟩ := mergeSegments_eq_some h
  exact ⟨hok.segments.mergeInto hstore hok.uuids (fun seg hseg => CompactConfig.length_rereadRows (hread seg hseg)),
    hok.uuids.mergeInto hstore⟩

theorem Catalog.Ok.compactOneScope (hok : c.Ok) :
    (c.compactOneScope cfg order logKind minPersistedAt maxPersistedAt).Ok := by
  obtain heq | ⟨wave, -, ⟨-, heq⟩ | ⟨-, m, hm, heq⟩⟩ :=
    c.compactOneScope_cases cfg order logKind minPersistedAt maxPersistedAt
  · rwa [heq]
  · rw [heq]
    exact hok.sealSegments _
  · rw [heq]
    exact (hok.mergeSegments hm).sealSegments _

end Wave

/-! ### The rows a Persist adds -/

section Persist

theorem Store.persistSegments_writeSegments {s : Store R V} {ws : List (SegmentUuid × List (LogEntry R V))}
    (hnodup : (ws.map Prod.fst).Nodup) (hfresh : ∀ w ∈ ws, s.hasSegment w.1 = false) :
    (s.writeSegments ws).persistSegments =
      s.persistSegments ++ ws.map (fun w => writtenSegment w.1 w.2) := by
  induction ws generalizing s with
  | nil => simp
  | cons w ws ih =>
      obtain ⟨hhead, htail⟩ := List.nodup_cons.mp hnodup
      have hnew := hfresh w List.mem_cons_self
      have hrest : ∀ w' ∈ ws, (s.writeSegment w.1 w.2).hasSegment w'.1 = false := by
        intro w' hw'
        rw [Store.hasSegment_writeSegment]
        · exact hfresh w' (List.mem_cons_of_mem _ hw')
        · intro heq
          exact hhead (heq ▸ List.mem_map_of_mem hw')
      have hold : s.persistSegments.map (rewriteSegment w.1 w.2.length) = s.persistSegments := by
        refine (List.map_congr_left ?_).trans (List.map_id' _)
        intro seg hseg
        exact rewriteSegment_of_ne (Store.hasSegment_eq_false_iff.mp hnew seg hseg)
      show ((s.writeSegment w.1 w.2).writeSegments ws).persistSegments = _
      rw [ih htail hrest, Store.persistSegments_writeSegment, hold, hnew]
      simp

variable {c c' : Catalog n R V W} {cfg : CompactConfig n R V W} {target : Int} {upserts deletes : List (LogEntry R V)}
  {persistedAt seq now : Int} [Min W] [Max W]

theorem scopeStep_persist_eq_some :
    scopeStep cfg c (.persist target upserts deletes persistedAt seq now) = some c' ↔
      (∀ w ∈ persistWrites cfg.toPersistConfig target upserts deletes, c.store.hasSegment w.1 = false) ∧
        c.persist cfg target upserts deletes persistedAt seq now = c' := by
  simp [scopeStep]

variable (hfresh : ∀ w ∈ persistWrites cfg.toPersistConfig target upserts deletes, c.store.hasSegment w.1 = false)
include hfresh

theorem Catalog.persistSegments_persist :
    (c.persist cfg target upserts deletes persistedAt seq now).store.persistSegments =
      c.store.persistSegments ++
        (persistWrites cfg.toPersistConfig target upserts deletes).map (fun w => writtenSegment w.1 w.2) := by
  have hsegs := (Store.insertParents_segments c.store (persistParents target upserts deletes) persistedAt seq).1
  show (c.store.writePersist _ target upserts deletes persistedAt seq).persistSegments = _
  rw [Store.writePersist_eq]
  show ((c.store.insertParents _ persistedAt seq).writeSegments _).persistSegments = _
  rw [Store.persistSegments_writeSegments nodup_map_fst_persistWrites, hsegs]
  intro w hw
  rw [Store.hasSegment, hsegs]
  exact hfresh w hw

theorem Catalog.Ok.persist (hok : c.Ok) : (c.persist cfg target upserts deletes persistedAt seq now).Ok := by
  refine ⟨(Store.writePersist_views hok.segments ?_).1, hok.uuids.writePersist _ _ _ _ _ _⟩
  intro w hw seg hseg hu
  exact absurd hu (Store.hasSegment_eq_false_iff.mp (hfresh w hw) seg hseg)

theorem Catalog.columns_persist_of_mem {seg : PersistSegment} (hseg : seg ∈ c.store.persistSegments) :
    (c.persist cfg target upserts deletes persistedAt seq now).columns seg.uuid = c.columns seg.uuid := by
  have hnone : (persistWrites cfg.toPersistConfig target upserts deletes).lookup seg.uuid = none := by
    rw [List.lookup_eq_none_iff]
    intro w hw
    have hne := Store.hasSegment_eq_false_iff.mp (hfresh w hw) seg hseg
    simpa using hne
  simp [persist, hnone]

omit hfresh in
/-- The columns of a new row describe its rows. -/
theorem Catalog.columns_persist_of_write {w : SegmentUuid × List (LogEntry R V)}
    (hw : w ∈ persistWrites cfg.toPersistConfig target upserts deletes) :
    (c.persist cfg target upserts deletes persistedAt seq now).columns w.1 =
      ⟨cfg.batchInMemoryBytes w.2, cfg.computeSegmentStatistics w.2, now, false⟩ := by
  have hsome : (persistWrites cfg.toPersistConfig target upserts deletes).lookup w.1 = some w.2 :=
    (InFlight.lookup_eq_some_iff_mem nodup_map_fst_persistWrites).mpr hw
  simp [persist, hsome]

/-- The unsealed rows after a Persist: the old ones and its own. -/
theorem Catalog.unsealedSegments_persist (hok : c.Ok) (logKind : LogKind) :
    (c.persist cfg target upserts deletes persistedAt seq now).unsealedSegments logKind =
      c.unsealedSegments logKind ++
        ((persistWrites cfg.toPersistConfig target upserts deletes).filter
          (fun w => w.1.parent.logKind = logKind)).map (fun w => writtenSegment w.1 w.2) := by
  rw [unsealedSegments_eq (hok.persist hfresh), unsealedSegments_eq hok, persistSegments_persist hfresh,
    List.filter_append, List.filter_map]
  refine congrArg₂ (· ++ ·) ?_ (congrArg _ ?_)
  · refine List.filter_congr ?_
    intro seg hseg
    rw [columns_persist_of_mem hfresh hseg]
  · refine List.filter_congr ?_
    intro w hw
    show (decide (w.1.parent.logKind = logKind) &&
      !((c.persist cfg target upserts deletes persistedAt seq now).columns w.1).isSealed) = _
    rw [columns_persist_of_write hw, Bool.not_false, Bool.and_true]

end Persist

/-! ### The rows a wave leaves -/

section Leaves

variable {c c' : Catalog n R V W} {cfg : CompactConfig n R V W} {logKind : LogKind}

theorem Catalog.isSealed_sealSegments (c : Catalog n R V W) (uuids : List SegmentUuid) (uuid : SegmentUuid) :
    ((c.sealSegments uuids).columns uuid).isSealed = (decide (uuid ∈ uuids) || (c.columns uuid).isSealed) := by
  by_cases h : uuid ∈ uuids <;> simp [sealSegments, h]

theorem Catalog.unsealedSegments_sealSegments (c : Catalog n R V W) (uuids : List SegmentUuid) (logKind : LogKind) :
    (c.sealSegments uuids).unsealedSegments logKind =
      (c.unsealedSegments logKind).filter (fun seg => seg.uuid ∉ uuids) := by
  unfold unsealedSegments
  rw [List.filter_filter]
  refine List.filter_congr ?_
  intro seg _
  rw [isSealed_sealSegments]
  show _ = _
  by_cases hmem : seg.uuid ∈ uuids
  · simp [hmem]
  · simp [hmem, sealSegments]

theorem objectUri_repointSegment (uri : ObjectUri) (inputs : List PersistSegment) (seg : PersistSegment) :
    (repointSegment uri (mergedSlices 0 inputs) seg).objectUri =
      if seg.uuid ∈ inputs.map PersistSegment.uuid then uri else seg.objectUri := by
  have hsome := lookup_mergedSlices_isSome 0 inputs seg.uuid
  unfold repointSegment
  cases hlookup : (mergedSlices 0 inputs).lookup seg.uuid with
  | none =>
      rw [hlookup] at hsome
      simp only [Option.isSome_none] at hsome
      rw [if_neg (of_decide_eq_false hsome.symm)]
  | some slice =>
      rw [hlookup] at hsome
      simp only [Option.isSome_some] at hsome
      rw [if_pos (of_decide_eq_true hsome.symm)]

variable [Min W] [Max W] {inputs : List PersistSegment} (h : c.mergeSegments cfg logKind inputs = some c')
include h

theorem Catalog.columns_mergeSegments (uuid : SegmentUuid) :
    (c'.columns uuid).isSealed = (c.columns uuid).isSealed ∧
      (c'.columns uuid).commitMicros = (c.columns uuid).commitMicros := by
  rw [(mergeSegments_eq_some h).2.2]
  dsimp only
  split <;> exact ⟨rfl, rfl⟩

theorem Catalog.persistSegments_mergeSegments :
    c'.store.persistSegments = c.store.persistSegments.map
      (repointSegment (.merged c.store.mergedFiles) (mergedSlices 0 inputs)) := by
  obtain ⟨-, hstore⟩ := Store.mergeInto_eq_some.mp (mergeSegments_eq_some h).1
  rw [← hstore]

/-- The unsealed rows after a merge are the same rows, repointed. -/
theorem Catalog.unsealedSegments_mergeSegments (hok : c.Ok) (logKind' : LogKind) :
    c'.unsealedSegments logKind' = (c.unsealedSegments logKind').map
      (repointSegment (.merged c.store.mergedFiles) (mergedSlices 0 inputs)) := by
  rw [unsealedSegments_eq (hok.mergeSegments h), unsealedSegments_eq hok, persistSegments_mergeSegments h,
    List.filter_map]
  refine congrArg _ (List.filter_congr ?_)
  intro seg _
  have hkind : (repointSegment (.merged c.store.mergedFiles) (mergedSlices 0 inputs) seg).logKind = seg.logKind :=
    congrArg (fun uuid => uuid.parent.logKind) (repointSegment_uuid _ _ seg)
  simp only [Function.comp, hkind, repointSegment_uuid, (columns_mergeSegments h seg.uuid).1]

end Leaves

/-! ## The active file -/

section Active

/-- The files of the unsealed rows of a scope. -/
def Catalog.scopeUris (c : Catalog n R V W) (logKind : LogKind) : List ObjectUri :=
  (c.unsealedSegments logKind).map PersistSegment.objectUri

/-- The active and sealed model: at most one file of the scope holds more than one unsealed row. -/
def Catalog.ActiveSealed (logKind : LogKind) (c : Catalog n R V W) : Prop := AtMostOneShared (c.scopeUris logKind)

/-- The unsealed rows a wave neither merges nor seals: those its window hides and those its fold did not reach. -/
def Catalog.leftBehind (c : Catalog n R V W) (logKind : LogKind) (wave : Wave) : List PersistSegment :=
  (c.unsealedSegments logKind).filter (fun seg => seg.uuid ∉ (wave.inputs ++ wave.seals).map PersistSegment.uuid)

/-- The window of a call shows every unsealed row of the files that hold more than one. -/
def ShowsActive (logKind : LogKind) (c : Catalog n R V W) : ScopeOp R V → Prop
  | .persist _ _ _ _ _ _ => True
  | .compact _ logKind' minPersistedAt maxPersistedAt =>
      logKind' = logKind → ∀ seg ∈ c.unsealedSegments logKind, 1 < (c.scopeUris logKind).count seg.objectUri →
        inWindow minPersistedAt maxPersistedAt (c.columns seg.uuid).commitMicros = true

instance (logKind : LogKind) (c : Catalog n R V W) : ∀ op, Decidable (ShowsActive logKind c op)
  | .persist _ _ _ _ _ _    => isTrue trivial
  | .compact _ logKind' _ _ => inferInstanceAs (Decidable (logKind' = logKind → ∀ seg ∈ _, _))

instance (logKind : LogKind) (c : Catalog n R V W) : Decidable (c.ActiveSealed logKind) :=
  inferInstanceAs (Decidable (AtMostOneShared _))

variable {c c' : Catalog n R V W} {cfg : CompactConfig n R V W} {logKind logKind' : LogKind} {wave : Wave}

theorem Wave.Takes.not_mem_of_ne (hok : c.Ok) (htakes : wave.Takes c logKind') (hne : logKind' ≠ logKind)
    {seg : PersistSegment} (hseg : seg ∈ c.unsealedSegments logKind) :
    seg.uuid ∉ (wave.inputs ++ wave.seals).map PersistSegment.uuid := by
  intro hmem
  obtain ⟨taken, htaken, hu⟩ := List.mem_map.mp hmem
  have hkind := ((c.mem_unsealedSegments hok).mp hseg).2.1
  have hkind' := ((c.mem_unsealedSegments hok).mp (htakes.mem taken htaken)).2.1
  refine hne ?_
  rw [← hkind, ← hkind', PersistSegment.logKind, PersistSegment.logKind, hu]

section Shown

variable {order : List ObjectUri} {minPersistedAt maxPersistedAt : Option Int} (hactive : c.ActiveSealed logKind)
  (hshown : ShowsActive logKind c (.compact order logKind minPersistedAt maxPersistedAt : ScopeOp R V))
  (hwave : c.wave cfg order logKind minPersistedAt maxPersistedAt = some wave)
include hactive hshown hwave

/-- A wave that sees the active file merges all its rows or seals all of them. -/
theorem Catalog.wave_whole {u : ObjectUri} (hu : 1 < (c.scopeUris logKind).count u) :
    (∀ seg ∈ c.unsealedSegments logKind, seg.objectUri = u → seg ∈ wave.inputs) ∨
      ∀ seg ∈ c.unsealedSegments logKind, seg.objectUri = u → seg ∈ wave.seals := by
  obtain ⟨plan, hplan, rfl⟩ := Option.map_eq_some_iff.mp hwave
  have hperm : (c.enumerateUnsealed logKind minPersistedAt maxPersistedAt).Perm ((c.unsealedSegments logKind).filter
      (fun seg => inWindow minPersistedAt maxPersistedAt (c.columns seg.uuid).commitMicros)) :=
    List.perm_insertionSort _ _
  have huris : ((c.enumerateUnsealed logKind minPersistedAt maxPersistedAt).map (fun seg =>
      (seg.objectUri, (c.columns seg.uuid).sizeBytes))).map Prod.fst =
        (c.enumerateUnsealed logKind minPersistedAt maxPersistedAt).map PersistSegment.objectUri := by
    rw [List.map_map]
    rfl
  -- The rows of the file are all listed.
  have hcount : 1 < ((c.enumerateUnsealed logKind minPersistedAt maxPersistedAt).map
      PersistSegment.objectUri).count u := by
    rw [(hperm.map _).count_eq, List.count_eq_countP, List.countP_map, List.countP_filter]
    rw [scopeUris, List.count_eq_countP, List.countP_map] at hu
    refine hu.trans_le (List.countP_mono_left ?_)
    intro seg hseg huri
    have hsame : seg.objectUri = u := by simpa using huri
    simp only [Function.comp, hsame, beq_self_eq_true, Bool.true_and]
    refine hshown rfl seg hseg ?_
    rwa [hsame, scopeUris, List.count_eq_countP, List.countP_map]
  have hshared : AtMostOneShared ((c.enumerateUnsealed logKind minPersistedAt maxPersistedAt).map
      PersistSegment.objectUri) :=
    (AtMostOneShared.sublist hactive (List.filter_sublist.map _)).perm (hperm.map _)
  have hlisted : ∀ seg ∈ c.unsealedSegments logKind, seg.objectUri = u → ∃ i : Nat,
      (c.enumerateUnsealed logKind minPersistedAt maxPersistedAt)[i]? = some seg := by
    rintro seg hseg rfl
    exact List.getElem?_of_mem (hperm.mem_iff.mpr (List.mem_filter.mpr ⟨hseg, hshown rfl seg hseg hu⟩))
  have hsound := planWave_sound (by rwa [huris]) hplan
  rcases hsound.shared u (by rwa [huris]) with hall | hall
  · left
    intro seg hseg huri
    obtain ⟨i, hi⟩ := hlisted seg hseg huri
    exact List.mem_filterMap.mpr ⟨i, hall i (by simp [hi, huri]), hi⟩
  · right
    intro seg hseg huri
    obtain ⟨i, hi⟩ := hlisted seg hseg huri
    exact List.mem_filterMap.mpr ⟨i, hall i (by simp [hi, huri]), hi⟩

/-- What such a wave leaves behind lies in different files. -/
theorem Catalog.nodup_leftBehind : ((c.leftBehind logKind wave).map PersistSegment.objectUri).Nodup := by
  rw [List.nodup_iff_count_le_one]
  intro u
  by_contra hu
  have hmem : u ∈ (c.leftBehind logKind wave).map PersistSegment.objectUri := List.count_pos_iff.mp (by omega)
  obtain ⟨seg, hseg, rfl⟩ := List.mem_map.mp hmem
  obtain ⟨hunsealed, hleft⟩ := List.mem_filter.mp hseg
  have hsub : ((c.leftBehind logKind wave).map PersistSegment.objectUri).Sublist (c.scopeUris logKind) :=
    List.filter_sublist.map PersistSegment.objectUri
  have hle := hsub.count_le seg.objectUri
  have hcount : 1 < (c.scopeUris logKind).count seg.objectUri := by omega
  refine of_decide_eq_true hleft (List.mem_map_of_mem (List.mem_append.mpr ?_))
  exact (c.wave_whole hactive hshown hwave hcount).imp (fun h => h seg hunsealed rfl) (fun h => h seg hunsealed rfl)

end Shown

variable [Min W] [Max W]

/-- A wave that merges, on its own scope. -/
theorem Catalog.activeSealed_merge (hok : c.Ok) {m : Catalog n R V W}
    (hmerge : c.mergeSegments cfg logKind wave.inputs = some m)
    (hleft : ((c.leftBehind logKind wave).map PersistSegment.objectUri).Nodup) :
    (m.sealSegments (wave.seals.map PersistSegment.uuid)).ActiveSealed logKind := by
  have huris : (m.sealSegments (wave.seals.map PersistSegment.uuid)).scopeUris logKind =
      ((c.unsealedSegments logKind).filter (fun seg => seg.uuid ∉ wave.seals.map PersistSegment.uuid)).map
        (fun seg => if decide (seg.uuid ∈ wave.inputs.map PersistSegment.uuid) then .merged c.store.mergedFiles
          else seg.objectUri) := by
    unfold Catalog.scopeUris
    rw [Catalog.unsealedSegments_sealSegments, Catalog.unsealedSegments_mergeSegments hmerge hok, List.filter_map,
      List.map_map]
    simp only [Function.comp_def, repointSegment_uuid, objectUri_repointSegment, decide_eq_true_eq]
  have hfilter : ((c.unsealedSegments logKind).filter (fun seg => seg.uuid ∉ wave.seals.map PersistSegment.uuid)).filter
      (fun seg => !decide (seg.uuid ∈ wave.inputs.map PersistSegment.uuid)) = c.leftBehind logKind wave := by
    unfold Catalog.leftBehind
    rw [List.filter_filter]
    refine List.filter_congr ?_
    intro seg _
    simp only [List.map_append, List.mem_append, not_or, Bool.decide_and, decide_not]
  unfold Catalog.ActiveSealed
  rw [huris]
  exact atMostOneShared_merge (hfilter ▸ hleft)

theorem Wave.Takes.scopeUris_of_ne (hok : c.Ok) (htakes : wave.Takes c logKind') (hkind : logKind' ≠ logKind)
    {m : Catalog n R V W} (hmerge : c.mergeSegments cfg logKind' wave.inputs = some m) :
    (m.sealSegments (wave.seals.map PersistSegment.uuid)).scopeUris logKind = c.scopeUris logKind := by
  have hother := fun seg hseg => htakes.not_mem_of_ne hok hkind (hseg : seg ∈ c.unsealedSegments logKind)
  simp only [List.map_append, List.mem_append, not_or] at hother
  have hfilter : (c.unsealedSegments logKind).filter (fun seg => seg.uuid ∉ wave.seals.map PersistSegment.uuid) =
      c.unsealedSegments logKind :=
    List.filter_eq_self.mpr (fun seg hseg => decide_eq_true (hother seg hseg).2)
  unfold Catalog.scopeUris
  rw [Catalog.unsealedSegments_sealSegments, Catalog.unsealedSegments_mergeSegments hmerge hok, List.filter_map,
    List.map_map]
  simp only [Function.comp_def, repointSegment_uuid, hfilter]
  refine List.map_congr_left ?_
  intro seg hseg
  rw [objectUri_repointSegment, if_neg (hother seg hseg).1]

theorem Catalog.ok_step {op : ScopeOp R V} (hok : c.Ok) (h : scopeStep cfg c op = some c') : c'.Ok := by
  cases op with
  | persist target upserts deletes persistedAt seq now =>
      obtain ⟨hfresh, rfl⟩ := scopeStep_persist_eq_some.mp h
      exact hok.persist hfresh
  | compact order logKind minPersistedAt maxPersistedAt =>
      cases h
      exact hok.compactOneScope

theorem Catalog.ok_run {ops : List (ScopeOp R V)} (hrun : Runs.run (scopeStep cfg) Catalog.init ops = some c) : c.Ok :=
  Runs.invariant_of_step (G := fun _ _ => True) (fun _ _ _ hok _ h => Catalog.ok_step hok h) Catalog.ok_init
    (Runs.meets_of_forall (fun _ _ => trivial) _ _) hrun

/-- **What a call merges.** On every reachable catalog, also when windows have left several shared files, and whichever
    of them the planner picks as the active one, the rows a call merges are two or more different committed segments of
    its log. -/
theorem Catalog.wave_mergeable {ops : List (ScopeOp R V)} (hrun : Runs.run (scopeStep cfg) Catalog.init ops = some c)
    {order : List ObjectUri} {minPersistedAt maxPersistedAt : Option Int}
    (hwave : c.wave cfg order logKind minPersistedAt maxPersistedAt = some wave)
    (hmerges : wave.inputs ≠ []) : c.store.Mergeable logKind wave.inputs := by
  have hok := Catalog.ok_run hrun
  exact (wave_takes hok hwave).mergeable hok hmerges

theorem Catalog.ActiveSealed.persist (hok : c.Ok) (hactive : c.ActiveSealed logKind) {target : Int}
    {upserts deletes : List (LogEntry R V)} (persistedAt seq now : Int)
    (hfresh : ∀ w ∈ persistWrites cfg.toPersistConfig target upserts deletes, c.store.hasSegment w.1 = false) :
    (c.persist cfg target upserts deletes persistedAt seq now).ActiveSealed logKind := by
  unfold ActiveSealed scopeUris
  rw [unsealedSegments_persist hfresh hok, List.map_append, List.map_map]
  refine AtMostOneShared.append_fresh hactive ?_ ?_
  · -- The uri of a new row is derived from its uuid.
    have hnodup : (((persistWrites cfg.toPersistConfig target upserts deletes).filter
        (fun w => w.1.parent.logKind = logKind)).map Prod.fst).Nodup :=
      nodup_map_fst_persistWrites.sublist (List.filter_sublist.map _)
    have hmap := hnodup.map (fun a b hab => ObjectUri.segment.inj hab)
    rw [List.map_map] at hmap
    exact hmap
  · intro u hu hmem
    obtain ⟨w, hw, rfl⟩ := List.mem_map.mp hu
    obtain ⟨seg, hseg, huri⟩ := List.mem_map.mp hmem
    have hseg := ((c.mem_unsealedSegments hok).mp hseg).1
    have hne := Store.hasSegment_eq_false_iff.mp (hfresh w (List.mem_filter.mp hw).1) seg hseg
    change seg.objectUri = .segment w.1 at huri
    rcases hok.segments.located seg hseg with hl | ⟨k, -, hl⟩
    · rw [hl] at huri
      exact hne (ObjectUri.segment.inj huri)
    · rw [hl] at huri
      cases huri

theorem Catalog.activeSealed_step {op : ScopeOp R V} (hok : c.Ok) (hactive : c.ActiveSealed logKind)
    (hshown : ShowsActive logKind c op) (h : scopeStep cfg c op = some c') : c'.ActiveSealed logKind := by
  cases op with
  | persist target upserts deletes persistedAt seq now =>
      obtain ⟨hfresh, rfl⟩ := scopeStep_persist_eq_some.mp h
      exact hactive.persist hok persistedAt seq now hfresh
  | compact order logKind' minPersistedAt maxPersistedAt =>
      cases h
      obtain heq | ⟨wave, hwave, ⟨-, heq⟩ | ⟨-, m, hmerge, heq⟩⟩ :=
        c.compactOneScope_cases cfg order logKind' minPersistedAt maxPersistedAt
      · rwa [heq]
      · rw [heq, ActiveSealed, scopeUris, unsealedSegments_sealSegments]
        exact AtMostOneShared.sublist hactive (List.filter_sublist.map _)
      · rw [heq]
        by_cases hkind : logKind' = logKind
        · subst hkind
          exact activeSealed_merge hok hmerge (c.nodup_leftBehind hactive hshown hwave)
        · rw [ActiveSealed, (wave_takes hok hwave).scopeUris_of_ne hok hkind hmerge]
          exact hactive

/-- **The active file along runs.** If no window hides a row of the active file, at most one file of the scope is
    shared in every state of the run, and so before every wave. -/
theorem activeSealed_run (cfg : CompactConfig n R V W) (logKind : LogKind) (ops : List (ScopeOp R V))
    (hshown : Runs.Meets (scopeStep cfg) (ShowsActive logKind) Catalog.init ops) :
    Runs.Throughout (scopeStep cfg) (Catalog.ActiveSealed logKind) (Catalog.init : Catalog n R V W) ops := by
  have hinit : (Catalog.init : Catalog n R V W).ActiveSealed logKind := fun u hu => absurd hu List.not_mem_nil
  have hkeeps : ∀ (c : Catalog n R V W) op c', (c.Ok ∧ c.ActiveSealed logKind) → ShowsActive logKind c op →
      scopeStep cfg c op = some c' → (c'.Ok ∧ c'.ActiveSealed logKind) := by
    rintro c op c' ⟨hok, hactive⟩ hshown h
    exact ⟨Catalog.ok_step hok h, Catalog.activeSealed_step hok hactive hshown h⟩
  exact (Runs.throughout_of_step hkeeps ⟨Catalog.ok_init, hinit⟩ hshown).mono (fun _ h => h.2)

/-- A configuration whose rows cost what their value says. -/
def valuedRows (maxSegmentBytes : Int) : CompactConfig 0 Nat Int Int where
  rowBytes e := match e.change with
    | .upsert cost => cost
    | .delete      => 1
  maxSegmentBytes := maxSegmentBytes
  partition := none
  column := fun k => k.elim0
  prunable := fun k => k.elim0
  reread := some

/-- A Persist of one upsert segment at time `t`, committed at the same time. -/
def persistAt (t : Int) (costs : List Int) : ScopeOp Nat Int :=
  .persist t (costs.map (fun cost => ⟨0, .upsert cost, t, 0, t⟩)) [] t t t

/-- Four Persists; one call merges the first two segments, the next one sees only the other two. -/
def hiddenActiveRun : List (ScopeOp Nat Int) :=
  [persistAt 1 [10], persistAt 2 [10], persistAt 3 [10], persistAt 4 [10],
    .compact [] .upsertLog (some 1) (some 3), .compact [] .upsertLog (some 3) none]

theorem activeSealed_fails :
    ∃ c, Runs.run (scopeStep (valuedRows 100)) Catalog.init hiddenActiveRun = some c ∧
      ¬ c.ActiveSealed .upsertLog := by
  have hrun : (Runs.run (scopeStep (valuedRows 100)) Catalog.init hiddenActiveRun).map
      (fun c => decide (¬ c.ActiveSealed .upsertLog)) = some true := by decide +kernel
  obtain ⟨c, hc, hfails⟩ := Option.map_eq_some_iff.mp hrun
  exact ⟨c, hc, of_decide_eq_true hfails⟩

/-- Another call on the state with two shared files, which takes the second one as active. -/
theorem wave_hiddenActiveRun : ∃ c wave, Runs.run (scopeStep (valuedRows 100)) Catalog.init hiddenActiveRun = some c ∧
    c.wave (valuedRows 100) [.merged 1] .upsertLog none none = some wave ∧
    c.store.Mergeable .upsertLog wave.inputs := by
  have hend : (Runs.run (scopeStep (valuedRows 100)) Catalog.init hiddenActiveRun).any (fun c =>
      (c.wave (valuedRows 100) [.merged 1] .upsertLog none none).any (fun wave => wave.inputs ≠ [])) = true := by
    decide +kernel
  obtain ⟨c, hrun, hend⟩ := (Option.any_eq_true _ _).mp hend
  obtain ⟨wave, hwave, hmerges⟩ := (Option.any_eq_true _ _).mp hend
  exact ⟨c, wave, hrun, hwave, Catalog.wave_mergeable hrun hwave (of_decide_eq_true hmerges)⟩

/-- Windows that move with the active file: the second and the third show both its rows. -/
def openWindowRun : List (ScopeOp Nat Int) :=
  [persistAt 1 [10], persistAt 2 [10], persistAt 3 [10], persistAt 4 [10],
    .compact [] .upsertLog none (some 3), .compact [] .upsertLog (some 1) (some 4), .compact [] .upsertLog none none]

theorem activeSealed_openWindow :
    (Runs.run (scopeStep (valuedRows 100)) Catalog.init openWindowRun).isSome ∧
      Runs.Throughout (scopeStep (valuedRows 100)) (Catalog.ActiveSealed .upsertLog) Catalog.init openWindowRun :=
  ⟨by decide +kernel, activeSealed_run (valuedRows 100) .upsertLog openWindowRun (by decide +kernel)⟩

end Active

end Penca.Compact
