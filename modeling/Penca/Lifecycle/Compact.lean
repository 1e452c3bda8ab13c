import Penca.Lib.InFlight
import Penca.Lifecycle.Invariant

/-!
# `Lifecycle.Compact` — merging persist segments

A compaction wave reads some committed segments of one log, writes their rows into one new file and points each
of them at its slice of that file. Which segments a wave takes is decided by `plan_wave`; here it is any choice
of at least two, so every result holds for whatever the planner chooses. No segment changes what it reads
(`views_compactOneScope`), so the lifecycle invariant is kept and runs may contain compactions (`tableInv_run`).
-/

namespace Penca

variable {R V : Type}

/-! ## The merge -/

/-- The slices of the merged file: each input gets `row_count` rows at the running offset. -/
def mergedSlices : Nat → List PersistSegment → List (SegmentUuid × Nat × Nat)
  | _,          []          => []
  | cumulative, seg :: rest => (seg.uuid, cumulative, seg.rowCount) :: mergedSlices (cumulative + seg.rowCount) rest

/-- `repoint_table_persist_segment`: the location of an input changes, its bounds and row count stay. -/
def repointSegment (uri : ObjectUri) (slices : List (SegmentUuid × Nat × Nat)) (seg : PersistSegment) :
    PersistSegment :=
  match slices.lookup seg.uuid with
  | some slice => { seg with objectUri := uri, slice := some slice }
  | none       => seg

/-- What a wave may merge: at least two committed segments of one log, each once. -/
def Store.Mergeable (s : Store R V) (logKind : LogKind) (inputs : List PersistSegment) : Prop :=
  2 ≤ inputs.length ∧ (inputs.map PersistSegment.uuid).Nodup ∧
    ∀ seg ∈ inputs, seg ∈ s.persistSegments ∧ seg.committed = true ∧ seg.logKind = logKind

instance (s : Store R V) (logKind : LogKind) (inputs : List PersistSegment) :
    Decidable (s.Mergeable logKind inputs) :=
  inferInstanceAs (Decidable (_ ∧ _ ∧ ∀ seg ∈ inputs, _ ∧ _ ∧ _))

/-- `compact_one_scope` on the inputs of a wave once they are read: write the merged file under a new name, point
    every input at its slice. -/
def Store.mergeInto (s : Store R V) (logKind : LogKind) (inputs : List PersistSegment)
    (merged : List (LogEntry R V)) : Option (Store R V) :=
  if s.Mergeable logKind inputs then
    some { s.putObject (.merged s.mergedFiles) merged with
      mergedFiles := s.mergedFiles + 1
      persistSegments := s.persistSegments.map (repointSegment (.merged s.mergedFiles) (mergedSlices 0 inputs)) }
  else none

/-- `compact_one_scope` as long as the table keeps its schema: the inputs are read as they are, without a ceiling. -/
def Store.compactOneScope (s : Store R V) (logKind : LogKind) (inputs : List PersistSegment) :
    Option (Store R V) :=
  s.mergeInto logKind inputs (inputs.flatMap s.segmentRows)

/-! ## Slices -/

theorem readSlice_mergedSlices {α : Type} (rows : PersistSegment → List α) {inputs : List PersistSegment}
    (hcount : ∀ seg ∈ inputs, seg.rowCount = (rows seg).length) (before : List α) :
    ∀ x ∈ mergedSlices before.length inputs, ∃ seg ∈ inputs, seg.uuid = x.1 ∧
      readSlice (before ++ inputs.flatMap rows) (some x.2) = rows seg := by
  induction inputs generalizing before with
  | nil => simp [mergedSlices]
  | cons seg rest ih =>
      intro x hx
      have hlen := hcount seg List.mem_cons_self
      rcases List.mem_cons.mp hx with rfl | hx
      · refine ⟨seg, List.mem_cons_self, rfl, ?_⟩
        simp [readSlice, hlen]
      · have hoffset : before.length + seg.rowCount = (before ++ rows seg).length := by
          rw [List.length_append, hlen]
        rw [hoffset] at hx
        obtain ⟨seg', hseg', hu, hread⟩ :=
          ih (fun s hs => hcount s (List.mem_cons_of_mem _ hs)) (before ++ rows seg) x hx
        refine ⟨seg', List.mem_cons_of_mem _ hseg', hu, ?_⟩
        rw [List.flatMap_cons, ← List.append_assoc]
        exact hread

@[simp] theorem repointSegment_uuid (uri : ObjectUri) (slices : List (SegmentUuid × Nat × Nat))
    (seg : PersistSegment) : (repointSegment uri slices seg).uuid = seg.uuid := by
  unfold repointSegment
  split <;> rfl

theorem lookup_mergedSlices_isSome (offset : Nat) (inputs : List PersistSegment) (uuid : SegmentUuid) :
    ((mergedSlices offset inputs).lookup uuid).isSome = decide (uuid ∈ inputs.map PersistSegment.uuid) := by
  induction inputs generalizing offset with
  | nil => rfl
  | cons seg rest ih =>
      by_cases hu : uuid = seg.uuid
      · subst hu
        simp [mergedSlices]
      · have hne : (uuid == seg.uuid) = false := beq_false_of_ne hu
        simp [mergedSlices, List.lookup_cons, hne, ih, hu]

/-! ## Uuids -/

/-- The primary key of the segment table. -/
def Store.UuidsNodup (s : Store R V) : Prop := (s.persistSegments.map PersistSegment.uuid).Nodup

theorem Store.UuidsNodup.eq_of_uuid {s : Store R V} (h : s.UuidsNodup) {seg seg' : PersistSegment}
    (hseg : seg ∈ s.persistSegments) (hseg' : seg' ∈ s.persistSegments) (hu : seg.uuid = seg'.uuid) :
    seg = seg' :=
  List.inj_on_of_nodup_map h hseg hseg' hu

theorem Store.UuidsNodup.writeSegment {s : Store R V} (h : s.UuidsNodup) (uuid : SegmentUuid)
    (rows : List (LogEntry R V)) : (s.writeSegment uuid rows).UuidsNodup := by
  have hold : (s.persistSegments.map (rewriteSegment uuid rows.length)).map PersistSegment.uuid =
      s.persistSegments.map PersistSegment.uuid := by
    rw [List.map_map]
    exact List.map_congr_left (fun seg _ => rewriteSegment_uuid uuid rows.length seg)
  unfold UuidsNodup
  rw [persistSegments_writeSegment, List.map_append, hold]
  cases hhas : s.hasSegment uuid with
  | true =>
      simp only [if_true, List.map_nil, List.append_nil]
      exact h
  | false =>
      have hfresh := hasSegment_eq_false_iff.mp hhas
      refine List.nodup_append.mpr ⟨h, by simp, ?_⟩
      rintro u hu u' hu' rfl
      obtain ⟨seg, hseg, rfl⟩ := List.mem_map.mp hu
      obtain rfl : seg.uuid = uuid := by simpa [writtenSegment, newSegment] using hu'
      exact hfresh seg hseg rfl

theorem Store.UuidsNodup.writeSegments {s : Store R V} (h : s.UuidsNodup)
    (ws : List (SegmentUuid × List (LogEntry R V))) : (s.writeSegments ws).UuidsNodup := by
  induction ws generalizing s with
  | nil => exact h
  | cons w ws ih => exact ih (h.writeSegment w.1 w.2)

theorem Store.UuidsNodup.writePersist {s : Store R V} (h : s.UuidsNodup) (cfg : PersistConfig R V) (target : Int)
    (upserts deletes : List (LogEntry R V)) (persistedAt seq : Int) :
    (s.writePersist cfg target upserts deletes persistedAt seq).UuidsNodup := by
  rw [writePersist_eq]
  refine writeSegments ?_ _
  unfold UuidsNodup
  rw [(insertParents_segments s _ persistedAt seq).1]
  exact h

theorem Store.UuidsNodup.persistLocked {s : Store R V} (h : s.UuidsNodup) (cfg : PersistConfig R V)
    (requestTarget : Option Int) (step1Now : Int) :
    (s.persistLocked cfg requestTarget step1Now).UuidsNodup := by
  rcases s.persistLocked_cases cfg requestTarget step1Now with heq | ⟨persistedAt, seq, -, heq⟩
  · rw [heq]
    exact h
  · rw [heq]
    exact h.writePersist cfg _ _ _ persistedAt seq

/-- Every operation keeps the segment uuids distinct, clobbering or not. -/
theorem Store.UuidsNodup.step [DecidableEq R] {cfg : PersistConfig R V} {s s' : Store R V} {o : Op R V}
    (hnodup : s.UuidsNodup) (h : Penca.step cfg s o = some s') : s'.UuidsNodup := by
  cases o with
  | commit micros rows =>
      simp only [Penca.step, Store.commitTx] at h
      split at h
      · split at h <;> exact Option.some.inj h ▸ hnodup
      · simp at h
  | persist requestTarget step1Now =>
      cases h
      exact hnodup.persistLocked cfg requestTarget step1Now
  | snapshot snapshottedAt indexes =>
      cases h
      unfold Store.snapshotLocked
      split <;> exact hnodup
  | purge =>
      cases h
      unfold Store.purgeLocked
      split <;> exact hnodup

/-! ## What a merge preserves -/

section Merge

variable {s s' : Store R V} {logKind : LogKind} {inputs : List PersistSegment}

theorem Store.mergeInto_eq_some {merged : List (LogEntry R V)} :
    s.mergeInto logKind inputs merged = some s' ↔ s.Mergeable logKind inputs ∧
      { s.putObject (.merged s.mergedFiles) merged with
        mergedFiles := s.mergedFiles + 1
        persistSegments := s.persistSegments.map
          (repointSegment (.merged s.mergedFiles) (mergedSlices 0 inputs)) } = s' := by
  unfold mergeInto
  split <;> simp_all

theorem Store.compactOneScope_eq_some :
    s.compactOneScope logKind inputs = some s' ↔ s.Mergeable logKind inputs ∧
      { s.putObject (.merged s.mergedFiles) (inputs.flatMap s.segmentRows) with
        mergedFiles := s.mergedFiles + 1
        persistSegments := s.persistSegments.map
          (repointSegment (.merged s.mergedFiles) (mergedSlices 0 inputs)) } = s' :=
  mergeInto_eq_some

/-- The files in use are older than the next merged file. -/
theorem Store.SegmentsOk.objectUri_ne (hok : s.SegmentsOk) {seg : PersistSegment}
    (hseg : seg ∈ s.persistSegments) : seg.objectUri ≠ .merged s.mergedFiles := by
  rcases hok.located seg hseg with hl | ⟨n, hn, hl⟩
  · rw [hl]
    simp
  · rw [hl]
    simp only [ne_eq, ObjectUri.merged.injEq]
    omega

section Into

variable {rows : PersistSegment → List (LogEntry R V)}
  (h : s.mergeInto logKind inputs (inputs.flatMap rows) = some s')
include h

theorem Store.UuidsNodup.mergeInto (hnodup : s.UuidsNodup) : s'.UuidsNodup := by
  obtain ⟨-, rfl⟩ := mergeInto_eq_some.mp h
  show ((s.persistSegments.map _).map _).Nodup
  rw [List.map_map]
  have hsame : (PersistSegment.uuid ∘ repointSegment (.merged s.mergedFiles) (mergedSlices 0 inputs)) =
      PersistSegment.uuid := funext (fun seg => repointSegment_uuid _ _ seg)
  rw [hsame]
  exact hnodup

/-- An input reads what was written for it and any other row what it read before, if the inputs are counted right and
    the merged file is new. -/
theorem Store.segmentRows_mergeInto (hnodup : s.UuidsNodup)
    (hfresh : ∀ seg ∈ s.persistSegments, seg.objectUri ≠ .merged s.mergedFiles)
    (hcount : ∀ seg ∈ inputs, seg.rowCount = (rows seg).length) {seg : PersistSegment}
    (hseg : seg ∈ s.persistSegments) :
    s'.segmentRows (repointSegment (.merged s.mergedFiles) (mergedSlices 0 inputs) seg) =
      if seg ∈ inputs then rows seg else s.segmentRows seg := by
  obtain ⟨⟨-, -, hinputs⟩, rfl⟩ := mergeInto_eq_some.mp h
  unfold repointSegment
  split
  · rename_i slice hlookup
    -- A repointed row reads its own slice of the merged file.
    have hmem : (seg.uuid, slice) ∈ mergedSlices ([] : List (LogEntry R V)).length inputs :=
      InFlight.mem_of_lookup hlookup
    obtain ⟨seg', hseg', hu, hread⟩ := readSlice_mergedSlices rows hcount [] _ hmem
    obtain rfl := hnodup.eq_of_uuid (hinputs seg' hseg').1 hseg hu
    rw [if_pos hseg', ← hread]
    simp [segmentRows, putObject]
  · -- An untouched row names an older file.
    rename_i hlookup
    have hnot : seg ∉ inputs := by
      intro hin
      have hsome := lookup_mergedSlices_isSome 0 inputs seg.uuid
      rw [hlookup, decide_eq_true (List.mem_map_of_mem hin)] at hsome
      cases hsome
    rw [if_neg hnot]
    simp [segmentRows, putObject, Function.update_of_ne (hfresh seg hseg)]

theorem Store.SegmentsOk.mergeInto (hok : s.SegmentsOk) (hnodup : s.UuidsNodup)
    (hlength : ∀ seg ∈ inputs, (rows seg).length = (s.segmentRows seg).length) : s'.SegmentsOk := by
  have hinputs := (mergeInto_eq_some.mp h).1.2.2
  have hcount : ∀ seg ∈ inputs, seg.rowCount = (rows seg).length :=
    fun seg hseg => (hok.counted seg (hinputs seg hseg).1).trans (hlength seg hseg).symm
  have hrows : ∀ seg ∈ s.persistSegments,
      (s'.segmentRows (repointSegment (.merged s.mergedFiles) (mergedSlices 0 inputs) seg)).length =
        (s.segmentRows seg).length := by
    intro seg hseg
    rw [segmentRows_mergeInto h hnodup (fun seg hseg => hok.objectUri_ne hseg) hcount hseg]
    split
    · exact hlength seg ‹_›
    · rfl
  obtain ⟨-, rfl⟩ := mergeInto_eq_some.mp h
  constructor
  case committed =>
    intro seg' hseg'
    obtain ⟨seg, hseg, rfl⟩ := List.mem_map.mp hseg'
    have := hok.committed seg hseg
    unfold repointSegment
    split <;> exact this
  case parent =>
    intro seg' hseg'
    obtain ⟨seg, hseg, rfl⟩ := List.mem_map.mp hseg'
    rw [repointSegment_uuid]
    exact hok.parent seg hseg
  case located =>
    intro seg' hseg'
    obtain ⟨seg, hseg, rfl⟩ := List.mem_map.mp hseg'
    unfold repointSegment
    split
    · exact Or.inr ⟨s.mergedFiles, Nat.lt_succ_self _, rfl⟩
    · rcases hok.located seg hseg with hl | ⟨n, hn, hl⟩
      · exact Or.inl hl
      · exact Or.inr ⟨n, Nat.lt_succ_of_lt hn, hl⟩
  case counted =>
    intro seg' hseg'
    obtain ⟨seg, hseg, rfl⟩ := List.mem_map.mp hseg'
    rw [hrows seg hseg, ← hok.counted seg hseg]
    unfold repointSegment
    split <;> rfl
  case nonempty =>
    intro v hv
    obtain ⟨seg', hseg', rfl⟩ := List.mem_map.mp hv
    obtain ⟨seg, hseg, rfl⟩ := List.mem_map.mp hseg'
    have hne := hok.nonempty (s.view seg) (List.mem_map_of_mem hseg)
    rw [← List.length_pos_iff] at hne ⊢
    exact (hrows seg hseg).symm ▸ hne

end Into

variable (h : s.compactOneScope logKind inputs = some s')
include h

section Ok

variable (hok : s.SegmentsOk) (hnodup : s.UuidsNodup)
include hok hnodup

theorem Store.segmentRows_compactOneScope {seg : PersistSegment} (hseg : seg ∈ s.persistSegments) :
    s'.segmentRows (repointSegment (.merged s.mergedFiles) (mergedSlices 0 inputs) seg) =
      s.segmentRows seg := by
  obtain ⟨⟨-, -, hinputs⟩, -⟩ := compactOneScope_eq_some.mp h
  rw [segmentRows_mergeInto h hnodup (fun seg hseg => hok.objectUri_ne hseg)
    (fun seg hseg => hok.counted seg (hinputs seg hseg).1) hseg, ite_self]

/-- **A merge changes no view.** -/
theorem Store.views_compactOneScope : s'.views = s.views := by
  have hrows := fun (seg : PersistSegment) hseg => segmentRows_compactOneScope h hok hnodup (hseg : seg ∈ _)
  obtain ⟨-, rfl⟩ := compactOneScope_eq_some.mp h
  show ((s.persistSegments.map _).map _) = s.persistSegments.map s.view
  rw [List.map_map]
  refine List.map_congr_left (fun seg hseg => ?_)
  have hseg := hrows seg hseg
  simp only [Function.comp, view] at hseg ⊢
  rw [hseg]
  unfold repointSegment
  split <;> rfl

end Ok

section WellFormed

variable (hwf : s.SegmentsWF) (hnodup : s.UuidsNodup)
include hwf hnodup

theorem Store.SegmentsWF.compactOneScope : s'.SegmentsWF := by
  refine (hwf.ok.mergeInto h hnodup (fun _ _ => rfl)).wf hwf ?_
  intro v hv
  rw [views_compactOneScope h hwf.ok hnodup] at hv
  exact .inl hv

/-- **Compaction** keeps the lifecycle invariant. -/
theorem Inv.compactOneScope [DecidableEq R] {H : History R V} (hinv : Inv s H) : Inv s' H := by
  have hwf' := hwf.compactOneScope h hnodup
  have hviews := Store.views_compactOneScope h hwf.ok hnodup
  obtain ⟨-, rfl⟩ := Store.compactOneScope_eq_some.mp h
  refine ⟨hinv.counter, hinv.log, hinv.hot, hinv.parents, hwf', ?_, ?_, hinv.attained, ?_, hinv.ordered,
    hinv.fenced⟩
  · rw [hviews]
    exact hinv.stored
  · rw [hviews]
    exact hinv.stored_iff
  · intro n hn
    have hsnap := hinv.snapshots n hn
    exact ⟨hsnap.bounded, hsnap.covered, hsnap.reaches⟩

end WellFormed

end Merge

/-! ## Runs with compactions -/

section Table

variable [DecidableEq R]

/-- An operation on the table, compaction included. -/
inductive TableOp (R V : Type) where
  | op (o : Op R V)
  | compact (logKind : LogKind) (inputs : List PersistSegment)

/-- One operation; `none` also when a wave cannot take these inputs. -/
def tableStep (cfg : PersistConfig R V) (s : Store R V) : TableOp R V → Option (Store R V)
  | .op o                   => step cfg s o
  | .compact logKind inputs => s.compactOneScope logKind inputs

def tableHistoryStep (H : History R V) : TableOp R V → History R V
  | .op o => historyStep H o
  | _     => H

/-- The history a run with compactions commits. -/
def tableHistoryOf (ops : List (TableOp R V)) : History R V := ops.foldl tableHistoryStep History.empty

/-- A Persist of the run does not clobber. -/
def TableNoClobber (cfg : PersistConfig R V) (s : Store R V) : TableOp R V → Prop
  | .op o => NoClobber cfg s o
  | _     => True

instance [DecidableEq V] (cfg : PersistConfig R V) (s : Store R V) : ∀ op, Decidable (TableNoClobber cfg s op)
  | .op o        => inferInstanceAs (Decidable (NoClobber cfg s o))
  | .compact _ _ => isTrue trivial

/-- Both guards on the operations of the run. -/
def TableKeepsRows (cfg : PersistConfig R V) (s : Store R V) : TableOp R V → Prop
  | .op o => KeepsRows cfg s o
  | _     => True

instance [DecidableEq V] (cfg : PersistConfig R V) (s : Store R V) : ∀ op, Decidable (TableKeepsRows cfg s op)
  | .op o        => inferInstanceAs (Decidable (KeepsRows cfg s o))
  | .compact _ _ => isTrue trivial

theorem TableKeepsRows.noClobber {cfg : PersistConfig R V} {s : Store R V} {op : TableOp R V}
    (h : TableKeepsRows cfg s op) : TableNoClobber cfg s op := by
  cases op with
  | op o => exact h.1
  | compact logKind inputs => trivial

theorem TableNoClobber.keepsRows {cfg : PersistConfig R V} {s : Store R V} {op : TableOp R V}
    (h : TableNoClobber cfg.unpartitioned s op) : TableKeepsRows cfg.unpartitioned s op := by
  cases op with
  | op o => exact ⟨h, rewritesReplaced_unpartitioned cfg s o⟩
  | compact logKind inputs => trivial

/-- The invariant of runs with compactions. -/
structure TableInv (s : Store R V) (H : History R V) : Prop extends Inv s H where
  uuids : s.UuidsNodup

theorem TableInv.step {cfg : PersistConfig R V} {s s' : Store R V} {H : History R V} {op : TableOp R V}
    (hinv : TableInv s H) (hnc : TableNoClobber cfg s op) (h : tableStep cfg s op = some s') :
    TableInv s' (tableHistoryStep H op) := by
  cases op with
  | op o => exact ⟨hinv.toInv.step hnc h, hinv.uuids.step h⟩
  | compact logKind inputs =>
      exact ⟨hinv.toInv.compactOneScope h hinv.segments hinv.uuids, hinv.uuids.mergeInto h⟩

/-- **Run.** A run with compactions whose Persists do not clobber ends in a state related to the history it
    committed. -/
theorem tableInv_run {cfg : PersistConfig R V} {ops : List (TableOp R V)} {s : Store R V}
    (hmeets : Runs.Meets (tableStep cfg) (TableNoClobber cfg) Store.init ops)
    (hrun : Runs.run (tableStep cfg) Store.init ops = some s) : TableInv s (tableHistoryOf ops) := by
  have hinit : TableInv (Store.init : Store R V) History.empty := ⟨Inv.init, List.nodup_nil⟩
  exact Runs.simulation_of_step (fun _ _ _ _ hinv hnc h => hinv.step hnc h) hinit hmeets hrun

/-- The contents of the snapshots: a merge leaves them alone. -/
theorem TableInv.replays_step {cfg : PersistConfig R V} {s s' : Store R V} {H : History R V} {op : TableOp R V}
    (hinv : TableInv s H) (hreplay : s.SnapshotsReplay H.log) (hok : TableKeepsRows cfg s op)
    (h : tableStep cfg s op = some s') : s'.SnapshotsReplay (tableHistoryStep H op).log := by
  cases op with
  | op o => exact hinv.toInv.replays_step hreplay hok.2 h
  | compact logKind inputs =>
      obtain ⟨-, rfl⟩ := Store.compactOneScope_eq_some.mp h
      exact hreplay

theorem TableInv.replays_run {cfg : PersistConfig R V} {ops : List (TableOp R V)} {s s' : Store R V} {H : History R V}
    (hinv : TableInv s H) (hreplay : s.SnapshotsReplay H.log)
    (hmeets : Runs.Meets (tableStep cfg) (TableKeepsRows cfg) s ops)
    (hrun : Runs.run (tableStep cfg) s ops = some s') : s'.SnapshotsReplay (ops.foldl tableHistoryStep H).log := by
  refine (Runs.simulation_of_step (R := fun s H => TableInv s H ∧ s.SnapshotsReplay H.log) ?_ ⟨hinv, hreplay⟩ hmeets
    hrun).2
  exact fun _ _ _ _ h hok hstep => ⟨h.1.step hok.noClobber hstep, h.1.replays_step h.2 hok hstep⟩

theorem tableReplays_run {cfg : PersistConfig R V} {ops : List (TableOp R V)} {s : Store R V}
    (hmeets : Runs.Meets (tableStep cfg) (TableKeepsRows cfg) Store.init ops)
    (hrun : Runs.run (tableStep cfg) Store.init ops = some s) : s.SnapshotsReplay (tableHistoryOf ops).log :=
  TableInv.replays_run ⟨Inv.init, List.nodup_nil⟩ (.init _) hmeets hrun

end Table

end Penca
