import Penca.Lib.Numbered
import Penca.Lifecycle.Segments
import Penca.TxLog.Collect

/-!
# `TxLog.Flush` — the cold copy of the commit log is complete

`persist_tx_log` reads the commit rows above `W_txlog`, records a segment, writes its file and commits the segment
in separate steps, any of which can be the last; a later run cleans up behind it. Meanwhile `PurgeTxLog` deletes
commit rows from the hot log. `ColdInv` says what both rely on:

- **The cold log.** The committed segments partition the numbers from the branch's first one up to `W_txlog`, and
  each file holds that stretch of the history (`Stored`).
- **The hot log** still has every commit past `W_txlog` (`kept`): the purge watermarks the committed cutoff comes
  from are all `Durable`, since a Persist calls `persist_tx_log` before it writes a segment. That is also why the
  cutoff need not be clamped when there is no cold log.
- **A call in flight** holds rows that continue the cold log without a gap (`Selected`), whatever commits or is
  deleted meanwhile.
-/

namespace Penca

open NumberedLog

variable {T X : Type}

namespace TxLogStore

/-! ## The invariant -/

/-- At or below `W_txlog`. -/
def Flushed (s : TxLogStore T X) (n : Int) : Prop := ∃ w, s.txLogPersistWatermark = some w ∧ n ≤ w

/-- Below the branch's first number, or in the cold log. -/
def Durable (seed : Nat) (s : TxLogStore T X) (n : Int) : Prop := n < seed ∨ s.Flushed n

/-- The rows are the stretch of the history between their first and last number. -/
def Stretch (s : TxLogStore T X) (row : CommitTxRow X) (rows : List (CommitTxRow X)) : Prop :=
  row :: rows = s.history.filter (fun c =>
    decide (row.commitSeqNum ≤ c.commitSeqNum) && decide (c.commitSeqNum ≤ maxSeq row rows))

/-- A committed segment describes a stretch of the history and its file holds it. -/
def Stored (s : TxLogStore T X) (seg : TxLogSegment) : Prop :=
  ∃ row rows, s.Stretch row rows ∧ seg = { newTxLogSegment row rows with committed := true } ∧
    s.txLogFiles seg.uuid = some ((row :: rows).map CommitTxRow.record)

/-- What a call in flight knows of the rows it has read. -/
structure Selected (s : TxLogStore T X) (f : Flush T X) (row : CommitTxRow X) (rows : List (CommitTxRow X)) : Prop where
  stretch : s.Stretch row rows
  above : ∀ seg ∈ s.txLogSegments, seg.committed = true → seg.maxCommitSeqNum < row.commitSeqNum
  gapless : ∀ c ∈ s.history, c.commitSeqNum ≤ maxSeq row rows →
    s.Flushed c.commitSeqNum ∨ row.commitSeqNum ≤ c.commitSeqNum
  reaches : f.caller.isSome = true → f.target ≤ maxSeq row rows

/-- No committed segment has the uuid. -/
def Uncommitted (s : TxLogStore T X) (uuid : Int) : Prop :=
  ∀ seg ∈ s.txLogSegments, seg.uuid = uuid → seg.committed = false

/-- What the locked part of `persist_tx_log` relies on. -/
def PhaseOk (s : TxLogStore T X) (f : Flush T X) : FlushPhase X → Prop
  | .locked                => True
  | .reclaiming uuids      => ∀ uuid ∈ uuids, s.Uncommitted uuid
  | .dropping uuid uuids   => s.Uncommitted uuid ∧ ∀ uuid ∈ uuids, s.Uncommitted uuid
  | .selecting wTxlog      => (∀ n, 0 ≤ n → (s.Flushed n ↔ n ≤ wTxlog)) ∧ wTxlog < f.target
  | .inserting row rows    => s.Selected f row rows
  | .writing row rows      => s.Selected f row rows ∧ newTxLogSegment row rows ∈ s.txLogSegments
  | .committing uuid       => ∃ row rows, uuid = maxSeq row rows ∧ s.Selected f row rows ∧
      newTxLogSegment row rows ∈ s.txLogSegments ∧ s.txLogFiles uuid = some ((row :: rows).map CommitTxRow.record)
  | .discarding uuid       => s.Uncommitted uuid
  | .forgetting uuid       => s.Uncommitted uuid

/-- A call in flight. -/
structure FlushOk (s : TxLogStore T X) (f : Flush T X) : Prop where
  target : f.caller.isSome = true → ∃ c ∈ s.history, c.commitSeqNum = f.target
  phase : s.PhaseOk f f.phase

end TxLogStore

/-- The committed cutoff of a `PurgeTxLog` call in flight. -/
def Collect.puCutoff : Collect → Option Int
  | .started _             => none
  | .watermarked _ cutoffs => cutoffs.puCutoff
  | .clamped _ cutoffs     => cutoffs.puCutoff

namespace TxLogStore

/-- The invariant of the cold side of a branch whose first number is `seed`. -/
structure ColdInv (seed : Nat) (s : TxLogStore T X) : Prop where
  numbered : Numbered (fun c : CommitTxRow X => c.commitSeqNum) seed s.history
  counter : s.commitSeqCounter = seed + s.history.length
  trimmed : s.commitTxLog.Sublist s.history
  kept : ∀ c ∈ s.history, c ∈ s.commitTxLog ∨ s.Flushed c.commitSeqNum
  /-- The hot log loses its oldest rows first. -/
  suffix : ∀ c ∈ s.commitTxLog, ∀ c' ∈ s.history, c.commitSeqNum < c'.commitSeqNum → c' ∈ s.commitTxLog
  uuids : (s.txLogSegments.map TxLogSegment.uuid).Nodup
  stored : ∀ seg ∈ s.txLogSegments, seg.committed = true → s.Stored seg
  disjoint : ∀ a ∈ s.txLogSegments, ∀ b ∈ s.txLogSegments, a.committed = true → b.committed = true →
    a.uuid ≠ b.uuid → a.maxCommitSeqNum < b.minCommitSeqNum ∨ b.maxCommitSeqNum < a.minCommitSeqNum
  covers : ∀ n, (seed : Int) ≤ n → s.Flushed n →
    ∃ seg ∈ s.txLogSegments, seg.committed = true ∧ seg.minCommitSeqNum ≤ n ∧ n ≤ seg.maxCommitSeqNum
  persisted : ∀ p ∈ s.persisted, s.Durable seed p.2
  snapshots : ∀ n ∈ s.tableSnapshots, s.Durable seed n.2
  purges : ∀ p ∈ s.tablePurges, ∀ pu, p.lastPurgedCommitSeqNum = some pu → s.Durable seed pu
  collecting : ∀ call, s.collect = some call → ∀ pu, call.puCutoff = some pu → s.Durable seed pu
  flushing : ∀ f, s.flush = some f → s.FlushOk f

theorem coldInv_seeded (clock seed : Nat) (inherited : ForkCopy T seed) :
    (seeded clock seed inherited : TxLogStore T X).ColdInv seed where
  numbered := NumberedLog.nil
  counter := (Int.add_zero (seed : Int)).symm
  trimmed := List.Sublist.refl _
  kept := by simp [seeded]
  suffix := by simp [seeded]
  uuids := List.nodup_nil
  stored := by simp [seeded]
  disjoint := by simp [seeded]
  covers := by
    rintro n - ⟨w, hw, -⟩
    simp [seeded, txLogPersistWatermark] at hw
  persisted := by
    intro p hp
    obtain ⟨q, -, rfl⟩ := List.mem_map.mp hp
    exact .inl (Int.ofNat_lt.mpr q.2.isLt)
  snapshots := by
    intro n hn
    obtain ⟨q, -, rfl⟩ := List.mem_map.mp hn
    exact .inl (Int.ofNat_lt.mpr q.2.isLt)
  purges := by
    intro p hp pu hpu
    obtain ⟨table, -, rfl⟩ := List.mem_map.mp hp
    cases hpu
    exact .inl (Int.sub_one_lt_of_le (le_refl _))
  collecting := by simp [seeded]
  flushing := by simp [seeded]

variable {seed : Nat} {s : TxLogStore T X}

/-! ## `W_txlog` -/

theorem flushed_iff {n : Int} :
    s.Flushed n ↔ ∃ seg ∈ s.txLogSegments, seg.committed = true ∧ n ≤ seg.maxCommitSeqNum := by
  constructor
  · rintro ⟨w, hw, hle⟩
    obtain ⟨seg, hseg, rfl⟩ := List.mem_map.mp (List.max?_eq_some_iff.mp hw).1
    obtain ⟨hmem, hcommitted⟩ := List.mem_filter.mp hseg
    exact ⟨seg, hmem, hcommitted, hle⟩
  · rintro ⟨seg, hseg, hcommitted, hle⟩
    have hin := List.mem_filter.mpr ⟨hseg, hcommitted⟩
    obtain ⟨m, -, hmax⟩ := exists_max?_map (f := TxLogSegment.maxCommitSeqNum) (List.ne_nil_of_mem hin)
    exact ⟨_, hmax, hle.trans (le_max?_map hmax hin)⟩

theorem Flushed.mono {m n : Int} (h : s.Flushed n) (hle : m ≤ n) : s.Flushed m := by
  obtain ⟨w, hw, hn⟩ := h
  exact ⟨w, hw, hle.trans hn⟩

theorem Durable.mono {m n : Int} (h : s.Durable seed n) (hle : m ≤ n) : s.Durable seed m := by
  rcases h with hlt | hflushed
  · exact .inl (hle.trans_lt hlt)
  · exact .inr (hflushed.mono hle)

theorem flushed_iff_le_getD {n : Int} (hn : 0 ≤ n) : s.Flushed n ↔ n ≤ s.txLogPersistWatermark.getD (-1) := by
  unfold Flushed
  cases s.txLogPersistWatermark with
  | none =>
      simp only [reduceCtorEq, false_and, exists_false, Option.getD_none, false_iff]
      omega
  | some w => simp

/-- What `persist_tx_log` takes to be covered already is durable. -/
theorem durable_of_le_getD {n : Int} (h : n ≤ s.txLogPersistWatermark.getD (-1)) : s.Durable seed n := by
  by_cases hn : 0 ≤ n
  · exact .inr ((flushed_iff_le_getD hn).mpr h)
  · exact .inl (by omega)

/-! ## Stretches of the history -/

section Stretches

variable (h : s.ColdInv seed)
include h

theorem ColdInv.commitSeqNum_bounds {c : CommitTxRow X} (hc : c ∈ s.history) :
    (seed : Int) ≤ c.commitSeqNum ∧ c.commitSeqNum < s.commitSeqCounter := by
  rw [h.counter]
  exact h.numbered.exists_key_iff.mp ⟨c, hc, rfl⟩

omit h in
theorem Stretch.mem_iff {row c : CommitTxRow X} {rows : List (CommitTxRow X)} (hs : s.Stretch row rows) :
    c ∈ row :: rows ↔ c ∈ s.history ∧ row.commitSeqNum ≤ c.commitSeqNum ∧ c.commitSeqNum ≤ maxSeq row rows := by
  rw [hs, List.mem_filter, Bool.and_eq_true, decide_eq_true_eq, decide_eq_true_eq]

omit h in
theorem Stretch.row_le {row : CommitTxRow X} {rows : List (CommitTxRow X)} (hs : s.Stretch row rows) :
    row.commitSeqNum ≤ maxSeq row rows := (hs.mem_iff.mp List.mem_cons_self).2.2

theorem ColdInv.maxSeq_lt {row : CommitTxRow X} {rows : List (CommitTxRow X)} (hs : s.Stretch row rows) :
    maxSeq row rows < s.commitSeqCounter :=
  (h.commitSeqNum_bounds (hs.mem_iff.mp (List.getLast_mem (List.cons_ne_nil row rows))).1).2

theorem ColdInv.segment_bounds {seg : TxLogSegment} (hseg : seg ∈ s.txLogSegments) (hc : seg.committed = true) :
    seg.uuid = seg.maxCommitSeqNum ∧ (seed : Int) ≤ seg.minCommitSeqNum ∧
      seg.minCommitSeqNum ≤ seg.maxCommitSeqNum ∧ seg.maxCommitSeqNum < s.commitSeqCounter := by
  obtain ⟨row, rows, hs, rfl, -⟩ := h.stored seg hseg hc
  exact ⟨rfl, (h.commitSeqNum_bounds (hs.mem_iff.mp List.mem_cons_self).1).1, hs.row_le, h.maxSeq_lt hs⟩

omit h in
/-- New commits come behind a stretch. -/
theorem Stretch.append {row c : CommitTxRow X} {rows : List (CommitTxRow X)} (hs : s.Stretch row rows)
    (hc : maxSeq row rows < c.commitSeqNum) {s' : TxLogStore T X} (hhistory : s'.history = s.history ++ [c]) :
    s'.Stretch row rows := by
  unfold Stretch at hs ⊢
  have hlast : [c].filter (fun c => decide (row.commitSeqNum ≤ c.commitSeqNum) &&
      decide (c.commitSeqNum ≤ maxSeq row rows)) = [] := by
    rw [List.filter_eq_nil_iff]
    intro c' hc'
    obtain rfl := List.mem_singleton.mp hc'
    simp only [Bool.and_eq_true, decide_eq_true_eq, not_and]
    omega
  rw [hhistory, List.filter_append, hlast, List.append_nil]
  exact hs

/-- The `SELECT` of `persist_tx_log` reads every commit above `W_txlog` up to the target. -/
theorem ColdInv.selectCommitRows_eq {wTxlog : Int} (hw : ∀ n, 0 ≤ n → (s.Flushed n ↔ n ≤ wTxlog)) (target : Int) :
    s.selectCommitRows wTxlog target = s.history.filter (fun c =>
      decide (wTxlog < c.commitSeqNum) && decide (c.commitSeqNum ≤ target)) := by
  have hfilter : s.commitTxLog.filter (fun c => decide (wTxlog < c.commitSeqNum) && decide (c.commitSeqNum ≤ target)) =
      s.history.filter (fun c => decide (wTxlog < c.commitSeqNum) && decide (c.commitSeqNum ≤ target)) := by
    refine filter_eq_of_sublist h.trimmed h.numbered.nodup (fun c hc hin => ?_)
    rw [Bool.and_eq_true, decide_eq_true_eq, decide_eq_true_eq] at hin
    have hnonneg : 0 ≤ c.commitSeqNum := by
      have := (h.commitSeqNum_bounds hc).1
      omega
    rcases h.kept c hc with hkept | hflushed
    · exact hkept
    · have := (hw _ hnonneg).mp hflushed
      omega
  have hsorted : (s.history.filter (fun c =>
      decide (wTxlog < c.commitSeqNum) && decide (c.commitSeqNum ≤ target))).Pairwise
        (fun a b => a.commitSeqNum ≤ b.commitSeqNum) := (h.numbered.pairwise.filter _).imp le_of_lt
  rw [selectCommitRows, hfilter, hsorted.insertionSort_eq]

theorem ColdInv.selected {f : Flush T X} {wTxlog : Int} (hw : ∀ n, 0 ≤ n → (s.Flushed n ↔ n ≤ wTxlog))
    (htarget : f.caller.isSome = true → ∃ c ∈ s.history, c.commitSeqNum = f.target) (hlt : wTxlog < f.target)
    {row : CommitTxRow X} {rows : List (CommitTxRow X)} (hrows : s.selectCommitRows wTxlog f.target = row :: rows) :
    s.Selected f row rows := by
  rw [h.selectCommitRows_eq hw] at hrows
  have hmem : ∀ c, c ∈ row :: rows ↔ c ∈ s.history ∧ wTxlog < c.commitSeqNum ∧ c.commitSeqNum ≤ f.target := by
    intro c
    rw [← hrows, List.mem_filter, Bool.and_eq_true, decide_eq_true_eq, decide_eq_true_eq]
  have hsorted : (row :: rows).Pairwise (fun a b => a.commitSeqNum < b.commitSeqNum) :=
    hrows ▸ h.numbered.pairwise.filter _
  have hrow := (hmem row).mp List.mem_cons_self
  constructor
  case stretch => exact filter_eq_of_ends h.numbered.pairwise hrows.symm
  case above =>
    intro seg hseg hc
    have hbounds := h.segment_bounds hseg hc
    have hle := (hw seg.maxCommitSeqNum (by omega)).mp (flushed_iff.mpr ⟨seg, hseg, hc, le_refl _⟩)
    omega
  case gapless =>
    intro c hc hle
    have hnonneg : 0 ≤ c.commitSeqNum := by
      have := (h.commitSeqNum_bounds hc).1
      omega
    by_cases hcw : c.commitSeqNum ≤ wTxlog
    · exact .inl ((hw _ hnonneg).mpr hcw)
    · have hlast := ((hmem _).mp (List.getLast_mem (List.cons_ne_nil row rows))).2.2
      have hin : c ∈ row :: rows := (hmem c).mpr ⟨hc, by omega, hle.trans hlast⟩
      exact .inr (key_bounds hsorted hin).1
  case reaches =>
    intro hcaller
    obtain ⟨c, hc, heq⟩ := htarget hcaller
    have hin : c ∈ row :: rows := (hmem c).mpr ⟨hc, by omega, by omega⟩
    exact heq ▸ (key_bounds hsorted hin).2

end Stretches

/-! ## Statements that leave the committed segments alone -/

section Statements

variable {segments : List TxLogSegment} {files : Int → Option (List TxLogRecord)}

/-- The committed segments and their files are the same. -/
structure SameCommitted (s s' : TxLogStore T X) : Prop where
  segments : ∀ seg, seg.committed = true → (seg ∈ s'.txLogSegments ↔ seg ∈ s.txLogSegments)
  files : ∀ seg ∈ s.txLogSegments, seg.committed = true → s'.txLogFiles seg.uuid = s.txLogFiles seg.uuid

theorem SameCommitted.flushed_iff {s' : TxLogStore T X} (hsame : s.SameCommitted s') {n : Int} :
    s'.Flushed n ↔ s.Flushed n := by
  rw [TxLogStore.flushed_iff, TxLogStore.flushed_iff]
  constructor
  · rintro ⟨seg, hseg, hc, hle⟩
    exact ⟨seg, (hsame.segments seg hc).mp hseg, hc, hle⟩
  · rintro ⟨seg, hseg, hc, hle⟩
    exact ⟨seg, (hsame.segments seg hc).mpr hseg, hc, hle⟩

theorem SameCommitted.durable_iff {s' : TxLogStore T X} (hsame : s.SameCommitted s') {n : Int} :
    s'.Durable seed n ↔ s.Durable seed n := or_congr Iff.rfl hsame.flushed_iff

theorem SameCommitted.selected {s' : TxLogStore T X} (hsame : s.SameCommitted s') (hhistory : s'.history = s.history)
    {f : Flush T X} {row : CommitTxRow X} {rows : List (CommitTxRow X)} (hsel : s.Selected f row rows) (phase : FlushPhase X) :
    s'.Selected { f with phase := phase } row rows where
  stretch := by
    unfold Stretch
    rw [hhistory]
    exact hsel.stretch
  above seg hseg hc := hsel.above seg ((hsame.segments seg hc).mp hseg) hc
  gapless c hc hle := by
    rw [hhistory] at hc
    exact (hsel.gapless c hc hle).imp_left hsame.flushed_iff.mpr
  reaches := hsel.reaches

theorem SameCommitted.uncommitted {s' : TxLogStore T X} (hsame : s.SameCommitted s') {uuid : Int}
    (hun : s.Uncommitted uuid) : s'.Uncommitted uuid := by
  intro seg hseg huuid
  by_contra hc
  rw [Bool.not_eq_false] at hc
  have := hun seg ((hsame.segments seg hc).mp hseg) huuid
  simp [this] at hc

/-- A statement that leaves the committed segments alone keeps the invariant, if the call goes on as it should. -/
theorem ColdInv.withCold (h : s.ColdInv seed) {flush : Option (Flush T X)}
    (hsame : s.SameCommitted { s with txLogSegments := segments, txLogFiles := files, flush := flush })
    (hnodup : (segments.map TxLogSegment.uuid).Nodup)
    (hflush : ∀ f, flush = some f →
      ({ s with txLogSegments := segments, txLogFiles := files, flush := flush } : TxLogStore T X).FlushOk f) :
    ({ s with txLogSegments := segments, txLogFiles := files, flush := flush } : TxLogStore T X).ColdInv seed :=
  { h with
    kept := fun c hc => (h.kept c hc).imp_right hsame.flushed_iff.mpr
    uuids := hnodup
    stored := by
      intro seg hseg hc
      have hold := (hsame.segments seg hc).mp hseg
      obtain ⟨row, rows, hs, heq, hfile⟩ := h.stored seg hold hc
      exact ⟨row, rows, hs, heq, (hsame.files seg hold hc).trans hfile⟩
    disjoint := fun a ha b hb hca hcb =>
      h.disjoint a ((hsame.segments a hca).mp ha) b ((hsame.segments b hcb).mp hb) hca hcb
    covers := by
      intro n hn hflushed
      obtain ⟨seg, hseg, hc, hin⟩ := h.covers n hn (hsame.flushed_iff.mp hflushed)
      exact ⟨seg, (hsame.segments seg hc).mpr hseg, hc, hin⟩
    persisted := fun p hp => hsame.durable_iff.mpr (h.persisted p hp)
    snapshots := fun n hn => hsame.durable_iff.mpr (h.snapshots n hn)
    purges := fun p hp pu hpu => hsame.durable_iff.mpr (h.purges p hp pu hpu)
    collecting := fun call hcall pu hpu => hsame.durable_iff.mpr (h.collecting call hcall pu hpu)
    flushing := hflush }

end Statements

/-! ## The statements of `persist_tx_log` -/

section Flushing

/-- What a phase relies on, in a state with the same segments and files. -/
theorem PhaseOk.imp {s' : TxLogStore T X} {f f' : Flush T X} {phase : FlushPhase X} (hphase : s.PhaseOk f phase)
    (hsegments : s'.txLogSegments = s.txLogSegments) (hfiles : s'.txLogFiles = s.txLogFiles)
    (htarget : f'.target = f.target) (hselected : ∀ row rows, s.Selected f row rows → s'.Selected f' row rows) :
    s'.PhaseOk f' phase := by
  have hflushed : ∀ n, s'.Flushed n ↔ s.Flushed n := by
    intro n
    rw [flushed_iff, flushed_iff, hsegments]
  have hun : ∀ uuid, s.Uncommitted uuid → s'.Uncommitted uuid := by
    intro uuid hun
    unfold Uncommitted
    rwa [hsegments]
  cases phase with
  | locked => trivial
  | reclaiming uuids => exact fun uuid huuid => hun uuid (hphase uuid huuid)
  | dropping uuid uuids => exact ⟨hun uuid hphase.1, fun uuid huuid => hun uuid (hphase.2 uuid huuid)⟩
  | selecting wTxlog => exact ⟨fun n hn => (hflushed n).trans (hphase.1 n hn), htarget ▸ hphase.2⟩
  | inserting row rows => exact hselected row rows hphase
  | writing row rows => exact ⟨hselected row rows hphase.1, hsegments ▸ hphase.2⟩
  | committing uuid =>
      obtain ⟨row, rows, huuid, hsel, hnew, hfile⟩ := hphase
      exact ⟨row, rows, huuid, hselected row rows hsel, hsegments ▸ hnew, hfiles ▸ hfile⟩
  | discarding uuid => exact hun uuid hphase
  | forgetting uuid => exact hun uuid hphase

/-- A state that differs in none of the things a call looks at. -/
theorem FlushOk.congr {s' : TxLogStore T X} {f : Flush T X} (hok : s.FlushOk f) (hhistory : s'.history = s.history)
    (hsegments : s'.txLogSegments = s.txLogSegments) (hfiles : s'.txLogFiles = s.txLogFiles) : s'.FlushOk f := by
  have hsame : s.SameCommitted s' := ⟨fun _ _ => by rw [hsegments], fun _ _ _ => by rw [hfiles]⟩
  exact ⟨hhistory ▸ hok.target,
    hok.phase.imp hsegments hfiles rfl (fun row rows hsel => hsame.selected hhistory hsel f.phase)⟩

theorem sameCommitted_setFile {uuid : Int} (hun : s.Uncommitted uuid) (content : Option (List TxLogRecord)) :
    s.SameCommitted (s.setFile uuid content) := by
  refine ⟨fun _ _ => Iff.rfl, ?_⟩
  intro seg hseg hc
  refine Function.update_of_ne ?_ _ _
  intro huuid
  simp [hun seg hseg huuid] at hc

theorem sameCommitted_deleteUncommitted (uuid : Int) : s.SameCommitted (s.deleteUncommittedTxLogSegment uuid) := by
  refine ⟨?_, fun _ _ _ => rfl⟩
  intro seg hc
  simp [deleteUncommittedTxLogSegment, hc]

theorem nodup_deleteUncommitted (hnodup : (s.txLogSegments.map TxLogSegment.uuid).Nodup) (uuid : Int) :
    ((s.deleteUncommittedTxLogSegment uuid).txLogSegments.map TxLogSegment.uuid).Nodup :=
  hnodup.sublist (List.filter_sublist.map _)

variable (h : s.ColdInv seed) {f : Flush T X}
include h

/-- The uuid of rows above the cold log is not that of a committed segment. -/
theorem ColdInv.uncommitted_maxSeq {row : CommitTxRow X} {rows : List (CommitTxRow X)} (hsel : s.Selected f row rows) :
    s.Uncommitted (maxSeq row rows) := by
  intro seg hseg huuid
  by_contra hc
  rw [Bool.not_eq_false] at hc
  have habove := hsel.above seg hseg hc
  have hbounds := h.segment_bounds hseg hc
  have hle := hsel.stretch.row_le
  omega

/-- The insert adds the uncommitted row, in place of one a crashed run left. -/
theorem ColdInv.insertTxLogSegment {row : CommitTxRow X} {rows : List (CommitTxRow X)} (hsel : s.Selected f row rows) :
    s.SameCommitted (s.insertTxLogSegment (newTxLogSegment row rows)) ∧
      ((s.insertTxLogSegment (newTxLogSegment row rows)).txLogSegments.map TxLogSegment.uuid).Nodup ∧
        newTxLogSegment row rows ∈ (s.insertTxLogSegment (newTxLogSegment row rows)).txLogSegments := by
  have hun := h.uncommitted_maxSeq hsel
  have hkey : ∀ seg, TxLogSegment.uuid ((newTxLogSegment row rows).replacedBy seg) = seg.uuid := fun _ => rfl
  refine ⟨⟨?_, fun _ _ _ => rfl⟩, Keyed.nodup_upsert hkey h.uuids, ?_⟩
  · intro seg hc
    rw [TxLogStore.insertTxLogSegment, Keyed.mem_upsert]
    constructor
    · rintro (⟨hseg, -⟩ | ⟨old, hold, huuid, rfl⟩ | ⟨-, rfl⟩)
      · exact hseg
      · have hfalse : old.committed = false := hun old hold huuid
        have htrue : old.committed = true := hc
        simp [hfalse] at htrue
      · cases hc
    · intro hseg
      refine .inl ⟨hseg, ?_⟩
      intro huuid
      simp [hun seg hseg huuid] at hc
  · rw [TxLogStore.insertTxLogSegment, Keyed.mem_upsert]
    by_cases hfree : ∀ z ∈ s.txLogSegments, z.uuid ≠ (newTxLogSegment row rows).uuid
    · exact .inr (.inr ⟨hfree, rfl⟩)
    · push Not at hfree
      obtain ⟨old, hold, huuid⟩ := hfree
      have hfalse : old.committed = false := hun old hold huuid
      refine .inr (.inl ⟨old, hold, huuid, ?_⟩)
      rw [TxLogSegment.replacedBy, huuid, hfalse]
      rfl

variable (hf : s.flush = some f)
include hf

theorem ColdInv.goesOn {segments : List TxLogSegment} {files : Int → Option (List TxLogRecord)} {phase : FlushPhase X}
    (hsame : s.SameCommitted { s with txLogSegments := segments, txLogFiles := files })
    (hnodup : (segments.map TxLogSegment.uuid).Nodup)
    (hphase : ({ s with txLogSegments := segments, txLogFiles := files } : TxLogStore T X).PhaseOk f phase) :
    (({ s with txLogSegments := segments, txLogFiles := files } : TxLogStore T X).setPhase f phase).ColdInv seed := by
  refine h.withCold ⟨hsame.segments, hsame.files⟩ hnodup ?_
  rintro g ⟨⟩
  refine ⟨(h.flushing f hf).target, hphase.imp rfl rfl rfl ?_⟩
  intro row rows hsel
  exact ⟨hsel.stretch, hsel.above, hsel.gapless, hsel.reaches⟩

theorem ColdInv.setPhase {phase : FlushPhase X} (hphase : s.PhaseOk f phase) : (s.setPhase f phase).ColdInv seed :=
  h.goesOn hf ⟨fun _ _ => Iff.rfl, fun _ _ _ => rfl⟩ h.uuids hphase

omit hf in
/-- The call ends with an error. -/
theorem ColdInv.fails {segments : List TxLogSegment}
    (hsame : s.SameCommitted { s with txLogSegments := segments }) (hnodup : (segments.map TxLogSegment.uuid).Nodup) :
    ({ s with txLogSegments := segments, flush := none } : TxLogStore T X).ColdInv seed :=
  h.withCold ⟨hsame.segments, hsame.files⟩ hnodup (fun _ hg => nomatch hg)

omit hf in
/-- What a returned call lets its Persist write is durable, if the target is. -/
theorem ColdInv.persisted_returnOk {caller : Option T} {target : Int}
    (htarget : caller.isSome = true → s.Durable seed target) :
    ∀ p ∈ caller.elim s.persisted (fun table => s.persisted ++ [(table, target)]), s.Durable seed p.2 := by
  intro p hp
  cases caller with
  | none => exact h.persisted p hp
  | some table =>
      rcases List.mem_append.mp hp with hp | hp
      · exact h.persisted p hp
      · rw [List.mem_singleton.mp hp]
        exact htarget rfl

omit hf in
theorem ColdInv.returnOk {caller : Option T} {target : Int} (htarget : caller.isSome = true → s.Durable seed target) :
    (s.returnOk caller target).ColdInv seed :=
  { h with
    persisted := h.persisted_returnOk htarget
    flushing := fun _ hg => nomatch hg }

omit hf in
/-- The committed segments after the commit: those from before and the new one. -/
theorem ColdInv.mem_commitTxLogSegment {row : CommitTxRow X} {rows : List (CommitTxRow X)} (hsel : s.Selected f row rows)
    (hnew : newTxLogSegment row rows ∈ s.txLogSegments) {seg : TxLogSegment} :
    seg ∈ (s.commitTxLogSegment (maxSeq row rows)).txLogSegments ∧ seg.committed = true ↔
      (seg ∈ s.txLogSegments ∧ seg.committed = true) ∨ seg = { newTxLogSegment row rows with committed := true } := by
  have hun := h.uncommitted_maxSeq hsel
  rw [TxLogStore.commitTxLogSegment, Keyed.mem_update]
  constructor
  · rintro ⟨⟨hseg, -⟩ | ⟨old, hold, huuid, rfl⟩, hc⟩
    · exact .inl ⟨hseg, hc⟩
    · have heq : old = newTxLogSegment row rows := List.inj_on_of_nodup_map h.uuids hold hnew huuid
      rw [heq]
      exact .inr rfl
  · rintro (⟨hseg, hc⟩ | rfl)
    · refine ⟨.inl ⟨hseg, ?_⟩, hc⟩
      intro huuid
      simp [hun seg hseg huuid] at hc
    · exact ⟨.inr ⟨_, hnew, rfl, rfl⟩, rfl⟩

omit hf in
/-- **The commit extends the cold log** by the rows of the new segment. -/
theorem ColdInv.commitTxLogSegment {row : CommitTxRow X} {rows : List (CommitTxRow X)} (hsel : s.Selected f row rows)
    (hnew : newTxLogSegment row rows ∈ s.txLogSegments)
    (hfile : s.txLogFiles (maxSeq row rows) = some ((row :: rows).map CommitTxRow.record)) :
    ({ s.commitTxLogSegment (maxSeq row rows) with flush := none } : TxLogStore T X).ColdInv seed ∧
      (s.commitTxLogSegment (maxSeq row rows)).Flushed (maxSeq row rows) := by
  have hmem : ∀ seg, seg ∈ (s.commitTxLogSegment (maxSeq row rows)).txLogSegments ∧ seg.committed = true ↔ _ :=
    fun seg => h.mem_commitTxLogSegment hsel hnew
  have hflushed : ∀ n, (s.commitTxLogSegment (maxSeq row rows)).Flushed n ↔ s.Flushed n ∨ n ≤ maxSeq row rows := by
    intro n
    rw [flushed_iff, flushed_iff]
    constructor
    · rintro ⟨seg, hseg, hc, hle⟩
      rcases (hmem seg).mp ⟨hseg, hc⟩ with ⟨hold, -⟩ | rfl
      · exact .inl ⟨seg, hold, hc, hle⟩
      · exact .inr hle
    · rintro (⟨seg, hseg, hc, hle⟩ | hle)
      · exact ⟨seg, ((hmem seg).mpr (.inl ⟨hseg, hc⟩)).1, hc, hle⟩
      · exact ⟨_, ((hmem _).mpr (.inr rfl)).1, rfl, hle⟩
  have hdurable : ∀ n, s.Durable seed n → (s.commitTxLogSegment (maxSeq row rows)).Durable seed n :=
    fun n hn => hn.imp_right (fun hfl => (hflushed n).mpr (.inl hfl))
  refine ⟨?_, (hflushed _).mpr (.inr (le_refl _))⟩
  constructor
  case numbered => exact h.numbered
  case counter => exact h.counter
  case trimmed => exact h.trimmed
  case kept => exact fun c hc => (h.kept c hc).imp_right (fun hfl => (hflushed _).mpr (.inl hfl))
  case suffix => exact h.suffix
  case uuids =>
    have hkeys : (s.commitTxLogSegment (maxSeq row rows)).txLogSegments.map TxLogSegment.uuid =
        s.txLogSegments.map TxLogSegment.uuid := by
      have hkey : ∀ seg : TxLogSegment, TxLogSegment.uuid { seg with committed := true } = seg.uuid := fun _ => rfl
      exact Keyed.map_key_update hkey s.txLogSegments
    exact hkeys ▸ h.uuids
  case stored =>
    intro seg hseg hc
    rcases (hmem seg).mp ⟨hseg, hc⟩ with ⟨hold, -⟩ | rfl
    · exact h.stored seg hold hc
    · exact ⟨row, rows, hsel.stretch, rfl, hfile⟩
  case disjoint =>
    intro a ha b hb hca hcb hne
    rcases (hmem a).mp ⟨ha, hca⟩ with ⟨hold, -⟩ | rfl <;> rcases (hmem b).mp ⟨hb, hcb⟩ with ⟨hold', -⟩ | rfl
    · exact h.disjoint a hold b hold' hca hcb hne
    · exact .inl (hsel.above a hold hca)
    · exact .inr (hsel.above b hold' hcb)
    · exact absurd rfl hne
  case covers =>
    intro n hn hfl
    rcases (hflushed n).mp hfl with hfl | hle
    · obtain ⟨seg, hseg, hc, hin⟩ := h.covers n hn hfl
      exact ⟨seg, ((hmem seg).mpr (.inl ⟨hseg, hc⟩)).1, hc, hin⟩
    · -- The number is committed, so it is in the cold log already or among the rows.
      have hlt := h.maxSeq_lt hsel.stretch
      obtain ⟨c, hc, rfl⟩ := h.numbered.exists_key_iff.mpr ⟨hn, by have := h.counter; omega⟩
      rcases hsel.gapless c hc hle with hfl | hge
      · obtain ⟨seg, hseg, hcs, hin⟩ := h.covers _ hn hfl
        exact ⟨seg, ((hmem seg).mpr (.inl ⟨hseg, hcs⟩)).1, hcs, hin⟩
      · exact ⟨_, ((hmem _).mpr (.inr rfl)).1, rfl, hge, hle⟩
  case persisted => exact fun p hp => hdurable _ (h.persisted p hp)
  case snapshots => exact fun n hn => hdurable _ (h.snapshots n hn)
  case purges => exact fun p hp pu hpu => hdurable _ (h.purges p hp pu hpu)
  case collecting => exact fun call hcall pu hpu => hdurable _ (h.collecting call hcall pu hpu)
  case flushing => exact fun _ hg => nomatch hg

/-- Every statement of `persist_tx_log` keeps the invariant, whichever way it ends. -/
theorem ColdInv.flushStatement (outcome : Outcome) : (s.flushStatement f outcome).ColdInv seed := by
  obtain ⟨htarget, hphase⟩ := h.flushing f hf
  have hsegments : s.SameCommitted { s with txLogSegments := s.txLogSegments } := ⟨fun _ _ => Iff.rfl, fun _ _ _ => rfl⟩
  cases outcome with
  | done =>
      cases hp : f.phase with
      | locked =>
          simp only [TxLogStore.flushStatement, hp]
          refine h.setPhase hf ?_
          intro uuid huuid seg hseg heq
          obtain ⟨other, hother, rfl⟩ := List.mem_map.mp huuid
          obtain ⟨hmem, hc⟩ := List.mem_filter.mp hother
          obtain rfl := List.inj_on_of_nodup_map h.uuids hseg hmem heq
          simpa using hc
      | reclaiming uuids =>
          rw [hp] at hphase
          cases uuids with
          | nil =>
              simp only [TxLogStore.flushStatement, hp]
              split
              · rename_i hle
                exact h.returnOk (fun _ => durable_of_le_getD hle)
              · rename_i hlt
                exact h.setPhase hf ⟨fun n hn => flushed_iff_le_getD hn, by omega⟩
          | cons uuid uuids =>
              simp only [TxLogStore.flushStatement, hp]
              have hun := hphase uuid List.mem_cons_self
              have hsame := sameCommitted_setFile hun none
              exact h.goesOn hf hsame h.uuids
                ⟨hsame.uncommitted hun, fun u hu => hsame.uncommitted (hphase u (List.mem_cons_of_mem _ hu))⟩
      | dropping uuid uuids =>
          rw [hp] at hphase
          simp only [TxLogStore.flushStatement, hp]
          have hsame := sameCommitted_deleteUncommitted (s := s) uuid
          exact h.goesOn hf hsame (nodup_deleteUncommitted h.uuids uuid) (fun u hu => hsame.uncommitted (hphase.2 u hu))
      | selecting wTxlog =>
          rw [hp] at hphase
          simp only [TxLogStore.flushStatement, hp]
          split
          · rename_i hnil
            -- No row to copy: a Persist's own target would be one.
            refine h.returnOk (fun hcaller => ?_)
            obtain ⟨c, hc, heq⟩ := htarget hcaller
            rw [h.selectCommitRows_eq hphase.1, List.filter_eq_nil_iff] at hnil
            have hnot := hnil c hc
            simp only [Bool.and_eq_true, decide_eq_true_eq, not_and] at hnot
            have := hphase.2
            omega
          · rename_i row rows hrows
            exact h.setPhase hf (h.selected hphase.1 htarget hphase.2 hrows)
      | inserting row rows =>
          rw [hp] at hphase
          simp only [TxLogStore.flushStatement, hp]
          have hsel : s.Selected f row rows := hphase
          obtain ⟨hsame, hnodup, hnew⟩ := h.insertTxLogSegment hsel
          exact h.goesOn hf hsame hnodup ⟨hsame.selected rfl hsel f.phase, hnew⟩
      | writing row rows =>
          rw [hp] at hphase
          simp only [TxLogStore.flushStatement, hp]
          have hsame := sameCommitted_setFile (h.uncommitted_maxSeq hphase.1)
            (some ((row :: rows).map CommitTxRow.record))
          exact h.goesOn hf hsame h.uuids
            ⟨row, rows, rfl, hsame.selected rfl hphase.1 f.phase, hphase.2, Function.update_self _ _ _⟩
      | committing uuid =>
          rw [hp] at hphase
          simp only [TxLogStore.flushStatement, hp]
          obtain ⟨row, rows, rfl, hsel, hnew, hfile⟩ := hphase
          obtain ⟨hinv, hflushed⟩ := h.commitTxLogSegment hsel hnew hfile
          exact hinv.returnOk (fun hcaller => .inr (hflushed.mono (hsel.reaches hcaller)))
      | discarding uuid =>
          rw [hp] at hphase
          simp only [TxLogStore.flushStatement, hp]
          have hsame := sameCommitted_setFile hphase none
          exact h.goesOn hf hsame h.uuids (hsame.uncommitted hphase)
      | forgetting uuid =>
          simp only [TxLogStore.flushStatement, hp]
          exact h.fails (sameCommitted_deleteUncommitted uuid) (nodup_deleteUncommitted h.uuids uuid)
  | failed left =>
      cases hp : f.phase with
      | reclaiming uuids =>
          rw [hp] at hphase
          cases uuids with
          | nil =>
              simp only [TxLogStore.flushStatement, hp]
              exact h.fails hsegments h.uuids
          | cons uuid uuids =>
              simp only [TxLogStore.flushStatement, hp]
              have hsame := sameCommitted_setFile (hphase uuid List.mem_cons_self) left
              exact h.goesOn hf hsame h.uuids (fun u hu => hsame.uncommitted (hphase u (List.mem_cons_of_mem _ hu)))
      | dropping uuid uuids =>
          rw [hp] at hphase
          simp only [TxLogStore.flushStatement, hp]
          exact h.setPhase hf hphase.2
      | writing row rows =>
          rw [hp] at hphase
          simp only [TxLogStore.flushStatement, hp]
          have hun := h.uncommitted_maxSeq hphase.1
          have hsame := sameCommitted_setFile hun left
          exact h.goesOn hf hsame h.uuids (hsame.uncommitted hun)
      | discarding uuid =>
          rw [hp] at hphase
          simp only [TxLogStore.flushStatement, hp]
          have hsame := sameCommitted_setFile hphase left
          exact h.goesOn hf hsame h.uuids (hsame.uncommitted hphase)
      | locked | selecting wTxlog | inserting row rows | committing uuid | forgetting uuid =>
          simp only [TxLogStore.flushStatement, hp]
          exact h.fails hsegments h.uuids

end Flushing

/-! ## Commits and deletes -/

section Commits

variable (h : s.ColdInv seed)

/-- What a call in flight relies on survives a commit. -/
theorem FlushOk.append {f : Flush T X} (hok : s.FlushOk f) (h : s.ColdInv seed) {c : CommitTxRow X}
    (hc : c.commitSeqNum = s.commitSeqCounter) {s' : TxLogStore T X} (hhistory : s'.history = s.history ++ [c])
    (hsegments : s'.txLogSegments = s.txLogSegments) (hfiles : s'.txLogFiles = s.txLogFiles) : s'.FlushOk f := by
  have hsame : s.SameCommitted s' := ⟨fun _ _ => by rw [hsegments], fun _ _ _ => by rw [hfiles]⟩
  constructor
  case target =>
    intro hcaller
    obtain ⟨c', hc', heq⟩ := hok.target hcaller
    exact ⟨c', hhistory ▸ List.mem_append_left _ hc', heq⟩
  case phase =>
    refine hok.phase.imp hsegments hfiles rfl ?_
    intro row rows hsel
    have hlt := h.maxSeq_lt hsel.stretch
    refine ⟨hsel.stretch.append (by omega) hhistory, ?_, ?_, hsel.reaches⟩
    · rw [hsegments]
      exact hsel.above
    · intro c' hc' hle
      rw [hhistory, List.mem_append, List.mem_singleton] at hc'
      rcases hc' with hc' | rfl
      · exact (hsel.gapless c' hc' hle).imp_left hsame.flushed_iff.mpr
      · omega

include h

theorem ColdInv.insertCommit (tx : X) (comment author : String) : (s.insertCommit tx comment author).ColdInv seed :=
  { h with
    numbered := h.numbered.append h.counter
    counter := by
      show s.commitSeqCounter + 1 = seed + ((s.history ++ [s.nextCommit tx comment author]).length : Int)
      rw [List.length_append, List.length_singleton, h.counter]
      omega
    trimmed := h.trimmed.append (List.Sublist.refl _)
    kept := by
      intro c hc
      rcases List.mem_append.mp hc with hc | hc
      · exact (h.kept c hc).imp_left (List.mem_append_left _)
      · exact .inl (List.mem_append_right _ hc)
    suffix := by
      intro c hc c' hc' hlt
      rcases List.mem_append.mp hc' with hc' | hc'
      · rcases List.mem_append.mp hc with hc | hc
        · exact List.mem_append_left _ (h.suffix c hc c' hc' hlt)
        · rw [List.mem_singleton.mp hc] at hlt
          exact absurd hlt (h.commitSeqNum_bounds hc').2.not_gt
      · exact List.mem_append_right _ hc'
    stored := by
      intro seg hseg hcommitted
      obtain ⟨row, rows, hs, heq, hfile⟩ := h.stored seg hseg hcommitted
      have hlt := h.maxSeq_lt hs
      exact ⟨row, rows, hs.append hlt rfl, heq, hfile⟩
    flushing := fun f hf => (h.flushing f hf).append h rfl rfl rfl rfl }

variable [DecidableEq X]

/-- `PurgeTxLog` deletes commit rows up to its committed cutoff, which is durable. -/
theorem ColdInv.deleteTxs (hhot : s.HotInv) {startedAt grace : Int} {cutoffs : PurgeTxLogCutoffs}
    (hcutoff : ∀ pu, cutoffs.puCutoff = some pu → s.Durable seed pu) :
    (s.deleteTxs (s.eligible cutoffs startedAt grace)).ColdInv seed :=
  { h with
    trimmed := List.filter_sublist.trans h.trimmed
    kept := by
      intro c hc
      rcases h.kept c hc with hin | hflushed
      · by_cases hdoomed : c.txUuid ∈ s.eligible cutoffs startedAt grace
        · obtain ⟨pu, hpu, hle⟩ := hhot.le_puCutoff hin hdoomed
          rcases (hcutoff pu hpu).mono hle with hlt | hflushed
          · have := (h.commitSeqNum_bounds hc).1
            omega
          · exact .inr hflushed
        · exact .inl (List.mem_filter.mpr ⟨hin, decide_eq_true hdoomed⟩)
      · exact .inr hflushed
    suffix := by
      intro c hc c' hc' hlt
      obtain ⟨hin, hkept⟩ := List.mem_filter.mp hc
      have hin' := h.suffix c hin c' hc' hlt
      refine List.mem_filter.mpr ⟨hin', decide_eq_true ?_⟩
      intro hdoomed
      -- What takes the later row takes the earlier one too.
      obtain ⟨pu, hpu, hle⟩ := hhot.le_puCutoff hin' hdoomed
      have hbelow : c.txUuid ∈ s.committedUpTo pu :=
        List.mem_map_of_mem (List.mem_filter.mpr ⟨hin, decide_eq_true (hlt.le.trans hle)⟩)
      refine of_decide_eq_true hkept ?_
      simp only [eligible, hpu, Option.elim_some, List.mem_append]
      exact .inl (.inl (.inl hbelow))
    flushing := fun f hf => (h.flushing f hf).congr rfl rfl rfl }

end Commits

/-! ## Every event -/

section Events

variable [DecidableEq T] [DecidableEq X]

/-- A purge row carries the `W_snap` of a snapshot. -/
theorem ColdInv.purge (h : s.ColdInv seed) (table : T) : (s.purge table).ColdInv seed := by
  unfold TxLogStore.purge
  dsimp only
  split
  · exact { h with flushing := fun f hf => (h.flushing f hf).congr rfl rfl rfl }
  · refine { h with
      purges := ?_
      flushing := fun f hf => (h.flushing f hf).congr rfl rfl rfl }
    intro p hp pu hpu
    rcases List.mem_append.mp hp with hp | hp
    · exact h.purges p hp pu hpu
    · rw [List.mem_singleton.mp hp] at hpu
      obtain ⟨n, hn, rfl⟩ := List.mem_map.mp (List.max?_eq_some_iff.mp (eq_of_computePurgeWatermark hpu)).1
      exact h.snapshots n (List.mem_filter.mp hn).1

/-- The committed cutoff is at or below the `Pu` of some table. -/
theorem ColdInv.durable_puCutoff (h : s.ColdInv seed) {startedAt pu : Int}
    (hpu : (computePurgeTxLogCutoffs (s.purgeWatermarksForBranch startedAt)).puCutoff = some pu) :
    s.Durable seed pu := by
  rw [puCutoff_eq] at hpu
  obtain ⟨⟨table, v, hv, hle⟩, -⟩ := of_branchMinWatermark hpu
  obtain ⟨p, hp, -, -, hpv⟩ := exists_purge_of_purgeSeqWatermark hv
  exact (h.purges p hp v hpv).mono hle

theorem ColdInv.collectStatement (h : s.ColdInv seed) (hhot : s.HotInv) (cfg : LifecycleConfig) {call : Collect}
    (hcall : s.collect = some call) : (s.collectStatement cfg call).ColdInv seed := by
  cases call with
  | started startedAt =>
      refine { h with
        collecting := ?_
        flushing := fun f hf => (h.flushing f hf).congr rfl rfl rfl }
      rintro call ⟨⟩ pu hpu
      exact h.durable_puCutoff hpu
  | watermarked startedAt cutoffs =>
      refine { h with
        collecting := ?_
        flushing := fun f hf => (h.flushing f hf).congr rfl rfl rfl }
      rintro call ⟨⟩ pu hpu
      obtain ⟨pu', hpu', hle⟩ := cutoffs.le_of_clamp hpu
      exact (h.collecting _ hcall pu' hpu').mono hle
  | clamped startedAt cutoffs =>
      have hdeleted : (s.deleteTxs (s.eligible cutoffs startedAt cfg.expiredBeginGraceMicros)).ColdInv seed :=
        h.deleteTxs hhot (h.collecting _ hcall)
      exact { hdeleted with
        collecting := fun _ hnone => nomatch hnone
        flushing := fun f hf => (hdeleted.flushing f hf).congr rfl rfl rfl }

theorem ColdInv.step (h : s.ColdInv seed) (hhot : s.HotInv) {cfg : LifecycleConfig} {ev : TxLogEvent T X}
    {s' : TxLogStore T X} (hstep : txLogStep cfg s ev = some s') : s'.ColdInv seed := by
  cases ev with
  | tick now =>
      simp only [txLogStep, Option.ite_none_right_eq_some, Option.some.injEq] at hstep
      obtain ⟨-, rfl⟩ := hstep
      exact { h with flushing := fun f hf => (h.flushing f hf).congr rfl rfl rfl }
  | beginTx tx timeoutMicros comment author =>
      simp only [txLogStep, Option.ite_none_right_eq_some, Option.some.injEq] at hstep
      obtain ⟨-, rfl⟩ := hstep
      exact { h with flushing := fun f hf => (h.flushing f hf).congr rfl rfl rfl }
  | writeData tx table log =>
      simp only [txLogStep, Option.ite_none_right_eq_some, Option.some.injEq] at hstep
      obtain ⟨-, rfl⟩ := hstep
      exact { h with flushing := fun f hf => (h.flushing f hf).congr rfl rfl rfl }
  | commitTx tx =>
      simp only [txLogStep, Option.map_eq_some_iff] at hstep
      obtain ⟨b, -, rfl⟩ := hstep
      split
      · exact h
      · exact h.insertCommit tx _ _
  | abortTx tx =>
      simp only [txLogStep, Option.ite_none_right_eq_some, Option.some.injEq] at hstep
      obtain ⟨-, rfl⟩ := hstep
      exact { h with flushing := fun f hf => (h.flushing f hf).congr rfl rfl rfl }
  | autoCommit tx rows comment author =>
      simp only [txLogStep, Option.ite_none_right_eq_some, Option.some.injEq] at hstep
      obtain ⟨-, rfl⟩ := hstep
      split
      · exact h
      · have hwritten : (s.insertHotRows tx rows).ColdInv seed :=
          { h with flushing := fun f hf => (h.flushing f hf).congr rfl rfl rfl }
        exact hwritten.insertCommit tx _ _
  | snapshot table commitSeqNum =>
      simp only [txLogStep, Option.ite_none_right_eq_some, Option.some.injEq] at hstep
      obtain ⟨hany, rfl⟩ := hstep
      obtain ⟨p, hp, hcond⟩ := List.any_eq_true.mp hany
      rw [Bool.and_eq_true, decide_eq_true_eq, decide_eq_true_eq] at hcond
      refine { h with
        snapshots := ?_
        flushing := fun f hf => (h.flushing f hf).congr rfl rfl rfl }
      intro n hn
      rcases List.mem_append.mp hn with hn | hn
      · exact h.snapshots n hn
      · rw [List.mem_singleton.mp hn]
        exact (h.persisted p hp).mono hcond.2
  | purge table =>
      obtain rfl := Option.some.inj hstep
      exact h.purge table
  | persistTxLog caller target =>
      simp only [txLogStep, Option.ite_none_right_eq_some] at hstep
      obtain ⟨-, hstep⟩ := hstep
      split at hstep
      · rename_i hle
        obtain rfl := Option.some.inj hstep
        exact { h with
          persisted := h.persisted_returnOk (fun _ => durable_of_le_getD hle)
          flushing := fun f hf => (h.flushing f hf).congr rfl rfl rfl }
      · obtain rfl := Option.some.inj hstep
        exact h
  | lockTxLog caller target =>
      simp only [txLogStep, Option.ite_none_right_eq_some, Option.some.injEq, Bool.and_eq_true] at hstep
      obtain ⟨⟨hok, -⟩, rfl⟩ := hstep
      refine { h with flushing := ?_ }
      rintro f ⟨⟩
      refine ⟨?_, trivial⟩
      intro hcaller
      rw [admitsFlush, Bool.or_eq_true] at hok
      rcases hok with hnone | hany
      · simp [Option.isNone_iff_eq_none.mp hnone] at hcaller
      · obtain ⟨c, hc, heq⟩ := List.any_eq_true.mp hany
        exact ⟨c, hc, of_decide_eq_true heq⟩
  | flushStatement outcome =>
      simp only [txLogStep, Option.map_eq_some_iff] at hstep
      obtain ⟨f, hf, rfl⟩ := hstep
      exact h.flushStatement hf outcome
  | flushStops =>
      obtain rfl := Option.some.inj hstep
      exact { h with flushing := fun _ hf => by cases hf }
  | purgeTxLog =>
      simp only [txLogStep, Option.ite_none_right_eq_some, Option.some.injEq] at hstep
      obtain ⟨-, rfl⟩ := hstep
      refine { h with
        collecting := ?_
        flushing := fun f hf => (h.flushing f hf).congr rfl rfl rfl }
      rintro call ⟨⟩ pu ⟨⟩
  | collectStatement =>
      simp only [txLogStep, Option.map_eq_some_iff] at hstep
      obtain ⟨call, hcall, rfl⟩ := hstep
      exact h.collectStatement hhot cfg hcall
  | collectStops =>
      obtain rfl := Option.some.inj hstep
      exact { h with
        collecting := fun _ hcall => by cases hcall
        flushing := fun f hf => (h.flushing f hf).congr rfl rfl rfl }

theorem coldInv_run {cfg : LifecycleConfig} {clock seed : Nat} {inherited : ForkCopy T seed}
    {evs : List (TxLogEvent T X)} (hrun : Runs.run (txLogStep cfg) (seeded clock seed inherited) evs = some s) :
    s.ColdInv seed := by
  have hstep : ∀ (s : TxLogStore T X) (ev : TxLogEvent T X) (s' : TxLogStore T X), (s.HotInv ∧ s.ColdInv seed) →
      True → txLogStep cfg s ev = some s' → (s'.HotInv ∧ s'.ColdInv seed) :=
    fun _ _ _ h _ hstep => ⟨h.1.step hstep, h.2.step h.1 hstep⟩
  exact (Runs.invariant_of_step hstep ⟨hotInv_seeded clock seed inherited, coldInv_seeded clock seed inherited⟩
    (Runs.meets_of_forall (fun _ _ => trivial) _ _) hrun).2

/-! ## The cold log is complete -/

/-- The committed segments. -/
def committedTxLogSegments (s : TxLogStore T X) : List TxLogSegment := s.txLogSegments.filter TxLogSegment.committed

/-- Every commit of a branch whose first number is `seed` is stored: once in the cold log up to `W_txlog`, and in
    the hot log past it. -/
structure TxLogCovered (seed : Nat) (s : TxLogStore T X) : Prop where
  numbered : Numbered (fun c : CommitTxRow X => c.commitSeqNum) seed s.history
  disjoint : s.committedTxLogSegments.Pairwise (fun a b =>
    a.maxCommitSeqNum < b.minCommitSeqNum ∨ b.maxCommitSeqNum < a.minCommitSeqNum)
  covers : ∀ n, (∃ seg ∈ s.committedTxLogSegments, seg.minCommitSeqNum ≤ n ∧ n ≤ seg.maxCommitSeqNum) ↔
    (seed : Int) ≤ n ∧ ∃ w, s.txLogPersistWatermark = some w ∧ n ≤ w
  stores : ∀ seg ∈ s.committedTxLogSegments, ∃ rows, s.txLogFiles seg.uuid = some rows ∧
    (rows.map TxLogRecord.commitSeqNum).Nodup ∧
    (∀ n, n ∈ rows.map TxLogRecord.commitSeqNum ↔ seg.minCommitSeqNum ≤ n ∧ n ≤ seg.maxCommitSeqNum) ∧
    ∀ r ∈ rows, ∃ c ∈ s.history, r = c.record
  kept : ∀ c ∈ s.history, c ∈ s.commitTxLog ∨ ∃ w, s.txLogPersistWatermark = some w ∧ c.commitSeqNum ≤ w

omit [DecidableEq T] [DecidableEq X] in
/-- A stretch of the history has one row for every number between its ends. -/
theorem ColdInv.map_commitSeqNum_stretch (h : s.ColdInv seed) {row : CommitTxRow X} {rows : List (CommitTxRow X)}
    (hs : s.Stretch row rows) :
    (((row :: rows).map CommitTxRow.record).map TxLogRecord.commitSeqNum).Nodup ∧
      ∀ n, n ∈ ((row :: rows).map CommitTxRow.record).map TxLogRecord.commitSeqNum ↔
        row.commitSeqNum ≤ n ∧ n ≤ maxSeq row rows := by
  have hmap : ((row :: rows).map CommitTxRow.record).map TxLogRecord.commitSeqNum =
      (row :: rows).map (fun c => c.commitSeqNum) := by
    rw [List.map_map]
    rfl
  rw [hmap]
  constructor
  · have hsorted : (row :: rows).Pairwise (fun a b => a.commitSeqNum < b.commitSeqNum) :=
      hs ▸ h.numbered.pairwise.filter _
    exact List.pairwise_map.mpr (hsorted.imp (fun hlt => hlt.ne))
  · intro n
    rw [List.mem_map]
    constructor
    · rintro ⟨c, hc, rfl⟩
      exact (hs.mem_iff.mp hc).2
    · rintro ⟨hge, hle⟩
      have hfirst := (h.commitSeqNum_bounds (hs.mem_iff.mp List.mem_cons_self).1).1
      have hlast := h.maxSeq_lt hs
      obtain ⟨c, hc, rfl⟩ := h.numbered.exists_key_iff.mpr ⟨hfirst.trans hge, by have := h.counter; omega⟩
      exact ⟨c, hs.mem_iff.mpr ⟨hc, hge, hle⟩, rfl⟩

omit [DecidableEq T] [DecidableEq X] in
theorem ColdInv.txLogCovered (h : s.ColdInv seed) : s.TxLogCovered seed := by
  have hmem : ∀ seg, seg ∈ s.committedTxLogSegments ↔ seg ∈ s.txLogSegments ∧ seg.committed = true :=
    fun seg => List.mem_filter
  constructor
  case numbered => exact h.numbered
  case disjoint =>
    have hne : s.committedTxLogSegments.Pairwise (fun a b => a.uuid ≠ b.uuid) :=
      (List.pairwise_map.mp h.uuids).sublist List.filter_sublist
    refine hne.imp_of_mem (fun {a b} ha hb hab => ?_)
    obtain ⟨ha, hca⟩ := (hmem a).mp ha
    obtain ⟨hb, hcb⟩ := (hmem b).mp hb
    exact h.disjoint a ha b hb hca hcb hab
  case covers =>
    intro n
    constructor
    · rintro ⟨seg, hseg, hge, hle⟩
      obtain ⟨hseg, hc⟩ := (hmem seg).mp hseg
      have hbounds := h.segment_bounds hseg hc
      exact ⟨by omega, flushed_iff.mpr ⟨seg, hseg, hc, hle⟩⟩
    · rintro ⟨hge, hflushed⟩
      obtain ⟨seg, hseg, hc, hin⟩ := h.covers n hge hflushed
      exact ⟨seg, (hmem seg).mpr ⟨hseg, hc⟩, hin⟩
  case stores =>
    intro seg hseg
    obtain ⟨hseg, hc⟩ := (hmem seg).mp hseg
    obtain ⟨row, rows, hs, rfl, hfile⟩ := h.stored seg hseg hc
    obtain ⟨hnodup, hrange⟩ := h.map_commitSeqNum_stretch hs
    refine ⟨_, hfile, hnodup, hrange, ?_⟩
    intro r hr
    obtain ⟨c, hcr, rfl⟩ := List.mem_map.mp hr
    exact ⟨c, (hs.mem_iff.mp hcr).1, rfl⟩
  case kept => exact h.kept

/-- **No commit record is lost or stored twice.** In every state reached by commits, `persist_tx_log` runs that may
    stop after any statement or file operation, and `PurgeTxLog` runs, the committed segments of the cold log
    partition the numbers from the branch's first one up to `W_txlog`, each file holds exactly the commits of its
    range, and every commit past `W_txlog` is in the hot log. -/
theorem txLogCovered_run {cfg : LifecycleConfig} {clock seed : Nat} {inherited : ForkCopy T seed}
    {evs : List (TxLogEvent T X)} (hrun : Runs.run (txLogStep cfg) (seeded clock seed inherited) evs = some s) :
    s.TxLogCovered seed :=
  (coldInv_run hrun).txLogCovered

/-- On a fork at position 4: a run copies two commits and stops before it commits its segment; the next fails to
    delete the file and copies the first commit only; the third cleans up, fails to write, and a fourth copies the
    other two. Then the table is purged and `PurgeTxLog` runs. -/
def flushRun : List (TxLogEvent Nat Nat) :=
  [.autoCommit 1 [(0, .upsertLog)] "one" "ann", .tick 11, .autoCommit 2 [(0, .upsertLog)] "two" "bob",
    .lockTxLog none 9, .flushStatement .done, .flushStatement .done, .flushStatement .done, .flushStatement .done,
    .flushStatement .done, .flushStops,
    .lockTxLog none 5, .flushStatement .done, .flushStatement (.failed none), .flushStatement .done,
    .flushStatement .done, .flushStatement .done, .flushStatement .done, .flushStatement .done,
    .tick 12, .autoCommit 3 [(0, .deleteLog)] "three" "ann",
    .lockTxLog (some 0) 7, .flushStatement .done, .flushStatement .done, .flushStatement .done, .flushStatement .done,
    .flushStatement .done, .flushStatement .done, .flushStatement (.failed none), .flushStatement .done,
    .flushStatement .done,
    .lockTxLog (some 0) 7, .flushStatement .done, .flushStatement .done, .flushStatement .done,
    .flushStatement .done, .flushStatement .done, .flushStatement .done,
    .snapshot 0 6, .purge 0, .purgeTxLog, .collectStatement, .collectStatement, .collectStatement]

/-- The table of the run as the fork copied it, with rows up to 4 and a snapshot at 3. -/
def copiedTable : ForkCopy Nat 5 := ⟨[0], [(0, 4)], [(0, 3)], .inr (Nat.succ_pos 4)⟩

/-- Two segments, 5 and 6 to 7, hold the three commits; the hot log has the last one only. -/
theorem txLogCovered_flushRun : ∃ s : TxLogStore Nat Nat,
    Runs.run (txLogStep ⟨5, 5, 0⟩) (seeded 10 5 copiedTable) flushRun = some s ∧
      (s.committedTxLogSegments.map (fun seg => (seg.minCommitSeqNum, seg.maxCommitSeqNum)) = [(5, 5), (6, 7)] ∧
        s.txLogFiles 7 = some [⟨6, 11, "bob", "two"⟩, ⟨7, 12, "ann", "three"⟩] ∧
          s.commitTxLog.map CommitTxRow.txUuid = [3]) ∧ s.TxLogCovered 5 := by
  have hend : (Runs.run (txLogStep ⟨5, 5, 0⟩) (seeded 10 5 copiedTable) flushRun).map (fun s : TxLogStore Nat Nat => decide
      (s.committedTxLogSegments.map (fun seg => (seg.minCommitSeqNum, seg.maxCommitSeqNum)) = [(5, 5), (6, 7)] ∧
        s.txLogFiles 7 = some [⟨6, 11, "bob", "two"⟩, ⟨7, 12, "ann", "three"⟩] ∧
          s.commitTxLog.map CommitTxRow.txUuid = [3])) = some true := by
    decide +kernel
  obtain ⟨s, hrun, hs⟩ := Option.map_eq_some_iff.mp hend
  exact ⟨s, hrun, of_decide_eq_true hs, txLogCovered_run hrun⟩

end Events

end TxLogStore

end Penca
