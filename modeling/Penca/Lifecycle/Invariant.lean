import Penca.Lifecycle.Branch

/-!
# `Lifecycle.Invariant` — what every run of the lifecycle keeps

`Inv s H` relates the storage state to the history of committed transactions:

- hot is the history minus what Purge removed;
- the cold log holds exactly the entries at or below the persist watermark, each segment under its own log;
- the `W_snap` of a snapshot is at least the sequence number of each entry at or below its
  `snapshotted_at_micros` and reaches no unpersisted entry;
- snapshots only move forward, and every purge fence is some `W_snap`.

Each operation keeps it (`Inv.commitTx`, `Inv.persistLocked`, `Inv.snapshotLocked`, `Inv.purgeLocked`), so
every run whose Persists do not clobber ends in a state related to the history it committed (`inv_run`). If its
Snapshots also rewrite the partitions of the rows they replace, every snapshot holds the replay of the entries at or
below its position (`replays_run`).
-/

namespace Penca

open Newest

variable {R V : Type}

/-- The entries of the history at or below `t` on the clock axis. -/
def History.upTo (H : History R V) (t : Int) : List (LogEntry R V) :=
  H.entries.filter (fun e => decide (e.commitMicros ≤ t))

theorem History.mem_upTo {H : History R V} {t : Int} {e : LogEntry R V} :
    e ∈ H.upTo t ↔ e ∈ H.entries ∧ e.commitMicros ≤ t := by
  simp [upTo]

/-- What a committed snapshot guarantees. -/
structure SnapshotInv (s : Store R V) (H : History R V) (n : TableSnapshot R V) : Prop where
  bounded : n.commitSeqNum < H.txs.length
  covered : ∃ p, s.persistWatermark = some p ∧ n.snapshottedAtMicros ≤ p ∧
    ∀ e ∈ H.entries, e.commitSeqNum ≤ n.commitSeqNum → e.commitMicros ≤ p
  reaches : ∀ e ∈ H.entries, e.commitMicros ≤ n.snapshottedAtMicros → e.commitSeqNum ≤ n.commitSeqNum

/-- The invariant of the lifecycle. -/
structure Inv (s : Store R V) (H : History R V) : Prop where
  counter : s.commitSeqCounter = H.txs.length
  log : s.commitTxLog = H.txs.map (fun t => ⟨t.commitSeqNum, t.commitMicros⟩)
  hot : s.hot = H.entries.filter (fun e => s.purges.all (fun pu => decide (pu < e.commitSeqNum)))
  parents : ∀ p ∈ s.tablePersists, p.committed = true
  segments : s.SegmentsWF
  stored : ∀ v ∈ s.views, ∀ e ∈ v.rows, e ∈ H.entries ∧ e.kind = v.uuid.parent.logKind
  stored_iff : ∀ e ∈ H.entries,
    (∃ p, s.persistWatermark = some p ∧ e.commitMicros ≤ p) ↔ ∃ v ∈ s.views, e ∈ v.rows
  attained : ∀ p, s.persistWatermark = some p → ∃ e ∈ H.entries, e.commitMicros = p
  snapshots : ∀ n ∈ s.snapshots, SnapshotInv s H n
  ordered : s.snapshots.Pairwise (fun n n' =>
    n.snapshottedAtMicros < n'.snapshottedAtMicros ∧ n.commitSeqNum ≤ n'.commitSeqNum)
  fenced : ∀ pu ∈ s.purges, ∃ n ∈ s.snapshots, n.commitSeqNum = pu

theorem Inv.init : Inv (Store.init : Store R V) History.empty where
  counter := rfl
  log := rfl
  hot := rfl
  parents := by simp [Store.init]
  segments := Store.SegmentsWF.init
  stored := by simp [Store.init, Store.views]
  stored_iff := by simp
  attained := by simp [Store.init, Store.persistWatermark]
  snapshots := by simp [Store.init]
  ordered := List.Pairwise.nil
  fenced := by simp [Store.init]

/-! ## Consequences -/

section Consequences

variable {s : Store R V} {H : History R V} (hinv : Inv s H)
include hinv

theorem Inv.mem_hot {e : LogEntry R V} :
    e ∈ s.hot ↔ e ∈ H.entries ∧ ∀ pu ∈ s.purges, pu < e.commitSeqNum := by
  rw [hinv.hot]
  simp

theorem Inv.watermark_inRange {p : Int} (hp : s.persistWatermark = some p) : 0 < p ∧ p < i64Max := by
  obtain ⟨e, he, rfl⟩ := hinv.attained p hp
  exact History.commitMicros_inRange he

/-- What the `W_snap` of a snapshot reaches is persisted. -/
theorem Inv.commitMicros_le_of_snapshot {p : Int} (hp : s.persistWatermark = some p) {n : TableSnapshot R V}
    (hn : n ∈ s.snapshots) {e : LogEntry R V} (he : e ∈ H.entries) (hle : e.commitSeqNum ≤ n.commitSeqNum) :
    e.commitMicros ≤ p := by
  obtain ⟨q, hq, -, hcov⟩ := (hinv.snapshots n hn).covered
  obtain rfl := Option.some.inj (hq.symm.trans hp)
  exact hcov e he hle

theorem Inv.snapshottedAt_lt {n : TableSnapshot R V} (hn : n ∈ s.snapshots) :
    n.snapshottedAtMicros < i64Max := by
  obtain ⟨p, hp, hnp, -⟩ := (hinv.snapshots n hn).covered
  exact lt_of_le_of_lt hnp (hinv.watermark_inRange hp).2

theorem Inv.persisted_of_not_mem_hot {e : LogEntry R V} (he : e ∈ H.entries) (hhot : e ∉ s.hot) :
    ∃ p, s.persistWatermark = some p ∧ e.commitMicros ≤ p := by
  rw [hinv.mem_hot] at hhot
  push Not at hhot
  obtain ⟨pu, hpu, hle⟩ := hhot he
  obtain ⟨n, hn, rfl⟩ := hinv.fenced pu hpu
  obtain ⟨p, hp, -, hcov⟩ := (hinv.snapshots n hn).covered
  exact ⟨p, hp, hcov e he hle⟩

theorem Inv.view_inRange {v : SegmentView R V} (hv : v ∈ s.views) :
    (0 < v.minTxCommitMicros ∧ v.minTxCommitMicros < i64Max) ∧
      (0 < v.maxTxCommitMicros ∧ v.maxTxCommitMicros < i64Max) := by
  have hexact := hinv.segments.exact_of_mem hv
  obtain ⟨a, ha, hmin⟩ := hexact.minMicros
  obtain ⟨b, hb, hmax⟩ := hexact.maxMicros
  rw [← hmin, ← hmax]
  exact ⟨History.commitMicros_inRange (hinv.stored v hv a ha).1,
    History.commitMicros_inRange (hinv.stored v hv b hb).1⟩

/-- A snapshot in the words of a branch that need not be unforked. -/
theorem Inv.branchSnapshot {n : TableSnapshot R V} (hn : n ∈ s.snapshots) : BranchSnapshot s H.log n := by
  have hsnap := hinv.snapshots n hn
  obtain ⟨p, hp, hnp, hcov⟩ := hsnap.covered
  refine ⟨⟨hinv.counter ▸ hsnap.bounded, ?_⟩, ⟨p, hp, hnp⟩, hsnap.reaches⟩
  intro e he hle
  exact ⟨p, hp, hcov e he hle⟩

/-- **An unforked table is a branch without floor.** -/
theorem Inv.branch : BranchInv s H.log none := by
  have hexact : ∀ v ∈ s.views, v.Exact := fun v hv => hinv.segments.exact_of_mem hv
  constructor
  case nonneg =>
    rw [hinv.counter]
    omega
  case allocated =>
    intro e he
    rw [hinv.counter]
    exact History.commitSeqNum_lt_length he
  case clock =>
    intro e he
    obtain ⟨t, ht, het⟩ := History.mem_entries.mp he
    rw [hinv.log]
    exact ⟨⟨t.commitSeqNum, t.commitMicros⟩, List.mem_map_of_mem ht, (CommittedTx.commitMicros_of_mem het).le⟩
  case mem_hot => exact fun e => hinv.mem_hot
  case parents => exact hinv.parents
  case segments => exact hinv.segments.ok
  case bounded =>
    intro v hv
    exact (hexact v hv).bounded (fun e he => History.commitMicros_inRange (hinv.stored v hv e he).1)
  case stored =>
    intro v hv e he
    rw [(hexact v hv).read_eq] at he
    obtain ⟨hent, hkind⟩ := hinv.stored v hv e he
    exact ⟨⟨hent, hkind⟩, (hinv.stored_iff e hent).mpr ⟨v, hv, he⟩⟩
  case complete =>
    intro e he hp _
    obtain ⟨v, hv, hev⟩ := (hinv.stored_iff e he).mp hp
    exact ⟨v, hv, (hexact v hv).read_eq.symm ▸ hev⟩
  case ceilings =>
    -- the ceiling is the number of a row, and the two axes order alike
    intro v hv
    obtain ⟨a, ha, hmax⟩ := (hexact v hv).maxSeq
    have hent := (hinv.stored v hv a ha).1
    obtain ⟨p, hp, hap⟩ := (hinv.stored_iff a hent).mpr ⟨v, hv, ha⟩
    rw [← hmax]
    refine ⟨hinv.counter ▸ History.commitSeqNum_lt_length hent, ?_⟩
    intro e he hle
    exact ⟨p, hp, ((History.commitSeqNum_le_iff he hent).mp hle).trans hap⟩
  case clipped => exact fun v hv => .inl (hexact v hv).read_eq
  case watermark =>
    intro p hp
    obtain ⟨e, he, rfl⟩ := hinv.attained p hp
    obtain ⟨t, ht, het⟩ := History.mem_entries.mp he
    refine ⟨History.commitMicros_inRange he, ⟨t.commitSeqNum, t.commitMicros⟩, ?_, ?_⟩
    · rw [hinv.log]
      exact List.mem_map_of_mem ht
    · exact (CommittedTx.commitMicros_of_mem het).le
  case snapshots => exact fun n hn => hinv.branchSnapshot hn
  case ordered => exact hinv.ordered
  case fences =>
    intro pu hpu
    obtain ⟨n, hn, rfl⟩ := hinv.fenced pu hpu
    exact (hinv.branchSnapshot hn).settled
  case based => exact fun f hf => nomatch hf

end Consequences

/-! ## Commit -/

section Commit

variable {s : Store R V} {H : History R V} (hinv : Inv s H) {micros : Int}
include hinv

/-- The store accepts a commit exactly when the history does; otherwise nothing changes. -/
theorem Inv.commitTx_cases {rows : TxWrites R V} {s' : Store R V}
    (h : s.commitTx micros rows = some s') :
    (s' = s ∧ H.commit micros rows = H) ∨
      ∃ hacc : H.Accepts micros, H.commit micros rows = H.append micros rows hacc ∧
        s' = { s with
          commitSeqCounter := s.commitSeqCounter + 1
          commitTxLog := s.commitTxLog ++ [⟨s.commitSeqCounter, micros⟩]
          hot := s.hot ++ (H.nextTx micros rows).entries } := by
  unfold Store.commitTx at h
  split at h
  · rename_i hclock
    have hlog : ∀ t ∈ H.txs, t.commitMicros ≤ micros := by
      intro t ht
      exact hclock.2 ⟨t.commitSeqNum, t.commitMicros⟩ (hinv.log ▸ List.mem_map_of_mem ht)
    have hany : s.commitTxLog.any (fun c => c.commitMicros = micros) = true ↔
        ∃ t ∈ H.txs, t.commitMicros = micros := by
      rw [hinv.log]
      simp
    split at h
    · rename_i htie
      obtain ⟨t, ht, heq⟩ := hany.mp htie
      have hnot : ¬ H.Accepts micros := fun hacc => absurd (hacc.2 t ht) (by omega)
      exact Or.inl ⟨(Option.some.inj h).symm, dif_neg hnot⟩
    · rename_i htie
      have hacc : H.Accepts micros := by
        refine ⟨hclock.1, fun t ht => lt_of_le_of_ne (hlog t ht) (fun heq => htie ?_)⟩
        exact hany.mpr ⟨t, ht, heq⟩
      refine Or.inr ⟨hacc, dif_pos hacc, ?_⟩
      rw [← Option.some.inj h, History.nextTx, ← hinv.counter]
  · simp at h

omit hinv in
/-- The entries of an accepted transaction come after all others, on both axes. -/
theorem History.later_of_accepts {rows : TxWrites R V} (hacc : H.Accepts micros)
    {e e' : LogEntry R V} (he : e ∈ H.entries) (he' : e' ∈ (H.nextTx micros rows).entries) :
    e.commitSeqNum < e'.commitSeqNum ∧ e.commitMicros < e'.commitMicros := by
  obtain ⟨t, ht, het⟩ := History.mem_entries.mp he
  rw [CommittedTx.commitSeqNum_of_mem het, CommittedTx.commitMicros_of_mem het,
    CommittedTx.commitSeqNum_of_mem he', CommittedTx.commitMicros_of_mem he']
  exact ⟨(H.numbered t ht).2, hacc.2 t ht⟩

/-- A new entry is above every persist watermark. -/
theorem Inv.watermark_lt_of_accepts {rows : TxWrites R V} (hacc : H.Accepts micros) {p : Int}
    (hp : s.persistWatermark = some p) {e : LogEntry R V} (he : e ∈ (H.nextTx micros rows).entries) :
    p < e.commitMicros := by
  obtain ⟨a, ha, rfl⟩ := hinv.attained p hp
  exact (History.later_of_accepts hacc ha he).2

omit hinv in
theorem History.mem_entries_append {rows : TxWrites R V} {hacc : H.Accepts micros} {e : LogEntry R V} :
    e ∈ (H.append micros rows hacc).entries ↔ e ∈ H.entries ∨ e ∈ (H.nextTx micros rows).entries := by
  rw [History.entries_append, List.mem_append]

/-- Entries that come after the snapshot's position leave it as it was. -/
theorem Inv.snapshotInv_append {rows : TxWrites R V} (hacc : H.Accepts micros) {n : TableSnapshot R V}
    (hn : n ∈ s.snapshots) : SnapshotInv s (H.append micros rows hacc) n := by
  have hsnap := hinv.snapshots n hn
  obtain ⟨p, hp, hnp, hcov⟩ := hsnap.covered
  have hbounded := hsnap.bounded
  have habove : ∀ e ∈ (H.nextTx micros rows).entries, n.snapshottedAtMicros < e.commitMicros :=
    fun e he => lt_of_le_of_lt hnp (hinv.watermark_lt_of_accepts hacc hp he)
  constructor
  case bounded =>
    simp only [History.append, List.length_append, List.length_singleton]
    omega
  case covered =>
    refine ⟨p, hp, hnp, fun e he hle => ?_⟩
    rcases History.mem_entries_append.mp he with he | he
    · exact hcov e he hle
    · have hseq : e.commitSeqNum = H.txs.length := CommittedTx.commitSeqNum_of_mem he
      omega
  case reaches =>
    intro e he hle
    rcases History.mem_entries_append.mp he with he | he
    · exact hsnap.reaches e he hle
    · exact absurd (habove e he) (by omega)

/-- The contents of a snapshot do not change: the new entries lie past its position. -/
theorem Inv.replays_append [DecidableEq R] {rows : TxWrites R V} (hacc : H.Accepts micros) (hreplay : s.SnapshotsReplay H.log) :
    s.SnapshotsReplay (H.append micros rows hacc).log := by
  intro n hn
  obtain ⟨p, hp, hnp, -⟩ := (hinv.snapshots n hn).covered
  have hnil : (H.nextTx micros rows).entries.filter
      (fun e => decide (e.commitMicros ≤ n.snapshottedAtMicros)) = [] := by
    rw [List.filter_eq_nil_iff]
    intro e he
    simpa using hnp.trans_lt (hinv.watermark_lt_of_accepts hacc hp he)
  have hupTo : (H.append micros rows hacc).log.upTo n.snapshottedAtMicros = H.log.upTo n.snapshottedAtMicros := by
    simp only [BranchLog.upTo, History.log_entries]
    rw [History.entries_append, List.filter_append, hnil, List.append_nil]
  refine ⟨(hreplay n hn).nodup, ?_⟩
  rw [hupTo]
  exact (hreplay n hn).replay

theorem Inv.commitTx {rows : TxWrites R V} {s' : Store R V} (h : s.commitTx micros rows = some s') :
    Inv s' (H.commit micros rows) := by
  rcases hinv.commitTx_cases h with ⟨rfl, hH⟩ | ⟨hacc, hH, rfl⟩
  · rwa [hH]
  rw [hH]
  constructor
  case counter => simp [History.append, hinv.counter]
  case log => simp [History.append, History.nextTx, hinv.log, hinv.counter]
  case hot =>
    -- A fence is some `W_snap`, and those are below the counter.
    have hnew : ∀ e ∈ (H.nextTx micros rows).entries,
        s.purges.all (fun pu => decide (pu < e.commitSeqNum)) = true := by
      intro e he
      rw [List.all_eq_true]
      intro pu hpu
      obtain ⟨n, hn, rfl⟩ := hinv.fenced pu hpu
      rw [CommittedTx.commitSeqNum_of_mem he]
      exact decide_eq_true (hinv.snapshots n hn).bounded
    rw [History.entries_append, List.filter_append, List.filter_eq_self.mpr hnew, ← hinv.hot]
  case parents => exact hinv.parents
  case segments => exact hinv.segments.of_eq rfl rfl rfl rfl
  case stored =>
    intro v hv e he
    obtain ⟨hent, hkind⟩ := hinv.stored v hv e he
    exact ⟨History.mem_entries_append.mpr (Or.inl hent), hkind⟩
  case stored_iff =>
    intro e he
    rcases History.mem_entries_append.mp he with he | he
    · exact hinv.stored_iff e he
    · -- A new entry is above the watermark and in no segment.
      constructor
      · rintro ⟨p, hp, hle⟩
        exact absurd (hinv.watermark_lt_of_accepts hacc hp he) (by omega)
      · rintro ⟨v, hv, hev⟩
        have hlater := History.later_of_accepts hacc (hinv.stored v hv e hev).1 he
        omega
  case attained =>
    intro p hp
    obtain ⟨e, he, heq⟩ := hinv.attained p hp
    exact ⟨e, History.mem_entries_append.mpr (Or.inl he), heq⟩
  case snapshots =>
    intro n hn
    have hsnap : SnapshotInv s (H.append micros rows hacc) n := hinv.snapshotInv_append hacc hn
    exact ⟨hsnap.bounded, hsnap.covered, hsnap.reaches⟩
  case ordered => exact hinv.ordered
  case fenced => exact hinv.fenced

end Commit

/-! ## Persist -/

section Persist

variable {cfg : PersistConfig R V} {s s' : Store R V} {H : History R V} (hinv : Inv s H)

include hinv

/-- **Durable writes.** A Persist may write any batches of the history that hold the hot rows up to the maximum it
    stamps: a row purged after it was read was persisted before. -/
theorem Inv.writePersist {target persistedAt seq : Int} {upserts deletes : List (LogEntry R V)}
    (hgate : computeCandidatePersistedAtGated s.persistWatermark upserts deletes = some (persistedAt, seq))
    (hnc : ∀ w ∈ persistWrites cfg target upserts deletes, s.NoClobberAt w)
    (hups : ∀ e ∈ upserts, e ∈ H.entries ∧ e.kind = .upsertLog)
    (hdels : ∀ e ∈ deletes, e ∈ H.entries ∧ e.kind = .deleteLog)
    (hread : ∀ e ∈ s.hot, e.commitMicros ≤ persistedAt → e ∈ upserts ++ deletes) :
    Inv (s.writePersist cfg target upserts deletes persistedAt seq) H := by
  obtain ⟨⟨a, ha, hat⟩, hmax, -, -, hlast⟩ := computeCandidatePersistedAtGated_eq_some hgate
  have hcold : s.ColdOnly (s.writePersist cfg target upserts deletes persistedAt seq) :=
    Store.coldOnly_writePersist
  have hwatermark : (s.writePersist cfg target upserts deletes persistedAt seq).persistWatermark =
      some persistedAt := Store.writePersist_persistWatermark hinv.parents (List.ne_nil_of_mem ha) hlast
  obtain ⟨hok, hviews⟩ : (s.writePersist cfg target upserts deletes persistedAt seq).SegmentsOk ∧ _ :=
    Store.writePersist_views hinv.segments.ok hnc
  have hhistory : ∀ e ∈ upserts ++ deletes, e ∈ H.entries := by
    intro e he
    rcases List.mem_append.mp he with he | he
    · exact (hups e he).1
    · exact (hdels e he).1
  have hnew : ∀ v ∈ (s.writePersist cfg target upserts deletes persistedAt seq).views, v ∈ s.views ∨
      ∃ w ∈ persistWrites cfg target upserts deletes, v = SegmentView.ofRows w.1 w.2 := by
    intro v hv
    rw [hviews, List.mem_append] at hv
    rcases hv with hv | hv
    · exact .inl hv
    · obtain ⟨w, hw, rfl⟩ := List.mem_map.mp hv
      exact .inr ⟨w, (List.mem_filter.mp hw).1, rfl⟩
  have hstored : ∀ e, (∃ v ∈ (s.writePersist cfg target upserts deletes persistedAt seq).views, e ∈ v.rows) ↔
      (∃ v ∈ s.views, e ∈ v.rows) ∨ e ∈ upserts ++ deletes := by
    intro e
    rw [hviews, Store.exists_mem_views_append hnc, exists_mem_persistWrites_iff]
  constructor
  case counter => rw [hcold.commitSeqCounter, hinv.counter]
  case log => rw [hcold.commitTxLog, hinv.log]
  case hot => rw [hcold.hot, hcold.purges, hinv.hot]
  case parents => exact Store.committed_writePersist hinv.parents
  case segments =>
    refine hok.wf hinv.segments (fun v hv => ?_)
    rcases hnew v hv with hv | ⟨w, -, rfl⟩
    · exact .inl hv
    · exact .inr rfl
  case stored =>
    intro v hv e he
    rcases hnew v hv with hv | ⟨w, hw, rfl⟩
    · exact hinv.stored v hv e he
    · exact ⟨hhistory e (exists_mem_persistWrites_iff.mp ⟨w, hw, he⟩),
        kind_of_mem_persistWrites (fun e he => (hups e he).2) (fun e he => (hdels e he).2) hw e he⟩
  case stored_iff =>
    intro e he
    rw [hwatermark, hstored]
    constructor
    · rintro ⟨p, heq, hle⟩
      obtain rfl := Option.some.inj heq
      -- What is not hot any more was purged, so it was persisted before.
      by_cases hhot : e ∈ s.hot
      · exact Or.inr (hread e hhot hle)
      · exact Or.inl ((hinv.stored_iff e he).mp (hinv.persisted_of_not_mem_hot he hhot))
    · rintro (hold | hbatch)
      · obtain ⟨p, hwm, hle⟩ := (hinv.stored_iff e he).mpr hold
        exact ⟨persistedAt, rfl, hle.trans (hlast p hwm).le⟩
      · exact ⟨persistedAt, rfl, hmax e hbatch⟩
  case attained =>
    intro p hwm
    rw [hwatermark] at hwm
    obtain rfl := Option.some.inj hwm
    exact ⟨a, hhistory a ha, hat⟩
  case snapshots =>
    intro n hn
    rw [hcold.snapshots] at hn
    have hsnap := hinv.snapshots n hn
    obtain ⟨p, hwm, hnp, hcov⟩ := hsnap.covered
    have hlt := hlast p hwm
    refine ⟨hsnap.bounded, ⟨persistedAt, hwatermark, by omega, fun e he hle => ?_⟩, hsnap.reaches⟩
    have := hcov e he hle
    omega
  case ordered =>
    rw [hcold.snapshots]
    exact hinv.ordered
  case fenced =>
    rw [hcold.purges, hcold.snapshots]
    exact hinv.fenced

theorem Inv.persistLocked {requestTarget : Option Int} {step1Now : Int}
    (hnc : NoClobber cfg s (.persist requestTarget step1Now)) :
    Inv (s.persistLocked cfg requestTarget step1Now) H := by
  rcases s.persistLocked_cases cfg requestTarget step1Now with heq | ⟨persistedAt, seq, hgate, heq⟩
  · rwa [heq]
  rw [heq]
  have hread : ∀ {kind e}, e ∈ s.readCommitted kind (effectiveTarget requestTarget step1Now) →
      e ∈ H.entries ∧ e.kind = kind := by
    intro kind e he
    obtain ⟨hhot, hkind, -⟩ := Store.mem_readCommitted.mp he
    exact ⟨(hinv.mem_hot.mp hhot).1, hkind⟩
  refine hinv.writePersist hgate (hnc (hgate ▸ rfl)) (fun e he => hread he) (fun e he => hread he) ?_
  -- The watermark is the commit time of a row below the target.
  intro e he hle
  obtain ⟨⟨a, ha, rfl⟩, -⟩ := computeCandidatePersistedAtGated_eq_some hgate
  have hlt := (Store.mem_readCommitted_append.mp ha).2
  exact Store.mem_readCommitted_append.mpr ⟨he, by omega⟩

end Persist

/-! ## Snapshot -/

section Snapshot

variable [DecidableEq R] {cfg : PersistConfig R V} {s : Store R V} {H : History R V} (hinv : Inv s H)
include hinv

omit [DecidableEq R] in
/-- What a branch says of a snapshot, in the words of the history. -/
theorem Inv.snapshotInv {n : TableSnapshot R V} (hsnap : BranchSnapshot s H.log n) : SnapshotInv s H n := by
  obtain ⟨p, hp, hnp⟩ := hsnap.placed
  refine ⟨hinv.counter ▸ hsnap.settled.allocated, ⟨p, hp, hnp, ?_⟩, hsnap.reaches⟩
  intro e he hle
  obtain ⟨q, hq, heq⟩ := hsnap.settled.persisted e he hle
  obtain rfl := Option.some.inj (hq.symm.trans hp)
  exact heq

theorem Inv.snapshotLocked (snapshottedAt : Option Int) (indexes : List SnapshotIndexDef) :
    Inv (s.snapshotLocked cfg snapshottedAt indexes) H := by
  unfold Store.snapshotLocked
  split
  · exact hinv
  rename_i upper prev hwindow
  obtain ⟨hprev, hupper, hlt⟩ := Store.computeSnapshotWindow_eq_some hwindow
  refine ⟨hinv.counter, hinv.log, hinv.hot, hinv.parents, hinv.segments.of_eq rfl rfl rfl rfl,
    hinv.stored, hinv.stored_iff, hinv.attained, ?snapshots, ?ordered, ?fenced⟩
  case snapshots =>
    have hkeeps : ∀ n, SnapshotInv s H n →
        SnapshotInv { s with snapshots := s.snapshots ++ [s.newSnapshot cfg upper prev indexes] } H n :=
      fun n h => ⟨h.bounded, h.covered, h.reaches⟩
    intro n hn
    rcases List.mem_append.mp hn with hn | hn
    · exact hkeeps n (hinv.snapshots n hn)
    · rw [List.mem_singleton.mp hn]
      exact hkeeps _ (hinv.snapshotInv (hinv.branch.newSnapshot_spec hprev hupper indexes))
  case ordered =>
    refine List.pairwise_append.mpr ⟨hinv.ordered, List.pairwise_singleton _ _, ?_⟩
    intro n hn n' hn'
    rw [List.mem_singleton.mp hn']
    exact hinv.branch.lt_newSnapshot hprev hlt indexes hn
  case fenced =>
    intro pu hpu
    obtain ⟨n, hn, hseq⟩ := hinv.fenced pu hpu
    exact ⟨n, List.mem_append_left _ hn, hseq⟩

end Snapshot

/-! ## Purge -/

theorem Inv.purgeLocked {s : Store R V} {H : History R V} (hinv : Inv s H) : Inv s.purgeLocked H := by
  unfold Store.purgeLocked
  split
  · exact hinv
  rename_i pu hpu
  obtain ⟨n, hn, hseq⟩ := Store.exists_snapshot_of_purge hpu
  refine ⟨hinv.counter, hinv.log, ?_, hinv.parents, hinv.segments.of_eq rfl rfl rfl rfl, hinv.stored,
    hinv.stored_iff, hinv.attained, ?_, hinv.ordered, ?_⟩
  · rw [hinv.hot, List.filter_filter]
    refine List.filter_congr (fun e _ => ?_)
    rw [List.all_append, List.all_cons, List.all_nil, Bool.and_true, Bool.and_comm]
  · intro m hm
    have hsnap := hinv.snapshots m hm
    exact ⟨hsnap.bounded, hsnap.covered, hsnap.reaches⟩
  · intro q hq
    rcases List.mem_append.mp hq with hq | hq
    · exact hinv.fenced q hq
    · rw [List.mem_singleton.mp hq]
      exact ⟨n, hn, hseq⟩

/-! ## Runs -/

section Runs

variable [DecidableEq R]

/-- **Step.** Every operation keeps the invariant, a Persist if it does not clobber. -/
theorem Inv.step {cfg : PersistConfig R V} {s s' : Store R V} {H : History R V} {op : Op R V}
    (hinv : Inv s H) (hnc : NoClobber cfg s op) (h : step cfg s op = some s') :
    Inv s' (historyStep H op) := by
  cases op with
  | commit micros rows => exact hinv.commitTx h
  | persist requestTarget step1Now =>
      cases h
      exact hinv.persistLocked hnc
  | snapshot snapshottedAt indexes =>
      cases h
      exact hinv.snapshotLocked snapshottedAt indexes
  | purge =>
      cases h
      exact hinv.purgeLocked

/-- **Contents.** Every operation keeps the contents of the snapshots right, a Snapshot if it rewrites what it replaces. -/
theorem Inv.replays_step {cfg : PersistConfig R V} {s s' : Store R V} {H : History R V} {op : Op R V}
    (hinv : Inv s H) (hreplay : s.SnapshotsReplay H.log) (hrewrites : RewritesReplaced cfg s op)
    (h : Penca.step cfg s op = some s') : s'.SnapshotsReplay (historyStep H op).log := by
  cases op with
  | commit micros rows =>
      rcases hinv.commitTx_cases h with ⟨rfl, hH⟩ | ⟨hacc, hH, rfl⟩
      · rwa [historyStep, hH]
      · rw [historyStep, hH]
        exact hinv.replays_append hacc hreplay
  | persist requestTarget step1Now =>
      cases h
      exact hreplay.persistLocked requestTarget step1Now
  | snapshot snapshottedAt indexes =>
      cases h
      exact hinv.branch.replays_snapshotLocked hreplay hrewrites
  | purge =>
      cases h
      rw [Store.SnapshotsReplay, Store.purgeLocked_snapshots]
      exact hreplay

/-- **Run.** A run whose Persists do not clobber ends in a state related to the history it committed. -/
theorem inv_run {cfg : PersistConfig R V} {ops : List (Op R V)} {s : Store R V}
    (hmeets : Runs.Meets (Penca.step cfg) (NoClobber cfg) Store.init ops)
    (hrun : Runs.run (Penca.step cfg) Store.init ops = some s) : Inv s (historyOf ops) :=
  Runs.simulation_of_step (fun _ _ _ _ hinv hnc h => hinv.step hnc h) Inv.init hmeets hrun

theorem Store.SnapshotsReplay.init (L : BranchLog R V) :
    (Store.init : Store R V).SnapshotsReplay L := by
  simp [Store.SnapshotsReplay, Store.init]

/-- **Run.** If its Snapshots also rewrite what they replace, every snapshot is the replay up to its position. -/
theorem replays_run {cfg : PersistConfig R V} {ops : List (Op R V)} {s : Store R V}
    (hmeets : Runs.Meets (Penca.step cfg) (KeepsRows cfg) Store.init ops)
    (hrun : Runs.run (Penca.step cfg) Store.init ops = some s) :
    Inv s (historyOf ops) ∧ s.SnapshotsReplay (historyOf ops).log := by
  refine Runs.simulation_of_step (R := fun s H => Inv s H ∧ s.SnapshotsReplay H.log) ?_ ⟨Inv.init, .init _⟩ hmeets hrun
  exact fun _ _ _ _ h hok hstep => ⟨h.1.step hok.1 hstep, h.1.replays_step h.2 hok.2 hstep⟩

end Runs

end Penca
