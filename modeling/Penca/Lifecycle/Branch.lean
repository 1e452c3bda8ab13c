import Penca.Lifecycle.Segments
import Penca.Log.Branch

/-!
# `Lifecycle.Branch` — the lifecycle of a branch, forked or not

`BranchInv s L floor` is what the operations of the lifecycle keep on any branch, `L` being the log of the
branch. It is weaker than the invariant of an unforked table in two ways a fork needs: the bounds of a
segment only have to limit what a query reads of it (a fork copies the metadata row of a segment and lowers
its ceiling), and the cold log only has to be complete past `floor`, the position of the baseline snapshot
the branch started from (`none` on an unforked branch).

- `Settles` says that everything up to a sequence number is at or below the persist watermark: true of every
  `W_snap`, every purge fence and every segment ceiling.
- Each operation keeps the invariant (`BranchInv.withCommit`, `.persistLocked`, `.snapshotLocked`,
  `.purgeLocked`), and so does every run (`branchInv_run`), whose log only grows (`Branch.Grows`).
- The contents of the snapshots are apart: they are replays of the log (`Store.SnapshotsReplay`) as long as each
  Snapshot rewrites the partitions of the rows it replaces (`branchReplays_run`).
-/

namespace Penca

open Newest

variable {R V : Type}

/-! ## What a query reads of a segment -/

/-- The rows of a view up to its own ceiling. -/
def SegmentView.read (v : SegmentView R V) : List (LogEntry R V) :=
  v.rows.filter (fun e => e.commitSeqNum ≤ v.maxCommitSeqNum)

/-- The bounds of a view limit what is read of it. -/
structure SegmentView.Bounded (v : SegmentView R V) : Prop where
  micros : ∀ e ∈ v.read, v.minTxCommitMicros ≤ e.commitMicros ∧ e.commitMicros ≤ v.maxTxCommitMicros
  seq : ∀ e ∈ v.read, v.minCommitSeqNum ≤ e.commitSeqNum
  inRange : (0 < v.minTxCommitMicros ∧ v.minTxCommitMicros < i64Max) ∧
    0 < v.maxTxCommitMicros ∧ v.maxTxCommitMicros < i64Max

theorem SegmentView.Exact.read_eq {v : SegmentView R V} (h : v.Exact) : v.read = v.rows := by
  rw [read, List.filter_eq_self]
  intro e he
  exact decide_eq_true (h.seq e he).2

theorem SegmentView.Exact.bounded {v : SegmentView R V} (h : v.Exact)
    (hrange : ∀ e ∈ v.rows, 0 < e.commitMicros ∧ e.commitMicros < i64Max) : v.Bounded := by
  obtain ⟨a, ha, hmin⟩ := h.minMicros
  obtain ⟨b, hb, hmax⟩ := h.maxMicros
  constructor
  case micros =>
    rw [h.read_eq]
    exact h.micros
  case seq =>
    rw [h.read_eq]
    exact fun e he => (h.seq e he).1
  case inRange =>
    rw [← hmin, ← hmax]
    exact ⟨hrange a ha, hrange b hb⟩

theorem Store.mem_windowEntries_read {s : Store R V} (hok : s.SegmentsOk)
    {fromMicros toMicros commitSeqUpper : Option Int} {e : LogEntry R V} :
    e ∈ s.windowEntries fromMicros toMicros commitSeqUpper ↔
      ∃ v ∈ s.views, v.overlapsWindow fromMicros toMicros commitSeqUpper = true ∧ e ∈ v.read := by
  rw [mem_windowEntries]
  constructor
  · rintro ⟨seg, hseg, he⟩
    obtain ⟨hmem, hover⟩ := (mem_segmentsForWindow_iff hok).mp hseg
    exact ⟨s.view seg, List.mem_map_of_mem hmem, hover, he⟩
  · rintro ⟨v, hv, hover, he⟩
    obtain ⟨seg, hmem, rfl⟩ := List.mem_map.mp hv
    exact ⟨seg, (mem_segmentsForWindow_iff hok).mpr ⟨hmem, hover⟩, he⟩

/-! ## The invariant -/

/-- The entry is at or below the persist watermark. -/
def Store.PersistedEntry (s : Store R V) (e : LogEntry R V) : Prop :=
  ∃ p, s.persistWatermark = some p ∧ e.commitMicros ≤ p

/-- Everything up to the sequence number is committed and at or below the persist watermark. -/
structure Store.Settles (s : Store R V) (L : BranchLog R V) (seq : Int) : Prop where
  allocated : seq < s.commitSeqCounter
  persisted : ∀ e ∈ L.entries, e.commitSeqNum ≤ seq → s.PersistedEntry e

section Defs

variable [DecidableEq R]

/-- What a committed snapshot guarantees. -/
structure BranchSnapshot (s : Store R V) (L : BranchLog R V) (n : TableSnapshot R V) : Prop where
  settled : s.Settles L n.commitSeqNum
  placed : ∃ p, s.persistWatermark = some p ∧ n.snapshottedAtMicros ≤ p
  reaches : ∀ e ∈ L.entries, e.commitMicros ≤ n.snapshottedAtMicros → e.commitSeqNum ≤ n.commitSeqNum

/-- The rows of a snapshot are the replay of the log up to its position. -/
structure TableSnapshot.Replays (n : TableSnapshot R V) (L : BranchLog R V) : Prop where
  nodup : (n.rows.map Prod.fst).Nodup
  replay : ∀ r v, (r, v) ∈ n.rows ↔ newestEffect (L.upTo n.snapshottedAtMicros) r = some v

def Store.SnapshotsReplay (s : Store R V) (L : BranchLog R V) : Prop := ∀ n ∈ s.snapshots, n.Replays L

/-- The invariant of a branch. -/
structure BranchInv (s : Store R V) (L : BranchLog R V) (floor : Option Int) : Prop where
  nonneg : 0 ≤ s.commitSeqCounter
  allocated : ∀ e ∈ L.entries, e.commitSeqNum < s.commitSeqCounter
  clock : ∀ e ∈ L.entries, ∃ c ∈ s.commitTxLog, e.commitMicros ≤ c.commitMicros
  mem_hot : ∀ e, e ∈ s.hot ↔ e ∈ L.entries ∧ ∀ pu ∈ s.purges, pu < e.commitSeqNum
  parents : ∀ p ∈ s.tablePersists, p.committed = true
  segments : s.SegmentsOk
  bounded : ∀ v ∈ s.views, v.Bounded
  stored : ∀ v ∈ s.views, ∀ e ∈ v.read,
    (e ∈ L.entries ∧ e.kind = v.uuid.parent.logKind) ∧ s.PersistedEntry e
  complete : ∀ e ∈ L.entries, s.PersistedEntry e → (∀ f, floor = some f → f < e.commitMicros) →
    ∃ v ∈ s.views, e ∈ v.read
  ceilings : ∀ v ∈ s.views, s.Settles L v.maxCommitSeqNum
  /-- A ceiling that clips rows lies at or below a purge fence. -/
  clipped : ∀ v ∈ s.views, v.read = v.rows ∨ (v.read ≠ [] ∧ ∃ pu ∈ s.purges, v.maxCommitSeqNum ≤ pu)
  watermark : ∀ p, s.persistWatermark = some p →
    (0 < p ∧ p < i64Max) ∧ ∃ c ∈ s.commitTxLog, p ≤ c.commitMicros
  snapshots : ∀ n ∈ s.snapshots, BranchSnapshot s L n
  ordered : s.snapshots.Pairwise (fun n n' =>
    n.snapshottedAtMicros < n'.snapshottedAtMicros ∧ n.commitSeqNum ≤ n'.commitSeqNum)
  fences : ∀ pu ∈ s.purges, s.Settles L pu
  /-- The floor is a snapshot's position, and no snapshot lies below it. -/
  based : ∀ f, floor = some f → s.snapshots ≠ [] ∧ ∀ n ∈ s.snapshots, f ≤ n.snapshottedAtMicros

end Defs

/-! ## Consequences -/

section Consequences

variable {s : Store R V} {L : BranchLog R V} {floor : Option Int} (hinv : BranchInv s L floor)
include hinv

theorem BranchInv.snapshottedAt_lt {n : TableSnapshot R V} (hn : n ∈ s.snapshots) :
    n.snapshottedAtMicros < i64Max := by
  obtain ⟨p, hp, hnp⟩ := (hinv.snapshots n hn).placed
  exact lt_of_le_of_lt hnp (hinv.watermark p hp).1.2

theorem BranchInv.persisted_of_not_mem_hot {e : LogEntry R V} (he : e ∈ L.entries) (hhot : e ∉ s.hot) :
    s.PersistedEntry e := by
  rw [hinv.mem_hot] at hhot
  push Not at hhot
  obtain ⟨pu, hpu, hle⟩ := hhot he
  exact (hinv.fences pu hpu).persisted e he hle

theorem BranchInv.snapshot_le {n n' : TableSnapshot R V} (hn : n ∈ s.snapshots) (hn' : n' ∈ s.snapshots)
    (hle : n.snapshottedAtMicros ≤ n'.snapshottedAtMicros) :
    n = n' ∨ (n.snapshottedAtMicros < n'.snapshottedAtMicros ∧ n.commitSeqNum ≤ n'.commitSeqNum) := by
  have : Std.Symm (fun n n' : TableSnapshot R V =>
      (n.snapshottedAtMicros < n'.snapshottedAtMicros ∧ n.commitSeqNum ≤ n'.commitSeqNum) ∨
      (n'.snapshottedAtMicros < n.snapshottedAtMicros ∧ n'.commitSeqNum ≤ n.commitSeqNum)) :=
    ⟨fun _ _ => Or.symm⟩
  have hsym : s.snapshots.Pairwise (fun n n' =>
      (n.snapshottedAtMicros < n'.snapshottedAtMicros ∧ n.commitSeqNum ≤ n'.commitSeqNum) ∨
      (n'.snapshottedAtMicros < n.snapshottedAtMicros ∧ n'.commitSeqNum ≤ n.commitSeqNum)) :=
    hinv.ordered.imp Or.inl
  by_cases heq : n = n'
  · exact Or.inl heq
  · rcases hsym.forall hn hn' heq with h | h
    · exact Or.inr h
    · omega

/-- A snapshot picked from some of the snapshots is one of them and the latest. -/
theorem BranchInv.of_pickSnapshot {ns : List (TableSnapshot R V)} (hsub : ∀ n ∈ ns, n ∈ s.snapshots)
    {n : TableSnapshot R V} (h : pickSnapshot ns = some n) :
    n ∈ ns ∧ ∀ n' ∈ ns, n'.snapshottedAtMicros ≤ n.snapshottedAtMicros ∧
      n'.commitSeqNum ≤ n.commitSeqNum := by
  obtain ⟨hmem, hmax⟩ := isNewest_of_newest h
  refine ⟨hmem, fun n' hn' => ?_⟩
  have hle : n'.snapshottedAtMicros ≤ n.snapshottedAtMicros := by
    rcases Prod.Lex.toLex_le_toLex.mp (hmax n' hn') with h | h
    · exact h.le
    · exact h.1.le
  rcases hinv.snapshot_le (hsub n' hn') (hsub n hmem) hle with rfl | h
  · exact ⟨le_refl _, le_refl _⟩
  · exact ⟨hle, h.2⟩

end Consequences

/-! ## Commit -/

section Commit

variable {s s' : Store R V} {L : BranchLog R V} {floor : Option Int} {micros : Int}
  {rows : TxWrites R V}

/-- The transaction a commit at this clock reading makes. -/
def Store.nextTx (s : Store R V) (micros : Int) (rows : TxWrites R V) : CommittedTx R V :=
  ⟨s.commitSeqCounter, micros, rows⟩

theorem Store.Settles.append {t : CommittedTx R V} {seq : Int} (h : s.Settles L seq) (hf : L.Follows t)
    (ht : s.commitSeqCounter ≤ t.commitSeqNum) (hcounter : s.commitSeqCounter ≤ s'.commitSeqCounter)
    (hparents : s'.tablePersists = s.tablePersists) : s'.Settles (L.append t hf) seq := by
  have hallocated := h.allocated
  refine ⟨by omega, ?_⟩
  intro e he hle
  rcases List.mem_append.mp he with he | he
  · rw [Store.PersistedEntry, Store.persistWatermark, hparents]
    exact h.persisted e he hle
  · have hseq := CommittedTx.commitSeqNum_of_mem he
    omega

/-- A commit that passes the unique index adds a transaction that follows everything on the branch. -/
theorem BranchInv.follows (hinv : BranchInv s L floor) (hclock : s.ClockAdmits micros)
    (hfresh : ∀ c ∈ s.commitTxLog, c.commitMicros ≠ micros) : L.Follows (s.nextTx micros rows) where
  later := by
    intro e he
    obtain ⟨c, hc, hle⟩ := hinv.clock e he
    have hlt : c.commitMicros < micros := lt_of_le_of_ne (hclock.2 c hc) (hfresh c hc)
    exact ⟨hinv.allocated e he, lt_of_le_of_lt hle hlt⟩
  nonneg := hinv.nonneg
  inRange := hclock.1

/-- The state after a commit that passes the unique index. -/
def Store.withCommit (s : Store R V) (micros : Int) (rows : TxWrites R V) : Store R V :=
  { s with
    commitSeqCounter := s.commitSeqCounter + 1
    commitTxLog := s.commitTxLog ++ [⟨s.commitSeqCounter, micros⟩]
    hot := s.hot ++ (s.nextTx micros rows).entries }

/-- A commit fails on the unique index and changes nothing, or goes through. -/
theorem Store.commitTx_cases (h : s.commitTx micros rows = some s') :
    s' = s ∨ (s.ClockAdmits micros ∧ (∀ c ∈ s.commitTxLog, c.commitMicros ≠ micros) ∧
      s' = s.withCommit micros rows) := by
  unfold Store.commitTx at h
  by_cases hclock : s.ClockAdmits micros
  · rw [if_pos hclock] at h
    by_cases htie : s.commitTxLog.any (fun c => c.commitMicros = micros)
    · rw [if_pos htie] at h
      exact .inl (Option.some.inj h).symm
    · rw [if_neg htie] at h
      refine .inr ⟨hclock, ?_, (Option.some.inj h).symm⟩
      intro c hc heq
      exact htie (List.any_eq_true.mpr ⟨c, hc, decide_eq_true heq⟩)
  · rw [if_neg hclock] at h
    cases h

theorem BranchInv.withCommit (hinv : BranchInv s L floor) (hclock : s.ClockAdmits micros)
    (hfresh : ∀ c ∈ s.commitTxLog, c.commitMicros ≠ micros) (hf : L.Follows (s.nextTx micros rows)) :
    BranchInv (s.withCommit micros rows) (L.append _ hf) floor := by
  have hcounter : s.commitSeqCounter ≤ (s.withCommit micros rows).commitSeqCounter := by
    show s.commitSeqCounter ≤ s.commitSeqCounter + 1
    omega
  have hsettles : ∀ seq, s.Settles L seq → (s.withCommit micros rows).Settles (L.append _ hf) seq :=
    fun seq h => h.append hf (le_refl _) hcounter rfl
  have hnew : ∀ e ∈ (s.nextTx micros rows).entries,
      e.commitSeqNum = s.commitSeqCounter ∧ e.commitMicros = micros :=
    fun e he => ⟨CommittedTx.commitSeqNum_of_mem he, CommittedTx.commitMicros_of_mem he⟩
  -- everything persisted is older than the new transaction
  have hpast : ∀ p, s.persistWatermark = some p → p < micros := by
    intro p hp
    obtain ⟨-, c, hc, hle⟩ := hinv.watermark p hp
    exact lt_of_le_of_lt hle (lt_of_le_of_ne (hclock.2 c hc) (hfresh c hc))
  have hview : (s.withCommit micros rows).views = s.views := Store.views_of_eq rfl rfl
  constructor
  case nonneg =>
    have := hinv.nonneg
    show 0 ≤ s.commitSeqCounter + 1
    omega
  case allocated =>
    intro e he
    show e.commitSeqNum < s.commitSeqCounter + 1
    rcases List.mem_append.mp he with he | he
    · have := hinv.allocated e he
      omega
    · have := (hnew e he).1
      omega
  case clock =>
    intro e he
    rcases List.mem_append.mp he with he | he
    · obtain ⟨c, hc, hle⟩ := hinv.clock e he
      exact ⟨c, List.mem_append_left _ hc, hle⟩
    · exact ⟨⟨s.commitSeqCounter, micros⟩, List.mem_append_right _ List.mem_cons_self, (hnew e he).2.le⟩
  case mem_hot =>
    intro e
    show e ∈ s.hot ++ _ ↔ e ∈ L.entries ++ _ ∧ _
    rw [List.mem_append, List.mem_append, hinv.mem_hot, or_and_right]
    refine or_congr Iff.rfl ⟨fun he => ⟨he, fun pu hpu => ?_⟩, And.left⟩
    rw [(hnew e he).1]
    exact (hinv.fences pu hpu).allocated
  case parents => exact hinv.parents
  case segments => exact hinv.segments.of_eq rfl rfl rfl rfl
  case bounded =>
    rw [hview]
    exact hinv.bounded
  case stored =>
    rw [hview]
    intro v hv e he
    obtain ⟨⟨hent, hkind⟩, hp⟩ := hinv.stored v hv e he
    exact ⟨⟨List.mem_append_left _ hent, hkind⟩, hp⟩
  case complete =>
    rw [hview]
    rintro e he ⟨p, hp, hle⟩ hfloor
    rcases List.mem_append.mp he with he | he
    · exact hinv.complete e he ⟨p, hp, hle⟩ hfloor
    · have := hpast p hp
      have := (hnew e he).2
      omega
  case ceilings =>
    rw [hview]
    exact fun v hv => hsettles _ (hinv.ceilings v hv)
  case clipped =>
    rw [hview]
    exact hinv.clipped
  case watermark =>
    intro p hp
    obtain ⟨hrange, c, hc, hle⟩ := hinv.watermark p hp
    exact ⟨hrange, c, List.mem_append_left _ hc, hle⟩
  case snapshots =>
    intro n hn
    have hsnap := hinv.snapshots n hn
    obtain ⟨p, hp, hnp⟩ := hsnap.placed
    have habove : n.snapshottedAtMicros < micros := lt_of_le_of_lt hnp (hpast p hp)
    refine ⟨hsettles _ hsnap.settled, ⟨p, hp, hnp⟩, ?_⟩
    intro e he hle
    rcases List.mem_append.mp he with he | he
    · exact hsnap.reaches e he hle
    · have := (hnew e he).2
      omega
  case ordered => exact hinv.ordered
  case fences => exact fun pu hpu => hsettles _ (hinv.fences pu hpu)
  case based => exact hinv.based

/-- A commit lies past every snapshot. -/
theorem BranchInv.replays_withCommit [DecidableEq R] (hinv : BranchInv s L floor) (hclock : s.ClockAdmits micros)
    (hfresh : ∀ c ∈ s.commitTxLog, c.commitMicros ≠ micros) (hf : L.Follows (s.nextTx micros rows))
    (hreplay : s.SnapshotsReplay L) : (s.withCommit micros rows).SnapshotsReplay (L.append _ hf) := by
  intro n hn
  obtain ⟨p, hp, hnp⟩ := (hinv.snapshots n hn).placed
  obtain ⟨-, c, hc, hle⟩ := hinv.watermark p hp
  have hlt : c.commitMicros < micros := lt_of_le_of_ne (hclock.2 c hc) (hfresh c hc)
  refine ⟨(hreplay n hn).nodup, ?_⟩
  rw [L.upTo_append hf (hnp.trans_lt (hle.trans_lt hlt))]
  exact (hreplay n hn).replay

end Commit

/-! ## Persist -/

section Persist

variable {cfg : PersistConfig R V} {s s' : Store R V} {L : BranchLog R V}
  {floor : Option Int}

/-- A later watermark settles what an earlier one did. -/
theorem Store.Settles.of_le {p' seq : Int} (h : s.Settles L seq)
    (hp : ∀ l, s.persistWatermark = some l → l ≤ p') (hp' : s'.persistWatermark = some p')
    (hcounter : s'.commitSeqCounter = s.commitSeqCounter) : s'.Settles L seq :=
  ⟨hcounter ▸ h.allocated, fun e he hle => by
    obtain ⟨l, hl, hel⟩ := h.persisted e he hle
    exact ⟨p', hp', hel.trans (hp l hl)⟩⟩

/-- A segment that reads hot rows only is not clipped: a clipped one reads a row behind a purge fence. -/
theorem BranchInv.read_eq_of_hot (hinv : BranchInv s L floor) {v : SegmentView R V} (hv : v ∈ s.views)
    (hhot : ∀ e ∈ v.rows, e ∈ s.hot) : v.read = v.rows := by
  rcases hinv.clipped v hv with heq | ⟨hne, pu, hpu, hle⟩
  · exact heq
  · obtain ⟨a, ha⟩ := List.exists_mem_of_ne_nil _ hne
    obtain ⟨harows, hceiling⟩ := List.mem_filter.mp ha
    have hlt := ((hinv.mem_hot a).mp (hhot a harows)).2 pu hpu
    have := of_decide_eq_true hceiling
    omega

/-- A view of hot rows: its bounds are exact, its ceiling settled once they are persisted. -/
theorem BranchInv.view_ofRows (hinv : BranchInv s L floor) {uuid : SegmentUuid} {rows : List (LogEntry R V)}
    (hne : rows ≠ []) (hhot : ∀ e ∈ rows, e ∈ s.hot) :
    (SegmentView.ofRows uuid rows).Bounded ∧ (SegmentView.ofRows uuid rows).read = rows ∧
      ∃ e ∈ rows, e.commitSeqNum = (SegmentView.ofRows uuid rows).maxCommitSeqNum := by
  have hexact : (SegmentView.ofRows uuid rows).Exact := SegmentView.exact_ofRows hne
  refine ⟨hexact.bounded ?_, hexact.read_eq, hexact.maxSeq⟩
  intro e he
  exact L.inRange e ((hinv.mem_hot e).mp (hhot e he)).1

theorem BranchInv.flushed (hinv : BranchInv s L floor) {persistedAt : Int}
    (hp : s.Flushed s' persistedAt) : BranchInv s' L floor := by
  obtain ⟨ws, hperm, hws, hviews⟩ := hp.views
  have hadvances : ∀ l, s.persistWatermark = some l → l ≤ persistedAt := fun l hl => (hp.advances l hl).le
  have hbatch : ∀ w ∈ ws, ∀ e ∈ w.2, e ∈ s.hot ∧ e.commitMicros ≤ persistedAt := by
    intro w hw e he
    have hmem : e ∈ ws.flatMap Prod.snd := List.mem_flatMap.mpr ⟨w, hw, he⟩
    rw [hperm.mem_iff, List.mem_filter, decide_eq_true_eq] at hmem
    exact hmem
  have hlog : ∀ e ∈ s.hot, e ∈ L.entries := fun e he => ((hinv.mem_hot e).mp he).1
  -- a view is an old one, or describes some of the rows written
  have hcases : ∀ v ∈ s'.views, v ∈ s.views ∨ ∃ w ∈ ws, v = SegmentView.ofRows w.1 w.2 := by
    intro v hv
    rw [hviews] at hv
    rcases List.mem_append.mp hv with hv | hv
    · exact .inl hv
    · obtain ⟨w, hw, rfl⟩ := List.mem_map.mp hv
      exact .inr ⟨w, (List.mem_filter.mp hw).1, rfl⟩
  have hnew : ∀ w ∈ ws, (SegmentView.ofRows w.1 w.2).Bounded ∧ (SegmentView.ofRows w.1 w.2).read = w.2 ∧
      ∃ e ∈ w.2, e.commitSeqNum = (SegmentView.ofRows w.1 w.2).maxCommitSeqNum :=
    fun w hw => hinv.view_ofRows (hws w hw).2.1 (fun e he => (hbatch w hw e he).1)
  have hsettles : ∀ seq, s.Settles L seq → s'.Settles L seq :=
    fun seq h => h.of_le hadvances hp.watermark hp.coldOnly.commitSeqCounter
  constructor
  case nonneg =>
    rw [hp.coldOnly.commitSeqCounter]
    exact hinv.nonneg
  case allocated =>
    rw [hp.coldOnly.commitSeqCounter]
    exact hinv.allocated
  case clock =>
    rw [hp.coldOnly.commitTxLog]
    exact hinv.clock
  case mem_hot =>
    rw [hp.coldOnly.hot, hp.coldOnly.purges]
    exact hinv.mem_hot
  case parents => exact hp.parents
  case segments => exact hp.segments
  case bounded =>
    intro v hv
    rcases hcases v hv with hv | ⟨w, hw, rfl⟩
    · exact hinv.bounded v hv
    · exact (hnew w hw).1
  case stored =>
    intro v hv e he
    rcases hcases v hv with hv | ⟨w, hw, rfl⟩
    · obtain ⟨hent, l, hl, hle⟩ := hinv.stored v hv e he
      exact ⟨hent, persistedAt, hp.watermark, hle.trans (hadvances l hl)⟩
    · rw [(hnew w hw).2.1] at he
      obtain ⟨hhot, hle⟩ := hbatch w hw e he
      exact ⟨⟨hlog e hhot, (hws w hw).2.2 e he⟩, persistedAt, hp.watermark, hle⟩
  case complete =>
    rintro e he ⟨p, hwm, hle⟩ hfloor
    rw [hp.watermark] at hwm
    obtain rfl := Option.some.inj hwm
    by_cases hhot : e ∈ s.hot
    · -- a hot row up to the watermark is in one of the writes; its uuid may exist with the same rows
      have hmem : e ∈ ws.flatMap Prod.snd := by
        rw [hperm.mem_iff]
        exact List.mem_filter.mpr ⟨hhot, decide_eq_true hle⟩
      obtain ⟨w, hw, hew⟩ := List.mem_flatMap.mp hmem
      cases hhas : s.hasSegment w.1 with
      | false =>
          refine ⟨SegmentView.ofRows w.1 w.2, ?_, by rwa [(hnew w hw).2.1]⟩
          rw [hviews]
          exact List.mem_append_right _ (List.mem_map_of_mem (List.mem_filter.mpr ⟨hw, by simp [hhas]⟩))
      | true =>
          obtain ⟨seg, hseg, hu⟩ := List.any_eq_true.mp hhas
          have hrows : (s.view seg).rows = w.2 := ((hws w hw).1 seg hseg (of_decide_eq_true hu)).1
          have hmem : s.view seg ∈ s.views := List.mem_map_of_mem hseg
          have hread : (s.view seg).read = w.2 := by
            rw [hinv.read_eq_of_hot hmem, hrows]
            intro a ha
            exact (hbatch w hw a (hrows ▸ ha)).1
          refine ⟨s.view seg, ?_, by rwa [hread]⟩
          rw [hviews]
          exact List.mem_append_left _ hmem
    · -- what is not hot any more was purged, so it was persisted before
      obtain ⟨v, hv, hev⟩ := hinv.complete e he (hinv.persisted_of_not_mem_hot he hhot) hfloor
      refine ⟨v, ?_, hev⟩
      rw [hviews]
      exact List.mem_append_left _ hv
  case ceilings =>
    intro v hv
    rcases hcases v hv with hv | ⟨w, hw, rfl⟩
    · exact hsettles _ (hinv.ceilings v hv)
    · -- the ceiling of a new segment is the number of one of its rows
      obtain ⟨-, -, a, ha, hmax⟩ := hnew w hw
      obtain ⟨hhot, hle⟩ := hbatch w hw a ha
      rw [← hmax]
      refine ⟨hp.coldOnly.commitSeqCounter ▸ hinv.allocated a (hlog a hhot), ?_⟩
      intro e he hea
      exact ⟨persistedAt, hp.watermark, ((L.axes e he a (hlog a hhot)).mp hea).trans hle⟩
  case clipped =>
    rw [hp.coldOnly.purges]
    intro v hv
    rcases hcases v hv with hv | ⟨w, hw, rfl⟩
    · exact hinv.clipped v hv
    · exact .inl (hnew w hw).2.1
  case watermark =>
    intro p hwm
    rw [hp.watermark] at hwm
    obtain rfl := Option.some.inj hwm
    obtain ⟨a, ha, rfl⟩ := hp.attained
    rw [hp.coldOnly.commitTxLog]
    exact ⟨L.inRange a (hlog a ha), hinv.clock a (hlog a ha)⟩
  case snapshots =>
    rw [hp.coldOnly.snapshots]
    intro n hn
    have hsnap := hinv.snapshots n hn
    obtain ⟨l, hl, hnl⟩ := hsnap.placed
    exact ⟨hsettles _ hsnap.settled, ⟨persistedAt, hp.watermark, hnl.trans (hadvances l hl)⟩,
      hsnap.reaches⟩
  case ordered =>
    rw [hp.coldOnly.snapshots]
    exact hinv.ordered
  case fences =>
    rw [hp.coldOnly.purges]
    exact fun pu hpu => hsettles _ (hinv.fences pu hpu)
  case based =>
    rw [hp.coldOnly.snapshots]
    exact hinv.based

theorem BranchInv.persistLocked (hinv : BranchInv s L floor) {requestTarget : Option Int} {step1Now : Int}
    (hnc : NoClobber cfg s (.persist requestTarget step1Now)) :
    BranchInv (s.persistLocked cfg requestTarget step1Now) L floor := by
  rcases Store.persistLocked_flushed hinv.segments hinv.parents hnc with heq | ⟨persistedAt, hp⟩
  · rwa [heq]
  · exact hinv.flushed hp

theorem Store.SnapshotsReplay.persistLocked [DecidableEq R] (h : s.SnapshotsReplay L) (requestTarget : Option Int) (step1Now : Int) :
    (s.persistLocked cfg requestTarget step1Now).SnapshotsReplay L := by
  rw [SnapshotsReplay, (s.coldOnly_persistLocked cfg requestTarget step1Now).snapshots]
  exact h

/-- The gate stops a Persist only below the watermark. -/
theorem le_watermark_of_gated {last : Option Int} {upserts deletes : List (LogEntry R V)}
    (h : computeCandidatePersistedAtGated last upserts deletes = none) {e : LogEntry R V}
    (he : e ∈ upserts ++ deletes) : ∃ l, last = some l ∧ e.commitMicros ≤ l := by
  obtain ⟨a, -, hmicros⟩ := exists_max?_map (f := LogEntry.commitMicros) (List.ne_nil_of_mem he)
  obtain ⟨b, -, hseq⟩ := exists_max?_map (f := LogEntry.commitSeqNum) (List.ne_nil_of_mem he)
  unfold computeCandidatePersistedAtGated at h
  rw [hmicros, hseq] at h
  simp only [ite_eq_left_iff, reduceCtorEq, imp_false, Bool.not_eq_true, Bool.not_eq_false] at h
  cases last with
  | none => cases h
  | some l => exact ⟨l, rfl, (le_max?_map hmicros he).trans (of_decide_eq_true h)⟩

/-- A Persist takes every entry at or below its target to the watermark. -/
theorem BranchInv.persisted_of_le_target (hinv : BranchInv s L floor) {requestTarget : Option Int}
    {step1Now : Int} (hnc : NoClobber cfg s (.persist requestTarget step1Now))
    (hpos : 0 < effectiveTarget requestTarget step1Now) {e : LogEntry R V} (he : e ∈ L.entries)
    (hle : e.commitMicros ≤ effectiveTarget requestTarget step1Now) :
    (s.persistLocked cfg requestTarget step1Now).PersistedEntry e := by
  by_cases hhot : e ∈ s.hot
  · have hbatch : e ∈ s.readCommitted .upsertLog (effectiveTarget requestTarget step1Now) ++
        s.readCommitted .deleteLog (effectiveTarget requestTarget step1Now) :=
      Store.mem_readCommitted_append.mpr ⟨hhot, (lt_satSucc_iff (L.inRange e he).2).mpr hle⟩
    unfold Store.persistLocked
    simp only [not_le.mpr hpos, if_false]
    split
    · rename_i hgate
      exact le_watermark_of_gated hgate hbatch
    · rename_i persistedAt seq hgate
      obtain ⟨-, hmax, -, -, hlast⟩ := computeCandidatePersistedAtGated_eq_some hgate
      exact ⟨persistedAt, Store.writePersist_persistWatermark hinv.parents (List.ne_nil_of_mem hbatch) hlast,
        hmax e hbatch⟩
  · -- What left hot is persisted, and the watermark does not go back.
    obtain ⟨l, hl, hel⟩ := hinv.persisted_of_not_mem_hot he hhot
    rcases Store.persistLocked_flushed hinv.segments hinv.parents hnc with heq | ⟨persistedAt, hp⟩
    · rw [heq]
      exact ⟨l, hl, hel⟩
    · exact ⟨persistedAt, hp.watermark, hel.trans (hp.advances l hl).le⟩

end Persist

/-! ## Snapshot -/

section Snapshot

variable {cfg : PersistConfig R V} {s : Store R V} {L : BranchLog R V} {floor : Option Int} {upper : Int}
  {prev : Option (TableSnapshot R V)}

/-- The window of a snapshot ends at or below the persist watermark and starts past the last snapshot. -/
theorem Store.computeSnapshotWindow_eq_some {asOfMicros : Option Int}
    (h : s.computeSnapshotWindow asOfMicros = some (upper, prev)) :
    prev = pickSnapshot s.snapshots ∧ (∃ p, s.persistWatermark = some p ∧ upper ≤ p) ∧
      ∀ n, prev = some n → n.snapshottedAtMicros < upper := by
  unfold computeSnapshotWindow at h
  obtain ⟨p, hp, h⟩ := Option.bind_eq_some_iff.mp h
  have hwm := (Option.filter_eq_some_iff.mp hp).1
  have hle : snapshotUpper asOfMicros p ≤ p := by
    cases asOfMicros with
    | none => exact le_refl p
    | some t => exact min_le_right t p
  cases hpick : pickSnapshot s.snapshots with
  | none =>
      simp only [hpick, Option.some.injEq, Prod.mk.injEq] at h
      obtain ⟨rfl, rfl⟩ := h
      exact ⟨rfl, ⟨p, hwm, hle⟩, by simp⟩
  | some n =>
      simp only [hpick, Option.ite_none_left_eq_some, Option.some.injEq, Prod.mk.injEq] at h
      obtain ⟨hlt, rfl, rfl⟩ := h
      refine ⟨rfl, ⟨p, hwm, hle⟩, ?_⟩
      rintro m hm
      obtain rfl := Option.some.inj hm
      omega

variable [DecidableEq R]

/-- Where `W_snap` comes from: genesis, the previous snapshot, or a segment. -/
theorem Store.newSnapshot_seq_cases (hok : s.SegmentsOk) (indexes : List SnapshotIndexDef) :
    (s.newSnapshot cfg upper prev indexes).commitSeqNum = snapshotSeqGenesis ∨
      (∃ n, prev = some n ∧ (s.newSnapshot cfg upper prev indexes).commitSeqNum = n.commitSeqNum) ∨
      ∃ v ∈ s.views, (s.newSnapshot cfg upper prev indexes).commitSeqNum = v.maxCommitSeqNum := by
  simp only [Store.newSnapshot, Store.newSnapshotSeq, computeSnapshotSeqWatermark]
  rw [Store.maxPersistedSegmentSeqForWindow_eq hok]
  rcases max_choice ((prev.map TableSnapshot.commitSeqNum).getD snapshotSeqGenesis) _ with h | h
  · rw [h]
    cases prev with
    | none => exact Or.inl rfl
    | some n => exact Or.inr (Or.inl ⟨n, rfl, rfl⟩)
  · rw [h]
    generalize hmax : List.max? (List.map SegmentView.maxCommitSeqNum _) = m
    cases m with
    | none => exact Or.inl rfl
    | some w =>
        obtain ⟨v, hv, rfl⟩ := List.mem_map.mp (List.max?_eq_some_iff.mp hmax).1
        exact Or.inr (Or.inr ⟨v, (List.mem_filter.mp hv).1, rfl⟩)

theorem Store.prev_le_newSnapshot_seq {n : TableSnapshot R V} (hn : prev = some n)
    (indexes : List SnapshotIndexDef) :
    n.commitSeqNum ≤ (s.newSnapshot cfg upper prev indexes).commitSeqNum := by
  subst hn
  exact le_max_left _ _

variable (hinv : BranchInv s L floor) (hprev : prev = pickSnapshot s.snapshots)
  (hupper : ∃ p, s.persistWatermark = some p ∧ upper ≤ p)
include hinv hprev

omit [DecidableEq R] in
/-- The previous snapshot is the latest and lies in the clock range. -/
theorem BranchInv.prev_spec {n : TableSnapshot R V} (hn : prev = some n) :
    n ∈ s.snapshots ∧ n.snapshottedAtMicros < i64Max ∧ ∀ n' ∈ s.snapshots,
      n'.snapshottedAtMicros ≤ n.snapshottedAtMicros ∧ n'.commitSeqNum ≤ n.commitSeqNum := by
  obtain ⟨hmem, hmax⟩ := hinv.of_pickSnapshot (fun n hn => hn) (hprev.symm.trans hn)
  exact ⟨hmem, hinv.snapshottedAt_lt hmem, hmax⟩

omit [DecidableEq R] in
/-- What lies past the previous snapshot lies past the floor. -/
theorem BranchInv.floor_lt {e : LogEntry R V}
    (hlow : ∀ n, prev = some n → n.snapshottedAtMicros < e.commitMicros) :
    ∀ f, floor = some f → f < e.commitMicros := by
  intro f hf
  obtain ⟨hne, hle⟩ := hinv.based f hf
  cases hn : prev with
  | none =>
      rw [hn, eq_comm, pickSnapshot, newest_eq_none] at hprev
      exact absurd hprev hne
  | some n =>
      have := hlow n hn
      have := hle n (hinv.prev_spec hprev hn).1
      omega

include hupper

omit [DecidableEq R] in
/-- A stored entry of the window is in a segment the window fetch returns. -/
theorem BranchInv.exists_overlapping_view {e : LogEntry R V} (he : e ∈ L.entries)
    (hlow : ∀ n, prev = some n → n.snapshottedAtMicros < e.commitMicros)
    (hle : e.commitMicros ≤ upper) :
    ∃ v ∈ s.views, e ∈ v.read ∧
      v.overlapsWindow (prev.map (fun n => satSucc n.snapshottedAtMicros)) (some (satSucc upper)) none
        = true := by
  obtain ⟨p, hp, hup⟩ := hupper
  obtain ⟨v, hv, hev⟩ := hinv.complete e he ⟨p, hp, hle.trans hup⟩ (hinv.floor_lt hprev hlow)
  refine ⟨v, hv, hev, ?_⟩
  have hbounds := (hinv.bounded v hv).micros e hev
  obtain ⟨hmin, hmax⟩ := (hinv.bounded v hv).inRange
  simp only [SegmentView.overlapsWindow, Option.all_some, Option.all_none, Bool.and_true,
    Bool.and_eq_true, decide_eq_true_eq]
  constructor
  · cases hn : prev with
    | none => rfl
    | some n =>
        have hlt := hlow n hn
        have hrange := (hinv.prev_spec hprev hn).2.1
        simp only [Option.map_some, Option.all_some, decide_eq_true_eq, gt_iff_lt]
        rw [lt_iff_satPred_satSucc (by unfold i64Min; omega) hrange]
        omega
  · rw [le_satPred_satSucc_iff (by unfold i64Min; omega) hmin.2]
    omega

omit [DecidableEq R] in
/-- **The delta of a snapshot** is the part of the log in its window. -/
theorem BranchInv.mem_snapshotDelta {e : LogEntry R V} :
    e ∈ s.snapshotDelta (prev.map (fun n => satSucc n.snapshottedAtMicros)) (satSucc upper) ↔
      e ∈ L.entries ∧ (∀ n, prev = some n → n.snapshottedAtMicros < e.commitMicros) ∧
        e.commitMicros ≤ upper := by
  unfold Store.snapshotDelta
  rw [List.mem_filter, Store.mem_windowEntries_read hinv.segments, Bool.and_eq_true, decide_eq_true_eq]
  have hlow : (prev.map (fun n => satSucc n.snapshottedAtMicros)).all
      (fun f => decide (f ≤ e.commitMicros)) = true ↔
        ∀ n, prev = some n → n.snapshottedAtMicros < e.commitMicros := by
    cases hn : prev with
    | none => simp
    | some n =>
        have hrange := (hinv.prev_spec hprev hn).2.1
        simp only [Option.map_some, Option.all_some, decide_eq_true_eq, Option.some.injEq,
          forall_eq']
        unfold satSucc i64Max at *
        omega
  rw [hlow]
  constructor
  · rintro ⟨⟨v, hv, -, hev⟩, hl, hu⟩
    have he := (hinv.stored v hv e hev).1.1
    exact ⟨he, hl, (lt_satSucc_iff (L.inRange e he).2).mp hu⟩
  · rintro ⟨he, hl, hu⟩
    obtain ⟨v, hv, hev, hover⟩ := hinv.exists_overlapping_view hprev hupper he hl hu
    exact ⟨⟨v, hv, hover, hev⟩, hl, (lt_satSucc_iff (L.inRange e he).2).mpr hu⟩

/-- `W_snap` is at least the sequence number of everything at or below the snapshot's position. -/
theorem BranchInv.newSnapshot_reaches (indexes : List SnapshotIndexDef) {e : LogEntry R V}
    (he : e ∈ L.entries) (hle : e.commitMicros ≤ upper) :
    e.commitSeqNum ≤ (s.newSnapshot cfg upper prev indexes).commitSeqNum := by
  by_cases hlow : ∀ n, prev = some n → n.snapshottedAtMicros < e.commitMicros
  · obtain ⟨v, hv, hev, hover⟩ := hinv.exists_overlapping_view hprev hupper he hlow hle
    have hseq : e.commitSeqNum ≤ v.maxCommitSeqNum := of_decide_eq_true (List.mem_filter.mp hev).2
    refine hseq.trans (le_max_of_le_right ?_)
    rw [Store.maxPersistedSegmentSeqForWindow_eq hinv.segments]
    have hmem : v ∈ s.views.filter (SegmentView.overlapsWindow
        (prev.map (fun n => satSucc n.snapshottedAtMicros)) (some (satSucc upper)) none) :=
      List.mem_filter.mpr ⟨hv, hover⟩
    obtain ⟨w, -, hmax⟩ := exists_max?_map (f := SegmentView.maxCommitSeqNum) (List.ne_nil_of_mem hmem)
    rw [hmax]
    exact le_max?_map hmax hmem
  · push Not at hlow
    obtain ⟨n, hn, hen⟩ := hlow
    have hmem := (hinv.prev_spec hprev hn).1
    exact ((hinv.snapshots n hmem).reaches e he hen).trans (Store.prev_le_newSnapshot_seq hn indexes)

omit [DecidableEq R] in
/-- The delta of a window is one tier of the log. -/
theorem BranchInv.separated_snapshotDelta : Separated LogEntry.version LogEntry.rowUuid {e | e ∈ [] ++
    s.snapshotDelta (prev.map (fun n => satSucc n.snapshottedAtMicros)) (satSucc upper)} :=
  L.separated.mono (fun _ he => ((hinv.mem_snapshotDelta hprev hupper).mp he).1)

/-- The reverse lookup finds every row of the delta: its newest entry is live, or in a delete segment. -/
theorem BranchInv.mem_touched_rows {r : R} (h : ∃ e ∈ s.snapshotDelta
      (prev.map (fun n => satSucc n.snapshottedAtMicros)) (satSucc upper), e.rowUuid = r) :
    r ∈ (composeResolvedAndExclusion [] (mergeResolved (s.snapshotDelta
        (prev.map (fun n => satSucc n.snapshottedAtMicros)) (satSucc upper)))).1.map Prod.fst ++
      (s.windowDeletes (prev.map (fun n => satSucc n.snapshottedAtMicros)) (satSucc upper)).map LogEntry.rowUuid := by
  have hsep := hinv.separated_snapshotDelta hprev hupper
  obtain ⟨e, rfl, he⟩ := exists_newestOf h
  rw [List.mem_append]
  cases hv : e.effect with
  | some v =>
      refine .inl (List.mem_map.mpr ⟨(e.rowUuid, v), ?_, rfl⟩)
      exact List.mem_filterMap.mpr ⟨e, (mem_unionLatest hsep (by simp)).mpr he, by rw [hv]; rfl⟩
  | none =>
      have hkind : e.kind = .deleteLog := by
        rw [LogEntry.kind]
        rw [LogEntry.effect] at hv
        cases hc : e.change with
        | upsert v => rw [hc] at hv; cases hv
        | delete => rfl
      obtain ⟨seg, hseg, hread⟩ := Store.mem_windowEntries.mp (List.mem_filter.mp he.mem).1
      have hview : s.view seg ∈ s.views := List.mem_map_of_mem ((Store.mem_segmentsForWindow_iff hinv.segments).mp hseg).1
      have hstored := (hinv.stored _ hview e hread).1.2
      refine .inr (List.mem_map_of_mem (List.mem_flatMap.mpr ⟨seg, List.mem_filter.mpr ⟨hseg, ?_⟩,
        (List.mem_filter.mp hread).1⟩))
      exact decide_eq_true (hstored.symm.trans hkind)

/-- A snapshot that rewrites the partitions of the rows it replaces has the rows of a full rewrite. -/
theorem BranchInv.snapshotRows_eq {prior : List (R × V)}
    (hrewrites : s.ReplacedTouched cfg (prev.map (fun n => satSucc n.snapshottedAtMicros)) (satSucc upper) prior) :
    s.snapshotRows cfg (prev.map (fun n => satSucc n.snapshottedAtMicros)) (satSucc upper) prior =
      mergeRows [] (mergeResolved (s.snapshotDelta (prev.map (fun n => satSucc n.snapshottedAtMicros))
        (satSucc upper))) prior := by
  rw [Store.snapshotRows]
  split
  · rfl
  rename_i p hp
  rw [mergeRows]
  refine congrArg _ (List.filter_congr (fun x hx => ?_))
  rw [decide_eq_decide]
  refine ⟨fun h hmem => ?_, .inr⟩
  refine h.elim (fun htouched => htouched ?_) (fun hout => hout hmem)
  have hdelta := (mem_exclusion (hinv.separated_snapshotDelta hprev hupper) (by simp)).mp hmem
  cases hsub : p.subsetOfPk with
  | true => exact hrewrites p hp hsub x hx hdelta
  | false =>
      -- Without partition columns in the delete log the label is that of the row found.
      rw [Store.touchedLabels, Partitioning.touched, hsub]
      refine List.mem_append_right _ (List.mem_map_of_mem (List.mem_filter.mpr ⟨hx, decide_eq_true ?_⟩))
      exact hinv.mem_touched_rows hprev hupper hdelta

variable (hreplay : s.SnapshotsReplay L) (hrewrites : s.ReplacedTouched cfg
  (prev.map (fun n => satSucc n.snapshottedAtMicros)) (satSucc upper) ((prev.map TableSnapshot.rows).getD []))

include hreplay hrewrites in
/-- **A new snapshot holds the replay** of the entries at or below its position. -/
theorem BranchInv.mem_newSnapshot_rows (hlt : ∀ n, prev = some n → n.snapshottedAtMicros < upper)
    (indexes : List SnapshotIndexDef) (r : R) (v : V) :
    (r, v) ∈ (s.newSnapshot cfg upper prev indexes).rows ↔ newestEffect (L.upTo upper) r = some v := by
  set delta := s.snapshotDelta (prev.map (fun n => satSucc n.snapshottedAtMicros)) (satSucc upper)
  have hdelta : ∀ e, e ∈ delta ↔ e ∈ L.entries ∧
      (∀ n, prev = some n → n.snapshottedAtMicros < e.commitMicros) ∧ e.commitMicros ≤ upper :=
    fun e => hinv.mem_snapshotDelta hprev hupper
  let base : LogEntry R V → Bool := fun e => prev.any (fun n => decide (e.commitMicros ≤ n.snapshottedAtMicros))
  have hbase : ∀ e, base e = false ↔ ∀ n, prev = some n → n.snapshottedAtMicros < e.commitMicros := by
    intro e
    cases prev <;> simp [base]
  rw [Store.newSnapshot, hinv.snapshotRows_eq hprev hupper hrewrites]
  change (r, v) ∈ mergeRows (mergeResolved []) (mergeResolved delta) _ ↔ _
  refine mem_mergeRows_iff_newestEffect base (L.separated_upTo upper) ?_ (by simp) ?_ ?_ ?_ ?_
  · intro e he
    obtain ⟨hent, -, hle⟩ := (hdelta e).mp he
    exact BranchLog.mem_upTo.mpr ⟨hent, hle⟩
  · -- What the previous snapshot folded is the older part.
    intro e he e' he' hb hb'
    obtain ⟨n, hn, hle⟩ : ∃ n, prev = some n ∧ e.commitMicros ≤ n.snapshottedAtMicros := by
      cases hp : prev with
      | none => simp [base, hp] at hb
      | some n => exact ⟨n, rfl, by simpa [base, hp] using hb⟩
    have hgt := (hbase e').mp hb' n hn
    exact (BranchLog.version_lt_of_commitMicros_lt (BranchLog.mem_upTo.mp he).1
      (BranchLog.mem_upTo.mp he').1 (by omega)).le
  · intro e he hb
    obtain ⟨hent, hle⟩ := BranchLog.mem_upTo.mp he
    exact (hdelta e).mpr ⟨hent, (hbase e).mp hb, hle⟩
  · intro r v
    cases hp : prev with
    | none =>
        have hnil : (L.upTo upper).filter base = [] := by
          rw [List.filter_eq_nil_iff]
          simp [base, hp]
        simp [hnil, newestEffect, outcome]
    | some n =>
        have hfilter : (L.upTo upper).filter base = L.upTo n.snapshottedAtMicros := by
          have := hlt n hp
          simp only [BranchLog.upTo, List.filter_filter, base, hp, Option.any_some]
          refine List.filter_congr (fun e _ => ?_)
          by_cases hle : e.commitMicros ≤ n.snapshottedAtMicros
          · have : e.commitMicros ≤ upper := by omega
            simp [hle, this]
          · simp [hle]
        rw [hfilter]
        exact (hreplay n (hinv.prev_spec hprev hp).1).replay r v
  · -- The delta starts past the previous snapshot: nothing is left over.
    rintro r ⟨e, he, hr⟩ hall
    have hb := (hbase e).mpr ((hdelta e).mp he).2.1
    rw [hall e he hr] at hb
    simp at hb

include hreplay hrewrites in
theorem BranchInv.newSnapshot_replays (hlt : ∀ n, prev = some n → n.snapshottedAtMicros < upper)
    (indexes : List SnapshotIndexDef) : (s.newSnapshot cfg upper prev indexes).Replays L := by
  refine ⟨?_, hinv.mem_newSnapshot_rows hprev hupper hreplay hrewrites hlt indexes⟩
  rw [Store.newSnapshot, hinv.snapshotRows_eq hprev hupper hrewrites]
  refine nodup_map_fst_mergeRows ?_
  cases hn : prev with
  | none => simp
  | some n => exact (hreplay n (hinv.prev_spec hprev hn).1).nodup

omit hupper in
/-- `W_snap` is settled: it is genesis, an older `W_snap` or the ceiling of a segment. -/
theorem BranchInv.newSnapshot_settled (indexes : List SnapshotIndexDef) :
    s.Settles L (s.newSnapshot cfg upper prev indexes).commitSeqNum := by
  rcases Store.newSnapshot_seq_cases hinv.segments indexes with h | ⟨n, hn, h⟩ | ⟨v, hv, h⟩
  · rw [h]
    have hnonneg := hinv.nonneg
    unfold snapshotSeqGenesis
    refine ⟨by omega, ?_⟩
    intro e he hle
    have := L.nonneg e he
    omega
  · rw [h]
    exact (hinv.snapshots n (hinv.prev_spec hprev hn).1).settled
  · rw [h]
    exact hinv.ceilings v hv

omit hupper in
/-- The new snapshot comes after every other, on both axes. -/
theorem BranchInv.lt_newSnapshot (hlt : ∀ n, prev = some n → n.snapshottedAtMicros < upper)
    (indexes : List SnapshotIndexDef) {n : TableSnapshot R V} (hn : n ∈ s.snapshots) :
    n.snapshottedAtMicros < upper ∧ n.commitSeqNum ≤ (s.newSnapshot cfg upper prev indexes).commitSeqNum := by
  cases hpick : prev with
  | none =>
      rw [hpick, eq_comm, pickSnapshot, newest_eq_none] at hprev
      simp [hprev] at hn
  | some m =>
      obtain ⟨-, -, hmax⟩ := hinv.prev_spec hprev hpick
      obtain ⟨hmicros, hseq⟩ := hmax n hn
      exact ⟨lt_of_le_of_lt hmicros (hlt m hpick), hseq.trans (Store.prev_le_newSnapshot_seq rfl indexes)⟩

theorem BranchInv.newSnapshot_spec (indexes : List SnapshotIndexDef) :
    BranchSnapshot s L (s.newSnapshot cfg upper prev indexes) :=
  ⟨hinv.newSnapshot_settled hprev indexes, hupper, fun _ he => hinv.newSnapshot_reaches hprev hupper indexes he⟩

omit hprev hupper in
/-- A Snapshot that rewrites what it replaces keeps the contents of the snapshots right. -/
theorem BranchInv.replays_snapshotLocked {snapshottedAt : Option Int} {indexes : List SnapshotIndexDef}
    (hreplay : s.SnapshotsReplay L) (hrewrites : RewritesReplaced cfg s (.snapshot snapshottedAt indexes)) :
    (s.snapshotLocked cfg snapshottedAt indexes).SnapshotsReplay L := by
  unfold Store.snapshotLocked
  split
  · exact hreplay
  rename_i upper prev hwindow
  obtain ⟨hprev, hupper, hlt⟩ := Store.computeSnapshotWindow_eq_some hwindow
  intro n hn
  rcases List.mem_append.mp hn with hn | hn
  · exact hreplay n hn
  · rw [List.mem_singleton.mp hn]
    exact hinv.newSnapshot_replays hprev hupper hreplay (hrewrites _ hwindow) hlt indexes

omit hprev hupper in
theorem BranchInv.snapshotLocked (snapshottedAt : Option Int) (indexes : List SnapshotIndexDef) :
    BranchInv (s.snapshotLocked cfg snapshottedAt indexes) L floor := by
  unfold Store.snapshotLocked
  split
  · exact hinv
  rename_i upper prev hwindow
  obtain ⟨hprev, hupper, hlt⟩ := Store.computeSnapshotWindow_eq_some hwindow
  have hsettles : ∀ seq, s.Settles L seq →
      Store.Settles { s with snapshots := s.snapshots ++ [s.newSnapshot cfg upper prev indexes] } L seq :=
    fun seq h => ⟨h.allocated, h.persisted⟩
  have hkeeps : ∀ n, BranchSnapshot s L n →
      BranchSnapshot { s with snapshots := s.snapshots ++ [s.newSnapshot cfg upper prev indexes] } L n :=
    fun n h => ⟨hsettles _ h.settled, h.placed, h.reaches⟩
  refine
    { nonneg := hinv.nonneg, allocated := hinv.allocated, clock := hinv.clock, mem_hot := hinv.mem_hot
      parents := hinv.parents, segments := hinv.segments.of_eq rfl rfl rfl rfl, bounded := hinv.bounded
      stored := hinv.stored, complete := hinv.complete
      ceilings := fun v hv => hsettles _ (hinv.ceilings v hv), clipped := hinv.clipped
      watermark := hinv.watermark, snapshots := ?snapshots, ordered := ?ordered
      fences := fun pu hpu => hsettles _ (hinv.fences pu hpu), based := ?based }
  case snapshots =>
    intro n hn
    rcases List.mem_append.mp hn with hn | hn
    · exact hkeeps n (hinv.snapshots n hn)
    · rw [List.mem_singleton.mp hn]
      exact hkeeps _ (hinv.newSnapshot_spec hprev hupper indexes)
  case ordered =>
    refine List.pairwise_append.mpr ⟨hinv.ordered, List.pairwise_singleton _ _, ?_⟩
    intro n hn n' hn'
    rw [List.mem_singleton.mp hn']
    exact hinv.lt_newSnapshot hprev hlt indexes hn
  case based =>
    intro f hf
    obtain ⟨hne, hle⟩ := hinv.based f hf
    refine ⟨by simp, ?_⟩
    intro n hn
    rcases List.mem_append.mp hn with hn | hn
    · exact hle n hn
    · obtain ⟨m, hm⟩ := List.exists_mem_of_ne_nil _ hne
      have hlast : m.snapshottedAtMicros < upper ∧ m.commitSeqNum ≤
          (s.newSnapshot cfg upper prev indexes).commitSeqNum := hinv.lt_newSnapshot hprev hlt indexes hm
      rw [List.mem_singleton.mp hn]
      exact (hle m hm).trans hlast.1.le

end Snapshot

/-! ## Purge -/

theorem Store.exists_snapshot_of_purge {s : Store R V} {pu : Int}
    (h : computePurgeWatermark s.snapshotSeqWatermark s.purgeSeqWatermark = some pu) :
    ∃ n ∈ s.snapshots, n.commitSeqNum = pu := by
  unfold computePurgeWatermark at h
  obtain ⟨c, hc, h⟩ := Option.bind_eq_some_iff.mp h
  have hpu : c = pu := by
    cases hlast : s.purgeSeqWatermark with
    | none => simpa [hlast] using h
    | some lp =>
        simp only [hlast, Option.ite_none_left_eq_some, Option.some.injEq] at h
        exact h.2
  exact List.mem_map.mp (List.max?_eq_some_iff.mp (hpu ▸ hc)).1

@[simp] theorem Store.purgeLocked_snapshots (s : Store R V) : s.purgeLocked.snapshots = s.snapshots := by
  unfold purgeLocked
  split <;> rfl

theorem BranchInv.purgeLocked [DecidableEq R] {s : Store R V} {L : BranchLog R V} {floor : Option Int}
    (hinv : BranchInv s L floor) : BranchInv s.purgeLocked L floor := by
  unfold Store.purgeLocked
  split
  · exact hinv
  rename_i pu hpu
  obtain ⟨n, hn, hseq⟩ := Store.exists_snapshot_of_purge hpu
  have hpuSettled : s.Settles L pu := hseq ▸ (hinv.snapshots n hn).settled
  have hsettles : ∀ seq, s.Settles L seq → Store.Settles
      { s with hot := s.hot.filter (fun e => pu < e.commitSeqNum), purges := s.purges ++ [pu] } L seq :=
    fun seq h => ⟨h.allocated, h.persisted⟩
  refine
    { nonneg := hinv.nonneg, allocated := hinv.allocated, clock := hinv.clock, mem_hot := ?mem_hot
      parents := hinv.parents, segments := hinv.segments.of_eq rfl rfl rfl rfl, bounded := hinv.bounded
      stored := hinv.stored, complete := hinv.complete
      ceilings := fun v hv => hsettles _ (hinv.ceilings v hv), clipped := ?clipped
      watermark := hinv.watermark, snapshots := ?snapshots, ordered := hinv.ordered
      fences := ?fences, based := hinv.based }
  case mem_hot =>
    intro e
    show e ∈ s.hot.filter _ ↔ e ∈ L.entries ∧ ∀ q ∈ s.purges ++ [pu], q < e.commitSeqNum
    rw [List.mem_filter, hinv.mem_hot, decide_eq_true_eq, and_assoc]
    simp only [List.mem_append, List.mem_singleton, or_imp, forall_and, forall_eq]
  case clipped =>
    intro v hv
    rcases hinv.clipped v hv with heq | ⟨hne, q, hq, hle⟩
    · exact .inl heq
    · exact .inr ⟨hne, q, List.mem_append_left _ hq, hle⟩
  case snapshots =>
    intro m hm
    have hsnap := hinv.snapshots m hm
    exact ⟨hsettles _ hsnap.settled, hsnap.placed, hsnap.reaches⟩
  case fences =>
    intro q hq
    rcases List.mem_append.mp hq with hq | hq
    · exact hsettles _ (hinv.fences q hq)
    · rw [List.mem_singleton.mp hq]
      exact hsettles _ hpuSettled

/-! ## Runs -/

/-- A branch with the log entries committed on it. -/
structure Branch (R V : Type) where
  store : Store R V
  log : List (LogEntry R V)

/-- The entries an operation commits: those of a commit that passes the unique index. -/
def Store.committedBy (s : Store R V) : Op R V → List (LogEntry R V)
  | .commit micros rows =>
      if s.commitTxLog.any (fun c => c.commitMicros = micros) then [] else (s.nextTx micros rows).entries
  | _ => []

section Runs

variable [DecidableEq R] {cfg : PersistConfig R V} {b b' : Branch R V} {floor : Option Int} {o : Op R V}

/-- One operation on a branch. -/
def branchStep (cfg : PersistConfig R V) (b : Branch R V) (o : Op R V) : Option (Branch R V) :=
  (step cfg b.store o).map (fun s => ⟨s, b.log ++ b.store.committedBy o⟩)

/-- A Persist of the branch does not clobber. -/
def BranchNoClobber (cfg : PersistConfig R V) (b : Branch R V) (o : Op R V) : Prop := NoClobber cfg b.store o

instance [DecidableEq V] (cfg : PersistConfig R V) (b : Branch R V) (o : Op R V) :
    Decidable (BranchNoClobber cfg b o) :=
  inferInstanceAs (Decidable (NoClobber cfg b.store o))

/-- The branch keeps the invariant for its log. -/
def Branch.Keeps (b : Branch R V) (floor : Option Int) : Prop :=
  ∃ L : BranchLog R V, L.entries = b.log ∧ BranchInv b.store L floor

/-- A Persist of the branch does not clobber, a Snapshot rewrites what it replaces. -/
def BranchKeepsRows (cfg : PersistConfig R V) (b : Branch R V) (o : Op R V) : Prop := KeepsRows cfg b.store o

instance [DecidableEq V] (cfg : PersistConfig R V) (b : Branch R V) (o : Op R V) :
    Decidable (BranchKeepsRows cfg b o) :=
  inferInstanceAs (Decidable (KeepsRows cfg b.store o))

/-- The branch keeps the invariant, and its snapshots are replays of its log. -/
def Branch.Replays (b : Branch R V) (floor : Option Int) : Prop :=
  ∃ L : BranchLog R V, L.entries = b.log ∧ BranchInv b.store L floor ∧ b.store.SnapshotsReplay L

/-- A log is its entries. -/
theorem Branch.Keeps.replays {L : BranchLog R V} (h : b.Keeps floor) (hL : L.entries = b.log)
    (hreplay : b.store.SnapshotsReplay L) : b.Replays floor := by
  obtain ⟨L', hL', hinv⟩ := h
  obtain rfl : L' = L := by
    cases L
    cases L'
    simp_all
  exact ⟨L', hL', hinv, hreplay⟩

/-- What a branch can become: the log grows at the counter, no purge fence is lifted. -/
structure Branch.Grows (b b' : Branch R V) : Prop where
  log : ∃ es, b'.log = b.log ++ es ∧ ∀ e ∈ es, b.store.commitSeqCounter ≤ e.commitSeqNum
  counter : b.store.commitSeqCounter ≤ b'.store.commitSeqCounter
  purges : ∀ pu ∈ b.store.purges, pu ∈ b'.store.purges
  snapshots : ∀ n ∈ b.store.snapshots, n ∈ b'.store.snapshots

omit [DecidableEq R] in
theorem Branch.Grows.refl (b : Branch R V) : b.Grows b :=
  ⟨⟨[], by simp, by simp⟩, le_refl _, fun _ h => h, fun _ h => h⟩

theorem branchStep_cases (h : branchStep cfg b o = some b') :
    (∃ micros rows, o = .commit micros rows ∧ b.store.ClockAdmits micros ∧
      (∀ c ∈ b.store.commitTxLog, c.commitMicros ≠ micros) ∧
      b' = ⟨b.store.withCommit micros rows, b.log ++ (b.store.nextTx micros rows).entries⟩) ∨
    (∃ requestTarget step1Now, o = .persist requestTarget step1Now ∧
      b' = ⟨b.store.persistLocked cfg requestTarget step1Now, b.log⟩) ∨
    (∃ snapshottedAt indexes, o = .snapshot snapshottedAt indexes ∧
      b' = ⟨b.store.snapshotLocked cfg snapshottedAt indexes, b.log⟩) ∨
    b' = ⟨b.store.purgeLocked, b.log⟩ ∨ b' = b := by
  obtain ⟨s', hs, rfl⟩ := Option.map_eq_some_iff.mp h
  cases o with
  | commit micros rows =>
      by_cases htie : b.store.commitTxLog.any (fun c => c.commitMicros = micros)
      · have heq : s' = b.store := by
          rcases Store.commitTx_cases hs with heq | ⟨-, hfresh, -⟩
          · exact heq
          · obtain ⟨c, hc, hat⟩ := List.any_eq_true.mp htie
            exact absurd (of_decide_eq_true hat) (hfresh c hc)
        have hnone : b.store.committedBy (.commit micros rows) = [] := if_pos htie
        rw [heq, hnone, List.append_nil]
        exact .inr (.inr (.inr (.inr rfl)))
      · have hsome : b.store.committedBy (.commit micros rows) = (b.store.nextTx micros rows).entries :=
          if_neg htie
        have hs' : s' = b.store.withCommit micros rows ∧ b.store.ClockAdmits micros := by
          simp only [step, Store.commitTx] at hs
          split at hs
          · exact ⟨(Option.some.inj hs).symm, ‹_›⟩
          · cases hs
        have hfresh : ∀ c ∈ b.store.commitTxLog, c.commitMicros ≠ micros := fun c hc hat =>
          htie (List.any_eq_true.mpr ⟨c, hc, decide_eq_true hat⟩)
        rw [hsome, hs'.1]
        exact .inl ⟨micros, rows, rfl, hs'.2, hfresh, rfl⟩
  | persist requestTarget step1Now =>
      cases hs
      refine .inr (.inl ⟨requestTarget, step1Now, rfl, ?_⟩)
      simp [Store.committedBy]
  | snapshot snapshottedAt indexes =>
      cases hs
      refine .inr (.inr (.inl ⟨snapshottedAt, indexes, rfl, ?_⟩))
      simp [Store.committedBy]
  | purge =>
      cases hs
      refine .inr (.inr (.inr (.inl ?_)))
      simp [Store.committedBy]

theorem Branch.Keeps.step (hkeeps : b.Keeps floor) (hnc : BranchNoClobber cfg b o)
    (h : branchStep cfg b o = some b') : b'.Keeps floor := by
  obtain ⟨L, hL, hinv⟩ := hkeeps
  rcases branchStep_cases h with ⟨micros, rows, rfl, hclock, hfresh, rfl⟩ | ⟨target, step1Now, rfl, rfl⟩ |
    ⟨snapshottedAt, indexes, rfl, rfl⟩ | rfl | rfl
  · have hf : L.Follows (b.store.nextTx micros rows) := hinv.follows hclock hfresh
    exact ⟨L.append _ hf, by rw [BranchLog.append_entries, hL], hinv.withCommit hclock hfresh hf⟩
  · exact ⟨L, hL, hinv.persistLocked hnc⟩
  · exact ⟨L, hL, hinv.snapshotLocked snapshottedAt indexes⟩
  · exact ⟨L, hL, hinv.purgeLocked⟩
  · exact ⟨L, hL, hinv⟩

theorem Branch.Replays.step (hreplays : b.Replays floor) (hok : BranchKeepsRows cfg b o)
    (h : branchStep cfg b o = some b') : b'.Replays floor := by
  obtain ⟨L, hL, hinv, hreplay⟩ := hreplays
  rcases branchStep_cases h with ⟨micros, rows, rfl, hclock, hfresh, rfl⟩ | ⟨target, step1Now, rfl, rfl⟩ |
    ⟨snapshottedAt, indexes, rfl, rfl⟩ | rfl | rfl
  · have hf : L.Follows (b.store.nextTx micros rows) := hinv.follows hclock hfresh
    exact ⟨L.append _ hf, by rw [BranchLog.append_entries, hL], hinv.withCommit hclock hfresh hf,
      hinv.replays_withCommit hclock hfresh hf hreplay⟩
  · exact ⟨L, hL, hinv.persistLocked hok.1, hreplay.persistLocked target step1Now⟩
  · exact ⟨L, hL, hinv.snapshotLocked snapshottedAt indexes, hinv.replays_snapshotLocked hreplay hok.2⟩
  · refine ⟨L, hL, hinv.purgeLocked, ?_⟩
    rw [Store.SnapshotsReplay, Store.purgeLocked_snapshots]
    exact hreplay
  · exact ⟨L, hL, hinv, hreplay⟩

theorem Branch.Grows.step (h : branchStep cfg b o = some b') : b.Grows b' := by
  rcases branchStep_cases h with ⟨micros, rows, rfl, hclock, hfresh, rfl⟩ | ⟨target, step1Now, rfl, rfl⟩ |
    ⟨snapshottedAt, indexes, rfl, rfl⟩ | rfl | rfl
  · refine ⟨⟨_, rfl, ?_⟩, ?_, fun _ hpu => hpu, fun _ hn => hn⟩
    · exact fun e he => (CommittedTx.commitSeqNum_of_mem he).ge
    · show b.store.commitSeqCounter ≤ b.store.commitSeqCounter + 1
      omega
  · have hcold := b.store.coldOnly_persistLocked cfg target step1Now
    exact ⟨⟨[], by simp, by simp⟩, hcold.commitSeqCounter.ge, fun _ hpu => hcold.purges ▸ hpu,
      fun _ hn => hcold.snapshots ▸ hn⟩
  · refine ⟨⟨[], by simp, by simp⟩, ?_, ?_, ?_⟩ <;> simp only [Store.snapshotLocked] <;> split
    · exact le_refl _
    · exact le_refl _
    · exact fun _ hpu => hpu
    · exact fun _ hpu => hpu
    · exact fun _ hn => hn
    · exact fun _ hn => List.mem_append_left _ hn
  · refine ⟨⟨[], by simp, by simp⟩, ?_, ?_, ?_⟩ <;> simp only [Store.purgeLocked] <;> split
    · exact le_refl _
    · exact le_refl _
    · exact fun _ hpu => hpu
    · exact fun _ hpu => List.mem_append_left _ hpu
    · exact fun _ hn => hn
    · exact fun _ hn => hn
  · exact .refl _

end Runs

end Penca
