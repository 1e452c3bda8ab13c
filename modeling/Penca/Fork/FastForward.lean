import Penca.Tx.Counter
import Penca.Tx.Writes

/-!
# `Fork.FastForward` — the guard of `MergeBranch`

`merge_branch` runs in one Postgres transaction on the target: `ensure_fast_forward` asks the target's hot
`commit_tx_log` for a row past the source's fork position, then the merge commits like any other transaction
(`auto_commit_tx`). The guard takes no lock on the target, and the log it asks is the one `PurgeTxLog` trims.

`TargetBranch` is a branch with its commits in flight (`Tx.Counter`), the storage of its tables, the branches
forked from it and the merges into it, interleaved statement by statement. A successful merge is recorded
with what its guard could not see, and `mergedFastForward_iff` says exactly when the merge was a fast-forward:
no commit row past the fork was trimmed before the guard, and no commit became visible between the guard and
the merge's own counter update.
-/

namespace Penca

variable {R V : Type}

/-! ## The state -/

/-- A merge whose guard has passed. -/
structure GuardedMerge where
  /-- `fork_commit_seq_num` of the source branch. -/
  forkCommitSeqNum : Int
  /-- Not stored anywhere: the counter of the target when the guard ran. -/
  counterAtGuard : Int
  /-- Not stored anywhere: a commit row past the fork had been deleted when the guard ran. -/
  purgedPastFork : Bool
  deriving DecidableEq, Repr

/-- A merge that succeeded, with the number of its transaction on the target. -/
structure MergedBranch extends GuardedMerge where
  commitSeqNum : Int
  deriving DecidableEq, Repr

/-- The target branch. `sys.commitTxLog` is the hot log. -/
structure TargetBranch (R V : Type) where
  sys : CommitSystem
  tables : List (Store R V)
  /-- `tx_table_log`: the tables a committed transaction wrote to, by its number. -/
  txTableLog : List (Int × Nat)
  /-- `W_txlog`, the watermark of the cold copy of the commit log. -/
  txLogWatermark : Option Int
  /-- The fork positions of the branches forked from this one. -/
  forks : List Int
  merges : List (Nat × GuardedMerge)
  merged : List MergedBranch
  /-- Not stored anywhere: every commit row that ever became visible. -/
  committed : List CommitRow

/-- A branch of `n` empty tables whose counter row was seeded with `seed`. -/
def TargetBranch.seeded (n : Nat) (clock seed : Int) : TargetBranch R V where
  sys := CommitSystem.seeded clock seed
  tables := List.replicate n Store.init
  txTableLog := []
  txLogWatermark := none
  forks := []
  merges := []
  merged := []
  committed := []

/-! ## Commits -/

/-- A transaction of the branch became visible to the table. -/
def Store.publish (s : Store R V) (row : CommitRow) (rows : TxWrites R V) : Store R V :=
  { s with
    commitSeqCounter := row.commitSeqNum + 1
    commitTxLog := s.commitTxLog ++ [row]
    hot := s.hot ++ (CommittedTx.mk row.commitSeqNum row.commitMicros rows).entries }

/-- The transaction `id` that wrote `writes` (rows by table) became visible under `row`. -/
def TargetBranch.publish (b : TargetBranch R V) (id : Nat) (row : CommitRow)
    (writes : List (Nat × TxWrites R V)) : TargetBranch R V :=
  { b with
    tables := b.tables.mapIdx (fun t s => s.publish row ((writes.lookup t).getD TxWrites.empty))
    txTableLog := b.txTableLog ++ writes.map (fun w => (row.commitSeqNum, w.1))
    merged := b.merged ++ ((b.merges.lookup id).map (fun m => MergedBranch.mk m row.commitSeqNum)).toList
    committed := b.committed ++ [row] }

/-- The Postgres transaction that runs the commit statement of this event. -/
def CommitEvent.committer : CommitEvent → Option Nat
  | .start id    => some id
  | .allocate id => some id
  | .insert id _ => some id
  | .write id    => some id
  | .commit id   => some id
  | .rollback id => some id
  | .begin _     => none
  | .endBegin _ _ => none

/-- A merge ends with its transaction. -/
def TargetBranch.endMerge (b : TargetBranch R V) (ev : CommitEvent) : TargetBranch R V :=
  match ev.committer with
  | none    => b
  | some id =>
      if (b.sys.commits.lookup id).isNone then { b with merges := InFlight.remove b.merges id } else b

/-- A statement of a committing transaction; `writes` are the rows it inserted, needed when it commits. -/
def TargetBranch.statement (b : TargetBranch R V) (ev : CommitEvent) (writes : List (Nat × TxWrites R V)) :
    Option (TargetBranch R V) :=
  (commitStep b.sys ev).map (fun sys =>
    let published := match ev with
      | .commit id =>
          match b.sys.commits.lookup id with
          | some (.inserted row) => b.publish id row writes
          | _                    => b
      | _ => b
    { published with sys := sys }.endMerge ev)

/-! ## The guard -/

/-- `ensure_fast_forward`: the hot commit log has no row past the fork. -/
def TargetBranch.ensureFastForward (b : TargetBranch R V) (forkCommitSeqNum : Int) : Bool :=
  !b.sys.commitTxLog.any (fun c => decide (forkCommitSeqNum < c.commitSeqNum))

/-- A commit row past the fork is no longer in the hot log. -/
def TargetBranch.purgedPastFork (b : TargetBranch R V) (forkCommitSeqNum : Int) : Bool :=
  b.committed.any (fun c => decide (forkCommitSeqNum < c.commitSeqNum ∧ c ∉ b.sys.commitTxLog))

/-- The guard of a merge passes. -/
def TargetBranch.guardMerge (b : TargetBranch R V) (id : Nat) (forkCommitSeqNum : Int) : TargetBranch R V :=
  let guarded : GuardedMerge := ⟨forkCommitSeqNum, b.sys.counter, b.purgedPastFork forkCommitSeqNum⟩
  { b with merges := InFlight.set b.merges id guarded }

/-! ## `PurgeTxLog` -/

/-- `tx_table_log_purge_watermarks_for_branch`: the purge watermark of every table a committed transaction of
    the hot log wrote to. -/
def TargetBranch.purgeWatermarks (b : TargetBranch R V) : List (Option Int) :=
  let active := b.txTableLog.filter (fun w => b.sys.commitTxLog.any (fun c => c.commitSeqNum = w.1))
  (active.map Prod.snd).dedup.map (fun t => (b.tables[t]?).bind Store.purgeSeqWatermark)

/-- The committed cutoff, clamped to what the cold copy of the log covers. -/
def TargetBranch.committedCutoff (b : TargetBranch R V) : Option Int :=
  match branchMinWatermark none b.purgeWatermarks, b.txLogWatermark with
  | some pu, some w => some (min pu w)
  | pu,      _      => pu

/-- `delete_purge_tx_log_eligible`, committed transactions: their rows leave `commit_tx_log` and
    `tx_table_log`. The hot logs are read joined with `commit_tx_log`. -/
def TargetBranch.purgeTxLog (b : TargetBranch R V) : TargetBranch R V :=
  match b.committedCutoff with
  | none        => b
  | some cutoff =>
      { b with
        sys := { b.sys with commitTxLog := b.sys.commitTxLog.filter (fun c => cutoff < c.commitSeqNum) }
        txTableLog := b.txTableLog.filter (fun w => cutoff < w.1)
        tables := b.tables.map (fun s =>
          { s with
            commitTxLog := s.commitTxLog.filter (fun c => cutoff < c.commitSeqNum)
            hot := s.hot.filter (fun e => cutoff < e.commitSeqNum) }) }

/-- `persist_tx_log`: copy the hot commit rows up to `target` to the cold log. -/
def TargetBranch.persistTxLog (b : TargetBranch R V) (target : Int) : TargetBranch R V :=
  let w := b.txLogWatermark.getD (-1)
  let rows := b.sys.commitTxLog.filter (fun c => w < c.commitSeqNum ∧ c.commitSeqNum ≤ target)
  match (rows.map CommitRow.commitSeqNum).max? with
  | none     => b
  | some max => { b with txLogWatermark := some max }

/-! ## Events -/

inductive TargetEvent (R V : Type) where
  /-- A statement of a committing transaction of the target, the commit of a merge included. -/
  | statement (ev : CommitEvent) (writes : List (Nat × TxWrites R V))
  /-- `CreateBranch` from this branch at a committed position. -/
  | fork (forkCommitSeqNum : Int)
  /-- The guard of a merge of a branch forked there. -/
  | guard (id : Nat) (forkCommitSeqNum : Int)
  /-- Persist, Snapshot or Purge of a table. -/
  | lifecycle (table : Nat) (o : Op R V)
  | persistTxLog (target : Int)
  | purgeTxLog

/-- A lifecycle operation; commits are statements of their own. -/
def lifecycleStep [DecidableEq R] (cfg : PersistConfig R V) (s : Store R V) : Op R V → Option (Store R V)
  | .commit _ _ => none
  | o           => step cfg s o

/-- One event. A guard that finds a row fails its merge, which changes nothing. -/
def targetStep [DecidableEq R] (cfg : PersistConfig R V) (b : TargetBranch R V) :
    TargetEvent R V → Option (TargetBranch R V)
  | .statement ev writes => b.statement ev writes
  | .fork forkCommitSeqNum =>
      if b.committed.any (fun c => c.commitSeqNum = forkCommitSeqNum) then
        some { b with forks := b.forks ++ [forkCommitSeqNum] }
      else none
  | .guard id forkCommitSeqNum =>
      if forkCommitSeqNum ∈ b.forks ∧ (b.merges.lookup id).isNone ∧ (b.sys.commits.lookup id).isNone then
        if b.ensureFastForward forkCommitSeqNum then some (b.guardMerge id forkCommitSeqNum) else some b
      else none
  | .lifecycle table o =>
      (b.tables[table]?).bind (fun s => (lifecycleStep cfg s o).map (fun s' =>
        { b with tables := b.tables.set table s' }))
  | .persistTxLog target => some (b.persistTxLog target)
  | .purgeTxLog          => some b.purgeTxLog

/-! ## What one event does to the commits -/

theorem commitStep_commit {s s' : CommitSystem} {id : Nat} (h : commitStep s (.commit id) = some s') :
    ∃ row, s.commits.lookup id = some (.inserted row) ∧ s' = s.publishCommit id row := by
  simp only [commitStep] at h
  split at h <;> cases h
  exact ⟨_, ‹_›, rfl⟩

/-- No other event of a committing transaction changes what is visible. -/
theorem commitStep_visible {s s' : CommitSystem} {ev : CommitEvent} (hev : ∀ id, ev ≠ .commit id)
    (h : commitStep s ev = some s') : s'.counter = s.counter ∧ s'.commitTxLog = s.commitTxLog := by
  cases ev with
  | commit id => exact absurd rfl (hev id)
  | insert id now =>
      simp only [commitStep, CommitSystem.insertCommit] at h
      split at h
      · split at h
        · split at h <;> cases h <;> exact ⟨rfl, rfl⟩
        · cases h
      · cases h
  | allocate id =>
      simp only [commitStep] at h
      split at h
      · split at h <;> cases h
        exact ⟨rfl, rfl⟩
      · cases h
  | start id =>
      simp only [commitStep] at h
      split at h <;> cases h
      exact ⟨rfl, rfl⟩
  | write id =>
      simp only [commitStep] at h
      split at h <;> cases h
      exact ⟨rfl, rfl⟩
  | rollback id =>
      simp only [commitStep] at h
      split at h <;> cases h
      exact ⟨rfl, rfl⟩
  | begin id =>
      simp only [commitStep] at h
      split at h <;> cases h
      exact ⟨rfl, rfl⟩
  | endBegin id commits =>
      simp only [commitStep] at h
      split at h <;> cases h
      exact ⟨rfl, rfl⟩

namespace TargetBranch

variable {b b' : TargetBranch R V}

/-- **Inversion.** A statement publishes a row or changes nothing visible; a merge in flight stays or ends,
    and one that published is recorded. -/
inductive StatementMove (b : TargetBranch R V) : TargetBranch R V → Prop where
  | publish {b' : TargetBranch R V} {id : Nat} {row : CommitRow}
      (hphase : b.sys.commits.lookup id = some (.inserted row)) (hmove : b.sys.Move b'.sys)
      (hcounter : b'.sys.counter = row.commitSeqNum + 1)
      (hlog : b'.sys.commitTxLog = b.sys.commitTxLog ++ [row]) (hcommitted : b'.committed = b.committed ++ [row])
      (hforks : b'.forks = b.forks) (hmerges : ∀ p ∈ b'.merges, p ∈ b.merges)
      (hmerged : ∀ m ∈ b'.merged, m ∈ b.merged ∨
        ∃ p ∈ b.merges, m = MergedBranch.mk p.2 row.commitSeqNum) : StatementMove b b'
  | silent {b' : TargetBranch R V} (hmove : b.sys.Move b'.sys) (hcounter : b'.sys.counter = b.sys.counter)
      (hlog : b'.sys.commitTxLog = b.sys.commitTxLog) (hcommitted : b'.committed = b.committed)
      (hforks : b'.forks = b.forks) (hmerges : ∀ p ∈ b'.merges, p ∈ b.merges)
      (hmerged : b'.merged = b.merged) : StatementMove b b'

theorem endMerge_fields (b : TargetBranch R V) (ev : CommitEvent) :
    (b.endMerge ev).sys = b.sys ∧ (b.endMerge ev).committed = b.committed ∧
      (b.endMerge ev).forks = b.forks ∧ (b.endMerge ev).merged = b.merged ∧
      ∀ p ∈ (b.endMerge ev).merges, p ∈ b.merges := by
  unfold endMerge
  split
  · exact ⟨rfl, rfl, rfl, rfl, fun _ hp => hp⟩
  · split
    · exact ⟨rfl, rfl, rfl, rfl, fun _ hp => (InFlight.mem_remove.mp hp).1⟩
    · exact ⟨rfl, rfl, rfl, rfl, fun _ hp => hp⟩

theorem statementMove {ev : CommitEvent} {writes : List (Nat × TxWrites R V)}
    (h : b.statement ev writes = some b') : StatementMove b b' := by
  obtain ⟨sys, hsys, hb⟩ := Option.map_eq_some_iff.mp h
  have hmove := move_of_commitStep hsys
  by_cases hev : ∃ id, ev = .commit id
  · obtain ⟨id, rfl⟩ := hev
    obtain ⟨row, hphase, rfl⟩ := commitStep_commit hsys
    simp only [hphase] at hb
    obtain ⟨hs, hc, hf, hm, hp⟩ := endMerge_fields
      { b.publish id row writes with sys := b.sys.publishCommit id row } (.commit id)
    rw [hb] at hs hc hf hm hp
    refine .publish hphase (hs ▸ hmove) (hs ▸ rfl) (hs ▸ rfl) hc hf hp ?_
    intro m hmem
    rw [hm] at hmem
    rcases List.mem_append.mp hmem with hmem | hmem
    · exact .inl hmem
    · rw [Option.mem_toList, Option.map_eq_some_iff] at hmem
      obtain ⟨g, hg, rfl⟩ := hmem
      exact .inr ⟨(id, g), InFlight.mem_of_lookup hg, rfl⟩
  · have hne : ∀ id, ev ≠ .commit id := fun id heq => hev ⟨id, heq⟩
    obtain ⟨hcounter, hlog⟩ := commitStep_visible hne hsys
    have hpublished : b' = { b with sys := sys }.endMerge ev := by
      rw [← hb]
      cases ev with
      | commit id => exact absurd rfl (hne id)
      | _ => rfl
    obtain ⟨hs, hc, hf, hm, hp⟩ := endMerge_fields { b with sys := sys } ev
    rw [← hpublished] at hs hc hf hm hp
    exact .silent (hs ▸ hmove) (hs ▸ hcounter) (hs ▸ hlog) hc hf hp hm

/-! ## The invariant -/

/-- What a merge's guard found out: its fork is committed, and nothing past the fork was trimmed exactly when
    nothing was committed past it. -/
structure Guarded (seed counter : Int) (g : GuardedMerge) : Prop where
  seed_le : seed ≤ g.forkCommitSeqNum
  fork_lt : g.forkCommitSeqNum < g.counterAtGuard
  counter_le : g.counterAtGuard ≤ counter
  guarded : g.purgedPastFork = false ↔ g.counterAtGuard = g.forkCommitSeqNum + 1

structure Inv (seed : Int) (b : TargetBranch R V) : Prop where
  serialized : b.sys.Serialized
  seed_le : seed ≤ b.sys.counter
  numbered : ∀ n, (∃ c ∈ b.committed, c.commitSeqNum = n) ↔ seed ≤ n ∧ n < b.sys.counter
  hot : ∀ c ∈ b.sys.commitTxLog, c ∈ b.committed
  forked : ∀ f ∈ b.forks, seed ≤ f ∧ f < b.sys.counter
  merging : ∀ p ∈ b.merges, Guarded seed b.sys.counter p.2
  done : ∀ m ∈ b.merged, Guarded seed m.commitSeqNum m.toGuardedMerge ∧ m.commitSeqNum < b.sys.counter

theorem Guarded.mono {seed counter counter' : Int} {g : GuardedMerge} (h : Guarded seed counter g)
    (hle : counter ≤ counter') : Guarded seed counter' g :=
  ⟨h.seed_le, h.fork_lt, h.counter_le.trans hle, h.guarded⟩

theorem inv_seeded (n : Nat) (clock seed : Int) : (seeded n clock seed : TargetBranch R V).Inv seed where
  serialized := CommitSystem.serialized_seeded clock seed
  seed_le := le_refl _
  numbered := by
    intro n
    show (∃ c ∈ [], _) ↔ seed ≤ n ∧ n < seed
    constructor
    · rintro ⟨c, hc, -⟩
      cases hc
    · omega
  hot := fun _ hc => absurd hc List.not_mem_nil
  forked := fun _ hf => absurd hf List.not_mem_nil
  merging := fun _ hp => absurd hp List.not_mem_nil
  done := fun _ hm => absurd hm List.not_mem_nil

variable {seed : Int}

theorem Inv.statement (hinv : b.Inv seed) (hmove : StatementMove b b') : b'.Inv seed := by
  cases hmove with
  | silent hmove hcounter hlog hcommitted hforks hmerges hmerged =>
      constructor
      case serialized => exact hinv.serialized.move hmove
      case seed_le => exact hcounter ▸ hinv.seed_le
      case numbered =>
        rw [hcommitted, hcounter]
        exact hinv.numbered
      case hot =>
        rw [hlog, hcommitted]
        exact hinv.hot
      case forked =>
        rw [hforks, hcounter]
        exact hinv.forked
      case merging =>
        rw [hcounter]
        exact fun p hp => hinv.merging p (hmerges p hp)
      case done =>
        rw [hmerged, hcounter]
        exact hinv.done
  | @publish id row hphase hmove hcounter hlog hcommitted hforks hmerges hmerged =>
      -- The row that becomes visible carries the counter the others still saw.
      have hrow := hinv.serialized.commitSeqNum_eq hphase
      have hnext : b'.sys.counter = b.sys.counter + 1 := by rw [hcounter, hrow]
      constructor
      case serialized => exact hinv.serialized.move hmove
      case seed_le =>
        have := hinv.seed_le
        omega
      case numbered =>
        intro n
        have hnum := hinv.numbered n
        have hseed := hinv.seed_le
        rw [hcommitted, hnext]
        constructor
        · rintro ⟨c, hc, rfl⟩
          rcases List.mem_append.mp hc with hc | hc
          · have := hnum.mp ⟨c, hc, rfl⟩
            omega
          · rw [List.mem_singleton.mp hc, hrow]
            omega
        · intro ⟨hle, hlt⟩
          by_cases heq : n = b.sys.counter
          · exact ⟨row, List.mem_append_right _ List.mem_cons_self, hrow.trans heq.symm⟩
          · obtain ⟨c, hc, hn⟩ := hnum.mpr ⟨hle, by omega⟩
            exact ⟨c, List.mem_append_left _ hc, hn⟩
      case hot =>
        intro c hc
        rw [hlog] at hc
        rw [hcommitted]
        rcases List.mem_append.mp hc with hc | hc
        · exact List.mem_append_left _ (hinv.hot c hc)
        · exact List.mem_append_right _ hc
      case forked =>
        intro f hf
        rw [hforks] at hf
        have := hinv.forked f hf
        omega
      case merging => exact fun p hp => (hinv.merging p (hmerges p hp)).mono (by omega)
      case done =>
        intro m hm
        rcases hmerged m hm with hm | ⟨p, hp, rfl⟩
        · have hdone := hinv.done m hm
          exact ⟨hdone.1, by omega⟩
        · refine ⟨(hinv.merging p hp).mono hrow.ge, ?_⟩
          show row.commitSeqNum < _
          omega

/-- The guard sees no row past the fork: then one was trimmed, or none was committed. -/
theorem Inv.guarded (hinv : b.Inv seed) {f : Int} (hf : f ∈ b.forks) (hff : b.ensureFastForward f = true) :
    Guarded seed b.sys.counter ⟨f, b.sys.counter, b.purgedPastFork f⟩ := by
  obtain ⟨hseed, hlt⟩ := hinv.forked f hf
  refine ⟨hseed, hlt, le_refl _, ?_⟩
  have hnone : ∀ c ∈ b.sys.commitTxLog, ¬ f < c.commitSeqNum := by
    rw [ensureFastForward, Bool.not_eq_true', List.any_eq_false] at hff
    exact fun c hc hpast => hff c hc (decide_eq_true hpast)
  rw [purgedPastFork, List.any_eq_false]
  constructor
  · intro hkept
    by_contra hne
    have hpast : seed ≤ f + 1 ∧ f + 1 < b.sys.counter := ⟨by omega, by simp only at hne; omega⟩
    obtain ⟨c, hc, hn⟩ := (hinv.numbered (f + 1)).mpr hpast
    refine hkept c hc (decide_eq_true ⟨by omega, fun hhot => hnone c hhot (by omega)⟩)
  · intro heq c hc hpurged
    have hpast := (of_decide_eq_true hpurged).1
    have hnum := ((hinv.numbered c.commitSeqNum).mp ⟨c, hc, rfl⟩).2
    simp only at heq
    omega

theorem Inv.purgeTxLog (hinv : b.Inv seed) : b.purgeTxLog.Inv seed := by
  unfold TargetBranch.purgeTxLog
  split
  · exact hinv
  · exact ⟨⟨hinv.serialized.alone, hinv.serialized.carries⟩, hinv.seed_le, hinv.numbered,
      fun c hc => hinv.hot c (List.mem_of_mem_filter hc), hinv.forked, hinv.merging, hinv.done⟩

/-- **Step.** Every event keeps the invariant. -/
theorem Inv.step [DecidableEq R] {cfg : PersistConfig R V} {ev : TargetEvent R V} (hinv : b.Inv seed)
    (h : targetStep cfg b ev = some b') : b'.Inv seed := by
  cases ev with
  | statement ev writes => exact hinv.statement (statementMove h)
  | fork f =>
      simp only [targetStep] at h
      split at h
      case isFalse => cases h
      case isTrue hcommitted =>
        cases h
        obtain ⟨c, hc, hn⟩ := List.any_eq_true.mp hcommitted
        refine { hinv with forked := ?_ }
        intro f' hf'
        rcases List.mem_append.mp hf' with hf' | hf'
        · exact hinv.forked f' hf'
        · rw [List.mem_singleton.mp hf']
          exact (hinv.numbered f).mp ⟨c, hc, of_decide_eq_true hn⟩
  | guard id f =>
      simp only [targetStep] at h
      split at h
      case isFalse => cases h
      case isTrue hready =>
        split at h
        case isFalse =>
          cases h
          exact hinv
        case isTrue hff =>
          cases h
          have hmerging : ∀ p ∈ (b.guardMerge id f).merges, Guarded seed b.sys.counter p.2 :=
            InFlight.forall_mem_set hinv.merging (hinv.guarded hready.1 hff)
          exact { hinv with merging := hmerging }
  | lifecycle table o =>
      obtain ⟨s, -, h⟩ := Option.bind_eq_some_iff.mp h
      obtain ⟨s', -, rfl⟩ := Option.map_eq_some_iff.mp h
      exact { hinv with }
  | persistTxLog target =>
      cases h
      unfold TargetBranch.persistTxLog
      simp only
      split
      · exact hinv
      · exact { hinv with }
  | purgeTxLog =>
      cases h
      exact hinv.purgeTxLog

theorem inv_run [DecidableEq R] {cfg : PersistConfig R V} {n : Nat} {clock : Int}
    {evs : List (TargetEvent R V)} (hrun : Runs.run (targetStep cfg) (seeded n clock seed) evs = some b) :
    b.Inv seed :=
  Runs.invariant_of_step (G := fun _ _ => True) (fun _ _ _ hinv _ h => hinv.step h) (inv_seeded n clock seed)
    (Runs.meets_of_forall (fun _ _ => trivial) _ _) hrun

end TargetBranch

/-- No transaction of the target lies between the fork and the merge. -/
def TargetBranch.FastForward (b : TargetBranch R V) (m : MergedBranch) : Prop :=
  ∀ c ∈ b.committed, ¬ (m.forkCommitSeqNum < c.commitSeqNum ∧ c.commitSeqNum < m.commitSeqNum)

instance (b : TargetBranch R V) (m : MergedBranch) : Decidable (b.FastForward m) :=
  inferInstanceAs (Decidable (∀ c ∈ b.committed, _))

/-- **A merge is a fast-forward iff its guard saw everything.** In every state a run reaches, of every merge
    that succeeded: no transaction of the target lies between the source's fork and the merge exactly when
    no commit row past the fork had left the hot log when the guard ran and no commit became visible from
    then to the merge's own counter update. -/
theorem mergedFastForward_iff [DecidableEq R] (cfg : PersistConfig R V) (n : Nat) (clock seed : Int)
    (evs : List (TargetEvent R V)) (b : TargetBranch R V)
    (hrun : Runs.run (targetStep cfg) (TargetBranch.seeded n clock seed) evs = some b) (m : MergedBranch)
    (hm : m ∈ b.merged) :
    b.FastForward m ↔ m.purgedPastFork = false ∧ m.commitSeqNum = m.counterAtGuard := by
  have hinv := TargetBranch.inv_run hrun
  obtain ⟨⟨hseed, hfork, hle, hguarded⟩, hlt⟩ := hinv.done m hm
  rw [hguarded]
  constructor
  · intro hff
    have hnext : ¬ m.forkCommitSeqNum + 1 < m.commitSeqNum := by
      intro hbetween
      obtain ⟨c, hc, hnum⟩ := (hinv.numbered (m.forkCommitSeqNum + 1)).mpr ⟨by omega, by omega⟩
      exact hff c hc ⟨by omega, by omega⟩
    omega
  · rintro ⟨hguard, hseq⟩ c - ⟨hpast, hbefore⟩
    omega

/-! ## Runs -/

/-- A transaction that runs from its first statement to its commit. -/
def commitAt (id : Nat) (micros : Int) (writes : List (Nat × TxWrites Nat Nat)) : List (TargetEvent Nat Nat) :=
  [.statement (.start id) [], .statement (.allocate id) [], .statement (.insert id micros) [],
    .statement (.commit id) writes]

/-- A branch is forked at 0; a transaction of the target commits between the guard of the merge and the
    merge's own commit. -/
def commitAfterGuard : List (TargetEvent Nat Nat) :=
  commitAt 0 10 [(0, .single 1 (.upsert 5) 0)] ++ [.fork 0, .guard 1 0] ++
    commitAt 2 20 [(0, .single 2 (.upsert 6) 1)] ++ commitAt 1 30 [(0, .single 1 (.upsert 7) 2)]

/-- A branch is forked at 0; the target commits once more, the commit goes through Persist, Snapshot, Purge
    and `PurgeTxLog`, and then the branch is merged. -/
def commitPurgedBeforeGuard : List (TargetEvent Nat Nat) :=
  commitAt 0 10 [(0, .single 1 (.upsert 5) 0)] ++ [.fork 0] ++ commitAt 2 20 [(0, .single 2 (.upsert 6) 1)] ++
    [.persistTxLog 1, .lifecycle 0 (.persist none 25), .lifecycle 0 (.snapshot none []), .lifecycle 0 .purge,
      .purgeTxLog, .guard 1 0] ++ commitAt 1 30 [(0, .single 1 (.upsert 7) 2)]

/-- In both runs the merge succeeds with transaction 1 of the target between the fork and itself. -/
theorem merge_past_target_commit :
    (∃ b m, Runs.run (targetStep oneByteRows) (TargetBranch.seeded 1 0 0) commitAfterGuard = some b ∧
      m ∈ b.merged ∧ ¬ b.FastForward m) ∧
    ∃ b m, Runs.run (targetStep oneByteRows) (TargetBranch.seeded 1 0 0) commitPurgedBeforeGuard = some b ∧
      m ∈ b.merged ∧ ¬ b.FastForward m := by
  have hend : ∀ evs ∈ [commitAfterGuard, commitPurgedBeforeGuard],
      (Runs.run (targetStep oneByteRows) (TargetBranch.seeded 1 0 0) evs).map
        (fun b => decide (∃ m ∈ b.merged, ¬ b.FastForward m)) = some true := by decide +kernel
  have hbad : ∀ evs ∈ [commitAfterGuard, commitPurgedBeforeGuard],
      ∃ b m, Runs.run (targetStep oneByteRows) (TargetBranch.seeded 1 0 0) evs = some b ∧
        m ∈ b.merged ∧ ¬ b.FastForward m := by
    intro evs hevs
    obtain ⟨b, hrun, hb⟩ := Option.map_eq_some_iff.mp (hend evs hevs)
    obtain ⟨m, hm, hnot⟩ := of_decide_eq_true hb
    exact ⟨b, m, hrun, hm, hnot⟩
  exact ⟨hbad _ (by simp), hbad _ (by simp)⟩

/-- The target goes through its lifecycle before the fork, and its next commit waits for the counter row the
    merge holds. -/
def commitBehindMerge : List (TargetEvent Nat Nat) :=
  commitAt 0 10 [(0, .single 1 (.upsert 5) 0)] ++
    [.persistTxLog 0, .lifecycle 0 (.persist none 15), .lifecycle 0 (.snapshot none []), .lifecycle 0 .purge,
      .purgeTxLog, .fork 0, .statement (.start 2) [], .guard 1 0] ++
    commitAt 1 30 [(0, .single 1 (.upsert 7) 1)] ++
    [.statement (.allocate 2) [], .statement (.insert 2 40) [],
      .statement (.commit 2) [(0, .single 2 (.upsert 6) 2)]]

theorem commitBehindMerge_fastForward :
    ∃ b m, Runs.run (targetStep oneByteRows) (TargetBranch.seeded 1 0 0) commitBehindMerge = some b ∧
      m ∈ b.merged ∧ b.FastForward m := by
  have hend : (Runs.run (targetStep oneByteRows) (TargetBranch.seeded 1 0 0) commitBehindMerge).map
      (fun b => decide (∃ m ∈ b.merged, m.purgedPastFork = false ∧ m.commitSeqNum = m.counterAtGuard)) =
        some true := by decide +kernel
  obtain ⟨b, hrun, hb⟩ := Option.map_eq_some_iff.mp hend
  obtain ⟨m, hm, hguard⟩ := of_decide_eq_true hb
  exact ⟨b, m, hrun, hm,
    (mergedFastForward_iff oneByteRows 1 0 0 commitBehindMerge b hrun m hm).mpr hguard⟩

end Penca
