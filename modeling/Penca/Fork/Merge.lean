import Penca.Fork.FastForward
import Penca.Fork.Read

/-!
# `Fork.Merge` — what `MergeBranch` brings to the target

`merge_branch` copies, table by table, what the source's hot logs hold: their rows joined with the source's hot
`commit_tx_log`, the latest of each row by `(commit_micros, write_seq_num)`, inserted on the target under one new
transaction. What Purge has moved out of the hot logs is not copied.

- **The source** is a fork with its own log, trimmed by `PurgeTxLog` (`SourceTable`). Trimming never loses a hot
  row: the cutoff is a purge watermark of every table a transaction in the log wrote to (`SourceInv`).
- **The copy** is the newest hot entry of each row (`mem_mergeTableData`): on one branch the clock orders the
  transactions as their numbers do.
- **Main result** (`mergedReads_iff`): reads of the target after the merge return the rows of the source exactly
  when every row the source touched and whose entries have all left the hot logs is as it was at the fork.
-/

namespace Penca

open Newest

variable {R V : Type}

/-! ## The source branch -/

/-- A table on the source branch, with the branch's transaction logs as far as they concern it. -/
structure SourceTable (R V : Type) where
  /-- The table. Its store records every commit row, also those no longer in the hot log. -/
  branch : Branch R V
  /-- The hot `commit_tx_log` of the branch. -/
  commitTxLog : List CommitRow
  /-- `tx_table_log`: the transactions that wrote to this table. -/
  txTableLog : List Int

/-- The table right after the fork, whose transaction wrote to system tables only. -/
def SourceTable.forked (fresh : Store R V) (log : List (LogEntry R V)) : SourceTable R V where
  branch := ⟨fresh, log⟩
  commitTxLog := fresh.commitTxLog
  txTableLog := []

/-- Commit at clock reading `micros`: the unique index only knows the rows of the hot log. -/
def SourceTable.commitTx (t : SourceTable R V) (micros : Int) (rows : TxWrites R V) :
    Option (SourceTable R V) :=
  let s := t.branch.store
  if s.ClockAdmits micros then
    if t.commitTxLog.any (fun c => c.commitMicros = micros) then some t
    else some
      { branch := ⟨s.withCommit micros rows, t.branch.log ++ (s.nextTx micros rows).entries⟩
        commitTxLog := t.commitTxLog ++ [⟨s.commitSeqCounter, micros⟩]
        txTableLog := t.txTableLog ++ (if rows.writes.isEmpty then [] else [s.commitSeqCounter]) }
  else none

/-- `committed_table_uuids` names the table: a transaction of the hot log wrote to it. -/
def SourceTable.touched (t : SourceTable R V) : Bool :=
  t.txTableLog.any (fun n => t.commitTxLog.any (fun c => c.commitSeqNum = n))

/-- The committed cutoff of PurgeTxLog. `others` are the purge watermarks of the other tables in
    `tx_table_log`, `txLogWatermark` is what the cold copy of the log covers. -/
def SourceTable.committedCutoff (t : SourceTable R V) (others : List (Option Int)) (txLogWatermark : Option Int) :
    Option Int :=
  let own := if t.touched then [t.branch.store.purgeSeqWatermark] else []
  match branchMinWatermark none (own ++ others), txLogWatermark with
  | some pu, some w => some (min pu w)
  | pu,      _      => pu

/-- `delete_purge_tx_log_eligible`: the rows up to the cutoff leave `commit_tx_log` and `tx_table_log`. The hot
    logs are read joined with `commit_tx_log`. -/
def SourceTable.purgeTxLog (t : SourceTable R V) (others : List (Option Int)) (txLogWatermark : Option Int) :
    SourceTable R V :=
  match t.committedCutoff others txLogWatermark with
  | none        => t
  | some cutoff =>
      { branch :=
          { t.branch with store :=
              { t.branch.store with hot := t.branch.store.hot.filter (fun e => cutoff < e.commitSeqNum) } }
        commitTxLog := t.commitTxLog.filter (fun c => cutoff < c.commitSeqNum)
        txTableLog := t.txTableLog.filter (fun n => cutoff < n) }

inductive SourceOp (R V : Type) where
  | op (o : Op R V)
  | purgeTxLog (others : List (Option Int)) (txLogWatermark : Option Int)

variable [DecidableEq R]

def sourceStep (cfg : PersistConfig R V) (t : SourceTable R V) : SourceOp R V → Option (SourceTable R V)
  | .op (.commit micros rows)          => t.commitTx micros rows
  | .op o                              => (branchStep cfg t.branch o).map (fun b => { t with branch := b })
  | .purgeTxLog others txLogWatermark  => some (t.purgeTxLog others txLogWatermark)

/-- Operations keep the rows, and no commit gets the timestamp of a commit row that has been trimmed. -/
def SourceOk (cfg : PersistConfig R V) (t : SourceTable R V) : SourceOp R V → Prop
  | .op (.commit micros _) => ∀ c ∈ t.branch.store.commitTxLog, c.commitMicros = micros →
      t.commitTxLog.any (fun c => c.commitMicros = micros) = true
  | .op o                  => BranchKeepsRows cfg t.branch o
  | .purgeTxLog _ _        => True

instance [DecidableEq V] (cfg : PersistConfig R V) (t : SourceTable R V) :
    ∀ op, Decidable (SourceOk cfg t op)
  | .op (.commit micros _)        => inferInstanceAs (Decidable (∀ c ∈ t.branch.store.commitTxLog,
      c.commitMicros = micros → t.commitTxLog.any (fun c => c.commitMicros = micros) = true))
  | .op (.persist target now)     => inferInstanceAs (Decidable (BranchKeepsRows cfg t.branch (.persist target now)))
  | .op (.snapshot at' indexes)   => inferInstanceAs (Decidable (BranchKeepsRows cfg t.branch (.snapshot at' indexes)))
  | .op .purge                    => inferInstanceAs (Decidable (BranchKeepsRows cfg t.branch .purge))
  | .purgeTxLog _ _               => inferInstanceAs (Decidable True)

/-! ## The merge -/

/-- The entry as the merge ranks it: it carries `commit_micros` and no `commit_seq_num`. -/
def LogEntry.onMicros (e : LogEntry R V) : LogEntry R V := { e with commitSeqNum := e.commitMicros }

/-- The rows of the source's hot logs, joined with `source_committed_tx`. -/
def SourceTable.committedRows (t : SourceTable R V) : List (LogEntry R V) :=
  t.branch.store.hot.filter (fun e => t.commitTxLog.any (fun c => c.commitSeqNum = e.commitSeqNum))

/-- `merge_table_data`: the surviving upserts and tombstones, as rows of the merge transaction. The target's
    sequence numbers them. -/
def SourceTable.mergeTableData (t : SourceTable R V) (writeSeqNum : R → Int) : TxWrites R V where
  writes := (mergeResolved (t.committedRows.map LogEntry.onMicros)).map (fun e =>
    ⟨e.rowUuid, e.change, writeSeqNum e.rowUuid⟩)
  oncePerLog := by
    rw [List.map_map]
    exact nodup_rowUuid_kind_mergeResolved _

/-- `merge_branch` on a table that the source lists: the guard, the merge transaction on the target, and the copy
    if the source has touched the table. -/
def Store.mergeBranch (target : Store R V) (source : SourceTable R V) (fork : ForkPoint) (mergeMicros : Int)
    (writeSeqNum : R → Int) : Option (Store R V) :=
  if target.commitTxLog.any (fun c => fork.commitSeqNum < c.commitSeqNum) then none
  else if target.commitTxLog.any (fun c => c.commitMicros = mergeMicros) then none
  else target.commitTx mergeMicros (if source.touched then source.mergeTableData writeSeqNum else TxWrites.empty)

/-- A row that the source touched after the fork and whose entries have all left the hot logs is as it was at the
    fork. -/
def SourceTable.PurgedUnchanged (t : SourceTable R V) (fork : ForkPoint) : Prop :=
  ∀ e ∈ t.branch.log, fork.commitSeqNum < e.commitSeqNum →
    (∀ a ∈ t.branch.store.hot, a.rowUuid ≠ e.rowUuid) →
    newestEffect t.branch.log e.rowUuid =
      newestEffect (t.branch.log.filter (fun a => decide (a.commitSeqNum ≤ fork.commitSeqNum))) e.rowUuid

instance [DecidableEq V] (t : SourceTable R V) (fork : ForkPoint) : Decidable (t.PurgedUnchanged fork) :=
  inferInstanceAs (Decidable (∀ e ∈ t.branch.log, _ → _ → _))

/-! ## The source after the fork -/

section Source

variable {cfg : PersistConfig R V} {t t' : SourceTable R V} {fork : ForkPoint} {inherited : List (LogEntry R V)}
  {floor : Option Int}

omit [DecidableEq R] in
/-- The cutoff of PurgeTxLog lies at or below the table's purge watermark, if the table is in the log. -/
theorem SourceTable.committedCutoff_le {others : List (Option Int)} {txLogWatermark : Option Int} {cutoff : Int}
    (h : t.committedCutoff others txLogWatermark = some cutoff) (htouched : t.touched = true) :
    ∃ pu ∈ t.branch.store.purges, cutoff ≤ pu := by
  have hmin : ∃ m, branchMinWatermark none (t.branch.store.purgeSeqWatermark :: others) = some m ∧ cutoff ≤ m := by
    simp only [committedCutoff, htouched, if_true, List.singleton_append] at h
    cases hm : branchMinWatermark none (t.branch.store.purgeSeqWatermark :: others) with
    | none =>
        rw [hm] at h
        cases txLogWatermark <;> cases h
    | some m =>
        rw [hm] at h
        refine ⟨m, rfl, ?_⟩
        cases txLogWatermark with
        | none => exact (Option.some.inj h).ge
        | some w => exact (Option.some.inj h) ▸ min_le_left m w
  obtain ⟨m, hm, hle⟩ := hmin
  obtain ⟨pu, hpu, hmpu⟩ := (le_of_branchMinWatermark hm).2 _ List.mem_cons_self
  exact ⟨pu, (List.max?_eq_some_iff.mp hpu).1, hle.trans hmpu⟩

/-- The invariant of the source: its snapshots are replays, every hot row still joins with its transaction, and
    `tx_table_log` names it. -/
structure SourceInv (t : SourceTable R V) (fork : ForkPoint) (inherited : List (LogEntry R V))
    (floor : Option Int) : Prop where
  child : ForkedChild t.branch fork inherited floor
  replays : t.branch.Replays floor
  logged : ∀ e ∈ t.branch.store.hot, e.commitSeqNum ∈ t.txTableLog ∧
    ∃ c ∈ t.commitTxLog, c.commitSeqNum = e.commitSeqNum

theorem SourceInv.lt_of_mem_hot (hinv : SourceInv t fork inherited floor) {e : LogEntry R V}
    (he : e ∈ t.branch.store.hot) {pu : Int} (hpu : pu ∈ t.branch.store.purges) : pu < e.commitSeqNum := by
  obtain ⟨L, -, hbranch⟩ := hinv.child.keeps
  exact ((hbranch.mem_hot e).mp he).2 pu hpu

theorem SourceInv.touched (hinv : SourceInv t fork inherited floor) {e : LogEntry R V}
    (he : e ∈ t.branch.store.hot) : t.touched = true := by
  obtain ⟨htable, c, hc, hseq⟩ := hinv.logged e he
  exact List.any_eq_true.mpr ⟨_, htable, List.any_eq_true.mpr ⟨c, hc, decide_eq_true hseq⟩⟩

theorem SourceInv.lt_cutoff (hinv : SourceInv t fork inherited floor) {others : List (Option Int)}
    {txLogWatermark : Option Int} {cutoff : Int} (h : t.committedCutoff others txLogWatermark = some cutoff)
    {e : LogEntry R V} (he : e ∈ t.branch.store.hot) : cutoff < e.commitSeqNum := by
  obtain ⟨pu, hpu, hle⟩ := SourceTable.committedCutoff_le h (hinv.touched he)
  exact lt_of_le_of_lt hle (hinv.lt_of_mem_hot he hpu)

theorem SourceInv.purgeTxLog (hinv : SourceInv t fork inherited floor) (others : List (Option Int))
    (txLogWatermark : Option Int) : SourceInv (t.purgeTxLog others txLogWatermark) fork inherited floor := by
  unfold SourceTable.purgeTxLog
  split
  · exact hinv
  · rename_i cutoff hcutoff
    have hhot : t.branch.store.hot.filter (fun e => decide (cutoff < e.commitSeqNum)) = t.branch.store.hot :=
      List.filter_eq_self.mpr (fun e he => decide_eq_true (hinv.lt_cutoff hcutoff he))
    rw [hhot]
    refine ⟨hinv.child, hinv.replays, ?_⟩
    intro e he
    obtain ⟨htable, c, hc, hseq⟩ := hinv.logged e he
    have hlt := hinv.lt_cutoff hcutoff he
    exact ⟨List.mem_filter.mpr ⟨htable, decide_eq_true hlt⟩, c,
      List.mem_filter.mpr ⟨hc, decide_eq_true (hseq ▸ hlt)⟩, hseq⟩

omit [DecidableEq R] in
/-- A commit fails on the unique index and changes nothing, or goes through. -/
theorem SourceTable.commitTx_cases {micros : Int} {rows : TxWrites R V} (h : t.commitTx micros rows = some t') :
    t' = t ∨ (t.branch.store.ClockAdmits micros ∧ t.commitTxLog.any (fun c => c.commitMicros = micros) = false ∧
      t' = { branch := ⟨t.branch.store.withCommit micros rows,
               t.branch.log ++ (t.branch.store.nextTx micros rows).entries⟩
             commitTxLog := t.commitTxLog ++ [⟨t.branch.store.commitSeqCounter, micros⟩]
             txTableLog := t.txTableLog ++
               (if rows.writes.isEmpty then [] else [t.branch.store.commitSeqCounter]) }) := by
  simp only [commitTx] at h
  split at h
  · split at h
    · exact .inl (Option.some.inj h).symm
    · exact .inr ⟨‹_›, Bool.eq_false_of_not_eq_true ‹_›, (Option.some.inj h).symm⟩
  · cases h

theorem SourceInv.commitTx (hinv : SourceInv t fork inherited floor) {micros : Int} {rows : TxWrites R V}
    (hok : SourceOk cfg t (.op (.commit micros rows))) (h : t.commitTx micros rows = some t') :
    SourceInv t' fork inherited floor := by
  rcases SourceTable.commitTx_cases h with rfl | ⟨hclock, hnone, rfl⟩
  · exact hinv
  · have hfresh : ∀ c ∈ t.branch.store.commitTxLog, c.commitMicros ≠ micros := by
      intro c hc hat
      rw [hok c hc hat] at hnone
      cases hnone
    -- The branch takes the step of a branch whose log is complete.
    have hstep : branchStep cfg t.branch (.commit micros rows) =
        some ⟨t.branch.store.withCommit micros rows,
          t.branch.log ++ (t.branch.store.nextTx micros rows).entries⟩ := by
      have hany : t.branch.store.commitTxLog.any (fun c => decide (c.commitMicros = micros)) = false := by
        rw [List.any_eq_false]
        exact fun c hc => by simpa using hfresh c hc
      simp only [branchStep, step, Store.commitTx, hclock, hany, if_true, Bool.false_eq_true, if_false,
        Option.map_some, Store.committedBy]
      rfl
    have hkeeps : BranchKeepsRows cfg t.branch (.commit micros rows) := ⟨trivial, trivial⟩
    refine ⟨hinv.child.grows (hinv.child.keeps.step hkeeps.1 hstep) (.step hstep),
      hinv.replays.step hkeeps hstep, ?_⟩
    intro e he
    rcases List.mem_append.mp he with he | he
    · obtain ⟨htable, c, hc, hseq⟩ := hinv.logged e he
      exact ⟨List.mem_append_left _ htable, c, List.mem_append_left _ hc, hseq⟩
    · have hseq := CommittedTx.commitSeqNum_of_mem he
      obtain ⟨w, hw, -⟩ := CommittedTx.mem_entries.mp he
      replace hw : w ∈ rows.writes := hw
      have hne : rows.writes.isEmpty = false := List.isEmpty_eq_false_iff.mpr (List.ne_nil_of_mem hw)
      refine ⟨List.mem_append_right _ ?_, _, List.mem_append_right _ (List.mem_singleton_self _), hseq.symm⟩
      rw [hne, hseq]
      exact List.mem_singleton_self _

/-- Persist, Snapshot and Purge add nothing to the hot logs. -/
theorem mem_hot_of_branchStep {b b' : Branch R V} {o : Op R V} (ho : ∀ micros rows, o ≠ .commit micros rows)
    (h : branchStep cfg b o = some b') {e : LogEntry R V} (he : e ∈ b'.store.hot) : e ∈ b.store.hot := by
  rcases branchStep_cases h with ⟨micros, rows, rfl, -⟩ | ⟨target, step1Now, rfl, rfl⟩ |
    ⟨snapshottedAt, indexes, rfl, rfl⟩ | rfl | rfl
  · exact absurd rfl (ho micros rows)
  · exact (b.store.coldOnly_persistLocked cfg target step1Now).hot ▸ he
  · simp only [Store.snapshotLocked] at he
    split at he <;> exact he
  · simp only [Store.purgeLocked] at he
    split at he
    · exact he
    · exact List.mem_of_mem_filter he
  · exact he

theorem SourceInv.lifecycle (hinv : SourceInv t fork inherited floor) {o : Op R V}
    (ho : ∀ micros rows, o ≠ .commit micros rows) (hkeeps : BranchKeepsRows cfg t.branch o)
    (h : (branchStep cfg t.branch o).map (fun b => { t with branch := b }) = some t') :
    SourceInv t' fork inherited floor := by
  obtain ⟨b, hb, rfl⟩ := Option.map_eq_some_iff.mp h
  exact ⟨hinv.child.grows (hinv.child.keeps.step hkeeps.1 hb) (.step hb), hinv.replays.step hkeeps hb,
    fun e he => hinv.logged e (mem_hot_of_branchStep ho hb he)⟩

theorem SourceInv.step (hinv : SourceInv t fork inherited floor) {op : SourceOp R V} (hok : SourceOk cfg t op)
    (h : sourceStep cfg t op = some t') : SourceInv t' fork inherited floor := by
  cases op with
  | purgeTxLog others txLogWatermark =>
      cases h
      exact hinv.purgeTxLog others txLogWatermark
  | op o =>
      cases o with
      | commit micros rows => exact hinv.commitTx hok h
      | persist requestTarget step1Now => exact hinv.lifecycle (by simp) hok h
      | snapshot snapshottedAt indexes => exact hinv.lifecycle (by simp) hok h
      | purge => exact hinv.lifecycle (by simp) hok h

theorem SourceInv.run (hinv : SourceInv t fork inherited floor) {ops : List (SourceOp R V)}
    (hmeets : Runs.Meets (sourceStep cfg) (SourceOk cfg) t ops)
    (hrun : Runs.run (sourceStep cfg) t ops = some t') : SourceInv t' fork inherited floor := by
  have hstep : ∀ (t : SourceTable R V) (op : SourceOp R V) (t' : SourceTable R V),
      SourceInv t fork inherited floor → SourceOk cfg t op → sourceStep cfg t op = some t' →
      SourceInv t' fork inherited floor := fun _ _ _ hinv hok h => hinv.step hok h
  exact Runs.invariant_of_step hstep hinv hmeets hrun

end Source

/-! ## What the merge copies -/

section Copy

omit [DecidableEq R] in
/-- The clock orders the entries of a branch as their numbers do. -/
theorem BranchLog.onMicros_version_le {L : BranchLog R V} {e e' : LogEntry R V} (he : e ∈ L.entries)
    (he' : e' ∈ L.entries) : e.onMicros.version ≤ e'.onMicros.version ↔ e.version ≤ e'.version := by
  have hle := L.axes e he e' he'
  have hge := L.axes e' he' e he
  have hlt : e.commitMicros < e'.commitMicros ↔ e.commitSeqNum < e'.commitSeqNum := by omega
  have heq : e.commitMicros = e'.commitMicros ↔ e.commitSeqNum = e'.commitSeqNum := by omega
  simp only [LogEntry.version, Prod.Lex.toLex_le_toLex, ← hlt, ← heq]
  exact Iff.rfl

variable {L : BranchLog R V} {es : List (LogEntry R V)} (hsub : ∀ e ∈ es, e ∈ L.entries)
include hsub

omit [DecidableEq R] in
theorem BranchLog.separated_onMicros :
    Separated LogEntry.version LogEntry.rowUuid {e | e ∈ es.map LogEntry.onMicros} := by
  intro a ha b hb hrow hver
  obtain ⟨e, he, rfl⟩ := List.mem_map.mp ha
  obtain ⟨e', he', rfl⟩ := List.mem_map.mp hb
  have hle := (onMicros_version_le (hsub e he) (hsub e' he')).mp hver.le
  have hge := (onMicros_version_le (hsub e' he') (hsub e he)).mp hver.ge
  rw [L.separated e (hsub e he) e' (hsub e' he') hrow (le_antisymm hle hge)]

/-- The merge ranks as the reads do: it selects the newest entry of each row. -/
theorem BranchLog.mem_mergeResolved_onMicros {a : LogEntry R V} :
    a ∈ mergeResolved (es.map LogEntry.onMicros) ↔ ∃ e, NewestOf es e ∧ e.onMicros = a := by
  rw [mem_mergeResolved (separated_onMicros hsub)]
  constructor
  · intro h
    obtain ⟨e, he, rfl⟩ := List.mem_map.mp h.mem
    refine ⟨e, ⟨⟨he, rfl⟩, ?_⟩, rfl⟩
    rintro b ⟨hb, hrow⟩
    exact (onMicros_version_le (hsub b hb) (hsub e he)).mp (h.2 b.onMicros ⟨List.mem_map_of_mem hb, hrow⟩)
  · rintro ⟨e, h, rfl⟩
    refine ⟨⟨List.mem_map_of_mem h.mem, rfl⟩, ?_⟩
    rintro c ⟨hc, hrow⟩
    obtain ⟨b, hb, rfl⟩ := List.mem_map.mp hc
    exact (onMicros_version_le (hsub b hb) (hsub e h.mem)).mpr (h.2 b ⟨hb, hrow⟩)

end Copy

section Merged

variable {t : SourceTable R V} {fork : ForkPoint} {inherited : List (LogEntry R V)} {floor : Option Int}
  (hinv : SourceInv t fork inherited floor) {writeSeqNum : R → Int} {tx : CommittedTx R V}
include hinv

theorem SourceInv.committedRows_eq : t.committedRows = t.branch.store.hot := by
  refine List.filter_eq_self.mpr (fun e he => ?_)
  obtain ⟨-, c, hc, hseq⟩ := hinv.logged e he
  exact List.any_eq_true.mpr ⟨c, hc, decide_eq_true hseq⟩

/-- **The copy.** The merge transaction has the newest hot entry of each row. -/
theorem SourceInv.mem_mergeTableData {w : RowWrite R V} :
    w ∈ (t.mergeTableData writeSeqNum).writes ↔
      ∃ e, NewestOf t.branch.store.hot e ∧ w = ⟨e.rowUuid, e.change, writeSeqNum e.rowUuid⟩ := by
  obtain ⟨L, -, hbranch⟩ := hinv.child.keeps
  have hsub : ∀ e ∈ t.branch.store.hot, e ∈ L.entries := fun e he => ((hbranch.mem_hot e).mp he).1
  have hcopy : (t.mergeTableData writeSeqNum).writes =
      (mergeResolved (t.branch.store.hot.map LogEntry.onMicros)).map (fun e =>
        (⟨e.rowUuid, e.change, writeSeqNum e.rowUuid⟩ : RowWrite R V)) := by
    rw [← hinv.committedRows_eq]
    rfl
  rw [hcopy, List.mem_map]
  constructor
  · rintro ⟨a, ha, rfl⟩
    obtain ⟨e, hnew, rfl⟩ := (BranchLog.mem_mergeResolved_onMicros hsub).mp ha
    exact ⟨e, hnew, rfl⟩
  · rintro ⟨e, hnew, rfl⟩
    exact ⟨e.onMicros, (BranchLog.mem_mergeResolved_onMicros hsub).mpr ⟨e, hnew, rfl⟩, rfl⟩

/-- What the merge transaction writes, whether the loop reaches the table or not. -/
theorem SourceInv.mem_writes {w : RowWrite R V} :
    w ∈ (if t.touched then t.mergeTableData writeSeqNum else TxWrites.empty).writes ↔
      ∃ e, NewestOf t.branch.store.hot e ∧ w = ⟨e.rowUuid, e.change, writeSeqNum e.rowUuid⟩ := by
  by_cases htouched : t.touched = true
  · rw [if_pos htouched]
    exact hinv.mem_mergeTableData
  · rw [if_neg htouched]
    refine iff_of_false List.not_mem_nil ?_
    rintro ⟨e, hnew, -⟩
    exact htouched (hinv.touched hnew.mem)

/-- A row that is still hot is what the hot logs say: Purge takes the oldest entries. -/
theorem SourceInv.newestEffect_hot {r : R} (hr : ∃ e ∈ t.branch.store.hot, e.rowUuid = r) :
    newestEffect t.branch.store.hot r = newestEffect t.branch.log r := by
  obtain ⟨L, hL, hbranch⟩ := hinv.child.keeps
  replace hL : L.entries = t.branch.log := hL
  have hcovers : Covers LogEntry.version (fun e => ∃ pu ∈ t.branch.store.purges, e.commitSeqNum ≤ pu)
      t.branch.store.hot L.entries := by
    refine ⟨fun e he => ((hbranch.mem_hot e).mp he).1, ?_, ?_⟩
    · intro e he hpast
      push Not at hpast
      exact (hbranch.mem_hot e).mpr ⟨he, hpast⟩
    · rintro e - e' - ⟨pu, hpu, hle⟩ hpast
      push Not at hpast
      exact (LogEntry.version_lt_of_commitSeqNum_lt (lt_of_le_of_lt hle (hpast pu hpu))).le
  obtain ⟨e, he, rfl⟩ := hr
  rw [← hL]
  refine hcovers.outcome_eq L.separated he ?_
  push Not
  exact fun pu hpu => hinv.lt_of_mem_hot he hpu

/-- A row the source never touched is as it was at the fork. -/
theorem SourceInv.newestEffect_untouched {r : R}
    (hr : ∀ e ∈ t.branch.log, fork.commitSeqNum < e.commitSeqNum → e.rowUuid ≠ r) :
    newestEffect t.branch.log r =
      newestEffect (t.branch.log.filter (fun a => decide (a.commitSeqNum ≤ fork.commitSeqNum))) r := by
  obtain ⟨L, hL, -⟩ := hinv.child.keeps
  replace hL : L.entries = t.branch.log := hL
  symm
  refine outcome_congr (hL ▸ L.separated) (fun e hrow => ?_)
  rw [List.mem_filter, decide_eq_true_eq]
  refine and_iff_left_of_imp (fun he => ?_)
  by_contra hlt
  exact hr e he (by omega) hrow

variable (htx : ∀ w, w ∈ tx.rows.writes ↔
  ∃ e, NewestOf t.branch.store.hot e ∧ w = ⟨e.rowUuid, e.change, writeSeqNum e.rowUuid⟩)
include htx

/-- The merge transaction says of a hot row what the hot logs say. -/
theorem SourceInv.newestEffect_merge {e : LogEntry R V} (he : NewestOf t.branch.store.hot e) :
    newestEffect tx.entries e.rowUuid = e.effect := by
  obtain ⟨L, -, hbranch⟩ := hinv.child.keeps
  have hsep : Separated LogEntry.version LogEntry.rowUuid {a | a ∈ t.branch.store.hot} :=
    L.separated.mono (fun a ha => ((hbranch.mem_hot a).mp ha).1)
  have hmine : tx.stamp ⟨e.rowUuid, e.change, writeSeqNum e.rowUuid⟩ ∈ tx.entries :=
    CommittedTx.mem_entries.mpr ⟨_, (htx _).mpr ⟨e, he, rfl⟩, rfl⟩
  -- It is the only entry of its row.
  have honly : ∀ b ∈ tx.entries, b.rowUuid = e.rowUuid →
      b = tx.stamp ⟨e.rowUuid, e.change, writeSeqNum e.rowUuid⟩ := by
    intro b hb hrow
    obtain ⟨w, hw, rfl⟩ := CommittedTx.mem_entries.mp hb
    obtain ⟨e', he', rfl⟩ := (htx w).mp hw
    rw [he'.eq hsep he hrow]
  have hsepTx : Separated LogEntry.version LogEntry.rowUuid {a | a ∈ tx.entries} :=
    fun a ha b hb hrow hver => CommittedTx.eq_of_rowUuid_of_kind ha hb hrow (LogEntry.kind_eq_of_version_eq hver)
  have hnew : NewestOf tx.entries (tx.stamp ⟨e.rowUuid, e.change, writeSeqNum e.rowUuid⟩) :=
    ⟨⟨hmine, rfl⟩, fun b hb => (honly b hb.1 hb.2 ▸ le_refl _)⟩
  have heffect := newestEffect_eq_effect hsepTx hnew
  exact heffect

/-- **The target after the merge** has, of each row, what the source's hot logs say, or else what it had. -/
theorem SourceInv.newestEffect_merged {L : BranchLog R V} (hf : L.Follows tx) (r : R) :
    ((∃ e ∈ t.branch.store.hot, e.rowUuid = r) →
      newestEffect (L.entries ++ tx.entries) r = newestEffect t.branch.store.hot r) ∧
    ((∀ e ∈ t.branch.store.hot, e.rowUuid ≠ r) →
      newestEffect (L.entries ++ tx.entries) r = newestEffect L.entries r) := by
  constructor
  · intro hr
    obtain ⟨e, rfl, he⟩ := exists_newestOf hr
    obtain ⟨L', -, hbranch⟩ := hinv.child.keeps
    have hsep : Separated LogEntry.version LogEntry.rowUuid {a | a ∈ t.branch.store.hot} :=
      L'.separated.mono (fun a ha => ((hbranch.mem_hot a).mp ha).1)
    have hcovers : Covers LogEntry.version (fun e => e ∈ L.entries) tx.entries (L.entries ++ tx.entries) := by
      refine ⟨fun a ha => List.mem_append_right _ ha, fun a ha hnot => (List.mem_append.mp ha).resolve_left hnot, ?_⟩
      rintro a - b hb ha hnot
      have hbtx := (List.mem_append.mp hb).resolve_left hnot
      exact (LogEntry.version_lt_of_commitSeqNum_lt (hf.later_of_mem ha hbtx).1).le
    have hmine : tx.stamp ⟨e.rowUuid, e.change, writeSeqNum e.rowUuid⟩ ∈ tx.entries :=
      CommittedTx.mem_entries.mpr ⟨_, (htx _).mpr ⟨e, he, rfl⟩, rfl⟩
    have hpast : tx.stamp ⟨e.rowUuid, e.change, writeSeqNum e.rowUuid⟩ ∉ L.entries :=
      fun hin => absurd (hf.later_of_mem hin hmine).1 (lt_irrefl _)
    rw [newestEffect_eq_effect hsep he, ← hinv.newestEffect_merge htx he]
    exact (hcovers.outcome_eq hf.separated hmine hpast).symm
  · intro hr
    refine outcome_congr L.separated (fun e hrow => ?_)
    rw [List.mem_append]
    refine or_iff_left (fun he => ?_)
    obtain ⟨w, hw, rfl⟩ := CommittedTx.mem_entries.mp he
    obtain ⟨a, ha, rfl⟩ := (htx w).mp hw
    exact hr a ha.mem hrow

/-- What the merge leaves on the target against what the source has. -/
theorem SourceInv.merged_iff {L : BranchLog R V} (hf : L.Follows tx)
    (hL : ∀ e, e ∈ L.entries ↔ e ∈ t.branch.log ∧ e.commitSeqNum ≤ fork.commitSeqNum) :
    (∀ r, newestEffect (L.entries ++ tx.entries) r = newestEffect t.branch.log r) ↔ t.PurgedUnchanged fork := by
  have hfork : ∀ r, newestEffect L.entries r =
      newestEffect (t.branch.log.filter (fun a => decide (a.commitSeqNum ≤ fork.commitSeqNum))) r := by
    intro r
    symm
    refine outcome_congr L.separated (fun e _ => ?_)
    rw [List.mem_filter, decide_eq_true_eq, hL]
  constructor
  · intro h e _ _ hcold
    rw [← h, (hinv.newestEffect_merged htx hf e.rowUuid).2 hcold, hfork]
  · intro h r
    by_cases hr : ∃ e ∈ t.branch.store.hot, e.rowUuid = r
    · rw [(hinv.newestEffect_merged htx hf r).1 hr, hinv.newestEffect_hot hr]
    · push Not at hr
      rw [(hinv.newestEffect_merged htx hf r).2 hr, hfork]
      by_cases htouched : ∃ e ∈ t.branch.log, fork.commitSeqNum < e.commitSeqNum ∧ e.rowUuid = r
      · obtain ⟨e, he, hlt, rfl⟩ := htouched
        exact (h e he hlt hr).symm
      · push Not at htouched
        exact (hinv.newestEffect_untouched htouched).symm

end Merged

/-! ## Reads after the merge -/

section Reads

omit [DecidableEq R] in
/-- Two reads return the same rows iff they say the same of every row. -/
theorem perm_iff_of_reads {rows rows' : List (R × V)} {f g : R → Option V} (hnodup : (rows.map Prod.fst).Nodup)
    (hnodup' : (rows'.map Prod.fst).Nodup) (hrows : ∀ r v, (r, v) ∈ rows ↔ f r = some v)
    (hrows' : ∀ r v, (r, v) ∈ rows' ↔ g r = some v) : rows.Perm rows' ↔ ∀ r, f r = g r := by
  rw [List.perm_ext_iff_of_nodup hnodup.of_map hnodup'.of_map]
  constructor
  · intro h r
    apply Option.ext
    intro v
    rw [← hrows, h, hrows']
  · rintro h ⟨r, v⟩
    rw [hrows, hrows', h]

/-- A successful merge: no commit past the fork, and the merge transaction goes through. -/
theorem Store.mergeBranch_eq_some {target merged : Store R V} {source : SourceTable R V} {fork : ForkPoint}
    {mergeMicros : Int} {writeSeqNum : R → Int}
    (h : target.mergeBranch source fork mergeMicros writeSeqNum = some merged) :
    (∀ c ∈ target.commitTxLog, c.commitSeqNum ≤ fork.commitSeqNum) ∧ target.ClockAdmits mergeMicros ∧
      (∀ c ∈ target.commitTxLog, c.commitMicros ≠ mergeMicros) ∧
      merged = target.withCommit mergeMicros
        (if source.touched then source.mergeTableData writeSeqNum else TxWrites.empty) := by
  unfold mergeBranch at h
  split at h
  · cases h
  · rename_i hpast
    split at h
    · cases h
    · rename_i htie
      have hguard : ∀ c ∈ target.commitTxLog, c.commitSeqNum ≤ fork.commitSeqNum := by
        intro c hc
        by_contra hlt
        exact hpast (List.any_eq_true.mpr ⟨c, hc, decide_eq_true (by omega)⟩)
      have hfresh : ∀ c ∈ target.commitTxLog, c.commitMicros ≠ mergeMicros := by
        intro c hc hat
        exact htie (List.any_eq_true.mpr ⟨c, hc, decide_eq_true hat⟩)
      simp only [Store.commitTx, Bool.eq_false_of_not_eq_true htie, Bool.false_eq_true, if_false] at h
      split at h
      · exact ⟨hguard, ‹_›, hfresh, (Option.some.inj h).symm⟩
      · cases h

section Target

variable {s : Store R V} {L : BranchLog R V} {micros : Int} {rows : TxWrites R V}

omit [DecidableEq R] in
/-- A commit does not move the snapshot a read of the head picks. -/
theorem BranchInv.pickFor_withCommit {floor : Option Int} (hinv : BranchInv s L floor) :
    (s.withCommit micros rows).pickFor (.latestSeq s.commitSeqCounter) =
      s.pickFor (.latestSeq (s.commitSeqCounter - 1)) := by
  have hfilter : ∀ asOf, s.pickSnapshotAsOf asOf (some s.commitSeqCounter) =
      s.pickSnapshotAsOf asOf (some (s.commitSeqCounter - 1)) := by
    intro asOf
    rw [Store.pickSnapshotAsOf, Store.pickSnapshotAsOf]
    congr 1
    refine List.filter_congr (fun n hn => ?_)
    have hlt := (hinv.snapshots n hn).settled.allocated
    have hle : n.commitSeqNum ≤ s.commitSeqCounter := by omega
    have hle' : n.commitSeqNum ≤ s.commitSeqCounter - 1 := by omega
    simp [hle, hle']
  exact hfilter _

theorem BranchInv.leftoversAgree_withCommit {floor : Option Int} (hinv : BranchInv s L floor)
    (h : s.LeftoversAgree (.latestSeq (s.commitSeqCounter - 1)) []) :
    (s.withCommit micros rows).LeftoversAgree (.latestSeq s.commitSeqCounter) [] := by
  intro n hn e he hnewer
  rw [hinv.pickFor_withCommit] at hn
  refine h n hn e he ?_
  intro a ha
  rw [List.nil_append, Store.mem_pastSnapshot] at ha
  obtain ⟨hplace, hsees, hlt⟩ := ha
  apply hnewer a
  rw [List.nil_append, Store.mem_pastSnapshot]
  refine ⟨hplace.imp_left (fun hhot => List.mem_append_left _ hhot), ?_, hlt⟩
  have hseq : a.commitSeqNum ≤ s.commitSeqCounter - 1 := of_decide_eq_true hsees
  exact decide_eq_true (by omega)

theorem BranchInv.reads_head {floor : Option Int} (hinv : BranchInv s L floor) (hreplay : s.SnapshotsReplay L)
    (hfloor : floor.isSome → (s.pickFor (.latestSeq (s.commitSeqCounter - 1))).isSome)
    (h : s.LeftoversAgree (.latestSeq (s.commitSeqCounter - 1)) []) :
    ((s.readData (.latestSeq (s.commitSeqCounter - 1))).map Prod.fst).Nodup ∧
      ∀ r v, (r, v) ∈ s.readData (.latestSeq (s.commitSeqCounter - 1)) ↔ newestEffect L.entries r = some v := by
  have hall : L.visibleTo (.latestSeq (s.commitSeqCounter - 1)) = L.entries := by
    refine List.filter_eq_self.mpr (fun e he => ?_)
    have := hinv.allocated e he
    exact decide_eq_true (by omega)
  obtain ⟨hnodup, hreads⟩ := (hinv.readData_iff hreplay hfloor).mpr h
  refine ⟨hnodup, fun r v => ?_⟩
  rw [hreads, hall, replayLog, replay_apply L.separated, newestEffect]

end Target

/-- The rows a `LatestSeq` read of the target returns are those of the source. -/
def Store.ReadsSource (merged : Store R V) (b : ForkedBranch R V) : Prop :=
  (merged.readData (.latestSeq (merged.commitSeqCounter - 1))).Perm
    (b.readData (.latestSeq (b.child.commitSeqCounter - 1)))

/-- The merge into a target that has not moved since the fork. -/
theorem SourceInv.readsSource_iff {source : SourceTable R V} {target merged : Store R V} {H : History R V}
    {fork : ForkPoint} {L₀ : BranchLog R V} {floor : Option Int} {mergeMicros : Int} {writeSeqNum : R → Int}
    (hsource : SourceInv source fork L₀.entries floor) (htarget : ForkedParent target H fork L₀.entries)
    (htargetReplay : target.SnapshotsReplay H.log) (hfork : fork.commitMicros ≤ i64Max)
    (hmerge : target.mergeBranch source fork mergeMicros writeSeqNum = some merged)
    (hsourceAgree : source.branch.store.LeftoversAgree (.latestSeq (source.branch.store.commitSeqCounter - 1)) [])
    (htargetAgree : target.LeftoversAgree (.latestSeq (target.commitSeqCounter - 1)) []) :
    merged.ReadsSource ⟨source.branch.store, target, fork⟩ ↔ source.PurgedUnchanged fork := by
  obtain ⟨hguard, hclock, hfresh, rfl⟩ := Store.mergeBranch_eq_some hmerge
  obtain ⟨L, hL, hbranch, hreplay⟩ := hsource.replays
  replace hL : L.entries = source.branch.log := hL
  have hcounter : fork.commitSeqNum ≤ source.branch.store.commitSeqCounter - 1 := by
    have := hsource.child.counter
    omega
  -- The read of the source.
  have hfloor : floor.isSome →
      (source.branch.store.pickFor (.latestSeq (source.branch.store.commitSeqCounter - 1))).isSome := by
    intro hsome
    obtain ⟨f, hf⟩ := Option.isSome_iff_exists.mp hsome
    obtain ⟨n, hn, hseq⟩ := hsource.child.baseline f hf
    refine hbranch.pickFor_isSome hn (hbranch.snapshottedAt_lt hn).le ?_
    rintro seq ⟨⟩
    omega
  obtain ⟨hnodup, hreads⟩ := hbranch.reads_head hreplay hfloor hsourceAgree
  -- The read of the target, one transaction later.
  have hf : H.log.Follows (target.nextTx mergeMicros
      (if source.touched then source.mergeTableData writeSeqNum else TxWrites.empty)) :=
    htarget.inv.branch.follows hclock hfresh
  have hinv' := htarget.inv.branch.withCommit hclock hfresh hf
  have hreplay' := htarget.inv.branch.replays_withCommit hclock hfresh hf htargetReplay
  have hhead : (target.withCommit mergeMicros (if source.touched then source.mergeTableData writeSeqNum
      else TxWrites.empty)).commitSeqCounter - 1 = target.commitSeqCounter := by
    show target.commitSeqCounter + 1 - 1 = target.commitSeqCounter
    omega
  have hagree' : (target.withCommit mergeMicros (if source.touched then source.mergeTableData writeSeqNum
      else TxWrites.empty)).LeftoversAgree (.latestSeq target.commitSeqCounter) [] :=
    htarget.inv.branch.leftoversAgree_withCommit htargetAgree
  rw [← hhead] at hagree'
  obtain ⟨hnodup', hreads'⟩ := hinv'.reads_head hreplay' (by simp) hagree'
  rw [Store.ReadsSource, hbranch.readData_latestSeq (b := ⟨source.branch.store, target, fork⟩) hcounter hfork,
    perm_iff_of_reads hnodup' hnodup hreads' hreads, hL]
  refine hsource.merged_iff (fun w => hsource.mem_writes) hf (fun e => ?_)
  -- The target has nothing past the fork.
  rw [hsource.child.entries e, ← htarget.entries e]
  refine (and_iff_left_of_imp (fun he => ?_)).symm
  obtain ⟨tx, htx, hetx⟩ := History.mem_entries.mp he
  rw [CommittedTx.commitSeqNum_of_mem hetx]
  apply hguard ⟨tx.commitSeqNum, tx.commitMicros⟩
  rw [htarget.inv.log]
  exact List.mem_map_of_mem htx

end Reads

/-! ## The fork, both histories and the merge -/

section Run

theorem StoredInv.sourceInv {p child : Store R V} {H : History R V} (hinv : StoredInv p H)
    (hreplay : p.SnapshotsReplay H.log) {fork : ForkPoint} {forkMicros : Int}
    (hpersisted : ∀ e ∈ H.entries, e.commitSeqNum ≤ fork.commitSeqNum → p.PersistedEntry e)
    (hclock : p.ClockAdmits forkMicros) (hpos : 0 ≤ fork.commitSeqNum)
    (hchild : p.materializeForkColdReferences fork forkMicros = some child) :
    SourceInv (SourceTable.forked child (H.atFork fork)) fork (H.log.cut fork.commitSeqNum).entries
      (p.baselineAt fork) := by
  have hforked := hinv.forkedChild hpersisted hclock hpos hchild
  refine ⟨hforked, hforked.keeps.replays rfl (hinv.child_replays hchild hreplay), ?_⟩
  intro e he
  replace he : e ∈ child.hot := he
  rw [(Store.child_eq hchild).1] at he
  exact absurd he List.not_mem_nil

/-- **Merge.** For every target a run reaches, every fork of it, everything the target and the source do after
    the fork (Persists not clobbering, Snapshots rewriting what they replace) up to a successful merge, where the
    leftovers of both branches agree with the snapshots their reads pick: the target reads like the source after
    the merge exactly when every row the source touched and whose entries have all left its hot logs is as it was
    at the fork. -/
theorem mergedReads_iff (cfg : PersistConfig R V) (ops : List (TableOp R V)) (s : Store R V)
    (hmeets : Runs.Meets (tableStep cfg) (TableKeepsRows cfg) Store.init ops)
    (hrun : Runs.run (tableStep cfg) Store.init ops = some s) (fork : ForkPoint)
    (hfork : (tableHistoryOf ops).Commits fork) (step1Now forkMicros : Int)
    (hflush : NoClobber cfg s (.persist (some fork.commitMicros) step1Now))
    (hclock : s.ClockAdmits forkMicros) (fresh : Store R V)
    (hfresh : s.createBranch cfg fork step1Now forkMicros true = some fresh)
    (targetOps : List (TableOp R V)) (target : Store R V)
    (htargetMeets : Runs.Meets (tableStep cfg) (TableKeepsRows cfg)
      (s.persistLocked cfg (some fork.commitMicros) step1Now) targetOps)
    (htargetRun : Runs.run (tableStep cfg) (s.persistLocked cfg (some fork.commitMicros) step1Now) targetOps =
      some target)
    (sourceOps : List (SourceOp R V)) (source : SourceTable R V)
    (hsourceMeets : Runs.Meets (sourceStep cfg) (SourceOk cfg)
      (SourceTable.forked fresh ((tableHistoryOf ops).atFork fork)) sourceOps)
    (hsourceRun : Runs.run (sourceStep cfg) (SourceTable.forked fresh ((tableHistoryOf ops).atFork fork)) sourceOps =
      some source)
    (hsourceAgree : source.branch.store.LeftoversAgree (.latestSeq (source.branch.store.commitSeqCounter - 1)) [])
    (htargetAgree : target.LeftoversAgree (.latestSeq (target.commitSeqCounter - 1)) [])
    (mergeMicros : Int) (writeSeqNum : R → Int) (merged : Store R V)
    (hmerge : target.mergeBranch source fork mergeMicros writeSeqNum = some merged) :
    merged.ReadsSource ⟨source.branch.store, target, fork⟩ ↔ source.PurgedUnchanged fork := by
  have hnc : ∀ (s : Store R V) op, TableKeepsRows cfg s op → TableNoClobber cfg s op := fun _ _ => TableKeepsRows.noClobber
  obtain ⟨hflushed, hpersisted, hclock', hpos⟩ := (storedInv_run (hmeets.mono hnc) hrun).flush hfork hflush hclock
  have hreplay : (s.persistLocked cfg (some fork.commitMicros) step1Now).SnapshotsReplay (tableHistoryOf ops).log :=
    (tableReplays_run hmeets hrun).persistLocked _ _
  have htarget := (hflushed.forkedParent hfork hpersisted).run (htargetMeets.mono hnc) htargetRun
  have htargetReplay := hflushed.toTableInv.replays_run hreplay htargetMeets htargetRun
  have hsource := (hflushed.sourceInv hreplay hpersisted hclock' hpos hfresh).run hsourceMeets hsourceRun
  have hmicros : fork.commitMicros ≤ i64Max := by
    obtain ⟨t, ht, -, hm⟩ := hfork
    exact hm ▸ ((tableHistoryOf ops).inRange t ht).2.le
  exact hsource.readsSource_iff htarget htargetReplay hmicros hmerge hsourceAgree htargetAgree

/-- The target before the fork: two rows. -/
def twoRowsRun : List (TableOp Nat Nat) :=
  [.op (.commit 10 (.single 1 (.upsert 5) 0)), .op (.commit 20 (.single 2 (.upsert 6) 1))]

/-- The source deletes row 1 and adds row 3, and its rows go to a snapshot. -/
def purgedSourceRun : List (SourceOp Nat Nat) :=
  [.op (.commit 40 (.single 1 .delete 0)), .op (.commit 50 (.single 3 (.upsert 7) 1)), .op (.persist none 55),
    .op (.snapshot none []), .op .purge]

/-- After the merge the target has row 1 and lacks row 3. On the source it was the other way round. -/
theorem purgedSourceRun_not_readsSource :
    ∃ s fresh source merged, Runs.run (tableStep oneByteRows) Store.init twoRowsRun = some s ∧
      s.createBranch oneByteRows ⟨1, 20⟩ 30 30 true = some fresh ∧
      Runs.run (sourceStep oneByteRows) (SourceTable.forked fresh ((tableHistoryOf twoRowsRun).atFork ⟨1, 20⟩))
        purgedSourceRun = some source ∧
      (s.persistLocked oneByteRows (some 20) 30).mergeBranch source ⟨1, 20⟩ 60 (fun _ => 0) = some merged ∧
      merged.readData (.latestSeq 2) = [(1, 5), (2, 6)] ∧
      (ForkedBranch.mk source.branch.store (s.persistLocked oneByteRows (some 20) 30) ⟨1, 20⟩).readData
        (.latestSeq 4) = [(2, 6), (3, 7)] := by
  have hend : ((Runs.run (tableStep oneByteRows) Store.init twoRowsRun).bind (fun s =>
      (s.createBranch oneByteRows ⟨1, 20⟩ 30 30 true).bind (fun fresh =>
        (Runs.run (sourceStep oneByteRows) (SourceTable.forked fresh ((tableHistoryOf twoRowsRun).atFork ⟨1, 20⟩))
          purgedSourceRun).bind (fun source =>
            ((s.persistLocked oneByteRows (some 20) 30).mergeBranch source ⟨1, 20⟩ 60 (fun _ => 0)).map (fun merged =>
              decide (merged.readData (.latestSeq 2) = [(1, 5), (2, 6)] ∧
                (ForkedBranch.mk source.branch.store (s.persistLocked oneByteRows (some 20) 30) ⟨1, 20⟩).readData
                  (.latestSeq 4) = [(2, 6), (3, 7)])))))) = some true := by
    decide +kernel
  obtain ⟨s, hrun, hs⟩ := Option.bind_eq_some_iff.mp hend
  obtain ⟨fresh, hfresh, hs⟩ := Option.bind_eq_some_iff.mp hs
  obtain ⟨source, hsource, hs⟩ := Option.bind_eq_some_iff.mp hs
  obtain ⟨merged, hmerged, hreads⟩ := Option.map_eq_some_iff.mp hs
  exact ⟨s, fresh, source, merged, hrun, hfresh, hsource, hmerged, of_decide_eq_true hreads⟩

/-- The target snapshots after the fork. -/
def targetOnRun : List (TableOp Nat Nat) := [.op (.persist none 35), .op (.snapshot none []), .op .purge]

/-- The source's first transactions are purged and trimmed; the rows they wrote are written again. -/
def trimmedSourceRun : List (SourceOp Nat Nat) :=
  [.op (.commit 40 (.single 1 .delete 0)), .op (.commit 50 (.single 3 (.upsert 7) 1)), .op (.persist none 55),
    .op (.snapshot none []), .op .purge, .purgeTxLog [] (some 3), .op (.commit 60 (.single 3 (.upsert 8) 2)),
    .op (.commit 70 (.single 1 (.upsert 9) 3)), .op (.commit 80 (.single 2 .delete 4)), .op (.persist none 85)]

theorem trimmedSourceRun_readsSource :
    ∃ s fresh target source merged, Runs.run (tableStep oneByteRows) Store.init twoRowsRun = some s ∧
      s.createBranch oneByteRows ⟨1, 20⟩ 30 30 true = some fresh ∧
      Runs.run (tableStep oneByteRows) (s.persistLocked oneByteRows (some 20) 30) targetOnRun = some target ∧
      Runs.run (sourceStep oneByteRows) (SourceTable.forked fresh ((tableHistoryOf twoRowsRun).atFork ⟨1, 20⟩))
        trimmedSourceRun = some source ∧
      target.mergeBranch source ⟨1, 20⟩ 90 (fun _ => 0) = some merged ∧
      merged.ReadsSource ⟨source.branch.store, target, ⟨1, 20⟩⟩ := by
  have hend : ((Runs.run (tableStep oneByteRows) Store.init twoRowsRun).bind (fun s =>
      (s.createBranch oneByteRows ⟨1, 20⟩ 30 30 true).bind (fun fresh =>
        (Runs.run (tableStep oneByteRows) (s.persistLocked oneByteRows (some 20) 30) targetOnRun).bind (fun target =>
          (Runs.run (sourceStep oneByteRows) (SourceTable.forked fresh ((tableHistoryOf twoRowsRun).atFork ⟨1, 20⟩))
            trimmedSourceRun).bind (fun source =>
              (target.mergeBranch source ⟨1, 20⟩ 90 (fun _ => 0)).map (fun _ =>
                decide ((NoClobber oneByteRows s (.persist (some 20) 30) ∧ s.ClockAdmits 30) ∧
                  (Runs.Meets (tableStep oneByteRows) (TableKeepsRows oneByteRows)
                    (s.persistLocked oneByteRows (some 20) 30) targetOnRun ∧
                  Runs.Meets (sourceStep oneByteRows) (SourceOk oneByteRows)
                    (SourceTable.forked fresh ((tableHistoryOf twoRowsRun).atFork ⟨1, 20⟩)) trimmedSourceRun) ∧
                  (source.branch.store.LeftoversAgree (.latestSeq (source.branch.store.commitSeqCounter - 1)) [] ∧
                  target.LeftoversAgree (.latestSeq (target.commitSeqCounter - 1)) []) ∧
                  source.PurgedUnchanged ⟨1, 20⟩))))))) = some true := by
    decide +kernel
  obtain ⟨s, hrun, hs⟩ := Option.bind_eq_some_iff.mp hend
  obtain ⟨fresh, hfresh, hs⟩ := Option.bind_eq_some_iff.mp hs
  obtain ⟨target, htarget, hs⟩ := Option.bind_eq_some_iff.mp hs
  obtain ⟨source, hsource, hs⟩ := Option.bind_eq_some_iff.mp hs
  obtain ⟨merged, hmerged, hok⟩ := Option.map_eq_some_iff.mp hs
  obtain ⟨⟨hflush, hclock⟩, ⟨htargetMeets, hsourceMeets⟩, ⟨hsourceAgree, htargetAgree⟩, hunchanged⟩ :=
    of_decide_eq_true hok
  have hfork : (tableHistoryOf twoRowsRun).Commits ⟨1, 20⟩ := ⟨_, List.mem_of_getElem? (i := 1) rfl, rfl, rfl⟩
  refine ⟨s, fresh, target, source, merged, hrun, hfresh, htarget, hsource, hmerged, ?_⟩
  exact (mergedReads_iff oneByteRows twoRowsRun s (by decide +kernel) hrun ⟨1, 20⟩ hfork 30 30 hflush hclock fresh
    hfresh targetOnRun target htargetMeets htarget trimmedSourceRun source hsourceMeets hsource hsourceAgree
    htargetAgree 90 (fun _ => 0) merged hmerged).mpr hunchanged

end Run

end Penca
