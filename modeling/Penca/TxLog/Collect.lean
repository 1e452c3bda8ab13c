import Penca.TxLog.Ledger

/-!
# `TxLog.Collect` — `PurgeTxLog` strands no hot data

A hot row is found through the logs of its transaction: if `PurgeTxLog` deleted the commit row of a transaction
that still has hot rows, they would never be read, persisted or purged again. Its committed cutoff is the least
`Pu` of the tables that a transaction settled when the call started wrote to, so the question is whether some
other table can hold a row of a transaction below the cutoff.

- **`Purged`**: what a purge row says. Up to its two numbers, the transactions were settled before it was
  committed and have no rows left in its table.
- **`Cleared`**: what the cutoffs of a call in flight say. Up to them, the transactions have no rows left in any
  table. A table without a purge row of its own blocks the cutoff if it was written by a transaction settled at
  the start; a transaction settled later is not below any purge watermark of the time (`cleared_cutoffs`).
- **`HotInv`** carries both through every event, and the deletes of `PurgeTxLog` follow from `Cleared`.
-/

namespace Penca

variable {T X : Type}

namespace TxLogStore

/-! ## The invariant -/

/-- The transaction has rows in the logs, or is in the history. -/
def Known (s : TxLogStore T X) (tx : X) : Prop :=
  (∃ b ∈ s.beginTxLog, b.txUuid = tx) ∨ (∃ c ∈ s.history, c.txUuid = tx) ∨ ∃ a ∈ s.abortTxLog, a.txUuid = tx

/-- Never committed, no abort row. -/
structure Unsettled (s : TxLogStore T X) (tx : X) : Prop where
  uncommitted : ∀ c ∈ s.history, c.txUuid ≠ tx
  unaborted : ∀ a ∈ s.abortTxLog, a.txUuid ≠ tx

/-- What a purge row says. -/
structure Purged (s : TxLogStore T X) (p : TablePurge T) : Prop where
  stamped : p.commitMicros ≤ s.clock
  commits : ∀ pu, p.lastPurgedCommitSeqNum = some pu → pu < s.commitSeqCounter ∧
    ∀ c ∈ s.history, c.commitSeqNum ≤ pu →
      c.commitMicros ≤ p.commitMicros ∧ ∀ r ∈ s.hotRows, r.tableUuid = p.tableUuid → r.txUuid ≠ c.txUuid
  aborts : ∀ pa, p.lastPurgedAbortedSeqNum = some pa → pa ≤ s.abortSeqCounter ∧
    ∀ a ∈ s.abortTxLog, a.abortedAtSeqNum < pa →
      a.abortedAtMicros ≤ p.commitMicros ∧ ∀ r ∈ s.hotRows, r.tableUuid = p.tableUuid → r.txUuid ≠ a.txUuid

/-- What the cutoffs of a `PurgeTxLog` call say. -/
structure Cleared (s : TxLogStore T X) (cutoffs : PurgeTxLogCutoffs) : Prop where
  commits : ∀ pu, cutoffs.puCutoff = some pu → pu < s.commitSeqCounter ∧
    ∀ c ∈ s.history, c.commitSeqNum ≤ pu → ∀ r ∈ s.hotRows, r.txUuid ≠ c.txUuid
  aborts : ∀ pa, cutoffs.paCutoff = some pa → pa ≤ s.abortSeqCounter ∧
    ∀ a ∈ s.abortTxLog, a.abortedAtSeqNum < pa → ∀ r ∈ s.hotRows, r.txUuid ≠ a.txUuid

/-- What a `PurgeTxLog` call in flight relies on. -/
def CollectOk (s : TxLogStore T X) : Collect → Prop
  | .started startedAt             => startedAt ≤ s.clock
  | .watermarked startedAt cutoffs => startedAt ≤ s.clock ∧ s.Cleared cutoffs
  | .clamped startedAt cutoffs     => startedAt ≤ s.clock ∧ s.Cleared cutoffs

/-- The invariant of the hot side. -/
structure HotInv (s : TxLogStore T X) : Prop where
  clock : 0 ≤ s.clock
  commits : ∀ c ∈ s.history, c.commitSeqNum < s.commitSeqCounter ∧ c.commitMicros ≤ s.clock
  aborts : ∀ a ∈ s.abortTxLog, a.abortedAtSeqNum < s.abortSeqCounter ∧ a.abortedAtMicros ≤ s.clock
  begins : ∀ b ∈ s.beginTxLog, ∀ b' ∈ s.beginTxLog, b.txUuid = b'.txUuid → b = b'
  recorded : ∀ c ∈ s.commitTxLog, c ∈ s.history
  distinct : ∀ c ∈ s.history, ∀ c' ∈ s.history, c.txUuid = c'.txUuid → c = c'
  exclusive : ∀ c ∈ s.history, ∀ a ∈ s.abortTxLog, c.txUuid ≠ a.txUuid
  /-- A committed transaction without its commit row has no begin row and no hot row. -/
  collected : ∀ c ∈ s.history, c ∉ s.commitTxLog →
    (∀ b ∈ s.beginTxLog, b.txUuid ≠ c.txUuid) ∧ ∀ r ∈ s.hotRows, r.txUuid ≠ c.txUuid
  logged : ∀ r ∈ s.hotRows, s.Known r.txUuid → (r.txUuid, r.tableUuid) ∈ s.txTableLog
  persisted : ∀ p ∈ s.persisted, p.2 < s.commitSeqCounter
  flushing : ∀ f, s.flush = some f → f.caller.isSome = true → f.target < s.commitSeqCounter
  snapshots : ∀ n ∈ s.tableSnapshots, n.2 < s.commitSeqCounter
  purged : ∀ p ∈ s.tablePurges, s.Purged p
  collecting : ∀ call, s.collect = some call → s.CollectOk call

theorem hotInv_seeded (clock seed : Nat) (inherited : ForkCopy T seed) :
    (seeded clock seed inherited : TxLogStore T X).HotInv where
  clock := Int.natCast_nonneg clock
  commits := by simp [seeded]
  aborts := by simp [seeded]
  begins := by simp [seeded]
  recorded := by simp [seeded]
  distinct := by simp [seeded]
  exclusive := by simp [seeded]
  collected := by simp [seeded]
  logged := by simp [seeded]
  persisted := by
    intro p hp
    obtain ⟨q, -, rfl⟩ := List.mem_map.mp hp
    exact Int.ofNat_lt.mpr q.2.isLt
  flushing := by simp [seeded]
  snapshots := by
    intro n hn
    obtain ⟨q, -, rfl⟩ := List.mem_map.mp hn
    exact Int.ofNat_lt.mpr q.2.isLt
  purged := by
    intro p hp
    obtain ⟨table, -, rfl⟩ := List.mem_map.mp hp
    refine ⟨le_refl _, fun pu hpu => ⟨?_, by simp [seeded]⟩, fun _ hpa => by cases hpa⟩
    cases hpu
    exact Int.sub_one_lt_of_le (le_refl _)
  collecting := by simp [seeded]

variable {s : TxLogStore T X}

/-! ## What the clauses about purges need to survive -/

/-- Purge rows and cutoffs keep what they say when the clock and the counters grow, no transaction below the
    counters is added, and the hot rows that appear belong to unsettled transactions. -/
structure Advances (s s' : TxLogStore T X) : Prop where
  clock : s.clock ≤ s'.clock
  commitCounter : s.commitSeqCounter ≤ s'.commitSeqCounter
  abortCounter : s.abortSeqCounter ≤ s'.abortSeqCounter
  history : ∀ c ∈ s'.history, c ∈ s.history ∨ s.commitSeqCounter ≤ c.commitSeqNum
  abortTxLog : ∀ a ∈ s'.abortTxLog, a ∈ s.abortTxLog ∨ s.abortSeqCounter ≤ a.abortedAtSeqNum
  hotRows : ∀ r ∈ s'.hotRows, r ∈ s.hotRows ∨ s.Unsettled r.txUuid

/-- Nothing the clauses look at changes. -/
theorem advances_of_eq {s' : TxLogStore T X} (hclock : s'.clock = s.clock)
    (hcommit : s'.commitSeqCounter = s.commitSeqCounter) (habort : s'.abortSeqCounter = s.abortSeqCounter)
    (hhistory : s'.history = s.history) (haborts : s'.abortTxLog = s.abortTxLog)
    (hhot : s'.hotRows = s.hotRows) : s.Advances s' :=
  ⟨hclock ▸ le_refl _, hcommit ▸ le_refl _, habort ▸ le_refl _, fun _ hc => .inl (hhistory ▸ hc),
    fun _ ha => .inl (haborts ▸ ha), fun _ hr => .inl (hhot ▸ hr)⟩

theorem Purged.advances {s' : TxLogStore T X} {p : TablePurge T} (h : s.Purged p) (hadv : s.Advances s') :
    s'.Purged p := by
  constructor
  case stamped => exact h.stamped.trans hadv.clock
  case commits =>
    intro pu hpu
    obtain ⟨hlt, hall⟩ := h.commits pu hpu
    refine ⟨hlt.trans_le hadv.commitCounter, ?_⟩
    intro c hc hle
    rcases hadv.history c hc with hc | hge
    · obtain ⟨hmicros, hrows⟩ := hall c hc hle
      refine ⟨hmicros, ?_⟩
      intro r hr htable
      rcases hadv.hotRows r hr with hr | hun
      · exact hrows r hr htable
      · exact (hun.uncommitted c hc).symm
    · omega
  case aborts =>
    intro pa hpa
    obtain ⟨hle, hall⟩ := h.aborts pa hpa
    refine ⟨hle.trans hadv.abortCounter, ?_⟩
    intro a ha hlt
    rcases hadv.abortTxLog a ha with ha | hge
    · obtain ⟨hmicros, hrows⟩ := hall a ha hlt
      refine ⟨hmicros, ?_⟩
      intro r hr htable
      rcases hadv.hotRows r hr with hr | hun
      · exact hrows r hr htable
      · exact (hun.unaborted a ha).symm
    · omega

theorem Cleared.advances {s' : TxLogStore T X} {cutoffs : PurgeTxLogCutoffs} (h : s.Cleared cutoffs)
    (hadv : s.Advances s') : s'.Cleared cutoffs := by
  constructor
  case commits =>
    intro pu hpu
    obtain ⟨hlt, hall⟩ := h.commits pu hpu
    refine ⟨hlt.trans_le hadv.commitCounter, ?_⟩
    intro c hc hle r hr
    rcases hadv.history c hc with hc | hge
    · rcases hadv.hotRows r hr with hr | hun
      · exact hall c hc hle r hr
      · exact (hun.uncommitted c hc).symm
    · omega
  case aborts =>
    intro pa hpa
    obtain ⟨hle, hall⟩ := h.aborts pa hpa
    refine ⟨hle.trans hadv.abortCounter, ?_⟩
    intro a ha hlt r hr
    rcases hadv.abortTxLog a ha with ha | hge
    · rcases hadv.hotRows r hr with hr | hun
      · exact hall a ha hlt r hr
      · exact (hun.unaborted a ha).symm
    · omega

theorem CollectOk.advances {s' : TxLogStore T X} {call : Collect} (h : s.CollectOk call) (hadv : s.Advances s') :
    s'.CollectOk call := by
  cases call with
  | started startedAt => exact le_trans h hadv.clock
  | watermarked startedAt cutoffs => exact ⟨h.1.trans hadv.clock, h.2.advances hadv⟩
  | clamped startedAt cutoffs => exact ⟨h.1.trans hadv.clock, h.2.advances hadv⟩

/-! ## Transactions -/

section Transactions

variable (h : s.HotInv)
include h

theorem HotInv.tick {now : Int} (hle : s.clock ≤ now) : ({ s with clock := now } : TxLogStore T X).HotInv := by
  have hadv : s.Advances { s with clock := now } :=
    ⟨hle, le_refl _, le_refl _, fun c hc => .inl hc, fun a ha => .inl ha, fun r hr => .inl hr⟩
  exact
    { h with
      clock := h.clock.trans hle
      commits := fun c hc => ⟨(h.commits c hc).1, (h.commits c hc).2.trans hle⟩
      aborts := fun a ha => ⟨(h.aborts a ha).1, (h.aborts a ha).2.trans hle⟩
      purged := fun p hp => (h.purged p hp).advances hadv
      collecting := fun call hcall => (h.collecting call hcall).advances hadv }

variable [DecidableEq T] [DecidableEq X]

omit h [DecidableEq T] in
theorem of_fresh {tx : X} (hfresh : s.fresh tx = true) :
    s.Unsettled tx ∧ (∀ b ∈ s.beginTxLog, b.txUuid ≠ tx) ∧ ∀ r ∈ s.hotRows, r.txUuid ≠ tx := by
  simp only [fresh, Bool.and_eq_true, List.all_eq_true, decide_eq_true_eq] at hfresh
  obtain ⟨⟨⟨⟨hbegin, hhistory⟩, habort⟩, -⟩, hhot⟩ := hfresh
  exact ⟨⟨hhistory, habort⟩, hbegin, hhot⟩

omit [DecidableEq T] in
/-- An open transaction has its begin row and is not settled: had it committed and lost its commit row, the
    begin row would be gone too. -/
theorem HotInv.of_openTx {tx : X} {b : BeginTxRow X} (hopen : s.openTx tx = some b) :
    s.Unsettled tx ∧ b ∈ s.beginTxLog ∧ b.txUuid = tx := by
  have hb := List.mem_of_find?_eq_some hopen
  have hstatus := List.find?_some hopen
  simp only [Bool.and_eq_true, decide_eq_true_eq, List.all_eq_true] at hstatus
  obtain ⟨⟨⟨htx, -⟩, hcommit⟩, habort⟩ := hstatus
  refine ⟨⟨?_, habort⟩, hb, htx⟩
  intro c hc hctx
  by_cases hmem : c ∈ s.commitTxLog
  · exact hcommit c hmem hctx
  · exact (h.collected c hc hmem).1 b hb (htx.trans hctx.symm)

omit [DecidableEq T] in
theorem HotInv.beginTx {row : BeginTxRow X} (hfresh : s.fresh row.txUuid = true) :
    ({ s with beginTxLog := s.beginTxLog ++ [row] } : TxLogStore T X).HotInv := by
  obtain ⟨hun, hnew, hhot⟩ := of_fresh hfresh
  exact
    { h with
      begins := by
        intro b hb b' hb' htx
        rw [List.mem_append, List.mem_singleton] at hb hb'
        rcases hb with hb | rfl <;> rcases hb' with hb' | rfl
        · exact h.begins b hb b' hb' htx
        · exact absurd htx (hnew b hb)
        · exact absurd htx.symm (hnew b' hb')
        · rfl
      collected := by
        intro c hc hgone
        refine ⟨?_, (h.collected c hc hgone).2⟩
        intro b hb
        rcases List.mem_append.mp hb with hb | hb
        · exact (h.collected c hc hgone).1 b hb
        · obtain rfl := List.mem_singleton.mp hb
          exact (hun.uncommitted c hc).symm
      logged := by
        intro r hr hknown
        apply h.logged r hr
        rcases hknown with ⟨b, hb, heq⟩ | hknown
        · rcases List.mem_append.mp hb with hb | hb
          · exact .inl ⟨b, hb, heq⟩
          · obtain rfl := List.mem_singleton.mp hb
            exact absurd heq.symm (hhot r hr)
        · exact .inr hknown
      purged := fun p hp => (h.purged p hp).advances (advances_of_eq rfl rfl rfl rfl rfl rfl)
      collecting := fun call hcall => (h.collecting call hcall).advances (advances_of_eq rfl rfl rfl rfl rfl rfl) }

omit h in
theorem mem_hotRows_insertHotRows {tx : X} {rows : List (T × LogKind)} {r : HotRow T X}
    (hr : r ∈ (s.insertHotRows tx rows).hotRows) :
    r ∈ s.hotRows ∨ r.txUuid = tx ∧ ∃ log, (r.tableUuid, log) ∈ rows := by
  rcases List.mem_append.mp hr with hr | hr
  · exact .inl hr
  · obtain ⟨w, hw, rfl⟩ := List.mem_map.mp hr
    exact .inr ⟨rfl, w.2, hw⟩

omit h in
/-- A write logs its tables. -/
theorem logged_insertHotRows {tx : X} {rows : List (T × LogKind)} {table : T} {log : LogKind}
    (hrow : (table, log) ∈ rows) : (tx, table) ∈ (s.insertHotRows tx rows).txTableLog := by
  have hmem : (tx, table) ∈ rows.map (fun r => (tx, r.1)) := List.mem_map.mpr ⟨(table, log), hrow, rfl⟩
  have hins : ∃ w ∈ (s.insertHotRows tx rows).txTableLog, id w = id (tx, table) :=
    Keyed.exists_mem_insertAllNew hmem
  obtain ⟨w, hw, hkey⟩ := hins
  obtain rfl : w = (tx, table) := hkey
  exact hw

theorem HotInv.insertHotRows {tx : X} (hun : s.Unsettled tx) (rows : List (T × LogKind)) :
    (s.insertHotRows tx rows).HotInv := by
  have hadv : s.Advances (s.insertHotRows tx rows) := by
    refine ⟨le_refl _, le_refl _, le_refl _, fun c hc => .inl hc, fun a ha => .inl ha, ?_⟩
    intro r hr
    rcases mem_hotRows_insertHotRows hr with hr | ⟨htx, -⟩
    · exact .inl hr
    · exact .inr (htx ▸ hun)
  exact
    { h with
      collected := by
        intro c hc hgone
        refine ⟨(h.collected c hc hgone).1, ?_⟩
        intro r hr
        rcases hadv.hotRows r hr with hr | hun
        · exact (h.collected c hc hgone).2 r hr
        · exact (hun.uncommitted c hc).symm
      logged := by
        intro r hr hknown
        rcases mem_hotRows_insertHotRows hr with hr | ⟨htx, log, hrow⟩
        · exact Keyed.mem_insertAllNew_of_mem (h.logged r hr hknown)
        · rw [htx]
          exact logged_insertHotRows hrow
      purged := fun p hp => (h.purged p hp).advances hadv
      collecting := fun call hcall => (h.collecting call hcall).advances hadv }

omit [DecidableEq T] [DecidableEq X] in
theorem HotInv.insertCommit {tx : X} (hun : s.Unsettled tx)
    (hlogged : ∀ r ∈ s.hotRows, r.txUuid = tx → (tx, r.tableUuid) ∈ s.txTableLog) (comment author : String) :
    (s.insertCommit tx comment author).HotInv := by
  have hmem : ∀ c, c ∈ s.history ++ [s.nextCommit tx comment author] →
      c ∈ s.history ∨ c = s.nextCommit tx comment author := by
    intro c hc
    rwa [List.mem_append, List.mem_singleton] at hc
  have hgrow : s.commitSeqCounter ≤ (s.insertCommit tx comment author).commitSeqCounter :=
    Int.le_add_one (le_refl _)
  have hadv : s.Advances (s.insertCommit tx comment author) := by
    refine ⟨le_refl _, hgrow, le_refl _, ?_, fun a ha => .inl ha, fun r hr => .inl hr⟩
    intro c hc
    rcases hmem c hc with hc | rfl
    · exact .inl hc
    · exact .inr (le_refl _)
  exact
    { h with
      commits := by
        intro c hc
        rcases hmem c hc with hc | rfl
        · exact ⟨(h.commits c hc).1.trans_le hgrow, (h.commits c hc).2⟩
        · exact ⟨Int.lt_add_one_of_le (le_refl _), le_refl _⟩
      recorded := by
        intro c hc
        rcases List.mem_append.mp hc with hc | hc
        · exact List.mem_append_left _ (h.recorded c hc)
        · exact List.mem_append_right _ hc
      distinct := by
        intro c hc c' hc' htx
        rcases hmem c hc with hc | rfl <;> rcases hmem c' hc' with hc' | rfl
        · exact h.distinct c hc c' hc' htx
        · exact absurd htx (hun.uncommitted c hc)
        · exact absurd htx.symm (hun.uncommitted c' hc')
        · rfl
      exclusive := by
        intro c hc a ha
        rcases hmem c hc with hc | rfl
        · exact h.exclusive c hc a ha
        · exact (hun.unaborted a ha).symm
      collected := by
        intro c hc hgone
        rcases hmem c hc with hc | rfl
        · exact h.collected c hc (fun hin => hgone (List.mem_append_left _ hin))
        · exact absurd (List.mem_append_right _ List.mem_cons_self) hgone
      logged := by
        intro r hr hknown
        rcases hknown with hknown | ⟨c, hc, heq⟩ | hknown
        · exact h.logged r hr (.inl hknown)
        · rcases hmem c hc with hc | rfl
          · exact h.logged r hr (.inr (.inl ⟨c, hc, heq⟩))
          · have htx : tx = r.txUuid := heq
            exact htx ▸ hlogged r hr htx.symm
        · exact h.logged r hr (.inr (.inr hknown))
      persisted := fun p hp => (h.persisted p hp).trans_le hgrow
      flushing := fun f hf hcaller => (h.flushing f hf hcaller).trans_le hgrow
      snapshots := fun n hn => (h.snapshots n hn).trans_le hgrow
      purged := fun p hp => (h.purged p hp).advances hadv
      collecting := fun call hcall => (h.collecting call hcall).advances hadv }

omit [DecidableEq T] [DecidableEq X] in
theorem HotInv.insertAbort {tx : X} (hun : s.Unsettled tx)
    (hlogged : ∀ r ∈ s.hotRows, r.txUuid = tx → (tx, r.tableUuid) ∈ s.txTableLog) :
    (s.insertAbort tx).HotInv := by
  have hmem : ∀ a, a ∈ (s.insertAbort tx).abortTxLog →
      a ∈ s.abortTxLog ∨ a = ⟨tx, s.clock, s.abortSeqCounter⟩ := by
    intro a ha
    rwa [TxLogStore.insertAbort, List.mem_append, List.mem_singleton] at ha
  have hgrow : s.abortSeqCounter ≤ (s.insertAbort tx).abortSeqCounter := Int.le_add_one (le_refl _)
  have hadv : s.Advances (s.insertAbort tx) := by
    refine ⟨le_refl _, le_refl _, hgrow, fun c hc => .inl hc, ?_, fun r hr => .inl hr⟩
    intro a ha
    rcases hmem a ha with ha | rfl
    · exact .inl ha
    · exact .inr (le_refl _)
  exact
    { h with
      aborts := by
        intro a ha
        rcases hmem a ha with ha | rfl
        · exact ⟨(h.aborts a ha).1.trans_le hgrow, (h.aborts a ha).2⟩
        · exact ⟨Int.lt_add_one_of_le (le_refl _), le_refl _⟩
      exclusive := by
        intro c hc a ha
        rcases hmem a ha with ha | rfl
        · exact h.exclusive c hc a ha
        · exact hun.uncommitted c hc
      logged := by
        intro r hr hknown
        rcases hknown with hknown | hknown | ⟨a, ha, heq⟩
        · exact h.logged r hr (.inl hknown)
        · exact h.logged r hr (.inr (.inl hknown))
        · rcases hmem a ha with ha | rfl
          · exact h.logged r hr (.inr (.inr ⟨a, ha, heq⟩))
          · have htx : tx = r.txUuid := heq
            exact htx ▸ hlogged r hr htx.symm
      purged := fun p hp => (h.purged p hp).advances hadv
      collecting := fun call hcall => (h.collecting call hcall).advances hadv }

end Transactions

/-! ## Purge -/

section Purge

variable [DecidableEq T] [DecidableEq X] (h : s.HotInv)

theorem mem_hotRows_deleteHotRows {table : T} {txs : List X} {r : HotRow T X} :
    r ∈ (s.deleteHotRows table txs).hotRows ↔ r ∈ s.hotRows ∧ ¬ (r.tableUuid = table ∧ r.txUuid ∈ txs) := by
  simp only [deleteHotRows, List.mem_filter, Bool.not_eq_true', Bool.and_eq_false_iff, decide_eq_false_iff_not,
    not_and_or]

include h

theorem HotInv.deleteHotRows (table : T) (txs : List X) : (s.deleteHotRows table txs).HotInv := by
  have hsub : ∀ r ∈ (s.deleteHotRows table txs).hotRows, r ∈ s.hotRows :=
    fun r hr => (mem_hotRows_deleteHotRows.mp hr).1
  have hadv : s.Advances (s.deleteHotRows table txs) :=
    ⟨le_refl _, le_refl _, le_refl _, fun c hc => .inl hc, fun a ha => .inl ha, fun r hr => .inl (hsub r hr)⟩
  exact
    { h with
      collected := fun c hc hgone =>
        ⟨(h.collected c hc hgone).1, fun r hr => (h.collected c hc hgone).2 r (hsub r hr)⟩
      logged := fun r hr hknown => h.logged r (hsub r hr) hknown
      purged := fun p hp => (h.purged p hp).advances hadv
      collecting := fun call hcall => (h.collecting call hcall).advances hadv }

omit [DecidableEq T] [DecidableEq X] in
/-- A committed transaction with a hot row has its commit row. -/
theorem HotInv.mem_commitTxLog {c : CommitTxRow X} (hc : c ∈ s.history) {r : HotRow T X} (hr : r ∈ s.hotRows)
    (htx : r.txUuid = c.txUuid) : c ∈ s.commitTxLog := by
  by_contra hgone
  exact (h.collected c hc hgone).2 r hr htx

/-- The purge row of phase 2 says what it should: the hot deletes of the same transaction made it so. -/
theorem HotInv.purged_commitTablePurge (table : T) {pu pa : Option Int}
    (hpu : ∀ n, pu = some n → n < s.commitSeqCounter) (hpa : ∀ n, pa = some n → n ≤ s.abortSeqCounter) :
    (s.commitTablePurge table pu pa).Purged ⟨table, pu, pa, s.clock⟩ := by
  constructor
  case stamped => exact le_refl _
  case commits =>
    rintro n rfl
    refine ⟨hpu n rfl, ?_⟩
    intro c hc hle
    refine ⟨(h.commits c hc).2, ?_⟩
    intro r hr htable htx
    obtain ⟨hrs, hkept⟩ := mem_hotRows_deleteHotRows.mp hr
    have hcommitted : c ∈ s.commitTxLog := h.mem_commitTxLog hc hrs htx
    have hdoomed : r.txUuid ∈ s.committedUpTo n := by
      rw [htx]
      exact List.mem_map_of_mem (List.mem_filter.mpr ⟨hcommitted, decide_eq_true hle⟩)
    exact hkept ⟨htable, List.mem_append_left _ hdoomed⟩
  case aborts =>
    rintro n rfl
    refine ⟨hpa n rfl, ?_⟩
    intro a ha hlt
    refine ⟨(h.aborts a ha).2, ?_⟩
    intro r hr htable htx
    obtain ⟨-, hkept⟩ := mem_hotRows_deleteHotRows.mp hr
    have hdoomed : r.txUuid ∈ s.abortedBelow n := by
      rw [htx]
      exact List.mem_map_of_mem (List.mem_filter.mpr ⟨ha, decide_eq_true hlt⟩)
    exact hkept ⟨htable, List.mem_append_right _ hdoomed⟩

theorem HotInv.commitTablePurge (table : T) {pu pa : Option Int}
    (hpu : ∀ n, pu = some n → n < s.commitSeqCounter) (hpa : ∀ n, pa = some n → n ≤ s.abortSeqCounter) :
    (s.commitTablePurge table pu pa).HotInv := by
  have hdeleted := h.deleteHotRows table (pu.elim [] s.committedUpTo ++ pa.elim [] s.abortedBelow)
  have hnew := h.purged_commitTablePurge table hpu hpa
  have hpurged : ∀ p ∈ (s.commitTablePurge table pu pa).tablePurges, (s.commitTablePurge table pu pa).Purged p := by
    intro p hp
    rcases List.mem_append.mp hp with hp | hp
    · have hold := hdeleted.purged p hp
      exact ⟨hold.stamped, hold.commits, hold.aborts⟩
    · rw [List.mem_singleton.mp hp]
      exact hnew
  exact ⟨hdeleted.clock, hdeleted.commits, hdeleted.aborts, hdeleted.begins, hdeleted.recorded, hdeleted.distinct, hdeleted.exclusive,
    hdeleted.collected, hdeleted.logged, hdeleted.persisted, hdeleted.flushing, hdeleted.snapshots, hpurged,
    fun call hcall => (hdeleted.collecting call hcall).advances (advances_of_eq rfl rfl rfl rfl rfl rfl)⟩

omit h [DecidableEq T] [DecidableEq X] in
theorem eq_of_computePurgeWatermark {candidate lastPurged : Option Int} {n : Int}
    (hn : computePurgeWatermark candidate lastPurged = some n) : candidate = some n := by
  cases candidate with
  | none => cases hn
  | some c =>
      cases lastPurged with
      | none => exact hn
      | some lp =>
          simp only [computePurgeWatermark, Option.bind_some, Option.ite_none_left_eq_some] at hn
          exact hn.2

theorem HotInv.purge (table : T) : (s.purge table).HotInv := by
  have hswept := h.deleteHotRows table (s.expiredBegin s.clock)
  unfold TxLogStore.purge
  dsimp only
  split
  · exact hswept
  · refine hswept.commitTablePurge table ?_ ?_
    · intro n hn
      obtain ⟨w, hw, rfl⟩ := List.mem_map.mp (List.max?_mem (eq_of_computePurgeWatermark hn))
      exact h.snapshots w (List.mem_filter.mp hw).1
    · intro n hn
      obtain rfl := Option.some.inj (eq_of_computePurgeWatermark hn)
      exact le_refl s.abortSeqCounter

end Purge

/-! ## The cutoffs of `PurgeTxLog` -/

section Cutoffs

variable [DecidableEq T] [DecidableEq X] (h : s.HotInv)

omit [DecidableEq X] in
theorem exists_purge_of_purgeSeqWatermark {table : T} {asOf n : Int}
    (hn : s.purgeSeqWatermark table (some asOf) = some n) :
    ∃ p ∈ s.tablePurges, p.tableUuid = table ∧ p.commitMicros ≤ asOf ∧ p.lastPurgedCommitSeqNum = some n := by
  obtain ⟨p, hp, hpn⟩ := List.mem_filterMap.mp (List.max?_mem hn)
  obtain ⟨hmem, hcond⟩ := List.mem_filter.mp hp
  simp only [Bool.and_eq_true, decide_eq_true_eq, Option.all_some] at hcond
  exact ⟨p, hmem, hcond.1, hcond.2, hpn⟩

omit [DecidableEq X] in
theorem exists_purge_of_purgeAbortedSeqWatermark {table : T} {asOf n : Int}
    (hn : s.purgeAbortedSeqWatermark table (some asOf) = some n) :
    ∃ p ∈ s.tablePurges, p.tableUuid = table ∧ p.commitMicros ≤ asOf ∧ p.lastPurgedAbortedSeqNum = some n := by
  obtain ⟨p, hp, hpn⟩ := List.mem_filterMap.mp (List.max?_mem hn)
  obtain ⟨hmem, hcond⟩ := List.mem_filter.mp hp
  simp only [Bool.and_eq_true, decide_eq_true_eq, Option.all_some] at hcond
  exact ⟨p, hmem, hcond.1, hcond.2, hpn⟩

omit [DecidableEq T] [DecidableEq X] in
/-- A cutoff comes from some table, and every table's watermark is at or above it. -/
theorem of_branchMinWatermark {f : T → Option Int} {tables : List T} {m : Int}
    (hm : branchMinWatermark none (tables.map f) = some m) :
    (∃ table, ∃ v, f table = some v ∧ m ≤ v) ∧ ∀ table ∈ tables, ∃ v, f table = some v ∧ m ≤ v := by
  have hall : ∀ table ∈ tables, ∃ v, f table = some v ∧ m ≤ v :=
    fun table htable => (le_of_branchMinWatermark hm).2 (f table) (List.mem_map_of_mem htable)
  refine ⟨?_, hall⟩
  cases tables with
  | nil => cases hm
  | cons table tables => exact ⟨table, hall table List.mem_cons_self⟩

theorem puCutoff_eq (startedAt : Int) :
    (computePurgeTxLogCutoffs (s.purgeWatermarksForBranch startedAt)).puCutoff =
      branchMinWatermark none ((s.settledTables startedAt).map (fun table =>
        s.purgeSeqWatermark table (some startedAt))) := by
  rw [computePurgeTxLogCutoffs, purgeWatermarksForBranch, List.map_map]
  rfl

theorem paCutoff_eq (startedAt : Int) :
    (computePurgeTxLogCutoffs (s.purgeWatermarksForBranch startedAt)).paCutoff =
      branchMinWatermark none ((s.settledTables startedAt).map (fun table =>
        s.purgeAbortedSeqWatermark table (some startedAt))) := by
  simp only [computePurgeTxLogCutoffs, purgeWatermarksForBranch, List.map_map]
  rfl

include h

/-- The table of a hot row whose transaction is settled by the time is among the tables looked at. -/
theorem HotInv.mem_settledTables {r : HotRow T X} (hr : r ∈ s.hotRows) (hknown : s.Known r.txUuid) {micros : Int}
    (hsettled : s.settledBy micros r.txUuid = true) : r.tableUuid ∈ s.settledTables micros := by
  refine List.mem_dedup.mpr (List.mem_map.mpr ⟨(r.txUuid, r.tableUuid), ?_, rfl⟩)
  exact List.mem_filter.mpr ⟨h.logged r hr hknown, hsettled⟩

/-- **The cutoffs are safe.** A transaction below a cutoff was settled before the call started, because the purge
    row the cutoff comes from was committed by then. So the tables it wrote to were looked at, and have purged it. -/
theorem HotInv.cleared_cutoffs (startedAt : Int) :
    s.Cleared (computePurgeTxLogCutoffs (s.purgeWatermarksForBranch startedAt)) := by
  constructor
  case commits =>
    intro pu hpu
    rw [puCutoff_eq] at hpu
    obtain ⟨⟨table, v, hv, hle⟩, hall⟩ := of_branchMinWatermark hpu
    obtain ⟨p, hp, -, hstamp, hpv⟩ := exists_purge_of_purgeSeqWatermark hv
    obtain ⟨hbound, hsettled⟩ := (h.purged p hp).commits v hpv
    refine ⟨by omega, ?_⟩
    intro c hc hcpu r hr htx
    have hmicros : c.commitMicros ≤ startedAt := (hsettled c hc (hcpu.trans hle)).1.trans hstamp
    have hlog : c ∈ s.commitTxLog := h.mem_commitTxLog hc hr htx
    have hin : r.tableUuid ∈ s.settledTables startedAt := by
      refine h.mem_settledTables hr (.inr (.inl ⟨c, hc, htx.symm⟩)) ?_
      rw [settledBy, Bool.or_eq_true]
      exact .inl (List.any_eq_true.mpr ⟨c, hlog, by simp [htx, hmicros]⟩)
    obtain ⟨v', hv', hle'⟩ := hall r.tableUuid hin
    obtain ⟨p', hp', htable, -, hpv'⟩ := exists_purge_of_purgeSeqWatermark hv'
    exact (((h.purged p' hp').commits v' hpv').2 c hc (hcpu.trans hle')).2 r hr htable.symm htx
  case aborts =>
    intro pa hpa
    rw [paCutoff_eq] at hpa
    obtain ⟨⟨table, v, hv, hle⟩, hall⟩ := of_branchMinWatermark hpa
    obtain ⟨p, hp, -, hstamp, hpv⟩ := exists_purge_of_purgeAbortedSeqWatermark hv
    obtain ⟨hbound, hsettled⟩ := (h.purged p hp).aborts v hpv
    refine ⟨hle.trans hbound, ?_⟩
    intro a ha hapa r hr htx
    have hmicros : a.abortedAtMicros ≤ startedAt := (hsettled a ha (hapa.trans_le hle)).1.trans hstamp
    have hin : r.tableUuid ∈ s.settledTables startedAt := by
      refine h.mem_settledTables hr (.inr (.inr ⟨a, ha, htx.symm⟩)) ?_
      rw [settledBy, Bool.or_eq_true]
      exact .inr (List.any_eq_true.mpr ⟨a, ha, by simp [htx, hmicros]⟩)
    obtain ⟨v', hv', hle'⟩ := hall r.tableUuid hin
    obtain ⟨p', hp', htable, -, hpv'⟩ := exists_purge_of_purgeAbortedSeqWatermark hv'
    exact (((h.purged p' hp').aborts v' hpv').2 a ha (hapa.trans_le hle')).2 r hr htable.symm htx

omit h [DecidableEq T] [DecidableEq X] in
theorem Cleared.clamp {cutoffs : PurgeTxLogCutoffs} (hclear : s.Cleared cutoffs) (wTxlog : Option Int) :
    s.Cleared (cutoffs.clamp wTxlog) := by
  constructor
  case commits =>
    intro n hn
    obtain ⟨pu, hpu, hnpu⟩ := cutoffs.le_of_clamp hn
    obtain ⟨hlt, hall⟩ := hclear.commits pu hpu
    exact ⟨hnpu.trans_lt hlt, fun c hc hcn => hall c hc (hcn.trans hnpu)⟩
  case aborts => exact hclear.aborts

end Cutoffs

/-! ## The deletes of `PurgeTxLog` -/

section Deletes

variable [DecidableEq X] {cutoffs : PurgeTxLogCutoffs} {startedAt grace : Int}

theorem of_mem_expiredBegin {bound : Int} {tx : X} (htx : tx ∈ s.expiredBegin bound) :
    (∃ b ∈ s.beginTxLog, b.txUuid = tx ∧ b.expiresAtMicros < bound) ∧
      (∀ c ∈ s.commitTxLog, c.txUuid ≠ tx) ∧ ∀ a ∈ s.abortTxLog, a.txUuid ≠ tx := by
  obtain ⟨b, hb, rfl⟩ := List.mem_map.mp htx
  obtain ⟨hmem, hcond⟩ := List.mem_filter.mp hb
  simp only [Bool.and_eq_true, decide_eq_true_eq, List.all_eq_true] at hcond
  exact ⟨⟨b, hmem, rfl, hcond.1.1⟩, hcond.1.2, hcond.2⟩

/-- Why a transaction is eligible: it is settled and has no hot row left, or it is expired and unsettled. -/
inductive Collectable (s : TxLogStore T X) (tx : X) : Prop where
  | committed (c : CommitTxRow X) (hc : c ∈ s.commitTxLog) (htx : c.txUuid = tx)
      (hclear : ∀ r ∈ s.hotRows, r.txUuid ≠ tx)
  | aborted (a : AbortTxRow X) (ha : a ∈ s.abortTxLog) (htx : a.txUuid = tx)
      (hclear : ∀ r ∈ s.hotRows, r.txUuid ≠ tx)
  | expired (b : BeginTxRow X) (hb : b ∈ s.beginTxLog) (htx : b.txUuid = tx) (hlate : b.expiresAtMicros < s.clock)
      (hcommit : ∀ c ∈ s.commitTxLog, c.txUuid ≠ tx) (habort : ∀ a ∈ s.abortTxLog, a.txUuid ≠ tx)

/-- With a grace that is not negative, the expiry bound is not past the clock. -/
theorem satSub_le {x y clock : Int} (hx : x ≤ clock) (hy : 0 ≤ y) (hclock : 0 ≤ clock) : satSub x y ≤ clock := by
  unfold satSub i64Max i64Min
  omega

theorem expiredBeginGraceMicros_nonneg (cfg : LifecycleConfig) : 0 ≤ cfg.expiredBeginGraceMicros := by
  unfold LifecycleConfig.expiredBeginGraceMicros LifecycleConfig.purgeSweepIntervalMicros
  omega

variable (h : s.HotInv)
include h

/-- The four branches of `eligible`. -/
theorem HotInv.collectable (hstart : startedAt ≤ s.clock) (hclear : s.Cleared cutoffs) (hgrace : 0 ≤ grace) {tx : X}
    (htx : tx ∈ s.eligible cutoffs startedAt grace) : s.Collectable tx := by
  simp only [eligible, List.mem_append] at htx
  rcases htx with ((hcommitted | haborted) | hpure) | hexpired
  · cases hpu : cutoffs.puCutoff with
    | none => simp [hpu] at hcommitted
    | some pu =>
        rw [hpu] at hcommitted
        obtain ⟨c, hc, rfl⟩ := List.mem_map.mp hcommitted
        obtain ⟨hmem, hle⟩ := List.mem_filter.mp hc
        exact .committed c hmem rfl
          ((hclear.commits pu hpu).2 c (h.recorded c hmem) (of_decide_eq_true hle))
  · cases hpa : cutoffs.paCutoff with
    | none => simp [hpa] at haborted
    | some pa =>
        rw [hpa] at haborted
        obtain ⟨a, ha, rfl⟩ := List.mem_map.mp haborted
        obtain ⟨hmem, hlt⟩ := List.mem_filter.mp ha
        exact .aborted a hmem rfl ((hclear.aborts pa hpa).2 a hmem (of_decide_eq_true hlt))
  · -- A transaction that wrote a row has logged its table.
    obtain ⟨a, ha, rfl⟩ := List.mem_map.mp hpure
    obtain ⟨hmem, hcond⟩ := List.mem_filter.mp ha
    simp only [Bool.and_eq_true, decide_eq_true_eq, List.all_eq_true] at hcond
    refine .aborted a hmem rfl ?_
    intro r hr hrtx
    exact hcond.2 _ (h.logged r hr (.inr (.inr ⟨a, hmem, hrtx.symm⟩))) hrtx
  · obtain ⟨⟨b, hb, rfl, hlate⟩, hcommit, habort⟩ := of_mem_expiredBegin hexpired
    exact .expired b hb rfl (hlate.trans_le (satSub_le hstart hgrace h.clock)) hcommit habort

/-- A commit row is only eligible through the committed cutoff. -/
theorem HotInv.le_puCutoff {c : CommitTxRow X} (hc : c ∈ s.commitTxLog)
    (hdoomed : c.txUuid ∈ s.eligible cutoffs startedAt grace) :
    ∃ pu, cutoffs.puCutoff = some pu ∧ c.commitSeqNum ≤ pu := by
  simp only [eligible, List.mem_append] at hdoomed
  rcases hdoomed with ((hcommitted | haborted) | hpure) | hexpired
  · cases hpu : cutoffs.puCutoff with
    | none => simp [hpu] at hcommitted
    | some pu =>
        rw [hpu] at hcommitted
        obtain ⟨c', hc', htx⟩ := List.mem_map.mp hcommitted
        obtain ⟨hmem, hle⟩ := List.mem_filter.mp hc'
        obtain rfl := h.distinct c' (h.recorded c' hmem) c (h.recorded c hc) htx
        exact ⟨pu, rfl, of_decide_eq_true hle⟩
  · cases hpa : cutoffs.paCutoff with
    | none => simp [hpa] at haborted
    | some pa =>
        rw [hpa] at haborted
        obtain ⟨a, ha, htx⟩ := List.mem_map.mp haborted
        exact absurd htx.symm (h.exclusive c (h.recorded c hc) a (List.mem_filter.mp ha).1)
  · obtain ⟨a, ha, htx⟩ := List.mem_map.mp hpure
    exact absurd htx.symm (h.exclusive c (h.recorded c hc) a (List.mem_filter.mp ha).1)
  · exact absurd rfl ((of_mem_expiredBegin hexpired).2.1 c hc)

omit h in
theorem mem_deleteTxs (s : TxLogStore T X) (txs : List X) :
    (∀ c, c ∈ (s.deleteTxs txs).commitTxLog ↔ c ∈ s.commitTxLog ∧ c.txUuid ∉ txs) ∧
      (∀ a, a ∈ (s.deleteTxs txs).abortTxLog ↔ a ∈ s.abortTxLog ∧ a.txUuid ∉ txs) ∧
        (∀ b, b ∈ (s.deleteTxs txs).beginTxLog ↔ b ∈ s.beginTxLog ∧ b.txUuid ∉ txs) ∧
          ∀ w, w ∈ (s.deleteTxs txs).txTableLog ↔ w ∈ s.txTableLog ∧ w.1 ∉ txs := by
  simp [deleteTxs]

theorem HotInv.deleteTxs {txs : List X} (htxs : ∀ tx ∈ txs, s.Collectable tx) : (s.deleteTxs txs).HotInv := by
  obtain ⟨hcommits, haborts, hbegins, htables⟩ := s.mem_deleteTxs txs
  have hadv : s.Advances (s.deleteTxs txs) :=
    ⟨le_refl _, le_refl _, le_refl _, fun c hc => .inl hc, fun a ha => .inl ((haborts a).mp ha).1,
      fun r hr => .inl hr⟩
  exact
    { h with
      aborts := fun a ha => h.aborts a ((haborts a).mp ha).1
      begins := fun b hb b' hb' => h.begins b ((hbegins b).mp hb).1 b' ((hbegins b').mp hb').1
      recorded := fun c hc => h.recorded c ((hcommits c).mp hc).1
      exclusive := fun c hc a ha => h.exclusive c hc a ((haborts a).mp ha).1
      collected := by
        intro c hc hgone
        by_cases hin : c ∈ s.commitTxLog
        · have hdoomed : c.txUuid ∈ txs := by
            by_contra hnot
            exact hgone ((hcommits c).mpr ⟨hin, hnot⟩)
          constructor
          · intro b hb htx
            exact ((hbegins b).mp hb).2 (htx ▸ hdoomed)
          · cases htxs _ hdoomed with
            | committed _ _ _ hclear => exact hclear
            | aborted _ _ _ hclear => exact hclear
            | expired _ _ _ _ hcommit _ => exact absurd rfl (hcommit c hin)
        · exact ⟨fun b hb => (h.collected c hc hin).1 b ((hbegins b).mp hb).1, (h.collected c hc hin).2⟩
      logged := by
        intro r hr hknown
        -- A hot row of a deleted transaction belongs to an expired one, which no log knows any more.
        have hkept : r.txUuid ∉ txs := by
          intro hdoomed
          cases htxs _ hdoomed with
          | committed _ _ _ hclear => exact hclear r hr rfl
          | aborted _ _ _ hclear => exact hclear r hr rfl
          | expired b hb htx _ hcommit habort =>
              rcases hknown with ⟨b', hb', heq⟩ | ⟨c, hc, heq⟩ | ⟨a, ha, heq⟩
              · exact ((hbegins b').mp hb').2 (heq ▸ hdoomed)
              · by_cases hin : c ∈ s.commitTxLog
                · exact hcommit c hin heq
                · exact (h.collected c hc hin).1 b hb (htx.trans heq.symm)
              · exact habort a ((haborts a).mp ha).1 heq
        refine (htables _).mpr ⟨h.logged r hr ?_, hkept⟩
        rcases hknown with ⟨b, hb, heq⟩ | hcommitted | ⟨a, ha, heq⟩
        · exact .inl ⟨b, ((hbegins b).mp hb).1, heq⟩
        · exact .inr (.inl hcommitted)
        · exact .inr (.inr ⟨a, ((haborts a).mp ha).1, heq⟩)
      purged := fun p hp => (h.purged p hp).advances hadv
      collecting := fun call hcall => (h.collecting call hcall).advances hadv }

end Deletes

/-! ## Every event -/

section Events

variable [DecidableEq T] [DecidableEq X]

/-- **Inversion.** What a statement of `persist_tx_log` can touch. -/
inductive FlushMove (s : TxLogStore T X) (f : Flush T X) : TxLogStore T X → Prop where
  | goesOn (segments : List TxLogSegment) (files : Int → Option (List TxLogRecord)) (phase : FlushPhase X) :
      FlushMove s f { s with txLogSegments := segments, txLogFiles := files, flush := some { f with phase := phase } }
  | fails (segments : List TxLogSegment) : FlushMove s f { s with txLogSegments := segments, flush := none }
  | returns (segments : List TxLogSegment) :
      FlushMove s f (({ s with txLogSegments := segments } : TxLogStore T X).returnOk f.caller f.target)

omit [DecidableEq T] [DecidableEq X] in
theorem flushMove_flushStatement (s : TxLogStore T X) (f : Flush T X) (outcome : Outcome) :
    s.FlushMove f (s.flushStatement f outcome) := by
  cases outcome with
  | done =>
      cases hphase : f.phase with
      | locked =>
          simp only [flushStatement, hphase]
          exact .goesOn _ _ _
      | reclaiming uuids =>
          cases uuids with
          | nil =>
              simp only [flushStatement, hphase]
              split
              · exact .returns _
              · exact .goesOn _ _ _
          | cons uuid uuids =>
              simp only [flushStatement, hphase]
              exact .goesOn _ _ _
      | selecting w =>
          simp only [flushStatement, hphase]
          split
          · exact .returns _
          · exact .goesOn _ _ _
      | committing uuid =>
          simp only [flushStatement, hphase]
          exact .returns _
      | forgetting uuid =>
          simp only [flushStatement, hphase]
          exact .fails _
      | dropping uuid uuids | inserting row rows | writing row rows | discarding uuid =>
          simp only [flushStatement, hphase]
          exact .goesOn _ _ _
  | failed left =>
      cases hphase : f.phase with
      | reclaiming uuids =>
          cases uuids with
          | nil =>
              simp only [flushStatement, hphase]
              exact .fails _
          | cons uuid uuids =>
              simp only [flushStatement, hphase]
              exact .goesOn _ _ _
      | dropping uuid uuids | writing row rows | discarding uuid =>
          simp only [flushStatement, hphase]
          exact .goesOn _ _ _
      | locked | selecting w | inserting row rows | committing uuid | forgetting uuid =>
          simp only [flushStatement, hphase]
          exact .fails _

omit [DecidableEq T] [DecidableEq X] in
/-- The cold side may change, and the calls in flight with it. -/
theorem HotInv.withCold (h : s.HotInv) (segments : List TxLogSegment) (files : Int → Option (List TxLogRecord))
    {persisted : List (T × Int)} {flush : Option (Flush T X)} (hpersisted : ∀ p ∈ persisted, p.2 < s.commitSeqCounter)
    (hflush : ∀ f, flush = some f → f.caller.isSome = true → f.target < s.commitSeqCounter) :
    ({ s with txLogSegments := segments, txLogFiles := files, persisted := persisted, flush := flush } :
      TxLogStore T X).HotInv :=
  { h with
    persisted := hpersisted
    flushing := hflush
    purged := fun p hp => (h.purged p hp).advances (advances_of_eq rfl rfl rfl rfl rfl rfl)
    collecting := fun call hcall => (h.collecting call hcall).advances (advances_of_eq rfl rfl rfl rfl rfl rfl) }

omit [DecidableEq T] [DecidableEq X] in
/-- What a returned call lets its Persist write. -/
theorem HotInv.persisted_returnOk (h : s.HotInv) {caller : Option T} {target : Int}
    (htarget : caller.isSome = true → target < s.commitSeqCounter) :
    ∀ p ∈ caller.elim s.persisted (fun table => s.persisted ++ [(table, target)]), p.2 < s.commitSeqCounter := by
  intro p hp
  cases caller with
  | none => exact h.persisted p hp
  | some table =>
      rcases List.mem_append.mp hp with hp | hp
      · exact h.persisted p hp
      · rw [List.mem_singleton.mp hp]
        exact htarget rfl

omit [DecidableEq T] [DecidableEq X] in
theorem HotInv.flushMove (h : s.HotInv) {f : Flush T X} (hf : s.flush = some f) {s' : TxLogStore T X}
    (hmove : s.FlushMove f s') : s'.HotInv := by
  cases hmove with
  | goesOn segments files phase =>
      refine h.withCold segments files h.persisted ?_
      rintro g ⟨⟩ hcaller
      exact h.flushing f hf hcaller
  | fails segments => exact h.withCold segments s.txLogFiles h.persisted (fun g hg => nomatch hg)
  | returns segments =>
      exact h.withCold segments s.txLogFiles (h.persisted_returnOk (h.flushing f hf)) (fun g hg => nomatch hg)

omit [DecidableEq T] [DecidableEq X] in
theorem HotInv.withCollect (h : s.HotInv) {collect : Option Collect}
    (hcollect : ∀ call, collect = some call → s.CollectOk call) :
    ({ s with collect := collect } : TxLogStore T X).HotInv :=
  { h with
    purged := fun p hp => (h.purged p hp).advances (advances_of_eq rfl rfl rfl rfl rfl rfl)
    collecting := fun call hcall => (hcollect call hcall).advances (advances_of_eq rfl rfl rfl rfl rfl rfl) }

theorem HotInv.collectStatement (h : s.HotInv) (cfg : LifecycleConfig) {call : Collect} (hcall : s.collect = some call) :
    (s.collectStatement cfg call).HotInv := by
  have hok := h.collecting call hcall
  cases call with
  | started startedAt =>
      refine h.withCollect ?_
      rintro call ⟨⟩
      exact ⟨hok, h.cleared_cutoffs startedAt⟩
  | watermarked startedAt cutoffs =>
      refine h.withCollect ?_
      rintro call ⟨⟩
      exact ⟨hok.1, hok.2.clamp _⟩
  | clamped startedAt cutoffs =>
      refine (h.deleteTxs ?_).withCollect (fun call hnone => nomatch hnone)
      exact fun tx htx => h.collectable hok.1 hok.2 (expiredBeginGraceMicros_nonneg cfg) htx

omit [DecidableEq T] [DecidableEq X] in
theorem HotInv.target_lt (h : s.HotInv) {caller : Option T} {target : Int} (hok : s.admitsFlush caller target = true) :
    caller.isSome = true → target < s.commitSeqCounter := by
  intro hcaller
  rw [admitsFlush, Bool.or_eq_true] at hok
  rcases hok with hnone | hany
  · simp [Option.isNone_iff_eq_none.mp hnone] at hcaller
  · obtain ⟨c, hc, heq⟩ := List.any_eq_true.mp hany
    exact of_decide_eq_true heq ▸ (h.commits c hc).1

omit [DecidableEq T] in
/-- The hot rows of an open transaction are logged. -/
theorem HotInv.logged_openTx (h : s.HotInv) {tx : X} {b : BeginTxRow X} (hopen : s.openTx tx = some b) :
    ∀ r ∈ s.hotRows, r.txUuid = tx → (tx, r.tableUuid) ∈ s.txTableLog := by
  rintro r hr rfl
  obtain ⟨-, hb, htx⟩ := h.of_openTx hopen
  exact h.logged r hr (.inl ⟨b, hb, htx⟩)

theorem HotInv.step (h : s.HotInv) {cfg : LifecycleConfig} {ev : TxLogEvent T X} {s' : TxLogStore T X}
    (hstep : txLogStep cfg s ev = some s') : s'.HotInv := by
  cases ev with
  | tick now =>
      simp only [txLogStep, Option.ite_none_right_eq_some, Option.some.injEq] at hstep
      obtain ⟨hle, rfl⟩ := hstep
      exact h.tick hle
  | beginTx tx timeoutMicros comment author =>
      simp only [txLogStep, Option.ite_none_right_eq_some, Option.some.injEq] at hstep
      obtain ⟨hfresh, rfl⟩ := hstep
      exact h.beginTx hfresh
  | writeData tx table log =>
      simp only [txLogStep, Option.ite_none_right_eq_some, Option.some.injEq] at hstep
      obtain ⟨hopen, rfl⟩ := hstep
      obtain ⟨b, hb⟩ := Option.isSome_iff_exists.mp hopen
      exact h.insertHotRows (h.of_openTx hb).1 _
  | commitTx tx =>
      simp only [txLogStep, Option.map_eq_some_iff] at hstep
      obtain ⟨b, hb, rfl⟩ := hstep
      split
      · exact h
      · exact h.insertCommit (h.of_openTx hb).1 (h.logged_openTx hb) _ _
  | abortTx tx =>
      simp only [txLogStep, Option.ite_none_right_eq_some, Option.some.injEq] at hstep
      obtain ⟨hopen, rfl⟩ := hstep
      obtain ⟨b, hb⟩ := Option.isSome_iff_exists.mp hopen
      exact h.insertAbort (h.of_openTx hb).1 (h.logged_openTx hb)
  | autoCommit tx rows comment author =>
      simp only [txLogStep, Option.ite_none_right_eq_some, Option.some.injEq] at hstep
      obtain ⟨hfresh, rfl⟩ := hstep
      obtain ⟨hun, -, hhot⟩ := of_fresh hfresh
      split
      · exact h
      · refine (h.insertHotRows hun rows).insertCommit ⟨hun.uncommitted, hun.unaborted⟩ ?_ _ _
        intro r hr htx
        rcases mem_hotRows_insertHotRows hr with hold | ⟨-, log, hrow⟩
        · exact absurd htx (hhot r hold)
        · exact logged_insertHotRows hrow
  | snapshot table commitSeqNum =>
      simp only [txLogStep, Option.ite_none_right_eq_some, Option.some.injEq] at hstep
      obtain ⟨hany, rfl⟩ := hstep
      obtain ⟨p, hp, hcond⟩ := List.any_eq_true.mp hany
      rw [Bool.and_eq_true, decide_eq_true_eq, decide_eq_true_eq] at hcond
      have hbound := h.persisted p hp
      exact
        { h with
          snapshots := by
            intro n hn
            rcases List.mem_append.mp hn with hn | hn
            · exact h.snapshots n hn
            · rw [List.mem_singleton.mp hn]
              exact hcond.2.trans_lt hbound
          purged := fun p hp => (h.purged p hp).advances (advances_of_eq rfl rfl rfl rfl rfl rfl)
          collecting := fun call hcall =>
            (h.collecting call hcall).advances (advances_of_eq rfl rfl rfl rfl rfl rfl) }
  | purge table =>
      obtain rfl := Option.some.inj hstep
      exact h.purge table
  | persistTxLog caller target =>
      simp only [txLogStep, Option.ite_none_right_eq_some] at hstep
      obtain ⟨hok, hstep⟩ := hstep
      split at hstep
      · obtain rfl := Option.some.inj hstep
        exact h.withCold s.txLogSegments s.txLogFiles (h.persisted_returnOk (h.target_lt hok)) h.flushing
      · obtain rfl := Option.some.inj hstep
        exact h
  | lockTxLog caller target =>
      simp only [txLogStep, Option.ite_none_right_eq_some, Option.some.injEq, Bool.and_eq_true] at hstep
      obtain ⟨⟨hok, -⟩, rfl⟩ := hstep
      refine h.withCold s.txLogSegments s.txLogFiles h.persisted ?_
      rintro f ⟨⟩
      exact h.target_lt hok
  | flushStatement outcome =>
      simp only [txLogStep, Option.map_eq_some_iff] at hstep
      obtain ⟨f, hf, rfl⟩ := hstep
      exact h.flushMove hf (s.flushMove_flushStatement f outcome)
  | flushStops =>
      obtain rfl := Option.some.inj hstep
      exact h.withCold s.txLogSegments s.txLogFiles h.persisted (fun f hf => nomatch hf)
  | purgeTxLog =>
      simp only [txLogStep, Option.ite_none_right_eq_some, Option.some.injEq] at hstep
      obtain ⟨-, rfl⟩ := hstep
      refine h.withCollect ?_
      rintro call ⟨⟩
      exact le_refl s.clock
  | collectStatement =>
      simp only [txLogStep, Option.map_eq_some_iff] at hstep
      obtain ⟨call, hcall, rfl⟩ := hstep
      exact h.collectStatement cfg hcall
  | collectStops =>
      obtain rfl := Option.some.inj hstep
      exact h.withCollect (fun call hcall => nomatch hcall)

theorem hotInv_run {cfg : LifecycleConfig} {clock seed : Nat} {inherited : ForkCopy T seed}
    {evs : List (TxLogEvent T X)} (hrun : Runs.run (txLogStep cfg) (seeded clock seed inherited) evs = some s) :
    s.HotInv :=
  Runs.invariant_of_step (G := fun _ _ => True) (fun _ _ _ h _ hstep => h.step hstep)
    (hotInv_seeded clock seed inherited) (Runs.meets_of_forall (fun _ _ => trivial) _ _) hrun

/-! ## Nothing is stranded -/

/-- No log row is gone. -/
structure Keeps (s s' : TxLogStore T X) : Prop where
  commitTxLog : s.commitTxLog ⊆ s'.commitTxLog
  abortTxLog : s.abortTxLog ⊆ s'.abortTxLog
  beginTxLog : s.beginTxLog ⊆ s'.beginTxLog
  txTableLog : s.txTableLog ⊆ s'.txTableLog

omit [DecidableEq T] [DecidableEq X] in
/-- The same logs. -/
theorem keeps_of_eq {s' : TxLogStore T X} (hcommit : s'.commitTxLog = s.commitTxLog)
    (habort : s'.abortTxLog = s.abortTxLog) (hbegin : s'.beginTxLog = s.beginTxLog)
    (htable : s'.txTableLog = s.txTableLog) : s.Keeps s' :=
  ⟨fun _ hc => hcommit ▸ hc, fun _ ha => habort ▸ ha, fun _ hb => hbegin ▸ hb, fun _ hw => htable ▸ hw⟩

theorem keeps_insertHotRows (tx : X) (rows : List (T × LogKind)) : s.Keeps (s.insertHotRows tx rows) :=
  ⟨fun _ hc => hc, fun _ ha => ha, fun _ hb => hb, fun _ hw => Keyed.mem_insertAllNew_of_mem hw⟩

/-- **Inversion.** Only the last statement of `PurgeTxLog` deletes log rows. -/
theorem keeps_or_collects {cfg : LifecycleConfig} {ev : TxLogEvent T X} {s' : TxLogStore T X}
    (hstep : txLogStep cfg s ev = some s') :
    s.Keeps s' ∨ ∃ startedAt cutoffs, s.collect = some (.clamped startedAt cutoffs) ∧
      s' = { s.deleteTxs (s.eligible cutoffs startedAt cfg.expiredBeginGraceMicros) with collect := none } := by
  cases ev with
  | tick now =>
      simp only [txLogStep, Option.ite_none_right_eq_some, Option.some.injEq] at hstep
      obtain ⟨-, rfl⟩ := hstep
      exact .inl (keeps_of_eq rfl rfl rfl rfl)
  | beginTx tx timeoutMicros comment author =>
      simp only [txLogStep, Option.ite_none_right_eq_some, Option.some.injEq] at hstep
      obtain ⟨-, rfl⟩ := hstep
      exact .inl ⟨fun _ hc => hc, fun _ ha => ha, List.subset_append_left _ _, fun _ hw => hw⟩
  | writeData tx table log =>
      simp only [txLogStep, Option.ite_none_right_eq_some, Option.some.injEq] at hstep
      obtain ⟨-, rfl⟩ := hstep
      exact .inl (keeps_insertHotRows tx _)
  | commitTx tx =>
      simp only [txLogStep, Option.map_eq_some_iff] at hstep
      obtain ⟨b, -, rfl⟩ := hstep
      split
      · exact .inl (keeps_of_eq rfl rfl rfl rfl)
      · exact .inl ⟨List.subset_append_left _ _, fun _ ha => ha, fun _ hb => hb, fun _ hw => hw⟩
  | abortTx tx =>
      simp only [txLogStep, Option.ite_none_right_eq_some, Option.some.injEq] at hstep
      obtain ⟨-, rfl⟩ := hstep
      exact .inl ⟨fun _ hc => hc, List.subset_append_left _ _, fun _ hb => hb, fun _ hw => hw⟩
  | autoCommit tx rows comment author =>
      simp only [txLogStep, Option.ite_none_right_eq_some, Option.some.injEq] at hstep
      obtain ⟨-, rfl⟩ := hstep
      split
      · exact .inl (keeps_of_eq rfl rfl rfl rfl)
      · exact .inl ⟨List.subset_append_left _ _, fun _ ha => ha, fun _ hb => hb,
          (keeps_insertHotRows tx rows).txTableLog⟩
  | snapshot table commitSeqNum =>
      simp only [txLogStep, Option.ite_none_right_eq_some, Option.some.injEq] at hstep
      obtain ⟨-, rfl⟩ := hstep
      exact .inl (keeps_of_eq rfl rfl rfl rfl)
  | purge table =>
      obtain rfl := Option.some.inj hstep
      unfold purge
      dsimp only
      split
      · exact .inl (keeps_of_eq rfl rfl rfl rfl)
      · exact .inl (keeps_of_eq rfl rfl rfl rfl)
  | persistTxLog caller target =>
      simp only [txLogStep, Option.ite_none_right_eq_some] at hstep
      obtain ⟨-, hstep⟩ := hstep
      split at hstep
      · obtain rfl := Option.some.inj hstep
        exact .inl (keeps_of_eq rfl rfl rfl rfl)
      · obtain rfl := Option.some.inj hstep
        exact .inl (keeps_of_eq rfl rfl rfl rfl)
  | lockTxLog caller target =>
      simp only [txLogStep, Option.ite_none_right_eq_some, Option.some.injEq] at hstep
      obtain ⟨-, rfl⟩ := hstep
      exact .inl (keeps_of_eq rfl rfl rfl rfl)
  | flushStatement outcome =>
      simp only [txLogStep, Option.map_eq_some_iff] at hstep
      obtain ⟨f, -, rfl⟩ := hstep
      have hmove := s.flushMove_flushStatement f outcome
      generalize s.flushStatement f outcome = s' at hmove ⊢
      cases hmove with
      | goesOn segments files phase => exact .inl (keeps_of_eq rfl rfl rfl rfl)
      | fails segments => exact .inl (keeps_of_eq rfl rfl rfl rfl)
      | returns segments => exact .inl (keeps_of_eq rfl rfl rfl rfl)
  | flushStops =>
      obtain rfl := Option.some.inj hstep
      exact .inl (keeps_of_eq rfl rfl rfl rfl)
  | purgeTxLog =>
      simp only [txLogStep, Option.ite_none_right_eq_some, Option.some.injEq] at hstep
      obtain ⟨-, rfl⟩ := hstep
      exact .inl (keeps_of_eq rfl rfl rfl rfl)
  | collectStatement =>
      simp only [txLogStep, Option.map_eq_some_iff] at hstep
      obtain ⟨call, hcall, rfl⟩ := hstep
      cases call with
      | started startedAt => exact .inl (keeps_of_eq rfl rfl rfl rfl)
      | watermarked startedAt cutoffs => exact .inl (keeps_of_eq rfl rfl rfl rfl)
      | clamped startedAt cutoffs => exact .inr ⟨startedAt, cutoffs, hcall, rfl⟩
  | collectStops =>
      obtain rfl := Option.some.inj hstep
      exact .inl (keeps_of_eq rfl rfl rfl rfl)

/-- A step that deletes log rows strands nothing: a transaction that loses its commit row or its abort row has no
    row in a hot log of any table, and one that is open and not expired loses no row at all. -/
structure StrandsNothing (s s' : TxLogStore T X) : Prop where
  commits : ∀ c ∈ s.commitTxLog, c ∉ s'.commitTxLog → ∀ r ∈ s.hotRows, r.txUuid ≠ c.txUuid
  aborts : ∀ a ∈ s.abortTxLog, a ∉ s'.abortTxLog → ∀ r ∈ s.hotRows, r.txUuid ≠ a.txUuid
  opens : ∀ b ∈ s.beginTxLog, (∀ c ∈ s.commitTxLog, c.txUuid ≠ b.txUuid) →
    (∀ a ∈ s.abortTxLog, a.txUuid ≠ b.txUuid) → s.clock ≤ b.expiresAtMicros →
      b ∈ s'.beginTxLog ∧ ∀ table, (b.txUuid, table) ∈ s.txTableLog → (b.txUuid, table) ∈ s'.txTableLog

omit [DecidableEq T] [DecidableEq X] in
theorem Keeps.strandsNothing {s' : TxLogStore T X} (h : s.Keeps s') : s.StrandsNothing s' where
  commits _ hc hgone := absurd (h.commitTxLog hc) hgone
  aborts _ ha hgone := absurd (h.abortTxLog ha) hgone
  opens _ hb _ _ _ := ⟨h.beginTxLog hb, fun _ hw => h.txTableLog hw⟩

omit [DecidableEq T] in
theorem HotInv.strandsNothing_deleteTxs (h : s.HotInv) {txs : List X} (htxs : ∀ tx ∈ txs, s.Collectable tx) :
    s.StrandsNothing (s.deleteTxs txs) := by
  obtain ⟨hcommits, haborts, hbegins, htables⟩ := s.mem_deleteTxs txs
  constructor
  case commits =>
    intro c hc hgone
    have hdoomed : c.txUuid ∈ txs := by
      by_contra hnot
      exact hgone ((hcommits c).mpr ⟨hc, hnot⟩)
    cases htxs _ hdoomed with
    | committed _ _ _ hclear => exact hclear
    | aborted _ _ _ hclear => exact hclear
    | expired _ _ _ _ hcommit _ => exact absurd rfl (hcommit c hc)
  case aborts =>
    intro a ha hgone
    have hdoomed : a.txUuid ∈ txs := by
      by_contra hnot
      exact hgone ((haborts a).mpr ⟨ha, hnot⟩)
    cases htxs _ hdoomed with
    | committed _ _ _ hclear => exact hclear
    | aborted _ _ _ hclear => exact hclear
    | expired _ _ _ _ _ habort => exact absurd rfl (habort a ha)
  case opens =>
    intro b hb hcommit habort hexpires
    have hkept : b.txUuid ∉ txs := by
      intro hdoomed
      cases htxs _ hdoomed with
      | committed c hc htx _ => exact hcommit c hc htx
      | aborted a ha htx _ => exact habort a ha htx
      | expired b' hb' htx hlate _ _ =>
          obtain rfl := h.begins b' hb' b hb htx
          omega
    exact ⟨(hbegins b).mpr ⟨hb, hkept⟩, fun table hw => (htables _).mpr ⟨hw, hkept⟩⟩

/-- **`PurgeTxLog` never strands hot data.** In every run of transactions, Purges, `persist_tx_log` and the
    statements of `PurgeTxLog`, in any order and on any number of tables, no step deletes the commit row or the
    abort row of a transaction that has a row left in a hot log, or a row of an open, unexpired transaction. -/
theorem strandsNothing_run {cfg : LifecycleConfig} {clock seed : Nat} {inherited : ForkCopy T seed}
    {evs : List (TxLogEvent T X)} (hrun : Runs.run (txLogStep cfg) (seeded clock seed inherited) evs = some s)
    {ev : TxLogEvent T X} {s' : TxLogStore T X} (hstep : txLogStep cfg s ev = some s') : s.StrandsNothing s' := by
  have hinv := hotInv_run hrun
  rcases keeps_or_collects hstep with hkeeps | ⟨startedAt, cutoffs, hcall, rfl⟩
  · exact hkeeps.strandsNothing
  · obtain ⟨hstart, hclear⟩ := hinv.collecting _ hcall
    have hdeletes := hinv.strandsNothing_deleteTxs (fun tx htx =>
      hinv.collectable hstart hclear (expiredBeginGraceMicros_nonneg cfg) htx)
    exact ⟨hdeletes.commits, hdeletes.aborts, hdeletes.opens⟩

/-- A transaction commits rows of two tables, one that wrote to the second aborts and a third stays open. Both
    tables are persisted, snapshotted and purged, and `PurgeTxLog` runs up to its deletes; a commit falls between
    its first two statements. -/
def collectRun : List (TxLogEvent Nat Nat) :=
  [.beginTx 1 100 "load" "ann", .writeData 1 0 .upsertLog, .writeData 1 1 .deleteLog, .commitTx 1,
    .beginTx 2 100 "draft" "bob", .writeData 2 1 .upsertLog, .abortTx 2,
    .beginTx 3 100 "late" "ann", .writeData 3 0 .upsertLog, .tick 11,
    .lockTxLog (some 0) 0, .flushStatement .done, .flushStatement .done, .flushStatement .done,
    .flushStatement .done, .flushStatement .done, .flushStatement .done, .persistTxLog (some 1) 0,
    .snapshot 0 0, .snapshot 1 0, .purge 0, .purge 1, .tick 12, .purgeTxLog, .collectStatement,
    .autoCommit 4 [(1, .upsertLog)] "load" "ann", .collectStatement]

/-- The deletes take the commit row of 1 and the abort row of 2, whose hot rows are gone; the open transaction 3
    and the new commit 4 keep theirs. -/
theorem strandsNothing_collectRun : ∃ s s' : TxLogStore Nat Nat,
    Runs.run (txLogStep ⟨5, 5, 0⟩) (seeded 10 0 (.empty 0)) collectRun = some s ∧
      txLogStep ⟨5, 5, 0⟩ s .collectStatement = some s' ∧
      (s.commitTxLog.map CommitTxRow.txUuid = [1, 4] ∧ s'.commitTxLog.map CommitTxRow.txUuid = [4] ∧
        s.abortTxLog.map AbortTxRow.txUuid = [2] ∧ s'.abortTxLog = [] ∧
          s'.beginTxLog.map BeginTxRow.txUuid = [3]) ∧ s.StrandsNothing s' := by
  have hend : ((Runs.run (txLogStep ⟨5, 5, 0⟩) (seeded 10 0 (.empty 0)) collectRun).bind (fun s =>
      (txLogStep ⟨5, 5, 0⟩ s .collectStatement).map (fun s' => decide
        (s.commitTxLog.map CommitTxRow.txUuid = [1, 4] ∧ s'.commitTxLog.map CommitTxRow.txUuid = [4] ∧
          s.abortTxLog.map AbortTxRow.txUuid = [2] ∧ s'.abortTxLog = [] ∧
            s'.beginTxLog.map BeginTxRow.txUuid = [3])))) = some true := by
    decide +kernel
  obtain ⟨s, hrun, hs⟩ := Option.bind_eq_some_iff.mp hend
  obtain ⟨s', hstep, hs'⟩ := Option.map_eq_some_iff.mp hs
  exact ⟨s, s', hrun, hstep, of_decide_eq_true hs', strandsNothing_run hrun hstep⟩

end Events

end TxLogStore

end Penca
