import Mathlib.Data.List.Pairwise
import Mathlib.Data.Prod.Lex
import Penca.Lib.Newest

/-!
# `Log.Entry` — log entries, transactions and the commit history of one table

A committed change of a row is one entry of the table's `upsert_log` or `delete_log`, joined with its
transaction's `commit_tx_log` row. Every reader orders entries by `(commit_seq_num, write_seq_num)`, an
upsert winning an exact tie with a delete.

`History` is the abstract layer: the transactions committed so far, as a value that carries what the commit
path guarantees (`commit_seq_num` counts up from 0, `commit_micros` strictly increases with it: the commit
row is inserted under the counter lock, and the unique index on `(branch_uuid, commit_micros)` refuses a
second commit at one timestamp). What a read must return is the replay of the visible part of a history.
-/

namespace Penca

open Newest

/-! ## 64-bit bounds -/

/-- `i64::MAX`. -/
def i64Max : Int := 9223372036854775807

/-- `i64::MIN`. -/
def i64Min : Int := -9223372036854775808

/-- `i64::saturating_add(1)`. -/
def satSucc (x : Int) : Int := min (x + 1) i64Max

/-- `i64::saturating_sub(1)`. -/
def satPred (x : Int) : Int := max (x - 1) i64Min

/-- Below `i64::MAX`, the exclusive bound `saturating_add(1)` is the inclusive bound. -/
theorem lt_satSucc_iff {x y : Int} (hx : x < i64Max) : x < satSucc y ↔ x ≤ y := by
  unfold satSucc i64Max at *
  omega

/-! ## Entries -/

/-- The two change logs of a table (`LogKind`). -/
inductive LogKind where
  | upsertLog
  | deleteLog
  deriving DecidableEq, Repr

/-- What an entry does to its row: an upsert carries the user columns. -/
inductive Change (V : Type) where
  | upsert (value : V)
  | delete
  deriving DecidableEq, Repr

variable {R V : Type}

/-- The log that stores the change. -/
def Change.kind : Change V → LogKind
  | .upsert _ => .upsertLog
  | .delete   => .deleteLog

/-- The state of the row after the change. -/
def Change.effect : Change V → Option V
  | .upsert v => some v
  | .delete   => none

/-- A committed entry of the upsert or delete log, joined with its transaction's commit row. -/
structure LogEntry (R V : Type) where
  rowUuid : R
  change : Change V
  commitSeqNum : Int
  writeSeqNum : Int
  commitMicros : Int
  deriving DecidableEq, Repr

namespace LogEntry

/-- The log the entry is stored in. -/
def kind (e : LogEntry R V) : LogKind := e.change.kind

/-- The state the entry leaves its row in. -/
def effect (e : LogEntry R V) : Option V := e.change.effect

/-- The version order of the readers: `(commit_seq_num, write_seq_num)`, then upsert over delete. -/
def version (e : LogEntry R V) : Int ×ₗ Int ×ₗ Bool :=
  toLex (e.commitSeqNum, toLex (e.writeSeqNum, decide (e.kind = .upsertLog)))

/-- The commit sequence number decides the version order of entries of different transactions. -/
theorem version_lt_of_commitSeqNum_lt {e e' : LogEntry R V} (h : e.commitSeqNum < e'.commitSeqNum) :
    e.version < e'.version :=
  Prod.Lex.toLex_lt_toLex.mpr (Or.inl h)

theorem kind_eq_of_version_eq {e e' : LogEntry R V} (h : e.version = e'.version) : e.kind = e'.kind := by
  have hup : decide (e.kind = .upsertLog) = decide (e'.kind = .upsertLog) :=
    congrArg (fun v => (ofLex (ofLex v).2).2) h
  cases hk : e.kind <;> cases hk' : e'.kind <;> simp [hk, hk'] at hup ⊢

end LogEntry

/-- The rows a replay of the entries leaves, as a partial map from row to user columns. -/
def replayLog [DecidableEq R] (es : List (LogEntry R V)) : R → Option V :=
  replay LogEntry.version LogEntry.rowUuid LogEntry.effect es

/-- What the newest of the entries says about row `r`. -/
def newestEffect [DecidableEq R] (es : List (LogEntry R V)) (r : R) : Option V :=
  outcome LogEntry.version LogEntry.rowUuid LogEntry.effect es r

/-! ## Transactions -/

/-- One row of a transaction in the upsert or delete log, before the commit stamps it. -/
structure RowWrite (R V : Type) where
  rowUuid : R
  change : Change V
  writeSeqNum : Int
  deriving DecidableEq, Repr

/-- The rows a transaction leaves in the two logs of the table. The primary key `version_uuid` is derived
    from `(row_uuid, tx_uuid)`, so each log holds at most one row per row and transaction. -/
structure TxWrites (R V : Type) where
  writes : List (RowWrite R V)
  oncePerLog : (writes.map (fun w => (w.rowUuid, w.change.kind))).Nodup

/-- A transaction with one write. -/
def TxWrites.single (rowUuid : R) (change : Change V) (writeSeqNum : Int) : TxWrites R V :=
  ⟨[⟨rowUuid, change, writeSeqNum⟩], by simp⟩

/-- A committed transaction: its `commit_tx_log` row and its rows in the table's logs. -/
structure CommittedTx (R V : Type) where
  commitSeqNum : Int
  commitMicros : Int
  rows : TxWrites R V

namespace CommittedTx

/-- `t` committed before `t'`, on the sequence axis and on the clock. -/
def Before (t t' : CommittedTx R V) : Prop :=
  t.commitSeqNum < t'.commitSeqNum ∧ t.commitMicros < t'.commitMicros

/-- A log row joined with the commit row of its transaction. -/
def stamp (t : CommittedTx R V) (w : RowWrite R V) : LogEntry R V where
  rowUuid := w.rowUuid
  change := w.change
  commitSeqNum := t.commitSeqNum
  writeSeqNum := w.writeSeqNum
  commitMicros := t.commitMicros

/-- The transaction's entries. -/
def entries (t : CommittedTx R V) : List (LogEntry R V) := t.rows.writes.map t.stamp

theorem mem_entries {t : CommittedTx R V} {e : LogEntry R V} :
    e ∈ t.entries ↔ ∃ w ∈ t.rows.writes, t.stamp w = e := List.mem_map

theorem commitSeqNum_of_mem {t : CommittedTx R V} {e : LogEntry R V} (h : e ∈ t.entries) :
    e.commitSeqNum = t.commitSeqNum := by
  obtain ⟨w, -, rfl⟩ := mem_entries.mp h
  rfl

theorem commitMicros_of_mem {t : CommittedTx R V} {e : LogEntry R V} (h : e ∈ t.entries) :
    e.commitMicros = t.commitMicros := by
  obtain ⟨w, -, rfl⟩ := mem_entries.mp h
  rfl

/-- Inside one transaction, row and log determine the entry. -/
theorem eq_of_rowUuid_of_kind {t : CommittedTx R V} {e e' : LogEntry R V} (he : e ∈ t.entries)
    (he' : e' ∈ t.entries) (hrow : e.rowUuid = e'.rowUuid) (hkind : e.kind = e'.kind) : e = e' := by
  obtain ⟨w, hw, rfl⟩ := mem_entries.mp he
  obtain ⟨w', hw', rfl⟩ := mem_entries.mp he'
  have hpair : (w.rowUuid, w.change.kind) = (w'.rowUuid, w'.change.kind) := Prod.ext hrow hkind
  rw [List.inj_on_of_nodup_map t.rows.oncePerLog hw hw' hpair]

/-- The primary key of each log: a transaction has no entry twice. -/
theorem nodup_entries (t : CommittedTx R V) : t.entries.Nodup := by
  have hkeys : t.entries.map (fun e => (e.rowUuid, e.kind)) =
      t.rows.writes.map (fun w => (w.rowUuid, w.change.kind)) := by
    rw [entries, List.map_map]
    rfl
  exact List.Nodup.of_map _ (hkeys ▸ t.rows.oncePerLog)

end CommittedTx

/-! ## Histories -/

/-- The transactions committed on the branch, oldest first. -/
structure History (R V : Type) where
  txs : List (CommittedTx R V)
  ordered : txs.Pairwise CommittedTx.Before
  /-- The counter hands out 0, 1, 2, …. -/
  numbered : ∀ t ∈ txs, 0 ≤ t.commitSeqNum ∧ t.commitSeqNum < txs.length
  /-- Clock readings are positive and below `i64::MAX`. -/
  inRange : ∀ t ∈ txs, 0 < t.commitMicros ∧ t.commitMicros < i64Max

namespace History

/-- No transaction yet. -/
def empty : History R V where
  txs := []
  ordered := List.Pairwise.nil
  numbered := by simp
  inRange := by simp

/-- Every entry of the table's logs ever committed. -/
def entries (H : History R V) : List (LogEntry R V) := H.txs.flatMap CommittedTx.entries

/-- The commit at clock reading `micros` is later than every commit so far. -/
def Accepts (H : History R V) (micros : Int) : Prop :=
  (0 < micros ∧ micros < i64Max) ∧ ∀ t ∈ H.txs, t.commitMicros < micros

instance (H : History R V) (micros : Int) : Decidable (H.Accepts micros) :=
  inferInstanceAs (Decidable (_ ∧ _))

/-- The transaction that commits next at clock reading `micros`. -/
def nextTx (H : History R V) (micros : Int) (rows : TxWrites R V) : CommittedTx R V :=
  { commitSeqNum := H.txs.length, commitMicros := micros, rows := rows }

/-- Append the next transaction at an accepted clock reading. -/
def append (H : History R V) (micros : Int) (rows : TxWrites R V) (h : H.Accepts micros) :
    History R V where
  txs := H.txs ++ [H.nextTx micros rows]
  ordered := by
    refine List.pairwise_append.mpr ⟨H.ordered, List.pairwise_singleton _ _, ?_⟩
    intro t ht t' ht'
    rw [List.mem_singleton.mp ht']
    exact ⟨(H.numbered t ht).2, h.2 t ht⟩
  numbered := by
    intro t ht
    rw [List.length_append, List.length_singleton]
    rcases List.mem_append.mp ht with ht | ht
    · have := H.numbered t ht
      omega
    · rw [List.mem_singleton.mp ht]
      simp only [nextTx]
      omega
  inRange := by
    intro t ht
    rcases List.mem_append.mp ht with ht | ht
    · exact H.inRange t ht
    · rw [List.mem_singleton.mp ht]
      exact h.1

/-- Commit a transaction. A second commit at one timestamp violates the unique index and rolls back. -/
def commit (H : History R V) (micros : Int) (rows : TxWrites R V) : History R V :=
  if h : H.Accepts micros then H.append micros rows h else H

@[simp] theorem entries_empty : (empty : History R V).entries = [] := rfl

theorem mem_entries {H : History R V} {e : LogEntry R V} :
    e ∈ H.entries ↔ ∃ t ∈ H.txs, e ∈ t.entries := List.mem_flatMap

theorem entries_append {H : History R V} {micros : Int} {rows : TxWrites R V}
    (h : H.Accepts micros) :
    (H.append micros rows h).entries = H.entries ++ (H.nextTx micros rows).entries := by
  simp [entries, append, List.flatMap_append]

/-- Any two transactions of a history are one, or one committed before the other. -/
theorem before_trichotomy {H : History R V} {t t' : CommittedTx R V} (ht : t ∈ H.txs)
    (ht' : t' ∈ H.txs) : t = t' ∨ t.Before t' ∨ t'.Before t := by
  have : Std.Symm (fun t t' : CommittedTx R V => t.Before t' ∨ t'.Before t) :=
    ⟨fun _ _ => Or.symm⟩
  have hsym : H.txs.Pairwise (fun t t' => t.Before t' ∨ t'.Before t) := H.ordered.imp Or.inl
  exact or_iff_not_imp_left.mpr (hsym.forall ht ht')

/-- **One order on two axes**: `commit_seq_num` and `commit_micros` order the entries alike. -/
theorem commitSeqNum_le_iff {H : History R V} {e e' : LogEntry R V} (he : e ∈ H.entries)
    (he' : e' ∈ H.entries) : e.commitSeqNum ≤ e'.commitSeqNum ↔ e.commitMicros ≤ e'.commitMicros := by
  obtain ⟨t, ht, het⟩ := mem_entries.mp he
  obtain ⟨t', ht', het'⟩ := mem_entries.mp he'
  rw [CommittedTx.commitSeqNum_of_mem het, CommittedTx.commitSeqNum_of_mem het',
    CommittedTx.commitMicros_of_mem het, CommittedTx.commitMicros_of_mem het']
  rcases before_trichotomy ht ht' with rfl | ⟨hs, hm⟩ | ⟨hs, hm⟩
  · simp
  · omega
  · omega

/-- The earlier of two entries on the clock has the smaller version. -/
theorem version_lt_of_commitMicros_lt {H : History R V} {e e' : LogEntry R V} (he : e ∈ H.entries)
    (he' : e' ∈ H.entries) (h : e.commitMicros < e'.commitMicros) : e.version < e'.version := by
  apply LogEntry.version_lt_of_commitSeqNum_lt
  by_contra hseq
  have hle := (commitSeqNum_le_iff he' he).mp (by omega)
  omega

theorem commitMicros_inRange {H : History R V} {e : LogEntry R V} (he : e ∈ H.entries) :
    0 < e.commitMicros ∧ e.commitMicros < i64Max := by
  obtain ⟨t, ht, het⟩ := mem_entries.mp he
  rw [CommittedTx.commitMicros_of_mem het]
  exact H.inRange t ht

theorem commitSeqNum_nonneg {H : History R V} {e : LogEntry R V} (he : e ∈ H.entries) :
    0 ≤ e.commitSeqNum := by
  obtain ⟨t, ht, het⟩ := mem_entries.mp he
  rw [CommittedTx.commitSeqNum_of_mem het]
  exact (H.numbered t ht).1

theorem commitSeqNum_lt_length {H : History R V} {e : LogEntry R V} (he : e ∈ H.entries) :
    e.commitSeqNum < H.txs.length := by
  obtain ⟨t, ht, het⟩ := mem_entries.mp he
  rw [CommittedTx.commitSeqNum_of_mem het]
  exact (H.numbered t ht).2

/-- No entry is committed twice. -/
theorem nodup_entries (H : History R V) : H.entries.Nodup := by
  refine List.nodup_flatMap.mpr ⟨fun t _ => t.nodup_entries, H.ordered.imp ?_⟩
  intro t t' hbefore e he he'
  have hseq := CommittedTx.commitSeqNum_of_mem he
  rw [CommittedTx.commitSeqNum_of_mem he'] at hseq
  exact absurd hbefore.1 (by omega)

/-- A row has at most one entry of each version. -/
theorem separated (H : History R V) :
    Separated LogEntry.version LogEntry.rowUuid {e : LogEntry R V | e ∈ H.entries} := by
  intro e he e' he' hrow hver
  obtain ⟨t, ht, het⟩ := mem_entries.mp he
  obtain ⟨t', ht', het'⟩ := mem_entries.mp he'
  have hseq : e.commitSeqNum = e'.commitSeqNum := congrArg (fun v => (ofLex v).1) hver
  rw [CommittedTx.commitSeqNum_of_mem het, CommittedTx.commitSeqNum_of_mem het'] at hseq
  have htt : t = t' := by
    rcases before_trichotomy ht ht' with h | ⟨hs, -⟩ | ⟨hs, -⟩
    · exact h
    · omega
    · omega
  subst htt
  exact CommittedTx.eq_of_rowUuid_of_kind het het' hrow (LogEntry.kind_eq_of_version_eq hver)

end History

end Penca
