import Penca.Lib.Versions

/-!
# `Ddl.Transactions` — transactions and read positions of a branch, as DDL calls use them

A DDL call either appends to an open transaction or commits a transaction of its own. `Ledger` holds the begun, committed
and aborted transactions of one branch; the position of a transaction in `commits` is its `commit_seq_num`.
`resolve_read_snapshot` fixes the position a call reads at: the branch's commit frontier, or the begin position of its
open transaction together with that transaction's own writes.
-/

namespace Penca.Ddl

/-- A transaction: the one an auto-commit call makes for itself, or one begun with `BeginTx`. -/
inductive TxId where
  | auto (call : Nat)
  | opened (x : Nat)
  deriving DecidableEq, Repr

/-- The transaction logs of the branch. -/
structure Ledger where
  /-- `begin_tx_log`: the transaction and its `began_at_seq_num`. -/
  begun : List (Nat × Nat)
  /-- `commit_tx_log`, in `commit_seq_num` order. -/
  commits : List TxId
  /-- `abort_tx_log`. -/
  aborted : List Nat
  deriving DecidableEq, Repr

/-- What a call reads: the first `below` commits, and the writes of its own transaction over them. -/
structure Snapshot where
  below : Nat
  own : Option TxId
  deriving DecidableEq, Repr

namespace Ledger

def init : Ledger := ⟨[], [], []⟩

/-- `TxStatus::Open`. -/
def isOpen (l : Ledger) (x : Nat) : Bool :=
  l.begun.any (fun b => b.1 = x) && !l.commits.contains (.opened x) && !l.aborted.contains x

/-- `BeginTx`, under a new uuid. -/
def begin (l : Ledger) (x : Nat) : Option Ledger :=
  if l.begun.any (fun b => b.1 = x) then none else some { l with begun := l.begun ++ [(x, l.commits.length)] }

/-- `CommitTx`. -/
def commit (l : Ledger) (x : Nat) : Option Ledger :=
  if l.isOpen x then some { l with commits := l.commits ++ [.opened x] } else none

/-- `AbortTx`. -/
def abort (l : Ledger) (x : Nat) : Option Ledger :=
  if l.isOpen x then some { l with aborted := l.aborted ++ [x] } else none

/-- `resolve_tx`: the begin position of an open transaction. -/
def resolveTx (l : Ledger) (x : Nat) : Option Nat :=
  if l.isOpen x then (l.begun.find? (fun b => b.1 = x)).map Prod.snd else none

/-- `resolve_read_snapshot` without an explicit position. -/
def resolveReadSnapshot (l : Ledger) : Option Nat → Option Snapshot
  | none   => some ⟨l.commits.length, none⟩
  | some x => (l.resolveTx x).map (fun below => ⟨below, some (.opened x)⟩)

/-- The version of a row a snapshot sees: its own transaction's, else the newest committed below its position. -/
def version {α : Type} (l : Ledger) (row : TxId → Option α) (snap : Snapshot) : Option α :=
  (snap.own.bind row).or (Versions.newestBelow l.commits row snap.below)

/-- The version a `LatestSeq` read at the frontier sees. -/
def latest {α : Type} (l : Ledger) (row : TxId → Option α) : Option α := Versions.latest l.commits row

/-- No begin position is ahead of the frontier. -/
def BegunBelow (l : Ledger) : Prop := ∀ b ∈ l.begun, b.2 ≤ l.commits.length

section Steps

variable {l l' : Ledger} {x : Nat}

theorem begin_eq_some (h : l.begin x = some l') : l' = { l with begun := l.begun ++ [(x, l.commits.length)] } := by
  unfold begin at h
  split at h
  · cases h
  · exact (Option.some.inj h).symm

theorem commit_eq_some (h : l.commit x = some l') :
    l.isOpen x = true ∧ l' = { l with commits := l.commits ++ [.opened x] } := by
  unfold commit at h
  split at h
  · rename_i hopen
    exact ⟨hopen, (Option.some.inj h).symm⟩
  · cases h

theorem abort_eq_some (h : l.abort x = some l') : l' = { l with aborted := l.aborted ++ [x] } := by
  unfold abort at h
  split at h
  · exact (Option.some.inj h).symm
  · cases h

/-- A snapshot is at or below the frontier it was resolved at. -/
theorem BegunBelow.resolve (hb : l.BegunBelow) {tx : Option Nat} {snap : Snapshot}
    (h : l.resolveReadSnapshot tx = some snap) : snap.below ≤ l.commits.length := by
  cases tx with
  | none =>
      obtain rfl := Option.some.inj h
      exact Nat.le_refl _
  | some x =>
      obtain ⟨below, hbelow, rfl⟩ := Option.map_eq_some_iff.mp h
      simp only [resolveTx] at hbelow
      split at hbelow
      · obtain ⟨b, hfind, rfl⟩ := Option.map_eq_some_iff.mp hbelow
        exact hb b (List.mem_of_find?_eq_some hfind)
      · cases hbelow

/-- The transaction whose own writes a snapshot shows is the one it was resolved for. -/
theorem own_of_resolve {tx : Option Nat} {snap : Snapshot} (h : l.resolveReadSnapshot tx = some snap) :
    snap.own = tx.map TxId.opened := by
  cases tx with
  | none =>
      obtain rfl := Option.some.inj h
      rfl
  | some x =>
      obtain ⟨below, -, rfl⟩ := Option.map_eq_some_iff.mp h
      rfl

end Steps

end Ledger

end Penca.Ddl
