import Penca.Log.Entry

/-!
# `Log.Branch` — the log of a branch

A `History` numbers its transactions from 0. A forked branch goes on from the position it was forked at, so
what its reads are about is a list of entries that need not come from one counter. `BranchLog` is such a list
with what the proofs about reads and about the lifecycle use of it: a row has one entry per version, and the
sequence axis and the clock order the entries alike.

- **`History.log`**: the log of an unforked branch.
- **`cut`**: the log up to a position on the sequence axis, what a fork inherits.
- **`append`**: the log after one more transaction.
-/

namespace Penca

open Newest

variable {R V : Type}

/-- The entries committed on a branch. -/
structure BranchLog (R V : Type) where
  entries : List (LogEntry R V)
  nodup : entries.Nodup
  separated : Separated LogEntry.version LogEntry.rowUuid {e | e ∈ entries}
  /-- `commit_seq_num` and `commit_micros` order the entries alike. -/
  axes : ∀ e ∈ entries, ∀ e' ∈ entries,
    (e.commitSeqNum ≤ e'.commitSeqNum ↔ e.commitMicros ≤ e'.commitMicros)
  inRange : ∀ e ∈ entries, 0 < e.commitMicros ∧ e.commitMicros < i64Max
  nonneg : ∀ e ∈ entries, 0 ≤ e.commitSeqNum

/-- The log of an unforked branch. -/
def History.log (H : History R V) : BranchLog R V where
  entries := H.entries
  nodup := H.nodup_entries
  separated := H.separated
  axes := fun _ he _ he' => History.commitSeqNum_le_iff he he'
  inRange := fun _ he => History.commitMicros_inRange he
  nonneg := fun _ he => History.commitSeqNum_nonneg he

@[simp] theorem History.log_entries (H : History R V) : H.log.entries = H.entries := rfl

namespace BranchLog

variable {L : BranchLog R V} {e e' : LogEntry R V}

/-- The earlier of two entries on the clock has the smaller version. -/
theorem version_lt_of_commitMicros_lt (he : e ∈ L.entries) (he' : e' ∈ L.entries)
    (h : e.commitMicros < e'.commitMicros) : e.version < e'.version := by
  apply LogEntry.version_lt_of_commitSeqNum_lt
  by_contra hseq
  have hle := (L.axes e' he' e he).mp (by omega)
  omega

/-- Some of the entries, in their order. -/
def restrict (L : BranchLog R V) (p : LogEntry R V → Bool) : BranchLog R V where
  entries := L.entries.filter p
  nodup := L.nodup.filter p
  separated := L.separated.mono (fun _ he => List.mem_of_mem_filter he)
  axes := fun e he e' he' => L.axes e (List.mem_of_mem_filter he) e' (List.mem_of_mem_filter he')
  inRange := fun e he => L.inRange e (List.mem_of_mem_filter he)
  nonneg := fun e he => L.nonneg e (List.mem_of_mem_filter he)

/-- The log up to a position on the sequence axis. -/
def cut (L : BranchLog R V) (seq : Int) : BranchLog R V := L.restrict (fun e => decide (e.commitSeqNum ≤ seq))

theorem mem_cut {seq : Int} : e ∈ (L.cut seq).entries ↔ e ∈ L.entries ∧ e.commitSeqNum ≤ seq := by
  simp [cut, restrict]

/-- The entries at or below `t` on the clock. -/
def upTo (L : BranchLog R V) (t : Int) : List (LogEntry R V) :=
  L.entries.filter (fun e => decide (e.commitMicros ≤ t))

theorem mem_upTo {t : Int} : e ∈ L.upTo t ↔ e ∈ L.entries ∧ e.commitMicros ≤ t := by
  simp [upTo]

theorem separated_upTo (L : BranchLog R V) (t : Int) :
    Separated LogEntry.version LogEntry.rowUuid {e | e ∈ L.upTo t} :=
  L.separated.mono (fun _ he => (mem_upTo.mp he).1)

/-- A transaction that can follow: later than every entry on both axes. -/
structure Follows (L : BranchLog R V) (t : CommittedTx R V) : Prop where
  later : ∀ e ∈ L.entries, e.commitSeqNum < t.commitSeqNum ∧ e.commitMicros < t.commitMicros
  nonneg : 0 ≤ t.commitSeqNum
  inRange : 0 < t.commitMicros ∧ t.commitMicros < i64Max

theorem Follows.later_of_mem {t : CommittedTx R V} (h : L.Follows t) (he : e ∈ L.entries)
    (he' : e' ∈ t.entries) : e.commitSeqNum < e'.commitSeqNum ∧ e.commitMicros < e'.commitMicros := by
  rw [CommittedTx.commitSeqNum_of_mem he', CommittedTx.commitMicros_of_mem he']
  exact h.later e he

/-- Two entries of the log and of a transaction that follows: both old, both new, or old and new. -/
theorem Follows.axes {t : CommittedTx R V} (h : L.Follows t) (he : e ∈ L.entries ++ t.entries)
    (he' : e' ∈ L.entries ++ t.entries) :
    e.commitSeqNum ≤ e'.commitSeqNum ↔ e.commitMicros ≤ e'.commitMicros := by
  rcases List.mem_append.mp he with he | he <;> rcases List.mem_append.mp he' with he' | he'
  · exact L.axes e he e' he'
  · have := h.later_of_mem he he'
    omega
  · have := h.later_of_mem he' he
    omega
  · rw [CommittedTx.commitSeqNum_of_mem he, CommittedTx.commitSeqNum_of_mem he',
      CommittedTx.commitMicros_of_mem he, CommittedTx.commitMicros_of_mem he']
    simp

theorem Follows.separated {t : CommittedTx R V} (h : L.Follows t) :
    Separated LogEntry.version LogEntry.rowUuid {e | e ∈ L.entries ++ t.entries} := by
  intro e he e' he' hrow hver
  have hseq : e.commitSeqNum = e'.commitSeqNum := congrArg (fun v => (ofLex v).1) hver
  rcases List.mem_append.mp he with he | he <;> rcases List.mem_append.mp he' with he' | he'
  · exact L.separated e he e' he' hrow hver
  · have := h.later_of_mem he he'
    omega
  · have := h.later_of_mem he' he
    omega
  · exact CommittedTx.eq_of_rowUuid_of_kind he he' hrow (LogEntry.kind_eq_of_version_eq hver)

/-- The log after a transaction that follows. -/
def append (L : BranchLog R V) (t : CommittedTx R V) (h : L.Follows t) : BranchLog R V where
  entries := L.entries ++ t.entries
  nodup := by
    refine List.nodup_append.mpr ⟨L.nodup, t.nodup_entries, ?_⟩
    rintro e he e' he' rfl
    exact absurd (h.later_of_mem he he').1 (lt_irrefl _)
  separated := h.separated
  axes := fun _ he _ he' => h.axes he he'
  inRange := by
    intro e he
    rcases List.mem_append.mp he with he | he
    · exact L.inRange e he
    · rw [CommittedTx.commitMicros_of_mem he]
      exact h.inRange
  nonneg := by
    intro e he
    rcases List.mem_append.mp he with he | he
    · exact L.nonneg e he
    · rw [CommittedTx.commitSeqNum_of_mem he]
      exact h.nonneg

@[simp] theorem append_entries (L : BranchLog R V) (t : CommittedTx R V) (h : L.Follows t) :
    (L.append t h).entries = L.entries ++ t.entries := rfl

/-- A later transaction adds nothing at or below a time before it. -/
theorem upTo_append (L : BranchLog R V) {t : CommittedTx R V} (h : L.Follows t) {pos : Int}
    (hlt : pos < t.commitMicros) : (L.append t h).upTo pos = L.upTo pos := by
  have hnil : t.entries.filter (fun e => decide (e.commitMicros ≤ pos)) = [] := by
    rw [List.filter_eq_nil_iff]
    intro e he
    rw [CommittedTx.commitMicros_of_mem he]
    simpa using hlt
  rw [upTo, append_entries, List.filter_append, hnil, List.append_nil, upTo]

end BranchLog

end Penca
