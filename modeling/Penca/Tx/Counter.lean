import Penca.Lib.InFlight
import Penca.Lifecycle.Ops

/-!
# `Tx.Counter` — the commit counter of a branch

`commit_tx_log_insert_sql` is one statement: its `UPDATE` waits for the branch's counter row, increments it
and keeps the row locked to the end of the Postgres transaction; its `INSERT` then reads the clock. The
counter value and the commit row become visible together when the transaction commits, and neither does when
it rolls back. `begin_tx` reads the visible counter in the statement that inserts the begin row.

The commits in flight are interleaved at every point between these steps. What is proved is the shape of the
visible `commit_tx_log` in every reachable state (`commitOrder_run`), and that the interleaved system
refines the atomic `Store.commitTx` of the lifecycle model (`commitSystem_refines_commitTx`).
-/

namespace Penca

/-! ## The state -/

/-- Where the Postgres transaction of `auto_commit_tx` or `CommitTx` is. -/
inductive CommitPhase where
  /-- The commit statement runs and waits for the counter row. -/
  | allocating
  /-- The counter row is incremented and locked; the value before is the number of this commit. -/
  | allocated (commitSeqNum : Int)
  /-- The commit row is inserted and not yet visible. -/
  | inserted (row : CommitRow)
  deriving DecidableEq, Repr

/-- The transaction holds the lock on the counter row. -/
def CommitPhase.holdsLock : CommitPhase → Bool
  | .allocating  => false
  | .allocated _ => true
  | .inserted _  => true

/-- A begin row. `saw` is not a column: it records the commit rows visible to the statement that inserted
    the row. -/
structure BeginRow where
  beganAtSeqNum : Int
  saw : List CommitRow
  deriving DecidableEq, Repr

/-- The counter row and the commit log of one branch, as other transactions see them, and the Postgres
    transactions in flight. -/
structure CommitSystem where
  clock : Int
  /-- `seq_num` of the counter row. -/
  counter : Int
  commitTxLog : List CommitRow
  beginTxLog : List BeginRow
  commits : List (Nat × CommitPhase)
  begins : List (Nat × BeginRow)
  deriving DecidableEq, Repr

namespace CommitSystem

/-- A branch whose counter row was seeded with `seed`: 0 on a fresh branch, one past the fork position on a
    child. -/
def seeded (clock seed : Int) : CommitSystem := ⟨clock, seed, [], [], [], []⟩

/-- The counter row is locked. -/
def locked (s : CommitSystem) : Bool := s.commits.any (fun p => p.2.holdsLock)

/-- Move a committing transaction on. -/
def setCommit (s : CommitSystem) (id : Nat) (phase : CommitPhase) : CommitSystem :=
  { s with commits := InFlight.set s.commits id phase }

/-- A committing transaction rolls back; with it goes its increment of the counter. -/
def rollback (s : CommitSystem) (id : Nat) : CommitSystem :=
  { s with commits := InFlight.remove s.commits id }

/-- The `INSERT` reads the clock. The unique index on `(branch_uuid, commit_micros)` refuses a timestamp that
    is taken: the transaction rolls back. -/
def insertCommit (s : CommitSystem) (id : Nat) (commitSeqNum now : Int) : CommitSystem :=
  if s.commitTxLog.any (fun c => c.commitMicros = now) then { s.rollback id with clock := now }
  else { s.setCommit id (.inserted ⟨commitSeqNum, now⟩) with clock := now }

/-- The transaction commits: its counter value and its commit row become visible. -/
def publishCommit (s : CommitSystem) (id : Nat) (row : CommitRow) : CommitSystem :=
  { s.rollback id with counter := row.commitSeqNum + 1, commitTxLog := s.commitTxLog ++ [row] }

/-- `begin_tx`: the begin row holds the visible counter. -/
def insertBegin (s : CommitSystem) (id : Nat) : CommitSystem :=
  { s with begins := InFlight.set s.begins id ⟨s.counter, s.commitTxLog⟩ }

/-- The transaction of `begin_tx` ends; its row becomes visible if it commits. -/
def finishBegin (s : CommitSystem) (id : Nat) (row : BeginRow) (commits : Bool) : CommitSystem :=
  { s with
    begins := InFlight.remove s.begins id
    beginTxLog := if commits then s.beginTxLog ++ [row] else s.beginTxLog }

end CommitSystem

/-! ## Events -/

inductive CommitEvent where
  /-- A commit statement starts. -/
  | start (id : Nat)
  /-- Its `UPDATE` gets the counter row. -/
  | allocate (id : Nat)
  /-- Its `INSERT` runs at this clock reading. -/
  | insert (id : Nat) (now : Int)
  /-- The transaction inserts data rows, or runs another statement that touches neither counter nor log. -/
  | write (id : Nat)
  /-- It commits. -/
  | commit (id : Nat)
  /-- It rolls back: any failure, a missing begin row included. -/
  | rollback (id : Nat)
  /-- The statement of `begin_tx` runs. -/
  | begin (id : Nat)
  /-- The transaction of `begin_tx` commits or rolls back. -/
  | endBegin (id : Nat) (commits : Bool)
  deriving DecidableEq, Repr

/-- A clock reading: the database clock never goes backwards and stays inside its range. -/
def CommitSystem.ClockReads (s : CommitSystem) (now : Int) : Prop :=
  s.clock ≤ now ∧ 0 < now ∧ now < i64Max

instance (s : CommitSystem) (now : Int) : Decidable (s.ClockReads now) := inferInstanceAs (Decidable (_ ∧ _))

/-- One event; `none` when the transaction is not at that point, or has to wait for the counter row. -/
def commitStep (s : CommitSystem) : CommitEvent → Option CommitSystem
  | .start id =>
      match s.commits.lookup id with
      | none   => some (s.setCommit id .allocating)
      | some _ => none
  | .allocate id =>
      match s.commits.lookup id with
      | some .allocating => if s.locked then none else some (s.setCommit id (.allocated s.counter))
      | _                => none
  | .insert id now =>
      match s.commits.lookup id with
      | some (.allocated n) => if s.ClockReads now then some (s.insertCommit id n now) else none
      | _                   => none
  | .write id =>
      match s.commits.lookup id with
      | some (.inserted _) => some s
      | _                  => none
  | .commit id =>
      match s.commits.lookup id with
      | some (.inserted row) => some (s.publishCommit id row)
      | _                    => none
  | .rollback id =>
      match s.commits.lookup id with
      | some _ => some (s.rollback id)
      | none   => none
  | .begin id =>
      match s.begins.lookup id with
      | none   => some (s.insertBegin id)
      | some _ => none
  | .endBegin id commits =>
      match s.begins.lookup id with
      | some row => some (s.finishBegin id row commits)
      | none     => none

/-- **Inversion.** The effects an event can have. -/
inductive CommitSystem.Move (s : CommitSystem) : CommitSystem → Prop where
  | start (id : Nat) : Move s (s.setCommit id .allocating)
  | allocate (id : Nat) (hfree : s.locked = false) : Move s (s.setCommit id (.allocated s.counter))
  | insert {id : Nat} {n now : Int} (hphase : s.commits.lookup id = some (.allocated n))
      (hclock : s.ClockReads now) (hfresh : ∀ c ∈ s.commitTxLog, c.commitMicros ≠ now) :
      Move s { s.setCommit id (.inserted ⟨n, now⟩) with clock := now }
  | refuse {now : Int} (id : Nat) (hclock : s.ClockReads now) : Move s { s.rollback id with clock := now }
  | write : Move s s
  | commit {id : Nat} {row : CommitRow} (hphase : s.commits.lookup id = some (.inserted row)) :
      Move s (s.publishCommit id row)
  | rollback (id : Nat) : Move s (s.rollback id)
  | begin (id : Nat) : Move s (s.insertBegin id)
  | endBegin {id : Nat} {row : BeginRow} (commits : Bool) (hrow : s.begins.lookup id = some row) :
      Move s (s.finishBegin id row commits)

theorem move_of_commitStep {s s' : CommitSystem} {ev : CommitEvent} (h : commitStep s ev = some s') :
    s.Move s' := by
  cases ev with
  | start id =>
      simp only [commitStep] at h
      split at h <;> cases h
      exact .start id
  | allocate id =>
      simp only [commitStep] at h
      split at h
      · split at h <;> cases h
        exact .allocate id (Bool.eq_false_iff.mpr ‹_›)
      · cases h
  | insert id now =>
      simp only [commitStep, CommitSystem.insertCommit] at h
      split at h
      case h_1 n hphase =>
        by_cases hclock : s.ClockReads now
        · rw [if_pos hclock] at h
          by_cases htaken : s.commitTxLog.any (fun c => c.commitMicros = now)
          · rw [if_pos htaken] at h
            cases h
            exact .refuse id hclock
          · rw [if_neg htaken] at h
            cases h
            refine .insert hphase hclock ?_
            intro c hc heq
            exact htaken (List.any_eq_true.mpr ⟨c, hc, decide_eq_true heq⟩)
        · rw [if_neg hclock] at h
          cases h
      case h_2 => cases h
  | write id =>
      simp only [commitStep] at h
      split at h <;> cases h
      exact .write
  | commit id =>
      simp only [commitStep] at h
      split at h <;> cases h
      exact .commit ‹_›
  | rollback id =>
      simp only [commitStep] at h
      split at h <;> cases h
      exact .rollback id
  | begin id =>
      simp only [commitStep] at h
      split at h <;> cases h
      exact .begin id
  | endBegin id commits =>
      simp only [commitStep] at h
      split at h <;> cases h
      exact .endBegin commits ‹_›

/-! ## Who holds the counter row

The part of the invariant that does not look at the log: at most one transaction holds the counter row, and
the number it carries is the counter that others still see. -/

/-- What a transaction in flight knows about the visible counter. -/
def CommitPhase.Carries (counter : Int) : CommitPhase → Prop
  | .allocating   => True
  | .allocated n  => n = counter
  | .inserted row => row.commitSeqNum = counter

structure CommitSystem.Serialized (s : CommitSystem) : Prop where
  alone : InFlight.Alone CommitPhase.holdsLock s.commits
  carries : ∀ p ∈ s.commits, p.2.Carries s.counter

namespace CommitSystem

theorem not_holdsLock_of_not_locked {s : CommitSystem} (hfree : s.locked = false) :
    ∀ p ∈ s.commits, p.2.holdsLock = false := by
  intro p hp
  rw [locked, List.any_eq_false] at hfree
  exact Bool.eq_false_iff.mpr (hfree p hp)

theorem carries_of_not_holdsLock {phase : CommitPhase} (h : phase.holdsLock = false) (counter : Int) :
    phase.Carries counter := by
  cases phase with
  | allocating => trivial
  | allocated n => cases h
  | inserted row => cases h

theorem serialized_seeded (clock seed : Int) : (seeded clock seed).Serialized where
  alone := InFlight.Alone.nil
  carries := by simp [seeded]

/-- Releasing the counter row, by committing or rolling back, leaves nobody who carries its number. -/
theorem Serialized.others {s : CommitSystem} (h : s.Serialized) {id : Nat} {row : CommitRow}
    (hphase : s.commits.lookup id = some (.inserted row)) :
    ∀ p ∈ InFlight.remove s.commits id, p.2.holdsLock = false := by
  intro p hp
  obtain ⟨hp, hne⟩ := InFlight.mem_remove.mp hp
  exact h.alone.others (InFlight.mem_of_lookup hphase) rfl p hp hne

theorem Serialized.move {s s' : CommitSystem} (h : s.Serialized) (hmove : s.Move s') : s'.Serialized := by
  cases hmove with
  | start id =>
      refine ⟨h.alone.set ?_, InFlight.forall_mem_set h.carries trivial⟩
      intro hhold
      cases hhold
  | allocate id hfree =>
      refine ⟨h.alone.set ?_, InFlight.forall_mem_set h.carries rfl⟩
      intro _ p hp _
      exact not_holdsLock_of_not_locked hfree p hp
  | insert hphase hclock hfresh =>
      have hmem := InFlight.mem_of_lookup hphase
      have hcarries : CommitPhase.Carries s.counter (.allocated _) := h.carries _ hmem
      refine ⟨h.alone.set ?_, InFlight.forall_mem_set h.carries hcarries⟩
      intro _
      exact h.alone.others hmem rfl
  | refuse id hclock => exact ⟨h.alone.remove, InFlight.forall_mem_remove h.carries⟩
  | write => exact h
  | commit hphase =>
      refine ⟨h.alone.remove, ?_⟩
      intro p hp
      exact carries_of_not_holdsLock (h.others hphase p hp) _
  | rollback id => exact ⟨h.alone.remove, InFlight.forall_mem_remove h.carries⟩
  | begin id => exact ⟨h.alone, h.carries⟩
  | endBegin commits hrow => exact ⟨h.alone, h.carries⟩

/-- The number of a commit row about to become visible is the visible counter. -/
theorem Serialized.commitSeqNum_eq {s : CommitSystem} (h : s.Serialized) {id : Nat} {row : CommitRow}
    (hphase : s.commits.lookup id = some (.inserted row)) : row.commitSeqNum = s.counter :=
  h.carries _ (InFlight.mem_of_lookup hphase)

/-! ## The order of the visible commits -/

/-- A begin row splits the commit log at its number: what its statement saw is what lies below. -/
def Splits (s : CommitSystem) (b : BeginRow) : Prop :=
  ∀ c, c ∈ b.saw ↔ c ∈ s.commitTxLog ∧ c.commitSeqNum < b.beganAtSeqNum

/-- The visible commits are numbered from the seed to the counter without gap or repeat, their timestamps
    follow their numbers, and every `BeginTx` saw exactly the commits below its number. -/
structure CommitOrder (seed : Int) (s : CommitSystem) : Prop where
  numbered : ∀ n, (∃ c ∈ s.commitTxLog, c.commitSeqNum = n) ↔ seed ≤ n ∧ n < s.counter
  distinct : s.commitTxLog.Pairwise (fun c c' => c.commitSeqNum ≠ c'.commitSeqNum)
  monotone : ∀ c ∈ s.commitTxLog, ∀ c' ∈ s.commitTxLog,
    c.commitSeqNum ≤ c'.commitSeqNum → c.commitMicros ≤ c'.commitMicros
  splits : ∀ b ∈ s.beginTxLog, s.Splits b

/-- A commit row in flight is later than every visible one. -/
def Later (s : CommitSystem) : CommitPhase → Prop
  | .inserted row => row.commitMicros ≤ s.clock ∧ ∀ c ∈ s.commitTxLog, c.commitMicros < row.commitMicros
  | _             => True

/-- The invariant behind `CommitOrder`. -/
structure CommitInv (seed : Int) (s : CommitSystem) : Prop extends s.Serialized, s.CommitOrder seed where
  seed_le : seed ≤ s.counter
  past : ∀ c ∈ s.commitTxLog, c.commitMicros ≤ s.clock
  later : ∀ p ∈ s.commits, s.Later p.2
  /-- In-flight begin rows split the log as well, and no begin row is ahead of the counter. -/
  splitting : ∀ p ∈ s.begins, s.Splits p.2 ∧ p.2.beganAtSeqNum ≤ s.counter
  begun : ∀ b ∈ s.beginTxLog, b.beganAtSeqNum ≤ s.counter

theorem CommitOrder.commitSeqNum_lt {seed : Int} {s : CommitSystem} (h : s.CommitOrder seed) {c : CommitRow}
    (hc : c ∈ s.commitTxLog) : c.commitSeqNum < s.counter :=
  ((h.numbered c.commitSeqNum).mp ⟨c, hc, rfl⟩).2

theorem commitInv_seeded (clock seed : Int) : (seeded clock seed).CommitInv seed where
  toSerialized := serialized_seeded clock seed
  toCommitOrder :=
    { numbered := by
        intro n
        simp only [seeded, List.not_mem_nil, false_and, exists_false, false_iff]
        omega
      distinct := List.Pairwise.nil
      monotone := by simp [seeded]
      splits := by simp [seeded] }
  seed_le := le_refl seed
  past := by simp [seeded]
  later := by simp [seeded]
  splitting := by simp [seeded]
  begun := by simp [seeded]

/-! ### The commit log grows by one row -/

variable {seed : Int} {s : CommitSystem} {row : CommitRow}

theorem CommitOrder.numbered_append (h : s.CommitOrder seed) (hseed : seed ≤ s.counter)
    (hseq : row.commitSeqNum = s.counter) (n : Int) :
    (∃ c ∈ s.commitTxLog ++ [row], c.commitSeqNum = n) ↔ seed ≤ n ∧ n < row.commitSeqNum + 1 := by
  have hold := h.numbered n
  simp only [List.mem_append, List.mem_singleton, or_and_right, exists_or, exists_eq_left, hold, hseq]
  omega

theorem CommitOrder.distinct_append (h : s.CommitOrder seed) (hseq : row.commitSeqNum = s.counter) :
    (s.commitTxLog ++ [row]).Pairwise (fun c c' => c.commitSeqNum ≠ c'.commitSeqNum) := by
  refine List.pairwise_append.mpr ⟨h.distinct, List.pairwise_singleton _ _, ?_⟩
  intro c hc c' hc'
  rw [List.mem_singleton.mp hc', hseq]
  exact (h.commitSeqNum_lt hc).ne

theorem CommitOrder.monotone_append (h : s.CommitOrder seed) (hseq : row.commitSeqNum = s.counter)
    (hlater : ∀ c ∈ s.commitTxLog, c.commitMicros < row.commitMicros) :
    ∀ c ∈ s.commitTxLog ++ [row], ∀ c' ∈ s.commitTxLog ++ [row],
      c.commitSeqNum ≤ c'.commitSeqNum → c.commitMicros ≤ c'.commitMicros := by
  intro c hc c' hc' hle
  rcases List.mem_append.mp hc with hc | hc <;> rcases List.mem_append.mp hc' with hc' | hc'
  · exact h.monotone c hc c' hc' hle
  · rw [List.mem_singleton.mp hc']
    exact (hlater c hc).le
  · -- the new row carries the counter, no older row does
    have hlt := h.commitSeqNum_lt hc'
    rw [List.mem_singleton.mp hc, hseq] at hle
    omega
  · rw [List.mem_singleton.mp hc, List.mem_singleton.mp hc']

/-- A row at or past the number of a begin row does not change what lies below. -/
theorem Splits.publishCommit {b : BeginRow} (h : s.Splits b) (hle : b.beganAtSeqNum ≤ row.commitSeqNum)
    (id : Nat) : (s.publishCommit id row).Splits b := by
  intro c
  show c ∈ b.saw ↔ c ∈ s.commitTxLog ++ [row] ∧ c.commitSeqNum < b.beganAtSeqNum
  rw [h c, List.mem_append, List.mem_singleton]
  constructor
  · rintro ⟨hc, hlt⟩
    exact ⟨.inl hc, hlt⟩
  · rintro ⟨hc | rfl, hlt⟩
    · exact ⟨hc, hlt⟩
    · omega

/-! ### One step, whole runs -/

theorem CommitInv.publishCommit (h : s.CommitInv seed) {id : Nat}
    (hphase : s.commits.lookup id = some (.inserted row)) : (s.publishCommit id row).CommitInv seed := by
  have hseq := h.toSerialized.commitSeqNum_eq hphase
  obtain ⟨hclock, hlater⟩ : s.Later (.inserted row) := h.later _ (InFlight.mem_of_lookup hphase)
  have hbelow : ∀ n, n ≤ s.counter → n ≤ row.commitSeqNum ∧ n ≤ row.commitSeqNum + 1 := by omega
  constructor
  case toSerialized => exact h.toSerialized.move (.commit hphase)
  case toCommitOrder =>
    exact
      { numbered := h.toCommitOrder.numbered_append h.seed_le hseq
        distinct := h.toCommitOrder.distinct_append hseq
        monotone := h.toCommitOrder.monotone_append hseq hlater
        splits := fun b hb => (h.splits b hb).publishCommit (hbelow _ (h.begun b hb)).1 id }
  case seed_le => exact (hbelow _ h.seed_le).2
  case past =>
    intro c hc
    rcases List.mem_append.mp hc with hc | hc
    · exact h.past c hc
    · rw [List.mem_singleton.mp hc]
      exact hclock
  case later =>
    -- nobody else is past the counter row
    intro p hp
    have hfree := h.toSerialized.others hphase p hp
    cases hp2 : p.2 with
    | inserted other =>
        rw [hp2] at hfree
        cases hfree
    | allocating => trivial
    | allocated n => trivial
  case splitting =>
    intro p hp
    obtain ⟨hsplits, hle⟩ := h.splitting p hp
    exact ⟨hsplits.publishCommit (hbelow _ hle).1 id, (hbelow _ hle).2⟩
  case begun => exact fun b hb => (hbelow _ (h.begun b hb)).2

/-- What the later clock readings keep of `Later`. -/
theorem Later.clock {phase : CommitPhase} (h : s.Later phase) {now : Int} (hclock : s.ClockReads now) :
    Later { s with clock := now } phase := by
  cases phase with
  | allocating => trivial
  | allocated n => trivial
  | inserted row => exact ⟨h.1.trans hclock.1, h.2⟩

theorem CommitInv.move (h : s.CommitInv seed) {s' : CommitSystem} (hmove : s.Move s') :
    s'.CommitInv seed := by
  have hserial := h.toSerialized.move hmove
  cases hmove with
  | start id =>
      exact { h with toSerialized := hserial, later := InFlight.forall_mem_set h.later trivial }
  | allocate id hfree =>
      exact { h with toSerialized := hserial, later := InFlight.forall_mem_set h.later trivial }
  | @insert id n now hphase hclock hfresh =>
      have hpast : ∀ c ∈ s.commitTxLog, c.commitMicros ≤ now := fun c hc => (h.past c hc).trans hclock.1
      have hnew : Later { s with clock := now } (.inserted ⟨n, now⟩) :=
        ⟨le_refl now, fun c hc => lt_of_le_of_ne (hpast c hc) (hfresh c hc)⟩
      exact
        { h with
          toSerialized := hserial
          past := hpast
          later := InFlight.forall_mem_set (fun p hp => (h.later p hp).clock hclock) hnew }
  | refuse id hclock =>
      exact
        { h with
          toSerialized := hserial
          past := fun c hc => (h.past c hc).trans hclock.1
          later := InFlight.forall_mem_remove (fun p hp => (h.later p hp).clock hclock) }
  | write => exact h
  | commit hphase => exact h.publishCommit hphase
  | rollback id => exact { h with toSerialized := hserial, later := InFlight.forall_mem_remove h.later }
  | begin id =>
      -- the statement sees every commit below the counter, and there are no others
      have hall : s.Splits ⟨s.counter, s.commitTxLog⟩ := by
        intro c
        exact ⟨fun hc => ⟨hc, h.toCommitOrder.commitSeqNum_lt hc⟩, And.left⟩
      exact
        { h with
          toSerialized := hserial
          splitting := InFlight.forall_mem_set h.splitting ⟨hall, le_refl s.counter⟩ }
  | @endBegin id row commits hrow =>
      obtain ⟨hsplits, hle⟩ := h.splitting _ (InFlight.mem_of_lookup hrow)
      have hbegun : ∀ b ∈ (s.finishBegin id row commits).beginTxLog,
          s.Splits b ∧ b.beganAtSeqNum ≤ s.counter := by
        intro b hb
        cases commits with
        | false => exact ⟨h.splits b hb, h.begun b hb⟩
        | true =>
            rcases List.mem_append.mp hb with hb | hb
            · exact ⟨h.splits b hb, h.begun b hb⟩
            · rw [List.mem_singleton.mp hb]
              exact ⟨hsplits, hle⟩
      exact
        { h with
          toSerialized := hserial
          splits := fun b hb => (hbegun b hb).1
          splitting := InFlight.forall_mem_remove h.splitting
          begun := fun b hb => (hbegun b hb).2 }

end CommitSystem

theorem commitInv_run {clock seed : Int} {evs : List CommitEvent} {s : CommitSystem}
    (hrun : Runs.run commitStep (CommitSystem.seeded clock seed) evs = some s) : s.CommitInv seed :=
  Runs.invariant_of_step (fun _ _ _ h _ hstep => h.move (move_of_commitStep hstep))
    (CommitSystem.commitInv_seeded clock seed) (Runs.meets_of_forall (fun _ _ => trivial) _ _) hrun

/-- **The order of commits.** In every state any interleaving of commits and `BeginTx` calls reaches, the
    visible commits carry the numbers from the seed to the counter, each once, in the order of their
    timestamps, and what a `BeginTx` saw is what lies below its number, now and from then on. -/
theorem commitOrder_run {clock seed : Int} {evs : List CommitEvent} {s : CommitSystem}
    (hrun : Runs.run commitStep (CommitSystem.seeded clock seed) evs = some s) : s.CommitOrder seed :=
  (commitInv_run hrun).toCommitOrder

/-- Two commits overlap, a third rolls back after it took the number of the second, and a `BeginTx` runs while
    that commit row is in flight. -/
def overlappingCommits : List CommitEvent :=
  [.start 0, .start 1, .allocate 0, .insert 0 10, .write 0, .commit 0, .start 2, .allocate 2,
    .insert 2 11, .rollback 2, .allocate 1, .insert 1 12, .begin 7, .commit 1, .endBegin 7 true]

/-- The begin row holds 1 and saw the first commit only; the second commit has the number 1. -/
theorem commitOrder_overlappingCommits :
    ∃ s, Runs.run commitStep (CommitSystem.seeded 5 0) overlappingCommits = some s ∧
      s.commitTxLog = [⟨0, 10⟩, ⟨1, 12⟩] ∧ s.beginTxLog = [⟨1, [⟨0, 10⟩]⟩] ∧ s.CommitOrder 0 := by
  have hrun : Runs.run commitStep (CommitSystem.seeded 5 0) overlappingCommits =
      some ⟨12, 2, [⟨0, 10⟩, ⟨1, 12⟩], [⟨1, [⟨0, 10⟩]⟩], [], []⟩ := by decide
  exact ⟨_, hrun, rfl, rfl, commitOrder_run hrun⟩

/-! ## Refinement of the atomic commit

The lifecycle model commits in one step, `Store.commitTx`. The interleaved commits refine it: the visible
counter and commit log of a store follow the counter system, which moves them at the commit event and at no
other, exactly as `commitTx` does at the clock reading of the commit row. -/

section Refinement

variable {R V : Type}

/-- The store shows the counter and the commit log of the system. -/
structure CommitSystem.Shows (s : CommitSystem) (store : Store R V) : Prop where
  counter : store.commitSeqCounter = s.counter
  log : store.commitTxLog = s.commitTxLog

/-- A commit row in flight carries a clock reading inside its range. -/
def CommitSystem.InRange (s : CommitSystem) : Prop :=
  ∀ p ∈ s.commits, ∀ row, p.2 = .inserted row → 0 < row.commitMicros ∧ row.commitMicros < i64Max

theorem CommitSystem.InRange.move {s s' : CommitSystem} (h : s.InRange) (hmove : s.Move s') : s'.InRange := by
  cases hmove with
  | start id => exact InFlight.forall_mem_set h (by simp)
  | allocate id hfree => exact InFlight.forall_mem_set h (by simp)
  | insert hphase hclock hfresh =>
      refine InFlight.forall_mem_set h ?_
      rintro row ⟨rfl⟩
      exact hclock.2
  | refuse id hclock => exact InFlight.forall_mem_remove h
  | write => exact h
  | commit hphase => exact InFlight.forall_mem_remove h
  | rollback id => exact InFlight.forall_mem_remove h
  | begin id => exact h
  | endBegin commits hrow => exact h

/-- Publishing a commit row is an atomic commit at its clock reading, with whatever rows. -/
theorem CommitSystem.Shows.publishCommit {seed : Int} {s : CommitSystem} {store : Store R V}
    (h : s.Shows store) (hinv : s.CommitInv seed) (hrange : s.InRange) {id : Nat} {row : CommitRow}
    (hphase : s.commits.lookup id = some (.inserted row)) (rows : TxWrites R V) :
    ∃ store', store.commitTx row.commitMicros rows = some store' ∧
      (s.publishCommit id row).Shows store' := by
  have hmem := InFlight.mem_of_lookup hphase
  have hseq := hinv.toSerialized.commitSeqNum_eq hphase
  obtain ⟨-, hlater⟩ : s.Later (.inserted row) := hinv.later _ hmem
  have hadmits : store.ClockAdmits row.commitMicros := by
    refine ⟨hrange _ hmem row rfl, ?_⟩
    intro c hc
    rw [h.log] at hc
    exact (hlater c hc).le
  have hfresh : ¬ store.commitTxLog.any (fun c => c.commitMicros = row.commitMicros) := by
    rw [h.log, List.any_eq_true]
    rintro ⟨c, hc, heq⟩
    exact (hlater c hc).ne (of_decide_eq_true heq)
  refine ⟨_, by rw [Store.commitTx, if_pos hadmits, if_neg hfresh], ?_, ?_⟩
  · show store.commitSeqCounter + 1 = row.commitSeqNum + 1
    rw [h.counter, hseq]
  · show store.commitTxLog ++ [⟨store.commitSeqCounter, row.commitMicros⟩] = s.commitTxLog ++ [row]
    rw [h.log, h.counter, ← hseq]

/-- The commit of a row as one operation of the lifecycle model. -/
def atomicCommit (rows : CommitRow → TxWrites R V) (row : CommitRow) : Op R V :=
  .commit row.commitMicros (rows row)

/-- The simulation relation: the log so far replays to a store that shows the system. -/
structure Replays [DecidableEq R] (cfg : PersistConfig R V) (rows : CommitRow → TxWrites R V) (s : CommitSystem) : Prop where
  inv : s.CommitInv 0
  inRange : s.InRange
  replay : ∃ store, Runs.run (step cfg) Store.init (s.commitTxLog.map (atomicCommit rows)) = some store ∧
    s.Shows store

variable [DecidableEq R] {cfg : PersistConfig R V}

theorem replays_seeded (rows : CommitRow → TxWrites R V) (clock : Int) :
    Replays cfg rows (CommitSystem.seeded clock 0) where
  inv := CommitSystem.commitInv_seeded clock 0
  inRange := by simp [CommitSystem.InRange, CommitSystem.seeded]
  replay := ⟨Store.init, rfl, rfl, rfl⟩

/-- Only a commit event moves the store. -/
theorem Replays.move {rows : CommitRow → TxWrites R V} {s s' : CommitSystem} (h : Replays cfg rows s)
    (hmove : s.Move s') : Replays cfg rows s' := by
  obtain ⟨store, hstore, hshows⟩ := h.replay
  refine ⟨h.inv.move hmove, h.inRange.move hmove, ?_⟩
  cases hmove with
  | @commit id row hphase =>
      obtain ⟨store', hcommit, hshows'⟩ := hshows.publishCommit h.inv h.inRange hphase (rows row)
      refine ⟨store', ?_, hshows'⟩
      show Runs.run (step cfg) Store.init ((s.commitTxLog ++ [row]).map (atomicCommit rows)) = some store'
      rw [List.map_append, Runs.run_append, hstore, Option.bind_some]
      exact Runs.run_cons_eq_some.mpr ⟨store', hcommit, rfl⟩
  | start id => exact ⟨store, hstore, hshows.counter, hshows.log⟩
  | allocate id hfree => exact ⟨store, hstore, hshows.counter, hshows.log⟩
  | insert hphase hclock hfresh => exact ⟨store, hstore, hshows.counter, hshows.log⟩
  | refuse id hclock => exact ⟨store, hstore, hshows.counter, hshows.log⟩
  | write => exact ⟨store, hstore, hshows⟩
  | rollback id => exact ⟨store, hstore, hshows.counter, hshows.log⟩
  | begin id => exact ⟨store, hstore, hshows.counter, hshows.log⟩
  | endBegin commits hrow => exact ⟨store, hstore, hshows.counter, hshows.log⟩

/-- **Refinement.** The visible commit log of every reachable state, replayed as atomic commits with whatever
    rows each transaction wrote, is a run of the lifecycle model that ends with the same counter and log. -/
theorem commitSystem_refines_commitTx (cfg : PersistConfig R V) (rows : CommitRow → TxWrites R V) {clock : Int}
    {evs : List CommitEvent} {s : CommitSystem}
    (hrun : Runs.run commitStep (CommitSystem.seeded clock 0) evs = some s) :
    ∃ store, Runs.run (step cfg) Store.init (s.commitTxLog.map (atomicCommit rows)) = some store ∧
      s.Shows store := by
  have hkeeps : ∀ s ev s', Replays cfg rows s → True → commitStep s ev = some s' → Replays cfg rows s' :=
    fun s ev s' h _ hstep => h.move (move_of_commitStep hstep)
  have hreplays : Replays cfg rows s :=
    Runs.invariant_of_step hkeeps (replays_seeded rows clock)
      (Runs.meets_of_forall (fun _ _ => trivial) _ _) hrun
  exact hreplays.replay

end Refinement

theorem commitSystem_refines_overlappingCommits :
    ∃ s, Runs.run commitStep (CommitSystem.seeded 5 0) overlappingCommits = some s ∧
      ∃ store, Runs.run (step oneByteRows) Store.init (s.commitTxLog.map (atomicCommit (fun c => .single 0 .delete c.commitSeqNum))) = some store ∧
        s.Shows store := by
  obtain ⟨s, hrun⟩ := Option.isSome_iff_exists.mp
    (by decide +kernel : (Runs.run commitStep (CommitSystem.seeded 5 0) overlappingCommits).isSome)
  exact ⟨s, hrun, commitSystem_refines_commitTx oneByteRows _ hrun⟩

end Penca
