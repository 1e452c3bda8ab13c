import Penca.Lifecycle.Invariant

/-!
# `Lifecycle.PersistRace` — one Persist against concurrent commits, statement by statement

Persist runs outside any transaction: it reads the clock, then the upsert log, then the delete log, then its
gate, and then writes one statement at a time. A committing transaction takes its `commit_micros` and its
`commit_seq_num` under the counter lock and becomes visible later, with all its rows at once.

The stamped watermark `W` is the maximum over *both* reads, so a transaction that becomes visible between
them moves `W` with its deletes although its upserts were read before. `NoTornCommit` excludes exactly that
(`completeUpTo_iff_noTornCommit`).

## Contents
- **Statements** of the durable writes, and that they add up to `writePersist`.
- **The machine** and its invariant, step by step.
- **Main result** over every run of the machine.
-/

namespace Penca

variable {R V : Type} [DecidableEq R]

/-! ## The durable writes, one statement at a time -/

/-- A statement of the write phases. -/
inductive WriteStatement (R V : Type) where
  | insertTablePersist (uuid : PersistUuid) (persistedAt seq : Int)
  | insertTablePersistSegment (uuid : SegmentUuid) (rows : List (LogEntry R V))
  | putObject (uuid : SegmentUuid) (rows : List (LogEntry R V))
  | commitTablePersistSegment (uuid : SegmentUuid)
  | phase2ParentFlip (uuids : List PersistUuid)
  deriving DecidableEq

/-- The effect of a statement. -/
def WriteStatement.exec (s : Store R V) : WriteStatement R V → Store R V
  | .insertTablePersist uuid persistedAt seq => s.insertTablePersist uuid persistedAt seq
  | .insertTablePersistSegment uuid rows     => s.insertTablePersistSegment uuid rows
  | .putObject uuid rows                     => s.putObject (.segment uuid) rows
  | .commitTablePersistSegment uuid          => s.commitTablePersistSegment uuid
  | .phase2ParentFlip uuids                  => s.phase2ParentFlip uuids

/-- `write_segment` as statements. -/
def segmentStatements (w : SegmentUuid × List (LogEntry R V)) : List (WriteStatement R V) :=
  [.insertTablePersistSegment w.1 w.2, .putObject w.1 w.2, .commitTablePersistSegment w.1]

/-- Phase 1 of one log kind as statements. -/
def logKindStatements (cfg : PersistConfig R V) (parent : PersistUuid) (batch : List (LogEntry R V))
    (persistedAt seq : Int) : List (WriteStatement R V) :=
  if batch.isEmpty then []
  else .insertTablePersist parent persistedAt seq ::
    (segmentWrites parent (chunkPersistBatch cfg batch)).flatMap segmentStatements

/-- Both phases as statements. -/
def persistStatements (cfg : PersistConfig R V) (target : Int) (upserts deletes : List (LogEntry R V))
    (persistedAt seq : Int) : List (WriteStatement R V) :=
  logKindStatements cfg ⟨target, .upsertLog⟩ upserts persistedAt seq ++
    (logKindStatements cfg ⟨target, .deleteLog⟩ deletes persistedAt seq ++
      [.phase2ParentFlip (persistParents target upserts deletes)])

section Statements

omit [DecidableEq R]

theorem foldl_segmentStatements (s : Store R V) (ws : List (SegmentUuid × List (LogEntry R V))) :
    (ws.flatMap segmentStatements).foldl WriteStatement.exec s = s.writeSegments ws := by
  induction ws generalizing s with
  | nil => rfl
  | cons w ws ih =>
      rw [List.flatMap_cons, List.foldl_append, ih]
      rfl

theorem foldl_logKindStatements (cfg : PersistConfig R V) (s : Store R V) (parent : PersistUuid)
    (batch : List (LogEntry R V)) (persistedAt seq : Int) :
    (logKindStatements cfg parent batch persistedAt seq).foldl WriteStatement.exec s =
      s.writeLogKind cfg parent batch persistedAt seq := by
  unfold logKindStatements Store.writeLogKind
  split
  · rfl
  · rw [List.foldl_cons, foldl_segmentStatements]
    rfl

theorem foldl_persistStatements (cfg : PersistConfig R V) (s : Store R V) (target : Int)
    (upserts deletes : List (LogEntry R V)) (persistedAt seq : Int) :
    (persistStatements cfg target upserts deletes persistedAt seq).foldl WriteStatement.exec s =
      s.writePersist cfg target upserts deletes persistedAt seq := by
  unfold persistStatements
  rw [List.foldl_append, List.foldl_append, foldl_logKindStatements, foldl_logKindStatements]
  rfl

end Statements

/-! ### The cold part of a store -/

/-- The cold tier of `s'` under the rest of `s`. -/
def Store.withCold (s s' : Store R V) : Store R V :=
  { s with tablePersists := s'.tablePersists, persistSegments := s'.persistSegments,
           objects := s'.objects, mergedFiles := s'.mergedFiles }

/-- Two stores with the same cold tier. -/
structure Store.ColdEq (s s' : Store R V) : Prop where
  tablePersists : s.tablePersists = s'.tablePersists
  persistSegments : s.persistSegments = s'.persistSegments
  objects : s.objects = s'.objects
  mergedFiles : s.mergedFiles = s'.mergedFiles

section ColdEq

omit [DecidableEq R]

variable {s s' s'' : Store R V}

theorem Store.ColdEq.refl (s : Store R V) : s.ColdEq s := ⟨rfl, rfl, rfl, rfl⟩

theorem Store.ColdEq.trans (h : s.ColdEq s') (h' : s'.ColdEq s'') : s.ColdEq s'' :=
  ⟨h.1.trans h'.1, h.2.trans h'.2, h.3.trans h'.3, h.4.trans h'.4⟩

theorem Store.ColdEq.withCold_eq (h : s.ColdEq s') : s.withCold s' = s := by
  unfold Store.withCold
  rw [← h.tablePersists, ← h.persistSegments, ← h.objects, ← h.mergedFiles]

theorem Store.ColdEq.views_eq (h : s.ColdEq s') : s.views = s'.views := by
  unfold Store.views
  rw [h.persistSegments]
  refine List.map_congr_left (fun seg _ => ?_)
  simp only [Store.view, Store.segmentRows, h.objects]

theorem Store.ColdEq.persistWatermark_eq (h : s.ColdEq s') : s.persistWatermark = s'.persistWatermark := by
  unfold Store.persistWatermark
  rw [h.tablePersists]

theorem Store.ColdEq.noClobberAt (h : s.ColdEq s') {w : SegmentUuid × List (LogEntry R V)}
    (hnc : s.NoClobberAt w) : s'.NoClobberAt w := by
  intro seg hseg hu
  rw [← h.persistSegments] at hseg
  have := hnc seg hseg hu
  rwa [Store.segmentRows, h.objects] at this

/-- The write statements read and write the cold tier only. -/
theorem Store.ColdEq.exec (h : s.ColdEq s') (st : WriteStatement R V) :
    (st.exec s).ColdEq (st.exec s') := by
  obtain ⟨hp, hs, ho, hm⟩ := h
  cases st with
  | insertTablePersist uuid persistedAt seq =>
      exact ⟨by simp only [WriteStatement.exec, insertTablePersist, hp], hs, ho, hm⟩
  | insertTablePersistSegment uuid rows =>
      exact ⟨hp, by simp only [WriteStatement.exec, insertTablePersistSegment, hs], ho, hm⟩
  | putObject uuid rows =>
      exact ⟨hp, hs, by simp only [WriteStatement.exec, putObject, ho], hm⟩
  | commitTablePersistSegment uuid =>
      exact ⟨hp, by simp only [WriteStatement.exec, commitTablePersistSegment, hs], ho, hm⟩
  | phase2ParentFlip uuids =>
      exact ⟨by simp only [WriteStatement.exec, phase2ParentFlip, hp], hs, ho, hm⟩

theorem Store.ColdEq.foldl_exec (h : s.ColdEq s') (todo : List (WriteStatement R V)) :
    (todo.foldl WriteStatement.exec s).ColdEq (todo.foldl WriteStatement.exec s') := by
  induction todo generalizing s s' with
  | nil => exact h
  | cons st todo ih => exact ih (h.exec st)

theorem Store.coldEq_commitTx {micros : Int} {rows : TxWrites R V}
    (h : s.commitTx micros rows = some s') : s'.ColdEq s := by
  unfold Store.commitTx at h
  split at h
  · split at h
    · exact Option.some.inj h ▸ .refl s
    · exact Option.some.inj h ▸ ⟨rfl, rfl, rfl, rfl⟩
  · simp at h

theorem Store.commitTx_withCold {micros : Int} {rows : TxWrites R V}
    (h : s.commitTx micros rows = some s') (c : Store R V) :
    (s.withCold c).commitTx micros rows = some (s'.withCold c) := by
  unfold Store.commitTx at h ⊢
  change (if s.ClockAdmits micros then _ else none) = _
  split at h
  · rename_i hclock
    rw [if_pos hclock]
    split at h
    · rename_i htie
      rw [← Option.some.inj h]
      exact if_pos htie
    · rename_i htie
      rw [← Option.some.inj h]
      exact if_neg htie
  · simp at h

end ColdEq

/-! ## The machine -/

/-- What a Persist stamps on its parent rows, with the counter of the branch at its two log reads. -/
structure Stamp where
  target : Int
  seq : Int
  upsertsAt : Int
  deletesAt : Int
  deriving DecidableEq, Repr

/-- How far the Persist has come. `writing stamp []` is a finished Persist. -/
inductive PersistPhase (R V : Type) where
  | idle
  | started (target : Int)
  | upsertsRead (target : Int) (upserts : List (LogEntry R V)) (upsertsAt : Int)
  | deletesRead (target : Int) (upserts deletes : List (LogEntry R V)) (upsertsAt deletesAt : Int)
  | writing (stamp : Stamp) (todo : List (WriteStatement R V))
  | noop
  deriving DecidableEq

/-- The table, the clock, the transaction that holds the counter lock, and the Persist. -/
structure PersistRace (R V : Type) where
  store : Store R V
  /-- The transactions visible so far. -/
  history : History R V
  /-- The last reading of the database clock. -/
  clock : Int
  /-- Clock reading and rows of the transaction between its commit row's INSERT and its COMMIT. -/
  inFlight : Option (Int × TxWrites R V)
  phase : PersistPhase R V

/-- The events that interleave. -/
inductive RaceEvent (R V : Type) where
  | lockCounter (micros : Int) (rows : TxWrites R V)
  | becomeVisible
  | rollBack
  | start (now : Int)
  | readUpserts
  | readDeletes
  | gate
  | write

/-- One event. -/
def raceStep (cfg : PersistConfig R V) (c : PersistRace R V) : RaceEvent R V → Option (PersistRace R V)
  | .lockCounter micros rows =>
      if c.inFlight.isNone && decide (c.clock ≤ micros) then
        some { c with inFlight := some (micros, rows), clock := micros }
      else none
  | .becomeVisible =>
      c.inFlight.bind (fun t => (c.store.commitTx t.1 t.2).map (fun s =>
        { c with store := s, history := c.history.commit t.1 t.2, inFlight := none }))
  | .rollBack => some { c with inFlight := none }
  | .start now =>
      match c.phase with
      | .idle =>
          if c.clock ≤ now then
            some { c with clock := now, phase := if now ≤ 0 then .noop else .started now }
          else none
      | _ => none
  | .readUpserts =>
      match c.phase with
      | .started target => some { c with
          phase := .upsertsRead target (c.store.readCommitted .upsertLog target) c.store.commitSeqCounter }
      | _ => none
  | .readDeletes =>
      match c.phase with
      | .upsertsRead target upserts upsertsAt => some { c with
          phase := .deletesRead target upserts (c.store.readCommitted .deleteLog target) upsertsAt
            c.store.commitSeqCounter }
      | _ => none
  | .gate =>
      match c.phase with
      | .deletesRead target upserts deletes upsertsAt deletesAt => some { c with
          phase := match computeCandidatePersistedAtGated c.store.persistWatermark upserts deletes with
            | none                    => .noop
            | some (persistedAt, seq) => .writing ⟨target, seq, upsertsAt, deletesAt⟩
                (persistStatements cfg target upserts deletes persistedAt seq) }
      | _ => none
  | .write =>
      match c.phase with
      | .writing stamp (st :: todo) => some { c with
          store := st.exec c.store, phase := .writing stamp todo }
      | _ => none

/-- The state in which the Persist and the commits begin. -/
def PersistRace.begin (s : Store R V) (H : History R V) (clock : Int) : PersistRace R V :=
  { store := s, history := H, clock := clock, inFlight := none, phase := .idle }

/-- `NoClobber` for the batches a Persist has read: if the gate lets them through, writing them rewrites no
    segment with other rows. -/
def PersistPhase.NoClobber (cfg : PersistConfig R V) (s : Store R V) : PersistPhase R V → Prop
  | .deletesRead target upserts deletes _ _ =>
      (computeCandidatePersistedAtGated s.persistWatermark upserts deletes).isSome →
        ∀ w ∈ persistWrites cfg target upserts deletes, s.NoClobberAt w
  | _ => True

/-- The guard on the gate; every other event is unguarded. -/
def GateNoClobber (cfg : PersistConfig R V) (c : PersistRace R V) : RaceEvent R V → Prop
  | .gate => c.phase.NoClobber cfg c.store
  | _     => True

instance [DecidableEq V] (cfg : PersistConfig R V) (s : Store R V) :
    ∀ phase : PersistPhase R V, Decidable (phase.NoClobber cfg s)
  | .deletesRead _ _ _ _ _ => inferInstanceAs (Decidable (_ → ∀ w ∈ _, s.NoClobberAt w))
  | .idle | .started _ | .upsertsRead _ _ _ | .writing _ _ | .noop => isTrue trivial

instance [DecidableEq V] (cfg : PersistConfig R V) (c : PersistRace R V) :
    ∀ ev, Decidable (GateNoClobber cfg c ev)
  | .gate => inferInstanceAs (Decidable (c.phase.NoClobber cfg c.store))
  | .lockCounter _ _ | .becomeVisible | .rollBack | .start _ | .readUpserts | .readDeletes | .write =>
      isTrue trivial

/-! ## The invariant of the machine -/

/-- `batch` is what the log of `kind` held at or below the target when the counter stood at
    `upTo`. -/
def IsBatch (s : Store R V) (kind : LogKind) (target upTo : Int) (batch : List (LogEntry R V)) : Prop :=
  ∀ e, e ∈ batch ↔
    e ∈ s.hot ∧ e.kind = kind ∧ e.commitMicros < satSucc target ∧ e.commitSeqNum < upTo

/-- What is known of each phase; `s₀` and `k` are the store and the counter at the beginning. -/
def PhaseInv (cfg : PersistConfig R V) (s₀ : Store R V) (k : Int) (c : PersistRace R V) :
    PersistPhase R V → Prop
  | .idle       => c.store.ColdEq s₀
  | .started _  => c.store.ColdEq s₀
  | .noop       => c.store.ColdEq s₀
  | .upsertsRead target upserts upsertsAt =>
      c.store.ColdEq s₀ ∧ (k ≤ upsertsAt ∧ upsertsAt ≤ c.store.commitSeqCounter) ∧
        IsBatch c.store .upsertLog target upsertsAt upserts
  | .deletesRead target upserts deletes upsertsAt deletesAt =>
      c.store.ColdEq s₀ ∧ (k ≤ upsertsAt ∧ upsertsAt ≤ deletesAt ∧ deletesAt ≤ c.store.commitSeqCounter) ∧
        IsBatch c.store .upsertLog target upsertsAt upserts ∧
        IsBatch c.store .deleteLog target deletesAt deletes
  | .writing stamp todo =>
      (k ≤ stamp.upsertsAt ∧ stamp.upsertsAt ≤ stamp.deletesAt ∧
        stamp.deletesAt ≤ c.store.commitSeqCounter) ∧
      ∃ upserts deletes persistedAt,
        IsBatch c.store .upsertLog stamp.target stamp.upsertsAt upserts ∧
        IsBatch c.store .deleteLog stamp.target stamp.deletesAt deletes ∧
        computeCandidatePersistedAtGated s₀.persistWatermark upserts deletes =
          some (persistedAt, stamp.seq) ∧
        (∀ w ∈ persistWrites cfg stamp.target upserts deletes, s₀.NoClobberAt w) ∧
        (todo.foldl WriteStatement.exec c.store).ColdEq
          (s₀.writePersist cfg stamp.target upserts deletes persistedAt stamp.seq)

/-- The machine keeps the lifecycle invariant of the store without the Persist's own writes. -/
structure RaceInv (cfg : PersistConfig R V) (s₀ : Store R V) (k : Int) (c : PersistRace R V) : Prop where
  inv : Inv (c.store.withCold s₀) c.history
  grows : k ≤ c.store.commitSeqCounter
  phase : PhaseInv cfg s₀ k c c.phase

/-! ### Steps -/

section Steps

variable {cfg : PersistConfig R V} {s₀ s s' : Store R V} {k : Int} {c c' : PersistRace R V}

omit [DecidableEq R] in
/-- A commit adds hot rows under the counter's value only. -/
theorem Store.commitTx_hot {micros : Int} {rows : TxWrites R V} (h : s.commitTx micros rows = some s') :
    s.commitSeqCounter ≤ s'.commitSeqCounter ∧
      ∀ e, e.commitSeqNum < s.commitSeqCounter → (e ∈ s'.hot ↔ e ∈ s.hot) := by
  unfold Store.commitTx at h
  split at h
  · split at h
    · obtain rfl := Option.some.inj h
      exact ⟨le_refl _, fun e _ => Iff.rfl⟩
    · obtain rfl := Option.some.inj h
      refine ⟨Int.le_add_one (le_refl _), fun e hlt => ?_⟩
      rw [List.mem_append]
      refine ⟨fun he => he.elim id (fun hnew => ?_), Or.inl⟩
      have := CommittedTx.commitSeqNum_of_mem hnew
      simp only at this
      omega
  · simp at h

omit [DecidableEq R] in
/-- What a read returned stays what the log held at that moment. -/
theorem IsBatch.commitTx {kind : LogKind} {target upTo : Int} {batch : List (LogEntry R V)}
    (hb : IsBatch s kind target upTo batch) (hle : upTo ≤ s.commitSeqCounter) {micros : Int}
    {rows : TxWrites R V} (h : s.commitTx micros rows = some s') : IsBatch s' kind target upTo batch := by
  intro e
  rw [hb e]
  have hhot := (Store.commitTx_hot h).2 e
  constructor
  · rintro ⟨he, hkind, htarget, hlt⟩
    exact ⟨(hhot (by omega)).mpr he, hkind, htarget, hlt⟩
  · rintro ⟨he, hkind, htarget, hlt⟩
    exact ⟨(hhot (by omega)).mp he, hkind, htarget, hlt⟩

omit [DecidableEq R] in
/-- A log read returns the batch of the counter's present value. -/
theorem RaceInv.isBatch_readCommitted (hi : RaceInv cfg s₀ k c) (kind : LogKind) (target : Int) :
    IsBatch c.store kind target c.store.commitSeqCounter (c.store.readCommitted kind target) := by
  intro e
  rw [Store.mem_readCommitted]
  refine ⟨fun ⟨he, hkind, hlt⟩ => ⟨he, hkind, hlt, ?_⟩, fun ⟨he, hkind, hlt, _⟩ => ⟨he, hkind, hlt⟩⟩
  have hcounter : c.store.commitSeqCounter = c.history.txs.length := hi.inv.counter
  rw [hcounter]
  exact History.commitSeqNum_lt_length (hi.inv.mem_hot.mp he).1

omit [DecidableEq R] in
/-- **A commit becomes visible**: whatever the phase, what the Persist has read stays as it was. -/
theorem RaceInv.becomeVisible (hi : RaceInv cfg s₀ k c) {micros : Int} {rows : TxWrites R V}
    (h : c.store.commitTx micros rows = some s') (inFlight : Option (Int × TxWrites R V)) :
    RaceInv cfg s₀ k
      { c with store := s', history := c.history.commit micros rows, inFlight := inFlight } := by
  have hcold := Store.coldEq_commitTx h
  have hcounter := (Store.commitTx_hot h).1
  -- The new rows carry the counter's value, which every batch read so far stays below.
  refine ⟨hi.inv.commitTx (Store.commitTx_withCold h s₀), hi.grows.trans hcounter, ?_⟩
  have hphase := hi.phase
  cases hp : c.phase with
  | idle =>
      rw [hp] at hphase
      exact hcold.trans hphase
  | started target =>
      rw [hp] at hphase
      exact hcold.trans hphase
  | noop =>
      rw [hp] at hphase
      exact hcold.trans hphase
  | upsertsRead target upserts upsertsAt =>
      rw [hp] at hphase
      obtain ⟨hc, ⟨hk, hle⟩, hups⟩ := hphase
      exact ⟨hcold.trans hc, ⟨hk, hle.trans hcounter⟩, hups.commitTx hle h⟩
  | deletesRead target upserts deletes upsertsAt deletesAt =>
      rw [hp] at hphase
      obtain ⟨hc, ⟨hk, hud, hle⟩, hups, hdels⟩ := hphase
      exact ⟨hcold.trans hc, ⟨hk, hud, hle.trans hcounter⟩, hups.commitTx (hud.trans hle) h,
        hdels.commitTx hle h⟩
  | writing stamp todo =>
      rw [hp] at hphase
      obtain ⟨⟨hk, hud, hle⟩, upserts, deletes, persistedAt, hups, hdels, hgate, hnc, hwrites⟩ := hphase
      exact ⟨⟨hk, hud, hle.trans hcounter⟩, upserts, deletes, persistedAt,
        hups.commitTx (hud.trans hle) h, hdels.commitTx hle h, hgate, hnc,
        (hcold.foldl_exec todo).trans hwrites⟩

omit [DecidableEq R] in
theorem WriteStatement.exec_hot (st : WriteStatement R V) (s₀ s : Store R V) :
    (st.exec s).hot = s.hot ∧ (st.exec s).commitSeqCounter = s.commitSeqCounter ∧
      (st.exec s).withCold s₀ = s.withCold s₀ := by
  cases st <;> exact ⟨rfl, rfl, rfl⟩

omit [DecidableEq R] in
/-- The lock on the counter and the clock are not part of what is known of a phase. -/
theorem RaceInv.of_lock (hi : RaceInv cfg s₀ k c) (clock : Int) (inFlight : Option (Int × TxWrites R V)) :
    RaceInv cfg s₀ k { c with clock := clock, inFlight := inFlight } := by
  refine ⟨hi.inv, hi.grows, ?_⟩
  have hphase := hi.phase
  cases hp : c.phase <;> simpa [hp, PhaseInv] using hphase

omit [DecidableEq R] in
/-- **The gate** compares with the watermark the Persist began with: no commit has moved it. -/
theorem RaceInv.gate (hi : RaceInv cfg s₀ k c) (hnc : c.phase.NoClobber cfg c.store)
    (h : raceStep cfg c .gate = some c') : RaceInv cfg s₀ k c' := by
  obtain ⟨hinv, hgrows, hphase⟩ := hi
  simp only [raceStep] at h
  split at h
  · rename_i target upserts deletes upsertsAt deletesAt hp
    obtain rfl := Option.some.inj h
    rw [hp] at hphase hnc
    obtain ⟨hc, hbounds, hups, hdels⟩ := hphase
    refine ⟨hinv, hgrows, ?_⟩
    simp only
    split
    · exact hc
    · rename_i persistedAt seq hgate
      have hfresh := fun w hw => hc.noClobberAt (hnc (hgate ▸ rfl) w hw)
      rw [hc.persistWatermark_eq] at hgate
      refine ⟨hbounds, upserts, deletes, persistedAt, hups, hdels, hgate, hfresh, ?_⟩
      rw [← foldl_persistStatements]
      exact hc.foldl_exec _
  · simp at h

omit [DecidableEq R] in
/-- **A write statement** touches the cold tier alone, and the statements left lead to the same end. -/
theorem RaceInv.write (hi : RaceInv cfg s₀ k c) (h : raceStep cfg c .write = some c') :
    RaceInv cfg s₀ k c' := by
  obtain ⟨hinv, hgrows, hphase⟩ := hi
  simp only [raceStep] at h
  split at h
  · rename_i stamp st todo hp
    obtain rfl := Option.some.inj h
    rw [hp] at hphase
    obtain ⟨hhot, hcounter, hcold⟩ := st.exec_hot s₀ c.store
    have hbatch : ∀ kind target upTo batch, IsBatch c.store kind target upTo batch →
        IsBatch (st.exec c.store) kind target upTo batch := by
      intro kind target upTo batch hb
      unfold IsBatch
      rw [hhot]
      exact hb
    obtain ⟨hbounds, upserts, deletes, persistedAt, hups, hdels, hgate, hnc, hwrites⟩ := hphase
    refine ⟨?_, ?_, ?_, upserts, deletes, persistedAt, hbatch _ _ _ _ hups, hbatch _ _ _ _ hdels, hgate, hnc,
      hwrites⟩
    · rw [hcold]
      exact hinv
    · rw [hcounter]
      exact hgrows
    · rw [hcounter]
      exact hbounds
  · simp at h

omit [DecidableEq R] in
/-- **Step.** Every event keeps the invariant of the machine. -/
theorem RaceInv.step (hi : RaceInv cfg s₀ k c) {ev : RaceEvent R V} (hguard : GateNoClobber cfg c ev)
    (h : raceStep cfg c ev = some c') : RaceInv cfg s₀ k c' := by
  cases ev with
  | lockCounter micros rows =>
      simp only [raceStep, Option.ite_none_right_eq_some, Option.some.injEq] at h
      obtain ⟨-, rfl⟩ := h
      exact hi.of_lock micros _
  | becomeVisible =>
      obtain ⟨t, -, h⟩ := Option.bind_eq_some_iff.mp h
      obtain ⟨s', hs, rfl⟩ := Option.map_eq_some_iff.mp h
      exact hi.becomeVisible hs none
  | rollBack =>
      obtain rfl := Option.some.inj h
      exact hi.of_lock c.clock none
  | start now =>
      simp only [raceStep] at h
      split at h
      · rename_i hp
        have hphase := hi.phase
        rw [hp] at hphase
        simp only [Option.ite_none_right_eq_some, Option.some.injEq] at h
        obtain ⟨-, rfl⟩ := h
        refine ⟨hi.inv, hi.grows, ?_⟩
        simp only
        split
        · exact hphase
        · exact hphase
      · simp at h
  | readUpserts =>
      simp only [raceStep] at h
      split at h
      · rename_i target hp
        obtain rfl := Option.some.inj h
        have hphase := hi.phase
        rw [hp] at hphase
        exact ⟨hi.inv, hi.grows, hphase, ⟨hi.grows, le_refl _⟩, hi.isBatch_readCommitted .upsertLog target⟩
      · simp at h
  | readDeletes =>
      simp only [raceStep] at h
      split at h
      · rename_i target upserts upsertsAt hp
        obtain rfl := Option.some.inj h
        have hphase := hi.phase
        rw [hp] at hphase
        obtain ⟨hc, ⟨hk, hle⟩, hups⟩ := hphase
        exact ⟨hi.inv, hi.grows, hc, ⟨hk, hle, le_refl _⟩, hups, hi.isBatch_readCommitted .deleteLog target⟩
      · simp at h
  | gate => exact hi.gate hguard h
  | write => exact hi.write h

end Steps

/-! ## Main result -/

/-- Every entry of the visible transactions up to `W` is in a committed segment. -/
def PersistRace.CompleteUpTo (c : PersistRace R V) (W : Int) : Prop :=
  ∀ e ∈ c.history.entries, e.commitSeqNum ≤ W →
    ∃ seg ∈ c.store.persistSegments, seg.committed = true ∧ e ∈ c.store.segmentRows seg

/-- Of the transactions that become visible between the two log reads, none with a delete at or below the
    target comes at or after one with an upsert. -/
def History.NoTornCommit (H : History R V) (target upsertsAt deletesAt : Int) : Prop :=
  ∀ x ∈ H.entries, ∀ y ∈ H.entries, x.kind = .upsertLog → y.kind = .deleteLog →
    upsertsAt ≤ x.commitSeqNum → x.commitSeqNum ≤ y.commitSeqNum → y.commitSeqNum < deletesAt →
      target < y.commitMicros

instance [DecidableEq V] (c : PersistRace R V) (W : Int) : Decidable (c.CompleteUpTo W) :=
  inferInstanceAs (Decidable (∀ e ∈ c.history.entries, _ → ∃ seg ∈ c.store.persistSegments, _ ∧ _))

instance (H : History R V) (target upsertsAt deletesAt : Int) :
    Decidable (H.NoTornCommit target upsertsAt deletesAt) :=
  inferInstanceAs (Decidable (∀ x ∈ H.entries, ∀ y ∈ H.entries, _ → _ → _ → _ → _ → _))

section Main

variable {cfg : PersistConfig R V} {s₀ : Store R V} {k : Int} {c : PersistRace R V} {stamp : Stamp}

omit [DecidableEq R] in
/-- **Run.** Every run of the machine keeps its invariant. -/
theorem raceInv_run {H : History R V} (hinv : Inv s₀ H) {clock : Int} {events : List (RaceEvent R V)}
    (hmeets : Runs.Meets (raceStep cfg) (GateNoClobber cfg) (.begin s₀ H clock) events)
    (hrun : Runs.run (raceStep cfg) (.begin s₀ H clock) events = some c) :
    RaceInv cfg s₀ s₀.commitSeqCounter c := by
  refine Runs.invariant_of_step (fun _ _ _ hi hguard h => hi.step hguard h) ?_ hmeets hrun
  refine ⟨?_, le_refl _, Store.ColdEq.refl s₀⟩
  rw [PersistRace.begin, (Store.ColdEq.refl s₀).withCold_eq]
  exact hinv

omit [DecidableEq R] in
/-- What a finished Persist leaves in the cold tier: what was there, and its two batches. -/
theorem RaceInv.finished (hi : RaceInv cfg s₀ k c) (hdone : c.phase = .writing stamp []) :
    (k ≤ stamp.upsertsAt ∧ stamp.upsertsAt ≤ stamp.deletesAt) ∧
    ∃ upserts deletes,
      IsBatch c.store .upsertLog stamp.target stamp.upsertsAt upserts ∧
      IsBatch c.store .deleteLog stamp.target stamp.deletesAt deletes ∧
      (∃ a ∈ upserts ++ deletes, a.commitSeqNum = stamp.seq) ∧
      (∀ a ∈ upserts ++ deletes, a.commitSeqNum ≤ stamp.seq) ∧
      ∀ e, (∃ seg ∈ c.store.persistSegments, seg.committed = true ∧ e ∈ c.store.segmentRows seg) ↔
        (∃ v ∈ s₀.views, e ∈ v.rows) ∨ e ∈ upserts ++ deletes := by
  have hphase := hi.phase
  rw [hdone] at hphase
  obtain ⟨⟨hk, hud, -⟩, upserts, deletes, persistedAt, hups, hdels, hgate, hnc, hcold⟩ := hphase
  obtain ⟨-, -, hattained, hmax, -⟩ := computeCandidatePersistedAtGated_eq_some hgate
  have hok : s₀.SegmentsOk := hi.inv.segments.ok.of_eq rfl rfl rfl rfl
  have hwritten : (s₀.writePersist cfg stamp.target upserts deletes persistedAt stamp.seq).SegmentsOk ∧ _ :=
    Store.writePersist_views hok hnc
  refine ⟨⟨hk, hud⟩, upserts, deletes, hups, hdels, hattained, hmax, fun e => ?_⟩
  -- All statements are executed, so the cold tier is that of the undivided write.
  have hbatch : (∃ w ∈ persistWrites cfg stamp.target upserts deletes, e ∈ w.2) ↔
      e ∈ upserts ++ deletes := exists_mem_persistWrites_iff
  rw [← hbatch, ← Store.exists_mem_views_append hnc, ← hwritten.2, ← hcold.views_eq]
  constructor
  · rintro ⟨seg, hseg, -, he⟩
    exact ⟨c.store.view seg, List.mem_map_of_mem hseg, he⟩
  · rintro ⟨v, hv, he⟩
    obtain ⟨seg, hseg, rfl⟩ := List.mem_map.mp hv
    refine ⟨seg, hseg, hwritten.1.committed seg ?_, he⟩
    rw [← hcold.persistSegments]
    exact hseg

omit [DecidableEq R] in
theorem RaceInv.mem_batch (hi : RaceInv cfg s₀ k c) {kind : LogKind} {target upTo : Int}
    {batch : List (LogEntry R V)} (hb : IsBatch c.store kind target upTo batch) {e : LogEntry R V} :
    e ∈ batch ↔ e ∈ c.store.hot ∧ e.kind = kind ∧ e.commitMicros ≤ target ∧ e.commitSeqNum < upTo := by
  rw [hb e]
  refine and_congr_right (fun hhot => ?_)
  have he : e ∈ c.history.entries := (hi.inv.mem_hot.mp hhot).1
  rw [lt_satSucc_iff (History.commitMicros_inRange he).2]

/-- Without a torn commit the Persist is complete: below `W` an entry is purged and so persisted before, or
    hot and in the batch of its log. -/
theorem RaceInv.completeUpTo (hi : RaceInv cfg s₀ k c) (hdone : c.phase = .writing stamp [])
    (htorn : c.history.NoTornCommit stamp.target stamp.upsertsAt stamp.deletesAt) :
    c.CompleteUpTo stamp.seq := by
  obtain ⟨⟨-, hud⟩, upserts, deletes, hups, hdels, ⟨a, ha, hseq⟩, -, hstored⟩ := hi.finished hdone
  intro e he hle
  rw [hstored]
  by_cases hhot : e ∈ c.store.hot
  swap
  · exact Or.inl ((hi.inv.stored_iff e he).mp (hi.inv.persisted_of_not_mem_hot he hhot))
  right
  -- `a` is the entry that gave `W`: `e` is below it on both axes.
  rw [List.mem_append, hi.mem_batch hups, hi.mem_batch hdels] at ha ⊢
  have haH : a ∈ c.history.entries := by
    rcases ha with ha | ha
    · exact (hi.inv.mem_hot.mp ha.1).1
    · exact (hi.inv.mem_hot.mp ha.1).1
  have hmicros : e.commitMicros ≤ a.commitMicros := (History.commitSeqNum_le_iff he haH).mp (by omega)
  cases hkind : e.kind with
  | deleteLog =>
      refine Or.inr ⟨hhot, rfl, ?_, ?_⟩
      · rcases ha with ha | ha <;> omega
      · rcases ha with ha | ha <;> omega
  | upsertLog =>
      refine Or.inl ⟨hhot, rfl, ?_, ?_⟩
      · rcases ha with ha | ha <;> omega
      · rcases ha with ha | ⟨hahot, hadel, hatarget, halt⟩
        · omega
        · by_contra hlate
          have := htorn e he a haH hkind hadel (by omega) (by omega) halt
          omega

omit [DecidableEq R] in
/-- A torn commit leaves its upsert out although `W` reaches it. -/
theorem RaceInv.noTornCommit (hi : RaceInv cfg s₀ k c) (hdone : c.phase = .writing stamp [])
    (hold : ∀ v ∈ s₀.views, ∀ e ∈ v.rows, e.commitSeqNum < k) (hcomplete : c.CompleteUpTo stamp.seq) :
    c.history.NoTornCommit stamp.target stamp.upsertsAt stamp.deletesAt := by
  obtain ⟨⟨hk, -⟩, upserts, deletes, hups, hdels, -, hmax, hstored⟩ := hi.finished hdone
  intro x hx y hy hxkind hykind hlate hxy hlt
  -- Suppose the delete is at or below the target: it is read and stamped, the upsert is in neither batch.
  by_contra htarget
  have hnew : ∀ e ∈ c.history.entries, stamp.upsertsAt ≤ e.commitSeqNum → ¬ ∃ v ∈ s₀.views, e ∈ v.rows := by
    rintro e - hge ⟨v, hv, he⟩
    have := hold v hv e he
    omega
  have hyhot : y ∈ c.store.hot := by
    by_contra hcold
    exact hnew y hy (by omega) ((hi.inv.stored_iff y hy).mp (hi.inv.persisted_of_not_mem_hot hy hcold))
  have hydel : y ∈ deletes := (hi.mem_batch hdels).mpr ⟨hyhot, hykind, by omega, hlt⟩
  have hW := hmax y (List.mem_append_right _ hydel)
  rcases (hstored x).mp (hcomplete x hx (by omega)) with hcold | hbatch
  · exact hnew x hx hlate hcold
  · rcases List.mem_append.mp hbatch with hb | hb
    · have := (hi.mem_batch hups).mp hb
      omega
    · have := ((hi.mem_batch hdels).mp hb).2.1
      rw [hxkind] at this
      cases this

/-- **Completeness of a Persist among concurrent commits.** In every run of the machine, from every state the
    lifecycle reaches, the finished Persist is complete up to the `W` it stamped exactly if no commit is torn
    between its two log reads. -/
theorem completeUpTo_iff_noTornCommit (cfg : PersistConfig R V) (ops : List (Op R V)) (s₀ : Store R V)
    (hmeets : Runs.Meets (step cfg) (NoClobber cfg) Store.init ops)
    (hrun : Runs.run (step cfg) Store.init ops = some s₀)
    (clock : Int) (events : List (RaceEvent R V)) (c : PersistRace R V) (stamp : Stamp)
    (hgate : Runs.Meets (raceStep cfg) (GateNoClobber cfg) (.begin s₀ (historyOf ops) clock) events)
    (hrace : Runs.run (raceStep cfg) (.begin s₀ (historyOf ops) clock) events = some c)
    (hdone : c.phase = .writing stamp []) :
    c.CompleteUpTo stamp.seq ↔
      c.history.NoTornCommit stamp.target stamp.upsertsAt stamp.deletesAt := by
  have hinv := inv_run hmeets hrun
  have hi := raceInv_run hinv hgate hrace
  refine ⟨hi.noTornCommit hdone (fun v hv e he => ?_), hi.completeUpTo hdone⟩
  rw [hinv.counter]
  exact History.commitSeqNum_lt_length (hinv.stored v hv e he).1

end Main

/-- Delete row 2 and upsert row 1 in one transaction. -/
def replaceRow : TxWrites Nat Nat := ⟨[⟨2, .delete, 0⟩, ⟨1, .upsert 5, 1⟩], by decide⟩

/-- The statements of a Persist with one segment of each log. -/
def writeAll : List (RaceEvent Nat Nat) := .gate :: List.replicate 9 .write

/-- A transaction that replaces row 2 by row 1 takes its clock reading before the Persist starts and becomes
    visible between the two log reads. -/
def tornCommitRun : List (RaceEvent Nat Nat) :=
  [.lockCounter 5 (.single 2 (.upsert 7) 0), .becomeVisible, .lockCounter 10 replaceRow, .start 20,
    .readUpserts, .becomeVisible, .readDeletes] ++ writeAll

/-- Its delete is persisted and stamps `W = 1`; its upsert is in no segment. -/
theorem tornCommitRun_not_completeUpTo :
    ∃ c, Runs.run (raceStep oneByteRows) (.begin Store.init History.empty 0) tornCommitRun = some c ∧
      c.phase = .writing ⟨20, 1, 1, 2⟩ [] ∧ ¬ c.CompleteUpTo 1 := by
  have hend : (Runs.run (raceStep oneByteRows) (.begin Store.init History.empty 0) tornCommitRun).map
      (fun c => decide (c.phase = .writing ⟨20, 1, 1, 2⟩ [] ∧ ¬ c.CompleteUpTo 1)) = some true := by
    decide +kernel
  obtain ⟨c, hrun, hend⟩ := Option.map_eq_some_iff.mp hend
  exact ⟨c, hrun, of_decide_eq_true hend⟩

/-- The same transaction becomes visible before the first log read, and another one between the reads. -/
def wholeCommitRun : List (RaceEvent Nat Nat) :=
  [.lockCounter 5 (.single 2 (.upsert 7) 0), .becomeVisible, .lockCounter 10 replaceRow, .start 20,
    .becomeVisible, .readUpserts, .lockCounter 30 replaceRow, .becomeVisible, .readDeletes] ++ writeAll

/-- A commit past the target between the reads tears nothing. -/
theorem wholeCommitRun_completeUpTo :
    ∃ c, Runs.run (raceStep oneByteRows) (.begin Store.init History.empty 0) wholeCommitRun = some c ∧
      c.phase = .writing ⟨20, 1, 2, 3⟩ [] ∧ c.CompleteUpTo 1 := by
  have hend : (Runs.run (raceStep oneByteRows) (.begin Store.init History.empty 0) wholeCommitRun).map
      (fun c => decide (c.phase = .writing ⟨20, 1, 2, 3⟩ [] ∧ c.history.NoTornCommit 20 2 3)) =
        some true := by decide +kernel
  obtain ⟨c, hrun, hend⟩ := Option.map_eq_some_iff.mp hend
  obtain ⟨hdone, htorn⟩ := of_decide_eq_true hend
  exact ⟨c, hrun, hdone, (completeUpTo_iff_noTornCommit oneByteRows [] Store.init trivial rfl 0
    wholeCommitRun c ⟨20, 1, 2, 3⟩ (by decide +kernel) hrun hdone).mpr htorn⟩

end Penca
