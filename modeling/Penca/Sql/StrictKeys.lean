import Penca.Lib.Runs
import Penca.Sql.Insert
import Penca.Sql.Update

/-!
# `Sql.StrictKeys` — strict keys when many connections write

Any number of connections run strict `INSERT`s, `UPDATE`s that set primary key columns and `DELETE`s in auto-commit mode.
The probe and the write of a statement are two calls to two services, and `DELETE`s run beside them without a lock, so
nothing is atomic; but every statement that can create a row holds the table's advisory lock from before its probe until
after its write, and a `DELETE` creates none. What the probe found absent is therefore still absent when the write commits.

The probe looks for identities, which are hashes of the keys as they were sent. A row whose key Postgres rounds is stored
under the identity of a key it no longer has, and the probe for the key it does have misses it.

## Contents
- **The system**: one phase per connection, the lock, the committed history.
- **The invariant** of every reachable state, and what the table has under it.
- **Main results:** `strict_keys` and `strict_keys_fails`.
-/

namespace Penca.Sql

variable {N V R C : Type} [DecidableEq N] [DecidableEq V] [DecidableEq R] [DecidableEq C]

/-! ## The system -/

/-- A statement of a connection. -/
inductive Stmt (N V : Type) where
  | insert (columns : List N) (source : Collected N V)
  | update (update : Update N V)
  | delete (selection : List V → Bool)

/-- What a statement with a collision check is about to do. -/
structure Pending (N V R : Type) where
  targets : List R
  change : RowChange N V

/-- Where a connection is in its statement. -/
inductive Phase (N V R : Type) where
  | idle
  /-- A `DELETE` before its write. -/
  | deleting (change : RowChange N V)
  /-- Before `pg_advisory_lock`. -/
  | waiting (pending : Pending N V R)
  /-- Inside the lock, before the probe. -/
  | holding (pending : Pending N V R)
  /-- Inside the lock, after a probe that found nothing. -/
  | probed (pending : Pending N V R)
  /-- Inside the lock, done. -/
  | finishing

/-- The table, its advisory lock and the connections. -/
structure Server (N V R C : Type) where
  history : History R (List V)
  lock : Option C
  conn : C → Phase N V R

/-- One step of a connection. -/
inductive Event (N V C : Type) where
  /-- Run a statement up to its write or its lock: reads the table, without a lock. -/
  | start (c : C) (stmt : Stmt N V)
  | lock (c : C)
  | probe (c : C)
  /-- The `WriteData` call: commits or fails. -/
  | send (c : C) (clock : CallClock)
  /-- A call fails before it commits. -/
  | fail (c : C)
  | unlock (c : C)

def Server.setConn (s : Server N V R C) (c : C) (phase : Phase N V R) : Server N V R C :=
  { s with conn := Function.update s.conn c phase }

/-- No statement runs. -/
def Server.init (H : History R (List V)) : Server N V R C := ⟨H, none, fun _ => .idle⟩

/-- What a statement prepares from the table it reads; `none` for an `UPDATE` that sets no key column. -/
def prepare (K : Kernel V R) (m : TableMeta N) (H : History R (List V)) :
    Stmt N V → Option (Except (Status N V R) (Prepared N V R))
  | .insert columns source => some (prepareInsert K m (strictInsert columns source))
  | .update update         => if update.setsKey m then some (prepareUpdate K m H update) else none
  | .delete selection      => some (prepareDelete K m H selection)

/-- One step. -/
def step (K : Kernel V R) (m : TableMeta N) (s : Server N V R C) : Event N V C → Option (Server N V R C)
  | .start c stmt =>
      match s.conn c, prepare K m s.history stmt with
      | .idle, some (.ok (.send change _))                 => some (s.setConn c (.deleting change))
      | .idle, some (.ok (.checkAndSend targets change _)) => some (s.setConn c (.waiting ⟨targets, change⟩))
      | .idle, some (.ok .nothing)                         => some s
      | .idle, some (.error _)                             => some s
      | _, _                                               => none
  | .lock c =>
      match s.conn c, s.lock with
      | .waiting pending, none => some { s.setConn c (.holding pending) with lock := some c }
      | _, _                   => none
  | .probe c =>
      match s.conn c with
      | .holding pending =>
          some (s.setConn c (if collisions s.history pending.targets = [] then .probed pending else .finishing))
      | _                => none
  | .send c clock =>
      match s.conn c with
      | .probed pending  =>
          some { s.setConn c .finishing with history := (sendChange K m clock s.history pending.change).2 }
      | .deleting change => some { s.setConn c .idle with history := (sendChange K m clock s.history change).2 }
      | _                => none
  | .fail c =>
      match s.conn c with
      | .deleting _ => some (s.setConn c .idle)
      | .waiting _  => some (s.setConn c .idle)
      | .holding _  => some (s.setConn c .finishing)
      | .probed _   => some (s.setConn c .finishing)
      | _           => none
  | .unlock c =>
      match s.conn c with
      | .finishing => some { s.setConn c .idle with lock := none }
      | _          => none

/-! ## Prepared changes -/

/-- The change writes every identity it was probed for, and its rows are rows of the table. -/
structure Pending.WellFormed (K : Kernel V R) (m : TableMeta N) (pending : Pending N V R) : Prop where
  covers : ∀ u ∈ pending.targets, u ∈ (pending.change.written K m).map Prod.fst
  shaped : ∀ batch ∈ pending.change.upserts, batch.fields = m.arrowSchema

section Prepared

variable {K : Kernel V R} {m : TableMeta N} {H : History R (List V)}

theorem upserts_of_prepare {stmt : Stmt N V} {change : RowChange N V} {n : Nat}
    (h : prepare K m H stmt = some (.ok (.send change n))) : change.upserts = [] := by
  cases stmt with
  | insert columns source =>
      have h : prepareInsert K m (strictInsert columns source) = .ok (.send change n) := Option.some.inj h
      by_cases hrows : source.rows = []
      · rcases prepareInsert_of_rows_eq_nil K m columns hrows with hok | ⟨e, herr⟩
        · rw [hok] at h
          cases h
        · rw [herr] at h
          cases h
      · obtain ⟨-, _, -, -, -, -, hprepared⟩ := (prepareInsert_eq_ok hrows).mp h
        cases hprepared
  | update update =>
      simp only [prepare] at h
      split at h
      · rename_i hkey
        rcases prepareUpdate_eq_ok (Option.some.inj h) with ⟨-, hp⟩ | ⟨-, hkey', -⟩ | ⟨-, -, hp⟩
        · cases hp
        · rw [hkey] at hkey'
          cases hkey'
        · cases hp
      · cases h
  | delete selection =>
      simp only [prepare, prepareDelete, Option.some.injEq] at h
      split at h
      · cases h
      split at h
      · cases h
      split at h
      · cases h
      · cases h
        rfl

/-- What a checked statement is about to write is well-formed. -/
theorem wellFormed_of_prepare {stmt : Stmt N V} {targets : List R} {change : RowChange N V} {n : Nat}
    (h : prepare K m H stmt = some (.ok (.checkAndSend targets change n))) :
    (⟨targets, change⟩ : Pending N V R).WellFormed K m := by
  cases stmt with
  | insert columns source =>
      have h : prepareInsert K m (strictInsert columns source) = .ok (.checkAndSend targets change n) := Option.some.inj h
      by_cases hrows : source.rows = []
      · rcases prepareInsert_of_rows_eq_nil K m columns hrows with hok | ⟨e, herr⟩
        · rw [hok] at h
          cases h
        · rw [herr] at h
          cases h
      · obtain ⟨-, harity, -, -, -, -, hprepared⟩ := (prepareInsert_eq_ok hrows).mp h
        cases hprepared
        refine ⟨fun u hu => ?_, fun batch hbatch => ?_⟩
        · rw [RowChange.map_fst_written, List.flatMap_singleton]
          exact hu
        · rw [List.mem_singleton.mp hbatch]
          rfl
  | update update =>
      simp only [prepare] at h
      split at h
      · rcases prepareUpdate_eq_ok (Option.some.inj h) with ⟨-, hp⟩ | ⟨-, -, hp⟩ | ⟨-, -, hp⟩
        · cases hp
        · cases hp
        · cases hp
          refine ⟨fun u hu => ?_, fun batch hbatch => ?_⟩
          · rw [RowChange.map_fst_written, List.flatMap_singleton]
            exact (List.mem_filter.mp hu).1
          · rw [List.mem_singleton.mp hbatch]
            rfl
      · cases h
  | delete selection =>
      simp only [prepare, prepareDelete, Option.some.injEq] at h
      split at h
      · cases h
      split at h
      · cases h
      split at h
      · cases h
      · cases h

/-! ## What a write can do -/

theorem liveRow_sendChange_of_upserts_nil {clock : CallClock} {change : RowChange N V} (hups : change.upserts = []) {u : R}
    (hu : liveRow H u = none) : liveRow (sendChange K m clock H change).2 u = none := by
  rcases sendChange_cases K m clock H change with ⟨H', hwrite, hsend⟩ | ⟨e, -, hsend⟩
  · rw [hsend]
    have hnot : u ∉ (change.written K m).map Prod.fst := by
      rw [RowChange.written, hups]
      exact List.not_mem_nil
    show liveRow H' u = none
    rw [liveRow_writeData_of_not_written hwrite hnot, hu, ite_self]
  · rw [hsend]
    exact hu

end Prepared

/-! ## The invariant -/

/-- What holds of a connection in each phase. -/
def PhaseOk (K : Kernel V R) (m : TableMeta N) (H : History R (List V)) (lock : Option C) (c : C) : Phase N V R → Prop
  | .idle            => True
  | .deleting change => change.upserts = []
  | .waiting pending => pending.WellFormed K m
  | .holding pending => pending.WellFormed K m ∧ lock = some c
  | .probed pending  => pending.WellFormed K m ∧ lock = some c ∧ ∀ u ∈ pending.targets, liveRow H u = none
  | .finishing       => lock = some c

section Invariant

variable {K : Kernel V R} {m : TableMeta N} {s s' : Server N V R C}

omit [DecidableEq C] in
/-- Only the connection that has the lock depends on the table, and on what is absent from it. -/
theorem PhaseOk.change {H H' : History R (List V)} {lock lock' : Option C} {c : C} {phase : Phase N V R}
    (h : PhaseOk K m H lock c phase)
    (hlock : lock = some c → lock' = some c ∧ ∀ u, liveRow H u = none → liveRow H' u = none) :
    PhaseOk K m H' lock' c phase := by
  cases phase with
  | idle => trivial
  | deleting change => exact h
  | waiting pending => exact h
  | holding pending => exact ⟨h.1, (hlock h.2).1⟩
  | probed pending =>
      obtain ⟨hwf, hown, habsent⟩ := h
      exact ⟨hwf, (hlock hown).1, fun u hu => (hlock hown).2 u (habsent u hu)⟩
  | finishing => exact (hlock h).1

variable (K m) in
/-- The invariant of the server. -/
def Inv (s : Server N V R C) : Prop := ∀ c, PhaseOk K m s.history s.lock c (s.conn c)

omit [DecidableEq C] in
theorem Inv.of_conn (h : Inv K m s) {c : C} {phase : Phase N V R} (hconn : s.conn c = phase) :
    PhaseOk K m s.history s.lock c phase := hconn ▸ h c

/-- A connection moves; what it does to the table and the lock keeps what the others rely on. -/
theorem Inv.move (h : Inv K m s) {c : C} {phase : Phase N V R} {H' : History R (List V)} {lock' : Option C}
    (hphase : PhaseOk K m H' lock' c phase)
    (hother : ∀ d, d ≠ c → s.lock = some d → lock' = some d ∧ ∀ u, liveRow s.history u = none → liveRow H' u = none) :
    Inv K m ⟨H', lock', Function.update s.conn c phase⟩ := by
  intro d
  by_cases hd : d = c
  · subst hd
    simpa using hphase
  · have hok : PhaseOk K m H' lock' d (s.conn d) := (h d).change (hother d hd)
    simpa [hd] using hok

theorem Inv.setConn (h : Inv K m s) {c : C} {phase : Phase N V R} (hphase : PhaseOk K m s.history s.lock c phase) :
    Inv K m (s.setConn c phase) :=
  h.move hphase (fun _ _ hlock => ⟨hlock, fun _ hu => hu⟩)

/-- The connection that has the lock moves: no other relies on the table and the lock. -/
theorem Inv.moveOwner (h : Inv K m s) {c : C} {phase : Phase N V R} {H' : History R (List V)} {lock' : Option C}
    (hlock : s.lock = some c) (hphase : PhaseOk K m H' lock' c phase) :
    Inv K m ⟨H', lock', Function.update s.conn c phase⟩ := by
  refine h.move hphase (fun d hd hown => absurd ?_ hd)
  rw [hlock] at hown
  exact (Option.some.inj hown).symm

/-- **Every step keeps the invariant.** -/
theorem inv_step {e : Event N V C} (h : Inv K m s) (hstep : step K m s e = some s') : Inv K m s' := by
  cases e with
  | start c stmt =>
      simp only [step] at hstep
      split at hstep
      · rename_i hprepare
        cases hstep
        exact h.setConn (upserts_of_prepare hprepare)
      · rename_i hprepare
        cases hstep
        exact h.setConn (wellFormed_of_prepare hprepare)
      · cases hstep
        exact h
      · cases hstep
        exact h
      · cases hstep
  | lock c =>
      simp only [step] at hstep
      split at hstep
      · rename_i pending hconn hfree
        cases hstep
        refine h.move ⟨h.of_conn hconn, rfl⟩ (fun d _ hown => ?_)
        rw [hfree] at hown
        cases hown
      · cases hstep
  | probe c =>
      simp only [step] at hstep
      split at hstep
      · rename_i pending hconn
        cases hstep
        obtain ⟨hwf, hlock⟩ := h.of_conn hconn
        refine h.setConn ?_
        split
        · rename_i hnone
          exact ⟨hwf, hlock, collisions_eq_nil.mp hnone⟩
        · exact hlock
      · cases hstep
  | send c clock =>
      simp only [step] at hstep
      split at hstep
      · -- A checked write: its connection has the lock.
        rename_i pending hconn
        cases hstep
        obtain ⟨-, hlock, -⟩ := h.of_conn hconn
        exact h.moveOwner hlock hlock
      · -- A `DELETE`, without the lock: what was absent stays absent.
        rename_i change hconn
        cases hstep
        have hups : change.upserts = [] := h.of_conn hconn
        exact h.move trivial (fun d _ hown => ⟨hown, fun u hu => liveRow_sendChange_of_upserts_nil hups hu⟩)
      · cases hstep
  | fail c =>
      simp only [step] at hstep
      split at hstep
      · cases hstep
        exact h.setConn trivial
      · cases hstep
        exact h.setConn trivial
      · rename_i pending hconn
        cases hstep
        exact h.setConn (h.of_conn hconn).2
      · rename_i pending hconn
        cases hstep
        exact h.setConn (h.of_conn hconn).2.1
      · cases hstep
  | unlock c =>
      simp only [step] at hstep
      split at hstep
      · rename_i hconn
        cases hstep
        exact h.moveOwner (h.of_conn hconn) trivial
      · cases hstep

end Invariant

/-! ## What a step writes -/

/-- The write a step commits; a `DELETE` is probed for nothing. -/
def Server.commits (K : Kernel V R) (m : TableMeta N) (s : Server N V R C) : Event N V C → Option (Pending N V R)
  | .send c clock =>
      (match s.conn c with
        | .probed pending  => some pending
        | .deleting change => some ⟨[], change⟩
        | _                => none).filter (fun pending => (writeData K m clock s.history pending.change).isOk)
  | _             => none

/-- The step is the successful write of a strict `INSERT` of the identity, or of an `UPDATE` that moves a row to it while no
    row it matched had it. -/
def Wins (K : Kernel V R) (m : TableMeta N) (s : Server N V R C) (e : Event N V C) (u : R) : Prop :=
  ∃ pending ∈ s.commits K m e, u ∈ pending.targets

/-- The step is the successful write of a statement that deletes the row of the identity, or moves it away. -/
def Removes (K : Kernel V R) (m : TableMeta N) (s : Server N V R C) (e : Event N V C) (u : R) : Prop :=
  ∃ pending ∈ s.commits K m e, u ∈ pending.change.deleted K m ∧ u ∉ (pending.change.written K m).map Prod.fst

/-- The keys the step writes are still the keys of their identities when they are read back. -/
def KeepsKeys (K : Kernel V R) (m : TableMeta N) (s : Server N V R C) (e : Event N V C) : Prop :=
  ∀ pending ∈ s.commits K m e, ∀ p ∈ pending.change.written K m, m.identity K p.2 = p.1

instance (K : Kernel V R) (m : TableMeta N) (s : Server N V R C) (e : Event N V C) : Decidable (KeepsKeys K m s e) :=
  inferInstanceAs (Decidable (∀ pending ∈ s.commits K m e, ∀ p ∈ pending.change.written K m, m.identity K p.2 = p.1))

instance (K : Kernel V R) (m : TableMeta N) (s : Server N V R C) (e : Event N V C) (u : R) : Decidable (Wins K m s e u) :=
  inferInstanceAs (Decidable (∃ pending ∈ s.commits K m e, u ∈ pending.targets))

/-- The rows of the table are full and under the identities of their keys. -/
def Stored (K : Kernel V R) (m : TableMeta N) (H : History R (List V)) : Prop :=
  ∀ u row, liveRow H u = some row → row.length = m.arrowSchema.length ∧ m.identity K row = u

/-- No live row has the key of a row of the identity. -/
def KeyAbsent (K : Kernel V R) (m : TableMeta N) (H : History R (List V)) (u : R) : Prop :=
  ∀ row : List V, row.length = m.arrowSchema.length → m.identity K row = u →
    ∀ u' live, liveRow H u' = some live → m.key live ≠ m.key row

section Writes

variable {K : Kernel V R} {m : TableMeta N} {s s' : Server N V R C} {e : Event N V C} {u : R}

omit [DecidableEq C] in
/-- A committed write is the write of a connection that has probed, or of a `DELETE`. -/
theorem commits_eq_some {pending : Pending N V R} (h : s.commits K m e = some pending) :
    ∃ c clock H', e = .send c clock ∧ writeData K m clock s.history pending.change = .ok H' ∧
      (s.conn c = .probed pending ∨ s.conn c = .deleting pending.change ∧ pending.targets = []) := by
  cases e with
  | send c clock =>
      simp only [Server.commits, Option.filter_eq_some_iff] at h
      obtain ⟨hsend, hok⟩ := h
      cases hwrite : writeData K m clock s.history pending.change with
      | error e =>
          rw [hwrite] at hok
          cases hok
      | ok H' =>
          refine ⟨c, clock, H', rfl, hwrite, ?_⟩
          split at hsend
          · rename_i hconn
            cases hsend
            exact Or.inl hconn
          · rename_i hconn
            cases hsend
            exact Or.inr ⟨hconn, rfl⟩
          · cases hsend
  | start c stmt => cases h
  | lock c => cases h
  | probe c => cases h
  | fail c => cases h
  | unlock c => cases h

/-- A step that commits a write leaves what it wrote; the others leave the table as it is. -/
theorem history_of_step (hstep : step K m s e = some s') :
    (∃ pending clock, s.commits K m e = some pending ∧ writeData K m clock s.history pending.change = .ok s'.history) ∨
      (s.commits K m e = none ∧ s'.history = s.history) := by
  cases e with
  | send c clock =>
      have hsent : ∀ pending : Pending N V R, s'.history = (sendChange K m clock s.history pending.change).2 →
          s.commits K m (.send c clock) =
            (some pending).filter (fun p => (writeData K m clock s.history p.change).isOk) →
          (∃ pending clock', s.commits K m (.send c clock) = some pending ∧
              writeData K m clock' s.history pending.change = .ok s'.history) ∨
            (s.commits K m (.send c clock) = none ∧ s'.history = s.history) := by
        intro pending hhistory hcommits
        rcases sendChange_cases K m clock s.history pending.change with ⟨H', hwrite, hsend⟩ | ⟨err, hwrite, hsend⟩
        · refine Or.inl ⟨pending, clock, ?_, ?_⟩
          · rw [hcommits, Option.filter_some, hwrite]
            rfl
          · rw [hhistory, hsend, hwrite]
        · refine Or.inr ⟨?_, ?_⟩
          · rw [hcommits, Option.filter_some, hwrite]
            rfl
          · rw [hhistory, hsend]
      simp only [step] at hstep
      split at hstep
      · rename_i pending hconn
        cases hstep
        exact hsent pending rfl (by simp only [Server.commits, hconn])
      · rename_i change hconn
        cases hstep
        exact hsent ⟨[], change⟩ rfl (by simp only [Server.commits, hconn])
      · cases hstep
  | start c stmt =>
      refine Or.inr ⟨rfl, ?_⟩
      simp only [step] at hstep
      split at hstep <;> cases hstep <;> rfl
  | lock c =>
      refine Or.inr ⟨rfl, ?_⟩
      simp only [step] at hstep
      split at hstep <;> cases hstep
      rfl
  | probe c =>
      refine Or.inr ⟨rfl, ?_⟩
      simp only [step] at hstep
      split at hstep <;> cases hstep
      rfl
  | fail c =>
      refine Or.inr ⟨rfl, ?_⟩
      simp only [step] at hstep
      split at hstep <;> cases hstep <;> rfl
  | unlock c =>
      refine Or.inr ⟨rfl, ?_⟩
      simp only [step] at hstep
      split at hstep <;> cases hstep
      rfl

omit [DecidableEq C] in
/-- What a winning write was probed for is absent, and the write covers it. -/
theorem Inv.of_commits (h : Inv K m s) {pending : Pending N V R} (hcommits : s.commits K m e = some pending)
    (hu : u ∈ pending.targets) : pending.WellFormed K m ∧ liveRow s.history u = none := by
  obtain ⟨c, clock, H', -, -, hconn | ⟨-, htargets⟩⟩ := commits_eq_some hcommits
  · obtain ⟨hwf, -, habsent⟩ := h.of_conn hconn
    exact ⟨hwf, habsent u hu⟩
  · rw [htargets] at hu
    cases hu

theorem Inv.live_of_wins (h : Inv K m s) (hwins : Wins K m s e u) (hstep : step K m s e = some s') :
    liveRow s'.history u ≠ none := by
  obtain ⟨pending, hcommits, hu⟩ := hwins
  obtain ⟨hwf, -⟩ := h.of_commits hcommits hu
  rcases history_of_step hstep with ⟨pending', clock, hcommits', hwrite⟩ | ⟨hnone, -⟩
  · rw [hcommits] at hcommits'
    cases hcommits'
    obtain ⟨p, hp, rfl⟩ := List.mem_map.mp (hwf.covers u hu)
    rw [liveRow_writeData_of_written hwrite hp]
    exact Option.some_ne_none _
  · rw [hnone] at hcommits
    cases hcommits

/-- A live row disappears only in a step that removes it. -/
theorem removes_of_step (hstep : step K m s e = some s') (hu : liveRow s.history u ≠ none)
    (hgone : liveRow s'.history u = none) : Removes K m s e u := by
  rcases history_of_step hstep with ⟨pending, clock, hcommits, hwrite⟩ | ⟨-, hsame⟩
  · have hnot : u ∉ (pending.change.written K m).map Prod.fst := by
      intro hmem
      obtain ⟨p, hp, rfl⟩ := List.mem_map.mp hmem
      rw [liveRow_writeData_of_written hwrite hp] at hgone
      cases hgone
    refine ⟨pending, hcommits, ?_, hnot⟩
    by_contra hdel
    rw [liveRow_writeData_of_not_written hwrite hnot, if_neg hdel] at hgone
    exact hu hgone
  · rw [hsame] at hgone
    exact absurd hgone hu

/-- A run in which a live row disappears has a step that removes it. -/
theorem removes_of_run {ops : List (Event N V C)} (hrun : Runs.run (step K m) s ops = some s')
    (hu : liveRow s.history u ≠ none) (hgone : liveRow s'.history u = none) :
    ∃ before e after t, ops = before ++ e :: after ∧ Runs.run (step K m) s before = some t ∧ Removes K m t e u := by
  induction ops generalizing s with
  | nil =>
      cases hrun
      exact absurd hgone hu
  | cons e ops ih =>
      obtain ⟨t, hstep, hrest⟩ := Runs.run_cons_eq_some.mp hrun
      by_cases ht : liveRow t.history u = none
      · exact ⟨[], e, ops, s, rfl, rfl, removes_of_step hstep hu ht⟩
      · obtain ⟨before, e', after, t', rfl, hbefore, hremoves⟩ := ih hrest ht
        exact ⟨e :: before, e', after, t', rfl, Runs.run_cons_eq_some.mpr ⟨t, hstep, hbefore⟩, hremoves⟩

/-- A write that keeps the keys keeps the rows under the identities of their keys. -/
theorem stored_step (h : Stored K m s.history) (hkeeps : KeepsKeys K m s e) (hstep : step K m s e = some s') :
    Stored K m s'.history := by
  rcases history_of_step hstep with ⟨pending, clock, hcommits, hwrite⟩ | ⟨-, hsame⟩
  · refine stored_writeData hwrite (fun p hp => ⟨?_, hkeeps pending hcommits p hp⟩) h
    obtain ⟨batch, -, hp⟩ := List.mem_flatMap.mp hp
    obtain ⟨row, -, rfl⟩ := List.mem_map.mp hp
    exact List.length_map _
  · rw [hsame]
    exact h

omit [DecidableEq V] in
/-- Where the identity is absent, so is the key. -/
theorem Stored.keyAbsent {H : History R (List V)} (h : Stored K m H) (hnone : liveRow H u = none) : KeyAbsent K m H u := by
  intro row hwidth hid u' live hlive hkey
  obtain ⟨hlivewidth, hliveid⟩ := h u' live hlive
  have hsame := TableMeta.identity_eq_of_key_eq K hlivewidth hwidth hkey
  rw [hliveid, hid] at hsame
  rw [hsame, hnone] at hlive
  cases hlive

end Writes

/-! ## Strict keys -/

section Main

variable {K : Kernel V R} {m : TableMeta N}

/-- **Strict keys.** In every run a write that wins an identity finds it absent, and between two writes that win it the row
    is deleted or moved away. While the writes keep the keys, no live row has the key either. -/
theorem strict_keys (T : Table K m) (ops : List (Event N V C)) :
    Runs.Meets (step K m) (fun s e => ∀ u, Wins K m s e u → liveRow s.history u = none) (Server.init T.history) ops ∧
    (∀ (pre mid : List (Event N V C)) s e s₁ s₂ e₂ u, Runs.run (step K m) (Server.init T.history) pre = some s →
      Wins K m s e u → step K m s e = some s₁ → Runs.run (step K m) s₁ mid = some s₂ → Wins K m s₂ e₂ u →
      ∃ before e' after t, mid = before ++ e' :: after ∧ Runs.run (step K m) s₁ before = some t ∧ Removes K m t e' u) ∧
    (Runs.Meets (step K m) (KeepsKeys K m) (Server.init T.history) ops →
      Runs.Meets (step K m) (fun s e => ∀ u, Wins K m s e u → KeyAbsent K m s.history u) (Server.init T.history) ops) := by
  have hinit : Inv K m (Server.init T.history : Server N V R C) := fun _ => trivial
  have habsent : ∀ (s : Server N V R C) e u, Inv K m s → Wins K m s e u → liveRow s.history u = none := by
    rintro s e u h ⟨pending, hcommits, hu⟩
    exact (h.of_commits hcommits hu).2
  refine ⟨?_, ?_, fun hkeeps => ?_⟩
  · exact Runs.Meets.of_inv (fun s e s' h _ hstep => inv_step h hstep) (fun s e h _ u => habsent s e u h) hinit
      (Runs.meets_of_forall (G := fun _ _ => True) (fun _ _ => trivial) _ ops)
  · intro pre mid s e s₁ s₂ e₂ u hpre hwins hstep hmid hwins₂
    have hreach : ∀ {s s' : Server N V R C} {os}, Inv K m s → Runs.run (step K m) s os = some s' → Inv K m s' :=
      fun h hrun => Runs.invariant_of_step (fun s e s' h _ hstep => inv_step h hstep) h
        (Runs.meets_of_forall (G := fun _ _ => True) (fun _ _ => trivial) _ _) hrun
    have hs := hreach hinit hpre
    have hs₂ := hreach (inv_step hs hstep) hmid
    exact removes_of_run hmid (hs.live_of_wins hwins hstep) (habsent s₂ e₂ u hs₂ hwins₂)
  · refine Runs.Meets.of_inv (I := fun s => Inv K m s ∧ Stored K m s.history)
      (fun s e s' h hkeep hstep => ⟨inv_step h.1 hstep, stored_step h.2 hkeep hstep⟩) ?_ ⟨hinit, ?_⟩ hkeeps
    · intro s e h _ u hwins
      exact h.2.keyAbsent (habsent s e u h.1 hwins)
    · exact fun u row hrow => ⟨T.width u row hrow, T.keyed u row hrow⟩

end Main

/-- `INSERT INTO t VALUES (a, b)` with two integers. -/
def insertPair (a b : Int) : Stmt Char (Option Int) := .insert [] (valuesPair a b)

/-- Two connections insert one key: both prepare before either has the lock. -/
def race : List (Event Char (Option Int) Bool) :=
  [.start true (insertPair 1 10), .start false (insertPair 1 20), .lock true, .probe true, .send true (clockAt 1),
    .unlock true, .lock false, .probe false, .unlock false]

theorem strict_keys_race :
    Runs.Meets (step integerKernel pairTable)
      (fun s e => ∀ u, Wins integerKernel pairTable s e u → KeyAbsent integerKernel pairTable s.history u)
      (Server.init (Table.empty integerKernel pairTable).history) race ∧
    (Runs.run (step integerKernel pairTable) (Server.init .empty) race).map
      (fun s => liveRow s.history ['t', '\x00', '1']) = some (some [some 1, some 10]) :=
  ⟨(strict_keys (Table.empty integerKernel pairTable) race).2.2 (by decide +kernel), by decide +kernel⟩

/-- A table whose key is a nanosecond timestamp. -/
def instantTable : TableMeta Char where
  tableUuid := ['t']
  arrowSchema := [⟨'a', .timestamp .nanosecond none, false⟩]
  primaryKeys := ['a']

/-- A strict `INSERT` of the key, up to its write. -/
def insertInstant (nanos : Int) : List (Event Char (Option Int) Bool) :=
  [.start true (.insert [] ⟨instantTable.arrowSchema, [[[some nanos]]], by simp [instantTable]⟩), .lock true, .probe true]

/-- The `INSERT` of 1 ns, then the `INSERT` of 0 ns up to its write. -/
def roundedKeys : List (Event Char (Option Int) Bool) :=
  insertInstant 1 ++ [.send true (clockAt 1), .unlock true] ++ insertInstant 0

/-- 1 ns is stored as 0 ns under the identity of 1 ns, so the strict `INSERT` of 0 ns succeeds. -/
theorem strict_keys_fails :
    ∃ s, Runs.run (step instantKernel instantTable) (Server.init (Table.empty instantKernel instantTable).history)
        roundedKeys = some s ∧
      ∃ u, Wins instantKernel instantTable s (.send true (clockAt 2)) u ∧ ¬ KeyAbsent instantKernel instantTable s.history u := by
  have hrun : ((Runs.run (step instantKernel instantTable) (Server.init .empty) roundedKeys).map (fun s =>
      decide (Wins instantKernel instantTable s (.send true (clockAt 2)) ['t', '\x00', '0'] ∧
        liveRow s.history ['t', '\x00', '1'] = some [some 0]))) = some true := by decide +kernel
  obtain ⟨s, hs, hdec⟩ := Option.map_eq_some_iff.mp hrun
  obtain ⟨hwins, hlive⟩ := of_decide_eq_true hdec
  exact ⟨s, hs, _, hwins, fun habsent => habsent [some 0] rfl (by decide +kernel) _ _ hlive rfl⟩

end Penca.Sql
