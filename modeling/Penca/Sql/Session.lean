import Penca.Lib.Runs
import Penca.Tx.Writes

/-!
# `Sql.Session` — which transaction a statement runs in

A DML statement of the SQL server makes several calls: it resolves its target table, scans the tables its source query or
`WHERE` clause ranges over, probes for collisions and writes. The transaction of a call is an argument: the `transaction_id`
of the request or else the session's open transaction. The scans are made by the planner, which knows only the connection:
they read the cell that `BEGIN` sets and `COMMIT` clears, whatever the request says.

## Contents
- **The services**: what a read inside a transaction returns, and the calls that change a transaction.
- **The connection**: its open transaction, in two places that one lock keeps equal.
- **The gateway**: statements call by call, many connections and direct clients interleaved.
- **Main results:** `own_transaction_iff` and `own_transaction_fails`.
-/

namespace Penca.Sql

variable {C T X R V : Type} [DecidableEq C] [DecidableEq T] [DecidableEq X] [DecidableEq R]

/-! ## The services -/

/-- How a transaction ended. -/
inductive TxEnd where
  | committed
  | aborted
  | expired
  deriving DecidableEq, Repr

/-- `get_tx_status`. -/
inductive TxStatus (R V : Type) where
  /-- Never begun on this branch. -/
  | notFound
  | isOpen (beganAtSeqNum : Int) (rows : TxWrites R V)
  | ended (how : TxEnd)

/-- The branch as the services have it. A row is named by its table and its identity. -/
structure Database (T X R V : Type) where
  history : History (T × R) V
  tx : X → TxStatus (T × R) V
  /-- How many numbers `write_seq_num` has handed out. -/
  draws : Nat

/-- The errors of `resolve_tx`, and of a commit that violates the unique index. -/
inductive ServiceError where
  | txNotFound
  | failedPrecondition (how : TxEnd)
  | commitMicrosTaken
  deriving DecidableEq, Repr

/-- An empty branch. -/
def Database.empty : Database T X R V := ⟨.empty, fun _ => .notFound, 0⟩

/-- `resolve_tx`. -/
def Database.resolveTx (b : Database T X R V) (x : X) : Except ServiceError (Int × TxWrites (T × R) V) :=
  match b.tx x with
  | .notFound                  => .error .txNotFound
  | .isOpen beganAtSeqNum rows => .ok (beganAtSeqNum, rows)
  | .ended how                 => .error (.failedPrecondition how)

/-- `resolve_read_snapshot` and what the position sees: an open transaction, or the latest commit. -/
def Database.visible (b : Database T X R V) : Option X → Except ServiceError (List (LogEntry (T × R) V))
  | none   => .ok b.history.entries
  | some x => (b.resolveTx x).map (fun tx => openTxEntries b.history tx.1 tx.2)

/-- The live rows of a table. -/
def rowsOf (table : T) (visible : List (LogEntry (T × R) V)) : List (R × V) :=
  (filterLiveRows (mergeResolved visible)).filterMap (fun p => if p.1.1 = table then some (p.1.2, p.2) else none)

/-- `read_data`. -/
def Database.readData (b : Database T X R V) (openTxUuid : Option X) (table : T) : Except ServiceError (List (R × V)) :=
  (b.visible openTxUuid).map (rowsOf table)

/-- The change, of the rows of a table. -/
def onTable (table : T) (change : DataChange R V) : DataChange (T × R) V where
  deletes := change.deletes.map (List.map (Prod.mk table))
  upserts := change.upserts.map (List.map (fun p => ((table, p.1), p.2)))
  deletesOnce := by
    simp only [List.mem_map]
    rintro batch ⟨rows, hrows, rfl⟩
    exact (change.deletesOnce rows hrows).map (Prod.mk_right_injective table)
  upsertsOnce := by
    simp only [List.mem_map]
    rintro batch ⟨rows, hrows, rfl⟩
    have hmap : (rows.map (fun p => ((table, p.1), p.2))).map Prod.fst = (rows.map Prod.fst).map (Prod.mk table) := by
      rw [List.map_map, List.map_map]
      rfl
    rw [hmap]
    exact (change.upsertsOnce rows hrows).map (Prod.mk_right_injective table)

/-- `BeginTx` under a new uuid. -/
def Database.beginTx (b : Database T X R V) (x : X) : Option (Database T X R V) :=
  match b.tx x with
  | .notFound => some { b with tx := Function.update b.tx x (.isOpen b.history.txs.length .empty) }
  | _         => none

/-- `CommitTx`. -/
def Database.commitTx (b : Database T X R V) (x : X) (micros : Int) : Except ServiceError (Database T X R V) :=
  match b.resolveTx x with
  | .error e => .error e
  | .ok tx   =>
      if h : b.history.Accepts micros then
        .ok { b with history := b.history.append micros tx.2 h, tx := Function.update b.tx x (.ended .committed) }
      else .error .commitMicrosTaken

/-- `AbortTx`, or the expiry of the transaction. -/
def Database.endTx (b : Database T X R V) (x : X) (how : TxEnd) : Except ServiceError (Database T X R V) :=
  match b.resolveTx x with
  | .error e => .error e
  | .ok _    => .ok { b with tx := Function.update b.tx x (.ended how) }

/-- `WriteData`, in a transaction or with a commit of its own. -/
def Database.writeData (nextval : Nat → Int) (b : Database T X R V) (table : T) (change : DataChange R V) (micros : Int) :
    Option X → Except ServiceError (Database T X R V)
  | some x =>
      match b.resolveTx x with
      | .error e => .error e
      | .ok tx   => .ok
          { b with
            tx := Function.update b.tx x (.isOpen tx.1 (tx.2.applyChange nextval b.draws (onTable table change)))
            draws := b.draws + (onTable table change).ops.length }
  | none   =>
      if h : b.history.Accepts micros then
        .ok
          { b with
            history := b.history.append micros (TxWrites.empty.applyChange nextval b.draws (onTable table change)) h
            draws := b.draws + (onTable table change).ops.length }
      else .error .commitMicrosTaken

/-- The branch after a call: an error leaves it as it is. -/
def Database.after (b : Database T X R V) (result : Except ServiceError (Database T X R V)) : Database T X R V :=
  match result with
  | .ok b'   => b'
  | .error _ => b

/-! ## The connection -/

/-- `ConnSession`: the open transaction, and the cell the provider tree reads. `set_open_tx` and `take_open_tx` write both
    under one lock. -/
structure ConnSession (X : Type) where
  openTxUuid : Option X
  openTxCell : Option X
  inSync : openTxCell = openTxUuid

/-- A new connection. -/
def ConnSession.new : ConnSession X := ⟨none, none, rfl⟩

/-- `set_open_tx`; `handle_begin` has checked that no transaction is open. -/
def ConnSession.setOpenTx (_session : ConnSession X) (x : X) : ConnSession X := ⟨some x, some x, rfl⟩

/-- `take_open_tx`: the session without its transaction. -/
def ConnSession.takeOpenTx (_session : ConnSession X) : ConnSession X := ⟨none, none, rfl⟩

/-- `resolve_tx_uuid_for_dml`. -/
def resolveTxUuidForDml (snapshotOpenTx explicitTx : Option X) : Option X := explicitTx.or snapshotOpenTx

/-! ## Statements -/

inductive DmlKind where
  | insert
  | update
  | delete
  deriving DecidableEq, Repr

/-- What a statement is about to send. -/
structure DmlPlan (R V : Type) where
  /-- The identities of the collision check, if there is one. -/
  collisionTargets : Option (List R)
  change : DataChange R V

/-- A statement: its target, the tables its source query or `WHERE` clause ranges over, and what it makes of their rows;
    `none` if it fails or there is nothing to write. -/
structure Dml (T R V : Type) where
  kind : DmlKind
  target : T
  sources : List T
  plan : List (List (R × V)) → Option (DmlPlan R V)

/-- What a statement does before it writes. -/
inductive Action (T : Type) where
  | resolveTarget
  | scan (table : T)
  deriving DecidableEq, Repr

/-- `execute_insert` executes its source and then resolves its target; `execute_update` and `execute_delete` resolve
    first. -/
def Dml.actions (stmt : Dml T R V) : List (Action T) :=
  match stmt.kind with
  | .insert => stmt.sources.map .scan ++ [.resolveTarget]
  | .update => .resolveTarget :: stmt.sources.map .scan
  | .delete => .resolveTarget :: stmt.sources.map .scan

/-- A statement being executed. -/
structure Running (T X R V : Type) where
  stmt : Dml T R V
  /-- `transaction_id` of the request. -/
  transactionId : Option X
  /-- The session's open transaction when the request came in (`SessionSnapshot`). -/
  snapshotOpenTx : Option X
  todo : List (Action T)
  /-- The rows of the tables scanned so far. -/
  rows : List (List (R × V))

/-- The transaction of the statement. -/
def Running.effectiveTx (r : Running T X R V) : Option X := resolveTxUuidForDml r.snapshotOpenTx r.transactionId

/-- Where a connection is in its statement. -/
inductive DmlPhase (T X R V : Type) where
  | idle
  | preparing (r : Running T X R V)
  | writing (r : Running T X R V) (plan : DmlPlan R V)

/-- The statement of a phase. -/
def DmlPhase.running : DmlPhase T X R V → Option (Running T X R V)
  | .idle        => none
  | .preparing r => some r
  | .writing r _ => some r

/-- The statement that is still reading. -/
def DmlPhase.reading : DmlPhase T X R V → Option (Running T X R V)
  | .preparing r => some r
  | _            => none

inductive CallKind where
  | getTable
  | scan
  | probe
  | writeData
  deriving DecidableEq, Repr

/-- The transaction a call carries: the scans read the connection's cell (`read_snapshot_fields`). -/
def Running.callTx (session : ConnSession X) (r : Running T X R V) : CallKind → Option X
  | .scan => session.openTxCell
  | _     => r.effectiveTx

/-- The next call of a phase, with its table. -/
def DmlPhase.nextCall : DmlPhase T X R V → Option (CallKind × T)
  | .idle        => none
  | .preparing r =>
      match r.todo with
      | .resolveTarget :: _ => some (.getTable, r.stmt.target)
      | .scan table :: _    => some (.scan, table)
      | []                  => (r.stmt.plan r.rows).bind (fun p => p.collisionTargets.map (fun _ => (.probe, r.stmt.target)))
  | .writing r _ => some (.writeData, r.stmt.target)

/-! ## The gateway -/

/-- The branch and the connections. -/
structure Gateway (C T X R V : Type) where
  db : Database T X R V
  session : C → ConnSession X
  phase : C → DmlPhase T X R V

/-- An empty branch and connections that have done nothing. -/
def Gateway.init : Gateway C T X R V := ⟨.empty, fun _ => .new, fun _ => .idle⟩

/-- What connections and direct clients of the services do. -/
inductive GatewayEvent (C T X R V : Type) where
  /-- `BEGIN`, which gets the new uuid. -/
  | begin (c : C) (x : X)
  | commit (c : C) (micros : Int)
  | rollback (c : C)
  /-- A DML request. -/
  | start (c : C) (transactionId : Option X) (stmt : Dml T R V)
  /-- The next call of the connection's statement. -/
  | call (c : C) (micros : Int)
  /-- Direct calls of `WriteService`. -/
  | beginTx (x : X)
  | commitTx (x : X) (micros : Int)
  | endTx (x : X) (how : TxEnd)
  | writeData (tx : Option X) (table : T) (change : DataChange R V) (micros : Int)

def Gateway.setPhase (s : Gateway C T X R V) (c : C) (phase : DmlPhase T X R V) : Gateway C T X R V :=
  { s with phase := Function.update s.phase c phase }

def Gateway.setSession (s : Gateway C T X R V) (c : C) (session : ConnSession X) : Gateway C T X R V :=
  { s with session := Function.update s.session c session }

/-- A statement before it writes: what its next call leaves. -/
def Running.next (db : Database T X R V) (session : ConnSession X) (r : Running T X R V) : DmlPhase T X R V :=
  match r.todo with
  | .resolveTarget :: todo =>
      match db.visible (r.callTx session .getTable) with
      | .ok _    => .preparing { r with todo := todo }
      | .error _ => .idle
  | .scan table :: todo    =>
      match db.readData (r.callTx session .scan) table with
      | .ok rows => .preparing { r with todo := todo, rows := r.rows ++ [rows] }
      | .error _ => .idle
  | []                     =>
      match r.stmt.plan r.rows with
      | none   => .idle
      | some p =>
          match p.collisionTargets with
          | none         => .writing r p
          | some targets =>
              match db.readData (r.callTx session .probe) r.stmt.target with
              | .ok rows => if rows.any (fun row => row.1 ∈ targets) then .idle else .writing r p
              | .error _ => .idle

/-- One step. The requests of one connection come one after the other. -/
def gatewayStep (nextval : Nat → Int) (s : Gateway C T X R V) : GatewayEvent C T X R V → Option (Gateway C T X R V)
  | .begin c x =>
      match s.phase c, (s.session c).openTxUuid with
      | .idle, none   => (s.db.beginTx x).map (fun db => { s with db := db }.setSession c ((s.session c).setOpenTx x))
      | .idle, some _ => some s
      | _, _          => none
  | .commit c micros =>
      match s.phase c, (s.session c).openTxUuid with
      | .idle, some x =>
          some ({ s with db := s.db.after (s.db.commitTx x micros) }.setSession c (s.session c).takeOpenTx)
      | .idle, none   => some s
      | _, _          => none
  | .rollback c =>
      match s.phase c, (s.session c).openTxUuid with
      | .idle, some x =>
          some ({ s with db := s.db.after (s.db.endTx x .aborted) }.setSession c (s.session c).takeOpenTx)
      | .idle, none   => some s
      | _, _          => none
  | .start c transactionId stmt =>
      match s.phase c with
      | .idle => some (s.setPhase c (.preparing ⟨stmt, transactionId, (s.session c).openTxUuid, stmt.actions, []⟩))
      | _     => none
  | .call c micros =>
      match s.phase c with
      | .idle        => none
      | .preparing r => some (s.setPhase c (r.next s.db (s.session c)))
      | .writing r p =>
          some ({ s with
            db := s.db.after (s.db.writeData nextval r.stmt.target p.change micros (r.callTx (s.session c) .writeData)) }.setPhase
              c .idle)
  | .beginTx x => (s.db.beginTx x).map (fun db => { s with db := db })
  | .commitTx x micros => some { s with db := s.db.after (s.db.commitTx x micros) }
  | .endTx x how => some { s with db := s.db.after (s.db.endTx x how) }
  | .writeData tx table change micros =>
      some { s with db := s.db.after (s.db.writeData nextval table change micros tx) }

/-! ## What the calls do to a transaction -/

/-- The history stays, or one commit is added. -/
def Extends (H H' : History (T × R) V) : Prop := H' = H ∨ ∃ micros rows h, H' = H.append micros rows h

/-- Open transactions began at or below the counter. -/
def Database.Began (b : Database T X R V) : Prop :=
  ∀ x beganAtSeqNum rows, b.tx x = .isOpen beganAtSeqNum rows → beganAtSeqNum ≤ b.history.txs.length

/-- A call that concerns no transaction but `x`. -/
structure Concerns (b b' : Database T X R V) (x : Option X) : Prop where
  history : Extends b.history b'.history
  others : ∀ y, x ≠ some y → b'.tx y = b.tx y
  began : b.Began → b'.Began

section Services

variable {b b' : Database T X R V} {x : X}

omit [DecidableEq T] [DecidableEq R] in
theorem Extends.length_le {H H' : History (T × R) V} (h : Extends H H') : H.txs.length ≤ H'.txs.length := by
  rcases h with rfl | ⟨micros, rows, haccepts, rfl⟩
  · exact le_refl _
  · simp [History.append]

omit [DecidableEq T] [DecidableEq X] [DecidableEq R] in
theorem Concerns.refl (b : Database T X R V) (x : Option X) : Concerns b b x := ⟨Or.inl rfl, fun _ _ => rfl, id⟩

omit [DecidableEq T] [DecidableEq R] in
/-- A call that gives a transaction a status, open at or below the counter if open. -/
theorem concerns_update {H' : History (T × R) V} {status : TxStatus (T × R) V} {draws : Nat} (hextends : Extends b.history H')
    (hstatus : b.Began → ∀ began rows, status = .isOpen began rows → began ≤ b.history.txs.length) :
    Concerns b ⟨H', Function.update b.tx x status, draws⟩ (some x) := by
  refine ⟨hextends, fun y hy => Function.update_of_ne (fun heq => hy (congrArg some heq.symm)) _ _, ?_⟩
  intro hbegan y began rows hopen
  have hle := hextends.length_le
  have hopen : Function.update b.tx x status y = .isOpen began rows := hopen
  have hbefore : began ≤ b.history.txs.length := by
    by_cases hy : y = x
    · subst hy
      rw [Function.update_self] at hopen
      exact hstatus hbegan began rows hopen
    · rw [Function.update_of_ne hy] at hopen
      exact hbegan y began rows hopen
  show began ≤ (H'.txs.length : Int)
  omega

omit [DecidableEq T] [DecidableEq X] [DecidableEq R] in
theorem resolveTx_eq_ok {tx : Int × TxWrites (T × R) V} (h : b.resolveTx x = .ok tx) : b.tx x = .isOpen tx.1 tx.2 := by
  unfold Database.resolveTx at h
  split at h
  · cases h
  · rename_i htx
    cases h
    exact htx
  · cases h

omit [DecidableEq T] [DecidableEq R] in
theorem concerns_beginTx (h : b.beginTx x = some b') : Concerns b b' (some x) := by
  unfold Database.beginTx at h
  split at h
  · cases h
    refine concerns_update (Or.inl rfl) ?_
    rintro - began rows ⟨⟩
    exact le_refl _
  · cases h

omit [DecidableEq T] [DecidableEq R] in
theorem concerns_commitTx (b : Database T X R V) (x : X) (micros : Int) :
    Concerns b (b.after (b.commitTx x micros)) (some x) := by
  unfold Database.commitTx
  split
  · exact .refl b _
  · split
    · rename_i tx _ h
      refine concerns_update (Or.inr ⟨micros, tx.2, h, rfl⟩) ?_
      rintro - began rows ⟨⟩
    · exact .refl b _

omit [DecidableEq T] [DecidableEq R] in
theorem concerns_endTx (b : Database T X R V) (x : X) (how : TxEnd) : Concerns b (b.after (b.endTx x how)) (some x) := by
  unfold Database.endTx
  split
  · exact .refl b _
  · refine concerns_update (Or.inl rfl) ?_
    rintro - began rows ⟨⟩

theorem concerns_writeData (nextval : Nat → Int) (b : Database T X R V) (table : T) (change : DataChange R V) (micros : Int)
    (tx : Option X) : Concerns b (b.after (b.writeData nextval table change micros tx)) tx := by
  cases tx with
  | some x =>
      simp only [Database.writeData]
      split
      · exact .refl b _
      · rename_i tx hresolve
        refine concerns_update (Or.inl rfl) ?_
        rintro hbegan began rows ⟨⟩
        exact hbegan x tx.1 tx.2 (resolveTx_eq_ok hresolve)
  | none =>
      simp only [Database.writeData]
      split
      · rename_i h
        have hextends : Extends b.history (b.history.append micros
            (TxWrites.empty.applyChange nextval b.draws (onTable table change)) h) := Or.inr ⟨micros, _, h, rfl⟩
        refine ⟨hextends, fun _ _ => rfl, fun hbegan y began rows hopen => ?_⟩
        have hbefore := hbegan y began rows hopen
        have hle := hextends.length_le
        show began ≤ ((b.history.append micros _ h).txs.length : Int)
        omega
      · exact .refl b _

omit [DecidableEq X] in
/-- **Snapshot stability.** A read inside a transaction returns the same rows after a call that does not concern it. -/
theorem Concerns.readData {y : Option X} (h : Concerns b b' y) (hbegan : b.Began) (hy : y ≠ some x) (table : T) :
    b'.readData (some x) table = b.readData (some x) table := by
  have hresolve : b'.resolveTx x = b.resolveTx x := by rw [Database.resolveTx, h.others x hy, Database.resolveTx]
  simp only [Database.readData, Database.visible, hresolve]
  cases hopen : b.resolveTx x with
  | error e => rfl
  | ok tx =>
      have hentries : openTxEntries b'.history tx.1 tx.2 = openTxEntries b.history tx.1 tx.2 := by
        rcases h.history with hsame | ⟨micros, rows, hmicros, happend⟩
        · rw [hsame]
        · -- The commit added has the counter's number, and the transaction began at or below it.
          have hle := hbegan x tx.1 tx.2 (resolveTx_eq_ok hopen)
          have hnone : ((b.history.nextTx micros rows).entries).filter (fun e => e.commitSeqNum < tx.1) = [] := by
            refine List.filter_eq_nil_iff.mpr (fun e he => ?_)
            have hseq : e.commitSeqNum = b.history.txs.length := CommittedTx.commitSeqNum_of_mem he
            rw [decide_eq_true_eq]
            omega
          rw [happend, openTxEntries, openTxEntries, History.entries_append, List.filter_append, hnone, List.append_nil]
      simp only [Except.map, hentries]

end Services

/-! ## The invariant of the gateway -/

/-- The transaction a step concerns. -/
def Gateway.concerned (s : Gateway C T X R V) : GatewayEvent C T X R V → Option X
  | .begin _ x           => some x
  | .commit c _          => (s.session c).openTxUuid
  | .rollback c          => (s.session c).openTxUuid
  | .start _ _ _         => none
  | .call c _            =>
      match s.phase c with
      | .writing r _ => r.effectiveTx
      | _            => none
  | .beginTx x           => some x
  | .commitTx x _        => some x
  | .endTx x _           => some x
  | .writeData tx _ _ _  => tx

/-- The tables of the scans among the actions. -/
def scansOf (actions : List (Action T)) : List T :=
  actions.filterMap (fun a => match a with
    | .scan table    => some table
    | .resolveTarget => none)

/-- The request's snapshot is the session's transaction as long as the statement runs. -/
def Gateway.Synced (s : Gateway C T X R V) : Prop :=
  ∀ c r, (s.phase c).running = some r → r.snapshotOpenTx = (s.session c).openTxUuid

section Invariant

variable {nextval : Nat → Int} {s s' : Gateway C T X R V} {e : GatewayEvent C T X R V}

theorem concerns_step (hstep : gatewayStep nextval s e = some s') : Concerns s.db s'.db (s.concerned e) := by
  cases e with
  | begin c x =>
      simp only [gatewayStep] at hstep
      split at hstep
      · obtain ⟨db, hbegin, rfl⟩ := Option.map_eq_some_iff.mp hstep
        exact concerns_beginTx hbegin
      · cases hstep
        exact .refl _ _
      · cases hstep
  | commit c micros =>
      simp only [gatewayStep] at hstep
      split at hstep
      · rename_i x _ hopen
        cases hstep
        rw [Gateway.concerned, hopen]
        exact concerns_commitTx s.db x micros
      · cases hstep
        exact .refl _ _
      · cases hstep
  | rollback c =>
      simp only [gatewayStep] at hstep
      split at hstep
      · rename_i x _ hopen
        cases hstep
        rw [Gateway.concerned, hopen]
        exact concerns_endTx s.db x .aborted
      · cases hstep
        exact .refl _ _
      · cases hstep
  | start c transactionId stmt =>
      simp only [gatewayStep] at hstep
      split at hstep
      · cases hstep
        exact .refl _ _
      · cases hstep
  | call c micros =>
      simp only [gatewayStep] at hstep
      split at hstep
      · cases hstep
      · cases hstep
        exact .refl _ _
      · rename_i r p hphase
        cases hstep
        simp only [Gateway.concerned, hphase]
        exact concerns_writeData nextval s.db r.stmt.target p.change micros r.effectiveTx
  | beginTx x =>
      obtain ⟨db, hbegin, rfl⟩ := Option.map_eq_some_iff.mp hstep
      exact concerns_beginTx hbegin
  | commitTx x micros =>
      cases hstep
      exact concerns_commitTx s.db x micros
  | endTx x how =>
      cases hstep
      exact concerns_endTx s.db x how
  | writeData tx table change micros =>
      cases hstep
      exact concerns_writeData nextval s.db table change micros tx

omit [DecidableEq C] [DecidableEq T] [DecidableEq X] [DecidableEq R] in
theorem scansOf_map_scan (tables : List T) : scansOf (tables.map Action.scan) = tables := by
  rw [scansOf, List.filterMap_map]
  exact List.filterMap_some

omit [DecidableEq C] [DecidableEq T] [DecidableEq X] [DecidableEq R] in
theorem scansOf_actions (stmt : Dml T R V) : scansOf stmt.actions = stmt.sources := by
  unfold Dml.actions
  split
  · have happend : scansOf (stmt.sources.map Action.scan ++ [.resolveTarget]) = scansOf (stmt.sources.map Action.scan) := by
      simp [scansOf]
    rw [happend, scansOf_map_scan]
  · exact scansOf_map_scan stmt.sources
  · exact scansOf_map_scan stmt.sources

omit [DecidableEq X] in
/-- What the next call of a statement leaves, before its write. -/
theorem next_cases (db : Database T X R V) (session : ConnSession X) (r : Running T X R V) :
    r.next db session = .idle ∨
    (∃ todo, r.todo = .resolveTarget :: todo ∧ r.next db session = .preparing { r with todo := todo }) ∨
    (∃ table todo rows, r.todo = .scan table :: todo ∧ db.readData session.openTxCell table = .ok rows ∧
      r.next db session = .preparing { r with todo := todo, rows := r.rows ++ [rows] }) ∨
    (∃ p, r.todo = [] ∧ r.next db session = .writing r p) := by
  unfold Running.next
  split
  · rename_i todo htodo
    split
    · exact Or.inr (Or.inl ⟨todo, htodo, rfl⟩)
    · exact Or.inl rfl
  · rename_i table todo htodo
    split
    · rename_i rows hrows
      exact Or.inr (Or.inr (Or.inl ⟨table, todo, rows, htodo, hrows, rfl⟩))
    · exact Or.inl rfl
  · rename_i htodo
    split
    · exact Or.inl rfl
    · rename_i p _
      split
      · exact Or.inr (Or.inr (Or.inr ⟨p, htodo, rfl⟩))
      · split
        · split
          · exact Or.inl rfl
          · exact Or.inr (Or.inr (Or.inr ⟨p, htodo, rfl⟩))
        · exact Or.inl rfl

/-- Where a running statement comes from: it was there, it starts, or it made its next call. -/
theorem running_of_step (hstep : gatewayStep nextval s e = some s') {c : C} {r' : Running T X R V}
    (hrunning : (s'.phase c).running = some r') :
    s'.session c = s.session c ∧
      (s'.phase c = s.phase c ∨
        (∃ transactionId stmt, e = .start c transactionId stmt ∧
          s'.phase c = .preparing ⟨stmt, transactionId, (s.session c).openTxUuid, stmt.actions, []⟩) ∨
        (∃ micros r, e = .call c micros ∧ s.phase c = .preparing r ∧ s'.phase c = r.next s.db (s.session c))) := by
  have hidle : ∀ d session, s.phase d = .idle → s'.phase = s.phase →
      s'.session = Function.update s.session d session → s'.session c = s.session c := by
    intro d session hphase hphases hsessions
    have hne : c ≠ d := by
      rintro rfl
      rw [hphases, hphase] at hrunning
      cases hrunning
    rw [hsessions, Function.update_of_ne hne]
  cases e with
  | begin d x =>
      simp only [gatewayStep] at hstep
      split at hstep
      · rename_i hphase _
        obtain ⟨db, -, rfl⟩ := Option.map_eq_some_iff.mp hstep
        exact ⟨hidle d _ hphase rfl rfl, Or.inl rfl⟩
      · cases hstep
        exact ⟨rfl, Or.inl rfl⟩
      · cases hstep
  | commit d micros =>
      simp only [gatewayStep] at hstep
      split at hstep
      · rename_i hphase _
        cases hstep
        exact ⟨hidle d _ hphase rfl rfl, Or.inl rfl⟩
      · cases hstep
        exact ⟨rfl, Or.inl rfl⟩
      · cases hstep
  | rollback d =>
      simp only [gatewayStep] at hstep
      split at hstep
      · rename_i hphase _
        cases hstep
        exact ⟨hidle d _ hphase rfl rfl, Or.inl rfl⟩
      · cases hstep
        exact ⟨rfl, Or.inl rfl⟩
      · cases hstep
  | start d transactionId stmt =>
      simp only [gatewayStep] at hstep
      split at hstep
      · cases hstep
        refine ⟨rfl, ?_⟩
        by_cases hd : c = d
        · subst hd
          exact Or.inr (Or.inl ⟨transactionId, stmt, rfl, Function.update_self _ _ _⟩)
        · exact Or.inl (Function.update_of_ne hd _ _)
      · cases hstep
  | call d micros =>
      simp only [gatewayStep] at hstep
      split at hstep
      · cases hstep
      · rename_i r hphase
        cases hstep
        refine ⟨rfl, ?_⟩
        by_cases hd : c = d
        · subst hd
          exact Or.inr (Or.inr ⟨micros, r, rfl, hphase, Function.update_self _ _ _⟩)
        · exact Or.inl (Function.update_of_ne hd _ _)
      · rename_i r p hphase
        cases hstep
        refine ⟨rfl, ?_⟩
        by_cases hd : c = d
        · subst hd
          simp [Gateway.setPhase, DmlPhase.running] at hrunning
        · exact Or.inl (Function.update_of_ne hd _ _)
  | beginTx x =>
      obtain ⟨db, -, rfl⟩ := Option.map_eq_some_iff.mp hstep
      exact ⟨rfl, Or.inl rfl⟩
  | commitTx x micros =>
      cases hstep
      exact ⟨rfl, Or.inl rfl⟩
  | endTx x how =>
      cases hstep
      exact ⟨rfl, Or.inl rfl⟩
  | writeData tx table change micros =>
      cases hstep
      exact ⟨rfl, Or.inl rfl⟩

/-- **Step.** The snapshot of a running statement stays the session's transaction. -/
theorem Gateway.Synced.step (h : s.Synced) (hstep : gatewayStep nextval s e = some s') : s'.Synced := by
  intro c r' hrunning
  obtain ⟨hsession, hphase | ⟨transactionId, stmt, -, hphase⟩ | ⟨micros, r, -, hreading, hphase⟩⟩ :=
    running_of_step hstep hrunning
  · rw [hsession]
    exact h c r' (hphase ▸ hrunning)
  · rw [hphase] at hrunning
    cases hrunning
    rw [hsession]
  · have hr : r.snapshotOpenTx = (s.session c).openTxUuid := h c r (by rw [hreading]; rfl)
    rw [hphase] at hrunning
    rw [hsession, ← hr]
    rcases next_cases s.db (s.session c) r with hn | ⟨todo, -, hn⟩ | ⟨table, todo, rows, -, -, hn⟩ | ⟨p, -, hn⟩ <;>
      rw [hn] at hrunning <;> cases hrunning <;> rfl

end Invariant

/-! ## In its own transaction -/

/-- The next call of the statement carries the statement's transaction, and a scan brings the rows a read inside the
    transaction returns. -/
def Gateway.InOwnTransaction (s : Gateway C T X R V) : GatewayEvent C T X R V → Prop
  | .call c _ =>
      ∀ r ∈ (s.phase c).running, ∀ x ∈ r.effectiveTx,
        (∀ call ∈ (s.phase c).nextCall, r.callTx (s.session c) call.1 = some x) ∧
        (∀ table todo, s.phase c = .preparing r → r.todo = .scan table :: todo →
          match s.db.readData (some x) table with
          | .ok rows => r.next s.db (s.session c) = .preparing { r with todo := todo, rows := r.rows ++ [rows] }
          | .error _ => r.next s.db (s.session c) = .idle)
  | _         => True

/-- A statement that scans names no transaction, or the session's. -/
def Gateway.ScansSession (s : Gateway C T X R V) : GatewayEvent C T X R V → Prop
  | .call c _ =>
      ∀ r ∈ (s.phase c).running, r.transactionId.isSome → (s.phase c).nextCall.map Prod.fst = some .scan →
        r.transactionId = (s.session c).openTxUuid
  | _         => True

/-- No step changes a transaction while a statement in it reads. -/
def Gateway.Undisturbed (s : Gateway C T X R V) (e : GatewayEvent C T X R V) : Prop :=
  ∀ x ∈ s.concerned e, ∀ c, ∀ r ∈ (s.phase c).reading, r.effectiveTx ≠ some x

instance (s : Gateway C T X R V) (e : GatewayEvent C T X R V) : Decidable (s.ScansSession e) :=
  match e with
  | .call c _ => inferInstanceAs (Decidable (∀ r ∈ (s.phase c).running, r.transactionId.isSome →
      (s.phase c).nextCall.map Prod.fst = some .scan → r.transactionId = (s.session c).openTxUuid))
  | .begin _ _ | .commit _ _ | .rollback _ | .start _ _ _ | .beginTx _ | .commitTx _ _ | .endTx _ _ | .writeData _ _ _ _ =>
      isTrue trivial

section Main

variable {nextval : Nat → Int} {s s' : Gateway C T X R V} {e : GatewayEvent C T X R V}

omit [DecidableEq C] [DecidableEq X] in
/-- **The kernel.** The next call is in the statement's transaction exactly when a scan finds it in the session. -/
theorem Gateway.Synced.inOwnTransaction_iff (h : s.Synced) (e : GatewayEvent C T X R V) :
    s.InOwnTransaction e ↔ s.ScansSession e := by
  cases e with
  | call c micros =>
      constructor
      · intro hown r hr hid hscan
        obtain ⟨x, hx⟩ := Option.isSome_iff_exists.mp hid
        have heffective : r.effectiveTx = some x := by rw [Running.effectiveTx, resolveTxUuidForDml, hx, Option.some_or]
        obtain ⟨call, hcall, hkind⟩ := Option.map_eq_some_iff.mp hscan
        have htx := (hown r hr x heffective).1 call hcall
        rw [hkind] at htx
        rw [hx, ← (s.session c).inSync]
        exact htx.symm
      · intro hscans r hr x heffective
        have hcell : (s.phase c).nextCall.map Prod.fst = some .scan → (s.session c).openTxCell = some x := by
          intro hscan
          rw [(s.session c).inSync, ← heffective, Running.effectiveTx, resolveTxUuidForDml]
          cases hid : r.transactionId with
          | none => rw [Option.none_or, h c r hr]
          | some y =>
              have hsession := hscans r hr (by rw [hid]; rfl) hscan
              rw [Option.some_or, ← hsession, hid]
        refine ⟨fun call hcall => ?_, fun table todo hphase htodo => ?_⟩
        · cases hkind : call.1 with
          | scan => exact hcell (by rw [hcall, Option.map_some, hkind])
          | getTable => exact heffective
          | probe => exact heffective
          | writeData => exact heffective
        · have hcell := hcell (by rw [hphase, DmlPhase.nextCall, htodo]; rfl)
          unfold Running.next
          simp only [htodo, Running.callTx, hcell]
          cases s.db.readData (some x) table with
          | ok rows => rfl
          | error err => rfl
  | _ => exact Iff.rfl

/-- What a statement has read are the rows its transaction reads now. -/
def Gateway.ReadsCurrent (s : Gateway C T X R V) : Prop :=
  ∀ c, ∀ r ∈ (s.phase c).reading, ∀ x ∈ r.effectiveTx, ∃ done, r.stmt.sources = done ++ scansOf r.todo ∧
    done.map (s.db.readData (some x)) = r.rows.map .ok

omit [DecidableEq C] [DecidableEq T] [DecidableEq X] [DecidableEq R] in
theorem DmlPhase.reading_eq_some {phase : DmlPhase T X R V} {r : Running T X R V} :
    phase.reading = some r ↔ phase = .preparing r := by
  cases phase <;> simp [DmlPhase.reading]

/-- **Step.** What has been read stays current while nobody else changes the transaction. -/
theorem Gateway.ReadsCurrent.step (h : s.ReadsCurrent) (hsynced : s.Synced) (hbegan : s.db.Began) (hscans : s.ScansSession e)
    (hundisturbed : s.Undisturbed e) (hstep : gatewayStep nextval s e = some s') : s'.ReadsCurrent := by
  intro c r' hr' x hx
  have hphase' := DmlPhase.reading_eq_some.mp hr'
  have hrunning : (s'.phase c).running = some r' := by rw [hphase']; rfl
  -- A statement that was reading in this transaction reads the same rows after the step.
  have hstable : ∀ r, s.phase c = .preparing r → r.effectiveTx = some x →
      ∀ done : List T, done.map (s'.db.readData (some x)) = done.map (s.db.readData (some x)) := by
    intro r hphase heffective done
    refine List.map_congr_left (fun table _ => (concerns_step hstep).readData hbegan (fun hconcerned => ?_) table)
    exact hundisturbed x hconcerned c r (DmlPhase.reading_eq_some.mpr hphase) heffective
  obtain ⟨-, hsame | ⟨transactionId, stmt, -, hstart⟩ | ⟨micros, r, rfl, hreading, hnext⟩⟩ := running_of_step hstep hrunning
  · rw [hsame] at hphase'
    obtain ⟨done, hsources, hrows⟩ := h c r' (DmlPhase.reading_eq_some.mpr hphase') x hx
    exact ⟨done, hsources, (hstable r' hphase' hx done).trans hrows⟩
  · rw [hphase'] at hstart
    cases hstart
    exact ⟨[], (scansOf_actions stmt).symm, rfl⟩
  · rw [hphase'] at hnext
    have heffective : r.effectiveTx = some x → ∃ done, r.stmt.sources = done ++ scansOf r.todo ∧
        done.map (s'.db.readData (some x)) = r.rows.map .ok := by
      intro heffective
      obtain ⟨done, hsources, hrows⟩ := h c r (DmlPhase.reading_eq_some.mpr hreading) x heffective
      exact ⟨done, hsources, (hstable r hreading heffective done).trans hrows⟩
    rcases next_cases s.db (s.session c) r with hn | ⟨todo, htodo, hn⟩ | ⟨table, todo, rows, htodo, hrows, hn⟩ | ⟨p, -, hn⟩
    · rw [hn] at hnext
      cases hnext
    · rw [hn] at hnext
      cases hnext
      obtain ⟨done, hsources, hcurrent⟩ := heffective hx
      rw [htodo] at hsources
      exact ⟨done, hsources, hcurrent⟩
    · rw [hn] at hnext
      cases hnext
      obtain ⟨done, hsources, hcurrent⟩ := heffective hx
      rw [htodo] at hsources
      refine ⟨done ++ [table], hsources.trans (List.append_assoc done [table] _).symm, ?_⟩
      have hcell : (s.session c).openTxCell = some x :=
        ((hsynced.inOwnTransaction_iff (.call c micros)).mpr hscans r (by rw [hreading]; rfl) x hx).1 (.scan, table)
          (by rw [hreading, DmlPhase.nextCall, htodo]; rfl)
      have hscan : s.db.readData (some x) table = .ok rows := by rw [← hcell, hrows]
      rw [List.map_append, List.map_append, hcurrent, hstable r hreading hx [table], List.map_singleton, hscan]
      rfl
    · rw [hn] at hnext
      cases hnext

omit [DecidableEq C] [DecidableEq T] [DecidableEq X] [DecidableEq R] in
theorem synced_init : (Gateway.init : Gateway C T X R V).Synced := by
  rintro c r ⟨⟩

/-- The invariant of undisturbed runs. -/
structure Gateway.Inv (s : Gateway C T X R V) : Prop where
  reads : s.ReadsCurrent
  synced : s.Synced
  began : s.db.Began

omit [DecidableEq C] [DecidableEq X] in
theorem inv_init : (Gateway.init : Gateway C T X R V).Inv := by
  refine ⟨?_, synced_init, ?_⟩
  · rintro c r ⟨⟩
  · rintro x began rows ⟨⟩

theorem Gateway.Inv.step (h : s.Inv) (hscans : s.ScansSession e) (hundisturbed : s.Undisturbed e)
    (hstep : gatewayStep nextval s e = some s') : s'.Inv where
  reads := h.reads.step h.synced h.began hscans hundisturbed hstep
  synced := h.synced.step hstep
  began := (concerns_step hstep).began h.began

theorem meets_inOwnTransaction_iff (ops : List (GatewayEvent C T X R V)) :
    Runs.Meets (gatewayStep nextval) Gateway.InOwnTransaction Gateway.init ops ↔
      Runs.Meets (gatewayStep nextval) Gateway.ScansSession Gateway.init ops := by
  constructor
  · exact Runs.Meets.of_inv (fun s e s' h _ hstep => h.step hstep) (fun s e h => (h.inOwnTransaction_iff e).mp) synced_init
  · exact Runs.Meets.of_inv (fun s e s' h _ hstep => h.step hstep) (fun s e h => (h.inOwnTransaction_iff e).mpr) synced_init

/-- **DML in its own transaction.** The calls of the statements of a run are all in the statements' transactions, and their
    scans bring the rows of these transactions, exactly when the statements that scan name no transaction or their session's.
    Then, while nobody else changes the transaction, a statement decides on the rows its transaction reads at that moment. -/
theorem own_transaction_iff (nextval : Nat → Int) (ops : List (GatewayEvent C T X R V)) :
    (Runs.Meets (gatewayStep nextval) Gateway.InOwnTransaction Gateway.init ops ↔
      Runs.Meets (gatewayStep nextval) Gateway.ScansSession Gateway.init ops) ∧
    (Runs.Meets (gatewayStep nextval) (fun s e => s.ScansSession e ∧ s.Undisturbed e) Gateway.init ops →
      ∀ s, Runs.run (gatewayStep nextval) Gateway.init ops = some s → ∀ c r x, s.phase c = .preparing r → r.todo = [] →
        r.effectiveTx = some x → r.stmt.sources.map (s.db.readData (some x)) = r.rows.map .ok) := by
  refine ⟨meets_inOwnTransaction_iff ops, fun hmeets s hrun c r x hphase htodo heffective => ?_⟩
  have hinv : s.Inv := Runs.invariant_of_step (fun s e s' h hguard hstep => h.step hguard.1 hguard.2 hstep) inv_init hmeets hrun
  obtain ⟨done, hsources, hrows⟩ := hinv.reads c r (DmlPhase.reading_eq_some.mpr hphase) x heffective
  rw [htodo] at hsources
  rw [hsources, ← hrows]
  exact congrArg _ (List.append_nil done)

end Main

/-! ## A transaction of another client -/

/-- `DELETE FROM t`. -/
def deleteAll : Dml Unit Nat Nat where
  kind := .delete
  target := ()
  sources := [()]
  plan rows := if rows.flatten = [] then none else some ⟨none, .ofDeletes (rows.map (fun p => (p.map Prod.fst).dedup))
    (by simpa using fun _ _ => List.nodup_dedup _)⟩

/-- A client begins a transaction at `WriteService`, writes a row in it and sends `DELETE FROM t` with its uuid through a
    connection that has no transaction. -/
def foreignDelete : List (GatewayEvent Unit Unit Nat Nat Nat) :=
  [.beginTx 7, .writeData (some 7) () (.upsertRow 1 10) 1, .start () (some 7) deleteAll, .call () 2,
    .call () 3, .call () 4]

/-- The same through a session: `BEGIN`, the write, `DELETE FROM t`. -/
def sessionDelete : List (GatewayEvent Unit Unit Nat Nat Nat) :=
  [.begin () 7, .writeData (some 7) () (.upsertRow 1 10) 1, .start () none deleteAll, .call () 2,
    .call () 3, .call () 4, .call () 5]

/-- The `DELETE` scans the committed table, finds nothing and leaves the transaction's row. -/
theorem own_transaction_fails :
    ¬ Runs.Meets (gatewayStep Nat.cast) Gateway.InOwnTransaction Gateway.init foreignDelete ∧
    (Runs.run (gatewayStep Nat.cast) Gateway.init foreignDelete).map
      (fun s => ((s.phase ()).running.isNone, s.db.readData (some 7) ())) = some (true, .ok [(1, 10)]) := by
  refine ⟨fun hown => ?_, by decide +kernel⟩
  exact absurd (meets_inOwnTransaction_iff foreignDelete |>.mp hown) (by decide +kernel)

theorem own_transaction_sessionDelete :
    Runs.Meets (gatewayStep Nat.cast) Gateway.InOwnTransaction Gateway.init sessionDelete ∧
    (Runs.run (gatewayStep Nat.cast) Gateway.init sessionDelete).map
      (fun s => ((s.phase ()).running.isNone, s.db.readData (some 7) ())) = some (true, .ok []) :=
  ⟨(own_transaction_iff Nat.cast sessionDelete).1.mpr (by decide +kernel), by decide +kernel⟩

end Penca.Sql
