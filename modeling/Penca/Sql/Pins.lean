import Penca.Lib.Runs
import Penca.Query.Plan
import Penca.Sql.Session

/-!
# `Sql.Pins` — the read snapshot of a SELECT

A SELECT reaches the server in two or three requests: an optional `CreatePreparedStatement`, `GetFlightInfo` and `DoGet`.
`GetFlightInfo` asks for the branch's commit frontier and stamps it on the ticket; for the time of each request the
number is in a cell of the connection, from where the provider tree stamps it on every call. The plan travels apart from
it, in a cache under a key that the handle and the ticket carry.

A request runs step by step, and commits fall between its steps. The requests of a connection do not overlap, but the
streams a `DoGet` returns are read at any later time.

## Contents
- **The branch.** What is visible at a commit number; commits leave it alone (`visibleAt_commit`).
- **The connection.** `StatementCache`, the cells, the requests (`Phase`), `sqlStep`.
- **Invariant.** `Server.Inv`: pins belong to the running request, cached plans of `GetFlightInfo` were made at the pin of
  their ticket.
- **Main results:** `one_state_iff` and `one_state_fails`. A plan made at prepare time is executed at the pin of a later
  `GetFlightInfo`, with the table metadata of the earlier time; and a ticket from inside a transaction has no pin.
-/

namespace Penca.FlightSql

variable {N M Q U X R V : Type}

/-! ## The branch -/

/-- `seq_frontier_from_counter`: the counter holds the next number to allocate. -/
def seqFrontierFromCounter (counterSeqNum : Option Int) : Int := counterSeqNum.getD 0 - 1

/-- `get_max_commit_seq_num`. -/
def getMaxCommitSeqNum (H : History R V) : Int := seqFrontierFromCounter (some H.txs.length)

/-- The entries committed up to a number. -/
def visibleAt (H : History R V) (seq : Int) : List (LogEntry R V) :=
  H.entries.filter (ReadSnapshot.asOfSeq seq).sees

/-- The snapshot fields of a call: `open_tx_uuid` and `as_of_seq`. -/
abbrev SnapshotFields (X : Type) := Option X × Option Int

/-- `resolve_read_snapshot`. `own` is what the open transaction sees. -/
def visible (H : History R V) (own : List (LogEntry R V)) : SnapshotFields X → List (LogEntry R V)
  | (some _, _)      => own
  | (none, some seq) => visibleAt H seq
  | (none, none)     => visibleAt H (getMaxCommitSeqNum H)

/-- The planner: the tables a query resolves, in order and with repetitions, and the answer of `GetTable`. -/
structure Planner (N M Q R V : Type) where
  tables  : Q → List N
  resolve : List (LogEntry (N × R) V) → N → Option M

/-! ## The connection -/

/-- `PencaTableProvider`. -/
structure TableProvider (N M R V : Type) where
  name  : N
  table : M
  /-- Not stored anywhere: the entries the metadata was resolved from. -/
  seen  : List (LogEntry (N × R) V)

/-- A plan with the providers it scans. -/
structure LogicalPlan (N M Q R V : Type) where
  query     : Q
  providers : List (TableProvider N M R V)
  /-- Not stored anywhere: made by `CreatePreparedStatement`. -/
  prepared  : Bool

/-- `StatementCache`: the entries in insertion order. -/
structure StatementCache (U P : Type) where
  capacity : Nat
  entries  : List (U × P)
  bounded  : entries.length ≤ capacity

namespace StatementCache

variable {P : Type}

/-- `StatementCache::new`. -/
def new (capacity : Nat) : StatementCache U P := ⟨capacity, [], Nat.zero_le _⟩

/-- `insert` under a freshly minted uuid; the oldest entries are evicted. -/
def insert (cache : StatementCache U P) (statementUuid : U) (plan : P) : StatementCache U P :=
  if cache.capacity = 0 then cache
  else
    let order := cache.entries ++ [(statementUuid, plan)]
    { cache with
      entries := order.drop (order.length - cache.capacity)
      bounded := by
        rw [List.length_drop]
        omega }

/-- `get`. -/
def get [DecidableEq U] (cache : StatementCache U P) (key : U) : Option P :=
  (cache.entries.find? (fun entry => entry.1 = key)).map Prod.snd

theorem mem_insert {cache : StatementCache U P} {u : U} {plan : P} {entry : U × P}
    (h : entry ∈ (cache.insert u plan).entries) : entry ∈ cache.entries ∨ entry = (u, plan) := by
  unfold insert at h
  split_ifs at h
  · exact .inl h
  · have hmem := List.mem_of_mem_drop h
    rcases List.mem_append.mp hmem with hmem | hmem
    · exact .inl hmem
    · exact .inr (List.mem_singleton.mp hmem)

theorem mem_of_get [DecidableEq U] {cache : StatementCache U P} {key : U} {plan : P} (h : cache.get key = some plan) :
    (key, plan) ∈ cache.entries := by
  obtain ⟨entry, hfind, rfl⟩ := Option.map_eq_some_iff.mp h
  have hkey := List.find?_some hfind
  rw [← of_decide_eq_true hkey]
  exact List.mem_of_find?_eq_some hfind

end StatementCache

/-- `QueryHandle`, without parameters. -/
structure QueryHandle (Q U : Type) where
  query         : Q
  statementUuid : Option U

/-- `CommandTicket`. -/
structure CommandTicket (Q U : Type) where
  query         : Q
  statementUuid : U
  asOfSeq       : Option Int
  /-- Not stored anywhere: the commit frontier at its `GetFlightInfo`. -/
  captured      : Int

/-- A plan build: the names left to resolve and the providers so far. -/
structure Build (N M R V : Type) where
  pending   : List N
  providers : List (TableProvider N M R V)

/-- The request the connection is in. -/
inductive Phase (N M Q U R V : Type) where
  | idle
  /-- `do_action_create_prepared_statement`. -/
  | preparing (query : Q) (build : Build N M R V)
  /-- `get_flight_info_statement`, or `get_flight_info_prepared_statement` after a miss. -/
  | flightInfo (query : Q) (asOf : Option Int) (captured : Int) (build : Build N M R V)
  /-- `do_get_fallback` after a miss. -/
  | replanning (ticket : CommandTicket Q U) (build : Build N M R V)
  /-- `do_get_fallback` with its plan. -/
  | executing (ticket : CommandTicket Q U) (plan : LogicalPlan N M Q R V)

/-- The number a `PinnedAsOfSeqGuard` of the request holds in the cell. -/
def Phase.pin : Phase N M Q U R V → Option Int
  | .idle                  => none
  | .preparing _ _         => none
  | .flightInfo _ asOf _ _ => asOf
  | .replanning ticket _   => ticket.asOfSeq
  | .executing ticket _    => ticket.asOfSeq

/-- The plan build of the request. -/
def Phase.build : Phase N M Q U R V → Option (Build N M R V)
  | .idle                   => none
  | .preparing _ build      => some build
  | .flightInfo _ _ _ build => some build
  | .replanning _ build     => some build
  | .executing _ _          => none

/-- The request with its build replaced. -/
def Phase.setBuild (build : Build N M R V) : Phase N M Q U R V → Phase N M Q U R V
  | .idle                             => .idle
  | .preparing query _                => .preparing query build
  | .flightInfo query asOf captured _ => .flightInfo query asOf captured build
  | .replanning ticket _              => .replanning ticket build
  | .executing ticket plan            => .executing ticket plan

/-- A scan of a running query: its request is built when the plan is executed. -/
structure Scan (N M X R V : Type) where
  provider : TableProvider N M R V
  fields   : SnapshotFields X

/-- What `DoGet` returns. -/
structure ResultStream (N M Q U X R V : Type) where
  ticket : CommandTicket Q U
  scans  : List (Scan N M X R V)

/-- The branch and one connection with what its client holds. -/
structure Server (N M Q U X R V : Type) where
  history        : History (N × R) V
  session        : Sql.ConnSession X
  asOfSeqCell    : Option Int
  /-- `PlanResolutionMemo` of the running build, with what each resolution saw. -/
  memo           : Option (List (N × Option M × List (LogEntry (N × R) V)))
  statementCache : StatementCache U (LogicalPlan N M Q R V)
  phase          : Phase N M Q U R V
  handles        : List (QueryHandle Q U)
  tickets        : List (CommandTicket Q U)
  streams        : List (ResultStream N M Q U X R V)
  /-- Not stored anywhere: the statement uuids minted so far. -/
  minted         : List U

/-- A new connection. -/
def Server.init (H : History (N × R) V) (capacity : Nat) : Server N M Q U X R V :=
  ⟨H, .new, none, none, .new capacity, .idle, [], [], [], []⟩

/-- `read_snapshot_fields`. -/
def Server.readSnapshotFields (s : Server N M Q U X R V) : SnapshotFields X :=
  (s.session.openTxCell, if s.session.openTxCell.isSome then none else s.asOfSeqCell)

/-- `pin_as_of_seq`. -/
def pinAsOfSeq (openTx : Option X) (seqFrontier : Int) : Option Int :=
  match openTx with
  | some _ => none
  | none   => some seqFrontier

/-- `install_pinned_as_of_seq`, if there is a number to install. -/
def Server.installPin (s : Server N M Q U X R V) (asOf : Option Int) : Server N M Q U X R V :=
  { s with asOfSeqCell := asOf.or s.asOfSeqCell }

/-- The end of a request, however it ends: its guards are dropped. -/
def Server.release (s : Server N M Q U X R V) : Server N M Q U X R V :=
  { s with
    phase := .idle
    memo := none
    asOfSeqCell := if s.phase.pin.isSome then none else s.asOfSeqCell }

/-- Start a plan build with a fresh memo. -/
def Server.startBuild (s : Server N M Q U X R V) (phase : Phase N M Q U R V) : Server N M Q U X R V :=
  { s with phase := phase, memo := some [] }

/-- What a name resolves to: the memo's answer, or else a `GetTable` call. -/
def Server.resolved [DecidableEq N] (planner : Planner N M Q R V) (s : Server N M Q U X R V)
    (own : List (LogEntry (N × R) V)) (name : N) : Option M × List (LogEntry (N × R) V) :=
  match (s.memo.getD []).find? (fun entry => entry.1 = name) with
  | some entry => entry.2
  | none       =>
      let seen := visible s.history own s.readSnapshotFields
      (planner.resolve seen name, seen)

inductive SqlEvent (N Q U X R V : Type) where
  /-- A commit, of any connection. -/
  | commit (micros : Int) (rows : TxWrites (N × R) V)
  /-- A Persist, a Snapshot, a Purge or a compaction. -/
  | lifecycle
  | beginTx (tx : X)
  | endTx
  | createPreparedStatement (query : Q)
  | getFlightInfoStatement (query : Q)
  | getFlightInfoPrepared (handle : Nat)
  /-- The next name of the running build; `own` is what the open transaction sees. -/
  | resolveTable (own : List (LogEntry (N × R) V))
  /-- The end of the running build. -/
  | finish (statementUuid : U)
  | doGet (ticket : Nat)
  | execute
  /-- The request fails or is abandoned. -/
  | fail
  /-- A scan of a returned stream is read. -/
  | read (stream scan : Nat) (own : List (LogEntry (N × R) V))

section Step

variable [DecidableEq N] [DecidableEq U]

/-- The next name of a build. A name that does not resolve fails the request. -/
def Server.resolveNext (planner : Planner N M Q R V) (s : Server N M Q U X R V) (own : List (LogEntry (N × R) V)) :
    Option (Server N M Q U X R V) :=
  match s.phase.build with
  | some ⟨name :: pending, providers⟩ =>
      let answer := s.resolved planner own name
      match answer.1 with
      | none       => some s.release
      | some table => some
          { s with
            memo := s.memo.map (fun memo =>
              if memo.any (fun entry => entry.1 = name) then memo else memo ++ [(name, answer)])
            phase := s.phase.setBuild ⟨pending, providers ++ [⟨name, table, answer.2⟩]⟩ }
  | _ => none

/-- The end of a build: the plan is cached under a new uuid, or executed right away by a `DoGet`. -/
def Server.finishBuild (s : Server N M Q U X R V) (u : U) : Option (Server N M Q U X R V) :=
  match s.phase with
  | .preparing query ⟨[], providers⟩ =>
      if u ∈ s.minted then none
      else some
        { s.release with
          statementCache := s.statementCache.insert u ⟨query, providers, true⟩
          handles := s.handles ++ [⟨query, some u⟩]
          minted := u :: s.minted }
  | .flightInfo query asOf captured ⟨[], providers⟩ =>
      if u ∈ s.minted then none
      else some
        { s.release with
          statementCache := s.statementCache.insert u ⟨query, providers, false⟩
          tickets := s.tickets ++ [⟨query, u, asOf, captured⟩]
          minted := u :: s.minted }
  | .replanning ticket ⟨[], providers⟩ =>
      some { s with phase := .executing ticket ⟨ticket.query, providers, false⟩, memo := none }
  | _ => none

/-- `get_flight_info_statement` and `get_flight_info_prepared_statement` up to the plan build: the pin is captured and
    installed; a cached plan saves the build. -/
def Server.getFlightInfo (planner : Planner N M Q R V) (s : Server N M Q U X R V) (query : Q) (statementUuid : Option U) :
    Server N M Q U X R V :=
  let captured := getMaxCommitSeqNum s.history
  let asOf := pinAsOfSeq s.session.openTxUuid captured
  match statementUuid.filter (fun u => (s.statementCache.get u).isSome) with
  | some u => { s with tickets := s.tickets ++ [⟨query, u, asOf, captured⟩] }
  | none   => (s.installPin asOf).startBuild (.flightInfo query asOf captured ⟨planner.tables query, []⟩)

/-- `do_get_fallback` up to the plan. -/
def Server.doGet (planner : Planner N M Q R V) (s : Server N M Q U X R V) (ticket : CommandTicket Q U) :
    Server N M Q U X R V :=
  match s.statementCache.get ticket.statementUuid with
  | some plan => { s.installPin ticket.asOfSeq with phase := .executing ticket plan }
  | none      => (s.installPin ticket.asOfSeq).startBuild (.replanning ticket ⟨planner.tables ticket.query, []⟩)

/-- One event. Persist, Snapshot and Purge move rows between the tiers and commit nothing: the history, all that
    this model of the store has, stays as it is. A prepared statement whose plan is cached builds no provider: the
    pin its `get_flight_info` installs is dropped unread when the request ends, so only the ticket carries it on. -/
def sqlStep (planner : Planner N M Q R V) (s : Server N M Q U X R V) :
    SqlEvent N Q U X R V → Option (Server N M Q U X R V)
  | .commit micros rows => some { s with history := s.history.commit micros rows }
  | .lifecycle          => some s
  | .beginTx tx =>
      match s.phase, s.session.openTxUuid with
      | .idle, none => some { s with session := s.session.setOpenTx tx }
      | _, _        => none
  | .endTx =>
      match s.phase, s.session.openTxUuid with
      | .idle, some _ => some { s with session := s.session.takeOpenTx }
      | _, _          => none
  | .createPreparedStatement query =>
      match s.phase with
      | .idle => some (s.startBuild (.preparing query ⟨planner.tables query, []⟩))
      | _     => none
  | .getFlightInfoStatement query =>
      match s.phase with
      | .idle => some (s.getFlightInfo planner query none)
      | _     => none
  | .getFlightInfoPrepared i =>
      match s.phase with
      | .idle => (s.handles[i]?).map (fun handle => s.getFlightInfo planner handle.query handle.statementUuid)
      | _     => none
  | .resolveTable own => s.resolveNext planner own
  | .finish u         => s.finishBuild u
  | .doGet i =>
      match s.phase with
      | .idle => (s.tickets[i]?).map (s.doGet planner)
      | _     => none
  | .execute =>
      match s.phase with
      | .executing ticket plan => some
          { s.release with
            streams := s.streams ++ [⟨ticket, plan.providers.map (fun p => ⟨p, s.readSnapshotFields⟩)⟩] }
      | _ => none
  | .fail =>
      match s.phase with
      | .idle => none
      | _     => some s.release
  | .read i j _ => ((s.streams[i]?).bind (fun stream => stream.scans[j]?)).map (fun _ => s)

end Step

/-! ## One state -/

/-- The scans of a `DoGet` carry the open transaction and no pin, or else the number captured at the `GetFlightInfo` of
    its ticket, and the plan has the tables as they are at that number. -/
def Server.ScansOneState (planner : Planner N M Q R V) (s : Server N M Q U X R V) (ticket : CommandTicket Q U)
    (plan : LogicalPlan N M Q R V) : Prop :=
  ∀ p ∈ plan.providers,
    match s.session.openTxUuid with
    | some tx => s.readSnapshotFields = (some tx, none)
    | none    => s.readSnapshotFields = (none, some ticket.captured) ∧
        planner.resolve (visibleAt s.history ticket.captured) p.name = some p.table

/-- What an event is to read. A name is resolved in the open transaction without a pin, or at the pin of its own request.
    A scan outside a transaction delivers the rows at the number captured for its statement. -/
def OneState [DecidableEq N] [DecidableEq R] (planner : Planner N M Q R V) (s : Server N M Q U X R V) :
    SqlEvent N Q U X R V → Prop
  | .resolveTable _ =>
      s.readSnapshotFields = (s.session.openTxUuid, if s.session.openTxUuid.isSome then none else s.phase.pin)
  | .execute =>
      match s.phase with
      | .executing ticket plan => s.ScansOneState planner ticket plan
      | _                      => True
  | .read i j own =>
      ∀ stream ∈ s.streams[i]?, ∀ scan ∈ stream.scans[j]?, scan.fields.1 = none →
        Sql.rowsOf scan.provider.name (visible s.history own scan.fields) =
          Sql.rowsOf scan.provider.name (visibleAt s.history stream.ticket.captured)
  | _ => True

/-- Outside a transaction, a query over some table has a ticket from outside a transaction; and if its plan is still the
    one made at prepare time, the tables it resolved then have not changed up to the number captured at `GetFlightInfo`. -/
def Server.PlanCurrent (planner : Planner N M Q R V) (s : Server N M Q U X R V) (ticket : CommandTicket Q U)
    (plan : LogicalPlan N M Q R V) : Prop :=
  s.session.openTxUuid = none → plan.providers = [] ∨ (ticket.asOfSeq.isSome = true ∧
    (plan.prepared = true → ∀ p ∈ plan.providers,
      planner.resolve p.seen p.name = planner.resolve (visibleAt s.history ticket.captured) p.name))

/-- Every plan that is executed is current. -/
def ExecutesCurrent (planner : Planner N M Q R V) (s : Server N M Q U X R V) : SqlEvent N Q U X R V → Prop
  | .execute =>
      match s.phase with
      | .executing ticket plan => s.PlanCurrent planner ticket plan
      | _                      => True
  | _ => True

section Decidable

variable [DecidableEq M] [DecidableEq X]

instance (planner : Planner N M Q R V) (s : Server N M Q U X R V) (ticket : CommandTicket Q U)
    (plan : LogicalPlan N M Q R V) : Decidable (s.ScansOneState planner ticket plan) :=
  match h : s.session.openTxUuid with
  | some tx => decidable_of_iff (∀ p ∈ plan.providers, s.readSnapshotFields = (some tx, none))
      (by simp only [Server.ScansOneState, h])
  | none    => decidable_of_iff
      (∀ p ∈ plan.providers, s.readSnapshotFields = (none, some ticket.captured) ∧
        planner.resolve (visibleAt s.history ticket.captured) p.name = some p.table)
      (by simp only [Server.ScansOneState, h])

instance [DecidableEq N] [DecidableEq R] [DecidableEq V] (planner : Planner N M Q R V) (s : Server N M Q U X R V) :
    ∀ e, Decidable (OneState planner s e)
  | .resolveTable _ => inferInstanceAs (Decidable (_ = _))
  | .execute        =>
      match h : s.phase with
      | .executing ticket plan =>
          decidable_of_iff (s.ScansOneState planner ticket plan) (by simp only [OneState, h])
      | .idle | .preparing _ _ | .flightInfo _ _ _ _ | .replanning _ _ => isTrue (by simp only [OneState, h])
  | .read i j own   => inferInstanceAs (Decidable (∀ stream ∈ s.streams[i]?, ∀ scan ∈ stream.scans[j]?,
      scan.fields.1 = none → Sql.rowsOf scan.provider.name (visible s.history own scan.fields) =
        Sql.rowsOf scan.provider.name (visibleAt s.history stream.ticket.captured)))
  | .commit _ _ | .lifecycle | .beginTx _ | .endTx | .createPreparedStatement _ | .getFlightInfoStatement _
  | .getFlightInfoPrepared _ | .finish _ | .doGet _ | .fail => isTrue trivial

end Decidable

/-! ## Invariant -/

section Branch

variable {H : History R V}

/-- A commit leaves what is visible at an earlier number alone. -/
theorem visibleAt_commit {seq : Int} (h : seq ≤ getMaxCommitSeqNum H) (micros : Int) (rows : TxWrites R V) :
    visibleAt (H.commit micros rows) seq = visibleAt H seq := by
  unfold History.commit
  split_ifs with haccepts
  · have hnone : (H.nextTx micros rows).entries.filter (ReadSnapshot.asOfSeq seq).sees = [] := by
      apply List.filter_eq_nil_iff.mpr
      intro e he hsees
      have hseq := CommittedTx.commitSeqNum_of_mem he
      have hle : e.commitSeqNum ≤ seq := of_decide_eq_true hsees
      simp only [getMaxCommitSeqNum, seqFrontierFromCounter, Option.getD_some, History.nextTx] at h hseq
      omega
    rw [visibleAt, History.entries_append, List.filter_append, hnone, List.append_nil]
    rfl
  · rfl

theorem getMaxCommitSeqNum_le_commit (H : History R V) (micros : Int) (rows : TxWrites R V) :
    getMaxCommitSeqNum H ≤ getMaxCommitSeqNum (H.commit micros rows) := by
  unfold History.commit
  split_ifs
  · simp only [getMaxCommitSeqNum, seqFrontierFromCounter, History.append, List.length_append, Option.getD_some]
    omega
  · exact le_refl _

end Branch

/-- The metadata of a provider is what its resolution saw. -/
def TableProvider.Resolved (planner : Planner N M Q R V) (p : TableProvider N M R V) : Prop :=
  planner.resolve p.seen p.name = some p.table

/-- The number the calls of a request are made at. -/
def Phase.ownPin (openTx : Option X) (phase : Phase N M Q U R V) : Option Int :=
  if openTx.isSome then none else phase.pin

/-- Something was read at the pin, if there is one. -/
def AtPin (H : History (N × R) V) (pin : Option Int) (seen : List (LogEntry (N × R) V)) : Prop :=
  ∀ seq ∈ pin, seen = visibleAt H seq

/-- A ticket has the number captured for it or none. -/
structure CommandTicket.Sound (H : History (N × R) V) (t : CommandTicket Q U) : Prop where
  asOf : ∀ seq ∈ t.asOfSeq, seq = t.captured
  past : t.captured ≤ getMaxCommitSeqNum H

/-- What the client and the cache hold. A plan made by `GetFlightInfo` is in the cache under the uuid of its ticket only,
    and was made at the pin of this ticket. -/
structure Server.Issued (planner : Planner N M Q R V) (s : Server N M Q U X R V) : Prop where
  tickets : ∀ t ∈ s.tickets, t.Sound s.history
  ticketMinted : ∀ t ∈ s.tickets, t.statementUuid ∈ s.minted
  handleMinted : ∀ h ∈ s.handles, ∀ u ∈ h.statementUuid, u ∈ s.minted
  entryMinted : ∀ e ∈ s.statementCache.entries, e.1 ∈ s.minted
  resolved : ∀ e ∈ s.statementCache.entries, ∀ p ∈ e.2.providers, p.Resolved planner
  handlePrepared : ∀ h ∈ s.handles, ∀ u ∈ h.statementUuid, ∀ e ∈ s.statementCache.entries, e.1 = u →
    e.2.prepared = true
  atPin : ∀ e ∈ s.statementCache.entries, e.2.prepared = false → ∀ t ∈ s.tickets, t.statementUuid = e.1 →
    ∀ seq ∈ t.asOfSeq, ∀ p ∈ e.2.providers, p.seen = visibleAt s.history seq

/-- Providers resolved at the pin. -/
def Built (planner : Planner N M Q R V) (H : History (N × R) V) (pin : Option Int)
    (providers : List (TableProvider N M R V)) : Prop :=
  ∀ p ∈ providers, p.Resolved planner ∧ AtPin H pin p.seen

/-- What a request has done so far. -/
def Phase.Sound (planner : Planner N M Q R V) (H : History (N × R) V) (openTx : Option X) :
    Phase N M Q U R V → Prop
  | .idle                             => True
  | .preparing _ build                => Built planner H none build.providers
  | .flightInfo _ asOf captured build =>
      (∀ seq ∈ asOf, seq = captured) ∧ (asOf.isSome = true → openTx = none) ∧ captured ≤ getMaxCommitSeqNum H ∧
        Built planner H asOf build.providers
  | .replanning ticket build          =>
      ticket.Sound H ∧ Built planner H (if openTx.isSome then none else ticket.asOfSeq) build.providers
  | .executing ticket plan            =>
      ticket.Sound H ∧ (∀ p ∈ plan.providers, p.Resolved planner) ∧
        (plan.prepared = false → ∀ p ∈ plan.providers,
          AtPin H (if openTx.isSome then none else ticket.asOfSeq) p.seen)

/-- The running request: the cell holds its pin and no other, and its memo is its own. -/
structure Server.Request (planner : Planner N M Q R V) (s : Server N M Q U X R V) : Prop where
  cell : s.asOfSeqCell = s.phase.pin
  memo : ∀ entry ∈ s.memo.getD [], planner.resolve entry.2.2 entry.1 = entry.2.1 ∧
    AtPin s.history (s.phase.ownPin s.session.openTxUuid) entry.2.2
  noMemo : s.phase.build = none → s.memo = none
  phase : s.phase.Sound planner s.history s.session.openTxUuid

/-- The scans outside a transaction carry the number captured for their statement. -/
def Server.Pinned (s : Server N M Q U X R V) : Prop :=
  ∀ stream ∈ s.streams, stream.ticket.captured ≤ getMaxCommitSeqNum s.history ∧
    ∀ scan ∈ stream.scans, scan.fields.1 = none → scan.fields.2 = some stream.ticket.captured

structure Server.Inv (planner : Planner N M Q R V) (s : Server N M Q U X R V) : Prop where
  issued : s.Issued planner
  request : s.Request planner
  pinned : s.Pinned

section Inv

variable {planner : Planner N M Q R V} {s s' : Server N M Q U X R V} {H : History (N × R) V} {openTx : Option X}
  {phase : Phase N M Q U R V}

theorem inv_init (H : History (N × R) V) (capacity : Nat) :
    (Server.init H capacity : Server N M Q U X R V).Inv planner where
  issued := by
    constructor <;> simp [Server.init, StatementCache.new]
  request := ⟨rfl, by simp [Server.init], fun _ => rfl, trivial⟩
  pinned := by simp [Server.Pinned, Server.init]

@[simp] theorem Phase.ownPin_idle (openTx : Option X) : (.idle : Phase N M Q U R V).ownPin openTx = none := by
  unfold Phase.ownPin
  split_ifs <;> rfl

theorem atPin_none (H : History (N × R) V) (seen : List (LogEntry (N × R) V)) : AtPin H none seen := by
  intro seq hseq
  cases hseq

theorem Phase.openTx_of_mem_ownPin {seq : Int} (h : seq ∈ phase.ownPin openTx) : openTx = none ∧ seq ∈ phase.pin := by
  unfold Phase.ownPin at h
  split_ifs at h with hopen
  · cases h
  · exact ⟨by simpa using hopen, h⟩

theorem Server.Request.readSnapshotFields_eq (h : s.Request planner) :
    s.readSnapshotFields = (s.session.openTxUuid, s.phase.ownPin s.session.openTxUuid) := by
  rw [Server.readSnapshotFields, Phase.ownPin, s.session.inSync, h.cell]

/-- A call of the running request sees the state at its pin. -/
theorem Server.Request.atPin_visible (h : s.Request planner) (own : List (LogEntry (N × R) V)) :
    AtPin s.history (s.phase.ownPin s.session.openTxUuid) (visible s.history own s.readSnapshotFields) := by
  intro seq hseq
  rw [h.readSnapshotFields_eq, (Phase.openTx_of_mem_ownPin hseq).1]
  rw [(Phase.openTx_of_mem_ownPin hseq).1] at hseq
  rw [Option.mem_def.mp hseq]
  rfl

/-! ### Commits -/

theorem CommandTicket.Sound.commit {t : CommandTicket Q U} (h : t.Sound H) (micros : Int)
    (rows : TxWrites (N × R) V) : t.Sound (H.commit micros rows) :=
  ⟨h.asOf, h.past.trans (getMaxCommitSeqNum_le_commit H micros rows)⟩

theorem CommandTicket.Sound.le {t : CommandTicket Q U} (h : t.Sound H) {seq : Int} (hseq : seq ∈ t.asOfSeq) :
    seq ≤ getMaxCommitSeqNum H := h.asOf seq hseq ▸ h.past

/-- What was read at a pin of the past is what is visible there after more commits. -/
theorem AtPin.commit {pin : Option Int} {seen : List (LogEntry (N × R) V)} (h : AtPin H pin seen)
    (hpast : ∀ seq ∈ pin, seq ≤ getMaxCommitSeqNum H) (micros : Int) (rows : TxWrites (N × R) V) :
    AtPin (H.commit micros rows) pin seen := by
  intro seq hseq
  rw [h seq hseq, visibleAt_commit (hpast seq hseq)]

theorem Built.commit {pin : Option Int} {providers : List (TableProvider N M R V)} (h : Built planner H pin providers)
    (hpast : ∀ seq ∈ pin, seq ≤ getMaxCommitSeqNum H) (micros : Int) (rows : TxWrites (N × R) V) :
    Built planner (H.commit micros rows) pin providers :=
  fun p hp => ⟨(h p hp).1, (h p hp).2.commit hpast micros rows⟩

theorem Phase.Sound.pin_le (h : phase.Sound planner H openTx) {seq : Int} (hseq : seq ∈ phase.pin) :
    seq ≤ getMaxCommitSeqNum H := by
  cases phase with
  | idle => cases hseq
  | preparing query build => cases hseq
  | flightInfo query asOf captured build => exact h.1 seq hseq ▸ h.2.2.1
  | replanning ticket build => exact h.1.le hseq
  | executing ticket plan => exact h.1.le hseq

theorem mem_of_mem_ite {c : Bool} {o : Option Int} {seq : Int} (h : seq ∈ (if c then none else o)) : seq ∈ o := by
  split_ifs at h
  · cases h
  · exact h

theorem Phase.Sound.commit (h : phase.Sound planner H openTx) (micros : Int) (rows : TxWrites (N × R) V) :
    phase.Sound planner (H.commit micros rows) openTx := by
  cases phase with
  | idle => trivial
  | preparing query build => exact Built.commit h (fun seq hseq => by cases hseq) micros rows
  | flightInfo query asOf captured build =>
      obtain ⟨hasOf, hopen, hpast, hbuilt⟩ := h
      exact ⟨hasOf, hopen, hpast.trans (getMaxCommitSeqNum_le_commit H micros rows),
        hbuilt.commit (fun seq hseq => hasOf seq hseq ▸ hpast) micros rows⟩
  | replanning ticket build =>
      exact ⟨h.1.commit micros rows, h.2.commit (fun seq hseq => h.1.le (mem_of_mem_ite hseq)) micros rows⟩
  | executing ticket plan =>
      refine ⟨h.1.commit micros rows, h.2.1, ?_⟩
      intro hprep p hp
      exact (h.2.2 hprep p hp).commit (fun seq hseq => h.1.le (mem_of_mem_ite hseq)) micros rows

theorem Server.Inv.commit (h : s.Inv planner) (micros : Int) (rows : TxWrites (N × R) V) :
    ({ s with history := s.history.commit micros rows } : Server N M Q U X R V).Inv planner where
  issued :=
    { h.issued with
      tickets := fun t ht => (h.issued.tickets t ht).commit micros rows
      atPin := by
        intro e he hprep t ht hu seq hseq p hp
        rw [h.issued.atPin e he hprep t ht hu seq hseq p hp]
        exact (visibleAt_commit ((h.issued.tickets t ht).le hseq) micros rows).symm }
  request :=
    { cell := h.request.cell
      memo := by
        intro entry hentry
        obtain ⟨hresolve, hat⟩ := h.request.memo entry hentry
        exact ⟨hresolve, hat.commit (fun seq hseq => h.request.phase.pin_le (Phase.openTx_of_mem_ownPin hseq).2) micros rows⟩
      noMemo := h.request.noMemo
      phase := h.request.phase.commit micros rows }
  pinned := by
    intro stream hstream
    exact ⟨(h.pinned stream hstream).1.trans (getMaxCommitSeqNum_le_commit s.history micros rows),
      (h.pinned stream hstream).2⟩

/-! ### Requests -/

theorem Server.Request.release (h : s.Request planner) : s.release.Request planner where
  cell := by
    change (if s.phase.pin.isSome then none else s.asOfSeqCell) = none
    rw [h.cell]
    cases s.phase.pin <;> rfl
  memo := by simp [Server.release]
  noMemo _ := rfl
  phase := trivial

theorem Server.Inv.release (h : s.Inv planner) : s.release.Inv planner :=
  ⟨{ h.issued with }, h.request.release, h.pinned⟩

/-- `BEGIN`, `COMMIT` and `ROLLBACK` come between requests. -/
theorem Server.Inv.setSession (h : s.Inv planner) (hidle : s.phase = .idle) (session : Sql.ConnSession X) :
    ({ s with session := session } : Server N M Q U X R V).Inv planner where
  issued := { h.issued with }
  request :=
    { cell := h.request.cell
      memo := by
        intro entry hentry
        refine ⟨(h.request.memo entry hentry).1, ?_⟩
        change AtPin s.history (s.phase.ownPin session.openTxUuid) entry.2.2
        rw [hidle, Phase.ownPin_idle]
        exact atPin_none _ _
      noMemo := h.request.noMemo
      phase := by
        change s.phase.Sound planner s.history session.openTxUuid
        rw [hidle]
        trivial }
  pinned := h.pinned

theorem Server.Inv.startBuild (h : s.Inv planner) (hidle : s.phase = .idle) (phase : Phase N M Q U R V)
    (hbuild : phase.build ≠ none) (hphase : phase.Sound planner s.history s.session.openTxUuid) :
    ((s.installPin phase.pin).startBuild phase).Inv planner where
  issued := { h.issued with }
  request :=
    { cell := by
        change phase.pin.or s.asOfSeqCell = phase.pin
        rw [h.request.cell, hidle]
        exact Option.or_none
      memo := by simp [Server.startBuild]
      noMemo := fun hnone => absurd hnone hbuild
      phase := hphase }
  pinned := h.pinned

theorem built_nil (H : History (N × R) V) (pin : Option Int) : Built planner H pin [] := by
  intro p hp
  cases hp

/-- A cached plan is in order for any ticket that names it. -/
theorem Server.Inv.doGet [DecidableEq U] (h : s.Inv planner) (hidle : s.phase = .idle) {t : CommandTicket Q U}
    (ht : t ∈ s.tickets) : (s.doGet planner t).Inv planner := by
  have hsound := h.issued.tickets t ht
  have hmemo : s.memo = none := h.request.noMemo (by rw [hidle]; rfl)
  unfold Server.doGet
  split
  next plan hget =>
    have hmem := StatementCache.mem_of_get hget
    refine ⟨{ h.issued with }, ⟨?_, ?_, fun _ => hmemo, hsound, h.issued.resolved _ hmem, ?_⟩, h.pinned⟩
    · change t.asOfSeq.or s.asOfSeqCell = t.asOfSeq
      rw [h.request.cell, hidle]
      exact Option.or_none
    · intro entry hentry
      change entry ∈ s.memo.getD [] at hentry
      rw [hmemo] at hentry
      cases hentry
    · intro hprep p hp seq hseq
      exact h.issued.atPin _ hmem hprep t ht rfl seq (mem_of_mem_ite hseq) p hp
  next =>
    exact h.startBuild hidle (.replanning t ⟨planner.tables t.query, []⟩) (Option.some_ne_none _)
      ⟨hsound, built_nil _ _⟩

theorem mem_pinAsOfSeq {seq frontier : Int} (h : seq ∈ pinAsOfSeq openTx frontier) : seq = frontier := by
  cases openTx with
  | none => exact (Option.some.inj h).symm
  | some tx => cases h

theorem openTx_of_pinAsOfSeq {frontier : Int} (h : (pinAsOfSeq openTx frontier).isSome = true) : openTx = none := by
  cases openTx with
  | none => rfl
  | some tx => cases h

/-- A new ticket for a plan in the cache: plans that a handle names were made at prepare time. -/
theorem Server.Issued.addTicket (h : s.Issued planner) {t : CommandTicket Q U} (hsound : t.Sound s.history)
    (hminted : t.statementUuid ∈ s.minted)
    (hplan : ∀ e ∈ s.statementCache.entries, e.1 = t.statementUuid → e.2.prepared = true) :
    ({ s with tickets := s.tickets ++ [t] } : Server N M Q U X R V).Issued planner where
  tickets t' ht' := by
    rcases List.mem_append.mp ht' with ht' | ht'
    · exact h.tickets t' ht'
    · exact List.mem_singleton.mp ht' ▸ hsound
  ticketMinted t' ht' := by
    rcases List.mem_append.mp ht' with ht' | ht'
    · exact h.ticketMinted t' ht'
    · exact List.mem_singleton.mp ht' ▸ hminted
  handleMinted := h.handleMinted
  entryMinted := h.entryMinted
  resolved := h.resolved
  handlePrepared := h.handlePrepared
  atPin e he hprep t' ht' hu := by
    rcases List.mem_append.mp ht' with ht' | ht'
    · exact h.atPin e he hprep t' ht' hu
    · obtain rfl := List.mem_singleton.mp ht'
      rw [hplan e he hu.symm] at hprep
      cases hprep

theorem Server.Inv.getFlightInfo [DecidableEq U] (h : s.Inv planner) (hidle : s.phase = .idle) (query : Q)
    {statementUuid : Option U}
    (hu : ∀ u ∈ statementUuid, u ∈ s.minted ∧ ∀ e ∈ s.statementCache.entries, e.1 = u → e.2.prepared = true) :
    (s.getFlightInfo planner query statementUuid).Inv planner := by
  have hasOf : ∀ seq ∈ pinAsOfSeq s.session.openTxUuid (getMaxCommitSeqNum s.history),
      seq = getMaxCommitSeqNum s.history := fun seq hseq => mem_pinAsOfSeq hseq
  unfold Server.getFlightInfo
  simp only
  split
  next u hfilter =>
    obtain ⟨hminted, hprepared⟩ := hu u (Option.mem_filter_iff.mp hfilter).1
    exact ⟨h.issued.addTicket ⟨hasOf, le_refl _⟩ hminted hprepared,
      ⟨h.request.cell, h.request.memo, h.request.noMemo, h.request.phase⟩, h.pinned⟩
  next =>
    exact h.startBuild hidle (.flightInfo query _ _ ⟨planner.tables query, []⟩) (Option.some_ne_none _)
      ⟨hasOf, openTx_of_pinAsOfSeq, le_refl _, built_nil _ _⟩

/-! ### Plan builds -/

@[simp] theorem Phase.pin_setBuild (build : Build N M R V) (phase : Phase N M Q U R V) :
    (phase.setBuild build).pin = phase.pin := by
  cases phase <;> rfl

@[simp] theorem Phase.ownPin_setBuild (build : Build N M R V) (phase : Phase N M Q U R V) :
    (phase.setBuild build).ownPin openTx = phase.ownPin openTx := by
  unfold Phase.ownPin
  rw [Phase.pin_setBuild]

theorem Phase.build_setBuild {build build' : Build N M R V} (h : phase.build = some build) :
    (phase.setBuild build').build = some build' := by
  cases phase with
  | idle => cases h
  | executing ticket plan => cases h
  | _ => rfl

theorem Built.snoc {pin : Option Int} {providers : List (TableProvider N M R V)} (h : Built planner H pin providers)
    {p : TableProvider N M R V} (hp : p.Resolved planner ∧ AtPin H pin p.seen) :
    Built planner H pin (providers ++ [p]) := by
  intro p' hp'
  rcases List.mem_append.mp hp' with hp' | hp'
  · exact h p' hp'
  · exact List.mem_singleton.mp hp' ▸ hp

/-- A provider resolved at the request's pin goes into its build. -/
theorem Phase.Sound.addProvider (h : phase.Sound planner H openTx) {pending : List N} {build : Build N M R V}
    (hbuild : phase.build = some build) {p : TableProvider N M R V}
    (hp : p.Resolved planner ∧ AtPin H (phase.ownPin openTx) p.seen) :
    (phase.setBuild ⟨pending, build.providers ++ [p]⟩).Sound planner H openTx := by
  cases phase with
  | idle => cases hbuild
  | preparing query b =>
      cases hbuild
      exact Built.snoc h ⟨hp.1, atPin_none _ _⟩
  | flightInfo query asOf captured b =>
      cases hbuild
      obtain ⟨hasOf, hopen, hpast, hbuilt⟩ := h
      refine ⟨hasOf, hopen, hpast, hbuilt.snoc ⟨hp.1, ?_⟩⟩
      intro seq hseq
      have hnone : openTx = none := hopen (Option.isSome_iff_exists.mpr ⟨seq, hseq⟩)
      subst hnone
      exact hp.2 seq hseq
  | replanning ticket b =>
      cases hbuild
      exact ⟨h.1, h.2.snoc hp⟩
  | executing ticket plan => cases hbuild

section Resolve

variable [DecidableEq N]

/-- What the memo or the call answers is what the planner makes of what it saw, at the request's pin. -/
theorem Server.Request.resolved (h : s.Request planner) (own : List (LogEntry (N × R) V)) (name : N) :
    planner.resolve (s.resolved planner own name).2 name = (s.resolved planner own name).1 ∧
      AtPin s.history (s.phase.ownPin s.session.openTxUuid) (s.resolved planner own name).2 := by
  unfold Server.resolved
  split
  next entry hfind =>
    have hname := List.find?_some hfind
    rw [← of_decide_eq_true hname]
    exact h.memo entry (List.mem_of_find?_eq_some hfind)
  next => exact ⟨rfl, h.atPin_visible own⟩

theorem mem_memo_of_mem {α : Type} {memo : Option (List (N × α))} {name : N} {answer : α} {entry : N × α}
    (h : entry ∈ (memo.map (fun memo =>
      if memo.any (fun entry => entry.1 = name) then memo else memo ++ [(name, answer)])).getD []) :
    entry ∈ memo.getD [] ∨ entry = (name, answer) := by
  cases memo with
  | none => cases h
  | some memo =>
      change entry ∈ (if _ then memo else memo ++ [(name, answer)]) at h
      split_ifs at h
      · exact .inl h
      · rcases List.mem_append.mp h with h | h
        · exact .inl h
        · exact .inr (List.mem_singleton.mp h)

theorem Server.Inv.resolveNext (h : s.Inv planner) {own : List (LogEntry (N × R) V)}
    (hstep : s.resolveNext planner own = some s') : s'.Inv planner := by
  unfold Server.resolveNext at hstep
  split at hstep
  next name pending providers hbuild =>
    have hanswer := h.request.resolved own name
    simp only at hstep
    split at hstep
    next =>
      cases hstep
      exact h.release
    next table htable =>
      cases hstep
      rw [htable] at hanswer
      refine ⟨{ h.issued with }, ⟨?_, ?_, ?_, ?_⟩, h.pinned⟩
      · change s.asOfSeqCell = (s.phase.setBuild _).pin
        rw [Phase.pin_setBuild, h.request.cell]
      · intro entry hentry
        change planner.resolve entry.2.2 entry.1 = entry.2.1 ∧
          AtPin s.history ((s.phase.setBuild _).ownPin s.session.openTxUuid) entry.2.2
        rw [Phase.ownPin_setBuild]
        rcases mem_memo_of_mem hentry with hentry | rfl
        · exact h.request.memo entry hentry
        · exact ⟨hanswer.1.trans htable.symm, hanswer.2⟩
      · intro hnone
        rw [Phase.build_setBuild hbuild] at hnone
        cases hnone
      · exact h.request.phase.addProvider hbuild hanswer
  next => cases hstep

end Resolve

/-- A plan made at prepare time, under a new uuid, with the handle that names it. -/
theorem Server.Issued.addPrepared (h : s.Issued planner) {u : U} (hu : u ∉ s.minted) {query : Q}
    {providers : List (TableProvider N M R V)} (hbuilt : Built planner s.history none providers) :
    ({ s with
        statementCache := s.statementCache.insert u ⟨query, providers, true⟩
        handles := s.handles ++ [⟨query, some u⟩]
        minted := u :: s.minted } : Server N M Q U X R V).Issued planner where
  tickets := h.tickets
  ticketMinted t ht := List.mem_cons_of_mem _ (h.ticketMinted t ht)
  handleMinted handle hhandle u' hu' := by
    rcases List.mem_append.mp hhandle with hhandle | hhandle
    · exact List.mem_cons_of_mem _ (h.handleMinted handle hhandle u' hu')
    · obtain rfl := List.mem_singleton.mp hhandle
      cases hu'
      exact List.mem_cons_self
  entryMinted e he := by
    rcases StatementCache.mem_insert he with he | rfl
    · exact List.mem_cons_of_mem _ (h.entryMinted e he)
    · exact List.mem_cons_self
  resolved e he p hp := by
    rcases StatementCache.mem_insert he with he | rfl
    · exact h.resolved e he p hp
    · exact (hbuilt p hp).1
  handlePrepared handle hhandle u' hu' e he heq := by
    rcases StatementCache.mem_insert he with he | rfl
    · rcases List.mem_append.mp hhandle with hhandle | hhandle
      · exact h.handlePrepared handle hhandle u' hu' e he heq
      · -- The new uuid names no older entry.
        obtain rfl := List.mem_singleton.mp hhandle
        cases hu'
        exact absurd (heq ▸ h.entryMinted e he) hu
    · rfl
  atPin e he hprep t ht heq := by
    rcases StatementCache.mem_insert he with he | rfl
    · exact h.atPin e he hprep t ht heq
    · cases hprep

/-- A plan made by `GetFlightInfo`, under a new uuid, with the ticket that names it. -/
theorem Server.Issued.addPlanned (h : s.Issued planner) {t : CommandTicket Q U} (hu : t.statementUuid ∉ s.minted)
    (hsound : t.Sound s.history) {providers : List (TableProvider N M R V)}
    (hbuilt : Built planner s.history t.asOfSeq providers) :
    ({ s with
        statementCache := s.statementCache.insert t.statementUuid ⟨t.query, providers, false⟩
        tickets := s.tickets ++ [t]
        minted := t.statementUuid :: s.minted } : Server N M Q U X R V).Issued planner where
  tickets t' ht' := by
    rcases List.mem_append.mp ht' with ht' | ht'
    · exact h.tickets t' ht'
    · exact List.mem_singleton.mp ht' ▸ hsound
  ticketMinted t' ht' := by
    rcases List.mem_append.mp ht' with ht' | ht'
    · exact List.mem_cons_of_mem _ (h.ticketMinted t' ht')
    · exact List.mem_singleton.mp ht' ▸ List.mem_cons_self
  handleMinted handle hhandle u hu' := List.mem_cons_of_mem _ (h.handleMinted handle hhandle u hu')
  entryMinted e he := by
    rcases StatementCache.mem_insert he with he | rfl
    · exact List.mem_cons_of_mem _ (h.entryMinted e he)
    · exact List.mem_cons_self
  resolved e he p hp := by
    rcases StatementCache.mem_insert he with he | rfl
    · exact h.resolved e he p hp
    · exact (hbuilt p hp).1
  handlePrepared handle hhandle u hu' e he heq := by
    rcases StatementCache.mem_insert he with he | rfl
    · exact h.handlePrepared handle hhandle u hu' e he heq
    · have hold := h.handleMinted handle hhandle u hu'
      rw [← heq] at hold
      exact absurd hold hu
  atPin e he hprep t' ht' heq := by
    rcases StatementCache.mem_insert he with he | rfl
    · have hold := h.entryMinted e he
      rcases List.mem_append.mp ht' with ht' | ht'
      · exact h.atPin e he hprep t' ht' heq
      · rw [← heq, List.mem_singleton.mp ht'] at hold
        exact absurd hold hu
    · rcases List.mem_append.mp ht' with ht' | ht'
      · have hold := h.ticketMinted t' ht'
        rw [heq] at hold
        exact absurd hold hu
      · obtain rfl := List.mem_singleton.mp ht'
        exact fun seq hseq p hp => (hbuilt p hp).2 seq hseq

theorem Server.Inv.finishBuild [DecidableEq U] (h : s.Inv planner) {u : U} (hstep : s.finishBuild u = some s') :
    s'.Inv planner := by
  have hphase := h.request.phase
  unfold Server.finishBuild at hstep
  split at hstep
  next query providers hp =>
    split_ifs at hstep with hu
    cases hstep
    rw [hp] at hphase
    exact ⟨h.release.issued.addPrepared hu hphase, { h.request.release with }, h.pinned⟩
  next query asOf captured providers hp =>
    split_ifs at hstep with hu
    cases hstep
    rw [hp] at hphase
    obtain ⟨hasOf, -, hpast, hbuilt⟩ := hphase
    exact ⟨h.release.issued.addPlanned (t := ⟨query, u, asOf, captured⟩) hu ⟨hasOf, hpast⟩ hbuilt,
      { h.request.release with }, h.pinned⟩
  next ticket providers hp =>
    cases hstep
    rw [hp] at hphase
    refine ⟨{ h.issued with }, ⟨?_, ?_, fun _ => rfl, ?_⟩, h.pinned⟩
    · change s.asOfSeqCell = ticket.asOfSeq
      rw [h.request.cell, hp]
      rfl
    · intro entry hentry
      cases hentry
    · exact ⟨hphase.1, fun p hp' => (hphase.2 p hp').1, fun _ p hp' => (hphase.2 p hp').2⟩
  next => cases hstep

/-! ## The plan that is executed -/

/-- The scans of a plan read one state exactly if the plan is current. -/
theorem Server.Inv.scansOneState_iff (h : s.Inv planner) {ticket : CommandTicket Q U} {plan : LogicalPlan N M Q R V}
    (hp : s.phase = .executing ticket plan) :
    s.ScansOneState planner ticket plan ↔ s.PlanCurrent planner ticket plan := by
  have hphase := h.request.phase
  rw [hp] at hphase
  obtain ⟨hsound, hresolved, hatPin⟩ := hphase
  have hfields := h.request.readSnapshotFields_eq
  unfold Server.ScansOneState Server.PlanCurrent
  cases hopen : s.session.openTxUuid with
  | some tx =>
      rw [hopen] at hfields
      exact iff_of_true (fun p _ => hfields) (fun hnone => by cases hnone)
  | none =>
      rw [hopen, hp] at hfields
      rw [hopen] at hatPin
      change s.readSnapshotFields = (none, ticket.asOfSeq) at hfields
      simp only [hfields, forall_const]
      constructor
      · intro hall
        rcases List.eq_nil_or_concat plan.providers with hnil | ⟨_, last, hlast⟩
        · exact .inl hnil
        · have hpin := (hall last (by simp [hlast])).1
          refine .inr ⟨by rw [(Prod.mk.inj hpin).2]; rfl, ?_⟩
          intro _ p hp'
          rw [(hall p hp').2]
          exact hresolved p hp'
      · rintro (hnil | ⟨hsome, hprep⟩) p hp'
        · rw [hnil] at hp'
          cases hp'
        · obtain ⟨seq, hseq⟩ := Option.isSome_iff_exists.mp hsome
          have hcaptured : ticket.asOfSeq = some ticket.captured := by
            rw [hseq, hsound.asOf seq hseq]
          refine ⟨by rw [hcaptured], ?_⟩
          have hmade := hresolved p hp'
          cases hkind : plan.prepared with
          | true =>
              rw [← hprep hkind p hp']
              exact hmade
          | false =>
              rw [← hatPin hkind p hp' ticket.captured hcaptured]
              exact hmade

theorem Server.Inv.execute (h : s.Inv planner) {ticket : CommandTicket Q U} {plan : LogicalPlan N M Q R V}
    (hp : s.phase = .executing ticket plan) (hcurrent : s.PlanCurrent planner ticket plan) :
    ({ s.release with
        streams := s.streams ++ [⟨ticket, plan.providers.map (fun p => ⟨p, s.readSnapshotFields⟩)⟩] } :
      Server N M Q U X R V).Inv planner := by
  refine ⟨{ h.issued with }, { h.request.release with }, ?_⟩
  intro stream hstream
  rcases List.mem_append.mp hstream with hstream | hstream
  · exact h.pinned stream hstream
  · obtain rfl := List.mem_singleton.mp hstream
    have hphase := h.request.phase
    rw [hp] at hphase
    refine ⟨hphase.1.past, ?_⟩
    intro scan hscan hnone
    obtain ⟨p, hp', rfl⟩ := List.mem_map.mp hscan
    have hone := (h.scansOneState_iff hp).mpr hcurrent p hp'
    have hopen : s.session.openTxUuid = none := by
      rw [← s.session.inSync]
      exact hnone
    rw [hopen] at hone
    exact congrArg Prod.snd hone.1

end Inv

section Runs

variable [DecidableEq N] [DecidableEq U] {planner : Planner N M Q R V} {s s' : Server N M Q U X R V}

theorem Server.Inv.step (h : s.Inv planner) {e : SqlEvent N Q U X R V} (hcurrent : ExecutesCurrent planner s e)
    (hstep : sqlStep planner s e = some s') : s'.Inv planner := by
  cases e with
  | commit micros rows =>
      cases hstep
      exact h.commit micros rows
  | lifecycle =>
      cases hstep
      exact h
  | beginTx tx =>
      simp only [sqlStep] at hstep
      split at hstep
      next hidle _ =>
        cases hstep
        exact h.setSession hidle _
      next => cases hstep
  | endTx =>
      simp only [sqlStep] at hstep
      split at hstep
      next hidle _ =>
        cases hstep
        exact h.setSession hidle _
      next => cases hstep
  | createPreparedStatement query =>
      simp only [sqlStep] at hstep
      split at hstep
      next hidle =>
        cases hstep
        exact h.startBuild hidle (.preparing query ⟨planner.tables query, []⟩) (Option.some_ne_none _)
          (built_nil _ _)
      next => cases hstep
  | getFlightInfoStatement query =>
      simp only [sqlStep] at hstep
      split at hstep
      next hidle =>
        cases hstep
        exact h.getFlightInfo hidle query (fun u hu => by cases hu)
      next => cases hstep
  | getFlightInfoPrepared i =>
      simp only [sqlStep] at hstep
      split at hstep
      next hidle =>
        obtain ⟨handle, hget, rfl⟩ := Option.map_eq_some_iff.mp hstep
        have hhandle := List.mem_of_getElem? hget
        exact h.getFlightInfo hidle _ (fun u hu =>
          ⟨h.issued.handleMinted handle hhandle u hu, h.issued.handlePrepared handle hhandle u hu⟩)
      next => cases hstep
  | resolveTable own => exact h.resolveNext hstep
  | finish u => exact h.finishBuild hstep
  | doGet i =>
      simp only [sqlStep] at hstep
      split at hstep
      next hidle =>
        obtain ⟨t, hget, rfl⟩ := Option.map_eq_some_iff.mp hstep
        exact h.doGet hidle (List.mem_of_getElem? hget)
      next => cases hstep
  | execute =>
      simp only [sqlStep] at hstep
      split at hstep
      next ticket plan hp =>
        cases hstep
        simp only [ExecutesCurrent, hp] at hcurrent
        exact h.execute hp hcurrent
      next => cases hstep
  | fail =>
      simp only [sqlStep] at hstep
      split at hstep
      next => cases hstep
      next =>
        cases hstep
        exact h.release
  | read i j own =>
      obtain ⟨scan, -, rfl⟩ := Option.map_eq_some_iff.mp hstep
      exact h

variable [DecidableEq R]

omit [DecidableEq U] in
/-- An event reads what it is to read exactly if the plan it executes, if it does, is current. -/
theorem Server.Inv.oneState_iff (h : s.Inv planner) (e : SqlEvent N Q U X R V) :
    OneState planner s e ↔ ExecutesCurrent planner s e := by
  cases e with
  | resolveTable own => exact iff_of_true h.request.readSnapshotFields_eq trivial
  | execute =>
      simp only [OneState, ExecutesCurrent]
      split
      next ticket plan hp => exact h.scansOneState_iff hp
      next => exact Iff.rfl
  | read i j own =>
      refine iff_of_true ?_ trivial
      intro stream hstream scan hscan hnone
      have hpinned := (h.pinned stream (List.mem_of_getElem? hstream)).2 scan (List.mem_of_getElem? hscan) hnone
      have hfields : scan.fields = (none, some stream.ticket.captured) := Prod.ext hnone hpinned
      rw [hfields]
      rfl
  | _ => exact iff_of_true trivial trivial

/-- In every run, each call and each scan reads the one state of its statement exactly if every plan that is executed
    outside a transaction is current: its ticket comes from outside a transaction, and the tables it resolved at prepare
    time, if it was made then, are still the same at the number captured by `GetFlightInfo`. -/
theorem one_state_iff (planner : Planner N M Q R V) (H : History (N × R) V) (capacity : Nat)
    (ops : List (SqlEvent N Q U X R V)) :
    Runs.Meets (sqlStep planner) (OneState planner) (Server.init H capacity) ops ↔
      Runs.Meets (sqlStep planner) (ExecutesCurrent planner) (Server.init H capacity) ops := by
  have hstep : ∀ (s : Server N M Q U X R V) e s', s.Inv planner → ExecutesCurrent planner s e →
      sqlStep planner s e = some s' → s'.Inv planner := fun s e s' h hcurrent hstep => h.step hcurrent hstep
  have hstep' : ∀ (s : Server N M Q U X R V) e s', s.Inv planner → OneState planner s e →
      sqlStep planner s e = some s' → s'.Inv planner :=
    fun s e s' h hone => hstep s e s' h ((h.oneState_iff e).mp hone)
  constructor
  · exact Runs.Meets.of_inv hstep' (fun s e h hone => (h.oneState_iff e).mp hone) (inv_init H capacity)
  · exact Runs.Meets.of_inv hstep (fun s e h hcurrent => (h.oneState_iff e).mpr hcurrent) (inv_init H capacity)

end Runs

/-- One table whose metadata counts the commits that changed it. -/
def countingPlanner : Planner Unit Nat Unit Nat Nat := ⟨fun _ => [()], fun seen _ => some seen.length⟩

/-- The statement is prepared, another connection changes the table, and the statement is executed. -/
def alteredAfterPrepare : List (SqlEvent Unit Unit Nat Unit Nat Nat) :=
  [.createPreparedStatement (), .resolveTable [], .finish 0, .commit 1 (.single ((), 0) (.upsert 0) 0),
    .getFlightInfoPrepared 0, .doGet 0, .execute]

/-- The ticket is made inside a transaction and used after its end. -/
def fetchedAfterCommit : List (SqlEvent Unit Unit Nat Unit Nat Nat) :=
  [.beginTx (), .getFlightInfoStatement (), .resolveTable [], .finish 0, .endTx, .doGet 0, .execute]

/-- A prepared statement executes with the tables of an earlier state than the one it reads; a statement fetched after the
    transaction of its ticket has no pin. -/
theorem one_state_fails :
    ¬ Runs.Meets (sqlStep countingPlanner) (OneState countingPlanner) (Server.init .empty 1) alteredAfterPrepare ∧
      ¬ Runs.Meets (sqlStep countingPlanner) (OneState countingPlanner) (Server.init .empty 1) fetchedAfterCommit := by
  decide +kernel

/-- Without a cache, the plans are made at the pin. -/
def replannedAtPin : List (SqlEvent Unit Unit Nat Unit Nat Nat) :=
  [.createPreparedStatement (), .resolveTable [], .finish 0, .commit 1 (.single ((), 0) (.upsert 0) 0),
    .getFlightInfoPrepared 0, .resolveTable [], .finish 1, .commit 2 (.single ((), 1) (.upsert 0) 1), .doGet 0,
    .resolveTable [], .finish 2, .execute, .read 0 0 []]

example : Runs.Meets (sqlStep countingPlanner) (OneState countingPlanner) (Server.init .empty 0) replannedAtPin := by
  decide +kernel

end Penca.FlightSql
