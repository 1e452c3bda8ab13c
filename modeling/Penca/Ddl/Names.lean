import Penca.Ddl.Transactions
import Penca.Lib.Runs

/-!
# `Ddl.Names` — table names under interleaved `CreateTable` and `UpdateTable` calls

The rows of `__penca_system__.tables` of one branch and schema, and the statements of the calls that write them: resolve
the scope (which fixes the read snapshot), check the name inside the Postgres transaction, take the transaction to write
under, insert the row and commit. The insert has no effect others can see before the Postgres commit, so the two are one
step. Calls interleave with one another and with `BeginTx`, `CommitTx` and `AbortTx`, and may fail between any two
statements.

The check reads under the snapshot fixed before the Postgres transaction began. A row becomes visible later, when its
transaction commits, and nothing looks at the name again. `NamesSeen` is what is missing: whenever a row becomes visible,
every other table that then has its name was one the row's check could see. Names stay unique in every state of a run
exactly if every step meets it (`names_unique_throughout`).
-/

namespace Penca.Ddl

open Versions

variable {N : Type}

/-! ## The catalog -/

/-- A row of `__penca_system__.tables`: its name, and, for the proofs, how its name came about. -/
structure TableRow (N : Type) where
  name : N
  /-- The position of the snapshot the call read under. -/
  below : Nat
  /-- The name was checked, not carried forward. -/
  checked : Bool
  /-- The row was written after its transaction had committed. -/
  late : Bool
  deriving DecidableEq, Repr

/-- What a call asks for. -/
inductive Request (N : Type) where
  | createTable (tableName : N)
  | updateTable (table : Nat) (newTableName : Option N)
  deriving DecidableEq, Repr

/-- Why a call failed. -/
inductive DdlError (N : Type) where
  | alreadyExists (name : N)
  | notFound (table : Nat)
  /-- `FailedPrecondition`: the transaction is not open. -/
  | txNotOpen (x : Nat)
  /-- Any other error: the Postgres transaction is rolled back. -/
  | rolledBack
  deriving DecidableEq, Repr

/-- Where a call stands: after which of its statements. -/
inductive Phase (N : Type) where
  | idle
  | resolved (tx : Option Nat) (request : Request N) (snap : Snapshot)
  | checked (tx : Option Nat) (snap : Snapshot) (table : Nat) (name : N) (collisionChecked : Bool)
  | stamped (tx : TxId) (below : Nat) (table : Nat) (name : N) (collisionChecked : Bool)
  | done
  | failed (error : DdlError N)
  deriving DecidableEq, Repr

/-- The state: the ledger, the rows written by each transaction, the calls, and who holds the lock on the branch's
    commit counter. `tables` lists the tables that have a row. -/
structure Catalog (N : Type) where
  ledger : Ledger
  rows : Nat → TxId → Option (TableRow N)
  tables : List Nat
  calls : Nat → Phase N
  counterLock : Option Nat

namespace Catalog

def init : Catalog N where
  ledger := .init
  rows := fun _ _ => none
  tables := []
  calls := fun _ => .idle
  counterLock := none

/-- The row of a table a snapshot sees. -/
def version (s : Catalog N) (snap : Snapshot) (table : Nat) : Option (TableRow N) :=
  s.ledger.version (s.rows table) snap

/-- The row of a table a `LatestSeq` read sees. -/
def latest (s : Catalog N) (table : Nat) : Option (TableRow N) := s.ledger.latest (s.rows table)

/-- `meta_get_table` by name is some table. -/
def taken [DecidableEq N] (s : Catalog N) (snap : Snapshot) (name : N) : Bool :=
  s.tables.any (fun table => (s.version snap table).any (fun r => r.name = name))

/-- `rename_or_carry_forward`: the name to write, and whether it was checked. -/
def renameOrCarryForward [DecidableEq N] (s : Catalog N) (snap : Snapshot) (newName : Option N) (existing : N) :
    Except (DdlError N) (N × Bool) :=
  match newName with
  | none      => .ok (existing, false)
  | some name =>
      if name = existing then .ok (existing, false)
      else if s.taken snap name then .error (.alreadyExists name)
      else .ok (name, true)

/-- The existence checks of `create_table` and `update_table`: the table and name to write. A new table is named after
    the call that creates it. -/
def checkName [DecidableEq N] (s : Catalog N) (call : Nat) (snap : Snapshot) : Request N → Except (DdlError N) (Nat × N × Bool)
  | .createTable name          =>
      if s.taken snap name then .error (.alreadyExists name) else .ok (call, name, true)
  | .updateTable table newName =>
      match s.version snap table with
      | none          => .error (.notFound table)
      | some existing => (s.renameOrCarryForward snap newName existing.name).map (fun p => (table, p.1, p.2))

def setCall (s : Catalog N) (call : Nat) (phase : Phase N) : Catalog N :=
  { s with calls := Function.update s.calls call phase }

/-- The row a call that is about to insert writes. -/
def newRow (s : Catalog N) (tx : TxId) (below : Nat) (name : N) (collisionChecked : Bool) : TableRow N :=
  ⟨name, below, collisionChecked, decide (tx ∈ s.ledger.commits)⟩

/-- `insert_table_metadata`: one row per table and transaction, `ON CONFLICT (version_uuid) DO UPDATE`. -/
def insertTableMetadata (s : Catalog N) (table : Nat) (tx : TxId) (row : TableRow N) : Catalog N :=
  { s with
    rows := Function.update s.rows table (Function.update (s.rows table) tx (some row))
    tables := if table ∈ s.tables then s.tables else s.tables ++ [table] }

/-- Give the counter lock back if the call holds it. -/
def releaseLock (s : Catalog N) (call : Nat) : Catalog N :=
  { s with counterLock := if s.counterLock = some call then none else s.counterLock }

end Catalog

/-- A statement of a call, or a call of the transaction service. -/
inductive Event (N : Type) where
  | beginTx (x : Nat)
  | commitTx (x : Nat)
  | abortTx (x : Nat)
  /-- The scope is resolved and the read snapshot fixed. -/
  | resolve (call : Nat) (tx : Option Nat) (request : Request N)
  /-- The existence statements, inside the Postgres transaction. -/
  | check (call : Nat)
  /-- `resolve_or_auto_commit_tx`: the open transaction again, or a new commit under the counter lock. -/
  | stamp (call : Nat)
  /-- The metadata insert and the Postgres commit. -/
  | finish (call : Nat)
  /-- An error and the Postgres rollback. -/
  | fail (call : Nat)
  deriving DecidableEq, Repr

/-- One statement; `none` when it cannot happen, also when it has to wait for the counter lock. -/
def step [DecidableEq N] (s : Catalog N) : Event N → Option (Catalog N)
  | .beginTx x  => (s.ledger.begin x).map (fun l => { s with ledger := l })
  | .commitTx x =>
      if s.counterLock = none then (s.ledger.commit x).map (fun l => { s with ledger := l }) else none
  | .abortTx x  => (s.ledger.abort x).map (fun l => { s with ledger := l })
  | .resolve call tx request =>
      match s.calls call with
      | .idle =>
          match s.ledger.resolveReadSnapshot tx with
          | none      => some (s.setCall call (.failed (.txNotOpen (tx.getD 0))))
          | some snap => some (s.setCall call (.resolved tx request snap))
      | _ => none
  | .check call =>
      match s.calls call with
      | .resolved tx request snap =>
          match s.checkName call snap request with
          | .error e                             => some (s.setCall call (.failed e))
          | .ok (table, name, collisionChecked) =>
              some (s.setCall call (.checked tx snap table name collisionChecked))
      | _ => none
  | .stamp call =>
      match s.calls call with
      | .checked none snap table name collisionChecked =>
          if s.counterLock = none then
            some { s.setCall call (.stamped (.auto call) snap.below table name collisionChecked) with
              counterLock := some call }
          else none
      | .checked (some x) snap table name collisionChecked =>
          if s.ledger.isOpen x then
            some (s.setCall call (.stamped (.opened x) snap.below table name collisionChecked))
          else some (s.setCall call (.failed (.txNotOpen x)))
      | _ => none
  | .finish call =>
      match s.calls call with
      | .stamped tx below table name collisionChecked =>
          let written := ((s.insertTableMetadata table tx (s.newRow tx below name collisionChecked)).setCall call
            .done).releaseLock call
          some (if tx = .auto call then
            { written with ledger := { s.ledger with commits := s.ledger.commits ++ [tx] } }
          else written)
      | _ => none
  | .fail call =>
      match s.calls call with
      | .resolved _ _ _ | .checked _ _ _ _ _ | .stamped _ _ _ _ _ =>
          some ((s.setCall call (.failed .rolledBack)).releaseLock call)
      | _ => none

/-! ## The property and the condition -/

/-- No two live tables have one name. -/
def NamesUnique (s : Catalog N) : Prop :=
  ∀ t u r r', s.latest t = some r → s.latest u = some r' → r.name = r'.name → t = u

/-- The check of a row of `tx` could see this row of table `u`: the row's name was checked, the transaction has no row of
    `u` of its own, and the other row stood at the position the check read at and was not written after the fact. -/
def Catalog.CheckSaw (s : Catalog N) (tx : TxId) (row : TableRow N) (u : Nat) (other : TableRow N) : Prop :=
  s.rows u tx = none ∧ row.checked = true ∧ other.late = false ∧
    newestBelow s.ledger.commits (s.rows u) row.below = some other

instance [DecidableEq N] (s : Catalog N) (tx : TxId) (row : TableRow N) (u : Nat) (other : TableRow N) :
    Decidable (s.CheckSaw tx row u other) :=
  inferInstanceAs (Decidable (_ ∧ _ ∧ _ ∧ _))

/-- Every other table that has the row's name in `after` is one the row's check could see. -/
def Catalog.OthersSeen (s : Catalog N) (tx : TxId) (table : Nat) (row : TableRow N)
    (after : Nat → Option (TableRow N)) : Prop :=
  ∀ u ∈ s.tables, u ≠ table → ∀ other ∈ after u, other.name = row.name → s.CheckSaw tx row u other

instance [DecidableEq N] (s : Catalog N) (tx : TxId) (table : Nat) (row : TableRow N) (after : Nat → Option (TableRow N)) :
    Decidable (s.OthersSeen tx table row after) :=
  inferInstanceAs (Decidable (∀ u ∈ _, _ → ∀ other ∈ after u, _))

/-- What is visible once `tx` commits. -/
def Catalog.afterCommit (s : Catalog N) (tx : TxId) (u : Nat) : Option (TableRow N) := (s.rows u tx).or (s.latest u)

/-- The same for the row of a call that is about to insert: it becomes visible if its transaction is the call's own, or
    has committed already and has the newest row of the table. -/
def Catalog.FinishSeen (s : Catalog N) (call : Nat) : Phase N → Prop
  | .stamped tx below table name collisionChecked =>
      (tx = .auto call → s.OthersSeen tx table (s.newRow tx below name collisionChecked) (s.afterCommit tx)) ∧
        (tx ≠ .auto call → tx ∈ s.ledger.commits →
          Versions.latest s.ledger.commits
              (Function.update (s.rows table) tx (some (s.newRow tx below name collisionChecked))) =
            some (s.newRow tx below name collisionChecked) →
          s.OthersSeen tx table (s.newRow tx below name collisionChecked) s.latest)
  | _ => True

instance [DecidableEq N] (s : Catalog N) (call : Nat) : ∀ phase, Decidable (s.FinishSeen call phase)
  | .stamped _ _ _ _ _ => inferInstanceAs (Decidable ((_ → _) ∧ (_ → _ → _ → _)))
  | .idle | .resolved _ _ _ | .checked _ _ _ _ _ | .done | .failed _ => isTrue trivial

/-- Whenever a row becomes visible, the other tables of its name were seen by its check. -/
def NamesSeen (s : Catalog N) : Event N → Prop
  | .commitTx x  =>
      ∀ t ∈ s.tables, ∀ r ∈ s.rows t (.opened x), s.OthersSeen (.opened x) t r (s.afterCommit (.opened x))
  | .finish call => s.FinishSeen call (s.calls call)
  | _            => True

instance [DecidableEq N] (s : Catalog N) : ∀ e, Decidable (NamesSeen s e)
  | .commitTx x  => inferInstanceAs (Decidable (∀ t ∈ s.tables, ∀ r ∈ s.rows t (.opened x), _))
  | .finish call => inferInstanceAs (Decidable (s.FinishSeen call (s.calls call)))
  | .beginTx _ | .abortTx _ | .resolve _ _ _ | .check _ | .stamp _ | .fail _ => isTrue trivial

/-! ## The invariant -/

/-- No other table that the position shows has the name, unless the transaction has a row of that table itself. -/
def Catalog.Unclaimed (s : Catalog N) (tx : TxId) (table : Nat) (name : N) (below : Nat) : Prop :=
  ∀ u other, u ≠ table → newestBelow s.ledger.commits (s.rows u) below = some other → other.late = false →
    other.name = name → s.rows u tx ≠ none

/-- The transaction a call writes under. -/
def callTx (call : Nat) (tx : Option Nat) : TxId := (tx.map TxId.opened).getD (.auto call)

/-- What holds of a call between its statements. -/
def Catalog.CallOk (s : Catalog N) (call : Nat) : Phase N → Prop
  | .resolved tx _ snap => snap.below ≤ s.ledger.commits.length ∧ snap.own = tx.map TxId.opened
  | .checked tx snap table name collisionChecked =>
      snap.below ≤ s.ledger.commits.length ∧
        (collisionChecked = true → s.Unclaimed (callTx call tx) table name snap.below)
  | .stamped tx below table name collisionChecked =>
      below ≤ s.ledger.commits.length ∧ (collisionChecked = true → s.Unclaimed tx table name below) ∧
        ∀ c, tx = .auto c → c = call
  | _ => True

/-- The invariant of the runs. -/
structure NamesInv (s : Catalog N) : Prop where
  begun : s.ledger.BegunBelow
  tables : ∀ t x, s.rows t x ≠ none → t ∈ s.tables
  rows : ∀ t x r, s.rows t x = some r →
    r.below ≤ s.ledger.commits.length ∧ (r.checked = true → s.Unclaimed x t r.name r.below)
  calls : ∀ c, s.CallOk c (s.calls c)
  auto : ∀ t c, s.rows t (.auto c) ≠ none → s.calls c = .done

theorem NamesInv.init : NamesInv (Catalog.init : Catalog N) where
  begun := by
    intro b hb
    cases hb
  tables := fun t x h => absurd rfl h
  rows := by
    intro t x r h
    cases h
  calls := fun c => trivial
  auto := fun t c h => absurd rfl h

section Preservation

variable {s s' : Catalog N} {call : Nat}

/-- What a name check established stays as long as rows only change under committed transactions by late writes. -/
theorem Catalog.CallOk.mono (hlen : s.ledger.commits.length ≤ s'.ledger.commits.length)
    (hun : ∀ tx t n b, b ≤ s.ledger.commits.length → s.Unclaimed tx t n b → s'.Unclaimed tx t n b)
    {phase : Phase N} (h : s.CallOk call phase) : s'.CallOk call phase := by
  cases phase with
  | resolved tx request snap => exact ⟨Nat.le_trans h.1 hlen, h.2⟩
  | checked tx snap table name cc => exact ⟨Nat.le_trans h.1 hlen, fun hc => hun _ _ _ _ h.1 (h.2 hc)⟩
  | stamped tx below table name cc => exact ⟨Nat.le_trans h.1 hlen, fun hc => hun _ _ _ _ h.1 (h.2.1 hc), h.2.2⟩
  | idle => trivial
  | done => trivial
  | failed e => trivial

/-- Later commits leave what a check established. -/
theorem Catalog.Unclaimed.commit {l : Ledger} {cs : List TxId} (hcommits : l.commits = s.ledger.commits ++ cs) {tx : TxId}
    {t : Nat} {n : N} {b : Nat} (hb : b ≤ s.ledger.commits.length) (h : s.Unclaimed tx t n b) :
    ({ s with ledger := l } : Catalog N).Unclaimed tx t n b := by
  intro u other hu hnew hlate hname
  rw [hcommits, newestBelow_append cs hb] at hnew
  exact h u other hu hnew hlate hname

/-- So does an insert: under a committed transaction it leaves a late row. -/
theorem Catalog.Unclaimed.insert {tx : TxId} {t : Nat} {n : N} {b : Nat} (h : s.Unclaimed tx t n b) {tx₀ : TxId}
    {t₀ : Nat} {row : TableRow N} (hlate₀ : row.late = decide (tx₀ ∈ s.ledger.commits)) :
    (s.insertTableMetadata t₀ tx₀ row).Unclaimed tx t n b := by
  intro u other hu hnew hlate hname
  by_cases hut : u = t₀
  · subst hut
    simp only [Catalog.insertTableMetadata, Function.update_self] at hnew ⊢
    have hold : newestBelow s.ledger.commits (s.rows u) b = some other := by
      by_cases hmem : tx₀ ∈ s.ledger.commits
      · rcases @newestBelow_update _ _ s.ledger.commits (s.rows u) b _ tx₀ row with heq | heq
        · obtain rfl := Option.some.inj (hnew.symm.trans heq)
          simp [hlate₀, hmem] at hlate
        · exact heq.symm.trans hnew
      · rwa [newestBelow_update_of_not_mem hmem] at hnew
    by_cases htx : tx = tx₀
    · subst htx
      simp
    · rw [Function.update_of_ne htx]
      exact h u other hu hold hlate hname
  · simp only [Catalog.insertTableMetadata, Function.update_of_ne hut] at hnew ⊢
    exact h u other hu hnew hlate hname

theorem NamesInv.setCalls (hinv : NamesInv s) {calls : Nat → Phase N} {lock : Option Nat}
    (hcalls : ∀ c, s.CallOk c (calls c)) (hdone : ∀ c, s.calls c = .done → calls c = .done) :
    NamesInv { s with calls := calls, counterLock := lock } where
  begun := hinv.begun
  tables := hinv.tables
  rows := hinv.rows
  calls := hcalls
  auto := fun t c h => hdone c (hinv.auto t c h)

theorem NamesInv.setCall (hinv : NamesInv s) (call : Nat) (phase : Phase N) (hphase : s.CallOk call phase)
    (hnot : s.calls call ≠ .done) {lock : Option Nat} :
    NamesInv { s.setCall call phase with counterLock := lock } := by
  refine hinv.setCalls (fun c => ?_) (fun c hc => ?_)
  · show s.CallOk c (Function.update s.calls call phase c)
    by_cases h : c = call
    · subst h
      rw [Function.update_self]
      exact hphase
    · rw [Function.update_of_ne h]
      exact hinv.calls c
  · have hne : c ≠ call := by
      rintro rfl
      exact hnot hc
    show Function.update s.calls call phase c = .done
    rw [Function.update_of_ne hne]
    exact hc

theorem NamesInv.setLedger (hinv : NamesInv s) {l : Ledger} {cs : List TxId}
    (hcommits : l.commits = s.ledger.commits ++ cs) (hb : l.BegunBelow) : NamesInv { s with ledger := l } where
  begun := hb
  tables := hinv.tables
  rows := by
    intro t x r hr
    obtain ⟨hbelow, hun⟩ := hinv.rows t x r hr
    refine ⟨?_, fun hc => (hun hc).commit hcommits hbelow⟩
    simp only [hcommits, List.length_append]
    omega
  calls := by
    intro c
    refine (hinv.calls c).mono ?_ (fun _ _ _ _ hb' h => h.commit hcommits hb')
    simp only [hcommits, List.length_append]
    omega
  auto := hinv.auto

theorem NamesInv.insert (hinv : NamesInv s) {tx : TxId} {table below : Nat} {name : N} {cc : Bool}
    (hphase : s.calls call = .stamped tx below table name cc) {lock : Option Nat} :
    NamesInv { (s.insertTableMetadata table tx (s.newRow tx below name cc)).setCall call .done with
      counterLock := lock } := by
  have hcall := hinv.calls call
  rw [hphase] at hcall
  obtain ⟨hbelow, hun, hauto⟩ := hcall
  have hkeep : ∀ tx' t n b, b ≤ s.ledger.commits.length → s.Unclaimed tx' t n b →
      (s.insertTableMetadata table tx (s.newRow tx below name cc)).Unclaimed tx' t n b :=
    fun _ _ _ _ _ h => h.insert rfl
  constructor
  case begun => exact hinv.begun
  case tables =>
    intro t x hne
    show t ∈ (if table ∈ s.tables then s.tables else s.tables ++ [table])
    by_cases ht : t = table
    · subst ht
      split
      · assumption
      · simp
    · have hold : t ∈ s.tables := by
        refine hinv.tables t x ?_
        simpa [Catalog.insertTableMetadata, Catalog.setCall, Function.update_of_ne ht] using hne
      split
      · exact hold
      · exact List.mem_append_left _ hold
  case rows =>
    intro t x r hr
    by_cases ht : t = table
    · subst ht
      simp only [Catalog.insertTableMetadata, Catalog.setCall, Function.update_self] at hr
      by_cases hx : x = tx
      · subst hx
        rw [Function.update_self] at hr
        obtain rfl := Option.some.inj hr
        exact ⟨hbelow, fun hc => hkeep _ _ _ _ hbelow (hun hc)⟩
      · rw [Function.update_of_ne hx] at hr
        obtain ⟨hb, hu⟩ := hinv.rows t x r hr
        exact ⟨hb, fun hc => hkeep _ _ _ _ hb (hu hc)⟩
    · simp only [Catalog.insertTableMetadata, Catalog.setCall, Function.update_of_ne ht] at hr
      obtain ⟨hb, hu⟩ := hinv.rows t x r hr
      exact ⟨hb, fun hc => hkeep _ _ _ _ hb (hu hc)⟩
  case calls =>
    intro c
    by_cases hc : c = call
    · subst hc
      simp only [Catalog.setCall, Function.update_self]
      trivial
    · simp only [Catalog.setCall, Function.update_of_ne hc]
      exact @Catalog.CallOk.mono _ s (s.insertTableMetadata table tx (s.newRow tx below name cc)) c
        (Nat.le_refl _) hkeep _ (hinv.calls c)
  case auto =>
    intro t c hne
    simp only [Catalog.setCall, Catalog.insertTableMetadata] at hne ⊢
    by_cases hc : c = call
    · rw [hc, Function.update_self]
    · rw [Function.update_of_ne hc]
      refine hinv.auto t c ?_
      by_cases ht : t = table
      · subst ht
        rw [Function.update_self] at hne
        rwa [Function.update_of_ne (fun h => hc (hauto c h.symm))] at hne
      · rwa [Function.update_of_ne ht] at hne

variable [DecidableEq N]

/-- A name that is not taken is unclaimed at the position of the snapshot. -/
theorem NamesInv.unclaimed_of_not_taken (hinv : NamesInv s) {snap : Snapshot} {tx : Option Nat}
    (hown : snap.own = tx.map TxId.opened) {name : N} (htaken : s.taken snap name = false) (table : Nat) :
    s.Unclaimed (callTx call tx) table name snap.below := by
  intro u other hu hnew hlate hname hnone
  obtain ⟨x, -, hx⟩ := exists_of_newestBelow hnew
  have hmem : u ∈ s.tables := hinv.tables u x (by simp [hx])
  have hversion : s.version snap u = some other := by
    rw [Catalog.version, Ledger.version, hnew, hown]
    cases tx with
    | none => rfl
    | some y =>
        have hrow : s.rows u (.opened y) = none := hnone
        simp [hrow]
  rw [Catalog.taken, List.any_eq_false] at htaken
  exact htaken u hmem (by simp [hversion, hname])

/-- What a passed check established. -/
theorem NamesInv.unclaimed_of_checkName (hinv : NamesInv s) {snap : Snapshot} {tx : Option Nat}
    (hown : snap.own = tx.map TxId.opened) {request : Request N} {table : Nat} {name : N}
    (h : s.checkName call snap request = .ok (table, name, true)) :
    s.Unclaimed (callTx call tx) table name snap.below := by
  cases request with
  | createTable tableName =>
      simp only [Catalog.checkName] at h
      split at h
      · cases h
      · rename_i htaken
        cases h
        exact hinv.unclaimed_of_not_taken hown (by simpa using htaken) _
  | updateTable t newName =>
      simp only [Catalog.checkName] at h
      split at h
      · cases h
      · simp only [Catalog.renameOrCarryForward] at h
        split at h
        · cases h
        · split at h
          · cases h
          · split at h
            · cases h
            · rename_i htaken
              cases h
              exact hinv.unclaimed_of_not_taken hown (by simpa using htaken) _

/-- **Step.** Every statement keeps the invariant. -/
theorem NamesInv.step (hinv : NamesInv s) {e : Event N} (h : step s e = some s') : NamesInv s' := by
  cases e with
  | beginTx x =>
      obtain ⟨l, hl, rfl⟩ := Option.map_eq_some_iff.mp h
      obtain rfl := Ledger.begin_eq_some hl
      refine hinv.setLedger (List.append_nil _).symm ?_
      intro b hb
      rcases List.mem_append.mp hb with hb | hb
      · exact hinv.begun b hb
      · obtain rfl := List.mem_singleton.mp hb
        exact Nat.le_refl _
  | commitTx x =>
      simp only [Ddl.step] at h
      split at h
      · obtain ⟨l, hl, rfl⟩ := Option.map_eq_some_iff.mp h
        obtain ⟨-, rfl⟩ := Ledger.commit_eq_some hl
        refine hinv.setLedger rfl ?_
        intro b hb
        have hle := hinv.begun b hb
        simp only [List.length_append]
        omega
      · cases h
  | abortTx x =>
      obtain ⟨l, hl, rfl⟩ := Option.map_eq_some_iff.mp h
      obtain rfl := Ledger.abort_eq_some hl
      exact hinv.setLedger (List.append_nil _).symm hinv.begun
  | resolve call tx request =>
      simp only [Ddl.step] at h
      split at h
      · rename_i hidle
        have hnot : s.calls call ≠ .done := by simp [hidle]
        split at h
        · cases h
          exact hinv.setCall call (.failed _) trivial hnot
        · rename_i snap hsnap
          cases h
          exact hinv.setCall call (.resolved tx request snap)
            ⟨hinv.begun.resolve hsnap, Ledger.own_of_resolve hsnap⟩ hnot
      · cases h
  | check call =>
      simp only [Ddl.step] at h
      split at h
      · rename_i tx request snap hphase
        have hcall := hinv.calls call
        rw [hphase] at hcall
        have hnot : s.calls call ≠ .done := by simp [hphase]
        split at h
        · cases h
          exact hinv.setCall call (.failed _) trivial hnot
        · rename_i table name cc hcheck
          cases h
          refine hinv.setCall call (.checked tx snap table name cc) ⟨hcall.1, ?_⟩ hnot
          rintro rfl
          exact hinv.unclaimed_of_checkName hcall.2 hcheck
      · cases h
  | stamp call =>
      simp only [Ddl.step] at h
      split at h
      · rename_i snap table name cc hphase
        have hcall := hinv.calls call
        rw [hphase] at hcall
        split at h
        · cases h
          exact hinv.setCall call (.stamped (.auto call) snap.below table name cc)
            ⟨hcall.1, hcall.2, fun c hc => (TxId.auto.inj hc).symm⟩ (by simp [hphase])
        · cases h
      · rename_i x snap table name cc hphase
        have hcall := hinv.calls call
        rw [hphase] at hcall
        split at h
        · cases h
          exact hinv.setCall call (.stamped (.opened x) snap.below table name cc)
            ⟨hcall.1, hcall.2, fun c hc => by cases hc⟩ (by simp [hphase])
        · cases h
          exact hinv.setCall call (.failed _) trivial (by simp [hphase])
      · cases h
  | finish call =>
      simp only [Ddl.step] at h
      split at h
      · rename_i tx below table name cc hphase
        obtain rfl := Option.some.inj h
        have hwritten : NamesInv (((s.insertTableMetadata table tx (s.newRow tx below name cc)).setCall call
            .done).releaseLock call) := hinv.insert hphase
        split
        · refine hwritten.setLedger rfl ?_
          intro b hb
          have hle := hinv.begun b hb
          simp only [List.length_append]
          omega
        · exact hwritten
      · cases h
  | fail call =>
      simp only [Ddl.step] at h
      split at h
      case h_4 => cases h
      all_goals
        rename_i hphase
        cases h
        exact hinv.setCall call (.failed _) trivial (by simp [hphase])

end Preservation

/-! ## Uniqueness -/

section Uniqueness

variable {s s' : Catalog N} {call : Nat}

/-- A check never saw another table of the name it let through. -/
theorem Catalog.not_checkSaw {tx : TxId} {row other : TableRow N} {table u : Nat}
    (hun : row.checked = true → s.Unclaimed tx table row.name row.below) (hu : u ≠ table)
    (hname : other.name = row.name) : ¬s.CheckSaw tx row u other := by
  rintro ⟨hnone, hchecked, hlate, hnew⟩
  exact hun hchecked u other hu hnew hlate hname hnone

theorem NamesInv.mem_tables (hinv : NamesInv s) {t : Nat} {r : TableRow N} (h : s.latest t = some r) : t ∈ s.tables := by
  obtain ⟨x, -, hx⟩ := exists_of_newestBelow h
  exact hinv.tables t x (by simp [hx])

/-- The commit of a transaction keeps names unique exactly if the checks of its rows saw the tables of their names. -/
theorem NamesInv.unique_commit (hinv : NamesInv s) (hunique : NamesUnique s) (tx : TxId) :
    (∀ t u r r', s.afterCommit tx t = some r → s.afterCommit tx u = some r' → r.name = r'.name → t = u) ↔
      ∀ t ∈ s.tables, ∀ r ∈ s.rows t tx, s.OthersSeen tx t r (s.afterCommit tx) := by
  constructor
  · intro hafter t _ r hr u _ hne other hother hname
    have hrow : s.rows t tx = some r := hr
    have hshown : s.afterCommit tx t = some r := by rw [Catalog.afterCommit, hrow, Option.some_or]
    exact absurd (hafter u t other r hother hshown hname) hne
  · intro hseen
    -- A row of the transaction and any other table of its name contradict its check.
    have hrival : ∀ t u r r', s.rows t tx = some r → u ≠ t → s.afterCommit tx u = some r' → r'.name = r.name → False := by
      intro t u r r' hr hne hr' hname
      have hu : u ∈ s.tables := by
        cases hrow : s.rows u tx with
        | some r₁ => exact hinv.tables u tx (by simp [hrow])
        | none =>
            rw [Catalog.afterCommit, hrow, Option.none_or] at hr'
            exact hinv.mem_tables hr'
      have hsaw := hseen t (hinv.tables t tx (by simp [hr])) r hr u hu hne r' hr' hname
      exact Catalog.not_checkSaw (hinv.rows t tx r hr).2 hne hname hsaw
    intro t u r r' ht hu hname
    by_contra hne
    cases hrt : s.rows t tx with
    | some r₁ =>
        have hshown := ht
        rw [Catalog.afterCommit, hrt, Option.some_or] at hshown
        obtain rfl := Option.some.inj hshown
        exact hrival t u r₁ r' hrt (Ne.symm hne) hu hname.symm
    | none =>
        cases hru : s.rows u tx with
        | some r₁ =>
            have hshown := hu
            rw [Catalog.afterCommit, hru, Option.some_or] at hshown
            obtain rfl := Option.some.inj hshown
            exact hrival u t r₁ r hru hne ht hname
        | none =>
            rw [Catalog.afterCommit, hrt, Option.none_or] at ht
            rw [Catalog.afterCommit, hru, Option.none_or] at hu
            exact hne (hunique t u r r' ht hu hname)

/-- One table's visible row is replaced by `row`: names stay unique exactly if no other table has its name. -/
theorem NamesInv.unique_replace (hinv : NamesInv s) (hunique : NamesUnique s) {tx : TxId} {table : Nat}
    {row : TableRow N} {after : Nat → Option (TableRow N)}
    (hun : row.checked = true → s.Unclaimed tx table row.name row.below) (hshown : after table = some row)
    (hothers : ∀ u, u ≠ table → after u = s.latest u) :
    (∀ t u r r', after t = some r → after u = some r' → r.name = r'.name → t = u) ↔
      s.OthersSeen tx table row s.latest := by
  constructor
  · intro hafter u _ hne other hother hname
    rw [Option.mem_def, ← hothers u hne] at hother
    exact absurd (hafter u table other row hother hshown hname) hne
  · intro hseen
    have hrival : ∀ u r', u ≠ table → after u = some r' → r'.name = row.name → False := by
      intro u r' hne hr' hname
      rw [hothers u hne] at hr'
      exact Catalog.not_checkSaw hun hne hname (hseen u (hinv.mem_tables hr') hne r' hr' hname)
    intro t u r r' ht hu hname
    by_contra hne
    by_cases htt : t = table
    · subst htt
      obtain rfl := Option.some.inj (hshown.symm.trans ht)
      exact hrival u r' (Ne.symm hne) hu hname.symm
    · by_cases hut : u = table
      · subst hut
        obtain rfl := Option.some.inj (hshown.symm.trans hu)
        exact hrival t r htt ht hname
      · rw [hothers t htt] at ht
        rw [hothers u hut] at hu
        exact hne (hunique t u r r' ht hu hname)

/-- The insert of a call that does not commit a transaction of its own. -/
theorem NamesInv.unique_insert (hinv : NamesInv s) (hunique : NamesUnique s) {tx : TxId} {table below : Nat} {name : N}
    {cc : Bool} (hphase : s.calls call = .stamped tx below table name cc) (hauto : tx ≠ .auto call) :
    NamesUnique (s.insertTableMetadata table tx (s.newRow tx below name cc)) ↔
      s.FinishSeen call (.stamped tx below table name cc) := by
  have hcall := hinv.calls call
  rw [hphase] at hcall
  have hothers : ∀ u, u ≠ table →
      (s.insertTableMetadata table tx (s.newRow tx below name cc)).latest u = s.latest u := by
    intro u hu
    simp only [Catalog.latest, Catalog.insertTableMetadata, Function.update_of_ne hu]
  have hself : (s.insertTableMetadata table tx (s.newRow tx below name cc)).latest table =
      Versions.latest s.ledger.commits (Function.update (s.rows table) tx (some (s.newRow tx below name cc))) := by
    simp only [Catalog.latest, Ledger.latest, Catalog.insertTableMetadata, Function.update_self]
  by_cases hshown : Versions.latest s.ledger.commits
      (Function.update (s.rows table) tx (some (s.newRow tx below name cc))) = some (s.newRow tx below name cc)
  · by_cases hmem : tx ∈ s.ledger.commits
    · refine (hinv.unique_replace hunique hcall.2.1 (hself.trans hshown) hothers).trans ?_
      exact ⟨fun h => ⟨fun ha => absurd ha hauto, fun _ _ _ => h⟩, fun h => h.2 hauto hmem hshown⟩
    · -- Nothing of a transaction that has not committed is seen, so what is seen was there before.
      refine iff_of_true ?_ ⟨fun ha => absurd ha hauto, fun _ h => absurd h hmem⟩
      have hsame : ∀ u, (s.insertTableMetadata table tx (s.newRow tx below name cc)).latest u = s.latest u := by
        intro u
        by_cases hu : u = table
        · subst hu
          rw [hself, Versions.latest, newestBelow_update_of_not_mem hmem]
          rfl
        · exact hothers u hu
      intro t u r r' ht hu
      rw [hsame] at ht hu
      exact hunique t u r r' ht hu
  · have hsame : ∀ u, (s.insertTableMetadata table tx (s.newRow tx below name cc)).latest u = s.latest u := by
      intro u
      by_cases hu : u = table
      · subst hu
        rw [hself]
        exact (newestBelow_update tx (s.newRow tx below name cc)).resolve_left hshown
      · exact hothers u hu
    refine iff_of_true ?_ ⟨fun ha => absurd ha hauto, fun _ _ h => absurd h hshown⟩
    intro t u r r' ht hu
    rw [hsame] at ht hu
    exact hunique t u r r' ht hu

/-- The insert and commit of an auto-commit call. -/
theorem NamesInv.unique_autoCommit (hinv : NamesInv s) (hunique : NamesUnique s) {table below : Nat} {name : N}
    {cc : Bool} (hphase : s.calls call = .stamped (.auto call) below table name cc) :
    NamesUnique { s.insertTableMetadata table (.auto call) (s.newRow (.auto call) below name cc) with
        ledger := { s.ledger with commits := s.ledger.commits ++ [.auto call] } } ↔
      s.FinishSeen call (.stamped (.auto call) below table name cc) := by
  have hcall := hinv.calls call
  rw [hphase] at hcall
  have hnone : ∀ u, s.rows u (.auto call) = none := by
    intro u
    by_contra hne
    have hdone := hinv.auto u call hne
    rw [hphase] at hdone
    cases hdone
  have hafter : s.afterCommit (.auto call) = s.latest := by
    funext u
    rw [Catalog.afterCommit, hnone, Option.none_or]
  have hun : (s.newRow (.auto call) below name cc).checked = true →
      s.Unclaimed (.auto call) table (s.newRow (.auto call) below name cc).name
        (s.newRow (.auto call) below name cc).below := hcall.2.1
  refine (hinv.unique_replace hunique hun ?_ ?_).trans ?_
  · simp only [Catalog.latest, Ledger.latest, Catalog.insertTableMetadata, Function.update_self, latest_append,
      Option.some_or]
  · intro u hu
    simp only [Catalog.latest, Ledger.latest, Catalog.insertTableMetadata, Function.update_of_ne hu, latest_append,
      hnone, Option.none_or]
  · rw [← hafter]
    exact ⟨fun h => ⟨fun _ => h, fun hne => absurd rfl hne⟩, fun h => h.1 rfl⟩

variable [DecidableEq N]

/-- **Step.** A statement keeps names unique exactly if it shows only rows whose checks saw the others. -/
theorem NamesInv.unique_step (hinv : NamesInv s) (hunique : NamesUnique s) {e : Event N}
    (h : Ddl.step s e = some s') : NamesUnique s' ↔ NamesSeen s e := by
  cases e with
  | beginTx x =>
      obtain ⟨l, hl, rfl⟩ := Option.map_eq_some_iff.mp h
      obtain rfl := Ledger.begin_eq_some hl
      exact iff_of_true hunique trivial
  | abortTx x =>
      obtain ⟨l, hl, rfl⟩ := Option.map_eq_some_iff.mp h
      obtain rfl := Ledger.abort_eq_some hl
      exact iff_of_true hunique trivial
  | commitTx x =>
      simp only [Ddl.step] at h
      split at h
      · obtain ⟨l, hl, rfl⟩ := Option.map_eq_some_iff.mp h
        obtain ⟨-, rfl⟩ := Ledger.commit_eq_some hl
        have hlatest : ∀ u, Catalog.latest { s with
            ledger := { s.ledger with commits := s.ledger.commits ++ [.opened x] } } u = s.afterCommit (.opened x) u :=
          fun u => latest_append _
        simp only [NamesUnique, hlatest]
        exact hinv.unique_commit hunique (.opened x)
      · cases h
  | resolve call tx request =>
      refine iff_of_true ?_ trivial
      simp only [Ddl.step] at h
      split at h
      · split at h <;> cases h <;> exact hunique
      · cases h
  | check call =>
      refine iff_of_true ?_ trivial
      simp only [Ddl.step] at h
      split at h
      · split at h <;> cases h <;> exact hunique
      · cases h
  | stamp call =>
      refine iff_of_true ?_ trivial
      simp only [Ddl.step] at h
      split at h
      · split at h
        · cases h
          exact hunique
        · cases h
      · split at h <;> cases h <;> exact hunique
      · cases h
  | fail call =>
      refine iff_of_true ?_ trivial
      simp only [Ddl.step] at h
      split at h
      case h_4 => cases h
      all_goals
        cases h
        exact hunique
  | finish call =>
      simp only [Ddl.step] at h
      split at h
      · rename_i tx below table name cc hphase
        obtain rfl := Option.some.inj h
        simp only [NamesSeen, hphase]
        by_cases hauto : tx = .auto call
        · subst hauto
          rw [if_pos rfl]
          exact hinv.unique_autoCommit hunique hphase
        · rw [if_neg hauto]
          exact hinv.unique_insert hunique hphase hauto
      · cases h

/-- The name a call asks for, if its check looks at it: a rename to the table's own name is not checked. -/
def Catalog.wanted (s : Catalog N) (snap : Snapshot) : Request N → Option N
  | .createTable name          => some name
  | .updateTable table newName =>
      newName.filter (fun name => (s.version snap table).all (fun existing => existing.name ≠ name))

/-- **A call whose name is taken fails.** -/
theorem check_fails_of_taken {tx : Option Nat} {request : Request N} {snap : Snapshot} {name : N}
    (hphase : s.calls call = .resolved tx request snap) (hwanted : s.wanted snap request = some name)
    (htaken : s.taken snap name = true) (h : step s (.check call) = some s') :
    ∃ e, s'.calls call = .failed e := by
  simp only [Ddl.step, hphase] at h
  cases hcheck : s.checkName call snap request with
  | error e =>
      rw [hcheck] at h
      cases h
      exact ⟨e, Function.update_self ..⟩
  | ok p =>
      exfalso
      cases request with
      | createTable tableName =>
          obtain rfl := Option.some.inj hwanted
          simp [Catalog.checkName, htaken] at hcheck
      | updateTable table newName =>
          obtain ⟨hnew, hother⟩ := Option.filter_eq_some_iff.mp hwanted
          obtain rfl := hnew
          simp only [Catalog.checkName] at hcheck
          split at hcheck
          · cases hcheck
          · rename_i existing hexisting
            rw [hexisting] at hother
            have hne : existing.name ≠ name := by simpa using hother
            simp [Catalog.renameOrCarryForward, hne.symm, htaken, Except.map] at hcheck

/-- **Unique names.** In every state of every interleaving the live tables have different names exactly if every row that
    becomes visible has the other tables of its name among those its check could see; and a call whose name is taken at
    its snapshot fails. -/
theorem names_unique_throughout {events : List (Event N)} {s : Catalog N}
    (hrun : Runs.run step Catalog.init events = some s) :
    (Runs.Throughout step NamesUnique Catalog.init events ↔ Runs.Meets step NamesSeen Catalog.init events) ∧
      ∀ call tx request snap name s', s.calls call = .resolved tx request snap →
        s.wanted snap request = some name → s.taken snap name = true → step s (.check call) = some s' →
        ∃ e, s'.calls call = .failed e := by
  constructor
  · refine Runs.throughout_iff_meets (G := fun _ _ => True) (I := NamesInv) (fun s e s' hinv _ h => hinv.step h)
      (fun s e s' hinv hunique _ h => hinv.unique_step hunique h) NamesInv.init ?_
      (Runs.meets_of_forall (fun _ _ => trivial) _ _) hrun
    intro t u r r' ht
    cases ht
  · intro call tx request snap name s' hphase hwanted htaken h
    exact check_fails_of_taken hphase hwanted htaken h

end Uniqueness

/-! ## Two calls that overlap, and two that do not -/

section Instances

/-- Two `CreateTable` calls for one name check before either commits. -/
def createTwice : List (Event Nat) :=
  [.resolve 0 none (.createTable 7), .resolve 1 none (.createTable 7), .check 0, .check 1, .stamp 0, .finish 0,
    .stamp 1, .finish 1]

/-- Both succeed and two live tables have the name. -/
theorem names_unique_fails :
    ∃ s, Runs.run step Catalog.init createTwice = some s ∧ s.calls 0 = .done ∧ s.calls 1 = .done ∧
      ¬NamesUnique s := by
  have hend : (Runs.run step Catalog.init createTwice).map (fun s => decide (s.calls 0 = .done ∧ s.calls 1 = .done ∧
      (s.latest 0).map TableRow.name = some 7 ∧ (s.latest 1).map TableRow.name = some 7)) = some true := by
    decide +kernel
  obtain ⟨s, hrun, hs⟩ := Option.map_eq_some_iff.mp hend
  obtain ⟨h0, h1, hname0, hname1⟩ := of_decide_eq_true hs
  refine ⟨s, hrun, h0, h1, ?_⟩
  intro hunique
  obtain ⟨r, hr, hn⟩ := Option.map_eq_some_iff.mp hname0
  obtain ⟨r', hr', hn'⟩ := Option.map_eq_some_iff.mp hname1
  exact absurd (hunique 0 1 r r' hr hr' (hn.trans hn'.symm)) (by decide)

/-- A table is created and renamed in an open transaction, then another one takes the old name. -/
def renameThenCreate : List (Event Nat) :=
  [.resolve 0 none (.createTable 7), .check 0, .stamp 0, .finish 0, .beginTx 0,
    .resolve 1 (some 0) (.updateTable 0 (some 8)), .check 1, .stamp 1, .finish 1, .commitTx 0,
    .resolve 2 none (.createTable 7), .check 2, .stamp 2, .finish 2]

theorem names_unique_renameThenCreate :
    Runs.Throughout step NamesUnique Catalog.init renameThenCreate := by
  have hmeets : Runs.Meets step NamesSeen Catalog.init renameThenCreate := by decide +kernel
  have hend : (Runs.run step Catalog.init renameThenCreate).isSome = true := by decide +kernel
  obtain ⟨s, hrun⟩ := Option.isSome_iff_exists.mp hend
  exact (names_unique_throughout hrun).1.mpr hmeets

end Instances

end Penca.Ddl
