import Mathlib.Data.List.Nodup
import Penca.Core.Types
import Penca.Ddl.Transactions
import Penca.Lib.Runs

/-!
# `Ddl.Evolve` — schema versions and the physical upsert log

One table on one branch. Every `UpdateTable` writes a schema version under its transaction and then evolves the physical
`upsert_log`: columns the new schema adds to the schema the call *sees* are added with `ADD COLUMN IF NOT EXISTS`. The
physical table is shared by all versions and never loses a column, not one an older version dropped and not one an
aborted transaction added, so a column may be there already, with another type, and the statement then does nothing.

`AddsFit` is what is missing: the columns a call adds are physically absent or of the type the call wants. Every version
some snapshot can see is readable in every state of a run exactly if every accepted call meets it
(`versions_readable_throughout`).
-/

namespace Penca.Ddl

variable {N I : Type}

/-! ## Schemas and the physical table -/

/-- A column of an Arrow schema. -/
structure Field (N : Type) where
  name : N
  dataType : DataType
  deriving DecidableEq, Repr

/-- How Postgres sees column names: `ident` quotes a name and cuts it to the identifier length; the four system columns
    of every `upsert_log`. -/
structure PgNames (N I : Type) where
  ident : N → I
  versionUuid : I
  rowUuid : I
  txUuid : I
  writeSeqNum : I

/-- A physical column. -/
abbrev Column (I : Type) := I × SqlType

def PgNames.systemColumns (pg : PgNames N I) : List (Column I) :=
  [(pg.versionUuid, .uuid), (pg.rowUuid, .uuid), (pg.txUuid, .uuid), (pg.writeSeqNum, .bigint)]

/-- `DataTableError`. -/
inductive DataTableError (N : Type) where
  | incompatibleTypeChange (column : N) (oldType newType : DataType)
  | unsupportedType (dataType : DataType)
  /-- Postgres: a column is specified more than once. -/
  | duplicateColumn
  deriving DecidableEq, Repr

/-- The physical column of a field. -/
def PgNames.columnOf (pg : PgNames N I) (field : Field N) : Except (DataTableError N) (Column I) :=
  match arrowTypeToSql field.dataType with
  | some sqlType => .ok (pg.ident field.name, sqlType)
  | none         => .error (.unsupportedType field.dataType)

/-- The user columns of the `CREATE TABLE` statement. -/
def userColumns (pg : PgNames N I) : List (Field N) → Except (DataTableError N) (List (Column I))
  | []            => .ok []
  | field :: rest =>
      match pg.columnOf field, userColumns pg rest with
      | .ok column, .ok columns => .ok (column :: columns)
      | .error e, _             => .error e
      | _, .error e             => .error e

/-- The `upsert_log` of `create_data_tables`. -/
def createUpsertLog [DecidableEq I] (pg : PgNames N I) (schema : List (Field N)) :
    Except (DataTableError N) (List (Column I)) :=
  match userColumns pg schema with
  | .error e => .error e
  | .ok user =>
      if ((pg.systemColumns ++ user).map Prod.fst).Nodup then .ok (pg.systemColumns ++ user)
      else .error .duplicateColumn

section Physical

variable [DecidableEq N] [DecidableEq I]

/-- `ALTER TABLE ... ADD COLUMN IF NOT EXISTS`. -/
def addColumnIfNotExists (columns : List (Column I)) (column : Column I) : List (Column I) :=
  if columns.any (fun c => c.1 = column.1) then columns else columns ++ [column]

/-- One round of the loop of `evolve_data_log_schema`. -/
def evolveField (pg : PgNames N I) (oldSchema : List (Field N)) (columns : List (Column I)) (field : Field N) :
    Except (DataTableError N) (List (Column I)) :=
  match oldSchema.find? (fun f => f.name = field.name) with
  | some oldField =>
      if oldField.dataType ≠ field.dataType then
        .error (.incompatibleTypeChange field.name oldField.dataType field.dataType)
      else .ok columns
  | none =>
      match pg.columnOf field with
      | .ok column => .ok (addColumnIfNotExists columns column)
      | .error e   => .error e

/-- `evolve_data_log_schema`. -/
def evolveDataLogSchema (pg : PgNames N I) (oldSchema : List (Field N)) :
    List (Column I) → List (Field N) → Except (DataTableError N) (List (Column I))
  | columns, []            => .ok columns
  | columns, field :: rest =>
      match evolveField pg oldSchema columns field with
      | .ok columns' => evolveDataLogSchema pg oldSchema columns' rest
      | .error e     => .error e

end Physical

/-! ## The system -/

/-- The table: the schema version each transaction wrote, and the physical columns once it is created. `calls` counts the
    calls, which name the transactions auto-commit makes. -/
structure TableState (N I : Type) where
  ledger : Ledger
  versions : TxId → Option (List (Field N))
  columns : Option (List (Column I))
  calls : Nat

def TableState.init : TableState N I where
  ledger := .init
  versions := fun _ => none
  columns := none
  calls := 0

/-- The version a snapshot sees. -/
def TableState.version (s : TableState N I) (snap : Snapshot) : Option (List (Field N)) :=
  s.ledger.version s.versions snap

/-- The transaction a call writes under. -/
def TableState.callTx (s : TableState N I) (tx : Option Nat) : TxId := (tx.map TxId.opened).getD (.auto s.calls)

/-- Write a version; a call without an open transaction commits it. -/
def TableState.writeVersion (s : TableState N I) (tx : Option Nat) (schema : List (Field N))
    (columns : List (Column I)) : TableState N I where
  ledger := if tx.isNone then { s.ledger with commits := s.ledger.commits ++ [s.callTx tx] } else s.ledger
  versions := Function.update s.versions (s.callTx tx) (some schema)
  columns := some columns
  calls := s.calls + 1

theorem TableState.versions_writeVersion_self (s : TableState N I) (tx : Option Nat) (schema : List (Field N))
    (columns : List (Column I)) : (s.writeVersion tx schema columns).versions (s.callTx tx) = some schema :=
  Function.update_self ..

theorem TableState.versions_writeVersion_of_ne {s : TableState N I} {tx : Option Nat} {schema : List (Field N)}
    {columns : List (Column I)} {z : TxId} (h : z ≠ s.callTx tx) :
    (s.writeVersion tx schema columns).versions z = s.versions z :=
  Function.update_of_ne h _ _

/-- A call on the table, or a call of the transaction service. -/
inductive TableCall (N : Type) where
  | beginTx (x : Nat)
  | commitTx (x : Nat)
  | abortTx (x : Nat)
  | createTable (tx : Option Nat) (schema : List (Field N))
  | updateTable (tx : Option Nat) (schema : List (Field N))
  deriving DecidableEq, Repr

section System

variable [DecidableEq N] [DecidableEq I]

/-- What `update_table` computes before it writes: the physical columns after the evolution; `none` when the transaction
    is not open, the table is not visible, or the evolution fails, in which cases everything is rolled back. -/
def TableState.evolved (pg : PgNames N I) (s : TableState N I) (tx : Option Nat) (schema : List (Field N)) :
    Option (List (Column I)) :=
  (s.ledger.resolveReadSnapshot tx).bind (fun snap =>
    (s.version snap).bind (fun old =>
      s.columns.bind (fun columns => (evolveDataLogSchema pg old columns schema).toOption)))

/-- One call. A call that fails leaves the state as it was. A table is created once: another `CreateTable` makes another
    table. -/
def tableCallStep (pg : PgNames N I) (s : TableState N I) : TableCall N → Option (TableState N I)
  | .beginTx x             => (s.ledger.begin x).map (fun l => { s with ledger := l })
  | .commitTx x            => (s.ledger.commit x).map (fun l => { s with ledger := l })
  | .abortTx x             => (s.ledger.abort x).map (fun l => { s with ledger := l })
  | .createTable tx schema =>
      if s.columns.isSome then none
      else
        match s.ledger.resolveReadSnapshot tx, createUpsertLog pg schema with
        | some _, .ok columns => some (s.writeVersion tx schema columns)
        | _, _                => some s
  | .updateTable tx schema =>
      match s.evolved pg tx schema with
      | some columns => some (s.writeVersion tx schema columns)
      | none         => some s

end System

/-! ## The property and the condition -/

/-- A position a read can be made at: any number of commits, or an open transaction. -/
def TableState.CanRead (s : TableState N I) (snap : Snapshot) : Prop :=
  snap.own = none ∨ ∃ x, s.ledger.resolveReadSnapshot (some x) = some snap

/-- The physical table has the column of the field. -/
def HasColumn (pg : PgNames N I) (columns : List (Column I)) (field : Field N) : Prop :=
  ∃ sqlType, arrowTypeToSql field.dataType = some sqlType ∧ (pg.ident field.name, sqlType) ∈ columns

/-- Every column of every version some snapshot sees is there, with its type. -/
def VersionsReadable (pg : PgNames N I) (s : TableState N I) : Prop :=
  ∀ snap schema, s.CanRead snap → s.version snap = some schema →
    ∃ columns, s.columns = some columns ∧ ∀ field ∈ schema, HasColumn pg columns field

/-- The fields of a schema that an older one has no column for. -/
def addedFields [DecidableEq N] (old schema : List (Field N)) : List (Field N) :=
  schema.filter (fun field => old.all (fun f => f.name ≠ field.name))

/-- The added columns fit: a physical column of that name has the type the field needs, and two added fields with one
    physical name need one type. -/
def ColumnsFit (pg : PgNames N I) (columns : List (Column I)) (added : List (Field N)) : Prop :=
  ∀ field ∈ added,
    (∀ c ∈ columns, c.1 = pg.ident field.name → arrowTypeToSql field.dataType = some c.2) ∧
      ∀ field' ∈ added, pg.ident field'.name = pg.ident field.name →
        arrowTypeToSql field.dataType = arrowTypeToSql field'.dataType

instance [DecidableEq I] (pg : PgNames N I) (columns : List (Column I)) (added : List (Field N)) :
    Decidable (ColumnsFit pg columns added) :=
  inferInstanceAs (Decidable (∀ field ∈ added, (∀ c ∈ columns, _ → _) ∧ ∀ field' ∈ added, _ → _))

/-- The columns an accepted `UpdateTable` adds fit the physical table. -/
def AddsFit [DecidableEq N] [DecidableEq I] (pg : PgNames N I) (s : TableState N I) : TableCall N → Prop
  | .updateTable tx schema =>
      ∀ snap ∈ s.ledger.resolveReadSnapshot tx, ∀ old ∈ s.version snap, ∀ columns ∈ s.columns,
        (s.evolved pg tx schema).isSome → ColumnsFit pg columns (addedFields old schema)
  | _ => True

instance [DecidableEq N] [DecidableEq I] (pg : PgNames N I) (s : TableState N I) : ∀ call, Decidable (AddsFit pg s call)
  | .updateTable tx schema =>
      inferInstanceAs (Decidable (∀ snap ∈ s.ledger.resolveReadSnapshot tx, ∀ old ∈ s.version snap,
        ∀ columns ∈ s.columns, (s.evolved pg tx schema).isSome → ColumnsFit pg columns (addedFields old schema)))
  | .beginTx _ | .commitTx _ | .abortTx _ | .createTable _ _ => isTrue trivial

/-! ## Evolving the physical table -/

section EvolveLemmas

theorem columnOf_eq_ok {pg : PgNames N I} {field : Field N} {column : Column I} (h : pg.columnOf field = .ok column) :
    column.1 = pg.ident field.name ∧ arrowTypeToSql field.dataType = some column.2 := by
  unfold PgNames.columnOf at h
  split at h
  · cases h
    exact ⟨rfl, by assumption⟩
  · cases h

theorem userColumns_spec {pg : PgNames N I} {schema : List (Field N)} {user : List (Column I)}
    (h : userColumns pg schema = .ok user) : ∀ field ∈ schema, HasColumn pg user field := by
  induction schema generalizing user with
  | nil => simp
  | cons field rest ih =>
      simp only [userColumns] at h
      split at h
      · rename_i column columns hcolumn hcolumns
        cases h
        intro f hf
        rcases List.mem_cons.mp hf with rfl | hf
        · obtain ⟨hident, hsql⟩ := columnOf_eq_ok hcolumn
          exact ⟨column.2, hsql, List.mem_cons.mpr (.inl (Prod.ext hident.symm rfl))⟩
        · obtain ⟨sqlType, hsql, hmem⟩ := ih hcolumns f hf
          exact ⟨sqlType, hsql, List.mem_cons_of_mem _ hmem⟩
      · cases h
      · cases h

variable [DecidableEq N] [DecidableEq I] {pg : PgNames N I} {old : List (Field N)} {columns columns' : List (Column I)}

/-- What adding a column leaves: the old columns, possibly the new one, and one of its name. -/
theorem addColumnIfNotExists_spec (columns : List (Column I)) (column : Column I) :
    columns ⊆ addColumnIfNotExists columns column ∧
      (∀ c ∈ addColumnIfNotExists columns column, c ∈ columns ∨ c = column) ∧
      (∃ c ∈ addColumnIfNotExists columns column, c.1 = column.1) ∧
      ((columns.map Prod.fst).Nodup → ((addColumnIfNotExists columns column).map Prod.fst).Nodup) := by
  unfold addColumnIfNotExists
  split
  · rename_i hany
    obtain ⟨c, hc, heq⟩ := List.any_eq_true.mp hany
    exact ⟨fun c hc => hc, fun c hc => .inl hc, ⟨c, hc, of_decide_eq_true heq⟩, id⟩
  · rename_i hany
    refine ⟨List.subset_append_left _ _, fun c hc => ?_, ⟨column, by simp, rfl⟩, fun hnodup => ?_⟩
    · rcases List.mem_append.mp hc with hc | hc
      · exact .inl hc
      · exact .inr (List.mem_singleton.mp hc)
    · have hfresh : ∀ c ∈ columns, c.1 ≠ column.1 := by
        intro c hc heq
        exact hany (List.any_eq_true.mpr ⟨c, hc, decide_eq_true heq⟩)
      rw [List.map_append, List.nodup_append]
      refine ⟨hnodup, by simp, ?_⟩
      intro a ha b hb
      obtain ⟨c, hc, rfl⟩ := List.mem_map.mp ha
      simp only [List.map_cons, List.map_nil, List.mem_singleton] at hb
      exact hb ▸ hfresh c hc

/-- What an accepted evolution does with the physical table. -/
structure Evolved (pg : PgNames N I) (old : List (Field N)) (columns columns' : List (Column I))
    (schema : List (Field N)) : Prop where
  keeps : columns ⊆ columns'
  /-- Every column is an old one or that of an added field. -/
  origin : ∀ c ∈ columns', c ∈ columns ∨
    ∃ field ∈ addedFields old schema, c.1 = pg.ident field.name ∧ arrowTypeToSql field.dataType = some c.2
  /-- An added field has a supported type and a column of its name. -/
  added : ∀ field ∈ addedFields old schema, (arrowTypeToSql field.dataType).isSome ∧
    ∃ c ∈ columns', c.1 = pg.ident field.name
  /-- A field the old schema has keeps its type. -/
  kept : ∀ field ∈ schema, field ∉ addedFields old schema → ∃ f ∈ old, f.name = field.name ∧ f.dataType = field.dataType
  nodup : (columns.map Prod.fst).Nodup → (columns'.map Prod.fst).Nodup

/-- **Spec of `evolve_data_log_schema`.** -/
theorem evolveDataLogSchema_spec {schema : List (Field N)}
    (h : evolveDataLogSchema pg old columns schema = .ok columns') : Evolved pg old columns columns' schema := by
  induction schema generalizing columns with
  | nil =>
      cases h
      exact ⟨fun c hc => hc, fun c hc => .inl hc, fun field hf => absurd hf (by simp [addedFields]),
        fun field hf => absurd hf (by simp), id⟩
  | cons field rest ih =>
      simp only [evolveDataLogSchema] at h
      split at h
      · rename_i mid hmid
        have hrest := ih h
        simp only [evolveField] at hmid
        split at hmid
        · rename_i oldField hfind
          -- The field is in the old schema with this type; the columns stay.
          split at hmid
          · cases hmid
          · rename_i htype
            cases hmid
            have hmem := List.mem_of_find?_eq_some hfind
            have hname : oldField.name = field.name := by simpa using List.find?_some hfind
            have hadded : addedFields old (field :: rest) = addedFields old rest := by
              refine List.filter_cons_of_neg ?_
              simp only [List.all_eq_true, decide_eq_true_eq, not_forall]
              exact ⟨oldField, hmem, not_not.mpr hname⟩
            refine ⟨hrest.keeps, hadded ▸ hrest.origin, hadded ▸ hrest.added, ?_, hrest.nodup⟩
            intro f hf hnot
            rw [hadded] at hnot
            rcases List.mem_cons.mp hf with rfl | hf
            · exact ⟨oldField, hmem, hname, not_not.mp htype⟩
            · exact hrest.kept f hf hnot
        · rename_i hfind
          split at hmid
          · rename_i column hcolumn
            cases hmid
            obtain ⟨hident, hsql⟩ := columnOf_eq_ok hcolumn
            obtain ⟨hkeeps, horigin, ⟨c, hc, hcname⟩, hnodup⟩ := addColumnIfNotExists_spec columns column
            have hadded : addedFields old (field :: rest) = field :: addedFields old rest := by
              refine List.filter_cons_of_pos ?_
              simpa [List.all_eq_true] using List.find?_eq_none.mp hfind
            constructor
            case keeps => exact fun c hc => hrest.keeps (hkeeps hc)
            case origin =>
              intro c hc
              rw [hadded]
              rcases hrest.origin c hc with hold | ⟨f, hf, heq⟩
              · rcases horigin c hold with hold | rfl
                · exact .inl hold
                · exact .inr ⟨field, List.mem_cons_self, hident, hsql⟩
              · exact .inr ⟨f, List.mem_cons_of_mem _ hf, heq⟩
            case added =>
              intro f hf
              rw [hadded] at hf
              rcases List.mem_cons.mp hf with rfl | hf
              · exact ⟨by simp [hsql], c, hrest.keeps hc, hcname.trans hident⟩
              · exact hrest.added f hf
            case kept =>
              intro f hf hnot
              rw [hadded] at hnot
              rcases List.mem_cons.mp hf with rfl | hf
              · exact absurd List.mem_cons_self hnot
              · exact hrest.kept f hf (fun h => hnot (List.mem_cons_of_mem _ h))
            case nodup => exact fun h => hrest.nodup (hnodup h)
          · cases hmid
      · cases h

omit [DecidableEq I] in
/-- In a table with one column per name, the columns of a schema are all there exactly if the added ones fit. -/
theorem Evolved.hasColumns_iff {schema : List (Field N)} (h : Evolved pg old columns columns' schema)
    (hnodup : (columns.map Prod.fst).Nodup) (hold : ∀ field ∈ old, HasColumn pg columns field) :
    (∀ field ∈ schema, HasColumn pg columns' field) ↔ ColumnsFit pg columns (addedFields old schema) := by
  have huniq : ∀ c ∈ columns', ∀ c' ∈ columns', c.1 = c'.1 → c = c' :=
    fun c hc c' hc' heq => List.inj_on_of_nodup_map (h.nodup hnodup) hc hc' heq
  constructor
  · intro hall field hf
    obtain ⟨sqlType, hsql, hmem⟩ := hall field (List.mem_filter.mp hf).1
    constructor
    · intro c hc hname
      obtain rfl := huniq _ (h.keeps hc) _ hmem hname
      exact hsql
    · intro field' hf' hname
      obtain ⟨sqlType', hsql', hmem'⟩ := hall field' (List.mem_filter.mp hf').1
      have heq := huniq _ hmem' _ hmem hname
      rw [hsql, hsql', (Prod.mk.inj heq).2]
  · intro hfit field hf
    by_cases hadded : field ∈ addedFields old schema
    · obtain ⟨hsome, c, hc, hname⟩ := h.added field hadded
      obtain ⟨sqlType, hsql⟩ := Option.isSome_iff_exists.mp hsome
      refine ⟨sqlType, hsql, ?_⟩
      have hctype : some c.2 = some sqlType := by
        rcases h.origin c hc with hc | ⟨field', hf', hname', hsql'⟩
        · exact ((hfit field hadded).1 c hc hname).symm.trans hsql
        · rw [← hsql', ← (hfit field hadded).2 field' hf' (hname'.symm.trans hname), hsql]
      obtain rfl := Option.some.inj hctype
      exact hname ▸ hc
    · obtain ⟨f, hfold, hname, htype⟩ := h.kept field hf hadded
      obtain ⟨sqlType, hsql, hmem⟩ := hold f hfold
      exact ⟨sqlType, htype ▸ hsql, hname ▸ h.keeps hmem⟩

omit [DecidableEq N] in
/-- A created table has its system columns and one column per field, all of different names. -/
theorem createUpsertLog_spec {schema : List (Field N)} (h : createUpsertLog pg schema = .ok columns) :
    (columns.map Prod.fst).Nodup ∧ ∀ field ∈ schema, HasColumn pg columns field := by
  unfold createUpsertLog at h
  split at h
  · cases h
  · rename_i user huser
    split at h
    · rename_i hnodup
      cases h
      refine ⟨hnodup, fun field hf => ?_⟩
      obtain ⟨sqlType, hsql, hmem⟩ := userColumns_spec huser field hf
      exact ⟨sqlType, hsql, List.mem_append_right _ hmem⟩
    · cases h

end EvolveLemmas

/-! ## Which versions are seen -/

section Shown

variable {pg : PgNames N I} {s s' : TableState N I}

/-- The writes of the transaction can be read: it has committed, or is open. -/
def Ledger.Shown (l : Ledger) (tx : TxId) : Prop := tx ∈ l.commits ∨ ∃ x, tx = .opened x ∧ l.isOpen x = true

theorem Ledger.exists_resolve_of_isOpen {l : Ledger} {x : Nat} (h : l.isOpen x = true) :
    ∃ below, l.resolveReadSnapshot (some x) = some ⟨below, some (.opened x)⟩ := by
  have hbegun : l.begun.any (fun b => b.1 = x) = true := by
    simp only [Ledger.isOpen, Bool.and_eq_true] at h
    exact h.1.1
  obtain ⟨b, hb, hbx⟩ := List.any_eq_true.mp hbegun
  cases hfind : l.begun.find? (fun b => b.1 = x) with
  | none => exact absurd hbx (by simpa using List.find?_eq_none.mp hfind b hb)
  | some c => exact ⟨c.2, by simp [Ledger.resolveReadSnapshot, Ledger.resolveTx, h, hfind]⟩

theorem Ledger.isOpen_of_resolve {l : Ledger} {x : Nat} {snap : Snapshot}
    (h : l.resolveReadSnapshot (some x) = some snap) : l.isOpen x = true := by
  obtain ⟨below, hbelow, -⟩ := Option.map_eq_some_iff.mp h
  simp only [Ledger.resolveTx] at hbelow
  split at hbelow
  · assumption
  · cases hbelow

/-- **What snapshots see** is what the committed and open transactions wrote. -/
theorem versionsReadable_iff :
    VersionsReadable pg s ↔ ∀ tx schema, s.ledger.Shown tx → s.versions tx = some schema →
      ∃ columns, s.columns = some columns ∧ ∀ field ∈ schema, HasColumn pg columns field := by
  constructor
  · intro h tx schema hshown hversion
    rcases hshown with hmem | ⟨x, rfl, hopen⟩
    · obtain ⟨i, hi⟩ := List.mem_iff_getElem?.mp hmem
      refine h ⟨i + 1, none⟩ schema (.inl rfl) ?_
      simp only [TableState.version, Ledger.version, Option.bind_none, Option.none_or]
      exact Versions.newestBelow_succ hi hversion
    · obtain ⟨below, hsnap⟩ := Ledger.exists_resolve_of_isOpen hopen
      refine h _ schema (.inr ⟨x, hsnap⟩) ?_
      simp [TableState.version, Ledger.version, hversion]
  · intro h snap schema hread hversion
    have hcommitted : ∀ n, Versions.newestBelow s.ledger.commits s.versions n = some schema →
        ∃ columns, s.columns = some columns ∧ ∀ field ∈ schema, HasColumn pg columns field := by
      intro n hn
      obtain ⟨tx, htx, hrow⟩ := Versions.exists_of_newestBelow hn
      exact h tx schema (.inl htx) hrow
    simp only [TableState.version, Ledger.version] at hversion
    rcases hread with hown | ⟨x, hsnap⟩
    · rw [hown, Option.bind_none, Option.none_or] at hversion
      exact hcommitted _ hversion
    · rw [Ledger.own_of_resolve hsnap, Option.map_some, Option.bind_some] at hversion
      cases hrow : s.versions (.opened x) with
      | some schema' =>
          rw [hrow, Option.some_or] at hversion
          obtain rfl := Option.some.inj hversion
          exact h _ _ (.inr ⟨x, rfl, Ledger.isOpen_of_resolve hsnap⟩) hrow
      | none =>
          rw [hrow, Option.none_or] at hversion
          exact hcommitted _ hversion

/-- A version of a snapshot a call resolves is one a read can see. -/
theorem TableState.canRead_of_resolve {tx : Option Nat} {snap : Snapshot}
    (h : s.ledger.resolveReadSnapshot tx = some snap) : s.CanRead snap := by
  cases tx with
  | none => exact .inl (Ledger.own_of_resolve h)
  | some x => exact .inr ⟨x, h⟩

/-- Beginning a transaction shows at most that transaction. -/
theorem Ledger.shown_of_begin {l l' : Ledger} {x : Nat} (h : l.begin x = some l') {tx : TxId} (hshown : l'.Shown tx) :
    l.Shown tx ∨ tx = .opened x := by
  obtain rfl := Ledger.begin_eq_some h
  rcases hshown with hmem | ⟨y, rfl, hopen⟩
  · exact .inl (.inl hmem)
  · by_cases hy : y = x
    · exact .inr (hy ▸ rfl)
    · refine .inl (.inr ⟨y, rfl, ?_⟩)
      simpa [Ledger.isOpen, List.any_append, Ne.symm hy] using hopen

theorem Ledger.shown_of_commit {l l' : Ledger} {x : Nat} (h : l.commit x = some l') {tx : TxId} (hshown : l'.Shown tx) :
    l.Shown tx := by
  obtain ⟨hopen, rfl⟩ := Ledger.commit_eq_some h
  rcases hshown with hmem | ⟨y, rfl, hy⟩
  · rcases List.mem_append.mp hmem with hmem | hmem
    · exact .inl hmem
    · exact .inr ⟨x, List.mem_singleton.mp hmem, hopen⟩
  · refine .inr ⟨y, rfl, ?_⟩
    simp only [Ledger.isOpen, Bool.and_eq_true, Bool.not_eq_true', List.contains_eq_mem, List.mem_append,
      decide_eq_false_iff_not, not_or] at hy ⊢
    exact ⟨⟨hy.1.1, hy.1.2.1⟩, hy.2⟩

theorem Ledger.shown_of_abort {l l' : Ledger} {x : Nat} (h : l.abort x = some l') {tx : TxId} (hshown : l'.Shown tx) :
    l.Shown tx := by
  obtain rfl := Ledger.abort_eq_some h
  rcases hshown with hmem | ⟨y, rfl, hy⟩
  · exact .inl hmem
  · refine .inr ⟨y, rfl, ?_⟩
    simp only [Ledger.isOpen, Bool.and_eq_true, Bool.not_eq_true', List.contains_eq_mem, List.mem_append,
      decide_eq_false_iff_not, not_or] at hy ⊢
    exact ⟨hy.1, hy.2.1⟩

/-- The transaction of a call that writes can be read in afterwards, and no other one becomes readable. -/
theorem TableState.shown_writeVersion {tx : Option Nat} {snap : Snapshot} {schema : List (Field N)}
    {columns : List (Column I)} (h : s.ledger.resolveReadSnapshot tx = some snap) :
    (s.writeVersion tx schema columns).ledger.Shown (s.callTx tx) ∧
      ∀ z, (s.writeVersion tx schema columns).ledger.Shown z → z = s.callTx tx ∨ s.ledger.Shown z := by
  cases tx with
  | none =>
      constructor
      · exact .inl (List.mem_append_right _ List.mem_cons_self)
      · rintro z (hmem | ⟨y, rfl, hy⟩)
        · rcases List.mem_append.mp hmem with hmem | hmem
          · exact .inr (.inl hmem)
          · exact .inl (List.mem_singleton.mp hmem)
        · refine .inr (.inr ⟨y, rfl, ?_⟩)
          simp only [TableState.writeVersion, Option.isNone_none, if_true, Ledger.isOpen, Bool.and_eq_true,
            Bool.not_eq_true', List.contains_eq_mem, List.mem_append, decide_eq_false_iff_not, not_or] at hy ⊢
          exact ⟨⟨hy.1.1, hy.1.2.1⟩, hy.2⟩
  | some x => exact ⟨.inr ⟨x, rfl, Ledger.isOpen_of_resolve h⟩, fun z hz => .inr hz⟩

end Shown

/-! ## Runs -/

section Runs

variable [DecidableEq N] [DecidableEq I] {pg : PgNames N I} {s s' : TableState N I}

/-- The invariant of the runs. -/
structure EvolveInv (s : TableState N I) : Prop where
  created : ∀ tx, s.versions tx ≠ none → s.columns ≠ none
  oneColumn : ∀ columns, s.columns = some columns → (columns.map Prod.fst).Nodup
  begun : ∀ x, s.versions (.opened x) ≠ none → s.ledger.begun.any (fun b => b.1 = x) = true

omit [DecidableEq N] [DecidableEq I] in
theorem EvolveInv.init : EvolveInv (TableState.init : TableState N I) where
  created := fun tx h => absurd rfl h
  oneColumn := by
    intro columns h
    cases h
  begun := fun x h => absurd rfl h

omit [DecidableEq N] [DecidableEq I] in
theorem EvolveInv.writeVersion (hinv : EvolveInv s) {tx : Option Nat} {snap : Snapshot} {schema : List (Field N)}
    {columns : List (Column I)} (hsnap : s.ledger.resolveReadSnapshot tx = some snap)
    (hnodup : (columns.map Prod.fst).Nodup) : EvolveInv (s.writeVersion tx schema columns) where
  created := by
    intro z _ h
    cases h
  oneColumn := by
    intro columns' h
    obtain rfl := Option.some.inj h
    exact hnodup
  begun := by
    intro x hx
    have hbegun : (s.writeVersion tx schema columns).ledger.begun = s.ledger.begun := by
      simp only [TableState.writeVersion]
      split <;> rfl
    rw [hbegun]
    by_cases heq : TxId.opened x = s.callTx tx
    · cases tx with
      | none => cases heq
      | some y =>
          obtain rfl := TxId.opened.inj heq
          have hopen := Ledger.isOpen_of_resolve hsnap
          simp only [Ledger.isOpen, Bool.and_eq_true] at hopen
          exact hopen.1.1
    · refine hinv.begun x ?_
      rwa [TableState.versions_writeVersion_of_ne heq] at hx

theorem TableState.evolved_eq_some {tx : Option Nat} {schema : List (Field N)} {columns' : List (Column I)}
    (h : s.evolved pg tx schema = some columns') :
    ∃ snap old columns, s.ledger.resolveReadSnapshot tx = some snap ∧ s.version snap = some old ∧
      s.columns = some columns ∧ Evolved pg old columns columns' schema := by
  obtain ⟨snap, hsnap, h⟩ := Option.bind_eq_some_iff.mp h
  obtain ⟨old, hold, h⟩ := Option.bind_eq_some_iff.mp h
  obtain ⟨columns, hcolumns, h⟩ := Option.bind_eq_some_iff.mp h
  cases hevolve : evolveDataLogSchema pg old columns schema with
  | error e =>
      rw [hevolve] at h
      cases h
  | ok result =>
      rw [hevolve] at h
      cases h
      exact ⟨snap, old, columns, hsnap, hold, hcolumns, evolveDataLogSchema_spec hevolve⟩

/-- **Step.** Every call keeps the invariant. -/
theorem EvolveInv.step (hinv : EvolveInv s) {call : TableCall N} (h : tableCallStep pg s call = some s') :
    EvolveInv s' := by
  cases call with
  | beginTx x =>
      obtain ⟨l, hl, rfl⟩ := Option.map_eq_some_iff.mp h
      obtain rfl := Ledger.begin_eq_some hl
      refine ⟨hinv.created, hinv.oneColumn, fun y hy => ?_⟩
      simp only [List.any_append, hinv.begun y hy, Bool.true_or]
  | commitTx x =>
      obtain ⟨l, hl, rfl⟩ := Option.map_eq_some_iff.mp h
      obtain ⟨-, rfl⟩ := Ledger.commit_eq_some hl
      exact ⟨hinv.created, hinv.oneColumn, hinv.begun⟩
  | abortTx x =>
      obtain ⟨l, hl, rfl⟩ := Option.map_eq_some_iff.mp h
      obtain rfl := Ledger.abort_eq_some hl
      exact ⟨hinv.created, hinv.oneColumn, hinv.begun⟩
  | createTable tx schema =>
      simp only [tableCallStep] at h
      split at h
      · cases h
      · split at h
        · rename_i snap columns hsnap hcolumns
          cases h
          exact hinv.writeVersion hsnap (createUpsertLog_spec hcolumns).1
        · cases h
          exact hinv
  | updateTable tx schema =>
      simp only [tableCallStep] at h
      split at h
      · rename_i columns' hevolved
        cases h
        obtain ⟨snap, old, columns, hsnap, -, hcolumns, hspec⟩ := TableState.evolved_eq_some hevolved
        exact hinv.writeVersion hsnap (hspec.nodup (hinv.oneColumn columns hcolumns))
      · cases h
        exact hinv

/-- An accepted `UpdateTable` keeps every version readable exactly if the columns it adds fit. -/
theorem EvolveInv.readable_update (hinv : EvolveInv s) (hread : VersionsReadable pg s) {tx : Option Nat}
    {schema : List (Field N)} {columns' : List (Column I)} (h : s.evolved pg tx schema = some columns') :
    VersionsReadable pg (s.writeVersion tx schema columns') ↔ AddsFit pg s (.updateTable tx schema) := by
  obtain ⟨snap, old, columns, hsnap, hold, hcolumns, hspec⟩ := TableState.evolved_eq_some h
  obtain ⟨hshown, honly⟩ := @TableState.shown_writeVersion N I s tx snap schema columns' hsnap
  obtain ⟨columns₀, hcolumns₀, hcols⟩ := hread snap old (TableState.canRead_of_resolve hsnap) hold
  obtain rfl := Option.some.inj (hcolumns.symm.trans hcolumns₀)
  have hiff := hspec.hasColumns_iff (hinv.oneColumn columns hcolumns) hcols
  have hfits : AddsFit pg s (.updateTable tx schema) ↔ ColumnsFit pg columns (addedFields old schema) := by
    constructor
    · intro hadds
      exact hadds snap hsnap old hold columns hcolumns (by simp [h])
    · rintro hfit snap' hsnap' old' hold' columns₁ hcolumns₁ -
      obtain rfl := Option.some.inj (hsnap.symm.trans hsnap')
      obtain rfl := Option.some.inj (hold.symm.trans hold')
      obtain rfl := Option.some.inj (hcolumns.symm.trans hcolumns₁)
      exact hfit
  rw [hfits, ← hiff, versionsReadable_iff]
  constructor
  · intro hafter
    obtain ⟨cols, heq, hall⟩ := hafter (s.callTx tx) schema hshown (s.versions_writeVersion_self ..)
    obtain rfl := Option.some.inj heq
    exact hall
  · intro hall z schema' hz hversion
    refine ⟨columns', rfl, ?_⟩
    by_cases hcall : z = s.callTx tx
    · subst hcall
      rw [TableState.versions_writeVersion_self] at hversion
      obtain rfl := Option.some.inj hversion
      exact hall
    · have hversion' := (TableState.versions_writeVersion_of_ne hcall).symm.trans hversion
      obtain ⟨cols, heq, hold'⟩ := versionsReadable_iff.mp hread z schema' ((honly z hz).resolve_left hcall) hversion'
      obtain rfl := Option.some.inj (hcolumns.symm.trans heq)
      intro field hf
      obtain ⟨sqlType, hsql, hmem⟩ := hold' field hf
      exact ⟨sqlType, hsql, hspec.keeps hmem⟩

omit [DecidableEq N] in
/-- `CreateTable` makes the first version, with its columns. -/
theorem EvolveInv.readable_create (hinv : EvolveInv s) (hnone : s.columns = none) {tx : Option Nat}
    {schema : List (Field N)} {columns : List (Column I)} (h : createUpsertLog pg schema = .ok columns) :
    VersionsReadable pg (s.writeVersion tx schema columns) := by
  rw [versionsReadable_iff]
  intro z schema' _ hversion
  refine ⟨columns, rfl, ?_⟩
  by_cases hcall : z = s.callTx tx
  · subst hcall
    rw [TableState.versions_writeVersion_self] at hversion
    obtain rfl := Option.some.inj hversion
    exact (createUpsertLog_spec h).2
  · have hversion' := (TableState.versions_writeVersion_of_ne hcall).symm.trans hversion
    exact absurd hnone (hinv.created z (by simp [hversion']))

/-- **Step.** A call keeps every version readable exactly if the columns it adds fit. -/
theorem EvolveInv.readable_step (hinv : EvolveInv s) (hread : VersionsReadable pg s) {call : TableCall N}
    (h : tableCallStep pg s call = some s') : VersionsReadable pg s' ↔ AddsFit pg s call := by
  have hread' := versionsReadable_iff.mp hread
  cases call with
  | beginTx x =>
      refine iff_of_true ?_ trivial
      obtain ⟨l, hl, rfl⟩ := Option.map_eq_some_iff.mp h
      rw [versionsReadable_iff]
      intro tx schema hshown hversion
      rcases Ledger.shown_of_begin hl hshown with hold | rfl
      · exact hread' tx schema hold hversion
      · -- Nothing is written under a transaction that has not begun.
        have hbegun := hinv.begun x (by simp only at hversion; simp [hversion])
        simp only [Ledger.begin, hbegun, if_true] at hl
        cases hl
  | commitTx x =>
      refine iff_of_true ?_ trivial
      obtain ⟨l, hl, rfl⟩ := Option.map_eq_some_iff.mp h
      rw [versionsReadable_iff]
      exact fun tx schema hshown hversion => hread' tx schema (Ledger.shown_of_commit hl hshown) hversion
  | abortTx x =>
      refine iff_of_true ?_ trivial
      obtain ⟨l, hl, rfl⟩ := Option.map_eq_some_iff.mp h
      rw [versionsReadable_iff]
      exact fun tx schema hshown hversion => hread' tx schema (Ledger.shown_of_abort hl hshown) hversion
  | createTable tx schema =>
      refine iff_of_true ?_ trivial
      simp only [tableCallStep] at h
      split at h
      · cases h
      · rename_i hnone
        split at h
        · rename_i snap columns hsnap hcolumns
          cases h
          exact hinv.readable_create (by simpa using hnone) hcolumns
        · cases h
          exact hread
  | updateTable tx schema =>
      simp only [tableCallStep] at h
      split at h
      · rename_i columns' hevolved
        cases h
        exact hinv.readable_update hread hevolved
      · rename_i hevolved
        cases h
        refine iff_of_true hread ?_
        intro snap _ old _ columns _ hsome
        simp [hevolved] at hsome

/-- **Schema evolution.** In every state of a run every column of every version a snapshot can see is in the physical
    table, with its type, exactly if the columns every accepted `UpdateTable` adds fit the physical table. -/
theorem versions_readable_throughout {calls : List (TableCall N)} {s : TableState N I}
    (hrun : Runs.run (tableCallStep pg) TableState.init calls = some s) :
    Runs.Throughout (tableCallStep pg) (VersionsReadable pg) TableState.init calls ↔
      Runs.Meets (tableCallStep pg) (AddsFit pg) TableState.init calls := by
  refine Runs.throughout_iff_meets (G := fun _ _ => True) (I := EvolveInv) (fun s call s' hinv _ h => hinv.step h)
    (fun s call s' hinv hread _ h => hinv.readable_step hread h) EvolveInv.init ?_
    (Runs.meets_of_forall (fun _ _ => trivial) _ _) hrun
  rw [versionsReadable_iff]
  intro tx schema _ hversion
  cases hversion

end Runs

/-! ## A column dropped and added again -/

section Instances

/-- Names are identifiers; 0 to 3 are the system columns. -/
def plainNames : PgNames Nat Nat := ⟨id, 0, 1, 2, 3⟩

/-- Column 11 is dropped and added again with another type. -/
def dropAndReadd : List (TableCall Nat) :=
  [.createTable none [⟨10, .int64⟩, ⟨11, .int32⟩], .updateTable none [⟨10, .int64⟩],
    .updateTable none [⟨10, .int64⟩, ⟨11, .utf8⟩]]

/-- The last call is accepted, but the column is still an `INTEGER`. -/
theorem versions_readable_fails :
    ∃ s, Runs.run (tableCallStep plainNames) TableState.init dropAndReadd = some s ∧
      s.version ⟨3, none⟩ = some [⟨10, .int64⟩, ⟨11, .utf8⟩] ∧ ¬VersionsReadable plainNames s := by
  have hend : (Runs.run (tableCallStep plainNames) TableState.init dropAndReadd).map (fun s =>
      decide (s.version ⟨3, none⟩ = some [⟨10, .int64⟩, ⟨11, .utf8⟩] ∧
        s.columns = some [(0, .uuid), (1, .uuid), (2, .uuid), (3, .bigint), (10, .bigint), (11, .integer)])) =
      some true := by decide +kernel
  obtain ⟨s, hrun, hs⟩ := Option.map_eq_some_iff.mp hend
  obtain ⟨hversion, hcolumns⟩ := of_decide_eq_true hs
  refine ⟨s, hrun, hversion, ?_⟩
  intro hread
  obtain ⟨columns, heq, hall⟩ := hread ⟨3, none⟩ _ (.inl rfl) hversion
  obtain rfl := Option.some.inj (hcolumns.symm.trans heq)
  obtain ⟨sqlType, hsql, hmem⟩ := hall ⟨11, .utf8⟩ (by simp)
  obtain rfl := Option.some.inj hsql
  exact absurd hmem (by decide)

/-- A column is added in a transaction that aborts, dropped elsewhere and added again with the type it had. -/
def abortAndReadd : List (TableCall Nat) :=
  [.createTable none [⟨10, .int64⟩, ⟨11, .int32⟩], .beginTx 0, .updateTable (some 0) [⟨10, .int64⟩, ⟨12, .utf8⟩],
    .abortTx 0, .updateTable none [⟨10, .int64⟩], .updateTable none [⟨10, .int64⟩, ⟨11, .int32⟩, ⟨12, .largeUtf8⟩]]

theorem versions_readable_abortAndReadd :
    Runs.Throughout (tableCallStep plainNames) (VersionsReadable plainNames) TableState.init abortAndReadd := by
  have hmeets : Runs.Meets (tableCallStep plainNames) (AddsFit plainNames) TableState.init abortAndReadd := by
    decide +kernel
  have hend : (Runs.run (tableCallStep plainNames) TableState.init abortAndReadd).isSome = true := by decide +kernel
  obtain ⟨s, hrun⟩ := Option.isSome_iff_exists.mp hend
  exact (versions_readable_throughout hrun).mpr hmeets

end Instances

end Penca.Ddl
