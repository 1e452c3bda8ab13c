import Penca.Ddl.Evolve
import Penca.Lib.Keyed
import Penca.Write.Data

/-!
# `Write.Identity` — row identity through storage

One table through `CreateTable`, `UpdateTable` and `WriteData` calls. The identity of a row is a hash of its key as the
`WriteData` batch prints it. What Postgres keeps went through a SQL literal of the batch's type and the type of the physical
column, and what a read returns is decoded under the type the table declares now; the key columns themselves are the ones the
table declares now, and `UpdateTable` takes any list of them.

## Contents
- **The physical table**: columns, cells, `CreateTable`, `UpdateTable`, `WriteData`.
- **Keys as read**, and the batch a client makes of the key of a row.
- **Keys that survive**: what a write of such a key leaves, and what an `UpdateTable` leaves of a key.
- **Main results:** `identity_stable_run` and `identity_stable_fails`.
-/

namespace Penca

open Ddl (PgNames Column createUpsertLog evolveDataLogSchema)

variable {N I V P R : Type} [DecidableEq N] [DecidableEq I] [DecidableEq V] [DecidableEq R]

/-! ## The physical table -/

/-- How values get into a Postgres column and out of it. -/
structure PgCodec (V P : Type) where
  /-- NULL. -/
  nullCell : P
  /-- The SQL literal of a value of the type, inserted into a column; `none` if Postgres refuses it. -/
  put : DataType → SqlType → V → Option P
  /-- A column decoded under a declared type; `none` if the decoder refuses it. -/
  get : SqlType → DataType → P → Option V

/-- The table: what it declares, the physical columns of its two logs, and the upserted rows by physical column. -/
structure StoredTable (N I P R : Type) where
  tableMeta : TableMeta N
  columns : List (Column I)
  deleteColumns : List (Column I)
  history : History R (List (I × P))

/-- The type of a physical column. -/
def columnType (columns : List (Column I)) (i : I) : Option SqlType := columns.lookup i

/-- The cell of a stored row; a column added later is NULL. -/
def PgCodec.cellOf (codec : PgCodec V P) (row : List (I × P)) (i : I) : P := (row.lookup i).getD codec.nullCell

/-- A field as the table DDL sees it. -/
def Field.toColumn (field : Field N) : Ddl.Field N := ⟨field.name, field.dataType⟩

/-- The errors of `validate_create_table_primary_keys`. -/
inductive PrimaryKeysError (N : Type) where
  | noPrimaryKey
  | listedTwice (pk : N)
  | notDeclared (pk : N)
  deriving DecidableEq, Repr

/-- `validate_create_table_primary_keys`. -/
def validateCreateTablePrimaryKeys (primaryKeys : List N) (schema : List (Field N)) : Option (PrimaryKeysError N) :=
  if primaryKeys = [] then some .noPrimaryKey
  else
    ((firstDuplicate [] primaryKeys).map .listedTwice).or
      ((primaryKeys.find? (fun pk => (declaredType schema pk).isNone)).map .notDeclared)

/-- The primary key columns of the `delete_log`. -/
def deleteLogColumns (pg : PgNames N I) (m : TableMeta N) : List (Column I) :=
  m.primaryKeys.filterMap (fun pk => (declaredType m.arrowSchema pk).bind (fun t => (arrowTypeToSql t).map (Prod.mk (pg.ident pk))))

/-- `create_table`. -/
def createTable (pg : PgNames N I) (m : TableMeta N) : Option (StoredTable N I P R) :=
  match validateCreateTablePrimaryKeys m.primaryKeys m.arrowSchema, createUpsertLog pg (m.arrowSchema.map Field.toColumn) with
  | none, .ok columns => some ⟨m, columns, deleteLogColumns pg m, .empty⟩
  | _, _              => none

/-- `update_table` with a new schema and new primary keys, which nothing checks. -/
def updateTable (pg : PgNames N I) (t : StoredTable N I P R) (schema : List (Field N)) (primaryKeys : List N) :
    Option (StoredTable N I P R) :=
  match evolveDataLogSchema pg (t.tableMeta.arrowSchema.map Field.toColumn) t.columns (schema.map Field.toColumn) with
  | .ok columns => some { t with tableMeta := ⟨t.tableMeta.tableUuid, schema, primaryKeys⟩, columns := columns }
  | .error _    => none

/-! ## `WriteData` -/

/-- The value a batch row puts into a physical column; NULL if the batch lacks the column. -/
def PgCodec.putCell (codec : PgCodec V P) (K : Kernel V R) (pg : PgNames N I) (fields : List (Field N)) (row : List V)
    (column : Column I) : Option P :=
  match (fields.zip row).find? (fun c => pg.ident c.1.name = column.1) with
  | some c => if c.2 = K.null then some codec.nullCell else codec.put c.1.dataType column.2 c.2
  | none   => some codec.nullCell

/-- Postgres takes the `INSERT`: every column is one of the log, named once and no system column, and every value fits. -/
def PgCodec.takes (codec : PgCodec V P) (K : Kernel V R) (pg : PgNames N I) (columns : List (Column I))
    (batch : RecordBatch N V) : Bool :=
  (batch.fields.map (fun f => pg.ident f.name)).Nodup &&
    batch.fields.all (fun f => (columnType columns (pg.ident f.name)).isSome &&
      pg.ident f.name ∉ pg.systemColumns.map Prod.fst) &&
    batch.rows.all (fun row => columns.all (fun column => (codec.putCell K pg batch.fields row column).isSome))

/-- The user columns a batch row leaves in the upsert log. -/
def PgCodec.physicalRow (codec : PgCodec V P) (K : Kernel V R) (pg : PgNames N I) (columns : List (Column I))
    (fields : List (Field N)) (row : List V) : List (I × P) :=
  columns.map (fun column => (column.1, (codec.putCell K pg fields row column).getD codec.nullCell))

/-- `insert_rows` takes the batch. -/
def upsertTaken (codec : PgCodec V P) (K : Kernel V R) (pg : PgNames N I) (t : StoredTable N I P R)
    (batch : RecordBatch N V) : Bool :=
  batch.rows = [] ||
    (t.tableMeta.primaryKeys.all (fun pk => (declaredType batch.fields pk).isSome) &&
      (firstNullPk K t.tableMeta.primaryKeys batch).isNone && codec.takes K pg t.columns batch)

/-- `insert_delete_pk_batches` takes the batch. -/
def deleteTaken (codec : PgCodec V P) (K : Kernel V R) (pg : PgNames N I) (t : StoredTable N I P R)
    (batch : RecordBatch N V) : Bool :=
  batch.rows = [] || ((validatePkBatchSchema K t.tableMeta batch).isNone && codec.takes K pg t.deleteColumns batch)

/-- Every batch is taken, and no two upserted rows have one identity. -/
def ChangeTaken (codec : PgCodec V P) (K : Kernel V R) (pg : PgNames N I) (t : StoredTable N I P R)
    (change : RowChange N V) : Prop :=
  (∀ batch ∈ change.deletes, deleteTaken codec K pg t batch = true) ∧
    (∀ batch ∈ change.upserts, upsertTaken codec K pg t batch = true) ∧
    (change.upserts.flatMap (rowUuidsOf K t.tableMeta)).Nodup

instance (codec : PgCodec V P) (K : Kernel V R) (pg : PgNames N I) (t : StoredTable N I P R) (change : RowChange N V) :
    Decidable (ChangeTaken codec K pg t change) :=
  inferInstanceAs (Decidable (_ ∧ _ ∧ _))

/-- The rows a batch leaves in the upsert log, under their identities. -/
def physicalRows (codec : PgCodec V P) (K : Kernel V R) (pg : PgNames N I) (t : StoredTable N I P R)
    (batch : RecordBatch N V) : List (R × List (I × P)) :=
  batch.rows.map (fun row => (K.rowUuidForRow t.tableMeta.tableUuid (keyCells batch.fields t.tableMeta.primaryKeys row),
    codec.physicalRow K pg t.columns batch.fields row))

omit [DecidableEq R] in
theorem map_fst_physicalRows (codec : PgCodec V P) (K : Kernel V R) (pg : PgNames N I) (t : StoredTable N I P R)
    (batch : RecordBatch N V) : (physicalRows codec K pg t batch).map Prod.fst = rowUuidsOf K t.tableMeta batch := by
  rw [physicalRows, rowUuidsOf, List.map_map]
  rfl

/-- The log rows of a change that is taken. -/
def physicalChange (codec : PgCodec V P) (K : Kernel V R) (pg : PgNames N I) (t : StoredTable N I P R)
    (change : RowChange N V) (h : ChangeTaken codec K pg t change) : DataChange R (List (I × P)) where
  deletes := change.deletes.map (fun batch => (rowUuidsOf K t.tableMeta batch).dedup)
  upserts := change.upserts.map (physicalRows codec K pg t)
  deletesOnce := by
    intro batch hbatch
    obtain ⟨b, -, rfl⟩ := List.mem_map.mp hbatch
    exact List.nodup_dedup _
  upsertsOnce := by
    intro batch hbatch
    obtain ⟨b, hb, rfl⟩ := List.mem_map.mp hbatch
    rw [map_fst_physicalRows]
    exact (List.nodup_flatMap.mp h.2.2).1 b hb

/-- An auto-commit `write_data`. -/
def writeTable (codec : PgCodec V P) (K : Kernel V R) (pg : PgNames N I) (t : StoredTable N I P R) (clock : CallClock)
    (change : RowChange N V) : Option (StoredTable N I P R) :=
  if h : t.history.Accepts clock.commitMicros ∧ ChangeTaken codec K pg t change then
    let rows := TxWrites.empty.applyChange clock.nextval clock.drawn (physicalChange codec K pg t change h.2)
    some { t with history := t.history.append clock.commitMicros rows h.1 }
  else none

/-- A call on the table. -/
inductive IdentityCall (N V : Type) where
  | updateTable (schema : List (Field N)) (primaryKeys : List N)
  | writeData (clock : CallClock) (change : RowChange N V)

/-- One call; a call that is refused leaves the table as it is. -/
def identityStep (codec : PgCodec V P) (K : Kernel V R) (pg : PgNames N I) (t : StoredTable N I P R) :
    IdentityCall N V → Option (StoredTable N I P R)
  | .updateTable schema primaryKeys => some ((updateTable pg t schema primaryKeys).getD t)
  | .writeData clock change         => some ((writeTable codec K pg t clock change).getD t)

/-! ## Keys as read -/

/-- A column of a stored row as a read returns it, with its declared type. -/
def readCell (codec : PgCodec V P) (pg : PgNames N I) (t : StoredTable N I P R) (row : List (I × P)) (name : N) :
    Option (DataType × V) :=
  match declaredType t.tableMeta.arrowSchema name, columnType t.columns (pg.ident name) with
  | some declared, some sqlType => (codec.get sqlType declared (codec.cellOf row (pg.ident name))).map (Prod.mk declared)
  | _, _                        => none

/-- The primary key of a stored row as a read returns it. -/
def keyRead (codec : PgCodec V P) (pg : PgNames N I) (t : StoredTable N I P R) (row : List (I × P)) : List (DataType × V) :=
  t.tableMeta.primaryKeys.filterMap (readCell codec pg t row)

/-- The row has a whole primary key as it is read, and the identity is derived from it. -/
def HasIdentity (codec : PgCodec V P) (K : Kernel V R) (pg : PgNames N I) (t : StoredTable N I P R) (u : R)
    (row : List (I × P)) : Prop :=
  (∀ pk ∈ t.tableMeta.primaryKeys, ∃ c ∈ readCell codec pg t row pk, c.2 ≠ K.null) ∧
    K.rowUuidForRow t.tableMeta.tableUuid (keyRead codec pg t row) = u

instance (codec : PgCodec V P) (K : Kernel V R) (pg : PgNames N I) (t : StoredTable N I P R) (u : R) (row : List (I × P)) :
    Decidable (HasIdentity codec K pg t u row) :=
  inferInstanceAs (Decidable (_ ∧ _))

/-- The live rows of the table under their identities. -/
def StoredTable.rows (t : StoredTable N I P R) : List (R × List (I × P)) :=
  (rowUuids t.history.entries).filterMap (fun u => (liveRow t.history u).map (Prod.mk u))

/-- **Stable identity**: every live row is under the identity of its key as it is read. -/
def StableIdentity (codec : PgCodec V P) (K : Kernel V R) (pg : PgNames N I) (t : StoredTable N I P R) : Prop :=
  ∀ p ∈ t.rows, HasIdentity codec K pg t p.1 p.2

instance (codec : PgCodec V P) (K : Kernel V R) (pg : PgNames N I) (t : StoredTable N I P R) :
    Decidable (StableIdentity codec K pg t) :=
  inferInstanceAs (Decidable (∀ p ∈ t.rows, HasIdentity codec K pg t p.1 p.2))

/-- A key cell survives: it is of the declared type, the physical column takes it, and as it is read back it prints the
    same. -/
def KeySurvives (codec : PgCodec V P) (K : Kernel V R) (pg : PgNames N I) (t : StoredTable N I P R) (pk : N)
    (c : DataType × V) : Prop :=
  declaredType t.tableMeta.arrowSchema pk = some c.1 ∧
    ∃ sqlType ∈ columnType t.columns (pg.ident pk), ∃ p ∈ codec.put c.1 sqlType c.2, ∃ v ∈ codec.get sqlType c.1 p,
      v ≠ K.null ∧ K.display c.1 v = K.display c.1 c.2

/-- The condition on a call: the key cells a write sends survive, and an `UpdateTable` keeps the key columns and their
    types or finds no live row. -/
def KeepsKeys (codec : PgCodec V P) (K : Kernel V R) (pg : PgNames N I) (t : StoredTable N I P R) :
    IdentityCall N V → Prop
  | .updateTable schema primaryKeys =>
      t.rows.isEmpty = true ∨ (primaryKeys = t.tableMeta.primaryKeys ∧
        ∀ pk ∈ primaryKeys, declaredType schema pk = declaredType t.tableMeta.arrowSchema pk)
  | .writeData _ change             =>
      ∀ batch ∈ change.upserts, ∀ row ∈ batch.rows, ∀ pk ∈ t.tableMeta.primaryKeys, ∀ c ∈ cell batch.fields row pk,
        KeySurvives codec K pg t pk c

instance (codec : PgCodec V P) (K : Kernel V R) (pg : PgNames N I) (t : StoredTable N I P R) (pk : N) (c : DataType × V) :
    Decidable (KeySurvives codec K pg t pk c) :=
  inferInstanceAs (Decidable (_ ∧ _))

instance (codec : PgCodec V P) (K : Kernel V R) (pg : PgNames N I) (t : StoredTable N I P R) (call : IdentityCall N V) :
    Decidable (KeepsKeys codec K pg t call) :=
  match call with
  | .updateTable _ _    => inferInstanceAs (Decidable (_ ∨ _ ∧ _))
  | .writeData _ change => inferInstanceAs (Decidable (∀ batch ∈ change.upserts, ∀ row ∈ batch.rows,
      ∀ pk ∈ t.tableMeta.primaryKeys, ∀ c ∈ cell batch.fields row pk, KeySurvives codec K pg t pk c))

/-! ## Keys that survive -/

section Survive

variable {codec : PgCodec V P} {K : Kernel V R} {pg : PgNames N I}

omit [DecidableEq N] [DecidableEq V] [DecidableEq R] in
theorem lookup_map_columns {columns : List (Column I)} (g : Column I → P) {i : I} {sqlType : SqlType}
    (h : columns.lookup i = some sqlType) :
    (columns.map (fun column => (column.1, g column))).lookup i = some (g (i, sqlType)) := by
  induction columns with
  | nil => cases h
  | cons column columns ih =>
      rw [List.lookup_cons] at h
      rw [List.map_cons, List.lookup_cons]
      split at h
      · rename_i heq
        have hi : i = column.1 := by simpa using heq
        cases h
        rw [hi]
      · exact ih h

omit [DecidableEq R] in
/-- The physical column of a batch column gets the cell of that column, if no other column of the batch has its
    identifier. -/
theorem putCell_of_cell {batch : RecordBatch N V} (hnodup : (batch.fields.map (fun f => pg.ident f.name)).Nodup)
    {row : List V} (hrow : row ∈ batch.rows) {pk : N} {c : DataType × V} (hc : cell batch.fields row pk = some c)
    (hnull : c.2 ≠ K.null) (sqlType : SqlType) :
    codec.putCell K pg batch.fields row (pg.ident pk, sqlType) = codec.put c.1 sqlType c.2 := by
  obtain ⟨d, hfind, rfl⟩ := Option.map_eq_some_iff.mp hc
  have hname : d.1.name = pk := by simpa using List.find?_some hfind
  have hkeys : ((batch.fields.zip row).map (fun c => pg.ident c.1.name)).Nodup := by
    have hcomp : (batch.fields.zip row).map (fun c => pg.ident c.1.name) =
        ((batch.fields.zip row).map Prod.fst).map (fun f => pg.ident f.name) := by
      rw [List.map_map]
      rfl
    rwa [hcomp, List.map_fst_zip (Nat.le_of_eq (batch.width row hrow).symm)]
  have hget : Keyed.get (fun c : Field N × V => pg.ident c.1.name) (batch.fields.zip row) (pg.ident pk) = some d :=
    (Keyed.get_eq_some hkeys).mpr ⟨List.mem_of_find?_eq_some hfind, by rw [hname]⟩
  rw [Keyed.get] at hget
  simp only [PgCodec.putCell, hget]
  exact if_neg hnull

variable {t : StoredTable N I P R}

omit [DecidableEq R] in
/-- A key cell that survives is read back under its type, and prints as it was sent. -/
theorem KeySurvives.readCell {batch : RecordBatch N V}
    (hnodup : (batch.fields.map (fun f => pg.ident f.name)).Nodup) {row : List V} (hrow : row ∈ batch.rows) {pk : N}
    {c : DataType × V} (hc : cell batch.fields row pk = some c) (hnull : c.2 ≠ K.null)
    (hsurvives : KeySurvives codec K pg t pk c) :
    ∃ v, Penca.readCell codec pg t (codec.physicalRow K pg t.columns batch.fields row) pk = some (c.1, v) ∧
      v ≠ K.null ∧ K.display c.1 v = K.display c.1 c.2 := by
  obtain ⟨hdeclared, sqlType, hsql, p, hp, v, hv, hnull', hprint⟩ := hsurvives
  refine ⟨v, ?_, hnull', hprint⟩
  have hcell : codec.cellOf (codec.physicalRow K pg t.columns batch.fields row) (pg.ident pk) = p := by
    rw [PgCodec.cellOf, PgCodec.physicalRow, lookup_map_columns _ hsql, Option.getD_some,
      putCell_of_cell hnodup hrow hc hnull, hp, Option.getD_some]
  rw [Penca.readCell, hdeclared, hsql]
  simp only [hcell, Option.mem_def.mp hv, Option.map_some]

omit [DecidableEq R] in
/-- A row whose key cells survive is under the identity of its key as it is read. -/
theorem hasIdentity_of_survives {batch : RecordBatch N V} (htaken : upsertTaken codec K pg t batch = true) {row : List V}
    (hrow : row ∈ batch.rows)
    (hsurvive : ∀ pk ∈ t.tableMeta.primaryKeys, ∀ c ∈ cell batch.fields row pk, KeySurvives codec K pg t pk c) :
    HasIdentity codec K pg t (K.rowUuidForRow t.tableMeta.tableUuid (keyCells batch.fields t.tableMeta.primaryKeys row))
      (codec.physicalRow K pg t.columns batch.fields row) := by
  have hrows : batch.rows ≠ [] := List.ne_nil_of_mem hrow
  simp only [upsertTaken, hrows, decide_false, Bool.false_or, Bool.and_eq_true, List.all_eq_true, PgCodec.takes,
    decide_eq_true_eq, Option.isNone_iff_eq_none] at htaken
  obtain ⟨⟨hcolumns, hnonull⟩, ⟨hnodup, -⟩, -⟩ := htaken
  have hread : ∀ pk ∈ t.tableMeta.primaryKeys, ∃ c v, cell batch.fields row pk = some c ∧
      readCell codec pg t (codec.physicalRow K pg t.columns batch.fields row) pk = some (c.1, v) ∧ v ≠ K.null ∧
      K.display c.1 v = K.display c.1 c.2 := by
    intro pk hpk
    have htype := map_fst_cell (batch.width row hrow) pk
    obtain ⟨c, hc⟩ : ∃ c, cell batch.fields row pk = some c := by
      have hsome := hcolumns pk hpk
      rw [← htype, Option.isSome_map] at hsome
      exact Option.isSome_iff_exists.mp hsome
    have hnull : c.2 ≠ K.null := by
      intro hnull
      refine List.find?_eq_none.mp hnonull pk hpk (List.any_eq_true.mpr ⟨row, hrow, ?_⟩)
      rw [hc, Option.any_some]
      exact decide_eq_true hnull
    obtain ⟨v, hv, hv', hprint⟩ := (hsurvive pk hpk c hc).readCell hnodup hrow hc hnull
    exact ⟨c, v, hc, hv, hv', hprint⟩
  constructor
  · intro pk hpk
    obtain ⟨c, v, -, hv, hnull, -⟩ := hread pk hpk
    exact ⟨(c.1, v), hv, hnull⟩
  · rw [Kernel.rowUuidForRow, Kernel.rowUuidForRow, keyRead, keyCells, List.map_filterMap, List.map_filterMap]
    refine congrArg _ (List.filterMap_congr ?_)
    intro pk hpk
    obtain ⟨c, v, hc, hv, -, hprint⟩ := hread pk hpk
    rw [hc, hv, Option.map_some, Option.map_some, hprint]

omit [DecidableEq V] [DecidableEq R] in
/-- `UpdateTable` only adds physical columns. -/
theorem lookup_evolveDataLogSchema {old schema : List (Ddl.Field N)} {columns columns' : List (Column I)}
    (h : evolveDataLogSchema pg old columns schema = .ok columns') {i : I} {sqlType : SqlType}
    (hi : columns.lookup i = some sqlType) : columns'.lookup i = some sqlType := by
  induction schema generalizing columns with
  | nil =>
      cases h
      exact hi
  | cons field rest ih =>
      simp only [evolveDataLogSchema] at h
      split at h
      · rename_i mid hmid
        refine ih h ?_
        unfold Ddl.evolveField at hmid
        split at hmid
        · split at hmid
          · cases hmid
          · cases hmid
            exact hi
        · split at hmid
          · cases hmid
            unfold Ddl.addColumnIfNotExists
            split
            · exact hi
            · rw [List.lookup_append, hi, Option.some_or]
          · cases hmid
      · cases h

omit [DecidableEq V] [DecidableEq R] in
/-- Under the same key columns of the same types a row is under the identity of its key as before. -/
theorem HasIdentity.updateTable {t' : StoredTable N I P R} {schema : List (Field N)} {primaryKeys : List N} {u : R}
    {row : List (I × P)} (h : HasIdentity codec K pg t u row) (hupdate : updateTable pg t schema primaryKeys = some t')
    (hkeys : primaryKeys = t.tableMeta.primaryKeys)
    (htypes : ∀ pk ∈ primaryKeys, declaredType schema pk = declaredType t.tableMeta.arrowSchema pk) :
    HasIdentity codec K pg t' u row := by
  unfold Penca.updateTable at hupdate
  split at hupdate
  · rename_i columns hevolve
    cases hupdate
    subst hkeys
    have hsame : ∀ pk ∈ t.tableMeta.primaryKeys, ∀ c, readCell codec pg t row pk = some c →
        readCell codec pg { t with tableMeta := ⟨t.tableMeta.tableUuid, schema, t.tableMeta.primaryKeys⟩,
                                   columns := columns } row pk = some c := by
      intro pk hpk c hc
      unfold readCell at hc ⊢
      split at hc
      · rename_i declared sqlType hdeclared hsql
        have hsql' : columnType columns (pg.ident pk) = some sqlType := lookup_evolveDataLogSchema hevolve hsql
        simp only [htypes pk hpk, hdeclared, hsql']
        exact hc
      · cases hc
    obtain ⟨hwhole, hid⟩ := h
    constructor
    · intro pk hpk
      obtain ⟨c, hc, hnull⟩ := hwhole pk hpk
      exact ⟨c, hsame pk hpk c hc, hnull⟩
    · rw [← hid, keyRead, keyRead]
      refine congrArg _ (List.filterMap_congr ?_)
      intro pk hpk
      obtain ⟨c, hc, -⟩ := hwhole pk hpk
      rw [hc]
      exact hsame pk hpk c hc
  · cases hupdate

end Survive

section Steps

variable {codec : PgCodec V P} {K : Kernel V R} {pg : PgNames N I} {t t' : StoredTable N I P R}

omit [DecidableEq N] [DecidableEq I] in
theorem StoredTable.mem_rows {u : R} {row : List (I × P)} : (u, row) ∈ t.rows ↔ liveRow t.history u = some row := by
  rw [rows, List.mem_filterMap]
  constructor
  · rintro ⟨w, -, hw⟩
    obtain ⟨stored, hstored, heq⟩ := Option.map_eq_some_iff.mp hw
    cases heq
    exact hstored
  · intro h
    exact ⟨u, mem_rowUuids_of_liveRow h, by rw [h]; rfl⟩

omit [DecidableEq V] in
/-- **Step.** An `UpdateTable` that keeps the key columns keeps the identities stable. -/
theorem stable_updateTable (hstable : StableIdentity codec K pg t) {schema : List (Field N)} {primaryKeys : List N}
    (hkeeps : KeepsKeys codec K pg t (.updateTable schema primaryKeys))
    (hupdate : updateTable pg t schema primaryKeys = some t') : StableIdentity codec K pg t' := by
  have hrows : t'.rows = t.rows := by
    unfold updateTable at hupdate
    split at hupdate
    · cases hupdate
      rfl
    · cases hupdate
  intro p hp
  rw [hrows] at hp
  rcases hkeeps with hempty | ⟨hkeys, htypes⟩
  · rw [List.isEmpty_iff.mp hempty] at hp
    cases hp
  · exact (hstable p hp).updateTable hupdate hkeys htypes

theorem rows_writeTable {clock : CallClock} {change : RowChange N V}
    (hwrite : writeTable codec K pg t clock change = some t') (u : R) (row : List (I × P)) :
    (u, row) ∈ t'.rows ↔ (u, row) ∈ change.upserts.flatMap (physicalRows codec K pg t) ∨
      ((u, row) ∈ t.rows ∧ u ∉ (change.upserts.flatMap (physicalRows codec K pg t)).map Prod.fst ∧
        u ∉ change.deletes.flatMap (rowUuidsOf K t.tableMeta)) := by
  unfold writeTable at hwrite
  split at hwrite
  · rename_i h
    cases hwrite
    have hupserts : (physicalChange codec K pg t change h.2).upserts.flatten =
        change.upserts.flatMap (physicalRows codec K pg t) := rfl
    have hdeletes : u ∈ (physicalChange codec K pg t change h.2).deletes.flatten ↔
        u ∈ change.deletes.flatMap (rowUuidsOf K t.tableMeta) := by
      simp [physicalChange, List.mem_flatten, List.mem_flatMap]
    have hnodup : ((change.upserts.flatMap (physicalRows codec K pg t)).map Prod.fst).Nodup := by
      rw [List.map_flatMap]
      simp only [map_fst_physicalRows]
      exact h.2.2.2
    rw [StoredTable.mem_rows, StoredTable.mem_rows, liveRow_append_change_eq_some h.1 _ (hupserts ▸ hnodup), hupserts, hdeletes]
  · cases hwrite

/-- **Step.** A write of keys that survive keeps the identities stable. -/
theorem stable_writeTable (hstable : StableIdentity codec K pg t) {clock : CallClock} {change : RowChange N V}
    (hkeeps : KeepsKeys codec K pg t (.writeData clock change))
    (hwrite : writeTable codec K pg t clock change = some t') : StableIdentity codec K pg t' := by
  intro p hp
  have hrows := (rows_writeTable hwrite p.1 p.2).mp hp
  unfold writeTable at hwrite
  split at hwrite
  · rename_i htaken
    cases hwrite
    show HasIdentity codec K pg t p.1 p.2
    rcases hrows with hnew | ⟨hold, -, -⟩
    · obtain ⟨batch, hbatch, hp⟩ := List.mem_flatMap.mp hnew
      obtain ⟨row, hrow, heq⟩ := List.mem_map.mp hp
      obtain ⟨hid, hstored⟩ := Prod.mk.inj heq
      rw [← hid, ← hstored]
      exact hasIdentity_of_survives (htaken.2.2.1 batch hbatch) hrow (hkeeps batch hbatch row hrow)
    · exact hstable p hold
  · cases hwrite

/-- **Step.** A call that meets the condition keeps the identities stable. -/
theorem stable_step (hstable : StableIdentity codec K pg t) {call : IdentityCall N V}
    (hkeeps : KeepsKeys codec K pg t call) (hstep : identityStep codec K pg t call = some t') :
    StableIdentity codec K pg t' := by
  cases call with
  | updateTable schema primaryKeys =>
      cases hupdate : updateTable pg t schema primaryKeys with
      | none =>
          simp only [identityStep, hupdate, Option.getD_none, Option.some.injEq] at hstep
          exact hstep ▸ hstable
      | some t₁ =>
          simp only [identityStep, hupdate, Option.getD_some, Option.some.injEq] at hstep
          exact hstep ▸ stable_updateTable hstable hkeeps hupdate
  | writeData clock change =>
      cases hwrite : writeTable codec K pg t clock change with
      | none =>
          simp only [identityStep, hwrite, Option.getD_none, Option.some.injEq] at hstep
          exact hstep ▸ hstable
      | some t₁ =>
          simp only [identityStep, hwrite, Option.getD_some, Option.some.injEq] at hstep
          exact hstep ▸ stable_writeTable hstable hkeeps hwrite

end Steps

/-! ## The batch of a key -/

/-- The cells of the columns under their names. -/
def namedCells (f : N → Option (DataType × V)) (names : List N) : List (Field N × V) :=
  names.filterMap (fun name => (f name).map (fun c => (⟨name, c.1, false⟩, c.2)))

/-- The batch of `Change.deletes`, or of `ids`, that a client makes of the key of a row as it read it. -/
def keyBatch (codec : PgCodec V P) (pg : PgNames N I) (t : StoredTable N I P R) (row : List (I × P)) : RecordBatch N V where
  fields := (namedCells (readCell codec pg t row) t.tableMeta.primaryKeys).map Prod.fst
  rows := [(namedCells (readCell codec pg t row) t.tableMeta.primaryKeys).map Prod.snd]
  width := by simp

section Batch

omit [DecidableEq V] in
/-- The batch has the cells it was made of. -/
theorem cell_namedCells {f : N → Option (DataType × V)} {names : List N} {name : N} (hname : name ∈ names)
    {c : DataType × V} (hc : f name = some c) :
    cell ((namedCells f names).map Prod.fst) ((namedCells f names).map Prod.snd) name = some c := by
  induction names with
  | nil => cases hname
  | cons first names ih =>
      by_cases heq : first = name
      · have hcons : namedCells f (first :: names) = (⟨first, c.1, false⟩, c.2) :: namedCells f names := by
          rw [namedCells, List.filterMap_cons, heq, hc]
          rfl
        rw [hcons, ← heq]
        exact cell_cons_self ⟨first, c.1, false⟩ _ _ _
      · have ih := ih ((List.mem_cons.mp hname).resolve_left (Ne.symm heq))
        cases hfirst : f first with
        | none =>
            have htail : namedCells f (first :: names) = namedCells f names := by
              rw [namedCells, List.filterMap_cons, hfirst]
              rfl
            rw [htail, ih]
        | some d =>
            have hcons : namedCells f (first :: names) = (⟨first, d.1, false⟩, d.2) :: namedCells f names := by
              rw [namedCells, List.filterMap_cons, hfirst]
              rfl
            rw [hcons, List.map_cons, List.map_cons, cell_cons_of_ne heq, ih]

omit [DecidableEq N] [DecidableEq V] in
theorem map_name_namedCells {f : N → Option (DataType × V)} {names : List N} (h : ∀ name ∈ names, (f name).isSome) :
    ((namedCells f names).map Prod.fst).map Field.name = names := by
  induction names with
  | nil => rfl
  | cons name names ih =>
      obtain ⟨c, hc⟩ := Option.isSome_iff_exists.mp (h name List.mem_cons_self)
      have hcons : namedCells f (name :: names) = (⟨name, c.1, false⟩, c.2) :: namedCells f names := by
        rw [namedCells, List.filterMap_cons, hc]
        rfl
      rw [hcons, List.map_cons, List.map_cons, ih (fun n hn => h n (List.mem_cons_of_mem name hn))]

variable {codec : PgCodec V P} {K : Kernel V R} {pg : PgNames N I} {t : StoredTable N I P R} {u : R} {row : List (I × P)}

omit [DecidableEq V] [DecidableEq R] in
/-- The type of a cell as it is read is the declared one. -/
theorem declaredType_of_readCell {name : N} {c : DataType × V} (h : readCell codec pg t row name = some c) :
    declaredType t.tableMeta.arrowSchema name = some c.1 := by
  unfold readCell at h
  split at h
  · rename_i declared sqlType hdeclared _
    obtain ⟨v, -, rfl⟩ := Option.map_eq_some_iff.mp h
    exact hdeclared
  · cases h

omit [DecidableEq R] in
/-- **A key batch names its row**: `validate_pk_batch_schema` takes the batch, and the identity derived from it is the
    row's. -/
theorem HasIdentity.names (h : HasIdentity codec K pg t u row) :
    validatePkBatchSchema K t.tableMeta (keyBatch codec pg t row) = none ∧
      rowUuidsOf K t.tableMeta (keyBatch codec pg t row) = [u] := by
  obtain ⟨hwhole, hid⟩ := h
  have hsome : ∀ pk ∈ t.tableMeta.primaryKeys, (readCell codec pg t row pk).isSome := by
    intro pk hpk
    obtain ⟨c, hc, -⟩ := hwhole pk hpk
    rw [hc]
    rfl
  constructor
  · rw [validatePkBatchSchema, if_neg (by rw [keyBatch, map_name_namedCells hsome]; exact not_not.mpr rfl),
      Option.or_eq_none_iff]
    constructor
    · rw [List.findSome?_eq_none_iff]
      intro field hfield
      obtain ⟨p, hp, rfl⟩ := List.mem_map.mp hfield
      obtain ⟨pk, -, hpk⟩ := List.mem_filterMap.mp hp
      obtain ⟨c, hc, rfl⟩ := Option.map_eq_some_iff.mp hpk
      rw [pkTypeError, declaredType_of_readCell hc]
      exact if_pos rfl
    · rw [Option.map_eq_none_iff, firstNullPk, List.find?_eq_none]
      intro pk hpk
      obtain ⟨c, hc, hnull⟩ := hwhole pk hpk
      simp [keyBatch, cell_namedCells hpk hc, hnull]
  · have hcells : keyCells (keyBatch codec pg t row).fields t.tableMeta.primaryKeys
        ((namedCells (readCell codec pg t row) t.tableMeta.primaryKeys).map Prod.snd) = keyRead codec pg t row := by
      refine List.filterMap_congr (fun pk hpk => ?_)
      obtain ⟨c, hc, -⟩ := hwhole pk hpk
      rw [hc]
      exact cell_namedCells hpk hc
    rw [rowUuidsOf, ← hid, ← hcells]
    rfl

omit [DecidableEq V] [DecidableEq R] in
/-- Rows with equal keys are one row. -/
theorem HasIdentity.eq_of_key_eq (h : HasIdentity codec K pg t u row) {u' : R} {row' : List (I × P)}
    (h' : HasIdentity codec K pg t u' row')
    (hkey : (keyRead codec pg t row).map Prod.snd = (keyRead codec pg t row').map Prod.snd) : u = u' := by
  have htypes : ∀ {u : R} {row : List (I × P)}, HasIdentity codec K pg t u row →
      (keyRead codec pg t row).map Prod.fst = t.tableMeta.primaryKeys.filterMap (declaredType t.tableMeta.arrowSchema) := by
    intro u row h
    rw [keyRead, List.map_filterMap]
    refine List.filterMap_congr (fun pk hpk => ?_)
    obtain ⟨c, hc, -⟩ := h.1 pk hpk
    rw [hc, declaredType_of_readCell hc]
    rfl
  have hcells : keyRead codec pg t row = keyRead codec pg t row' := by
    rw [← List.zip_unzip (keyRead codec pg t row), ← List.zip_unzip (keyRead codec pg t row'), List.unzip_eq_map,
      List.unzip_eq_map, htypes h, htypes h']
    exact congrArg _ hkey
  rw [← h.2, ← h'.2, hcells]

end Batch

/-! ## Stable identities -/

/-- Every live row is named by the batch of its key, and no two live rows have one key. -/
def KeysName (codec : PgCodec V P) (K : Kernel V R) (pg : PgNames N I) (t : StoredTable N I P R) : Prop :=
  (∀ p ∈ t.rows, validatePkBatchSchema K t.tableMeta (keyBatch codec pg t p.2) = none ∧
    rowUuidsOf K t.tableMeta (keyBatch codec pg t p.2) = [p.1]) ∧
  ∀ p ∈ t.rows, ∀ q ∈ t.rows, (keyRead codec pg t p.2).map Prod.snd = (keyRead codec pg t q.2).map Prod.snd → p.1 = q.1

/-- **Row identity through storage.** From a table just created, if every call of a run meets the condition, then in every
    state every live row is under the identity of its key as it is read, the batch of the key names exactly that row, and
    no two live rows have one key. -/
theorem identity_stable_run (codec : PgCodec V P) (K : Kernel V R) (pg : PgNames N I) {m : TableMeta N}
    {t : StoredTable N I P R} (hcreate : createTable pg m = some t) (calls : List (IdentityCall N V))
    (hkeeps : Runs.Meets (identityStep codec K pg) (KeepsKeys codec K pg) t calls) :
    Runs.Throughout (identityStep codec K pg) (fun t' => StableIdentity codec K pg t' ∧ KeysName codec K pg t') t
      calls := by
  have hnew : StableIdentity codec K pg t := by
    unfold createTable at hcreate
    split at hcreate
    · cases hcreate
      rintro p ⟨⟩
    · cases hcreate
  have hstable := Runs.throughout_of_step (fun t call t' hstable hkeeps hstep => stable_step hstable hkeeps hstep)
    hnew hkeeps
  refine hstable.mono ?_
  intro t' hstable
  exact ⟨hstable, fun p hp => (hstable p hp).names, fun p hp q hq => (hstable p hp).eq_of_key_eq (hstable q hq)⟩

/-! ## Keys that change on the way -/

/-- A decimal prints with two digits after the point, everything else as its digits. The hash keeps the text. -/
def plainKernel : Kernel (Option Int) (List Char) where
  null := none
  canCast _ _ := true
  cast _ _ v := v
  display dataType v := v.elim [] (fun n => Nat.toDigits 10 n.natAbs ++ match dataType with
    | .decimal128 _ _ => ['.', '0', '0']
    | _               => [])
  store _ _ v := some v
  xxh3 := id

/-- Timestamps are kept to whole microseconds, everything else as it is. -/
def plainCodec : PgCodec (Option Int) (Option Int) where
  nullCell := none
  put _ sqlType v := some (if sqlType = .timestamp then v.map (fun n => (n + 500) / 1000) else v)
  get sqlType _ p := some (if sqlType = .timestamp then p.map (· * 1000) else p)

def charNames : PgNames Char Char := ⟨id, 'v', 'r', 'x', 'w'⟩

/-- The table `t (a key, b)` with a key of the type. -/
def keyedTable (dataType : DataType) : TableMeta Char :=
  ⟨['t'], [⟨'a', dataType, false⟩, ⟨'b', .int64, true⟩], ['a']⟩

/-- The upsert of the row `(a, b)` with a key of the type. -/
def upsertPair (dataType : DataType) (micros a b : Int) : IdentityCall Char (Option Int) :=
  .writeData ⟨micros, Nat.cast, 0, increasing_natCast⟩
    ⟨[⟨[⟨'a', dataType, false⟩, ⟨'b', .int64, true⟩], [[some a, some b]], by simp⟩], []⟩

/-- A live row is not under the identity of its key at the end of the run. -/
def Unstable (m : TableMeta Char) (calls : List (IdentityCall Char (Option Int))) : Prop :=
  ∃ t t' : StoredTable Char Char (Option Int) (List Char), createTable charNames m = some t ∧
    Runs.run (identityStep plainCodec plainKernel charNames) t calls = some t' ∧
      ¬ StableIdentity plainCodec plainKernel charNames t'

theorem unstable_of_run {m : TableMeta Char} {calls : List (IdentityCall Char (Option Int))}
    (h : (createTable charNames m : Option (StoredTable Char Char (Option Int) (List Char))).any (fun t =>
      (Runs.run (identityStep plainCodec plainKernel charNames) t calls).any (fun t' =>
        decide (¬ StableIdentity plainCodec plainKernel charNames t'))) = true) : Unstable m calls := by
  obtain ⟨t, hcreate, hrun⟩ := (Option.any_eq_true _ _).mp h
  obtain ⟨t', hrun, hend⟩ := (Option.any_eq_true _ _).mp hrun
  exact ⟨t, t', hcreate, hrun, of_decide_eq_true hend⟩

/-- A nanosecond timestamp loses its last digits; an integer sent for a decimal key prints otherwise than the decimal it
    becomes; and another primary key is declared for the rows that are there. -/
theorem identity_stable_fails :
    Unstable (keyedTable (.timestamp .nanosecond none)) [upsertPair (.timestamp .nanosecond none) 1 1 10] ∧
    Unstable (keyedTable (.decimal128 10 2)) [upsertPair .int64 1 1 10] ∧
    Unstable (keyedTable .int64) [upsertPair .int64 1 1 10, .updateTable (keyedTable .int64).arrowSchema ['b']] := by
  refine ⟨unstable_of_run ?_, unstable_of_run ?_, unstable_of_run ?_⟩
  · decide +kernel
  · decide +kernel
  · decide +kernel

/-- Two rows are written, one of them again, and a column is added to the table. -/
def evolvingCalls : List (IdentityCall Char (Option Int)) :=
  [upsertPair .int64 1 1 10, upsertPair .int64 2 2 20, upsertPair .int64 3 1 11,
    .updateTable ((keyedTable .int64).arrowSchema ++ [⟨'c', .int64, true⟩]) ['a'], upsertPair .int64 4 3 30]

theorem identity_stable_evolvingCalls :
    ∃ t : StoredTable Char Char (Option Int) (List Char), createTable charNames (keyedTable .int64) = some t ∧
      Runs.Throughout (identityStep plainCodec plainKernel charNames)
        (fun t' => StableIdentity plainCodec plainKernel charNames t' ∧ KeysName plainCodec plainKernel charNames t') t
        evolvingCalls := by
  have hcreate : (createTable charNames (keyedTable .int64) : Option (StoredTable Char Char (Option Int) (List Char))) =
      some ⟨keyedTable .int64, _, _, .empty⟩ := rfl
  exact ⟨_, hcreate, identity_stable_run plainCodec plainKernel charNames hcreate evolvingCalls (by decide +kernel)⟩

end Penca
