import Penca.Lib.Keyed
import Penca.Write.Data

/-!
# `Sql.Dml` — SQL data changes over `ReadData` and `WriteData`

The SQL server turns a statement into one `Change`: it collects a source query, casts the batch to the table's schema by
position, derives the row identities and, for a strict `INSERT` and for an `UPDATE` that sets primary key columns, probes
the table for the identities the change must not overwrite before it sends the change.

A statement is two parts here: what it prepares from the rows it reads (`prepareInsert`, `prepareUpdate`,
`prepareDelete`), and what it then does under the lock (`checkCollisionsAndSend`) or without it (`sendChange`).
-/

namespace Penca.Sql

variable {N V R : Type} [DecidableEq N] [DecidableEq V] [DecidableEq R]

/-! ## Errors -/

/-- The errors of a statement. -/
inductive Status (N V R : Type) where
  /-- `INSERT column list has {} entries but source produced {} columns` -/
  | columnListArity (columns source : Nat)
  /-- `partial-column INSERT is not yet supported: column list has {source_cols} entries but table has {target_cols}
      (specify all columns)` -/
  | partialColumnInsert (source target : Nat)
  /-- `INSERT source has {source_cols} column(s) but table has {target_cols}` -/
  | sourceArity (source target : Nat)
  /-- `INSERT ... ON CONFLICT DO NOTHING is not yet supported` and the other `ON` clauses that are not implemented. -/
  | unimplementedOn
  /-- `cast {} -> {}: {}` -/
  | cast (source target : DataType)
  /-- `cast_to_schema rebuild: {e}`: a column declared non-nullable has a null value. -/
  | rebuild (column : N)
  /-- `table has no primary keys; cannot derive row_uuid` -/
  | noPrimaryKeys
  /-- `primary key column '{pk}' missing from INSERT source` -/
  | primaryKeyMissing (pk : N)
  /-- `failed to plan UPDATE select: {e}`, `failed to plan DELETE select: {e}`: a primary key column is not in the table. -/
  | plan
  /-- `SET references unknown column: {col_name}` -/
  | unknownColumn (column : N)
  /-- `primary key collision …`: the keys of the rows the probe found, at most `maxReported` of them. -/
  | alreadyExists (keys : List (List V))
  /-- The `WriteData` call failed. -/
  | write (error : ApiError N R)
  deriving DecidableEq, Repr

/-- `MAX_REPORTED`. -/
def maxReported : Nat := 10

/-! ## Batches -/

/-- The batches a DataFusion plan yields: all of one schema. -/
structure Collected (N V : Type) where
  fields : List (Field N)
  batches : List (List (List V))
  width : ∀ batch ∈ batches, ∀ row ∈ batch, row.length = fields.length

/-- The rows of the plan. -/
def Collected.rows (c : Collected N V) : List (List V) := c.batches.flatten

omit [DecidableEq N] [DecidableEq V] in
theorem Collected.width_rows (c : Collected N V) : ∀ row ∈ c.rows, row.length = c.fields.length := by
  intro row hrow
  obtain ⟨batch, hbatch, hrow⟩ := List.mem_flatten.mp hrow
  exact c.width batch hbatch row hrow

/-- The fields under the names of an `INSERT` column list. -/
def renameFields (fields : List (Field N)) (columns : List N) : List (Field N) :=
  fields.zipWith (fun field column => { field with name := column }) columns

/-- `combine_batches`. -/
def combineBatches (source : Collected N V) (columns : List N) : Except (Status N V R) (RecordBatch N V) :=
  if source.batches = [] then .ok ⟨[], [], by simp⟩
  else if columns = [] then .ok ⟨source.fields, source.rows, source.width_rows⟩
  else if h : columns.length = source.fields.length then
    .ok ⟨renameFields source.fields columns, source.rows, by
      intro row hrow
      rw [source.width_rows row hrow, renameFields, List.length_zipWith, h, Nat.min_self]⟩
  else .error (.columnListArity columns.length source.fields.length)

/-- One value of `cast_to_schema`: a column that has the target type is kept, any other is cast. -/
def castValue (K : Kernel V R) (source target : DataType) (v : V) : V :=
  if source = target then v else K.cast source target v

/-- One row of `cast_to_schema`: columns are matched by position. -/
def castRow (K : Kernel V R) (types : List DataType) (schema : List (Field N)) (row : List V) : List V :=
  (types.zip schema).zipWith (fun t v => castValue K t.1 t.2.dataType v) row

omit [DecidableEq N] [DecidableEq V] [DecidableEq R] in
theorem length_castRow {K : Kernel V R} {types : List DataType} {schema : List (Field N)} {row : List V}
    (htypes : types.length = schema.length) (hrow : row.length = types.length) :
    (castRow K types schema row).length = schema.length := by
  rw [castRow, List.length_zipWith, List.length_zip, hrow, htypes, Nat.min_self, Nat.min_self]

/-- The first column Arrow cannot cast. -/
def castError (K : Kernel V R) (types : List DataType) (schema : List (Field N)) : Option (DataType × DataType) :=
  (types.zip (schema.map Field.dataType)).find? (fun t => t.1 ≠ t.2 ∧ ¬ K.canCast t.1 t.2)

/-- `RecordBatch::try_new`: the first non-nullable column with a null value. -/
def nullColumn (K : Kernel V R) (schema : List (Field N)) (rows : List (List V)) : Option N :=
  ((schema.zipIdx.find? (fun f => !f.1.nullable ∧ ∃ row ∈ rows, row[f.2]? = some K.null))).map (fun f => f.1.name)

/-- The types of the columns of a batch. -/
def typesOf (fields : List (Field N)) : List DataType := fields.map Field.dataType

/-- The batch `cast_to_schema` builds. -/
def castBatch (K : Kernel V R) (batch : RecordBatch N V) (schema : List (Field N))
    (h : batch.fields.length = schema.length) : RecordBatch N V where
  fields := schema
  rows := batch.rows.map (castRow K (typesOf batch.fields) schema)
  width := by
    intro row hrow
    obtain ⟨source, hsource, rfl⟩ := List.mem_map.mp hrow
    refine length_castRow ?_ ?_
    · rw [typesOf, List.length_map, h]
    · rw [typesOf, List.length_map, batch.width source hsource]

/-- `cast_to_schema`, for a batch with as many columns as the schema. -/
def castToSchema (K : Kernel V R) (batch : RecordBatch N V) (schema : List (Field N))
    (h : batch.fields.length = schema.length) : Except (Status N V R) (RecordBatch N V) :=
  match castError K (typesOf batch.fields) schema with
  | some t => .error (.cast t.1 t.2)
  | none   =>
      match nullColumn K schema (castBatch K batch schema h).rows with
      | some column => .error (.rebuild column)
      | none        => .ok (castBatch K batch schema h)

omit [DecidableEq N] [DecidableEq R] in
theorem castToSchema_eq_ok {K : Kernel V R} {batch casted : RecordBatch N V} {schema : List (Field N)}
    {h : batch.fields.length = schema.length} : castToSchema K batch schema h = .ok casted ↔
      castError K (typesOf batch.fields) schema = none ∧ nullColumn K schema (castBatch K batch schema h).rows = none ∧
        casted = castBatch K batch schema h := by
  rw [castToSchema]
  cases castError K (typesOf batch.fields) schema with
  | some t => simp
  | none =>
      cases nullColumn K schema (castBatch K batch schema h).rows with
      | some column => simp
      | none => simp [eq_comm]

/-- `derive_row_uuids`. -/
def deriveRowUuids (K : Kernel V R) (m : TableMeta N) (batch : RecordBatch N V) : Except (Status N V R) (List R) :=
  if m.primaryKeys = [] then .error .noPrimaryKeys
  else
    match m.primaryKeys.find? (fun pk => (declaredType batch.fields pk).isNone) with
    | some pk => .error (.primaryKeyMissing pk)
    | none    => .ok (rowUuidsOf K m batch)

omit [DecidableEq V] [DecidableEq R] in
theorem deriveRowUuids_eq_ok {K : Kernel V R} {m : TableMeta N} {batch : RecordBatch N V} {us : List R} :
    deriveRowUuids K m batch = .ok us ↔ m.primaryKeys ≠ [] ∧
      (∀ pk ∈ m.primaryKeys, (declaredType batch.fields pk).isSome) ∧ us = rowUuidsOf K m batch := by
  rw [deriveRowUuids]
  by_cases hkeys : m.primaryKeys = []
  · simp [hkeys]
  · rw [if_neg hkeys]
    cases hfind : m.primaryKeys.find? (fun pk => (declaredType batch.fields pk).isNone) with
    | some pk =>
        have hpk := List.mem_of_find?_eq_some hfind
        have hnone : declaredType batch.fields pk = none := by simpa using List.find?_some hfind
        simp only [reduceCtorEq, false_iff]
        rintro ⟨-, hall, -⟩
        have hsome := hall pk hpk
        rw [hnone] at hsome
        cases hsome
    | none =>
        have hall : ∀ pk ∈ m.primaryKeys, (declaredType batch.fields pk).isSome := by
          intro pk hpk
          have hpk' := List.find?_eq_none.mp hfind pk hpk
          rw [Option.isSome_iff_ne_none]
          intro hnone
          rw [hnone] at hpk'
          exact hpk' rfl
        exact ⟨fun h => ⟨hkeys, hall, (Except.ok.inj h).symm⟩, fun h => by rw [h.2.2]⟩

omit [DecidableEq V] in
/-- In a schema that names no column twice, the cell of a column is the value at its position. -/
theorem cell_of_mem_zip {schema : List (Field N)} {row : List V} (hnames : (schema.map Field.name).Nodup)
    (hwidth : row.length = schema.length) {c : Field N × V} (hc : c ∈ schema.zip row) :
    cell schema row c.1.name = some (c.1.dataType, c.2) := by
  have hnodup : ((schema.zip row).map (fun c => c.1.name)).Nodup := by
    have hfst : (schema.zip row).map (fun c => c.1.name) = schema.map Field.name := by
      have hcomp : (schema.zip row).map (fun c => c.1.name) = ((schema.zip row).map Prod.fst).map Field.name :=
        List.map_map.symm
      rw [hcomp, List.map_fst_zip (Nat.le_of_eq hwidth.symm)]
    rwa [hfst]
  have hget : Keyed.get (fun c : Field N × V => c.1.name) (schema.zip row) c.1.name = some c :=
    (Keyed.get_eq_some hnodup).mpr ⟨hc, rfl⟩
  rw [Keyed.get] at hget
  rw [cell, hget, Option.map_some]

/-! ## Reads and writes -/

/-- A row as a read returns it: a value for every column of the schema. -/
def readRow (K : Kernel V R) (m : TableMeta N) (row : List V) : List V :=
  m.arrowSchema.zipIdx.map (fun f => (row[f.2]?).getD K.null)

/-- The rows a `LatestSeq` read returns. -/
def liveRows (K : Kernel V R) (m : TableMeta N) (H : History R (List V)) : List (List V) :=
  (rowUuids H.entries).filterMap (fun u => (liveRow H u).map (readRow K m))

omit [DecidableEq N] [DecidableEq V] in
theorem width_liveRows {K : Kernel V R} {m : TableMeta N} {H : History R (List V)} {row : List V}
    (h : row ∈ liveRows K m H) : row.length = m.arrowSchema.length := by
  obtain ⟨u, -, hu⟩ := List.mem_filterMap.mp h
  obtain ⟨stored, -, rfl⟩ := Option.map_eq_some_iff.mp hu
  rw [readRow, List.length_map, List.length_zipIdx]

/-- `check_pk_collisions`: the rows the probe finds. -/
def collisions (H : History R (List V)) (targets : List R) : List (List V) := targets.dedup.filterMap (liveRow H)

/-- `send_change`: the table after the call, and its error. -/
def sendChange (K : Kernel V R) (m : TableMeta N) (clock : CallClock) (H : History R (List V)) (change : RowChange N V) :
    Except (Status N V R) Unit × History R (List V) :=
  match writeData K m clock H change with
  | .ok H'   => (.ok (), H')
  | .error e => (.error (.write e), H)

/-- `check_collisions_and_send`: probe, then send. -/
def checkCollisionsAndSend (K : Kernel V R) (m : TableMeta N) (clock : CallClock) (H : History R (List V))
    (targets : List R) (change : RowChange N V) : Except (Status N V R) Unit × History R (List V) :=
  if collisions H targets = [] then sendChange K m clock H change
  else (.error (.alreadyExists (((collisions H targets).take maxReported).map m.key)), H)

/-- What a statement is about to do, with the number of affected rows it will report. -/
inductive Prepared (N V R : Type) where
  /-- Nothing to write. -/
  | nothing
  /-- Send the change. -/
  | send (change : RowChange N V) (affected : Nat)
  /-- Take the lock, probe for the identities and send the change. -/
  | checkAndSend (targets : List R) (change : RowChange N V) (affected : Nat)

/-- The rest of a statement when nobody else writes: its result and the table it leaves. -/
def Prepared.finish (K : Kernel V R) (m : TableMeta N) (clock : CallClock) (H : History R (List V)) :
    Prepared N V R → Except (Status N V R) Nat × History R (List V)
  | .nothing                              => (.ok 0, H)
  | .send change affected                 =>
      ((sendChange K m clock H change).1.map (fun _ => affected), (sendChange K m clock H change).2)
  | .checkAndSend targets change affected =>
      ((checkCollisionsAndSend K m clock H targets change).1.map (fun _ => affected),
        (checkCollisionsAndSend K m clock H targets change).2)

/-- A statement when nobody else writes. -/
def execute (K : Kernel V R) (m : TableMeta N) (clock : CallClock) (H : History R (List V)) :
    Except (Status N V R) (Prepared N V R) → Except (Status N V R) Nat × History R (List V)
  | .ok prepared => prepared.finish K m clock H
  | .error e     => (.error e, H)

/-- The result of a send: the error leaves the table alone. -/
theorem sendChange_cases (K : Kernel V R) (m : TableMeta N) (clock : CallClock) (H : History R (List V))
    (change : RowChange N V) :
    (∃ H', writeData K m clock H change = .ok H' ∧ sendChange K m clock H change = (.ok (), H')) ∨
      ∃ e, writeData K m clock H change = .error e ∧ sendChange K m clock H change = (.error (.write e), H) := by
  rw [sendChange]
  cases writeData K m clock H change with
  | ok H' => exact Or.inl ⟨H', rfl, rfl⟩
  | error e => exact Or.inr ⟨e, rfl, rfl⟩

/-- What a change does when nobody else writes: nothing under an error, else it is written. -/
theorem finish_send_cases (K : Kernel V R) (m : TableMeta N) (clock : CallClock) (H : History R (List V))
    (change : RowChange N V) (affected : Nat) :
    (∃ H', writeData K m clock H change = .ok H' ∧
      (Prepared.send change affected : Prepared N V R).finish K m clock H = (.ok affected, H')) ∨
      ∃ e, (∀ H', writeData K m clock H change ≠ .ok H') ∧
        (Prepared.send change affected : Prepared N V R).finish K m clock H = (.error e, H) := by
  rcases sendChange_cases K m clock H change with ⟨H', hwrite, hsend⟩ | ⟨e, hwrite, hsend⟩
  · exact Or.inl ⟨H', hwrite, by simp [Prepared.finish, hsend, Except.map]⟩
  · exact Or.inr ⟨.write e, by simp [hwrite], by simp [Prepared.finish, hsend, Except.map]⟩

omit [DecidableEq V] in
/-- The probe finds nothing if no identity it asks for is live. -/
theorem collisions_eq_nil {H : History R (List V)} {targets : List R} :
    collisions H targets = [] ↔ ∀ u ∈ targets, liveRow H u = none := by
  simp [collisions, List.filterMap_eq_nil_iff]

/-- A checked change: written if the probe finds nothing and the call succeeds. -/
theorem finish_checkAndSend_cases (K : Kernel V R) (m : TableMeta N) (clock : CallClock) (H : History R (List V))
    (targets : List R) (change : RowChange N V) (affected : Nat) :
    (∃ H', (∀ u ∈ targets, liveRow H u = none) ∧ writeData K m clock H change = .ok H' ∧
      (Prepared.checkAndSend targets change affected).finish K m clock H = (.ok affected, H')) ∨
      ∃ e, ((∀ u ∈ targets, liveRow H u = none) → ∀ H', writeData K m clock H change ≠ .ok H') ∧
        (Prepared.checkAndSend targets change affected).finish K m clock H = (.error e, H) := by
  by_cases hprobe : collisions H targets = []
  · have habsent := collisions_eq_nil.mp hprobe
    rcases sendChange_cases K m clock H change with ⟨H', hwrite, hsend⟩ | ⟨e, hwrite, hsend⟩
    · exact Or.inl ⟨H', habsent, hwrite, by
        simp [Prepared.finish, checkCollisionsAndSend, hprobe, hsend, Except.map]⟩
    · exact Or.inr ⟨.write e, by simp [hwrite], by
        simp [Prepared.finish, checkCollisionsAndSend, hprobe, hsend, Except.map]⟩
  · refine Or.inr ⟨.alreadyExists (((collisions H targets).take maxReported).map m.key),
      fun habsent => absurd (collisions_eq_nil.mpr habsent) hprobe, ?_⟩
    simp only [Prepared.finish, checkCollisionsAndSend, if_neg hprobe]
    rfl

/-! ## Table states -/

/-- A committed state of the table: every live row has a value for every column and is stored under the identity of its
    own key. -/
structure Table (K : Kernel V R) (m : TableMeta N) where
  history : History R (List V)
  width : ∀ u row, liveRow history u = some row → row.length = m.arrowSchema.length
  keyed : ∀ u row, liveRow history u = some row → m.identity K row = u

/-- A table with no row. -/
def Table.empty (K : Kernel V R) (m : TableMeta N) : Table K m where
  history := .empty
  width := by
    intro u row h
    cases h
  keyed := by
    intro u row h
    cases h

/-- A call that stores full rows under the identities of their keys leaves a table state. -/
theorem stored_writeData {K : Kernel V R} {m : TableMeta N} {clock : CallClock} {H H' : History R (List V)}
    {change : RowChange N V} (hwrite : writeData K m clock H change = .ok H')
    (hrows : ∀ p ∈ change.written K m, p.2.length = m.arrowSchema.length ∧ m.identity K p.2 = p.1)
    (hold : ∀ u row, liveRow H u = some row → row.length = m.arrowSchema.length ∧ m.identity K row = u) (u : R)
    (row : List V) (hrow : liveRow H' u = some row) : row.length = m.arrowSchema.length ∧ m.identity K row = u := by
  by_cases hu : u ∈ (change.written K m).map Prod.fst
  · obtain ⟨p, hp, rfl⟩ := List.mem_map.mp hu
    rw [liveRow_writeData_of_written hwrite hp] at hrow
    exact Option.some.inj hrow ▸ hrows p hp
  · rw [liveRow_writeData_of_not_written hwrite hu] at hrow
    split at hrow
    · cases hrow
    · exact hold u row hrow

/-- The table after such a call. -/
def Table.write {K : Kernel V R} {m : TableMeta N} (T : Table K m) (clock : CallClock) (change : RowChange N V)
    (hrows : ∀ p ∈ change.written K m, p.2.length = m.arrowSchema.length ∧ m.identity K p.2 = p.1) : Table K m :=
  match h : writeData K m clock T.history change with
  | .error _ => T
  | .ok H'   =>
      have hstored := stored_writeData h hrows (fun u row hrow => ⟨T.width u row hrow, T.keyed u row hrow⟩)
      ⟨H', fun u row hrow => (hstored u row hrow).1, fun u row hrow => (hstored u row hrow).2⟩

/-! ## INSERT -/

/-- The `ON` clause of an `INSERT`. -/
inductive OnInsert where
  | none
  | onConflictDoUpdate
  | other
  deriving DecidableEq, Repr

/-- An `INSERT` with the batches its source query yields. -/
structure Insert (N V : Type) where
  columns : List N
  source : Collected N V
  on : OnInsert

/-- The error of a source that has not one column for each column of the table. -/
def arityError (columns : List N) (source target : Nat) : Status N V R :=
  if columns ≠ [] ∧ source < target then .partialColumnInsert source target else .sourceArity source target

/-- `execute_insert` up to the send. -/
def prepareInsert (K : Kernel V R) (m : TableMeta N) (insert : Insert N V) :
    Except (Status N V R) (Prepared N V R) :=
  match combineBatches insert.source insert.columns with
  | .error e   => .error e
  | .ok renamed =>
      if renamed.rows = [] then .ok .nothing
      else if insert.on = .other then .error .unimplementedOn
      else if h : renamed.fields.length = m.arrowSchema.length then
        match castToSchema K renamed m.arrowSchema h with
        | .error e   => .error e
        | .ok casted =>
            if insert.on = .onConflictDoUpdate then .ok (.send ⟨[casted], []⟩ casted.rows.length)
            else
              match deriveRowUuids K m casted with
              | .error e      => .error e
              | .ok rowUuids => .ok (.checkAndSend rowUuids ⟨[casted], []⟩ casted.rows.length)
      else .error (arityError insert.columns renamed.fields.length m.arrowSchema.length)

/-- `execute_insert`. -/
def executeInsert (K : Kernel V R) (m : TableMeta N) (clock : CallClock) (H : History R (List V)) (insert : Insert N V) :
    Except (Status N V R) Nat × History R (List V) :=
  execute K m clock H (prepareInsert K m insert)

/-! ## UPDATE -/

/-- A `SET` expression: its type and its value on a row. -/
structure SetExpr (V : Type) where
  dataType : DataType
  eval : List V → V

/-- An `UPDATE`: the assignments in the order of the statement and the `WHERE` clause. -/
structure Update (N V : Type) where
  assignments : List (N × SetExpr V)
  selection : List V → Bool

/-- The `set` map: of two assignments of one column the later is kept. -/
def Update.set (update : Update N V) (column : N) : Option (SetExpr V) :=
  (update.assignments.reverse.find? (fun a => a.1 = column)).map Prod.snd

/-- The rows a `WHERE` clause matches. -/
def matchedRows (K : Kernel V R) (m : TableMeta N) (H : History R (List V)) (selection : List V → Bool) : List (List V) :=
  (liveRows K m H).filter selection

omit [DecidableEq N] [DecidableEq V] in
theorem width_matchedRows {K : Kernel V R} {m : TableMeta N} {H : History R (List V)} {selection : List V → Bool}
    {row : List V} (h : row ∈ matchedRows K m H selection) : row.length = m.arrowSchema.length :=
  width_liveRows (List.mem_filter.mp h).1

/-- The type of a column of the `UPDATE` select: a `SET` column has the type of its expression. -/
def Update.selectField (update : Update N V) (field : Field N) : Field N :=
  (update.set field.name).elim field (fun e => { field with dataType := e.dataType })

/-- A row of the `UPDATE` select: the `SET` columns replaced, the others as they are. -/
def Update.selectRow (update : Update N V) (m : TableMeta N) (row : List V) : List V :=
  (m.arrowSchema.zip row).map (fun c => (update.set c.1.name).elim c.2 (fun e => e.eval row))

/-- The `UPDATE` select, in the order of the schema (`concat_user_batches`). -/
def Update.selectBatch (update : Update N V) (K : Kernel V R) (m : TableMeta N) (H : History R (List V)) :
    RecordBatch N V where
  fields := m.arrowSchema.map update.selectField
  rows := (matchedRows K m H update.selection).map (update.selectRow m)
  width := by
    intro row hrow
    obtain ⟨r, hr, rfl⟩ := List.mem_map.mp hrow
    rw [selectRow, List.length_map, List.length_zip, width_matchedRows hr, Nat.min_self, List.length_map]

omit [DecidableEq V] in
theorem Update.length_selectBatch (update : Update N V) (K : Kernel V R) (m : TableMeta N) (H : History R (List V)) :
    (update.selectBatch K m H).fields.length = m.arrowSchema.length := List.length_map _

/-- The `SET` touches the primary key. -/
def Update.setsKey (update : Update N V) (m : TableMeta N) : Bool := m.primaryKeys.any (fun pk => (update.set pk).isSome)

/-- The fields of the primary key columns, in declared order. -/
def pkFields (m : TableMeta N) : List (Field N) :=
  m.primaryKeys.filterMap (fun pk => m.arrowSchema.find? (fun f => f.name = pk))

omit [DecidableEq V] in
theorem length_key {m : TableMeta N} {row : List V} (hwidth : row.length = m.arrowSchema.length) :
    (m.key row).length = (pkFields m).length := by
  have htypes : (keyCells m.arrowSchema m.primaryKeys row).map Prod.fst = (pkFields m).map Field.dataType := by
    rw [map_fst_keyCells hwidth, pkFields, List.map_filterMap]
    rfl
  have hlen := congrArg List.length htypes
  rw [List.length_map, List.length_map] at hlen
  rw [TableMeta.key, List.length_map, hlen]

/-- The keys of the matched rows as they were, as a batch of the primary key columns
    (`build_old_pk_deletes_batch`, and the select of a `DELETE`). -/
def matchedKeys (K : Kernel V R) (m : TableMeta N) (H : History R (List V)) (selection : List V → Bool) :
    RecordBatch N V where
  fields := pkFields m
  rows := (matchedRows K m H selection).map m.key
  width := by
    intro row hrow
    obtain ⟨r, hr, rfl⟩ := List.mem_map.mp hrow
    exact length_key (width_matchedRows hr)

/-- A primary key column that is not in the schema. -/
def undeclaredKey (m : TableMeta N) : Bool := m.primaryKeys.any (fun pk => (declaredType m.arrowSchema pk).isNone)

/-- `execute_update` up to the send. -/
def prepareUpdate (K : Kernel V R) (m : TableMeta N) (H : History R (List V)) (update : Update N V) :
    Except (Status N V R) (Prepared N V R) :=
  match update.assignments.find? (fun a => (declaredType m.arrowSchema a.1).isNone) with
  | some a => .error (.unknownColumn a.1)
  | none   =>
      if update.setsKey m ∧ undeclaredKey m then .error .plan
      else if matchedRows K m H update.selection = [] then .ok .nothing
      else
        match castToSchema K (update.selectBatch K m H) m.arrowSchema (update.length_selectBatch K m H) with
        | .error e   => .error e
        | .ok casted =>
            if update.setsKey m then
              match nullColumn K (pkFields m) (matchedKeys K m H update.selection).rows with
              | some column => .error (.rebuild column)
              | none        =>
                  match deriveRowUuids K m casted, deriveRowUuids K m (matchedKeys K m H update.selection) with
                  | .ok newUuids, .ok oldUuids =>
                      .ok (.checkAndSend (newUuids.filter (fun u => u ∉ oldUuids))
                        ⟨[casted], [matchedKeys K m H update.selection]⟩ casted.rows.length)
                  | .error e, _                => .error e
                  | _, .error e                => .error e
            else .ok (.send ⟨[casted], []⟩ casted.rows.length)

/-- `execute_update`. -/
def executeUpdate (K : Kernel V R) (m : TableMeta N) (clock : CallClock) (H : History R (List V)) (update : Update N V) :
    Except (Status N V R) Nat × History R (List V) :=
  execute K m clock H (prepareUpdate K m H update)

/-! ## DELETE -/

/-- `execute_delete` up to the send. -/
def prepareDelete (K : Kernel V R) (m : TableMeta N) (H : History R (List V)) (selection : List V → Bool) :
    Except (Status N V R) (Prepared N V R) :=
  if m.primaryKeys = [] then .error .noPrimaryKeys
  else if undeclaredKey m then .error .plan
  else if matchedRows K m H selection = [] then .ok .nothing
  else .ok (.send ⟨[], [matchedKeys K m H selection]⟩ (matchedRows K m H selection).length)

/-! ## Integer columns -/

/-- The values of an integer column of the type. -/
def fitsInteger : DataType → Int → Bool
  | .int32, n => decide (-2147483648 ≤ n ∧ n ≤ 2147483647)
  | .int64, n => decide (i64Min ≤ n ∧ n ≤ i64Max)
  | _, _      => false

/-- The kernel on integer columns: a cast turns a value that does not fit into NULL, Postgres refuses it, and a value prints
    as its digits. The hash keeps the text. -/
def integerKernel : Kernel (Option Int) (List Char) where
  null := none
  canCast _ _ := true
  cast _ target v := v.filter (fitsInteger target)
  display _ v := v.elim [] (fun n => (if n < 0 then ['-'] else []) ++ Nat.toDigits 10 n.natAbs)
  store _ target v := if v.any (fitsInteger target) then some v else none
  xxh3 := id

/-- The clock of a call at reading `micros`, with the sequence 0, 1, 2, …. -/
def clockAt (micros : Int) : CallClock := ⟨micros, Nat.cast, 0, increasing_natCast⟩

/-- A table with an integer key `a` and an integer column `b` of a narrower type. -/
def pairTable : TableMeta Char where
  tableUuid := ['t']
  arrowSchema := [⟨'a', .int64, false⟩, ⟨'b', .int32, true⟩]
  primaryKeys := ['a']

end Penca.Sql
