import Mathlib.Data.List.Nodup
import Penca.Core.Types

/-!
# `Core.Values` — rows, cells and row identity

A row is a list of values under a list of fields. The identity of a row, its `row_uuid`, is a hash of the *printed* values
of its primary key columns, so it depends on the values and on the column types they are printed under.

What Arrow, Postgres and the hash compute is a parameter (`Kernel`): nothing here depends on how a value looks inside.
-/

namespace Penca

variable {N V R : Type}

/-! ## The kernels the code calls -/

/-- What the code leaves to Arrow, to Postgres and to the hash function. -/
structure Kernel (V R : Type) where
  null : V
  /-- `can_cast_types`: Arrow's `cast` knows the pair of types. -/
  canCast : DataType → DataType → Bool
  /-- Arrow's `cast` of one value, with its default options. -/
  cast : DataType → DataType → V → V
  /-- `array_value_to_string` of a value in a column of the type. -/
  display : DataType → V → List Char
  /-- The SQL literal of a value of the first type, inserted into a column declared with the second type and read back
      from it; `none` if Postgres refuses the literal. -/
  store : DataType → DataType → V → Option V
  /-- `xxh3_128`. -/
  xxh3 : List Char → R

/-- `deterministic_uuid_from`: the parts joined by NUL characters, hashed. -/
def deterministicUuidFrom (xxh3 : List Char → R) (parts : List (List Char)) : R :=
  xxh3 (List.intercalate ['\x00'] parts)

/-- `row_uuid_for_pk`. -/
def rowUuidForPk (xxh3 : List Char → R) (tableUuid : List Char) (pkValues : List (List Char)) : R :=
  deterministicUuidFrom xxh3 (tableUuid :: pkValues)

/-- `row_uuid_for_row`: the identity of a row whose primary key columns hold the cells. -/
def Kernel.rowUuidForRow (K : Kernel V R) (tableUuid : List Char) (cells : List (DataType × V)) : R :=
  rowUuidForPk K.xxh3 tableUuid (cells.map (fun c => K.display c.1 c.2))

/-! ## Rows under fields -/

/-- A field of an Arrow schema. -/
structure Field (N : Type) where
  name : N
  dataType : DataType
  nullable : Bool
  deriving DecidableEq, Repr

/-- A record batch: every row has a value for every field. -/
structure RecordBatch (N V : Type) where
  fields : List (Field N)
  rows : List (List V)
  width : ∀ row ∈ rows, row.length = fields.length

/-- The version of a table's metadata row that the data paths use. -/
structure TableMeta (N : Type) where
  tableUuid : List Char
  arrowSchema : List (Field N)
  primaryKeys : List N

variable [DecidableEq N]

/-- The value a row has in a column, with the type of the column (`column_by_name`: the first of the name). -/
def cell (fields : List (Field N)) (row : List V) (name : N) : Option (DataType × V) :=
  ((fields.zip row).find? (fun c => c.1.name = name)).map (fun c => (c.1.dataType, c.2))

/-- The cells of the primary key columns, in declared order. -/
def keyCells (fields : List (Field N)) (primaryKeys : List N) (row : List V) : List (DataType × V) :=
  primaryKeys.filterMap (cell fields row)

/-- The declared type of a column (`field_with_name`). -/
def declaredType (fields : List (Field N)) (name : N) : Option DataType :=
  (fields.find? (fun f => f.name = name)).map Field.dataType

/-- The primary key of a row of the table. -/
def TableMeta.key (m : TableMeta N) (row : List V) : List V :=
  (keyCells m.arrowSchema m.primaryKeys row).map Prod.snd

/-- The identity of a row of the table as it is read. -/
def TableMeta.identity (m : TableMeta N) (K : Kernel V R) (row : List V) : R :=
  K.rowUuidForRow m.tableUuid (keyCells m.arrowSchema m.primaryKeys row)

theorem cell_cons_self (field : Field N) (fields : List (Field N)) (v : V) (row : List V) :
    cell (field :: fields) (v :: row) field.name = some (field.dataType, v) := by
  simp [cell]

theorem cell_cons_of_ne {field : Field N} {name : N} (h : field.name ≠ name) (fields : List (Field N)) (v : V)
    (row : List V) : cell (field :: fields) (v :: row) name = cell fields row name := by
  simp [cell, h]

theorem map_fst_cell {fields : List (Field N)} {row : List V} (hwidth : row.length = fields.length) (name : N) :
    (cell fields row name).map Prod.fst = declaredType fields name := by
  induction fields generalizing row with
  | nil => rfl
  | cons field fields ih =>
      obtain ⟨v, row, rfl⟩ := List.exists_cons_of_length_eq_add_one hwidth
      have hrest : row.length = fields.length := by simpa using hwidth
      have ih := ih hrest
      by_cases hname : field.name = name
      · subst hname
        simp [cell_cons_self, declaredType]
      · rw [cell_cons_of_ne hname, ih]
        simp [declaredType, hname]

/-- The types of the key cells are the declared types of the key columns. -/
theorem map_fst_keyCells {fields : List (Field N)} {row : List V} (hwidth : row.length = fields.length)
    (primaryKeys : List N) :
    (keyCells fields primaryKeys row).map Prod.fst = primaryKeys.filterMap (declaredType fields) := by
  rw [keyCells, List.map_filterMap]
  exact List.filterMap_congr (fun pk _ => map_fst_cell hwidth pk)

/-- **Equal keys, equal identities**: the key of a row decides its identity. -/
theorem TableMeta.identity_eq_of_key_eq {m : TableMeta N} (K : Kernel V R) {row row' : List V}
    (hwidth : row.length = m.arrowSchema.length) (hwidth' : row'.length = m.arrowSchema.length)
    (hkey : m.key row = m.key row') : m.identity K row = m.identity K row' := by
  have htypes := (map_fst_keyCells hwidth m.primaryKeys).trans (map_fst_keyCells hwidth' m.primaryKeys).symm
  have hcells : keyCells m.arrowSchema m.primaryKeys row = keyCells m.arrowSchema m.primaryKeys row' := by
    rw [← List.zip_unzip (keyCells m.arrowSchema m.primaryKeys row),
      ← List.zip_unzip (keyCells m.arrowSchema m.primaryKeys row'), List.unzip_eq_map, List.unzip_eq_map, htypes]
    exact congrArg _ hkey
  rw [identity, identity, hcells]

/-- The kernel on columns of nanosecond timestamps: Postgres rounds a value to whole microseconds, and a value prints as the
    digits of its nanoseconds. The hash keeps the text. -/
def instantKernel : Kernel (Option Int) (List Char) where
  null := none
  canCast _ _ := true
  cast _ _ v := v
  display _ v := v.elim [] (fun n => (if n < 0 then ['-'] else []) ++ Nat.toDigits 10 n.natAbs)
  store _ _ v := some (v.map (fun n => (n + 500) / 1000 * 1000))
  xxh3 := id

end Penca
