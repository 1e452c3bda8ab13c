import Mathlib.Data.List.Perm.Basic
import Penca.Sql.Dml

/-!
# `Sql.Insert` — what a strict INSERT stores

A strict `INSERT` renames the columns of its source by the column list and then casts the batch to the table's schema *by
position*: the names are lost, so a list in another order than the table's stores values under other columns, and a value
the cast or Postgres changes is stored changed. Nothing of this is reported.

The statement does store what it says exactly if it is rejected, or if every column gets, from the value at its own
position, the value the list names for it, and the rows that have the keys named are filed under them
(`stores_what_it_says_iff`). For a list in the table's order this comes down to values that the cast and the column keep.
-/

namespace Penca.Sql

variable {N V R : Type} [DecidableEq N] [DecidableEq V] [DecidableEq R]

/-! ## The rows a statement writes -/

/-- The source rows cast to the schema by position. -/
def castRows (K : Kernel V R) (m : TableMeta N) (source : Collected N V) : List (List V) :=
  source.rows.map (castRow K (typesOf source.fields) m.arrowSchema)

/-- The batch a strict `INSERT` sends. -/
def insertedBatch (K : Kernel V R) (m : TableMeta N) (source : Collected N V)
    (h : source.fields.length = m.arrowSchema.length) : RecordBatch N V :=
  castBatch K ⟨source.fields, source.rows, source.width_rows⟩ m.arrowSchema h

/-- The rows the statement writes, under their identities. -/
def writtenPairs (K : Kernel V R) (m : TableMeta N) (source : Collected N V) : List (R × List V) :=
  (castRows K m source).map (fun row => (m.identity K row, storedRow K m.arrowSchema m.arrowSchema row))

/-- A strict `INSERT` with the column list and source. -/
def strictInsert (columns : List N) (source : Collected N V) : Insert N V := ⟨columns, source, .none⟩

/-- A strict `INSERT` that passes every check. -/
structure Accepted (K : Kernel V R) (m : TableMeta N) (clock : CallClock) (H : History R (List V)) (columns : List N)
    (source : Collected N V) : Prop where
  columnList : columns = [] ∨ columns.length = source.fields.length
  arity : source.fields.length = m.arrowSchema.length
  castable : castError K (typesOf source.fields) m.arrowSchema = none
  nullable : nullColumn K m.arrowSchema (castRows K m source) = none
  hasKey : m.primaryKeys ≠ []
  upserts : UpsertAccepted K m (insertedBatch K m source arity)
  distinct : ((castRows K m source).map (m.identity K)).Nodup
  absent : ∀ row ∈ castRows K m source, liveRow H (m.identity K row) = none
  clockAccepted : H.Accepts clock.commitMicros

theorem Accepted.nodup_names {K : Kernel V R} {m : TableMeta N} {clock : CallClock} {H : History R (List V)}
    {columns : List N} {source : Collected N V} (hacc : Accepted K m clock H columns source) :
    (m.arrowSchema.map Field.name).Nodup := by
  have hinsert := hacc.upserts.accepted
  simp only [insertAccepted, Bool.and_eq_true, decide_eq_true_eq] at hinsert
  exact hinsert.1.1

section Prepare

variable {K : Kernel V R} {m : TableMeta N} {columns : List N} {source : Collected N V}

omit [DecidableEq N] in
theorem typesOf_renameFields {fields : List (Field N)} (h : columns.length = fields.length) :
    typesOf (renameFields fields columns) = typesOf fields := by
  induction fields generalizing columns with
  | nil => simp [renameFields]
  | cons field fields ih =>
      obtain ⟨column, columns, rfl⟩ := List.exists_cons_of_length_eq_add_one h
      have ih : typesOf (renameFields fields columns) = typesOf fields := ih (by simpa using h)
      simpa [typesOf, renameFields] using ih

omit [DecidableEq N] [DecidableEq V] [DecidableEq R] in
/-- What `combine_batches` makes of a source with rows: the rows stay, under the types of the source. -/
theorem combineBatches_eq_ok (hrows : source.rows ≠ []) {batch : RecordBatch N V}
    (h : (combineBatches source columns : Except (Status N V R) _) = .ok batch) :
    (columns = [] ∨ columns.length = source.fields.length) ∧ batch.rows = source.rows ∧
      batch.fields.length = source.fields.length ∧ typesOf batch.fields = typesOf source.fields := by
  have hbatches : source.batches ≠ [] := by
    intro hnil
    exact hrows (by rw [Collected.rows, hnil, List.flatten_nil])
  rw [combineBatches, if_neg hbatches] at h
  split at h
  · rename_i hcolumns
    cases h
    exact ⟨Or.inl hcolumns, rfl, rfl, rfl⟩
  · split at h
    · rename_i hlen
      cases h
      refine ⟨Or.inr hlen, rfl, ?_, typesOf_renameFields hlen⟩
      show (renameFields source.fields columns).length = source.fields.length
      rw [renameFields, List.length_zipWith, hlen, Nat.min_self]
    · cases h

omit [DecidableEq N] [DecidableEq V] [DecidableEq R] in
theorem exists_combineBatches (hrows : source.rows ≠ [])
    (hcolumns : columns = [] ∨ columns.length = source.fields.length) :
    ∃ batch, (combineBatches source columns : Except (Status N V R) _) = .ok batch := by
  have hbatches : source.batches ≠ [] := by
    intro hnil
    exact hrows (by rw [Collected.rows, hnil, List.flatten_nil])
  rw [combineBatches, if_neg hbatches]
  by_cases hnil : columns = []
  · exact ⟨_, if_pos hnil⟩
  · rw [if_neg hnil, dif_pos (hcolumns.resolve_left hnil)]
    exact ⟨_, rfl⟩

omit [DecidableEq N] [DecidableEq V] [DecidableEq R] in
/-- The batch sent depends on the rows and the types of the source only. -/
theorem castBatch_eq_insertedBatch {batch : RecordBatch N V} (hrows : batch.rows = source.rows)
    (htypes : typesOf batch.fields = typesOf source.fields) (h : batch.fields.length = m.arrowSchema.length)
    (h' : source.fields.length = m.arrowSchema.length) :
    castBatch K batch m.arrowSchema h = insertedBatch K m source h' := by
  rw [insertedBatch, castBatch, castBatch, RecordBatch.mk.injEq]
  exact ⟨rfl, by rw [hrows, htypes]⟩

omit [DecidableEq R] in
/-- A strict `INSERT` of at least one row: what it prepares. -/
theorem prepareInsert_eq_ok (hrows : source.rows ≠ []) {prepared : Prepared N V R} :
    prepareInsert K m (strictInsert columns source) = .ok prepared ↔
      (columns = [] ∨ columns.length = source.fields.length) ∧ ∃ h : source.fields.length = m.arrowSchema.length,
        castError K (typesOf source.fields) m.arrowSchema = none ∧
        nullColumn K m.arrowSchema (castRows K m source) = none ∧ m.primaryKeys ≠ [] ∧
        (∀ pk ∈ m.primaryKeys, (declaredType m.arrowSchema pk).isSome) ∧
        prepared = .checkAndSend (rowUuidsOf K m (insertedBatch K m source h)) ⟨[insertedBatch K m source h], []⟩
          source.rows.length := by
  constructor
  · intro h
    simp only [prepareInsert, strictInsert] at h
    split at h
    · cases h
    · rename_i renamed hrenamed
      obtain ⟨hcolumns, hrowsEq, hlen, htypes⟩ := combineBatches_eq_ok hrows hrenamed
      rw [if_neg (hrowsEq ▸ hrows)] at h
      simp only [reduceCtorEq, if_false] at h
      split at h
      · rename_i harity
        split at h
        · cases h
        · rename_i casted hcast
          obtain ⟨herr, hnull, rfl⟩ := castToSchema_eq_ok.mp hcast
          have hbatch := castBatch_eq_insertedBatch (K := K) hrowsEq htypes harity (hlen ▸ harity)
          split at h
          · cases h
          · rename_i us hus
            obtain ⟨hkeys, hdeclared, rfl⟩ := deriveRowUuids_eq_ok.mp hus
            cases h
            refine ⟨hcolumns, hlen ▸ harity, htypes ▸ herr, ?_, hkeys, hdeclared, ?_⟩
            · rw [hbatch] at hnull
              exact hnull
            · rw [hbatch]
              exact congrArg _ (List.length_map _)
      · cases h
  · rintro ⟨hcolumns, harity, herr, hnull, hkeys, hdeclared, rfl⟩
    obtain ⟨renamed, hrenamed⟩ := exists_combineBatches (R := R) hrows hcolumns
    obtain ⟨-, hrowsEq, hlen, htypes⟩ := combineBatches_eq_ok hrows hrenamed
    have hbatch := castBatch_eq_insertedBatch (K := K) hrowsEq htypes (hlen.trans harity) harity
    have hcast : castToSchema K renamed m.arrowSchema (hlen.trans harity) = .ok (insertedBatch K m source harity) := by
      refine castToSchema_eq_ok.mpr ⟨htypes.symm ▸ herr, ?_, hbatch.symm⟩
      rw [hbatch]
      exact hnull
    have hderive : deriveRowUuids K m (insertedBatch K m source harity) =
        .ok (rowUuidsOf K m (insertedBatch K m source harity)) := deriveRowUuids_eq_ok.mpr ⟨hkeys, hdeclared, rfl⟩
    have hcount : (insertedBatch K m source harity).rows.length = source.rows.length := List.length_map _
    simp only [prepareInsert, strictInsert, hrenamed, hrowsEq, if_neg hrows, reduceCtorEq, if_false,
      dif_pos (hlen.trans harity), hcast, hderive, hcount]

end Prepare

/-! ## What the statement says -/

/-- The row a source row stands for: the value at list position `i` belongs to the column named there, or to the `i`-th
    column when the list is empty. -/
def namedRow (K : Kernel V R) (m : TableMeta N) (columns : List N) (row : List V) : List V :=
  if columns = [] then row
  else m.arrowSchema.map (fun field => ((columns.zip row).find? (fun c => c.1 = field.name)).elim K.null Prod.snd)

/-- The rows the statement names, under the identities of their keys. -/
def namedPairs (K : Kernel V R) (m : TableMeta N) (columns : List N) (source : Collected N V) : List (R × List V) :=
  source.rows.map (fun row => (m.identity K (namedRow K m columns row), namedRow K m columns row))

/-- **What a strict `INSERT` promises.** If it succeeds with count `k`, there are `k` source rows, the rows they name have
    different keys, none of them live before, and the table is the old one with these rows; if it fails, the table is the
    old one. -/
def StoresWhatItSays (K : Kernel V R) (m : TableMeta N) (clock : CallClock) (H : History R (List V)) (columns : List N)
    (source : Collected N V) : Prop :=
  match executeInsert K m clock H (strictInsert columns source) with
  | (.error _, H') => H' = H
  | (.ok k, H')    => k = source.rows.length ∧
      (source.rows.map (fun row => m.key (namedRow K m columns row))).Nodup ∧
      (∀ row ∈ source.rows, ∀ u live, liveRow H u = some live → m.key live ≠ m.key (namedRow K m columns row)) ∧
      (∀ p ∈ namedPairs K m columns source, liveRow H' p.1 = some p.2) ∧
      ∀ u, u ∉ (namedPairs K m columns source).map Prod.fst → liveRow H' u = liveRow H u

/-- The rows written are the rows named. -/
def WrittenAsNamed (K : Kernel V R) (m : TableMeta N) (columns : List N) (source : Collected N V) : Prop :=
  ∀ p, p ∈ writtenPairs K m source ↔ p ∈ namedPairs K m columns source

/-! ## Values and positions -/

/-- What a column keeps of a value of its type. -/
def keptValue (K : Kernel V R) (dataType : DataType) (v : V) : V :=
  if v = K.null then K.null else (K.store dataType dataType v).getD K.null

/-- The value the column list names for the column at position `i`. -/
def namedValue (K : Kernel V R) (columns : List N) (row : List V) (i : Nat) (field : Field N) : V :=
  if columns = [] then (row[i]?).getD K.null
  else ((columns.zip row).find? (fun c => c.1 = field.name)).elim K.null Prod.snd

/-- What is stored for a source row is what the list names for the row `named`: in every column the value at the column's
    position, cast and kept, is the value named for the column, and the key, cast, has the identity of the key named. -/
structure RowKept (K : Kernel V R) (m : TableMeta N) (types : List DataType) (columns : List N) (row named : List V) :
    Prop where
  value : ∀ i field dataType v, m.arrowSchema[i]? = some field → types[i]? = some dataType → row[i]? = some v →
    keptValue K field.dataType (castValue K dataType field.dataType v) = namedValue K columns named i field
  key : m.identity K (castRow K types m.arrowSchema row) = m.identity K (namedRow K m columns named)

/-- The values are kept, up to the order of the source rows. -/
def ValuesKept (K : Kernel V R) (m : TableMeta N) (columns : List N) (source : Collected N V) : Prop :=
  ∃ rows, rows.Perm source.rows ∧ List.Forall₂ (RowKept K m (typesOf source.fields) columns) source.rows rows

/-- A live row that has a key the statement names is under the identity of that key. -/
def NamedKeysFiled (K : Kernel V R) (m : TableMeta N) (H : History R (List V)) (columns : List N)
    (source : Collected N V) : Prop :=
  ∀ row ∈ source.rows, ∀ u live, liveRow H u = some live → m.key live = m.key (namedRow K m columns row) →
    u = m.identity K (namedRow K m columns row)

/-- Neither the cast nor the column changes a value of the source. -/
def ValuesUnchanged (K : Kernel V R) (m : TableMeta N) (source : Collected N V) : Prop :=
  ∀ row ∈ source.rows, ∀ c ∈ ((typesOf source.fields).zip m.arrowSchema).zip row,
    castValue K c.1.1 c.1.2.dataType c.2 = c.2 ∧ keptValue K c.1.2.dataType c.2 = c.2

instance (K : Kernel V R) (m : TableMeta N) (source : Collected N V) : Decidable (ValuesUnchanged K m source) :=
  inferInstanceAs (Decidable (∀ row ∈ source.rows, ∀ c ∈ ((typesOf source.fields).zip m.arrowSchema).zip row, _ ∧ _))

section Values

variable {K : Kernel V R} {m : TableMeta N} {columns : List N} {types : List DataType} {row named : List V}

omit [DecidableEq R] in
/-- A stored row column by column. -/
theorem getElem?_storedRow {schema : List (Field N)} (hnames : (schema.map Field.name).Nodup)
    (hwidth : row.length = schema.length) {i : Nat} {field : Field N} {v : V} (hfield : schema[i]? = some field)
    (hv : row[i]? = some v) : (storedRow K schema schema row)[i]? = some (keptValue K field.dataType v) := by
  have hmem : (field, v) ∈ schema.zip row :=
    List.mem_of_getElem? (List.getElem?_zip_eq_some.mpr ⟨hfield, hv⟩)
  rw [storedRow, List.getElem?_map, hfield, Option.map_some]
  simp only [storeCell, cell_of_mem_zip hnames hwidth hmem, keptValue]
  split <;> rfl

omit [DecidableEq V] [DecidableEq R] [DecidableEq N] in
theorem getElem?_castRow {schema : List (Field N)} {i : Nat} {field : Field N} {dataType : DataType} {v : V}
    (hfield : schema[i]? = some field) (htype : types[i]? = some dataType) (hv : row[i]? = some v) :
    (castRow K types schema row)[i]? = some (castValue K dataType field.dataType v) := by
  have hpair : (types.zip schema)[i]? = some (dataType, field) := List.getElem?_zip_eq_some.mpr ⟨htype, hfield⟩
  rw [castRow, List.getElem?_zipWith, hv, hpair]

omit [DecidableEq V] [DecidableEq R] in
theorem getElem?_namedRow (hwidth : named.length = m.arrowSchema.length) {i : Nat} {field : Field N}
    (hfield : m.arrowSchema[i]? = some field) :
    (namedRow K m columns named)[i]? = some (namedValue K columns named i field) := by
  unfold namedRow namedValue
  split
  · obtain ⟨hi, -⟩ := List.getElem?_eq_some_iff.mp hfield
    rw [List.getElem?_eq_getElem (hwidth ▸ hi), Option.getD_some]
  · rw [List.getElem?_map, hfield, Option.map_some]

omit [DecidableEq R] in
/-- The pair written for a row is the pair named for another exactly if the values are kept. -/
theorem writtenPair_eq_iff (hnames : (m.arrowSchema.map Field.name).Nodup) (htypes : types.length = m.arrowSchema.length)
    (hrow : row.length = m.arrowSchema.length) (hnamed : named.length = m.arrowSchema.length) :
    (m.identity K (castRow K types m.arrowSchema row),
        storedRow K m.arrowSchema m.arrowSchema (castRow K types m.arrowSchema row)) =
      (m.identity K (namedRow K m columns named), namedRow K m columns named) ↔
      RowKept K m types columns row named := by
  have hcast : (castRow K types m.arrowSchema row).length = m.arrowSchema.length :=
    length_castRow htypes (hrow.trans htypes.symm)
  have hcell : ∀ i (field : Field N) dataType v, m.arrowSchema[i]? = some field → types[i]? = some dataType → row[i]? = some v →
      (storedRow K m.arrowSchema m.arrowSchema (castRow K types m.arrowSchema row))[i]? =
        some (keptValue K field.dataType (castValue K dataType field.dataType v)) :=
    fun i field dataType v hfield htype hv =>
      getElem?_storedRow hnames hcast hfield (getElem?_castRow hfield htype hv)
  rw [Prod.mk.injEq]
  constructor
  · rintro ⟨hkey, hrows⟩
    refine ⟨fun i field dataType v hfield htype hv => ?_, hkey⟩
    have hleft := hcell i field dataType v hfield htype hv
    rw [hrows, getElem?_namedRow hnamed hfield] at hleft
    exact (Option.some.inj hleft).symm
  · rintro ⟨hvalue, hkey⟩
    refine ⟨hkey, List.ext_getElem? (fun i => ?_)⟩
    by_cases hi : i < m.arrowSchema.length
    · have hfield : m.arrowSchema[i]? = some m.arrowSchema[i] := List.getElem?_eq_getElem hi
      have htype : types[i]? = some (types[i]) := List.getElem?_eq_getElem (htypes ▸ hi)
      have hv : row[i]? = some (row[i]) := List.getElem?_eq_getElem (hrow ▸ hi)
      rw [hcell i _ _ _ hfield htype hv, getElem?_namedRow hnamed hfield, hvalue i _ _ _ hfield htype hv]
    · have hstored : (storedRow K m.arrowSchema m.arrowSchema (castRow K types m.arrowSchema row)).length ≤ i := by
        rw [storedRow, List.length_map]
        exact Nat.le_of_not_lt hi
      have hnone : (namedRow K m columns named).length ≤ i := by
        unfold namedRow
        split
        · rw [hnamed]
          exact Nat.le_of_not_lt hi
        · rw [List.length_map]
          exact Nat.le_of_not_lt hi
      rw [List.getElem?_eq_none hstored, List.getElem?_eq_none hnone]

omit [DecidableEq V] [DecidableEq R] in
/-- A list in the table's order names the row itself. -/
theorem namedRow_inOrder (hnames : (m.arrowSchema.map Field.name).Nodup)
    (hcolumns : columns = [] ∨ columns = m.arrowSchema.map Field.name) (hrow : row.length = m.arrowSchema.length) :
    namedRow K m columns row = row := by
  unfold namedRow
  split
  · rfl
  · rename_i hne
    have hlist := hcolumns.resolve_left hne
    refine List.ext_getElem (by rw [List.length_map, hrow]) (fun i hi hi' => ?_)
    rw [List.getElem_map]
    have hlen : i < (columns.zip row).length := by
      rw [List.length_zip, hlist, List.length_map, ← hrow, Nat.min_self]
      exact hi'
    have hmem : (m.arrowSchema[i].name, row[i]) ∈ columns.zip row := by
      have hget : (columns.zip row)[i] = (m.arrowSchema[i].name, row[i]) := by
        simp [hlist]
      exact hget ▸ List.getElem_mem hlen
    have hkeys : ((columns.zip row).map Prod.fst).Nodup := by
      rw [List.map_fst_zip (by rw [hlist, List.length_map, hrow]), hlist]
      exact hnames
    have hfind : Keyed.get Prod.fst (columns.zip row) m.arrowSchema[i].name = some (m.arrowSchema[i].name, row[i]) :=
      (Keyed.get_eq_some hkeys).mpr ⟨hmem, rfl⟩
    rw [Keyed.get] at hfind
    rw [hfind]
    rfl

end Values

section Main

variable {K : Kernel V R} {m : TableMeta N} {clock : CallClock} {H : History R (List V)} {columns : List N}
  {source : Collected N V}

omit [DecidableEq R] in
/-- The change a strict `INSERT` sends writes the pairs and deletes nothing. -/
theorem written_insertedBatch (h : source.fields.length = m.arrowSchema.length) :
    (⟨[insertedBatch K m source h], []⟩ : RowChange N V).written K m = writtenPairs K m source := by
  simp only [RowChange.written, List.flatMap_singleton, writtenRows, writtenPairs, castRows]
  rfl

omit [DecidableEq V] [DecidableEq R] in
theorem rowUuidsOf_insertedBatch (h : source.fields.length = m.arrowSchema.length) :
    rowUuidsOf K m (insertedBatch K m source h) = (castRows K m source).map (m.identity K) := rfl

/-- The call takes the change of a strict `INSERT` exactly if the batch is accepted and the identities differ. -/
theorem changeError_insertedBatch (hrows : source.rows ≠ []) (h : source.fields.length = m.arrowSchema.length) :
    changeError K m ⟨[insertedBatch K m source h], []⟩ = none ↔
      UpsertAccepted K m (insertedBatch K m source h) ∧ ((castRows K m source).map (m.identity K)).Nodup := by
  have hne : (insertedBatch K m source h).rows ≠ [] := fun hnil => hrows (List.map_eq_nil_iff.mp hnil)
  simp only [changeError, List.findSome?_nil, Option.none_or, upsertsError, Option.or_none, upsertError_eq_none, hne,
    false_or, List.not_mem_nil, not_false_eq_true, implies_true, and_true, rowUuidsOf_insertedBatch]

omit [DecidableEq R] in
variable (K m columns) in
theorem prepareInsert_of_rows_eq_nil (hrows : source.rows = []) :
    prepareInsert K m (strictInsert columns source) = .ok .nothing ∨
      ∃ e, prepareInsert K m (strictInsert columns source) = .error e := by
  cases hcombine : (combineBatches source columns : Except (Status N V R) _) with
  | error e => exact Or.inr ⟨e, by simp only [prepareInsert, strictInsert, hcombine]⟩
  | ok renamed =>
      have hnil : renamed.rows = [] := by
        rw [combineBatches] at hcombine
        split at hcombine
        · cases hcombine
          rfl
        · split at hcombine
          · cases hcombine
            exact hrows
          · split at hcombine
            · cases hcombine
              exact hrows
            · cases hcombine
      refine Or.inl ?_
      simp only [prepareInsert, strictInsert, hcombine, hnil, if_true]

variable (K m clock H columns) in
/-- **How a strict `INSERT` of at least one row ends**: with the error of a check it does not pass, or with its rows
    written. -/
theorem executeInsert_cases (hrows : source.rows ≠ []) :
    (¬ Accepted K m clock H columns source ∧
      ∃ e, executeInsert K m clock H (strictInsert columns source) = (.error e, H)) ∨
    (Accepted K m clock H columns source ∧ ∃ (h : source.fields.length = m.arrowSchema.length) (H' : History R (List V)),
      writeData K m clock H ⟨[insertedBatch K m source h], []⟩ = .ok H' ∧
        executeInsert K m clock H (strictInsert columns source) = (.ok source.rows.length, H')) := by
  cases hprepare : prepareInsert K m (strictInsert columns source) with
  | error e =>
      refine Or.inl ⟨fun hacc => ?_, e, by rw [executeInsert, hprepare, execute]⟩
      have hok := (prepareInsert_eq_ok hrows).mpr
        ⟨hacc.columnList, hacc.arity, hacc.castable, hacc.nullable, hacc.hasKey, hacc.upserts.keyColumns, rfl⟩
      rw [hprepare] at hok
      cases hok
  | ok prepared =>
      obtain ⟨hcolumns, harity, hcast, hnull, hkeys, hdeclared, rfl⟩ := (prepareInsert_eq_ok hrows).mp hprepare
      have htargets : (∀ u ∈ rowUuidsOf K m (insertedBatch K m source harity), liveRow H u = none) ↔
          ∀ row ∈ castRows K m source, liveRow H (m.identity K row) = none := by
        rw [rowUuidsOf_insertedBatch, List.forall_mem_map]
      rw [executeInsert, hprepare, execute]
      rcases finish_checkAndSend_cases K m clock H (rowUuidsOf K m (insertedBatch K m source harity))
        ⟨[insertedBatch K m source harity], []⟩ source.rows.length with ⟨H', habsent, hwrite, hfinish⟩ | ⟨e, hnot, hfinish⟩
      · obtain ⟨hclock, hchange, -⟩ := writeData_eq_ok.mp hwrite
        obtain ⟨hupserts, hdistinct⟩ := (changeError_insertedBatch hrows harity).mp hchange
        exact Or.inr ⟨⟨hcolumns, harity, hcast, hnull, hkeys, hupserts, hdistinct, htargets.mp habsent, hclock⟩,
          harity, H', hwrite, hfinish⟩
      · refine Or.inl ⟨fun hacc => ?_, e, hfinish⟩
        have hchange := (changeError_insertedBatch hrows harity).mpr ⟨hacc.upserts, hacc.distinct⟩
        exact hnot (htargets.mpr hacc.absent) _ (writeData_eq_ok.mpr ⟨hacc.clockAccepted, hchange, rfl⟩)

omit [DecidableEq V] [DecidableEq R] in
theorem length_namedRow (harity : source.fields.length = m.arrowSchema.length) {row : List V} (hrow : row ∈ source.rows) :
    (namedRow K m columns row).length = m.arrowSchema.length := by
  rw [namedRow]
  split
  · rw [source.width_rows row hrow, harity]
  · rw [List.length_map]

/-- The rows a strict `INSERT` leaves: the pairs it writes over the old rows. -/
theorem liveRow_inserted {h : source.fields.length = m.arrowSchema.length} {H' : History R (List V)}
    (hwrite : writeData K m clock H ⟨[insertedBatch K m source h], []⟩ = .ok H') :
    (∀ p ∈ writtenPairs K m source, liveRow H' p.1 = some p.2) ∧
      ∀ u, u ∉ (writtenPairs K m source).map Prod.fst → liveRow H' u = liveRow H u := by
  have hwritten := written_insertedBatch (K := K) h
  constructor
  · intro p hp
    exact liveRow_writeData_of_written hwrite (hwritten ▸ hp)
  · intro u hu
    have hlive := liveRow_writeData_of_not_written hwrite (hwritten ▸ hu)
    rwa [if_neg (show u ∉ (⟨[insertedBatch K m source h], []⟩ : RowChange N V).deleted K m from List.not_mem_nil)] at hlive

omit [DecidableEq R] in
/-- Written as named, the rows written are the rows named up to their order. -/
theorem WrittenAsNamed.perm (hdistinct : ((castRows K m source).map (m.identity K)).Nodup)
    (hnamed : WrittenAsNamed K m columns source) : (writtenPairs K m source).Perm (namedPairs K m columns source) := by
  have hids : (writtenPairs K m source).map Prod.fst = (castRows K m source).map (m.identity K) := by
    rw [writtenPairs, List.map_map]
    rfl
  have hlen : (namedPairs K m columns source).length ≤ (writtenPairs K m source).length := by
    simp [namedPairs, writtenPairs, castRows]
  have hsub : writtenPairs K m source ⊆ namedPairs K m columns source := fun p hp => (hnamed p).mp hp
  have hnodup : (writtenPairs K m source).Nodup := List.Nodup.of_map Prod.fst (hids ▸ hdistinct)
  exact (List.subperm_of_subset hnodup hsub).perm_of_length_le hlen

/-- An accepted statement writes the rows it names exactly if the values are kept. -/
theorem writtenAsNamed_iff (hacc : Accepted K m clock H columns source) :
    WrittenAsNamed K m columns source ↔ ValuesKept K m columns source := by
  have hnames := hacc.nodup_names
  have htypes : (typesOf source.fields).length = m.arrowSchema.length := by
    rw [typesOf, List.length_map, hacc.arity]
  have hwidth : ∀ row ∈ source.rows, row.length = m.arrowSchema.length :=
    fun row hrow => (source.width_rows row hrow).trans hacc.arity
  have hpair : ∀ row ∈ source.rows, ∀ named ∈ source.rows,
      ((m.identity K (castRow K (typesOf source.fields) m.arrowSchema row), storedRow K m.arrowSchema m.arrowSchema
          (castRow K (typesOf source.fields) m.arrowSchema row)) =
        (m.identity K (namedRow K m columns named), namedRow K m columns named) ↔
      RowKept K m (typesOf source.fields) columns row named) :=
    fun row hrow named hnamed => writtenPair_eq_iff hnames htypes (hwidth row hrow) (hwidth named hnamed)
  have hwritten : writtenPairs K m source = source.rows.map (fun row =>
      (m.identity K (castRow K (typesOf source.fields) m.arrowSchema row), storedRow K m.arrowSchema m.arrowSchema
        (castRow K (typesOf source.fields) m.arrowSchema row))) := by
    rw [writtenPairs, castRows, List.map_map]
    rfl
  constructor
  · intro h
    have hself : List.Forall₂ (fun p row => p = (m.identity K (namedRow K m columns row), namedRow K m columns row))
        (namedPairs K m columns source) source.rows := by
      rw [namedPairs, List.forall₂_map_left_iff, List.forall₂_same]
      exact fun _ _ => rfl
    obtain ⟨rows, hrows, hperm⟩ := List.perm_comp_forall₂ (h.perm hacc.distinct) hself
    rw [hwritten, List.forall₂_map_left_iff] at hrows
    refine ⟨rows, hperm, ?_⟩
    rw [List.forall₂_iff_get] at hrows ⊢
    refine ⟨hrows.1, fun i hi hi' => ?_⟩
    exact (hpair _ (List.get_mem _ _) _ (hperm.subset (List.get_mem _ _))).mp (hrows.2 i hi hi')
  · rintro ⟨rows, hperm, hkept⟩ p
    have heq : writtenPairs K m source =
        rows.map (fun row => (m.identity K (namedRow K m columns row), namedRow K m columns row)) := by
      rw [hwritten, ← List.forall₂_eq_eq_eq, List.forall₂_map_left_iff, List.forall₂_map_right_iff]
      rw [List.forall₂_iff_get] at hkept ⊢
      refine ⟨hkept.1, fun i hi hi' => ?_⟩
      exact (hpair _ (List.get_mem _ _) _ (hperm.subset (List.get_mem _ _))).mpr (hkept.2 i hi hi')
    rw [heq]
    exact (hperm.map _).mem_iff

variable (K m clock H columns source) in
/-- The promise is kept exactly if an accepted statement writes the rows it names and no live row has one of their keys
    under another identity. -/
theorem storesWhatItSays_iff_written :
    StoresWhatItSays K m clock H columns source ↔ (Accepted K m clock H columns source →
      WrittenAsNamed K m columns source ∧ NamedKeysFiled K m H columns source) := by
  by_cases hrows : source.rows = []
  · have hnone : WrittenAsNamed K m columns source := by
      intro p
      simp [writtenPairs, namedPairs, castRows, hrows]
    have hfiled : NamedKeysFiled K m H columns source := by
      intro row hrow
      rw [hrows] at hrow
      cases hrow
    refine ⟨fun _ _ => ⟨hnone, hfiled⟩, fun _ => ?_⟩
    rcases prepareInsert_of_rows_eq_nil K m columns hrows with hok | ⟨e, herr⟩
    · simp [StoresWhatItSays, executeInsert, hok, execute, Prepared.finish, hrows, namedPairs]
    · simp [StoresWhatItSays, executeInsert, herr, execute]
  rcases executeInsert_cases K m clock H columns hrows with ⟨hnot, e, herr⟩ | ⟨hacc, harity, H', hwrite, hok⟩
  · refine ⟨fun _ hacc => absurd hacc hnot, fun _ => ?_⟩
    simp [StoresWhatItSays, herr]
  obtain ⟨hlive, hother⟩ := liveRow_inserted hwrite
  have hids : ∀ p ∈ writtenPairs K m source, liveRow H p.1 = none := by
    intro p hp
    obtain ⟨row, hrow, rfl⟩ := List.mem_map.mp hp
    exact hacc.absent row hrow
  constructor
  · intro h _
    simp only [StoresWhatItSays, hok] at h
    obtain ⟨-, -, hkeys, hnew, hold⟩ := h
    refine ⟨fun p => ⟨fun hp => ?_, fun hp => ?_⟩, fun row hrow u live hu hkey => absurd hkey (hkeys row hrow u live hu)⟩
    · by_cases hmem : p.1 ∈ (namedPairs K m columns source).map Prod.fst
      · obtain ⟨q, hq, hqp⟩ := List.mem_map.mp hmem
        have hsame := hnew q hq
        rw [hqp, hlive p hp] at hsame
        exact (Prod.ext hqp (Option.some.inj hsame).symm : q = p) ▸ hq
      · have hgone := hold p.1 hmem
        rw [hlive p hp, hids p hp] at hgone
        cases hgone
    · by_cases hmem : p.1 ∈ (writtenPairs K m source).map Prod.fst
      · obtain ⟨q, hq, hqp⟩ := List.mem_map.mp hmem
        have hsame := hlive q hq
        rw [hqp, hnew p hp] at hsame
        exact (Prod.ext hqp (Option.some.inj hsame).symm : q = p) ▸ hq
      · -- The row was there before, with its key.
        have hbefore := hother p.1 hmem
        rw [hnew p hp] at hbefore
        obtain ⟨row, hrow, rfl⟩ := List.mem_map.mp hp
        exact absurd rfl (hkeys row hrow _ _ hbefore.symm)
  · intro h
    obtain ⟨hnamed, hfiled⟩ := h hacc
    have hnodup : ((namedPairs K m columns source).map Prod.fst).Nodup := by
      refine ((hnamed.perm hacc.distinct).map Prod.fst).nodup_iff.mp ?_
      rw [writtenPairs, List.map_map]
      exact hacc.distinct
    simp only [StoresWhatItSays, hok]
    refine ⟨trivial, ?_, ?_, fun p hp => hlive p ((hnamed p).mpr hp), fun u hu => hother u (fun hmem => hu ?_)⟩
    · -- Rows with one key have one identity.
      rw [namedPairs, List.map_map] at hnodup
      refine List.pairwise_map.mpr ((List.pairwise_map.mp hnodup).imp_of_mem ?_)
      intro row row' hrow hrow' hne hkey
      exact hne (TableMeta.identity_eq_of_key_eq K (length_namedRow hacc.arity hrow) (length_namedRow hacc.arity hrow') hkey)
    · intro row hrow u live hu hkey
      have hp : (m.identity K (namedRow K m columns row), namedRow K m columns row) ∈ namedPairs K m columns source :=
        List.mem_map.mpr ⟨row, hrow, rfl⟩
      have hnone := hids _ ((hnamed _).mpr hp)
      rw [← hfiled row hrow u live hu hkey, hu] at hnone
      cases hnone
    · obtain ⟨p, hp, rfl⟩ := List.mem_map.mp hmem
      exact List.mem_map.mpr ⟨p, (hnamed p).mp hp, rfl⟩

/-- A list in the table's order, and values nothing changes, are kept. -/
theorem valuesKept_of_unchanged (hacc : Accepted K m clock H columns source)
    (hcolumns : columns = [] ∨ columns = m.arrowSchema.map Field.name) (hvalues : ValuesUnchanged K m source) :
    (∀ row ∈ source.rows, namedRow K m columns row = row) ∧ ValuesKept K m columns source := by
  have hnames := hacc.nodup_names
  have hnamed : ∀ row ∈ source.rows, namedRow K m columns row = row :=
    fun row hrow => namedRow_inOrder hnames hcolumns ((source.width_rows row hrow).trans hacc.arity)
  refine ⟨hnamed, source.rows, List.Perm.refl _, List.forall₂_same.mpr (fun row hrow => ?_)⟩
  have hwidth := (source.width_rows row hrow).trans hacc.arity
  constructor
  · intro i field dataType v hfield htype hv
    have hmem : ((dataType, field), v) ∈ ((typesOf source.fields).zip m.arrowSchema).zip row :=
      List.mem_of_getElem? (List.getElem?_zip_eq_some.mpr ⟨List.getElem?_zip_eq_some.mpr ⟨htype, hfield⟩, hv⟩)
    obtain ⟨hcast, hkept⟩ := hvalues row hrow _ hmem
    have hget : (namedRow K m columns row)[i]? = some (namedValue K columns row i field) :=
      getElem?_namedRow hwidth hfield
    rw [hnamed row hrow, hv] at hget
    rw [hcast, hkept, Option.some.inj hget]
  · have hcast : castRow K (typesOf source.fields) m.arrowSchema row = row := by
      rw [castRow, ← List.map_uncurry_zip_eq_zipWith]
      have hsnd : (((typesOf source.fields).zip m.arrowSchema).zip row).map
          (Function.uncurry fun t v => castValue K t.1 t.2.dataType v) =
            (((typesOf source.fields).zip m.arrowSchema).zip row).map Prod.snd :=
        List.map_congr_left (fun c hc => (hvalues row hrow c hc).1)
      rw [hsnd, List.map_snd_zip]
      rw [List.length_zip, typesOf, List.length_map, hacc.arity, Nat.min_self, hwidth]
    rw [hcast, hnamed row hrow]

variable (K m clock H columns source) in
/-- **What a strict `INSERT` stores.** For every table, state, column list and source: the statement keeps its promise
    exactly if it fails a check, or every column gets from its own position the value the list names for it and the live
    rows with the keys it names are filed under them. So it does, in a table whose rows are all filed under their keys,
    if the list is in the table's order and no value is changed. -/
theorem stores_what_it_says_iff :
    (StoresWhatItSays K m clock H columns source ↔ (Accepted K m clock H columns source →
      ValuesKept K m columns source ∧ NamedKeysFiled K m H columns source)) ∧
    ((∀ u row, liveRow H u = some row → row.length = m.arrowSchema.length ∧ m.identity K row = u) →
      columns = [] ∨ columns = m.arrowSchema.map Field.name → ValuesUnchanged K m source →
      StoresWhatItSays K m clock H columns source) := by
  have hiff : StoresWhatItSays K m clock H columns source ↔ (Accepted K m clock H columns source →
      ValuesKept K m columns source ∧ NamedKeysFiled K m H columns source) := by
    rw [storesWhatItSays_iff_written]
    exact forall_congr' (fun hacc => and_congr_left' (writtenAsNamed_iff hacc))
  refine ⟨hiff, fun hfiled hcolumns hvalues => hiff.mpr (fun hacc => ?_)⟩
  obtain ⟨hnamed, hkept⟩ := valuesKept_of_unchanged hacc hcolumns hvalues
  refine ⟨hkept, fun row hrow u live hu hkey => ?_⟩
  obtain ⟨hwidth, hid⟩ := hfiled u live hu
  rw [← hid]
  exact TableMeta.identity_eq_of_key_eq K hwidth (length_namedRow hacc.arity hrow) hkey

end Main

/-- `VALUES (x, y)`. -/
def valuesPair (x y : Int) : Collected Char (Option Int) where
  fields := [⟨'1', .int64, true⟩, ⟨'2', .int64, true⟩]
  batches := [[[some x, some y]]]
  width := by simp

/-- The statement succeeds and leaves the row. -/
def leaves (result : Except (Status Char (Option Int) (List Char)) Nat × History (List Char) (List (Option Int)))
    (row : List (Option Int)) : Bool :=
  match result with
  | (.ok _, H')    => liveRow H' (pairTable.identity integerKernel row) = some row
  | (.error _, _)  => false

/-- A statement that leaves another row than the one it names does not keep its promise. -/
theorem not_storesWhatItSays_of_leaves {columns : List Char} {source : Collected Char (Option Int)}
    (row : List (Option Int)) (h : leaves (executeInsert integerKernel pairTable (clockAt 1) .empty (strictInsert columns source)) row = true)
    (hother : row ∉ source.rows.map (namedRow integerKernel pairTable columns)) :
    ¬ StoresWhatItSays integerKernel pairTable (clockAt 1) .empty columns source := by
  intro hsays
  simp only [StoresWhatItSays] at hsays
  cases hresult : executeInsert integerKernel pairTable (clockAt 1) .empty (strictInsert columns source) with
  | mk result H' =>
      rw [hresult] at hsays h
      cases result with
      | error e => cases h
      | ok k =>
          have hrow : liveRow H' (pairTable.identity integerKernel row) = some row := of_decide_eq_true h
          obtain ⟨-, -, -, hnew, hold⟩ := hsays
          by_cases hmem : pairTable.identity integerKernel row ∈
              (namedPairs integerKernel pairTable columns source).map Prod.fst
          · obtain ⟨p, hp, hpu⟩ := List.mem_map.mp hmem
            have hsame := hnew p hp
            rw [hpu, hrow] at hsame
            obtain ⟨r, hr, rfl⟩ := List.mem_map.mp hp
            exact hother (List.mem_map.mpr ⟨r, hr, (Option.some.inj hsame).symm⟩)
          · rw [hold _ hmem] at hrow
            cases hrow

/-- `INSERT INTO t (b, a) VALUES (1, 2)` stores `a = 1, b = 2`; `INSERT INTO t VALUES (1, 2147483648)` stores
    `a = 1, b = NULL`. Both succeed. -/
theorem stores_what_it_says_fails :
    ¬ StoresWhatItSays integerKernel pairTable (clockAt 1) .empty ['b', 'a']
      (valuesPair 1 2) ∧
    ¬ StoresWhatItSays integerKernel pairTable (clockAt 1) .empty []
      (valuesPair 1 2147483648) := by
  constructor
  · apply not_storesWhatItSays_of_leaves [some 1, some 2]
    · decide +kernel
    · decide +kernel
  · apply not_storesWhatItSays_of_leaves [some 1, none]
    · decide +kernel
    · decide +kernel

/-- `INSERT INTO t (a, b) VALUES (1, 2)` into an empty table stores the row it names. -/
theorem stores_what_it_says_inOrder :
    leaves (executeInsert integerKernel pairTable (clockAt 1) .empty (strictInsert ['a', 'b'] (valuesPair 1 2)))
        [some 1, some 2] = true ∧
      StoresWhatItSays integerKernel pairTable (clockAt 1) .empty ['a', 'b'] (valuesPair 1 2) := by
  refine ⟨by decide +kernel, (stores_what_it_says_iff integerKernel pairTable (clockAt 1) .empty ['a', 'b']
    (valuesPair 1 2)).2 ?_ (.inr rfl) (by decide +kernel)⟩
  intro u row hu
  cases hu

end Penca.Sql
