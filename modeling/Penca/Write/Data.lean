import Penca.Core.Values
import Penca.Tx.Writes

/-!
# `Write.Data` — an auto-commit `WriteData` call

A call carries batches of keys to delete and batches of rows to upsert. The delete batches are checked against the
declared primary key, names and types; the upsert batches must have the key columns and are taken with the types they
come with. Row identities are derived from the batches, not from what Postgres keeps of them. Everything happens in one
Postgres transaction that also writes the commit row.

## Contents
- **The checks** of `pk_batch.rs` and of `insert_rows`, and the rows they let through (`applyChange`).
- **The commit** of the change on the table's history (`writeData`).
- **Main result:** `liveRow_writeData` — what the table holds after the call.
-/

namespace Penca

variable {N V R : Type} [DecidableEq N] [DecidableEq V] [DecidableEq R]

/-! ## Checks -/

/-- The request field a batch comes from. -/
inductive BatchField where
  | deletes
  | upserts
  deriving DecidableEq, Repr

/-- `ApiError`, as far as `WriteData` raises it. -/
inductive ApiError (N R : Type) where
  /-- `primary key column '{pk}' not found in batch` -/
  | primaryKeyNotFound (pk : N)
  /-- `{field} PK batch column order {batch_cols:?} does not match table's declared primary_keys {pk_cols:?}` -/
  | columnOrder (batchCols primaryKeys : List N)
  /-- `primary key '{pk}' not in user_schema` -/
  | notInUserSchema (pk : N)
  /-- `{field} PK batch column '{pk}' has type {:?}, table declared {:?}` -/
  | columnType (pk : N) (batchType declaredType : DataType)
  /-- `{field} PK column '{pk}' contains null values; primary keys cannot be null` -/
  | nullPrimaryKey (field : BatchField) (pk : N)
  /-- `WriteData upserts contain duplicate row_uuid {row_uuid} for table {table_uuid}` -/
  | duplicateRowUuid (rowUuid : R)
  /-- Postgres refuses the statement: a column it does not know or is named twice, or a value it does not take. -/
  | hotStorage
  /-- The commit row violates the unique index on `(branch_uuid, commit_micros)`. -/
  | commitMicrosTaken
  deriving DecidableEq, Repr

/-- `ensure_no_null_pks`: the first primary key column with a null value. -/
def firstNullPk (K : Kernel V R) (primaryKeys : List N) (batch : RecordBatch N V) : Option N :=
  primaryKeys.find? (fun pk => batch.rows.any (fun row => (cell batch.fields row pk).any (fun c => c.2 = K.null)))

/-- The type check of `validate_pk_batch_schema` for one column. -/
def pkTypeError (userSchema : List (Field N)) (field : Field N) : Option (ApiError N R) :=
  match declaredType userSchema field.name with
  | none          => some (.notInUserSchema field.name)
  | some declared =>
      if field.dataType = declared then none else some (.columnType field.name field.dataType declared)

/-- `validate_pk_batch_schema`: the first check of a delete batch that fails. -/
def validatePkBatchSchema (K : Kernel V R) (m : TableMeta N) (batch : RecordBatch N V) : Option (ApiError N R) :=
  if batch.fields.map Field.name ≠ m.primaryKeys then
    some (.columnOrder (batch.fields.map Field.name) m.primaryKeys)
  else
    (batch.fields.findSome? (pkTypeError m.arrowSchema)).or
      ((firstNullPk K m.primaryKeys batch).map (.nullPrimaryKey .deletes))

/-- The identities of the rows of a batch: `row_uuid_for_row` of each row. -/
def rowUuidsOf (K : Kernel V R) (m : TableMeta N) (batch : RecordBatch N V) : List R :=
  batch.rows.map (fun row => K.rowUuidForRow m.tableUuid (keyCells batch.fields m.primaryKeys row))

/-- The duplicate check of `insert_rows`: the first identity an earlier row of the call has. -/
def firstDuplicate (seen : List R) : List R → Option R
  | []        => none
  | u :: rest => if u ∈ seen then some u else firstDuplicate (u :: seen) rest

/-! ## What Postgres stores -/

/-- The value a row leaves in a column of the table: the literal of the batch's value, NULL if the batch lacks the
    column. -/
def storeCell (K : Kernel V R) (fields : List (Field N)) (row : List V) (field : Field N) : Option V :=
  match cell fields row field.name with
  | some c => if c.2 = K.null then some K.null else K.store c.1 field.dataType c.2
  | none   => some K.null

/-- The user columns a row leaves in the upsert log. -/
def storedRow (K : Kernel V R) (schema fields : List (Field N)) (row : List V) : List V :=
  schema.map (fun field => (storeCell K fields row field).getD K.null)

/-- Postgres takes the `INSERT`: it knows every column, each is named once, and it takes every value. -/
def insertAccepted (K : Kernel V R) (schema : List (Field N)) (batch : RecordBatch N V) : Bool :=
  (batch.fields.map Field.name).Nodup && batch.fields.all (fun f => (declaredType schema f.name).isSome) &&
    batch.rows.all (fun row => schema.all (fun field => (storeCell K batch.fields row field).isSome))

/-! ## The two inserts -/

/-- The columns of the delete log: the primary key columns of the table. -/
def TableMeta.keyFields (m : TableMeta N) : List (Field N) := m.arrowSchema.filter (fun f => f.name ∈ m.primaryKeys)

/-- `insert_delete_pk_batches`, one batch: the first error. -/
def deleteError (K : Kernel V R) (m : TableMeta N) (batch : RecordBatch N V) : Option (ApiError N R) :=
  if batch.rows = [] then none
  else (validatePkBatchSchema K m batch).or (if insertAccepted K m.keyFields batch then none else some .hotStorage)

/-- `insert_rows`, one batch after the identities `seen` before it: the first error. -/
def upsertError (K : Kernel V R) (m : TableMeta N) (seen : List R) (batch : RecordBatch N V) : Option (ApiError N R) :=
  if batch.rows = [] then none
  else
    ((m.primaryKeys.find? (fun pk => (declaredType batch.fields pk).isNone)).map .primaryKeyNotFound).or
      (((firstNullPk K m.primaryKeys batch).map (.nullPrimaryKey .upserts)).or
        (((firstDuplicate seen (rowUuidsOf K m batch)).map .duplicateRowUuid).or
          (if insertAccepted K m.arrowSchema batch then none else some .hotStorage)))

/-- `insert_rows`: the first error. -/
def upsertsError (K : Kernel V R) (m : TableMeta N) : List R → List (RecordBatch N V) → Option (ApiError N R)
  | _, []               => none
  | seen, batch :: rest => (upsertError K m seen batch).or (upsertsError K m (rowUuidsOf K m batch ++ seen) rest)

/-- The rows a batch leaves in the upsert log, under their identities. -/
def writtenRows (K : Kernel V R) (m : TableMeta N) (batch : RecordBatch N V) : List (R × List V) :=
  batch.rows.map (fun row =>
    (K.rowUuidForRow m.tableUuid (keyCells batch.fields m.primaryKeys row), storedRow K m.arrowSchema batch.fields row))

omit [DecidableEq R] in
@[simp] theorem map_fst_writtenRows (K : Kernel V R) (m : TableMeta N) (batch : RecordBatch N V) :
    (writtenRows K m batch).map Prod.fst = rowUuidsOf K m batch := by
  rw [writtenRows, rowUuidsOf, List.map_map]
  rfl

/-! ## The call -/

/-- `Change`: the decoded batches of a request. -/
structure RowChange (N V : Type) where
  upserts : List (RecordBatch N V)
  deletes : List (RecordBatch N V)

/-- `apply_change`: the first error. -/
def changeError (K : Kernel V R) (m : TableMeta N) (change : RowChange N V) : Option (ApiError N R) :=
  (change.deletes.findSome? (deleteError K m)).or (upsertsError K m [] change.upserts)

theorem firstDuplicate_eq_none {seen us : List R} :
    firstDuplicate seen us = none ↔ us.Nodup ∧ ∀ u ∈ us, u ∉ seen := by
  induction us generalizing seen with
  | nil => simp [firstDuplicate]
  | cons u us ih =>
      rw [firstDuplicate]
      by_cases hu : u ∈ seen
      · simp [hu]
      · rw [if_neg hu, ih, List.nodup_cons]
        constructor
        · rintro ⟨hnodup, hseen⟩
          refine ⟨⟨fun hmem => hseen u hmem List.mem_cons_self, hnodup⟩, ?_⟩
          intro w hw
          rcases List.mem_cons.mp hw with rfl | hw
          · exact hu
          · exact fun h => hseen w hw (List.mem_cons_of_mem u h)
        · rintro ⟨⟨hmem, hnodup⟩, hseen⟩
          refine ⟨hnodup, fun w hw h => ?_⟩
          rcases List.mem_cons.mp h with rfl | h
          · exact hmem hw
          · exact hseen w (List.mem_cons_of_mem u hw) h

/-- What a batch `insert_rows` takes satisfies. -/
structure UpsertAccepted (K : Kernel V R) (m : TableMeta N) (batch : RecordBatch N V) : Prop where
  keyColumns : ∀ pk ∈ m.primaryKeys, (declaredType batch.fields pk).isSome
  noNullPk : firstNullPk K m.primaryKeys batch = none
  accepted : insertAccepted K m.arrowSchema batch = true

theorem upsertError_eq_none {K : Kernel V R} {m : TableMeta N} {seen : List R} {batch : RecordBatch N V} :
    upsertError K m seen batch = none ↔ batch.rows = [] ∨
      (UpsertAccepted K m batch ∧ (rowUuidsOf K m batch).Nodup ∧ ∀ u ∈ rowUuidsOf K m batch, u ∉ seen) := by
  rw [upsertError]
  by_cases hrows : batch.rows = []
  · simp [hrows]
  · rw [if_neg hrows]
    simp only [Option.or_eq_none_iff, Option.map_eq_none_iff, List.find?_eq_none, firstDuplicate_eq_none,
      ite_eq_left_iff, reduceCtorEq, imp_false, hrows, false_or, not_not]
    constructor
    · rintro ⟨hkeys, hnull, hdup, hacc⟩
      exact ⟨⟨fun pk hpk => by simpa [Option.isSome_iff_ne_none] using hkeys pk hpk, hnull, by simpa using hacc⟩, hdup⟩
    · rintro ⟨⟨hkeys, hnull, hacc⟩, hdup⟩
      exact ⟨fun pk hpk => by simpa [Option.isSome_iff_ne_none] using hkeys pk hpk, hnull, hdup, by simpa using hacc⟩

/-- The rows of a call that `insert_rows` takes have different identities, none of them `seen` before. -/
theorem nodup_of_upsertsError {K : Kernel V R} {m : TableMeta N} {seen : List R} {batches : List (RecordBatch N V)}
    (h : upsertsError K m seen batches = none) :
    (batches.flatMap (rowUuidsOf K m)).Nodup ∧ ∀ u ∈ batches.flatMap (rowUuidsOf K m), u ∉ seen := by
  induction batches generalizing seen with
  | nil => simp
  | cons batch rest ih =>
      rw [upsertsError, Option.or_eq_none_iff] at h
      obtain ⟨hrest, hseen⟩ := ih h.2
      have hbatch : (rowUuidsOf K m batch).Nodup ∧ ∀ u ∈ rowUuidsOf K m batch, u ∉ seen := by
        rcases upsertError_eq_none.mp h.1 with hrows | ⟨-, hdup⟩
        · simp [rowUuidsOf, hrows]
        · exact hdup
      rw [List.flatMap_cons]
      constructor
      · refine List.nodup_append.mpr ⟨hbatch.1, hrest, ?_⟩
        rintro u hu w hw rfl
        exact hseen u hw (List.mem_append_left _ hu)
      · intro u hu
        rcases List.mem_append.mp hu with hu | hu
        · exact hbatch.2 u hu
        · exact fun h => hseen u hu (List.mem_append_right _ h)

/-- The log rows of a change that passes the checks. A second delete of a row in one statement does nothing. -/
def RowChange.toDataChange (change : RowChange N V) (K : Kernel V R) (m : TableMeta N)
    (h : changeError K m change = none) : DataChange R (List V) where
  deletes := change.deletes.map (fun batch => (rowUuidsOf K m batch).dedup)
  upserts := change.upserts.map (writtenRows K m)
  deletesOnce := by
    intro batch hbatch
    obtain ⟨b, -, rfl⟩ := List.mem_map.mp hbatch
    exact List.nodup_dedup _
  upsertsOnce := by
    intro batch hbatch
    obtain ⟨b, hb, rfl⟩ := List.mem_map.mp hbatch
    rw [map_fst_writtenRows]
    exact (List.nodup_flatMap.mp (nodup_of_upsertsError (Option.or_eq_none_iff.mp h).2).1).1 b hb

/-- What the database contributes to a call: the clock reading of its commit, the `write_sequence` and how often it has
    been drawn from. -/
structure CallClock where
  commitMicros : Int
  nextval : Nat → Int
  drawn : Nat
  increasing : Increasing nextval

/-- An auto-commit `write_data`. -/
def writeData (K : Kernel V R) (m : TableMeta N) (clock : CallClock) (H : History R (List V)) (change : RowChange N V) :
    Except (ApiError N R) (History R (List V)) :=
  if hclock : H.Accepts clock.commitMicros then
    match hchange : changeError K m change with
    | some e => .error e
    | none   => .ok (H.append clock.commitMicros
        (TxWrites.empty.applyChange clock.nextval clock.drawn (change.toDataChange K m hchange)) hclock)
  else .error .commitMicrosTaken

/-! ## What the table holds -/

/-- The row a `LatestSeq` read returns under an identity. -/
def liveRow (H : History R (List V)) (u : R) : Option (List V) := replayLog H.entries u

omit [DecidableEq V] in
/-- A live row is in the log. -/
theorem mem_rowUuids_of_liveRow {H : History R (List V)} {u : R} {row : List V} (h : liveRow H u = some row) :
    u ∈ rowUuids H.entries := by
  by_contra hu
  rw [liveRow, replayLog, Newest.replay_apply H.separated, Newest.outcome_eq_none] at h
  · cases h
  · intro e he heu
    exact hu (mem_rowUuids.mpr ⟨e, he, heu⟩)

omit [DecidableEq N] [DecidableEq V] [DecidableEq R] in
/-- The operations of one call on a row, deletes before upserts, are decided by the last of them. -/
theorem lastDecides_deletes_upserts {T : Type} {ds us : List (Change T)} (hds : ∀ c ∈ ds, c.kind = .deleteLog)
    (hus : ∀ c ∈ us, c.kind = .upsertLog) : LastDecides (ds ++ us) := by
  intro first hfirst last hlast
  cases us with
  | nil =>
      rw [List.append_nil] at hlast ⊢
      refine Or.inr (fun c hc => ?_)
      rw [hds c hc, hds last (List.mem_of_getLast? hlast)]
  | cons u us =>
      have hlast' : last ∈ u :: us := by
        rw [List.getLast?_append_of_ne_nil _ (List.cons_ne_nil u us)] at hlast
        exact List.mem_of_getLast? hlast
      cases ds with
      | nil => exact Or.inr (fun c hc => by rw [hus c hc, hus last hlast'])
      | cons d ds =>
          refine Or.inl ?_
          have hd : d = first := by simpa using hfirst
          rw [← hd, hds d List.mem_cons_self, hus last hlast']
          decide

/-- The operations of a call on one row. -/
def DataChange.opsOn {T : Type} (change : DataChange R T) (u : R) : List (Change T) :=
  (change.ops.filter (fun o => o.1 = u)).map Prod.snd

omit [DecidableEq V] in
/-- The last operation of the call on a row decides what a read finds; other rows are left alone. -/
theorem liveRow_append {H : History R (List V)} {clock : CallClock} (hclock : H.Accepts clock.commitMicros)
    (change : DataChange R (List V)) (u : R) :
    liveRow (H.append clock.commitMicros (TxWrites.empty.applyChange clock.nextval clock.drawn change) hclock) u =
      ((change.opsOn u).getLast?).elim (liveRow H u) Change.effect := by
  let rows := TxWrites.empty.applyChange clock.nextval clock.drawn change
  have hsep := (H.append clock.commitMicros rows hclock).separated
  have hentries : (H.append clock.commitMicros rows hclock).entries = H.entries ++ (H.nextTx clock.commitMicros rows).entries :=
    History.entries_append hclock
  have hchanges : (insertsOf (stampOps clock.nextval clock.drawn change.ops) u).map RowWrite.change = change.opsOn u :=
    map_change_insertsOf_stampOps clock.nextval clock.drawn change.ops u
  rw [liveRow, replayLog, Newest.replay_apply hsep]
  cases hlast : (change.opsOn u).getLast? with
  | some o =>
      obtain ⟨w, hw, heffect⟩ := exists_newestWrite (pairwise_stampOps clock.increasing clock.drawn change.ops)
        (hchanges ▸ hlast)
      have hw : NewestWrite rows u w := hw
      have hdecides : LastDecides (change.opsOn u) := by
        rw [DataChange.opsOn, DataChange.ops, List.filter_append, List.map_append]
        refine lastDecides_deletes_upserts ?_ ?_
        · simp only [List.mem_map, List.mem_filter]
          rintro c ⟨o, ⟨⟨r, -, rfl⟩, -⟩, rfl⟩
          rfl
        · simp only [List.mem_map, List.mem_filter]
          rintro c ⟨o, ⟨⟨r, -, rfl⟩, -⟩, rfl⟩
          rfl
      have hnew : NewestOf (H.append clock.commitMicros rows hclock).entries ((H.nextTx clock.commitMicros rows).stamp w) := by
        rw [hentries]
        refine NewestWrite.newestOf hw (fun e he => List.mem_append_right _ he) (fun e he _ => ?_)
        exact (List.mem_append.mp he).symm.imp_right History.commitSeqNum_lt_length
      rw [← hw.row]
      exact (newestEffect_eq_effect hsep hnew).trans (heffect.mpr (hchanges ▸ hdecides))
  | none =>
      show _ = liveRow H u
      rw [liveRow, replayLog, Newest.replay_apply H.separated]
      refine (Newest.outcome_congr hsep (fun e hrow => ?_)).symm
      rw [hentries, List.mem_append]
      refine ⟨Or.inl, fun he => he.resolve_right (fun hown => ?_)⟩
      -- A row of the transaction comes from an operation of the call.
      obtain ⟨w, hw, rfl⟩ := CommittedTx.mem_entries.mp hown
      obtain ⟨a, ha, -⟩ := exists_insert_of_mem hw hrow
      have hnil : insertsOf (stampOps clock.nextval clock.drawn change.ops) u = [] := by
        rw [← @List.map_eq_nil_iff _ _ RowWrite.change, hchanges]
        exact List.getLast?_eq_none_iff.mp hlast
      rw [insertsInto, hnil] at ha
      cases ha

omit [DecidableEq V] in
/-- The last operation of a call on a row: the upsert if there is one, else the delete if there is one. -/
theorem DataChange.getLast?_opsOn {T : Type} (change : DataChange R T) (hnodup : (change.upserts.flatten.map Prod.fst).Nodup)
    (u : R) :
    (change.opsOn u).getLast? = ((change.upserts.flatten.find? (fun p => p.1 = u)).map (fun p => Change.upsert p.2)).or
      (if u ∈ change.deletes.flatten then some .delete else none) := by
  rw [opsOn, ops, List.filter_append, List.map_append, List.getLast?_append]
  congr 1
  · -- One upserted row at most has the identity.
    have hone : (change.upserts.flatten.filter (fun p => p.1 = u)).length ≤ 1 := by
      have hcount := List.nodup_iff_count_le_one.mp hnodup u
      rw [List.count, List.countP_map, List.countP_eq_length_filter] at hcount
      simpa [Function.comp_def, beq_eq_decide] using hcount
    rw [List.filter_map, List.map_map, List.getLast?_map, ← List.head?_filter]
    simp only [Function.comp_def]
    cases hrows : change.upserts.flatten.filter (fun p => p.1 = u) with
    | nil => rfl
    | cons p rest =>
        rw [hrows] at hone
        have hrest : rest = [] := List.length_eq_zero_iff.mp (by simpa using hone)
        rw [hrest]
        rfl
  · rw [List.filter_map, List.map_map, List.getLast?_map]
    simp only [Function.comp_def]
    split
    · rename_i hdel
      cases hrows : (change.deletes.flatten.filter (fun r => r = u)).getLast? with
      | none =>
          rw [List.getLast?_eq_none_iff, List.filter_eq_nil_iff] at hrows
          exact absurd (decide_eq_true rfl) (hrows u hdel)
      | some r => rfl
    · rename_i hdel
      have hnil : change.deletes.flatten.filter (fun r => r = u) = [] := by
        rw [List.filter_eq_nil_iff]
        rintro r hr heq
        rw [decide_eq_true_eq] at heq
        exact hdel (heq ▸ hr)
      rw [hnil]
      rfl

omit [DecidableEq V] in
/-- **What a change leaves**: the rows it upserts, not the rows it only deletes, and every other row as it was. -/
theorem liveRow_append_change {H : History R (List V)} {clock : CallClock} (hclock : H.Accepts clock.commitMicros)
    (change : DataChange R (List V)) (hnodup : (change.upserts.flatten.map Prod.fst).Nodup) (u : R) :
    liveRow (H.append clock.commitMicros (TxWrites.empty.applyChange clock.nextval clock.drawn change) hclock) u =
      ((change.upserts.flatten.find? (fun p => p.1 = u)).map Prod.snd).or
        (if u ∈ change.deletes.flatten then none else liveRow H u) := by
  rw [liveRow_append hclock, change.getLast?_opsOn hnodup]
  cases change.upserts.flatten.find? (fun p => p.1 = u) with
  | some p => rfl
  | none =>
      by_cases hdel : u ∈ change.deletes.flatten
      · rw [if_pos hdel, if_pos hdel]
        rfl
      · rw [if_neg hdel, if_neg hdel]
        rfl

omit [DecidableEq V] in
/-- The rows after a change: the ones it upserts, and the others it does not delete. -/
theorem liveRow_append_change_eq_some {H : History R (List V)} {clock : CallClock} (hclock : H.Accepts clock.commitMicros)
    (change : DataChange R (List V)) (hnodup : (change.upserts.flatten.map Prod.fst).Nodup) {u : R} {row : List V} :
    liveRow (H.append clock.commitMicros (TxWrites.empty.applyChange clock.nextval clock.drawn change) hclock) u = some row ↔
      (u, row) ∈ change.upserts.flatten ∨
        (liveRow H u = some row ∧ u ∉ change.upserts.flatten.map Prod.fst ∧ u ∉ change.deletes.flatten) := by
  rw [liveRow_append_change hclock change hnodup]
  cases hfind : change.upserts.flatten.find? (fun p => p.1 = u) with
  | some p =>
      have hp := List.mem_of_find?_eq_some hfind
      have hkey : p.1 = u := by simpa using List.find?_some hfind
      rw [Option.map_some, Option.some_or]
      constructor
      · intro h
        rw [← hkey, ← Option.some.inj h]
        exact Or.inl hp
      · rintro (hmem | ⟨-, hnot, -⟩)
        · rw [List.inj_on_of_nodup_map hnodup hp hmem hkey]
        · exact absurd (List.mem_map.mpr ⟨p, hp, hkey⟩) hnot
  | none =>
      have hnone := List.find?_eq_none.mp hfind
      have hnot : u ∉ change.upserts.flatten.map Prod.fst := by
        intro hmem
        obtain ⟨p, hp, hkey⟩ := List.mem_map.mp hmem
        exact hnone p hp (decide_eq_true hkey)
      rw [Option.map_none, Option.none_or]
      constructor
      · intro h
        split at h
        · cases h
        · rename_i hdel
          exact Or.inr ⟨h, hnot, hdel⟩
      · rintro (hmem | ⟨hlive, -, hdel⟩)
        · exact absurd (decide_eq_true rfl) (hnone (u, row) hmem)
        · rw [if_neg hdel, hlive]

section Call

variable {K : Kernel V R} {m : TableMeta N} {clock : CallClock} {H H' : History R (List V)} {change : RowChange N V}

/-- The rows a change upserts, under their identities. -/
def RowChange.written (change : RowChange N V) (K : Kernel V R) (m : TableMeta N) : List (R × List V) :=
  change.upserts.flatMap (writtenRows K m)

/-- The identities a change deletes. -/
def RowChange.deleted (change : RowChange N V) (K : Kernel V R) (m : TableMeta N) : List R :=
  change.deletes.flatMap (rowUuidsOf K m)

omit [DecidableEq R] in
theorem RowChange.map_fst_written (change : RowChange N V) :
    (change.written K m).map Prod.fst = change.upserts.flatMap (rowUuidsOf K m) := by
  simp [written, List.map_flatMap]

/-- A call succeeds if the commit row and the change are accepted, and then appends one transaction. -/
theorem writeData_eq_ok : writeData K m clock H change = .ok H' ↔
    ∃ (hclock : H.Accepts clock.commitMicros) (hchange : changeError K m change = none),
      H' = H.append clock.commitMicros
        (TxWrites.empty.applyChange clock.nextval clock.drawn (change.toDataChange K m hchange)) hclock := by
  constructor
  · intro h
    simp only [writeData] at h
    split at h
    · rename_i hclock
      split at h
      · cases h
      · rename_i hchange
        exact ⟨hclock, hchange, (Except.ok.inj h).symm⟩
    · cases h
  · rintro ⟨hclock, hchange, rfl⟩
    simp only [writeData, dif_pos hclock]
    split
    · rename_i he
      rw [hchange] at he
      cases he
    · rfl

theorem nodup_written (hchange : changeError K m change = none) : ((change.written K m).map Prod.fst).Nodup := by
  rw [RowChange.map_fst_written]
  exact (nodup_of_upsertsError (Option.or_eq_none_iff.mp hchange).2).1

/-- **What a call leaves**: the rows it upserts, not the rows it only deletes, and every other row as it was. -/
theorem liveRow_writeData (h : writeData K m clock H change = .ok H') (u : R) :
    liveRow H' u = (((change.written K m).find? (fun p => p.1 = u)).map Prod.snd).or
      (if u ∈ change.deleted K m then none else liveRow H u) := by
  obtain ⟨hclock, hchange, rfl⟩ := writeData_eq_ok.mp h
  have hmem : u ∈ (change.toDataChange K m hchange).deletes.flatten ↔ u ∈ change.deleted K m := by
    simp [RowChange.toDataChange, RowChange.deleted, List.mem_flatten, List.mem_flatMap]
  have hwritten : (change.toDataChange K m hchange).upserts.flatten = change.written K m := rfl
  rw [liveRow_append_change hclock _ (hwritten ▸ nodup_written hchange), hwritten]
  simp only [hmem]

theorem liveRow_writeData_of_written (h : writeData K m clock H change = .ok H') {p : R × List V}
    (hp : p ∈ change.written K m) : liveRow H' p.1 = some p.2 := by
  obtain ⟨-, hchange, -⟩ := writeData_eq_ok.mp h
  rw [liveRow_writeData h]
  cases hfind : (change.written K m).find? (fun q => q.1 = p.1) with
  | none => exact absurd (decide_eq_true rfl) (List.find?_eq_none.mp hfind p hp)
  | some q =>
      have hq := List.mem_of_find?_eq_some hfind
      have hkey : q.1 = p.1 := by simpa using List.find?_some hfind
      rw [List.inj_on_of_nodup_map (nodup_written hchange) hq hp hkey]
      rfl

/-- A row the call does not upsert is as it was, or deleted. -/
theorem liveRow_writeData_of_not_written (h : writeData K m clock H change = .ok H') {u : R}
    (hu : u ∉ (change.written K m).map Prod.fst) :
    liveRow H' u = if u ∈ change.deleted K m then none else liveRow H u := by
  rw [liveRow_writeData h]
  have hfind : (change.written K m).find? (fun p => p.1 = u) = none := by
    rw [List.find?_eq_none]
    intro p hp hpu
    exact hu (List.mem_map.mpr ⟨p, hp, of_decide_eq_true hpu⟩)
  rw [hfind]
  rfl

end Call

end Penca
