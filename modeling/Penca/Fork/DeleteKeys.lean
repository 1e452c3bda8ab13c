import Penca.Lib.Inversion
import Penca.Lib.Keyed
import Penca.Lib.Runs
import Penca.Query.Resolve

/-!
# `Fork.DeleteKeys` — the key columns of a delete log

A row of a `delete_log` carries, beside `row_uuid`, the primary key columns of the row it deletes; audit, Persist and
the delete attribution of Snapshot read the key from them. The rows come from two places:

- **`WriteData`** decodes batches of keys, validates them, derives each `row_uuid` from the key and inserts both
  (`insertDeletePkBatches`).
- **`MergeBranch`** inserts the surviving tombstones of the source's hot logs with an `INSERT ... SELECT` that names
  `row_uuid` only, so the key columns of the new rows are NULL (`mergeTableData`).

Nothing removes a row in these runs, so every delete log holds matching keys exactly if no step added a row whose key
does not match (`keysMatch_iff`): no merge copied a tombstone, given that the key columns keep the texts of the keys.
-/

namespace Penca.DeleteKeys

open Newest

/-! ## Row identity -/

/-- What row identity takes from outside the repository: `xxh3_128`, the texts of uuids and of values
    (`array_value_to_string`), and what a Postgres column gives back for the literal of a value. A column of type
    `DATE`, `TIME` or `TIMESTAMP` does not keep a time of day, respectively the nanoseconds, of its value. -/
structure KeyCodec (U K : Type) where
  xxh3 : String → U
  uuidText : U → String
  display : K → String
  stored : K → K

/-- The errors of the write path: `ApiError::InvalidRequest`. -/
inductive WriteError where
  | invalidRequest (message : String)
  deriving DecidableEq, Repr

variable {B U K D : Type}

namespace KeyCodec

def deterministicUuidFrom (c : KeyCodec U K) (parts : List String) : U :=
  c.xxh3 ("\x00".intercalate parts)

def rowUuidForPk (c : KeyCodec U K) (tableUuid : U) (pkValues : List String) : U :=
  c.deterministicUuidFrom (c.uuidText tableUuid :: pkValues)

def versionUuid (c : KeyCodec U K) (rowUuid txUuid : U) : U :=
  c.deterministicUuidFrom [c.uuidText rowUuid, c.uuidText txUuid]

/-- `array_value_to_string`: NULL is the empty text. -/
def arrayValueToString (c : KeyCodec U K) : Option K → String
  | none   => ""
  | some k => c.display k

/-- `row_uuid_for_row`, for the key columns of one row. -/
def rowUuidForRow (c : KeyCodec U K) (tableUuid : U) (key : List (Option K)) : U :=
  c.rowUuidForPk tableUuid (key.map c.arrayValueToString)

end KeyCodec

/-! ## Batches -/

structure Field (D : Type) where
  name : String
  dataType : D
  deriving DecidableEq, Repr

/-- An Arrow batch, by rows. -/
structure RecordBatch (D K : Type) where
  schema : List (Field D)
  rows : List (List (Option K))
  width : ∀ row ∈ rows, row.length = schema.length

/-- The table as the write path resolves it. `CREATE TABLE` refuses an empty key. -/
structure TableRow (U D : Type) where
  tableUuid : U
  userSchema : List (Field D)
  primaryKeys : List String
  keyed : primaryKeys ≠ []

/-- The first key column that holds a NULL. -/
def nullPk (keys : List (List (Option K))) (primaryKeys : List String) : Option String :=
  (primaryKeys.zipIdx.find? (fun p => keys.any (fun key => (key[p.2]?).join.isNone))).map Prod.fst

def ensureNoNullPks (keys : List (List (Option K))) (primaryKeys : List String) (field : String) :
    Except WriteError Unit :=
  match nullPk keys primaryKeys with
  | some pk => .error (.invalidRequest (field ++ " PK column '" ++ pk ++
      "' contains null values; primary keys cannot be null"))
  | none    => .ok ()

/-- The loop over the columns of a key batch: each has the declared type. -/
def checkPkTypes [DecidableEq D] [Repr D] (userSchema : List (Field D)) (field : String) :
    List (String × Field D) → Except WriteError Unit
  | []                   => .ok ()
  | (pk, column) :: rest =>
      match userSchema.find? (fun f => f.name = pk) with
      | none          => .error (.invalidRequest ("primary key '" ++ pk ++ "' not in user_schema"))
      | some declared =>
          if column.dataType = declared.dataType then checkPkTypes userSchema field rest
          else .error (.invalidRequest (field ++ " PK batch column '" ++ pk ++ "' has type " ++
            reprStr column.dataType ++ ", table declared " ++ reprStr declared.dataType))

def validatePkBatchSchema [DecidableEq D] [Repr D] (batch : RecordBatch D K) (table : TableRow U D)
    (field : String) : Except WriteError Unit :=
  let batchCols := batch.schema.map Field.name
  if batchCols = table.primaryKeys then do
    checkPkTypes table.userSchema field (table.primaryKeys.zip batch.schema)
    ensureNoNullPks batch.rows table.primaryKeys field
  else .error (.invalidRequest (field ++ " PK batch column order " ++ reprStr batchCols ++
    " does not match table's declared primary_keys " ++ reprStr table.primaryKeys))

def KeyCodec.validatedRowUuidsFromBatch [DecidableEq D] [Repr D] (c : KeyCodec U K) (batch : RecordBatch D K)
    (table : TableRow U D) (field : String) : Except WriteError (List U) := do
  validatePkBatchSchema batch table field
  pure (batch.rows.map (c.rowUuidForRow table.tableUuid))

/-! ## The hot logs of a table on a branch -/

/-- A row of the `upsert_log`; its user columns play no part here. -/
structure UpsertRow (U : Type) where
  versionUuid : U
  rowUuid : U
  txUuid : U
  writeSeqNum : Int
  deriving DecidableEq, Repr

/-- A row of the `delete_log`, with the primary key columns. -/
structure DeleteRow (U K : Type) where
  versionUuid : U
  rowUuid : U
  pk : List (Option K)
  txUuid : U
  writeSeqNum : Int
  deriving DecidableEq, Repr

structure TxCommitRow (U : Type) where
  txUuid : U
  commitSeqNum : Int
  commitMicros : Int
  deriving DecidableEq, Repr

/-- A table on a branch, with the branch's logs as far as writes and merges read them. -/
structure BranchTable (U K : Type) where
  forkCommitSeqNum : Int
  commitTxLog : List (TxCommitRow U)
  commitSeqCounter : Int
  txTableLog : List U
  upsertLog : List (UpsertRow U)
  deleteLog : List (DeleteRow U K)
  writeSequence : Int

/-- The key of the row is in its own columns: none is NULL, and `row_uuid` is the one of their values. -/
def KeyCodec.KeyMatches (c : KeyCodec U K) (tableUuid : U) (row : DeleteRow U K) : Prop :=
  (∀ v ∈ row.pk, v.isSome = true) ∧ row.rowUuid = c.rowUuidForRow tableUuid row.pk

instance [DecidableEq U] (c : KeyCodec U K) (tableUuid : U) (row : DeleteRow U K) :
    Decidable (c.KeyMatches tableUuid row) :=
  inferInstanceAs (Decidable (_ ∧ _))

/-- Postgres keeps the text of the value. -/
def KeyCodec.KeepsText (c : KeyCodec U K) (v : Option K) : Prop :=
  c.arrayValueToString (v.map c.stored) = c.arrayValueToString v

instance (c : KeyCodec U K) (v : Option K) : Decidable (c.KeepsText v) := inferInstanceAs (Decidable (_ = _))

/-- Every row of the delete log has its own key in its key columns. -/
def BranchTable.KeysMatch (c : KeyCodec U K) (tableUuid : U) (t : BranchTable U K) : Prop :=
  ∀ row ∈ t.deleteLog, c.KeyMatches tableUuid row

/-- A change of `WriteData`: the batches of the two payloads. -/
structure WriteChange (D K : Type) where
  deletes : List (RecordBatch D K)
  upserts : List (RecordBatch D K)

namespace BranchTable

/-- An empty table on a branch forked at `forkSeq`. -/
def empty (forkSeq : Int) : BranchTable U K where
  forkCommitSeqNum := forkSeq
  commitTxLog := []
  commitSeqCounter := forkSeq + 1
  txTableLog := []
  upsertLog := []
  deleteLog := []
  writeSequence := 0

variable [DecidableEq U]

/-- `INSERT ... ON CONFLICT (version_uuid) DO NOTHING`. The default of `write_seq_num` is drawn also for a row that
    conflicts. -/
def insertDelete (t : BranchTable U K) (row : Int → DeleteRow U K) : BranchTable U K :=
  { t with
    deleteLog := Keyed.insertNew DeleteRow.versionUuid t.deleteLog (row t.writeSequence)
    writeSequence := t.writeSequence + 1 }

/-- `insert_deletes`: the key columns hold what Postgres keeps of the literals. -/
def insertDeletes (c : KeyCodec U K) (t : BranchTable U K) (batch : RecordBatch D K) (rowUuids : List U) (txUuid : U) :
    BranchTable U K :=
  (batch.rows.zip rowUuids).foldl (fun t p =>
    t.insertDelete (fun n => ⟨c.versionUuid p.2 txUuid, p.2, p.1.map (Option.map c.stored), txUuid, n⟩)) t

def insertDeletePkBatches [DecidableEq D] [Repr D] (c : KeyCodec U K) (table : TableRow U D) (txUuid : U) :
    BranchTable U K → List (RecordBatch D K) → Except WriteError (BranchTable U K)
  | t, []            => .ok t
  | t, batch :: rest =>
      if batch.rows.isEmpty then insertDeletePkBatches c table txUuid t rest
      else do
        let rowUuids ← c.validatedRowUuidsFromBatch batch table "deletes"
        insertDeletePkBatches c table txUuid (t.insertDeletes c batch rowUuids txUuid) rest

/-- `ON CONFLICT (version_uuid) DO UPDATE` sets user columns only. -/
def insertUpsert (c : KeyCodec U K) (txUuid : U) (t : BranchTable U K) (rowUuid : U) : BranchTable U K :=
  { t with
    upsertLog := Keyed.insertNew UpsertRow.versionUuid t.upsertLog
      ⟨c.versionUuid rowUuid txUuid, rowUuid, txUuid, t.writeSequence⟩
    writeSequence := t.writeSequence + 1 }

/-- The key columns of an upsert batch, found by name. -/
def pkColumns (batch : RecordBatch D K) : List String → Except WriteError (List Nat)
  | []        => .ok []
  | pk :: pks =>
      match batch.schema.findIdx? (fun f => f.name = pk) with
      | none   => .error (.invalidRequest ("primary key column '" ++ pk ++ "' not found in batch"))
      | some i => do
          let is ← pkColumns batch pks
          pure (i :: is)

/-- The row loop of `insert_rows`: no `row_uuid` twice in the upserts of one change. -/
def checkDuplicates (c : KeyCodec U K) (tableUuid : U) : List U → List U → Except WriteError (List U)
  | seen, []        => .ok seen
  | seen, r :: rest =>
      if r ∈ seen then .error (.invalidRequest ("WriteData upserts contain duplicate row_uuid " ++ c.uuidText r ++
        " for table " ++ c.uuidText tableUuid))
      else checkDuplicates c tableUuid (seen ++ [r]) rest

def insertRows (c : KeyCodec U K) (table : TableRow U D) (txUuid : U) :
    List U → BranchTable U K → List (RecordBatch D K) → Except WriteError (BranchTable U K)
  | _,    t, []            => .ok t
  | seen, t, batch :: rest =>
      if batch.rows.isEmpty then insertRows c table txUuid seen t rest
      else do
        let cols ← pkColumns batch table.primaryKeys
        let keys := batch.rows.map (fun row => cols.map (fun i => (row[i]?).join))
        ensureNoNullPks keys table.primaryKeys "upserts"
        let rowUuids := keys.map (c.rowUuidForRow table.tableUuid)
        let seen ← checkDuplicates c table.tableUuid seen rowUuids
        insertRows c table txUuid seen (rowUuids.foldl (insertUpsert c txUuid) t) rest

/-- `apply_change`: deletes first, then upserts; `tx_table_log` gets a row if anything was written. -/
def applyChange [DecidableEq D] [Repr D] (c : KeyCodec U K) (table : TableRow U D) (t : BranchTable U K)
    (change : WriteChange D K) (txUuid : U) : Except WriteError (BranchTable U K) := do
  let t ← insertDeletePkBatches c table txUuid t change.deletes
  let t ← insertRows c table txUuid [] t change.upserts
  if (change.deletes ++ change.upserts).any (fun batch => !batch.rows.isEmpty) then
    pure { t with txTableLog := Keyed.insertNew id t.txTableLog txUuid }
  else pure t

/-- The commit row of a transaction. A second commit of one transaction, or one at a taken timestamp, fails. -/
def commitTx (t : BranchTable U K) (txUuid : U) (commitMicros : Int) : Option (BranchTable U K) :=
  if t.commitTxLog.any (fun row => row.txUuid = txUuid || row.commitMicros = commitMicros) then none
  else some
    { t with
      commitTxLog := t.commitTxLog ++ [⟨txUuid, t.commitSeqCounter, commitMicros⟩]
      commitSeqCounter := t.commitSeqCounter + 1 }

/-! ## The merge -/

/-- A log row joined with `source_committed_tx`, ranked by `commit_micros`. -/
def stampCommitted (t : BranchTable U K) (txUuid rowUuid : U) (change : Change Unit) (writeSeqNum : Int) :
    List (LogEntry U Unit) :=
  (t.commitTxLog.filter (fun row => row.txUuid = txUuid)).map (fun row =>
    ⟨rowUuid, change, row.commitMicros, writeSeqNum, row.commitMicros⟩)

/-- The rows of the two hot logs whose transactions are committed. -/
def committedRows (t : BranchTable U K) : List (LogEntry U Unit) :=
  t.upsertLog.flatMap (fun u => t.stampCommitted u.txUuid u.rowUuid (.upsert ()) u.writeSeqNum) ++
  t.deleteLog.flatMap (fun d => t.stampCommitted d.txUuid d.rowUuid .delete d.writeSeqNum)

/-- The upserts and tombstones that win their row on the source. -/
def survivors (t : BranchTable U K) (kind : LogKind) : List (LogEntry U Unit) :=
  ofKind kind (mergeResolved t.committedRows)

/-- One upsert of the merge. `genRandomUuid` mints the versions. -/
def mergeUpsert (mergeTxUuid : U) (genRandomUuid : LogKind → U → U) (t : BranchTable U K) (e : LogEntry U Unit) :
    BranchTable U K :=
  { t with
    upsertLog := t.upsertLog ++ [⟨genRandomUuid .upsertLog e.rowUuid, e.rowUuid, mergeTxUuid, t.writeSequence⟩]
    writeSequence := t.writeSequence + 1 }

/-- `merge_table_data`, the statement for the upserts. -/
def mergeUpserts (t source : BranchTable U K) (mergeTxUuid : U) (genRandomUuid : LogKind → U → U) : BranchTable U K :=
  (source.survivors .upsertLog).foldl (mergeUpsert mergeTxUuid genRandomUuid) t

/-- One tombstone of the merge: `(version_uuid, row_uuid, tx_uuid)` are given, the key columns are not. -/
def mergeDelete (primaryKeys : List String) (mergeTxUuid : U) (genRandomUuid : LogKind → U → U) (t : BranchTable U K)
    (e : LogEntry U Unit) : BranchTable U K :=
  { t with
    deleteLog := t.deleteLog ++ [⟨genRandomUuid .deleteLog e.rowUuid, e.rowUuid, primaryKeys.map (fun _ => none),
      mergeTxUuid, t.writeSequence⟩]
    writeSequence := t.writeSequence + 1 }

/-- `merge_table_data`, the statement for the tombstones. -/
def mergeDeletes (t source : BranchTable U K) (primaryKeys : List String) (mergeTxUuid : U)
    (genRandomUuid : LogKind → U → U) : BranchTable U K :=
  (source.survivors .deleteLog).foldl (mergeDelete primaryKeys mergeTxUuid genRandomUuid) t

/-- `merge_table_data`. The statements fail on a version that exists. -/
def mergeTableData (t source : BranchTable U K) (primaryKeys : List String) (mergeTxUuid : U)
    (genRandomUuid : LogKind → U → U) : Option (BranchTable U K) :=
  let t' := (t.mergeUpserts source mergeTxUuid genRandomUuid).mergeDeletes source primaryKeys mergeTxUuid genRandomUuid
  if (t'.upsertLog.map UpsertRow.versionUuid).Nodup ∧ (t'.deleteLog.map DeleteRow.versionUuid).Nodup then some t'
  else none

/-- `committed_table_uuids` names the table. -/
def touched (t : BranchTable U K) : Bool :=
  t.txTableLog.any (fun tx => t.commitTxLog.any (fun row => row.txUuid = tx))

/-- `merge_branch`: the fast-forward guard, the merge transaction on the target, the copy of a touched table. -/
def mergeBranch (target source : BranchTable U K) (primaryKeys : List String) (mergeTxUuid : U) (commitMicros : Int)
    (genRandomUuid : LogKind → U → U) : Option (BranchTable U K) :=
  if target.commitTxLog.any (fun row => source.forkCommitSeqNum < row.commitSeqNum) then none
  else do
    let t ← target.commitTx mergeTxUuid commitMicros
    if source.touched then
      let t ← t.mergeTableData source primaryKeys mergeTxUuid genRandomUuid
      pure { t with txTableLog := Keyed.insertNew id t.txTableLog mergeTxUuid }
    else pure t

end BranchTable

/-! ## What a write adds -/

section Keys

variable {c : KeyCodec U K} {table : TableRow U D} {t t' : BranchTable U K}

theorem isSome_of_ensureNoNullPks {keys : List (List (Option K))} {primaryKeys : List String} {field : String}
    (h : ensureNoNullPks keys primaryKeys field = .ok ()) {key : List (Option K)} (hkey : key ∈ keys)
    (hwidth : key.length = primaryKeys.length) : ∀ v ∈ key, v.isSome = true := by
  have hnone : nullPk keys primaryKeys = none := by
    cases hpk : nullPk keys primaryKeys with
    | none => rfl
    | some pk => simp [ensureNoNullPks, hpk] at h
  intro v hv
  obtain ⟨i, hi, rfl⟩ := List.getElem_of_mem hv
  have hcol : (primaryKeys[i], i) ∈ primaryKeys.zipIdx := by
    rw [List.mk_mem_zipIdx_iff_getElem?]
    exact List.getElem?_eq_getElem (hwidth ▸ hi)
  have hfind := List.find?_eq_none.mp (Option.map_eq_none_iff.mp hnone) _ hcol
  have hval : ¬ ((key[i]?).join.isNone = true) := fun hn => hfind (List.any_eq_true.mpr ⟨key, hkey, hn⟩)
  rw [List.getElem?_eq_getElem hi] at hval
  simpa [Option.isSome_iff_ne_none] using hval

/-- An accepted key batch: the `row_uuid`s of its rows, none of which has a NULL. -/
theorem of_validatedRowUuidsFromBatch [DecidableEq D] [Repr D] {batch : RecordBatch D K} {field : String} {rowUuids : List U}
    (h : c.validatedRowUuidsFromBatch batch table field = .ok rowUuids) :
    rowUuids = batch.rows.map (c.rowUuidForRow table.tableUuid) ∧ ∀ key ∈ batch.rows, ∀ v ∈ key, v.isSome = true := by
  obtain ⟨u, hvalid, hrows⟩ := Inversion.bind_eq_ok_iff.mp h
  refine ⟨(Except.ok.inj hrows).symm, ?_⟩
  simp only [validatePkBatchSchema] at hvalid
  split at hvalid
  case isTrue hcols =>
    obtain ⟨-, -, hnulls⟩ := Inversion.bind_eq_ok_iff.mp hvalid
    intro key hkey
    refine isSome_of_ensureNoNullPks hnulls hkey ?_
    rw [batch.width key hkey, ← hcols, List.length_map]
  case isFalse => cases hvalid

variable [DecidableEq U]

/-- The rows of an accepted batch carry their keys, if the columns keep the texts. -/
theorem BranchTable.KeysMatch.insertDeletes (h : t.KeysMatch c table.tableUuid) {batch : RecordBatch D K}
    (hsome : ∀ key ∈ batch.rows, ∀ v ∈ key, v.isSome = true)
    (hkeeps : ∀ key ∈ batch.rows, ∀ v ∈ key, c.KeepsText v) (txUuid : U) :
    (t.insertDeletes c batch (batch.rows.map (c.rowUuidForRow table.tableUuid)) txUuid).KeysMatch c
      table.tableUuid := by
  unfold BranchTable.insertDeletes
  generalize hzip : batch.rows.zip (batch.rows.map (c.rowUuidForRow table.tableUuid)) = pairs
  have hpairs : ∀ p ∈ pairs, p.1 ∈ batch.rows ∧ p.2 = c.rowUuidForRow table.tableUuid p.1 := by
    intro p hp
    rw [← hzip, ← List.map_prod_left_eq_zip, List.mem_map] at hp
    obtain ⟨key, hkey, rfl⟩ := hp
    exact ⟨hkey, rfl⟩
  clear hzip
  induction pairs generalizing t with
  | nil => exact h
  | cons p pairs ih =>
      refine ih ?_ (fun q hq => hpairs q (List.mem_cons_of_mem _ hq))
      obtain ⟨hkey, hrow⟩ := hpairs p List.mem_cons_self
      intro row hmem
      rcases Keyed.mem_insertNew hmem with hold | rfl
      · exact h row hold
      · refine ⟨?_, ?_⟩
        · intro v hv
          obtain ⟨k, hk, rfl⟩ := List.mem_map.mp hv
          rw [Option.isSome_map]
          exact hsome p.1 hkey k hk
        · have htexts : (p.1.map (Option.map c.stored)).map c.arrayValueToString = p.1.map c.arrayValueToString := by
            rw [List.map_map]
            exact List.map_congr_left (fun v hv => hkeeps p.1 hkey v hv)
          show p.2 = c.rowUuidForPk table.tableUuid ((p.1.map (Option.map c.stored)).map c.arrayValueToString)
          rw [htexts]
          exact hrow

theorem BranchTable.deleteLog_insertDeletes {batch : RecordBatch D K} {rowUuids : List U} {txUuid : U} :
    t.deleteLog ⊆ (t.insertDeletes c batch rowUuids txUuid).deleteLog := by
  unfold BranchTable.insertDeletes
  generalize batch.rows.zip rowUuids = pairs
  induction pairs generalizing t with
  | nil => exact List.Subset.refl _
  | cons p pairs ih => exact fun row hrow => ih (Keyed.mem_insertNew_of_mem hrow)

/-- `insert_delete_pk_batches` that succeeds keeps the log and adds matching rows. -/
theorem of_insertDeletePkBatches [DecidableEq D] [Repr D] {txUuid : U} {batches : List (RecordBatch D K)}
    (h : BranchTable.insertDeletePkBatches c table txUuid t batches = .ok t') :
    t.deleteLog ⊆ t'.deleteLog ∧ (t.KeysMatch c table.tableUuid →
      (∀ batch ∈ batches, ∀ key ∈ batch.rows, ∀ v ∈ key, c.KeepsText v) → t'.KeysMatch c table.tableUuid) := by
  induction batches generalizing t with
  | nil =>
      cases h
      exact ⟨List.Subset.refl _, fun hmatch _ => hmatch⟩
  | cons batch rest ih =>
      rw [BranchTable.insertDeletePkBatches] at h
      split at h
      · obtain ⟨hsub, hkeep⟩ := ih h
        exact ⟨hsub, fun hmatch hkeeps => hkeep hmatch (fun b hb => hkeeps b (List.mem_cons_of_mem _ hb))⟩
      · obtain ⟨rowUuids, hvalid, hrest⟩ := Inversion.bind_eq_ok_iff.mp h
        obtain ⟨rfl, hsome⟩ := of_validatedRowUuidsFromBatch hvalid
        obtain ⟨hsub, hkeep⟩ := ih hrest
        refine ⟨List.Subset.trans BranchTable.deleteLog_insertDeletes hsub, fun hmatch hkeeps => ?_⟩
        exact hkeep (hmatch.insertDeletes hsome (hkeeps batch List.mem_cons_self) txUuid)
          (fun b hb => hkeeps b (List.mem_cons_of_mem _ hb))

theorem deleteLog_insertUpserts {txUuid : U} (rowUuids : List U) :
    (rowUuids.foldl (BranchTable.insertUpsert c txUuid) t).deleteLog = t.deleteLog := by
  induction rowUuids generalizing t with
  | nil => rfl
  | cons r rowUuids ih => exact ih

theorem deleteLog_insertRows {txUuid : U} {seen : List U} {batches : List (RecordBatch D K)}
    (h : BranchTable.insertRows c table txUuid seen t batches = .ok t') : t'.deleteLog = t.deleteLog := by
  induction batches generalizing t seen with
  | nil =>
      cases h
      rfl
  | cons batch rest ih =>
      rw [BranchTable.insertRows] at h
      split at h
      · exact ih h
      · obtain ⟨cols, -, h⟩ := Inversion.bind_eq_ok_iff.mp h
        obtain ⟨-, -, h⟩ := Inversion.bind_eq_ok_iff.mp h
        obtain ⟨seen', -, h⟩ := Inversion.bind_eq_ok_iff.mp h
        rw [ih h, deleteLog_insertUpserts]

/-- **`WriteData`** that succeeds keeps the delete log and adds matching rows. -/
theorem of_applyChange [DecidableEq D] [Repr D] {change : WriteChange D K} {txUuid : U} (h : t.applyChange c table change txUuid = .ok t') :
    t.deleteLog ⊆ t'.deleteLog ∧ (t.KeysMatch c table.tableUuid →
      (∀ batch ∈ change.deletes, ∀ key ∈ batch.rows, ∀ v ∈ key, c.KeepsText v) →
      t'.KeysMatch c table.tableUuid) := by
  obtain ⟨t₁, hdeletes, h⟩ := Inversion.bind_eq_ok_iff.mp h
  obtain ⟨t₂, hupserts, h⟩ := Inversion.bind_eq_ok_iff.mp h
  have hlog : t'.deleteLog = t₁.deleteLog := by
    rw [← deleteLog_insertRows hupserts]
    split at h <;> cases h <;> rfl
  have hspec := of_insertDeletePkBatches hdeletes
  unfold BranchTable.KeysMatch at hspec ⊢
  rwa [hlog]

end Keys

/-! ## What a merge adds -/

section Merge

variable [DecidableEq U] {c : KeyCodec U K} {table : TableRow U D} {t t' source : BranchTable U K} {mergeTxUuid : U}
  {genRandomUuid : LogKind → U → U}

theorem deleteLog_mergeUpserts : (t.mergeUpserts source mergeTxUuid genRandomUuid).deleteLog = t.deleteLog := by
  unfold BranchTable.mergeUpserts
  generalize source.survivors .upsertLog = es
  induction es generalizing t with
  | nil => rfl
  | cons e es ih => exact ih

/-- The tombstones arrive one by one, each with its key columns NULL. -/
theorem exists_deleteLog_mergeDeletes (t source : BranchTable U K) (primaryKeys : List String) (mergeTxUuid : U)
    (genRandomUuid : LogKind → U → U) : ∃ added : List (DeleteRow U K),
    (t.mergeDeletes source primaryKeys mergeTxUuid genRandomUuid).deleteLog = t.deleteLog ++ added ∧
    added.map DeleteRow.rowUuid = (source.survivors .deleteLog).map LogEntry.rowUuid ∧
    ∀ row ∈ added, row.pk = primaryKeys.map (fun _ => none) := by
  unfold BranchTable.mergeDeletes
  generalize source.survivors .deleteLog = es
  induction es generalizing t with
  | nil => exact ⟨[], by simp, rfl, by simp⟩
  | cons e es ih =>
      obtain ⟨added, hlog, hrows, hnull⟩ := @ih (t.mergeDelete primaryKeys mergeTxUuid genRandomUuid e)
      refine ⟨⟨genRandomUuid .deleteLog e.rowUuid, e.rowUuid, primaryKeys.map (fun _ => none), mergeTxUuid,
        t.writeSequence⟩ :: added, ?_, ?_, ?_⟩
      · rw [List.foldl_cons, hlog, BranchTable.mergeDelete, List.append_assoc, List.singleton_append]
      · rw [List.map_cons, hrows, List.map_cons]
      · intro row hrow
        rcases List.mem_cons.mp hrow with rfl | hrow
        · rfl
        · exact hnull row hrow

theorem exists_deleteLog_mergeBranch {commitMicros : Int}
    (h : t.mergeBranch source table.primaryKeys mergeTxUuid commitMicros genRandomUuid = some t') :
    ∃ added : List (DeleteRow U K), t'.deleteLog = t.deleteLog ++ added ∧
      (added = [] ↔ (source.touched = true → source.survivors .deleteLog = [])) ∧
      ∀ row ∈ added, ¬ c.KeyMatches table.tableUuid row := by
  unfold BranchTable.mergeBranch at h
  split at h
  · cases h
  obtain ⟨t₁, hcommit, h⟩ := Option.bind_eq_some_iff.mp h
  have hlog₁ : t₁.deleteLog = t.deleteLog := by
    unfold BranchTable.commitTx at hcommit
    split at hcommit <;> cases hcommit
    rfl
  split at h
  case isFalse htouched =>
    cases h
    exact ⟨[], by rw [hlog₁, List.append_nil], by simp [htouched], by simp⟩
  case isTrue htouched =>
    obtain ⟨t₂, hdata, h⟩ := Option.bind_eq_some_iff.mp h
    cases h
    simp only [BranchTable.mergeTableData] at hdata
    split at hdata
    case isFalse => cases hdata
    case isTrue =>
      obtain ⟨added, hlog, hrows, hnull⟩ := exists_deleteLog_mergeDeletes (t₁.mergeUpserts source mergeTxUuid
        genRandomUuid) source table.primaryKeys mergeTxUuid genRandomUuid
      refine ⟨added, ?_, ?_, ?_⟩
      · rw [← Option.some.inj hdata]
        rw [deleteLog_mergeUpserts, hlog₁] at hlog
        exact hlog
      · have hlen := congrArg List.length hrows
        rw [List.length_map, List.length_map] at hlen
        rw [← List.length_eq_zero_iff, hlen, List.length_eq_zero_iff]
        exact ⟨fun hnil _ => hnil, fun hnil => hnil htouched⟩
      · intro row hrow hmatch
        obtain ⟨pk, pks, hpks⟩ := List.exists_cons_of_ne_nil table.keyed
        have hnone : (none : Option K) ∈ row.pk := by
          rw [hnull row hrow, hpks]
          exact List.mem_cons_self
        exact absurd (hmatch.1 none hnone) (by simp)

end Merge

/-! ## Runs -/

/-- What happens to the table on its branches. An auto-commit `WriteData` is a write followed by its commit. -/
inductive TableEvent (B U K D : Type) where
  | writeData (branch : B) (change : WriteChange D K) (txUuid : U)
  | commitTx (branch : B) (txUuid : U) (commitMicros : Int)
  | mergeBranch (source target : B) (mergeTxUuid : U) (commitMicros : Int) (genRandomUuid : LogKind → U → U)

variable [DecidableEq B] [DecidableEq U] [DecidableEq D] [Repr D]

/-- A write that fails is rolled back. -/
def tableStep (c : KeyCodec U K) (table : TableRow U D) (s : B → BranchTable U K) :
    TableEvent B U K D → Option (B → BranchTable U K)
  | .writeData branch change txUuid =>
      match (s branch).applyChange c table change txUuid with
      | .ok t    => some (Function.update s branch t)
      | .error _ => some s
  | .commitTx branch txUuid commitMicros =>
      ((s branch).commitTx txUuid commitMicros).map (Function.update s branch)
  | .mergeBranch source target mergeTxUuid commitMicros genRandomUuid =>
      ((s target).mergeBranch (s source) table.primaryKeys mergeTxUuid commitMicros genRandomUuid).map
        (Function.update s target)

/-- The keys that a write deletes keep their texts. -/
def KeepsTexts (c : KeyCodec U K) (table : TableRow U D) (s : B → BranchTable U K) : TableEvent B U K D → Prop
  | .writeData branch change txUuid => ((s branch).applyChange c table change txUuid).isOk = true →
      ∀ batch ∈ change.deletes, ∀ key ∈ batch.rows, ∀ v ∈ key, c.KeepsText v
  | .commitTx _ _ _                 => True
  | .mergeBranch _ _ _ _ _          => True

/-- A merge finds no row on the source whose newest hot version is a delete. -/
def CopiesNoTombstone (s : B → BranchTable U K) : TableEvent B U K D → Prop
  | .writeData _ _ _            => True
  | .commitTx _ _ _             => True
  | .mergeBranch source _ _ _ _ => (s source).touched = true → (s source).survivors .deleteLog = []

section Runs

variable {c : KeyCodec U K} {table : TableRow U D} {s s' : B → BranchTable U K} {ev : TableEvent B U K D}

omit [DecidableEq U] in
/-- A property of the delete logs after a step that changes one branch. -/
theorem keysMatch_update {b : B} {t : BranchTable U K} (tableUuid : U) :
    (∀ b', (Function.update s b t b').KeysMatch c tableUuid) ↔
      t.KeysMatch c tableUuid ∧ ∀ b', b' ≠ b → (s b').KeysMatch c tableUuid := by
  constructor
  · intro h
    refine ⟨by simpa using h b, fun b' hb' => ?_⟩
    have := h b'
    rwa [Function.update_of_ne hb'] at this
  · rintro ⟨ht, hs⟩ b'
    by_cases hb : b' = b
    · subst hb
      simpa using ht
    · rw [Function.update_of_ne hb]
      exact hs b' hb

/-- **Step lemma.** What a step does to the delete log of the branch it writes to. -/
theorem tableStep_cases (h : tableStep c table s ev = some s') :
    s' = s ∧ CopiesNoTombstone s ev ∨ ∃ b t', s' = Function.update s b t' ∧ (s b).deleteLog ⊆ t'.deleteLog ∧
      ((s b).KeysMatch c table.tableUuid → KeepsTexts c table s ev →
        (t'.KeysMatch c table.tableUuid ↔ CopiesNoTombstone s ev)) := by
  cases ev with
  | writeData b change txUuid =>
      simp only [tableStep] at h
      split at h
      case h_2 => exact .inl ⟨(Option.some.inj h).symm, trivial⟩
      case h_1 t hok =>
        obtain ⟨hsub, hkeep⟩ := of_applyChange hok
        refine .inr ⟨b, t, (Option.some.inj h).symm, hsub, fun hmatch hkeeps => ?_⟩
        exact iff_of_true (hkeep hmatch (hkeeps (by rw [hok]; rfl))) trivial
  | commitTx b txUuid commitMicros =>
      obtain ⟨t, hcommit, rfl⟩ := Option.map_eq_some_iff.mp h
      have hlog : t.deleteLog = (s b).deleteLog := by
        unfold BranchTable.commitTx at hcommit
        split at hcommit <;> cases hcommit
        rfl
      refine .inr ⟨b, t, rfl, hlog ▸ List.Subset.refl _, fun hmatch _ => iff_of_true ?_ trivial⟩
      unfold BranchTable.KeysMatch
      rwa [hlog]
  | mergeBranch source target mergeTxUuid commitMicros genRandomUuid =>
      obtain ⟨t, hmerge, rfl⟩ := Option.map_eq_some_iff.mp h
      obtain ⟨added, hlog, hnil, hnot⟩ := exists_deleteLog_mergeBranch (c := c) hmerge
      refine .inr ⟨target, t, rfl, hlog ▸ List.subset_append_left _ _, fun hmatch _ => ?_⟩
      show _ ↔ ((s source).touched = true → (s source).survivors .deleteLog = [])
      rw [← hnil]
      constructor
      · intro hmatch'
        refine List.eq_nil_iff_forall_not_mem.mpr (fun row hrow => hnot row hrow (hmatch' row ?_))
        rw [hlog]
        exact List.mem_append_right _ hrow
      · rintro rfl row hrow
        rw [hlog, List.append_nil] at hrow
        exact hmatch row hrow

/-- **The key columns of the delete logs.** In every run of `WriteData` and `MergeBranch` calls in which the key
    columns keep the texts of the deleted keys, every row of every branch's delete log has the `row_uuid` of its own
    key columns exactly if no merge met a row of its source whose newest hot version is a delete. -/
theorem keysMatch_iff {fork : B → Int} {evs : List (TableEvent B U K D)}
    (hkeeps : Runs.Meets (tableStep c table) (KeepsTexts c table) (fun b => .empty (fork b)) evs)
    (hrun : Runs.run (tableStep c table) (fun b => .empty (fork b)) evs = some s) :
    (∀ b, (s b).KeysMatch c table.tableUuid) ↔
      Runs.Meets (tableStep c table) CopiesNoTombstone (fun b => .empty (fork b)) evs := by
  refine Runs.iff_meets_of_step (P := fun s => ∀ b, (s b).KeysMatch c table.tableUuid) ?_ ?_ ?_ hkeeps hrun
  · intro s ev s' hstep hmatch
    rcases tableStep_cases hstep with ⟨rfl, -⟩ | ⟨b, t', rfl, hsub, -⟩
    · exact hmatch
    · obtain ⟨ht, hothers⟩ := (keysMatch_update table.tableUuid).mp hmatch
      intro b'
      by_cases hb : b' = b
      · subst hb
        exact fun row hrow => ht row (hsub hrow)
      · exact hothers b' hb
  · intro s ev s' hmatch hkeeps hstep
    rcases tableStep_cases hstep with ⟨rfl, hcopies⟩ | ⟨b, t', rfl, -, hiff⟩
    · exact iff_of_true hmatch hcopies
    · rw [keysMatch_update, hiff (hmatch b) hkeeps]
      exact and_iff_left (fun b' _ => hmatch b')
  · exact fun b row hrow => absurd hrow List.not_mem_nil

end Runs

instance (c : KeyCodec U K) (table : TableRow U D) (s : B → BranchTable U K) :
    ∀ ev, Decidable (KeepsTexts c table s ev)
  | .writeData branch change txUuid => inferInstanceAs (Decidable (
      ((s branch).applyChange c table change txUuid).isOk = true →
        ∀ batch ∈ change.deletes, ∀ key ∈ batch.rows, ∀ v ∈ key, c.KeepsText v))
  | .commitTx _ _ _                 => inferInstanceAs (Decidable True)
  | .mergeBranch _ _ _ _ _          => inferInstanceAs (Decidable True)

instance [DecidableEq K] (s : B → BranchTable U K) : ∀ ev : TableEvent B U K D, Decidable (CopiesNoTombstone s ev)
  | .writeData _ _ _            => inferInstanceAs (Decidable True)
  | .commitTx _ _ _             => inferInstanceAs (Decidable True)
  | .mergeBranch source _ _ _ _ => inferInstanceAs (Decidable (
      (s source).touched = true → (s source).survivors .deleteLog = []))

instance (c : KeyCodec U K) (tableUuid : U) (t : BranchTable U K) : Decidable (t.KeysMatch c tableUuid) :=
  inferInstanceAs (Decidable (∀ row ∈ t.deleteLog, _))

/-- Integer keys, with texts for uuids. A column holds the multiples of `step`. -/
def intKeys (step : Int) : KeyCodec String Int where
  xxh3 := id
  uuidText := id
  display := toString
  stored := fun n => n / step * step

def intTable : TableRow String Unit := ⟨"t", [⟨"id", ()⟩], ["id"], by decide⟩

/-- A batch with one key. -/
def oneKey (n : Int) : RecordBatch Unit Int := ⟨[⟨"id", ()⟩], [[some n]], by simp⟩

/-- Branch 1 is forked off branch 0 after its first commit. -/
def forkAfterFirst : Nat → Int := fun b => if b = 0 then -1 else 0

/-- Branch 0 writes row 7; branch 1 changes it by `change` and is merged. -/
def mergeRun (change : WriteChange Unit Int) : List (TableEvent Nat String Int Unit) :=
  [.writeData 0 ⟨[], [oneKey 7]⟩ "tx0", .commitTx 0 "tx0" 10, .writeData 1 change "tx1", .commitTx 1 "tx1" 20,
    .mergeBranch 1 0 "merge" 30 (fun kind r => if kind = .upsertLog then "u" ++ r else "d" ++ r)]

/-- Merging an upsert keeps the keys. -/
theorem keysMatch_mergeRun : ∃ s, Runs.run (tableStep (intKeys 1) intTable) (fun b => .empty (forkAfterFirst b))
    (mergeRun ⟨[], [oneKey 7]⟩) = some s ∧ ∀ b, (s b).KeysMatch (intKeys 1) "t" := by
  have hend : (Runs.run (tableStep (intKeys 1) intTable) (fun b => .empty (forkAfterFirst b))
      (mergeRun ⟨[], [oneKey 7]⟩)).isSome = true := by decide +kernel
  have hkeeps : Runs.Meets (tableStep (intKeys 1) intTable) (KeepsTexts (intKeys 1) intTable)
      (fun b => .empty (forkAfterFirst b)) (mergeRun ⟨[], [oneKey 7]⟩) := by decide +kernel
  obtain ⟨s, hs⟩ := Option.isSome_iff_exists.mp hend
  exact ⟨s, hs, (keysMatch_iff hkeeps hs).mpr (by decide +kernel)⟩

/-- Merging a delete leaves a row without its key on branch 0. And a deleted key loses its text if the column does not
    hold it: a key in nanoseconds is stored in microseconds. -/
theorem keysMatch_fails :
    (∃ s, Runs.run (tableStep (intKeys 1) intTable) (fun b => .empty (forkAfterFirst b))
      (mergeRun ⟨[oneKey 7], []⟩) = some s ∧ ¬ (s 0).KeysMatch (intKeys 1) "t") ∧
    (∃ s, Runs.run (tableStep (intKeys 1000) intTable) (fun b => .empty (forkAfterFirst b))
      [.writeData 0 ⟨[oneKey 1], []⟩ "tx0"] = some s ∧ ¬ (s 0).KeysMatch (intKeys 1000) "t") := by
  have hmerge : (Runs.run (tableStep (intKeys 1) intTable) (fun b => .empty (forkAfterFirst b))
      (mergeRun ⟨[oneKey 7], []⟩)).map (fun s => decide ((s 0).KeysMatch (intKeys 1) "t")) = some false := by
    decide +kernel
  have hwrite : (Runs.run (tableStep (intKeys 1000) intTable) (fun b : Nat => .empty (forkAfterFirst b))
      [.writeData 0 ⟨[oneKey 1], []⟩ "tx0"]).map (fun s => decide ((s 0).KeysMatch (intKeys 1000) "t")) =
        some false := by
    decide +kernel
  obtain ⟨s, hs, hnot⟩ := Option.map_eq_some_iff.mp hmerge
  obtain ⟨s', hs', hnot'⟩ := Option.map_eq_some_iff.mp hwrite
  exact ⟨⟨s, hs, of_decide_eq_false hnot⟩, ⟨s', hs', of_decide_eq_false hnot'⟩⟩

end Penca.DeleteKeys
