import Penca.Lib.Relational
import Penca.Query.Plan
import Penca.Query.Resolve

/-!
# `Query.TwoArm` — the merge query as SQL evaluates it

`Query.Resolve` works with the outcome of the two-arm query. Here the query itself is modelled, clause by clause: the
sources of the two tiers with their visibility and `row_uuid` conditions, the window that ranks each log alone, the
`LEFT JOIN` in each direction with NULL for a missing partner, the two comparison conditions in three-valued logic,
and the `UNION ALL`. The user columns of a row are one value; their names matter because the query refers to columns
by name.

## Contents
- **The query.** `lexComparePredicate`, `buildCompositeMergeResolution`, `twoArmResolveSelect`, `buildMergeResolved`,
  `buildColdMergeResolved`.
- **Its meaning.** `mem_resolve`, `nodup_resolve`: one row per `row_uuid`, the newest entry.
- **Restriction.** `resolve_restrict`: restricting the sources is restricting the result.
- **Refinement.** `resolve_perm_mergeResolved`: over the entries of a tier this is `mergeResolved`.
-/

namespace Penca.TwoArm

open Relational

variable {R V X : Type}

/-! ## The query -/

/-- A row of an upsert source: the shape both tiers hand to the shared resolution. -/
structure UpsertRow (R V : Type) where
  rowUuid      : R
  userCols     : V
  commitMicros : Int
  writeSeqNum  : Int
  commitSeqNum : Int
  deriving DecidableEq, Repr

/-- A row of a delete source, which has no user columns. -/
structure DeleteRow (R : Type) where
  rowUuid      : R
  commitMicros : Int
  writeSeqNum  : Int
  commitSeqNum : Int
  deriving DecidableEq, Repr

/-- `(commit_seq_num, write_seq_num)`, lexicographically. -/
def UpsertRow.key (u : UpsertRow R V) : Int ×ₗ Int := toLex (u.commitSeqNum, u.writeSeqNum)

@[inherit_doc UpsertRow.key]
def DeleteRow.key (d : DeleteRow R) : Int ×ₗ Int := toLex (d.commitSeqNum, d.writeSeqNum)

/-- A row of the result: `row_uuid, <user_cols>, commit_micros, is_delete`. -/
structure ResolvedRow (R V : Type) where
  rowUuid      : R
  userCols     : Option V
  commitMicros : Int
  isDelete     : Bool
  deriving DecidableEq, Repr

/-- The engine the query is emitted for. -/
inductive Dialect where
  | pg
  | df
  deriving DecidableEq, Repr

/-- `Dialect::latest_per_partition`: `DISTINCT ON` for Postgres, `ROW_NUMBER` for DataFusion. -/
def latestPerPartition {α : Type} [DecidableEq R] (dialect : Dialect) (part : α → R) (key : α → Int ×ₗ Int)
    (rows : List α) : List α :=
  match dialect with
  | .pg => distinctOn part key rows
  | .df => rowNumberOne part key rows

/-- `lex_compare_predicate`. -/
def lexComparePredicate (leftA leftB rightA rightB : Option Int) (strictTie : Bool) : Truth :=
  (Truth.compare (fun a b => decide (a > b)) leftA rightA).or
    ((Truth.compare (fun a b => decide (a = b)) leftA rightA).and
      (Truth.compare (fun a b => if strictTie then decide (a > b) else decide (a ≥ b)) leftB rightB))

/-- `upsert_visible_predicate`, over a row of `latest l LEFT JOIN deletes d`. -/
def upsertVisiblePredicate (row : UpsertRow R V × Option (DeleteRow R)) : Truth :=
  (Truth.isNull (row.2.map DeleteRow.rowUuid)).or
    (lexComparePredicate (some row.1.commitSeqNum) (some row.1.writeSeqNum) (row.2.map DeleteRow.commitSeqNum)
      (row.2.map DeleteRow.writeSeqNum) false)

/-- `delete_visible_predicate`, over a row of `deletes d LEFT JOIN latest l`. -/
def deleteVisiblePredicate (row : DeleteRow R × Option (UpsertRow R V)) : Truth :=
  (Truth.isNull (row.2.map UpsertRow.rowUuid)).or
    (lexComparePredicate (some row.1.commitSeqNum) (some row.1.writeSeqNum) (row.2.map UpsertRow.commitSeqNum)
      (row.2.map UpsertRow.writeSeqNum) true)

/-- The projection of the first arm. -/
def upsertColumns (row : UpsertRow R V × Option (DeleteRow R)) : ResolvedRow R V :=
  ⟨row.1.rowUuid, some row.1.userCols, row.1.commitMicros, false⟩

/-- The projection of the second arm: the user columns are those of the joined upsert, or NULL. -/
def deleteColumns (row : DeleteRow R × Option (UpsertRow R V)) : ResolvedRow R V :=
  ⟨row.1.rowUuid, row.2.map UpsertRow.userCols, row.1.commitMicros, true⟩

section Query

variable [DecidableEq R] [DecidableEq X]

/-- The first arm: `FROM latest l LEFT JOIN deletes d ON l.row_uuid = d.row_uuid`. -/
def upsertArm (latest : List (UpsertRow R V)) (deletes : List (DeleteRow R)) : List (ResolvedRow R V) :=
  (where_ upsertVisiblePredicate
    (leftJoin (fun l d => decide (l.rowUuid = d.rowUuid)) latest deletes)).map upsertColumns

/-- The second arm: `FROM deletes d LEFT JOIN latest l ON d.row_uuid = l.row_uuid`. -/
def deleteArm (latest : List (UpsertRow R V)) (deletes : List (DeleteRow R)) : List (ResolvedRow R V) :=
  (where_ deleteVisiblePredicate
    (leftJoin (fun d l => decide (d.rowUuid = l.rowUuid)) deletes latest)).map deleteColumns

/-- `two_arm_resolve_select`: the `UNION ALL` of the arms. -/
def twoArmResolveSelect (latest : List (UpsertRow R V)) (deletes : List (DeleteRow R)) : List (ResolvedRow R V) :=
  upsertArm latest deletes ++ deleteArm latest deletes

/-- `build_composite_merge_resolution` and the final select, over the sources of a tier. -/
def resolve (dialect : Dialect) (upsertSource : List (UpsertRow R V)) (deleteSource : List (DeleteRow R)) :
    List (ResolvedRow R V) :=
  twoArmResolveSelect (latestPerPartition dialect UpsertRow.rowUuid UpsertRow.key upsertSource)
    (latestPerPartition dialect DeleteRow.rowUuid DeleteRow.key deleteSource)

/-! ### Names -/

/-- The select list of an upsert source, of its window and of the `latest` CTE. -/
def upsertColumnNames (userCols : List String) : List String :=
  "row_uuid" :: userCols ++ ["commit_micros", "write_seq_num", "commit_seq_num"]

/-- The select list of a delete source, of its window and of the `deletes` CTE. -/
def deleteColumnNames : List String := ["row_uuid", "commit_micros", "write_seq_num", "commit_seq_num"]

/-- The column the window adds. -/
def rowNumberColumn : Dialect → List String
  | .pg => []
  | .df => ["rn"]

/-- The references of `latest_per_partition` over a source with its own select list: the partition, the order and the
    selected columns, and for DataFusion those of the outer query, where `rn` is a column too. -/
def WindowResolves (dialect : Dialect) (columns : List String) : Prop :=
  NamesResolve columns (["row_uuid", "commit_seq_num", "write_seq_num"] ++ columns) ∧
    NamesResolve (columns ++ rowNumberColumn dialect) (columns ++ rowNumberColumn dialect)

/-- The select list of an arm. -/
def armColumnNames (userCols : List String) : List String := "row_uuid" :: userCols ++ ["commit_micros", "is_delete"]

/-- DataFusion refuses a select in which an alias is the name of another column; Postgres returns both. -/
def OutputAllowed (dialect : Dialect) (columns : List String) : Prop := dialect = .df → columns.Nodup

/-- Every reference of the query stands for one column: those of the two windows, and `l.` and `d.` in the arms; and the
    engine takes the names the arms return. -/
def QueryResolves (dialect : Dialect) (userCols : List String) : Prop :=
  WindowResolves dialect (upsertColumnNames userCols) ∧ WindowResolves dialect deleteColumnNames ∧
    NamesResolve (upsertColumnNames userCols) (upsertColumnNames userCols) ∧
    NamesResolve deleteColumnNames deleteColumnNames ∧ OutputAllowed dialect (armColumnNames userCols)

instance (dialect : Dialect) (userCols : List String) : Decidable (QueryResolves dialect userCols) :=
  inferInstanceAs (Decidable ((_ ∧ _) ∧ (_ ∧ _) ∧ _ ∧ _ ∧ (_ → _)))

/-- What an engine answers to a query it cannot plan. -/
inductive SqlError where
  | ambiguousColumn
  deriving DecidableEq, Repr

/-- The query over the sources of a tier. -/
def runQuery (dialect : Dialect) (userCols : List String) (upsertSource : List (UpsertRow R V))
    (deleteSource : List (DeleteRow R)) : Except SqlError (List (ResolvedRow R V)) :=
  if QueryResolves dialect userCols then .ok (resolve dialect upsertSource deleteSource) else .error .ambiguousColumn

/-! ### The sources of the tiers -/

/-- `row_uuid_in_clause`: an empty list emits no clause. -/
def rowUuidInClause (rowUuids : Option (List R)) (r : R) : Bool :=
  match rowUuids with
  | some (u :: us) => decide (r ∈ u :: us)
  | _              => true

/-- `cold_visibility_clause`. -/
def coldVisibilityClause (committedFrom committedTo commitSeqUpper : Option Int) (commitMicros commitSeqNum : Int) :
    Bool :=
  committedFrom.all (fun min => decide (commitMicros ≥ min)) &&
    committedTo.all (fun max => decide (commitMicros < max)) &&
    commitSeqUpper.all (fun seq => decide (commitSeqNum ≤ seq))

/-- The upsert source of the cold tier, before the `row_uuid` restriction. -/
def coldUpserts (upsertLog : List (UpsertRow R V)) (committedFrom committedTo commitSeqUpper : Option Int) :
    List (UpsertRow R V) :=
  upsertLog.filter (fun u => coldVisibilityClause committedFrom committedTo commitSeqUpper u.commitMicros u.commitSeqNum)

/-- The delete source of the cold tier, before the `row_uuid` restriction. -/
def coldDeletes (deleteLog : List (DeleteRow R)) (committedFrom committedTo commitSeqUpper : Option Int) :
    List (DeleteRow R) :=
  deleteLog.filter (fun d => coldVisibilityClause committedFrom committedTo commitSeqUpper d.commitMicros d.commitSeqNum)

/-- `build_cold_merge_resolved`. -/
def buildColdMergeResolved (dialect : Dialect) (upsertLog : List (UpsertRow R V)) (deleteLog : List (DeleteRow R))
    (userCols : List String) (committedFrom committedTo commitSeqUpper : Option Int) (rowUuids : Option (List R)) :
    Except SqlError (List (ResolvedRow R V)) :=
  runQuery dialect userCols
    ((coldUpserts upsertLog committedFrom committedTo commitSeqUpper).filter (fun u => rowUuidInClause rowUuids u.rowUuid))
    ((coldDeletes deleteLog committedFrom committedTo commitSeqUpper).filter (fun d => rowUuidInClause rowUuids d.rowUuid))

/-- A row of the hot `upsert_log`. -/
structure HotUpsert (R V X : Type) where
  rowUuid     : R
  txUuid      : X
  writeSeqNum : Int
  userCols    : V

/-- A row of the hot `delete_log`. -/
structure HotDelete (R X : Type) where
  rowUuid     : R
  txUuid      : X
  writeSeqNum : Int

/-- A row of `commit_tx_log`. -/
structure CommitTx (X : Type) where
  txUuid       : X
  commitMicros : Int
  commitSeqNum : Int

/-- `ReadSnapshot`, with the snapshot of an open transaction. -/
inductive HotSnapshot (X : Type) where
  | committed (rs : ReadSnapshot)
  | openTx (txUuid : X) (beganAtSeqNum : Int)

/-- `read_snapshot_clause`. -/
def readSnapshotClause (tierSeqLower : Option Int) (snapshot : HotSnapshot X) (c : CommitTx X) : Bool :=
  tierSeqLower.all (fun wPersist => decide (c.commitSeqNum > wPersist)) &&
    match snapshot with
    | .committed (.asOfMicros ts) => decide (c.commitMicros ≤ ts)
    | .committed (.asOfSeq seq)   => decide (c.commitSeqNum ≤ seq)
    | .committed (.latestSeq seq) => decide (c.commitSeqNum ≤ seq)
    | .openTx _ beganAtSeqNum     => decide (c.commitSeqNum < beganAtSeqNum)

/-- `open_tx_union_clause`: the open transaction as a row newer than every commit. -/
def openTxUnionClause : HotSnapshot X → List (CommitTx X)
  | .committed _     => []
  | .openTx txUuid _ => [⟨txUuid, i64Max, i64Max⟩]

/-- The `committed_tx` CTE. -/
def committedTx (commitTxLog : List (CommitTx X)) (tierSeqLower : Option Int) (snapshot : HotSnapshot X) :
    List (CommitTx X) :=
  commitTxLog.filter (readSnapshotClause tierSeqLower snapshot) ++ openTxUnionClause snapshot

/-- The upsert source of the hot tier, before the `row_uuid` restriction. -/
def hotUpserts (upsertLog : List (HotUpsert R V X)) (committed : List (CommitTx X)) : List (UpsertRow R V) :=
  (innerJoin (fun u c => decide (u.txUuid = c.txUuid)) upsertLog committed).map (fun row =>
    ⟨row.1.rowUuid, row.1.userCols, row.2.commitMicros, row.1.writeSeqNum, row.2.commitSeqNum⟩)

/-- The delete source of the hot tier, before the `row_uuid` restriction. -/
def hotDeletes (deleteLog : List (HotDelete R X)) (committed : List (CommitTx X)) : List (DeleteRow R) :=
  (innerJoin (fun d c => decide (d.txUuid = c.txUuid)) deleteLog committed).map (fun row =>
    ⟨row.1.rowUuid, row.2.commitMicros, row.1.writeSeqNum, row.2.commitSeqNum⟩)

/-- `build_merge_resolved`. -/
def buildMergeResolved (dialect : Dialect) (upsertLog : List (HotUpsert R V X)) (deleteLog : List (HotDelete R X))
    (commitTxLog : List (CommitTx X)) (userCols : List String) (tierSeqLower : Option Int) (snapshot : HotSnapshot X)
    (rowUuids : Option (List R)) : Except SqlError (List (ResolvedRow R V)) :=
  runQuery dialect userCols
    ((hotUpserts upsertLog (committedTx commitTxLog tierSeqLower snapshot)).filter
      (fun u => rowUuidInClause rowUuids u.rowUuid))
    ((hotDeletes deleteLog (committedTx commitTxLog tierSeqLower snapshot)).filter
      (fun d => rowUuidInClause rowUuids d.rowUuid))

end Query

/-! ## The comparisons -/

theorem lexComparePredicate_some {a b c d : Int} {strictTie : Bool} :
    lexComparePredicate (some a) (some b) (some c) (some d) strictTie = some true ↔
      if strictTie then toLex (c, d) < toLex (a, b) else toLex (c, d) ≤ toLex (a, b) := by
  rw [lexComparePredicate, Truth.or_eq_true_iff, Truth.and_eq_true_iff]
  cases strictTie <;>
    simp only [Truth.compare, Option.bind_some, Option.map_some, Option.some.injEq, decide_eq_true_eq, if_true,
      Bool.false_eq_true, if_false, Prod.Lex.toLex_le_toLex, Prod.Lex.toLex_lt_toLex] <;>
    omega

/-- An upsert is shown unless a delete is strictly newer. -/
theorem upsertVisiblePredicate_iff {u : UpsertRow R V} {d : Option (DeleteRow R)} :
    upsertVisiblePredicate (u, d) = some true ↔ ∀ x ∈ d, x.key ≤ u.key := by
  rw [upsertVisiblePredicate, Truth.or_eq_true_iff, Truth.isNull_eq_true_iff]
  cases d with
  | none => simp
  | some x =>
      simp only [Option.map_some, reduceCtorEq, false_or, lexComparePredicate_some, Bool.false_eq_true, if_false,
        Option.mem_some_iff, forall_eq']
      rfl

/-- A delete is shown if it is strictly newer than the upsert, or there is none. -/
theorem deleteVisiblePredicate_iff {d : DeleteRow R} {u : Option (UpsertRow R V)} :
    deleteVisiblePredicate (d, u) = some true ↔ ∀ x ∈ u, x.key < d.key := by
  rw [deleteVisiblePredicate, Truth.or_eq_true_iff, Truth.isNull_eq_true_iff]
  cases u with
  | none => simp
  | some x =>
      simp only [Option.map_some, reduceCtorEq, false_or, lexComparePredicate_some, if_true, Option.mem_some_iff,
        forall_eq']
      rfl

/-! ## What the query returns -/

section Meaning

variable [DecidableEq R] {dialect : Dialect} {U : List (UpsertRow R V)} {D : List (DeleteRow R)}

/-- Both dialects select the same rows. -/
theorem latestPerPartition_eq {α : Type} (part : α → R) (key : α → Int ×ₗ Int) (rows : List α) :
    latestPerPartition dialect part key rows = distinctOn part key rows := by
  cases dialect with
  | pg => rfl
  | df => exact rowNumberOne_eq rows

theorem resolve_eq (dialect : Dialect) (U : List (UpsertRow R V)) (D : List (DeleteRow R)) :
    resolve dialect U D = twoArmResolveSelect (distinctOn UpsertRow.rowUuid UpsertRow.key U)
      (distinctOn DeleteRow.rowUuid DeleteRow.key D) := by
  rw [resolve, latestPerPartition_eq, latestPerPartition_eq]

section Arms

variable (hU : KeysDistinct UpsertRow.rowUuid UpsertRow.key U) (hD : KeysDistinct DeleteRow.rowUuid DeleteRow.key D)
include hU hD

theorem mem_upsertArm {row : ResolvedRow R V} :
    row ∈ upsertArm (distinctOn UpsertRow.rowUuid UpsertRow.key U) (distinctOn DeleteRow.rowUuid DeleteRow.key D) ↔
      ∃ u, Greatest UpsertRow.rowUuid UpsertRow.key U u ∧ (∀ d ∈ D, d.rowUuid = u.rowUuid → d.key ≤ u.key) ∧
        row = ⟨u.rowUuid, some u.userCols, u.commitMicros, false⟩ := by
  rw [upsertArm, List.mem_map]
  simp only [mem_where, mem_leftJoin_distinctOn hD, mem_distinctOn hU]
  constructor
  · rintro ⟨⟨u, d⟩, ⟨⟨hu, hpartner⟩, hvisible⟩, rfl⟩
    exact ⟨u, hu, (hpartner.forall_iff (fun _ _ => le_trans)).mp (upsertVisiblePredicate_iff.mp hvisible), rfl⟩
  · rintro ⟨u, hu, hle, rfl⟩
    obtain ⟨d, hpartner⟩ := exists_partner hD u.rowUuid
    exact ⟨(u, d), ⟨⟨hu, hpartner⟩,
      upsertVisiblePredicate_iff.mpr ((hpartner.forall_iff (fun _ _ => le_trans)).mpr hle)⟩, rfl⟩

theorem mem_deleteArm {row : ResolvedRow R V} :
    row ∈ deleteArm (distinctOn UpsertRow.rowUuid UpsertRow.key U) (distinctOn DeleteRow.rowUuid DeleteRow.key D) ↔
      ∃ d l, Greatest DeleteRow.rowUuid DeleteRow.key D d ∧ (∀ u ∈ U, u.rowUuid = d.rowUuid → u.key < d.key) ∧
        Partner UpsertRow.rowUuid UpsertRow.key U d.rowUuid l ∧
        row = ⟨d.rowUuid, l.map UpsertRow.userCols, d.commitMicros, true⟩ := by
  rw [deleteArm, List.mem_map]
  simp only [mem_where, mem_leftJoin_distinctOn hU, mem_distinctOn hD]
  constructor
  · rintro ⟨⟨d, l⟩, ⟨⟨hd, hpartner⟩, hvisible⟩, rfl⟩
    exact ⟨d, l, hd, (hpartner.forall_iff (fun _ _ => lt_of_le_of_lt)).mp (deleteVisiblePredicate_iff.mp hvisible),
      hpartner, rfl⟩
  · rintro ⟨d, l, hd, hlt, hpartner, rfl⟩
    exact ⟨(d, l), ⟨⟨hd, hpartner⟩,
      deleteVisiblePredicate_iff.mpr ((hpartner.forall_iff (fun _ _ => lt_of_le_of_lt)).mpr hlt)⟩, rfl⟩

/-- **What the resolve returns**: the greatest upsert of a row if no delete exceeds it, and the greatest delete of a
    row if it exceeds every upsert. -/
theorem mem_resolve {row : ResolvedRow R V} :
    row ∈ resolve dialect U D ↔
      (∃ u, Greatest UpsertRow.rowUuid UpsertRow.key U u ∧ (∀ d ∈ D, d.rowUuid = u.rowUuid → d.key ≤ u.key) ∧
        row = ⟨u.rowUuid, some u.userCols, u.commitMicros, false⟩) ∨
      (∃ d l, Greatest DeleteRow.rowUuid DeleteRow.key D d ∧ (∀ u ∈ U, u.rowUuid = d.rowUuid → u.key < d.key) ∧
        Partner UpsertRow.rowUuid UpsertRow.key U d.rowUuid l ∧
        row = ⟨d.rowUuid, l.map UpsertRow.userCols, d.commitMicros, true⟩) := by
  rw [resolve_eq, twoArmResolveSelect, List.mem_append, mem_upsertArm hU hD, mem_deleteArm hU hD]

end Arms

theorem nodup_arm {α β : Type} {left : α → R} {part : β → R} {key : β → Int ×ₗ Int} {l : List α} (rows : List β)
    (hl : (l.map left).Nodup) (cond : α × Option β → Truth) {columns : α × Option β → ResolvedRow R V}
    (hcolumns : ∀ row, (columns row).rowUuid = left row.1) :
    (((where_ cond (leftJoin (fun a b => decide (left a = part b)) l (distinctOn part key rows))).map columns).map
      ResolvedRow.rowUuid).Nodup := by
  have hpartners : ∀ a ∈ l, ((distinctOn part key rows).filter (fun b => decide (left a = part b))).length ≤ 1 := by
    intro a _
    have hone := length_filter_key_le_one (nodup_distinctOn part key rows) (left a)
    simpa only [eq_comm] using hone
  have hjoin := map_fst_leftJoin hpartners
  rw [← hjoin, List.map_map] at hl
  have hsub : ((where_ cond (leftJoin (fun a b => decide (left a = part b)) l (distinctOn part key rows))).map
      (left ∘ Prod.fst)).Sublist ((leftJoin (fun a b => decide (left a = part b)) l (distinctOn part key rows)).map
        (left ∘ Prod.fst)) := List.filter_sublist.map _
  have hmap : ResolvedRow.rowUuid ∘ columns = left ∘ Prod.fst := funext hcolumns
  rw [List.map_map, hmap]
  exact hsub.nodup hl

/-- **No row is returned twice.** -/
theorem nodup_resolve (hU : KeysDistinct UpsertRow.rowUuid UpsertRow.key U)
    (hD : KeysDistinct DeleteRow.rowUuid DeleteRow.key D) :
    ((resolve dialect U D).map ResolvedRow.rowUuid).Nodup := by
  rw [resolve_eq, twoArmResolveSelect, List.map_append]
  refine List.nodup_append.mpr ⟨nodup_arm D (nodup_distinctOn _ _ U) _ (fun _ => rfl),
    nodup_arm U (nodup_distinctOn _ _ D) _ (fun _ => rfl), ?_⟩
  -- A row in both arms would have an upsert at or above its greatest delete and below it.
  rintro r hr r' hr' rfl
  obtain ⟨row, hrow, rfl⟩ := List.mem_map.mp hr
  obtain ⟨row', hrow', hsame⟩ := List.mem_map.mp hr'
  obtain ⟨u, ⟨hu, -⟩, hle, rfl⟩ := (mem_upsertArm hU hD).mp hrow
  obtain ⟨d, l, ⟨hd, -⟩, hlt, -, rfl⟩ := (mem_deleteArm hU hD).mp hrow'
  exact absurd (hle d hd hsame) (not_le_of_gt (hlt u hu hsame.symm))

/-- **Every row with an entry is returned, and no other.** -/
theorem mem_rowUuid_resolve (hU : KeysDistinct UpsertRow.rowUuid UpsertRow.key U)
    (hD : KeysDistinct DeleteRow.rowUuid DeleteRow.key D) {r : R} :
    r ∈ (resolve dialect U D).map ResolvedRow.rowUuid ↔ (∃ u ∈ U, u.rowUuid = r) ∨ ∃ d ∈ D, d.rowUuid = r := by
  rw [List.mem_map]
  constructor
  · rintro ⟨row, hrow, rfl⟩
    rcases (mem_resolve hU hD).mp hrow with ⟨u, hu, -, rfl⟩ | ⟨d, l, hd, -, -, rfl⟩
    · exact .inl ⟨u, hu.1, rfl⟩
    · exact .inr ⟨d, hd.1, rfl⟩
  · intro h
    obtain ⟨l, hl⟩ := exists_partner hU r
    obtain ⟨t, ht⟩ := exists_partner hD r
    rcases ht with ⟨d, hd, rfl, rfl⟩ | ⟨rfl, hnone⟩
    · -- A delete: it is shown unless the greatest upsert is at or above it.
      by_cases hlt : ∀ u ∈ U, u.rowUuid = d.rowUuid → u.key < d.key
      · exact ⟨_, (mem_resolve hU hD).mpr (.inr ⟨d, l, hd, hlt, hl, rfl⟩), rfl⟩
      · rcases hl with ⟨u, hu, hsame, rfl⟩ | ⟨rfl, hnoUpsert⟩
        · refine ⟨_, (mem_resolve hU hD).mpr (.inl ⟨u, hu, ?_, rfl⟩), hsame⟩
          intro d' hd' hrow
          push Not at hlt
          obtain ⟨u', hu', hrow', hge⟩ := hlt
          exact (hd.2 d' hd' (hrow.trans hsame)).trans (hge.trans (hu.2 u' hu' (hrow'.trans hsame.symm)))
        · exact absurd (fun u hu hrow => absurd hrow (hnoUpsert u hu)) hlt
    · rcases hl with ⟨u, hu, rfl, rfl⟩ | ⟨rfl, hnoUpsert⟩
      · exact ⟨_, (mem_resolve hU hD).mpr (.inl ⟨u, hu, fun d hd hrow => absurd hrow (hnone d hd), rfl⟩), rfl⟩
      · rcases h with ⟨u, hu, hrow⟩ | ⟨d, hd, hrow⟩
        · exact absurd hrow (hnoUpsert u hu)
        · exact absurd hrow (hnone d hd)

/-! ## Restriction -/

/-- **Restricting the sources is restricting the result.** -/
theorem resolve_restrict (hU : KeysDistinct UpsertRow.rowUuid UpsertRow.key U)
    (hD : KeysDistinct DeleteRow.rowUuid DeleteRow.key D) (keep : R → Bool) :
    (resolve dialect (U.filter (fun u => keep u.rowUuid)) (D.filter (fun d => keep d.rowUuid))).Perm
      ((resolve dialect U D).filter (fun row => keep row.rowUuid)) := by
  have hU' := hU.filter keep
  have hD' := hD.filter keep
  refine (List.perm_ext_iff_of_nodup (nodup_resolve hU' hD').of_map ((nodup_resolve hU hD).of_map.filter _)).mpr ?_
  intro row
  rw [List.mem_filter, mem_resolve hU' hD', mem_resolve hU hD]
  simp only [greatest_filter]
  constructor
  · rintro (⟨u, ⟨hu, hkeep⟩, hle, rfl⟩ | ⟨d, l, ⟨hd, hkeep⟩, hlt, hpartner, rfl⟩)
    · refine ⟨.inl ⟨u, hu, fun d hd hrow => hle d (List.mem_filter.mpr ⟨hd, ?_⟩) hrow, rfl⟩, hkeep⟩
      rw [hrow, hkeep]
    · refine ⟨.inr ⟨d, l, hd, fun u hu hrow => hlt u (List.mem_filter.mpr ⟨hu, ?_⟩) hrow,
        (partner_filter hkeep).mp hpartner, rfl⟩, hkeep⟩
      rw [hrow, hkeep]
  · rintro ⟨⟨u, hu, hle, rfl⟩ | ⟨d, l, hd, hlt, hpartner, rfl⟩, hkeep⟩
    · exact .inl ⟨u, ⟨hu, hkeep⟩, fun d hd hrow => hle d (List.mem_filter.mp hd).1 hrow, rfl⟩
    · exact .inr ⟨d, l, ⟨hd, hkeep⟩, fun u hu hrow => hlt u (List.mem_filter.mp hu).1 hrow,
        (partner_filter hkeep).mpr hpartner, rfl⟩

end Meaning

/-! ## The two builders -/

/-- The columns that the query adds for DataFusion: `rn`, and `is_delete`, which Postgres may have twice. -/
def addedColumns : Dialect → List String
  | .pg => []
  | .df => ["rn", "is_delete"]

/-- The names of the query differ: no user column is called like another one or like a generated column. -/
def NamesDiffer (dialect : Dialect) (userCols : List String) : Prop :=
  (upsertColumnNames userCols ++ addedColumns dialect).Nodup

/-- The names of the windows and of the arms differ exactly if all names do. -/
theorem namesDiffer_iff (dialect : Dialect) (userCols : List String) :
    NamesDiffer dialect userCols ↔
      (upsertColumnNames userCols ++ rowNumberColumn dialect).Nodup ∧ OutputAllowed dialect (armColumnNames userCols) := by
  cases dialect with
  | pg => simp [NamesDiffer, addedColumns, rowNumberColumn, OutputAllowed]
  | df =>
      have hlast : ∀ l : List String, (l ++ ["is_delete"]).Nodup ↔ l.Nodup ∧ "is_delete" ∉ l := by
        intro l
        rw [List.nodup_append_comm]
        exact List.nodup_cons.trans and_comm
      have hall : NamesDiffer .df userCols ↔
          (upsertColumnNames userCols ++ ["rn"]).Nodup ∧ "is_delete" ∉ upsertColumnNames userCols ++ ["rn"] := by
        rw [← hlast, List.append_assoc]
        rfl
      have harm : OutputAllowed .df (armColumnNames userCols) ↔
          ("row_uuid" :: userCols ++ ["commit_micros"]).Nodup ∧
            "is_delete" ∉ "row_uuid" :: userCols ++ ["commit_micros"] := by
        rw [← hlast, List.append_assoc]
        exact forall_prop_of_true rfl
      have hmem : "is_delete" ∈ upsertColumnNames userCols ++ ["rn"] ↔
          "is_delete" ∈ "row_uuid" :: userCols ++ ["commit_micros"] := by
        simp [upsertColumnNames]
      have hsub : ("row_uuid" :: userCols ++ ["commit_micros"]).Sublist (upsertColumnNames userCols ++ ["rn"]) := by
        refine List.Sublist.trans ?_ (List.sublist_append_left _ _)
        exact (List.Sublist.refl _).append (List.sublist_append_left ["commit_micros"] _)
      rw [hall, harm, ← hmem]
      exact ⟨fun h => ⟨h.1, h.1.sublist hsub, h.2⟩, fun h => ⟨h.1, h.2.2⟩⟩

theorem queryResolves_iff (dialect : Dialect) (userCols : List String) :
    QueryResolves dialect userCols ↔ NamesDiffer dialect userCols := by
  have hdeletes : WindowResolves dialect deleteColumnNames ∧ NamesResolve deleteColumnNames deleteColumnNames := by
    cases dialect <;> exact ⟨⟨by decide, by decide⟩, by decide⟩
  constructor
  · intro h
    exact (namesDiffer_iff dialect userCols).mpr ⟨namesResolve_self_iff.mp h.1.2, h.2.2.2.2⟩
  · intro h
    obtain ⟨hwindow, houtput⟩ := (namesDiffer_iff dialect userCols).mp h
    have hcolumns : NamesResolve (upsertColumnNames userCols) (upsertColumnNames userCols) :=
      namesResolve_self_iff.mpr (List.Nodup.of_append_left h)
    refine ⟨⟨hcolumns.subset ?_, namesResolve_self_iff.mpr hwindow⟩, hdeletes.1, hcolumns, hdeletes.2, houtput⟩
    intro name hname
    simp only [upsertColumnNames, List.mem_append, List.mem_cons, List.not_mem_nil, or_false] at hname ⊢
    tauto

/-- The rows a restriction asks for. -/
def Requested (rowUuids : Option (List R)) (r : R) : Prop := ∀ us ∈ rowUuids, r ∈ us

instance [DecidableEq R] (rowUuids : Option (List R)) (r : R) : Decidable (Requested rowUuids r) :=
  inferInstanceAs (Decidable (∀ us ∈ rowUuids, r ∈ us))

/-- **One row per requested row with a visible entry**, and no other: the greatest upsert if no delete exceeds it,
    otherwise the greatest delete. -/
structure ExactlyOne (U : List (UpsertRow R V)) (D : List (DeleteRow R)) (rowUuids : Option (List R))
    (rows : List (ResolvedRow R V)) : Prop where
  once    : (rows.map ResolvedRow.rowUuid).Nodup
  covers  : ∀ r, r ∈ rows.map ResolvedRow.rowUuid ↔
    Requested rowUuids r ∧ ((∃ u ∈ U, u.rowUuid = r) ∨ ∃ d ∈ D, d.rowUuid = r)
  upserts : ∀ row ∈ rows, row.isDelete = false → ∃ u, Greatest UpsertRow.rowUuid UpsertRow.key U u ∧
    (∀ d ∈ D, d.rowUuid = u.rowUuid → d.key ≤ u.key) ∧ row = ⟨u.rowUuid, some u.userCols, u.commitMicros, false⟩
  deletes : ∀ row ∈ rows, row.isDelete = true → ∃ d, Greatest DeleteRow.rowUuid DeleteRow.key D d ∧
    (∀ u ∈ U, u.rowUuid = d.rowUuid → u.key < d.key) ∧ row.rowUuid = d.rowUuid ∧ row.commitMicros = d.commitMicros

/-- The query returns, with one row per requested row, and as the unrestricted query restricted afterwards. -/
def ResolvesRight [DecidableEq R] (U : List (UpsertRow R V)) (D : List (DeleteRow R))
    (query : Option (List R) → Except SqlError (List (ResolvedRow R V))) (rowUuids : Option (List R)) : Prop :=
  ∃ rows all, query rowUuids = .ok rows ∧ query none = .ok all ∧ ExactlyOne U D rowUuids rows ∧
    rows.Perm (all.filter (fun row => decide (Requested rowUuids row.rowUuid)))

section Builders

variable [DecidableEq R] {U : List (UpsertRow R V)} {D : List (DeleteRow R)}

/-- Except for the empty list, the emitted clause is the restriction. -/
theorem rowUuidInClause_eq {rowUuids : Option (List R)} (h : rowUuids ≠ some []) (r : R) :
    rowUuidInClause rowUuids r = decide (Requested rowUuids r) := by
  match rowUuids with
  | none            => simp [rowUuidInClause, Requested]
  | some []         => exact absurd rfl h
  | some (u :: us)  => simp [rowUuidInClause, Requested]

/-- The sources hold no entry that an empty list, which emits no clause, would let through. -/
def NothingToRestrict (U : List (UpsertRow R V)) (D : List (DeleteRow R)) (rowUuids : Option (List R)) : Prop :=
  rowUuids = some [] → U = [] ∧ D = []

theorem exactlyOne_resolve (dialect : Dialect) (hU : KeysDistinct UpsertRow.rowUuid UpsertRow.key U)
    (hD : KeysDistinct DeleteRow.rowUuid DeleteRow.key D) {rowUuids : Option (List R)}
    {rows : List (ResolvedRow R V)}
    (hrows : rows.Perm ((resolve dialect U D).filter (fun row => decide (Requested rowUuids row.rowUuid)))) :
    ExactlyOne U D rowUuids rows := by
  have hmem : ∀ row ∈ rows, row ∈ resolve dialect U D := by
    intro row hrow
    exact (List.mem_filter.mp (hrows.mem_iff.mp hrow)).1
  refine ⟨?_, ?_, ?_, ?_⟩
  · exact (hrows.map _).nodup_iff.mpr ((List.filter_sublist.map _).nodup (nodup_resolve hU hD))
  · intro r
    have hentry : r ∈ (resolve dialect U D).map ResolvedRow.rowUuid ↔
        (∃ u ∈ U, u.rowUuid = r) ∨ ∃ d ∈ D, d.rowUuid = r := mem_rowUuid_resolve hU hD
    rw [(hrows.map _).mem_iff, ← hentry]
    simp only [List.mem_map, List.mem_filter, decide_eq_true_eq]
    constructor
    · rintro ⟨row, ⟨hrow, hreq⟩, rfl⟩
      exact ⟨hreq, row, hrow, rfl⟩
    · rintro ⟨hreq, row, hrow, rfl⟩
      exact ⟨row, ⟨hrow, hreq⟩, rfl⟩
  · intro row hrow hlive
    rcases (mem_resolve hU hD).mp (hmem row hrow) with ⟨u, hu, hle, heq⟩ | ⟨d, l, -, -, -, rfl⟩
    · exact ⟨u, hu, hle, heq⟩
    · cases hlive
  · intro row hrow hdead
    rcases (mem_resolve hU hD).mp (hmem row hrow) with ⟨u, -, -, rfl⟩ | ⟨d, l, hd, hlt, -, rfl⟩
    · cases hdead
    · exact ⟨d, hd, hlt, rfl, rfl⟩

/-- **The query over any sources**: it resolves right exactly if its names differ and no empty list meets an entry. -/
theorem resolvesRight_iff (dialect : Dialect) (userCols : List String)
    (hU : KeysDistinct UpsertRow.rowUuid UpsertRow.key U) (hD : KeysDistinct DeleteRow.rowUuid DeleteRow.key D)
    (rowUuids : Option (List R)) :
    ResolvesRight U D (fun rowUuids => runQuery dialect userCols (U.filter (fun u => rowUuidInClause rowUuids u.rowUuid))
        (D.filter (fun d => rowUuidInClause rowUuids d.rowUuid))) rowUuids ↔
      NamesDiffer dialect userCols ∧ NothingToRestrict U D rowUuids := by
  have hnone : resolve dialect (U.filter (fun u => rowUuidInClause none u.rowUuid))
      (D.filter (fun d => rowUuidInClause none d.rowUuid)) = resolve dialect U D := by
    simp [rowUuidInClause]
  constructor
  · rintro ⟨rows, all, hquery, -, hone, -⟩
    have hnames : QueryResolves dialect userCols := by
      by_contra hno
      simp [runQuery, hno] at hquery
    refine ⟨(queryResolves_iff dialect userCols).mp hnames, ?_⟩
    rintro rfl
    -- The clause is empty, so the result has a row for every entry.
    have hall : rows = resolve dialect U D := by
      simpa [runQuery, hnames, rowUuidInClause] using hquery.symm
    have hno : ∀ r, r ∉ rows.map ResolvedRow.rowUuid := by
      intro r hr
      have hreq := ((hone.covers r).mp hr).1 [] rfl
      cases hreq
    rw [hall] at hno
    constructor
    · refine List.eq_nil_iff_forall_not_mem.mpr (fun u hu => ?_)
      exact hno u.rowUuid ((mem_rowUuid_resolve hU hD).mpr (.inl ⟨u, hu, rfl⟩))
    · refine List.eq_nil_iff_forall_not_mem.mpr (fun d hd => ?_)
      exact hno d.rowUuid ((mem_rowUuid_resolve hU hD).mpr (.inr ⟨d, hd, rfl⟩))
  · rintro ⟨hnames, hempty⟩
    have hresolves : QueryResolves dialect userCols := (queryResolves_iff dialect userCols).mpr hnames
    have hperm : (resolve dialect (U.filter (fun u => rowUuidInClause rowUuids u.rowUuid))
        (D.filter (fun d => rowUuidInClause rowUuids d.rowUuid))).Perm
          ((resolve dialect U D).filter (fun row => decide (Requested rowUuids row.rowUuid))) := by
      by_cases hlist : rowUuids = some []
      · obtain ⟨rfl, rfl⟩ := hempty hlist
        have hnil : resolve dialect ([] : List (UpsertRow R V)) ([] : List (DeleteRow R)) = [] := by
          cases dialect <;> rfl
        rw [List.filter_nil, List.filter_nil, hnil]
        exact List.Perm.nil
      · have hclause : rowUuidInClause rowUuids = fun r => decide (Requested rowUuids r) :=
          funext (rowUuidInClause_eq hlist)
        rw [hclause]
        exact resolve_restrict hU hD (fun r => decide (Requested rowUuids r))
    have hrun : ∀ (U' : List (UpsertRow R V)) (D' : List (DeleteRow R)),
        runQuery dialect userCols U' D' = .ok (resolve dialect U' D') := fun _ _ => if_pos hresolves
    exact ⟨_, resolve dialect U D, hrun _ _, (hrun _ _).trans (congrArg Except.ok hnone),
      exactlyOne_resolve dialect hU hD hperm, hperm⟩

end Builders

/-- **`build_merge_resolved` and `build_cold_merge_resolved`**: over all logs whose visible upserts of one row, and
    visible deletes of one row, differ in `(commit_seq_num, write_seq_num)`, and for every bound and restriction. -/
theorem buildMergeResolved_iff [DecidableEq R] [DecidableEq X] (dialect : Dialect) (userCols : List String)
    (rowUuids : Option (List R)) :
    (∀ (upsertLog : List (UpsertRow R V)) (deleteLog : List (DeleteRow R))
        (committedFrom committedTo commitSeqUpper : Option Int),
      KeysDistinct UpsertRow.rowUuid UpsertRow.key (coldUpserts upsertLog committedFrom committedTo commitSeqUpper) →
      KeysDistinct DeleteRow.rowUuid DeleteRow.key (coldDeletes deleteLog committedFrom committedTo commitSeqUpper) →
      (ResolvesRight (coldUpserts upsertLog committedFrom committedTo commitSeqUpper)
          (coldDeletes deleteLog committedFrom committedTo commitSeqUpper)
          (buildColdMergeResolved dialect upsertLog deleteLog userCols committedFrom committedTo commitSeqUpper)
          rowUuids ↔
        NamesDiffer dialect userCols ∧
          NothingToRestrict (coldUpserts upsertLog committedFrom committedTo commitSeqUpper)
            (coldDeletes deleteLog committedFrom committedTo commitSeqUpper) rowUuids)) ∧
    ∀ (upsertLog : List (HotUpsert R V X)) (deleteLog : List (HotDelete R X)) (commitTxLog : List (CommitTx X))
        (tierSeqLower : Option Int) (snapshot : HotSnapshot X),
      KeysDistinct UpsertRow.rowUuid UpsertRow.key
        (hotUpserts upsertLog (committedTx commitTxLog tierSeqLower snapshot)) →
      KeysDistinct DeleteRow.rowUuid DeleteRow.key
        (hotDeletes deleteLog (committedTx commitTxLog tierSeqLower snapshot)) →
      (ResolvesRight (hotUpserts upsertLog (committedTx commitTxLog tierSeqLower snapshot))
          (hotDeletes deleteLog (committedTx commitTxLog tierSeqLower snapshot))
          (buildMergeResolved dialect upsertLog deleteLog commitTxLog userCols tierSeqLower snapshot) rowUuids ↔
        NamesDiffer dialect userCols ∧
          NothingToRestrict (hotUpserts upsertLog (committedTx commitTxLog tierSeqLower snapshot))
            (hotDeletes deleteLog (committedTx commitTxLog tierSeqLower snapshot)) rowUuids) :=
  ⟨fun _ _ _ _ _ hU hD => resolvesRight_iff dialect userCols hU hD rowUuids,
    fun _ _ _ _ _ hU hD => resolvesRight_iff dialect userCols hU hD rowUuids⟩

/-- One upsert of row 1 by the first commit. -/
def oneUpsert : List (UpsertRow Nat Nat) := [⟨1, 7, 10, 0, 0⟩]

/-- A user column called `rn` makes the DataFusion query ambiguous, one called `is_delete` makes DataFusion refuse the arms;
    an empty list of rows returns the row. -/
theorem buildMergeResolved_fails :
    ¬ ResolvesRight (coldUpserts oneUpsert none none none) (coldDeletes ([] : List (DeleteRow Nat)) none none none)
        (buildColdMergeResolved .df oneUpsert [] ["rn"] none none none) none ∧
      ¬ ResolvesRight (coldUpserts oneUpsert none none none) (coldDeletes ([] : List (DeleteRow Nat)) none none none)
        (buildColdMergeResolved .df oneUpsert [] ["is_delete"] none none none) none ∧
      ¬ ResolvesRight (coldUpserts oneUpsert none none none) (coldDeletes ([] : List (DeleteRow Nat)) none none none)
        (buildColdMergeResolved .df oneUpsert [] ["v"] none none none) (some []) := by
  have hU : KeysDistinct UpsertRow.rowUuid UpsertRow.key (coldUpserts oneUpsert none none none) := by
    unfold KeysDistinct
    decide
  have hD : KeysDistinct DeleteRow.rowUuid DeleteRow.key
      (coldDeletes ([] : List (DeleteRow Nat)) none none none) := by
    unfold KeysDistinct
    decide
  have hrefused : ∀ name ∈ ["rn", "is_delete"], ¬ NamesDiffer .df [name] := by
    unfold NamesDiffer
    decide
  refine ⟨fun h => ?_, fun h => ?_, fun h => ?_⟩
  · exact hrefused "rn" (by decide) ((resolvesRight_iff .df ["rn"] hU hD none).mp h).1
  · exact hrefused "is_delete" (by decide) ((resolvesRight_iff .df ["is_delete"] hU hD none).mp h).1
  · have hempty := ((resolvesRight_iff .df ["v"] hU hD (some [])).mp h).2 rfl
    exact absurd hempty.1 (by decide)

/-- Two upserts of row 1 with a delete between them, and a delete of row 2 alone. -/
def reinserted : List (UpsertRow Nat Nat) × List (DeleteRow Nat) :=
  ([⟨1, 7, 10, 0, 0⟩, ⟨1, 8, 12, 2, 2⟩], [⟨1, 11, 1, 1⟩, ⟨2, 11, 1, 1⟩])

/-- The same entries in the hot tier, by three commits. -/
def reinsertedHot : List (HotUpsert Nat Nat Nat) × List (HotDelete Nat Nat) × List (CommitTx Nat) :=
  ([⟨1, 100, 0, 7⟩, ⟨1, 102, 2, 8⟩], [⟨1, 101, 1⟩, ⟨2, 101, 1⟩], [⟨100, 10, 0⟩, ⟨101, 11, 1⟩, ⟨102, 12, 2⟩])

theorem buildMergeResolved_iff_reinserted :
    ResolvesRight (coldUpserts reinserted.1 none none (some 1)) (coldDeletes reinserted.2 none none (some 1))
        (buildColdMergeResolved .df reinserted.1 reinserted.2 ["v"] none none (some 1)) (some [1]) ∧
      ResolvesRight (hotUpserts reinsertedHot.1 (committedTx reinsertedHot.2.2 none (.openTx 102 2)))
        (hotDeletes reinsertedHot.2.1 (committedTx reinsertedHot.2.2 none (.openTx 102 2)))
        (buildMergeResolved .df reinsertedHot.1 reinsertedHot.2.1 reinsertedHot.2.2 ["v"] none (.openTx 102 2))
        (some [1]) := by
  have hnames : NamesDiffer .df ["v"] := by
    unfold NamesDiffer
    decide
  constructor
  · refine ((buildMergeResolved_iff (X := Nat) .df ["v"] (some [1])).1 reinserted.1 reinserted.2 none none (some 1)
      ?_ ?_).mpr ⟨hnames, by intro h; cases h⟩
    all_goals
      unfold KeysDistinct
      decide
  · refine ((buildMergeResolved_iff .df ["v"] (some [1])).2 reinsertedHot.1 reinsertedHot.2.1 reinsertedHot.2.2 none
      (.openTx 102 2) ?_ ?_).mpr ⟨hnames, by intro h; cases h⟩
    all_goals
      unfold KeysDistinct
      decide

/-! ## The resolve of the read path -/

section Refines

variable {es : List (LogEntry R V)}

/-- An entry of the upsert log as a row of its source. -/
def upsertRow (e : LogEntry R V) : Option (UpsertRow R V) :=
  e.effect.map (fun v => ⟨e.rowUuid, v, e.commitMicros, e.writeSeqNum, e.commitSeqNum⟩)

/-- An entry of the delete log as a row of its source. -/
def deleteRow (e : LogEntry R V) : Option (DeleteRow R) :=
  if e.kind = .deleteLog then some ⟨e.rowUuid, e.commitMicros, e.writeSeqNum, e.commitSeqNum⟩ else none

theorem upsertRow_eq_some {e : LogEntry R V} {u : UpsertRow R V} :
    upsertRow e = some u ↔ e = ⟨u.rowUuid, .upsert u.userCols, u.commitSeqNum, u.writeSeqNum, u.commitMicros⟩ := by
  obtain ⟨r, change, seq, wseq, micros⟩ := e
  obtain ⟨r', v, micros', wseq', seq'⟩ := u
  cases change <;> simp [upsertRow, LogEntry.effect, Change.effect]
  tauto

theorem deleteRow_eq_some {e : LogEntry R V} {d : DeleteRow R} :
    deleteRow e = some d ↔ e = ⟨d.rowUuid, .delete, d.commitSeqNum, d.writeSeqNum, d.commitMicros⟩ := by
  obtain ⟨r, change, seq, wseq, micros⟩ := e
  obtain ⟨r', micros', wseq', seq'⟩ := d
  cases change <;> simp [deleteRow, LogEntry.kind, Change.kind]
  tauto

/-- A row of an upsert source as an entry. -/
def UpsertRow.entry (u : UpsertRow R V) : LogEntry R V :=
  ⟨u.rowUuid, .upsert u.userCols, u.commitSeqNum, u.writeSeqNum, u.commitMicros⟩

/-- A row of a delete source as an entry. -/
def DeleteRow.entry (d : DeleteRow R) : LogEntry R V :=
  ⟨d.rowUuid, .delete, d.commitSeqNum, d.writeSeqNum, d.commitMicros⟩

theorem mem_upsertRows {u : UpsertRow R V} : u ∈ es.filterMap upsertRow ↔ u.entry ∈ es := by
  simp only [List.mem_filterMap, upsertRow_eq_some, exists_eq_right]
  rfl

theorem mem_deleteRows {d : DeleteRow R} : d ∈ es.filterMap deleteRow ↔ (d.entry : LogEntry R V) ∈ es := by
  simp only [List.mem_filterMap, deleteRow_eq_some, exists_eq_right]
  rfl

/-- Every entry is the entry of a row of one of the sources. -/
theorem entry_cases (e : LogEntry R V) : (∃ u : UpsertRow R V, u.entry = e) ∨ ∃ d : DeleteRow R, d.entry = e := by
  obtain ⟨r, change, seq, wseq, micros⟩ := e
  cases change with
  | upsert v => exact .inl ⟨⟨r, v, micros, wseq, seq⟩, rfl⟩
  | delete   => exact .inr ⟨⟨r, micros, wseq, seq⟩, rfl⟩

/-- The newest entry of a row is an upsert: the greatest one, with no delete above it. -/
theorem newestOf_upsert_iff {u : UpsertRow R V} :
    NewestOf es u.entry ↔ Greatest UpsertRow.rowUuid UpsertRow.key (es.filterMap upsertRow) u ∧
      ∀ d ∈ es.filterMap deleteRow, d.rowUuid = u.rowUuid → d.key ≤ u.key := by
  have hle : ∀ b : LogEntry R V, b.version ≤ u.entry.version ↔ b.orderKey ≤ u.key := by
    intro b
    rw [LogEntry.version_le_iff, le_iff_lt_or_eq]
    simp [UpsertRow.entry, LogEntry.kind, Change.kind, LogEntry.orderKey, UpsertRow.key]
  constructor
  · rintro ⟨⟨hmem, -⟩, hmax⟩
    refine ⟨⟨mem_upsertRows.mpr hmem, ?_⟩, ?_⟩
    · intro b hb hrow
      exact (hle b.entry).mp (hmax b.entry ⟨mem_upsertRows.mp hb, hrow⟩)
    · intro d hd hrow
      exact (hle d.entry).mp (hmax d.entry ⟨mem_deleteRows.mp hd, hrow⟩)
  · rintro ⟨⟨hmem, hups⟩, hdel⟩
    refine ⟨⟨mem_upsertRows.mp hmem, rfl⟩, ?_⟩
    rintro b ⟨hb, hrow⟩
    rw [hle]
    rcases entry_cases b with ⟨u', rfl⟩ | ⟨d, rfl⟩
    · exact hups u' (mem_upsertRows.mpr hb) hrow
    · exact hdel d (mem_deleteRows.mpr hb) hrow

/-- The newest entry of a row is a delete: the greatest one, with every upsert below it. -/
theorem newestOf_delete_iff {d : DeleteRow R} :
    NewestOf es (d.entry : LogEntry R V) ↔ Greatest DeleteRow.rowUuid DeleteRow.key (es.filterMap deleteRow) d ∧
      ∀ u ∈ es.filterMap upsertRow, u.rowUuid = d.rowUuid → u.key < d.key := by
  have hdel : ∀ b : DeleteRow R,
      (b.entry : LogEntry R V).version ≤ (d.entry : LogEntry R V).version ↔ b.key ≤ d.key :=
    fun b => LogEntry.version_le_iff_of_kind rfl
  have hups : ∀ u : UpsertRow R V, u.entry.version ≤ (d.entry : LogEntry R V).version ↔ u.key < d.key := by
    intro u
    rw [LogEntry.version_le_iff]
    simp [UpsertRow.entry, DeleteRow.entry, LogEntry.kind, Change.kind, LogEntry.orderKey, UpsertRow.key,
      DeleteRow.key]
  constructor
  · rintro ⟨⟨hmem, -⟩, hmax⟩
    refine ⟨⟨mem_deleteRows.mpr hmem, ?_⟩, ?_⟩
    · intro b hb hrow
      exact (hdel b).mp (hmax b.entry ⟨mem_deleteRows.mp hb, hrow⟩)
    · intro u hu hrow
      exact (hups u).mp (hmax u.entry ⟨mem_upsertRows.mp hu, hrow⟩)
  · rintro ⟨⟨hmem, hgreatest⟩, hbelow⟩
    refine ⟨⟨mem_deleteRows.mp hmem, rfl⟩, ?_⟩
    rintro b ⟨hb, hrow⟩
    rcases entry_cases b with ⟨u, rfl⟩ | ⟨b, rfl⟩
    · exact (hups u).mpr (hbelow u (mem_upsertRows.mpr hb) hrow)
    · exact (hdel b).mpr (hgreatest b (mem_deleteRows.mpr hb) hrow)

/-- Entries of one log with one `ORDER BY` key have one version. -/
theorem version_eq_of_orderKey_eq {e e' : LogEntry R V} (hkind : e.kind = e'.kind) (h : e.orderKey = e'.orderKey) :
    e.version = e'.version :=
  le_antisymm ((LogEntry.version_le_iff_of_kind hkind).mpr h.le)
    ((LogEntry.version_le_iff_of_kind hkind.symm).mpr h.ge)

/-- What the read path uses of a row of the result: a tombstone's user columns are dropped. -/
def ResolvedRow.outcome (row : ResolvedRow R V) : R × Int × Option V :=
  (row.rowUuid, row.commitMicros, if row.isDelete then none else row.userCols)

variable [DecidableEq R] (hsep : Newest.Separated LogEntry.version LogEntry.rowUuid {e | e ∈ es})
include hsep

omit [DecidableEq R] in
theorem keysDistinct_upsertRows : KeysDistinct UpsertRow.rowUuid UpsertRow.key (es.filterMap upsertRow) := by
  intro a ha b hb hrow hkey
  have hversion : a.entry.version = b.entry.version := version_eq_of_orderKey_eq rfl hkey
  have hentry := hsep a.entry (mem_upsertRows.mp ha) b.entry (mem_upsertRows.mp hb) hrow hversion
  simp only [UpsertRow.entry, LogEntry.mk.injEq, Change.upsert.injEq] at hentry
  obtain ⟨h1, h2, h3, h4, h5⟩ := hentry
  exact UpsertRow.mk.injEq .. ▸ ⟨h1, h2, h5, h4, h3⟩

omit [DecidableEq R] in
theorem keysDistinct_deleteRows : KeysDistinct DeleteRow.rowUuid DeleteRow.key (es.filterMap deleteRow) := by
  intro a ha b hb hrow hkey
  have hversion : (a.entry : LogEntry R V).version = (b.entry : LogEntry R V).version :=
    version_eq_of_orderKey_eq rfl hkey
  have hentry := hsep a.entry (mem_deleteRows.mp ha) b.entry (mem_deleteRows.mp hb) hrow hversion
  simp only [DeleteRow.entry, LogEntry.mk.injEq, true_and] at hentry
  obtain ⟨h1, h2, h3, h4⟩ := hentry
  exact DeleteRow.mk.injEq .. ▸ ⟨h1, h4, h3, h2⟩

/-- **The query refines `mergeResolved`**: over the entries of a tier it returns what `mergeResolved` selects. -/
theorem resolve_perm_mergeResolved (dialect : Dialect) :
    ((resolve dialect (es.filterMap upsertRow) (es.filterMap deleteRow)).map ResolvedRow.outcome).Perm
      ((mergeResolved es).map (fun e => (e.rowUuid, e.commitMicros, e.effect))) := by
  have hU := keysDistinct_upsertRows hsep
  have hD := keysDistinct_deleteRows hsep
  have hleft : ((resolve dialect (es.filterMap upsertRow) (es.filterMap deleteRow)).map ResolvedRow.outcome).Nodup := by
    apply List.Nodup.of_map Prod.fst
    rw [List.map_map]
    exact nodup_resolve hU hD
  have hright : ((mergeResolved es).map (fun e => (e.rowUuid, e.commitMicros, e.effect))).Nodup := by
    apply List.Nodup.of_map Prod.fst
    rw [List.map_map]
    exact nodup_rowUuid_mergeResolved hsep
  refine (List.perm_ext_iff_of_nodup hleft hright).mpr ?_
  intro x
  simp only [List.mem_map, mem_resolve hU hD, mem_mergeResolved hsep]
  constructor
  · rintro ⟨row, ⟨u, hu, hle, rfl⟩ | ⟨d, l, hd, hlt, -, rfl⟩, rfl⟩
    · exact ⟨u.entry, newestOf_upsert_iff.mpr ⟨hu, hle⟩, rfl⟩
    · exact ⟨d.entry, newestOf_delete_iff.mpr ⟨hd, hlt⟩, rfl⟩
  · rintro ⟨e, he, rfl⟩
    rcases entry_cases e with ⟨u, rfl⟩ | ⟨d, rfl⟩
    · obtain ⟨hu, hle⟩ := newestOf_upsert_iff.mp he
      exact ⟨_, .inl ⟨u, hu, hle, rfl⟩, rfl⟩
    · obtain ⟨hd, hlt⟩ := newestOf_delete_iff.mp he
      obtain ⟨l, hl⟩ := exists_partner hU d.rowUuid
      exact ⟨_, .inr ⟨d, l, hd, hlt, hl, rfl⟩, rfl⟩

end Refines

/-- Row 1 is deleted after its upsert. -/
def deletedRow : List (LogEntry Nat Nat) := [⟨1, .upsert 5, 0, 0, 10⟩, ⟨2, .upsert 6, 0, 1, 10⟩, ⟨1, .delete, 1, 2, 20⟩]

theorem resolve_deletedRow :
    ((resolve .pg (deletedRow.filterMap upsertRow) (deletedRow.filterMap deleteRow)).map ResolvedRow.outcome).Perm
      ((mergeResolved deletedRow).map (fun e => (e.rowUuid, e.commitMicros, e.effect))) := by
  have hsep : ∀ a ∈ deletedRow, ∀ b ∈ deletedRow, a.rowUuid = b.rowUuid → a.version = b.version → a = b := by decide
  exact resolve_perm_mergeResolved hsep .pg

end Penca.TwoArm
