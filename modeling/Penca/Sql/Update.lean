import Penca.Sql.Dml

/-!
# `Sql.Update` — UPDATE and simultaneous replacement

An `UPDATE` that sets a primary key column moves rows: it sends the old keys as deletes and the new rows as upserts of one
change, and the upsert of a row wins over its delete. Before, it probes for the new identities that are not among the old
ones. All of this goes by the identities of the keys as they are read. Where the rows are filed under them it is
simultaneous replacement, for chains and swaps too: every matched row is taken out and its image put in, or the statement
fails and changes nothing. A row whose key Postgres changed is filed under the identity of the key that was sent: its image
goes elsewhere and the row stays. `update_simultaneous_iff` says exactly when a statement that succeeds keeps its promise.

## Contents
- **Rows read and written back**: the live rows, their keys as a batch, rows that are stored as they are.
- **The statement**: what `execute_update` prepares.
- **Rows filed under their keys**, and the main result.
-/

namespace Penca.Sql

variable {N V R : Type} [DecidableEq N] [DecidableEq R]

/-! ## Rows read -/

/-- The row is live. -/
def Live (H : History R (List V)) (row : List V) : Prop := ∃ u, liveRow H u = some row

/-- Every live row has a value for every column. -/
def FullRows (m : TableMeta N) (H : History R (List V)) : Prop :=
  ∀ u ∈ rowUuids H.entries, ∀ row ∈ liveRow H u, row.length = m.arrowSchema.length

/-- No two live rows have one key. -/
def DistinctKeys [DecidableEq V] (m : TableMeta N) (H : History R (List V)) : Prop :=
  ∀ u ∈ rowUuids H.entries, ∀ u' ∈ rowUuids H.entries, ∀ row ∈ liveRow H u, ∀ row' ∈ liveRow H u',
    m.key row = m.key row' → u = u'

instance (m : TableMeta N) (H : History R (List V)) : Decidable (FullRows m H) :=
  inferInstanceAs (Decidable (∀ u ∈ rowUuids H.entries, ∀ row ∈ liveRow H u, _ = _))

instance [DecidableEq V] (m : TableMeta N) (H : History R (List V)) : Decidable (DistinctKeys m H) :=
  inferInstanceAs (Decidable (∀ u ∈ rowUuids H.entries, ∀ u' ∈ rowUuids H.entries, ∀ row ∈ liveRow H u,
    ∀ row' ∈ liveRow H u', m.key row = m.key row' → u = u'))

section Read

variable {K : Kernel V R} {m : TableMeta N} {H : History R (List V)}

omit [DecidableEq N] in
theorem FullRows.length_eq (hfull : FullRows m H) {u : R} {row : List V} (hu : liveRow H u = some row) :
    row.length = m.arrowSchema.length := hfull u (mem_rowUuids_of_liveRow hu) row hu

theorem DistinctKeys.eq_of_key_eq [DecidableEq V] (hkeys : DistinctKeys m H) {u u' : R} {row row' : List V}
    (hu : liveRow H u = some row) (hu' : liveRow H u' = some row') (hkey : m.key row = m.key row') : u = u' :=
  hkeys u (mem_rowUuids_of_liveRow hu) u' (mem_rowUuids_of_liveRow hu') row hu row' hu' hkey

omit [DecidableEq N] [DecidableEq R] in
/-- A full row is read as it is. -/
theorem readRow_eq {row : List V} (hwidth : row.length = m.arrowSchema.length) : readRow K m row = row := by
  refine List.ext_getElem ?_ (fun i h h' => ?_)
  · rw [readRow, List.length_map, List.length_zipIdx, hwidth]
  · simp [readRow, h']

variable (hfull : FullRows m H) {selection : List V → Bool}
include hfull

omit [DecidableEq N] in
theorem map_readRow_liveRow (u : R) : (liveRow H u).map (readRow K m) = liveRow H u := by
  cases hu : liveRow H u with
  | none => rfl
  | some row => rw [Option.map_some, readRow_eq (hfull.length_eq hu)]

omit [DecidableEq N] in
theorem mem_matchedRows {row : List V} :
    row ∈ matchedRows K m H selection ↔ Live H row ∧ selection row = true := by
  rw [matchedRows, List.mem_filter, liveRows, List.mem_filterMap]
  simp only [map_readRow_liveRow hfull]
  constructor
  · rintro ⟨⟨u, -, hu⟩, hsel⟩
    exact ⟨⟨u, hu⟩, hsel⟩
  · rintro ⟨⟨u, hu⟩, hsel⟩
    exact ⟨⟨u, mem_rowUuids_of_liveRow hu, hu⟩, hsel⟩

omit [DecidableEq N] in
variable (K selection) in
/-- The places of the matched rows, one for each. -/
theorem exists_matchedUuids : ∃ us : List R, us.Nodup ∧ us.length = (matchedRows K m H selection).length ∧
    ∀ u, u ∈ us ↔ ∃ row, liveRow H u = some row ∧ selection row = true := by
  refine ⟨(rowUuids H.entries).filter (fun u => ((liveRow H u).map selection).getD false), ?_, ?_, fun u => ?_⟩
  · exact (List.nodup_dedup _).filter _
  · rw [matchedRows, liveRows, ← List.countP_eq_length_filter, ← List.countP_eq_length_filter, List.countP_filterMap]
    simp only [map_readRow_liveRow hfull]
  · rw [List.mem_filter]
    constructor
    · rintro ⟨-, hu⟩
      cases hlive : liveRow H u with
      | none =>
          rw [hlive] at hu
          cases hu
      | some row =>
          rw [hlive] at hu
          exact ⟨row, rfl, hu⟩
    · rintro ⟨row, hlive, hsel⟩
      refine ⟨mem_rowUuids_of_liveRow hlive, ?_⟩
      rw [hlive]
      exact hsel

end Read

/-! ## Keys as a batch -/

section Keys

variable {m : TableMeta N} {row : List V}

/-- A cell of a batch of some columns of a row is the cell of the row. -/
theorem cell_subset (hwidth : row.length = m.arrowSchema.length) (names : List N) (name : N) :
    cell (names.filterMap (fun x => m.arrowSchema.find? (fun f => f.name = x)))
        ((names.filterMap (cell m.arrowSchema row)).map Prod.snd) name =
      if name ∈ names then cell m.arrowSchema row name else none := by
  induction names with
  | nil => rfl
  | cons x names ih =>
      have htype := map_fst_cell hwidth x
      rw [declaredType] at htype
      cases hfind : m.arrowSchema.find? (fun f => f.name = x) with
      | none =>
          rw [hfind, Option.map_none, Option.map_eq_none_iff] at htype
          simp only [List.filterMap_cons, hfind, htype, ih]
          by_cases hx : name = x
          · rw [hx, htype, if_pos List.mem_cons_self, ite_self]
          · simp [hx]
      | some field =>
          have hname : field.name = x := by simpa using List.find?_some hfind
          rw [hfind, Option.map_some, Option.map_eq_some_iff] at htype
          obtain ⟨c, hc, hctype⟩ := htype
          simp only [List.filterMap_cons, hfind, hc, List.map_cons]
          by_cases hx : x = name
          · rw [← hx, if_pos List.mem_cons_self, hc, ← hname, cell_cons_self, ← hctype]
          · rw [cell_cons_of_ne (hname ▸ hx), ih]
            simp [Ne.symm hx]

/-- The identity derived from the batch of keys is the identity of the row. -/
theorem keyCells_pkFields (hwidth : row.length = m.arrowSchema.length) :
    keyCells (pkFields m) m.primaryKeys (m.key row) = keyCells m.arrowSchema m.primaryKeys row := by
  rw [keyCells, keyCells]
  refine List.filterMap_congr (fun pk hpk => ?_)
  have hcell := cell_subset hwidth m.primaryKeys pk
  rw [if_pos hpk] at hcell
  exact hcell

theorem rowUuidsOf_matchedKeys (K : Kernel V R) (H : History R (List V)) (selection : List V → Bool) :
    rowUuidsOf K m (matchedKeys K m H selection) = (matchedRows K m H selection).map (m.identity K) := by
  rw [rowUuidsOf, matchedKeys, List.map_map]
  refine List.map_congr_left (fun row hrow => ?_)
  rw [Function.comp_apply, keyCells_pkFields (width_matchedRows hrow)]
  rfl

end Keys

/-! ## Rows written back -/

variable [DecidableEq V]

section Stored

variable {K : Kernel V R} {schema : List (Field N)} {row : List V}

omit [DecidableEq R] in
/-- A row whose values Postgres keeps is stored as it is. -/
theorem storedRow_self (hnames : (schema.map Field.name).Nodup) (hwidth : row.length = schema.length)
    (haccepted : ∀ field ∈ schema, (storeCell K schema row field).isSome)
    (hkept : ∀ c ∈ schema.zip row, c.2 ≠ K.null → ∀ v ∈ K.store c.1.dataType c.1.dataType c.2, v = c.2) :
    storedRow K schema schema row = row := by
  have hcell : ∀ c ∈ schema.zip row, (storeCell K schema row c.1).getD K.null = c.2 := by
    intro c hc
    have hsome := haccepted c.1 (List.of_mem_zip hc).1
    simp only [storeCell, cell_of_mem_zip hnames hwidth hc] at hsome ⊢
    by_cases hnull : c.2 = K.null
    · rw [if_pos hnull, Option.getD_some, hnull]
    · rw [if_neg hnull] at hsome ⊢
      obtain ⟨v, hv⟩ := Option.isSome_iff_exists.mp hsome
      rw [hv, Option.getD_some, hkept c hc hnull v hv]
  calc storedRow K schema schema row
      = ((schema.zip row).map Prod.fst).map (fun field => (storeCell K schema row field).getD K.null) := by
        rw [List.map_fst_zip (Nat.le_of_eq hwidth.symm), storedRow]
    _ = (schema.zip row).map Prod.snd := by
        rw [List.map_map]
        exact List.map_congr_left hcell
    _ = row := List.map_snd_zip (Nat.le_of_eq hwidth)

end Stored

/-! ## The statement -/

section Statement

variable {K : Kernel V R} {m : TableMeta N}

/-- The values an `UPDATE` computes fit their columns: the cast keeps them, and so does Postgres if it takes them. -/
def Fits (K : Kernel V R) (m : TableMeta N) (H : History R (List V)) (update : Update N V) : Prop :=
  ∀ row ∈ matchedRows K m H update.selection,
    castRow K (typesOf (m.arrowSchema.map update.selectField)) m.arrowSchema (update.selectRow m row) =
      update.selectRow m row ∧
    ∀ c ∈ m.arrowSchema.zip (update.selectRow m row), c.2 ≠ K.null →
      ∀ v ∈ K.store c.1.dataType c.1.dataType c.2, v = c.2

instance (K : Kernel V R) (m : TableMeta N) (H : History R (List V)) (update : Update N V) :
    Decidable (Fits K m H update) :=
  inferInstanceAs (Decidable (∀ row ∈ matchedRows K m H update.selection, _ ∧ ∀ c ∈ m.arrowSchema.zip _,
    c.2 ≠ K.null → ∀ v ∈ K.store c.1.dataType c.1.dataType c.2, v = c.2))

/-- The batch of new rows an `UPDATE` sends. -/
def newRowsBatch (K : Kernel V R) (m : TableMeta N) (H : History R (List V)) (update : Update N V) : RecordBatch N V :=
  castBatch K (update.selectBatch K m H) m.arrowSchema (update.length_selectBatch K m H)

/-- The rows an `UPDATE` makes of the rows it matches. -/
def images (K : Kernel V R) (m : TableMeta N) (H : History R (List V)) (update : Update N V) : List (List V) :=
  (matchedRows K m H update.selection).map (update.selectRow m)

variable {H : History R (List V)} {update : Update N V}

omit [DecidableEq V] in
theorem rows_newRowsBatch (hfits : Fits K m H update) : (newRowsBatch K m H update).rows = images K m H update := by
  show ((matchedRows K m H update.selection).map (update.selectRow m)).map
    (castRow K (typesOf (m.arrowSchema.map update.selectField)) m.arrowSchema) = images K m H update
  rw [List.map_map, images]
  exact List.map_congr_left (fun row hrow => (hfits row hrow).1)

omit [DecidableEq V] in
theorem rowUuidsOf_newRowsBatch (hfits : Fits K m H update) :
    rowUuidsOf K m (newRowsBatch K m H update) = (images K m H update).map (m.identity K) := by
  rw [rowUuidsOf, rows_newRowsBatch hfits]
  rfl

omit [DecidableEq V] in
theorem length_images {row : List V} (h : row ∈ images K m H update) : row.length = m.arrowSchema.length := by
  obtain ⟨r, hr, rfl⟩ := List.mem_map.mp h
  rw [Update.selectRow, List.length_map, List.length_zip, width_matchedRows hr, Nat.min_self]

theorem writtenRows_newRowsBatch (hfits : Fits K m H update) (haccepted : UpsertAccepted K m (newRowsBatch K m H update)) :
    writtenRows K m (newRowsBatch K m H update) = (images K m H update).map (fun row => (m.identity K row, row)) := by
  have hinsert := haccepted.accepted
  simp only [insertAccepted, Bool.and_eq_true, decide_eq_true_eq, List.all_eq_true] at hinsert
  obtain ⟨⟨hnames, -⟩, hstore⟩ := hinsert
  rw [writtenRows, rows_newRowsBatch hfits]
  refine List.map_congr_left (fun row hrow => ?_)
  have hself : storedRow K m.arrowSchema m.arrowSchema row = row := by
    refine storedRow_self hnames (length_images hrow) (fun field hfield => ?_) ?_
    · exact hstore row (rows_newRowsBatch hfits ▸ hrow) field hfield
    · obtain ⟨r, hr, rfl⟩ := List.mem_map.mp hrow
      exact (hfits r hr).2
  exact Prod.ext rfl hself

/-- What `execute_update` prepares: nothing without matched rows, the new rows alone when no key column is set, else the
    new rows and the old keys, with the new identities that are not old ones to be probed. -/
theorem prepareUpdate_eq_ok {prepared : Prepared N V R} (h : prepareUpdate K m H update = .ok prepared) :
    (matchedRows K m H update.selection = [] ∧ prepared = .nothing) ∨
    (matchedRows K m H update.selection ≠ [] ∧ update.setsKey m = false ∧
      prepared = .send ⟨[newRowsBatch K m H update], []⟩ (newRowsBatch K m H update).rows.length) ∨
    (matchedRows K m H update.selection ≠ [] ∧ update.setsKey m = true ∧
      prepared = .checkAndSend ((rowUuidsOf K m (newRowsBatch K m H update)).filter
          (fun u => u ∉ rowUuidsOf K m (matchedKeys K m H update.selection)))
        ⟨[newRowsBatch K m H update], [matchedKeys K m H update.selection]⟩ (newRowsBatch K m H update).rows.length) := by
  simp only [prepareUpdate] at h
  split at h
  · cases h
  split at h
  · cases h
  split at h
  · rename_i hnil
    cases h
    exact Or.inl ⟨hnil, rfl⟩
  rename_i hne
  split at h
  · cases h
  rename_i casted hcast
  obtain ⟨-, -, rfl⟩ := castToSchema_eq_ok.mp hcast
  split at h
  · rename_i hkey
    split at h
    · cases h
    split at h
    · rename_i new old hnew hold
      obtain ⟨-, -, rfl⟩ := deriveRowUuids_eq_ok.mp hnew
      obtain ⟨-, -, rfl⟩ := deriveRowUuids_eq_ok.mp hold
      cases h
      exact Or.inr (Or.inr ⟨hne, hkey, rfl⟩)
    · cases h
    · cases h
  · rename_i hkey
    cases h
    exact Or.inr (Or.inl ⟨hne, by simpa using hkey, rfl⟩)

omit [DecidableEq R] [DecidableEq V] in
/-- A column whose values are kept has the cells it had. -/
theorem cell_map_zip {fields : List (Field N)} {row : List V} {name : N} {g : Field N → V → V}
    (hkept : ∀ field v, field.name = name → g field v = v) :
    cell fields ((fields.zip row).map (fun c => g c.1 c.2)) name = cell fields row name := by
  induction fields generalizing row with
  | nil => rfl
  | cons field fields ih =>
      cases row with
      | nil => rfl
      | cons v row =>
          rw [List.zip_cons_cons, List.map_cons]
          by_cases hname : field.name = name
          · rw [hkept field v hname, ← hname, cell_cons_self, cell_cons_self]
          · rw [cell_cons_of_ne hname, cell_cons_of_ne hname, ih]

omit [DecidableEq R] [DecidableEq V] in
/-- A row keeps its identity if no key column is set. -/
theorem identity_selectRow (hkey : update.setsKey m = false) (row : List V) :
    m.identity K (update.selectRow m row) = m.identity K row := by
  rw [TableMeta.identity, TableMeta.identity, keyCells, keyCells]
  congr 1
  refine List.filterMap_congr (fun pk hpk => ?_)
  have hset : update.set pk = none := by
    simp only [Update.setsKey, List.any_eq_false, Bool.not_eq_true, Option.isSome_eq_false_iff, Option.isNone_iff_eq_none]
      at hkey
    exact hkey pk hpk
  exact cell_map_zip (g := fun field v => (update.set field.name).elim v (fun e => e.eval row))
    (fun field v hname => by rw [hname, hset]; rfl)

/-- What a successful `UPDATE` of at least one row did to the table. -/
structure Replaced (K : Kernel V R) (m : TableMeta N) (H H' : History R (List V)) (update : Update N V) : Prop where
  /-- The new rows have different identities. -/
  distinct : ((images K m H update).map (m.identity K)).Nodup
  /-- A new identity that no matched row had was free. -/
  free : ∀ row ∈ images K m H update, m.identity K row ∉ (matchedRows K m H update.selection).map (m.identity K) →
    liveRow H (m.identity K row) = none
  /-- The new rows are there. -/
  new : ∀ row ∈ images K m H update, liveRow H' (m.identity K row) = some row
  /-- Under every other identity, the matched rows are gone and the rest is as it was. -/
  old : ∀ u, u ∉ (images K m H update).map (m.identity K) →
    liveRow H' u = if u ∈ (matchedRows K m H update.selection).map (m.identity K) then none else liveRow H u

/-- What the call makes of the table, given the identities it deletes. -/
theorem replaced_of_writeData {clock : CallClock} {H' : History R (List V)} {deletes : List (RecordBatch N V)}
    (hfits : Fits K m H update) (hne : matchedRows K m H update.selection ≠ [])
    (hwrite : writeData K m clock H ⟨[newRowsBatch K m H update], deletes⟩ = .ok H')
    (hfree : ∀ row ∈ images K m H update, m.identity K row ∉ (matchedRows K m H update.selection).map (m.identity K) →
      liveRow H (m.identity K row) = none)
    (hdeleted : ∀ u, u ∉ (images K m H update).map (m.identity K) →
      (u ∈ deletes.flatMap (rowUuidsOf K m) ↔ u ∈ (matchedRows K m H update.selection).map (m.identity K))) :
    Replaced K m H H' update := by
  obtain ⟨-, hchange, -⟩ := writeData_eq_ok.mp hwrite
  have hrows : (newRowsBatch K m H update).rows ≠ [] := by
    rw [rows_newRowsBatch hfits]
    exact fun hnil => hne (List.map_eq_nil_iff.mp hnil)
  have hupsert : upsertError K m [] (newRowsBatch K m H update) = none := by
    have h := (Option.or_eq_none_iff.mp hchange).2
    simpa [upsertsError] using h
  obtain ⟨haccepted, hdistinct, -⟩ := (upsertError_eq_none.mp hupsert).resolve_left hrows
  have hwritten : (⟨[newRowsBatch K m H update], deletes⟩ : RowChange N V).written K m =
      (images K m H update).map (fun row => (m.identity K row, row)) := by
    rw [RowChange.written, List.flatMap_singleton, writtenRows_newRowsBatch hfits haccepted]
  have hids : ((images K m H update).map (fun row => (m.identity K row, row))).map Prod.fst =
      (images K m H update).map (m.identity K) := by
    rw [List.map_map]
    rfl
  refine ⟨rowUuidsOf_newRowsBatch hfits ▸ hdistinct, hfree, fun row hrow => ?_, fun u hu => ?_⟩
  · refine liveRow_writeData_of_written hwrite (p := (m.identity K row, row)) ?_
    rw [hwritten]
    exact List.mem_map.mpr ⟨row, hrow, rfl⟩
  · have hlive := liveRow_writeData_of_not_written hwrite (u := u) (by rw [hwritten, hids]; exact hu)
    rw [hlive]
    exact if_congr (hdeleted u hu) rfl rfl

/-- **How an `UPDATE` ends**: nothing matched, or an error that leaves the table alone, or the matched rows replaced. -/
theorem executeUpdate_cases (clock : CallClock) (hfits : Fits K m H update) :
    (matchedRows K m H update.selection = [] ∧ executeUpdate K m clock H update = (.ok 0, H)) ∨
    (∃ e, executeUpdate K m clock H update = (.error e, H)) ∨
    ∃ H', executeUpdate K m clock H update = (.ok (matchedRows K m H update.selection).length, H') ∧
      Replaced K m H H' update := by
  cases hprepare : prepareUpdate K m H update with
  | error e => exact Or.inr (Or.inl ⟨e, by rw [executeUpdate, hprepare, execute]⟩)
  | ok prepared =>
      have hcount : (newRowsBatch K m H update).rows.length = (matchedRows K m H update.selection).length := by
        rw [rows_newRowsBatch hfits, images, List.length_map]
      rw [executeUpdate, hprepare, execute]
      rcases prepareUpdate_eq_ok hprepare with ⟨hnil, rfl⟩ | ⟨hne, hkey, rfl⟩ | ⟨hne, hkey, rfl⟩
      · exact Or.inl ⟨hnil, rfl⟩
      · -- No key column is set: every new row has the identity of the row it replaces.
        have hids : (images K m H update).map (m.identity K) =
            (matchedRows K m H update.selection).map (m.identity K) := by
          rw [images, List.map_map]
          exact List.map_congr_left (fun row _ => identity_selectRow hkey row)
        rcases finish_send_cases K m clock H ⟨[newRowsBatch K m H update], []⟩ (newRowsBatch K m H update).rows.length with
          ⟨H', hwrite, hfinish⟩ | ⟨e, -, hfinish⟩
        · refine Or.inr (Or.inr ⟨H', by rw [hfinish, hcount], replaced_of_writeData hfits hne hwrite ?_ ?_⟩)
          · intro row hrow hnot
            exact absurd (hids ▸ List.mem_map_of_mem hrow) hnot
          · intro u hu
            rw [hids] at hu
            simp [hu]
        · exact Or.inr (Or.inl ⟨e, hfinish⟩)
      · rcases finish_checkAndSend_cases K m clock H ((rowUuidsOf K m (newRowsBatch K m H update)).filter
            (fun u => u ∉ rowUuidsOf K m (matchedKeys K m H update.selection)))
          ⟨[newRowsBatch K m H update], [matchedKeys K m H update.selection]⟩ (newRowsBatch K m H update).rows.length with
          ⟨H', hprobe, hwrite, hfinish⟩ | ⟨e, -, hfinish⟩
        · refine Or.inr (Or.inr ⟨H', by rw [hfinish, hcount], replaced_of_writeData hfits hne hwrite ?_ ?_⟩)
          · intro row hrow hnot
            refine hprobe _ (List.mem_filter.mpr ⟨?_, ?_⟩)
            · rw [rowUuidsOf_newRowsBatch hfits]
              exact List.mem_map_of_mem hrow
            · rw [rowUuidsOf_matchedKeys]
              exact decide_eq_true hnot
          · intro u _
            rw [List.flatMap_singleton, rowUuidsOf_matchedKeys]
        · exact Or.inr (Or.inl ⟨e, hfinish⟩)

end Statement

/-! ## Simultaneous replacement -/

/-- **What an `UPDATE` promises.** If it fails, the table is the old one; if it succeeds with count `n`, then `n` rows
    matched, the live rows are those that did not match together with the images of those that did, and no two of them
    have one key. -/
def Simultaneous (K : Kernel V R) (m : TableMeta N) (H : History R (List V)) (update : Update N V)
    (result : Except (Status N V R) Nat × History R (List V)) : Prop :=
  match result with
  | (.error _, H') => H' = H
  | (.ok n, H')    => n = (matchedRows K m H update.selection).length ∧
      ((images K m H update).map m.key).Nodup ∧
      (∀ row, Live H' row ↔ (Live H row ∧ update.selection row = false) ∨
        ∃ r, Live H r ∧ update.selection r = true ∧ row = update.selectRow m r) ∧
      ∀ u u' row row', liveRow H' u = some row → liveRow H' u' = some row' → m.key row = m.key row' → u = u'

/-- Two images have one key, or an image has the key of a row that did not match. -/
def Collides (K : Kernel V R) (m : TableMeta N) (H : History R (List V)) (update : Update N V) : Prop :=
  ¬ ((images K m H update).map m.key).Nodup ∨
    ∃ row ∈ images K m H update, ∃ other, Live H other ∧ update.selection other = false ∧ m.key other = m.key row

/-- What an `UPDATE` promises, and that it fails whenever two results share a key or a result takes the key of a row that
    did not match. -/
def KeepsPromise (K : Kernel V R) (m : TableMeta N) (clock : CallClock) (H : History R (List V)) (update : Update N V) :
    Prop :=
  Simultaneous K m H update (executeUpdate K m clock H update) ∧
    (Collides K m H update → ∃ e, executeUpdate K m clock H update = (.error e, H))

/-! ## Rows filed under their keys -/

/-- The matched rows are filed under the identities of their keys, as a whole, and so is every other row whose key an image
    takes. -/
structure Filed (K : Kernel V R) (m : TableMeta N) (H : History R (List V)) (update : Update N V) : Prop where
  matched : ∀ u row, liveRow H u = some row → update.selection row = true →
    u ∈ (matchedRows K m H update.selection).map (m.identity K)
  unmatched : ∀ u row, liveRow H u = some row → update.selection row = false → ∀ image ∈ images K m H update,
    m.key row = m.key image → m.identity K row = u

section Main

variable {K : Kernel V R} {m : TableMeta N} {H H' : History R (List V)} {update : Update N V}

omit [DecidableEq V] [DecidableEq R] in
/-- Rows of different identities have different keys. -/
theorem nodup_key_of_nodup_identity {rows : List (List V)} (hwidth : ∀ row ∈ rows, row.length = m.arrowSchema.length)
    (h : (rows.map (m.identity K)).Nodup) : (rows.map m.key).Nodup := by
  refine List.pairwise_map.mpr ((List.pairwise_map.mp h).imp_of_mem ?_)
  intro row row' hrow hrow' hne hkey
  exact hne (TableMeta.identity_eq_of_key_eq K (hwidth row hrow) (hwidth row' hrow') hkey)

omit [DecidableEq V] in
/-- If every matched row is under the identity of a matched row, no other row is: there are as many places as rows. -/
theorem Filed.not_mem (hfull : FullRows m H) (hfiled : Filed K m H update) {u : R} {row : List V}
    (hu : liveRow H u = some row) (hsel : update.selection row = false) :
    u ∉ (matchedRows K m H update.selection).map (m.identity K) := by
  obtain ⟨us, hnodup, hlen, hmem⟩ := exists_matchedUuids K hfull update.selection
  have hsub : us ⊆ (matchedRows K m H update.selection).map (m.identity K) := by
    intro w hw
    obtain ⟨r, hr, hrsel⟩ := (hmem w).mp hw
    exact hfiled.matched w r hr hrsel
  have hperm := (List.subperm_of_subset hnodup hsub).perm_of_length_le (by rw [List.length_map, hlen])
  intro hid
  obtain ⟨r, hr, hrsel⟩ := (hmem u).mp (hperm.mem_iff.mpr hid)
  rw [hu] at hr
  rw [Option.some.inj hr, hrsel] at hsel
  cases hsel

omit [DecidableEq V] in
/-- An identity that no matched row has and that was live is not that of an image: the probe would have found it. -/
theorem Replaced.not_mem_images (h : Replaced K m H H' update) {u : R} {row : List V} (hu : liveRow H u = some row)
    (hnot : u ∉ (matchedRows K m H update.selection).map (m.identity K)) :
    u ∉ (images K m H update).map (m.identity K) := by
  intro hmem
  obtain ⟨image, himage, rfl⟩ := List.mem_map.mp hmem
  rw [h.free image himage hnot] at hu
  cases hu

omit [DecidableEq V] in
/-- A row after a replacement is an image under its identity, or was there under an identity of no matched row. -/
theorem Replaced.cases (h : Replaced K m H H' update) {u : R} {row : List V} (hu : liveRow H' u = some row) :
    (row ∈ images K m H update ∧ u = m.identity K row) ∨
      (u ∉ (images K m H update).map (m.identity K) ∧ liveRow H u = some row ∧
        u ∉ (matchedRows K m H update.selection).map (m.identity K)) := by
  by_cases hmem : u ∈ (images K m H update).map (m.identity K)
  · obtain ⟨image, himage, rfl⟩ := List.mem_map.mp hmem
    rw [h.new image himage] at hu
    cases hu
    exact .inl ⟨himage, rfl⟩
  · rw [h.old u hmem] at hu
    split at hu
    · cases hu
    · rename_i hnot
      exact .inr ⟨hmem, hu, hnot⟩

section Filed

variable (h : Replaced K m H H' update) (hfull : FullRows m H) (hfiled : Filed K m H update)
include h hfull hfiled

omit [DecidableEq V] in
theorem Replaced.live_iff (row : List V) :
    Live H' row ↔ (Live H row ∧ update.selection row = false) ∨
      ∃ r, Live H r ∧ update.selection r = true ∧ row = update.selectRow m r := by
  constructor
  · rintro ⟨u, hu⟩
    rcases h.cases hu with ⟨himage, -⟩ | ⟨-, hold, hnot⟩
    · obtain ⟨r, hr, rfl⟩ := List.mem_map.mp himage
      obtain ⟨hlive, hsel⟩ := (mem_matchedRows hfull).mp hr
      exact .inr ⟨r, hlive, hsel, rfl⟩
    · refine .inl ⟨⟨u, hold⟩, ?_⟩
      by_contra hsel
      rw [Bool.not_eq_false] at hsel
      exact hnot (hfiled.matched u row hold hsel)
  · rintro (⟨⟨u, hu⟩, hsel⟩ | ⟨r, hlive, hsel, rfl⟩)
    · have hnot := hfiled.not_mem hfull hu hsel
      refine ⟨u, ?_⟩
      rw [h.old u (h.not_mem_images hu hnot), if_neg hnot, hu]
    · exact ⟨_, h.new _ (List.mem_map.mpr ⟨r, (mem_matchedRows hfull).mpr ⟨hlive, hsel⟩, rfl⟩)⟩

omit [DecidableEq V] in
/-- An image has the key of no row that did not match. -/
theorem Replaced.key_ne {u : R} {row image : List V} (hu : liveRow H u = some row)
    (hsel : update.selection row = false) (himage : image ∈ images K m H update) : m.key row ≠ m.key image := by
  intro hkey
  have hid := hfiled.unmatched u row hu hsel image himage hkey
  rw [TableMeta.identity_eq_of_key_eq K (hfull.length_eq hu) (length_images himage) hkey] at hid
  exact h.not_mem_images hu (hfiled.not_mem hfull hu hsel) (hid ▸ List.mem_map_of_mem himage)

/-- Where the rows are filed under their keys, a replacement is what an `UPDATE` promises. -/
theorem Replaced.promise (hkeys : DistinctKeys m H) {n : Nat} (hn : n = (matchedRows K m H update.selection).length) :
    Simultaneous K m H update (.ok n, H') ∧ ¬ Collides K m H update := by
  have hdistinct := nodup_key_of_nodup_identity (fun row hrow => length_images hrow) h.distinct
  -- A row that stayed did not match.
  have hstayed : ∀ {u row}, liveRow H u = some row → u ∉ (matchedRows K m H update.selection).map (m.identity K) →
      update.selection row = false := by
    intro u row hu hnot
    by_contra hsel
    rw [Bool.not_eq_false] at hsel
    exact hnot (hfiled.matched u row hu hsel)
  refine ⟨⟨hn, hdistinct, h.live_iff hfull hfiled, ?_⟩, ?_⟩
  · intro u u' row row' hu hu' hkey
    rcases h.cases hu with ⟨himage, rfl⟩ | ⟨-, hold, hnot⟩ <;> rcases h.cases hu' with ⟨himage', rfl⟩ | ⟨-, hold', hnot'⟩
    · exact TableMeta.identity_eq_of_key_eq K (length_images himage) (length_images himage') hkey
    · exact absurd hkey.symm (h.key_ne hfull hfiled hold' (hstayed hold' hnot') himage)
    · exact absurd hkey (h.key_ne hfull hfiled hold (hstayed hold hnot) himage')
    · exact hkeys.eq_of_key_eq hold hold' hkey
  · rintro (hdup | ⟨image, himage, other, ⟨u, hu⟩, hsel, hkey⟩)
    · exact hdup hdistinct
    · exact h.key_ne hfull hfiled hu hsel himage hkey

end Filed

omit [DecidableEq V] in
/-- A replacement that keeps the promise found the rows filed under their keys. -/
theorem Replaced.filed (h : Replaced K m H H' update) (hfull : FullRows m H) {n : Nat}
    (hsim : Simultaneous K m H update (.ok n, H')) (hnot : ¬ Collides K m H update) : Filed K m H update := by
  obtain ⟨-, -, hlive, hone⟩ := hsim
  constructor
  · intro u row hu hsel
    by_contra hid
    have himages := h.not_mem_images hu hid
    have hstays : liveRow H' u = some row := by rw [h.old u himages, if_neg hid, hu]
    rcases (hlive row).mp ⟨u, hstays⟩ with ⟨-, hsel'⟩ | ⟨r, hr, hrsel, rfl⟩
    · rw [hsel] at hsel'
      cases hsel'
    · -- The row that stayed is an image, which is also under its own identity.
      have himage : update.selectRow m r ∈ images K m H update :=
        List.mem_map.mpr ⟨r, (mem_matchedRows hfull).mpr ⟨hr, hrsel⟩, rfl⟩
      have hsame := hone u _ _ _ hstays (h.new _ himage) rfl
      exact himages (hsame ▸ List.mem_map_of_mem himage)
  · intro u row hu hsel image himage hkey
    exact absurd (.inr ⟨image, himage, row, ⟨u, hu⟩, hsel, hkey⟩) hnot

omit [DecidableEq V] in
/-- Without matched rows there is nothing to file. -/
theorem filed_of_matchedRows_eq_nil (hfull : FullRows m H) (hnil : matchedRows K m H update.selection = []) :
    Filed K m H update := by
  constructor
  · intro u row hu hsel
    exact absurd ((mem_matchedRows hfull).mpr ⟨⟨u, hu⟩, hsel⟩) (hnil ▸ List.not_mem_nil)
  · intro u row _ _ image himage
    rw [images, hnil] at himage
    cases himage

theorem simultaneous_of_matchedRows_eq_nil (hfull : FullRows m H) (hkeys : DistinctKeys m H)
    (hnil : matchedRows K m H update.selection = []) :
    Simultaneous K m H update (.ok 0, H) ∧ ¬ Collides K m H update := by
  have himages : images K m H update = [] := by rw [images, hnil, List.map_nil]
  have hunmatched : ∀ row, Live H row → update.selection row = false := by
    intro row hlive
    by_contra hsel
    rw [Bool.not_eq_false] at hsel
    exact List.not_mem_nil (hnil ▸ (mem_matchedRows hfull).mpr ⟨hlive, hsel⟩)
  refine ⟨⟨by rw [hnil, List.length_nil], by rw [himages]; exact List.nodup_nil, fun row => ⟨fun hlive =>
    .inl ⟨hlive, hunmatched row hlive⟩, ?_⟩, fun _ _ _ _ hu hu' hkey => hkeys.eq_of_key_eq hu hu' hkey⟩, ?_⟩
  · rintro (⟨hlive, -⟩ | ⟨r, hlive, hsel, -⟩)
    · exact hlive
    · rw [hunmatched r hlive] at hsel
      cases hsel
  · rintro (hdup | ⟨row, hrow, -⟩)
    · rw [himages] at hdup
      exact absurd List.nodup_nil hdup
    · rw [himages] at hrow
      cases hrow

/-- **UPDATE and simultaneous replacement.** In a table of full rows with distinct keys, an `UPDATE` whose results fit keeps
    its promise exactly if it fails or the rows were filed under their keys; so it does in a table where every row is under
    the identity of its key. -/
theorem update_simultaneous_iff (clock : CallClock) (update : Update N V) (hfull : FullRows m H)
    (hkeys : DistinctKeys m H) (hfits : Fits K m H update) :
    (KeepsPromise K m clock H update ↔ ((executeUpdate K m clock H update).1.isOk = true → Filed K m H update)) ∧
    ((∀ u row, liveRow H u = some row → m.identity K row = u) → KeepsPromise K m clock H update) := by
  have hiff : KeepsPromise K m clock H update ↔
      ((executeUpdate K m clock H update).1.isOk = true → Filed K m H update) := by
    unfold KeepsPromise
    rcases executeUpdate_cases clock hfits with ⟨hnil, hok⟩ | ⟨e, herr⟩ | ⟨H', hok, hreplaced⟩
    · obtain ⟨hsim, hnot⟩ := simultaneous_of_matchedRows_eq_nil hfull hkeys hnil
      rw [hok]
      exact iff_of_true ⟨hsim, fun hcollides => absurd hcollides hnot⟩
        (fun _ => filed_of_matchedRows_eq_nil hfull hnil)
    · rw [herr]
      exact iff_of_true ⟨rfl, fun _ => ⟨e, rfl⟩⟩ (fun hisOk => by cases hisOk)
    · rw [hok]
      constructor
      · rintro ⟨hsim, hcollides⟩ -
        refine hreplaced.filed hfull hsim (fun hboth => ?_)
        obtain ⟨e, he⟩ := hcollides hboth
        cases he
      · intro hfiled
        obtain ⟨hsim, hnot⟩ := hreplaced.promise hfull (hfiled rfl) hkeys rfl
        exact ⟨hsim, fun hboth => absurd hboth hnot⟩
  refine ⟨hiff, fun hkeyed => hiff.mpr (fun _ => ⟨fun u row hu hsel => ?_, fun u row hu _ _ _ _ => hkeyed u row hu⟩)⟩
  exact List.mem_map.mpr ⟨row, (mem_matchedRows hfull).mpr ⟨⟨u, hu⟩, hsel⟩, hkeyed u row hu⟩

end Main

/-- The table with the rows `(1, 10)`, `(2, 20)` and `(5, 50)`. -/
def threeRows : Table integerKernel pairTable :=
  (Table.empty integerKernel pairTable).write (clockAt 1)
    ⟨[⟨pairTable.arrowSchema, [[some 1, some 10], [some 2, some 20], [some 5, some 50]], by decide⟩], []⟩
    (by decide +kernel)

/-- `UPDATE t SET a = a + k WHERE a <= 2`. -/
def shiftKeys (k : Int) : Update Char (Option Int) where
  assignments := [('a', ⟨.int64, fun row => (row.head?.join).map (· + k)⟩)]
  selection row := (row.head?.join).any (fun a => a ≤ 2)

/-- A chain succeeds: 1 moves to 2 while 2 moves to 3. Moving 1 to 4 and 2 to 5 fails, 5 is taken. -/
theorem update_simultaneous_shiftKeys :
    KeepsPromise integerKernel pairTable (clockAt 2) threeRows.history (shiftKeys 1) ∧
    (executeUpdate integerKernel pairTable (clockAt 2) threeRows.history (shiftKeys 1)).1 = .ok 2 ∧
    ∃ e, executeUpdate integerKernel pairTable (clockAt 2) threeRows.history (shiftKeys 3) = (.error e, threeRows.history) := by
  have hfull : FullRows pairTable threeRows.history := by decide +kernel
  have hkeys : DistinctKeys pairTable threeRows.history := by decide +kernel
  refine ⟨(update_simultaneous_iff (clockAt 2) (shiftKeys 1) hfull hkeys (by decide +kernel)).2 threeRows.keyed,
    by decide +kernel, ?_⟩
  refine ((update_simultaneous_iff (clockAt 2) (shiftKeys 3) hfull hkeys (by decide +kernel)).2 threeRows.keyed).2 ?_
  refine Or.inr ⟨[some 5, some 20], by decide +kernel, [some 5, some 50], ⟨['t', '\x00', '5'], ?_⟩, ?_, ?_⟩
  · decide +kernel
  · decide
  · decide

/-- A table with a nanosecond timestamp as its key `a` and a column `b` that is kept to thousands too. -/
def instantPairs : TableMeta Char where
  tableUuid := ['t']
  arrowSchema := [⟨'a', .timestamp .nanosecond none, false⟩, ⟨'b', .timestamp .nanosecond none, true⟩]
  primaryKeys := ['a']

/-- The table after the `INSERT` of the row `(1, 1000)`, which is stored as `(0, 1000)`. -/
def roundedRow : History (List Char) (List (Option Int)) :=
  (executeInsert instantKernel instantPairs (clockAt 1) .empty
    ⟨[], ⟨instantPairs.arrowSchema, [[[some 1, some 1000]]], by simp [instantPairs]⟩, .none⟩).2

/-- `UPDATE t SET b = 2000`. -/
def setB : Update Char (Option Int) where
  assignments := [('b', ⟨.timestamp .nanosecond none, fun _ => some 2000⟩)]
  selection _ := true

/-- The one row of the table is under the identity of the key it was sent with. The `UPDATE` writes its image under the
    identity of the key it has, reports one row, and leaves the old row beside it. -/
theorem update_simultaneous_fails :
    FullRows instantPairs roundedRow ∧ DistinctKeys instantPairs roundedRow ∧
      Fits instantKernel instantPairs roundedRow setB ∧
      (executeUpdate instantKernel instantPairs (clockAt 2) roundedRow setB).1 = .ok 1 ∧
      ¬ KeepsPromise instantKernel instantPairs (clockAt 2) roundedRow setB := by
  have hfull : FullRows instantPairs roundedRow := by decide +kernel
  refine ⟨hfull, by decide +kernel, by decide +kernel, by decide +kernel, ?_⟩
  rintro ⟨hsim, -⟩
  have hstays : liveRow (executeUpdate instantKernel instantPairs (clockAt 2) roundedRow setB).2 ['t', '\x00', '1'] =
      some [some 0, some 1000] := by decide +kernel
  have hok : (executeUpdate instantKernel instantPairs (clockAt 2) roundedRow setB).1 = .ok 1 := by decide +kernel
  cases hresult : executeUpdate instantKernel instantPairs (clockAt 2) roundedRow setB with
  | mk result H' =>
      rw [hresult] at hsim hstays hok
      cases hok
      rcases (hsim.2.2.1 _).mp ⟨_, hstays⟩ with ⟨-, hsel⟩ | ⟨r, hr, -, himage⟩
      · cases hsel
      · have hother : ∀ r ∈ matchedRows instantKernel instantPairs roundedRow setB.selection,
            [some 0, some 1000] ≠ setB.selectRow instantPairs r := by decide +kernel
        exact hother r ((mem_matchedRows hfull).mpr ⟨hr, rfl⟩) himage

end Penca.Sql
