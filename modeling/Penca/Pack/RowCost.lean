import Mathlib.Algebra.GroupWithZero.Nat
import Penca.Core.Types
import Penca.Lib.GreedyCut
import Penca.Lifecycle.Ops

/-!
# `Pack.RowCost` — the cost of a row and `chunk_row_ranges`

The chunker charges a row what it takes in memory on its own: a constant for the fixed-width columns, summed once
per batch, and the payload of each variable-width column. `chunk_row_ranges` walks the batch once and returns the
ranges of rows that are cut out of it.

## Contents
- **Costs.** `fixedWidthByteWidth`, `variableWidthRowBytes`, `RowCostModel`, `batchInMemoryBytes`. A row with a
  column the chunker does not support has no cost; `SupportedRow` is a row with one.
- **Ranges.** `RangeWalk`, `chunkRanges` for rows with a cost, `chunkRowRanges` for batches.
- **Spec.** `chunkRanges_eq`: the ranges are the offsets of the greedy cut of the rows; `Chunking` says what that
  means for the ranges, and `chunkRanges_extends` that a longer batch keeps them.
-/

namespace Penca.Chunker

/-! ## Costs -/

/-- `CanonicalType::from_arrow` and `fixed_width_bytes`: the payload and one byte of validity. -/
def fixedWidthByteWidth : DataType → Option Int
  | .boolean | .int8 | .uint8                                      => some (1 + 1)
  | .int16 | .uint16 | .float16                                    => some (2 + 1)
  | .int32 | .uint32 | .float32 | .date32 | .time32 _              => some (4 + 1)
  | .int64 | .uint64 | .float64 | .date64 | .time64 _ | .timestamp _ _ => some (8 + 1)
  | .decimal128 precision _ => if 1 ≤ precision ∧ precision ≤ 38 then some (16 + 1) else none
  | .decimal256 precision _ => if 1 ≤ precision ∧ precision ≤ 76 then some (32 + 1) else none
  | .utf8 | .largeUtf8 | .utf8View | .binary | .largeBinary | .binaryView => none
  | .list _ _ _ | .largeList _ _ _ | .fixedSizeList _ _ _ _ | .unsupported _ => none

/-- What the chunker reads of one entry of a column: nothing of a fixed-width value, the length of a text or
    binary value, the entries of a list. -/
inductive Cell where
  | fixed
  | bytes (length : Nat)
  | items (entries : List Cell)

/-- `ApiError::InvalidRequest`. -/
inductive ChunkError where
  | downcast (message : String)
  | unsupported (dtype : DataType)
  deriving DecidableEq, Repr

/-- The text of the error. -/
def ChunkError.message : ChunkError → String
  | .downcast message  => message
  | .unsupported dtype => "chunker: unsupported column DataType: " ++ reprStr dtype

/-- The sum over the child entries of a list value. -/
def childSum (childFixed : Option Int) (variableBytes : Cell → Except ChunkError Int) (entries : List Cell) :
    Except ChunkError Int :=
  entries.foldlM (fun sum entry =>
    match childFixed with
    | some width => .ok (sum + width)
    | none       => (variableBytes entry).map (fun bytes => sum + bytes)) 0

/-- `variable_width_row_bytes`. -/
def variableWidthRowBytes : DataType → Cell → Except ChunkError Int
  | .utf8,        .bytes length => .ok (length + 4 + 1)
  | .utf8,        _             => .error (.downcast "Utf8 column is not a StringArray")
  | .binary,      .bytes length => .ok (length + 4 + 1)
  | .binary,      _             => .error (.downcast "Binary column is not a BinaryArray")
  | .largeUtf8,   .bytes length => .ok (length + 8 + 1)
  | .largeUtf8,   _             => .error (.downcast "LargeUtf8 column is not a LargeStringArray")
  | .largeBinary, .bytes length => .ok (length + 8 + 1)
  | .largeBinary, _             => .error (.downcast "LargeBinary column is not a LargeBinaryArray")
  | .utf8View,    .bytes length => .ok (length + 16 + 1)
  | .utf8View,    _             => .error (.downcast "Utf8View column is not a StringViewArray")
  | .binaryView,  .bytes length => .ok (length + 16 + 1)
  | .binaryView,  _             => .error (.downcast "BinaryView column is not a BinaryViewArray")
  | .list _ _ child, .items entries =>
      (childSum (fixedWidthByteWidth child) (variableWidthRowBytes child) entries).map (· + 4 + 1)
  | .list _ _ _, _ => .error (.downcast "List column is not a ListArray")
  | .largeList _ _ child, .items entries =>
      (childSum (fixedWidthByteWidth child) (variableWidthRowBytes child) entries).map (· + 8 + 1)
  | .largeList _ _ _, _ => .error (.downcast "LargeList column is not a LargeListArray")
  -- Fixed size: no offset, only the validity byte.
  | .fixedSizeList _ _ child _, .items entries =>
      (childSum (fixedWidthByteWidth child) (variableWidthRowBytes child) entries).map (· + 1)
  | .fixedSizeList _ _ _ _, _ => .error (.downcast "FixedSizeList column is not a FixedSizeListArray")
  | other, _ => .error (.unsupported other)

/-- `RecordBatch`: the column types, and the rows with one cell per column. -/
structure RecordBatch where
  schema : List DataType
  rows   : List (List Cell)

/-- `RecordBatch::slice`. -/
def RecordBatch.slice (batch : RecordBatch) (offset len : Nat) : RecordBatch :=
  { batch with rows := (batch.rows.drop offset).take len }

/-- `RowCostModel`: the cost of the fixed-width columns, and the positions and types of the others. -/
structure RowCostModel where
  fixedPerRow  : Int
  variableCols : List (DataType × Nat)

/-- `RowCostModel::build`. -/
def RowCostModel.build (schema : List DataType) : RowCostModel :=
  schema.zipIdx.foldl (fun model col =>
    match fixedWidthByteWidth col.1 with
    | some width => { model with fixedPerRow := model.fixedPerRow + width }
    | none       => { model with variableCols := model.variableCols ++ [col] }) ⟨0, []⟩

/-- `RowCostModel::row_bytes`. -/
def RowCostModel.rowBytes (model : RowCostModel) (row : List Cell) : Except ChunkError Int :=
  model.variableCols.foldlM (fun bytes col =>
    (variableWidthRowBytes col.1 (row.getD col.2 .fixed)).map (fun more => bytes + more)) model.fixedPerRow

/-- `batch_in_memory_bytes`. -/
def batchInMemoryBytes (batch : RecordBatch) : Except ChunkError Int :=
  batch.rows.foldlM (fun total row =>
    ((RowCostModel.build batch.schema).rowBytes row).map (fun bytes => total + bytes)) 0

/-! ### No cost is negative -/

theorem fixedWidthByteWidth_nonneg {dtype : DataType} {width : Int} (h : fixedWidthByteWidth dtype = some width) :
    0 ≤ width := by
  cases dtype <;> simp only [fixedWidthByteWidth, Option.some.injEq, reduceCtorEq, Option.ite_none_right_eq_some] at h <;>
    omega

/-- A fold that adds costs that are not negative stays where it started or above. -/
theorem le_of_foldlM_add {α : Type} {cost : α → Except ChunkError Int} {xs : List α}
    (hcost : ∀ x ∈ xs, ∀ bytes, cost x = .ok bytes → 0 ≤ bytes) {start total : Int}
    (h : xs.foldlM (fun sum x => (cost x).map (fun bytes => sum + bytes)) start = .ok total) : start ≤ total := by
  induction xs generalizing start with
  | nil =>
      cases h
      exact le_refl _
  | cons x xs ih =>
      rw [List.foldlM_cons] at h
      cases hx : cost x with
      | error e =>
          rw [hx] at h
          cases h
      | ok bytes =>
          rw [hx] at h
          have hrest : start + bytes ≤ total := ih (fun y hy => hcost y (List.mem_cons_of_mem _ hy)) h
          have hbytes := hcost x List.mem_cons_self bytes hx
          omega

theorem childSum_nonneg {childFixed : Option Int} {variableBytes : Cell → Except ChunkError Int}
    {entries : List Cell} {sum : Int} (hfixed : ∀ width ∈ childFixed, 0 ≤ width)
    (hvariable : ∀ entry bytes, variableBytes entry = .ok bytes → 0 ≤ bytes)
    (h : childSum childFixed variableBytes entries = .ok sum) : 0 ≤ sum := by
  cases childFixed with
  | some width =>
      have hcost : ∀ entry ∈ entries, ∀ bytes, (Except.ok width : Except ChunkError Int) = .ok bytes → 0 ≤ bytes := by
        intro entry _ bytes hbytes
        cases hbytes
        exact hfixed _ rfl
      exact le_of_foldlM_add hcost h
  | none => exact le_of_foldlM_add (fun entry _ => hvariable entry) h

theorem exists_of_map_eq_ok {e : Except ChunkError Int} {f : Int → Int} {b : Int} (h : e.map f = .ok b) :
    ∃ a, e = .ok a ∧ f a = b := by
  cases e with
  | error e => cases h
  | ok a =>
      cases h
      exact ⟨a, rfl, rfl⟩

theorem variableWidthRowBytes_nonneg {dtype : DataType} : ∀ {cell : Cell} {bytes : Int},
    variableWidthRowBytes dtype cell = .ok bytes → 0 ≤ bytes := by
  -- By induction on the type: a list's cost is that of its entries and a constant.
  induction dtype with
  | list item nullable child ih | largeList item nullable child ih | fixedSizeList item nullable child length ih =>
      intro cell bytes h
      cases cell with
      | fixed | bytes => simp [variableWidthRowBytes] at h
      | items entries =>
          obtain ⟨sum, hsum, rfl⟩ := exists_of_map_eq_ok (by simpa only [variableWidthRowBytes] using h)
          have hpos := childSum_nonneg (fun width hwidth => fixedWidthByteWidth_nonneg hwidth)
            (fun entry bytes => ih) hsum
          omega
  | utf8 | binary | largeUtf8 | largeBinary | utf8View | binaryView =>
      intro cell bytes h
      cases cell <;> simp only [variableWidthRowBytes, Except.ok.injEq, reduceCtorEq] at h
      omega
  | _ =>
      intro cell bytes h
      cases cell <;> simp [variableWidthRowBytes] at h

theorem build_nonneg (schema : List DataType) : 0 ≤ (RowCostModel.build schema).fixedPerRow := by
  suffices h : ∀ (cols : List (DataType × Nat)) (model : RowCostModel), 0 ≤ model.fixedPerRow →
      0 ≤ (cols.foldl (fun model col =>
        match fixedWidthByteWidth col.1 with
        | some width => { model with fixedPerRow := model.fixedPerRow + width }
        | none       => { model with variableCols := model.variableCols ++ [col] }) model).fixedPerRow from
    h schema.zipIdx ⟨0, []⟩ le_rfl
  intro cols
  induction cols with
  | nil => exact fun _ h => h
  | cons col cols ih =>
      intro model hmodel
      rw [List.foldl_cons]
      apply ih
      split
      · rename_i width hwidth
        have hpos := fixedWidthByteWidth_nonneg hwidth
        show 0 ≤ model.fixedPerRow + width
        omega
      · exact hmodel

/-- **No row has a negative cost.** -/
theorem rowBytes_nonneg {schema : List DataType} {row : List Cell} {bytes : Int}
    (h : (RowCostModel.build schema).rowBytes row = .ok bytes) : 0 ≤ bytes :=
  le_trans (build_nonneg schema) (le_of_foldlM_add (fun _ _ _ hcol => variableWidthRowBytes_nonneg hcol) h)

/-! ### Rows with a cost -/

/-- A row whose columns the chunker supports, with its cost. -/
structure SupportedRow (schema : List DataType) where
  cells : List Cell
  bytes : Int
  cost  : (RowCostModel.build schema).rowBytes cells = .ok bytes

/-- The batch of some rows. -/
def batchOf {schema : List DataType} (rows : List (SupportedRow schema)) : RecordBatch :=
  ⟨schema, rows.map SupportedRow.cells⟩

theorem slice_batchOf {schema : List DataType} (rows : List (SupportedRow schema)) (offset len : Nat) :
    (batchOf rows).slice offset len = batchOf ((rows.drop offset).take len) := by
  simp [batchOf, RecordBatch.slice]

/-- `batch_in_memory_bytes` is the sum of the costs. -/
theorem batchInMemoryBytes_batchOf {schema : List DataType} (rows : List (SupportedRow schema)) :
    batchInMemoryBytes (batchOf rows) = .ok (GreedyCut.total SupportedRow.bytes rows) := by
  suffices h : ∀ start : Int, (rows.map SupportedRow.cells).foldlM (fun total row =>
      ((RowCostModel.build schema).rowBytes row).map (fun bytes => total + bytes)) start =
        .ok (start + GreedyCut.total SupportedRow.bytes rows) by
    have h0 := h 0
    rw [zero_add] at h0
    exact h0
  induction rows with
  | nil =>
      intro start
      simp only [GreedyCut.total, List.map_nil, List.sum_nil, add_zero]
      rfl
  | cons row rows ih =>
      intro start
      rw [List.map_cons, List.foldlM_cons, row.cost]
      show List.foldlM _ (start + row.bytes) _ = _
      rw [ih]
      simp only [GreedyCut.total, List.map_cons, List.sum_cons, add_assoc]

/-! ## Ranges -/

/-- `(offset, len, in_memory_bytes)`. -/
structure ChunkRange where
  offset        : Nat
  len           : Nat
  inMemoryBytes : Int
  deriving DecidableEq, Repr

/-- The locals of the loop of `chunk_row_ranges`. -/
structure RangeWalk where
  ranges     : List ChunkRange
  chunkStart : Nat
  running    : Int

/-- The body of the loop, for row `i`. -/
def RangeWalk.row (maxBytes : Int) (w : RangeWalk) (i : Nat) (rowBytes : Int) : RangeWalk :=
  if w.running + rowBytes > maxBytes ∧ i > w.chunkStart then
    ⟨w.ranges ++ [⟨w.chunkStart, i - w.chunkStart, w.running⟩], i, 0 + rowBytes⟩
  else { w with running := w.running + rowBytes }

/-- The ranges after the loop: the open one is pushed last. -/
def RangeWalk.finish (w : RangeWalk) (nRows : Nat) : List ChunkRange :=
  w.ranges ++ [⟨w.chunkStart, nRows - w.chunkStart, w.running⟩]

/-- `chunk_row_ranges`. -/
def chunkRowRanges (batch : RecordBatch) (maxBytes : Int) : Except ChunkError (List ChunkRange) :=
  if batch.rows.isEmpty then .ok []
  else
    (batch.rows.zipIdx.foldlM (fun (w : RangeWalk) row =>
      ((RowCostModel.build batch.schema).rowBytes row.1).map (fun bytes => w.row maxBytes row.2 bytes))
      ⟨[], 0, 0⟩).map (fun w => w.finish batch.rows.length)

section Walk

variable {α : Type} (rowBytes : α → Int) (maxBytes : Int)

/-- The loop, over rows with a cost. -/
def chunkWalk (rows : List α) : RangeWalk :=
  rows.zipIdx.foldl (fun w row => w.row maxBytes row.2 (rowBytes row.1)) ⟨[], 0, 0⟩

/-- `chunk_row_ranges`, over rows with a cost. -/
def chunkRanges (rows : List α) : List ChunkRange :=
  if rows.isEmpty then [] else (chunkWalk rowBytes maxBytes rows).finish rows.length

end Walk

theorem chunkRowRanges_batchOf {schema : List DataType} (rows : List (SupportedRow schema)) (maxBytes : Int) :
    chunkRowRanges (batchOf rows) maxBytes = .ok (chunkRanges SupportedRow.bytes maxBytes rows) := by
  have hloop : ∀ (xs : List (SupportedRow schema)) (start : Nat) (w : RangeWalk),
      ((xs.map SupportedRow.cells).zipIdx start).foldlM (fun w row =>
        ((RowCostModel.build schema).rowBytes row.1).map (fun bytes => w.row maxBytes row.2 bytes)) w =
      (.ok ((xs.zipIdx start).foldl (fun w row => w.row maxBytes row.2 row.1.bytes) w) :
        Except ChunkError RangeWalk) := by
    intro xs
    induction xs with
    | nil => exact fun _ _ => rfl
    | cons x xs ih =>
        intro start w
        rw [List.map_cons, List.zipIdx_cons, List.foldlM_cons, x.cost]
        exact ih (start + 1) _
  unfold chunkRowRanges chunkRanges
  by_cases hnil : rows = []
  · subst hnil
    rfl
  · rw [if_neg (by simpa [batchOf] using hnil), if_neg (by simpa using hnil)]
    have hrows := hloop rows 0 ⟨[], 0, 0⟩
    simp only [batchOf, hrows, List.length_map]
    rfl

/-! ## The ranges are the greedy cut -/

section Spec

variable {α : Type} {rowBytes : α → Int} {maxBytes : Int}

/-- Pieces laid one after the other from `start`. -/
def offsets (start : Nat) : List (List α × Int) → List ChunkRange
  | []              => []
  | piece :: pieces => ⟨start, piece.1.length, piece.2⟩ :: offsets (start + piece.1.length) pieces

/-- The number of rows of some pieces. -/
def rowsOf (pieces : List (List α × Int)) : Nat := (pieces.map (fun piece => piece.1.length)).sum

theorem length_flatten_pieces (pieces : List (List α × Int)) :
    (pieces.map Prod.fst).flatten.length = rowsOf pieces := by
  simp [rowsOf, List.length_flatten, Function.comp_def]

theorem offsets_append (start : Nat) (pieces pieces' : List (List α × Int)) :
    offsets start (pieces ++ pieces') = offsets start pieces ++ offsets (start + rowsOf pieces) pieces' := by
  induction pieces generalizing start with
  | nil => simp [offsets, rowsOf]
  | cons piece pieces ih =>
      simp only [List.cons_append, offsets, ih, rowsOf, List.map_cons, List.sum_cons, Nat.add_assoc]

theorem map_slice_offsets (before : List α) (pieces : List (List α × Int)) (after : List α) :
    (offsets before.length pieces).map (fun r =>
      (((before ++ (pieces.map Prod.fst).flatten ++ after).drop r.offset).take r.len, r.inMemoryBytes)) =
      pieces := by
  induction pieces generalizing before with
  | nil => rfl
  | cons piece pieces ih =>
      have hrest := ih (before ++ piece.1)
      simp only [List.length_append, List.append_assoc] at hrest
      simp only [offsets, List.map_cons, List.flatten_cons, List.append_assoc, hrest]
      simp

/-- The walk over the rows is the walk of the cut, with offsets. -/
theorem chunkWalk_eq (rowBytes : α → Int) (maxBytes : Int) (rows : List α) :
    chunkWalk rowBytes maxBytes rows =
      ⟨offsets 0 (GreedyCut.walk rowBytes maxBytes rows).closed, rowsOf (GreedyCut.walk rowBytes maxBytes rows).closed,
        (GreedyCut.walk rowBytes maxBytes rows).running⟩ ∧
    rowsOf (GreedyCut.walk rowBytes maxBytes rows).closed +
      (GreedyCut.walk rowBytes maxBytes rows).current.length = rows.length := by
  induction rows using List.reverseRecOn with
  | nil => exact ⟨rfl, rfl⟩
  | append_singleton rows x ih =>
      obtain ⟨hwalk, hlength⟩ := ih
      have hsnoc : chunkWalk rowBytes maxBytes (rows ++ [x]) =
          (chunkWalk rowBytes maxBytes rows).row maxBytes rows.length (rowBytes x) := by
        simp [chunkWalk, List.zipIdx_append]
      rw [hsnoc, hwalk, GreedyCut.walk_snoc]
      generalize GreedyCut.walk rowBytes maxBytes rows = s at hlength
      -- A row is past the start of the open range exactly if the open piece has one.
      have hopen : rows.length > rowsOf s.closed ↔ s.current ≠ [] := by
        rw [← List.length_pos_iff]
        omega
      simp only [RangeWalk.row, GreedyCut.step, hopen]
      split
      · have hlen : rows.length - rowsOf s.closed = s.current.length := by omega
        refine ⟨?_, ?_⟩
        · simp only [offsets_append, offsets, zero_add, hlen, RangeWalk.mk.injEq, true_and, and_true]
          simp only [rowsOf, List.map_append, List.map_cons, List.map_nil, List.sum_append, List.sum_cons,
            List.sum_nil, Nat.add_zero]
          simp only [rowsOf] at hlength
          omega
        · simp only [rowsOf, List.map_append, List.map_cons, List.map_nil, List.sum_append, List.sum_cons,
            List.sum_nil, List.length_append, List.length_cons, List.length_nil] at hlength ⊢
          omega
      · refine ⟨rfl, ?_⟩
        simp only [List.length_append, List.length_cons, List.length_nil]
        omega

/-- **The ranges are the offsets of the greedy cut.** -/
theorem chunkRanges_eq (rows : List α) :
    chunkRanges rowBytes maxBytes rows = offsets 0 (GreedyCut.cut rowBytes maxBytes rows) := by
  by_cases hnil : rows = []
  · subst hnil
    rfl
  · obtain ⟨hwalk, hlength⟩ := chunkWalk_eq rowBytes maxBytes rows
    rw [chunkRanges, if_neg (by simpa using hnil), GreedyCut.cut_of_ne_nil hnil, hwalk, GreedyCut.State.pieces,
      offsets_append, RangeWalk.finish]
    simp only [offsets, Nat.zero_add, List.append_cancel_left_eq, List.cons.injEq, ChunkRange.mk.injEq, and_true,
      true_and]
    omega

/-- The rows a range addresses, with the cost it reports. -/
def chunkOf (rows : List α) (r : ChunkRange) : List α × Int := ((rows.drop r.offset).take r.len, r.inMemoryBytes)

theorem map_chunkOf_chunkRanges (rows : List α) :
    (chunkRanges rowBytes maxBytes rows).map (chunkOf rows) = GreedyCut.cut rowBytes maxBytes rows := by
  have hspec : GreedyCut.Spec rowBytes maxBytes rows (GreedyCut.cut rowBytes maxBytes rows) := GreedyCut.spec_cut rows
  have hslice := map_slice_offsets [] (GreedyCut.cut rowBytes maxBytes rows) []
  rw [chunkRanges_eq]
  simp only [List.nil_append, List.append_nil, hspec.flatten, List.length_nil] at hslice
  exact hslice

/-! ## What the ranges are -/

theorem flatMap_offsets (start : Nat) (pieces : List (List α × Int)) :
    (offsets start pieces).flatMap (fun r => List.range' r.offset r.len) = List.range' start (rowsOf pieces) := by
  induction pieces generalizing start with
  | nil => rfl
  | cons piece pieces ih =>
      have hrows : rowsOf (piece :: pieces) = piece.1.length + rowsOf pieces := by
        simp only [rowsOf, List.map_cons, List.sum_cons]
      rw [offsets, List.flatMap_cons, ih, hrows, ← List.range'_append_1]

/-- A range is that of one piece, after the pieces before it. -/
theorem mem_offsets {start : Nat} {pieces : List (List α × Int)} {r : ChunkRange} (h : r ∈ offsets start pieces) :
    ∃ done piece todo, pieces = done ++ piece :: todo ∧ r = ⟨start + rowsOf done, piece.1.length, piece.2⟩ := by
  induction pieces generalizing start with
  | nil => cases h
  | cons piece pieces ih =>
      rcases List.mem_cons.mp h with rfl | h
      · exact ⟨[], piece, pieces, rfl, rfl⟩
      · obtain ⟨done, next, todo, rfl, rfl⟩ := ih h
        refine ⟨piece :: done, next, todo, rfl, ?_⟩
        simp only [rowsOf, List.map_cons, List.sum_cons, Nat.add_assoc]

/-- **What `chunk_row_ranges` returns**: non-empty ranges that follow each other from the first row to the last,
    each with the cost of its rows; a range of several rows is within the limit, and a range ends only where the
    next row does not fit. -/
structure Chunking (rowBytes : α → Int) (maxBytes : Int) (rows : List α) (ranges : List ChunkRange) : Prop where
  tiles    : ranges.flatMap (fun r => List.range' r.offset r.len) = List.range rows.length
  nonempty : ∀ r ∈ ranges, 0 < r.len
  costs    : ∀ r ∈ ranges, r.inMemoryBytes = GreedyCut.total rowBytes ((rows.drop r.offset).take r.len)
  bounded  : ∀ r ∈ ranges, 1 < r.len → r.inMemoryBytes ≤ maxBytes
  greedy   : ∀ r ∈ ranges, ∀ row ∈ rows[r.offset + r.len]?, maxBytes < r.inMemoryBytes + rowBytes row

theorem chunking_chunkRanges (rowBytes : α → Int) (maxBytes : Int) (rows : List α) :
    Chunking rowBytes maxBytes rows (chunkRanges rowBytes maxBytes rows) := by
  obtain ⟨hflatten, hpieces, hgreedy⟩ :
      GreedyCut.Spec rowBytes maxBytes rows (GreedyCut.cut rowBytes maxBytes rows) := GreedyCut.spec_cut rows
  rw [chunkRanges_eq]
  have htiles := flatMap_offsets 0 (GreedyCut.cut rowBytes maxBytes rows)
  rw [← length_flatten_pieces, hflatten, ← List.range_eq_range'] at htiles
  generalize GreedyCut.cut rowBytes maxBytes rows = pieces at *
  refine ⟨htiles, ?_, ?_, ?_, ?_⟩ <;> intro r hr <;>
    obtain ⟨done, piece, todo, rfl, rfl⟩ := mem_offsets hr <;>
    have hpiece := hpieces piece (List.mem_append_right _ List.mem_cons_self)
  · exact List.length_pos_iff.mpr hpiece.nonempty
  · show piece.2 = _
    rw [hpiece.costs, ← hflatten, Nat.zero_add, ← length_flatten_pieces]
    simp
  · exact hpiece.bounded
  · intro row hrow
    have hrest : rows.drop (rowsOf done + piece.1.length) = (todo.map Prod.fst).flatten := by
      rw [← hflatten, ← length_flatten_pieces, ← List.length_append, List.map_append, List.map_cons,
        List.flatten_append, List.flatten_cons, ← List.append_assoc, List.drop_left]
    have hhead : (todo.map Prod.fst).flatten[0]? = some row := by
      rw [← hrest, List.getElem?_drop, Nat.add_zero]
      simpa only [Nat.zero_add, Option.mem_def] using hrow
    cases todo with
    | nil => simp at hhead
    | cons next todo =>
        obtain ⟨-, hchain, -⟩ := List.isChain_append.mp hgreedy
        obtain ⟨x, rest, hnext, hover⟩ := (List.isChain_cons_cons.mp hchain).1
        simp only [List.map_cons, List.flatten_cons, hnext, List.cons_append, List.getElem?_cons_zero,
          Option.some.injEq] at hhead
        rw [← hhead]
        exact hover

/-- The ranges of a longer batch: those of the shorter one, of which the last may have grown. -/
def Extends (ranges longer : List ChunkRange) : Prop :=
  ranges = [] ∨ ∃ done last grown rest, ranges = done ++ [last] ∧ longer = done ++ grown :: rest ∧
    last.offset = grown.offset ∧ last.len ≤ grown.len

/-- **The walk is prefix-stable.** -/
theorem chunkRanges_extends (rows more : List α) :
    Extends (chunkRanges rowBytes maxBytes rows) (chunkRanges rowBytes maxBytes (rows ++ more)) := by
  by_cases hnil : rows = []
  · subst hnil
    exact .inl rfl
  · obtain ⟨grown, bytes, rest, hcut⟩ :
        ∃ grown bytes rest, GreedyCut.cut rowBytes maxBytes ((GreedyCut.walk rowBytes maxBytes rows).current ++ more) =
          ((GreedyCut.walk rowBytes maxBytes rows).current ++ grown, bytes) :: rest :=
      GreedyCut.exists_cut_current hnil more
    rw [chunkRanges_eq, chunkRanges_eq, GreedyCut.cut_append hnil, GreedyCut.cut_of_ne_nil hnil, hcut,
      GreedyCut.State.pieces, offsets_append, offsets_append]
    refine .inr ⟨_, _, _, _, rfl, rfl, rfl, ?_⟩
    simp

end Spec

end Penca.Chunker
