import Mathlib.Data.List.Basic
import Mathlib.Data.List.Perm.Lattice
import Penca.Core.Types
import Penca.Lib.Inversion
import Penca.Lib.Relational

/-!
# `Sql.Pushdown` — predicate pushdown of a table scan

DataFusion hands the filters of a query that the table provider declares translatable to `scan`, and applies every
filter again to the rows it gets back. `scan` turns them into a request: the primary keys they pin (`ids`), the key
columns of the indexes they pin (`indexes`), and a WHERE fragment, left out when the pinned columns account for every
conjunct. A request may select too much, never too little.

Scalar values, their casts and comparisons are library code; they are the fields of `Engine`, and `Engine.Lawful` is
what is assumed of them.

## Contents
- **Filters.** `Expr`, its three-valued meaning `eval`, `splitBinary`.
- **Extraction.** `eqLiteralFor`, `pkLiterals`, `losslessCast`, `buildSeekBatch`, `allConjunctsSeeked`.
- **The scan.** `exprsToWhereFragment`, `scan`, `filterExec`.
- **Soundness.** `contains_of_buildSeekBatch`: a row that satisfies the filters is in the batch; `selects_scan`: it
  satisfies the request.
-/

namespace Penca.Sql.Pushdown

open Relational

variable {S : Type}

/-! ## Filters -/

/-- `datafusion::logical_expr::Operator`. -/
inductive Operator where
  | eq | notEq | lt | ltEq | gt | gtEq
  | and | or
  | plus | minus | multiply | divide | modulo
  | other (name : String)
  deriving DecidableEq, Repr

/-- The operators with one operand. -/
inductive UnaryOperator where
  | isNull | isNotNull | isTrue | isFalse | isNotTrue | isNotFalse | not | negative
  deriving DecidableEq, Repr

/-- `datafusion::logical_expr::Expr`; `other` is every kind of expression the provider does not look into. -/
inductive Expr (S : Type) where
  | column (name : String)
  | literal (value : S)
  | binaryExpr (left : Expr S) (op : Operator) (right : Expr S)
  | unary (op : UnaryOperator) (inner : Expr S)
  | inList (expr : Expr S) (list : List (Expr S)) (negated : Bool)
  | like (negated caseInsensitive similarTo : Bool) (escapeChar : Option Char) (expr pattern : Expr S)
  | between (negated : Bool) (expr low high : Expr S)
  | alias (name : String) (expr : Expr S)
  | other (name : String)

/-- A row of the table: the value of each column. -/
abbrev Row (S : Type) := String → S

/-- `ScalarValue` and the functions of the query engine on it. -/
structure Engine (S : Type) where
  dataType  : S → DataType
  isNull    : S → Bool
  castTo    : S → DataType → Option S
  /-- `=`, after coercion to a common type. -/
  compareEq : S → S → Truth
  /-- The value of a condition, and the condition a value stands for. -/
  boolean   : Truth → S
  truth     : S → Truth
  operator  : Operator → S → S → S
  unary     : UnaryOperator → S → S
  like      : Bool → Bool → Bool → Option Char → S → S → S
  between   : Bool → S → S → S → S
  other     : String → Row S → S
  /-- `iter_to_array`, `RecordBatch::try_new` and the IPC writer take the columns. -/
  encodes   : List (String × List S) → Bool

/-- `Float16`, `Float32`, `Float64`. -/
def isFloat : DataType → Bool
  | .float16 | .float32 | .float64 => true
  | _                              => false

/-- `x IN (items)`: the disjunction of the comparisons. -/
def inListTruth (E : Engine S) (x : S) (items : List S) : Truth :=
  items.foldr (fun item rest => (E.compareEq x item).or rest) (some false)

section Eval

variable (E : Engine S) (row : Row S)

mutual

/-- The value of an expression on a row. -/
def eval : Expr S → S
  | .column name            => row name
  | .literal value          => value
  | .binaryExpr left op right =>
      match op with
      | .eq  => E.boolean (E.compareEq (eval left) (eval right))
      | .and => E.boolean ((E.truth (eval left)).and (E.truth (eval right)))
      | .or  => E.boolean ((E.truth (eval left)).or (E.truth (eval right)))
      | op   => E.operator op (eval left) (eval right)
  | .unary op inner         => E.unary op (eval inner)
  | .inList expr list negated =>
      let found := inListTruth E (eval expr) (evalList list)
      E.boolean (if negated then found.map not else found)
  | .like negated caseInsensitive similarTo escapeChar expr pattern =>
      E.like negated caseInsensitive similarTo escapeChar (eval expr) (eval pattern)
  | .between negated expr low high => E.between negated (eval expr) (eval low) (eval high)
  | .alias _ expr           => eval expr
  | .other name             => E.other name row

/-- The values of a list of expressions. -/
def evalList : List (Expr S) → List S
  | []      => []
  | e :: es => eval e :: evalList es

end

/-- The condition holds on the row. -/
def Satisfies (e : Expr S) : Prop := E.truth (eval E row e) = some true

instance (e : Expr S) : Decidable (Satisfies E row e) := inferInstanceAs (Decidable (_ = _))

/-- The conjunction of the filters holds on the row. -/
def SatisfiesAll (filters : List (Expr S)) : Prop := ∀ e ∈ filters, Satisfies E row e

instance (filters : List (Expr S)) : Decidable (SatisfiesAll E row filters) :=
  inferInstanceAs (Decidable (∀ e ∈ filters, Satisfies E row e))

end Eval

/-- What is assumed of the engine: the condition of a condition's value is the condition, `=` is symmetric, and outside
    the floats a value of the column's type that equals a literal is the literal itself, or the literal cast to the
    column's type where the cast back gives the literal again. -/
structure Engine.Lawful (E : Engine S) : Prop where
  truth_boolean : ∀ t, E.truth (E.boolean t) = t
  compare_comm  : ∀ x y, E.compareEq x y = E.compareEq y x
  compare_same  : ∀ x v, isFloat (E.dataType v) = false → E.dataType x = E.dataType v → E.compareEq x v = some true →
    x = v
  compare_cast  : ∀ x v c, isFloat (E.dataType v) = false → isFloat (E.dataType x) = false →
    E.castTo v (E.dataType x) = some c → E.isNull c = false → E.castTo c (E.dataType v) = some v →
    E.compareEq x v = some true → x = c

/-- `split_binary`; `split_conjunction` is `split_binary` for `AND`. -/
def splitBinary (op : Operator) : Expr S → List (Expr S)
  | .binaryExpr left op' right =>
      if op' = op then splitBinary op left ++ splitBinary op right else [.binaryExpr left op' right]
  | .alias _ expr => splitBinary op expr
  | expr          => [expr]

/-! ## Extraction -/

/-- `eq_literal_for`. -/
def eqLiteralFor (pk : String) : Expr S → Option S
  | .binaryExpr (.column name) .eq (.literal value) => if name = pk then some value else none
  | .binaryExpr (.literal value) .eq (.column name) => if name = pk then some value else none
  | _ => none

/-- The value of a literal expression. -/
def literalValue : Expr S → Option S
  | .literal value => some value
  | _              => none

/-- `pk_literals`. -/
def pkLiterals (pk : String) (allowMultiRow : Bool) : List (Expr S) → Option (List S)
  | []                => none
  | expr :: conjuncts =>
      match expr with
      | .binaryExpr left .eq right =>
          match eqLiteralFor pk (.binaryExpr left .eq right) with
          | some literal => some [literal]
          | none         => pkLiterals pk allowMultiRow conjuncts
      | .binaryExpr left .or right =>
          if allowMultiRow then
            match (splitBinary .or (.binaryExpr left .or right)).mapM (eqLiteralFor pk) with
            | some (value :: values) => some (value :: values)
            | _                      => pkLiterals pk allowMultiRow conjuncts
          else pkLiterals pk allowMultiRow conjuncts
      | .inList (.column name) list false =>
          if allowMultiRow then
            if name ≠ pk ∨ list.isEmpty then pkLiterals pk allowMultiRow conjuncts
            -- One item that is no literal gives up on the column.
            else list.mapM literalValue
          else pkLiterals pk allowMultiRow conjuncts
      | _ => pkLiterals pk allowMultiRow conjuncts

/-- `lossless_cast`. -/
def losslessCast [DecidableEq S] (E : Engine S) (declared : DataType) (value : S) : Option S :=
  if E.isNull value then none
  else if isFloat (E.dataType value) then none
  else if E.dataType value = declared then some value
  else
    (E.castTo value declared).bind (fun casted =>
      if E.isNull casted then none
      else (E.castTo casted (E.dataType value)).bind (fun roundTripped =>
        if roundTripped = value then some casted else none))

/-- The batch of `build_seek_batch`: a value list per key column, all of one length. -/
structure SeekBatch (S : Type) where
  columns  : List (String × List S)
  rowCount : Nat
  aligned  : ∀ column ∈ columns, column.2.length = rowCount

/-- `RecordBatch::try_new`. -/
def SeekBatch.tryNew (columns : List (String × List S)) : Option (SeekBatch S) :=
  match columns with
  | []              => none
  | first :: others =>
      if h : ∀ column ∈ first :: others, column.2.length = first.2.length then
        some ⟨first :: others, first.2.length, h⟩
      else none

/-- The columns of the table with their types. -/
abbrev Schema := List (String × DataType)

/-- `field_with_name(…).data_type()`. -/
def Schema.fieldWithName (schema : Schema) (name : String) : Option DataType :=
  (schema.find? (fun field => field.1 = name)).map Prod.snd

/-- One key column of the batch. -/
def seekColumn [DecidableEq S] (E : Engine S) (schema : Schema) (conjuncts : List (Expr S)) (allowMultiRow : Bool)
    (key : String) : Option (String × List S) :=
  (schema.fieldWithName key).bind (fun declared =>
    if isFloat declared then none
    else (pkLiterals key allowMultiRow conjuncts).bind (fun literals =>
      (literals.mapM (losslessCast E declared)).map (fun values => (key, values))))

/-- `build_seek_batch`. -/
def buildSeekBatch [DecidableEq S] (E : Engine S) (filters : List (Expr S)) (schema : Schema)
    (keyColumns : List String) : Option (SeekBatch S) :=
  if keyColumns.isEmpty then none
  else
    let conjuncts := filters.flatMap (splitBinary .and)
    (keyColumns.mapM (seekColumn E schema conjuncts (keyColumns.length = 1))).bind (fun columns =>
      if E.encodes columns then SeekBatch.tryNew columns else none)

/-- `is_seeked_equality`. -/
def isSeekedEquality (seekedColumns : List String) : Expr S → Bool
  | .binaryExpr left .eq right =>
      seekedColumns.any (fun column => (eqLiteralFor column (.binaryExpr left .eq right)).isSome)
  | .binaryExpr left .or right =>
      let disjuncts := splitBinary .or (.binaryExpr left .or right)
      !disjuncts.isEmpty &&
        seekedColumns.any (fun column => disjuncts.all (fun disjunct => (eqLiteralFor column disjunct).isSome))
  | .inList (.column name) list false =>
      !list.isEmpty && decide (name ∈ seekedColumns) && list.all (fun item => (literalValue item).isSome)
  | _ => false

/-- `all_conjuncts_seeked`. -/
def allConjunctsSeeked (filters : List (Expr S)) (seekedColumns : List String) : Bool :=
  let conjuncts := filters.flatMap (splitBinary .and)
  !conjuncts.isEmpty && conjuncts.all (isSeekedEquality seekedColumns)

/-! ## The scan -/

/-- `is_translatable_op`. -/
def isTranslatableOp : Operator → Bool
  | .other _ => false
  | _        => true

mutual

/-- `is_translatable`. -/
def isTranslatable : Expr S → Bool
  | .column _ | .literal _       => true
  | .binaryExpr left op right    => isTranslatableOp op && isTranslatable left && isTranslatable right
  | .unary _ inner               => isTranslatable inner
  | .inList expr list _          => isTranslatable expr && allTranslatable list
  | .like _ _ _ _ expr pattern   => isTranslatable expr && isTranslatable pattern
  | .between _ expr low high     => isTranslatable expr && isTranslatable low && isTranslatable high
  | .alias _ _ | .other _        => false

/-- `is_translatable` of every item. -/
def allTranslatable : List (Expr S) → Bool
  | []      => true
  | e :: es => isTranslatable e && allTranslatable es

end

/-- `exprs_to_where_fragment`: the filters whose conjunction is sent. `unparses` says whether the SQL unparser accepts
    an expression. -/
def exprsToWhereFragment (unparses : Expr S → Bool) (filters : List (Expr S)) : Option (List (Expr S)) :=
  let parts := (filters.filter isTranslatable).filter unparses
  if parts.isEmpty then none else some parts

/-- The parts of `ReadDataRequest` that restrict the rows. -/
structure ReadDataRequest (S : Type) where
  ids     : Option (SeekBatch S)
  indexes : Option (SeekBatch S)
  filter  : Option (List (Expr S))

/-- `PencaTableProvider`: the schema, the primary key and the key columns of the defined indexes. -/
structure TableProvider where
  arrowSchema : Schema
  primaryKeys : List String
  indexes     : List (List String)

/-- The union of the key columns of every index the filters bind. -/
def indexColumns [DecidableEq S] (E : Engine S) (provider : TableProvider) (filters : List (Expr S)) : List String :=
  provider.indexes.foldl (fun columns keyColumns =>
    if (buildSeekBatch E filters provider.arrowSchema keyColumns).isSome then
      keyColumns.foldl (fun columns column => if column ∈ columns then columns else columns ++ [column]) columns
    else columns) []

/-- The request `scan` builds. -/
def scan [DecidableEq S] (E : Engine S) (unparses : Expr S → Bool) (provider : TableProvider)
    (filters : List (Expr S)) : ReadDataRequest S :=
  let pkIds := buildSeekBatch E filters provider.arrowSchema provider.primaryKeys
  let columns := indexColumns E provider filters
  let indexSeek := buildSeekBatch E filters provider.arrowSchema columns
  let seekedColumns := (if pkIds.isSome then provider.primaryKeys else []) ++
    (if indexSeek.isSome then columns else [])
  { ids     := pkIds
    indexes := indexSeek
    filter  := if allConjunctsSeeked filters seekedColumns then none else exprsToWhereFragment unparses filters }

/-- `supports_filters_pushdown`: the filters DataFusion hands to `scan`. All of them stay in the `FilterExec`. -/
def pushedFilters (filters : List (Expr S)) : List (Expr S) := filters.filter isTranslatable

/-- `FilterExec` over the rows of the scan. -/
def filterExec (E : Engine S) (filters : List (Expr S)) (rows : List (Row S)) : List (Row S) :=
  rows.filter (fun row => decide (SatisfiesAll E row filters))

/-! ### What a request asks for -/

/-- The row's values in the batch's columns are those of one batch row. -/
def SeekBatch.Contains (batch : SeekBatch S) (row : Row S) : Prop :=
  ∃ i, i < batch.rowCount ∧ ∀ column ∈ batch.columns, column.2[i]? = some (row column.1)

instance [DecidableEq S] (batch : SeekBatch S) (row : Row S) : Decidable (batch.Contains row) :=
  inferInstanceAs (Decidable (∃ i, i < batch.rowCount ∧ ∀ column ∈ batch.columns, column.2[i]? = some (row column.1)))

/-- The row satisfies `ids`, `indexes` and `filter`. -/
structure ReadDataRequest.Selects (E : Engine S) (request : ReadDataRequest S) (row : Row S) : Prop where
  ids     : ∀ batch ∈ request.ids, batch.Contains row
  indexes : ∀ batch ∈ request.indexes, batch.Contains row
  filter  : ∀ parts ∈ request.filter, SatisfiesAll E row parts

instance [DecidableEq S] (E : Engine S) (request : ReadDataRequest S) (row : Row S) :
    Decidable (request.Selects E row) :=
  decidable_of_iff ((∀ batch ∈ request.ids, batch.Contains row) ∧ (∀ batch ∈ request.indexes, batch.Contains row) ∧
      ∀ parts ∈ request.filter, SatisfiesAll E row parts)
    ⟨fun ⟨ids, indexes, filter⟩ => ⟨ids, indexes, filter⟩, fun h => ⟨h.ids, h.indexes, h.filter⟩⟩

/-- The values of a row are of the declared types. -/
def WellTyped (E : Engine S) (schema : Schema) (row : Row S) : Prop :=
  ∀ name declared, schema.fieldWithName name = some declared → E.dataType (row name) = declared

/-! ## Soundness -/

section Soundness

variable {E : Engine S} {row : Row S}

attribute [local simp] eval evalList

theorem satisfies_eq_iff (hE : E.Lawful) {left right : Expr S} :
    Satisfies E row (.binaryExpr left .eq right) ↔ E.compareEq (eval E row left) (eval E row right) = some true := by
  rw [Satisfies, eval, hE.truth_boolean]

theorem satisfies_and_iff (hE : E.Lawful) {left right : Expr S} :
    Satisfies E row (.binaryExpr left .and right) ↔ Satisfies E row left ∧ Satisfies E row right := by
  rw [Satisfies, eval, hE.truth_boolean, Truth.and_eq_true_iff]
  rfl

theorem satisfies_or_iff (hE : E.Lawful) {left right : Expr S} :
    Satisfies E row (.binaryExpr left .or right) ↔ Satisfies E row left ∨ Satisfies E row right := by
  rw [Satisfies, eval, hE.truth_boolean, Truth.or_eq_true_iff]
  rfl

theorem satisfies_alias_iff {name : String} {expr : Expr S} :
    Satisfies E row (.alias name expr) ↔ Satisfies E row expr := by
  rw [Satisfies, eval]
  rfl

theorem inListTruth_eq_true_iff {x : S} {items : List S} :
    inListTruth E x items = some true ↔ ∃ item ∈ items, E.compareEq x item = some true := by
  induction items with
  | nil => simp [inListTruth]
  | cons item items ih =>
      have hcons : inListTruth E x (item :: items) = (E.compareEq x item).or (inListTruth E x items) := rfl
      rw [hcons, Truth.or_eq_true_iff, ih]
      simp

theorem satisfies_inList_iff (hE : E.Lawful) {expr : Expr S} {list : List (Expr S)} :
    Satisfies E row (.inList expr list false) ↔
      ∃ item ∈ evalList E row list, E.compareEq (eval E row expr) item = some true := by
  rw [Satisfies, eval]
  simp only [Bool.false_eq_true, if_false]
  rw [hE.truth_boolean, inListTruth_eq_true_iff]

theorem satisfiesAll_splitBinary_and (hE : E.Lawful) (e : Expr S) (h : Satisfies E row e) :
    SatisfiesAll E row (splitBinary .and e) := by
  fun_induction splitBinary .and e with
  | case1 left right ihl ihr =>
      obtain ⟨hl, hr⟩ := (satisfies_and_iff hE).mp h
      intro c hc
      rcases List.mem_append.mp hc with hc | hc
      · exact ihl hl c hc
      · exact ihr hr c hc
  | case2 left op right hop =>
      intro c hc
      rw [List.mem_singleton.mp hc]
      exact h
  | case3 name expr ih => exact ih (satisfies_alias_iff.mp h)
  | case4 expr _ _ =>
      intro c hc
      rw [List.mem_singleton.mp hc]
      exact h

/-- One of the disjuncts of a filter holds if the filter does. -/
theorem exists_splitBinary_or (hE : E.Lawful) (e : Expr S) (h : Satisfies E row e) :
    ∃ d ∈ splitBinary .or e, Satisfies E row d := by
  fun_induction splitBinary .or e with
  | case1 left right ihl ihr =>
      rcases (satisfies_or_iff hE).mp h with hl | hr
      · obtain ⟨d, hd, hsat⟩ := ihl hl
        exact ⟨d, List.mem_append_left _ hd, hsat⟩
      · obtain ⟨d, hd, hsat⟩ := ihr hr
        exact ⟨d, List.mem_append_right _ hd, hsat⟩
  | case2 left op right hop => exact ⟨_, List.mem_singleton_self _, h⟩
  | case3 name expr ih => exact ih (satisfies_alias_iff.mp h)
  | case4 expr _ _ => exact ⟨_, List.mem_singleton_self _, h⟩

theorem satisfiesAll_conjuncts (hE : E.Lawful) {filters : List (Expr S)} (h : SatisfiesAll E row filters) :
    SatisfiesAll E row (filters.flatMap (splitBinary .and)) := by
  intro c hc
  obtain ⟨e, he, hc⟩ := List.mem_flatMap.mp hc
  exact satisfiesAll_splitBinary_and hE e (h e he) c hc

/-- The literal an equality pins a column to is what the column's value equals. -/
theorem compareEq_of_eqLiteralFor (hE : E.Lawful) {pk : String} {e : Expr S} {v : S}
    (hv : eqLiteralFor pk e = some v) (h : Satisfies E row e) : E.compareEq (row pk) v = some true := by
  revert hv
  fun_cases eqLiteralFor pk e with
  | case1 value =>
      intro hv
      cases hv
      have heq := (satisfies_eq_iff hE).mp h
      rwa [eval, eval] at heq
  | case2 value name hname => intro hv; cases hv
  | case3 value =>
      intro hv
      cases hv
      have heq := (satisfies_eq_iff hE).mp h
      rwa [eval, eval, hE.compare_comm] at heq
  | case4 value name hname => intro hv; cases hv
  | case5 => intro hv; cases hv

theorem evalList_of_literals {list : List (Expr S)} {values : List S} (h : list.mapM literalValue = some values) :
    evalList E row list = values := by
  have hall := Inversion.forall₂_of_mapM_eq_some h
  clear h
  induction hall with
  | nil => rw [evalList]
  | @cons e v es vs he _ ih =>
      cases e with
      | literal value =>
          cases he
          rw [evalList, ih, eval]
      | _ => cases he

/-- How one conjunct pins a column: an equality, or, if several values are allowed, a chain of equalities on the column
    or a list of literals. -/
inductive Pins (pk : String) (allowMultiRow : Bool) : Expr S → List S → Prop where
  | equality {e v} (hv : eqLiteralFor pk e = some v) : Pins pk allowMultiRow e [v]
  | disjunction {e values} (hallow : allowMultiRow = true)
      (hv : (splitBinary .or e).mapM (eqLiteralFor pk) = some values) : Pins pk allowMultiRow e values
  | membership {list values} (hallow : allowMultiRow = true) (hv : list.mapM literalValue = some values) :
      Pins pk allowMultiRow (.inList (.column pk) list false) values

/-- What `pk_literals` returns comes from one of the conjuncts. -/
theorem exists_pins_of_pkLiterals {pk : String} {allowMultiRow : Bool} {conjuncts : List (Expr S)} {values : List S}
    (hv : pkLiterals pk allowMultiRow conjuncts = some values) :
    ∃ c ∈ conjuncts, Pins pk allowMultiRow c values := by
  -- The conjuncts skipped by the loop, in whichever branch, leave the answer to the rest.
  have skip : ∀ {expr : Expr S} {rest : List (Expr S)}, (∃ c ∈ rest, Pins pk allowMultiRow c values) →
      ∃ c ∈ expr :: rest, Pins pk allowMultiRow c values := by
    rintro expr rest ⟨c, hc, hpins⟩
    exact ⟨c, List.mem_cons_of_mem _ hc, hpins⟩
  fun_induction pkLiterals pk allowMultiRow conjuncts with
  | case1 => cases hv
  | case2 conjuncts left right literal hlit =>
      cases hv
      exact ⟨_, List.mem_cons_self, .equality hlit⟩
  | case3 conjuncts left right hlit ih => exact skip (ih hv)
  | case4 conjuncts left right hallow value vs hlits =>
      cases hv
      exact ⟨_, List.mem_cons_self, .disjunction hallow hlits⟩
  | case5 conjuncts left right hallow hlits ih => exact skip (ih hv)
  | case6 conjuncts left right hallow ih => exact skip (ih hv)
  | case7 conjuncts name list hallow hskip ih => exact skip (ih hv)
  | case8 conjuncts name list hallow htake =>
      obtain rfl : name = pk := by
        by_contra hne
        exact htake (.inl hne)
      exact ⟨_, List.mem_cons_self, .membership hallow hv⟩
  | case9 conjuncts name list hallow ih => exact skip (ih hv)
  | case10 expr conjuncts _ _ _ ih => exact skip (ih hv)

/-- Where one value only is allowed, one value is returned. -/
theorem Pins.length_eq_one {pk : String} {e : Expr S} {values : List S} (h : Pins pk false e values) :
    values.length = 1 := by
  cases h with
  | equality hv => rfl
  | disjunction hallow hv => cases hallow
  | membership hallow hv => cases hallow

/-- A conjunct that pins a column, if it holds, lists the column's value. -/
theorem Pins.exists_compareEq (hE : E.Lawful) {pk : String} {allowMultiRow : Bool} {e : Expr S} {values : List S}
    (hpins : Pins pk allowMultiRow e values) (h : Satisfies E row e) :
    ∃ v ∈ values, E.compareEq (row pk) v = some true := by
  cases hpins with
  | equality hv => exact ⟨_, List.mem_singleton_self _, compareEq_of_eqLiteralFor hE hv h⟩
  | disjunction hallow hv =>
      obtain ⟨d, hd, hsat⟩ := exists_splitBinary_or hE e h
      obtain ⟨i, hi, rfl⟩ := List.getElem_of_mem hd
      have hall := Inversion.forall₂_of_mapM_eq_some hv
      have hi' : i < values.length := hall.length_eq ▸ hi
      exact ⟨_, List.getElem_mem hi', compareEq_of_eqLiteralFor hE (hall.get hi hi') hsat⟩
  | membership hallow hv =>
      obtain ⟨v, hv', heq⟩ := (satisfies_inList_iff hE).mp h
      rw [evalList_of_literals hv] at hv'
      rw [eval] at heq
      exact ⟨v, hv', heq⟩

variable [DecidableEq S]

/-- The only value of the column's type that equals a literal is the literal's lossless cast. -/
theorem eq_of_losslessCast (hE : E.Lawful) {declared : DataType} {x v c : S} (hx : E.dataType x = declared)
    (hfloat : isFloat declared = false) (hc : losslessCast E declared v = some c)
    (h : E.compareEq x v = some true) : x = c := by
  subst hx
  unfold losslessCast at hc
  split_ifs at hc with hnull hvfloat hsame
  · cases hc
    exact hE.compare_same x v (by simpa using hvfloat) hsame.symm h
  · obtain ⟨casted, hcast, hc⟩ := Option.bind_eq_some_iff.mp hc
    split_ifs at hc with hcnull
    obtain ⟨back, hback, hc⟩ := Option.bind_eq_some_iff.mp hc
    split_ifs at hc with hround
    cases hc
    subst hround
    exact hE.compare_cast x _ c (by simpa using hvfloat) hfloat hcast (by simpa using hcnull) hback h

/-- A key column of the batch: its values are literals of the conjuncts, each cast without loss. -/
theorem seekColumn_eq_some {schema : Schema} {conjuncts : List (Expr S)} {allowMultiRow : Bool} {key : String}
    {column : String × List S} (h : seekColumn E schema conjuncts allowMultiRow key = some column) :
    ∃ declared literals, schema.fieldWithName key = some declared ∧ isFloat declared = false ∧
      pkLiterals key allowMultiRow conjuncts = some literals ∧ column.1 = key ∧
      List.Forall₂ (fun v c => losslessCast E declared v = some c) literals column.2 := by
  obtain ⟨declared, hdeclared, h⟩ := Option.bind_eq_some_iff.mp h
  split_ifs at h with hfloat
  obtain ⟨literals, hliterals, h⟩ := Option.bind_eq_some_iff.mp h
  obtain ⟨values, hvalues, rfl⟩ := Option.map_eq_some_iff.mp h
  exact ⟨declared, literals, hdeclared, by simpa using hfloat, hliterals, rfl, Inversion.forall₂_of_mapM_eq_some hvalues⟩

/-- The value of a row that satisfies the conjuncts is among the values of a key column. -/
theorem mem_seekColumn (hE : E.Lawful) {schema : Schema} {conjuncts : List (Expr S)} {allowMultiRow : Bool}
    {key : String} {column : String × List S} (hrow : WellTyped E schema row) (hsat : SatisfiesAll E row conjuncts)
    (h : seekColumn E schema conjuncts allowMultiRow key = some column) : row column.1 ∈ column.2 := by
  obtain ⟨declared, literals, hdeclared, hfloat, hliterals, hkey, hall⟩ := seekColumn_eq_some h
  obtain ⟨c, hc, hpins⟩ := exists_pins_of_pkLiterals hliterals
  obtain ⟨v, hv, heq⟩ := hpins.exists_compareEq hE (hsat c hc)
  obtain ⟨i, hi, rfl⟩ := List.getElem_of_mem hv
  have hi' : i < column.2.length := hall.length_eq ▸ hi
  have hcell := eq_of_losslessCast hE (hrow key declared hdeclared) hfloat (hall.get hi hi') heq
  rw [hkey, hcell]
  exact List.getElem_mem hi'

theorem length_seekColumn {schema : Schema} {conjuncts : List (Expr S)} {key : String} {column : String × List S}
    (h : seekColumn E schema conjuncts false key = some column) : column.2.length = 1 := by
  obtain ⟨declared, literals, -, -, hliterals, -, hall⟩ := seekColumn_eq_some h
  obtain ⟨c, -, hpins⟩ := exists_pins_of_pkLiterals hliterals
  rw [← hall.length_eq]
  exact hpins.length_eq_one

omit [DecidableEq S] in
theorem SeekBatch.tryNew_eq_some {columns : List (String × List S)} {batch : SeekBatch S}
    (h : SeekBatch.tryNew columns = some batch) : columns ≠ [] ∧ batch.columns = columns := by
  unfold SeekBatch.tryNew at h
  split at h
  · cases h
  · split_ifs at h
    cases h
    exact ⟨List.cons_ne_nil _ _, rfl⟩

omit [DecidableEq S] in
/-- A row is in a batch of one column if its value is in the column. -/
theorem SeekBatch.contains_of_singleton {batch : SeekBatch S} {column : String × List S}
    (hcolumns : batch.columns = [column]) (h : row column.1 ∈ column.2) : batch.Contains row := by
  obtain ⟨i, hi, hget⟩ := List.getElem_of_mem h
  have hcount := batch.aligned column (hcolumns ▸ List.mem_singleton_self _)
  refine ⟨i, hcount ▸ hi, ?_⟩
  intro c hc
  rw [hcolumns] at hc
  rw [List.mem_singleton.mp hc, List.getElem?_eq_getElem hi, hget]

omit [DecidableEq S] in
/-- A row is in a batch whose columns have one value each if they are the row's. -/
theorem SeekBatch.contains_of_length_one {batch : SeekBatch S} (hne : batch.columns ≠ [])
    (hone : ∀ column ∈ batch.columns, column.2.length = 1)
    (h : ∀ column ∈ batch.columns, row column.1 ∈ column.2) : batch.Contains row := by
  obtain ⟨first, hfirst⟩ := List.exists_mem_of_ne_nil _ hne
  have hcount : batch.rowCount = 1 := (batch.aligned first hfirst).symm.trans (hone first hfirst)
  refine ⟨0, by omega, ?_⟩
  intro column hcolumn
  obtain ⟨v, hv⟩ := List.length_eq_one_iff.mp (hone column hcolumn)
  have hmem := h column hcolumn
  rw [hv] at hmem ⊢
  rw [List.mem_singleton.mp hmem]
  rfl

/-- A row that satisfies the filters is in every batch built from them. -/
theorem contains_of_buildSeekBatch (hE : E.Lawful) {filters : List (Expr S)} {schema : Schema}
    {keyColumns : List String} {batch : SeekBatch S} (hrow : WellTyped E schema row)
    (hsat : SatisfiesAll E row filters) (h : buildSeekBatch E filters schema keyColumns = some batch) :
    batch.Contains row := by
  unfold buildSeekBatch at h
  split_ifs at h with hempty
  obtain ⟨columns, hcolumns, h⟩ := Option.bind_eq_some_iff.mp h
  split_ifs at h
  obtain ⟨hne, rfl⟩ := SeekBatch.tryNew_eq_some h
  have hall := Inversion.forall₂_of_mapM_eq_some hcolumns
  have hconj := satisfiesAll_conjuncts hE hsat
  by_cases hone : keyColumns.length = 1
  · -- A key of one column may have several values; the row has one of them.
    obtain ⟨column, hcolumn⟩ := List.length_eq_one_iff.mp (hall.length_eq ▸ hone)
    rw [hcolumn] at hall
    obtain ⟨key, _, hkey, _, -⟩ := List.forall₂_cons_right_iff.mp hall
    exact SeekBatch.contains_of_singleton hcolumn (mem_seekColumn hE hrow hconj hkey)
  · -- A composite key has one value in each column.
    have hcol : ∀ column ∈ batch.columns, ∃ key,
        seekColumn E schema (filters.flatMap (splitBinary .and)) false key = some column := by
      intro column hcolumn
      obtain ⟨i, hi, rfl⟩ := List.getElem_of_mem hcolumn
      have hi' : i < keyColumns.length := hall.length_eq ▸ hi
      have hget := hall.get hi' hi
      exact ⟨_, by simpa [hone] using hget⟩
    refine SeekBatch.contains_of_length_one hne ?_ ?_
    · intro column hcolumn
      obtain ⟨key, hkey⟩ := hcol column hcolumn
      exact length_seekColumn hkey
    · intro column hcolumn
      obtain ⟨key, hkey⟩ := hcol column hcolumn
      exact mem_seekColumn hE hrow hconj hkey

omit [DecidableEq S] in
/-- The WHERE fragment keeps some of the filters. -/
theorem satisfiesAll_exprsToWhereFragment {unparses : Expr S → Bool} {filters parts : List (Expr S)}
    (hsat : SatisfiesAll E row filters) (h : exprsToWhereFragment unparses filters = some parts) :
    SatisfiesAll E row parts := by
  simp only [exprsToWhereFragment] at h
  split_ifs at h
  cases h
  intro e he
  exact hsat e (List.mem_of_mem_filter (List.mem_of_mem_filter he))

/-- A row that satisfies the filters satisfies the request. -/
theorem selects_scan (hE : E.Lawful) {unparses : Expr S → Bool} {provider : TableProvider} {filters : List (Expr S)}
    (hrow : WellTyped E provider.arrowSchema row) (hsat : SatisfiesAll E row filters) :
    (scan E unparses provider filters).Selects E row where
  ids batch hbatch := contains_of_buildSeekBatch hE hrow hsat hbatch
  indexes batch hbatch := contains_of_buildSeekBatch hE hrow hsat hbatch
  filter parts hparts := by
    -- Where the fragment is dropped there is nothing to satisfy.
    obtain ⟨-, hparts⟩ := Option.ite_none_left_eq_some.mp hparts
    exact satisfiesAll_exprsToWhereFragment hsat hparts

end Soundness

/-- Pushdown loses no row. A row that satisfies the filters is in every batch built from them; and whatever rows
    `read_data` returns, as long as those it leaves out do not satisfy the request, the filters applied again keep
    exactly the rows of the table that satisfy them. -/
theorem filterExec_scan [DecidableEq S] (E : Engine S) (hE : E.Lawful) (unparses : Expr S → Bool)
    (provider : TableProvider) (filters : List (Expr S)) :
    (∀ keyColumns batch, buildSeekBatch E filters provider.arrowSchema keyColumns = some batch →
      ∀ row, WellTyped E provider.arrowSchema row → SatisfiesAll E row filters → batch.Contains row) ∧
    ∀ table returned omitted : List (Row S), (∀ row ∈ table, WellTyped E provider.arrowSchema row) →
      (returned ++ omitted).Perm table →
      (∀ row ∈ omitted, ¬ (scan E unparses provider (pushedFilters filters)).Selects E row) →
      (filterExec E filters returned).Perm (filterExec E filters table) := by
  refine ⟨fun keyColumns batch hbatch row hrow hsat => contains_of_buildSeekBatch hE hrow hsat hbatch, ?_⟩
  intro table returned omitted htyped hperm homitted
  have hnone : filterExec E filters omitted = [] := by
    apply List.filter_eq_nil_iff.mpr
    intro row hmem hsat
    have hrow := htyped row (hperm.subset (List.mem_append_right _ hmem))
    have hpushed : SatisfiesAll E row (pushedFilters filters) := by
      intro e he
      exact of_decide_eq_true hsat e (List.mem_of_mem_filter he)
    exact homitted row hmem (selects_scan hE hrow hpushed)
  have hfilter := hperm.filter (fun row => decide (SatisfiesAll E row filters))
  rw [List.filter_append] at hfilter
  change (filterExec E filters returned ++ filterExec E filters omitted).Perm (filterExec E filters table) at hfilter
  rwa [hnone, List.append_nil] at hfilter

/-! ### A table of integers -/

/-- Nullable 64-bit integers, with conditions as 1, 0 and NULL. -/
def integers : Engine (Option Int) where
  dataType _    := .int64
  isNull v      := v.isNone
  castTo v t    := if t = .int64 then some v else none
  compareEq     := Truth.compare (fun x y => decide (x = y))
  boolean t     := t.map (fun b => if b then 1 else 0)
  truth v       := v.map (fun x => decide (x ≠ 0))
  operator _ _ _ := none
  unary _ _     := none
  like _ _ _ _ _ _ := none
  between _ _ _ _ := none
  other _ _     := none
  encodes _     := true

theorem integers_lawful : integers.Lawful where
  truth_boolean t := by rcases t with _ | _ | _ <;> rfl
  compare_comm x y := by
    cases x <;> cases y <;> simp [integers, Truth.compare, eq_comm]
  compare_same x v _ _ h := by
    obtain ⟨a, b, rfl, rfl, hab⟩ := Truth.compare_eq_true_iff.mp h
    rw [of_decide_eq_true hab]
  compare_cast x v c _ _ hcast _ _ h := by
    obtain ⟨a, b, rfl, rfl, hab⟩ := Truth.compare_eq_true_iff.mp h
    cases hcast
    rw [of_decide_eq_true hab]

/-- `id IN (1, 2) AND kind = 7` on a table keyed by `id` with an index on `kind`: the row returned besides the one asked
    for is filtered out again. -/
theorem filterExec_scan_in_list :
    let provider : TableProvider := ⟨[("id", .int64), ("kind", .int64)], ["id"], [["kind"]]⟩
    let filters : List (Expr (Option Int)) :=
      [.inList (.column "id") [.literal (some 1), .literal (some 2)] false,
        .binaryExpr (.column "kind") .eq (.literal (some 7))]
    let row : Int → Int → Row (Option Int) := fun id kind name => if name = "id" then some id else some kind
    (scan integers (fun _ => true) provider (pushedFilters filters)).filter = none ∧
      (filterExec integers filters [row 1 7, row 3 7]).Perm
        (filterExec integers filters [row 1 7, row 3 7, row 2 8]) := by
  intro provider filters row
  refine ⟨by decide +kernel, ?_⟩
  refine (filterExec_scan integers integers_lawful (fun _ => true) provider filters).2
    [row 1 7, row 3 7, row 2 8] [row 1 7, row 3 7] [row 2 8] ?_ (.refl _) ?_
  · intro r _ name declared hname
    obtain ⟨field, hfield, rfl⟩ := Option.map_eq_some_iff.mp hname
    have hmem : field ∈ provider.arrowSchema := List.mem_of_find?_eq_some hfield
    rcases List.mem_cons.mp hmem with rfl | hmem
    · rfl
    · rw [List.mem_singleton.mp hmem]
      rfl
  · intro r hr
    rw [List.mem_singleton.mp hr]
    decide +kernel

end Penca.Sql.Pushdown
