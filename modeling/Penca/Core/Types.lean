import Mathlib.Tactic.TypeStar

/-!
# `Core.Types` — Arrow column types and their Postgres column types

The Arrow types a column can be declared with and `arrow_type_to_sql`, the gate that says which of them a table may use
and how Postgres stores them. A list's child must be supported and scalar.
-/

namespace Penca

/-- Arrow `TimeUnit`. -/
inductive TimeUnit where
  | second
  | millisecond
  | microsecond
  | nanosecond
  deriving DecidableEq, Repr

/-- Arrow `DataType`. A list type carries its child field, whose name and nullability count when types are compared;
    `unsupported` stands for every type outside the canonical set. -/
inductive DataType where
  | int8 | int16 | int32 | int64
  | uint8 | uint16 | uint32 | uint64
  | float16 | float32 | float64
  | boolean
  | utf8 | largeUtf8 | utf8View
  | binary | largeBinary | binaryView
  | decimal128 (precision : Nat) (scale : Int)
  | decimal256 (precision : Nat) (scale : Int)
  | date32 | date64
  | time32 (unit : TimeUnit)
  | time64 (unit : TimeUnit)
  | timestamp (unit : TimeUnit) (tz : Option String)
  | list (item : String) (nullable : Bool) (child : DataType)
  | largeList (item : String) (nullable : Bool) (child : DataType)
  | fixedSizeList (item : String) (nullable : Bool) (child : DataType) (length : Nat)
  | unsupported (name : String)
  deriving DecidableEq, Repr

/-- A Postgres column type. -/
inductive SqlType where
  | smallint | integer | bigint
  | numeric
  | numericPS (precision : Nat) (scale : Int)
  | real | doublePrecision
  | boolean
  | text
  | bytea
  | date | time | timestamp | timestamptz
  | uuid
  | array (element : SqlType)
  deriving DecidableEq, Repr

/-- `pg_column_type` of the scalar types `CanonicalType::from_arrow` accepts. -/
def DataType.scalarToSql : DataType → Option SqlType
  | .int8 | .int16 | .uint8            => some .smallint
  | .int32 | .uint16                   => some .integer
  | .int64 | .uint32                   => some .bigint
  | .uint64                            => some .numeric
  | .float16 | .float32                => some .real
  | .float64                           => some .doublePrecision
  | .boolean                           => some .boolean
  | .utf8 | .largeUtf8 | .utf8View     => some .text
  | .binary | .largeBinary | .binaryView => some .bytea
  | .decimal128 precision scale        =>
      if 1 ≤ precision ∧ precision ≤ 38 then some (.numericPS precision scale) else none
  | .decimal256 precision scale        =>
      if 1 ≤ precision ∧ precision ≤ 76 then some (.numericPS precision scale) else none
  | .date32 | .date64                  => some .date
  | .time32 _ | .time64 _              => some .time
  | .timestamp _ none                  => some .timestamp
  | .timestamp _ (some _)              => some .timestamptz
  | .list _ _ _ | .largeList _ _ _ | .fixedSizeList _ _ _ _ | .unsupported _ => none

/-- `arrow_type_to_sql`. -/
def arrowTypeToSql : DataType → Option SqlType
  | .list _ _ child            => child.scalarToSql.map .array
  | .largeList _ _ child       => child.scalarToSql.map .array
  | .fixedSizeList _ _ child _ => child.scalarToSql.map .array
  | scalar                     => scalar.scalarToSql

end Penca
