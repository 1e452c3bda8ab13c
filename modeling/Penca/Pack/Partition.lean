import Mathlib.Data.List.Lex
import Mathlib.Data.List.Sort
import Mathlib.Data.Prod.Lex
import Mathlib.Order.MinMax
import Mathlib.Order.WithBot

/-!
# `Pack.Partition` — rows, segment statistics and the typed order of partitions

A snapshot lays the rows of a table out by partition. The *identity* of a partition is its label, the text of
its partition columns; its *place* is the typed order of those columns, NULL first.
-/

namespace Penca.Pack

/-- The user columns of a row. -/
abbrev Columns (n : Nat) (V : Type) := Fin n → Option V

/-- A row of a batch: `row_uuid` and the user columns. -/
abbrev Row (n : Nat) (R V : Type) := R × Columns n V

/-- `ColumnStatsV0`: the least and the greatest value of a column that are not NULL. -/
structure ColumnStats (V : Type) where
  min : Option V
  max : Option V
  nullCount : Nat
  deriving DecidableEq, Repr

/-- `SegmentStatsV0`. -/
structure SegmentStatistics (n : Nat) (V : Type) where
  rowCount : Nat
  perColumn : Fin n → ColumnStats V

variable {n : Nat} {R V T : Type}

/-- The partition columns of a row as the row encoding orders them. -/
def sortRow (keys : List (Fin n)) (columns : Columns n V) : List (WithBot V) := keys.map columns

/-- `PartitionOrderKey`: the typed partition columns, then the label. -/
structure PartitionOrderKey (V T : Type) where
  sortRow : List (WithBot V)
  label : Option T
  deriving DecidableEq

section Order

variable [LinearOrder V]

/-- The lexicographic order the row encoding and the derived `Ord` give, NULL before every value. -/
instance [LinearOrder T] : LinearOrder (PartitionOrderKey V T) :=
  LinearOrder.lift' (fun k => (toLex (k.sortRow, k.label) : List (WithBot V) ×ₗ WithBot T)) (by
    rintro ⟨row, label⟩ ⟨row', label'⟩ h
    have hpair : (row, label) = (row', label') := h
    cases hpair
    rfl)

end Order

end Penca.Pack
