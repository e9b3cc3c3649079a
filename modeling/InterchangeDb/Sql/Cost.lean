import InterchangeDb.Lib.Arith
import InterchangeDb.Sql.Value

/-! Estimates of the cost-based planners: the statistics of a query, and what an operator costs. -/
namespace InterchangeDb

structure Cost (F : Type) where
  ioUnits : F
  cpuUnits : F

/-- What each kind of join adds to the cost of its inputs, and the number two costs are compared by. -/
structure CostModel (F : Type) where
  costNestedLoopJoin : F → F → Cost F
  costIndexNestedLoopJoin : F → F → Cost F
  costHashJoin : F → F → Cost F
  scalar : Cost F → F

/-- What ANALYZE has stored for a column. -/
structure ColumnStats where
  ndv : BitVec 64
  histogramKind : Nat
  histogramBlob : Bytes

/-- The statistics of the tables of a query, where they were analyzed. -/
structure QueryStats where
  tables : Nat → Option (BitVec 64)
  columns : Nat → Nat → Option ColumnStats

namespace QueryStats
variable {F : Type} [Arith F]

def defaultRowCount : F := Arith.lit 1000

def rowCount (stats : QueryStats) (tableId : Nat) : F :=
  match stats.tables tableId with
  | some count => Arith.lit count.toInt
  | none => defaultRowCount

/-- Zero if unknown. -/
def ndv (stats : QueryStats) (tableId column : Nat) : Int :=
  match stats.columns tableId column with
  | some column => column.ndv.toInt
  | none => 0

end QueryStats

section Selectivity
variable {F : Type} [Arith F]
open Arith

def eqFallback : F := lit (1/10)

def minSelectivity : F := lit (1/1000000000)

/-- One over the larger number of distinct values. -/
def joinSelectivity (ndvLeft ndvRight : Int) : F :=
  let maxNdv := Max.max ndvLeft ndvRight
  clamp (if maxNdv > 0 then div (lit 1) (lit maxNdv) else eqFallback) minSelectivity (lit 1)

end Selectivity

end InterchangeDb
