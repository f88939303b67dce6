import Mathlib

/-!
Minimal and maximal column widths of HTML tables: `get_column_widths` of `document/html/tables.c`
goes over the cells by their column span and widens the columns under each.
-/

namespace KcnTools.Html

structure TableCell where
  isUsed : Bool
  isSpanned : Bool
  colspan : Nat
  minWidth : Int
  maxWidth : Int

inductive TableRules
  | none
  | rows
  | cols
  | all
  | groups
  deriving DecidableEq

structure Table where
  cols : Nat
  rows : Nat
  /-- By column and row -/
  cell : Nat → Nat → TableCell
  /-- Which columns start a group -/
  columns : List Bool
  rules : TableRules
  cellspacing : Int
  cellpadding : Int

structure ColumnWidths where
  minColsWidths : List Int
  maxColsWidths : List Int

def intLowerBound (what limit : Int) : Int := if what < limit then limit else what

def addShares (values : List Int) (d r : Int) : List Int :=
  values.mapIdx fun i value => value + d + if (i : Int) < r then 1 else 0

def distributeRest (values : List Int) (wanted : Int) : List Int :=
  addShares values (wanted.tdiv values.length) (wanted.tmod values.length)

/-- The values are raised to a sum of `wanted`, up to the limits as long as these leave room. -/
def distributeValues (values : List Int) (wanted : Int) (limits : Option (List Int)) : List Int :=
  if wanted ≤ values.sum then values
  else
    let raised := distributeRest values (wanted - values.sum)
    match limits with
    | none => raised
    | some limits =>
        let delta := raised.zipWith (fun value limit => if 0 < value - limit then value - limit else 0) limits
        let values := raised.zipWith (fun value limit => if 0 < value - limit then limit else value) limits
        if delta.sum = 0 then values else distributeRest values delta.sum

def getVlineWidth (table : Table) (col : Nat) : Int :=
  if col = 0 then -1
  else
    let width :=
      if table.rules = .cols ∨ table.rules = .all then table.cellspacing
      else if table.rules = .groups then if table.columns.getD col false then 1 else 0
      else 0
    if width = 0 ∧ table.cellpadding ≠ 0 then -1 else width

def hasVlineWidth (table : Table) (col : Nat) : Int := if 0 ≤ getVlineWidth table col then 1 else 0

def spanSeparators (table : Table) (col colspan : Nat) : Int :=
  ((List.range' 1 (colspan - 1)).map fun k => hasVlineWidth table (col + k)).sum

def span (widths : List Int) (col count : Nat) : List Int := (widths.drop col).take count

def setSpan (widths : List Int) (col : Nat) (values : List Int) : List Int :=
  widths.take col ++ values ++ widths.drop (col + values.length)

def widenColumns (table : Table) (col : Nat) (cell : TableCell) (widths : ColumnWidths) : ColumnWidths :=
  let p := spanSeparators table col cell.colspan
  let least := distributeValues (span widths.minColsWidths col cell.colspan) (cell.minWidth - p)
    (some (span widths.maxColsWidths col cell.colspan))
  let most := distributeValues (span widths.maxColsWidths col cell.colspan) (cell.maxWidth - p) none
  { minColsWidths := setSpan widths.minColsWidths col least
    maxColsWidths := setSpan widths.maxColsWidths col (most.zipWith intLowerBound least) }

/-- The next larger span; `none` is `INT_MAX`. -/
def newColspan (colspan : Nat) (cell : TableCell) (next : Option Nat) : Option Nat :=
  if colspan < cell.colspan ∧ (∀ least ∈ next, cell.colspan < least) then some cell.colspan else next

/-- One cell of the loop over the table; `none` is a failed assertion. -/
def visitCell (table : Table) (colspan : Nat) (state : ColumnWidths × Option Nat) (place : Nat × Nat) :
    Option (ColumnWidths × Option Nat) :=
  let cell := table.cell place.1 place.2
  if cell.isSpanned ∨ ¬ cell.isUsed then some state
  else if table.cols < cell.colspan + place.1 then none
  else if cell.colspan = colspan then some (widenColumns table place.1 cell state.1, state.2)
  else some (state.1, newColspan colspan cell state.2)

def cellPlaces (table : Table) : List (Nat × Nat) :=
  (List.range table.cols).flatMap fun col => (List.range table.rows).map fun row => (col, row)

/-- The loop over the spans; `none` is a failed assertion or too little fuel. -/
def columnLoop (table : Table) : Nat → Nat → ColumnWidths → Option ColumnWidths
  | 0, _, _ => none
  | fuel + 1, colspan, widths => do
      let (widths, next) ← (cellPlaces table).foldlM (visitCell table colspan) (widths, none)
      match next with
      | none => some widths
      | some colspan => columnLoop table fuel colspan widths

/-- `none` for the widths are arrays that are not allocated yet. -/
def getColumnWidths (table : Table) (widths : Option ColumnWidths) : Option ColumnWidths :=
  if table.cols = 0 then none
  else
    let zero := List.replicate table.cols 0
    columnLoop table (table.cols + 1) 1 (widths.getD ⟨zero, zero⟩)

end KcnTools.Html
