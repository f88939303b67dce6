import KcnTools.W3m.SpanTable

/-! The grid of a table while it is read (`feed_table_tag` of table.c), and the entry of the spanning cells that
`do_refill` charges with the width of a cell. What a tag says is in the record of the tag. -/

namespace KcnTools.W3m

def tableMaxRow : Nat := 50
def tableMaxCol : Nat := 50
def tableMaxCell : Nat := 20
def attrRowspanMax : Int := 32766

def httX : UInt16 := 1
def httY : UInt16 := 2
def httNowrap : UInt16 := 4
def httAlign : UInt16 := 0x30
def httLeft : UInt16 := 0
def httCenter : UInt16 := 0x10
def httRight : UInt16 := 0x20
def httTrset : UInt16 := 0x40
def httValign : UInt16 := 0x700
def httTop : UInt16 := 0x100
def httMiddle : UInt16 := 0x200
def httBottom : UInt16 := 0x400
def httVtrset : UInt16 := 0x800

inductive Alignment where
  | left
  | right
  | center

inductive VerticalAlignment where
  | top
  | middle
  | bottom

def Alignment.attr : Alignment → UInt16
  | .left => httLeft
  | .right => httRight
  | .center => httCenter

def VerticalAlignment.attr : VerticalAlignment → UInt16
  | .top => httTop
  | .middle => httMiddle
  | .bottom => httBottom

/-- A `<td>` or `<th>`; `width` is its width attribute in characters, 0 for none. -/
structure CellTag where
  header : Bool
  rowspan : Option Int
  colspan : Option Int
  align : Option Alignment
  valign : Option VerticalAlignment
  nowrap : Bool
  width : Int
  /-- The sum of a column and the span is an `int`. -/
  narrow : ∀ span ∈ colspan, -0x80000000 ≤ span ∧ span < 0x80000000 - tableMaxCol

structure Table where
  row : Int
  col : Int
  maxrow : Int
  maxcol : Int
  /-- TBL_IN_ROW of `flag` -/
  inRow : Bool
  trattr : UInt16
  /-- `max_rowsize` rows; `none` for NULL -/
  tabattr : List (Option (List UInt16))
  tabwidth : List Int
  minimumWidth : List Int
  cell : SpanTable
  icell : Int

def newTable : Table where
  row := -1
  col := -1
  maxrow := -1
  maxcol := -1
  inRow := false
  trattr := 0
  tabattr := List.replicate tableMaxRow none
  tabwidth := List.replicate tableMaxCol 0
  minimumWidth := List.replicate tableMaxCol 0
  cell := ⟨[], []⟩
  icell := -1

namespace Table

variable (t : Table)

def rowAttrs (row : Nat) : List UInt16 := ((t.tabattr[row]?).join).getD []

def attrAt (row col : Nat) : UInt16 := (t.rowAttrs row).getD col 0

def setAttr (row col : Nat) (attr : UInt16) : Table :=
  { t with tabattr := t.tabattr.set row (some ((t.rowAttrs row).set col attr)) }

def checkRow (row : Nat) : Table :=
  let rows :=
    if t.tabattr.length ≤ row then
      t.tabattr ++ List.replicate (max (t.tabattr.length * 2) (row + 1) - t.tabattr.length) none
    else t.tabattr
  { t with tabattr := if rows[row]?.join.isNone then rows.set row (some (List.replicate tableMaxCol 0)) else rows }

def tableColspan (row col : Nat) : Nat :=
  1 + ((List.range' (col + 1) (t.maxcol - col).toNat).takeWhile fun i => t.attrAt row i &&& httX != 0).length

def tableRowspan (row col : Nat) : Nat :=
  if t.tabattr[row]?.join.isNone then 0
  else 1 + ((List.range' (row + 1) (t.maxrow - row).toNat).takeWhile fun i =>
    t.tabattr[i]?.join.isSome && t.attrAt i col &&& httY != 0).length

def rowcolLoop : Nat → Table → Table
  | 0, t => t
  | fuel + 1, t =>
    let t := t.checkRow t.row.toNat
    let taken := ((t.rowAttrs t.row.toNat).drop t.col.toNat).takeWhile fun attr => attr &&& (httX ||| httY) != 0
    let col := t.col.toNat + taken.length
    if col < tableMaxCol then { t with col := col } else rowcolLoop fuel { t with row := t.row + 1, col := 0 }

def checkRowcol : Table :=
  let t :=
    if t.inRow then t else { t with inRow := true, row := t.row + 1, maxrow := max t.maxrow (t.row + 1), col := -1 }
  let t := if t.row = -1 then { t with row := 0 } else t
  let t := if t.col = -1 then { t with col := 0 } else t
  let t := rowcolLoop (t.tabattr.length + 2) t
  { t with maxrow := max t.maxrow t.row, maxcol := max t.maxcol t.col }

def checkMinimum0 (min : Int) : Table :=
  if t.col < 0 then t
  else if t.tabwidth.getD t.col.toNat 0 < 0 then t
  else
    let t := t.checkRow t.row.toNat
    let w := t.tableColspan t.row.toNat t.col.toNat
    let ww := if w = 1 then min else 0
    let cell := if w = 1 ∨ t.icell < 0 then t.cell else t.cell.raise t.icell.toNat min
    let widths := t.minimumWidth.mapIdx fun i width =>
      if t.col.toNat ≤ i ∧ i < t.col.toNat + w then max width ww else width
    { t with cell := cell, minimumWidth := widths }

def feedTr (align : Option Alignment) (valign : Option VerticalAlignment) : Table :=
  let alignAttr := match align with
    | some align => align.attr ||| httTrset
    | none => 0
  let valignAttr := match valign with
    | some valign => valign.attr ||| httVtrset
    | none => 0
  { t with col := -1, row := t.row + 1, inRow := true, trattr := alignAttr ||| valignAttr }

def openRow : Table :=
  let t := if t.row = -1 then { t with row := -1, col := -1, maxrow := -1 } else t
  if t.col = -1 then
    let t := if t.inRow then t else { t with row := t.row + 1, inRow := true }
    { t with maxrow := max t.maxrow t.row }
  else t

/-- Where a cell goes: the first column of the row without attributes, if there is one -/
def placeCell : Table × Bool :=
  let prevCol := t.col
  let t := t.openRow
  let t := { t with col := t.col + 1 }.checkRow t.row.toNat
  let taken := ((t.rowAttrs t.row.toNat).drop t.col.toNat).takeWhile fun attr => attr != 0
  let col := t.col.toNat + taken.length
  if col > tableMaxCol - 1 then ({ t with col := prevCol }, false)
  else ({ t with col := col, maxcol := max t.maxcol col }, true)

def cellRowspan (tag : CellTag) : Int :=
  match tag.rowspan with
  | none => 1
  | some rowspan => min rowspan attrRowspanMax

def cellColspan (tag : CellTag) : Int :=
  match tag.colspan with
  | none => 1
  | some colspan => if t.col + colspan ≥ tableMaxCol then tableMaxCol - t.col else colspan

def setCellAttr (tag : CellTag) : Table :=
  let align := match tag.align with
    | some align => align.attr
    | none => if t.trattr &&& httTrset != 0 then t.trattr &&& httAlign else if tag.header then httCenter else httLeft
  let valign := match tag.valign with
    | some valign => valign.attr
    | none => if t.trattr &&& httVtrset != 0 then t.trattr &&& httValign else httMiddle
  let attr := t.attrAt t.row.toNat t.col.toNat
  let attr := if tag.nowrap then attr ||| httNowrap else attr
  let attr := if tag.width ≠ 0 then attr &&& ~~~httNowrap else attr
  t.setAttr t.row.toNat t.col.toNat (attr &&& ~~~(httAlign ||| httValign) ||| (align ||| valign))

def registerSpan (colspan : Int) : Table :=
  if 1 < colspan then
    let registered := t.cell.register tableMaxCell tableMaxCol colspan.toNat t.col.toNat
    { t with
      cell := registered.1
      icell := match registered.2 with
        | some icell => icell
        | none => -1 }
  else t

def markCell (i j : Nat) : Table :=
  let row := t.row.toNat + i
  let col := t.col.toNat + j
  let attr := t.attrAt row col
  let t :=
    if attr &&& (httX ||| httY) = 0 then
      t.setAttr row col (attr ||| ((if 0 < i then httY else 0) ||| (if 0 < j then httX else 0)))
    else t
  { t with maxcol := max t.maxcol col }

def markRow (colspan : Int) (i : Nat) : Table :=
  let t := (List.range colspan.toNat).foldl (fun t j => t.markCell i j) (t.checkRow (t.row.toNat + i))
  { t with maxrow := max t.maxrow (t.row + i) }

def markSpan (rowspan colspan : Int) : Table :=
  (List.range rowspan.toNat).foldl (fun t i => t.markRow colspan i) t

def feedCell (tag : CellTag) : Table :=
  let placed := t.placeCell
  if placed.2 then
    let t := placed.1
    let rowspan := cellRowspan tag
    let t := if tag.rowspan.isSome ∧ t.row + rowspan ≥ t.tabattr.length then t.checkRow (t.row + rowspan).toNat else t
    let colspan := t.cellColspan tag
    ((t.setCellAttr tag).registerSpan colspan).markSpan rowspan colspan
  else placed.1

end Table

/-- What is fed to a table: its tags, its content, and the minimum width of a piece of content -/
inductive TableTag where
  | tr (align : Option Alignment) (valign : Option VerticalAlignment)
  | cell (tag : CellTag)
  | endTr
  | endCell
  | content
  | minimum (min : Int)

def feedTableTag (t : Table) : TableTag → Table
  | .tr align valign => t.feedTr align valign
  | .cell tag => t.feedCell tag
  | .endTr => { t with col := -1, inRow := false }
  | .endCell => t
  | .content => t.checkRowcol
  | .minimum min => t.checkMinimum0 min

def feedTable (t : Table) (tags : List TableTag) : Table := tags.foldl feedTableTag t

/-- What the end of `do_refill` does: the table after it, the entry it updates, and whether `cell->index` is read
up to `maxcell` only. -/
structure Refill where
  table : Table
  icell : Option Nat
  inside : Bool

def doRefill (t : Table) (row col : Nat) (maxlimit : Int) : Refill :=
  let colspan := t.tableColspan row col
  if 1 < colspan then
    let k := bsearch2short colspan col tableMaxCol t.cell t.cell.entries.length
    match t.cell.index[k]? with
    | none => ⟨t, none, false⟩
    | some icell =>
      if ((t.cell.entries[icell]?).map (·.size)).getD 0 < maxlimit then
        ⟨{ t with cell := t.cell.raise icell maxlimit }, some icell, true⟩
      else ⟨t, none, true⟩
  else ⟨{ t with minimumWidth := t.minimumWidth.modify col (max maxlimit) }, none, true⟩

/-! ### What has been registered -/

def spanFed (t : Table) : TableTag → Option (Nat × Nat)
  | .cell tag =>
    let placed := t.placeCell
    if placed.2 ∧ 1 < placed.1.cellColspan tag then
      some (placed.1.col.toNat, (placed.1.cellColspan tag).toNat)
    else none
  | _ => none

def spansFed : Table → List TableTag → List (Nat × Nat)
  | _, [] => []
  | t, tag :: rest => (spanFed t tag).toList ++ spansFed (feedTableTag t tag) rest

/-- The spans of a table that has been fed: the first ones that differ, as many as there is room for -/
def spansKept (tags : List TableTag) : List (Nat × Nat) :=
  (spansFed newTable tags).foldl (SpanTable.addPair tableMaxCell) []

def SpansAre (cell : SpanTable) (t : Table) : Prop := t.cell = cell ∧ t.maxcol < tableMaxCol

theorem tableMaxCol_pos : (0 : Int) < tableMaxCol := by decide

namespace Table

variable {t : Table} {cell : SpanTable}

theorem markCell_holds {i j : Nat} (holds : SpansAre cell t) (inside : t.col.toNat + j < tableMaxCol) :
    SpansAre cell (t.markCell i j) ∧ (t.markCell i j).col = t.col := by
  have bounded : max t.maxcol ((t.col.toNat + j : Nat) : Int) < tableMaxCol :=
    Int.max_lt.mpr ⟨holds.2, Int.ofNat_lt.mpr inside⟩
  rw [markCell]
  split
  · exact ⟨⟨holds.1, bounded⟩, rfl⟩
  · exact ⟨⟨holds.1, bounded⟩, rfl⟩

theorem markRow_holds {colspan : Int} (i : Nat) (holds : SpansAre cell t)
    (inside : t.col.toNat + colspan.toNat ≤ tableMaxCol) :
    SpansAre cell (t.markRow colspan i) ∧ (t.markRow colspan i).col = t.col := by
  have marked : SpansAre cell ((List.range colspan.toNat).foldl (fun t j => t.markCell i j)
        (t.checkRow (t.row.toNat + i))) ∧
      ((List.range colspan.toNat).foldl (fun t j => t.markCell i j) (t.checkRow (t.row.toNat + i))).col = t.col := by
    refine List.foldlRecOn _ _ (motive := fun table => SpansAre cell table ∧ table.col = t.col) ⟨holds, rfl⟩ ?_
    intro table kept j member
    have below := List.mem_range.mp member
    obtain ⟨still, same⟩ := @markCell_holds _ _ i j kept.1 (by rw [kept.2]; omega)
    exact ⟨still, same.trans kept.2⟩
  exact ⟨marked.1, marked.2⟩

theorem markSpan_holds {rowspan colspan : Int} (holds : SpansAre cell t)
    (inside : t.col.toNat + colspan.toNat ≤ tableMaxCol) :
    SpansAre cell (t.markSpan rowspan colspan) ∧ (t.markSpan rowspan colspan).col = t.col := by
  refine List.foldlRecOn _ _ (motive := fun table => SpansAre cell table ∧ table.col = t.col) ⟨holds, rfl⟩ ?_
  intro table kept i member
  obtain ⟨still, same⟩ := @markRow_holds _ _ colspan i kept.1 (by rw [kept.2]; exact inside)
  exact ⟨still, same.trans kept.2⟩

theorem rowcolLoop_holds (fuel : Nat) (holds : SpansAre cell t) :
    SpansAre cell (rowcolLoop fuel t) ∧ ((rowcolLoop fuel t).col < tableMaxCol ∨ (rowcolLoop fuel t).col = t.col) := by
  induction fuel generalizing t with
  | zero => exact ⟨holds, Or.inr rfl⟩
  | succ fuel ih =>
    rw [rowcolLoop]
    split
    · rename_i free
      exact ⟨holds, Or.inl (Int.ofNat_lt.mpr free)⟩
    · have next : SpansAre cell { t.checkRow t.row.toNat with row := t.row + 1, col := 0 } := holds
      obtain ⟨kept, bounded⟩ := ih next
      refine ⟨kept, Or.inl ?_⟩
      rcases bounded with below | same
      · exact below
      · exact lt_of_eq_of_lt same tableMaxCol_pos

theorem checkRowcol_holds (holds : SpansAre cell t) (inside : t.col < tableMaxCol) :
    SpansAre cell t.checkRowcol ∧ t.checkRowcol.col < tableMaxCol := by
  have started : ∀ start : Table, SpansAre cell start → start.col < tableMaxCol →
      SpansAre cell { rowcolLoop (start.tabattr.length + 2) start with
        maxrow := max (rowcolLoop (start.tabattr.length + 2) start).maxrow
          (rowcolLoop (start.tabattr.length + 2) start).row
        maxcol := max (rowcolLoop (start.tabattr.length + 2) start).maxcol
          (rowcolLoop (start.tabattr.length + 2) start).col } ∧ (rowcolLoop (start.tabattr.length + 2) start).col < tableMaxCol := by
    intro start kept below
    obtain ⟨looped, column⟩ := rowcolLoop_holds (start.tabattr.length + 2) kept
    have short : (rowcolLoop (start.tabattr.length + 2) start).col < tableMaxCol := by
      rcases column with short | same
      · exact short
      · exact lt_of_eq_of_lt same below
    exact ⟨⟨looped.1, Int.max_lt.mpr ⟨looped.2, short⟩⟩, short⟩
  rw [checkRowcol]
  refine started _ ?_ ?_
  · split_ifs <;> exact holds
  · split_ifs
    all_goals first
      | exact inside
      | exact tableMaxCol_pos
      | exact Int.lt_trans (by decide : (-1 : Int) < 0) tableMaxCol_pos

theorem openRow_holds (holds : SpansAre cell t) : SpansAre cell t.openRow := by
  rw [openRow]
  split_ifs <;> exact holds

theorem placeCell_holds (holds : SpansAre cell t) : SpansAre cell t.placeCell.1 := by
  have opened := openRow_holds holds
  simp only [placeCell]
  split
  · exact opened
  · rename_i free
    refine ⟨opened.1, Int.max_lt.mpr ⟨opened.2, Int.ofNat_lt.mpr ?_⟩⟩
    simp only [tableMaxCol] at free ⊢
    omega

theorem placeCell_col (placed : t.placeCell.2 = true) : ∃ col : Nat, t.placeCell.1.col = col ∧ col < tableMaxCol := by
  simp only [placeCell] at placed ⊢
  split at placed
  · exact absurd placed (by simp)
  · rename_i free
    rw [if_neg free]
    refine ⟨_, rfl, ?_⟩
    simp only [tableMaxCol] at free ⊢
    omega

theorem cellColspan_le {tag : CellTag} {col : Nat} (placed : t.col = col) (inside : col < tableMaxCol) :
    col + (t.cellColspan tag).toNat ≤ tableMaxCol := by
  simp only [tableMaxCol] at inside
  simp only [cellColspan, placed, tableMaxCol]
  cases tag.colspan with
  | none => simp only [Int.toNat_one]; omega
  | some colspan => simp only; split <;> omega

theorem cellColspan_congr {other : Table} (tag : CellTag) (same : other.col = t.col) :
    other.cellColspan tag = t.cellColspan tag := by
  rw [cellColspan, cellColspan, same]

theorem registerSpan_holds {colspan : Int} (holds : SpansAre cell t) :
    SpansAre (if 1 < colspan then (cell.register tableMaxCell tableMaxCol colspan.toNat t.col.toNat).1 else cell)
        (t.registerSpan colspan) ∧ (t.registerSpan colspan).col = t.col := by
  rw [registerSpan]
  split
  · exact ⟨⟨by rw [← holds.1], holds.2⟩, rfl⟩
  · exact ⟨holds, rfl⟩

theorem feedCell_holds {tag : CellTag} (holds : SpansAre cell t) (bounded : t.col < tableMaxCol) :
    SpansAre (if t.placeCell.2 ∧ 1 < t.placeCell.1.cellColspan tag then
        (cell.register tableMaxCell tableMaxCol (t.placeCell.1.cellColspan tag).toNat t.placeCell.1.col.toNat).1
      else cell) (t.feedCell tag) ∧ (t.feedCell tag).col < tableMaxCol := by
  have kept := placeCell_holds holds
  simp only [feedCell]
  by_cases placed : t.placeCell.2 = true
  · obtain ⟨col, column, inside⟩ := placeCell_col placed
    simp only [placed, if_true, true_and]
    generalize t.placeCell.1 = table at kept column
    have room : SpansAre cell (if tag.rowspan.isSome ∧ table.row + cellRowspan tag ≥ table.tabattr.length then
          table.checkRow (table.row + cellRowspan tag).toNat else table) ∧
        (if tag.rowspan.isSome ∧ table.row + cellRowspan tag ≥ table.tabattr.length then
          table.checkRow (table.row + cellRowspan tag).toNat else table).col = table.col := by
      split
      · exact ⟨kept, rfl⟩
      · exact ⟨kept, rfl⟩
    generalize (if tag.rowspan.isSome ∧ table.row + cellRowspan tag ≥ table.tabattr.length then
      table.checkRow (table.row + cellRowspan tag).toNat else table) = grown at room
    obtain ⟨grownHolds, same⟩ := room
    rw [cellColspan_congr tag same]
    have attributed : SpansAre cell (grown.setCellAttr tag) := grownHolds
    obtain ⟨registered, still⟩ := @registerSpan_holds _ _ (table.cellColspan tag) attributed
    have here : (grown.setCellAttr tag).col = table.col := same
    rw [here] at registered still
    obtain ⟨marked, end_⟩ := @markSpan_holds _ _ (cellRowspan tag) (table.cellColspan tag) registered (by
      rw [still, column, Int.toNat_natCast]
      exact cellColspan_le column inside)
    refine ⟨marked, ?_⟩
    rw [end_, still, column]
    exact Int.ofNat_lt.mpr inside
  · rw [if_neg placed, if_neg fun both => placed both.1]
    refine ⟨kept, ?_⟩
    simp only [placeCell] at placed ⊢
    split at placed
    · rename_i full
      rw [if_pos full]
      exact bounded
    · exact absurd rfl placed

theorem checkMinimum0_cell (min : Int) :
    ((t.checkMinimum0 min).cell = t.cell ∨ ∃ idx, (t.checkMinimum0 min).cell = t.cell.raise idx min) ∧
      (t.checkMinimum0 min).maxcol = t.maxcol ∧ (t.checkMinimum0 min).col = t.col := by
  rw [checkMinimum0]
  by_cases outside : t.col < 0
  · rw [if_pos outside]
    exact ⟨Or.inl rfl, rfl, rfl⟩
  rw [if_neg outside]
  by_cases negative : t.tabwidth.getD t.col.toNat 0 < 0
  · rw [if_pos negative]
    exact ⟨Or.inl rfl, rfl, rfl⟩
  rw [if_neg negative]
  refine ⟨?_, rfl, rfl⟩
  simp only
  split
  · exact Or.inl rfl
  · exact Or.inr ⟨_, rfl⟩

end Table

structure Readable (t : Table) : Prop where
  formed : t.cell.WellFormed tableMaxCol
  maxcol : t.maxcol < tableMaxCol
  col : t.col < tableMaxCol

theorem feedTableTag_readable {t : Table} (readable : Readable t) (tag : TableTag) :
    Readable (feedTableTag t tag) ∧
      (feedTableTag t tag).cell.pairs = (spanFed t tag).toList.foldl (SpanTable.addPair tableMaxCell) t.cell.pairs := by
  have holds : SpansAre t.cell t := ⟨rfl, readable.maxcol⟩
  cases tag with
  | tr align valign =>
    exact ⟨⟨readable.formed, readable.maxcol, Int.lt_trans (by decide : (-1 : Int) < 0) tableMaxCol_pos⟩, rfl⟩
  | endTr =>
    exact ⟨⟨readable.formed, readable.maxcol, Int.lt_trans (by decide : (-1 : Int) < 0) tableMaxCol_pos⟩, rfl⟩
  | endCell => exact ⟨⟨readable.formed, readable.maxcol, readable.col⟩, rfl⟩
  | content =>
    obtain ⟨⟨same, maxcol⟩, col⟩ := Table.checkRowcol_holds holds readable.col
    have formed := readable.formed
    rw [← same] at formed
    exact ⟨⟨formed, maxcol, col⟩, congrArg SpanTable.pairs same⟩
  | minimum min =>
    obtain ⟨cell, maxcol, col⟩ := @Table.checkMinimum0_cell t min
    have bounded : (t.checkMinimum0 min).maxcol < tableMaxCol ∧ (t.checkMinimum0 min).col < tableMaxCol := by
      rw [maxcol, col]
      exact ⟨readable.maxcol, readable.col⟩
    rcases cell with same | ⟨idx, raised⟩
    · have formed := readable.formed
      rw [← same] at formed
      exact ⟨⟨formed, bounded.1, bounded.2⟩, congrArg SpanTable.pairs same⟩
    · have formed := readable.formed.raise idx min
      rw [← raised] at formed
      exact ⟨⟨formed, bounded.1, bounded.2⟩, (congrArg SpanTable.pairs raised).trans (SpanTable.raise_pairs _ _ _)⟩
  | cell tag =>
    obtain ⟨⟨same, maxcol⟩, bounded⟩ := @Table.feedCell_holds _ _ tag holds readable.col
    simp only [feedTableTag, spanFed]
    by_cases registers : t.placeCell.2 ∧ 1 < t.placeCell.1.cellColspan tag
    · obtain ⟨col, column, inside⟩ := Table.placeCell_col registers.1
      rw [if_pos registers] at same ⊢
      rw [column, Int.toNat_natCast] at same ⊢
      obtain ⟨formed, pairs, _⟩ := readable.formed.register inside tableMaxCell
        (t.placeCell.1.cellColspan tag).toNat
      rw [← same] at formed pairs
      exact ⟨⟨formed, maxcol, bounded⟩, pairs⟩
    · rw [if_neg registers] at same ⊢
      have formed := readable.formed
      rw [← same] at formed
      exact ⟨⟨formed, maxcol, bounded⟩, congrArg SpanTable.pairs same⟩

theorem newTable_readable : Readable newTable :=
  ⟨SpanTable.empty_wellFormed _, by decide, by decide⟩

theorem feedTable_readable {t : Table} (readable : Readable t) (tags : List TableTag) :
    Readable (feedTable t tags) ∧
      (feedTable t tags).cell.pairs = (spansFed t tags).foldl (SpanTable.addPair tableMaxCell) t.cell.pairs := by
  induction tags generalizing t with
  | nil => exact ⟨readable, rfl⟩
  | cons tag rest ih =>
    obtain ⟨next, pairs⟩ := feedTableTag_readable readable tag
    obtain ⟨final, kept⟩ := ih next
    refine ⟨final, ?_⟩
    rw [spansFed, List.foldl_append, ← pairs]
    exact kept

theorem tableColspan_lt {t : Table} {row col : Nat} (wide : 1 < t.tableColspan row col) : (col : Int) < t.maxcol := by
  by_contra outside
  have none_ : (t.maxcol - col).toNat = 0 := by omega
  rw [Table.tableColspan, none_] at wide
  simp at wide

def ChargesOwn (t : Table) (row col : Nat) : Prop :=
  ∀ maxlimit, (doRefill t row col maxlimit).inside = true ∧
    ∀ icell, (doRefill t row col maxlimit).icell = some icell → ∃ entry, t.cell.entries[icell]? = some entry ∧
      entry.start = col ∧ entry.span = t.tableColspan row col

/-- A spanning cell is charged to its own entry exactly when one was registered for the span it is rendered with. -/
theorem chargesOwn_iff (tags : List TableTag) (row col : Nat)
    (wide : 1 < (feedTable newTable tags).tableColspan row col) :
    ChargesOwn (feedTable newTable tags) row col ↔
      (col, (feedTable newTable tags).tableColspan row col) ∈ spansKept tags := by
  obtain ⟨readable, pairs⟩ := feedTable_readable newTable_readable tags
  generalize feedTable newTable tags = t at wide readable pairs
  have inside : col < tableMaxCol := by
    have := tableColspan_lt wide
    have := readable.maxcol
    omega
  rw [show spansKept tags = t.cell.pairs from pairs.symm]
  constructor
  · intro own
    -- what the search comes to is charged as soon as the cell is wider than the entry
    cases read : t.cell.index[bsearch2short (t.tableColspan row col) col tableMaxCol t.cell
        t.cell.entries.length]? with
    | none =>
      have impossible := (own 0).1
      rw [doRefill, if_pos wide] at impossible
      simp [read] at impossible
    | some icell =>
      have charged : (doRefill t row col (((t.cell.entries[icell]?).map (·.size)).getD 0 + 1)).icell = some icell := by
        rw [doRefill, if_pos wide]
        simp only [read]
        rw [if_pos (Int.lt_succ _)]
      obtain ⟨entry, here, starts, spans⟩ := (own _).2 icell charged
      exact SpanTable.mem_pairs.mpr ⟨entry, List.mem_of_getElem? here, starts, spans⟩
  · intro member maxlimit
    obtain ⟨idx, found⟩ := readable.formed.entryAt_of_mem member
    obtain ⟨read, entry, here, same⟩ := SpanTable.entryAt_some found
    rw [doRefill, if_pos wide]
    simp only [read]
    split
    · refine ⟨rfl, fun icell equal => ?_⟩
      rw [← Option.some.inj equal]
      exact ⟨entry, here, same⟩
    · exact ⟨rfl, fun icell impossible => absurd impossible (by simp)⟩

theorem plainCell_narrow (colspan : Fin 5) :
    ∀ span ∈ some (colspan : Int), -0x80000000 ≤ span ∧ span < 0x80000000 - tableMaxCol := by
  intro span same
  rw [← Option.mem_some.mp same, tableMaxCol]
  omega

def plainCell (rowspan : Int) (colspan : Fin 5) : TableTag :=
  .cell ⟨false, some rowspan, some colspan, none, none, false, 0, plainCell_narrow colspan⟩

theorem chargesOwn_wide : ChargesOwn (feedTable newTable [.tr none none, plainCell 1 2]) 0 0 :=
  (chargesOwn_iff [.tr none none, plainCell 1 2] 0 0 (by decide +kernel)).mpr (by decide +kernel)

/-- A cell of span 4 that runs into one from the row above spans 2 columns, and is charged to the other cell. Of
21 spans, the last one is not registered, and the search for it ends behind the index. -/
theorem chargesOwn_cut :
    ¬ ChargesOwn (feedTable newTable [.tr none none, plainCell 1 1, plainCell 1 1, plainCell 2 2, .tr none none,
      plainCell 1 4]) 1 0 ∧
    ¬ ChargesOwn (feedTable newTable (.tr none none :: List.replicate 21 (plainCell 1 2))) 0 40 := by
  refine ⟨fun own => ?_, fun own => ?_⟩
  · obtain ⟨entry, found, starts, _⟩ := (own 5).2 0 (by decide +kernel)
    have first : (feedTable newTable [.tr none none, plainCell 1 1, plainCell 1 1, plainCell 2 2, .tr none none,
        plainCell 1 4]).cell.entries[0]? = some ⟨2, 2, 0⟩ := by decide +kernel
    rw [first, Option.some.injEq] at found
    subst found
    exact absurd starts (by decide)
  · have inside := (own 5).1
    exact absurd inside (by decide +kernel)

end KcnTools.W3m
