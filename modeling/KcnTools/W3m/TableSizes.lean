import KcnTools.W3m.TableFeed
import Mathlib.Data.List.Dedup

/-! The widths of the columns and the heights of the rows of a table (table.c): each spanning cell gets what it
needs, in one pass over the index of its spans. Numbers are small enough not to overflow a short. -/

namespace KcnTools.W3m

def maxRowCell : Nat := 1000

def rangeSum (widths : List Int) (bcol : Nat) : Nat → Int
  | 0 => 0
  | n + 1 => rangeSum widths bcol n + widths.getD (bcol + n) 0

def addRange (widths : List Int) (low high : Nat) (v : Int) : List Int :=
  widths.mapIdx fun i width => if low ≤ i ∧ i < high then width + v else width

/-- What the loop of `check_cell_width` does for an entry; `dir` is 0 for columns and 1 for rows. -/
def widenSpan (space : Int) (dir : Nat) (tabwidth : List Int) (entry : SpanEntry) : List Int :=
  if entry.size ≤ 0 then tabwidth
  else
    let ecol := entry.start + entry.span
    let swidth := rangeSum tabwidth entry.start entry.span
    let width := entry.size - ((entry.span : Int) - 1) * space
    if swidth < width then
      let w := (width - swidth) / entry.span
      let r := (width - swidth) % entry.span
      let r := if dir = 1 ∧ 0 < r then entry.span else r.toNat
      addRange (addRange tabwidth entry.start ecol w) (ecol - r) ecol 1
    else tabwidth

def checkCellWidth (tabwidth : List Int) (table : SpanTable) (space : Int) (dir : Nat) : List Int :=
  table.index.foldl (fun tabwidth j =>
    match table.entries[j]? with
    | some entry => widenSpan space dir tabwidth entry
    | none => tabwidth) tabwidth

def checkMinimumWidth (t : Table) (cellspacing : Int) (tabwidth : List Int) : List Int :=
  let tabwidth := tabwidth.mapIdx fun i width =>
    if (i : Int) ≤ t.maxcol ∧ width < t.minimumWidth.getD i 0 then t.minimumWidth.getD i 0 else width
  checkCellWidth tabwidth t.cell cellspacing 0

inductive BorderMode where
  | none
  | thin
  | thick
  | nowin
deriving DecidableEq

/-- A cell of the two loops of `check_table_height`, with the number of lines of each cell -/
def heightCell (t : Table) (nitem : Nat → Nat → Nat) (sizes : List Int × SpanTable) (place : Nat × Nat) :
    List Int × SpanTable :=
  let (j, i) := place
  if t.attrAt j i &&& (httX ||| httY) != 0 then sizes
  else
    let tDep := nitem j i
    let rowspan := t.tableRowspan j i
    if 1 < rowspan then
      let registered := sizes.2.register maxRowCell (t.maxrow + 1).toNat rowspan j
      match registered.2 with
      | none => (sizes.1, registered.1)
      | some c => (sizes.1, registered.1.raise c tDep)
    else (sizes.1.modify j (max tDep), sizes.2)

def cellPlaces (t : Table) : List (Nat × Nat) :=
  (List.range (t.maxrow + 1).toNat).flatMap fun j =>
    if t.tabattr[j]?.join.isNone then [] else (List.range (t.maxcol + 1).toNat).map fun i => (j, i)

def checkTableHeight (t : Table) (nitem : Nat → Nat → Nat) (borderMode : BorderMode) (tabheight : List Int) :
    List Int :=
  let sizes := (cellPlaces t).foldl (heightCell t nitem) (tabheight, ⟨[], []⟩)
  let space := match borderMode with
    | .thin => 1
    | .thick => 1
    | .nowin => 1
    | .none => 0
  checkCellWidth sizes.1 sizes.2 space 1

/-! ### Widths that grow -/

def Grows (before after : List Int) : Prop :=
  after.length = before.length ∧ ∀ i, before.getD i 0 ≤ after.getD i 0

theorem Grows.refl (widths : List Int) : Grows widths widths := ⟨rfl, fun _ => Int.le_refl _⟩

theorem Grows.trans {first second third : List Int} (early : Grows first second) (late : Grows second third) :
    Grows first third :=
  ⟨late.1.trans early.1, fun i => Int.le_trans (early.2 i) (late.2 i)⟩

theorem getD_mapIdx (f : Nat → Int → Int) (widths : List Int) {i : Nat} (inside : i < widths.length) :
    (widths.mapIdx f).getD i 0 = f i (widths.getD i 0) := by
  simp [List.getD_eq_getElem?_getD, inside]

theorem mapIdx_grows {f : Nat → Int → Int} (widths : List Int) (raises : ∀ i width, width ≤ f i width) :
    Grows widths (widths.mapIdx f) := by
  refine ⟨List.length_mapIdx, fun i => ?_⟩
  by_cases inside : i < widths.length
  · rw [getD_mapIdx f widths inside]
    exact raises i _
  · simp [List.getD_eq_getElem?_getD, Nat.not_lt.mp inside]

theorem addRange_grows (widths : List Int) (low high : Nat) {v : Int} (nonneg : 0 ≤ v) :
    Grows widths (addRange widths low high v) := by
  refine mapIdx_grows widths fun i width => ?_
  split
  · omega
  · exact Int.le_refl _

theorem rangeSum_mono {before after : List Int} (grows : Grows before after) (bcol n : Nat) :
    rangeSum before bcol n ≤ rangeSum after bcol n := by
  induction n with
  | zero => exact Int.le_refl 0
  | succ n ih => exact Int.add_le_add ih (grows.2 (bcol + n))

theorem rangeSum_addRange {widths : List Int} {bcol low high : Nat} (v : Int) (lower : bcol ≤ low) : ∀ {n : Nat},
    bcol + n ≤ high → bcol + n ≤ widths.length →
    rangeSum (addRange widths low high v) bcol n = rangeSum widths bcol n + v * ((bcol + n - low : Nat) : Int) := by
  intro n
  induction n with
  | zero =>
    intro _ _
    rw [rangeSum, rangeSum, show bcol + 0 - low = 0 by omega]
    simp
  | succ n ih =>
    intro upper inside
    rw [rangeSum, rangeSum, ih (by omega) (by omega), addRange, getD_mapIdx _ _ (by omega)]
    by_cases reached : low ≤ bcol + n
    · rw [if_pos ⟨reached, by omega⟩, show bcol + (n + 1) - low = bcol + n - low + 1 by omega, Int.natCast_succ,
        Int.mul_add]
      omega
    · rw [if_neg (by omega), show bcol + (n + 1) - low = 0 by omega, show bcol + n - low = 0 by omega]
      omega

/-! ### One pass over the spans -/

def Satisfied (widths : List Int) (space : Int) (entry : SpanEntry) : Prop :=
  entry.size ≤ rangeSum widths entry.start entry.span + ((entry.span : Int) - 1) * space

theorem Satisfied.mono {before after : List Int} {space : Int} {entry : SpanEntry} (grows : Grows before after)
    (satisfied : Satisfied before space entry) : Satisfied after space entry :=
  Int.le_trans satisfied (Int.add_le_add_right (rangeSum_mono grows _ _) _)

theorem widenSpan_grows (space : Int) (dir : Nat) (widths : List Int) (entry : SpanEntry) :
    Grows widths (widenSpan space dir widths entry) := by
  rw [widenSpan]
  split
  · exact Grows.refl widths
  · simp only
    split
    · rename_i small
      refine (addRange_grows _ _ _ ?_).trans (addRange_grows _ _ _ (by decide))
      exact Int.ediv_nonneg (by omega) (Int.natCast_nonneg _)
    · exact Grows.refl widths

/-- The quotient goes to each column, and the rest to the last ones, or to all of them for rows. -/
theorem widenSpan_satisfied {space : Int} (dir : Nat) {widths : List Int} {entry : SpanEntry} (spans : 0 < entry.span)
    (inside : entry.start + entry.span ≤ widths.length) (positive : 0 < entry.size) :
    Satisfied (widenSpan space dir widths entry) space entry := by
  rw [widenSpan, if_neg (by omega)]
  simp only
  split
  · rename_i small
    generalize missing : entry.size - ((entry.span : Int) - 1) * space - rangeSum widths entry.start entry.span = lack
      at small
    have divisor : (0 : Int) < entry.span := by omega
    have rest := Int.emod_nonneg lack (Int.ne_of_gt divisor)
    have restBound := Int.emod_lt_of_pos lack divisor
    have whole := Int.mul_ediv_add_emod lack entry.span
    generalize count : (if dir = 1 ∧ 0 < lack % entry.span then entry.span else (lack % entry.span).toNat) = r
    have enough : lack % entry.span ≤ r ∧ r ≤ entry.span := by
      rw [← count]
      split <;> omega
    have long : (addRange widths entry.start (entry.start + entry.span) (lack / entry.span)).length = widths.length :=
      List.length_mapIdx
    rw [Satisfied, rangeSum_addRange 1 (by omega) (Nat.le_refl _) (by rw [long]; exact inside),
      rangeSum_addRange _ (Nat.le_refl _) (Nat.le_refl _) inside,
      show entry.start + entry.span - entry.start = entry.span by omega,
      show entry.start + entry.span - (entry.start + entry.span - r) = r by omega, Int.mul_comm (lack / entry.span)]
    omega
  · rename_i enough
    rw [Satisfied]
    omega

theorem widenSpan_same {space : Int} (dir : Nat) {widths : List Int} {entry : SpanEntry}
    (satisfied : Satisfied widths space entry) : widenSpan space dir widths entry = widths := by
  rw [Satisfied] at satisfied
  rw [widenSpan]
  split
  · rfl
  · simp only
    rw [if_neg (by omega)]

def SpansWithin (table : SpanTable) (columns : Nat) : Prop :=
  ∀ entry ∈ table.entries, 0 < entry.span ∧ entry.start + entry.span ≤ columns

theorem checkCellWidth_spec {table : SpanTable} {base : Nat} (formed : table.WellFormed base) {tabwidth : List Int}
    (within : SpansWithin table tabwidth.length) (space : Int) (dir : Nat) :
    Grows tabwidth (checkCellWidth tabwidth table space dir) ∧
      ∀ entry ∈ table.entries, 0 < entry.size → Satisfied (checkCellWidth tabwidth table space dir) space entry := by
  have pass : ∀ (index : List Nat) (widths : List Int), Grows tabwidth widths →
      Grows widths (index.foldl (fun tabwidth j => match table.entries[j]? with
        | some entry => widenSpan space dir tabwidth entry
        | none => tabwidth) widths) ∧
      ∀ j ∈ index, ∀ entry, table.entries[j]? = some entry → 0 < entry.size →
        Satisfied (index.foldl (fun tabwidth j => match table.entries[j]? with
          | some entry => widenSpan space dir tabwidth entry
          | none => tabwidth) widths) space entry := by
    intro index
    induction index with
    | nil => exact fun widths _ => ⟨Grows.refl widths, fun j none => absurd none List.not_mem_nil⟩
    | cons first rest ih =>
      intro widths grown
      rw [List.foldl_cons]
      cases read : table.entries[first]? with
      | none =>
        obtain ⟨grows, satisfied⟩ := ih widths grown
        refine ⟨grows, fun j member entry found positive => ?_⟩
        rcases List.mem_cons.mp member with rfl | later
        · rw [read] at found
          exact absurd found (by simp)
        · exact satisfied j later entry found positive
      | some here =>
        obtain ⟨spans, inside⟩ := within here (List.mem_of_getElem? read)
        have step := widenSpan_grows space dir widths here
        obtain ⟨grows, satisfied⟩ := ih (widenSpan space dir widths here) (grown.trans step)
        refine ⟨step.trans grows, fun j member entry found positive => ?_⟩
        rcases List.mem_cons.mp member with rfl | later
        · rw [read, Option.some.injEq] at found
          subst found
          exact (widenSpan_satisfied dir spans (by rw [grown.1]; exact inside) positive).mono grows
        · exact satisfied j later entry found positive
  obtain ⟨grows, satisfied⟩ := pass table.index tabwidth (Grows.refl tabwidth)
  refine ⟨grows, fun entry member positive => ?_⟩
  obtain ⟨j, found⟩ := List.mem_iff_getElem?.mp member
  obtain ⟨inside, _⟩ := List.getElem?_eq_some_iff.mp found
  exact satisfied j (formed.perm.mem_iff.mpr (List.mem_range.mpr inside)) entry found positive

theorem checkCellWidth_same {table : SpanTable} {tabwidth : List Int} {space : Int} (dir : Nat)
    (satisfied : ∀ entry ∈ table.entries, Satisfied tabwidth space entry) :
    checkCellWidth tabwidth table space dir = tabwidth := by
  rw [checkCellWidth]
  refine List.foldlRecOn _ _ (motive := fun widths => widths = tabwidth) rfl ?_
  rintro widths rfl j _
  cases read : table.entries[j]? with
  | none => rfl
  | some entry => exact widenSpan_same dir (satisfied entry (List.mem_of_getElem? read))

/-- What a table has in its columns: the spans end with the columns, and no minimum is negative. -/
structure GridInvariant (t : Table) (cellspacing : Int) : Prop where
  formed : t.cell.WellFormed tableMaxCol
  maxcol : t.maxcol < tableMaxCol
  spans : SpansWithin t.cell (t.maxcol + 1).toNat
  minimum : ∀ i, 0 ≤ t.minimumWidth.getD i 0
  spacing : 0 ≤ cellspacing

/-! Tables that have been read have the invariant, if none of their cells is without rows. -/

/-- What marking the places of a cell keeps, and how far it reaches if it marks any -/
structure Marks (before after : Table) (columns : Nat) (any : Prop) : Prop where
  col : after.col = before.col
  minimum : after.minimumWidth = before.minimumWidth
  maxcol : before.maxcol ≤ after.maxcol
  reaches : any → ((before.col.toNat + columns : Nat) : Int) ≤ after.maxcol + 1

theorem markCells_marks (t : Table) (i : Nat) : ∀ n,
    Marks t ((List.range n).foldl (fun t j => t.markCell i j) t) n (0 < n) := by
  intro n
  induction n with
  | zero => exact ⟨rfl, rfl, Int.le_refl _, fun none => absurd none (Nat.lt_irrefl 0)⟩
  | succ n ih =>
    rw [List.range_succ, List.foldl_append, List.foldl_cons, List.foldl_nil]
    generalize (List.range n).foldl (fun t j => t.markCell i j) t = table at ih
    have marked : (table.markCell i n).col = table.col ∧ (table.markCell i n).minimumWidth = table.minimumWidth ∧
        (table.markCell i n).maxcol = max table.maxcol ((table.col.toNat + n : Nat) : Int) := by
      rw [Table.markCell]
      split
      · exact ⟨rfl, rfl, rfl⟩
      · exact ⟨rfl, rfl, rfl⟩
    obtain ⟨col, minimum, maxcol⟩ := marked
    rw [ih.col] at maxcol
    have grown := ih.maxcol
    exact ⟨col.trans ih.col, minimum.trans ih.minimum, by omega, fun _ => by omega⟩

theorem markRow_marks (t : Table) (colspan : Int) (i : Nat) :
    Marks t (t.markRow colspan i) colspan.toNat (0 < colspan.toNat) := by
  have marks := markCells_marks (t.checkRow (t.row.toNat + i)) i colspan.toNat
  exact ⟨marks.col, marks.minimum, marks.maxcol, marks.reaches⟩

theorem markSpan_marks (t : Table) (rowspan colspan : Int) :
    Marks t (t.markSpan rowspan colspan) colspan.toNat (0 < rowspan.toNat ∧ 0 < colspan.toNat) := by
  have rows : ∀ n, Marks t ((List.range n).foldl (fun t i => t.markRow colspan i) t) colspan.toNat
      (0 < n ∧ 0 < colspan.toNat) := by
    intro n
    induction n with
    | zero => exact ⟨rfl, rfl, Int.le_refl _, fun none => absurd none.1 (Nat.lt_irrefl 0)⟩
    | succ n ih =>
      rw [List.range_succ, List.foldl_append, List.foldl_cons, List.foldl_nil]
      generalize (List.range n).foldl (fun t i => t.markRow colspan i) t = table at ih
      have row := markRow_marks table colspan n
      refine ⟨row.col.trans ih.col, row.minimum.trans ih.minimum, Int.le_trans ih.maxcol row.maxcol, fun any => ?_⟩
      have reached := row.reaches any.2
      rwa [ih.col] at reached
  exact rows rowspan.toNat

def TableTag.HasRows : TableTag → Prop
  | .cell tag => 0 < Table.cellRowspan tag
  | _ => True

structure Fed (t : Table) : Prop where
  readable : Readable t
  spans : ∀ pair ∈ t.cell.pairs, 0 < pair.2 ∧ ((pair.1 + pair.2 : Nat) : Int) ≤ t.maxcol + 1
  minimum : ∀ i, 0 ≤ t.minimumWidth.getD i 0

theorem placeCell_keeps (t : Table) :
    t.placeCell.1.minimumWidth = t.minimumWidth ∧ t.maxcol ≤ t.placeCell.1.maxcol := by
  have opened : t.openRow.minimumWidth = t.minimumWidth ∧ t.openRow.maxcol = t.maxcol := by
    rw [Table.openRow]
    split_ifs <;> exact ⟨rfl, rfl⟩
  simp only [Table.placeCell]
  split
  · exact ⟨opened.1, Int.le_of_eq opened.2.symm⟩
  · refine ⟨opened.1, ?_⟩
    rw [← opened.2]
    exact Int.le_max_left _ _

theorem feedCell_keeps {t : Table} {tag : CellTag} (rows : 0 < Table.cellRowspan tag) :
    (t.feedCell tag).minimumWidth = t.minimumWidth ∧ t.maxcol ≤ (t.feedCell tag).maxcol ∧
      (t.placeCell.2 ∧ 1 < t.placeCell.1.cellColspan tag →
        ((t.placeCell.1.col.toNat + (t.placeCell.1.cellColspan tag).toNat : Nat) : Int) ≤
          (t.feedCell tag).maxcol + 1) := by
  obtain ⟨minimum, maxcol⟩ := placeCell_keeps t
  simp only [Table.feedCell]
  by_cases placed : t.placeCell.2 = true
  · simp only [placed, if_true, true_and]
    generalize t.placeCell.1 = table at minimum maxcol
    have room : (if tag.rowspan.isSome ∧ table.row + Table.cellRowspan tag ≥ table.tabattr.length then
          table.checkRow (table.row + Table.cellRowspan tag).toNat else table).col = table.col ∧
        (if tag.rowspan.isSome ∧ table.row + Table.cellRowspan tag ≥ table.tabattr.length then
          table.checkRow (table.row + Table.cellRowspan tag).toNat else table).minimumWidth = table.minimumWidth ∧
        (if tag.rowspan.isSome ∧ table.row + Table.cellRowspan tag ≥ table.tabattr.length then
          table.checkRow (table.row + Table.cellRowspan tag).toNat else table).maxcol = table.maxcol := by
      split
      · exact ⟨rfl, rfl, rfl⟩
      · exact ⟨rfl, rfl, rfl⟩
    generalize (if tag.rowspan.isSome ∧ table.row + Table.cellRowspan tag ≥ table.tabattr.length then
      table.checkRow (table.row + Table.cellRowspan tag).toNat else table) = grown at room
    obtain ⟨col, sameMinimum, sameMaxcol⟩ := room
    rw [Table.cellColspan_congr tag col]
    have registered : ((grown.setCellAttr tag).registerSpan (table.cellColspan tag)).col = grown.col ∧
        ((grown.setCellAttr tag).registerSpan (table.cellColspan tag)).minimumWidth = grown.minimumWidth ∧
        ((grown.setCellAttr tag).registerSpan (table.cellColspan tag)).maxcol = grown.maxcol := by
      rw [Table.registerSpan]
      split
      · exact ⟨rfl, rfl, rfl⟩
      · exact ⟨rfl, rfl, rfl⟩
    have marks := markSpan_marks ((grown.setCellAttr tag).registerSpan (table.cellColspan tag))
      (Table.cellRowspan tag) (table.cellColspan tag)
    refine ⟨?_, ?_, fun wide => ?_⟩
    · rw [marks.minimum, registered.2.1, sameMinimum, minimum]
    · have := marks.maxcol
      rw [registered.2.2, sameMaxcol] at this
      exact Int.le_trans maxcol this
    · have reached := marks.reaches ⟨by omega, by omega⟩
      rwa [registered.1, col] at reached
  · rw [if_neg placed]
    exact ⟨minimum, maxcol, fun both => absurd both.1 placed⟩

theorem rowcolLoop_keeps (fuel : Nat) (t : Table) :
    (Table.rowcolLoop fuel t).minimumWidth = t.minimumWidth ∧ (Table.rowcolLoop fuel t).maxcol = t.maxcol := by
  induction fuel generalizing t with
  | zero => exact ⟨rfl, rfl⟩
  | succ fuel ih =>
    rw [Table.rowcolLoop]
    split
    · exact ⟨rfl, rfl⟩
    · exact ih _

theorem checkRowcol_keeps (t : Table) :
    t.checkRowcol.minimumWidth = t.minimumWidth ∧ t.maxcol ≤ t.checkRowcol.maxcol := by
  have looped : ∀ start : Table, start.minimumWidth = t.minimumWidth → start.maxcol = t.maxcol →
      (Table.rowcolLoop (start.tabattr.length + 2) start).minimumWidth = t.minimumWidth ∧
        t.maxcol ≤ max (Table.rowcolLoop (start.tabattr.length + 2) start).maxcol
          (Table.rowcolLoop (start.tabattr.length + 2) start).col := by
    intro start minimum maxcol
    obtain ⟨same, kept⟩ := rowcolLoop_keeps (start.tabattr.length + 2) start
    rw [kept, maxcol]
    exact ⟨same.trans minimum, Int.le_max_left _ _⟩
  rw [Table.checkRowcol]
  refine looped _ ?_ ?_
  · split_ifs <;> rfl
  · split_ifs <;> rfl

theorem checkMinimum0_minimum (t : Table) (min : Int) (nonneg : ∀ i, 0 ≤ t.minimumWidth.getD i 0) :
    ∀ i, 0 ≤ (t.checkMinimum0 min).minimumWidth.getD i 0 := by
  rw [Table.checkMinimum0]
  by_cases outside : t.col < 0
  · rw [if_pos outside]
    exact nonneg
  rw [if_neg outside]
  by_cases negative : t.tabwidth.getD t.col.toNat 0 < 0
  · rw [if_pos negative]
    exact nonneg
  rw [if_neg negative]
  intro i
  refine Int.le_trans (nonneg i) ((mapIdx_grows _ fun i width => ?_).2 i)
  split
  · exact Int.le_max_left _ _
  · exact Int.le_refl _

theorem feedTableTag_maxcol {t : Table} {tag : TableTag} (rows : tag.HasRows) :
    t.maxcol ≤ (feedTableTag t tag).maxcol := by
  cases tag with
  | cell tag => exact (feedCell_keeps (t := t) rows).2.1
  | content => exact (checkRowcol_keeps t).2
  | minimum min => exact Int.le_of_eq (Table.checkMinimum0_cell (t := t) min).2.1.symm
  | tr align valign => exact Int.le_refl _
  | endTr => exact Int.le_refl _
  | endCell => exact Int.le_refl _

theorem spanFed_reaches {t : Table} {tag : TableTag} (rows : tag.HasRows) {pair : Nat × Nat}
    (fed : spanFed t tag = some pair) :
    0 < pair.2 ∧ ((pair.1 + pair.2 : Nat) : Int) ≤ (feedTableTag t tag).maxcol + 1 := by
  cases tag with
  | cell tag =>
    rw [spanFed] at fed
    split at fed
    · rename_i wide
      rw [← Option.some.inj fed]
      exact ⟨by have := wide.2; simp only; omega, (feedCell_keeps (t := t) rows).2.2 wide⟩
    · exact absurd fed (by simp)
  | content => exact absurd fed (by simp [spanFed])
  | minimum min => exact absurd fed (by simp [spanFed])
  | tr align valign => exact absurd fed (by simp [spanFed])
  | endTr => exact absurd fed (by simp [spanFed])
  | endCell => exact absurd fed (by simp [spanFed])

theorem feedTableTag_fed {t : Table} (fed : Fed t) {tag : TableTag} (rows : tag.HasRows) : Fed (feedTableTag t tag) := by
  obtain ⟨readable, pairs⟩ := feedTableTag_readable fed.readable tag
  refine ⟨readable, ?_, ?_⟩
  · have grows := feedTableTag_maxcol (t := t) rows
    have old : ∀ pair ∈ t.cell.pairs,
        0 < pair.2 ∧ ((pair.1 + pair.2 : Nat) : Int) ≤ (feedTableTag t tag).maxcol + 1 := by
      intro pair member
      obtain ⟨spans, ends⟩ := fed.spans pair member
      exact ⟨spans, by omega⟩
    rw [pairs]
    intro pair member
    cases registers : spanFed t tag with
    | none =>
      rw [registers] at member
      exact old pair member
    | some new =>
      rw [registers, Option.toList_some, List.foldl_cons, List.foldl_nil, SpanTable.addPair] at member
      split at member
      · exact old pair member
      · rcases List.mem_append.mp member with before | last
        · exact old pair before
        · rw [List.mem_singleton.mp last]
          exact spanFed_reaches rows registers
  · cases tag with
    | cell tag => exact (feedCell_keeps (t := t) rows).1 ▸ fed.minimum
    | content => exact (checkRowcol_keeps t).1 ▸ fed.minimum
    | minimum min => exact checkMinimum0_minimum t min fed.minimum
    | tr align valign => exact fed.minimum
    | endTr => exact fed.minimum
    | endCell => exact fed.minimum

/-- Every table that has been read from tags of cells with rows has the invariant of the grid. -/
theorem feedTable_grid {tags : List TableTag} (rows : ∀ tag ∈ tags, tag.HasRows) {cellspacing : Int}
    (spacing : 0 ≤ cellspacing) : GridInvariant (feedTable newTable tags) cellspacing := by
  have start : Fed newTable := by
    refine ⟨newTable_readable, fun _ none => absurd none List.not_mem_nil, fun i => ?_⟩
    rw [newTable, List.getD_eq_getElem?_getD, List.getElem?_replicate]
    split <;> exact Int.le_refl 0
  have fed : Fed (feedTable newTable tags) :=
    List.foldlRecOn _ _ (motive := Fed) start fun table kept tag member => feedTableTag_fed kept (rows tag member)
  refine ⟨fed.readable.formed, fed.readable.maxcol, ?_, fed.minimum, spacing⟩
  intro entry member
  obtain ⟨spans, ends⟩ := fed.spans _ (SpanTable.mem_pairs.mpr ⟨entry, member, rfl, rfl⟩)
  exact ⟨spans, by omega⟩

theorem rangeSum_nonneg {widths : List Int} {bcol n : Nat} (nonneg : ∀ i, i < bcol + n → 0 ≤ widths.getD i 0) :
    0 ≤ rangeSum widths bcol n := by
  induction n with
  | zero => exact Int.le_refl 0
  | succ n ih =>
    exact Int.add_nonneg (ih fun i below => nonneg i (by omega)) (nonneg (bcol + n) (by omega))

theorem Satisfied.of_nonpos {widths : List Int} {space : Int} {entry : SpanEntry} (size : entry.size ≤ 0)
    (spans : 0 < entry.span) (space_nonneg : 0 ≤ space)
    (nonneg : ∀ i, i < entry.start + entry.span → 0 ≤ widths.getD i 0) : Satisfied widths space entry := by
  have sum := rangeSum_nonneg nonneg
  have gaps : 0 ≤ ((entry.span : Int) - 1) * space := Int.mul_nonneg (by omega) space_nonneg
  rw [Satisfied]
  omega

/-- Each column and each spanning cell gets its minimum width; no column loses, and none gains without need. -/
theorem checkMinimumWidth_spec {t : Table} {cellspacing : Int} (grid : GridInvariant t cellspacing)
    {tabwidth : List Int} (size : tabwidth.length = tableMaxCol) :
    Grows tabwidth (checkMinimumWidth t cellspacing tabwidth) ∧
      (∀ i : Nat, (i : Int) ≤ t.maxcol →
        t.minimumWidth.getD i 0 ≤ (checkMinimumWidth t cellspacing tabwidth).getD i 0) ∧
      (∀ entry ∈ t.cell.entries, Satisfied (checkMinimumWidth t cellspacing tabwidth) cellspacing entry) ∧
      ((∀ i : Nat, (i : Int) ≤ t.maxcol → t.minimumWidth.getD i 0 ≤ tabwidth.getD i 0) →
        (∀ entry ∈ t.cell.entries, Satisfied tabwidth cellspacing entry) →
        checkMinimumWidth t cellspacing tabwidth = tabwidth) := by
  have bounded := grid.maxcol
  rw [checkMinimumWidth]
  generalize raised : (tabwidth.mapIdx fun i width =>
    if (i : Int) ≤ t.maxcol ∧ width < t.minimumWidth.getD i 0 then t.minimumWidth.getD i 0 else width) = widths
  have first : Grows tabwidth widths := by
    rw [← raised]
    refine mapIdx_grows tabwidth fun i width => ?_
    split
    · omega
    · exact Int.le_refl _
  have columns : ∀ i : Nat, (i : Int) ≤ t.maxcol → t.minimumWidth.getD i 0 ≤ widths.getD i 0 := by
    intro i inside
    rw [← raised, getD_mapIdx _ _ (by omega)]
    split
    · exact Int.le_refl _
    · omega
  have within : SpansWithin t.cell widths.length := by
    intro entry member
    obtain ⟨spans, ends⟩ := grid.spans entry member
    refine ⟨spans, ?_⟩
    rw [first.1, size]
    omega
  obtain ⟨grows, satisfied⟩ := checkCellWidth_spec grid.formed within cellspacing 0
  refine ⟨first.trans grows, fun i inside => Int.le_trans (columns i inside) (grows.2 i), ?_, ?_⟩
  · intro entry member
    by_cases positive : 0 < entry.size
    · exact satisfied entry member positive
    · obtain ⟨spans, ends⟩ := grid.spans entry member
      refine Satisfied.of_nonpos (by omega) spans grid.spacing fun i below => ?_
      exact Int.le_trans (Int.le_trans (grid.minimum i) (columns i (by omega))) (grows.2 i)
  · intro wide enough
    have same : widths = tabwidth := by
      apply List.ext_getElem first.1
      intro i inside inside'
      have unchanged := wide i
      rw [List.getD_eq_getElem?_getD, List.getD_eq_getElem?_getD, List.getElem?_eq_getElem inside',
        Option.getD_some] at unchanged
      simp only [← raised, List.getElem_mapIdx, List.getD_eq_getElem?_getD]
      rw [if_neg]
      rintro ⟨column, narrow⟩
      have := unchanged column
      omega
    rw [same]
    exact checkCellWidth_same 0 enough

/-! ### The heights of the rows -/

def StartsCell (t : Table) (place : Nat × Nat) : Prop := (t.attrAt place.1 place.2 &&& (httX ||| httY) != 0) = false

instance (t : Table) (place : Nat × Nat) : Decidable (StartsCell t place) :=
  inferInstanceAs (Decidable (_ = _))

def rowSpans (t : Table) : List (Nat × Nat) :=
  (cellPlaces t).filterMap fun place =>
    if StartsCell t place ∧ 1 < t.tableRowspan place.1 place.2 then
      some (place.1, t.tableRowspan place.1 place.2)
    else none

theorem mem_rowSpans {t : Table} {place : Nat × Nat} (member : place ∈ cellPlaces t) (starts : StartsCell t place)
    (spans : 1 < t.tableRowspan place.1 place.2) : (place.1, t.tableRowspan place.1 place.2) ∈ rowSpans t :=
  List.mem_filterMap.mpr ⟨place, member, if_pos ⟨starts, spans⟩⟩

theorem cellPlaces_row {t : Table} {place : Nat × Nat} (member : place ∈ cellPlaces t) :
    place.1 < (t.maxrow + 1).toNat := by
  obtain ⟨j, row, inner⟩ := List.mem_flatMap.mp member
  split at inner
  · exact absurd inner List.not_mem_nil
  · obtain ⟨i, _, rfl⟩ := List.mem_map.mp inner
    exact List.mem_range.mp row

theorem tableRowspan_le (t : Table) {row col : Nat} (inside : row < (t.maxrow + 1).toNat) :
    row + t.tableRowspan row col ≤ (t.maxrow + 1).toNat := by
  rw [Table.tableRowspan]
  split
  · omega
  · have := (List.takeWhile_sublist (fun i => t.tabattr[i]?.join.isSome && t.attrAt i col &&& httY != 0)
      (l := List.range' (row + 1) (t.maxrow - row).toNat)).length_le
    rw [List.length_range'] at this
    omega

theorem rowSpans_within {t : Table} {pair : Nat × Nat} (member : pair ∈ rowSpans t) :
    1 < pair.2 ∧ pair.1 + pair.2 ≤ (t.maxrow + 1).toNat := by
  obtain ⟨place, inside, taken⟩ := List.mem_filterMap.mp member
  split at taken
  · rename_i spans
    have below := cellPlaces_row inside
    rw [← Option.some.inj taken]
    exact ⟨spans.2, tableRowspan_le t below⟩
  · exact absurd taken (by simp)

theorem raise_mem {table : SpanTable} (c : Nat) (size : Int) {entry : SpanEntry} (member : entry ∈ table.entries) :
    ∃ raised ∈ (table.raise c size).entries, raised.start = entry.start ∧ raised.span = entry.span ∧
      entry.size ≤ raised.size := by
  obtain ⟨idx, found⟩ := List.mem_iff_getElem?.mp member
  by_cases here : c = idx
  · refine ⟨{ entry with size := max entry.size size }, ?_, rfl, rfl, Int.le_max_left _ _⟩
    apply List.mem_of_getElem? (i := idx)
    simp [SpanTable.raise, here, found]
  · refine ⟨entry, ?_, rfl, rfl, Int.le_refl _⟩
    apply List.mem_of_getElem? (i := idx)
    simp [SpanTable.raise, here, found]

theorem raise_at {table : SpanTable} {c : Nat} (size : Int) {entry : SpanEntry} (found : table.entries[c]? = some entry) :
    ∃ raised ∈ (table.raise c size).entries, raised.start = entry.start ∧ raised.span = entry.span ∧
      size ≤ raised.size := by
  refine ⟨{ entry with size := max entry.size size }, ?_, rfl, rfl, Int.le_max_right _ _⟩
  apply List.mem_of_getElem? (i := c)
  simp [SpanTable.raise, found]

variable {t : Table} {nitem : Nat → Nat → Nat} {tabheight : List Int}

structure HeightsOf (t : Table) (nitem : Nat → Nat → Nat) (tabheight : List Int) (done : List (Nat × Nat))
    (sizes : List Int × SpanTable) : Prop where
  grows : Grows tabheight sizes.1
  formed : sizes.2.WellFormed (t.maxrow + 1).toNat
  pairs : ∀ pair ∈ sizes.2.pairs, pair ∈ rowSpans t
  distinct : sizes.2.pairs.Nodup
  single : ∀ place ∈ done, StartsCell t place → t.tableRowspan place.1 place.2 ≤ 1 →
    (nitem place.1 place.2 : Int) ≤ sizes.1.getD place.1 0
  spanning : ∀ place ∈ done, StartsCell t place → 1 < t.tableRowspan place.1 place.2 →
    ∃ entry ∈ sizes.2.entries, entry.start = place.1 ∧ entry.span = t.tableRowspan place.1 place.2 ∧
      (nitem place.1 place.2 : Int) ≤ entry.size

theorem modify_grows (heights : List Int) (j : Nat) (size : Int) : Grows heights (heights.modify j (max size)) := by
  refine ⟨List.length_modify _ _ _, fun i => ?_⟩
  simp only [List.getD_eq_getElem?_getD, List.getElem?_modify]
  cases heights[i]? with
  | none => exact Int.le_refl _
  | some height =>
    by_cases here : j = i
    · simp only [here, if_true, Option.getD_some]
      exact Int.le_max_right _ _
    · simp [here]

theorem heightCell_step (few : (rowSpans t).dedup.length ≤ maxRowCell) (rows : (t.maxrow + 1).toNat ≤ tabheight.length)
    {done : List (Nat × Nat)} {sizes : List Int × SpanTable} (heights : HeightsOf t nitem tabheight done sizes)
    {place : Nat × Nat} (member : place ∈ cellPlaces t) :
    HeightsOf t nitem tabheight (done ++ [place]) (heightCell t nitem sizes place) := by
  have below := cellPlaces_row member
  obtain ⟨j, i⟩ := place
  simp only [heightCell]
  by_cases covered : (t.attrAt j i &&& (httX ||| httY) != 0) = true
  · rw [if_pos covered]
    have notStart : ¬ StartsCell t (j, i) := by
      rw [StartsCell, covered]
      decide
    refine ⟨heights.grows, heights.formed, heights.pairs, heights.distinct, ?_, ?_⟩
    · intro place inside starts
      rcases List.mem_append.mp inside with old | new
      · exact heights.single place old starts
      · exact absurd (List.mem_singleton.mp new ▸ starts) notStart
    · intro place inside starts
      rcases List.mem_append.mp inside with old | new
      · exact heights.spanning place old starts
      · exact absurd (List.mem_singleton.mp new ▸ starts) notStart
  rw [if_neg covered]
  have starts : StartsCell t (j, i) := (Bool.not_eq_true _).mp covered
  by_cases spans : 1 < t.tableRowspan j i
  · rw [if_pos spans]
    have listed := mem_rowSpans member starts spans
    obtain ⟨formed, pairs, result, entries, refused⟩ :=
      heights.formed.register below maxRowCell (t.tableRowspan j i)
    have count : sizes.2.pairs.length = sizes.2.entries.length := List.length_map _
    cases found : (sizes.2.register maxRowCell (t.maxrow + 1).toNat (t.tableRowspan j i) j).2 with
    | none =>
      -- there would be more spans than the limit
      obtain ⟨full, absent⟩ := refused found
      have more : ((j, t.tableRowspan j i) :: sizes.2.pairs).length ≤ (rowSpans t).dedup.length := by
        refine (List.subperm_of_subset (List.nodup_cons.mpr ⟨absent, heights.distinct⟩) ?_).length_le
        intro pair inside
        rw [List.mem_dedup]
        rcases List.mem_cons.mp inside with rfl | old
        · exact listed
        · exact heights.pairs pair old
      rw [List.length_cons] at more
      omega
    | some c =>
      obtain ⟨entry, here, same⟩ := result c found
      simp only
      generalize (sizes.2.register maxRowCell (t.maxrow + 1).toNat (t.tableRowspan j i) j).1 = table
        at formed pairs here entries
      have kept : ∀ old ∈ sizes.2.entries, old ∈ table.entries := by
        intro old inside
        rcases entries with same | longer
        · rw [same]
          exact inside
        · rw [longer]
          exact List.mem_append_left _ inside
      refine ⟨heights.grows, formed.raise c _, ?_, ?_, ?_, ?_⟩
      · intro pair inside
        rw [SpanTable.raise_pairs, pairs, SpanTable.addPair] at inside
        split at inside
        · exact heights.pairs pair inside
        · rcases List.mem_append.mp inside with old | new
          · exact heights.pairs pair old
          · rw [List.mem_singleton.mp new]
            exact listed
      · rw [SpanTable.raise_pairs, pairs, SpanTable.addPair]
        split
        · exact heights.distinct
        · rename_i absent
          refine List.Nodup.append heights.distinct (List.nodup_singleton _) ?_
          rw [List.disjoint_singleton]
          exact fun old => absent (Or.inl old)
      · intro place inside placeStarts narrow
        rcases List.mem_append.mp inside with old | new
        · exact heights.single place old placeStarts narrow
        · rw [List.mem_singleton.mp new] at narrow
          exact absurd spans (Nat.not_lt.mpr narrow)
      · intro place inside placeStarts wide
        rcases List.mem_append.mp inside with old | new
        · obtain ⟨before, there, start, span, enough⟩ := heights.spanning place old placeStarts wide
          obtain ⟨raised, now, start', span', grown⟩ := raise_mem c (nitem j i) (kept before there)
          exact ⟨raised, now, start'.trans start, span'.trans span, Int.le_trans enough grown⟩
        · rw [List.mem_singleton.mp new]
          obtain ⟨raised, now, start', span', grown⟩ := raise_at (nitem j i : Int) here
          exact ⟨raised, now, start'.trans same.1, span'.trans same.2, grown⟩
  · rw [if_neg spans]
    have row := modify_grows sizes.1 j (nitem j i)
    refine ⟨heights.grows.trans row, heights.formed, heights.pairs, heights.distinct, ?_, ?_⟩
    · intro place inside placeStarts narrow
      rcases List.mem_append.mp inside with old | new
      · exact Int.le_trans (heights.single place old placeStarts narrow) (row.2 place.1)
      · rw [List.mem_singleton.mp new]
        have bound : j < sizes.1.length := by
          rw [heights.grows.1]
          exact Nat.lt_of_lt_of_le below rows
        simp only [List.getD_eq_getElem?_getD, List.getElem?_modify, List.getElem?_eq_getElem bound, if_true]
        exact Int.le_max_left _ _
    · intro place inside placeStarts wide
      rcases List.mem_append.mp inside with old | new
      · exact heights.spanning place old placeStarts wide
      · rw [List.mem_singleton.mp new] at wide
        exact absurd wide spans

theorem heightCells_run (few : (rowSpans t).dedup.length ≤ maxRowCell)
    (rows : (t.maxrow + 1).toNat ≤ tabheight.length) :
    HeightsOf t nitem tabheight (cellPlaces t) ((cellPlaces t).foldl (heightCell t nitem) (tabheight, ⟨[], []⟩)) := by
  have run : ∀ (places done : List (Nat × Nat)) (sizes : List Int × SpanTable),
      HeightsOf t nitem tabheight done sizes → (∀ place ∈ places, place ∈ cellPlaces t) →
      HeightsOf t nitem tabheight (done ++ places) (places.foldl (heightCell t nitem) sizes) := by
    intro places
    induction places with
    | nil => intro done sizes heights _; rwa [List.append_nil]
    | cons place rest ih =>
      intro done sizes heights inside
      have next := ih (done ++ [place]) _ (heightCell_step few rows heights (inside place List.mem_cons_self))
        fun other member => inside other (List.mem_cons_of_mem _ member)
      rwa [List.append_assoc, List.singleton_append] at next
  have start : HeightsOf t nitem tabheight [] (tabheight, ⟨[], []⟩) :=
    ⟨Grows.refl _, SpanTable.empty_wellFormed _, fun _ none => absurd none List.not_mem_nil, List.nodup_nil,
      fun _ none => absurd none List.not_mem_nil, fun _ none => absurd none List.not_mem_nil⟩
  exact run (cellPlaces t) [] _ start fun _ member => member

def separatorLines (borderMode : BorderMode) : Int := if borderMode = .none then 0 else 1

/-- Each row is as high as the cells in it, and the rows of a spanning cell, with what separates them, as the cell. -/
theorem checkTableHeight_spec (borderMode : BorderMode) (few : (rowSpans t).dedup.length ≤ maxRowCell)
    (rows : (t.maxrow + 1).toNat ≤ tabheight.length) (nonneg : ∀ i, 0 ≤ tabheight.getD i 0) :
    ∀ place ∈ cellPlaces t, StartsCell t place →
      (t.tableRowspan place.1 place.2 ≤ 1 →
        (nitem place.1 place.2 : Int) ≤ (checkTableHeight t nitem borderMode tabheight).getD place.1 0) ∧
      (1 < t.tableRowspan place.1 place.2 →
        (nitem place.1 place.2 : Int) ≤
          rangeSum (checkTableHeight t nitem borderMode tabheight) place.1 (t.tableRowspan place.1 place.2) +
            ((t.tableRowspan place.1 place.2 : Int) - 1) * separatorLines borderMode) := by
  have heights := @heightCells_run t nitem tabheight few rows
  have unfolded : checkTableHeight t nitem borderMode tabheight =
      checkCellWidth ((cellPlaces t).foldl (heightCell t nitem) (tabheight, ⟨[], []⟩)).1
        ((cellPlaces t).foldl (heightCell t nitem) (tabheight, ⟨[], []⟩)).2 (separatorLines borderMode) 1 := by
    cases borderMode <;> rfl
  rw [unfolded]
  generalize (cellPlaces t).foldl (heightCell t nitem) (tabheight, ⟨[], []⟩) = sizes at heights
  have within : SpansWithin sizes.2 sizes.1.length := by
    intro entry member
    obtain ⟨wide, ends⟩ := rowSpans_within (heights.pairs _ (SpanTable.mem_pairs.mpr ⟨entry, member, rfl, rfl⟩))
    rw [heights.grows.1]
    exact ⟨Nat.lt_trans Nat.zero_lt_one wide, Nat.le_trans ends rows⟩
  obtain ⟨grows, satisfied⟩ := checkCellWidth_spec heights.formed within (separatorLines borderMode) 1
  intro place member starts
  refine ⟨fun narrow => Int.le_trans (heights.single place member starts narrow) (grows.2 place.1), fun wide => ?_⟩
  obtain ⟨entry, there, start, span, enough⟩ := heights.spanning place member starts wide
  have fits : Satisfied (checkCellWidth sizes.1 sizes.2 (separatorLines borderMode) 1) (separatorLines borderMode)
      entry := by
    by_cases positive : 0 < entry.size
    · exact satisfied entry there positive
    · have gap : 0 ≤ separatorLines borderMode := by
        rw [separatorLines]
        split <;> decide
      refine Satisfied.of_nonpos (by omega) (within entry there).1 gap fun i _ => ?_
      exact Int.le_trans (nonneg i) ((heights.grows.trans grows).2 i)
  rw [Satisfied, start, span] at fits
  exact Int.le_trans enough fits

/-- The sizes of a table satisfy its cells: the columns their minimum widths and those of the spanning cells, the rows
the lines of the cells. -/
theorem tableSizes_satisfy {t : Table} {cellspacing : Int} (grid : GridInvariant t cellspacing)
    {tabwidth : List Int} (columns : tabwidth.length = tableMaxCol) (nitem : Nat → Nat → Nat)
    (borderMode : BorderMode) (few : (rowSpans t).dedup.length ≤ maxRowCell) {tabheight : List Int}
    (rows : (t.maxrow + 1).toNat ≤ tabheight.length) (nonneg : ∀ i, 0 ≤ tabheight.getD i 0) :
    (Grows tabwidth (checkMinimumWidth t cellspacing tabwidth) ∧
      (∀ i : Nat, (i : Int) ≤ t.maxcol →
        t.minimumWidth.getD i 0 ≤ (checkMinimumWidth t cellspacing tabwidth).getD i 0) ∧
      (∀ entry ∈ t.cell.entries, Satisfied (checkMinimumWidth t cellspacing tabwidth) cellspacing entry) ∧
      ((∀ i : Nat, (i : Int) ≤ t.maxcol → t.minimumWidth.getD i 0 ≤ tabwidth.getD i 0) →
        (∀ entry ∈ t.cell.entries, Satisfied tabwidth cellspacing entry) →
        checkMinimumWidth t cellspacing tabwidth = tabwidth)) ∧
    ∀ place ∈ cellPlaces t, StartsCell t place →
      (t.tableRowspan place.1 place.2 ≤ 1 →
        (nitem place.1 place.2 : Int) ≤ (checkTableHeight t nitem borderMode tabheight).getD place.1 0) ∧
      (1 < t.tableRowspan place.1 place.2 →
        (nitem place.1 place.2 : Int) ≤
          rangeSum (checkTableHeight t nitem borderMode tabheight) place.1 (t.tableRowspan place.1 place.2) +
            ((t.tableRowspan place.1 place.2 : Int) - 1) * separatorLines borderMode) :=
  ⟨checkMinimumWidth_spec grid columns, checkTableHeight_spec borderMode few rows nonneg⟩

def smallTable : Table := feedTable newTable [.tr none none, plainCell 1 2, plainCell 2 1]

theorem smallTable_grid : GridInvariant smallTable 1 := by
  refine feedTable_grid (fun tag member => ?_) (by decide)
  simp only [List.mem_cons, List.not_mem_nil, or_false] at member
  rcases member with rfl | rfl | rfl
  · trivial
  · exact (by decide : (0 : Int) < 1)
  · exact (by decide : (0 : Int) < 2)

theorem tableSizes_satisfy_small :
    Grows (List.replicate 50 0) (checkMinimumWidth smallTable 1 (List.replicate 50 0)) ∧
      (3 : Int) ≤ rangeSum (checkTableHeight smallTable (fun _ _ => 3) .thin (List.replicate 50 0)) 0 2 + 1 := by
  obtain ⟨⟨grows, -⟩, heights⟩ := @tableSizes_satisfy smallTable 1 smallTable_grid (List.replicate 50 0) rfl (fun _ _ => 3)
    .thin (by decide +kernel) (List.replicate 50 0) (by decide +kernel) fun i => by
      rw [List.getD_eq_getElem?_getD, List.getElem?_replicate]
      split <;> exact Int.le_refl 0
  have spans : smallTable.tableRowspan 0 2 = 2 := by decide +kernel
  have high := (heights (0, 2) (by decide +kernel) (by decide +kernel)).2 (by decide +kernel)
  simp only [spans] at high
  exact ⟨grows, high⟩

end KcnTools.W3m
