import KcnTools.Lib.Modify
import Mathlib

/-!
Spare width of HTML tables: `distribute_widths` of `document/html/tables.c` stretches the columns by
one method after the other until the table has its width.
-/

namespace KcnTools.Html

def WIDTH_AUTO : Int := -1

def WIDTH_RELATIVE : Int := -2

def INT_MAX : Int := 2147483647

structure StretchColumn where
  colsX : Int
  minColsWidth : Int
  maxColsWidth : Int
  colsWidth : Int

structure Share where
  width : Int
  maxWidth : Int

def intBounds (what lower upper : Int) : Int :=
  if what < lower then lower else if upper < what then upper else what

def roomShare (width maxWidth : Int) : Share := ⟨if maxWidth ≤ 0 then 0 else width, maxWidth⟩

def untouched : Share := ⟨0, 0⟩

def largeShare (maxColsWidth : Int) (column : StretchColumn) : Share :=
  if column.maxColsWidth ≤ column.colsWidth then untouched
  else
    { width := if maxColsWidth ≠ 0 then 5 + (column.maxColsWidth * 10).tdiv maxColsWidth else 1
      maxWidth := column.maxColsWidth - column.colsWidth }

/-- What one method gives a column; `none` is an invalid method. -/
def stretchShare (maxColsWidth : Int) (column : StretchColumn) : Nat → Option Share
  | 0 =>
      if column.colsX ≤ column.colsWidth then some untouched
      else some (roomShare 1 (min column.colsX column.maxColsWidth - column.colsWidth))
  | 1 =>
      if WIDTH_RELATIVE < column.colsX then some untouched
      else some (roomShare (WIDTH_RELATIVE - column.colsX) (column.maxColsWidth - column.colsWidth))
  | 2 => some (if column.colsX ≠ WIDTH_AUTO then untouched else largeShare maxColsWidth column)
  | 3 => some (largeShare maxColsWidth column)
  | 4 =>
      if column.colsX < 0 then some untouched
      else some (roomShare 1 (column.colsX - column.colsWidth))
  | 5 =>
      if 0 ≤ column.colsX then some untouched
      else some ⟨if column.colsX ≤ WIDTH_RELATIVE then WIDTH_RELATIVE - column.colsX else 1, INT_MAX⟩
  | 6 => some ⟨1, INT_MAX⟩
  | _ => none

def totalWidth (shares : List Share) : Int := (shares.map (·.width)).sum

def applyStretchMethod (maxColsWidth : Int) (method : Nat) (columns : List StretchColumn) :
    Option (List Share × Int) :=
  (columns.mapM fun column => stretchShare maxColsWidth column method).map fun shares =>
    (shares, totalWidth shares)

/-- The column with the largest share and that share; `none` divides by zero. -/
def stretchColumn (totalSpareWidth total : Int) :
    Nat → List Share → Int × Option Nat → Option (Int × Option Nat)
  | _, [], best => some best
  | col, share :: shares, best =>
      if share.width = 0 then stretchColumn totalSpareWidth total (col + 1) shares best
      else if total = 0 then none
      else
        let colSpareWidth := intBounds ((totalSpareWidth * share.width).tdiv total) 1 share.maxWidth
        stretchColumn totalSpareWidth total (col + 1) shares
          (if best.1 < colSpareWidth then (colSpareWidth, some col) else best)

def StretchColumn.widen (width : Int) (column : StretchColumn) : StretchColumn :=
  { column with colsWidth := column.colsWidth + width }

def Share.visited (share : Share) : Share := { share with width := 0 }

def stretchLoop (totalSpareWidth total : Int) :
    Nat → Int → List Share → List StretchColumn → Option (Int × List StretchColumn)
  | 0, _, _, _ => none
  | fuel + 1, spareWidth, shares, columns =>
      if spareWidth = 0 then some (spareWidth, columns)
      else
        match stretchColumn totalSpareWidth total 0 shares (0, none) with
        | none => none
        | some (_, none) => some (spareWidth, columns)
        | some (stretchWidth, some col) =>
            let stretchWidth := if spareWidth < stretchWidth then spareWidth else stretchWidth
            if stretchWidth < 0 then none
            else
              stretchLoop totalSpareWidth total fuel (spareWidth - stretchWidth)
                (shares.modify col Share.visited) (columns.modify col (StretchColumn.widen stretchWidth))

def stretchColumns (shares : List Share) (spareWidth total : Int) (columns : List StretchColumn) :
    Option (Int × List StretchColumn) :=
  (stretchLoop spareWidth total (spareWidth.toNat + 1) spareWidth shares columns).map fun result =>
    (spareWidth - result.1, result.2)

/-- The loop of `distribute_widths`; `none` is a failed assertion, a division by zero or too little
fuel. -/
def distributeLoop (maxColsWidth : Int) : Nat → Nat → Int → List StretchColumn → Option (List StretchColumn)
  | 0, _, _, _ => none
  | fuel + 1, method, spareWidth, columns =>
      if spareWidth = 0 then some columns
      else
        match applyStretchMethod maxColsWidth method columns with
        | none => none
        | some (shares, total) =>
            if total = -1 then none
            else if total = 0 then distributeLoop maxColsWidth fuel (method + 1) spareWidth columns
            else
              match stretchColumns shares spareWidth total columns with
              | none => none
              | some (stretched, columns) =>
                  if stretched = 0 then distributeLoop maxColsWidth fuel (method + 1) spareWidth columns
                  else distributeLoop maxColsWidth fuel method (spareWidth - stretched) columns

def largestMax (columns : List StretchColumn) : Int :=
  columns.foldl (fun most column => max most column.maxColsWidth) 0

def StretchColumn.start (column : StretchColumn) : StretchColumn :=
  { column with colsWidth := column.minColsWidth }

def distributeWidths (columns : List StretchColumn) (minWidth width : Int) : Option (List StretchColumn) :=
  if columns = [] then some columns
  else if width - minWidth < 0 then none
  else
    distributeLoop (largestMax columns) ((width - minWidth).toNat + 7) 0 (width - minWidth)
      (columns.map StretchColumn.start)

/-! Shares have room. -/

structure ShareOk (share : Share) : Prop where
  nonneg : 0 ≤ share.width
  room : 0 < share.width → 0 < share.maxWidth

theorem roomShare_ok {width : Int} (nonneg : 0 ≤ width) (maxWidth : Int) : ShareOk (roomShare width maxWidth) := by
  rw [roomShare]
  constructor
  · dsimp only
    split <;> omega
  · dsimp only
    split <;> omega

theorem untouched_ok : ShareOk untouched := ⟨Int.le_refl 0, fun none => absurd none (Int.lt_irrefl 0)⟩

theorem largeShare_ok {maxColsWidth : Int} (nonneg : 0 ≤ maxColsWidth) {column : StretchColumn}
    (bound : 0 ≤ column.maxColsWidth) : ShareOk (largeShare maxColsWidth column) := by
  rw [largeShare]
  split
  next => exact untouched_ok
  next room =>
    have part := Int.tdiv_nonneg (show 0 ≤ column.maxColsWidth * 10 by omega) nonneg
    constructor
    · dsimp only
      split <;> omega
    · dsimp only
      omega

/-- The methods 0 to 6 are there, and the last one has a share for every column. -/
theorem stretchShare_spec {maxColsWidth : Int} (nonneg : 0 ≤ maxColsWidth) {column : StretchColumn}
    (bound : 0 ≤ column.maxColsWidth) {method : Nat} (valid : method ≤ 6) :
    ∃ share, stretchShare maxColsWidth column method = some share ∧ ShareOk share ∧
      (method = 6 → 0 < share.width) := by
  match method with
  | 0 =>
      rw [stretchShare]
      split
      · exact ⟨_, rfl, untouched_ok, nofun⟩
      · exact ⟨_, rfl, roomShare_ok (by omega) _, nofun⟩
  | 1 =>
      rw [stretchShare]
      split
      · exact ⟨_, rfl, untouched_ok, nofun⟩
      next relative => exact ⟨_, rfl, roomShare_ok (by omega) _, nofun⟩
  | 2 =>
      refine ⟨_, rfl, ?_, nofun⟩
      split
      · exact untouched_ok
      · exact largeShare_ok nonneg bound
  | 3 => exact ⟨_, rfl, largeShare_ok nonneg bound, nofun⟩
  | 4 =>
      rw [stretchShare]
      split
      · exact ⟨_, rfl, untouched_ok, nofun⟩
      · exact ⟨_, rfl, roomShare_ok (by omega) _, nofun⟩
  | 5 =>
      rw [stretchShare]
      split
      · exact ⟨_, rfl, untouched_ok, nofun⟩
      · refine ⟨_, rfl, ⟨?_, fun _ => (by decide : 0 < INT_MAX)⟩, nofun⟩
        dsimp only
        split <;> omega
  | 6 => exact ⟨_, rfl, ⟨by decide, by decide⟩, by decide⟩

theorem applyStretchMethod_spec {maxColsWidth : Int} (nonneg : 0 ≤ maxColsWidth) {method : Nat}
    (valid : method ≤ 6) {columns : List StretchColumn} (bounds : ∀ column ∈ columns, 0 ≤ column.maxColsWidth) :
    ∃ shares, applyStretchMethod maxColsWidth method columns = some (shares, totalWidth shares) ∧
      shares.length = columns.length ∧ (∀ share ∈ shares, ShareOk share) ∧
      (method = 6 → ∀ share ∈ shares, 0 < share.width) := by
  have each : ∃ shares, (columns.mapM fun column => stretchShare maxColsWidth column method) = some shares ∧
      shares.length = columns.length ∧ (∀ share ∈ shares, ShareOk share) ∧
      (method = 6 → ∀ share ∈ shares, 0 < share.width) := by
    induction columns with
    | nil => exact ⟨[], rfl, rfl, nofun, nofun⟩
    | cons column columns ih =>
        obtain ⟨share, found, ok, last⟩ := stretchShare_spec nonneg (bounds column List.mem_cons_self) valid
        obtain ⟨shares, rest, length, oks, lasts⟩ :=
          ih fun other member => bounds other (List.mem_cons_of_mem _ member)
        refine ⟨share :: shares, ?_, congrArg (· + 1) length, ?_, ?_⟩
        · rw [List.mapM_cons, found, rest]
          rfl
        · exact List.forall_mem_cons.mpr ⟨ok, oks⟩
        · exact fun same => List.forall_mem_cons.mpr ⟨last same, lasts same⟩
  obtain ⟨shares, found, rest⟩ := each
  refine ⟨shares, ?_, rest⟩
  rw [applyStretchMethod, found]
  rfl

theorem totalWidth_nonneg {shares : List Share} (nonneg : ∀ share ∈ shares, 0 ≤ share.width) :
    0 ≤ totalWidth shares := by
  induction shares with
  | nil => exact Int.le_refl 0
  | cons share shares ih =>
      have first := nonneg share List.mem_cons_self
      have rest := ih fun other member => nonneg other (List.mem_cons_of_mem _ member)
      rw [totalWidth] at rest ⊢
      rw [List.map_cons, List.sum_cons]
      omega

theorem totalWidth_eq_zero {shares : List Share} (empty : ∀ share ∈ shares, share.width = 0) :
    totalWidth shares = 0 := by
  apply List.sum_eq_zero
  intro width member
  obtain ⟨share, found, same⟩ := List.mem_map.mp member
  exact same.symm.trans (empty share found)

theorem totalWidth_pos {shares : List Share} (nonempty : shares ≠ []) (wide : ∀ share ∈ shares, 0 < share.width) :
    0 < totalWidth shares := by
  cases shares with
  | nil => exact absurd rfl nonempty
  | cons share shares =>
      have first := wide share List.mem_cons_self
      have rest := totalWidth_nonneg fun other member =>
        Int.le_of_lt (wide other (List.mem_cons_of_mem share member))
      rw [totalWidth] at rest ⊢
      rw [List.map_cons, List.sum_cons]
      omega

/-! One column after the other. -/

/-- The best column so far is one of the first `count`, with a share of at least one. -/
def Best (count : Nat) (best : Int × Option Nat) : Prop :=
  match best.2 with
  | none => best.1 = 0
  | some col => col < count ∧ 0 < best.1

theorem Best.mono {count more : Nat} {best : Int × Option Nat} (good : Best count best) (less : count ≤ more) :
    Best more best := by
  obtain ⟨width, col⟩ := best
  cases col with
  | none => exact good
  | some col => exact ⟨Nat.lt_of_lt_of_le good.1 less, good.2⟩

theorem stretchColumn_spec {totalSpareWidth total : Int} (divisor : total ≠ 0) {shares : List Share}
    (oks : ∀ share ∈ shares, ShareOk share) {col : Nat} {best : Int × Option Nat} (good : Best col best) :
    ∃ found, stretchColumn totalSpareWidth total col shares best = some found ∧
      Best (col + shares.length) found ∧
      (found.2 = none → best.2 = none ∧ ∀ share ∈ shares, share.width = 0) := by
  induction shares generalizing col best with
  | nil => exact ⟨best, rfl, good, fun nothing => ⟨nothing, nofun⟩⟩
  | cons share shares ih =>
      have ok := oks share List.mem_cons_self
      have rest := fun other member => oks other (List.mem_cons_of_mem share member)
      rw [stretchColumn, List.length_cons, Nat.add_comm shares.length, ← Nat.add_assoc]
      split
      next empty =>
        obtain ⟨found, ran, good', nothing⟩ := ih rest (good.mono (Nat.le_succ col))
        refine ⟨found, ran, good', fun missing => ?_⟩
        obtain ⟨before, later⟩ := nothing missing
        exact ⟨before, List.forall_mem_cons.mpr ⟨empty, later⟩⟩
      next weight =>
        have positive := ok.nonneg
        have room := ok.room (by omega)
        have share₁ : 0 < intBounds ((totalSpareWidth * share.width).tdiv total) 1 share.maxWidth := by
          rw [intBounds]
          split
          · decide
          · split <;> omega
        dsimp only
        split
        next =>
          obtain ⟨found, ran, good', nothing⟩ := ih rest (show Best (col + 1) (_, some col) from
            ⟨Nat.lt_succ_self col, share₁⟩)
          exact ⟨found, ran, good', fun missing => absurd (nothing missing).1 nofun⟩
        next large =>
          obtain ⟨found, ran, good', nothing⟩ := ih rest (good.mono (Nat.le_succ col))
          refine ⟨found, ran, good', fun missing => ?_⟩
          have before := (nothing missing).1
          rw [Best, before] at good
          omega

structure Kept (before after : StretchColumn) : Prop where
  colsX : after.colsX = before.colsX
  minColsWidth : after.minColsWidth = before.minColsWidth
  maxColsWidth : after.maxColsWidth = before.maxColsWidth
  colsWidth : before.colsWidth ≤ after.colsWidth

theorem Kept.refl (column : StretchColumn) : Kept column column := ⟨rfl, rfl, rfl, Int.le_refl _⟩

theorem Kept.trans {first second third : StretchColumn} (earlier : Kept first second) (later : Kept second third) :
    Kept first third :=
  ⟨later.colsX.trans earlier.colsX, later.minColsWidth.trans earlier.minColsWidth,
    later.maxColsWidth.trans earlier.maxColsWidth, Int.le_trans earlier.colsWidth later.colsWidth⟩

def sumWidths (columns : List StretchColumn) : Int := (columns.map (·.colsWidth)).sum

structure Stretched (before : List StretchColumn) (width : Int) (after : List StretchColumn) : Prop where
  kept : List.Forall₂ Kept before after
  sum : sumWidths after = sumWidths before + width

theorem Stretched.refl (columns : List StretchColumn) : Stretched columns 0 columns :=
  ⟨Modify.forall₂_self Kept.refl columns, (Int.add_zero _).symm⟩

theorem Stretched.trans {first second third : List StretchColumn} {width more : Int}
    (earlier : Stretched first width second) (later : Stretched second more third) :
    Stretched first (width + more) third where
  kept := Modify.forall₂_trans (R := Kept) Kept.trans earlier.kept later.kept
  sum := by
    rw [later.sum, earlier.sum, Int.add_assoc]

theorem stretched_modify {columns : List StretchColumn} {col : Nat} (inside : col < columns.length) {width : Int}
    (nonneg : 0 ≤ width) : Stretched columns width (columns.modify col (StretchColumn.widen width)) where
  kept := Modify.forall₂_modify_self Kept.refl columns col fun column _ =>
    ⟨rfl, rfl, rfl, show column.colsWidth ≤ column.colsWidth + width by omega⟩
  sum := by
    induction columns generalizing col with
    | nil => cases inside
    | cons column columns ih =>
        cases col with
        | zero =>
            rw [List.modify_zero_cons, sumWidths, sumWidths, List.map_cons, List.map_cons, List.sum_cons,
              List.sum_cons, StretchColumn.widen]
            dsimp only
            omega
        | succ col =>
            have rest := ih (Nat.lt_of_succ_lt_succ inside)
            rw [sumWidths, sumWidths] at rest
            rw [List.modify_succ_cons, sumWidths, sumWidths, List.map_cons, List.map_cons, List.sum_cons,
              List.sum_cons, rest]
            omega

theorem visited_ok {share : Share} : ShareOk share.visited := ⟨Int.le_refl 0, fun weight => absurd weight (Int.lt_irrefl 0)⟩

/-! The loops. -/

theorem stretchLoop_spec {totalSpareWidth total : Int} (divisor : total ≠ 0) {fuel : Nat} {spareWidth : Int}
    (nonneg : 0 ≤ spareWidth) (enough : spareWidth < fuel) {shares : List Share}
    (oks : ∀ share ∈ shares, ShareOk share) {columns : List StretchColumn}
    (length : shares.length = columns.length) :
    ∃ left after, stretchLoop totalSpareWidth total fuel spareWidth shares columns = some (left, after) ∧
      0 ≤ left ∧ left ≤ spareWidth ∧ Stretched columns (spareWidth - left) after ∧
      (left = spareWidth → spareWidth = 0 ∨ ∀ share ∈ shares, share.width = 0) := by
  induction fuel generalizing spareWidth shares columns with
  | zero => omega
  | succ fuel ih =>
      rw [stretchLoop]
      split
      next done =>
        refine ⟨spareWidth, columns, rfl, nonneg, Int.le_refl _, ?_, fun _ => .inl done⟩
        rw [Int.sub_self]
        exact Stretched.refl columns
      next spare =>
        obtain ⟨⟨width, found⟩, ran, good, nothing⟩ :=
          @stretchColumn_spec totalSpareWidth total divisor shares oks 0 (0, none) rfl
        rw [ran]
        cases found with
        | none =>
            refine ⟨spareWidth, columns, rfl, nonneg, Int.le_refl _, ?_, fun _ => .inr (nothing rfl).2⟩
            rw [Int.sub_self]
            exact Stretched.refl columns
        | some col =>
            obtain ⟨inside, positive⟩ := good
            dsimp only at positive ⊢
            rw [Nat.zero_add, length] at inside
            -- At least one is given out, so the spare width gets smaller.
            generalize given : (if spareWidth < width then spareWidth else width) = stretchWidth
            have bounds : 0 < stretchWidth ∧ stretchWidth ≤ spareWidth := by
              rw [← given]
              split <;> omega
            rw [if_neg (by omega)]
            obtain ⟨left, after, rest, low, high, stretched, -⟩ := @ih (spareWidth - stretchWidth)
              (by omega) (by omega) (shares.modify col Share.visited) (by
                intro share member
                rcases Modify.mem_modify member with kept | ⟨_, -, rfl⟩
                · exact oks share kept
                · exact visited_ok) (columns.modify col (StretchColumn.widen stretchWidth)) (by
                rw [List.length_modify, List.length_modify, length])
            have both := (stretched_modify inside (Int.le_of_lt bounds.1)).trans stretched
            rw [show stretchWidth + (spareWidth - stretchWidth - left) = spareWidth - left by omega] at both
            exact ⟨left, after, rest, low, by omega, both, by omega⟩

theorem stretchColumns_spec {shares : List Share} (oks : ∀ share ∈ shares, ShareOk share)
    {columns : List StretchColumn} (length : shares.length = columns.length) {spareWidth : Int}
    (spare : 0 < spareWidth) (some_share : totalWidth shares ≠ 0) :
    ∃ stretched after, stretchColumns shares spareWidth (totalWidth shares) columns = some (stretched, after) ∧
      0 < stretched ∧ stretched ≤ spareWidth ∧ Stretched columns stretched after := by
  obtain ⟨left, after, ran, low, high, stretched, progress⟩ := @stretchLoop_spec spareWidth (totalWidth shares)
    some_share (spareWidth.toNat + 1) spareWidth (Int.le_of_lt spare) (by omega) shares oks columns length
  refine ⟨spareWidth - left, after, ?_, ?_, by omega, stretched⟩
  · rw [stretchColumns, ran]
    rfl
  · have moved : left ≠ spareWidth := by
      intro same
      rcases progress same with none | empty
      · omega
      · exact some_share (totalWidth_eq_zero empty)
    omega

/-- Either the method or the spare width changes, and the last method always has a share. -/
theorem distributeLoop_spec {maxColsWidth : Int} (largest : 0 ≤ maxColsWidth) {fuel method : Nat} {spareWidth : Int}
    (nonneg : 0 ≤ spareWidth) (valid : method ≤ 6) (enough : spareWidth + 7 ≤ (fuel + method : Nat))
    {columns : List StretchColumn} (nonempty : columns ≠ [])
    (bounds : ∀ column ∈ columns, 0 ≤ column.maxColsWidth) :
    ∃ after, distributeLoop maxColsWidth fuel method spareWidth columns = some after ∧
      Stretched columns spareWidth after := by
  induction fuel generalizing method spareWidth columns with
  | zero => omega
  | succ fuel ih =>
      rw [distributeLoop]
      split
      next done =>
        subst done
        exact ⟨columns, rfl, Stretched.refl columns⟩
      next spare =>
        obtain ⟨shares, applied, length, oks, last⟩ := applyStretchMethod_spec largest valid bounds
        have total := totalWidth_nonneg fun share member => (oks share member).nonneg
        rw [applied]
        dsimp only
        rw [if_neg (by omega)]
        split
        next empty =>
          have early : method ≠ 6 := by
            intro same
            have filled : shares ≠ [] := by
              rintro rfl
              exact nonempty (List.eq_nil_of_length_eq_zero length.symm)
            have positive := totalWidth_pos filled (last same)
            omega
          exact ih nonneg (by omega) (by omega) nonempty bounds
        next some_share =>
          obtain ⟨stretched, after, ran, low, high, kept⟩ :=
            stretchColumns_spec oks length (by omega : 0 < spareWidth) some_share
          rw [ran]
          dsimp only
          rw [if_neg (by omega)]
          obtain ⟨final, rest, stretched'⟩ := @ih method (spareWidth - stretched) (by omega) valid (by omega) after
            (by
              rintro rfl
              cases kept.kept
              exact nonempty rfl)
            (by
              intro column member
              obtain ⟨before, there, same⟩ := Modify.forall₂_mem_right kept.kept member
              rw [same.maxColsWidth]
              exact bounds before there)
          have both := kept.trans stretched'
          rw [show stretched + (spareWidth - stretched) = spareWidth by omega] at both
          exact ⟨final, rest, both⟩

theorem largestMax_nonneg (columns : List StretchColumn) : 0 ≤ largestMax columns := by
  have from_zero : ∀ most : Int, 0 ≤ most →
      0 ≤ columns.foldl (fun most column => max most column.maxColsWidth) most := by
    induction columns with
    | nil => exact fun most nonneg => nonneg
    | cons column columns ih => exact fun most nonneg => ih _ (Int.le_trans nonneg (Int.le_max_left _ _))
  exact from_zero 0 (Int.le_refl 0)

/-- The whole width is given out and no column is below its minimum. -/
theorem distributeWidths_spec (columns : List StretchColumn) (minWidth width : Int) (nonempty : columns ≠ [])
    (bounds : ∀ column ∈ columns, 0 ≤ column.minColsWidth ∧ column.minColsWidth ≤ column.maxColsWidth)
    (wide : minWidth ≤ width) :
    ∃ after, distributeWidths columns minWidth width = some after ∧
      after.map (·.minColsWidth) = columns.map (·.minColsWidth) ∧
      (after.map (·.colsWidth)).sum = (columns.map (·.minColsWidth)).sum + (width - minWidth) ∧
      ∀ column ∈ after, column.minColsWidth ≤ column.colsWidth := by
  obtain ⟨after, ran, stretched⟩ := @distributeLoop_spec (largestMax columns) (largestMax_nonneg columns)
    ((width - minWidth).toNat + 7) 0 (width - minWidth) (by omega) (by omega) (by omega)
    (columns.map StretchColumn.start) (by simpa using nonempty) (by
      intro column member
      obtain ⟨before, there, rfl⟩ := List.mem_map.mp member
      exact Int.le_trans (bounds before there).1 (bounds before there).2)
  refine ⟨after, ?_, ?_, ?_, ?_⟩
  · rw [distributeWidths, if_neg nonempty, if_neg (by omega)]
    exact ran
  · rw [Modify.forall₂_map_eq (fun _ _ kept => kept.minColsWidth) stretched.kept, List.map_map]
    rfl
  · have sum := stretched.sum
    rw [sumWidths, sumWidths, List.map_map] at sum
    exact sum
  · intro column member
    obtain ⟨before, there, kept⟩ := Modify.forall₂_mem_right stretched.kept member
    obtain ⟨first, -, rfl⟩ := List.mem_map.mp there
    rw [kept.minColsWidth]
    exact kept.colsWidth

/-- One column of each kind of request. -/
theorem distributeWidths_three :
    ∃ after, distributeWidths [⟨10, 2, 4, 0⟩, ⟨WIDTH_AUTO, 3, 30, 0⟩, ⟨WIDTH_RELATIVE - 3, 1, 5, 0⟩] 6 60 = some after ∧
      after.map (·.minColsWidth) = [2, 3, 1] ∧ (after.map (·.colsWidth)).sum = 60 ∧
      ∀ column ∈ after, column.minColsWidth ≤ column.colsWidth :=
  distributeWidths_spec _ 6 60 (by decide) (by decide) (by decide)

end KcnTools.Html
