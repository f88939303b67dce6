import KcnTools.Html.TableWidths
import KcnTools.Lib.Modify
import Mathlib

/-!
What `get_column_widths` guarantees: widths only grow, so what a cell has been given stays, and the
limits of one array are raised before the other can pass them.
-/

namespace KcnTools.Html

/-! Distribution of values. -/

abbrev Grows : List Int → List Int → Prop := List.Forall₂ (· ≤ ·)

theorem Grows.refl (values : List Int) : Grows values values := Modify.forall₂_self Int.le_refl values

theorem Grows.trans {first second third : List Int} (step : Grows first second) (next : Grows second third) :
    Grows first third :=
  Modify.forall₂_trans (R := (· ≤ ·)) Int.le_trans step next

theorem Grows.sum_le {first second : List Int} (grows : Grows first second) : first.sum ≤ second.sum := by
  induction grows with
  | nil => exact Int.le_refl _
  | cons least _ ih =>
      rw [List.sum_cons, List.sum_cons]
      omega

theorem Grows.exists_le {first second : List Int} (grows : Grows first second) {value : Int} (member : value ∈ second) :
    ∃ old ∈ first, old ≤ value := by
  induction grows with
  | nil => cases member
  | cons least _ ih =>
      rcases List.mem_cons.mp member with rfl | later
      · exact ⟨_, List.mem_cons_self, least⟩
      · obtain ⟨old, before, raised⟩ := ih later
        exact ⟨old, List.mem_cons_of_mem _ before, raised⟩

theorem Grows.ne_nil {first second : List Int} (grows : Grows first second) (nonempty : first ≠ []) :
    second ≠ [] := by
  rintro rfl
  cases grows
  exact nonempty rfl

theorem addShares_cons (value : Int) (values : List Int) (d r : Int) :
    addShares (value :: values) d r =
      (value + d + if 0 < r then 1 else 0) :: addShares values d (r - 1) := by
  rw [addShares, List.mapIdx_cons, addShares]
  congr 2
  funext i other
  have shift : ((i + 1 : Nat) : Int) < r ↔ (i : Int) < r - 1 := by omega
  simp only [shift]

theorem sum_addShares (values : List Int) (d r : Int) (few : r ≤ values.length) :
    (addShares values d r).sum = values.sum + d * values.length + max r 0 := by
  induction values generalizing r with
  | nil =>
      simp only [List.length_nil, Int.natCast_zero] at few
      simp [addShares]
      omega
  | cons value values ih =>
      rw [List.length_cons] at few
      rw [addShares_cons, List.sum_cons, ih (r - 1) (by omega), List.sum_cons, List.length_cons,
        Int.natCast_add, Int.mul_add]
      split <;> omega

theorem grows_addShares {values : List Int} {d : Int} (positive : 0 ≤ d) (r : Int) :
    Grows values (addShares values d r) := by
  induction values generalizing r with
  | nil => exact .nil
  | cons value values ih =>
      rw [addShares_cons]
      refine .cons ?_ (ih (r - 1))
      split <;> omega

theorem distributeRest_spec {values : List Int} (nonempty : values ≠ []) {wanted : Int} (positive : 0 ≤ wanted) :
    (distributeRest values wanted).sum = values.sum + wanted ∧ Grows values (distributeRest values wanted) := by
  have filled : (0 : Int) < values.length := by
    exact_mod_cast List.length_pos_iff.mpr nonempty
  have whole := Int.mul_tdiv_add_tmod wanted values.length
  have share := Int.tmod_lt_of_pos wanted filled
  have rest := Int.tmod_nonneg (values.length : Int) positive
  have part := Int.tdiv_nonneg positive (Int.le_of_lt filled)
  constructor
  · rw [distributeRest, sum_addShares _ _ _ (by omega), Int.mul_comm (wanted.tdiv _)]
    omega
  · exact grows_addShares part _

theorem capped_spec {values raised limits : List Int} (grows : Grows values raised) (below : Grows values limits) :
    let delta := raised.zipWith (fun value limit => if 0 < value - limit then value - limit else 0) limits
    let capped := raised.zipWith (fun value limit => if 0 < value - limit then limit else value) limits
    capped.sum + delta.sum = raised.sum ∧ 0 ≤ delta.sum ∧ Grows values capped := by
  induction grows generalizing limits with
  | nil =>
      cases below
      exact ⟨rfl, Int.le_refl _, .nil⟩
  | cons least _ ih =>
      cases below with
      | cons room rest =>
          obtain ⟨sum, positive, more⟩ := ih rest
          simp only [List.zipWith_cons_cons, List.sum_cons] at sum positive ⊢
          refine ⟨?_, ?_, .cons ?_ more⟩
          · split <;> omega
          · split <;> omega
          · split <;> omega

theorem distributeValues_spec {values : List Int} (nonempty : values ≠ []) (wanted : Int)
    {limits : Option (List Int)} (below : ∀ most ∈ limits, Grows values most) :
    (distributeValues values wanted limits).sum = max values.sum wanted ∧
      Grows values (distributeValues values wanted limits) := by
  rw [distributeValues]
  split
  next enough => exact ⟨by omega, Grows.refl values⟩
  next less =>
    obtain ⟨sum, grows⟩ := distributeRest_spec nonempty (show 0 ≤ wanted - values.sum by omega)
    cases limits with
    | none => exact ⟨by dsimp only; omega, grows⟩
    | some limits =>
        obtain ⟨kept, positive, capped⟩ := capped_spec grows (below limits rfl)
        dsimp only at kept positive capped ⊢
        split
        · exact ⟨by omega, capped⟩
        next left =>
          obtain ⟨total, more⟩ := distributeRest_spec (capped.ne_nil nonempty) positive
          exact ⟨by omega, capped.trans more⟩

/-- What a single width comes to is at most the sum that the widths were raised to. -/
theorem distributeValues_within {values : List Int} (nonempty : values ≠ []) {wanted most : Int}
    {limits : Option (List Int)} (below : ∀ limit ∈ limits, Grows values limit)
    (within : ∀ value ∈ values, 0 ≤ value ∧ value ≤ most) (asked : wanted ≤ most) :
    ∀ value ∈ distributeValues values wanted limits, 0 ≤ value ∧ value ≤ most := by
  by_cases enough : wanted ≤ values.sum
  · rw [distributeValues, if_pos enough]
    exact within
  · obtain ⟨sum, grows⟩ := distributeValues_spec nonempty wanted below
    have positive : ∀ value ∈ distributeValues values wanted limits, 0 ≤ value := by
      intro value member
      obtain ⟨old, before, raised⟩ := grows.exists_le member
      exact Int.le_trans (within old before).1 raised
    intro value member
    have part := List.single_le_sum positive value member
    exact ⟨positive value member, by omega⟩

/-! The columns under a span. -/

section Spans

variable {first second values : List Int} {col count : Nat}

theorem Grows.span (grows : Grows first second) (col count : Nat) :
    Grows (span first col count) (span second col count) :=
  List.forall₂_take count (List.forall₂_drop col grows)

theorem length_span (inside : col + count ≤ first.length) : (span first col count).length = count := by
  rw [span, List.length_take, List.length_drop]
  omega

theorem setSpan_eq (first : List Int) (col count : Nat) :
    first = first.take col ++ span first col count ++ first.drop (col + count) := by
  rw [span, List.append_assoc, ← List.drop_drop, List.take_append_drop, List.take_append_drop]

theorem grows_setSpan (inside : col + count ≤ first.length) (more : Grows (span first col count) values) :
    Grows first (setSpan first col values) := by
  have length := more.length_eq
  rw [length_span inside] at length
  conv_lhs => rw [setSpan_eq first col count]
  rw [setSpan, ← length]
  exact List.rel_append (List.rel_append (Grows.refl _) more) (Grows.refl _)

theorem span_setSpan (inside : col + values.length ≤ first.length) :
    span (setSpan first col values) col values.length = values := by
  have length : (first.take col).length = col := by
    rw [List.length_take]
    omega
  rw [span, setSpan, List.append_assoc, List.drop_append_of_le_length (by omega), List.drop_of_length_le (by omega),
    List.nil_append, List.take_left]

theorem grows_setSpan_setSpan {values' : List Int} (grows : Grows first second) (more : Grows values values') :
    Grows (setSpan first col values) (setSpan second col values') := by
  rw [setSpan, setSpan, more.length_eq]
  exact List.rel_append (List.rel_append (List.forall₂_take col grows) more) (List.forall₂_drop _ grows)

end Spans

theorem grows_zipWith_intLowerBound {most least : List Int} (same : most.length = least.length) :
    Grows most (most.zipWith intLowerBound least) ∧ Grows least (most.zipWith intLowerBound least) := by
  induction most generalizing least with
  | nil =>
      cases least with
      | nil => exact ⟨.nil, .nil⟩
      | cons => cases same
  | cons value most ih =>
      cases least with
      | nil => cases same
      | cons other least =>
          obtain ⟨grows, covers⟩ := ih (Nat.succ.inj same)
          rw [List.zipWith_cons_cons, intLowerBound]
          refine ⟨.cons ?_ grows, .cons ?_ covers⟩
          · split <;> omega
          · split <;> omega

/-! The cells. -/

structure Ordered (cols : Nat) (widths : ColumnWidths) : Prop where
  length : widths.minColsWidths.length = cols
  below : Grows widths.minColsWidths widths.maxColsWidths

structure Widened (before after : ColumnWidths) : Prop where
  least : Grows before.minColsWidths after.minColsWidths
  most : Grows before.maxColsWidths after.maxColsWidths

structure Fits (table : Table) (widths : ColumnWidths) (col : Nat) (cell : TableCell) : Prop where
  least : cell.minWidth ≤ (span widths.minColsWidths col cell.colspan).sum + spanSeparators table col cell.colspan
  most : cell.maxWidth ≤ (span widths.maxColsWidths col cell.colspan).sum + spanSeparators table col cell.colspan

theorem Widened.refl (widths : ColumnWidths) : Widened widths widths := ⟨Grows.refl _, Grows.refl _⟩

theorem Widened.trans {first second third : ColumnWidths} (step : Widened first second)
    (next : Widened second third) : Widened first third :=
  ⟨step.least.trans next.least, step.most.trans next.most⟩

theorem Fits.widen {table : Table} {before after : ColumnWidths} {col : Nat} {cell : TableCell}
    (fits : Fits table before col cell) (widened : Widened before after) : Fits table after col cell where
  least := by
    have more := (widened.least.span col cell.colspan).sum_le
    have enough := fits.least
    omega
  most := by
    have more := (widened.most.span col cell.colspan).sum_le
    have enough := fits.most
    omega

theorem setSpan_spec {cols col count : Nat} {widths : ColumnWidths} (ordered : Ordered cols widths)
    (inside : col + count ≤ cols) {least most : List Int}
    (growsMin : Grows (span widths.minColsWidths col count) least)
    (growsMax : Grows (span widths.maxColsWidths col count) most) :
    let after : ColumnWidths := {
      minColsWidths := setSpan widths.minColsWidths col least
      maxColsWidths := setSpan widths.maxColsWidths col (most.zipWith intLowerBound least) }
    Ordered cols after ∧ Widened widths after ∧ span after.minColsWidths col count = least ∧
      Grows most (span after.maxColsWidths col count) := by
  have lengthMin := ordered.length
  have lengthMax := ordered.below.length_eq
  have insideMin : col + count ≤ widths.minColsWidths.length := by omega
  have insideMax : col + count ≤ widths.maxColsWidths.length := by omega
  have countMin := growsMin.length_eq
  have countMax := growsMax.length_eq
  rw [length_span insideMin] at countMin
  rw [length_span insideMax] at countMax
  obtain ⟨raised, covers⟩ := grows_zipWith_intLowerBound (countMax.symm.trans countMin)
  have countRaised := raised.length_eq
  have placedMin := span_setSpan (show col + least.length ≤ widths.minColsWidths.length by omega)
  have placedMax := span_setSpan
    (show col + (most.zipWith intLowerBound least).length ≤ widths.maxColsWidths.length by omega)
  rw [← countMin] at placedMin
  rw [← countRaised, ← countMax] at placedMax
  have wider := grows_setSpan insideMin growsMin
  refine ⟨⟨wider.length_eq.symm.trans lengthMin, grows_setSpan_setSpan ordered.below covers⟩,
    ⟨wider, grows_setSpan insideMax (growsMax.trans raised)⟩, placedMin, ?_⟩
  rw [placedMax]
  exact raised

theorem widenColumns_spec (table : Table) {widths : ColumnWidths} {col : Nat} {cell : TableCell}
    (ordered : Ordered table.cols widths) (positive : 1 ≤ cell.colspan)
    (inside : col + cell.colspan ≤ table.cols) :
    Ordered table.cols (widenColumns table col cell widths) ∧
      Widened widths (widenColumns table col cell widths) ∧
      Fits table (widenColumns table col cell widths) col cell := by
  have lengthMin := ordered.length
  have lengthMax := ordered.below.length_eq
  have filled : ∀ values : List Int, values.length = cell.colspan → values ≠ [] := by
    rintro values length rfl
    rw [List.length_nil] at length
    omega
  obtain ⟨least, growsMin⟩ := @distributeValues_spec (span widths.minColsWidths col cell.colspan)
    (filled _ (length_span (by omega))) (cell.minWidth - spanSeparators table col cell.colspan)
    (some (span widths.maxColsWidths col cell.colspan)) (by
      rintro _ ⟨⟩
      exact ordered.below.span col cell.colspan)
  obtain ⟨most, growsMax⟩ := @distributeValues_spec (span widths.maxColsWidths col cell.colspan)
    (filled _ (length_span (by omega))) (cell.maxWidth - spanSeparators table col cell.colspan) none (by simp)
  obtain ⟨after, widened, placedMin, placedMax⟩ := setSpan_spec ordered inside growsMin growsMax
  refine ⟨after, widened, ?_, ?_⟩
  · rw [widenColumns]
    dsimp only at placedMin ⊢
    rw [placedMin]
    omega
  · have more := placedMax.sum_le
    rw [widenColumns]
    dsimp only at more ⊢
    omega

structure Within (most : Int) (widths : ColumnWidths) : Prop where
  minCols : ∀ value ∈ widths.minColsWidths, 0 ≤ value ∧ value ≤ most
  maxCols : ∀ value ∈ widths.maxColsWidths, 0 ≤ value ∧ value ≤ most

theorem mem_setSpan {widths values : List Int} {col : Nat} {value : Int} (member : value ∈ setSpan widths col values) :
    value ∈ widths ∨ value ∈ values := by
  rw [setSpan, List.mem_append, List.mem_append] at member
  rcases member with (before | inside) | behind
  · exact .inl (List.mem_of_mem_take before)
  · exact .inr inside
  · exact .inl (List.mem_of_mem_drop behind)

theorem mem_zipWith_intLowerBound {most least : List Int} {value : Int}
    (member : value ∈ most.zipWith intLowerBound least) : value ∈ most ∨ value ∈ least := by
  obtain ⟨index, inside, rfl⟩ := List.getElem_of_mem member
  rw [List.getElem_zipWith, intLowerBound]
  split
  · exact .inr (List.getElem_mem _)
  · exact .inl (List.getElem_mem _)

theorem spanSeparators_nonneg (table : Table) (col colspan : Nat) : 0 ≤ spanSeparators table col colspan := by
  refine List.sum_nonneg fun width member => ?_
  obtain ⟨k, _, rfl⟩ := List.mem_map.mp member
  rw [hasVlineWidth]
  split <;> decide

theorem widenColumns_within (table : Table) {widths : ColumnWidths} {col : Nat} {cell : TableCell} {most : Int}
    (ordered : Ordered table.cols widths) (positive : 1 ≤ cell.colspan) (inside : col + cell.colspan ≤ table.cols)
    (within : Within most widths) (least : cell.minWidth ≤ most) (greatest : cell.maxWidth ≤ most) :
    Within most (widenColumns table col cell widths) := by
  have lengthMin := ordered.length
  have lengthMax := ordered.below.length_eq
  have filled : ∀ values : List Int, values.length = cell.colspan → values ≠ [] := by
    rintro values length rfl
    rw [List.length_nil] at length
    omega
  have separators := spanSeparators_nonneg table col cell.colspan
  have part (widths : List Int) : ∀ value ∈ span widths col cell.colspan, value ∈ widths := fun value member =>
    List.mem_of_mem_drop (List.mem_of_mem_take member)
  have leastWithin := @distributeValues_within (span widths.minColsWidths col cell.colspan)
    (filled _ (length_span (by omega))) (cell.minWidth - spanSeparators table col cell.colspan) most
    (some (span widths.maxColsWidths col cell.colspan))
    (by
      rintro _ ⟨⟩
      exact ordered.below.span col cell.colspan)
    (fun value member => within.minCols value (part _ value member)) (by omega)
  have mostWithin := @distributeValues_within (span widths.maxColsWidths col cell.colspan)
    (filled _ (length_span (by omega))) (cell.maxWidth - spanSeparators table col cell.colspan) most none (by simp)
    (fun value member => within.maxCols value (part _ value member)) (by omega)
  constructor
  · intro value member
    rcases mem_setSpan member with old | new
    · exact within.minCols value old
    · exact leastWithin value new
  · intro value member
    rcases mem_setSpan member with old | new
    · exact within.maxCols value old
    · rcases mem_zipWith_intLowerBound new with greater | other
      · exact mostWithin value greater
      · exact leastWithin value other

/-! The loops. -/

def Usable (cell : TableCell) : Prop := cell.isSpanned = false ∧ cell.isUsed = true

instance (cell : TableCell) : Decidable (Usable cell) := inferInstanceAs (Decidable (_ ∧ _))

def SpansInside (table : Table) : Prop :=
  ∀ place ∈ cellPlaces table, Usable (table.cell place.1 place.2) →
    1 ≤ (table.cell place.1 place.2).colspan ∧
      place.1 + (table.cell place.1 place.2).colspan ≤ table.cols

def FitsUpTo (table : Table) (places : List (Nat × Nat)) (bound : Nat → Prop) (widths : ColumnWidths) : Prop :=
  ∀ place ∈ places, Usable (table.cell place.1 place.2) → bound (table.cell place.1 place.2).colspan →
    Fits table widths place.1 (table.cell place.1 place.2)

def NextSpan (table : Table) (places : List (Nat × Nat)) (colspan : Nat) (next : Option Nat) : Prop :=
  (∀ larger ∈ next, colspan < larger ∧ larger ≤ table.cols) ∧
    ∀ place ∈ places, Usable (table.cell place.1 place.2) →
      (table.cell place.1 place.2).colspan ≤ colspan ∨
        ∃ larger ∈ next, larger ≤ (table.cell place.1 place.2).colspan

theorem newColspan_spec {cols colspan : Nat} {cell : TableCell} {next : Option Nat} (inside : cell.colspan ≤ cols)
    (bounds : ∀ larger ∈ next, colspan < larger ∧ larger ≤ cols) :
    (∀ larger ∈ newColspan colspan cell next, colspan < larger ∧ larger ≤ cols) ∧
      (∀ larger ∈ next, ∃ least ∈ newColspan colspan cell next, least ≤ larger) ∧
      (cell.colspan ≤ colspan ∨ ∃ least ∈ newColspan colspan cell next, least ≤ cell.colspan) := by
  rw [newColspan]
  split
  next smaller =>
    refine ⟨?_, ?_, .inr ⟨_, rfl, Nat.le_refl _⟩⟩
    · rintro _ ⟨⟩
      exact ⟨smaller.1, inside⟩
    · intro larger found
      exact ⟨_, rfl, Nat.le_of_lt (smaller.2 larger found)⟩
  next other =>
    refine ⟨bounds, fun larger found => ⟨larger, found, Nat.le_refl _⟩, ?_⟩
    by_cases large : colspan < cell.colspan
    · right
      by_contra nothing
      apply other
      refine ⟨large, fun least found => ?_⟩
      by_contra above
      exact nothing ⟨least, found, by omega⟩
    · left
      omega

theorem visitCell_spec {table : Table} {colspan : Nat} {place : Nat × Nat} {widths : ColumnWidths}
    {next : Option Nat} (ordered : Ordered table.cols widths)
    (inside : Usable (table.cell place.1 place.2) → 1 ≤ (table.cell place.1 place.2).colspan ∧
      place.1 + (table.cell place.1 place.2).colspan ≤ table.cols)
    (bounds : ∀ larger ∈ next, colspan < larger ∧ larger ≤ table.cols) :
    ∃ after next', visitCell table colspan (widths, next) place = some (after, next') ∧
      Ordered table.cols after ∧ Widened widths after ∧
      FitsUpTo table [place] (· = colspan) after ∧ NextSpan table [place] colspan next' ∧
      ∀ larger ∈ next, ∃ least ∈ next', least ≤ larger := by
  rw [visitCell]
  dsimp only
  split
  next skipped =>
    have unusable : ¬ Usable (table.cell place.1 place.2) := by
      rintro ⟨single, used⟩
      rcases skipped with spanned | unused
      · rw [single] at spanned
        cases spanned
      · exact unused used
    refine ⟨_, _, rfl, ordered, Widened.refl _, ?_, ⟨bounds, ?_⟩, fun larger found => ⟨larger, found, Nat.le_refl _⟩⟩
    · intro other member usable
      rw [List.mem_singleton] at member
      exact absurd (member ▸ usable) unusable
    · intro other member usable
      rw [List.mem_singleton] at member
      exact absurd (member ▸ usable) unusable
  next counted =>
    have usable : Usable (table.cell place.1 place.2) := by
      rw [not_or, not_not] at counted
      exact ⟨Bool.eq_false_iff.mpr counted.1, counted.2⟩
    obtain ⟨positive, within⟩ := inside usable
    rw [if_neg (by omega)]
    split
    next same =>
      obtain ⟨after, widened, fits⟩ := widenColumns_spec table ordered positive within
      refine ⟨_, _, rfl, after, widened, ?_, ⟨bounds, ?_⟩, fun larger found => ⟨larger, found, Nat.le_refl _⟩⟩
      · intro other member _ _
        rw [List.mem_singleton] at member
        subst member
        exact fits
      · intro other member _
        rw [List.mem_singleton] at member
        subst member
        exact .inl (Nat.le_of_eq same)
    next different =>
      obtain ⟨bounds', smaller, covered⟩ := newColspan_spec
        (show (table.cell place.1 place.2).colspan ≤ table.cols by omega) bounds
      refine ⟨_, _, rfl, ordered, Widened.refl _, ?_, ⟨bounds', ?_⟩, smaller⟩
      · intro other member _ same
        rw [List.mem_singleton] at member
        subst member
        exact absurd same different
      · intro other member _
        rw [List.mem_singleton] at member
        subst member
        exact covered

theorem visitCells_spec {table : Table} {colspan : Nat} {places : List (Nat × Nat)}
    (inside : ∀ place ∈ places, Usable (table.cell place.1 place.2) →
      1 ≤ (table.cell place.1 place.2).colspan ∧
        place.1 + (table.cell place.1 place.2).colspan ≤ table.cols)
    {widths : ColumnWidths} {next : Option Nat} (ordered : Ordered table.cols widths)
    (bounds : ∀ larger ∈ next, colspan < larger ∧ larger ≤ table.cols) :
    ∃ after next', places.foldlM (visitCell table colspan) (widths, next) = some (after, next') ∧
      Ordered table.cols after ∧ Widened widths after ∧
      FitsUpTo table places (· = colspan) after ∧ NextSpan table places colspan next' ∧
      ∀ larger ∈ next, ∃ least ∈ next', least ≤ larger := by
  induction places generalizing widths next with
  | nil =>
      refine ⟨widths, next, rfl, ordered, Widened.refl _, ?_, ⟨bounds, ?_⟩, fun larger found => ⟨larger, found, Nat.le_refl _⟩⟩
      · intro place member
        cases member
      · intro place member
        cases member
  | cons place places ih =>
      obtain ⟨first, next₁, visited, ordered₁, widened₁, fits₁, span₁, smaller₁⟩ :=
        visitCell_spec ordered (inside place List.mem_cons_self) bounds
      obtain ⟨after, next₂, rest, ordered₂, widened₂, fits₂, span₂, smaller₂⟩ :=
        ih (fun other member => inside other (List.mem_cons_of_mem _ member)) ordered₁ span₁.1
      refine ⟨after, next₂, ?_, ordered₂, widened₁.trans widened₂, ?_, ⟨span₂.1, ?_⟩, ?_⟩
      · rw [List.foldlM_cons, visited]
        exact rest
      · intro other member usable same
        rcases List.mem_cons.mp member with rfl | member
        · exact (fits₁ other List.mem_cons_self usable same).widen widened₂
        · exact fits₂ other member usable same
      · intro other member usable
        rcases List.mem_cons.mp member with rfl | member
        · rcases span₁.2 other List.mem_cons_self usable with small | ⟨larger, found, bound⟩
          · exact .inl small
          · obtain ⟨least, found', bound'⟩ := smaller₂ larger found
            exact .inr ⟨least, found', Nat.le_trans bound' bound⟩
        · exact span₂.2 other member usable
      · intro larger found
        obtain ⟨middle, found', bound⟩ := smaller₁ larger found
        obtain ⟨least, found'', bound'⟩ := smaller₂ middle found'
        exact ⟨least, found'', Nat.le_trans bound' bound⟩

theorem columnLoop_spec {table : Table} (inside : SpansInside table) {fuel colspan : Nat} {widths : ColumnWidths}
    (enough : table.cols + 2 ≤ fuel + colspan) (started : colspan ≤ table.cols)
    (ordered : Ordered table.cols widths)
    (fits : FitsUpTo table (cellPlaces table) (· < colspan) widths) :
    ∃ after, columnLoop table fuel colspan widths = some after ∧ Ordered table.cols after ∧
      FitsUpTo table (cellPlaces table) (fun _ => True) after := by
  induction fuel generalizing colspan widths with
  | zero => omega
  | succ fuel ih =>
      obtain ⟨after, next, visited, ordered', widened, fits', ⟨bounds, span⟩, -⟩ :=
        @visitCells_spec table colspan (cellPlaces table) inside widths none ordered (by simp)
      rw [columnLoop, visited]
      cases next with
      | none =>
          refine ⟨after, rfl, ordered', ?_⟩
          intro place member usable _
          rcases span place member usable with small | ⟨_, ⟨⟩, _⟩
          rcases Nat.lt_or_eq_of_le small with smaller | same
          · exact (fits place member usable smaller).widen widened
          · exact fits' place member usable same
      | some larger =>
          obtain ⟨grown, limit⟩ := bounds larger rfl
          refine ih (by omega) limit ordered' ?_
          intro place member usable below
          rcases span place member usable with small | ⟨_, ⟨⟩, above⟩
          · rcases Nat.lt_or_eq_of_le small with smaller | same
            · exact (fits place member usable smaller).widen widened
            · exact fits' place member usable same
          · omega

section Bounds
variable {table : Table} {most : Int}

/-- No cell asks for more. -/
def Asked (table : Table) (most : Int) : Prop :=
  ∀ place ∈ cellPlaces table, Usable (table.cell place.1 place.2) →
    (table.cell place.1 place.2).minWidth ≤ most ∧ (table.cell place.1 place.2).maxWidth ≤ most

theorem visitCell_within (inside : SpansInside table) (asked : Asked table most) {colspan : Nat} {place : Nat × Nat}
    (here : place ∈ cellPlaces table) {widths after : ColumnWidths} {next next' : Option Nat}
    (kept : Ordered table.cols widths ∧ Within most widths)
    (visited : visitCell table colspan (widths, next) place = some (after, next')) :
    Ordered table.cols after ∧ Within most after := by
  rw [visitCell] at visited
  dsimp only at visited
  split at visited
  · rw [Option.some.injEq, Prod.mk.injEq] at visited
    exact visited.1 ▸ kept
  next counted =>
    have usable : Usable (table.cell place.1 place.2) := by
      rw [not_or, not_not] at counted
      exact ⟨Bool.eq_false_iff.mpr counted.1, counted.2⟩
    obtain ⟨positive, fits⟩ := inside place here usable
    obtain ⟨least, greatest⟩ := asked place here usable
    split at visited
    · cases visited
    · split at visited
      · rw [Option.some.injEq, Prod.mk.injEq] at visited
        rw [← visited.1]
        exact ⟨(widenColumns_spec table kept.1 positive fits).1,
          widenColumns_within table kept.1 positive fits kept.2 least greatest⟩
      · rw [Option.some.injEq, Prod.mk.injEq] at visited
        exact visited.1 ▸ kept

theorem visitCells_within (inside : SpansInside table) (asked : Asked table most) {colspan : Nat}
    {places : List (Nat × Nat)} (here : ∀ place ∈ places, place ∈ cellPlaces table) {widths after : ColumnWidths}
    {next next' : Option Nat} (kept : Ordered table.cols widths ∧ Within most widths)
    (visited : places.foldlM (visitCell table colspan) (widths, next) = some (after, next')) :
    Ordered table.cols after ∧ Within most after := by
  induction places generalizing widths next with
  | nil =>
      rw [List.foldlM_nil] at visited
      rw [← (Prod.mk.inj (Option.some.inj visited)).1]
      exact kept
  | cons place places ih =>
      rw [List.foldlM_cons] at visited
      obtain ⟨⟨first, middle⟩, one, rest⟩ := Option.bind_eq_some_iff.mp visited
      exact ih (fun other member => here other (List.mem_cons_of_mem _ member))
        (visitCell_within inside asked (here place List.mem_cons_self) kept one) rest

theorem columnLoop_within (inside : SpansInside table) (asked : Asked table most) {fuel colspan : Nat}
    {widths after : ColumnWidths} (kept : Ordered table.cols widths ∧ Within most widths)
    (ran : columnLoop table fuel colspan widths = some after) : Within most after := by
  induction fuel generalizing colspan widths with
  | zero => cases ran
  | succ fuel ih =>
      rw [columnLoop] at ran
      obtain ⟨⟨visited, next⟩, all, rest⟩ := Option.bind_eq_some_iff.mp ran
      have later := visitCells_within inside asked (fun _ member => member) kept all
      cases next with
      | none => exact Option.some.inj rest ▸ later.2
      | some larger => exact ih later rest

/-- An `int` holds the sum of all columns when it holds as many of the largest width. -/
theorem Within.sum_le {widths : ColumnWidths} (within : Within most widths) :
    widths.maxColsWidths.sum ≤ widths.maxColsWidths.length * most := by
  have bound := List.sum_le_card_nsmul widths.maxColsWidths most fun value member => (within.maxCols value member).2
  rwa [nsmul_eq_mul] at bound

end Bounds

/-- The column widths of every table meet the constraints of its cells; no width exceeds what was there or
asked for, so that the sum of all columns is an `int` when as many of the largest are. -/
theorem getColumnWidths_spec (table : Table) (widths : Option ColumnWidths) (columns : 0 < table.cols)
    (inside : SpansInside table) (stored : ∀ before ∈ widths, Ordered table.cols before) :
    ∃ after, getColumnWidths table widths = some after ∧
      after.minColsWidths.length = table.cols ∧
      Grows after.minColsWidths after.maxColsWidths ∧
      (∀ col < table.cols, ∀ row < table.rows, Usable (table.cell col row) →
        Fits table after col (table.cell col row)) ∧
      ∀ most, 0 ≤ most → Asked table most → (∀ before ∈ widths, Within most before) →
        Within most after ∧ (table.cols * most < 2 ^ 31 → after.maxColsWidths.sum < 2 ^ 31) := by
  have start : Ordered table.cols (widths.getD ⟨List.replicate table.cols 0, List.replicate table.cols 0⟩) := by
    cases widths with
    | none => exact ⟨List.length_replicate, Grows.refl _⟩
    | some before => exact stored before rfl
  obtain ⟨after, ran, ordered, fits⟩ := columnLoop_spec inside (show table.cols + 2 ≤ table.cols + 1 + 1 by omega)
    columns start (by
      intro place member usable below
      have positive := (inside place member usable).1
      omega)
  refine ⟨after, ?_, ordered.length, ordered.below, ?_, ?_⟩
  · rw [getColumnWidths, if_neg (by omega)]
    exact ran
  · intro col colInside row rowInside usable
    refine fits (col, row) ?_ usable trivial
    rw [cellPlaces, List.mem_flatMap]
    exact ⟨col, List.mem_range.mpr colInside, List.mem_map.mpr ⟨row, List.mem_range.mpr rowInside, rfl⟩⟩
  · intro most positive asked before
    have zero : ∀ value ∈ List.replicate table.cols (0 : Int), 0 ≤ value ∧ value ≤ most := by
      intro value member
      rw [List.eq_of_mem_replicate member]
      exact ⟨Int.le_refl _, positive⟩
    have startWithin : Within most
        (widths.getD ⟨List.replicate table.cols 0, List.replicate table.cols 0⟩) := by
      cases widths with
      | none => exact ⟨zero, zero⟩
      | some given => exact before given rfl
    have within := columnLoop_within inside asked ⟨start, startWithin⟩ ran
    have sum := within.sum_le
    rw [← ordered.below.length_eq, ordered.length] at sum
    exact ⟨within, fun small => by omega⟩

def threeCells : Table where
  cols := 2
  rows := 2
  cell col row := {
    isUsed := true
    isSpanned := col = 1 ∧ row = 1
    colspan := if row = 1 then 2 else 1
    minWidth := if row = 1 then 9 else 3
    maxWidth := if row = 1 then 20 else 5 }
  columns := []
  rules := .none
  cellspacing := 0
  cellpadding := 0

theorem getColumnWidths_threeCells :
    ∃ after, getColumnWidths threeCells none = some after ∧ after.minColsWidths.length = 2 ∧
      Grows after.minColsWidths after.maxColsWidths ∧
      Fits threeCells after 0 (threeCells.cell 0 1) ∧ after.maxColsWidths.sum < 2 ^ 31 := by
  obtain ⟨after, ran, length, below, fits, bounds⟩ := getColumnWidths_spec threeCells none (by decide)
    (by unfold SpansInside; decide) (by simp)
  exact ⟨after, ran, length, below, fits 0 (by decide) 1 (by decide) ⟨rfl, rfl⟩,
    (bounds 20 (by decide) (by unfold Asked; decide) (by simp)).2 (by decide)⟩

end KcnTools.Html
