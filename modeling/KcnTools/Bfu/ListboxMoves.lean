import KcnTools.Bfu.Listbox
import KcnTools.Lib.Run

/-! Traversals of a list box and moves of its selection. A traversal steps through the whole order and counts the
items that are shown; a step that leads nowhere is counted like the others by the callback. -/

namespace KcnTools.Bfu

open ListboxItem

variable {δ : Type}

theorem shown_cons (item : ListboxItem) (order : List ListboxItem) :
    shown (item :: order) = if item.visible then item :: shown order else shown order := List.filter_cons

/-- The callback leaves the offset alone, and with a positive one changes the data by `bump`. -/
def Counts (fn : Option (Callback δ)) (sign : Int → Prop) (bump : δ → δ) : Prop :=
  ∀ walk : Traversal δ, sign walk.offset →
    callFn true fn walk = if walk.item.visible then { walk with data := bump walk.data } else walk

theorem counts_none (sign : Int → Prop) : Counts (none : Option (Callback δ)) sign id := by
  intro walk _
  split <;> rfl

theorem counts_down : Counts (some calcDist) (0 < ·) (· + 1) := by
  intro walk positive
  have notNegative : ¬ walk.offset < 0 := by omega
  simp only [callFn, calcDist, Bool.not_true, Bool.false_or, if_neg notNegative, if_pos positive]

theorem counts_up : Counts (some calcDist) (· < 0) (· - 1) := by
  intro walk negative
  simp only [callFn, calcDist, Bool.not_true, Bool.false_or, if_pos negative]

/-- What is left to do: so many items to go, or more than there are in a traversal without an end. -/
def Paced (walk : Traversal δ) (count more : Nat) : Prop :=
  if walk.infinite then 0 < walk.offset ∧ more < count else walk.offset = count

theorem traverseLoop_done {fn : Option (Callback δ)} {walk : Traversal δ} (done : walk.offset = 0 ∨ walk.stop = true)
    (fuel : Nat) : traverseLoop true fn fuel walk = some walk := by
  cases fuel <;> rw [traverseLoop, if_pos done]

theorem traverseLoop_step {fn : Option (Callback δ)} {walk : Traversal δ} (moving : walk.offset ≠ 0)
    (going : walk.stop = false) (fuel : Nat) :
    traverseLoop true fn (fuel + 1) walk = traverseLoop true fn fuel (traverseStep true fn walk) := by
  rw [traverseLoop, if_neg]
  rintro (zero | stopped)
  · exact moving zero
  · rw [going] at stopped
    contradiction

def Traversal.visit (walk : Traversal δ) (bump : δ → δ) : Traversal δ :=
  { walk with data := bump^[if walk.item.visible then 1 else 0] walk.data }

theorem Counts.visit {fn : Option (Callback δ)} {sign : Int → Prop} {bump : δ → δ} (counts : Counts fn sign bump)
    {walk : Traversal δ} (signed : sign walk.offset) : callFn true fn walk = walk.visit bump := by
  rw [counts walk signed, Traversal.visit]
  split <;> rfl

theorem moveDown_next {walk : Traversal δ} {next : ListboxItem} (down : walk.item.down true = some next) :
    moveDown true walk =
      if next.visible then
        { walk with
          item := next, visibleItem := next,
          offset := if walk.infinite then walk.offset else walk.offset - 1 }
      else
        { walk with item := next, offset := (if walk.infinite then walk.offset else walk.offset - 1) + 1 } := by
  rw [moveDown, down, arrive]
  cases next.visible <;> rfl

theorem moveDown_end {walk : Traversal δ} (down : walk.item.down true = none)
    (seen : walk.item.visible = true → walk.visibleItem = walk.item) :
    (moveDown true walk).stop = true ∧ (moveDown true walk).visibleItem = walk.visibleItem ∧
      (moveDown true walk).data = walk.data := by
  rw [moveDown, down, arrive]
  dsimp only
  cases visible : walk.item.visible with
  | false => exact ⟨rfl, rfl, rfl⟩
  | true => exact ⟨rfl, (seen visible).symm, rfl⟩

/-- Where a traversal of `count` items ends with these items before it, and how often it calls the function:
once for each item that it leaves, and perhaps, or `always`, once more for a step that leads nowhere. -/
def Reaches (fn : Option (Callback δ)) (bump : δ → δ) (always : Prop) (fuel : Nat) (walk : Traversal δ)
    (count : Nat) (ahead : List ListboxItem) : Prop :=
  ∃ final calls extra, traverseLoop true fn fuel walk = some final ∧
    (walk.visibleItem :: shown ahead)[min count (shown ahead).length]? = some final.visibleItem ∧
    final.data = bump^[calls] walk.data ∧
    (count = 0 → calls = 0) ∧
    (0 < count → calls + (if walk.item.visible then 0 else 1) = min count (shown ahead).length + extra) ∧
    extra ≤ 1 ∧ (extra = 1 → (shown ahead).length < count) ∧ (always → (shown ahead).length < count → extra = 1)

variable {fn : Option (Callback δ)} {bump : δ → δ} {always : Prop} {walk : Traversal δ} {count fuel : Nat}
  {ahead : List ListboxItem}

theorem reaches_zero (none : count = 0) (zero : walk.offset = 0) :
    Reaches fn bump always fuel walk count ahead := by
  refine ⟨walk, 0, 0, traverseLoop_done (.inl zero) _, ?_, rfl, fun _ => rfl, fun some => ?_, Nat.zero_le _,
    fun contra => ?_, fun _ some => ?_⟩
  · rw [none, Nat.zero_min]
    rfl
  all_goals omega

theorem reaches_stop (extra : Nat) {final : Traversal δ} (moving : walk.offset ≠ 0) (going : walk.stop = false)
    (stepped : traverseStep true fn walk = final) (stop : final.stop = true)
    (found : (walk.visibleItem :: shown ahead)[min count (shown ahead).length]? = some final.visibleItem)
    (data : final.data = (walk.visit bump).data) (some : 0 < count)
    (calls : min count (shown ahead).length + extra = 1) (beyond : extra = 1 → (shown ahead).length < count)
    (counted : always → (shown ahead).length < count → extra = 1) :
    Reaches fn bump always (fuel + 1) walk count ahead := by
  refine ⟨final, _, extra, ?_, found, data, fun none => absurd some (by omega), fun _ => ?_, by omega, beyond, counted⟩
  · rw [traverseLoop_step moving going, stepped]
    exact traverseLoop_done (.inr stop) fuel
  · rw [calls]
    split <;> rfl

theorem reaches_next {next : ListboxItem} {after : Traversal δ} (moving : walk.offset ≠ 0)
    (going : walk.stop = false) (some : 0 < count) (stepped : traverseStep true fn walk = after)
    (arrived : after.item = next) (data : after.data = (walk.visit bump).data)
    (seen : after.visibleItem = if next.visible then next else walk.visibleItem)
    (rest : Reaches fn bump always fuel after (if next.visible then count - 1 else count) ahead) :
    Reaches fn bump always (fuel + 1) walk count (next :: ahead) := by
  obtain ⟨final, calls, extra, reached, found, total, none, counted, single, beyond, attempts⟩ := rest
  have length : (shown (next :: ahead)).length = (shown ahead).length + if next.visible then 1 else 0 := by
    rw [shown_cons]
    split <;> simp
  refine ⟨final, calls + if walk.item.visible then 1 else 0, extra, ?_, ?_, ?_, fun none => absurd some (by omega),
    fun _ => ?_, single, fun full => ?_, fun counts => ?_⟩
  · rw [traverseLoop_step moving going, stepped, reached]
  · rw [shown_cons]
    cases visible : next.visible with
    | false => simpa [visible, seen] using found
    | true =>
      have index : min count ((shown ahead).length + 1) = min (count - 1) (shown ahead).length + 1 := by omega
      simpa [visible, seen, index] using found
  · rw [total, data, Traversal.visit, Function.iterate_add_apply]
  · have one : (if walk.item.visible = true then 1 else 0) + (if walk.item.visible = true then 0 else 1) = 1 := by
      split <;> rfl
    rw [Nat.add_assoc, one, length]
    rw [arrived] at counted
    cases visible : next.visible with
    | false =>
      simp only [visible, Bool.false_eq_true, if_false] at counted ⊢
      exact counted some
    | true =>
      simp only [visible, if_true] at counted none beyond ⊢
      by_cases more : 0 < count - 1
      · have rest := counted more
        omega
      · have zero := none (by omega)
        omega
  · have short := beyond full
    rw [length]
    split at short
    next visible =>
      rw [if_pos visible]
      omega
    next hidden =>
      rw [if_neg hidden]
      omega
  · intro short
    apply attempts counts
    rw [length] at short
    split
    next visible =>
      rw [if_pos visible] at short
      omega
    next hidden =>
      rw [if_neg hidden] at short
      omega

theorem Paced.zero {more : Nat} (paced : Paced walk count more) (zero : walk.offset = 0) : count = 0 := by
  rw [Paced, zero] at paced
  split at paced <;> omega

theorem Paced.positive {more : Nat} (paced : Paced walk count more) (moving : walk.offset ≠ 0) :
    0 < walk.offset ∧ 0 < count := by
  rw [Paced] at paced
  split at paced <;> omega

theorem Paced.shown {more : Nat} {after : Traversal δ} (paced : Paced walk count (more + 1)) (some : 0 < count)
    (infinite : after.infinite = walk.infinite)
    (offset : after.offset = if walk.infinite then walk.offset else walk.offset - 1) :
    Paced after (count - 1) more := by
  rw [Paced] at paced ⊢
  rw [infinite, offset]
  split at paced
  next endless =>
    rw [if_pos endless, if_pos endless]
    omega
  next finite =>
    rw [if_neg finite, if_neg finite]
    omega

theorem Paced.hidden {more : Nat} {after : Traversal δ} (paced : Paced walk count more)
    (infinite : after.infinite = walk.infinite)
    (offset : after.offset = (if walk.infinite then walk.offset else walk.offset - 1) + 1) :
    Paced after count more := by
  rw [Paced] at paced ⊢
  rw [infinite, offset]
  split at paced
  next endless =>
    rw [if_pos endless, if_pos endless]
    omega
  next finite =>
    rw [if_neg finite, if_neg finite]
    omega

theorem traverseStep_down (counts : Counts fn (0 < ·) bump) (positive : 0 < walk.offset) :
    traverseStep true fn walk = moveDown true (walk.visit bump) := by
  have moving : (walk.visit bump).offset ≠ 0 := Int.ne_of_gt positive
  rw [traverseStep, counts.visit positive]
  exact (if_neg moving).trans (if_pos positive)

theorem traverseStep_up (counts : Counts fn (· < 0) bump) (negative : walk.offset < 0) :
    traverseStep true fn walk = moveUp true (walk.visit bump) := by
  have moving : (walk.visit bump).offset ≠ 0 := Int.ne_of_lt negative
  rw [traverseStep, counts.visit negative]
  exact (if_neg moving).trans (if_neg (Int.not_lt.mpr (Int.le_of_lt negative)))

theorem loop_down (counts : Counts fn (0 < ·) bump) (chain : (walk.item :: ahead).IsChain Linked)
    (ends : Ends (walk.item :: ahead)) (paced : Paced walk count (shown ahead).length) (going : walk.stop = false)
    (seen : walk.item.visible = true → walk.visibleItem = walk.item) (enough : ahead.length < fuel) :
    Reaches fn bump True fuel walk count ahead := by
  induction ahead generalizing walk count fuel with
  | nil =>
    obtain ⟨fuel, rfl⟩ : ∃ less, fuel = less + 1 := ⟨fuel - 1, by rw [List.length_nil] at enough; omega⟩
    by_cases zero : walk.offset = 0
    · exact reaches_zero (paced.zero zero) zero
    obtain ⟨positive, some⟩ := paced.positive zero
    have stepped := traverseStep_down counts positive
    have down : (walk.visit bump).item.down true = none := ends walk.item rfl
    obtain ⟨stop, visibleItem, data⟩ := moveDown_end down seen
    have index : min count (shown []).length = 0 := Nat.min_zero count
    refine reaches_stop 1 zero going stepped stop ?_ data some (by rw [index]) (fun _ => some) fun _ _ => rfl
    rw [index, visibleItem]
    rfl
  | cons next ahead ih =>
    obtain ⟨fuel, rfl⟩ : ∃ less, fuel = less + 1 := ⟨fuel - 1, by rw [List.length_cons] at enough; omega⟩
    by_cases zero : walk.offset = 0
    · exact reaches_zero (paced.zero zero) zero
    obtain ⟨positive, some⟩ := paced.positive zero
    have link := List.isChain_cons_cons.mp chain
    have stepped := traverseStep_down counts positive
    have down : (walk.visit bump).item.down true = .some next := link.1.down
    rw [moveDown_next down] at stepped
    rw [List.length_cons] at enough
    rw [shown_cons] at paced
    cases visible : next.visible with
    | true =>
      rw [visible, if_pos rfl] at stepped paced
      refine reaches_next zero going some stepped rfl rfl (by rw [visible]; rfl) ?_
      rw [visible, if_pos rfl]
      exact ih link.2 ends.tail (paced.shown some rfl rfl) going (fun _ => rfl) (by omega)
    | false =>
      rw [visible, if_neg Bool.false_ne_true] at stepped paced
      refine reaches_next zero going some stepped rfl rfl (by rw [visible]; rfl) ?_
      rw [visible, if_neg Bool.false_ne_true]
      refine ih link.2 ends.tail (paced.hidden rfl rfl) going (fun shows => ?_) (by omega)
      rw [visible] at shows
      contradiction

theorem moveUp_next {next : ListboxItem} (up : (walk.item.up true).1 = next) (finite : walk.infinite = false) :
    (moveUp true walk).item = next ∧ (moveUp true walk).stop = (walk.item.up true).2 ∧
      (moveUp true walk).infinite = false ∧ (moveUp true walk).data = walk.data ∧
      (moveUp true walk).visibleItem = (if next.visible then next else walk.visibleItem) ∧
      (moveUp true walk).offset = walk.offset + if next.visible then 1 else 0 := by
  rw [moveUp, finite, ← up]
  dsimp only [arrive]
  cases (walk.item.up true).1.visible with
  | false => exact ⟨rfl, rfl, rfl, rfl, rfl, (Int.add_neg_cancel_right walk.offset 1).trans (Int.add_zero _).symm⟩
  | true => exact ⟨rfl, rfl, rfl, rfl, rfl, rfl⟩

def Begins (order : List ListboxItem) : Prop := ∀ first, order.getLast? = some first → first.IsFirst

theorem up_first {item : ListboxItem} (first : item.IsFirst) : item.up true = (item, true) := by
  have noPrev : item.prev = none := by rw [prev, first.1]
  have noRoot : item.getRoot = none := by rw [getRoot, first.2]
  rw [ListboxItem.up, noPrev, noRoot]

theorem loop_up (counts : Counts fn (· < 0) bump)
    (chain : (walk.item :: ahead).IsChain fun latter former => Linked former latter)
    (begins : Begins (walk.item :: ahead)) (offset : walk.offset = -count) (finite : walk.infinite = false)
    (going : walk.stop = false) (seen : walk.item.visible = true → walk.visibleItem = walk.item)
    (enough : ahead.length < fuel) :
    Reaches fn bump False fuel walk count ahead := by
  induction ahead generalizing walk count fuel with
  | nil =>
    obtain ⟨fuel, rfl⟩ : ∃ less, fuel = less + 1 := ⟨fuel - 1, by rw [List.length_nil] at enough; omega⟩
    by_cases zero : walk.offset = 0
    · exact reaches_zero (by omega) zero
    have top := up_first (begins walk.item rfl)
    have up : ((walk.visit bump).item.up true).1 = walk.item := congrArg Prod.fst top
    obtain ⟨_, stop, _, data, visibleItem, _⟩ := moveUp_next up finite
    have index : min count (shown []).length = 0 := Nat.min_zero count
    have some : 0 < count := by omega
    refine reaches_stop 1 zero going (traverseStep_up counts (by omega)) (stop.trans (congrArg Prod.snd top)) ?_ data
      some (by rw [index]) (fun _ => some) fun contra => contra.elim
    rw [index, visibleItem]
    cases visible : walk.item.visible with
    | false => rfl
    | true => exact congrArg Option.some (seen visible)
  | cons next ahead ih =>
    obtain ⟨fuel, rfl⟩ : ∃ less, fuel = less + 1 := ⟨fuel - 1, by rw [List.length_cons] at enough; omega⟩
    by_cases zero : walk.offset = 0
    · exact reaches_zero (by omega) zero
    have some : 0 < count := by omega
    have negative : walk.offset < 0 := by omega
    have stepped := traverseStep_up counts negative
    have link := List.isChain_cons_cons.mp chain
    have up : ((walk.visit bump).item.up true).1 = next := link.1.up
    obtain ⟨arrived, stop, stillFinite, data, visibleItem, moved⟩ := moveUp_next up finite
    rw [List.length_cons] at enough
    cases flag : (walk.item.up true).2 with
    | true =>
      -- the climb from the first child reached the first item of all
      obtain ⟨first, visible⟩ := link.1.last flag
      have none : ahead = [] := by
        cases ahead with
        | nil => rfl
        | cons former ahead => exact absurd first (List.isChain_cons_cons.mp link.2).1.later
      rw [none]
      have whole : shown [next] = [next] := by
        rw [shown_cons, if_pos visible]
        rfl
      have index : min count (shown [next]).length = 1 := by
        rw [whole, List.length_singleton]
        omega
      refine reaches_stop 0 zero going stepped (stop.trans flag) ?_ data some (by rw [index])
        (fun contra => by omega) fun contra => contra.elim
      rw [index, visibleItem, whole, visible]
      rfl
    | false =>
      refine reaches_next zero going some stepped arrived data visibleItem ?_
      generalize moveUp true (walk.visit bump) = after at arrived stop stillFinite visibleItem moved
      have chainAfter := link.2
      have beginsAfter : Begins (next :: ahead) := fun first found => begins first found
      rw [← arrived] at chainAfter beginsAfter
      have offset' : (walk.visit bump).offset = walk.offset := rfl
      rw [offset'] at moved
      refine ih chainAfter beginsAfter ?_ stillFinite (stop.trans flag) (fun shows => ?_) (by omega)
      · rw [moved]
        split <;> omega
      · rw [arrived] at shows
        rw [visibleItem, shows, arrived]
        rfl

/-! Traversals by the display order. -/

variable {items : ItemList} {place : Nat}

/-- The item at a place of the display order, between those before it and those behind it. -/
theorem displayed_split (bound : place < (displayed items).length) :
    ∃ front back, wholeOrder items = front ++ (displayed items)[place] :: back ∧
      (displayed items)[place].visible = true ∧ (shown front).length = place ∧
      displayed items = shown front ++ (displayed items)[place] :: shown back := by
  have split : displayed items =
      (displayed items).take place ++ (displayed items)[place] :: (displayed items).drop (place + 1) := by
    rw [List.getElem_cons_drop, List.take_append_drop]
  obtain ⟨front, rest, whole, before, behind⟩ := List.filter_eq_append_iff.mp split
  obtain ⟨hidden, back, restWhole, allHidden, visible, after⟩ := List.filter_eq_cons_iff.mp behind
  have none : shown hidden = [] := List.filter_eq_nil_iff.mpr allHidden
  have front' : shown (front ++ hidden) = (displayed items).take place := by
    rw [shown, List.filter_append, before]
    exact (congrArg _ none).trans (List.append_nil _)
  refine ⟨front ++ hidden, back, ?_, visible, ?_, ?_⟩
  · rw [whole, restWhole, List.append_assoc]
  · rw [front', List.length_take]
    omega
  · rw [front']
    exact split.trans (congrArg _ (congrArg _ after.symm))

theorem traverse_forward (counts : Counts fn (0 < ·) bump) (bound : place < (displayed items).length)
    (enough : (wholeOrder items).length ≤ fuel) {offset : Int} (some : 0 < count)
    (paced : if offset = 0 then (displayed items).length ≤ place + count else offset = count) (data : δ) :
    ∃ found calls,
      traverseListboxItemsList fuel (displayed items)[place] offset true fn data = .some (found, bump^[calls] data) ∧
      (displayed items)[min (place + count) ((displayed items).length - 1)]? = .some found ∧
      calls = min count ((displayed items).length - 1 - place) +
        if (displayed items).length ≤ place + count then 1 else 0 := by
  obtain ⟨front, back, whole, visible, before, split⟩ := displayed_split bound
  have length := congrArg List.length split
  rw [List.length_append, List.length_cons, before] at length
  have chain := wholeOrder_linked items
  have ends := wholeOrder_ends items
  rw [whole] at enough chain ends
  rw [List.length_append, List.length_cons] at enough
  have endsHere : Ends ((displayed items)[place] :: back) := by
    intro last found
    apply ends
    rw [List.getLast?_append, found]
    rfl
  have pacedHere : Paced ⟨(displayed items)[place], (displayed items)[place],
      if decide (offset = 0) then 1 else offset, false, decide (offset = 0), data⟩ count (shown back).length := by
    rw [Paced]
    by_cases zero : offset = 0
    · rw [if_pos zero] at paced
      simp only [zero, decide_true, if_true]
      omega
    · rw [if_neg zero] at paced
      simp only [zero, decide_false, Bool.false_eq_true, if_false]
      exact paced
  obtain ⟨final, calls, extra, reached, found, total, _, counted, single, beyond, always⟩ :=
    loop_down counts (List.isChain_append.mp chain).2.1 endsHere pacedHere rfl (fun _ => rfl)
      (show back.length < fuel by omega)
  refine ⟨final.visibleItem, calls, ?_, ?_, ?_⟩
  · rw [traverseListboxItemsList, reached, Option.map_some, total]
  · have index : min (place + count) ((displayed items).length - 1) = place + min count (shown back).length := by omega
    have behind := congrArg (·[place + min count (shown back).length]?) split
    rw [List.getElem?_append_right (by omega), before, Nat.add_sub_cancel_left] at behind
    rw [index, behind, ← found]
  · have equation := counted some
    rw [if_pos visible] at equation
    by_cases short : (shown back).length < count
    · have one := always trivial short
      rw [if_pos (by omega)]
      omega
    · have none : ¬ extra = 1 := fun one => short (beyond one)
      rw [if_neg (by omega)]
      omega

theorem traverse_back (counts : Counts fn (· < 0) bump) (bound : place < (displayed items).length)
    (enough : (wholeOrder items).length ≤ fuel) (some : 0 < count) (data : δ) :
    ∃ found calls extra,
      traverseListboxItemsList fuel (displayed items)[place] (-count) true fn data = .some (found, bump^[calls] data) ∧
      (displayed items)[place - count]? = .some found ∧ calls = min count place + extra ∧ extra ≤ 1 ∧
      (extra = 1 → place < count) := by
  obtain ⟨front, back, whole, visible, before, split⟩ := displayed_split bound
  have chain := wholeOrder_linked items
  rw [whole] at enough chain
  rw [List.length_append, List.length_cons] at enough
  have reversed : front.reverse.length = front.length := List.length_reverse
  have shownReverse : shown front.reverse = (shown front).reverse := List.filter_reverse
  let start : Traversal δ := ⟨(displayed items)[place], (displayed items)[place], -count, false, false, data⟩
  have chainHere : (start.item :: front.reverse).IsChain fun latter former => Linked former latter := by
    rw [List.append_cons, List.isChain_append] at chain
    have whole := List.isChain_reverse.mpr chain.1
    rw [List.reverse_append] at whole
    exact whole
  have begins : Begins (start.item :: front.reverse) := by
    intro first found
    have reverse : start.item :: front.reverse = (front ++ [(displayed items)[place]]).reverse := by
      rw [List.reverse_append]
      rfl
    rw [reverse, List.getLast?_reverse] at found
    have head : (wholeOrder items).head? = .some first := by
      rw [whole, List.append_cons, List.head?_append, found]
      rfl
    rw [wholeOrder, listing_head] at head
    exact firstIn_prev head
  have finite : decide (-(count : Int) = 0) = false := decide_eq_false (by omega)
  obtain ⟨final, calls, extra, reached, found, total, _, counted, single, beyond, _⟩ :=
    loop_up counts chainHere begins rfl rfl rfl (fun _ => rfl) (show front.reverse.length < fuel by omega)
  rw [shownReverse, List.length_reverse, before] at found counted beyond
  refine ⟨final.visibleItem, calls, extra, ?_, ?_, ?_, single, beyond⟩
  · rw [traverseListboxItemsList, finite]
    exact (congrArg _ reached).trans (by rw [Option.map_some, total])
  · have reverse : (displayed items)[place] :: (shown front).reverse =
        (shown front ++ [(displayed items)[place]]).reverse := by
      rw [List.reverse_append]
      rfl
    have long : (shown front ++ [(displayed items)[place]]).length = place + 1 := by
      rw [List.length_append, before, List.length_singleton]
    have at' := congrArg (·[place - count]?) split
    rw [List.append_cons, List.getElem?_append_left (by omega)] at at'
    have index : place + 1 - 1 - min count place = place - count := by omega
    rw [reverse, List.getElem?_reverse (by omega), long, index] at found
    rw [at', ← found]
  · have equation := counted some
    rw [if_pos visible] at equation
    exact equation

theorem iterate_up (calls : Nat) (offset : Int) : (· + 1)^[calls] offset = offset + calls := by
  induction calls generalizing offset with
  | zero => exact (Int.add_zero offset).symm
  | succ calls ih =>
    rw [Function.iterate_succ_apply, ih]
    omega

theorem iterate_down (calls : Nat) (offset : Int) : (· - 1)^[calls] offset = offset - calls := by
  induction calls generalizing offset with
  | zero => exact (Int.sub_zero offset).symm
  | succ calls ih =>
    rw [Function.iterate_succ_apply, ih]
    omega

/-! The selection. -/

/-- The selection and the top line are in the display order, and the offset is the distance between them. -/
def Kept (height : Int) (box : ListboxData) : Prop :=
  ∃ top sel, box.top = some top ∧ box.sel = some sel ∧ top ∈ displayed box.items ∧ sel ∈ displayed box.items ∧
    box.selOffset = (displayed box.items).idxOf sel - (displayed box.items).idxOf top ∧
    0 ≤ box.selOffset ∧ box.selOffset < height

def placeOf (items : ItemList) : Option ListboxItem → Int
  | none => 0
  | some item => (displayed items).idxOf item

/-- A move downwards stays in the list, or the last item is already on the last line of the box; and in a box of
one line it goes to the last item. -/
def FitsMove (height : Int) (box : ListboxData) (dist : Int) : Prop :=
  let last : Int := (displayed box.items).length - 1
  let target := placeOf box.items box.sel + dist
  dist ≤ 0 ∨ (height = 1 ∧ last ≤ target) ∨
    (1 < height ∧ (target ≤ last ∨ height - 1 ≤ last - placeOf box.items box.top))

theorem idxOf_place {item : ListboxItem} (found : (displayed items)[place]? = some item) :
    (displayed items).idxOf item = place := by
  obtain ⟨bound, rfl⟩ := List.getElem?_eq_some_iff.mp found
  exact (displayed_nodup items).idxOf_getElem place bound

theorem kept_iff {height offset : Int} {top sel : ListboxItem} {topPlace selPlace : Nat}
    (atTop : (displayed items)[topPlace]? = some top) (atSel : (displayed items)[selPlace]? = some sel) :
    Kept height ⟨items, some top, some sel, offset⟩ ↔ offset = selPlace - topPlace ∧ 0 ≤ offset ∧ offset < height := by
  rw [← idxOf_place atTop, ← idxOf_place atSel]
  constructor
  · rintro ⟨_, _, sameTop, sameSel, _, _, kept⟩
    cases sameTop
    cases sameSel
    exact kept
  · intro kept
    exact ⟨top, sel, rfl, rfl, List.mem_of_getElem? atTop, List.mem_of_getElem? atSel, kept⟩

theorem displayed_visible {item : ListboxItem} (member : item ∈ displayed items) : item.visible = true :=
  (List.mem_filter.mp member).2

theorem displayed_first {item : ListboxItem} (member : item ∈ displayed items) :
    ∃ first, firstIn items [] [] = some first := by
  cases items with
  | empty => contradiction
  | item => exact ⟨_, rfl⟩

theorem listboxSelMove_eq {height offset dist : Int} {top sel : ListboxItem} (atTop : top ∈ displayed items)
    (atSel : sel ∈ displayed items) :
    listboxSelMove fuel height ⟨items, some top, some sel, offset⟩ dist =
      (if dist = 0 then some (sel, offset)
      else traverseListboxItemsList fuel sel dist true (some calcDist) offset).bind fun found =>
        scrollToSel fuel height items top found.1 found.2 := by
  obtain ⟨first, found⟩ := displayed_first atTop
  have topVisible := displayed_visible atTop
  have selVisible := displayed_visible atSel
  simp only [listboxSelMove, found, Option.getD_some, topVisible, if_true, Option.bind_some, selVisible,
    Bool.true_eq_false, and_false, if_false]

section

variable {height offset dist : Int} {topPlace selPlace : Nat} {top sel : ListboxItem}

theorem selMove_back (atTop : (displayed items)[topPlace]? = some top) (atSel : (displayed items)[selPlace]? = some sel)
    (kept : Kept height ⟨items, some top, some sel, offset⟩) (upwards : dist < 0)
    (enough : (wholeOrder items).length ≤ fuel) :
    ∃ next, listboxSelMove fuel height ⟨items, some top, some sel, offset⟩ dist = some next ∧
      next.items = items ∧ Kept height next := by
  obtain ⟨difference, lower, upper⟩ := (kept_iff atTop atSel).mp kept
  obtain ⟨selBound, here⟩ := List.getElem?_eq_some_iff.mp atSel
  obtain ⟨count, rfl⟩ : ∃ count : Nat, dist = -count := ⟨dist.natAbs, by omega⟩
  obtain ⟨found, calls, extra, traversed, atFound, counted, single, beyond⟩ :=
    traverse_back counts_up selBound enough (show 0 < count by omega) offset
  rw [here, iterate_down] at traversed
  rw [listboxSelMove_eq (List.mem_of_getElem? atTop) (List.mem_of_getElem? atSel), if_neg (by omega), traversed,
    Option.bind_some, scrollToSel]
  by_cases above : offset - calls < 0
  · rw [if_pos above]
    exact ⟨_, rfl, rfl, (kept_iff atFound atFound).mpr (by omega)⟩
  · rw [if_neg above, if_neg (by omega)]
    exact ⟨_, rfl, rfl, (kept_iff atTop atFound).mpr (by omega)⟩

theorem selMove_forward (atTop : (displayed items)[topPlace]? = some top)
    (atSel : (displayed items)[selPlace]? = some sel) (kept : Kept height ⟨items, some top, some sel, offset⟩)
    (downwards : 0 < dist) (enough : (wholeOrder items).length ≤ fuel) :
    ∃ next, listboxSelMove fuel height ⟨items, some top, some sel, offset⟩ dist = some next ∧
      next.items = items ∧ (Kept height next ↔ FitsMove height ⟨items, some top, some sel, offset⟩ dist) := by
  obtain ⟨difference, lower, upper⟩ := (kept_iff atTop atSel).mp kept
  obtain ⟨selBound, here⟩ := List.getElem?_eq_some_iff.mp atSel
  obtain ⟨topBound, _⟩ := List.getElem?_eq_some_iff.mp atTop
  obtain ⟨count, rfl⟩ : ∃ count : Nat, dist = count := ⟨dist.toNat, by omega⟩
  have paced : if (count : Int) = 0 then (displayed items).length ≤ selPlace + count else (count : Int) = count := by
    rw [if_neg (by omega)]
  obtain ⟨found, calls, traversed, atFound, counted⟩ :=
    traverse_forward counts_down selBound enough (show 0 < count by omega) paced offset
  rw [here, iterate_up] at traversed
  rw [listboxSelMove_eq (List.mem_of_getElem? atTop) (List.mem_of_getElem? atSel), if_neg (by omega), traversed,
    Option.bind_some, scrollToSel, if_neg (by omega)]
  simp only [FitsMove, placeOf, idxOf_place atTop, idxOf_place atSel]
  by_cases below : height ≤ offset + calls
  · rw [if_pos below]
    obtain ⟨foundBound, there⟩ := List.getElem?_eq_some_iff.mp atFound
    by_cases single : height = 1
    · have paced : if 1 - height = 0 then (displayed items).length ≤
          min (selPlace + count) ((displayed items).length - 1) + (displayed items).length
          else 1 - height = (displayed items).length := by
        rw [if_pos (by omega)]
        omega
      obtain ⟨newTop, _, scrolled, atNewTop, _⟩ :=
        traverse_forward (counts_none (0 < ·)) foundBound enough (show 0 < (displayed items).length by omega) paced ()
      rw [there] at scrolled
      rw [scrolled]
      refine ⟨_, rfl, rfl, (kept_iff atNewTop atFound).trans ?_⟩
      split at counted <;> omega
    · obtain ⟨lines, tall⟩ : ∃ lines : Nat, height = lines + 1 := ⟨(height - 1).toNat, by omega⟩
      obtain ⟨newTop, _, _, scrolled, atNewTop, _⟩ :=
        traverse_back (counts_none (· < 0)) foundBound enough (show 0 < lines by omega) ()
      have up : 1 - height = -lines := by omega
      rw [there, ← up] at scrolled
      rw [scrolled]
      refine ⟨_, rfl, rfl, (kept_iff atNewTop atFound).trans ?_⟩
      split at counted <;> omega
  · rw [if_neg below]
    refine ⟨_, rfl, rfl, (kept_iff atTop atFound).trans ?_⟩
    split at counted <;> omega

theorem selMove_kept {box : ListboxData} (kept : Kept height box) (dist : Int) (enough : (wholeOrder box.items).length ≤ fuel) :
    ∃ next, listboxSelMove fuel height box dist = some next ∧ next.items = box.items ∧
      (Kept height next ↔ FitsMove height box dist) := by
  obtain ⟨items, _, _, offset⟩ := box
  obtain ⟨top, sel, rfl, rfl, topMember, selMember, _⟩ := id kept
  obtain ⟨topPlace, atTop⟩ := List.getElem?_of_mem topMember
  obtain ⟨selPlace, atSel⟩ := List.getElem?_of_mem selMember
  rcases Int.lt_trichotomy dist 0 with upwards | rfl | downwards
  · obtain ⟨next, moved, same, nextKept⟩ := selMove_back atTop atSel kept upwards enough
    exact ⟨next, moved, same, iff_of_true nextKept (.inl (by omega))⟩
  · obtain ⟨_, lower, upper⟩ := (kept_iff atTop atSel).mp kept
    refine ⟨_, ?_, rfl, iff_of_true kept (.inl (Int.le_refl 0))⟩
    rw [listboxSelMove_eq topMember selMember, if_pos rfl, Option.bind_some, scrollToSel, if_neg (by omega),
      if_neg (by omega)]
  · exact selMove_forward atTop atSel kept downwards enough

end

def opened (items : ItemList) : ListboxData := ⟨items, (displayed items).head?, (displayed items).head?, 0⟩

theorem opened_kept {height : Int} (nonempty : displayed items ≠ []) (line : 1 ≤ height) :
    Kept height (opened items) := by
  obtain ⟨first, rest, whole⟩ := List.exists_cons_of_ne_nil nonempty
  have atFirst : (displayed items)[0]? = some first := by rw [whole]; rfl
  have start : opened items = ⟨items, some first, some first, 0⟩ := by rw [opened, whole]; rfl
  rw [start]
  exact (kept_iff atFirst atFirst).mpr (by omega)

/-- Traversals go by the display order and stop at its ends; the selection and its offset agree with the order all
along a sequence of moves just when every move fits. -/
theorem listbox_follows_order {height : Int} (nonempty : displayed items ≠ []) (line : 1 ≤ height)
    (enough : (wholeOrder items).length ≤ fuel) :
    (∀ (place : Nat) (bound : place < (displayed items).length) (offset : Int), offset ≠ 0 →
      ∃ found, traverseListboxItemsList fuel (displayed items)[place] offset true none () = some (found, ()) ∧
        (displayed items)[(max 0 (min (place + offset) ((displayed items).length - 1))).toNat]? = some found) ∧
    ∀ dists, (∀ early, early <+: dists → ∃ box, Run.run (listboxSelMove fuel height) (opened items) early = some box ∧
        box.items = items ∧ Kept height box) ↔
      Run.Admitted (listboxSelMove fuel height) (FitsMove height) (opened items) dists := by
  constructor
  · intro place bound offset moving
    rcases Int.lt_or_gt_of_ne moving with upwards | downwards
    · obtain ⟨count, rfl⟩ : ∃ count : Nat, offset = -count := ⟨offset.natAbs, by omega⟩
      obtain ⟨found, calls, _, traversed, atFound, _⟩ :=
        traverse_back (counts_none (· < 0)) bound enough (show 0 < count by omega) ()
      have index : (max 0 (min (place + -(count : Int)) ((displayed items).length - 1))).toNat = place - count := by
        omega
      exact ⟨found, traversed, by rw [index, atFound]⟩
    · obtain ⟨count, rfl⟩ : ∃ count : Nat, offset = count := ⟨offset.toNat, by omega⟩
      obtain ⟨found, calls, traversed, atFound, _⟩ :=
        traverse_forward (counts_none (0 < ·)) bound enough (show 0 < count by omega) (by rw [if_neg moving]) ()
      have index : (max 0 (min (place + (count : Int)) ((displayed items).length - 1))).toNat =
          min (place + count) ((displayed items).length - 1) := by
        omega
      exact ⟨found, traversed, by rw [index, atFound]⟩
  · intro dists
    constructor
    · intro always
      refine Run.admitted_of_reached fun early dist later reached split ran => ?_
      obtain ⟨box, ranBox, same, kept⟩ := always early (split ▸ List.prefix_append early (dist :: later))
      obtain rfl : reached = box := Option.some.inj (ran.symm.trans ranBox)
      obtain ⟨next, moved, _, fits⟩ := selMove_kept kept dist (same ▸ enough)
      obtain ⟨after, ranAfter, _, keptAfter⟩ := always (early ++ [dist]) ⟨later, by
        rw [split, List.append_assoc]
        rfl⟩
      rw [Run.run_append, ran, Option.bind_some, Run.run_cons, moved, Option.bind_some, Run.run_nil] at ranAfter
      obtain rfl := Option.some.inj ranAfter
      exact fits.mp keptAfter
    · rintro admitted early ⟨later, rfl⟩
      have start : (opened items).items = items ∧ Kept height (opened items) := ⟨rfl, opened_kept nonempty line⟩
      refine Run.run_invariant (fun box => box.items = items ∧ Kept height box) ?_ start (Run.admitted_split admitted).1
      rintro box dist ⟨same, kept⟩ fits
      obtain ⟨next, moved, sameNext, keptNext⟩ := selMove_kept kept dist (same ▸ enough)
      exact ⟨next, moved, sameNext.trans same, keptNext.mpr fits⟩

/-- An open folder with a hidden item between two others, a closed folder and an item -/
def nestedItems : ItemList :=
  .item true true (.item true false .empty (.item false false .empty (.item true false .empty .empty)))
    (.item true false (.item true false .empty .empty) (.item true false .empty .empty))

theorem listbox_follows_order_nested :
    (∃ found, traverseListboxItemsList 6 (displayed nestedItems)[1] 2 true none () = some (found, ()) ∧
      (displayed nestedItems)[3]? = some found) ∧
    ∃ box, Run.run (listboxSelMove 6 3) (opened nestedItems) [2, 1, -3] = some box ∧ box.items = nestedItems ∧
      Kept 3 box := by
  have nonempty : displayed nestedItems ≠ [] := by decide
  have line : (1 : Int) ≤ 3 := by decide
  have enough : (wholeOrder nestedItems).length ≤ 6 := by decide
  have follows := listbox_follows_order nonempty line enough
  have second : (listboxSelMove 6 3 (opened nestedItems) 2).map (fun box => (box.items, placeOf box.items box.sel)) =
      some (nestedItems, 2) := by decide +kernel
  refine ⟨follows.1 1 (by decide) 2 (by decide), (follows.2 [2, 1, -3]).mpr ⟨?_, fun box moved => ⟨?_, fun _ _ =>
    ⟨.inl (by decide), fun _ _ => trivial⟩⟩⟩ _ (List.prefix_refl _)⟩
  · exact .inr (.inr ⟨by decide, .inl (by decide)⟩)
  · rw [moved, Option.map_some, Option.some.injEq, Prod.mk.injEq] at second
    rw [FitsMove, second.1, ← second.1, second.2, second.1]
    exact .inr (.inr ⟨by decide, .inl (by decide)⟩)

def twoItems : ItemList := .item true false .empty (.item true false .empty .empty)

/-- Five down in a box of five lines and two items: the last item is one below the first, not two. -/
theorem listbox_move_past_end :
    (listboxSelMove 2 5 (opened twoItems) 5).map (fun box =>
      (box.selOffset, placeOf twoItems box.sel - placeOf twoItems box.top)) = some (2, 1) := by
  decide +kernel

end KcnTools.Bfu
