import Mathlib.Data.List.Chain
import Mathlib.Data.List.Nodup

/-! Hierarchic list boxes (bfu/listbox.c). The items stand in circular lists below a list head, and a pointer to
an item is the item with all that its pointers lead to: the items before and behind it in its list, and the same
for the items that it is below. A NULL or the list head as `prev` and `next` is no item. -/

namespace KcnTools.Bfu

inductive ItemList where
  | empty
  | item (visible expanded : Bool) (child later : ItemList)
deriving DecidableEq

structure Sibling where
  visible : Bool
  expanded : Bool
  child : ItemList
deriving DecidableEq

/-- An item that another one is below: its child list is the one around that item. -/
structure Level where
  visible : Bool
  expanded : Bool
  earlier : List Sibling
  later : ItemList
deriving DecidableEq

/-- `struct listbox_item`; `earlier` has the nearest item first. -/
structure ListboxItem where
  visible : Bool
  expanded : Bool
  child : ItemList
  earlier : List Sibling
  later : ItemList
  above : List Level
deriving DecidableEq

def rewind : List Sibling → ItemList → ItemList
  | [], list => list
  | sibling :: earlier, list => rewind earlier (.item sibling.visible sibling.expanded sibling.child list)

def firstIn (list : ItemList) (earlier : List Sibling) (above : List Level) : Option ListboxItem :=
  match list with
  | .empty => none
  | .item visible expanded child later => some ⟨visible, expanded, child, earlier, later, above⟩

def ListboxItem.sibling (item : ListboxItem) : Sibling := ⟨item.visible, item.expanded, item.child⟩

def lastIn (item : ListboxItem) : ItemList → ListboxItem
  | .empty => item
  | .item visible expanded child later =>
    lastIn ⟨visible, expanded, child, item.sibling :: item.earlier, later, item.above⟩ later

namespace ListboxItem

def level (item : ListboxItem) : Level := ⟨item.visible, item.expanded, item.earlier, item.later⟩

def getRoot (item : ListboxItem) : Option ListboxItem :=
  match item.above with
  | [] => none
  | level :: above =>
    some ⟨level.visible, level.expanded,
      rewind item.earlier (.item item.visible item.expanded item.child item.later), level.earlier, level.later, above⟩

def next (item : ListboxItem) : Option ListboxItem := firstIn item.later (item.sibling :: item.earlier) item.above

def prev (item : ListboxItem) : Option ListboxItem :=
  match item.earlier with
  | [] => none
  | sibling :: earlier =>
    some ⟨sibling.visible, sibling.expanded, sibling.child, earlier,
      .item item.visible item.expanded item.child item.later, item.above⟩

def firstChild (item : ListboxItem) : Option ListboxItem := firstIn item.child [] (item.level :: item.above)

def lastChild (item : ListboxItem) : Option ListboxItem :=
  item.firstChild.map fun first => lastIn first first.later

def isOpen (followVisible : Bool) (item : ListboxItem) : Bool := item.expanded && (!followVisible || item.visible)

theorem getRoot_above {item root : ListboxItem} (found : item.getRoot = some root) :
    root.above.length < item.above.length := by
  rw [getRoot] at found
  split at found
  · contradiction
  next level above whole =>
    cases found
    rw [whole]
    exact Nat.lt_succ_self _

/-- The next item, or the one behind the nearest item above that is not the last in its list. -/
def climb (item : ListboxItem) : Option ListboxItem :=
  match item.next with
  | some next => some next
  | none =>
    match _found : item.getRoot with
    | some root => climb root
    | none => none
termination_by item.above.length
decreasing_by exact getRoot_above _found

end ListboxItem

theorem lastIn_child (item : ListboxItem) (list : ItemList) :
    sizeOf (lastIn item list).child ≤ sizeOf item.child + sizeOf list := by
  induction list generalizing item with
  | empty => exact Nat.le_add_right _ _
  | item visible expanded child later _ ih =>
    have bound := ih ⟨visible, expanded, child, item.sibling :: item.earlier, later, item.above⟩
    rw [lastIn, ItemList.item.sizeOf_spec]
    exact Nat.le_trans bound (by simp only; omega)

namespace ListboxItem

theorem lastChild_child {item last : ListboxItem} (found : item.lastChild = some last) :
    sizeOf last.child < sizeOf item.child := by
  rw [lastChild, firstChild] at found
  cases whole : item.child with
  | empty =>
    rw [whole] at found
    contradiction
  | item visible expanded child later =>
    rw [whole] at found
    cases found
    have bound := lastIn_child ⟨visible, expanded, child, [], later, item.level :: item.above⟩ later
    rw [ItemList.item.sizeOf_spec]
    dsimp only at bound ⊢
    omega

def descendLast (followVisible : Bool) (item : ListboxItem) : ListboxItem :=
  if item.isOpen followVisible then
    match _found : item.lastChild with
    | some last => descendLast followVisible last
    | none => item
  else item
termination_by sizeOf item.child
decreasing_by exact lastChild_child _found

/-- Where a step down leads. At the last item of all it leads nowhere: the climb falls back to where it began
(`cragsman`). -/
def down (followVisible : Bool) (item : ListboxItem) : Option ListboxItem :=
  (if item.isOpen followVisible then item.firstChild else none).or item.climb

def up (followVisible : Bool) (item : ListboxItem) : ListboxItem × Bool :=
  match item.prev, item.getRoot with
  | none, some root => (root, root.getRoot.isNone && root.prev.isNone)
  | none, none => (item, true)
  | some prev, _ => (prev.descendLast followVisible, false)

end ListboxItem

variable {δ : Type}

abbrev Callback (δ : Type) := ListboxItem → δ → Int → δ × Int

structure Traversal (δ : Type) where
  item : ListboxItem
  visibleItem : ListboxItem
  offset : Int
  stop : Bool
  infinite : Bool
  data : δ

def callFn (followVisible : Bool) (fn : Option (Callback δ)) (walk : Traversal δ) : Traversal δ :=
  match fn with
  | none => walk
  | some fn =>
    if !followVisible || walk.item.visible then
      let (data, offset) := fn walk.item walk.data walk.offset
      { walk with data := data, offset := offset }
    else walk

def arrive (followVisible : Bool) (back : Int) (walk : Traversal δ) : Traversal δ :=
  if followVisible && !walk.item.visible then { walk with offset := walk.offset + back }
  else { walk with visibleItem := walk.item }

def moveDown (followVisible : Bool) (walk : Traversal δ) : Traversal δ :=
  let offset := if walk.infinite then walk.offset else walk.offset - 1
  arrive followVisible 1 <|
    match walk.item.down followVisible with
    | some item => { walk with item := item, offset := offset }
    | none => { walk with stop := true, offset := offset }

def moveUp (followVisible : Bool) (walk : Traversal δ) : Traversal δ :=
  let offset := if walk.infinite then walk.offset else walk.offset + 1
  let (item, stop) := walk.item.up followVisible
  arrive followVisible (-1) { walk with item := item, stop := stop, offset := offset }

def traverseStep (followVisible : Bool) (fn : Option (Callback δ)) (walk : Traversal δ) : Traversal δ :=
  let walk := callFn followVisible fn walk
  if walk.offset = 0 then { walk with infinite := false }
  else if 0 < walk.offset then moveDown followVisible walk
  else moveUp followVisible walk

def traverseLoop (followVisible : Bool) (fn : Option (Callback δ)) : Nat → Traversal δ → Option (Traversal δ)
  | fuel, walk =>
    if walk.offset = 0 ∨ walk.stop = true then some walk
    else
      match fuel with
      | 0 => none
      | fuel + 1 => traverseLoop followVisible fn fuel (traverseStep followVisible fn walk)

def traverseListboxItemsList (fuel : Nat) (item : ListboxItem) (offset : Int) (followVisible : Bool)
    (fn : Option (Callback δ)) (data : δ) : Option (ListboxItem × δ) :=
  let infinite : Bool := decide (offset = 0)
  (traverseLoop followVisible fn fuel
    ⟨item, item, if infinite then 1 else offset, false, infinite, data⟩).map fun walk =>
      (walk.visibleItem, walk.data)

def calcDist : Callback Int := fun _ itemOffset offset =>
  (if offset < 0 then itemOffset - 1 else if 0 < offset then itemOffset + 1 else itemOffset, offset)

structure ListboxData where
  items : ItemList
  top : Option ListboxItem
  sel : Option ListboxItem
  selOffset : Int

def scrollToSel (fuel : Nat) (height : Int) (items : ItemList) (top sel : ListboxItem) (selOffset : Int) :
    Option ListboxData :=
  if selOffset < 0 then some ⟨items, some sel, some sel, 0⟩
  else if height ≤ selOffset then
    (traverseListboxItemsList fuel sel (1 - height) true none ()).map fun found =>
      ⟨items, some found.1, some sel, height - 1⟩
  else some ⟨items, some top, some sel, selOffset⟩

def listboxSelMove (fuel : Nat) (height : Int) (box : ListboxData) (dist : Int) : Option ListboxData :=
  match firstIn box.items [] [] with
  | none => some box
  | some first =>
    let top := box.top.getD first
    let sel := box.sel.getD top
    (if top.visible then some (top, sel)
    else (traverseListboxItemsList fuel top 1 true none ()).map fun found => (found.1, found.1)).bind fun (top, sel) =>
    let dist := if dist = 0 ∧ sel.visible = false then 1 else dist
    (if dist = 0 then some (sel, box.selOffset)
    else traverseListboxItemsList fuel sel dist true (some calcDist) box.selOffset).bind fun (sel, selOffset) =>
    scrollToSel fuel height box.items top sel selOffset

/-! The order of the items. -/

def listing : ItemList → List Sibling → List Level → List ListboxItem
  | .empty, _, _ => []
  | .item visible expanded child later, earlier, above =>
    ⟨visible, expanded, child, earlier, later, above⟩ ::
      ((if expanded && visible then listing child [] (⟨visible, expanded, earlier, later⟩ :: above) else []) ++
        listing later (⟨visible, expanded, child⟩ :: earlier) above)

def wholeOrder (items : ItemList) : List ListboxItem := listing items [] []

def shown (order : List ListboxItem) : List ListboxItem := order.filter fun item => item.visible

def displayed (items : ItemList) : List ListboxItem := shown (wholeOrder items)

namespace ListboxItem

def below (item : ListboxItem) : List ListboxItem :=
  if item.expanded && item.visible then listing item.child [] (item.level :: item.above) else []

def IsFirst (item : ListboxItem) : Prop := item.earlier = [] ∧ item.above = []

/-- A step down from the first item leads to the second one, and a step up leads back. -/
structure Linked (former latter : ListboxItem) : Prop where
  down : former.down true = some latter
  up : (latter.up true).1 = former
  last : (latter.up true).2 = true → former.IsFirst ∧ former.visible = true
  later : ¬ latter.IsFirst

end ListboxItem

open ListboxItem

theorem listing_item (visible expanded : Bool) (child later : ItemList) (earlier : List Sibling) (above : List Level) :
    listing (.item visible expanded child later) earlier above =
      ⟨visible, expanded, child, earlier, later, above⟩ ::
        (below ⟨visible, expanded, child, earlier, later, above⟩ ++
          listing later (⟨visible, expanded, child⟩ :: earlier) above) := rfl

theorem listing_head (list : ItemList) (earlier : List Sibling) (above : List Level) :
    (listing list earlier above).head? = firstIn list earlier above := by
  cases list <;> rfl

/-- Where the climb from the items of a list ends that stand behind the others: it goes on at the item above. -/
def exitOf (list : ItemList) (earlier : List Sibling) : List Level → Option ListboxItem
  | [] => none
  | level :: above =>
    climb ⟨level.visible, level.expanded, rewind earlier list, level.earlier, level.later, above⟩

theorem climb_eq (item : ListboxItem) :
    item.climb = item.next.or (exitOf item.later (item.sibling :: item.earlier) item.above) := by
  rw [climb]
  cases item.next with
  | some next => rfl
  | none =>
    obtain ⟨visible, expanded, child, earlier, later, above⟩ := item
    cases above <;> rfl

theorem exitOf_item (visible expanded : Bool) (child later : ItemList) (earlier : List Sibling) (above : List Level) :
    exitOf later (⟨visible, expanded, child⟩ :: earlier) above =
      exitOf (.item visible expanded child later) earlier above := by
  cases above <;> rfl

theorem below_head {item : ListboxItem} (opened : item.isOpen true = true) : item.below.head? = item.firstChild := by
  rw [below, if_pos (by simpa [isOpen] using opened), listing_head]
  rfl

theorem below_closed {item : ListboxItem} (closed : item.isOpen true = false) : item.below = [] :=
  if_neg (by simpa [isOpen] using closed)

theorem below_down {item : ListboxItem} : item.down true = item.below.head?.or item.climb := by
  rw [down]
  split
  next opened => rw [below_head opened]
  next closed =>
    rw [below_closed (Bool.eq_false_iff.mpr closed)]
    rfl

theorem descendLast_closed {item : ListboxItem} (none : item.below = []) : item.descendLast true = item := by
  rw [descendLast]
  split
  next opened =>
    have noChild : item.firstChild = .none := by rw [← below_head opened, none, List.head?_nil]
    split
    next last found =>
      rw [lastChild, noChild] at found
      contradiction
    · rfl
  · rfl

theorem descendLast_open {item first : ListboxItem} (opened : item.isOpen true = true)
    (found : item.firstChild = some first) :
    item.descendLast true = (lastIn first first.later).descendLast true := by
  have child : item.lastChild = some (lastIn first first.later) := by rw [lastChild, found, Option.map_some]
  conv_lhs => rw [descendLast]
  rw [if_pos opened]
  split
  next last whole => rw [Option.some.inj (whole.symm.trans child)]
  next none =>
    rw [child] at none
    contradiction

theorem below_getLast_of {item : ListboxItem}
    (children : ∀ first, item.firstChild = some first →
      (listing item.child [] (item.level :: item.above)).getLast? =
        some ((lastIn first first.later).descendLast true)) :
    (item :: item.below).getLast? = some (item.descendLast true) := by
  have single (none : item.below = []) : (item :: item.below).getLast? = some (item.descendLast true) := by
    rw [none, descendLast_closed none]
    rfl
  by_cases opened : item.isOpen true = true
  · have below : item.below = listing item.child [] (item.level :: item.above) :=
      if_pos (by simpa [isOpen] using opened)
    cases found : item.firstChild with
    | none => exact single (by rw [← List.head?_eq_none_iff, below_head opened, found])
    | some first =>
      rw [below, List.getLast?_cons, children first found, descendLast_open opened found]
      rfl
  · exact single (below_closed (Bool.eq_false_iff.mpr opened))

theorem listing_getLast {list : ItemList} {earlier : List Sibling} {above : List Level} {first : ListboxItem}
    (found : firstIn list earlier above = some first) :
    (listing list earlier above).getLast? = some ((lastIn first first.later).descendLast true) := by
  induction list generalizing earlier above first with
  | empty => contradiction
  | item visible expanded child later childIh laterIh =>
    obtain rfl := Option.some.inj found
    rw [listing_item]
    cases whole : later with
    | empty =>
      rw [listing, List.append_nil, lastIn]
      exact below_getLast_of fun first found => childIh found
    | item visible' expanded' child' later' =>
      have more := @laterIh (⟨visible, expanded, child⟩ :: earlier) above _ (by rw [whole]; rfl)
      rw [whole] at more
      rw [List.getLast?_cons, List.getLast?_append, more]
      rfl

theorem below_getLast (item : ListboxItem) : (item :: item.below).getLast? = some (item.descendLast true) :=
  below_getLast_of fun _ found => listing_getLast found

theorem below_last_of {item last : ListboxItem}
    (children : ∀ last, (listing item.child [] (item.level :: item.above)).getLast? = some last →
      last.down true = item.climb)
    (found : (item :: item.below).getLast? = some last) : last.down true = item.climb := by
  cases below : item.below with
  | nil =>
    rw [below] at found
    have same : item = last := Option.some.inj found
    rw [← same, below_down, below]
    rfl
  | cons first rest =>
    have opened : item.isOpen true = true := by
      by_contra closed
      rw [below_closed (Bool.eq_false_iff.mpr closed)] at below
      contradiction
    have listed : item.below = listing item.child [] (item.level :: item.above) :=
      if_pos (by simpa [isOpen] using opened)
    rw [below, List.getLast?_cons_cons, ← below, listed] at found
    exact children last found

theorem listing_last {list : ItemList} {earlier : List Sibling} {above : List Level} {last : ListboxItem}
    (found : (listing list earlier above).getLast? = some last) : last.down true = exitOf list earlier above := by
  induction list generalizing earlier above last with
  | empty => contradiction
  | item visible expanded child later childIh laterIh =>
    rw [listing_item, ← List.cons_append] at found
    rw [← exitOf_item]
    cases more : (listing later (⟨visible, expanded, child⟩ :: earlier) above).getLast? with
    | some item =>
      rw [List.getLast?_append, more, Option.some_or] at found
      exact laterIh (more.trans found)
    | none =>
      rw [List.getLast?_append, more, Option.none_or] at found
      have climbed := below_last_of (fun last found => childIh found) found
      rw [List.getLast?_eq_none_iff, ← List.head?_eq_none_iff, listing_head] at more
      have noNext : next ⟨visible, expanded, child, earlier, later, above⟩ = none := more
      rw [climbed, climb_eq, noNext, Option.none_or]
      rfl

theorem below_last {item last : ListboxItem} (found : (item :: item.below).getLast? = some last) :
    last.down true = item.climb :=
  below_last_of (fun _ found => listing_last found) found

theorem firstIn_prev {list : ItemList} {earlier : List Sibling} {above : List Level} {item : ListboxItem}
    (found : firstIn list earlier above = some item) : item.earlier = earlier ∧ item.above = above := by
  cases list with
  | empty => contradiction
  | item =>
    obtain rfl := Option.some.inj found
    exact ⟨rfl, rfl⟩

theorem linked_child {item child : ListboxItem} (found : item.below.head? = some child) : Linked item child := by
  have opened : item.isOpen true = true := by
    by_contra closed
    rw [below_closed (Bool.eq_false_iff.mpr closed)] at found
    contradiction
  have down : item.down true = some child := by rw [below_down, found, Option.some_or]
  rw [below_head opened, firstChild] at found
  have root : child.getRoot = some item := by
    cases whole : item.child with
    | empty =>
      rw [whole] at found
      contradiction
    | item =>
      rw [whole] at found
      obtain rfl := Option.some.inj found
      rw [getRoot]
      dsimp only [level, rewind]
      rw [← whole]
  have noPrev : child.prev = none := by rw [prev, (firstIn_prev found).1]
  have up : child.up true = (item, item.getRoot.isNone && item.prev.isNone) := by rw [ListboxItem.up, noPrev, root]
  refine ⟨down, by rw [up], ?_, ?_⟩
  · rw [up, Bool.and_eq_true, Option.isNone_iff_eq_none, Option.isNone_iff_eq_none]
    rintro ⟨noRoot, noPrev⟩
    refine ⟨⟨?_, ?_⟩, by simpa [isOpen] using (Bool.and_eq_true _ _ ▸ opened).2⟩
    · cases whole : item.earlier with
      | nil => rfl
      | cons =>
        rw [prev, whole] at noPrev
        contradiction
    · cases whole : item.above with
      | nil => rfl
      | cons =>
        rw [getRoot, whole] at noRoot
        contradiction
  · rintro ⟨_, above⟩
    rw [(firstIn_prev found).2] at above
    contradiction

theorem linked_next {item next last : ListboxItem} (found : item.next = some next)
    (below : (item :: item.below).getLast? = some last) (down : last.down true = item.climb) : Linked last next := by
  have prev : next.prev = some item := by
    rw [ListboxItem.next] at found
    cases whole : item.later with
    | empty =>
      rw [whole] at found
      contradiction
    | item =>
      rw [whole] at found
      obtain rfl := Option.some.inj found
      rw [ListboxItem.prev]
      dsimp only [sibling]
      rw [← whole]
  rw [below_getLast, Option.some.injEq] at below
  have up : next.up true = (last, false) := by rw [ListboxItem.up, prev, ← below]
  refine ⟨by rw [down, climb_eq, found, Option.some_or], by rw [up], ?_, ?_⟩
  · rw [up]
    intro contra
    contradiction
  · rintro ⟨earlier, _⟩
    rw [(firstIn_prev found).1] at earlier
    contradiction

theorem listing_linked (list : ItemList) (earlier : List Sibling) (above : List Level) :
    (listing list earlier above).IsChain Linked := by
  induction list generalizing earlier above with
  | empty => exact List.IsChain.nil
  | item visible expanded child later childIh laterIh =>
    rw [listing_item, ← List.cons_append, List.isChain_append]
    refine ⟨?_, laterIh _ _, ?_⟩
    · rw [List.isChain_cons]
      refine ⟨fun child found => linked_child found, ?_⟩
      rw [below]
      split
      · exact childIh _ _
      · exact List.IsChain.nil
    · intro last found follower first
      rw [listing_head] at first
      have steps : next ⟨visible, expanded, child, earlier, later, above⟩ = some follower := first
      exact linked_next steps found (below_last found)

/-! Walks along a list whose items are linked. -/

def Ends (order : List ListboxItem) : Prop := ∀ last, order.getLast? = some last → last.down true = none

theorem Ends.tail {item : ListboxItem} {order : List ListboxItem} (ends : Ends (item :: order)) : Ends order := by
  intro last found
  cases order with
  | nil => contradiction
  | cons => exact ends last found

/-- A step down is a function, so the items behind an item are always the same. -/
theorem linked_unique {item : ListboxItem} {first second : List ListboxItem}
    (chain : (item :: first).IsChain Linked) (ends : Ends (item :: first))
    (otherChain : (item :: second).IsChain Linked) (otherEnds : Ends (item :: second)) : first = second := by
  induction first generalizing item second with
  | nil =>
    cases second with
    | nil => rfl
    | cons other second =>
      have down := ends item rfl
      rw [(List.isChain_cons_cons.mp otherChain).1.down] at down
      contradiction
  | cons next first ih =>
    have link := (List.isChain_cons_cons.mp chain)
    cases second with
    | nil =>
      have down := otherEnds item rfl
      rw [link.1.down] at down
      contradiction
    | cons other second =>
      have otherLink := List.isChain_cons_cons.mp otherChain
      obtain rfl : next = other := Option.some.inj (link.1.down.symm.trans otherLink.1.down)
      rw [ih link.2 ends.tail otherLink.2 otherEnds.tail]

theorem linked_nodup {order : List ListboxItem} (chain : order.IsChain Linked) (ends : Ends order) :
    order.Nodup := by
  induction order with
  | nil => exact List.nodup_nil
  | cons item order ih =>
    have shorter : order.IsChain Linked := (List.isChain_cons.mp chain).2
    refine List.nodup_cons.mpr ⟨fun member => ?_, ih shorter ends.tail⟩
    obtain ⟨front, back, split⟩ := List.append_of_mem member
    have again : (item :: back).IsChain Linked := by
      rw [split, List.isChain_append] at shorter
      exact shorter.2.1
    have endsAgain : Ends (item :: back) := by
      intro last found
      apply ends
      rw [split, List.getLast?_cons, List.getLast?_append, found]
      rfl
    have same := linked_unique chain ends again endsAgain
    have length := congrArg List.length (split.symm.trans same)
    rw [List.length_append, List.length_cons] at length
    omega

theorem wholeOrder_linked (items : ItemList) : (wholeOrder items).IsChain Linked := listing_linked items [] []

theorem wholeOrder_ends (items : ItemList) : Ends (wholeOrder items) := fun _ found => listing_last found

theorem displayed_nodup (items : ItemList) : (displayed items).Nodup :=
  (linked_nodup (wholeOrder_linked items) (wholeOrder_ends items)).filter _

end KcnTools.Bfu
