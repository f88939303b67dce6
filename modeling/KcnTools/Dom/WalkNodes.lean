import KcnTools.Dom.DomStack
import KcnTools.Lib.TreeWalk
import Mathlib.Data.List.Basic

/-! The walk over a DOM tree (`walk_dom_nodes` of dom/stack.c), with the arrays of the stack and of the state
objects as they are grown, reused and cleared. Nodes and node lists are known by their addresses. The stack keeps
its nodes (DOM_STACK_KEEP_NODES), and memory can be had. -/

namespace KcnTools.Dom.Walk

open TreeWalk

inductive DomNodeType where
  | element
  | attributeNode
  | text
  | cdataSection
  | entityReference
  | entity
  | processingInstruction
  | comment
  | document
  | documentType
  | documentFragment
  | notationDecl
deriving DecidableEq

structure DomNode where
  type : DomNodeType
  children : Option Nat
  map : Option Nat
  entities : Option Nat
  notations : Option Nat

structure Heap where
  node : Nat → DomNode
  /-- The entries of a `struct dom_node_list` -/
  list : Nat → List Nat

structure StackState where
  node : Nat
  depth : Nat
  immutable : Bool
deriving DecidableEq

structure WalkState where
  list : Option Nat
  index : Nat
deriving DecidableEq

def StackState.zero : StackState := ⟨0, 0, false⟩

def WalkState.zero : WalkState := ⟨none, 0⟩

structure ContextInfo where
  push : DomNodeType → Bool
  pop : DomNodeType → Bool

/-- A call of a callback; its data is the state object of the context at `depth`. -/
structure Call where
  context : Nat
  action : StackAction
  node : Nat
  depth : Nat

/-- The stack with the state objects of the context of the walk, and the calls made so far -/
structure Stack where
  states : List StackState
  depth : Nat
  objects : List WalkState
  calls : List Call

def alignMemorySize (x : Nat) : Nat := (x + 7) / 8 * 8

/-- `mem_align_alloc__` from `old` to one entry more; the block holds the entries up to the old size. -/
def memAlignAlloc {α : Type} (zero : α) (block : List α) (old : Nat) : List α :=
  let newsize := alignMemorySize (old + 1)
  let oldsize := alignMemorySize old
  if oldsize < newsize then block.take oldsize ++ List.replicate (newsize - oldsize) zero else block

variable (heap : Heap) (contexts : List ContextInfo)

def ContextInfo.has (info : ContextInfo) (action : StackAction) (type : DomNodeType) : Bool :=
  match action with
  | .push => info.push type
  | .pop => info.pop type

def callDomStackCallbacks (action : StackAction) (state : StackState) : List Call :=
  contexts.zipIdx.filterMap fun (info, context) =>
    if info.has action (heap.node state.node).type then some ⟨context, action, state.node, state.depth⟩ else none

def getDomStackTop (stack : Stack) : StackState := stack.states.getD (stack.depth - 1) StackState.zero

def getDomStackStateData (stack : Stack) (state : StackState) : WalkState :=
  stack.objects.getD state.depth WalkState.zero

/-- `none` for NULL: the stack is then as it was. -/
def pushDomNode (stack : Stack) (node : Nat) : Option Stack :=
  if stack.depth > domStackMaxDepth then none
  else
    let states := memAlignAlloc StackState.zero stack.states stack.depth
    let objects := memAlignAlloc WalkState.zero stack.objects stack.depth
    let state := { states.getD stack.depth StackState.zero with depth := stack.depth, node := node }
    some
      { states := states.set stack.depth state
        depth := stack.depth + 1
        objects := objects
        calls := stack.calls ++ callDomStackCallbacks heap contexts .push state }

def popDomNode (stack : Stack) : Stack :=
  if stack.depth = 0 then stack
  else
    let state := getDomStackTop stack
    if state.immutable then stack
    else
      { states := stack.states.set (stack.depth - 1) StackState.zero
        depth := stack.depth - 1
        objects := stack.objects.set state.depth WalkState.zero
        calls := stack.calls ++ callDomStackCallbacks heap contexts .pop state }

def isDomNodeListMember (list : Option Nat) (index : Nat) : Bool :=
  match list with
  | none => false
  | some list => decide (index < (heap.list list).length)

def walkList (node : DomNode) (wstate : WalkState) : Option Nat :=
  match node.type with
  | .document => if wstate.list.isNone then node.children else wstate.list
  | .element =>
    let list := if wstate.list.isNone then node.map else wstate.list
    if list = node.children then list
    else if isDomNodeListMember heap list wstate.index ∧ list = node.map then list
    else node.children
  | .processingInstruction => if wstate.list.isNone then node.map else wstate.list
  | .documentType =>
    let list := if wstate.list.isNone then node.entities else wstate.list
    if list = node.notations then list
    else if isDomNodeListMember heap list wstate.index ∧ list = node.entities then list
    else node.notations
  | _ => wstate.list

def WalkState.next (wstate : WalkState) : Option Nat :=
  match wstate.list with
  | none => none
  | some list => (heap.list list)[wstate.index]?

def WalkState.settle (wstate : WalkState) (node : DomNode) : WalkState :=
  let list := walkList heap node wstate
  if list ≠ wstate.list then ⟨list, 0⟩ else wstate

def walkStep (stack : Stack) : Stack :=
  let state := getDomStackTop stack
  let wstate := getDomStackStateData stack state
  let wstate := wstate.settle heap (heap.node state.node)
  match wstate.next heap with
  | some child =>
    let stack := { stack with objects := stack.objects.set state.depth { wstate with index := wstate.index + 1 } }
    match pushDomNode heap contexts stack child with
    | some stack => stack
    | none => popDomNode heap contexts stack
  | none => popDomNode heap contexts { stack with objects := stack.objects.set state.depth wstate }

def walkLoop : Nat → Stack → Option Stack
  | 0, _ => none
  | fuel + 1, stack => if stack.depth = 0 then some stack else walkLoop fuel (walkStep heap contexts stack)

def walkDomNodes (fuel : Nat) (stack : Stack) (root : Nat) : Option Stack :=
  let stack := { stack with objects := [] }
  let stack := (pushDomNode heap contexts stack root).getD stack
  (walkLoop heap contexts fuel stack).map fun stack => { stack with objects := [] }

/-! ### The order of the nodes -/

def DomNode.firstList (node : DomNode) : Option Nat :=
  match node.type with
  | .document => node.children
  | .element => node.map
  | .processingInstruction => node.map
  | .documentType => node.entities
  | _ => none

def DomNode.secondList (node : DomNode) : Option Nat :=
  match node.type with
  | .element => node.children
  | .documentType => node.notations
  | _ => none

def Heap.entries (list : Option Nat) : List Nat :=
  match list with
  | none => []
  | some list => heap.list list

def Heap.children (node : Nat) : List Nat :=
  heap.entries (heap.node node).firstList ++ heap.entries (heap.node node).secondList

def visitCalls (visit : Visit Nat) : List Call :=
  callDomStackCallbacks heap contexts (if visit.leaving then .pop else .push) ⟨visit.node, visit.level, false⟩

variable {heap contexts}

theorem walkList_eq (node : DomNode) (wstate : WalkState) :
    walkList heap node wstate =
      if wstate.list.or node.firstList = node.secondList then node.secondList
      else if node.secondList = none ∧ node.type ≠ .element ∧ node.type ≠ .documentType ∨
        isDomNodeListMember heap (wstate.list.or node.firstList) wstate.index ∧
          wstate.list.or node.firstList = node.firstList then wstate.list.or node.firstList
      else node.secondList := by
  obtain ⟨type, children, map, entities, notations⟩ := node
  obtain ⟨list, index⟩ := wstate
  cases type <;> cases list <;> simp [walkList, DomNode.firstList, DomNode.secondList] <;> grind

def Walking (heap : Heap) (node : DomNode) (wstate : WalkState) (rest : List Nat) : Prop :=
  wstate = WalkState.zero ∧ rest = heap.entries node.firstList ++ heap.entries node.secondList ∨
  (∃ list, wstate.list = some list ∧ node.firstList = some list ∧ node.secondList ≠ some list ∧
    rest = (heap.list list).drop wstate.index ++ heap.entries node.secondList) ∨
  ∃ list, wstate.list = some list ∧ node.secondList = some list ∧ rest = (heap.list list).drop wstate.index

/-- The walk state shows the first of the nodes that are left, and the others come after it. -/
def Shows (heap : Heap) (node : DomNode) (wstate : WalkState) : List Nat → Prop
  | [] => wstate.next heap = none
  | child :: rest => wstate.next heap = some child ∧ Walking heap node { wstate with index := wstate.index + 1 } rest

theorem walking_start (node : Nat) : Walking heap (heap.node node) WalkState.zero (heap.children node) :=
  Or.inl ⟨rfl, rfl⟩

theorem shows_second (node : DomNode) : Shows heap node ⟨node.secondList, 0⟩ (heap.entries node.secondList) := by
  cases second : node.secondList with
  | none => rfl
  | some list =>
    cases entries : heap.list list with
    | nil => simp [Heap.entries, entries, Shows, WalkState.next]
    | cons child rest =>
      rw [Heap.entries, entries]
      refine ⟨by simp [WalkState.next, entries], Or.inr (Or.inr ⟨list, rfl, second, ?_⟩)⟩
      simp [entries]

theorem shows_first {node : DomNode} {list index : Nat} (first : node.firstList = some list)
    (apart : node.secondList ≠ some list) (inside : index < (heap.list list).length) :
    Shows heap node ⟨some list, index⟩ ((heap.list list).drop index ++ heap.entries node.secondList) := by
  rw [List.drop_eq_getElem_cons inside, List.cons_append]
  exact ⟨by simp [WalkState.next, inside], Or.inr (Or.inl ⟨list, rfl, first, apart, rfl⟩)⟩

theorem entries_nil {list : Option Nat} (absent : ¬ isDomNodeListMember heap list 0 = true) : heap.entries list = [] := by
  cases list with
  | none => rfl
  | some list =>
    simp only [isDomNodeListMember, decide_eq_true_eq, Nat.not_lt, Nat.le_zero_eq] at absent
    exact List.length_eq_zero_iff.mp absent

theorem settle_same {node : DomNode} {wstate : WalkState} (same : walkList heap node wstate = wstate.list) :
    wstate.settle heap node = wstate := by
  rw [WalkState.settle]
  exact if_neg fun different => different same

theorem settle_reset {node : DomNode} {wstate : WalkState} (reset : walkList heap node wstate ≠ wstate.list) :
    wstate.settle heap node = ⟨walkList heap node wstate, 0⟩ := by
  rw [WalkState.settle]
  exact if_pos reset

theorem settle_zero (node : DomNode) :
    WalkState.zero.settle heap node = ⟨walkList heap node WalkState.zero, 0⟩ := by
  by_cases same : walkList heap node WalkState.zero = none
  · rw [settle_same same, same]
    rfl
  · rw [settle_reset same]

theorem shows_none {node : DomNode} {list : Option Nat} {index : Nat}
    (absent : ¬ isDomNodeListMember heap list index = true) : Shows heap node ⟨list, index⟩ [] := by
  cases list with
  | none => rfl
  | some list =>
    simp only [isDomNodeListMember, decide_eq_true_eq, Nat.not_lt] at absent
    exact List.getElem?_eq_none absent

/-- Which list a node is in is found out by comparing pointers; two lists that were one have to be empty. -/
theorem walking_settle {node : DomNode} {wstate : WalkState} {rest : List Nat}
    (apart : ∀ list, node.firstList = some list → node.secondList = some list → heap.list list = [])
    (walking : Walking heap node wstate rest) : Shows heap node (wstate.settle heap node) rest := by
  rcases walking with ⟨rfl, rfl⟩ | ⟨list, at_first, first, other, rfl⟩ | ⟨list, at_second, second, rfl⟩
  · have start : WalkState.zero.list.or node.firstList = node.firstList := Option.none_or
    rw [settle_zero, walkList_eq, start]
    by_cases one : node.firstList = node.secondList
    · have empty : heap.entries node.firstList = [] := by
        cases first : node.firstList with
        | none => rfl
        | some list => exact apart list first (one ▸ first)
      rw [if_pos one, empty, List.nil_append]
      exact shows_second node
    · rw [if_neg one]
      by_cases member : isDomNodeListMember heap node.firstList 0 = true
      · rw [if_pos (Or.inr ⟨member, rfl⟩)]
        cases first : node.firstList with
        | none => rw [first] at member; exact absurd member (by simp [isDomNodeListMember])
        | some list =>
          rw [first] at member one
          exact shows_first first (fun second => one second.symm) (of_decide_eq_true member)
      · rw [entries_nil member, List.nil_append]
        by_cases single : node.secondList = none ∧ node.type ≠ .element ∧ node.type ≠ .documentType
        · rw [if_pos (Or.inl single), single.1]
          exact shows_none member
        · rw [if_neg (not_or.mpr ⟨single, fun both => member both.1⟩)]
          exact shows_second node
  · obtain ⟨_, index⟩ := wstate
    subst at_first
    have here : (some list).or node.firstList = some list := Option.some_or
    have listed := @walkList_eq heap node ⟨some list, index⟩
    rw [here, if_neg other.symm] at listed
    by_cases member : isDomNodeListMember heap (some list) index = true
    · rw [if_pos (Or.inr ⟨member, first.symm⟩)] at listed
      rw [settle_same listed]
      exact shows_first first other (of_decide_eq_true member)
    · have done : (heap.list list).drop index = [] := by
        simp only [isDomNodeListMember, decide_eq_true_eq, Nat.not_lt] at member
        exact List.drop_eq_nil_of_le member
      rw [done, List.nil_append]
      by_cases single : node.secondList = none ∧ node.type ≠ .element ∧ node.type ≠ .documentType
      · rw [if_pos (Or.inl single)] at listed
        rw [settle_same listed, single.1]
        exact shows_none member
      · rw [if_neg (not_or.mpr ⟨single, fun both => member both.1⟩)] at listed
        rw [settle_reset (by rw [listed]; exact other), listed]
        exact shows_second node
  · obtain ⟨_, index⟩ := wstate
    subst at_second
    have listed := @walkList_eq heap node ⟨some list, index⟩
    rw [show (some list).or node.firstList = some list from Option.some_or, if_pos second.symm] at listed
    rw [settle_same (listed.trans second)]
    by_cases inside : index < (heap.list list).length
    · rw [List.drop_eq_getElem_cons inside]
      exact ⟨List.getElem?_eq_getElem inside, Or.inr (Or.inr ⟨list, rfl, second, rfl⟩)⟩
    · rw [List.drop_eq_nil_of_le (Nat.not_lt.mp inside)]
      exact List.getElem?_eq_none (Nat.not_lt.mp inside)

/-! ### The arrays of the stack -/

/-- An array is a front that is in use, and what is cleared behind it, as far as memory was had for the front. -/
def Cleared {α : Type} (zero : α) (block front : List α) : Prop :=
  ∃ spare, block = front ++ List.replicate spare zero ∧ alignMemorySize front.length ≤ front.length + spare

theorem memAlignAlloc_cleared {α : Type} {zero : α} {block front : List α} (cleared : Cleared zero block front) :
    Cleared zero (memAlignAlloc zero block front.length) (front ++ [zero]) := by
  obtain ⟨spare, rfl, enough⟩ := cleared
  rw [Cleared, memAlignAlloc, List.length_append, List.length_singleton]
  by_cases grows : alignMemorySize front.length < alignMemorySize (front.length + 1)
  · have aligned : alignMemorySize front.length = front.length := by
      rw [alignMemorySize, alignMemorySize] at grows
      rw [alignMemorySize]
      omega
    have block : alignMemorySize (front.length + 1) = front.length + 8 := by
      rw [alignMemorySize] at aligned ⊢
      omega
    rw [if_pos grows, aligned, List.take_left, block, Nat.add_sub_cancel_left]
    refine ⟨7, ?_, by omega⟩
    rw [List.append_assoc]
    rfl
  · rw [if_neg grows]
    rw [alignMemorySize] at enough
    rw [alignMemorySize, alignMemorySize] at grows
    obtain ⟨more, rfl⟩ : ∃ more, spare = more + 1 := ⟨spare - 1, by omega⟩
    refine ⟨more, ?_, by rw [alignMemorySize]; omega⟩
    rw [List.append_assoc, List.replicate_succ, List.singleton_append]

theorem Cleared.set {α : Type} {zero : α} {block front : List α} {last : α}
    (cleared : Cleared zero block (front ++ [last])) (value : α) :
    Cleared zero (block.set front.length value) (front ++ [value]) := by
  obtain ⟨spare, rfl, enough⟩ := cleared
  refine ⟨spare, ?_, by simpa using enough⟩
  simp

theorem Cleared.clear {α : Type} {zero : α} {block front : List α} {last : α}
    (cleared : Cleared zero block (front ++ [last])) :
    Cleared zero (block.set front.length zero) front := by
  obtain ⟨spare, rfl, enough⟩ := cleared
  simp only [Cleared, alignMemorySize, List.length_append, List.length_singleton] at enough ⊢
  refine ⟨spare + 1, ?_, by omega⟩
  simp [List.replicate_succ]

theorem Cleared.last {α : Type} {zero : α} {block front : List α} {last : α}
    (cleared : Cleared zero block (front ++ [last])) : block.getD front.length zero = last := by
  obtain ⟨spare, rfl, _⟩ := cleared
  simp [List.getD_eq_getElem?_getD]

abbrev Frames := List (Nat × WalkState)

def Frames.states (frames : Frames) : List StackState := frames.mapIdx fun depth frame => ⟨frame.1, depth, false⟩

def Frames.objects (frames : Frames) : List WalkState := frames.map (·.2)

structure Shape (stack : Stack) (frames : Frames) : Prop where
  depth : stack.depth = frames.length
  states : Cleared StackState.zero stack.states frames.states
  objects : Cleared WalkState.zero stack.objects frames.objects

@[simp] theorem Frames.states_length (frames : Frames) : frames.states.length = frames.length := List.length_mapIdx

@[simp] theorem Frames.objects_length (frames : Frames) : frames.objects.length = frames.length := List.length_map _

theorem Frames.states_append (frames : Frames) (node : Nat) (wstate : WalkState) :
    Frames.states (frames ++ [(node, wstate)]) = frames.states ++ [⟨node, frames.length, false⟩] := by
  simp [Frames.states, List.mapIdx_append]

theorem Frames.objects_append (frames : Frames) (node : Nat) (wstate : WalkState) :
    Frames.objects (frames ++ [(node, wstate)]) = frames.objects ++ [wstate] := by
  simp [Frames.objects]

variable {stack : Stack} {frames : Frames} {node : Nat} {wstate : WalkState}

theorem Shape.top (shape : Shape stack (frames ++ [(node, wstate)])) :
    stack.depth = frames.length + 1 ∧ getDomStackTop stack = ⟨node, frames.length, false⟩ ∧
      getDomStackStateData stack ⟨node, frames.length, false⟩ = wstate := by
  obtain ⟨depth, states, objects⟩ := shape
  rw [List.length_append, List.length_singleton] at depth
  rw [Frames.states_append] at states
  rw [Frames.objects_append] at objects
  refine ⟨depth, ?_, ?_⟩
  · have top := states.last
    rw [frames.states_length] at top
    rw [getDomStackTop, depth, Nat.add_sub_cancel]
    exact top
  · have top := objects.last
    rwa [frames.objects_length] at top

theorem Shape.setTop (shape : Shape stack (frames ++ [(node, wstate)])) (other : WalkState) :
    Shape { stack with objects := stack.objects.set frames.length other } (frames ++ [(node, other)]) := by
  obtain ⟨depth, states, objects⟩ := shape
  rw [Frames.objects_append] at objects
  refine ⟨by simpa using depth, by simpa [Frames.states_append] using states, ?_⟩
  rw [Frames.objects_append, ← frames.objects_length]
  exact objects.set other

theorem Shape.push (shape : Shape stack frames) (shallow : frames.length ≤ domStackMaxDepth) (node : Nat) :
    ∃ pushed, pushDomNode heap contexts stack node = some pushed ∧
      Shape pushed (frames ++ [(node, WalkState.zero)]) ∧
      pushed.calls = stack.calls ++ visitCalls heap contexts ⟨false, node, frames.length⟩ := by
  obtain ⟨depth, states, objects⟩ := shape
  have grownStates := memAlignAlloc_cleared states
  have grownObjects := memAlignAlloc_cleared objects
  rw [frames.states_length] at grownStates
  rw [frames.objects_length] at grownObjects
  have fresh := grownStates.last
  rw [frames.states_length] at fresh
  rw [pushDomNode, depth, if_neg (by omega)]
  refine ⟨_, rfl, ⟨by simp, ?_, ?_⟩, ?_⟩
  · have placed := grownStates.set ⟨node, frames.length, false⟩
    rw [frames.states_length] at placed
    rw [Frames.states_append, fresh]
    exact placed
  · rw [Frames.objects_append]
    exact grownObjects
  · simp only [fresh]
    rfl

theorem Shape.pop (shape : Shape stack (frames ++ [(node, wstate)])) :
    Shape (popDomNode heap contexts stack) frames ∧
      (popDomNode heap contexts stack).calls = stack.calls ++ visitCalls heap contexts ⟨true, node, frames.length⟩ := by
  obtain ⟨depth, top, _⟩ := shape.top
  obtain ⟨_, states, objects⟩ := shape
  rw [Frames.states_append] at states
  rw [Frames.objects_append] at objects
  have restStates := states.clear
  have restObjects := objects.clear
  rw [frames.states_length] at restStates
  rw [frames.objects_length] at restObjects
  rw [popDomNode, if_neg (by omega), top, depth]
  exact ⟨⟨rfl, restStates, restObjects⟩, rfl⟩

/-! ### The walk -/

def Reaches (heap : Heap) (contexts : List ContextInfo) (stack after : Stack) : Prop :=
  ∃ turns, ∀ fuel, walkLoop heap contexts (turns + fuel) stack = walkLoop heap contexts fuel after

theorem Reaches.trans {first second third : Stack} (early : Reaches heap contexts first second)
    (late : Reaches heap contexts second third) : Reaches heap contexts first third := by
  obtain ⟨m, early⟩ := early
  obtain ⟨n, late⟩ := late
  refine ⟨m + n, fun fuel => ?_⟩
  rw [Nat.add_assoc, early, late]

theorem Reaches.step (open_ : stack.depth ≠ 0) : Reaches heap contexts stack (walkStep heap contexts stack) := by
  refine ⟨1, fun fuel => ?_⟩
  rw [Nat.add_comm, walkLoop, if_neg open_]

/-- A tree of nodes: within the depth, and without a node at two places -/
structure IsTree (heap : Heap) (depth root : Nat) : Prop where
  within : Within heap.children depth root
  distinct : (preorder heap.children depth root).Nodup

theorem IsTree.child {depth root child : Nat} (tree : IsTree heap (depth + 1) root)
    (member : child ∈ heap.children root) : IsTree heap depth child :=
  ⟨tree.within.child member, nodup_child tree.distinct member⟩

theorem IsTree.apart {depth root : Nat} (tree : IsTree heap (depth + 1) root) (list : Nat)
    (first : (heap.node root).firstList = some list) (second : (heap.node root).secondList = some list) :
    heap.list list = [] := by
  have distinct := tree.within.nodup_children tree.distinct
  rw [Heap.children, first, second, List.nodup_append] at distinct
  apply List.eq_nil_iff_forall_not_mem.mpr
  intro entry member
  exact distinct.2.2 entry member entry member rfl

def restCalls (heap : Heap) (contexts : List ContextInfo) (depth level node : Nat) (rest : List Nat) : List Call :=
  (rest.flatMap (visits heap.children depth (level + 1))).flatMap (visitCalls heap contexts) ++
    visitCalls heap contexts ⟨true, node, level⟩

theorem visits_calls (depth level node : Nat) :
    (visits heap.children (depth + 1) level node).flatMap (visitCalls heap contexts) =
      visitCalls heap contexts ⟨false, node, level⟩ ++
        restCalls heap contexts depth level node (heap.children node) := by
  simp [visits, restCalls, List.flatMap_append]

theorem restCalls_cons (depth level node child : Nat) (rest : List Nat) :
    restCalls heap contexts depth level node (child :: rest) =
      (visits heap.children depth (level + 1) child).flatMap (visitCalls heap contexts) ++
        restCalls heap contexts depth level node rest := by
  simp only [restCalls, List.flatMap_cons, List.flatMap_append, List.append_assoc]

theorem walkStep_pop (shape : Shape stack (frames ++ [(node, wstate)]))
    (shown : Shows heap (heap.node node) (wstate.settle heap (heap.node node)) []) :
    Shape (walkStep heap contexts stack) frames ∧
      (walkStep heap contexts stack).calls = stack.calls ++ visitCalls heap contexts ⟨true, node, frames.length⟩ := by
  obtain ⟨_, top, data⟩ := shape.top
  have none_ : (wstate.settle heap (heap.node node)).next heap = none := shown
  simp only [walkStep, top, data, none_]
  exact (shape.setTop _).pop

theorem walkStep_push (shape : Shape stack (frames ++ [(node, wstate)])) (shallow : frames.length < domStackMaxDepth)
    {child : Nat} {rest : List Nat}
    (shown : Shows heap (heap.node node) (wstate.settle heap (heap.node node)) (child :: rest)) :
    ∃ next, Walking heap (heap.node node) next rest ∧
      Shape (walkStep heap contexts stack) (frames ++ [(node, next)] ++ [(child, WalkState.zero)]) ∧
      (walkStep heap contexts stack).calls =
        stack.calls ++ visitCalls heap contexts ⟨false, child, frames.length + 1⟩ := by
  obtain ⟨_, top, data⟩ := shape.top
  obtain ⟨some_, walking⟩ := shown
  refine ⟨_, walking, ?_⟩
  generalize counted : { wstate.settle heap (heap.node node) with
    index := (wstate.settle heap (heap.node node)).index + 1 } = next
  have below : (frames ++ [(node, next)]).length ≤ domStackMaxDepth := by
    rw [List.length_append, List.length_singleton]
    exact shallow
  obtain ⟨pushed, did, pushedShape, calls⟩ := @Shape.push heap contexts _ _ (shape.setTop next) below child
  simp only [walkStep, top, data, some_, counted, did]
  refine ⟨pushedShape, ?_⟩
  rw [calls, List.length_append, List.length_singleton]

/-- From a node with these children left, the walk visits them and pops the node. -/
theorem walk_rest (depth : Nat) : ∀ {node : Nat} {frames : Frames} {stack : Stack} {wstate : WalkState}
    {rest : List Nat}, IsTree heap (depth + 1) node → frames.length + depth ≤ domStackMaxDepth →
    Walking heap (heap.node node) wstate rest → (∀ child ∈ rest, child ∈ heap.children node) →
    Shape stack (frames ++ [(node, wstate)]) →
    ∃ after, Reaches heap contexts stack after ∧ Shape after frames ∧
      after.calls = stack.calls ++ restCalls heap contexts depth frames.length node rest := by
  induction depth with
  | zero =>
    intro node frames stack wstate rest tree shallow walking among shape
    have shown := walking_settle (tree.apart) walking
    cases rest with
    | cons child rest =>
      have leaf := (tree.child (among child List.mem_cons_self)).within
      cases leaf
    | nil =>
      obtain ⟨popped, calls⟩ := @walkStep_pop heap contexts _ _ _ _ shape shown
      exact ⟨_, Reaches.step (by rw [shape.top.1]; omega), popped, calls⟩
  | succ depth ih =>
    intro node frames stack wstate rest tree shallow walking among shape
    induction rest generalizing stack wstate with
    | nil =>
      obtain ⟨popped, calls⟩ := @walkStep_pop heap contexts _ _ _ _ shape (walking_settle tree.apart walking)
      exact ⟨_, Reaches.step (by rw [shape.top.1]; omega), popped, calls⟩
    | cons child rest later =>
      obtain ⟨next, further, pushed, pushCalls⟩ :=
        @walkStep_push heap contexts _ _ _ _ shape (by omega) _ _ (walking_settle tree.apart walking)
      have length : (frames ++ [(node, next)]).length = frames.length + 1 := by
        rw [List.length_append, List.length_singleton]
      -- the child, from where it has been pushed
      obtain ⟨left, reached, leftShape, leftCalls⟩ := ih (tree.child (among child List.mem_cons_self))
        (by omega) (walking_start child) (fun _ member => member) pushed
      -- the children behind it
      obtain ⟨after, finished, afterShape, afterCalls⟩ :=
        later further (fun other member => among other (List.mem_cons_of_mem _ member)) leftShape
      refine ⟨after, ((Reaches.step (by rw [shape.top.1]; omega)).trans reached).trans finished, afterShape, ?_⟩
      rw [afterCalls, leftCalls, pushCalls, length, restCalls_cons, visits_calls]
      simp only [List.append_assoc]

theorem pushDomNode_empty (empty : stack.depth = 0) (node : Nat) :
    pushDomNode heap contexts stack node = pushDomNode heap contexts { stack with states := [] } node := by
  simp only [pushDomNode, empty]
  rfl

/-- The walk of a tree ends with an empty stack. It calls the callbacks of every node once when it is entered, in
document order, and once when it is left, after all nodes below it. -/
theorem walkDomNodes_visits {heap : Heap} {depth root : Nat} (tree : IsTree heap depth root)
    (shallow : depth ≤ domStackMaxDepth + 1) (contexts : List ContextInfo) {stack : Stack} (empty : stack.depth = 0) :
    ∃ fuel after, walkDomNodes heap contexts fuel stack root = some after ∧ after.depth = 0 ∧
      after.calls = stack.calls ++ (visits heap.children depth 0 root).flatMap (visitCalls heap contexts) ∧
      entered (visits heap.children depth 0 root) = preorder heap.children depth root ∧
      left (visits heap.children depth 0 root) = postorder heap.children depth root ∧
      (preorder heap.children depth root).Nodup ∧
      (postorder heap.children depth root).Perm (preorder heap.children depth root) ∧
      (∀ node, node ∈ preorder heap.children depth root ↔ node = root ∨ Below heap.children root node) ∧
      ∀ node ∈ preorder heap.children depth root, ∀ descendant, Below heap.children node descendant →
        [descendant, node].Sublist (postorder heap.children depth root) := by
  cases depth with
  | zero => cases tree.within
  | succ depth =>
    have blank : Shape { stack with states := [], objects := [] } [] :=
      ⟨empty, ⟨0, rfl, Nat.le_refl 0⟩, ⟨0, rfl, Nat.le_refl 0⟩⟩
    obtain ⟨pushed, did, pushedShape, pushCalls⟩ :=
      @Shape.push heap contexts _ _ blank (Nat.zero_le _) root
    obtain ⟨after, ⟨turns, reached⟩, afterShape, afterCalls⟩ := @walk_rest heap contexts depth _ _ _ _ _ tree
      (by simpa using Nat.le_of_succ_le_succ shallow) (walking_start root) (fun _ member => member) pushedShape
    have emptied : after.depth = 0 := afterShape.depth
    refine ⟨turns + 1, { after with objects := [] }, ?_, emptied, ?_, entered_visits _ _ _, left_visits _ _ _,
      tree.distinct, postorder_perm _ _, fun node => tree.within.mem_preorder_iff,
      fun node member descendant below => tree.within.left_after member below⟩
    · have started := (@pushDomNode_empty heap contexts { stack with objects := [] } empty root).trans did
      simp only [walkDomNodes, started, Option.getD_some]
      rw [reached 1, walkLoop, if_pos emptied, Option.map_some]
    · rw [visits_calls, ← List.append_assoc]
      exact afterCalls.trans (by rw [pushCalls]; rfl)

def linkHeap : Heap where
  node node :=
    if node = 1 then ⟨.element, some 2, some 1, none, none⟩
    else if node = 2 then ⟨.attributeNode, none, none, none, none⟩
    else ⟨.text, none, none, none, none⟩
  list list := if list = 1 then [2] else [3]

theorem linkHeap_tree : IsTree linkHeap 2 1 where
  within := by
    refine .node fun child member => .node fun other inner => ?_
    have leaf : linkHeap.children child = [] := by
      rcases List.mem_pair.mp (show child ∈ [2, 3] from member) with rfl | rfl
      · rfl
      · rfl
    rw [leaf] at inner
    exact absurd inner List.not_mem_nil
  distinct := by decide

theorem walkDomNodes_visits_link :
    ∃ fuel after, walkDomNodes linkHeap [⟨fun _ => true, fun _ => true⟩] fuel ⟨[], 0, [], []⟩ 1 = some after ∧
      after.depth = 0 ∧ entered (visits linkHeap.children 2 0 1) = [1, 2, 3] := by
  obtain ⟨fuel, after, ran, empty, -, order, -⟩ :=
    @walkDomNodes_visits linkHeap 2 1 linkHeap_tree (by decide) [⟨fun _ => true, fun _ => true⟩] ⟨[], 0, [], []⟩ rfl
  exact ⟨fuel, after, ran, empty, order⟩

end KcnTools.Dom.Walk
