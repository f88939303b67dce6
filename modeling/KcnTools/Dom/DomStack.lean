import KcnTools.Protocol.ProtocolTable

/-! The stack of open nodes (dom/stack.c) that the SGML parser keeps. Callbacks of a
push and of a pop may call the parser again: they are a parameter, and what they do
is said where runs are described. -/

namespace KcnTools.Dom

inductive NodeType
  | element
  | attribute
  | text
  | cdataSection
  | entityReference
  | processingInstruction
  | comment
  | document
  deriving DecidableEq

/-- A node; `serial` tells apart nodes that are otherwise the same. -/
structure DomNode where
  type : NodeType
  string : List UInt8
  serial : Nat
  deriving DecidableEq

structure StackState where
  node : DomNode
  immutable : Bool
  deriving DecidableEq

/-- The arrays behind the stack: how often `states` was reallocated, the depth of the stack
of parsing states and how often its arrays were. `stale` marks that a pointer was used
whose array had been reallocated since; what the states are from then on is not known. -/
structure StackMemory where
  block : Nat
  parsing : Nat
  parsingBlock : Nat
  stale : Bool
  deriving DecidableEq

/-- The stack, its top first, and how many nodes there have been. -/
structure DomStack where
  states : List StackState
  nodes : Nat
  /-- `parser->root` is set. -/
  root : Bool
  memory : StackMemory

def domStackMaxDepth : Nat := 4096

def domStackStateGranularity : Nat := 7

def alignMemorySize (x gr : Nat) : Nat := (x + gr) / (gr + 1) * (gr + 1)

/-- `mem_align_alloc` from one size to the next: the block that the array is in behind it. -/
def memAlignAlloc (block size : Nat) : Nat :=
  if alignMemorySize size domStackStateGranularity < alignMemorySize (size + 1) domStackStateGranularity then block + 1
  else block

inductive StackAction
  | push
  | pop

abbrev Callbacks := StackAction → DomStack → DomStack

/-- Marks the use of a pointer that was taken when `states` was in a block. -/
def DomStack.usePointer (stack : DomStack) (block : Nat) : DomStack :=
  { stack with memory := { stack.memory with stale := stack.memory.stale || stack.memory.block != block } }

/-- The callbacks of the contexts, one after another: the state is looked at for each of them. -/
def callDomStackCallbacks (contexts : List Callbacks) : Callbacks := fun action stack =>
  contexts.foldl (fun now callback => callback action (now.usePointer stack.memory.block)) stack

def DomStack.grow (stack : DomStack) (node : DomNode) : DomStack :=
  { stack with
    states := ⟨node, false⟩ :: stack.states
    memory := { stack.memory with block := memAlignAlloc stack.memory.block stack.states.length } }

section
variable (callbacks : Callbacks)

def pushDomNode (stack : DomStack) (node : DomNode) : Bool × DomStack :=
  if stack.states.length > domStackMaxDepth then (false, stack)
  else (true, callbacks .push (stack.grow node))

/-- `pop_dom_node`. The callbacks leave the depth as it is, so the state that goes is the
one they were called for; it is cleared through the pointer that was taken before them. -/
def popDomNode (stack : DomStack) : DomStack :=
  match stack.states with
  | [] => stack
  | state :: _ =>
      if state.immutable then stack
      else
        let after := callbacks .pop stack
        { after.usePointer stack.memory.block with states := after.states.tail }

/-- `pop_dom_state`. Its target is a pointer, but one that a pop made stale is marked by that pop. -/
def popDomState (stack : DomStack) : Nat → DomStack
  | 0 => stack
  | count + 1 =>
      match stack.states with
      | [] => stack
      | state :: _ => if state.immutable then stack else popDomState (popDomNode callbacks stack) count

end

def sameString (first second : List UInt8) : Bool :=
  Protocols.cStrncasecmp first second (min first.length second.length) == 0 && first.length == second.length

def StackState.matches (state : StackState) (type : NodeType) (string : List UInt8) : Bool :=
  state.node.type == type && sameString state.node.string string

def searchDomStack (stack : DomStack) (type : NodeType) (string : List UInt8) : Option Nat :=
  stack.states.findIdx? fun state => state.matches type string

def DomStack.setTop (stack : DomStack) (immutable : Bool) : DomStack :=
  { stack with states := stack.states.modifyHead fun state => { state with immutable := immutable } }

end KcnTools.Dom
