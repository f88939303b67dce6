import KcnTools.Dom.SgmlParser
import Mathlib

/-! What the SGML parser does to its stack, token by token, whatever its callbacks parse
in between: each event of the log is as it should be exactly where its condition holds. -/

namespace KcnTools.Dom

def protect (states : List StackState) : List StackState :=
  states.modifyHead fun state => { state with immutable := true }

/-- What the callbacks of one push or pop do: calls of `parse_sgml` one after another, whose
own callbacks do the same. -/
inductive NestedCalls : DomStack → DomStack → Prop
  | none (stack : DomStack) : NestedCalls stack stack
  | call {contexts : List Callbacks}
      (nested : ∀ context ∈ contexts, ∀ action stack, NestedCalls stack (context action stack))
      (scanAttributes : List UInt8 → List SgmlToken) (stack : DomStack) (uri : List UInt8) (tokens : List SgmlToken)
      {after : DomStack}
      (later : NestedCalls (parseSgml (callDomStackCallbacks contexts) scanAttributes stack uri tokens).stack after) :
      NestedCalls stack after

def Quiet (callbacks : Callbacks) : Prop :=
  ∀ stack : DomStack, (∀ state ∈ stack.states.head?, state.node.type ≠ .element) → callbacks .push stack = stack

section Events

def TopImmutable (states : List StackState) : Prop := ∃ state ∈ states.head?, state.immutable = true

/-- What is left below the nearest open element of a name, if it is above the topmost
immutable state. -/
def closeTag (name : List UInt8) : List StackState → Option (List StackState)
  | [] => none
  | state :: states =>
      if state.immutable then none
      else if state.matches .element name then some states
      else closeTag name states

def OpenAbove (name : List UInt8) (states : List StackState) : Prop :=
  ∃ front state back, states = front ++ state :: back ∧ (∀ open' ∈ front ++ [state], open'.immutable = false) ∧
    state.matches .element name = true

def SgmlEvent.Sound : SgmlEvent → Prop
  | .leaf _ before after => after = before
  | .instruction before after => after = before
  | .emptyEnd tag before after => after = before ∨ tag = some after ∧ ∃ state, before = state :: after
  | .endTag _ name before after => after = (closeTag name before).getD before
  | .parsed before after => before ≠ [] → after = before

def SgmlEvent.Condition : SgmlEvent → Prop
  | .leaf _ _ _ => True
  | .instruction before _ => before.length ≤ domStackMaxDepth ∨ TopImmutable before
  | .emptyEnd tag before _ => tag ≠ none ∨ TopImmutable before
  | .endTag skipped name before _ =>
      if skipped then ¬ OpenAbove name before
      else if name = [] then TopImmutable before ∨ ∃ state ∈ before.head?, state.matches .element [] = true
      else OpenAbove name before ∨ TopImmutable before ∨ ∀ state ∈ before, state.matches .element name = false
  | .parsed before _ => before = [] ∨ TopImmutable before

theorem topImmutable_cons {state : StackState} {states : List StackState} :
    TopImmutable (state :: states) ↔ state.immutable = true := by
  simp [TopImmutable]

theorem openAbove_cons {name : List UInt8} {state : StackState} {states : List StackState} :
    OpenAbove name (state :: states) ↔
      state.immutable = false ∧ (state.matches .element name = true ∨ OpenAbove name states) := by
  constructor
  · rintro ⟨front, found, back, parts, mutable, same⟩
    cases front with
    | nil =>
        rw [List.nil_append, List.cons.injEq] at parts
        obtain ⟨rfl, rfl⟩ := parts
        exact ⟨mutable state (by simp), .inl same⟩
    | cons first front =>
        rw [List.cons_append, List.cons.injEq] at parts
        obtain ⟨rfl, rfl⟩ := parts
        refine ⟨mutable state (by simp), .inr ⟨front, found, back, rfl, fun open' inside => mutable open' ?_, same⟩⟩
        exact List.mem_cons_of_mem _ inside
  · rintro ⟨mutable, same | ⟨front, found, back, rfl, others, same⟩⟩
    · exact ⟨[], state, states, rfl, by simpa using mutable, same⟩
    · refine ⟨state :: front, found, back, rfl, ?_, same⟩
      rw [List.cons_append, List.forall_mem_cons]
      exact ⟨mutable, others⟩

theorem closeTag_isSome_iff (name : List UInt8) (states : List StackState) :
    (closeTag name states).isSome = true ↔ OpenAbove name states := by
  induction states with
  | nil => simp [closeTag, OpenAbove]
  | cons state states ih =>
      rw [closeTag, openAbove_cons]
      split
      next fixed => simp [fixed]
      next mutable =>
        split
        next same => simp [mutable, same]
        next other => simp [mutable, other, ih]

theorem closeTag_shorter {name : List UInt8} {states left : List StackState}
    (closed : closeTag name states = some left) :
    left.length < states.length := by
  induction states with
  | nil => cases closed
  | cons state states ih =>
      rw [closeTag] at closed
      split at closed
      · cases closed
      · split at closed
        · cases closed
          simp
        · have := ih closed
          rw [List.length_cons]
          omega

theorem untouched_iff (name : List UInt8) (states : List StackState) :
    states = (closeTag name states).getD states ↔ ¬ OpenAbove name states := by
  rw [← closeTag_isSome_iff]
  cases closed : closeTag name states with
  | none => simp
  | some left =>
      have shorter := closeTag_shorter closed
      simp only [Option.getD_some, Option.isSome_some, not_true_eq_false, iff_false]
      rintro rfl
      omega

def popped : Nat → List StackState → List StackState
  | 0, states => states
  | _ + 1, [] => []
  | count + 1, state :: states => if state.immutable then state :: states else popped count states

theorem popped_length (count : Nat) (states : List StackState) : (popped count states).length ≤ states.length := by
  induction count generalizing states with
  | zero => exact Nat.le_refl _
  | succ count ih =>
      cases states with
      | nil => exact Nat.le_refl _
      | cons state states =>
          rw [popped]
          split
          · exact Nat.le_refl _
          · exact Nat.le_succ_of_le (ih states)

theorem popped_closeTag {name : List UInt8} {states left : List StackState} {above : Nat}
    (found : states.findIdx? (fun state => state.matches .element name) = some above)
    (closed : closeTag name states = some left) : popped (above + 1) states = left := by
  induction states generalizing above with
  | nil => cases closed
  | cons state states ih =>
      rw [closeTag] at closed
      rw [List.findIdx?_cons] at found
      split at closed
      · cases closed
      next mutable =>
        split at closed
        next same =>
          rw [if_pos same, Option.some.injEq] at found
          rw [Option.some.injEq] at closed
          rw [← found, popped, if_neg mutable, ← closed]
          rfl
        next other =>
          rw [if_neg other, Option.map_eq_some_iff] at found
          obtain ⟨before, found, rfl⟩ := found
          rw [popped, if_neg mutable]
          exact ih found closed

/-- The end tag of an open element: the states above it go, unless one of them is immutable. -/
theorem popped_iff {name : List UInt8} {states : List StackState} {above : Nat}
    (found : states.findIdx? (fun state => state.matches .element name) = some above) :
    popped (above + 1) states = (closeTag name states).getD states ↔ OpenAbove name states ∨ TopImmutable states := by
  cases states with
  | nil => cases found
  | cons state states =>
      cases closed : closeTag name (state :: states) with
      | some left =>
          have isOpen := (closeTag_isSome_iff name (state :: states)).mp (by rw [closed]; rfl)
          simp only [popped_closeTag found closed, Option.getD_some, isOpen, true_or]
      | none =>
          have notOpen : ¬ OpenAbove name (state :: states) := by
            rw [← closeTag_isSome_iff, closed]
            simp
          simp only [Option.getD_none, notOpen, false_or, topImmutable_cons, popped]
          split
          next fixed => simp [fixed]
          next mutable =>
            constructor
            · intro same
              have shorter := popped_length above states
              rw [same, List.length_cons] at shorter
              omega
            · intro fixed
              exact absurd fixed mutable

theorem popped_one (states : List StackState) :
    popped 1 states = states ∧ (states = [] ∨ TopImmutable states) ∨
      ∃ state below, states = state :: below ∧ state.immutable = false ∧ popped 1 states = below := by
  cases states with
  | nil => exact .inl ⟨rfl, .inl rfl⟩
  | cons state below =>
      rw [popped, topImmutable_cons]
      split
      next fixed => exact .inl ⟨rfl, .inr fixed⟩
      next mutable => exact .inr ⟨state, below, rfl, by simpa using mutable, rfl⟩

theorem protect_eq_iff {states : List StackState} (filled : states ≠ []) : protect states = states ↔ TopImmutable
    states := by
  cases states with
  | nil => exact absurd rfl filled
  | cons state below =>
      rw [topImmutable_cons, protect, List.modifyHead_cons, List.cons.injEq]
      constructor
      · rintro ⟨same, _⟩
        rw [← same]
      · intro fixed
        refine ⟨?_, rfl⟩
        rw [← fixed]

theorem protect_protect (states : List StackState) : protect (protect states) = protect states := by
  cases states <;> rfl

end Events

section Tame

/-- Calls of the parser leave the states as they were, but for the mark of the topmost one. -/
def Tame (callbacks : Callbacks) : Prop :=
  ∀ action stack, stack.root = true → stack.states ≠ [] → (callbacks action stack).root = true ∧
    ((callbacks action stack).states = stack.states ∨ (callbacks action stack).states = protect stack.states)

/-- The contexts of the stack are called one after another, so what each of them keeps is kept. -/
theorem callDomStackCallbacks_tame {contexts : List Callbacks} (tame : ∀ context ∈ contexts, Tame context) :
    Tame (callDomStackCallbacks contexts) := by
  intro action stack root filled
  unfold callDomStackCallbacks
  obtain ⟨states, same⟩ : ∃ states, stack.states = states := ⟨_, rfl⟩
  have start : stack.root = true ∧ (stack.states = states ∨ stack.states = protect states) := ⟨root, .inl same⟩
  generalize stack.memory.block = block
  rw [same] at filled ⊢
  clear root same
  induction contexts generalizing stack with
  | nil => exact start
  | cons context contexts ih =>
      obtain ⟨rooted, marked⟩ := start
      have still : stack.states ≠ [] := by
        rcases marked with same | marked
        · rw [same]
          exact filled
        · rw [marked]
          exact fun empty => filled (List.modifyHead_eq_nil_iff.mp empty)
      obtain ⟨next, after⟩ := tame context List.mem_cons_self action (stack.usePointer block) rooted still
      refine ih (fun other inside => tame other (List.mem_cons_of_mem _ inside)) _ ⟨next, ?_⟩
      change (context action (stack.usePointer block)).states = stack.states ∨
        (context action (stack.usePointer block)).states = protect stack.states at after
      rcases after with after | after <;> rcases marked with marked | marked <;> rw [after, marked]
      · exact .inl rfl
      · exact .inr rfl
      · exact .inr rfl
      · exact .inr (protect_protect states)

variable {callbacks : Callbacks} {stack : DomStack}

theorem popDomNode_states (tame : Tame callbacks) (root : stack.root = true) :
    (popDomNode callbacks stack).root = true ∧ (popDomNode callbacks stack).states = popped 1 stack.states := by
  unfold popDomNode
  split
  next none =>
    rw [none]
    exact ⟨root, rfl⟩
  next state states top =>
    rw [top, popped]
    split
    next fixed => exact ⟨root, top⟩
    next mutable =>
      obtain ⟨rooted, same | marked⟩ := tame .pop stack root (by rw [top]; exact List.cons_ne_nil _ _)
      · refine ⟨rooted, ?_⟩
        show (callbacks .pop stack).states.tail = states
        rw [same, top, List.tail_cons]
      · refine ⟨rooted, ?_⟩
        show (callbacks .pop stack).states.tail = states
        rw [marked, top]
        rfl

theorem popDomState_states (tame : Tame callbacks) (root : stack.root = true) (count : Nat) :
    (popDomState callbacks stack count).root = true ∧
      (popDomState callbacks stack count).states = popped count stack.states := by
  induction count generalizing stack with
  | zero => exact ⟨root, rfl⟩
  | succ count ih =>
      unfold popDomState
      split
      next none =>
        rw [none]
        exact ⟨root, rfl⟩
      next state states top =>
        obtain ⟨rooted, gone⟩ := popDomNode_states tame root
        rw [top, popped] at gone
        rw [top, popped]
        split
        next fixed => exact ⟨root, top⟩
        next mutable =>
          rw [if_neg mutable] at gone
          obtain ⟨rooted, left⟩ := ih rooted
          refine ⟨rooted, ?_⟩
          rw [left, gone]
          rfl

end Tame

def Over (base : List StackState) (stack : DomStack) : Prop :=
  stack.root = true ∧ ∃ above, stack.states = above ++ base

section Over
variable {callbacks : Callbacks} {base : List StackState} {stack : DomStack}

theorem over_same {other : DomStack} (stacked : Over base stack) (root : other.root = true)
    (same : other.states = stack.states) : Over base other := by
  obtain ⟨_, above, parts⟩ := stacked
  exact ⟨root, above, same.trans parts⟩

theorem over_filled (fixed : TopImmutable base) (stacked : Over base stack) : stack.states ≠ [] := by
  obtain ⟨state, inside, _⟩ := fixed
  obtain ⟨_, above, parts⟩ := stacked
  rw [parts]
  intro empty
  rw [List.append_eq_nil_iff] at empty
  rw [empty.2] at inside
  cases inside

theorem protect_append (fixed : TopImmutable base) (above : List StackState) :
    ∃ others, protect (above ++ base) = others ++ base := by
  cases above with
  | nil =>
      refine ⟨[], (protect_eq_iff ?_).mpr fixed⟩
      rintro rfl
      obtain ⟨state, inside, _⟩ := fixed
      cases inside
  | cons state above => exact ⟨{ state with immutable := true } :: above, rfl⟩

theorem over_callbacks (tame : Tame callbacks) (fixed : TopImmutable base) (stacked : Over base stack)
    (action : StackAction) : Over base (callbacks action stack) := by
  obtain ⟨root, same | marked⟩ := tame action stack stacked.1 (over_filled fixed stacked)
  · exact over_same stacked root same
  · obtain ⟨_, above, parts⟩ := stacked
    rw [parts] at marked
    obtain ⟨others, left⟩ := protect_append fixed above
    exact ⟨root, others, marked.trans left⟩

theorem over_push (tame : Tame callbacks) (fixed : TopImmutable base) (stacked : Over base stack) (node : DomNode) :
    Over base (pushDomNode callbacks stack node).2 := by
  unfold pushDomNode
  split
  · exact stacked
  · obtain ⟨root, above, parts⟩ := stacked
    apply over_callbacks tame fixed
    refine ⟨root, ⟨node, false⟩ :: above, ?_⟩
    rw [List.cons_append, ← parts]
    rfl

theorem popped_append (fixed : TopImmutable base) (count : Nat) (above : List StackState) :
    ∃ others, popped count (above ++ base) = others ++ base := by
  induction above generalizing count with
  | nil =>
      obtain ⟨state, inside, fixed⟩ := fixed
      refine ⟨[], ?_⟩
      cases base with
      | nil => cases inside
      | cons first below =>
          cases inside
          cases count with
          | zero => rfl
          | succ count => exact if_pos fixed
  | cons state above ih =>
      cases count with
      | zero => exact ⟨state :: above, rfl⟩
      | succ count =>
          rw [List.cons_append, popped]
          split
          · exact ⟨state :: above, rfl⟩
          · exact ih count

theorem over_popped (fixed : TopImmutable base) (stacked : Over base stack) {other : DomStack}
    (root : other.root = true)
    {count : Nat} (gone : other.states = popped count stack.states) : Over base other := by
  obtain ⟨_, above, parts⟩ := stacked
  obtain ⟨others, left⟩ := popped_append fixed count above
  refine ⟨root, others, ?_⟩
  rw [gone, parts, left]

theorem over_pop (tame : Tame callbacks) (fixed : TopImmutable base) (stacked : Over base stack) :
    Over base (popDomNode callbacks stack) := by
  obtain ⟨root, gone⟩ := popDomNode_states tame stacked.1
  exact over_popped fixed stacked root gone

theorem over_endTag (tame : Tame callbacks) (fixed : TopImmutable base) (stacked : Over base stack)
    (name : List UInt8) :
    Over base (endTag callbacks stack name) := by
  unfold endTag
  split
  · exact over_pop tame fixed stacked
  · split
    · exact stacked
    · obtain ⟨root, gone⟩ := popDomState_states tame stacked.1 (_ + 1)
      exact over_popped fixed stacked root gone

theorem sgmlParsingPop_states (tame : Tame callbacks) {above : List StackState} (root : stack.root = true)
    (parts : stack.states = above ++ base) :
    (sgmlParsingPop callbacks stack base.length above.length).root = true ∧
      (sgmlParsingPop callbacks stack base.length above.length).states = base := by
  induction above generalizing stack with
  | nil => exact ⟨root, parts⟩
  | cons state above ih =>
      rw [List.length_cons, sgmlParsingPop, if_pos (by rw [parts, List.length_append, List.length_cons]; omega)]
      obtain ⟨rooted, gone⟩ := popDomNode_states tame (show (stack.setTop false).root = true from root)
      apply ih rooted
      rw [gone, DomStack.setTop, parts]
      rfl

end Over

section Tokens

def Logged (parser : SgmlParser) : Prop := ∀ event ∈ parser.log, event.Sound ↔ event.Condition

theorem logged_append {stack : DomStack} {log events : List SgmlEvent}
    (logged : ∀ event ∈ log, event.Sound ↔ event.Condition)
    (later : ∀ event ∈ events, event.Sound ↔ event.Condition) : Logged ⟨stack, log ++ events⟩ := by
  intro event inside
  rcases List.mem_append.mp inside with inside | inside
  · exact logged event inside
  · exact later event inside

variable {callbacks : Callbacks} {base : List StackState}

/-- What does not change the states: only the nodes are counted on. -/
structure Keeps (parser after : SgmlParser) : Prop where
  root : after.stack.root = true
  states : after.stack.states = parser.stack.states
  logged : Logged parser → Logged after

theorem quiet_push (quiet : Quiet callbacks) {node : DomNode} (type : node.type ≠ .element) (stack : DomStack) :
    pushDomNode callbacks stack node =
      if stack.states.length > domStackMaxDepth then (false, stack)
      else (true, stack.grow node) := by
  unfold pushDomNode
  split
  · rfl
  · rw [quiet]
    intro state inside
    cases inside
    exact type

theorem addLeaf_stack (callbacks : Callbacks) (parser : SgmlParser) (type : NodeType) (token : SgmlToken) :
    (addLeaf callbacks parser type token).stack =
      let result := pushDomNode callbacks (parser.stack.newNode type token.string).2
        (parser.stack.newNode type token.string).1
      if result.1 then popDomNode callbacks result.2 else result.2 := rfl

theorem addLeaf_keeps (tame : Tame callbacks) (quiet : Quiet callbacks) {parser : SgmlParser}
    (root : parser.stack.root = true) {type : NodeType} (other : type ≠ .element) (token : SgmlToken) :
    Keeps parser (addLeaf callbacks parser type token) := by
  have pushed := quiet_push quiet (show (parser.stack.newNode type token.string).1.type ≠ .element from other)
    (parser.stack.newNode type token.string).2
  have kept : (addLeaf callbacks parser type token).stack.root = true ∧
      (addLeaf callbacks parser type token).stack.states = parser.stack.states := by
    rw [addLeaf_stack, pushed]
    split
    · exact ⟨root, rfl⟩
    · exact popDomNode_states tame
        (show ((parser.stack.newNode type token.string).2.grow _).root = true from root)
  refine ⟨kept.1, kept.2, fun logged => logged_append logged ?_⟩
  intro event inside
  rw [List.mem_singleton] at inside
  rw [inside]
  exact ⟨fun _ => trivial, fun _ => kept.2⟩

theorem Keeps.trans {first second third : SgmlParser} (start : Keeps first second) (later : Keeps second third) :
    Keeps first third :=
  ⟨later.root, later.states.trans start.states, later.logged ∘ start.logged⟩

theorem parseSgmlAttributes_keeps (tame : Tame callbacks) (quiet : Quiet callbacks) (parser : SgmlParser)
    (root : parser.stack.root = true) (tokens : List SgmlToken) :
    Keeps parser (parseSgmlAttributes callbacks parser tokens).1 := by
  have same {parser : SgmlParser} (root : parser.stack.root = true) : Keeps parser parser := ⟨root, rfl, id⟩
  fun_induction parseSgmlAttributes callbacks parser tokens with
  | case1 => exact same root
  | case2 => exact same root
  | case3 => exact same root
  | case4 => exact same root
  | case5 => exact same root
  | case6 => exact same root
  | case7 parser token tokens _ ih =>
      have added : Keeps parser (addSgmlAttribute callbacks parser token) :=
        addLeaf_keeps tame quiet root (by decide) token
      exact added.trans (ih added.root)
  | case8 parser token tokens _ _ _ _ _ _ ih => exact ih root

variable {scanAttributes : List UInt8 → List SgmlToken}

theorem parseInstructionData_keeps (tame : Tame callbacks) (quiet : Quiet callbacks) (parser : SgmlParser)
    (root : parser.stack.root = true) (pushed : Bool) (target data : SgmlToken) :
    Keeps parser (parseInstructionData callbacks scanAttributes parser pushed target data) := by
  unfold parseInstructionData
  split
  · split
    · exact ⟨root, rfl, id⟩
    · exact parseSgmlAttributes_keeps tame quiet parser root _
  · exact ⟨root, rfl, id⟩

theorem addSgmlProcInstruction_eq (quiet : Quiet callbacks) (stack : DomStack) (target : SgmlToken) :
    addSgmlProcInstruction callbacks stack target =
      let made := stack.newNode .processingInstruction target.string
      if stack.states.length > domStackMaxDepth then (false, made.2) else (true, made.2.grow made.1) := by
  apply quiet_push quiet
  show NodeType.processingInstruction ≠ .element
  decide

/-- The states behind an instruction: the pop is there even where the push was refused. -/
theorem processInstruction_states (tame : Tame callbacks) (quiet : Quiet callbacks) {parser : SgmlParser}
    (root : parser.stack.root = true) (target data : SgmlToken) :
    (processInstruction callbacks scanAttributes parser target data).stack.root = true ∧
      (processInstruction callbacks scanAttributes parser target data).stack.states =
        if parser.stack.states.length > domStackMaxDepth then popped 1 parser.stack.states
        else parser.stack.states := by
  have added := addSgmlProcInstruction_eq quiet parser.stack target
  have kept (stack : DomStack) (root : stack.root = true) (pushed : Bool) :
      Keeps { parser with stack := stack }
        (parseInstructionData callbacks scanAttributes { parser with stack := stack } pushed target data) :=
    parseInstructionData_keeps tame quiet _ root pushed target data
  unfold processInstruction
  rw [added]
  split
  · obtain ⟨rooted, same, _⟩ := kept (parser.stack.newNode .processingInstruction target.string).2 root false
    obtain ⟨rooted, gone⟩ := popDomNode_states tame rooted
    rw [same] at gone
    exact ⟨rooted, gone⟩
  · obtain ⟨rooted, same, _⟩ := kept ((parser.stack.newNode .processingInstruction target.string).2.grow
      (parser.stack.newNode .processingInstruction target.string).1) root true
    obtain ⟨rooted, gone⟩ := popDomNode_states tame rooted
    rw [same] at gone
    exact ⟨rooted, gone⟩

theorem shorter_ne {state : StackState} {below : List StackState} : below ≠ state :: below := by
  intro same
  have := congrArg List.length same
  rw [List.length_cons] at this
  omega

theorem logged_instruction {before after : List StackState} (filled : before ≠ [])
    (gone : after = if before.length > domStackMaxDepth then popped 1 before else before) :
    (SgmlEvent.instruction before after).Sound ↔ (SgmlEvent.instruction before after).Condition := by
  show after = before ↔ before.length ≤ domStackMaxDepth ∨ TopImmutable before
  rw [gone]
  split
  next deep =>
    rcases popped_one before with ⟨same, empty | fixed⟩ | ⟨state, below, rfl, mutable, left⟩
    · exact absurd empty filled
    · simp only [same, fixed, or_true]
    · rw [left, topImmutable_cons, mutable]
      constructor
      · intro same
        exact absurd same shorter_ne
      · rintro (low | fixed)
        · omega
        · cases fixed
  next low =>
    simp only [true_iff]
    exact .inl (by omega)

theorem logged_emptyEnd {tag : Option (List StackState)} {before : List StackState} (filled : before ≠ [])
    (opened : ∀ base ∈ tag, ∃ state, before = state :: base) :
    (SgmlEvent.emptyEnd tag before (popped 1 before)).Sound ↔
      (SgmlEvent.emptyEnd tag before (popped 1 before)).Condition := by
  show (_ ∨ _) ↔ (tag ≠ none ∨ TopImmutable before)
  rcases popped_one before with ⟨same, empty | fixed⟩ | ⟨state, below, rfl, mutable, left⟩
  · exact absurd empty filled
  · simp only [same, fixed, true_or, or_true]
  · rw [left, topImmutable_cons, mutable]
    constructor
    · rintro (same | ⟨same, _⟩)
      · exact absurd same shorter_ne
      · exact .inl (by rw [same]; exact Option.some_ne_none _)
    · rintro (isOpen | fixed)
      · obtain ⟨base, isTag⟩ := Option.ne_none_iff_exists'.mp isOpen
        obtain ⟨other, parts⟩ := opened base isTag
        cases parts
        exact .inr ⟨isTag, state, rfl⟩
      · cases fixed

theorem logged_endAny {before : List StackState} (filled : before ≠ []) :
    (SgmlEvent.endTag false [] before (popped 1 before)).Sound ↔
      (SgmlEvent.endTag false [] before (popped 1 before)).Condition := by
  show popped 1 before = _ ↔ (TopImmutable before ∨ _)
  cases before with
  | nil => exact absurd rfl filled
  | cons state below =>
      rw [popped, closeTag, topImmutable_cons]
      split
      next fixed => simp [fixed]
      next mutable =>
        simp only [mutable, List.head?_cons, Option.mem_def, Option.some.injEq, exists_eq_left']
        split
        next same => simp [same, popped]
        next other =>
          simp only [other, popped, Bool.false_eq_true, or_self, iff_false]
          intro same
          cases closed : closeTag [] below with
          | none =>
              rw [closed] at same
              exact shorter_ne same
          | some left =>
              have shorter := closeTag_shorter closed
              rw [closed] at same
              rw [same] at shorter
              exact absurd shorter (Nat.lt_irrefl _)

theorem endTag_states (tame : Tame callbacks) {stack : DomStack} (root : stack.root = true) (filled : stack.states ≠ [])
    (name : List UInt8) :
    (SgmlEvent.endTag false name stack.states (endTag callbacks stack name).states).Sound ↔
      (SgmlEvent.endTag false name stack.states (endTag callbacks stack name).states).Condition := by
  unfold endTag
  split
  next empty =>
    rw [empty, (popDomNode_states tame root).2]
    exact logged_endAny filled
  next named =>
    show _ = _ ↔ if name = [] then _ else _
    rw [if_neg named]
    cases found : searchDomStack stack .element name with
    | none =>
        have missing : ∀ state ∈ stack.states, state.matches .element name = false := by
          simpa [searchDomStack, List.findIdx?_eq_none_iff] using found
        simp only [eq_true missing, or_true, iff_true, untouched_iff]
        rintro ⟨front, state, back, parts, _, same⟩
        have other := missing state (by rw [parts]; simp)
        rw [same] at other
        cases other
    | some above =>
        simp only [(popDomState_states tame root (above + 1)).2, popped_iff found]
        constructor
        · rintro (isOpen | fixed)
          · exact .inl isOpen
          · exact .inr (.inl fixed)
        · rintro (isOpen | fixed | missing)
          · exact .inl isOpen
          · exact .inr fixed
          · obtain ⟨bound, same, _⟩ := List.findIdx?_eq_some_iff_getElem.mp found
            rw [missing _ (List.getElem_mem bound)] at same
            cases same

theorem logged_skipped (states : List StackState) (tokens : List SgmlToken) :
    ∀ event ∈ skippedEnds states tokens, event.Sound ↔ event.Condition := by
  intro event inside
  obtain ⟨token, _, rfl⟩ := List.mem_map.mp inside
  exact untouched_iff token.string states

theorem over_leaf (tame : Tame callbacks) (fixed : TopImmutable base) {parser : SgmlParser}
    (stacked : Over base parser.stack) (type : NodeType) (token : SgmlToken) :
    Over base (addLeaf callbacks parser type token).stack := by
  have counted : Over base (parser.stack.newNode type token.string).2 := over_same stacked stacked.1 rfl
  have pushed := over_push tame fixed counted (parser.stack.newNode type token.string).1
  rw [addLeaf_stack]
  dsimp only
  split
  · exact over_pop tame fixed pushed
  · exact pushed

theorem over_attributes (tame : Tame callbacks) (fixed : TopImmutable base) (parser : SgmlParser)
    (stacked : Over base parser.stack) (tokens : List SgmlToken) :
    Over base (parseSgmlAttributes callbacks parser tokens).1.stack := by
  fun_induction parseSgmlAttributes callbacks parser tokens with
  | case1 => exact stacked
  | case2 => exact stacked
  | case3 => exact stacked
  | case4 => exact stacked
  | case5 => exact stacked
  | case6 => exact stacked
  | case7 parser token tokens _ ih => exact ih (over_leaf tame fixed stacked .attribute token)
  | case8 parser token tokens _ _ _ _ _ _ ih => exact ih stacked

theorem over_instruction (tame : Tame callbacks) (fixed : TopImmutable base) {parser : SgmlParser}
    (stacked : Over base parser.stack) (target data : SgmlToken) :
    Over base (processInstruction callbacks scanAttributes parser target data).stack := by
  have counted : Over base (parser.stack.newNode .processingInstruction target.string).2 := over_same stacked
      stacked.1 rfl
  have pushed := over_push tame fixed counted (parser.stack.newNode .processingInstruction target.string).1
  apply over_pop tame fixed
  unfold parseInstructionData
  split
  · split
    · exact pushed
    · exact over_attributes tame fixed _ pushed _
  · exact pushed

/-- What the loop of the parser keeps: the states of the outer call, and a log that is as it should be. -/
structure Parsing (callbacks : Callbacks) (base : List StackState) (parser : SgmlParser) : Prop where
  stacked : Over base parser.stack
  logged : Quiet callbacks → Logged parser

theorem Parsing.event {parser : SgmlParser} {stack : DomStack} {event : SgmlEvent}
    (parsing : Parsing callbacks base parser) (stacked : Over base stack)
    (asSaid : Quiet callbacks → (event.Sound ↔ event.Condition)) :
    Parsing callbacks base ⟨stack, parser.log ++ [event]⟩ := by
  refine ⟨stacked, fun quiet => logged_append (parsing.logged quiet) ?_⟩
  intro other inside
  rw [List.mem_singleton.mp inside]
  exact asSaid quiet

theorem Parsing.leaf (tame : Tame callbacks) (fixed : TopImmutable base) {parser : SgmlParser}
    (parsing : Parsing callbacks base parser) {type : NodeType} (other : type ≠ .element) (token : SgmlToken) :
    Parsing callbacks base (addSgmlNode callbacks parser type token) := by
  refine ⟨over_leaf tame fixed parsing.stacked type token, fun quiet => ?_⟩
  exact (addLeaf_keeps tame quiet parsing.stacked.1 other token).logged (parsing.logged quiet)

theorem addSgmlElement_over (tame : Tame callbacks) (fixed : TopImmutable base) {stack : DomStack}
    (stacked : Over base stack) (token : SgmlToken) : Over base (addSgmlElement callbacks stack token).2 := by
  have counted : Over base (stack.newNode .element token.string).2 := over_same stacked stacked.1 rfl
  exact over_push tame fixed counted (stack.newNode .element token.string).1

theorem addSgmlElement_pushed (tame : Tame callbacks) {stack : DomStack} (root : stack.root = true) (token : SgmlToken)
    (pushed : (addSgmlElement callbacks stack token).1 = true) :
    ∃ state, (addSgmlElement callbacks stack token).2.states = state :: stack.states := by
  have added : addSgmlElement callbacks stack token =
      pushDomNode callbacks (stack.newNode .element token.string).2 (stack.newNode .element token.string).1 := rfl
  rw [added] at pushed ⊢
  unfold pushDomNode at pushed ⊢
  split at pushed
  · cases pushed
  next shallow =>
    rw [if_neg shallow]
    obtain ⟨_, same | marked⟩ := tame .push ((stack.newNode .element token.string).2.grow
      (stack.newNode .element token.string).1) root (List.cons_ne_nil _ _)
    · exact ⟨_, same⟩
    · exact ⟨_, marked⟩

theorem Parsing.instruction (tame : Tame callbacks) (fixed : TopImmutable base) {parser : SgmlParser}
    (parsing : Parsing callbacks base parser) (target data : SgmlToken) :
    Parsing callbacks base (processInstruction callbacks scanAttributes parser target data) := by
  refine ⟨over_instruction tame fixed parsing.stacked target data, fun quiet => logged_append ?_ ?_⟩
  · have added : (addSgmlProcInstruction callbacks parser.stack target).2.root = true := by
      rw [addSgmlProcInstruction_eq quiet]
      split <;> exact parsing.stacked.1
    exact (parseInstructionData_keeps tame quiet _ added _ target data).logged (parsing.logged quiet)
  · intro event inside
    rw [List.mem_singleton.mp inside]
    exact logged_instruction (over_filled fixed parsing.stacked)
      (processInstruction_states tame quiet parsing.stacked.1 target data).2

theorem parseSgmlPlain_parsing (tame : Tame callbacks) (fixed : TopImmutable base) (parser : SgmlParser)
    (tag : Option (List StackState)) (tokens : List SgmlToken) (parsing : Parsing callbacks base parser)
    (opened : Quiet callbacks → ∀ below ∈ tag, ∃ state, parser.stack.states = state :: below) :
    Parsing callbacks base (parseSgmlPlain callbacks scanAttributes parser tag tokens) := by
  have noTag (parser : SgmlParser) : Quiet callbacks → ∀ below ∈ (none : Option (List StackState)),
      ∃ state, parser.stack.states = state :: below := by
    intro _ below inside
    cases inside
  fun_induction parseSgmlPlain callbacks scanAttributes parser tag tokens with
  | case1 => exact parsing
  | case2 parser tag token tokens isType pushed stack added ih =>
      refine ih ⟨?_, parsing.logged⟩ (noTag _)
      have stacked := addSgmlElement_over tame fixed parsing.stacked token
      rw [added] at stacked
      exact stacked
  | case3 parser tag token tokens before isType stack added ih =>
      refine ih ⟨?_, fun quiet => logged_append (parsing.logged quiet) (logged_skipped before _)⟩ (noTag _)
      have stacked := addSgmlElement_over tame fixed parsing.stacked token
      rw [added] at stacked
      exact stacked
  | case4 parser tag token tokens before isType stack added result ih =>
      have stacked := addSgmlElement_over tame fixed parsing.stacked token
      have onTop := addSgmlElement_pushed tame parsing.stacked.1 token
      rw [added] at stacked onTop
      have keeps (quiet : Quiet callbacks) : Keeps ⟨stack, parser.log⟩ result.1 :=
        parseSgmlAttributes_keeps tame quiet ⟨stack, parser.log⟩ stacked.1 tokens
      refine ih ⟨over_attributes tame fixed _ stacked tokens, fun quiet => (keeps quiet).logged
        (parsing.logged quiet)⟩ ?_
      intro quiet below inside
      split at inside
      · cases inside
        rw [(keeps quiet).states]
        exact onTop rfl
      · cases inside
  | case5 parser tag token tokens before isType stack ih =>
      refine ih (parsing.event (over_pop tame fixed parsing.stacked) fun quiet => ?_) (noTag _)
      show (SgmlEvent.emptyEnd tag before (popDomNode callbacks parser.stack).states).Sound ↔ (SgmlEvent.emptyEnd tag
        before (popDomNode callbacks parser.stack).states).Condition
      rw [(popDomNode_states tame parsing.stacked.1).2]
      exact logged_emptyEnd (over_filled fixed parsing.stacked) (opened quiet)
  | case6 parser tag token tokens before isType stack ih =>
      refine ih (parsing.event (over_endTag tame fixed parsing.stacked token.string) fun _ => ?_) (noTag _)
      exact endTag_states tame parsing.stacked.1 (over_filled fixed parsing.stacked) token.string
  | case7 parser tag token tokens _ ih => exact ih (parsing.leaf tame fixed (by decide) token) (noTag _)
  | case8 parser tag token tokens _ ih => exact ih parsing (noTag _)
  | case9 parser tag token tokens _ ih => exact ih parsing (noTag _)
  | case10 parser tag token tokens _ ih => exact ih parsing (noTag _)
  | case11 parser tag token tokens _ ih => exact ih parsing (noTag _)
  | case12 parser tag token tokens _ ih => exact ih parsing (noTag _)
  | case13 parser tag token tokens _ ih => exact ih (parsing.leaf tame fixed (by decide) token) (noTag _)
  | case14 => exact parsing
  | case15 parser tag target _ data tokens ih =>
      exact ih (parsing.instruction tame fixed target data) (noTag _)
  | case16 => exact parsing
  | case17 parser tag target _ data tokens ih =>
      exact ih (parsing.instruction tame fixed target data) (noTag _)
  | case18 => exact parsing
  | case19 parser tag target _ data tokens ih =>
      exact ih (parsing.instruction tame fixed target data) (noTag _)
  | case20 parser tag token tokens _ ih => exact ih (parsing.leaf tame fixed (by decide) token) (noTag _)
  | case21 parser tag token tokens _ _ _ _ _ _ _ _ _ _ _ _ _ _ _ ih =>
      exact ih (parsing.leaf tame fixed (by decide) token) (noTag _)

end Tokens

section Memory
variable {callbacks : Callbacks} {between : StackMemory → StackMemory → Prop}
  {scanAttributes : List UInt8 → List SgmlToken}

/-- What every push and every pop keeps between the memory in front of it and the memory behind it. -/
structure KeepsMemory (callbacks : Callbacks) (between : StackMemory → StackMemory → Prop) : Prop where
  refl : ∀ memory, between memory memory
  trans : ∀ {first second third}, between first second → between second third → between first third
  push : ∀ stack node, between stack.memory (pushDomNode callbacks stack node).2.memory
  pop : ∀ stack, between stack.memory (popDomNode callbacks stack).memory

theorem addLeaf_memory (keeps : KeepsMemory callbacks between) (parser : SgmlParser) (type : NodeType)
    (token : SgmlToken) : between parser.stack.memory (addLeaf callbacks parser type token).stack.memory := by
  have pushed := keeps.push (parser.stack.newNode type token.string).2 (parser.stack.newNode type token.string).1
  rw [addLeaf_stack]
  dsimp only
  split
  · exact keeps.trans pushed (keeps.pop _)
  · exact pushed

theorem parseSgmlAttributes_memory (keeps : KeepsMemory callbacks between) (parser : SgmlParser)
    (tokens : List SgmlToken) :
    between parser.stack.memory (parseSgmlAttributes callbacks parser tokens).1.stack.memory := by
  fun_induction parseSgmlAttributes callbacks parser tokens with
  | case7 parser token tokens _ ih => exact keeps.trans (addLeaf_memory keeps parser .attribute token) ih
  | case8 parser token tokens _ _ _ _ _ _ ih => exact ih
  | _ => exact keeps.refl _

theorem processInstruction_memory (keeps : KeepsMemory callbacks between) (parser : SgmlParser)
    (target data : SgmlToken) :
    between parser.stack.memory (processInstruction callbacks scanAttributes parser target data).stack.memory := by
  have pushed : between parser.stack.memory (addSgmlProcInstruction callbacks parser.stack target).2.memory :=
    keeps.push (parser.stack.newNode .processingInstruction target.string).2 _
  refine keeps.trans pushed (keeps.trans ?_ (keeps.pop _))
  unfold parseInstructionData
  split
  · split
    · exact keeps.refl _
    · exact parseSgmlAttributes_memory keeps ⟨_, parser.log⟩ _
  · exact keeps.refl _

theorem popDomState_memory (keeps : KeepsMemory callbacks between) (stack : DomStack) (count : Nat) :
    between stack.memory (popDomState callbacks stack count).memory := by
  induction count generalizing stack with
  | zero => exact keeps.refl _
  | succ count ih =>
      unfold popDomState
      split
      · exact keeps.refl _
      · split
        · exact keeps.refl _
        · exact keeps.trans (keeps.pop stack) (ih _)

theorem endTag_memory (keeps : KeepsMemory callbacks between) (stack : DomStack) (name : List UInt8) :
    between stack.memory (endTag callbacks stack name).memory := by
  unfold endTag
  split
  · exact keeps.pop stack
  · split
    · exact keeps.refl _
    · exact popDomState_memory keeps stack _

theorem parseSgmlPlain_memory (keeps : KeepsMemory callbacks between) (parser : SgmlParser)
    (tag : Option (List StackState)) (tokens : List SgmlToken) :
    between parser.stack.memory (parseSgmlPlain callbacks scanAttributes parser tag tokens).stack.memory := by
  have element (stack : DomStack) (token : SgmlToken) :
      between stack.memory (addSgmlElement callbacks stack token).2.memory :=
    keeps.push (stack.newNode .element token.string).2 _
  fun_induction parseSgmlPlain callbacks scanAttributes parser tag tokens with
  | case1 => exact keeps.refl _
  | case2 parser tag token tokens isType pushed stack added ih =>
      have opened := element parser.stack token
      rw [added] at opened
      exact keeps.trans opened ih
  | case3 parser tag token tokens before isType stack added ih =>
      have opened := element parser.stack token
      rw [added] at opened
      exact keeps.trans opened ih
  | case4 parser tag token tokens before isType stack added result ih =>
      have opened := element parser.stack token
      rw [added] at opened
      exact keeps.trans opened (keeps.trans (parseSgmlAttributes_memory keeps ⟨stack, parser.log⟩ tokens) ih)
  | case5 parser tag token tokens before isType stack ih => exact keeps.trans (keeps.pop _) ih
  | case6 parser tag token tokens before isType stack ih => exact keeps.trans (endTag_memory keeps _ _) ih
  | case7 parser tag token tokens _ ih => exact keeps.trans (addLeaf_memory keeps parser _ token) ih
  | case8 parser tag token tokens _ ih => exact ih
  | case9 parser tag token tokens _ ih => exact ih
  | case10 parser tag token tokens _ ih => exact ih
  | case11 parser tag token tokens _ ih => exact ih
  | case12 parser tag token tokens _ ih => exact ih
  | case13 parser tag token tokens _ ih => exact keeps.trans (addLeaf_memory keeps parser _ token) ih
  | case14 => exact keeps.refl _
  | case15 parser tag target _ data tokens ih =>
      exact keeps.trans (processInstruction_memory keeps parser target data) ih
  | case16 => exact keeps.refl _
  | case17 parser tag target _ data tokens ih =>
      exact keeps.trans (processInstruction_memory keeps parser target data) ih
  | case18 => exact keeps.refl _
  | case19 parser tag target _ data tokens ih =>
      exact keeps.trans (processInstruction_memory keeps parser target data) ih
  | case20 parser tag token tokens _ ih => exact keeps.trans (addLeaf_memory keeps parser _ token) ih
  | case21 parser tag token tokens _ _ _ _ _ _ _ _ _ _ _ _ _ _ _ ih =>
      exact keeps.trans (addLeaf_memory keeps parser _ token) ih

theorem sgmlParsingPop_memory (keeps : KeepsMemory callbacks between) (stack : DomStack) (depth rounds : Nat) :
    between stack.memory (sgmlParsingPop callbacks stack depth rounds).memory := by
  induction rounds generalizing stack with
  | zero => exact keeps.refl _
  | succ rounds ih =>
      rw [sgmlParsingPop]
      split
      · exact keeps.trans (keeps.pop (stack.setTop false)) (ih _)
      · exact keeps.refl _

/-- The memory behind a call that is not refused: what was kept between its parsing state and its end. -/
theorem parseSgml_memory (keeps : KeepsMemory callbacks between) {stack opened : DomStack} {uri : List UInt8}
    (document : openDocument callbacks stack uri = (true, opened))
    (accepted : ¬ opened.memory.parsing > domStackMaxDepth) (tokens : List SgmlToken) :
    ∃ closed : DomStack, between (initSgmlParsingState opened).memory closed.memory ∧
      (parseSgml callbacks scanAttributes stack uri tokens).stack =
        doneSgmlParsingState closed (initSgmlParsingState opened).memory.parsingBlock := by
  unfold parseSgml
  rw [document]
  dsimp only
  rw [if_neg accepted]
  have parsed := @parseSgmlPlain_memory _ _ scanAttributes keeps ⟨initSgmlParsingState opened, []⟩
    none tokens
  exact ⟨_, keeps.trans parsed (sgmlParsingPop_memory keeps _ _ _), rfl⟩

/-- A pointer that was used in a block that is gone is not forgotten. -/
def StaysStale (first second : StackMemory) : Prop := first.stale = true → second.stale = true

theorem staysStale_keeps (stays : ∀ action stack, StaysStale stack.memory (callbacks action stack).memory) :
    KeepsMemory callbacks StaysStale where
  refl _ := id
  trans first second := second ∘ first
  push stack node := by
    unfold pushDomNode
    split
    · exact id
    · exact stays .push (stack.grow node)
  pop stack := by
    unfold popDomNode
    split
    · exact id
    · split
      · exact id
      · intro stale
        have after := stays .pop stack stale
        show (_ || _) = true
        rw [after, Bool.true_or]

theorem openDocument_stale (keeps : KeepsMemory callbacks StaysStale) (stack : DomStack) (uri : List UInt8) :
    StaysStale stack.memory (openDocument callbacks stack uri).2.memory := by
  have pushed := keeps.push (stack.newNode .document uri).2 (stack.newNode .document uri).1
  unfold openDocument
  split
  · exact id
  · dsimp only
    split
    next failed =>
      rw [failed] at pushed
      exact pushed
    next added =>
      rw [added] at pushed
      exact pushed

theorem parseSgml_stale (keeps : KeepsMemory callbacks StaysStale) (stack : DomStack) (uri : List UInt8)
    (tokens : List SgmlToken) :
    StaysStale stack.memory (parseSgml callbacks scanAttributes stack uri tokens).stack.memory := by
  have opens := openDocument_stale keeps stack uri
  cases document : openDocument callbacks stack uri with
  | mk pushed opened =>
    rw [document] at opens
    intro stale
    have here : opened.memory.stale = true := opens stale
    cases pushed with
    | false =>
        unfold parseSgml
        rw [document]
        exact here
    | true =>
        by_cases refused : opened.memory.parsing > domStackMaxDepth
        · unfold parseSgml
          rw [document]
          dsimp only
          rw [if_pos refused]
          exact here
        · obtain ⟨closed, stays, same⟩ := parseSgml_memory keeps document refused tokens
          rw [same]
          show (_ || _) = true
          rw [stays here, Bool.true_or]

theorem callDomStackCallbacks_stale {contexts : List Callbacks}
    (stays : ∀ context ∈ contexts, ∀ action stack, StaysStale stack.memory (context action stack).memory)
    (action : StackAction) (stack : DomStack) :
    StaysStale stack.memory (callDomStackCallbacks contexts action stack).memory := by
  unfold callDomStackCallbacks
  generalize stack.memory.block = block
  induction contexts generalizing stack with
  | nil => exact id
  | cons context contexts ih =>
      intro stale
      refine ih (fun other inside => stays other (List.mem_cons_of_mem _ inside)) _ ?_
      apply stays context List.mem_cons_self
      show (_ || _) = true
      rw [stale, Bool.true_or]

theorem nestedCalls_stale {stack after : DomStack} (calls : NestedCalls stack after) :
    StaysStale stack.memory after.memory := by
  induction calls with
  | none stack => exact id
  | call nested scanAttributes stack uri tokens later stays ih =>
      exact ih ∘ parseSgml_stale (staysStale_keeps (callDomStackCallbacks_stale stays)) stack uri tokens

/-- No array is reallocated under a pointer, with `calls` calls of the parser under way: only the last callback
of a push pushes nodes, and it makes no more calls than the parsing states have room for. -/
structure Steady (contexts : List Callbacks) (calls : Nat) : Prop where
  pop : ∀ context ∈ contexts, ∀ stack : DomStack, stack.memory.parsing = calls →
    (context .pop stack).memory = stack.memory
  inner : ∀ context ∈ contexts.dropLast, ∀ stack : DomStack, stack.memory.parsing = calls →
    (context .push stack).memory = stack.memory
  last : ∀ context ∈ contexts.getLast?, ∀ stack : DomStack, stack.memory.parsing = calls →
    (context .push stack).memory = { stack.memory with block := (context .push stack).memory.block }

def SameButBlock (calls : Nat) (first second : StackMemory) : Prop :=
  first.parsing = calls → second = { first with block := second.block }

theorem usePointer_block (stack : DomStack) : stack.usePointer stack.memory.block = stack := by
  simp [DomStack.usePointer]

theorem callDomStackCallbacks_memory {contexts : List Callbacks} {action : StackAction} {calls : Nat}
    (keeps : ∀ context ∈ contexts, ∀ stack : DomStack, stack.memory.parsing = calls →
      (context action stack).memory = stack.memory) {stack : DomStack} (here : stack.memory.parsing = calls) :
    (callDomStackCallbacks contexts action stack).memory = stack.memory := by
  unfold callDomStackCallbacks
  generalize memory : stack.memory = start at here
  induction contexts generalizing stack with
  | nil => exact memory
  | cons context contexts ih =>
      have kept := keeps context List.mem_cons_self stack (by rw [memory]; exact here)
      rw [List.foldl_cons, ← memory, usePointer_block, memory]
      exact ih (fun other inside => keeps other (List.mem_cons_of_mem _ inside)) (kept.trans memory)

theorem Steady.push {contexts : List Callbacks} {calls : Nat} (steady : Steady contexts calls) (stack : DomStack) :
    SameButBlock calls stack.memory (callDomStackCallbacks contexts .push stack).memory := by
  intro here
  rcases List.eq_nil_or_concat contexts with rfl | ⟨front, last, rfl⟩
  · rfl
  · have inner := steady.inner
    rw [List.concat_eq_append, List.dropLast_concat] at inner
    have kept := callDomStackCallbacks_memory inner here
    have ends := steady.last last (by simp)
    have split : callDomStackCallbacks (front.concat last) .push stack =
        last .push ((callDomStackCallbacks front .push stack).usePointer stack.memory.block) := by
      rw [callDomStackCallbacks, List.concat_eq_append, List.foldl_append]
      rfl
    rw [← kept, usePointer_block] at split
    have after := ends (callDomStackCallbacks front .push stack) (by rw [kept]; exact here)
    rw [split, ← kept]
    exact after

theorem Steady.keeps {contexts : List Callbacks} {calls : Nat} (steady : Steady contexts calls) :
    KeepsMemory (callDomStackCallbacks contexts) (SameButBlock calls) where
  refl _ _ := rfl
  trans {first second third} early late here := by
    have same := early here
    have parsing : second.parsing = calls := by rw [same]; exact here
    rw [late parsing, same]
  push stack node := by
    unfold pushDomNode
    split
    · exact fun _ => rfl
    · intro here
      exact steady.push (stack.grow node) here
  pop stack := by
    unfold popDomNode
    split
    · exact fun _ => rfl
    · split
      · exact fun _ => rfl
      · intro here
        have kept := callDomStackCallbacks_memory steady.pop here
        dsimp only
        rw [← kept, usePointer_block]

end Memory

section Calls
variable {callbacks : Callbacks} (scanAttributes : List UInt8 → List SgmlToken) {stack : DomStack}

theorem protect_fixed {states : List StackState} (filled : states ≠ []) : TopImmutable (protect states) := by
  cases states with
  | nil => exact absurd rfl filled
  | cons state below => exact ⟨_, rfl, rfl⟩

/-- The body of a call of the parser: all that it puts on the stack is gone behind it. -/
theorem parsed_states (tame : Tame callbacks) (root : stack.root = true) (filled : stack.states ≠ [])
    (tokens : List SgmlToken) :
    let parser := parseSgmlPlain callbacks scanAttributes ⟨initSgmlParsingState stack, []⟩ none tokens
    let closed := sgmlParsingPop callbacks parser.stack stack.states.length
      (parser.stack.states.length - stack.states.length)
    closed.root = true ∧ closed.states = protect stack.states ∧ (Quiet callbacks → Logged parser) := by
  intro parser closed
  have start : Parsing callbacks (protect stack.states) ⟨initSgmlParsingState stack, []⟩ := by
    refine ⟨⟨root, [], rfl⟩, fun _ event inside => ?_⟩
    cases inside
  have parsing : Parsing callbacks (protect stack.states) parser := by
    apply parseSgmlPlain_parsing tame (protect_fixed filled) _ none tokens start
    intro _ below inside
    cases inside
  obtain ⟨⟨rooted, above, parts⟩, logged⟩ := parsing
  have same : (protect stack.states).length = stack.states.length := List.length_modifyHead
  have height : parser.stack.states.length - stack.states.length = above.length := by
    rw [parts, List.length_append, same]
    omega
  obtain ⟨rooted, left⟩ := sgmlParsingPop_states tame rooted parts
  rw [same, ← height] at left rooted
  exact ⟨rooted, left, logged⟩

/-- A call on a stack that is open already: it is refused, or its states are those of its body. -/
theorem parseSgml_rooted (tame : Tame callbacks) (root : stack.root = true) (filled : stack.states ≠ [])
    (uri : List UInt8) (tokens : List SgmlToken) :
    (parseSgml callbacks scanAttributes stack uri tokens).stack.root = true ∧
      (parseSgml callbacks scanAttributes stack uri tokens).stack.states =
        if stack.memory.parsing > domStackMaxDepth then stack.states else protect stack.states := by
  unfold parseSgml
  rw [openDocument, if_pos root]
  dsimp only
  split
  · exact ⟨root, rfl⟩
  · obtain ⟨rooted, left, _⟩ := parsed_states scanAttributes tame root filled tokens
    exact ⟨rooted, left⟩

theorem nestedCalls_tame {stack after : DomStack} (calls : NestedCalls stack after) :
    stack.root = true → stack.states ≠ [] →
      after.root = true ∧ (after.states = stack.states ∨ after.states = protect stack.states) := by
  induction calls with
  | none stack => exact fun root _ => ⟨root, .inl rfl⟩
  | call nested scanAttributes stack uri tokens later tame ih =>
      intro root filled
      obtain ⟨rooted, left⟩ :=
        parseSgml_rooted scanAttributes (callDomStackCallbacks_tame tame) root filled uri tokens
      rw [left] at ih
      split at ih
      · exact ih rooted filled
      · have still : protect stack.states ≠ [] := by
          intro empty
          obtain ⟨state, inside, _⟩ := protect_fixed filled
          rw [empty] at inside
          cases inside
        obtain ⟨rooted, same | twice⟩ := ih rooted still
        · exact ⟨rooted, .inr same⟩
        · rw [protect_protect] at twice
          exact ⟨rooted, .inr twice⟩

/-- The stack behind the document node, with the mark of `parse_sgml`. -/
def documentStack (stack : DomStack) (uri : List UInt8) : DomStack :=
  { (stack.newNode .document uri).2.grow (stack.newNode .document uri).1 with root := true }.setTop true

theorem openDocument_empty (quiet : Quiet callbacks) (root : stack.root = false) (empty : stack.states = [])
    (uri : List UInt8) : openDocument callbacks stack uri = (true, documentStack stack uri) := by
  have document : (stack.newNode .document uri).1.type ≠ .element := by
    show NodeType.document ≠ .element
    decide
  have shallow : ¬(stack.newNode .document uri).2.states.length > domStackMaxDepth := by
    show ¬stack.states.length > domStackMaxDepth
    rw [empty]
    exact Nat.not_lt_zero _
  have added := quiet_push quiet document (stack.newNode .document uri).2
  rw [if_neg shallow] at added
  rw [openDocument, if_neg (by rw [root]; decide), documentStack]
  generalize stack.newNode .document uri = made at added ⊢
  obtain ⟨node, next⟩ := made
  dsimp only at added ⊢
  rw [added]

theorem documentStack_states (empty : stack.states = []) (uri : List UInt8) :
    (documentStack stack uri).states = [⟨(stack.newNode .document uri).1, true⟩] := by
  show protect (⟨_, false⟩ :: stack.states) = _
  rw [empty]
  rfl

theorem logged_parsed {before after : List StackState} (left : before ≠ [] → after = protect before) :
    (SgmlEvent.parsed before after).Sound ↔ (SgmlEvent.parsed before after).Condition := by
  show (before ≠ [] → after = before) ↔ (before = [] ∨ TopImmutable before)
  by_cases filled : before = []
  · simp [filled]
  · simp only [ne_eq, filled, not_false_eq_true, true_implies, false_or]
    rw [left filled, protect_eq_iff filled]

theorem callDomStackCallbacks_quiet {contexts : List Callbacks} (quiet : ∀ context ∈ contexts, Quiet context) :
    Quiet (callDomStackCallbacks contexts) := by
  intro stack other
  unfold callDomStackCallbacks
  have kept : stack.usePointer stack.memory.block = stack := by simp [DomStack.usePointer]
  induction contexts with
  | nil => rfl
  | cons context contexts ih =>
      rw [List.foldl_cons, kept, quiet context List.mem_cons_self stack other]
      exact ih fun other inside => quiet other (List.mem_cons_of_mem _ inside)

theorem parseSgml_logged (tame : Tame callbacks) (quiet : Quiet callbacks)
    (rooted : stack.root = true ↔ stack.states ≠ []) (uri : List UInt8) (tokens : List SgmlToken) :
    Logged (parseSgml callbacks scanAttributes stack uri tokens) := by
  unfold parseSgml
  by_cases filled : stack.states = []
  · have root : stack.root = false := by simpa [filled] using rooted
    rw [openDocument_empty quiet root filled]
    dsimp only
    split
    · exact nofun
    · have parsed := @parsed_states _ scanAttributes (documentStack stack uri) tame rfl
        (by rw [documentStack_states filled]; exact List.cons_ne_nil _ _) tokens
      apply logged_append (parsed.2.2 quiet)
      intro event inside
      rw [List.mem_singleton.mp inside]
      exact logged_parsed fun some => absurd filled some
  · have root := rooted.mpr filled
    rw [openDocument, if_pos root]
    dsimp only
    split
    · exact nofun
    · have parsed := parsed_states scanAttributes tame root filled tokens
      apply logged_append (parsed.2.2 quiet)
      intro event inside
      rw [List.mem_singleton.mp inside]
      exact logged_parsed fun _ => parsed.2.1

/-- No pointer becomes stale in a call whose callbacks are steady. -/
theorem parseSgml_steady {contexts : List Callbacks} (steady : Steady contexts (stack.memory.parsing + 1))
    (quiet : Quiet (callDomStackCallbacks contexts)) (rooted : stack.root = true ↔ stack.states ≠ [])
    (uri : List UInt8) (tokens : List SgmlToken) :
    (parseSgml (callDomStackCallbacks contexts) scanAttributes stack uri tokens).stack.memory.stale =
      stack.memory.stale := by
  have opens : ∃ opened, openDocument (callDomStackCallbacks contexts) stack uri = (true, opened) ∧
      opened.memory.parsing = stack.memory.parsing ∧ opened.memory.stale = stack.memory.stale := by
    by_cases root : stack.root = true
    · exact ⟨stack, by rw [openDocument, if_pos root], rfl, rfl⟩
    · have empty : stack.states = [] := not_not.mp fun filled => root (rooted.mpr filled)
      exact ⟨_, openDocument_empty quiet (by simpa using root) empty uri, rfl, rfl⟩
  obtain ⟨opened, document, parsing, stale⟩ := opens
  by_cases refused : opened.memory.parsing > domStackMaxDepth
  · unfold parseSgml
    rw [document]
    dsimp only
    rw [if_pos refused]
    exact stale
  · obtain ⟨closed, kept, same⟩ := @parseSgml_memory _ _ scanAttributes steady.keeps _ _ _ document
      refused tokens
    have kept := kept (by show opened.memory.parsing + 1 = _; rw [parsing])
    rw [same, doneSgmlParsingState]
    dsimp only
    rw [kept]
    simpa [initSgmlParsingState] using stale

end Calls

/-- The pop of a state at depth 8 calls the parser for a text, whose node goes behind the end of the array. -/
def nestedText : Callbacks
  | .push, stack => stack
  | .pop, stack =>
      if stack.states.length = 8 then (parseSgml (fun _ stack => stack) (fun _ => []) stack [] [⟨.text, [120]⟩]).stack
      else stack

-- The seventh element is popped through a pointer into the old array; the sixth one is not that deep.
example : (parseSgml nestedText (fun _ => []) ⟨[], 0, false, ⟨0, 0, 0, false⟩⟩ []
    (List.replicate 7 ⟨.element, [97]⟩ ++ [⟨.elementEnd, [97]⟩])).stack.memory.stale = true := by decide +kernel

example : (parseSgml nestedText (fun _ => []) ⟨[], 0, false, ⟨0, 0, 0, false⟩⟩ []
    (List.replicate 6 ⟨.element, [97]⟩ ++ [⟨.elementEnd, [97]⟩])).stack.memory.stale = false := by decide +kernel

section Deep

theorem parseSgmlPlain_elements (scanAttributes : List UInt8 → List SgmlToken) (tokens : List SgmlToken) (count : Nat)
    (stack : DomStack) (log : List SgmlEvent) (shallow : stack.states.length + count ≤ domStackMaxDepth + 1) :
    ∃ nodes memory above, above.length = count ∧ (∀ state ∈ above, state.immutable = false) ∧
      parseSgmlPlain (callDomStackCallbacks []) scanAttributes ⟨stack, log⟩ none
        (List.replicate count ⟨.element, [97]⟩ ++ tokens) =
      parseSgmlPlain (callDomStackCallbacks []) scanAttributes
        ⟨⟨above ++ stack.states, nodes, stack.root, memory⟩, log⟩ none tokens := by
  induction count generalizing stack with
  | zero => exact ⟨stack.nodes, stack.memory, [], rfl, by simp, rfl⟩
  | succ count ih =>
      let made := stack.newNode .element [97]
      have added : addSgmlElement (callDomStackCallbacks []) stack ⟨.element, [97]⟩ = (true, made.2.grow made.1) :=
        if_neg (by show ¬ stack.states.length > _; omega)
      obtain ⟨nodes, memory, above, height, mutable, parsed⟩ := ih (made.2.grow made.1)
        (by show stack.states.length + 1 + count ≤ _; omega)
      refine ⟨nodes, memory, above ++ [⟨made.1, false⟩], by simp [height], ?_, ?_⟩
      · intro state inside
        rcases List.mem_append.mp inside with inside | inside
        · exact mutable state inside
        · rw [List.mem_singleton.mp inside]
      · rw [List.replicate_succ, List.cons_append, parseSgmlPlain.eq_def]
        dsimp only
        rw [added]
        dsimp only
        rw [parsed, List.append_assoc]
        rfl

end Deep

end KcnTools.Dom
