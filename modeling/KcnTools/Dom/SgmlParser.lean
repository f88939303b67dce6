import KcnTools.Dom.DomStack
import Mathlib

/-! The SGML parser (dom/sgml/parser.c) over the tokens of its scanner. What each token
did to the stack is kept in a log. The lists of children of the nodes are left out. -/

namespace KcnTools.Dom

/-- `enum sgml_token_type`; a token of one char has its value as type. -/
inductive SgmlTokenType
  | char (c : UInt8)
  | ident
  | tagEnd
  | string
  | notationOther
  | notationComment
  | notationDoctype
  | notationElement
  | notationEntity
  | notationAttlist
  | cdataSection
  | process
  | processXml
  | processXmlStylesheet
  | processData
  | element
  | elementBegin
  | elementEnd
  | elementEmptyEnd
  | attribute
  | entity
  | text
  | space
  | garbage
  deriving DecidableEq

structure SgmlToken where
  type : SgmlTokenType
  string : List UInt8
  deriving DecidableEq

inductive SgmlEvent
  /-- a text, comment, CDATA, entity or attribute token -/
  | leaf (type : NodeType) (before after : List StackState)
  | instruction (before after : List StackState)
  /-- `tag`: the states in front of the start tag that ends here -/
  | emptyEnd (tag : Option (List StackState)) (before after : List StackState)
  /-- `skipped`: an end tag that a refused start tag takes with it -/
  | endTag (skipped : Bool) (name : List UInt8) (before after : List StackState)
  /-- a call of `parse_sgml` -/
  | parsed (before after : List StackState)

structure SgmlParser where
  stack : DomStack
  log : List SgmlEvent

def DomStack.newNode (stack : DomStack) (type : NodeType) (string : List UInt8) : DomNode × DomStack :=
  (⟨type, string, stack.nodes⟩, { stack with nodes := stack.nodes + 1 })

section
variable (callbacks : Callbacks)

def addSgmlElement (stack : DomStack) (token : SgmlToken) : Bool × DomStack :=
  let (node, stack) := stack.newNode .element token.string
  pushDomNode callbacks stack node

def addLeaf (parser : SgmlParser) (type : NodeType) (token : SgmlToken) : SgmlParser :=
  let (node, stack) := parser.stack.newNode type token.string
  let (pushed, stack) := pushDomNode callbacks stack node
  let stack := if pushed then popDomNode callbacks stack else stack
  ⟨stack, parser.log ++ [.leaf type parser.stack.states stack.states]⟩

def addSgmlAttribute (parser : SgmlParser) (token : SgmlToken) : SgmlParser :=
  addLeaf callbacks parser .attribute token

def addSgmlNode (parser : SgmlParser) (type : NodeType) (token : SgmlToken) : SgmlParser :=
  addLeaf callbacks parser type token

def addSgmlProcInstruction (stack : DomStack) (target : SgmlToken) : Bool × DomStack :=
  let (node, stack) := stack.newNode .processingInstruction target.string
  pushDomNode callbacks stack node

/-- The value behind the name of an attribute, and the tokens behind it. A token that can
be no value is left. -/
def attributeValue : List SgmlToken → List SgmlToken
  | ⟨.char 61, _⟩ :: token :: tokens =>
      if token.type ∈ [.ident, .attribute, .string] then tokens else token :: tokens
  | ⟨.char 61, _⟩ :: [] => []
  | tokens => tokens

theorem attributeValue_length (tokens : List SgmlToken) : (attributeValue tokens).length ≤ tokens.length := by
  unfold attributeValue
  split
  · split <;> simp only [List.length_cons] <;> omega
  · exact Nat.zero_le _
  · exact Nat.le_refl _

/-- The loop of `parse_sgml_attributes`: whether the tag is still open behind it, and the
tokens that are left. -/
def parseSgmlAttributes (parser : SgmlParser) (tokens : List SgmlToken) : SgmlParser × Bool × List SgmlToken :=
  match tokens with
  | [] => (parser, true, [])
  | token :: tokens =>
      match token.type with
      | .tagEnd => (parser, false, tokens)
      | .element | .elementBegin | .elementEnd | .elementEmptyEnd => (parser, true, token :: tokens)
      | .ident => parseSgmlAttributes (addSgmlAttribute callbacks parser token) (attributeValue tokens)
      | _ => parseSgmlAttributes parser tokens
termination_by tokens.length
decreasing_by
  · have := attributeValue_length tokens
    simp only [List.length_cons]
    omega
  · simp

theorem parseSgmlAttributes_length (parser : SgmlParser) (tokens : List SgmlToken) :
    (parseSgmlAttributes callbacks parser tokens).2.2.length ≤ tokens.length := by
  fun_induction parseSgmlAttributes callbacks parser tokens with
  | case1 => exact Nat.le_refl _
  | case2 => simp
  | case3 => exact Nat.le_refl _
  | case4 => exact Nat.le_refl _
  | case5 => exact Nat.le_refl _
  | case6 => exact Nat.le_refl _
  | case7 parser token tokens _ ih =>
      have := attributeValue_length tokens
      rw [List.length_cons]
      omega
  | case8 parser token tokens _ _ _ _ _ _ ih =>
      rw [List.length_cons]
      omega

end

def getSgmlPrecedence : SgmlTokenType → Nat
  | .char 60 => 2 ^ 11
  | .char 62 => 2 ^ 10
  | _ => 0

/-- `skip_sgml_tokens(scanner, SGML_TOKEN_TAG_END)`: the tokens that are skipped in front of
the end of a tag, and those behind it. -/
def skipToTagEnd : List SgmlToken → List SgmlToken × List SgmlToken
  | [] => ([], [])
  | token :: tokens =>
      if token.type = .tagEnd then ([], tokens)
      else if getSgmlPrecedence token.type > getSgmlPrecedence .tagEnd then ([], token :: tokens)
      else (token :: (skipToTagEnd tokens).1, (skipToTagEnd tokens).2)

theorem skipToTagEnd_length (tokens : List SgmlToken) : (skipToTagEnd tokens).2.length ≤ tokens.length := by
  induction tokens with
  | nil => exact Nat.le_refl _
  | cons token tokens ih =>
      rw [skipToTagEnd]
      split
      · exact Nat.le_succ _
      · split
        · exact Nat.le_refl _
        · exact Nat.le_succ_of_le ih

def skippedEnds (states : List StackState) (tokens : List SgmlToken) : List SgmlEvent :=
  (tokens.filter fun token => token.type = .elementEnd).map fun token => .endTag true token.string states states

section
variable (callbacks : Callbacks) (scanAttributes : List UInt8 → List SgmlToken)

/-- The attributes in the data of an instruction. Their tokens are those of a scanner of
their own, `scanAttributes`. -/
def parseInstructionData (parser : SgmlParser) (pushed : Bool) (target data : SgmlToken) : SgmlParser :=
  if pushed ∧ target.type ∈ [.processXml, .processXmlStylesheet] ∧ 0 < data.string.length then
    match scanAttributes data.string with
    | [] => parser
    | token :: tokens =>
        (parseSgmlAttributes callbacks parser (if token.type = .elementBegin then tokens else token :: tokens)).1
  else parser

def processInstruction (parser : SgmlParser) (target data : SgmlToken) : SgmlParser :=
  let result := addSgmlProcInstruction callbacks parser.stack target
  let inside := parseInstructionData callbacks scanAttributes { parser with stack := result.2 } result.1 target data
  let stack := popDomNode callbacks inside.stack
  ⟨stack, inside.log ++ [.instruction parser.stack.states stack.states]⟩

def endTag (stack : DomStack) (name : List UInt8) : DomStack :=
  if name = [] then popDomNode callbacks stack
  else
    match searchDomStack stack .element name with
    | none => stack
    | some above => popDomState callbacks stack (above + 1)

/-- The loop of `parse_sgml_plain`. `tag` is set behind the attributes of a start tag that
is still open, to the states in front of it. -/
def parseSgmlPlain (parser : SgmlParser) (tag : Option (List StackState)) (tokens : List SgmlToken) : SgmlParser :=
  match tokens with
  | [] => parser
  | token :: tokens =>
      let before := parser.stack.states
      match token.type with
      | .element =>
          let (_, stack) := addSgmlElement callbacks parser.stack token
          parseSgmlPlain { parser with stack := stack } none tokens
      | .elementBegin =>
          match addSgmlElement callbacks parser.stack token with
          | (false, stack) =>
              parseSgmlPlain ⟨stack, parser.log ++ skippedEnds before (skipToTagEnd tokens).1⟩ none
                (skipToTagEnd tokens).2
          | (true, stack) =>
              let result := parseSgmlAttributes callbacks { parser with stack := stack } tokens
              parseSgmlPlain result.1 (if result.2.1 then some before else none) result.2.2
      | .elementEmptyEnd =>
          let stack := popDomNode callbacks parser.stack
          parseSgmlPlain ⟨stack, parser.log ++ [.emptyEnd tag before stack.states]⟩ none tokens
      | .elementEnd =>
          let stack := endTag callbacks parser.stack token.string
          parseSgmlPlain ⟨stack, parser.log ++ [.endTag false token.string before stack.states]⟩ none tokens
      | .notationComment => parseSgmlPlain (addSgmlNode callbacks parser .comment token) none tokens
      | .notationAttlist | .notationDoctype | .notationElement | .notationEntity | .notationOther =>
          parseSgmlPlain parser none tokens
      | .cdataSection => parseSgmlPlain (addSgmlNode callbacks parser .cdataSection token) none tokens
      | .processXmlStylesheet | .processXml | .process =>
          match tokens with
          | [] => parser
          | data :: tokens =>
              parseSgmlPlain (processInstruction callbacks scanAttributes parser token data) none tokens
      | .entity => parseSgmlPlain (addSgmlNode callbacks parser .entityReference token) none tokens
      | _ => parseSgmlPlain (addSgmlNode callbacks parser .text token) none tokens
termination_by tokens.length
decreasing_by
  all_goals simp only [List.length_cons]
  all_goals first
    | omega
    | exact Nat.lt_succ_of_le (skipToTagEnd_length _)
    | exact Nat.lt_succ_of_le (parseSgmlAttributes_length callbacks _ _)

def sgmlParsingPop (stack : DomStack) (depth : Nat) : Nat → DomStack
  | 0 => stack
  | rounds + 1 =>
      if depth < stack.states.length then sgmlParsingPop (popDomNode callbacks (stack.setTop false)) depth rounds
      else stack

def openDocument (stack : DomStack) (uri : List UInt8) : Bool × DomStack :=
  if stack.root then (true, stack)
  else
    let (node, stack) := stack.newNode .document uri
    match pushDomNode callbacks stack node with
    | (false, stack) => (false, stack)
    | (true, stack) => (true, { stack with root := true }.setTop true)

/-- `init_sgml_parsing_state`: the push onto the stack of parsing states marks the top of the stack. -/
def initSgmlParsingState (stack : DomStack) : DomStack :=
  { stack.setTop true with
    memory := { stack.memory with
      parsing := stack.memory.parsing + 1
      parsingBlock := memAlignAlloc stack.memory.parsingBlock stack.memory.parsing } }

/-- The pop of a parsing state. The call has used its pointer to it, and to the scanner in it, up to here. -/
def doneSgmlParsingState (stack : DomStack) (parsingBlock : Nat) : DomStack :=
  { stack with
    memory := { stack.memory with
      parsing := stack.memory.parsing - 1
      stale := stack.memory.stale || stack.memory.parsingBlock != parsingBlock } }

def parseSgml (stack : DomStack) (uri : List UInt8) (tokens : List SgmlToken) : SgmlParser :=
  match openDocument callbacks stack uri with
  | (false, opened) => ⟨opened, []⟩
  | (true, opened) =>
      if opened.memory.parsing > domStackMaxDepth then ⟨opened, []⟩
      else
        let started := initSgmlParsingState opened
        let parser := parseSgmlPlain callbacks scanAttributes ⟨started, []⟩ none tokens
        let depth := opened.states.length
        let closed := sgmlParsingPop callbacks parser.stack depth (parser.stack.states.length - depth)
        let done := doneSgmlParsingState closed started.memory.parsingBlock
        ⟨done, parser.log ++ [.parsed stack.states done.states]⟩

end

end KcnTools.Dom
