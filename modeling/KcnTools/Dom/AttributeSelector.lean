import KcnTools.Dom.NodeMap

/-! Attribute selectors (dom/select.c): how they are parsed, and how they are matched against the
attributes of an element. The value of an attribute is a slice of the document, so that some byte
stands behind it. -/

namespace KcnTools.Dom

open Protocols (cTolower cStrncasecmp byteAt)

def attributeAny : Nat := 1
def attributeExact : Nat := 2
def attributeSpaceList : Nat := 4
def attributeHyphenList : Nat := 8
def attributeBegin : Nat := 16
def attributeEnd : Nat := 32
def attributeContains : Nat := 64
def attributeId : Nat := 128

structure SelectNode where
  string : List UInt8
  type : Nat
  /-- `match.attribute` -/
  flags : Nat
  value : List UInt8

def SelectNode.has (selector : SelectNode) (flag : Nat) : Bool := selector.flags &&& flag != 0

inductive CssTokenType where
  | openBracket | closeBracket | ident | string
  | selectSpaceList | selectHyphenList | selectBegin | selectEnd | selectContains
  | other
  deriving DecidableEq

structure CssToken where
  type : CssTokenType
  string : List UInt8

inductive DomException where
  | invalidState | syntaxError
  deriving DecidableEq

def operatorFlag : CssTokenType → Option Nat
  | .selectSpaceList => some attributeSpaceList
  | .selectHyphenList => some attributeHyphenList
  | .selectBegin => some attributeBegin
  | .selectEnd => some attributeEnd
  | .selectContains => some attributeContains
  | _ => none

def parseAttributeValue (sel : SelectNode) : List CssToken → Except DomException SelectNode
  | [] => .error .syntaxError
  | token :: tokens =>
      if token.type = .ident ∨ token.type = .string then
        match tokens with
        | next :: _ => if next.type = .closeBracket then .ok { sel with value := token.string } else .error .syntaxError
        | [] => .error .syntaxError
      else .error .syntaxError

def parseDomSelectAttribute (sel : SelectNode) : List CssToken → Except DomException SelectNode
  | [] => .error .invalidState
  | token :: tokens =>
      if token.type ≠ .openBracket then .error .invalidState
      else
        match tokens with
        | [] => .error .syntaxError
        | token :: tokens =>
            if token.type ≠ .ident then .error .syntaxError
            else
              let sel := { sel with string := token.string }
              match tokens with
              | [] => .error .syntaxError
              | token :: tokens =>
                  if token.type = .closeBracket then .ok { sel with flags := sel.flags ||| attributeAny }
                  else
                    match operatorFlag token.type with
                    | none => .error .syntaxError
                    | some flag => parseAttributeValue { sel with flags := sel.flags ||| flag } tokens

/-- What a match comes to, and whether it read only bytes of the two values. -/
structure Matched where
  result : Bool
  inside : Bool
  deriving DecidableEq

def isspace (c : UInt8) : Bool := c = 32 || (9 ≤ c && c ≤ 13)

/-- The loop of `match_attribute_value` over the windows of a value. `behind` is the byte after the value, which
`str.string[str.length]` is at any window. -/
def slideWindow (separator : UInt8) (selvalue : List UInt8) (behind : UInt8) : Bool → List UInt8 → Matched
  | _, [] => ⟨false, true⟩
  | doCompare, c :: str =>
      if (c :: str).length < selvalue.length then ⟨false, true⟩
      else
        let hit := doCompare && cStrncasecmp (c :: str) selvalue selvalue.length == 0
        if hit && (c :: str).length == selvalue.length then ⟨true, true⟩
        else
          let reads := hit && separator != 0
          let accepts := hit &&
            (if separator = 0 then true else if separator = 45 then behind == separator else isspace behind)
          if accepts then ⟨true, !reads⟩
          else
            let doCompare := if separator = 0 then true else if separator = 45 then c == 45 else isspace c
            let rest := slideWindow separator selvalue behind doCompare str
            ⟨rest.result, rest.inside && !reads⟩

/-- `match_attribute_value`, with the value of the attribute and the byte behind it. -/
def matchAttributeValue (selector : SelectNode) (value : List UInt8) (behind : UInt8) : Matched :=
  let selvalue := selector.value
  if value.length < selvalue.length then ⟨false, true⟩
  else if selector.has attributeExact then ⟨domStringCasecmp value selvalue == 0, true⟩
  else if selector.has attributeBegin then
    ⟨domStringCasecmp (value.take selvalue.length) selvalue == 0, true⟩
  else if selector.has attributeEnd then
    ⟨domStringCasecmp (value.drop (value.length - selvalue.length)) selvalue == 0, true⟩
  -- the separators of the other two are set, and then the branch of the last `else` is taken for them
  else if selector.has attributeSpaceList then slideWindow 32 selvalue behind true value
  else ⟨false, true⟩

/-! Elements. -/

structure AttributeNode where
  node : Attribute
  /-- the flag `data.attribute.id` -/
  id : Bool
  value : List UInt8
  behind : UInt8

/-- `get_dom_node_map_entry` for the name of a selector; `none` is a search that leaves the list. -/
def attributeNamed (selector : SelectNode) (attrs : List AttributeNode) : Option (Option AttributeNode) :=
  (domNodeListBsearch ⟨selector.string, selector.type, 0⟩ (attrs.map AttributeNode.node)).map fun search =>
    match search with
    | .found pos => attrs[pos]?
    | .missing _ => none

def selectedAttribute (selector : SelectNode) (attrs : List AttributeNode) : Option (Option AttributeNode) :=
  if selector.has attributeId then some (attrs.find? AttributeNode.id) else attributeNamed selector attrs

def matchSelector (selector : SelectNode) (attrs : List AttributeNode) : Option Bool :=
  (selectedAttribute selector attrs).map fun attr =>
    match attr with
    | none => false
    | some attr => selector.has attributeAny || (matchAttributeValue selector attr.value attr.behind).result

def matchSelectors (attrs : List AttributeNode) : List SelectNode → Option Bool
  | [] => some true
  | selector :: selnodes =>
      match matchSelector selector attrs with
      | none => none
      | some false => some false
      | some true => matchSelectors attrs selnodes

def matchAttributeSelectors (selnodes : Option (List SelectNode)) (attrs : Option (List AttributeNode)) :
    Option Bool :=
  match selnodes, attrs with
  | none, _ => some true
  | some _, none => some false
  | some selnodes, some attrs => matchSelectors attrs selnodes

theorem matchSelectors_iff (attrs : List AttributeNode) (selnodes : List SelectNode) :
    matchSelectors attrs selnodes = some true ↔ ∀ selector ∈ selnodes, matchSelector selector attrs = some true := by
  induction selnodes with
  | nil => simp [matchSelectors]
  | cons selector selnodes ih =>
      rw [matchSelectors, List.forall_mem_cons]
      rcases matchSelector selector attrs with _ | _ | _
      · simp
      · simp
      · simpa using ih

/-! What the operators mean. -/

inductive Operator where
  | spaceList | hyphenList | begins | ends | contains
  deriving DecidableEq

def Operator.token : Operator → CssTokenType
  | .spaceList => .selectSpaceList
  | .hyphenList => .selectHyphenList
  | .begins => .selectBegin
  | .ends => .selectEnd
  | .contains => .selectContains

def Operator.flag : Operator → Nat
  | .spaceList => attributeSpaceList
  | .hyphenList => attributeHyphenList
  | .begins => attributeBegin
  | .ends => attributeEnd
  | .contains => attributeContains

def WordOf (word value : List UInt8) : Prop :=
  ∃ front middle back, value = front ++ (middle ++ back) ∧ nameKey middle = nameKey word ∧
    (∀ c ∈ middle, isspace c = false) ∧ (∀ c ∈ front.getLast?, isspace c = true) ∧
    ∀ c ∈ back.head?, isspace c = true

def Operator.Means : Operator → List UInt8 → List UInt8 → Prop
  | .spaceList, v, w => WordOf v w
  | .hyphenList, v, w => nameKey w = nameKey v ∨ nameKey (v ++ [45]) <+: nameKey w
  | .begins, v, w => nameKey v <+: nameKey w
  | .ends, v, w => nameKey v <:+ nameKey w
  | .contains, v, w => nameKey v <:+: nameKey w

/-- The bytes of a value from a place on begin like another one, as far as a NUL in both allows to see. -/
def Agrees (v w : List UInt8) : Prop := nameKey (w.take v.length) = nameKey v ∨ PartAtNul (w.take v.length) v

def StartsWord (w : List UInt8) (place : Nat) : Prop := ∀ c ∈ (w.take place).getLast?, isspace c = true

inductive Comparison where
  | exact | begins | ends | words
  deriving DecidableEq

/-- The comparison that the flags ask for first. The flags of a relation or of a pseudo-class in front of a selector are still
set in it. -/
def comparison (flags : Nat) : Option Comparison :=
  if flags &&& attributeExact != 0 then some .exact
  else if flags &&& attributeBegin != 0 then some .begins
  else if flags &&& attributeEnd != 0 then some .ends
  else if flags &&& attributeSpaceList != 0 then some .words
  else none

def Operator.comparison : Operator → Option Comparison
  | .spaceList => some .words
  | .begins => some .begins
  | .ends => some .ends
  | .hyphenList | .contains => none

/-- The byte behind the value decides about a window that agrees at the start of a word, unless it is the last one. -/
def DecidedInside (v w : List UInt8) : Option Comparison → Prop
  | some .words => ∀ place < w.length - v.length, StartsWord w place → ¬Agrees v (w.drop place)
  | _ => True

/-- The values that a comparison takes for a match. -/
def Accepts (v w : List UInt8) : Option Comparison → Prop
  | some .exact => w.length = v.length ∧ Agrees v w
  | some .begins => Agrees v w
  | some .ends => Agrees v (w.drop (w.length - v.length))
  | some .words => StartsWord w (w.length - v.length) ∧ Agrees v (w.drop (w.length - v.length))
  | none => False

/-- When the comparison of an operator does what the operator means. -/
def Operator.Suits : Operator → List UInt8 → List UInt8 → Prop
  | .spaceList, v, w =>
      (∀ place < w.length - v.length, StartsWord w place → ¬Agrees v (w.drop place)) ∧
      (StartsWord w (w.length - v.length) → Agrees v (w.drop (w.length - v.length)) →
        nameKey (w.drop (w.length - v.length)) = nameKey v ∧ ∀ c ∈ v, isspace c = false)
  | .hyphenList, v, w => ¬Operator.Means .hyphenList v w
  | .begins, v, w => ¬PartAtNul (w.take v.length) v
  | .ends, v, w => ¬PartAtNul (w.drop (w.length - v.length)) v
  | .contains, v, w => ¬Operator.Means .contains v w

def Operator.Holds (op : Operator) (flags : Nat) (v w : List UInt8) : Prop :=
  v.length ≤ w.length →
    if Dom.comparison flags = op.comparison then op.Suits v w
    else DecidedInside v w (Dom.comparison flags) ∧ (Accepts v w (Dom.comparison flags) ↔ op.Means v w)

theorem partAtNul_cons {first second : List UInt8} {c d : UInt8} (same : cTolower c = cTolower d)
    (named : cTolower c ≠ 0) : PartAtNul (c :: first) (d :: second) ↔ PartAtNul first second := by
  constructor
  · rintro ⟨front, back, front', back', left, right, agree, differ⟩
    cases front with
    | nil =>
        rw [List.nil_append, List.cons.injEq] at left
        exact absurd (cTolower_eq_zero.mpr left.1) named
    | cons e front =>
        cases front' with
        | nil => exact absurd agree (by simp [nameKey])
        | cons e' front' =>
            rw [List.cons_append, List.cons.injEq] at left right
            rw [nameKey, nameKey, List.map_cons, List.map_cons, List.cons.injEq] at agree
            exact ⟨front, back, front', back', left.2, right.2, agree.2, differ⟩
  · exact PartAtNul.cons same

theorem cStrncasecmp_eq_zero {v w : List UInt8} (long : v.length ≤ w.length) :
    cStrncasecmp w v v.length = 0 ↔ Agrees v w := by
  induction v generalizing w with
  | nil => exact iff_of_true rfl (Or.inl (by simp))
  | cons d v ih =>
      cases w with
      | nil => exact absurd long (by simp)
      | cons c w =>
          have step : cStrncasecmp (c :: w) (d :: v) (d :: v).length =
              if cTolower c ≠ cTolower d then if cTolower c < cTolower d then -1 else 1
              else if cTolower c = 0 then 0 else cStrncasecmp w v v.length := by
            rw [List.length_cons, cStrncasecmp]
            rfl
          rw [step, Agrees, List.length_cons, List.take_succ_cons, nameKey, nameKey, List.map_cons, List.map_cons,
            List.cons.injEq, UInt8.toNat_inj]
          by_cases same : cTolower c = cTolower d
          · rw [if_neg (not_not_intro same)]
            by_cases nul : cTolower c = 0
            · rw [if_pos nul]
              refine iff_of_true rfl ?_
              by_cases keys : nameKey (w.take v.length) = nameKey v
              · exact Or.inl ⟨same, keys⟩
              · have first := cTolower_eq_zero.mp nul
                have second := cTolower_eq_zero.mp (same ▸ nul)
                exact Or.inr ⟨[], w.take v.length, [], v, by rw [first]; rfl, by rw [second]; rfl, rfl, keys⟩
            · rw [if_neg nul, partAtNul_cons same nul, ih (Nat.le_of_succ_le_succ long)]
              simp only [same, true_and]
              rfl
          · rw [if_pos same]
            refine iff_of_false (by split <;> decide) ?_
            rintro (⟨equal, _⟩ | ⟨front, back, front', back', left, right, agree, _⟩)
            · exact same equal
            · cases front with
              | nil =>
                  cases front' with
                  | nil =>
                      rw [List.nil_append, List.cons.injEq] at left right
                      exact same (by rw [left.1, right.1])
                  | cons e' front' => exact absurd agree (by simp [nameKey])
              | cons e front =>
                  cases front' with
                  | nil => exact absurd agree (by simp [nameKey])
                  | cons e' front' =>
                      rw [List.cons_append, List.cons.injEq] at left right
                      rw [nameKey, nameKey, List.map_cons, List.map_cons, List.cons.injEq, UInt8.toNat_inj] at agree
                      exact same (by rw [left.1, right.1]; exact agree.1)

theorem domStringCasecmp_eq_zero {v w : List UInt8} (small : v.length < intSize) (same : w.length = v.length) :
    domStringCasecmp w v = 0 ↔ Agrees v w := by
  rw [← cStrncasecmp_eq_zero (le_of_eq same.symm), domStringCasecmp_eq (by omega) small, same, Nat.min_self]
  dsimp only
  split
  next differs => rfl
  next zero =>
    rw [not_not] at zero
    rw [zero, Int.sub_self]

theorem nameKey_length (name : List UInt8) : (nameKey name).length = name.length := List.length_map _

theorem nameKey_append (first second : List UInt8) : nameKey (first ++ second) = nameKey first ++ nameKey second :=
  List.map_append

theorem begins_iff {v w : List UInt8} :
    Operator.Means .begins v w ↔ nameKey (w.take v.length) = nameKey v := by
  rw [Operator.Means, List.prefix_iff_eq_take, nameKey_length, nameKey, nameKey, nameKey, List.map_take, eq_comm]

theorem ends_iff {v w : List UInt8} :
    Operator.Means .ends v w ↔ nameKey (w.drop (w.length - v.length)) = nameKey v := by
  rw [Operator.Means, List.suffix_iff_eq_drop, nameKey_length, nameKey_length, nameKey, nameKey, nameKey,
    List.map_drop, eq_comm]

/-- A window of the right length agrees just when it is the same, unless a NUL hides the difference. -/
theorem agrees_iff {v w : List UInt8} (same : w.length = v.length) (whole : ¬PartAtNul w v) :
    Agrees v w ↔ nameKey w = nameKey v := by
  rw [Agrees, ← same, List.take_length]
  exact or_iff_left whole

/-- A NUL that hides a difference makes a window agree that is not the same. -/
theorem not_same_of_partAtNul {v w : List UInt8} (parts : PartAtNul w v) : nameKey w ≠ nameKey v := by
  obtain ⟨front, back, front', back', rfl, rfl, agree, differ⟩ := parts
  rw [nameKey_append, nameKey_append, agree]
  intro equal
  have tails := List.append_cancel_left equal
  rw [nameKey, nameKey, List.map_cons, List.map_cons, List.cons.injEq] at tails
  exact differ tails.2

theorem window_iff {v w : List UInt8} (same : w.length = v.length) :
    (Agrees v w ↔ nameKey w = nameKey v) ↔ ¬PartAtNul w v := by
  constructor
  · intro equal parts
    refine not_same_of_partAtNul parts (equal.mp ?_)
    rw [Agrees, ← same, List.take_length]
    exact Or.inr parts
  · exact agrees_iff same

/-! The list of words. -/

def Compares (doCompare : Bool) (str : List UInt8) (place : Nat) : Prop :=
  match (str.take place).getLast? with
  | none => doCompare = true
  | some c => isspace c = true

theorem compares_succ (doCompare : Bool) (c : UInt8) (str : List UInt8) (place : Nat) :
    Compares doCompare (c :: str) (place + 1) ↔ Compares (isspace c) str place := by
  rw [Compares, Compares, List.take_succ_cons, List.getLast?_cons]
  cases (str.take place).getLast? <;> rfl

theorem compares_true (str : List UInt8) (place : Nat) : Compares true str place ↔ StartsWord str place := by
  rw [Compares, StartsWord]
  cases (str.take place).getLast? <;> simp

theorem slideWindow_short {separator : UInt8} {v str : List UInt8} (behind : UInt8) (doCompare : Bool)
    (short : str.length < v.length) : slideWindow separator v behind doCompare str = ⟨false, true⟩ := by
  cases str with
  | nil => rw [slideWindow]
  | cons c str => rw [slideWindow, if_pos short]

/-- With spaces as separators, only a window at the end is decided without the byte behind the value. -/
theorem slideWindow_spec {v : List UInt8} (nonempty : v ≠ []) (behind : UInt8) (doCompare : Bool)
    {str : List UInt8} (long : v.length ≤ str.length) :
    ((slideWindow 32 v behind doCompare str).inside = true ↔
      ∀ place < str.length - v.length, Compares doCompare str place → ¬Agrees v (str.drop place)) ∧
    ((slideWindow 32 v behind doCompare str).inside = true →
      ((slideWindow 32 v behind doCompare str).result = true ↔
        Compares doCompare str (str.length - v.length) ∧ Agrees v (str.drop (str.length - v.length)))) := by
  have some := List.length_pos_iff.mpr nonempty
  induction str generalizing doCompare with
  | nil => exact absurd long (by rw [List.length_nil]; omega)
  | cons c str ih =>
      have first : Compares doCompare (c :: str) 0 ↔ doCompare = true := Iff.rfl
      have agrees : (cStrncasecmp (c :: str) v v.length == 0) = true ↔ Agrees v (c :: str) := by
        rw [beq_iff_eq, cStrncasecmp_eq_zero long]
      rw [slideWindow, if_neg (Nat.not_lt.mpr long)]
      dsimp only
      by_cases whole : (c :: str).length = v.length
      · have last : (c :: str).length - v.length = 0 := by omega
        have short : str.length < v.length := by
          rw [← whole, List.length_cons]
          exact Nat.lt_succ_self _
        rw [last, List.drop_zero, first, ← agrees]
        cases hit : doCompare && cStrncasecmp (c :: str) v v.length == 0 with
        | true =>
            rw [Bool.and_eq_true] at hit
            simp [whole, hit.1, hit.2]
        | false =>
            have missed : ¬(doCompare = true ∧ (cStrncasecmp (c :: str) v v.length == 0) = true) := by
              rw [← Bool.and_eq_true, hit]
              exact Bool.false_ne_true
            simp only [Bool.false_and, Bool.false_eq_true, ↓reduceIte, slideWindow_short behind _ short]
            exact ⟨by simp, fun _ => iff_of_false (by simp) missed⟩
      · have more : v.length ≤ str.length := by
          rw [List.length_cons] at long whole
          omega
        have places : (c :: str).length - v.length = str.length - v.length + 1 := by
          rw [List.length_cons]
          omega
        have notWhole : ((c :: str).length == v.length) = false := by simpa using whole
        obtain ⟨inside, result⟩ := ih (isspace c) more
        rw [notWhole, Bool.and_false, if_neg Bool.false_ne_true]
        cases hit : doCompare && cStrncasecmp (c :: str) v v.length == 0 with
        | true =>
            rw [Bool.and_eq_true, agrees] at hit
            have outside : ¬∀ place < (c :: str).length - v.length, Compares doCompare (c :: str) place →
                ¬Agrees v ((c :: str).drop place) := by
              intro none
              exact none 0 (by omega) (first.mpr hit.1) hit.2
            have reads : ∀ accepts : Bool, ∀ rest : Matched,
                (if accepts = true then (⟨true, !true⟩ : Matched) else ⟨rest.result, rest.inside && !true⟩).inside =
                  false := by
              intro accepts rest
              cases accepts <;> simp
            simp only [Bool.true_and, show ((32 : UInt8) != 0) = true from rfl, reads, Bool.false_eq_true, false_iff,
              false_implies, and_true]
            exact outside
        | false =>
            have missed : ¬(doCompare = true ∧ Agrees v (c :: str)) := by
              rw [← agrees, ← Bool.and_eq_true, hit]
              exact Bool.false_ne_true
            have tail : (∀ place < (c :: str).length - v.length, Compares doCompare (c :: str) place →
                ¬Agrees v ((c :: str).drop place)) ↔
                ∀ place < str.length - v.length, Compares (isspace c) str place → ¬Agrees v (str.drop place) := by
              rw [places]
              constructor
              · intro none place below starts
                exact none (place + 1) (by omega) ((compares_succ _ _ _ _).mpr starts)
              · intro none place below starts
                cases place with
                | zero => exact fun agree => missed ⟨first.mp starts, agree⟩
                | succ place => exact none place (by omega) ((compares_succ _ _ _ _).mp starts)
            simp only [Bool.false_and, Bool.false_eq_true, ↓reduceIte, Bool.not_false, Bool.and_true,
              show ((32 : UInt8) = 0) = False from by decide, show ((32 : UInt8) = 45) = False from by decide]
            rw [tail, places, compares_succ]
            exact ⟨inside, result⟩

theorem isspace_cTolower (c : UInt8) : isspace (cTolower c) = isspace c := by
  rw [cTolower]
  split
  next upper =>
    simp only [Bool.and_eq_true, decide_eq_true_eq, UInt8.le_iff_toNat_le] at upper
    have bounds : 65 ≤ c.toNat ∧ c.toNat ≤ 90 := upper
    have value : (c + 32).toNat = (c.toNat + 32) % 256 := UInt8.toNat_add c 32
    have spaces (d : UInt8) (above : 32 < d.toNat) : isspace d = false := by
      have high : ¬d ≤ 13 := by
        have limit : (13 : UInt8).toNat = 13 := rfl
        rw [UInt8.le_iff_toNat_le]
        omega
      have other : d ≠ 32 := by
        rintro rfl
        exact absurd above (by decide)
      simp [isspace, high, other]
    rw [spaces c (by omega), spaces (c + 32) (by omega)]
  next => rfl

theorem noSpace_of_nameKey {first second : List UInt8} (same : nameKey first = nameKey second)
    (noSpace : ∀ c ∈ first, isspace c = false) : ∀ c ∈ second, isspace c = false := by
  have spaces : first.map isspace = second.map isspace := by
    have lower : first.map cTolower = second.map cTolower := by
      have values := congrArg (List.map UInt8.ofNat) same
      simpa [nameKey, Function.comp_def] using values
    have all := congrArg (List.map isspace) lower
    simpa [Function.comp_def, isspace_cTolower] using all
  intro c member
  have among : isspace c ∈ first.map isspace := spaces ▸ List.mem_map_of_mem member
  obtain ⟨d, found, equal⟩ := List.mem_map.mp among
  rw [← equal]
  exact noSpace d found

/-- When no window before the last one agrees at the start of a word, only the last can be a word. -/
theorem wordOf_iff {v w : List UInt8} (long : v.length ≤ w.length)
    (earlier : ∀ place < w.length - v.length, StartsWord w place → ¬Agrees v (w.drop place)) :
    WordOf v w ↔ StartsWord w (w.length - v.length) ∧
      nameKey (w.drop (w.length - v.length)) = nameKey v ∧ ∀ c ∈ v, isspace c = false := by
  constructor
  · rintro ⟨front, middle, back, rfl, same, noSpace, before, _⟩
    have count : middle.length = v.length := by rw [← nameKey_length middle, same, nameKey_length]
    have starts : StartsWord (front ++ (middle ++ back)) front.length := by
      rw [StartsWord, List.take_left]
      exact before
    have agrees : Agrees v ((front ++ (middle ++ back)).drop front.length) := by
      rw [List.drop_left, Agrees, ← count, List.take_left]
      exact Or.inl same
    have last : front.length = (front ++ (middle ++ back)).length - v.length := by
      rcases Nat.lt_or_ge front.length ((front ++ (middle ++ back)).length - v.length) with below | above
      · exact absurd agrees (earlier _ below starts)
      · simp only [List.length_append] at above ⊢
        omega
    have rest : back = [] := by
      simp only [List.length_append] at last
      exact List.length_eq_zero_iff.mp (by omega)
    rw [← last, List.drop_left, rest, List.append_nil]
    rw [rest, List.append_nil] at starts
    exact ⟨starts, same, noSpace_of_nameKey same noSpace⟩
  · rintro ⟨starts, same, noSpace⟩
    refine ⟨w.take (w.length - v.length), w.drop (w.length - v.length), [], ?_, same,
      noSpace_of_nameKey same.symm noSpace, starts, by simp⟩
    rw [List.append_nil, List.take_append_drop]

theorem wordOf_length {v w : List UInt8} (word : WordOf v w) : v.length ≤ w.length := by
  obtain ⟨front, middle, back, rfl, same, _⟩ := word
  have count : middle.length = v.length := by rw [← nameKey_length middle, same, nameKey_length]
  simp only [List.length_append]
  omega

theorem spaceList_iff {v w : List UInt8} (long : v.length ≤ w.length) :
    DecidedInside v w (some .words) ∧ (Accepts v w (some .words) ↔ WordOf v w) ↔ Operator.Suits .spaceList v w := by
  have window : (w.drop (w.length - v.length)).length = v.length := by
    rw [List.length_drop]
    omega
  have agrees : nameKey (w.drop (w.length - v.length)) = nameKey v → Agrees v (w.drop (w.length - v.length)) := by
    intro same
    rw [Agrees, List.take_of_length_le (le_of_eq window)]
    exact Or.inl same
  refine and_congr_right fun earlier => ?_
  rw [wordOf_iff long earlier, Accepts]
  constructor
  · intro same starts agree
    exact (same.mp ⟨starts, agree⟩).2
  · intro word
    exact ⟨fun found => ⟨found.1, word found.1 found.2⟩, fun found => ⟨found.1, agrees found.2.1⟩⟩

/-! Parsed selectors. -/

theorem parseAttributeValue_ok {tokens : List CssToken} {sel parsed : SelectNode}
    (accepted : parseAttributeValue sel tokens = .ok parsed) :
    ∃ value rest, tokens = value :: rest ∧ parsed = { sel with value := value.string } := by
  unfold parseAttributeValue at accepted
  split at accepted
  · exact absurd accepted (by simp)
  next value rest =>
    refine ⟨value, rest, rfl, ?_⟩
    split at accepted
    · split at accepted
      · split at accepted
        · exact (Except.ok.inj accepted).symm
        · exact absurd accepted (by simp)
      · exact absurd accepted (by simp)
    · exact absurd accepted (by simp)

theorem operatorFlag_eq {type : CssTokenType} {flag : Nat} (found : operatorFlag type = some flag) :
    ∃ op : Operator, type = op.token ∧ flag = op.flag := by
  cases type <;> simp only [operatorFlag, Option.some.injEq, reduceCtorEq] at found
  · exact ⟨.spaceList, rfl, found.symm⟩
  · exact ⟨.hyphenList, rfl, found.symm⟩
  · exact ⟨.begins, rfl, found.symm⟩
  · exact ⟨.ends, rfl, found.symm⟩
  · exact ⟨.contains, rfl, found.symm⟩

/-- An accepted selector without a bracket behind its name has the flag of its operator besides those that were set, and the
value behind the operator. -/
theorem parseDomSelectAttribute_valued {tokens : List CssToken} {sel parsed : SelectNode}
    (accepted : parseDomSelectAttribute sel tokens = .ok parsed)
    (valued : tokens[2]?.map CssToken.type ≠ some .closeBracket) :
    ∃ (op : Operator) (bracket name operator value : CssToken) (rest : List CssToken),
      tokens = bracket :: name :: operator :: value :: rest ∧ operator.type = op.token ∧
        parsed = ⟨name.string, sel.type, sel.flags ||| op.flag, value.string⟩ := by
  rcases tokens with _ | ⟨bracket, _ | ⟨name, _ | ⟨operator, tokens⟩⟩⟩
  · exact absurd accepted (by simp [parseDomSelectAttribute])
  · exact absurd accepted (by rw [parseDomSelectAttribute]; split <;> simp)
  · exact absurd accepted (by rw [parseDomSelectAttribute]; repeat' split <;> simp)
  rw [parseDomSelectAttribute] at accepted
  split at accepted
  · exact absurd accepted (by simp)
  dsimp only at accepted
  split at accepted
  · exact absurd accepted (by simp)
  split at accepted
  next closed => exact absurd (congrArg some closed) valued
  split at accepted
  · exact absurd accepted (by simp)
  next flag found =>
    obtain ⟨op, token, rfl⟩ := operatorFlag_eq found
    obtain ⟨value, rest, rfl, result⟩ := parseAttributeValue_ok accepted
    exact ⟨op, bracket, name, operator, value, rest, rfl, token, result⟩

theorem flag_has (op : Operator) (flags other : Nat) (apart : op.flag &&& other = 0) :
    ((flags ||| op.flag) &&& other != 0) = (flags &&& other != 0) := by
  rw [Nat.and_or_distrib_right, apart, Nat.or_zero]

theorem means_length {op : Operator} {v w : List UInt8} (means : op.Means v w) : v.length ≤ w.length := by
  cases op with
  | spaceList => exact wordOf_length means
  | hyphenList =>
      rcases means with same | begins
      · rw [← nameKey_length v, ← same, nameKey_length]
      · have bound := begins.length_le
        rw [nameKey_length, nameKey_length, List.length_append] at bound
        omega
  | begins =>
      have bound := List.IsPrefix.length_le means
      rwa [nameKey_length, nameKey_length] at bound
  | ends =>
      have bound := List.IsSuffix.length_le means
      rwa [nameKey_length, nameKey_length] at bound
  | contains =>
      have bound := List.IsInfix.length_le means
      rwa [nameKey_length, nameKey_length] at bound

theorem fixedWindow_iff {v w : List UInt8} {means : Prop} (same : w.length = v.length)
    (meaning : means ↔ nameKey w = nameKey v) : (Agrees v w ↔ means) ↔ ¬PartAtNul w v := by
  rw [meaning]
  exact window_iff same

theorem matchAttributeValue_eq (selector : SelectNode) (w : List UInt8) (behind : UInt8) :
    matchAttributeValue selector w behind =
      if w.length < selector.value.length then ⟨false, true⟩
      else
        match comparison selector.flags with
        | some .exact => ⟨domStringCasecmp w selector.value == 0, true⟩
        | some .begins => ⟨domStringCasecmp (w.take selector.value.length) selector.value == 0, true⟩
        | some .ends => ⟨domStringCasecmp (w.drop (w.length - selector.value.length)) selector.value == 0, true⟩
        | some .words => slideWindow 32 selector.value behind true w
        | none => ⟨false, true⟩ := by
  rw [matchAttributeValue, comparison]
  split
  · rfl
  have has (flag : Nat) : (selector.flags &&& flag != 0) = selector.has flag := rfl
  simp only [has]
  by_cases exact : selector.has attributeExact = true
  · simp only [if_pos exact]
  by_cases begins : selector.has attributeBegin = true
  · simp only [if_neg exact, if_pos begins]
  by_cases ends : selector.has attributeEnd = true
  · simp only [if_neg exact, if_neg begins, if_pos ends]
  by_cases words : selector.has attributeSpaceList = true
  · simp only [if_neg exact, if_neg begins, if_neg ends, if_pos words]
  · simp only [if_neg exact, if_neg begins, if_neg ends, if_neg words]

theorem window_length {v w : List UInt8} (long : v.length ≤ w.length) :
    (w.take v.length).length = v.length ∧ (w.drop (w.length - v.length)).length = v.length := by
  rw [List.length_take, List.length_drop]
  omega

theorem agrees_take (v w : List UInt8) : Agrees v (w.take v.length) ↔ Agrees v w := by
  rw [Agrees, Agrees, List.take_take, Nat.min_self]

theorem exact_iff {v w : List UInt8} (smallValue : w.length < intSize) (long : v.length ≤ w.length) :
    domStringCasecmp w v = 0 ↔ w.length = v.length ∧ Agrees v w := by
  rw [← cStrncasecmp_eq_zero long, domStringCasecmp_eq smallValue (by omega), Nat.min_eq_right long]
  dsimp only
  split
  next differs => exact iff_of_false differs fun same => differs same.2
  next zero =>
    rw [not_not] at zero
    simp only [zero, and_true]
    omega

/-- Only a comparison of words looks behind the value; and what each comparison answers otherwise. -/
theorem matchAttributeValue_spec {selector : SelectNode} (nonempty : selector.value ≠ []) {w : List UInt8}
    (smallValue : w.length < intSize) (long : selector.value.length ≤ w.length) (behind : UInt8) :
    ((matchAttributeValue selector w behind).inside = true ↔
      DecidedInside selector.value w (comparison selector.flags)) ∧
    ((matchAttributeValue selector w behind).inside = true →
      ((matchAttributeValue selector w behind).result = true ↔
        Accepts selector.value w (comparison selector.flags))) := by
  have small : selector.value.length < intSize := by omega
  obtain ⟨front, back⟩ := window_length long
  rw [matchAttributeValue_eq, if_neg (Nat.not_lt.mpr long)]
  cases comparison selector.flags with
  | none => exact ⟨iff_of_true rfl trivial, fun _ => iff_of_false Bool.false_ne_true id⟩
  | some compared =>
      cases compared with
      | exact => exact ⟨iff_of_true rfl trivial, fun _ => by rw [beq_iff_eq]; exact exact_iff smallValue long⟩
      | begins =>
          refine ⟨iff_of_true rfl trivial, fun _ => ?_⟩
          rw [beq_iff_eq, domStringCasecmp_eq_zero small front, agrees_take]
          rfl
      | ends =>
          refine ⟨iff_of_true rfl trivial, fun _ => ?_⟩
          rw [beq_iff_eq, domStringCasecmp_eq_zero small back]
          rfl
      | words =>
          have spec := @slideWindow_spec _ nonempty behind true _ long
          simp only [compares_true] at spec
          exact spec

/-- The comparison of an operator is right about the values that suit it. -/
theorem suits_iff (op : Operator) {v w : List UInt8} (long : v.length ≤ w.length) :
    DecidedInside v w op.comparison ∧ (Accepts v w op.comparison ↔ op.Means v w) ↔ op.Suits v w := by
  obtain ⟨front, back⟩ := window_length long
  have never (means : Prop) : True ∧ (False ↔ means) ↔ ¬means := by simp
  cases op with
  | spaceList => exact spaceList_iff long
  | hyphenList => exact never _
  | begins =>
      have fixed := fixedWindow_iff front begins_iff
      rw [agrees_take] at fixed
      exact Iff.trans (and_iff_right trivial) fixed
  | ends => exact Iff.trans (and_iff_right trivial) (fixedWindow_iff back ends_iff)
  | contains => exact never _

theorem matchAttributeValue_iff {selector : SelectNode} (op : Operator) (nonempty : selector.value ≠ [])
    {w : List UInt8} (smallValue : w.length < intSize) (behind : UInt8) :
    (((matchAttributeValue selector w behind).result = true ↔ op.Means selector.value w) ∧
      (matchAttributeValue selector w behind).inside = true) ↔ op.Holds selector.flags selector.value w := by
  by_cases short : w.length < selector.value.length
  · have noMeaning : ¬op.Means selector.value w := fun means => Nat.not_le.mpr short (means_length means)
    rw [matchAttributeValue_eq, if_pos short]
    exact iff_of_true ⟨iff_of_false Bool.false_ne_true noMeaning, rfl⟩ fun long => absurd long (Nat.not_le.mpr short)
  · have long := Nat.le_of_not_lt short
    obtain ⟨inside, result⟩ := matchAttributeValue_spec nonempty smallValue long behind
    have accepts : (((matchAttributeValue selector w behind).result = true ↔ op.Means selector.value w) ∧
        (matchAttributeValue selector w behind).inside = true) ↔
        DecidedInside selector.value w (comparison selector.flags) ∧
          (Accepts selector.value w (comparison selector.flags) ↔ op.Means selector.value w) := by
      rw [and_comm, ← inside]
      exact and_congr_right fun stays => by rw [result stays]
    rw [accepts, Operator.Holds, forall_prop_of_true long]
    split
    next own =>
      rw [own]
      exact suits_iff op long
    next => rfl

/-! One selector of an element. -/

/-- The attribute of its name matches a selector. -/
def MatchesNamed (selector : SelectNode) (attrs : List AttributeNode) : Prop :=
  ∃ attr, attributeNamed selector attrs = some (some attr) ∧
    (matchAttributeValue selector attr.value attr.behind).result = true

theorem cStrncasecmp_self (v : List UInt8) (n : Nat) : cStrncasecmp v v n = 0 := by
  induction v generalizing n with
  | nil => cases n <;> rfl
  | cons c v ih =>
      cases n with
      | zero => rfl
      | succ n =>
          rw [cStrncasecmp]
          simp [ih]

theorem domStringCasecmp_self (v : List UInt8) : domStringCasecmp v v = 0 := by
  rw [domStringCasecmp]
  simp [cStrncasecmp_self, Cache.wrapInt]

theorem attributeNamed_single (selector : SelectNode) (id : Bool) (value : List UInt8) (behind : UInt8) :
    attributeNamed selector [⟨⟨selector.string, selector.type, 0⟩, id, value, behind⟩] =
      some (some ⟨⟨selector.string, selector.type, 0⟩, id, value, behind⟩) := by
  have same : domNodeCasecmp ⟨selector.string, selector.type, 0⟩ ⟨selector.string, selector.type, 0⟩ = 0 := by
    rw [domNodeCasecmp]
    split
    · exact Int.sub_self _
    · exact domStringCasecmp_self _
  have found : domNodeListBsearch ⟨selector.string, selector.type, 0⟩ [⟨selector.string, selector.type, 0⟩] =
      some (.found 0) := by
    rw [domNodeListBsearch, bsearchLoop]
    simp [Buffer.get, same]
  rw [attributeNamed, List.map_singleton, found]
  rfl

/-- Every comparison takes the value of the selector for a match. -/
theorem matchAttributeValue_self {selector : SelectNode} (nonempty : selector.value ≠ []) (behind : UInt8)
    (compared : comparison selector.flags ≠ none) :
    (matchAttributeValue selector selector.value behind).result = true := by
  rw [matchAttributeValue_eq, if_neg (Nat.lt_irrefl _), List.take_length, Nat.sub_self, List.drop_zero,
    domStringCasecmp_self]
  cases asked : comparison selector.flags with
  | none => exact absurd asked compared
  | some comparison =>
      cases comparison with
      | exact | begins | ends => rfl
      | words =>
          dsimp only
          cases value : selector.value with
          | nil => exact absurd value nonempty
          | cons c str =>
              rw [slideWindow, if_neg (Nat.lt_irrefl _)]
              simp [cStrncasecmp_self]

theorem matchAttributeValue_never {selector : SelectNode} (compared : comparison selector.flags = none) (w : List UInt8)
    (behind : UInt8) : (matchAttributeValue selector w behind).result = false := by
  rw [matchAttributeValue_eq, compared]
  split <;> rfl

/-- In every element a selector is matched against the attribute of its name, unless it asks for any value or, with a
comparison, for an identifier. -/
theorem matchSelector_iff {selector : SelectNode} (nonempty : selector.value ≠ []) :
    (∀ attrs, matchSelector selector attrs = some true ↔ MatchesNamed selector attrs) ↔
      selector.has attributeAny = false ∧ (selector.has attributeId = true → comparison selector.flags = none) := by
  have single (id : Bool) (value : List UInt8) := attributeNamed_single selector id value 0
  constructor
  · intro named
    constructor
    · -- an empty value does not match, but any value is accepted
      by_contra any
      rw [Bool.not_eq_false] at any
      have matched : matchSelector selector [⟨⟨selector.string, selector.type, 0⟩, true, [], 0⟩] = some true := by
        rw [matchSelector, selectedAttribute, single]
        split
        · simp [any]
        · simp [any]
      obtain ⟨attr, found, value⟩ := (named _).mp matched
      rw [single, Option.some.injEq, Option.some.injEq] at found
      have short : ([] : List UInt8).length < selector.value.length := List.length_pos_iff.mpr nonempty
      rw [← found, matchAttributeValue_eq, if_pos short] at value
      exact Bool.false_ne_true value
    · -- the attribute of the name matches, but it is no identifier
      intro identifier
      by_contra compared
      have value := matchAttributeValue_self nonempty 0 compared
      have matched := (named [⟨⟨selector.string, selector.type, 0⟩, false, selector.value, 0⟩]).mpr
        ⟨_, single false selector.value, value⟩
      rw [matchSelector, selectedAttribute, if_pos identifier] at matched
      simp at matched
  · rintro ⟨any, identifier⟩ attrs
    rw [matchSelector, MatchesNamed]
    cases asked : selector.has attributeId with
    | true =>
        have never := matchAttributeValue_never (identifier asked)
        simp only [never, any, Bool.or_self, Bool.false_eq_true, and_false, exists_false, iff_false]
        cases selectedAttribute selector attrs with
        | none => simp
        | some attr => cases attr <;> simp
    | false =>
        rw [selectedAttribute, if_neg (by rw [asked]; exact Bool.false_ne_true)]
        rcases attributeNamed selector attrs with _ | _ | attr
        · simp
        · simp
        · simp [any]

def langSelector (operator : CssTokenType) : List CssToken :=
  [⟨.openBracket, [91]⟩, ⟨.ident, [108, 97, 110, 103]⟩, ⟨operator, []⟩, ⟨.string, [101, 110]⟩, ⟨.closeBracket, [93]⟩]

end KcnTools.Dom
