import Mathlib.Data.List.DropRight
import KcnTools.Cookies.CookieDomain

/-!
Which parameter of a header value `parse_header_param` finds. It compares a part of the name as
long as the one it looks for, so a longer name in front hides the parameter itself.
-/

namespace KcnTools.Cookies

open Protocols

def isTokenChar (c : UInt8) : Bool := 32 < c && c != 59 && c != 61

structure Token where
  text : List UInt8
  written : text ≠ []
  chars : ∀ c ∈ text, isTokenChar c = true

structure Parameter where
  lead : List UInt8
  name : Token
  gap : List UInt8
  value : Option (List UInt8)
  blanks : ∀ c ∈ lead ++ gap, c ≠ 0 ∧ c ≤ 32
  closed : ∀ text ∈ value, ∀ c ∈ text, c ≠ 0 ∧ c ≠ 59

def Parameter.body (p : Parameter) : List UInt8 :=
  p.gap ++ match p.value with
    | none => []
    | some text => 61 :: text

def Parameter.text (p : Parameter) : List UInt8 := 59 :: (p.lead ++ (p.name.text ++ p.body))

def headerText (first : List UInt8) (params : List Parameter) : List UInt8 := first ++ params.flatMap Parameter.text

def blankChar (c : UInt8) : Bool := c ≤ 32

def Parameter.core (p : Parameter) : List UInt8 := trimEnd blankChar ((p.value.getD []).dropWhile blankChar)

def Parameter.plainValue (p : Parameter) : List UInt8 := dropQuotes p.core.length p.core

def sameName (name other : Token) : Bool := lower name.text == lower other.text

def lookupParam (name : Token) (params : List Parameter) : Option (List UInt8) :=
  (params.find? fun p => sameName name p.name).map Parameter.plainValue

section Search

def begins (name other : Token) : Bool := (lower name.text).isPrefixOf (lower other.text)

theorem begins_iff {name other : Token} : begins name other = true ↔ lower name.text <+: lower other.text :=
  List.isPrefixOf_iff_prefix

theorem begins_length {name other : Token} (begun : begins name other = true) :
    name.text.length ≤ other.text.length := by
  have length := (begins_iff.mp begun).length_le
  rwa [lower_length, lower_length] at length

theorem isTokenChar_cTolower (c : UInt8) : isTokenChar (cTolower c) = isTokenChar c := by
  have all : ∀ bits : BitVec 8, isTokenChar (cTolower ⟨bits⟩) = isTokenChar ⟨bits⟩ := by decide +kernel
  exact all c.toBitVec

theorem Token.lower_chars (name : Token) : ∀ c ∈ lower name.text, isTokenChar c = true := by
  intro c member
  obtain ⟨d, inName, same⟩ := List.mem_map.mp member
  rw [← same, isTokenChar_cTolower]
  exact name.chars d inName

def EndsName (tail : List UInt8) : Prop := ∀ c ∈ tail.head?, isTokenChar c = false

theorem endsName_nil : EndsName [] := by
  intro c none
  cases none

theorem endsName_cons {c : UInt8} {tail : List UInt8} (other : isTokenChar c = false) : EndsName (c :: tail) := by
  intro d member
  rw [List.head?_cons, Option.mem_some_iff] at member
  rw [← member, other]

theorem Parameter.flatMap_endsName (params : List Parameter) : EndsName (params.flatMap Parameter.text) := by
  cases params with
  | nil => exact endsName_nil
  | cons p params =>
      rw [List.flatMap_cons, Parameter.text, List.cons_append]
      exact endsName_cons (by decide)

theorem blank_noToken {c : UInt8} (blank : c ≤ 32) : isTokenChar c = false := by
  rw [isTokenChar, Bool.and_assoc, decide_eq_false (UInt8.not_lt.mpr blank), Bool.false_and]

theorem Parameter.body_endsName (p : Parameter) (params : List Parameter) :
    EndsName (p.body ++ params.flatMap Parameter.text) := by
  have blanks := p.blanks
  rw [Parameter.body]
  cases gap : p.gap with
  | nil =>
      cases p.value with
      | none => exact flatMap_endsName params
      | some text => exact endsName_cons (by decide)
  | cons c gap' =>
      apply endsName_cons (blank_noToken _)
      exact (blanks c (by rw [gap]; simp)).2

theorem lower_take_iff (name other : Token) {tail : List UInt8} (ends : EndsName tail)
    (long : name.text.length ≤ (other.text ++ tail).length) :
    lower ((other.text ++ tail).take name.text.length) = lower name.text ↔ begins name other = true := by
  have whole : lower ((other.text ++ tail).take name.text.length) =
      (lower other.text ++ lower tail).take (lower name.text).length := by
    rw [lower_length, ← lower_append, lower, lower, List.map_take]
  rw [whole, begins_iff]
  constructor
  · intro same
    have onto : lower name.text <+: lower other.text ++ lower tail := by
      rw [← same]
      exact List.take_prefix _ _
    rcases List.prefix_or_prefix_of_prefix onto (List.prefix_append _ _) with shorter | longer
    · exact shorter
    · -- The name would have to go on into the tail.
      obtain ⟨more, shape⟩ := longer
      rw [← shape] at onto
      have front := (List.prefix_append_right_inj _).mp onto
      cases more with
      | nil =>
          rw [List.append_nil] at shape
          exact ⟨[], by rw [List.append_nil, shape]⟩
      | cons c more =>
          obtain ⟨after, split⟩ := front
          cases tail with
          | nil => cases split
          | cons d tail =>
              have head : c = cTolower d := (List.cons.inj split).1
              have token := name.lower_chars c (by rw [← shape]; simp)
              rw [head, isTokenChar_cTolower, ends d rfl] at token
              cases token
  · intro begun
    obtain ⟨more, shape⟩ := begun
    rw [← shape, List.append_assoc, List.take_left]

def foundBehind (name : Token) : List Parameter → Option (List UInt8)
  | [] => none
  | p :: params =>
      if begins name p.name then
        some (p.name.text.drop name.text.length ++ (p.body ++ params.flatMap Parameter.text))
      else foundBehind name params

theorem foundBehind_short {name : Token} {params : List Parameter}
    (short : (params.flatMap Parameter.text).length < name.text.length) : foundBehind name params = none := by
  induction params with
  | nil => rfl
  | cons p params ih =>
      rw [List.flatMap_cons, List.length_append, Parameter.text, List.length_cons, List.length_append,
        List.length_append] at short
      rw [foundBehind, if_neg]
      · exact ih (by omega)
      · intro begun
        have length := begins_length begun
        omega

theorem Parameter.text_closed (p : Parameter) : ∀ c ∈ p.name.text ++ p.body, c ≠ 59 := by
  intro c member
  rw [Parameter.body] at member
  rcases List.mem_append.mp member with inName | inBody
  · rintro rfl
    exact absurd (p.name.chars 59 inName) (by decide)
  · rcases List.mem_append.mp inBody with inGap | inValue
    · have blank := (p.blanks c (List.mem_append_right _ inGap)).2
      rintro rfl
      exact absurd blank (by decide)
    · cases value : p.value with
      | none =>
          rw [value] at inValue
          cases inValue
      | some text =>
          rw [value] at inValue
          rcases List.mem_cons.mp inValue with equals | inText
          · rw [equals]
            decide
          · exact (p.closed text value c inText).2

theorem dropWhile_closed {front : List UInt8} (closed : ∀ c ∈ front, c ≠ 59) (params : List Parameter) :
    (front ++ params.flatMap Parameter.text).dropWhile (· != 59) = params.flatMap Parameter.text := by
  rw [List.dropWhile_append_of_pos fun c member => bne_iff_ne.mpr (closed c member)]
  cases params with
  | nil => rfl
  | cons p params =>
      rw [List.flatMap_cons, Parameter.text, List.cons_append, List.dropWhile_cons_of_neg (by decide)]

theorem dropWhile_lead (p : Parameter) (tail : List UInt8) :
    (p.text ++ tail).dropWhile (fun c => c == 59 || c ≤ 32) = p.name.text ++ (p.body ++ tail) := by
  obtain ⟨c, rest, shape⟩ := List.exists_cons_of_ne_nil p.name.written
  have token := p.name.chars c (by rw [shape]; exact List.mem_cons_self)
  have other : (c == 59 || decide (c ≤ 32)) = false := by
    simp only [isTokenChar, Bool.and_eq_true, decide_eq_true_eq, bne_iff_ne] at token
    rw [Bool.or_eq_false_iff, beq_eq_false_iff_ne, decide_eq_false_iff_not]
    exact ⟨token.1.2, UInt8.not_le.mpr token.1.1⟩
  rw [Parameter.text, List.cons_append, List.dropWhile_cons_of_pos (by decide), List.append_assoc,
    List.dropWhile_append_of_pos, List.append_assoc, shape, List.cons_append, List.dropWhile_cons_of_neg]
  · rw [other]
    decide
  · intro d member
    have blank := (p.blanks d (List.mem_append_left _ member)).2
    rw [decide_eq_true blank, Bool.or_true]

theorem findParam_eq (name : Token) {fuel : Nat} {front : List UInt8} (closed : ∀ c ∈ front, c ≠ 59)
    (params : List Parameter) (enough : params.length < fuel) :
    findParam name.text fuel (front ++ params.flatMap Parameter.text) = foundBehind name params := by
  induction params generalizing fuel front with
  | nil =>
      cases fuel with
      | zero => exact absurd enough (Nat.not_lt_zero _)
      | succ fuel =>
          rw [findParam, dropWhile_closed closed]
          rfl
  | cons p params ih =>
      cases fuel with
      | zero => exact absurd enough (Nat.not_lt_zero _)
      | succ fuel =>
          have more : (p :: params).flatMap Parameter.text = 59 :: (p.lead ++ (p.name.text ++ p.body) ++
              params.flatMap Parameter.text) := by
            rw [List.flatMap_cons, Parameter.text, List.cons_append]
          rw [findParam, dropWhile_closed closed, more]
          dsimp only
          rw [← more, List.flatMap_cons, dropWhile_lead]
          by_cases short : (p.name.text ++ (p.body ++ params.flatMap Parameter.text)).length < name.text.length
          · rw [if_pos short]
            symm
            rw [List.length_append, List.length_append] at short
            rw [foundBehind, if_neg, foundBehind_short (by omega)]
            intro begun
            have length := begins_length begun
            omega
          · rw [if_neg short, foundBehind]
            have compared := lower_take_iff name p.name (p.body_endsName params) (Nat.not_lt.mp short)
            cases begun : begins name p.name with
            | true =>
                rw [if_pos (compared.mpr begun), if_pos rfl, List.drop_append_of_le_length (begins_length begun)]
            | false =>
                rw [if_neg (by rw [compared, begun]; decide), if_neg (by decide), ← List.append_assoc]
                rw [List.length_cons] at enough
                exact ih p.text_closed (by omega)

end Search

section Value

def valueBehind (text : List UInt8) : List UInt8 :=
  let text := text.dropWhile fun c => c ≤ 32 || c == 61
  let value := trimEnd lws (text.takeWhile fun c => (32 < c || lws c) && c != 59)
  dropQuotes value.length value

theorem parseHeaderParam_eq (text name : List UInt8) :
    parseHeaderParam text name = (findParam name (text.length + 1) text).map valueBehind := rfl

theorem takeWhile_stop {stop : UInt8} {test : UInt8 → Bool} (stops : test stop = false) (front tail : List UInt8) :
    (front ++ stop :: tail).takeWhile test = front.takeWhile test := by
  induction front with
  | nil => rw [List.nil_append, List.takeWhile_cons_of_neg (by rw [stops]; decide), List.takeWhile_nil]
  | cons c front ih => rw [List.cons_append, List.takeWhile_cons, List.takeWhile_cons, ih]

theorem dropWhile_stop {stop : UInt8} {test : UInt8 → Bool} (stops : test stop = false) (front tail : List UInt8) :
    (front ++ stop :: tail).dropWhile test = front.dropWhile test ++ stop :: tail := by
  induction front with
  | nil => rw [List.nil_append, List.dropWhile_cons_of_neg (by rw [stops]; decide), List.dropWhile_nil, List.nil_append]
  | cons c front ih =>
      rw [List.cons_append, List.dropWhile_cons, List.dropWhile_cons, ih]
      split <;> rfl

theorem takeWhile_congr {test other : UInt8 → Bool} {text : List UInt8} (same : ∀ c ∈ text, test c = other c) :
    text.takeWhile test = text.takeWhile other := by
  induction text with
  | nil => rfl
  | cons c text ih =>
      rw [List.forall_mem_cons] at same
      rw [List.takeWhile_cons, List.takeWhile_cons, same.1, ih same.2]

theorem valueBehind_append (text : List UInt8) (params : List Parameter) :
    valueBehind (text ++ params.flatMap Parameter.text) = valueBehind text := by
  cases params with
  | nil => rw [List.flatMap_nil, List.append_nil]
  | cons p params =>
      rw [List.flatMap_cons, Parameter.text, List.cons_append, valueBehind, valueBehind,
        dropWhile_stop (by decide), takeWhile_stop (by decide)]

/-- The search with the values: the first name that begins as it should decides. -/
theorem parseHeaderParam_begun (name : Token) {first : List UInt8} (closed : ∀ c ∈ first, c ≠ 59)
    (params : List Parameter) :
    parseHeaderParam (headerText first params) name.text =
      (params.find? fun p => begins name p.name).map fun p =>
        valueBehind (p.name.text.drop name.text.length ++ p.body) := by
  have enough : params.length < (headerText first params).length + 1 := by
    rw [headerText, List.length_append]
    have each : params.length ≤ (params.flatMap Parameter.text).length := by
      induction params with
      | nil => exact Nat.zero_le _
      | cons p params ih =>
          rw [List.flatMap_cons, List.length_append, Parameter.text, List.length_cons, List.length_cons]
          omega
    omega
  rw [parseHeaderParam_eq]
  have found := findParam_eq name closed params enough
  rw [← headerText] at found
  rw [found]
  clear found enough
  induction params with
  | nil => rfl
  | cons p params ih =>
      rw [foundBehind, List.find?_cons]
      cases begins name p.name with
      | true =>
          rw [if_pos rfl, Option.map_some, ← List.append_assoc, valueBehind_append]
          rfl
      | false =>
          rw [if_neg (by decide)]
          exact ih

def PlainText (text : List UInt8) : Prop := text.head? ≠ some 61 ∧ ∀ c ∈ text, 32 ≤ c ∨ c = 9

theorem dropQuotes_sublist (fuel : Nat) (text : List UInt8) : (dropQuotes fuel text).Sublist text := by
  induction fuel generalizing text with
  | zero => exact List.Sublist.refl text
  | succ fuel ih =>
      rw [dropQuotes]
      split
      · exact (ih _).trans ((List.dropLast_sublist _).trans (List.tail_sublist _))
      · exact List.Sublist.refl text

theorem dropQuotes_mem {c : UInt8} (other : c ≠ 39) (fuel : Nat) {text : List UInt8} (member : c ∈ text) :
    c ∈ dropQuotes fuel text := by
  induction fuel generalizing text with
  | zero => exact member
  | succ fuel ih =>
      rw [dropQuotes]
      split
      · rename_i quoted
        apply ih
        obtain ⟨long, first, last⟩ := quoted
        obtain ⟨inner, shape⟩ : ∃ inner, text = 39 :: (inner ++ [39]) := by
          cases text with
          | nil => exact absurd member List.not_mem_nil
          | cons d text =>
              rw [List.head?_cons, Option.some.injEq] at first
              have written : text ≠ [] := by
                rintro rfl
                exact Nat.lt_irrefl 1 long
              rw [List.getLast?_cons_of_ne_nil written, List.getLast?_eq_some_getLast written,
                Option.some.injEq] at last
              refine ⟨text.dropLast, ?_⟩
              rw [first, ← last, List.dropLast_append_getLast written]
        rw [shape, List.mem_cons, List.mem_append, List.mem_singleton] at member
        rw [shape, List.tail_cons, List.dropLast_concat]
        exact (member.resolve_left other).resolve_right other
      · exact member

theorem dropQuotes_head {fuel : Nat} {text : List UInt8} (first : text.head? ≠ some 39) : dropQuotes fuel text = text := by
  cases fuel with
  | zero => rfl
  | succ fuel => rw [dropQuotes, if_neg fun quoted => first quoted.2.1]

theorem trimEnd_eq (test : UInt8 → Bool) (text : List UInt8) : trimEnd test text = text.rdropWhile test := rfl

theorem valueBehind_equals {gap text : List UInt8} (blanks : ∀ c ∈ gap, c ≤ 32) (closed : ∀ c ∈ text, c ≠ 59) :
    valueBehind (gap ++ 61 :: text) =
      let value := trimEnd lws ((text.dropWhile fun c => c ≤ 32 || c == 61).takeWhile fun c => 32 < c || lws c)
      dropQuotes value.length value := by
  have skipped : (gap ++ 61 :: text).dropWhile (fun c => c ≤ 32 || c == 61) =
      text.dropWhile fun c => c ≤ 32 || c == 61 := by
    rw [List.dropWhile_append_of_pos, List.dropWhile_cons_of_pos (by decide)]
    intro c member
    rw [decide_eq_true (blanks c member), Bool.true_or]
  have open59 : (text.dropWhile fun c => c ≤ 32 || c == 61).takeWhile (fun c => (32 < c || lws c) && c != 59) =
      (text.dropWhile fun c => c ≤ 32 || c == 61).takeWhile fun c => 32 < c || lws c := by
    apply takeWhile_congr
    intro c member
    have other := closed c ((List.dropWhile_sublist _).mem member)
    rw [bne_iff_ne.mpr other, Bool.and_true]
  rw [valueBehind, skipped, open59]

theorem valueBehind_blank {gap : List UInt8} (blanks : ∀ c ∈ gap, c ≤ 32) : valueBehind gap = [] := by
  have skipped : gap.dropWhile (fun c => c ≤ 32 || c == 61) = [] := by
    apply List.dropWhile_eq_nil_iff.mpr
    intro c member
    rw [decide_eq_true (blanks c member), Bool.true_or]
  rw [valueBehind, skipped]
  rfl

theorem rdropWhile_append {test : UInt8 → Bool} {front back : List UInt8} (all : ∀ c ∈ back, test c = true) :
    (front ++ back).rdropWhile test = front.rdropWhile test := by
  induction back using List.reverseRecOn with
  | nil => rw [List.append_nil]
  | append_singleton back c ih =>
      rw [List.forall_mem_append, List.forall_mem_singleton] at all
      rw [← List.append_assoc, List.rdropWhile_concat_pos test _ c all.2]
      exact ih all.1

/-- Of a plain value with blanks behind it the blanks are dropped, at the first control character
or at the end. -/
theorem plain_front {core back : List UInt8} {c : UInt8} (plain : PlainText core) (first : core.head? = some c)
    (visible : ¬ c ≤ 32) (last : ∀ written : core ≠ [], ¬ blankChar (core.getLast written) = true)
    (blanks : ∀ d ∈ back, blankChar d = true) :
    trimEnd lws (((core ++ back).dropWhile fun c => c ≤ 32 || c == 61).takeWhile fun c => 32 < c || lws c) =
      core := by
  obtain ⟨head, all⟩ := plain
  have stays : (core ++ back).dropWhile (fun c => c ≤ 32 || c == 61) = core ++ back := by
    cases core with
    | nil => cases first
    | cons d core =>
        rw [List.head?_cons] at first head
        rw [Option.some.injEq] at first
        rw [first] at head ⊢
        rw [List.cons_append, List.dropWhile_cons_of_neg]
        rw [Bool.or_eq_true, not_or, decide_eq_true_eq, beq_iff_eq]
        exact ⟨visible, fun equals => head (congrArg some equals)⟩
  have read : ∀ d ∈ core, (decide (32 < d) || lws d) = true := by
    intro d member
    rw [Bool.or_eq_true, decide_eq_true_eq, lws, Bool.or_eq_true, beq_iff_eq, beq_iff_eq]
    rcases all d member with printable | tab
    · rcases UInt8.lt_or_eq_of_le printable with above | space
      · exact .inl above
      · exact .inr (.inl space.symm)
    · exact .inr (.inr tab)
  have spaces : ∀ d ∈ back.takeWhile (fun d => decide (32 < d) || lws d), lws d = true := by
    intro d member
    have test := List.mem_takeWhile_imp member
    have low := blanks d ((List.takeWhile_sublist _).mem member)
    rw [blankChar, decide_eq_true_eq] at low
    rw [decide_eq_false (UInt8.not_lt.mpr low), Bool.false_or] at test
    exact test
  rw [stays, List.takeWhile_append_of_pos read, trimEnd_eq, rdropWhile_append spaces, List.rdropWhile_eq_self_iff]
  intro written space
  apply last written
  rw [lws, Bool.or_eq_true, beq_iff_eq, beq_iff_eq] at space
  rw [blankChar, decide_eq_true_eq]
  rcases space with blank | tab
  · rw [blank]
    exact UInt8.le_refl 32
  · rw [tab]
    decide

theorem plain_value {text : List UInt8} (plain : PlainText (trimEnd blankChar (text.dropWhile blankChar))) :
    trimEnd lws ((text.dropWhile fun c => c ≤ 32 || c == 61).takeWhile fun c => 32 < c || lws c) =
      trimEnd blankChar (text.dropWhile blankChar) := by
  induction text with
  | nil => rfl
  | cons c text ih =>
      by_cases blank : c ≤ 32
      · have skipped : blankChar c = true := decide_eq_true blank
        rw [List.dropWhile_cons_of_pos skipped] at plain ⊢
        rw [List.dropWhile_cons_of_pos (by rw [decide_eq_true blank, Bool.true_or])]
        exact ih plain
      · have kept : ¬ blankChar c = true := by rwa [blankChar, decide_eq_true_eq]
        rw [List.dropWhile_cons_of_neg kept] at plain ⊢
        have split : trimEnd blankChar (c :: text) ++ (c :: text).rtakeWhile blankChar = c :: text :=
          List.rdropWhile_append_rtakeWhile ..
        have written : trimEnd blankChar (c :: text) ≠ [] := by
          rw [trimEnd_eq, ne_eq, List.rdropWhile_eq_nil_iff]
          intro all
          exact kept (all c List.mem_cons_self)
        have first : (trimEnd blankChar (c :: text)).head? = some c := by
          obtain ⟨d, rest, shape⟩ := List.exists_cons_of_ne_nil written
          rw [shape, List.cons_append, List.cons.injEq] at split
          rw [shape, List.head?_cons, split.1]
        have blanks : ∀ d ∈ (c :: text).rtakeWhile blankChar, blankChar d = true :=
          fun d member => List.mem_rtakeWhile_imp member
        have read := plain_front plain first blank (fun written => List.rdropWhile_last_not blankChar _ written) blanks
        rw [split] at read
        exact read

theorem dropWhile_blank_equals (text : List UInt8) :
    (text.dropWhile fun c => c ≤ 32 || c == 61) = (text.dropWhile blankChar).dropWhile fun c => c ≤ 32 || c == 61 := by
  induction text with
  | nil => rfl
  | cons c text ih =>
      by_cases blank : c ≤ 32
      · have skipped : blankChar c = true := decide_eq_true blank
        rw [List.dropWhile_cons_of_pos skipped,
          List.dropWhile_cons_of_pos (by rw [decide_eq_true blank, Bool.true_or]), ih]
      · have kept : ¬ blankChar c = true := by rwa [blankChar, decide_eq_true_eq]
        rw [List.dropWhile_cons_of_neg kept]

theorem countP_trimEnd (test : UInt8 → Bool) (text : List UInt8) :
    (trimEnd test text).countP (fun c => !test c) = text.countP fun c => !test c := by
  have split : trimEnd test text ++ text.rtakeWhile test = text := List.rdropWhile_append_rtakeWhile ..
  have none : (text.rtakeWhile test).countP (fun c => !test c) = 0 := by
    rw [List.countP_eq_zero]
    intro c member
    rw [List.mem_rtakeWhile_imp member]
    decide
  have sum := congrArg (List.countP fun c => !test c) split
  rw [List.countP_append, none] at sum
  exact sum

theorem countP_equals {text : List UInt8} (equals : (trimEnd blankChar (text.dropWhile blankChar)).head? = some 61) :
    (text.dropWhile fun c => c ≤ 32 || c == 61).countP (fun c => !blankChar c) <
      (trimEnd blankChar (text.dropWhile blankChar)).countP fun c => !blankChar c := by
  have split : trimEnd blankChar (text.dropWhile blankChar) ++ (text.dropWhile blankChar).rtakeWhile blankChar =
      text.dropWhile blankChar := List.rdropWhile_append_rtakeWhile ..
  rw [countP_trimEnd, dropWhile_blank_equals]
  generalize text.dropWhile blankChar = whole at equals split
  cases core : trimEnd blankChar whole with
  | nil =>
      rw [core] at equals
      cases equals
  | cons c rest =>
      rw [core, List.head?_cons, Option.some.injEq] at equals
      rw [core, equals, List.cons_append] at split
      rw [← split, List.dropWhile_cons_of_pos (by decide), List.countP_cons_of_pos (by decide)]
      exact Nat.lt_succ_of_le (List.dropWhile_sublist _).countP_le

theorem valueBehind_iff {gap text : List UInt8} (blanks : ∀ c ∈ gap, c ≤ 32) (closed : ∀ c ∈ text, c ≠ 59) :
    valueBehind (gap ++ 61 :: text) =
        dropQuotes (trimEnd blankChar (text.dropWhile blankChar)).length (trimEnd blankChar (text.dropWhile blankChar)) ↔
      PlainText (trimEnd blankChar (text.dropWhile blankChar)) := by
  rw [valueBehind_equals blanks closed]
  dsimp only
  constructor
  · intro same
    have within (read : List UInt8) : (dropQuotes (trimEnd lws read).length (trimEnd lws read)).Sublist read :=
      (dropQuotes_sublist _ _).trans (List.rdropWhile_prefix lws read).sublist
    constructor
    · intro equals
      have fewer := countP_equals equals
      have unquoted : (trimEnd blankChar (text.dropWhile blankChar)).head? ≠ some 39 := by
        rw [equals]
        decide
      rw [dropQuotes_head unquoted] at same
      rw [← same] at fewer
      apply Nat.lt_irrefl _ (Nat.lt_of_lt_of_le fewer _)
      exact ((within _).trans (List.takeWhile_sublist _)).countP_le
    · intro c member
      by_contra control
      rw [not_or, UInt8.not_le] at control
      have kept : c ∈ dropQuotes (trimEnd blankChar (text.dropWhile blankChar)).length
          (trimEnd blankChar (text.dropWhile blankChar)) := by
        apply dropQuotes_mem _ _ member
        rintro rfl
        exact absurd control.1 (by decide)
      rw [← same] at kept
      have read := List.mem_takeWhile_imp ((within _).mem kept)
      rw [Bool.or_eq_true, decide_eq_true_eq, lws, Bool.or_eq_true, beq_iff_eq, beq_iff_eq] at read
      rcases read with above | space | tab
      · exact absurd (UInt8.lt_trans above control.1) (by decide)
      · rw [space] at control
        exact absurd control.1 (by decide)
      · exact control.2 tab
  · intro plain
    rw [plain_value plain]

theorem Parameter.valueBehind_body_iff (p : Parameter) : valueBehind p.body = p.plainValue ↔ PlainText p.core := by
  have blanks : ∀ c ∈ p.gap, c ≤ 32 := fun c member => (p.blanks c (List.mem_append_right _ member)).2
  rw [Parameter.body, Parameter.plainValue, Parameter.core]
  cases value : p.value with
  | none =>
      dsimp only
      rw [List.append_nil, valueBehind_blank blanks]
      constructor
      · intro _
        exact ⟨by rw [Option.getD_none]; decide, fun c none => absurd none List.not_mem_nil⟩
      · intro _
        rfl
  | some text =>
      have closed : ∀ c ∈ text, c ≠ 59 := fun c member => (p.closed text value c member).2
      exact valueBehind_iff blanks closed

end Value

section Lookup

theorem begins_of_same {name other : Token} (same : sameName name other = true) : begins name other = true := by
  rw [sameName, beq_iff_eq] at same
  rw [begins_iff]
  exact ⟨[], by rw [List.append_nil, same]⟩

/-- The first name that goes on from the one that is looked for, if there is any, is that name. -/
def Unshadowed (name : Token) (names : List Token) : Prop :=
  ∀ other, names.find? (begins name) = some other → sameName name other = true

theorem find_begins {name : Token} {params : List Parameter} (clear : Unshadowed name (params.map Parameter.name)) :
    (params.find? fun p => begins name p.name) = params.find? fun p => sameName name p.name := by
  induction params with
  | nil => rfl
  | cons p params ih =>
      rw [List.find?_cons, List.find?_cons]
      rw [Unshadowed, List.map_cons, List.find?_cons] at clear
      cases begun : begins name p.name with
      | true =>
          rw [begun] at clear
          rw [clear p.name rfl]
      | false =>
          rw [begun] at clear
          have other : sameName name p.name = false := by
            rw [Bool.eq_false_iff]
            intro same
            rw [begins_of_same same] at begun
            cases begun
          rw [other]
          exact ih clear

def Token.parameter (name : Token) : Parameter where
  lead := []
  name := name
  gap := []
  value := some [120]
  blanks := by simp
  closed := by
    intro text member c inText
    rw [Option.mem_some_iff] at member
    rw [← member, List.mem_singleton] at inText
    rw [inText]
    decide

theorem Token.parameter_core (name : Token) : name.parameter.core = [120] := by
  simp [Parameter.core, Token.parameter, blankChar, trimEnd]

theorem valueBehind_rest {rest : List UInt8} (written : rest ≠ []) (chars : ∀ c ∈ rest, isTokenChar c = true) :
    valueBehind (rest ++ [61, 120]) ≠ [120] := by
  obtain ⟨c, more, shape⟩ := List.exists_cons_of_ne_nil written
  have token := chars c (by rw [shape]; exact List.mem_cons_self)
  simp only [isTokenChar, Bool.and_eq_true, decide_eq_true_eq, bne_iff_ne] at token
  have stays : (rest ++ [61, 120]).dropWhile (fun c => c ≤ 32 || c == 61) = rest ++ [61, 120] := by
    rw [shape, List.cons_append, List.dropWhile_cons_of_neg]
    rw [Bool.or_eq_true, not_or, decide_eq_true_eq, beq_iff_eq, UInt8.not_le]
    exact ⟨token.1.1, token.2⟩
  have read : (rest ++ [61, 120]).takeWhile (fun c => (32 < c || lws c) && c != 59) = rest ++ [61, 120] := by
    rw [List.takeWhile_eq_self_iff]
    intro d member
    rcases List.mem_append.mp member with inRest | atEnd
    · have token := chars d inRest
      simp only [isTokenChar, Bool.and_eq_true, decide_eq_true_eq, bne_iff_ne] at token
      rw [decide_eq_true token.1.1, Bool.true_or, Bool.true_and, bne_iff_ne]
      exact token.1.2
    · simp only [List.mem_cons, List.not_mem_nil, or_false] at atEnd
      rcases atEnd with rfl | rfl <;> decide
  have trimmed : trimEnd lws (rest ++ [61, 120]) = rest ++ [61, 120] := by
    rw [trimEnd_eq, show rest ++ [61, 120] = (rest ++ [61]) ++ [120] by simp, List.rdropWhile_concat_neg _ _ _ (by decide)]
  have last : (rest ++ [61, 120]).getLast? = some 120 := by simp
  have quotes (fuel : Nat) : dropQuotes fuel (rest ++ [61, 120]) = rest ++ [61, 120] := by
    cases fuel with
    | zero => rfl
    | succ fuel =>
        rw [dropQuotes, if_neg]
        rintro ⟨_, _, quote⟩
        rw [last] at quote
        cases quote
  rw [valueBehind, stays, read, trimmed, quotes]
  intro same
  have length := congrArg List.length same
  simp at length

theorem shadowed_params {name : Token} {names : List Token} (shadowed : ¬ Unshadowed name names) :
    ∃ params, params.map Parameter.name = names ∧ (∀ p ∈ params, PlainText p.core) ∧
      ∀ first, (∀ c ∈ first, c ≠ 59) →
        parseHeaderParam (headerText first params) name.text ≠ lookupParam name params := by
  rw [Unshadowed] at shadowed
  simp only [not_forall] at shadowed
  obtain ⟨longer, found, other⟩ := shadowed
  refine ⟨names.map Token.parameter, ?_, ?_, ?_⟩
  · rw [List.map_map]
    exact List.map_id names
  · intro p member
    obtain ⟨token, _, rfl⟩ := List.mem_map.mp member
    rw [token.parameter_core]
    exact ⟨by decide, by simp⟩
  · intro first closed same
    have begun : begins name longer = true := List.find?_some found
    have first' : (names.map Token.parameter).find? (fun p => begins name p.name) = some longer.parameter := by
      rw [List.find?_map]
      have search : names.find? ((fun p => begins name p.name) ∘ Token.parameter) = some longer := found
      rw [search]
      rfl
    rw [parseHeaderParam_begun name closed, first', Option.map_some, lookupParam] at same
    have answer := same.symm
    rw [Option.map_eq_some_iff] at answer
    obtain ⟨p, exact, value⟩ := answer
    obtain ⟨token, _, rfl⟩ := List.mem_map.mp (List.mem_of_find?_eq_some exact)
    rw [Parameter.plainValue, token.parameter_core] at value
    have letter : dropQuotes [(120 : UInt8)].length [120] = [120] := by decide
    rw [letter] at value
    apply valueBehind_rest _ _ value.symm
    · intro empty
      have length := congrArg List.length empty
      rw [List.length_drop, List.length_nil] at length
      have prefixed := begins_iff.mp begun
      apply other
      rw [sameName, beq_iff_eq]
      apply prefixed.eq_of_length
      rw [lower_length, lower_length]
      have shorter := begins_length begun
      have same : longer.parameter.name = longer := rfl
      rw [same] at length
      omega
    · intro c member
      exact longer.chars c (List.mem_of_mem_drop member)

/-- Names in general, and among headers without a longer name in front the values. -/
theorem parseHeaderParam_lookup_iff (name : Token) :
    (∀ (first : List UInt8) (params : List Parameter), (∀ c ∈ first, c ≠ 59) →
      Unshadowed name (params.map Parameter.name) →
      (parseHeaderParam (headerText first params) name.text = lookupParam name params ↔
        ∀ p, (params.find? fun p => sameName name p.name) = some p → PlainText p.core)) ∧
    (∀ names : List Token, ¬ Unshadowed name names →
      ∃ params, params.map Parameter.name = names ∧ (∀ p ∈ params, PlainText p.core) ∧
        ∀ first, (∀ c ∈ first, c ≠ 59) →
          parseHeaderParam (headerText first params) name.text ≠ lookupParam name params) := by
  constructor
  · intro first params closed clear
    rw [parseHeaderParam_begun name closed, find_begins clear, lookupParam]
    cases found : params.find? fun p => sameName name p.name with
    | none => simp
    | some p =>
        have same : sameName name p.name = true := List.find?_some (p := fun p : Parameter => sameName name p.name) found
        rw [sameName, beq_iff_eq] at same
        have whole : p.name.text.drop name.text.length = [] := by
          rw [lower_length_eq same, List.drop_length]
        rw [Option.map_some, Option.map_some, Option.some.injEq, whole, List.nil_append, p.valueBehind_body_iff]
        constructor
        · intro plain q chosen
          rw [Option.some.injEq] at chosen
          rwa [← chosen]
        · intro all
          exact all p rfl
  · intro names shadowed
    exact shadowed_params shadowed

def domainToken : Token where
  text := [100, 111, 109, 97, 105, 110]
  written := List.cons_ne_nil _ _
  chars := by simp [isTokenChar]

def domainfooToken : Token where
  text := [100, 111, 109, 97, 105, 110, 102, 111, 111]
  written := List.cons_ne_nil _ _
  chars := by simp [isTokenChar]

/-- `a;domainfoo=x;domain=x` -/
theorem parseHeaderParam_domainfoo :
    parseHeaderParam (headerText [97] [domainfooToken.parameter, domainToken.parameter]) domainToken.text =
      some [102, 111, 111, 61, 120] ∧
    lookupParam domainToken [domainfooToken.parameter, domainToken.parameter] = some [120] := by
  decide +kernel

end Lookup

end KcnTools.Cookies
