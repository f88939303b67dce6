import KcnTools.Lib.ShellQuoting
import KcnTools.W3m.MailcapText

/-! The string of `unquote_mailcap` as the shell reads it: for which templates a value from a
server stands for its own bytes and for nothing else. -/

namespace KcnTools.W3m

open ShellQuoting

def McFlag.quoting (flag : McFlag) : Quoting :=
  if flag.squoted then .single else if flag.dquoted then .double else .unquoted

theorem special_not_alnum {c : UInt8} (special : c ∈ specialBytes) : isAlnumByte c = false := by
  simp only [specialBytes, List.mem_cons, List.not_mem_nil, or_false] at special
  rcases special with rfl | rfl | rfl | rfl | rfl | rfl | rfl | rfl | rfl | rfl | rfl | rfl | rfl | rfl | rfl | rfl |
    rfl | rfl | rfl | rfl | rfl | rfl | rfl | rfl | rfl | rfl <;> decide

theorem quoteMailcapByte_standsFor (flag : McFlag) {c : UInt8} (line : c ≠ 10) :
    StandsFor flag.quoting (quoteMailcapByte flag c) [c] := by
  obtain ⟨squoted, dquoted⟩ := flag
  rw [quoteMailcapByte]
  split_ifs with active squote apostrophe plain other
  · rw [McFlag.quoting, if_pos squote]
    exact standsFor_single (by rintro rfl; revert active; decide)
  · have free : squoted = false := by simpa using squote
    subst free
    cases dquoted with
    | true => exact standsFor_doubleEscape (by tauto)
    | false => exact standsFor_unquotedEscape line
  · obtain ⟨rfl, squote⟩ := apostrophe
    rw [McFlag.quoting, if_pos squote]
    decide
  · rcases plain with rfl | rfl | rfl | rfl <;> cases squoted <;> cases dquoted <;> decide
  · simp only [McFlag.isZero, Bool.and_eq_true, Bool.not_eq_true'] at other
    rw [McFlag.quoting, if_neg (by simp [other.1.1]), if_neg (by simp [other.1.2])]
    exact standsFor_unquotedEscape line
  · cases squoted with
    | true => exact standsFor_single fun same => apostrophe ⟨same, rfl⟩
    | false =>
        cases dquoted with
        | true => exact standsFor_double (by tauto) (by tauto) (by tauto)
        | false =>
            have alnum : isAlnumByte c = true := by
              rw [← Bool.not_eq_false]
              exact fun no => other ⟨rfl, no⟩
            refine standsFor_unquoted ?_ (by tauto) (by tauto) ?_
            · rintro rfl
              exact absurd alnum (by decide)
            · intro special
              rw [special_not_alnum special] at alnum
              cases alnum

theorem apostrophe_standsFor {flag : McFlag} {quoting : Quoting}
    (stands : StandsFor quoting (quoteMailcap [39] flag) [39]) : quoting = flag.quoting := by
  revert stands
  obtain ⟨squoted, dquoted⟩ := flag
  cases quoting <;> cases squoted <;> cases dquoted <;> decide

/-- The quoted form of every value stands for it just in the quoting it is made for. -/
theorem quoteMailcap_standsFor_iff (flag : McFlag) (quoting : Quoting) :
    (∀ value : List UInt8, 10 ∉ value → StandsFor quoting (quoteMailcap value flag) value) ↔
      quoting = flag.quoting := by
  constructor
  · exact fun all => apostrophe_standsFor (all [39] (by decide))
  · rintro rfl value lines
    exact standsFor_flatMap fun c inside =>
      quoteMailcapByte_standsFor flag fun same => lines (same ▸ inside)

def McPiece.StandsIn (quoting : Quoting) : McPiece → Prop
  | .char _ => True
  | .quoted _ none _ => True
  | .quoted _ (some value) flag => StandsFor quoting (quoteMailcap value flag) value

def FormsRead : Quoting → List McPiece → Prop
  | _, [] => True
  | quoting, piece :: rest => piece.StandsIn quoting ∧ FormsRead (read quoting piece.text).2 rest

def IsLine (value : List UInt8) : Prop := 0 ∉ value ∧ 10 ∉ value

/-- The string is the template with its constructs replaced, and its quoted values are safe. -/
def Substitutes (template : List UInt8) (args : McArgs) : Prop :=
  (mailcapPieces template args).map McPiece.part = (tokens template).map McToken.part ∧
    FormsRead .unquoted (mailcapPieces template args)

/-- At each directive the shell is in the quoting that the bytes without a backslash lead to. -/
def sameQuoting : Quoting → Quoting → List McToken → Bool
  | _, _, [] => true
  | shell, tracked, .char c :: rest => sameQuoting (next shell c).2 (next tracked c).2 rest
  | shell, tracked, .escaped c :: rest => sameQuoting (next shell c).2 tracked rest
  | shell, tracked, .percent :: rest => sameQuoting (next shell 37).2 tracked rest
  | shell, tracked, .stray c :: rest => sameQuoting (next shell c).2 tracked rest
  | shell, tracked, .directive _ :: rest => decide (shell = tracked) && sameQuoting shell tracked rest

section Tracking

variable {flag : McFlag} {c : UInt8}

/-- The loop follows the quotes of the bytes that stand without a backslash. -/
theorem trackQuote_quoting (one : ¬(flag.squoted = true ∧ flag.dquoted = true)) (backslash : c ≠ 92) :
    (trackQuote ⟨false, false⟩ flag c).quoting = (next flag.quoting c).2 ∧
      ¬((trackQuote ⟨false, false⟩ flag c).squoted = true ∧ (trackQuote ⟨false, false⟩ flag c).dquoted = true) := by
  obtain ⟨squoted, dquoted⟩ := flag
  by_cases single : c = 39
  · subst single
    cases squoted <;> cases dquoted <;> first | decide | exact absurd ⟨rfl, rfl⟩ one
  · by_cases double : c = 34
    · subst double
      cases squoted <;> cases dquoted <;> decide
    · rw [trackQuote, if_neg single, if_neg double]
      refine ⟨?_, one⟩
      cases squoted <;> cases dquoted
      all_goals simp only [McFlag.quoting, next, single, double, backslash, if_true, if_false, Bool.false_eq_true]
      all_goals split_ifs <;> rfl

theorem backslash_not_char {template : List UInt8} (inside : .char c ∈ tokens template) : c ≠ 92 := by
  induction template using tokens.induct with
  | case1 => simp at inside
  | case2 => simp at inside
  | case3 d template ih => simp at inside; exact ih inside
  | case4 => simp at inside
  | case5 template _ ih => simp at inside; exact ih inside
  | case6 template _ _ ih => simp at inside; exact ih inside
  | case7 template _ _ _ ih => simp at inside; exact ih inside
  | case8 template name rest found _ _ _ _ ih => simp [tokens_attr found] at inside; exact ih inside
  | case9 template found _ _ _ _ ih => simp [tokens_open found] at inside; exact ih inside
  | case10 d template percent name type attr _ ih =>
      simp [tokens_stray percent name type attr] at inside
      exact ih inside
  | case11 d template backslash percent ih =>
      rw [tokens_char backslash percent, List.mem_cons] at inside
      rcases inside with same | inside
      · injection same with same
        exact same ▸ backslash
      · exact ih inside

end Tracking

theorem matchattrLoop_line (quoted : Bool) (value : List UInt8) (q : Option Nat) (p : List UInt8)
    (clean : 10 ∉ value) : 10 ∉ matchattrLoop quoted value q p := by
  induction p generalizing quoted value q with
  | nil => exact fun inside => clean (List.mem_of_mem_take inside)
  | cons c p ih =>
      rw [matchattrLoop]
      by_cases stop : (isEndl c || (!quoted && decide (c = 59))) = true
      · rw [if_pos stop]
        exact fun inside => clean (List.mem_of_mem_take inside)
      · rw [if_neg stop]
        dsimp only
        by_cases quote : c = 34
        · rw [if_pos quote]
          exact ih _ _ _ clean
        · rw [if_neg quote]
          refine ih _ _ _ ?_
          rw [List.mem_append, List.mem_singleton]
          rintro (inside | rfl)
          · exact clean inside
          · simp [isEndl] at stop

theorem attrValue_line {attr : Option (List UInt8)} {name value : List UInt8}
    (found : attrValue attr name = some value) : 10 ∉ value := by
  simp only [attrValue, Option.bind_eq_some_iff] at found
  obtain ⟨_, _, ⟨before, q⟩, _, found⟩ := found
  split_ifs at found
  rw [matchattr] at found
  split_ifs at found
  split at found
  · cases found
    exact List.not_mem_nil
  · split_ifs at found
    · cases found
      exact matchattrLoop_line _ _ _ _ List.not_mem_nil
    · cases found
      exact List.not_mem_nil

theorem attrValue_apostrophe (name : List UInt8) : attrValue (some (name ++ [61, 39])) name = some [39] := by
  have same : strncasecmpEq (name ++ [61, 39]) name = true := by
    rw [strncasecmpEq, List.map_append, List.isPrefixOf_iff_prefix]
    exact List.prefix_append _ _
  have first : strcasestr (name ++ [61, 39]) name = some ([], name ++ [61, 39]) := by
    cases name with
    | nil => rfl
    | cons c name =>
        rw [List.cons_append] at same ⊢
        rw [strcasestr.eq_def]
        dsimp only
        rw [if_pos same]
  rw [attrValue, Option.bind_some, first, Option.bind_some]
  simp [matchattr, same, matchattrLoop, isSpaceByte, isEndl]

theorem quoted_read {quoting : Quoting} {d : McDirective} {value : Option (List UInt8)} {flag : McFlag}
    (stands : (McPiece.quoted d value flag).StandsIn quoting) :
    (read quoting (McPiece.quoted d value flag).text).2 = quoting := by
  cases value with
  | none => rfl
  | some value => exact congrArg Prod.snd stands

section Reading

variable {quoting : Quoting} {flag : McFlag} {constructs : List McToken}

/-- Where the quotings agree at each directive, every value is read as itself. -/
theorem formsRead_of_sameQuoting {args : McArgs} (one : ¬(flag.squoted = true ∧ flag.dquoted = true))
    (plain : ∀ c, .char c ∈ constructs → c ≠ 92) (lines : ∀ d value, args.value d = some value → 10 ∉ value)
    (same : sameQuoting quoting flag.quoting constructs = true) :
    FormsRead quoting (expectedPieces args ⟨false, false⟩ flag constructs) := by
  induction constructs generalizing quoting flag with
  | nil => exact True.intro
  | cons construct rest ih =>
      have later : ∀ c, .char c ∈ rest → c ≠ 92 := fun c inside => plain c (List.mem_cons_of_mem _ inside)
      cases construct with
      | char c =>
          obtain ⟨moved, one⟩ := trackQuote_quoting one (plain c List.mem_cons_self)
          rw [sameQuoting, ← moved] at same
          exact ⟨True.intro, ih one later same⟩
      | escaped c => exact ⟨True.intro, ih one later same⟩
      | percent => exact ⟨True.intro, ih one later same⟩
      | stray c => exact ⟨True.intro, ih one later same⟩
      | directive d =>
          rw [sameQuoting, Bool.and_eq_true, decide_eq_true_eq] at same
          obtain ⟨rfl, same⟩ := same
          have stands : (McPiece.quoted d (args.value d) flag).StandsIn flag.quoting := by
            cases found : args.value d with
            | none => exact True.intro
            | some value => exact (quoteMailcap_standsFor_iff flag _).mpr rfl value (lines d value found)
          refine ⟨stands, ?_⟩
          rw [quoted_read stands]
          exact ih one later same

def apostropheHeader : McDirective → Option (List UInt8)
  | .attr name => some (name ++ [61, 39])
  | _ => none

theorem apostropheHeader_value (d : McDirective) :
    (McArgs.mk (some [39]) (some [39]) (apostropheHeader d)).value d = some [39] := by
  cases d with
  | name => rfl
  | type => rfl
  | attr name => exact attrValue_apostrophe name

/-- Where every value is read as itself, the quotings agree at each directive. -/
theorem sameQuoting_of_formsRead (one : ¬(flag.squoted = true ∧ flag.dquoted = true))
    (plain : ∀ c, .char c ∈ constructs → c ≠ 92)
    (all : ∀ name type attr, IsLine name → IsLine type →
      FormsRead quoting (expectedPieces ⟨some type, some name, attr⟩ ⟨false, false⟩ flag constructs)) :
    sameQuoting quoting flag.quoting constructs = true := by
  induction constructs generalizing quoting flag with
  | nil => rfl
  | cons construct rest ih =>
      have later : ∀ c, .char c ∈ rest → c ≠ 92 := fun c inside => plain c (List.mem_cons_of_mem _ inside)
      cases construct with
      | char c =>
          obtain ⟨moved, one⟩ := trackQuote_quoting one (plain c List.mem_cons_self)
          rw [sameQuoting, ← moved]
          exact ih one later fun name type attr cleanName cleanType => (all name type attr cleanName cleanType).2
      | escaped c =>
          exact ih one later fun name type attr cleanName cleanType => (all name type attr cleanName cleanType).2
      | percent =>
          exact ih one later fun name type attr cleanName cleanType => (all name type attr cleanName cleanType).2
      | stray c =>
          exact ih one later fun name type attr cleanName cleanType => (all name type attr cleanName cleanType).2
      | directive d =>
          rw [sameQuoting, Bool.and_eq_true, decide_eq_true_eq]
          have first := (all [39] [39] (apostropheHeader d) (by simp [IsLine]) (by simp [IsLine])).1
          rw [apostropheHeader_value d] at first
          refine ⟨apostrophe_standsFor first, ih one later fun name type attr cleanName cleanType => ?_⟩
          have here := all name type attr cleanName cleanType
          rw [← quoted_read here.1]
          exact here.2

end Reading

theorem mailcapPieces_eq (template : List UInt8) (args : McArgs) :
    mailcapPieces template args = emitted args ⟨false, false⟩ false ⟨false, false⟩ template := by
  rw [mailcapPieces, unquoteMailcapLoop, foldl_emitted false rfl rfl rfl, List.nil_append]

end KcnTools.W3m
