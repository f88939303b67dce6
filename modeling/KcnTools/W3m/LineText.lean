import Mathlib.Algebra.Order.Ring.Nat
import KcnTools.W3m.LineInput

/-! The line of the editor as characters. A character is a lead byte and as many
bytes behind it as the lead byte says; the types of its bytes follow from the lead byte. -/

namespace KcnTools.W3m.Linein

open Libwc (Wc wtfLenMap isWide)

structure Letter (w : Wc) where
  lead : UInt8
  more : List UInt8
  whole : more.length + 1 = getMclen w lead

section Letters

variable {w : Wc}

def Letter.bytes (letter : Letter w) : List UInt8 := letter.lead :: letter.more

def Letter.props (isPasswd : Bool) (letter : Letter w) : List Lineprop :=
  charType w isPasswd letter.lead ::
    List.replicate letter.more.length (behindFirst (charType w isPasswd letter.lead))

def textOf (letters : List (Letter w)) : List UInt8 := letters.flatMap Letter.bytes

def propsOf (isPasswd : Bool) (letters : List (Letter w)) : List Lineprop :=
  letters.flatMap (Letter.props isPasswd)

@[simp] theorem textOf_nil : textOf ([] : List (Letter w)) = [] := rfl

@[simp] theorem propsOf_nil (isPasswd : Bool) : propsOf isPasswd ([] : List (Letter w)) = [] := rfl

theorem textOf_cons (letter : Letter w) (letters : List (Letter w)) :
    textOf (letter :: letters) = letter.bytes ++ textOf letters := rfl

theorem propsOf_cons (isPasswd : Bool) (letter : Letter w) (letters : List (Letter w)) :
    propsOf isPasswd (letter :: letters) = letter.props isPasswd ++ propsOf isPasswd letters := rfl

@[simp] theorem textOf_append (front back : List (Letter w)) : textOf (front ++ back) = textOf front ++ textOf back :=
  List.flatMap_append

@[simp] theorem propsOf_append (isPasswd : Bool) (front back : List (Letter w)) :
    propsOf isPasswd (front ++ back) = propsOf isPasswd front ++ propsOf isPasswd back :=
  List.flatMap_append

@[simp] theorem Letter.bytes_length (letter : Letter w) : letter.bytes.length = letter.more.length + 1 := rfl

@[simp] theorem Letter.props_length (isPasswd : Bool) (letter : Letter w) :
    (letter.props isPasswd).length = letter.more.length + 1 := by
  rw [Letter.props, List.length_cons, List.length_replicate]

theorem propsOf_length (isPasswd : Bool) (letters : List (Letter w)) :
    (propsOf isPasswd letters).length = (textOf letters).length := by
  induction letters with
  | nil => rfl
  | cons letter letters ih =>
      rw [propsOf_cons, textOf_cons, List.length_append, List.length_append, ih, Letter.props_length,
        Letter.bytes_length]

theorem behindFirst_wchar2 (ctype : Lineprop) : isWchar2 (behindFirst ctype) = true := by
  have kept : behindFirst ctype &&& pcWchar2 = pcWchar2 := by
    rw [behindFirst]
    apply UInt16.toBitVec_inj.mp
    ext place inside
    simp [pcWchar1, pcWchar2]
    cases (0x400#16)[place] <;> simp
  rw [isWchar2, kept]
  rfl

theorem charType_single (isPasswd : Bool) {lead : UInt8} (single : getMclen w lead = 1) :
    isWchar2 (charType w isPasswd lead) = false := by
  have table : ∀ wide isPasswd : Bool, ∀ n < 256,
      (if UInt8.ofNat n > 0xA0 then if wide then 2 else 1
        else if UInt8.ofNat n ≥ 0x80 then Libwc.wtfLenTable.getD ((UInt8.ofNat n).toNat - 0x80) 1 else 1) = 1 →
      isWchar2
        (let ctype : Lineprop := (if UInt8.ofNat n > 0xA0 then if wide then 0xA else 2
            else if UInt8.ofNat n ≥ 0x80 then wtfTypeTable.getD ((UInt8.ofNat n).toNat - 0x80) 0x20
            else if UInt8.ofNat n < 0x20 ∨ UInt8.ofNat n = 0x7F then 1 else 0) <<< 8
          if isPasswd then
            let ctype := if ctype &&& pcCtrl != 0 then pcAscii else ctype
            if ctype &&& pcUnknown != 0 then pcWchar1 else ctype
          else ctype) = false := by
    intro wide isPasswd
    cases wide <;> cases isPasswd <;> decide +kernel
  have known := table (isWide w.grCcs) isPasswd lead.toNat lead.toNat_lt
  rw [UInt8.ofNat_toNat] at known
  exact known single

theorem control_char (w : Wc) (isPasswd : Bool) {code : UInt8} (control : code < 0x20) :
    getMclen w code = 1 ∧ charType w isPasswd code = if isPasswd then pcAscii else pcCtrl := by
  have small : ¬ code > 0xA0 ∧ ¬ code ≥ 0x80 := by
    simp only [gt_iff_lt, ge_iff_le, UInt8.lt_iff_toNat_lt, UInt8.le_iff_toNat_le] at control ⊢
    have : (0x20 : UInt8).toNat = 0x20 ∧ (0x80 : UInt8).toNat = 0x80 ∧ (0xA0 : UInt8).toNat = 0xA0 := by decide
    omega
  rw [getMclen, wtfLenMap, if_neg small.1, if_neg small.2, charType, getMctype, wtfTypeMap, if_neg small.1,
    if_neg small.2, if_pos (Or.inl control)]
  exact ⟨rfl, by cases isPasswd <;> decide⟩

theorem textOf_injective {first second : List (Letter w)} (same : textOf first = textOf second) : first = second := by
  induction first generalizing second with
  | nil =>
      cases second with
      | nil => rfl
      | cons letter letters => cases same
  | cons letter letters ih =>
      cases second with
      | nil => cases same
      | cons other others =>
          obtain ⟨lead, more, whole⟩ := letter
          obtain ⟨otherLead, otherMore, otherWhole⟩ := other
          rw [textOf_cons, textOf_cons, Letter.bytes, Letter.bytes, List.cons_append, List.cons_append,
            List.cons.injEq] at same
          obtain ⟨sameLead, same⟩ := same
          subst sameLead
          have count : more.length = otherMore.length := Nat.succ_inj.mp (whole.trans otherWhole.symm)
          obtain ⟨sameMore, sameRest⟩ := List.append_inj same count
          subst sameMore
          rw [ih sameRest]

/-- A place of a line in front of which whole characters end, and behind which whole
characters follow. -/
def Boundary (w : Wc) (text : List UInt8) (pos : Int) : Prop :=
  ∃ before after : List (Letter w), text = textOf before ++ textOf after ∧ pos = (textOf before).length

theorem cut_at_start {isPasswd : Bool} {letters : List (Letter w)} {front back : List Lineprop}
    (split : propsOf isPasswd letters = front ++ back)
    (start : front = [] ∨ back.head?.all (fun prop => !isWchar2 prop) = true) :
    ∃ before after, letters = before ++ after ∧ propsOf isPasswd before = front ∧
      propsOf isPasswd after = back := by
  induction letters generalizing front with
  | nil =>
      obtain ⟨noFront, noBack⟩ := List.append_eq_nil_iff.mp split.symm
      exact ⟨[], [], rfl, noFront.symm, noBack.symm⟩
  | cons letter letters ih =>
      rcases start with none | start
      · subst none
        exact ⟨[], letter :: letters, rfl, rfl, split⟩
      · rw [propsOf_cons] at split
        rcases List.append_eq_append_iff.mp split with ⟨more, inFront, rest⟩ | ⟨more, inLetter, rest⟩
        · obtain ⟨before, after, parts, first, second⟩ := ih rest (.inr start)
          refine ⟨letter :: before, after, by rw [parts, List.cons_append], ?_, second⟩
          rw [propsOf_cons, first, inFront]
        · cases front with
          | nil => exact ⟨[], letter :: letters, rfl, rfl, by rw [rest, propsOf_cons, inLetter, List.nil_append]⟩
          | cons first front =>
              cases more with
              | nil =>
                  rw [List.append_nil] at inLetter
                  refine ⟨[letter], letters, rfl, ?_, by rw [rest, List.nil_append]⟩
                  rw [propsOf_cons, propsOf_nil, List.append_nil, inLetter]
              | cons inner more =>
                  rw [Letter.props, List.cons_append, List.cons.injEq] at inLetter
                  have behind : inner = behindFirst (charType w isPasswd letter.lead) := by
                    apply List.eq_of_mem_replicate (n := letter.more.length)
                    rw [inLetter.2]
                    simp
                  rw [rest, List.cons_append, List.head?_cons, Option.all_some, behind, behindFirst_wchar2] at start
                  cases start

theorem Boundary.of_letters (before after : List (Letter w)) :
    Boundary w (textOf before ++ textOf after) (textOf before).length :=
  ⟨before, after, rfl, rfl⟩

theorem Boundary.split {letters : List (Letter w)} {pos : Int} (bound : Boundary w (textOf letters) pos) :
    ∃ before after, letters = before ++ after ∧ pos = (textOf before).length := by
  obtain ⟨before, after, same, count⟩ := bound
  rw [← textOf_append] at same
  exact ⟨before, after, textOf_injective same, count⟩

theorem Boundary.outside {front back : List (Letter w)} {letter : Letter w} {pos : Int}
    (bound : Boundary w (textOf (front ++ letter :: back)) pos) :
    pos ≤ (textOf front).length ∨ (textOf front).length + letter.bytes.length ≤ pos := by
  obtain ⟨before, after, parts, place⟩ := bound.split
  rcases List.append_eq_append_iff.mp parts with ⟨more, first, second⟩ | ⟨more, first, second⟩
  · cases more with
    | nil =>
        rw [List.append_nil] at first
        exact .inl (by rw [place, first])
    | cons other more =>
        rw [List.cons_append, List.cons.injEq] at second
        refine .inr ?_
        rw [place, first, textOf_append, textOf_cons, ← second.1, List.length_append, List.length_append]
        omega
  · refine .inl ?_
    rw [place, first, textOf_append, List.length_append]
    omega

end Letters

section Typing

variable {w : Wc}

theorem setStrTypeFrom_letters (isPasswd : Bool) (letters : List (Letter w)) (front old back : List Lineprop)
    (fits : front.length + (textOf letters).length ≤ strLen) (size : old.length = (textOf letters).length) :
    setStrTypeFrom w isPasswd (textOf letters) front.length (front ++ (old ++ back)) =
      some (((front.length + (textOf letters).length : Nat) : Int), front ++ (propsOf isPasswd letters ++ back)) := by
  induction letters generalizing front old with
  | nil =>
      rw [textOf_nil, List.length_nil, List.length_eq_zero_iff] at size
      subst size
      simp [setStrTypeFrom]
  | cons letter letters ih =>
      rw [textOf_cons, List.length_append] at fits size
      rw [Letter.bytes_length] at fits size
      obtain ⟨first, old, rfl⟩ : ∃ first rest, old = first :: rest := List.exists_cons_of_length_pos (by omega)
      rw [List.length_cons] at size
      have whole := letter.whole
      have inner : (old.take letter.more.length).length =
          (List.replicate letter.more.length (behindFirst (charType w isPasswd letter.lead))).length := by
        rw [List.length_take, List.length_replicate]
        omega
      have room : ¬ (front.length : Int) + getMclen w letter.lead > strLen := by
        rw [← whole]
        omega
      have behind : (letter.lead :: (letter.more ++ textOf letters)).drop (getMclen w letter.lead) =
          textOf letters := by
        rw [← whole, List.drop_succ_cons, List.drop_left]
      have count : getMclen w letter.lead - 1 = letter.more.length := by omega
      have put := Buffer.put_append front first (charType w isPasswd letter.lead) (old ++ back)
      have written := Buffer.write_append (front ++ [charType w isPasswd letter.lead])
        (old.drop letter.more.length ++ back) inner
      have onward := ih (front ++ letter.props isPasswd) (old.drop letter.more.length)
        (by rw [List.length_append, Letter.props_length]; omega) (by rw [List.length_drop]; omega)
      rw [List.length_append, List.length_singleton, ← List.append_assoc (old.take _), List.take_append_drop,
        List.append_assoc, List.singleton_append] at written
      rw [textOf_cons, Letter.bytes, List.cons_append, setStrTypeFrom, if_neg room, behind, List.cons_append, count]
      simp only [put, Option.bind_eq_bind, Option.bind_some]
      have place : (front.length : Int) + 1 = (front.length + 1 : Nat) := rfl
      rw [place, written, Option.bind_some]
      rw [List.length_append, Letter.props_length, whole] at onward
      rw [Letter.props, List.append_assoc, List.cons_append] at onward
      rw [← Int.natCast_add]
      rw [List.append_assoc front, List.singleton_append, onward, propsOf_cons, Letter.props, ← whole]
      simp only [List.length_cons, List.length_append, List.cons_append, List.append_assoc]
      congr 3
      omega

theorem setStrType_letters (isPasswd : Bool) (letters : List (Letter w)) {prop : List Lineprop}
    (fits : (textOf letters).length ≤ strLen) (size : prop.length = strLen) :
    setStrType w isPasswd (textOf letters) prop =
      some (((textOf letters).length : Int), propsOf isPasswd letters ++ prop.drop (textOf letters).length) := by
  have ran := setStrTypeFrom_letters isPasswd letters [] (prop.take (textOf letters).length)
    (prop.drop (textOf letters).length) (by simpa using fits) (by rw [List.length_take]; omega)
  rw [List.take_append_drop, List.nil_append, List.nil_append, List.length_nil] at ran
  rw [setStrType]
  simpa using ran

end Typing

end KcnTools.W3m.Linein
