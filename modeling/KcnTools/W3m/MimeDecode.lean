import Mathlib.Data.List.DropRight
import KcnTools.W3m.Str

/-!
The line decoders of `mimehead.c`, and the text that they decode: groups of four
characters, and quoted-printable text with its soft line breaks.
-/

namespace KcnTools.W3m

def badBase64 : Nat := 255

def c2e (x : UInt8) : Nat :=
  if 65 ≤ x ∧ x ≤ 90 then x.toNat - 65
  else if 97 ≤ x ∧ x ≤ 122 then x.toNat - 97 + 26
  else if 48 ≤ x ∧ x ≤ 57 then x.toNat - 48 + 52
  else if x = 43 then 62
  else if x = 47 then 63
  else badBase64

def hexOf (x : UInt8) : Nat :=
  if 48 ≤ x ∧ x ≤ 57 then x.toNat - 48
  else if 65 ≤ x ∧ x ≤ 70 then x.toNat - 65 + 10
  else if 97 ≤ x ∧ x ≤ 102 then x.toNat - 97 + 10
  else 0

def ha2d (x y : UInt8) : UInt8 := UInt8.ofNat (hexOf x <<< 4 + hexOf y)

def atEnd : List UInt8 → Bool
  | [] => true
  | c :: _ => c == 63

def readGroup : Nat → List UInt8 → List UInt8 × List UInt8
  | 0, wp => ([], wp)
  | _ + 1, [] => ([], [])
  | i + 1, c :: wp =>
      if atEnd wp then ([c], wp)
      else
        let (group, rest) := readGroup i wp
        (c :: group, rest)

theorem readGroup_length (i : Nat) (wp : List UInt8) : (readGroup i wp).2.length ≤ wp.length := by
  induction i generalizing wp with
  | zero => exact Nat.le_refl _
  | succ i ih =>
      cases wp with
      | nil => exact Nat.le_refl _
      | cons c wp =>
          rw [readGroup]
          split
          · exact Nat.le_succ _
          · exact Nat.le_succ_of_le (ih wp)

theorem readGroup_lt (i : Nat) (c : UInt8) (wp : List UInt8) :
    (readGroup (i + 1) (c :: wp)).2.length < (c :: wp).length := by
  rw [readGroup]
  split
  · exact Nat.lt_succ_self _
  · exact Nat.lt_succ_of_le (readGroup_length i wp)

def padCount (c : List UInt8) : Nat := if c.getD 3 0 = 61 then if c.getD 2 0 = 61 then 2 else 1 else 0

/-- The bytes of a group, `none` where a character is no digit. -/
def groupBytes (group : List UInt8) : Option (List UInt8 × Nat) :=
  let c := group ++ List.replicate (4 - group.length) 61
  let nPad := padCount c
  let v := (c.take (4 - nPad) ++ List.replicate nPad 65).map c2e
  if v.contains badBase64 then none
  else
    let d := [v.getD 0 0 <<< 2 ||| v.getD 1 0 >>> 4, v.getD 1 0 <<< 4 ||| v.getD 2 0 >>> 2, v.getD 2 0 <<<
    6 ||| v.getD 3 0]
    some ((d.map UInt8.ofNat).take (3 - nPad), nPad)

def decodeB : List UInt8 → List UInt8
  -- the NUL is no digit
  | [] => []
  | c :: w =>
      match groupBytes (readGroup 4 (c :: w)).1 with
      | none => []
      | some (bytes, nPad) =>
          bytes ++ if nPad ≠ 0 ∨ atEnd (readGroup 4 (c :: w)).2 then [] else decodeB (readGroup 4 (c :: w)).2
termination_by wp => wp.length
decreasing_by exact readGroup_lt 3 c w

def decodeQP : List UInt8 → List UInt8
  | [] => []
  | c :: w =>
      if c = 61 then
        match w with
        | [] => []
        | x :: rest =>
            if x = 10 ∨ x = 13 ∨ x = 32 ∨ x = 9 then decodeQP ((x :: rest).dropWhile (· != 10)).tail
            else
              match rest with
              | [] => []
              | y :: w => ha2d x y :: decodeQP w
      else c :: decodeQP w
termination_by w => w.length
decreasing_by
  · have shorter := (List.dropWhile_suffix (· != 10) : _ <:+ x :: rest).length_le
    simp only [List.length_tail, List.length_cons] at shorter ⊢
    omega
  · simp only [List.length_cons]
    omega
  · exact Nat.lt_succ_self _

def cleanupLine (line : List UInt8) : List UInt8 :=
  match line.reverse with
  | 10 :: 13 :: front => front.reverse ++ [10]
  | 13 :: front => front.reverse ++ [10]
  | 10 :: _ => line
  | _ => line ++ [10]

inductive Encoding where
  | base64 | quote

def decodeLine (encoding : Encoding) (line : List UInt8) : List UInt8 :=
  match encoding with
  | .base64 => decodeB (((cleanupLine line).rdropWhile isEol).takeWhile (· != 0))
  | .quote => decodeQP ((cleanupLine line).takeWhile (· != 0))

section Base64

def base64Alphabet : List UInt8 :=
  ((List.range 26).map fun n => UInt8.ofNat (65 + n)) ++ ((List.range 26).map fun n => UInt8.ofNat (97 + n)) ++
    ((List.range 10).map fun n => UInt8.ofNat (48 + n)) ++ [43, 47]

def base64Digit (v : Nat) : UInt8 := base64Alphabet.getD v 0

/-- Groups of four characters, each of them six bits, and what they encode. -/
inductive Base64Text : List UInt8 → List UInt8 → Prop
  | nil : Base64Text [] []
  | whole {v0 v1 v2 v3 : Nat} (s0 : v0 < 64) (s1 : v1 < 64) (s2 : v2 < 64) (s3 : v3 < 64) {text data : List UInt8}
      (rest : Base64Text text data) :
      Base64Text (base64Digit v0 :: base64Digit v1 :: base64Digit v2 :: base64Digit v3 :: text)
        (UInt8.ofNat (v0 * 4 + v1 / 16) :: UInt8.ofNat (v1 % 16 * 16 + v2 / 4) ::
          UInt8.ofNat (v2 % 4 * 64 + v3) :: data)
  | padded {v0 v1 v2 : Nat} (s0 : v0 < 64) (s1 : v1 < 64) (s2 : v2 < 64) :
      Base64Text [base64Digit v0, base64Digit v1, base64Digit v2, 61]
        [UInt8.ofNat (v0 * 4 + v1 / 16), UInt8.ofNat (v1 % 16 * 16 + v2 / 4)]
  | twicePadded {v0 v1 : Nat} (s0 : v0 < 64) (s1 : v1 < 64) :
      Base64Text [base64Digit v0, base64Digit v1, 61, 61] [UInt8.ofNat (v0 * 4 + v1 / 16)]

theorem digit_facts : ∀ v < 64, c2e (base64Digit v) = v ∧ base64Digit v ≠ 61 ∧ base64Digit v ≠ 63 ∧
    base64Digit v ≠ 0 ∧ isEol (base64Digit v) = false := by decide +kernel

theorem shifted_or {a b : Nat} (k : Nat) (small : b < 2 ^ k) : a <<< k ||| b = a * 2 ^ k + b := by
  rw [← Nat.shiftLeft_add_eq_or_of_lt small, Nat.shiftLeft_eq]

theorem first_byte : ∀ a < 64, ∀ b < 64, UInt8.ofNat (a <<< 2 ||| b >>> 4) = UInt8.ofNat (a * 4 + b / 16) := by
  intro a _ b small
  rw [Nat.shiftRight_eq_div_pow, shifted_or 2 (by omega)]
  rfl

theorem second_byte : ∀ a < 64, ∀ b < 64,
    UInt8.ofNat (a <<< 4 ||| b >>> 2) = UInt8.ofNat (a % 16 * 16 + b / 4) := by
  intro a _ b small
  rw [Nat.shiftRight_eq_div_pow, shifted_or 4 (by omega), ← UInt8.toNat_inj, UInt8.toNat_ofNat', UInt8.toNat_ofNat']
  omega

theorem third_byte : ∀ a < 64, ∀ b < 64, UInt8.ofNat (a <<< 6 ||| b) = UInt8.ofNat (a % 4 * 64 + b) := by
  intro a _ b small
  rw [shifted_or 6 (by omega), ← UInt8.toNat_inj, UInt8.toNat_ofNat', UInt8.toNat_ofNat']
  omega

theorem Base64Text.head {text data : List UInt8} (shape : Base64Text text data) : atEnd text = (text == []) := by
  cases shape with
  | nil => rfl
  | whole s0 | padded s0 | twicePadded s0 => simp [atEnd, (digit_facts _ s0).2.2.1]

theorem readGroup_more {c : UInt8} {wp : List UInt8} (more : atEnd wp = false) (i : Nat) :
    readGroup (i + 1) (c :: wp) = (c :: (readGroup i wp).1, (readGroup i wp).2) := by
  rw [readGroup, if_neg (by simp [more])]

theorem readGroup_last (c : UInt8) (wp : List UInt8) : readGroup 1 (c :: wp) = ([c], wp) := by
  rw [readGroup]
  split
  · rfl
  · rfl

theorem readGroup_four {c0 c1 c2 c3 : UInt8} (n1 : c1 ≠ 63) (n2 : c2 ≠ 63) (n3 : c3 ≠ 63) (wp : List UInt8) :
    readGroup 4 (c0 :: c1 :: c2 :: c3 :: wp) = ([c0, c1, c2, c3], wp) := by
  rw [readGroup_more (by simpa [atEnd] using n1), readGroup_more (by simpa [atEnd] using n2),
    readGroup_more (by simpa [atEnd] using n3), readGroup_last]

def groupData (v0 v1 v2 v3 : Nat) : List UInt8 :=
  [UInt8.ofNat (v0 * 4 + v1 / 16), UInt8.ofNat (v1 % 16 * 16 + v2 / 4), UInt8.ofNat (v2 % 4 * 64 + v3)]

theorem groupBytes_values {c0 c1 c2 c3 : UInt8} {nPad v0 v1 v2 v3 : Nat} (pad : padCount [c0, c1, c2, c3] = nPad)
    (values : ([c0, c1, c2, c3].take (4 - nPad) ++ List.replicate nPad 65).map c2e = [v0, v1, v2, v3])
    (s0 : v0 < 64) (s1 : v1 < 64) (s2 : v2 < 64) (s3 : v3 < 64) :
    groupBytes [c0, c1, c2, c3] = some ((groupData v0 v1 v2 v3).take (3 - nPad), nPad) := by
  have known : ([v0, v1, v2, v3] : List Nat).contains badBase64 = false := by
    rw [List.contains_eq_mem, decide_eq_false_iff_not, badBase64]
    intro member
    simp only [List.mem_cons, List.not_mem_nil, or_false] at member
    omega
  have four : [c0, c1, c2, c3] ++ List.replicate (4 - [c0, c1, c2, c3].length) 61 = [c0, c1, c2, c3] := rfl
  have bytes : [v0 <<< 2 ||| v1 >>> 4, v1 <<< 4 ||| v2 >>> 2, v2 <<< 6 ||| v3].map UInt8.ofNat =
      groupData v0 v1 v2 v3 := by
    simp only [List.map_cons, List.map_nil, first_byte v0 s0 v1 s1, second_byte v1 s1 v2 s2, third_byte v2 s2 v3 s3,
      groupData]
  simp only [groupBytes, four, pad, values, known, Bool.false_eq_true, ↓reduceIte, List.getD_cons_zero,
    List.getD_cons_succ, bytes]

theorem decodeB_group {c0 c1 c2 c3 : UInt8} (n1 : c1 ≠ 63) (n2 : c2 ≠ 63) (n3 : c3 ≠ 63) {wp bytes : List UInt8}
    {nPad : Nat} (group : groupBytes [c0, c1, c2, c3] = some (bytes, nPad)) :
    decodeB (c0 :: c1 :: c2 :: c3 :: wp) = bytes ++ if nPad ≠ 0 ∨ atEnd wp then [] else decodeB wp := by
  rw [decodeB, readGroup_four n1 n2 n3, group]

theorem decodeB_text {text data : List UInt8} (shape : Base64Text text data) : decodeB text = data := by
  induction shape with
  | nil => rw [decodeB]
  | @whole v0 v1 v2 v3 s0 s1 s2 s3 text data rest ih =>
      obtain ⟨d0, _⟩ := digit_facts v0 s0
      obtain ⟨d1, _, n1, _⟩ := digit_facts v1 s1
      obtain ⟨d2, _, n2, _⟩ := digit_facts v2 s2
      obtain ⟨d3, plain, n3, _⟩ := digit_facts v3 s3
      have pad : padCount [base64Digit v0, base64Digit v1, base64Digit v2, base64Digit v3] = 0 := if_neg plain
      rw [decodeB_group n1 n2 n3 (groupBytes_values pad (by simp [d0, d1, d2, d3]) s0 s1 s2 s3), rest.head]
      simp only [ne_eq, not_true_eq_false, false_or, beq_iff_eq, ih]
      split
      next ended =>
        rw [ended, decodeB] at ih
        rw [← ih]
        rfl
      next => rfl
  | @padded v0 v1 v2 s0 s1 s2 =>
      obtain ⟨d0, _⟩ := digit_facts v0 s0
      obtain ⟨d1, _, n1, _⟩ := digit_facts v1 s1
      obtain ⟨d2, plain, n2, _⟩ := digit_facts v2 s2
      have pad : padCount [base64Digit v0, base64Digit v1, base64Digit v2, 61] = 1 := by
        simp [padCount, plain]
      have filler : c2e 65 = 0 := by decide
      rw [decodeB_group n1 n2 (by decide)
        (groupBytes_values pad (by simp [d0, d1, d2, filler]) s0 s1 s2 (Nat.zero_lt_succ 63))]
      rfl
  | @twicePadded v0 v1 s0 s1 =>
      obtain ⟨d0, _⟩ := digit_facts v0 s0
      obtain ⟨d1, _, n1, _⟩ := digit_facts v1 s1
      have pad : padCount [base64Digit v0, base64Digit v1, 61, 61] = 2 := rfl
      have filler : c2e 65 = 0 := by decide
      rw [decodeB_group n1 (by decide) (by decide)
        (groupBytes_values pad (by simp [d0, d1, filler]) s0 s1 (Nat.zero_lt_succ 63) (Nat.zero_lt_succ 63))]
      rfl

theorem digit_plain {v : Nat} (small : v < 64) : base64Digit v ≠ 0 ∧ isEol (base64Digit v) = false :=
  (digit_facts v small).2.2.2

theorem Base64Text.plain {text data : List UInt8} (shape : Base64Text text data) :
    ∀ c ∈ text, c ≠ 0 ∧ isEol c = false := by
  induction shape with
  | nil => simp
  | whole s0 s1 s2 s3 rest ih =>
      simp only [List.forall_mem_cons]
      exact ⟨digit_plain s0, digit_plain s1, digit_plain s2, digit_plain s3, ih⟩
  | padded s0 s1 s2 =>
      simp only [List.forall_mem_cons]
      exact ⟨digit_plain s0, digit_plain s1, digit_plain s2, by simp [isEol]⟩
  | twicePadded s0 s1 =>
      simp only [List.forall_mem_cons]
      exact ⟨digit_plain s0, digit_plain s1, by simp [isEol]⟩

end Base64

section Lines

def IsLineEnd (lineEnd : List UInt8) : Prop := lineEnd ∈ [[], [10], [13], [13, 10]]

theorem cleanupLine_end {text lineEnd : List UInt8} (plain : ∀ c ∈ text, isEol c = false) (ends : IsLineEnd lineEnd) :
    cleanupLine (text ++ lineEnd) = text ++ [10] := by
  have last : ∀ c rest, text.reverse = c :: rest → c ≠ 10 ∧ c ≠ 13 := by
    intro c rest shape
    have member : c ∈ text := List.mem_reverse.mp (shape ▸ List.mem_cons_self)
    simpa [isEol] using plain c member
  simp only [IsLineEnd, List.mem_cons, List.not_mem_nil, or_false] at ends
  rcases ends with rfl | rfl | rfl | rfl
  · rw [List.append_nil, cleanupLine]
    split
    next shape => exact ((last _ _ shape).1 rfl).elim
    next shape => exact ((last _ _ shape).2 rfl).elim
    next shape => exact ((last _ _ shape).1 rfl).elim
    next => rfl
  · rw [cleanupLine, List.reverse_append]
    split
    next front shape =>
      obtain ⟨_, behind⟩ := List.cons.inj shape
      exact ((last _ _ behind).2 rfl).elim
    next front shape =>
      have first : (10 : UInt8) = 13 := (List.cons.inj shape).1
      exact absurd first (by decide)
    next => rfl
    next other =>
      exact (other text.reverse rfl).elim
  · rw [cleanupLine, List.reverse_append]
    simp
  · rw [cleanupLine, List.reverse_append]
    simp

theorem decodeLine_base64 {text data lineEnd : List UInt8} (shape : Base64Text text data) (ends : IsLineEnd lineEnd) :
    decodeLine .base64 (text ++ lineEnd) = data := by
  have plain := shape.plain
  rw [decodeLine, cleanupLine_end (fun c member => (plain c member).2) ends, ← decodeB_text shape]
  have chopped : (text ++ [10]).rdropWhile isEol = text := by
    rw [List.rdropWhile_concat_pos _ _ _ (by decide)]
    cases text using List.reverseRecOn with
    | nil => rfl
    | append_singleton front c =>
        exact List.rdropWhile_concat_neg _ _ _ (by simp [(plain c (by simp)).2])
  have whole : text.takeWhile (· != 0) = text := by
    apply List.takeWhile_eq_self_iff.mpr
    intro c member
    simpa using (plain c member).1
  rw [chopped, whole]

inductive HexDigit : UInt8 → Nat → Prop
  | decimal {n : Nat} (small : n < 10) : HexDigit (UInt8.ofNat (48 + n)) n
  | upper {n : Nat} (small : n < 6) : HexDigit (UInt8.ofNat (65 + n)) (10 + n)
  | lower {n : Nat} (small : n < 6) : HexDigit (UInt8.ofNat (97 + n)) (10 + n)

/-- The text of a line and what it encodes; a soft line break takes the end of the line. -/
inductive QuotedText : List UInt8 → List UInt8 → Bool → Prop
  | hard : QuotedText [] [] true
  | soft {blanks : List UInt8} (blank : ∀ c ∈ blanks, c = 32 ∨ c = 9) : QuotedText (61 :: blanks) [] false
  | literal {c : UInt8} (plain : c ≠ 0 ∧ c ≠ 61 ∧ isEol c = false) {text data : List UInt8} {lineBreak : Bool}
      (rest : QuotedText text data lineBreak) : QuotedText (c :: text) (c :: data) lineBreak
  | escape {x y : UInt8} {a b : Nat} (high : HexDigit x a) (low : HexDigit y b) {text data : List UInt8}
      {lineBreak : Bool} (rest : QuotedText text data lineBreak) :
      QuotedText (61 :: x :: y :: text) (UInt8.ofNat (a * 16 + b) :: data) lineBreak

theorem HexDigit.facts {x : UInt8} {n : Nat} (digit : HexDigit x n) :
    hexOf x = n ∧ n < 16 ∧ x ≠ 0 ∧ isEol x = false ∧ x ≠ 32 ∧ x ≠ 9 := by
  have decimal : ∀ n < 10, hexOf (UInt8.ofNat (48 + n)) = n ∧ n < 16 ∧ UInt8.ofNat (48 + n) ≠ 0 ∧
      isEol (UInt8.ofNat (48 + n)) = false ∧ UInt8.ofNat (48 + n) ≠ 32 ∧ UInt8.ofNat (48 + n) ≠ 9 := by decide
  have upper : ∀ n < 6, hexOf (UInt8.ofNat (65 + n)) = 10 + n ∧ 10 + n < 16 ∧ UInt8.ofNat (65 + n) ≠ 0 ∧
      isEol (UInt8.ofNat (65 + n)) = false ∧ UInt8.ofNat (65 + n) ≠ 32 ∧ UInt8.ofNat (65 + n) ≠ 9 := by decide
  have lower : ∀ n < 6, hexOf (UInt8.ofNat (97 + n)) = 10 + n ∧ 10 + n < 16 ∧ UInt8.ofNat (97 + n) ≠ 0 ∧
      isEol (UInt8.ofNat (97 + n)) = false ∧ UInt8.ofNat (97 + n) ≠ 32 ∧ UInt8.ofNat (97 + n) ≠ 9 := by decide
  cases digit with
  | decimal small => exact decimal _ small
  | upper small => exact upper _ small
  | lower small => exact lower _ small

theorem QuotedText.plain {text data : List UInt8} {lineBreak : Bool} (shape : QuotedText text data lineBreak) :
    ∀ c ∈ text, c ≠ 0 ∧ isEol c = false := by
  induction shape with
  | hard => simp
  | soft blank =>
      rw [List.forall_mem_cons]
      refine ⟨by decide, fun c member => ?_⟩
      rcases blank c member with rfl | rfl
      · decide
      · decide
  | literal plain _ ih => exact List.forall_mem_cons.mpr ⟨⟨plain.1, plain.2.2⟩, ih⟩
  | escape high low _ ih =>
      simp only [List.forall_mem_cons]
      exact ⟨by decide, ⟨high.facts.2.2.1, high.facts.2.2.2.1⟩, ⟨low.facts.2.2.1, low.facts.2.2.2.1⟩, ih⟩

def isBlank (x : UInt8) : Prop := x = 10 ∨ x = 13 ∨ x = 32 ∨ x = 9

theorem decodeQP_literal {c : UInt8} (plain : c ≠ 61) (w : List UInt8) : decodeQP (c :: w) = c :: decodeQP w := by
  rw [decodeQP.eq_def]
  exact if_neg plain

theorem decodeQP_escape {x : UInt8} (other : ¬ isBlank x) (y : UInt8) (w : List UInt8) :
    decodeQP (61 :: x :: y :: w) = ha2d x y :: decodeQP w := by
  rw [decodeQP.eq_def]
  exact if_neg other

theorem decodeQP_soft {x : UInt8} (blank : isBlank x) (rest : List UInt8) :
    decodeQP (61 :: x :: rest) = decodeQP ((x :: rest).dropWhile (· != 10)).tail := by
  rw [decodeQP.eq_def]
  exact if_pos blank

theorem decodeQP_blanks {blanks : List UInt8} (blank : ∀ c ∈ blanks, c = 32 ∨ c = 9) :
    decodeQP (61 :: (blanks ++ [10])) = [] := by
  have skipped : (blanks ++ [10]).dropWhile (· != 10) = [10] := by
    rw [List.dropWhile_append, List.dropWhile_eq_nil_iff.mpr]
    · rfl
    · intro c member
      rcases blank c member with rfl | rfl
      · rfl
      · rfl
  cases blanks with
  | nil =>
      rw [List.nil_append, decodeQP_soft (.inl rfl)]
      simp [decodeQP]
  | cons c blanks =>
      have white : isBlank c := by
        rcases blank c List.mem_cons_self with space | tab
        · exact .inr (.inr (.inl space))
        · exact .inr (.inr (.inr tab))
      rw [List.cons_append] at skipped ⊢
      rw [decodeQP_soft white, skipped]
      simp [decodeQP]

theorem decodeQP_text {text data : List UInt8} {lineBreak : Bool} (shape : QuotedText text data lineBreak) :
    decodeQP (text ++ [10]) = data ++ if lineBreak then [10] else [] := by
  induction shape with
  | hard =>
      rw [List.nil_append, decodeQP_literal (by decide)]
      simp [decodeQP]
  | soft blank => exact decodeQP_blanks blank
  | literal plain _ ih => rw [List.cons_append, decodeQP_literal plain.2.1, ih, List.cons_append]
  | @escape x y a b high low text data lineBreak _ ih =>
      obtain ⟨valueX, _, _, notEol, notSpace, notTab⟩ := high.facts
      have other : ¬ isBlank x := by
        simp only [isEol, Bool.or_eq_false_iff, beq_eq_false_iff_ne] at notEol
        simp [isBlank, notEol, notSpace, notTab]
      simp only [List.cons_append]
      rw [decodeQP_escape other, ih, ha2d, valueX, low.facts.1, Nat.shiftLeft_eq]

/-- A line of quoted-printable text is decoded with a line break, if it has no soft one. -/
theorem decodeLine_quote {text data lineEnd : List UInt8} {lineBreak : Bool} (shape : QuotedText text data lineBreak)
    (ends : IsLineEnd lineEnd) :
    decodeLine .quote (text ++ lineEnd) = data ++ if lineBreak then [10] else [] := by
  have plain := shape.plain
  rw [decodeLine, cleanupLine_end (fun c member => (plain c member).2) ends, ← decodeQP_text shape]
  congr 1
  apply List.takeWhile_eq_self_iff.mpr
  intro c member
  rcases List.mem_append.mp member with inside | last
  · simpa using (plain c inside).1
  · rw [List.mem_singleton.mp last]
    rfl

/-- A well-formed line and what it encodes. A line break is LF when it is decoded. -/
inductive Encodes : Encoding → List UInt8 → List UInt8 → Prop
  | base64 {text data lineEnd : List UInt8} (shape : Base64Text text data) (ends : IsLineEnd lineEnd) :
      Encodes .base64 (text ++ lineEnd) data
  | quote {text data lineEnd : List UInt8} {lineBreak : Bool} (shape : QuotedText text data lineBreak)
      (ends : IsLineEnd lineEnd) : Encodes .quote (text ++ lineEnd) (data ++ if lineBreak then [10] else [])

theorem decodeLine_encodes {encoding : Encoding} {line data : List UInt8} (encodes : Encodes encoding line data) :
    decodeLine encoding line = data := by
  cases encodes with
  | base64 shape ends => exact decodeLine_base64 shape ends
  | quote shape ends => exact decodeLine_quote shape ends

end Lines

end KcnTools.W3m
