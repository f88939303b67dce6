import KcnTools.Libwc.Utf7Register
import Mathlib

/-! The UTF-7 decoder over whole texts. -/

namespace KcnTools.Libwc

open Sextets

namespace Utf7Item

def pushed : Utf7Item → List Pushed
  | direct byte => utf7Direct byte
  | plus => [.ucs 0x2B]
  | run chars _ => (chars.filter (· ≠ ucsBom)).map .ucs

end Utf7Item

theorem utf7Direct_char : ∀ byte : UInt8, byte < 0x80 → (utf7Direct byte).map Pushed.char = [some byte.toNat] := by
  apply byte_forall
  decide +kernel

theorem isDirect_step : ∀ byte : UInt8, isDirect byte = true → byte < 0x80 ∧ byte ≠ 0x2B := by
  apply byte_forall
  decide +kernel

theorem passes_step : ∀ byte : UInt8, isDirect byte = true →
    (isBase64 byte = false ∧ byte ≠ 0x2D ∧ byte ≠ 0x40 ∧
      utf7Map byte.toNat ≠ .base64 ∧ utf7Map byte.toNat ≠ .plus ∧ utf7Map byte.toNat ≠ .minus) ∨
    (byte = 0x2D ∧ utf7Map byte.toNat = .minus) ∨
    ((isBase64 byte = true ∨ byte = 0x40) ∧ byte ≠ 0x2D ∧ utf7Map byte.toNat = .base64) := by
  apply byte_forall
  decide +kernel

theorem utf7Pushed_chars (is : List UInt8) :
    (utf7Pushed is).map Pushed.char = (utf7Decoder.run .nostate is).map Pushed.char := by
  induction is with
  | nil => rfl
  | cons byte rest ih =>
      by_cases plain : utf7Plain byte = true
      · have step : utf7Decoder.step .nostate byte = (.nostate, utf7Direct byte) := by
          simp only [utf7Plain, Bool.and_eq_true, bne_iff_ne] at plain
          exact if_neg plain.2
        have char : (utf7Direct byte).map Pushed.char = [some byte.toNat] := by
          simp only [utf7Plain, Bool.and_eq_true, decide_eq_true_eq] at plain
          exact utf7Direct_char byte plain.1
        have unfolded : (utf7Pushed (byte :: rest)) = .raw byte :: utf7Pushed rest := by
          rw [utf7Pushed, List.takeWhile_cons_of_pos plain, List.dropWhile_cons_of_pos plain]
          rfl
        rw [unfolded, List.map_cons, ih, Transducer.run_cons, step, List.map_append, char]
        rfl
      · rw [utf7Pushed, List.takeWhile_cons_of_neg plain, List.dropWhile_cons_of_neg plain]
        rfl

namespace Utf7Item

theorem pushed_chars {item : Utf7Item} (valid : item.Valid) :
    item.pushed.map Pushed.char = item.chars.map some := by
  cases item with
  | direct byte => exact utf7Direct_char byte (isDirect_step byte valid).1
  | plus => rfl
  | run chars closed => simp [pushed, Utf7Item.chars, Pushed.char]

end Utf7Item

theorem text_pushed_chars {text : List Utf7Item} (valid : ∀ item ∈ text, item.Valid) :
    (text.flatMap Utf7Item.pushed).map Pushed.char = (utf7Chars text).map some := by
  rw [utf7Chars, List.map_flatMap, List.map_flatMap]
  apply List.flatMap_congr
  rintro item member
  exact Utf7Item.pushed_chars (valid item member)

section Reading

theorem step_direct {byte : UInt8} (direct : isDirect byte = true) :
    utf7Decoder.step .nostate byte = (.nostate, utf7Direct byte) := by
  exact if_neg (isDirect_step byte direct).2

theorem utf16_nonempty {chars : List Nat} (some : chars ≠ []) : utf16 chars ≠ [] := by
  cases chars with
  | nil => contradiction
  | cons c rest =>
      rw [utf16, List.flatMap_cons, utf16Units]
      split <;> simp

theorem feed_run {chars : List Nat} (some : chars ≠ []) (scalars : ∀ c ∈ chars, IsScalar c) :
    ∃ r, utf7Decoder.feed .nostate (0x2B :: (digits (utf16 chars)).map base64C) =
        (.base64 r, (chars.filter (· ≠ ucsBom)).map .ucs) ∧ 12 ≤ r.shift ∧ r.shift ≤ 16 := by
  obtain ⟨r, fed, bounds⟩ :=
    feed_digits (.none 0) (.inl rfl) (utf16_small scalars) (.inr (utf16_nonempty some))
  refine ⟨r, ?_, bounds⟩
  have opened : utf7Decoder.step .nostate 0x2B = (.plus ⟨16, 0, 0⟩, []) := rfl
  rw [Transducer.feed_cons, opened, digits, fed, List.nil_append, feed_utf16 scalars]
  rfl

theorem feed_closed {item : Utf7Item} (valid : item.Valid) (closed : item.isOpen = false) :
    utf7Decoder.feed .nostate item.bytes = (.nostate, item.pushed) := by
  cases item with
  | direct byte =>
      rw [Utf7Item.bytes, Transducer.feed_cons, step_direct valid]
      simp [Utf7Item.pushed]
  | plus => rfl
  | run chars ends =>
      cases ends with
      | false => contradiction
      | true =>
          obtain ⟨r, fed, _⟩ := feed_run valid.1 valid.2
          have ended : utf7Decoder.step (.base64 r) 0x2D = (.nostate, []) := rfl
          simp only [Utf7Item.bytes, if_true]
          rw [← List.cons_append, Transducer.feed_append, fed, Transducer.feed_cons, ended]
          simp [Utf7Item.pushed]

theorem feed_passing {r : Utf7Register} {items : List Utf7Item} (valid : ∀ item ∈ items, item.Valid)
    (passing : ∀ item ∈ items, item.passes = true) :
    utf7Decoder.feed (.base64 r) (utf7Bytes items) = (.base64 r, items.flatMap Utf7Item.pushed) := by
  apply utf7Decoder.feed_pieces
  rintro item member
  cases item with
  | plus => exact absurd (passing _ member) (by simp [Utf7Item.passes])
  | run chars closed => exact absurd (passing _ member) (by simp [Utf7Item.passes])
  | direct byte =>
      have passes := passing _ member
      simp only [Utf7Item.passes, Bool.and_eq_true, Bool.not_eq_true', bne_iff_ne] at passes
      obtain ⟨⟨other, minus⟩, sign⟩ := passes
      have step : utf7Decoder.step (.base64 r) byte = (.base64 r, utf7Direct byte) := by
        obtain ⟨_, _, _, digit, plus, close⟩ | ⟨same, _⟩ | ⟨taken, _⟩ := passes_step byte (valid _ member)
        · show utf7InRun _ r byte = _
          rw [utf7InRun]
          split <;> simp_all
        · contradiction
        · simp_all
      rw [Utf7Item.bytes, Transducer.feed_cons, step]
      simp [Utf7Item.pushed]

end Reading

theorem isOpen_run {item : Utf7Item} (isOpen : item.isOpen = true) : ∃ chars, item = .run chars false := by
  cases item with
  | direct byte => contradiction
  | plus => contradiction
  | run chars closed =>
      cases closed with
      | true => contradiction
      | false => exact ⟨chars, rfl⟩

theorem settled_run {text : List Utf7Item} (valid : ∀ item ∈ text, item.Valid) (settled : Utf7Settled text) :
    utf7Decoder.run .nostate (utf7Bytes text) = text.flatMap Utf7Item.pushed := by
  induction text with
  | nil => rfl
  | cons item rest ih =>
      rw [List.forall_mem_cons] at valid
      rw [Utf7Settled, List.pairwise_cons] at settled
      rw [utf7Bytes, List.flatMap_cons, List.flatMap_cons, Transducer.run_append]
      cases isOpen : item.isOpen with
      | false =>
          rw [feed_closed valid.1 isOpen]
          exact congrArg _ (ih valid.2 settled.2)
      | true =>
          obtain ⟨chars, rfl⟩ := isOpen_run isOpen
          obtain ⟨r, fed, _⟩ := feed_run valid.1.1 valid.1.2
          have silent := feed_passing (r := r) valid.2 (fun later member => settled.1 later member rfl)
          rw [utf7Bytes] at silent
          simp only [Utf7Item.bytes, Bool.false_eq_true, if_false, List.append_nil]
          rw [fed, Transducer.run, silent]
          simp [utf7Decoder, Utf7Item.pushed]

section Copying

theorem utf7Direct_raw : ∀ byte : UInt8, ∀ p ∈ utf7Direct byte, p.rawAscii = true := by
  apply byte_forall
  decide +kernel

theorem utf7Digit_raw (r : Utf7Register) (b : Nat) : ∀ p ∈ (utf7Digit r b).2, p.rawAscii = true := by
  have unit (high unit : Nat) : ∀ p ∈ (utf7Unit high unit).2, p.rawAscii = true := by
    simp only [utf7Unit]
    repeat' split
    all_goals simp [Pushed.rawAscii]
  simp only [utf7Digit]
  split
  · exact unit _ _
  · simp

theorem utf7InRun_raw (state : Utf7State) (r : Utf7Register) (byte : UInt8) :
    ∀ p ∈ (utf7InRun state r byte).2, p.rawAscii = true := by
  rw [utf7InRun]
  split
  · exact utf7Digit_raw _ _
  · exact utf7Digit_raw _ _
  · simp
  · exact utf7Direct_raw byte

theorem utf7Pushed_raw (is : List UInt8) : ∀ p ∈ utf7Pushed is, p.rawAscii = true := by
  rw [utf7Pushed, List.forall_mem_append]
  constructor
  · rintro p member
    obtain ⟨byte, copied, rfl⟩ := List.mem_map.mp member
    have plain := List.mem_takeWhile_imp copied
    simp only [utf7Plain, Bool.and_eq_true] at plain
    exact plain.1
  · refine utf7Decoder.run_closed (fun _ => True) (fun written => ∀ p ∈ written, p.rawAscii = true) ?_ ?_ ?_
      trivial (fun _ _ => (trivial : True))
    · rintro first second early late
      exact List.forall_mem_append.mpr ⟨early, late⟩
    · rintro state byte - -
      refine ⟨trivial, ?_⟩
      show ∀ p ∈ (utf7Step state byte).2, p.rawAscii = true
      unfold utf7Step
      split
      · split
        · simp
        · exact utf7Direct_raw byte
      · refine List.forall_mem_append.mpr ⟨?_, utf7InRun_raw _ _ byte⟩
        split <;> simp [Pushed.rawAscii]
      · exact utf7InRun_raw _ _ byte
    · simp [utf7Decoder]

end Copying

section Counting

theorem digit_count {r : Utf7Register} (bounded : r.shift ≤ 16) (b : Nat) :
    ∃ r', (utf7Digit r b).1 = .base64 r' ∧ r'.shift ≤ 16 ∧
      16 * ((utf7Digit r b).2.length : Int) ≤ r'.shift - r.shift + 6 := by
  have single (high unit : Nat) : (utf7Unit high unit).2.length ≤ 1 := by
    simp only [utf7Unit]
    repeat' split
    all_goals simp
  have one := single r.high (r.base ||| b >>> (-(r.shift - 6)).toNat)
  simp only [utf7Digit]
  split
  · refine ⟨_, rfl, ?_, ?_⟩ <;> simp only <;> omega
  · refine ⟨_, rfl, ?_, ?_⟩ <;> simp only [List.length_nil] <;> omega

theorem feed_direct {bytes : List UInt8} (direct : ∀ byte ∈ bytes, isDirect byte = true) :
    utf7Decoder.feed .nostate bytes = (.nostate, bytes.flatMap utf7Direct) := by
  have pieces := utf7Decoder.feed_pieces (fun byte => [byte]) utf7Direct bytes fun byte member => by
    rw [Transducer.feed_cons, step_direct (direct byte member), Transducer.feed_nil, List.append_nil]
  simpa using pieces

theorem utf7Direct_length (byte : UInt8) : (utf7Direct byte).length = 1 := by
  rw [utf7Direct]
  split <;> rfl

/-- Direct characters in a run that was left open: as many characters as bytes at most,
and fewer where one of them is taken for a part of the run. -/
theorem read_count {r : Utf7Register} (bounded : r.shift ≤ 16) {bytes : List UInt8}
    (direct : ∀ byte ∈ bytes, isDirect byte = true) :
    16 * ((utf7Decoder.feed (.base64 r) bytes).2.length : Int) +
        (if ∀ byte ∈ bytes, (Utf7Item.direct byte).passes = true then 0 else 10) ≤
      16 * bytes.length + 16 - r.shift := by
  induction bytes generalizing r with
  | nil =>
      simp
      omega
  | cons byte rest ih =>
      rw [List.forall_mem_cons] at direct
      have most {r : Utf7Register} (bounded : r.shift ≤ 16) := ih bounded direct.2
      rw [Transducer.feed_cons, List.length_append, List.length_cons]
      have inside : utf7Decoder.step (.base64 r) byte = utf7InRun (.base64 r) r byte := rfl
      obtain ⟨other, minus, sign, digit, plus, close⟩ | ⟨same, close⟩ | ⟨taken, minus, digit⟩ :=
        passes_step byte direct.1
      · have step : utf7InRun (.base64 r) r byte = (.base64 r, utf7Direct byte) := by
          rw [utf7InRun]
          split <;> simp_all
        have passes : (Utf7Item.direct byte).passes = true := by simp [Utf7Item.passes, other, minus, sign]
        have later := most bounded
        rw [inside, step, utf7Direct_length]
        simp only [List.forall_mem_cons, passes, true_and]
        push_cast
        omega
      · have step : utf7InRun (.base64 r) r byte = (.nostate, []) := by rw [utf7InRun, close]
        have plain : (rest.flatMap utf7Direct).length = rest.length := by
          simp [List.length_flatMap, utf7Direct_length]
        rw [inside, step, feed_direct direct.2, plain]
        push_cast
        split <;> simp <;> omega
      · obtain ⟨r', next, within, worth⟩ := digit_count bounded (cBase64 byte.toNat)
        have step : utf7InRun (.base64 r) r byte = utf7Digit r (cBase64 byte.toNat) := by rw [utf7InRun, digit]
        have later := most within
        rw [inside, step, next]
        push_cast
        split at later <;> split <;> omega

theorem directs {items : List Utf7Item} (direct : ∀ item ∈ items, item.IsDirect) :
    ∃ bytes : List UInt8, items = bytes.map .direct := by
  induction items with
  | nil => exact ⟨[], rfl⟩
  | cons item rest ih =>
      rw [List.forall_mem_cons] at direct
      obtain ⟨byte, rfl⟩ := direct.1
      obtain ⟨bytes, rfl⟩ := ih direct.2
      exact ⟨byte :: bytes, rfl⟩

theorem split_open (text : List Utf7Item) : (∀ item ∈ text, item.isOpen = false) ∨
    ∃ before chars after, text = before ++ .run chars false :: after ∧ ∀ item ∈ before, item.isOpen = false := by
  induction text with
  | nil => simp
  | cons item rest ih =>
      cases isOpen : item.isOpen with
      | true =>
          obtain ⟨chars, rfl⟩ := isOpen_run isOpen
          exact .inr ⟨[], chars, rest, rfl, by simp⟩
      | false =>
          rcases ih with none | ⟨before, chars, after, rfl, closed⟩
          · exact .inl (List.forall_mem_cons.mpr ⟨isOpen, none⟩)
          · exact .inr ⟨item :: before, chars, after, rfl, List.forall_mem_cons.mpr ⟨isOpen, closed⟩⟩

theorem settled_closed {text : List Utf7Item} (closed : ∀ item ∈ text, item.isOpen = false) : Utf7Settled text := by
  induction text with
  | nil => exact List.Pairwise.nil
  | cons item rest ih =>
      rw [List.forall_mem_cons] at closed
      refine List.pairwise_cons.mpr ⟨?_, ih closed.2⟩
      rintro later member isOpen
      rw [closed.1] at isOpen
      contradiction

/-- An open run with direct characters behind it, one of which belongs to runs: some
of the characters get lost. -/
theorem unsettled_short {before : List Utf7Item} {chars : List Nat} {bytes : List UInt8}
    (valid : ∀ item ∈ before ++ .run chars false :: bytes.map .direct, item.Valid)
    (closed : ∀ item ∈ before, item.isOpen = false)
    (disturbed : ¬ ∀ byte ∈ bytes, (Utf7Item.direct byte).passes = true) :
    (utf7Decoder.run .nostate (utf7Bytes (before ++ .run chars false :: bytes.map .direct))).length <
      (utf7Chars (before ++ .run chars false :: bytes.map .direct)).length := by
  simp only [List.forall_mem_append, List.forall_mem_cons, List.forall_mem_map] at valid
  obtain ⟨early, ⟨some, scalars⟩, late⟩ := valid
  obtain ⟨r, fed, low, high⟩ := feed_run some scalars
  have first : utf7Decoder.feed .nostate (utf7Bytes before) = (.nostate, before.flatMap Utf7Item.pushed) :=
    utf7Decoder.feed_pieces _ _ before fun item member => feed_closed (early item member) (closed item member)
  have denoted := congrArg List.length (text_pushed_chars early)
  simp only [List.length_map] at denoted
  have few := read_count high late
  rw [if_neg disturbed] at few
  have last : utf7Bytes (bytes.map .direct) = bytes := by
    rw [utf7Bytes, List.flatMap_map]
    exact List.flatMap_singleton' bytes
  have behind : (utf7Chars (bytes.map .direct)).length = bytes.length := by
    simp [utf7Chars, List.flatMap_map, Utf7Item.chars, List.length_flatMap]
  have split : utf7Bytes (before ++ .run chars false :: bytes.map .direct) =
      utf7Bytes before ++ ((0x2B :: (digits (utf16 chars)).map base64C) ++ bytes) := by
    rw [utf7Bytes, List.flatMap_append, List.flatMap_cons]
    simp only [Utf7Item.bytes, Bool.false_eq_true, if_false, List.append_nil]
    exact congrArg (fun rest => utf7Bytes before ++ (_ ++ rest)) last
  have counted : (utf7Chars (before ++ .run chars false :: bytes.map .direct)).length =
      (utf7Chars before).length + ((chars.filter (· ≠ ucsBom)).length + bytes.length) := by
    rw [← behind, utf7Chars, List.flatMap_append, List.flatMap_cons, List.length_append, List.length_append]
    rfl
  rw [split, counted, Transducer.run_append, first, Transducer.run_append, fed, Transducer.run]
  simp only [utf7Decoder, List.append_nil, List.length_append, List.length_map] at few ⊢
  omega

theorem settled_decoded {text : List Utf7Item} (wellFormed : Utf7WellFormed text) (settled : Utf7Settled text) :
    Utf7Decoded text := by
  rw [Utf7Decoded, utf7Pushed_chars, settled_run wellFormed.valid settled, text_pushed_chars wellFormed.valid]

theorem decoded_settled {text : List Utf7Item} (wellFormed : Utf7WellFormed text) (behind : DirectBehind text)
    (decoded : Utf7Decoded text) : Utf7Settled text := by
  obtain closed | ⟨before, chars, after, rfl, closed⟩ := split_open text
  · exact settled_closed closed
  · have late := (List.pairwise_cons.mp (List.pairwise_append.mp behind).2.1).1
    obtain ⟨bytes, rfl⟩ := directs fun item member => late item member rfl
    have passing : ∀ byte ∈ bytes, (Utf7Item.direct byte).passes = true := by
      by_contra disturbed
      have short := unsettled_short wellFormed.valid closed disturbed
      rw [Utf7Decoded, utf7Pushed_chars] at decoded
      have same := congrArg List.length decoded
      simp only [List.length_map] at same
      omega
    refine List.pairwise_append.mpr ⟨settled_closed closed, List.pairwise_cons.mpr ⟨?_, ?_⟩, ?_⟩
    · rintro later member _
      obtain ⟨byte, inside, rfl⟩ := List.mem_map.mp member
      exact passing byte inside
    · apply settled_closed
      rintro item member
      obtain ⟨byte, _, rfl⟩ := List.mem_map.mp member
      rfl
    · rintro item member later _ isOpen
      rw [closed item member] at isOpen
      contradiction

end Counting

/-- A text whose runs are closed or followed by nothing that looks like a run is read
as what it denotes; of the texts with direct characters behind an open run, no other is. -/
theorem utf7_decodes (w : Wc) (tagMap : List (List UInt8)) {text : List Utf7Item} (wellFormed : Utf7WellFormed text) :
    (Utf7Settled text → Utf7Decoded text ∧
      ((∀ c ∈ utf7Chars text, ¬ IsTagChar c) →
        wcConvFromUtf7 w tagMap (utf7Bytes text) = (utf7Chars text).flatMap (ucsUnit w))) ∧
      (DirectBehind text → (Utf7Decoded text ↔ Utf7Settled text)) := by
  have decoded := settled_decoded wellFormed
  refine ⟨fun settled => ⟨decoded settled, fun plain => ?_⟩,
    fun behind => ⟨decoded_settled wellFormed behind, decoded⟩⟩
  exact pushedText_chars (decoded settled) (utf7Pushed_raw _) plain

/-- `+AGE.` -/
theorem utf7_decodes_open : Utf7Decoded [.run [0x61] false, .direct 0x2E] :=
  ((utf7_decodes Wc.initial []
    ⟨by simp [Utf7Item.Valid, isDirect, IsScalar, unicodeEnd, ucsSurrogate], by decide⟩).1
      (by simp [Utf7Settled, Utf7Item.isOpen, Utf7Item.passes, isBase64])).1

/-- `+AGE.b-c`: the letter and the hyphen behind the run are lost. -/
theorem utf7_run_not_left :
    Utf7WellFormed [.run [0x61] false, .direct 0x2E, .direct 0x62, .direct 0x2D, .direct 0x63] ∧
      (utf7Pushed (utf7Bytes [.run [0x61] false, .direct 0x2E, .direct 0x62, .direct 0x2D, .direct 0x63])).map
          Pushed.char = [some 0x61, some 0x2E, some 0x63] ∧
      ¬ Utf7Decoded [.run [0x61] false, .direct 0x2E, .direct 0x62, .direct 0x2D, .direct 0x63] :=
  ⟨⟨by simp [Utf7Item.Valid, isDirect, IsScalar, unicodeEnd, ucsSurrogate], by decide⟩, by decide, by decide⟩

end KcnTools.Libwc
