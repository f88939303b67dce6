import KcnTools.Libwc.Utf7Encode

/-! The UTF-7 encoder over whole texts: what it writes decodes to the text, and is
canonical but for a digit too many behind some runs. -/

namespace KcnTools.Libwc

open Sextets

namespace Utf7Item

def source : Utf7Item → List Nat
  | direct byte => [byte.toNat]
  | plus => [0x2B]
  | run chars _ => chars

def isRun : Utf7Item → Bool
  | run _ _ => true
  | _ => false

def Written : Utf7Item → Prop
  | direct byte => utf7OutDirect byte.toNat = true
  | plus => True
  | run chars closed => closed = true ∧ chars ≠ [] ∧ ∀ c ∈ chars, IsScalar c ∧ utf7Encoded c = true

def isWhole : Utf7Item → Bool
  | run chars _ => 3 ∣ (utf16 chars).length
  | _ => false

end Utf7Item

def utf7Items : List Nat → List Utf7Item
  | [] => []
  | c :: rest =>
      if c = 0x2B then .plus :: utf7Items rest
      else if utf7OutDirect c then .direct (UInt8.ofNat c) :: utf7Items rest
      else
        match utf7Items rest with
        | .run group _ :: more => .run (c :: group) true :: more
        | items => .run [c] true :: items

def Separated (items : List Utf7Item) : Prop :=
  items.IsChain fun item next => item.isRun = true → next.isRun = false

section Grouping

theorem Separated.lengthen {group longer : List Nat} {closed closed' : Bool} {more : List Utf7Item}
    (separated : Separated (.run group closed :: more)) : Separated (.run longer closed' :: more) := by
  cases more with
  | nil => exact .singleton _
  | cons next rest =>
      obtain ⟨head, tail⟩ := List.isChain_cons_cons.mp separated
      exact List.isChain_cons_cons.mpr ⟨head, tail⟩

theorem Separated.other {item : Utf7Item} {items : List Utf7Item} (single : item.isRun = false)
    (separated : Separated items) : Separated (item :: items) := by
  cases items with
  | nil => exact .singleton _
  | cons next rest => exact List.isChain_cons_cons.mpr ⟨by simp [single], separated⟩

theorem utf7Items_spec {chars : List Nat} (scalars : ∀ c ∈ chars, IsScalar c) :
    (utf7Items chars).flatMap Utf7Item.source = chars ∧ (∀ item ∈ utf7Items chars, item.Written) ∧
      Separated (utf7Items chars) := by
  induction chars with
  | nil => exact ⟨rfl, by simp [utf7Items], .nil⟩
  | cons c rest ih =>
      rw [List.forall_mem_cons] at scalars
      obtain ⟨whole, written, separated⟩ := ih scalars.2
      rw [utf7Items]
      split_ifs with sign direct
      · refine ⟨?_, List.forall_mem_cons.mpr ⟨trivial, written⟩, separated.other rfl⟩
        rw [List.flatMap_cons, whole, sign]
        rfl
      · have small : c < 0x80 := by
          simp only [utf7OutDirect, Bool.and_eq_true, decide_eq_true_eq] at direct
          exact direct.1
        have same : (UInt8.ofNat c).toNat = c := by
          rw [UInt8.toNat_ofNat']
          omega
        refine ⟨?_, List.forall_mem_cons.mpr ⟨?_, written⟩, separated.other rfl⟩
        · rw [List.flatMap_cons, whole, Utf7Item.source, same]
          rfl
        · rw [Utf7Item.Written, same]
          exact direct
      · have encoded : utf7Encoded c = true := by simp [utf7Encoded, direct, sign]
        cases items : utf7Items rest with
        | nil =>
            rw [items] at whole
            exact ⟨by simp [Utf7Item.source, ← whole], by simp [Utf7Item.Written, scalars.1, encoded],
              .singleton _⟩
        | cons item more =>
            rw [items] at whole written separated
            cases item with
            | run group closed =>
                obtain ⟨⟨_, _, inside⟩, later⟩ := List.forall_mem_cons.mp written
                refine ⟨?_, List.forall_mem_cons.mpr ⟨⟨rfl, by simp, ?_⟩, later⟩, separated.lengthen⟩
                · rw [← whole]
                  rfl
                · exact List.forall_mem_cons.mpr ⟨⟨scalars.1, encoded⟩, inside⟩
            | direct byte =>
                refine ⟨?_, List.forall_mem_cons.mpr ⟨⟨rfl, by simp, ?_⟩, written⟩, ?_⟩
                · rw [← whole]
                  rfl
                · simp [scalars.1, encoded]
                · exact List.isChain_cons_cons.mpr ⟨fun _ => rfl, separated⟩
            | plus =>
                refine ⟨?_, List.forall_mem_cons.mpr ⟨⟨rfl, by simp, ?_⟩, written⟩, ?_⟩
                · rw [← whole]
                  rfl
                · simp [scalars.1, encoded]
                · exact List.isChain_cons_cons.mpr ⟨fun _ => rfl, separated⟩

end Grouping

/-- The digits too many behind a run: one, where the run fills its digits and is left
for another character. -/
def Surplus (group : List Nat) (rest : List Utf7Item) (surplus : List Nat) : Prop :=
  if 3 ∣ (utf16 group).length ∧ rest ≠ [] then ∃ digit < 64, surplus = [digit] else surplus = []

inductive Emitted : List Utf7Item → List UInt8 → Prop
  | nil : Emitted [] []
  | direct {byte : UInt8} {rest : List Utf7Item} {out : List UInt8} (later : Emitted rest out) :
      Emitted (.direct byte :: rest) (byte :: out)
  | plus {rest : List Utf7Item} {out : List UInt8} (later : Emitted rest out) :
      Emitted (.plus :: rest) (0x2B :: 0x2D :: out)
  | run {group surplus : List Nat} {rest : List Utf7Item} {out : List UInt8} (later : Emitted rest out)
      (behind : Surplus group rest surplus) :
      Emitted (.run group true :: rest)
        (0x2B :: ((digits (utf16 group) ++ surplus).map base64C ++ 0x2D :: out))

def ucsPutter : Transducer Utf7OutState Nat UInt8 where
  step := wcPushUcsToUtf7
  finish := flushBase64

section Emitting

theorem feed_encoded {group : List Nat} (encoded : ∀ c ∈ group, IsScalar c ∧ utf7Encoded c = true)
    (state : Utf7OutState) : ucsPutter.feed state group = unitPutter.feed state (utf16 group) := by
  induction group generalizing state with
  | nil => rfl
  | cons c rest ih =>
      rw [List.forall_mem_cons] at encoded
      have step : ucsPutter.step state c = unitPutter.feed state (utf16Units c) :=
        put_encoded encoded.1.1 encoded.1.2 state
      have split : utf16 (c :: rest) = utf16Units c ++ utf16 rest := List.flatMap_cons
      rw [Transducer.feed_cons, step, ih encoded.2, split, Transducer.feed_append]

theorem flush_holds {pending : Pending} {state : Utf7OutState} (holds : BaseHolds pending state) :
    flushBase64 state = (lastDigits pending).map base64C ++ [0x2D] := by
  cases holds <;> rfl

theorem leave_holds {pending : Pending} {state : Utf7OutState} (holds : BaseHolds pending state) :
    ∃ surplus, leaveBase64 state = (lastDigits pending ++ surplus).map base64C ++ [0x2D] ∧
      if pending = .none then ∃ digit < 64, surplus = [digit] else surplus = [] := by
  cases holds with
  | none base small => exact ⟨[base], rfl, by simpa using small⟩
  | four bits small => exact ⟨[], rfl, by simp⟩
  | two bits small => exact ⟨[], rfl, by simp⟩

theorem put_direct {c : Nat} (direct : utf7OutDirect c = true) (state : Utf7OutState) :
    ucsPutter.step state c = (.nostate, leaveBase64 state ++ [UInt8.ofNat c]) := by
  have small : c < 0x80 := by
    simp only [utf7OutDirect, Bool.and_eq_true, decide_eq_true_eq] at direct
    exact direct.1
  show wcPushUcsToUtf7 state c = _
  rw [wcPushUcsToUtf7, unicodeEnd, ucs2End, if_neg (by omega), if_neg (by omega), putUcs2_direct direct]

theorem put_plus (state : Utf7OutState) :
    ucsPutter.step state 0x2B = (.nostate, leaveBase64 state ++ [0x2B, 0x2D]) := rfl

theorem run_leave {item : Utf7Item} (written : item.Written) (single : item.isRun = false) (state : Utf7OutState)
    (later : List Nat) :
    ucsPutter.run state (item.source ++ later) =
      leaveBase64 state ++ ucsPutter.run .nostate (item.source ++ later) := by
  cases item with
  | run chars closed => contradiction
  | plus =>
      simp only [Utf7Item.source, List.singleton_append, Transducer.run_cons, put_plus, leaveBase64, List.append_assoc,
        List.nil_append]
  | direct byte =>
      simp only [Utf7Item.source, List.singleton_append, Transducer.run_cons, put_direct written, leaveBase64,
        List.append_assoc, List.nil_append]

theorem run_emitted {items : List Utf7Item} (written : ∀ item ∈ items, item.Written) (separated : Separated items) :
    Emitted items (ucsPutter.run .nostate (items.flatMap Utf7Item.source)) := by
  induction items with
  | nil => exact .nil
  | cons item rest ih =>
      rw [List.forall_mem_cons] at written
      have later := ih written.2 separated.of_cons
      rw [List.flatMap_cons]
      cases item with
      | direct byte =>
          simp only [Utf7Item.source, List.singleton_append, Transducer.run_cons, put_direct written.1, leaveBase64,
            List.nil_append]
          simpa using Emitted.direct later
      | plus =>
          simp only [Utf7Item.source, List.singleton_append, Transducer.run_cons, put_plus, leaveBase64,
            List.nil_append]
          exact .plus later
      | run group closed =>
          obtain ⟨rfl, some, encoded⟩ := written.1
          obtain ⟨fed, holds⟩ := feed_group (utf16_nonempty some) (utf16_small fun c member => (encoded c member).1)
          have whole := feed_whole (utf16 group)
          rw [Utf7Item.source, Transducer.run_append, feed_encoded encoded, fed]
          cases rest with
          | nil =>
              rw [List.flatMap_nil, Transducer.run_nil]
              have flushed : ucsPutter.finish (unitPutter.feed .nostate (utf16 group)).1 = _ := flush_holds holds
              have behind : Surplus group [] [] := by simp [Surplus]
              have emitted := Emitted.run .nil behind
              rw [flushed]
              simpa [digits, Transducer.run, encoder] using emitted
          | cons next more =>
              have single : next.isRun = false := (List.isChain_cons_cons.mp separated).1 rfl
              obtain ⟨surplus, left, kind⟩ := leave_holds holds
              have behind : Surplus group (next :: more) surplus := by
                simpa [Surplus, ← whole] using kind
              have emitted := Emitted.run later behind
              rw [List.flatMap_cons, run_leave (written.2 next List.mem_cons_self) single, left]
              simpa [digits, Transducer.run, encoder] using emitted

theorem utf7Output_chars {w : Wc} {tagMap : List (List UInt8)} {characters : List Wchar} {chars : List Nat}
    (stand : List.Forall₂ (IsUcs w) characters chars) (scalars : ∀ c ∈ chars, IsScalar c) :
    utf7Output w tagMap characters = ucsPutter.run .nostate chars := by
  rw [utf7Output]
  generalize Utf7OutState.nostate = state
  induction stand generalizing state with
  | nil => rfl
  | @cons cc c characters chars stands _ ih =>
      rw [List.forall_mem_cons] at scalars
      have code : cc.code = c := by cases stands <;> rfl
      have within : ¬ (ccsSet cc.ccs = ccsUcs4 ∧ cc.code > unicodeEnd) := by
        rintro ⟨_, above⟩
        exact Nat.not_lt.mpr scalars.1.1 (code ▸ above)
      have step : (utf7Encoder w tagMap).step (0, state) cc =
          ((0, (ucsPutter.step state c).1), (ucsPutter.step state c).2) := by
        show wcPushToUtf7 w tagMap (0, state) cc = _
        rw [wcPushToUtf7, if_neg within]
        obtain target | ⟨_, target⟩ := ucsTarget_ucs stands <;> rw [target] <;> rfl
      rw [Transducer.run_cons, step, Transducer.run_cons, ih scalars.2]

end Emitting

section Decoding

theorem utf7OutDirect_valid : ∀ byte : UInt8, utf7OutDirect byte.toNat = true → isDirect byte = true := by
  apply byte_forall
  decide +kernel

theorem Surplus.small {group surplus : List Nat} {rest : List Utf7Item} (behind : Surplus group rest surplus)
    (scalars : ∀ c ∈ group, IsScalar c) : ∀ digit ∈ digits (utf16 group) ++ surplus, digit < 64 := by
  refine List.forall_mem_append.mpr ⟨digits_lt (utf16_small scalars), ?_⟩
  rw [Surplus] at behind
  split at behind
  · obtain ⟨digit, bounded, rfl⟩ := behind
    simpa using bounded
  · simp [behind]

theorem Emitted.ascii {items : List Utf7Item} {out : List UInt8} (emitted : Emitted items out)
    (written : ∀ item ∈ items, item.Written) : ∀ byte ∈ out, byte < 0x80 := by
  induction emitted with
  | nil => simp
  | direct later ih =>
      rw [List.forall_mem_cons] at written
      exact List.forall_mem_cons.mpr ⟨(isDirect_step _ (utf7OutDirect_valid _ written.1)).1, ih written.2⟩
  | plus later ih =>
      rw [List.forall_mem_cons] at written
      simpa using ih written.2
  | @run group surplus rest out later behind ih =>
      rw [List.forall_mem_cons] at written
      have small := behind.small fun c member => (written.1.2.2 c member).1
      rw [List.forall_mem_cons, List.forall_mem_append, List.forall_mem_cons]
      refine ⟨by decide, ?_, by decide, ih written.2⟩
      rintro byte member
      obtain ⟨digit, inside, rfl⟩ := List.mem_map.mp member
      exact (base64C_digit digit (small digit inside)).2.2.2

theorem feed_surplus {r : Utf7Register} (room : 6 < r.shift) {digit : Nat} (small : digit < 64) :
    ∃ r', utf7Decoder.feed (.base64 r) [base64C digit] = (.base64 r', []) := by
  have kept : utf7Digit r digit = (.base64 ⟨r.shift - 6, r.base ||| ((digit <<< (r.shift - 6).toNat) &&& 0xFFFF),
      r.high⟩, []) := if_neg (by omega)
  have step : utf7Decoder.step (.base64 r) (base64C digit) = utf7Digit r digit := utf7Step_digit (.inr rfl) small
  exact ⟨_, by rw [Transducer.feed_cons, step, kept]; rfl⟩

theorem Emitted.decoded {items : List Utf7Item} {out : List UInt8} (emitted : Emitted items out)
    (written : ∀ item ∈ items, item.Written) :
    utf7Decoder.run .nostate out = items.flatMap Utf7Item.pushed := by
  induction emitted with
  | nil => rfl
  | direct later ih =>
      rw [List.forall_mem_cons] at written
      rw [Transducer.run_cons, step_direct (utf7OutDirect_valid _ written.1), ih written.2]
      rfl
  | plus later ih =>
      rw [List.forall_mem_cons] at written
      have escape : utf7Decoder.feed .nostate [0x2B, 0x2D] = (.nostate, [.ucs 0x2B]) := rfl
      rw [show ∀ out : List UInt8, 0x2B :: 0x2D :: out = [0x2B, 0x2D] ++ out from fun _ => rfl,
        Transducer.run_append, escape, ih written.2]
      rfl
  | @run group surplus rest out later behind ih =>
      rw [List.forall_mem_cons] at written
      obtain ⟨_, some, encoded⟩ := written.1
      obtain ⟨r, fed, low, _⟩ := feed_run some fun c member => (encoded c member).1
      obtain ⟨r', extra⟩ : ∃ r', utf7Decoder.feed (.base64 r) (surplus.map base64C) = (.base64 r', []) := by
        rw [Surplus] at behind
        split at behind
        · obtain ⟨digit, small, rfl⟩ := behind
          exact feed_surplus (by omega) small
        · exact ⟨r, by rw [behind]; rfl⟩
      have ended : utf7Decoder.step (.base64 r') 0x2D = (.nostate, []) := rfl
      rw [List.map_append, List.append_assoc, ← List.cons_append, Transducer.run_append, fed, Transducer.run_append,
        extra, Transducer.run_cons, ended, ih written.2]
      rfl

end Decoding

def runScanner : Transducer (Option (List UInt8)) UInt8 (List UInt8 × Bool) where
  step := fun state byte =>
    match state with
    | none => (if byte = 0x2B then some [] else none, [])
    | some read => if isBase64 byte then (some (read ++ [byte]), []) else (none, [(read, byte == 0x2D)])
  finish := fun state =>
    match state with
    | none => []
    | some read => [(read, false)]

def utf7Runs (text : List UInt8) : List (List UInt8 × Bool) := runScanner.run none text

/-- A run of the digits that some code units take, zero bits behind them, closed by `-`. -/
def CanonicalRun (run : List UInt8 × Bool) : Prop :=
  run.2 = true ∧ ∃ units : List Nat, (∀ unit ∈ units, unit < 65536) ∧ run.1 = (digits units).map base64C

/-- No run of encoded characters that fills its digits has another character behind it. -/
def NoWholeRunLeft (chars : List Nat) : Prop :=
  (utf7Items chars).IsChain fun item _ => item.isWhole = false

section Runs

theorem scan_digits (ds : List Nat) (small : ∀ digit ∈ ds, digit < 64) (read : List UInt8) :
    runScanner.feed (some read) (ds.map base64C) = (some (read ++ ds.map base64C), []) := by
  induction ds generalizing read with
  | nil => simp
  | cons digit rest ih =>
      rw [List.forall_mem_cons] at small
      have base64 : isBase64 (base64C digit) = true := by
        have all : ∀ digit < 64, isBase64 (base64C digit) = true := by decide
        exact all digit small.1
      have step : runScanner.step (some read) (base64C digit) = (some (read ++ [base64C digit]), []) :=
        if_pos base64
      rw [List.map_cons, Transducer.feed_cons, step, ih small.2]
      simp

theorem Emitted.runs {items : List Utf7Item} {out : List UInt8} (emitted : Emitted items out)
    (written : ∀ item ∈ items, item.Written) :
    (∀ run ∈ utf7Runs out, CanonicalRun run) ↔ items.IsChain fun item _ => item.isWhole = false := by
  induction emitted with
  | nil => simp [utf7Runs, runScanner]
  | @direct byte rest out later ih =>
      rw [List.forall_mem_cons] at written
      have step : runScanner.step none byte = (none, []) := by
        have other := (isDirect_step _ (utf7OutDirect_valid _ written.1)).2
        simp [runScanner, other]
      have same : utf7Runs (byte :: out) = utf7Runs out := by
        rw [utf7Runs, Transducer.run_cons, step]
        rfl
      rw [same, ih written.2]
      cases rest with
      | nil => simp
      | cons next more => simp [Utf7Item.isWhole]
  | @plus rest out later ih =>
      rw [List.forall_mem_cons] at written
      have escape : runScanner.feed none [0x2B, 0x2D] = (none, [([], true)]) := rfl
      have same : utf7Runs (0x2B :: 0x2D :: out) = ([], true) :: utf7Runs out := by
        rw [utf7Runs, show 0x2B :: 0x2D :: out = [0x2B, 0x2D] ++ out from rfl, Transducer.run_append, escape]
        rfl
      have empty : CanonicalRun ([], true) := ⟨rfl, [], by simp, rfl⟩
      rw [same, List.forall_mem_cons, ih written.2]
      cases rest with
      | nil => simp [empty]
      | cons next more => simp [Utf7Item.isWhole, empty]
  | @run group surplus rest out later behind ih =>
      rw [List.forall_mem_cons] at written
      have units := utf16_small fun c member => (written.1.2.2 c member).1
      have fills : ∀ digit < 64, ¬ (3 ∣ (utf16 group).length ∧
          CanonicalRun ((digits (utf16 group) ++ [digit]).map base64C, true)) := by
        rintro digit - ⟨⟨third, count⟩, _, other, _, same⟩
        have length := congrArg List.length same
        simp only [List.length_map, List.length_append, digits_length, List.length_singleton] at length
        omega
      have small := behind.small fun c member => (written.1.2.2 c member).1
      have start : runScanner.step none 0x2B = (some [], []) := rfl
      have stop (read : List UInt8) : runScanner.step (some read) 0x2D = (none, [(read, true)]) := rfl
      have same : utf7Runs (0x2B :: ((digits (utf16 group) ++ surplus).map base64C ++ 0x2D :: out)) =
          ((digits (utf16 group) ++ surplus).map base64C, true) :: utf7Runs out := by
        rw [utf7Runs, Transducer.run_cons, start, Transducer.run_append, scan_digits _ small, Transducer.run_cons, stop]
        rfl
      have canonical : CanonicalRun ((digits (utf16 group)).map base64C, true) := ⟨rfl, _, units, rfl⟩
      rw [same, List.forall_mem_cons, ih written.2]
      cases rest with
      | nil =>
          have none : surplus = [] := by simpa [Surplus] using behind
          simp [none, canonical]
      | cons next more =>
          rw [List.isChain_cons_cons]
          apply and_congr_left
          rintro -
          by_cases whole : 3 ∣ (utf16 group).length
          · obtain ⟨digit, bounded, rfl⟩ : ∃ digit < 64, surplus = [digit] := by simpa [Surplus, whole] using behind
            have extra : ¬ CanonicalRun ((digits (utf16 group) ++ [digit]).map base64C, true) :=
              fun found => fills digit bounded ⟨whole, found⟩
            simp only [extra, Utf7Item.isWhole, whole, decide_true, Bool.true_eq_false]
          · have none : surplus = [] := by simpa [Surplus, whole] using behind
            simp [none, canonical, Utf7Item.isWhole, whole]

theorem text_pushed_source {items : List Utf7Item} (written : ∀ item ∈ items, item.Written)
    (marks : ∀ c ∈ items.flatMap Utf7Item.source, c ≠ ucsBom) :
    (items.flatMap Utf7Item.pushed).map Pushed.char = (items.flatMap Utf7Item.source).map some := by
  induction items with
  | nil => rfl
  | cons item rest ih =>
      rw [List.forall_mem_cons] at written
      rw [List.flatMap_cons, List.forall_mem_append] at marks
      rw [List.flatMap_cons, List.flatMap_cons, List.map_append, List.map_append, ih written.2 marks.2]
      congr 1
      cases item with
      | direct byte => exact utf7Direct_char byte (isDirect_step byte (utf7OutDirect_valid byte written.1)).1
      | plus => rfl
      | run chars closed =>
          have kept : chars.filter (· ≠ ucsBom) = chars := by
            apply List.filter_eq_self.mpr
            simpa [Utf7Item.source] using marks.1
          rw [Utf7Item.pushed, kept, List.map_map]
          rfl

end Runs

/-- What is written is ASCII and is decoded to the text again. Its runs are canonical
just where no run that fills its digits is left for another character. -/
theorem utf7_encodes {w : Wc} {tagMap : List (List UInt8)} {characters : List Wchar} {chars : List Nat}
    (stand : List.Forall₂ (IsUcs w) characters chars)
    (text : ∀ c ∈ chars, IsScalar c ∧ c ≠ ucsBom ∧ ¬ IsTagChar c) :
    (∀ byte ∈ utf7Output w tagMap characters, byte < 0x80) ∧
      wcConvFromUtf7 w tagMap (utf7Output w tagMap characters) = chars.flatMap (ucsUnit w) ∧
      ((∀ run ∈ utf7Runs (utf7Output w tagMap characters), CanonicalRun run) ↔ NoWholeRunLeft chars) := by
  have scalars : ∀ c ∈ chars, IsScalar c := fun c member => (text c member).1
  obtain ⟨whole, written, separated⟩ := utf7Items_spec scalars
  have emitted := run_emitted written separated
  rw [whole, ← utf7Output_chars stand scalars] at emitted
  refine ⟨emitted.ascii written, ?_, emitted.runs written⟩
  apply pushedText_chars _ (utf7Pushed_raw _) (fun c member => (text c member).2.2)
  rw [utf7Pushed_chars, emitted.decoded written, text_pushed_source written, whole]
  rw [whole]
  exact fun c member => (text c member).2.1

/-- A tilde three times, then a letter: the last digit of the run is one too many. -/
theorem utf7_digit_repeated :
    utf7Output Wc.initial [] (([0x7E, 0x7E, 0x7E, 0x41] : List Nat).map fun c => ⟨ccsUsAscii, c⟩) =
        [0x2B, 0x41, 0x48, 0x34, 0x41, 0x66, 0x67, 0x42, 0x2B, 0x67, 0x2D, 0x41] ∧
      ([0x41, 0x48, 0x34, 0x41, 0x66, 0x67, 0x42, 0x2B, 0x67], true) ∈
        utf7Runs [0x2B, 0x41, 0x48, 0x34, 0x41, 0x66, 0x67, 0x42, 0x2B, 0x67, 0x2D, 0x41] ∧
      ¬ CanonicalRun ([0x41, 0x48, 0x34, 0x41, 0x66, 0x67, 0x42, 0x2B, 0x67], true) := by
  refine ⟨by decide, by decide, ?_⟩
  rintro ⟨_, units, _, same⟩
  have length := congrArg List.length same
  simp only [List.length_map, digits_length, List.length_cons, List.length_nil] at length
  omega

/-- A run of one unit before a letter. -/
theorem utf7_encodes_tilde :
    (∀ byte ∈ utf7Output Wc.initial [] [⟨ccsUsAscii, 0x7E⟩, ⟨ccsUsAscii, 0x41⟩], byte < 0x80) ∧
      ∀ run ∈ utf7Runs (utf7Output Wc.initial [] [⟨ccsUsAscii, 0x7E⟩, ⟨ccsUsAscii, 0x41⟩]), CanonicalRun run := by
  have stand : List.Forall₂ (IsUcs Wc.initial) [⟨ccsUsAscii, 0x7E⟩, ⟨ccsUsAscii, 0x41⟩] [0x7E, 0x41] :=
    .cons (.ascii (by decide)) (.cons (.ascii (by decide)) .nil)
  obtain ⟨ascii, _, runs⟩ := utf7_encodes stand
    (by simp [IsScalar, unicodeEnd, ucsSurrogate, ucsBom, IsTagChar, languageTag0])
  refine ⟨ascii, runs.mpr ?_⟩
  show List.IsChain _ [Utf7Item.run [0x7E] true, .direct 0x41]
  exact List.isChain_cons_cons.mpr ⟨rfl, .singleton _⟩

end KcnTools.Libwc
