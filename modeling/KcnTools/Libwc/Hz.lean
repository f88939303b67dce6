import KcnTools.Lib.Transducer
import KcnTools.Libwc.Wtf

/-! HZ (hz.c): GB 2312 in seven bits, with `~` as the escape between ASCII text
and sections of two byte characters. -/

namespace KcnTools.Libwc

/-- The states of the decoder. Those that look back carry the byte before this one. -/
inductive HzState where
  | nostate
  | tilda (prev : UInt8)
  | tildaMb (prev : UInt8)
  | mbyte
  | mbyte1 (prev : UInt8)
  | mbyte1Gr (prev : UInt8)
  deriving DecidableEq

def hzTilda : UInt8 := 0x7E
def hzSi : UInt8 := 0x7B
def hzSo : UInt8 := 0x7D
def newline : UInt8 := 0x0A

def hzStep (w : Wc) (state : HzState) (byte : UInt8) : HzState × List UInt8 :=
  match state with
  | .nostate =>
      if byte = hzTilda then (.tilda byte, [])
      else if isoMap byte.toNat = .gr then (.mbyte1Gr byte, [])
      else if byte ≥ 0x80 then (.nostate, wtfPushUnknown w [byte])
      else (.nostate, [byte])
  | .tilda prev =>
      if byte = hzSi then (.mbyte, [])
      else if byte = hzTilda then (.nostate, [byte])
      -- the `break` of this branch leaves the state as it is
      else if byte = newline then (.tilda byte, [])
      else (.nostate, wtfPushUnknown w [prev, byte])
  | .tildaMb prev =>
      if byte = hzSo ∨ byte = newline then (.nostate, [])
      else if isoMap (byte.toNat &&& 0x7F) = .gl then
        (.mbyte, wtfPush w ⟨ccsGb2312, pair prev byte⟩)
      else (.mbyte, wtfPushUnknown w [prev, byte])
  | .mbyte =>
      if byte = hzTilda then (.tildaMb byte, [])
      else if isoMap (byte.toNat &&& 0x7F) = .gl then (.mbyte1 byte, [])
      else (.mbyte, wtfPushUnknown w [byte])
  | .mbyte1 prev =>
      if isoMap (byte.toNat &&& 0x7F) = .gl then
        (.mbyte, wtfPush w ⟨ccsGb2312, pair prev byte⟩)
      else (.mbyte, wtfPushUnknown w [prev, byte])
  | .mbyte1Gr prev =>
      if isoMap byte.toNat = .gr then
        (.nostate, wtfPush w ⟨ccsGb2312, pair prev byte⟩)
      else (.nostate, wtfPushUnknown w [prev, byte])

def hzFinish (w : Wc) : HzState → List UInt8
  | .nostate | .mbyte => []
  | .tilda prev | .tildaMb prev | .mbyte1 prev | .mbyte1Gr prev => wtfPushUnknown w [prev]

def hzDecoder (w : Wc) : Transducer HzState UInt8 UInt8 where
  step := hzStep w
  finish := hzFinish w

def hzDirect (byte : UInt8) : Bool := byte < 0x80 && byte != hzTilda

def wcConvFromHz (w : Wc) (is : List UInt8) : List UInt8 :=
  (hzDecoder w).runBehind hzDirect .nostate is

/-- The part of `wc_status` that the encoder of HZ keeps: whether it is in a section. -/
abbrev HzGl := Bool

def hzLeave : HzGl → List UInt8
  | true => [hzTilda, hzSo]
  | false => []

def replaceW : List UInt8 := [0x3F, 0x3F]
def replace : List UInt8 := [0x3F]

def hzReturns (w : Wc) (gl : HzGl) (cc : Wchar) : Option (HzGl × List UInt8) :=
  if cc.ccs = ccsUsAscii then
    some (false, hzLeave gl ++ ((if UInt8.ofNat cc.code = hzTilda then [hzTilda] else []) ++
      [UInt8.ofNat cc.code]))
  else if cc.ccs = ccsGb2312 then
    some (true, (if gl then [] else [hzTilda, hzSi]) ++
      [UInt8.ofNat ((cc.code >>> 8) &&& 0x7F), UInt8.ofNat (cc.code &&& 0x7F)])
  else if cc.ccs = ccsUnknownW then
    some (if w.option.noReplace then (gl, []) else (false, hzLeave gl ++ replaceW))
  else if cc.ccs = ccsUnknown then
    some (if w.option.noReplace then (gl, []) else (false, hzLeave gl ++ replace))
  else none

/-- The default case: what is converted is in a set of the encoding, or unknown.
`convert` is `wc_any_to_any_ces`. -/
def hzConverted (w : Wc) (convert : Wchar → Wchar) (cc : Wchar) : Wchar :=
  if w.option.ucsConv then convert cc
  else ⟨if isWide cc.ccs then ccsUnknownW else ccsUnknown, cc.code⟩

def wcPushToHz (w : Wc) (convert : Wchar → Wchar) (gl : HzGl) (cc : Wchar) : HzGl × List UInt8 :=
  match hzReturns w gl cc with
  | some pushed => pushed
  | none => (hzReturns w gl (hzConverted w convert cc)).getD (gl, [])

def hzEncoder (w : Wc) (convert : Wchar → Wchar) : Transducer HzGl Wchar UInt8 where
  step := wcPushToHz w convert
  finish := hzLeave

end KcnTools.Libwc

/-! What HZ text denotes, and what the decoder makes of it: right up to the first
line continuation, behind which it stays in the state of the escape byte. -/

namespace KcnTools.Libwc

/-- A two byte character of a section. The lead byte is never the escape byte. -/
structure GbPair where
  lead : UInt8
  trail : UInt8
  lead_range : 0x21 ≤ lead.toNat ∧ lead.toNat ≤ 0x7D
  trail_range : 0x21 ≤ trail.toNat ∧ trail.toNat ≤ 0x7E

def GbPair.bytes (p : GbPair) : List UInt8 := [p.lead, p.trail]
def GbPair.char (p : GbPair) : Wchar := ⟨ccsGb2312, pair p.lead p.trail⟩

inductive HzItem where
  | direct (byte : UInt8) (plain : byte.toNat < 0x80 ∧ byte ≠ hzTilda)
  | tilda
  | continuation
  | inside (pairs : List GbPair)

def HzItem.bytes : HzItem → List UInt8
  | .direct byte _ => [byte]
  | .tilda => [hzTilda, hzTilda]
  | .continuation => [hzTilda, newline]
  | .inside pairs => [hzTilda, hzSi] ++ (pairs.flatMap GbPair.bytes ++ [hzTilda, hzSo])

def HzItem.text (w : Wc) : HzItem → List UInt8
  | .direct byte _ => [byte]
  | .tilda => [hzTilda]
  | .continuation => []
  | .inside pairs => pairs.flatMap fun p => wtfPush w p.char

def hzBytes (items : List HzItem) : List UInt8 := items.flatMap HzItem.bytes
def hzText (w : Wc) (items : List HzItem) : List UInt8 := items.flatMap (HzItem.text w)

theorem isoMap_low {byte : UInt8} (low : 0x21 ≤ byte.toNat ∧ byte.toNat ≤ 0x7E) :
    isoMap (byte.toNat &&& 0x7F) = .gl := by
  rw [isoMap_gl, and_low, Nat.mod_eq_of_lt (by omega)]
  exact low

theorem ne_tilda {byte : UInt8} (low : byte.toNat ≤ 0x7D) : byte ≠ hzTilda := by
  rintro rfl
  exact absurd low (by decide)

theorem hzStep_direct (w : Wc) {byte : UInt8} (plain : byte.toNat < 0x80 ∧ byte ≠ hzTilda) :
    hzStep w .nostate byte = (.nostate, [byte]) := by
  have below : ¬ byte ≥ 0x80 := by
    rw [ge_iff_le, UInt8.le_iff_toNat_le]
    exact Nat.not_le.mpr plain.1
  have left : isoMap byte.toNat ≠ .gr := by
    rw [Ne, isoMap_gr]
    omega
  simp only [hzStep, if_neg plain.2, if_neg left, if_neg below]

theorem feed_pair (w : Wc) (p : GbPair) :
    (hzDecoder w).feed .mbyte p.bytes = (.mbyte, wtfPush w p.char) := by
  have lead := isoMap_low ⟨p.lead_range.1, by have := p.lead_range.2; omega⟩
  have trail := isoMap_low p.trail_range
  simp only [GbPair.bytes, Transducer.feed_cons, hzDecoder, hzStep, if_neg (ne_tilda p.lead_range.2),
    if_pos lead, if_pos trail, Transducer.feed_nil, List.append_nil, List.nil_append, GbPair.char]

theorem feed_enter (w : Wc) : (hzDecoder w).feed .nostate [hzTilda, hzSi] = (.mbyte, []) := by
  simp [Transducer.feed_cons, hzDecoder, hzStep]

theorem feed_leave (w : Wc) : (hzDecoder w).feed .mbyte [hzTilda, hzSo] = (.nostate, []) := by
  simp [Transducer.feed_cons, hzDecoder, hzStep]

theorem feed_tilda (w : Wc) : (hzDecoder w).feed .nostate [hzTilda, hzTilda] = (.nostate, [hzTilda]) := by
  have other : hzTilda ≠ hzSi := by decide
  simp [Transducer.feed_cons, hzDecoder, hzStep, other]

theorem feed_item (w : Wc) {item : HzItem} (stays : item ≠ .continuation) :
    (hzDecoder w).feed .nostate item.bytes = (.nostate, item.text w) := by
  cases item with
  | direct byte plain =>
      simp only [HzItem.bytes, HzItem.text, Transducer.feed_cons, Transducer.feed_nil, hzDecoder,
        hzStep_direct w plain, List.append_nil]
  | tilda => exact feed_tilda w
  | continuation => exact absurd rfl stays
  | inside pairs =>
      have fed := (hzDecoder w).feed_pieces GbPair.bytes (fun p => wtfPush w p.char) pairs
        fun p _ => feed_pair w p
      rw [HzItem.bytes, Transducer.feed_append, feed_enter, Transducer.feed_append, fed, feed_leave]
      simp [HzItem.text]

theorem wcConvFromHz_eq (w : Wc) (is : List UInt8) : wcConvFromHz w is = (hzDecoder w).run .nostate is := by
  apply Transducer.runBehind_eq
  · rintro byte direct
    simp only [hzDirect, Bool.and_eq_true, decide_eq_true_eq, bne_iff_ne] at direct
    exact hzStep_direct w ⟨UInt8.lt_iff_toNat_lt.mp direct.1, direct.2⟩
  · rfl

theorem wcConvFromHz_text (w : Wc) {items : List HzItem} (none : HzItem.continuation ∉ items) :
    wcConvFromHz w (hzBytes items) = hzText w items := by
  have fed := (hzDecoder w).feed_pieces HzItem.bytes (HzItem.text w) items
    fun item member => feed_item w (fun same => none (same ▸ member))
  rw [wcConvFromHz_eq, hzBytes, Transducer.run, fed]
  simp [hzDecoder, hzFinish, hzText]

/-- At its end a continuation is taken for half an escape, and its newline is kept. -/
theorem wcConvFromHz_continuation (w : Wc) {items : List HzItem} (none : HzItem.continuation ∉ items) :
    wcConvFromHz w (hzBytes (items ++ [.continuation])) = hzText w items ++ [newline] := by
  have fed := (hzDecoder w).feed_pieces HzItem.bytes (HzItem.text w) items
    fun item member => feed_item w (fun same => none (same ▸ member))
  have other : newline ≠ hzSi ∧ newline ≠ hzTilda ∧ newline < 0x80 := by decide
  rw [wcConvFromHz_eq, hzBytes, List.flatMap_append, Transducer.run_append, fed]
  simp [HzItem.bytes, hzText, Transducer.run_cons, hzDecoder, hzStep, hzFinish, wtfPushUnknown, other]

theorem hz_decodes_iff (w : Wc) (items : List HzItem) :
    (∀ beginning, beginning <+: items → wcConvFromHz w (hzBytes beginning) = hzText w beginning) ↔
      HzItem.continuation ∉ items := by
  constructor
  · intro right continued
    obtain ⟨before, after, split, first⟩ := List.eq_append_cons_of_mem continued
    have wrong := right (before ++ [.continuation]) ⟨after, by simp [split]⟩
    rw [wcConvFromHz_continuation w first] at wrong
    simp [hzText, HzItem.text] at wrong
  · rintro none beginning ⟨after, rfl⟩
    exact wcConvFromHz_text w fun member => none (List.mem_append_left _ member)

/-! The way back. -/

def IsHzChar (cc : Wchar) : Prop :=
  cc.ccs = ccsUsAscii ∧ (0x20 ≤ cc.code ∧ cc.code ≤ 0x7E ∨ cc.code = 0x0A) ∨
    cc.ccs = ccsGb2312 ∧ (0x21 ≤ (cc.code >>> 8) &&& 0x7F ∧ (cc.code >>> 8) &&& 0x7F ≤ 0x7D) ∧
      0x21 ≤ cc.code &&& 0x7F ∧ cc.code &&& 0x7F ≤ 0x7E

def hzCharText (w : Wc) (cc : Wchar) : List UInt8 := wtfPush w ⟨cc.ccs, lowCode cc.code⟩

def gbPair (cc : Wchar) (rows : 0x21 ≤ (cc.code >>> 8) &&& 0x7F ∧ (cc.code >>> 8) &&& 0x7F ≤ 0x7D)
    (cells : 0x21 ≤ cc.code &&& 0x7F ∧ cc.code &&& 0x7F ≤ 0x7E) : GbPair where
  lead := UInt8.ofNat ((cc.code >>> 8) &&& 0x7F)
  trail := UInt8.ofNat (cc.code &&& 0x7F)
  lead_range := by rwa [ofNat_low]
  trail_range := by rwa [ofNat_low]

def hzMode : HzGl → HzState
  | true => .mbyte
  | false => .nostate

theorem feed_hzLeave (w : Wc) (gl : HzGl) : (hzDecoder w).feed (hzMode gl) (hzLeave gl) = (.nostate, []) := by
  cases gl with
  | true => exact feed_leave w
  | false => rfl

theorem feed_ascii (w : Wc) {byte : UInt8} (low : byte.toNat < 0x80) :
    (hzDecoder w).feed .nostate ((if byte = hzTilda then [hzTilda] else []) ++ [byte]) = (.nostate, [byte]) := by
  split
  next escape =>
    rw [escape]
    exact feed_tilda w
  next plain =>
    have stays : HzItem.direct byte ⟨low, plain⟩ ≠ .continuation := by simp
    exact feed_item w stays

theorem wcPushToHz_ascii (w : Wc) (convert : Wchar → Wchar) (gl : HzGl) {cc : Wchar}
    (set : cc.ccs = ccsUsAscii) : (hzEncoder w convert).step gl cc =
      (false, hzLeave gl ++ ((if UInt8.ofNat cc.code = hzTilda then [hzTilda] else []) ++
        [UInt8.ofNat cc.code])) := by
  simp only [hzEncoder, wcPushToHz, hzReturns, if_pos set]

theorem wcPushToHz_gb2312 (w : Wc) (convert : Wchar → Wchar) (gl : HzGl) {cc : Wchar}
    (set : cc.ccs = ccsGb2312) : (hzEncoder w convert).step gl cc =
      (true, (if gl then [] else [hzTilda, hzSi]) ++
        [UInt8.ofNat ((cc.code >>> 8) &&& 0x7F), UInt8.ofNat (cc.code &&& 0x7F)]) := by
  have other : cc.ccs ≠ ccsUsAscii := by
    rw [set]
    decide
  simp only [hzEncoder, wcPushToHz, hzReturns, if_neg other, if_pos set]

theorem hz_inverts (w : Wc) (convert : Wchar → Wchar) :
    Transducer.Inverts (hzDecoder w) (hzEncoder w convert) (hzCharText w)
      (fun gl owed state => owed = [] ∧ state = hzMode gl) IsHzChar where
  step := by
    rintro gl _ _ cc ⟨rfl, rfl⟩ (⟨set, range⟩ | ⟨set, rows, cells⟩)
    · have low : (UInt8.ofNat cc.code).toNat < 0x80 := by
        rw [UInt8.toNat_ofNat']
        omega
      have code : lowCode cc.code % 128 = cc.code := by
        rw [lowCode_eq]
        omega
      have same : hzCharText w cc = [UInt8.ofNat cc.code] := by
        rw [hzCharText, set, wtfPush, if_pos rfl, ascii, and_low, code]
      refine ⟨.nostate, [UInt8.ofNat cc.code], [], ?_, by simp [same], rfl, ?_⟩
      · rw [wcPushToHz_ascii w convert gl set, Transducer.feed_append, feed_hzLeave,
          feed_ascii w low]
        rfl
      · rw [wcPushToHz_ascii w convert gl set]
        rfl
    · have entered : (hzDecoder w).feed (hzMode gl) (if gl then [] else [hzTilda, hzSi]) = (.mbyte, []) := by
        cases gl with
        | true => rfl
        | false => exact feed_enter w
      have fed := feed_pair w (gbPair cc rows cells)
      have same : wtfPush w (gbPair cc rows cells).char = hzCharText w cc := by
        rw [hzCharText, set, ← pair_low]
        rfl
      refine ⟨.mbyte, hzCharText w cc, [], ?_, by simp, rfl, ?_⟩
      · rw [wcPushToHz_gb2312 w convert gl set, Transducer.feed_append, entered, ← same]
        exact fed
      · rw [wcPushToHz_gb2312 w convert gl set]
        rfl
  finish := by
    rintro gl _ _ ⟨rfl, rfl⟩
    rw [Transducer.run, hzEncoder, feed_hzLeave]
    rfl

theorem hz_roundTrip (w : Wc) (convert : Wchar → Wchar) {chars : List Wchar} (all : ∀ cc ∈ chars, IsHzChar cc) :
    wcConvFromHz w ((hzEncoder w convert).run false chars) = chars.flatMap (hzCharText w) := by
  have decoded := (hz_inverts w convert).run (e := false) ⟨rfl, rfl⟩ all
  rw [wcConvFromHz_eq]
  exact decoded

/-- HZ text decodes to what it denotes up to its first line continuation, and what is
encoded decodes to the characters it was encoded from. -/
theorem hz_faithful_iff (w : Wc) (convert : Wchar → Wchar) (items : List HzItem) (chars : List Wchar)
    (all : ∀ cc ∈ chars, IsHzChar cc) :
    ((∀ beginning, beginning <+: items → wcConvFromHz w (hzBytes beginning) = hzText w beginning) ↔
      HzItem.continuation ∉ items) ∧
    wcConvFromHz w ((hzEncoder w convert).run false chars) = chars.flatMap (hzCharText w) :=
  ⟨hz_decodes_iff w items, hz_roundTrip w convert all⟩

theorem hz_faithful_iff_letter :
    ((∀ beginning, beginning <+: [HzItem.direct 97 (by simp [hzTilda]), .tilda] →
        wcConvFromHz .initial (hzBytes beginning) = hzText .initial beginning) ↔
      HzItem.continuation ∉ [HzItem.direct 97 (by simp [hzTilda]), .tilda]) ∧
    wcConvFromHz .initial ((hzEncoder .initial id).run false [⟨ccsUsAscii, 97⟩, ⟨ccsGb2312, 0x3021⟩]) =
      [⟨ccsUsAscii, 97⟩, ⟨ccsGb2312, 0x3021⟩].flatMap (hzCharText .initial) :=
  hz_faithful_iff .initial id _ _ (by
    rintro cc member
    simp only [List.mem_cons, List.not_mem_nil, or_false] at member
    rcases member with rfl | rfl
    · exact .inl ⟨rfl, by decide⟩
    · exact .inr ⟨rfl, by decide⟩)

/-- `a~` newline `b`: the newline of the continuation is kept. -/
theorem hz_continuation_kept :
    wcConvFromHz .initial
        (hzBytes [.direct 97 (by simp [hzTilda]), .continuation, .direct 98 (by simp [hzTilda])]) = [97, 10, 98] ∧
      hzText .initial
        [.direct 97 (by simp [hzTilda]), .continuation, .direct 98 (by simp [hzTilda])] = [97, 98] :=
  ⟨by decide, rfl⟩

end KcnTools.Libwc
