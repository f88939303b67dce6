import KcnTools.Libwc.Ucs

/-! Characters of the internal text on their way to an encoding of Unicode: the
switch that UTF-8 and UTF-7 share, and the language tags around it. -/

namespace KcnTools.Libwc

/-- What the switch of `wc_push_to_utf8` and `wc_push_to_utf7` comes to. -/
inductive UcsTarget where
  | ascii (code : Nat)
  | ucs (code : Nat)
  | tagged (code : Nat)
  | unknown (wide : Bool)
  deriving DecidableEq

def ucsTarget (w : Wc) (cc : Wchar) : UcsTarget :=
  let set := ccsSet cc.ccs
  if set = ccsUsAscii then .ascii cc.code
  else if set = ccsUcs2 ∨ set = ccsUcs4 then .ucs cc.code
  else if set = ccsUcsTag then .tagged cc.code
  else if set = ccsIso8859_1 then .ucs (cc.code ||| 0x80)
  else if set = ccsUnknownW then .unknown true
  else if set = ccsUnknown then .unknown false
  else
    match w.option.ucsConv, anyToUcs w cc with
    | true, some code => .ucs code
    | _, _ => .unknown (isWide cc.ccs)

def ucsGetTag (tagMap : List (List UInt8)) (ntag : Nat) : Option (List UInt8) :=
  if ntag = 0 then none else tagMap[ntag - 1]?

/-- How an encoding writes ASCII and code points, in its own state. -/
structure UcsWriter (σ : Type) where
  ascii : σ → Nat → σ × List UInt8
  put : σ → Nat → σ × List UInt8

namespace UcsWriter

variable {σ : Type} (writer : UcsWriter σ)

def putter : Transducer σ Nat UInt8 where
  step := writer.put
  finish := fun _ => []

def putTag (tagMap : List (List UInt8)) (ntag : Nat) (state : σ) : (Nat × σ) × List UInt8 :=
  match ucsGetTag tagMap ntag with
  | some name =>
      let (state, out) :=
        writer.putter.feed state (languageTag :: name.map fun byte => languageTag0 ||| byte.toNat)
      ((ntag, state), out)
  | none =>
      let (state, out) := writer.put state cancelTag
      ((0, state), out)

def clearTag (tagMap : List (List UInt8)) (st : Nat × σ) : (Nat × σ) × List UInt8 :=
  if st.1 ≠ 0 then writer.putTag tagMap 0 st.2 else (st, [])

def pushTarget (w : Wc) (tagMap : List (List UInt8)) (st : Nat × σ) : UcsTarget → (Nat × σ) × List UInt8
  | .ascii code =>
      let (st, cleared) := writer.clearTag tagMap st
      let (state, out) := writer.ascii st.2 code
      ((st.1, state), cleared ++ out)
  | .ucs code =>
      let (st, cleared) := writer.clearTag tagMap st
      let (state, out) := writer.put st.2 code
      ((st.1, state), cleared ++ out)
  | .tagged code =>
      let (st, tagged) :=
        if w.option.useLanguageTag && (code >>> 24) != st.1 then writer.putTag tagMap (code >>> 24) st.2
        else (st, [])
      let (state, out) := writer.put st.2 (code &&& 0x1FFFFF)
      ((st.1, state), tagged ++ out)
  | .unknown wide =>
      if w.option.noReplace then (st, [])
      else
        let (st, cleared) := writer.clearTag tagMap st
        let (state, out) := writer.putter.feed st.2 (if wide then [0x3F, 0x3F] else [0x3F])
        ((st.1, state), cleared ++ out)

end UcsWriter

inductive IsUcs (w : Wc) : Wchar → Nat → Prop
  | ascii {c : Nat} (small : c < 0x80) : IsUcs w ⟨ccsUsAscii, c⟩ c
  | ucs2 {ccs c : Nat} (set : ccsSet ccs = ccsUcs2) (small : c ≤ ucs2End) : IsUcs w ⟨ccs, c⟩ c
  | ucs4 {ccs c : Nat} (set : ccsSet ccs = ccsUcs4) : IsUcs w ⟨ccs, c⟩ c
  | c1 {c : Nat} (low : 0x80 ≤ c) (high : c ≤ 0x9F) (conv : w.option.ucsConv = true) : IsUcs w ⟨ccsC1, c⟩ c

theorem or_c1 {c : Nat} (low : 0x80 ≤ c) (high : c ≤ 0x9F) : c ||| 0x80 = c := by
  have all : ∀ d < 0x20, (0x80 + d) ||| 0x80 = 0x80 + d := by decide
  obtain ⟨d, rfl⟩ := Nat.exists_eq_add_of_le low
  exact all d (by omega)

theorem anyToUcs_c1 {w : Wc} {c : Nat} (low : 0x80 ≤ c) (high : c ≤ 0x9F) :
    anyToUcs w ⟨ccsC1, c⟩ = some c := by
  have other : ¬ ccsC1 = ccsUsAscii ∧ ¬ (ccsSet ccsC1 = ccsUcs2 ∨ ccsSet ccsC1 = ccsUcs4) ∧
      ¬ ccsSet ccsC1 = ccsUcsTag := by decide
  rw [anyToUcs, if_neg other.1, if_neg other.2.1, if_neg other.2.2, if_pos rfl, or_c1 low high]

theorem ucsTarget_ucs {w : Wc} {cc : Wchar} {c : Nat} (stands : IsUcs w cc c) :
    ucsTarget w cc = .ucs c ∨ (c < 0x80 ∧ ucsTarget w cc = .ascii c) := by
  have wide : ccsUcs2 ≠ ccsUsAscii ∧ ccsUcs4 ≠ ccsUsAscii := by decide
  cases stands with
  | ascii small =>
      have set : ccsSet ccsUsAscii = ccsUsAscii := by decide
      exact .inr ⟨small, if_pos set⟩
  | ucs2 set small => exact .inl (by rw [ucsTarget, set, if_neg wide.1, if_pos (.inl rfl)])
  | ucs4 set => exact .inl (by rw [ucsTarget, set, if_neg wide.2, if_pos (.inr rfl)])
  | c1 low high conv =>
      have other : ¬ ccsSet ccsC1 = ccsUsAscii ∧ ¬ (ccsSet ccsC1 = ccsUcs2 ∨ ccsSet ccsC1 = ccsUcs4) ∧
          ¬ ccsSet ccsC1 = ccsUcsTag ∧ ¬ ccsSet ccsC1 = ccsIso8859_1 ∧ ¬ ccsSet ccsC1 = ccsUnknownW ∧
          ¬ ccsSet ccsC1 = ccsUnknown := by decide
      left
      rw [ucsTarget, if_neg other.1, if_neg other.2.1, if_neg other.2.2.1, if_neg other.2.2.2.1,
        if_neg other.2.2.2.2.1, if_neg other.2.2.2.2.2, anyToUcs_c1 low high, conv]

end KcnTools.Libwc
