import KcnTools.Lib.Transducer
import KcnTools.Libwc.Wtf

/-! Unicode characters in the internal text (ucs.c): the set a code point is
written in, and the language tags that go with it. -/

namespace KcnTools.Libwc

def ucs2End : Nat := 0xFFFF
def ucsBom : Nat := 0xFEFF
def ucsSurrogate : Nat := 0xD800
def ucsSurrogateLow : Nat := 0xDC00
def ucsSurrogateEnd : Nat := 0xDFFF
def unicodeEnd : Nat := 0x10FFFF
def languageTag0 : Nat := 0xE0000
def languageTag : Nat := 0xE0001
def tagSpace : Nat := 0xE0020
def cancelTag : Nat := 0xE007F

def isUcsAmbiguousWidth (w : Wc) (ucs : Nat) : Bool :=
  if 0xA1 ≤ ucs ∧ ucs ≤ 0xFE ∧ w.option.useJisx0213 then true
  else if ucs ≤ ucs2End then w.tables.ucsAmbwidthMap ucs
  else (0xF0000 ≤ ucs && ucs ≤ 0xFFFFD) || (0x100000 ≤ ucs && ucs ≤ 0x10FFFD)

def isUcsWide (w : Wc) (ucs : Nat) : Bool :=
  if ucs ≤ ucs2End then w.tables.ucsWideMap ucs
  else ucs >>> 16 == 2 || ucs >>> 16 == 3

def isUcsCombining (w : Wc) (ucs : Nat) : Bool :=
  w.option.useCombining && ucs ≤ ucs2End && w.tables.ucsCombiningMap ucs

def ucsToCcs (w : Wc) (ucs : Nat) : Nat :=
  if 0x80 ≤ ucs ∧ ucs ≤ 0x9F then ccsC1
  else (if ucs ≤ ucs2End then ccsUcs2 else ccsUcs4) |||
    (if w.option.eastAsianWidth && isUcsAmbiguousWidth w ucs then ccsWide else 0) |||
    (if isUcsWide w ucs then ccsWide else 0) |||
    (if isUcsCombining w ucs then ccsComb else 0)

def anyToUcs (w : Wc) (cc : Wchar) : Option Nat :=
  if cc.ccs = ccsUsAscii then some cc.code
  else if ccsSet cc.ccs = ccsUcs2 ∨ ccsSet cc.ccs = ccsUcs4 then some cc.code
  else if ccsSet cc.ccs = ccsUcsTag then some (cc.code &&& 0x1FFFFF)
  else if cc.ccs = ccsC1 then some (cc.code ||| 0x80)
  else if ccsType cc.ccs = typeUnknown then none
  else w.tables.tableToUcs cc

/-- The language tags of a conversion: the one being read, the number of the one in
force, and the names that were numbered so far. -/
structure TagStatus where
  tag : Option (List UInt8)
  ntag : Nat
  tagMap : List (List UInt8)

def toLowerAscii (byte : UInt8) : UInt8 := if 0x41 ≤ byte ∧ byte ≤ 0x5A then byte + 0x20 else byte

def sameTag (a b : List UInt8) : Bool := a.map toLowerAscii == b.map toLowerAscii

/-- `wc_ucs_put_tag`: the number of a name, with the names from then on. The last
place of the table stays empty. -/
def ucsPutTag (tagMap : List (List UInt8)) (name : List UInt8) : Nat × List (List UInt8) :=
  let name := name.takeWhile (· != 0)
  if name = [] then (0, tagMap)
  else
    match tagMap.findIdx? (sameTag name) with
    | some i => (i + 1, tagMap)
    | none =>
        if tagMap.length + 1 = 0x100 then (0, tagMap)
        else (tagMap.length + 1, tagMap ++ [name])

def wtfPushUcs (w : Wc) (st : TagStatus) (ucs : Nat) : TagStatus × List UInt8 :=
  if languageTag0 ≤ ucs ∧ ucs ≤ cancelTag then
    if !w.option.useLanguageTag then (st, [])
    else if ucs = languageTag then ({ st with tag := some [] }, [])
    else if ucs = cancelTag then ({ st with tag := none, ntag := 0 }, [])
    else
      match st.tag with
      | some name => (if ucs ≥ tagSpace then { st with tag := some (name ++ [ascii ucs]) } else st, [])
      | none => (st, [])
  else
    let st :=
      match st.tag with
      | some name =>
          let (ntag, tagMap) := ucsPutTag st.tagMap name
          { st with tag := none, ntag := ntag, tagMap := tagMap }
      | none => st
    if ucs < 0x80 then
      (st, if st.ntag ≠ 0 then wtfPush w ⟨ccsUcsTag, ucs ||| st.ntag <<< 24⟩ else [UInt8.ofNat ucs])
    else
      let ccs := ucsToCcs w ucs
      (st, if st.ntag ≠ 0 ∧ ucs ≤ unicodeEnd then
          wtfPush w ⟨ccsUcsTag ||| (ccs &&& 0xFFFF0000), ucs ||| st.ntag <<< 24⟩
        else wtfPush w ⟨ccs, ucs⟩)

/-- What the decoders of Unicode append: code points, bytes as they are, unknown bytes. -/
inductive Pushed where
  | ucs (code : Nat)
  | raw (byte : UInt8)
  | unknown (byte : UInt8)
  deriving DecidableEq

def Pushed.char : Pushed → Option Nat
  | .ucs code => some code
  | .raw byte => some byte.toNat
  | .unknown _ => none

def pushOne (w : Wc) (st : TagStatus) : Pushed → TagStatus × List UInt8
  | .ucs code => wtfPushUcs w st code
  | .raw byte => (st, [byte])
  | .unknown byte => (st, wtfPushUnknown w [byte])

def pushMachine (w : Wc) : Transducer TagStatus Pushed UInt8 where
  step := pushOne w
  finish := fun _ => []

def pushedText (w : Wc) (tagMap : List (List UInt8)) (pushed : List Pushed) : List UInt8 :=
  (pushMachine w).run ⟨none, 0, tagMap⟩ pushed

section WithoutTags

def Pushed.rawAscii : Pushed → Bool
  | .raw byte => byte < 0x80
  | _ => true

def IsTagChar (c : Nat) : Prop := languageTag0 ≤ c ∧ c ≤ cancelTag

def ucsUnit (w : Wc) (c : Nat) : List UInt8 :=
  if c < 0x80 then [UInt8.ofNat c] else wtfPush w ⟨ucsToCcs w c, c⟩

theorem wtfPushUcs_plain {w : Wc} {tagMap : List (List UInt8)} {c : Nat} (plain : ¬ IsTagChar c) :
    wtfPushUcs w ⟨none, 0, tagMap⟩ c = (⟨none, 0, tagMap⟩, ucsUnit w c) := by
  have other : ¬ (languageTag0 ≤ c ∧ c ≤ cancelTag) := plain
  rw [wtfPushUcs, if_neg other, ucsUnit]
  by_cases small : c < 0x80 <;> simp [small]

theorem pushedText_chars {w : Wc} {tagMap : List (List UInt8)} {pushed : List Pushed} {chars : List Nat}
    (same : pushed.map Pushed.char = chars.map some) (raw : ∀ p ∈ pushed, p.rawAscii = true)
    (plain : ∀ c ∈ chars, ¬ IsTagChar c) : pushedText w tagMap pushed = chars.flatMap (ucsUnit w) := by
  induction pushed generalizing chars with
  | nil =>
      obtain rfl : chars = [] := by simpa using same.symm
      rfl
  | cons p rest ih =>
      cases chars with
      | nil => simp at same
      | cons c chars =>
          simp only [List.map_cons, List.cons.injEq] at same
          rw [List.forall_mem_cons] at raw plain
          have step : pushOne w ⟨none, 0, tagMap⟩ p = (⟨none, 0, tagMap⟩, ucsUnit w c) := by
            cases p with
            | ucs code =>
                obtain rfl : code = c := Option.some.inj same.1
                exact wtfPushUcs_plain plain.1
            | raw byte =>
                obtain rfl : byte.toNat = c := Option.some.inj same.1
                have ascii : byte.toNat < 0x80 := of_decide_eq_true raw.1
                simp [pushOne, ucsUnit, ascii]
            | unknown byte => simp [Pushed.char] at same
          have next := ih same.2 raw.2 plain.2
          have machine : (pushMachine w).step ⟨none, 0, tagMap⟩ p = (⟨none, 0, tagMap⟩, ucsUnit w c) := step
          rw [pushedText] at next ⊢
          rw [Transducer.run_cons, machine, next, List.flatMap_cons]

end WithoutTags

end KcnTools.Libwc
