import KcnTools.Libwc.RenumberInverse

/-! What `wtf_push` writes is one unit, which `wtf_parse1` reads as the character
that was pushed. -/

namespace KcnTools.Libwc

def wholeSets : List Nat := [ccsSjisExt, ccsGbk, ccsGbkExt, ccsBig5, ccsHkscs, ccsJohab, ccsUhc]

def planeSets : List Nat :=
  [ccsSjisExt_1, ccsSjisExt_2, ccsGbk_1, ccsGbk_2, ccsGbkExt_1, ccsGbkExt_2, ccsBig5_1, ccsBig5_2, ccsHkscs_1,
    ccsHkscs_2, ccsJohab_1, ccsJohab_2, ccsJohab_3, ccsUhc_1, ccsUhc_2]

section Sets

theorem pcswWhole_other {cc : Wchar} (other : cc.ccs ∉ planeSets) : pcswWhole cc = cc := by
  simp only [planeSets, List.mem_cons, List.not_mem_nil, or_false, not_or] at other
  simp only [pcswWhole, other, or_self, if_false]

theorem pcswPlanes_other {cc : Wchar} (other : cc.ccs ∉ wholeSets) : pcswPlanes cc = cc := by
  simp only [wholeSets, List.mem_cons, List.not_mem_nil, or_false, not_or] at other
  simp only [pcswPlanes, other, if_false]

theorem toPlanes_mem {number place : Nat → Nat} {split first second : Nat} {sets : List Nat} (one : first ∈ sets)
    (two : second ∈ sets) (cc : Wchar) : (toPlanes number place split first second cc).ccs ∈ sets := by
  simp only [toPlanes]
  split
  · exact one
  · exact two

theorem pcswPlanes_mem {ccs code : Nat} (whole : ccs ∈ wholeSets) : (pcswPlanes ⟨ccs, code⟩).ccs ∈ planeSets := by
  simp only [wholeSets, List.mem_cons, List.not_mem_nil, or_false] at whole
  rcases whole with rfl | rfl | rfl | rfl | rfl | rfl | rfl
  · show (sjisExtToCs94w _).ccs ∈ planeSets
    simp only [sjisExtToCs94w]
    split
    · show ccsSjisExt_1 ∈ planeSets
      decide
    · show ccsSjisExt_2 ∈ planeSets
      decide
  · exact toPlanes_mem (by decide) (by decide) _
  · exact toPlanes_mem (by decide) (by decide) _
  · exact toPlanes_mem (by decide) (by decide) _
  · exact toPlanes_mem (by decide) (by decide) _
  · show (johabToCs128w _).ccs ∈ planeSets
    simp only [johabToCs128w]
    split
    · split
      · show ccsJohab_1 ∈ planeSets
        decide
      · show ccsJohab_2 ∈ planeSets
        decide
    · show ccsJohab_3 ∈ planeSets
      decide
  · exact toPlanes_mem (by decide) (by decide) _

theorem pcswPlanes_set {ccs code : Nat} (whole : ccs ∈ wholeSets) :
    ∃ index < 0x80, (pcswPlanes ⟨ccs, code⟩).ccs = setPcsw index := by
  have known : ∀ ccs ∈ planeSets, ccsIndex ccs < 0x80 ∧ ccs = setPcsw (ccsIndex ccs) := by decide
  exact ⟨_, known _ (pcswPlanes_mem whole)⟩

theorem mem_of_sets {sets sets' : List Nat} (all : ∀ ccs ∈ sets, ccs ∈ sets') {ccs : Nat} (listed : ccs ∈ sets) :
    ccs ∈ sets' := all ccs listed

/-- The parts of a set that is named by its type and a final byte or an index. -/
theorem set_parts : ∀ attributes ∈ [typeCs94, typeCs96, typeCs942, typePcs, typeUnknown, typeCs94w, typeCs96w,
    typePcsw],
    ∀ index < 0x80, ccsType (attributes ||| index) = attributes ∧ ccsIndex (attributes ||| index) = index ∧
      isWide (attributes ||| index) = decide (attributes ∈ [typeCs94w, typeCs96w, typePcsw]) ∧
      attributes ≠ typeWcs16 ∧ attributes ≠ typeWcs32 ∧
      (attributes ≠ typePcsw → attributes ||| index ∉ planeSets ∧ attributes ||| ccsComb ||| index ∉ planeSets ∧
        attributes ||| index ∉ wholeSets) := by
  refine List.forall_mem_cons.mpr ⟨by decide +kernel, List.forall_mem_cons.mpr ⟨by decide +kernel, ?_⟩⟩
  refine List.forall_mem_cons.mpr ⟨by decide +kernel, List.forall_mem_cons.mpr ⟨by decide +kernel, ?_⟩⟩
  refine List.forall_mem_cons.mpr ⟨by decide +kernel, List.forall_mem_cons.mpr ⟨by decide +kernel, ?_⟩⟩
  exact List.forall_mem_cons.mpr ⟨by decide +kernel, List.forall_mem_singleton.mpr (by decide +kernel)⟩

end Sets

def wideFlags : List Nat := [0, ccsWide, ccsComb, ccsWide ||| ccsComb]

/-- The characters that decoders push, with codes in the range of their sets. -/
inductive Pushable : Wchar → Prop
  | ascii {code : Nat} (small : code < 0x80) : Pushable ⟨ccsUsAscii, code⟩
  | cs94 {final code : Nat} (set : final < 0x80) (other : final ≠ 0x42) (katakana : final ≠ 0x49)
      (graphic : 0x20 < code % 128) (byte : code < 0x100) : Pushable ⟨typeCs94 ||| final, code⟩
  | cs942 {final code : Nat} (set : final < 0x80) (graphic : 0x20 < code % 128) (byte : code < 0x100) :
      Pushable ⟨typeCs942 ||| final, code⟩
  | cs96 {final code : Nat} (set : final < 0x80) (byte : code < 0x100) : Pushable ⟨typeCs96 ||| final, code⟩
  | pcs {index code : Nat} (set : index ≤ 0x28) (byte : code < 0x100) : Pushable ⟨setPcs index, code⟩
  | cs94w {final code : Nat} (set : final < 0x80) (graphic : 0x20 < code / 256 % 128) (bytes : code < 0x10000) :
      Pushable ⟨setCs94w final, code⟩
  | cs96w {final code : Nat} (set : final < 0x80) (bytes : code < 0x10000) : Pushable ⟨typeCs96w ||| final, code⟩
  | cns {index code : Nat} (set : 0x04 ≤ index ∧ index ≤ 0x0D) (bytes : code < 0x10000) :
      Pushable ⟨setPcsw index, code⟩
  | renumbered {ccs lead trail : Nat} (inside : Renumbered ccs lead trail) : Pushable ⟨ccs, lead * 0x100 + trail⟩
  | ucs2 {flags code : Nat} (variant : flags ∈ wideFlags) (fits : code < 2 ^ 16) : Pushable ⟨ccsUcs2 ||| flags, code⟩
  | wcs32 {index flags code : Nat} (set : index < 3) (variant : flags ∈ wideFlags) (fits : code < 2 ^ 32) :
      Pushable ⟨typeWcs32 ||| index ||| flags, code⟩
  | unknown {code : Nat} (byte : code < 0x100) : Pushable ⟨ccsUnknown, code⟩
  | c1 {code : Nat} (byte : code < 0x100) : Pushable ⟨ccsC1, code⟩

/-- A code without the high bits that `wtf_push` sets: those of the sets that are
stored by their bytes. -/
def codeBits (ccs code : Nat) : Nat :=
  if ccsType ccs = typeWcs16 ∨ ccsType ccs = typeWcs32 ∨ ccs = ccsUsAscii ∨ ccs ∈ wholeSets then code
  else lowCode code

/-- The character that comes back: of the same set, which may be its combining variant. -/
structure SameChar (cc cc' : Wchar) : Prop where
  set : cc'.ccs = cc.ccs ∨ cc'.ccs = cc.ccs ||| ccsComb
  code : codeBits cc.ccs cc'.code = codeBits cc.ccs cc.code

def RoundTrip (w : Wc) (cc : Wchar) : Prop := ∃ cc', IsUnit w (wtfPush w cc) cc' ∧ SameChar cc cc'

section Push

variable {w : Wc}

theorem or_comb (a b : Nat) : a ||| ccsComb ||| b = a ||| b ||| ccsComb := by
  rw [Nat.or_assoc, Nat.or_comm ccsComb, Nat.or_assoc]

/-- Without pre-conversion a character goes straight to the switch over the types. -/
theorem wtfPush_unit (off : w.option.preConv = false) {cc : Wchar} (other : cc.ccs ≠ ccsUsAscii) :
    wtfPush w cc = writeUnit w (pushPlain w) cc := by
  rw [wtfPush, if_neg other, preConverted, off]
  rfl

/-- Sets that are stored by their bytes give the code back but for the high bits. -/
theorem bytes_same {attributes index : Nat}
    (type : attributes ∈ [typeCs94, typeCs96, typeCs942, typePcs, typeUnknown, typeCs94w, typeCs96w])
    (small : index < 0x80) (other : attributes ||| index ≠ ccsUsAscii) {code read : Nat}
    (low : lowCode read = lowCode code) : codeBits (attributes ||| index) read = codeBits (attributes ||| index)
      code := by
  have listed : attributes ∈ [typeCs94, typeCs96, typeCs942, typePcs, typeUnknown, typeCs94w, typeCs96w, typePcsw] :=
    mem_of_sets (by decide) type
  have notPcsw : attributes ≠ typePcsw := by
    rintro rfl
    revert type
    decide
  obtain ⟨same, _, _, wcs16, wcs32, sets⟩ := set_parts attributes listed index small
  have stored : ¬ (ccsType (attributes ||| index) = typeWcs16 ∨ ccsType (attributes ||| index) = typeWcs32 ∨
      attributes ||| index = ccsUsAscii ∨ attributes ||| index ∈ wholeSets) := by
    rw [same]
    simp [wcs16, wcs32, other, (sets notPcsw).2.2]
  rw [codeBits, codeBits, if_neg stored, if_neg stored, low]

theorem low_single {code : Nat} (byte : code < 0x100) : lowCode (high code).toNat = lowCode code := by
  rw [lowCode_eq, lowCode_eq, high_toNat]
  omega

theorem low_stored (code : Nat) : lowCode (stored code) = lowCode code := by
  rw [lowCode, stored_high, stored_low, lowCode]

theorem single_roundTrip {attributes index code : Nat}
    (type : attributes ∈ [typeCs94, typeCs96, typeCs942, typePcs, typeUnknown]) (small : index < 0x80)
    (other : attributes ||| index ≠ ccsUsAscii) (byte : code < 0x100)
    (written : (∃ lead, Tagged lead attributes 3 ∧
        wtfPush w ⟨attributes ||| index, code⟩ = [lead, high index, high code]) ∨
      (∃ lead, Tagged lead (attributes ||| ccsComb) 3 ∧
        wtfPush w ⟨attributes ||| index, code⟩ = [lead, high index, high code]) ∨
      (attributes ||| index = w.grCcs ∧ 0x20 < code % 128 ∧ wtfPush w ⟨attributes ||| index, code⟩ = [high code])) :
    RoundTrip w ⟨attributes ||| index, code⟩ := by
  have listed : attributes ∈ [typeCs94, typeCs96, typeCs942, typePcs, typeUnknown, typeCs94w, typeCs96w, typePcsw] :=
    mem_of_sets (by decide) type
  have plain : attributes ∈ [typeCs94, typeCs96, typeCs942, typePcs, typeUnknown, typeCs94w, typeCs96w] :=
    mem_of_sets (by decide) type
  have notPcsw : attributes ≠ typePcsw := by
    rintro rfl
    revert type
    decide
  have kind : ∀ a ∈ [typeCs94, typeCs96, typeCs942, typePcs, typeUnknown],
      ccsType a ∈ [typeCs94, typeCs96, typeCs942, typePcs, typeUnknown] ∧
      ccsType (a ||| ccsComb) ∈ [typeCs94, typeCs96, typeCs942, typePcs, typeUnknown] := by decide
  obtain ⟨same, _, wide, _, _, sets⟩ := set_parts attributes listed index small
  have code' := bytes_same plain small other (low_single byte)
  rcases written with ⟨lead, tagged, bytes⟩ | ⟨lead, tagged, bytes⟩ | ⟨gr, graphic, bytes⟩
  · have unit := single_unit w tagged (kind _ type).1 small code
    rw [pcswWhole_other (sets notPcsw).1, ← bytes] at unit
    exact ⟨⟨attributes ||| index, (high code).toNat⟩, unit, .inl rfl, code'⟩
  · have unit := single_unit w tagged (kind _ type).2 small code
    rw [pcswWhole_other (sets notPcsw).2.1, ← bytes] at unit
    exact ⟨⟨attributes ||| ccsComb ||| index, (high code).toNat⟩, unit, .inr (or_comb _ _), code'⟩
  · have narrow : isWide w.grCcs = false := by
      rw [← gr, wide]
      have none : ∀ a ∈ [typeCs94, typeCs96, typeCs942, typePcs, typeUnknown],
          decide (a ∈ [typeCs94w, typeCs96w, typePcsw]) = false := by decide
      exact none _ type
    have unit := gr_unit w narrow graphic
    rw [← gr, pcswWhole_other (sets notPcsw).1, ← bytes] at unit
    exact ⟨⟨attributes ||| index, (high code).toNat⟩, unit, .inl rfl, code'⟩

theorem stored_gr {attributes index code : Nat} (type : attributes ∈ [typeCs94w, typeCs96w, typePcsw])
    (small : index < 0x80) (gr : attributes ||| index = w.grCcs) (graphic : 0x20 < code / 256 % 128) :
    IsUnit w (highPair code) (pcswWhole ⟨attributes ||| index, stored code⟩) := by
  have listed : attributes ∈ [typeCs94, typeCs96, typeCs942, typePcs, typeUnknown, typeCs94w, typeCs96w, typePcsw] :=
    mem_of_sets (by decide) type
  have wide : isWide w.grCcs = true := by
    rw [← gr, (set_parts attributes listed index small).2.2.1]
    exact decide_eq_true type
  have unit := gr_wide_unit w wide graphic
  rw [← gr] at unit
  exact unit

theorem stored_tagged {lead : UInt8} {attributes index : Nat} (tagged : Tagged lead attributes 4)
    (type : attributes ∈ [typeCs94w, typeCs96w, typePcsw]) (small : index < 0x80) (code : Nat) :
    IsUnit w (lead :: high index :: highPair code) (pcswWhole ⟨attributes ||| index, stored code⟩) := by
  have kind : ∀ a ∈ [typeCs94w, typeCs96w, typePcsw], ccsType a ∈ [typeCs94w, typeCs96w, typePcsw] := by decide
  exact double_unit w tagged (kind _ type) small code

theorem double_roundTrip {attributes index code : Nat} (type : attributes ∈ [typeCs94w, typeCs96w])
    (small : index < 0x80)
    (written : (∃ lead, Tagged lead attributes 4 ∧
        wtfPush w ⟨attributes ||| index, code⟩ = lead :: high index :: highPair code) ∨
      (attributes ||| index = w.grCcs ∧ 0x20 < code / 256 % 128 ∧
        wtfPush w ⟨attributes ||| index, code⟩ = highPair code)) :
    RoundTrip w ⟨attributes ||| index, code⟩ := by
  have type' : attributes ∈ [typeCs94w, typeCs96w, typePcsw] :=
    mem_of_sets (by decide) type
  have plain : attributes ∈ [typeCs94, typeCs96, typeCs942, typePcs, typeUnknown, typeCs94w, typeCs96w] :=
    mem_of_sets (by decide) type
  have listed : attributes ∈ [typeCs94, typeCs96, typeCs942, typePcs, typeUnknown, typeCs94w, typeCs96w, typePcsw] :=
    mem_of_sets (by decide) type
  have notPcsw : attributes ≠ typePcsw := by
    rintro rfl
    revert type
    decide
  obtain ⟨same, _, _, _, _, sets⟩ := set_parts attributes listed index small
  have other : attributes ||| index ≠ ccsUsAscii := by
    intro equal
    rw [equal] at same
    rw [← same] at type
    revert type
    decide
  have code' := bytes_same plain small other (low_stored code)
  have unit : IsUnit w (wtfPush w ⟨attributes ||| index, code⟩) (pcswWhole ⟨attributes ||| index, stored code⟩) := by
    rcases written with ⟨lead, tagged, bytes⟩ | ⟨gr, graphic, bytes⟩
    · rw [bytes]
      exact stored_tagged tagged type' small code
    · rw [bytes]
      exact stored_gr type' small gr graphic
  rw [pcswWhole_other (sets notPcsw).1] at unit
  exact ⟨⟨attributes ||| index, stored code⟩, unit, .inl rfl, code'⟩

theorem pcsw_unit (off : w.option.preConv = false) {ccs code index : Nat} (type : ccsType ccs = typePcsw)
    (small : index < 0x80) (planes : (pcswPlanes ⟨ccs, code⟩).ccs = setPcsw index) :
    IsUnit w (wtfPush w ⟨ccs, code⟩)
      (pcswWhole ⟨(pcswPlanes ⟨ccs, code⟩).ccs, stored (pcswPlanes ⟨ccs, code⟩).code⟩) := by
  have other : ccs ≠ ccsUsAscii := by
    rintro rfl
    revert type
    decide
  have written : wtfPush w ⟨ccs, code⟩ =
      if (pcswPlanes ⟨ccs, code⟩).ccs = w.grCcs ∧ ((pcswPlanes ⟨ccs, code⟩).code >>> 8) &&& 0x7F > 0x20 then
        highPair (pcswPlanes ⟨ccs, code⟩).code
      else 0x87 :: high (ccsIndex (pcswPlanes ⟨ccs, code⟩).ccs) :: highPair (pcswPlanes ⟨ccs, code⟩).code := by
    have distinct : typePcsw ≠ typeCs94 ∧ typePcsw ≠ typeCs94w ∧ typePcsw ≠ typeCs96 ∧ typePcsw ≠ typeCs96w ∧
        typePcsw ≠ typeCs942 ∧ typePcsw ≠ typePcs := by decide
    rw [wtfPush_unit off other, writeUnit]
    simp only [type, distinct, if_false, if_true]
  have index' : ccsIndex (setPcsw index) = index := (set_parts typePcsw (by simp) index small).2.1
  rw [written, planes]
  split
  · rename_i gr
    rw [shift_byte, and_low] at gr
    exact stored_gr (by simp) small gr.1 gr.2
  · rw [index']
    exact stored_tagged (by decide) (by simp) small _

theorem not_ascii {a index : Nat}
    (listed : a ∈ [typeCs94, typeCs96, typeCs942, typePcs, typeUnknown, typeCs94w, typeCs96w, typePcsw])
    (small : index < 0x80) (other : a ≠ typeCs94 ∨ index ≠ 0x42) : a ||| index ≠ ccsUsAscii := by
  intro equal
  obtain ⟨type, set, _⟩ := set_parts a listed index small
  rw [equal] at type set
  have ascii : ccsType ccsUsAscii = typeCs94 ∧ ccsIndex ccsUsAscii = 0x42 := by decide
  rcases other with other | other
  · exact other (type.symm.trans ascii.1)
  · exact other (set.symm.trans ascii.2)

theorem cs94_roundTrip (off : w.option.preConv = false) {final code : Nat} (set : final < 0x80) (other : final ≠ 0x42)
    (katakana : final ≠ 0x49) (graphic : 0x20 < code % 128) (byte : code < 0x100) :
    RoundTrip w ⟨typeCs94 ||| final, code⟩ := by
  have ascii := not_ascii (a := typeCs94) (by simp) set (.inr other)
  obtain ⟨type, index, _⟩ := set_parts typeCs94 (by simp) final set
  have kana : typeCs94 ||| final ≠ ccsJisX0201K := by
    intro equal
    rw [equal] at index
    exact katakana index.symm
  apply single_roundTrip (by simp) set ascii byte
  rw [wtfPush_unit off ascii, writeUnit]
  simp only [type, index, if_true, kana, false_and, if_false]
  by_cases gr : typeCs94 ||| final = w.grCcs
  · exact .inr (.inr ⟨gr, graphic, if_pos gr⟩)
  · exact .inl ⟨0x80, by decide, if_neg gr⟩

theorem cs942_roundTrip (off : w.option.preConv = false) {final code : Nat} (set : final < 0x80)
    (graphic : 0x20 < code % 128) (byte : code < 0x100) : RoundTrip w ⟨typeCs942 ||| final, code⟩ := by
  have ascii := not_ascii (a := typeCs942) (by simp) set (.inl (by decide))
  obtain ⟨type, index, _⟩ := set_parts typeCs942 (by simp) final set
  have distinct : typeCs942 ≠ typeCs94 ∧ typeCs942 ≠ typeCs94w ∧ typeCs942 ≠ typeCs96 ∧ typeCs942 ≠ typeCs96w := by
    decide
  apply single_roundTrip (by simp) set ascii byte
  rw [wtfPush_unit off ascii, writeUnit]
  simp only [type, index, distinct, if_true, if_false]
  by_cases gr : typeCs942 ||| final = w.grCcs
  · exact .inr (.inr ⟨gr, graphic, if_pos gr⟩)
  · exact .inl ⟨0x84, by decide, if_neg gr⟩

theorem cs96_roundTrip (off : w.option.preConv = false) {final code : Nat} (set : final < 0x80)
    (byte : code < 0x100) : RoundTrip w ⟨typeCs96 ||| final, code⟩ := by
  have ascii := not_ascii (a := typeCs96) (by simp) set (.inl (by decide))
  obtain ⟨type, index, _⟩ := set_parts typeCs96 (by simp) final set
  have distinct : typeCs96 ≠ typeCs94 ∧ typeCs96 ≠ typeCs94w := by decide
  apply single_roundTrip (by simp) set ascii byte
  rw [wtfPush_unit off ascii, writeUnit]
  simp only [type, index, distinct, if_true, if_false, and_low]
  split
  · exact .inr (.inl ⟨0x92, by decide, rfl⟩)
  · split
    · rename_i gr
      exact .inr (.inr ⟨gr.1, gr.2, rfl⟩)
    · exact .inl ⟨0x82, by decide, rfl⟩

theorem pcs_roundTrip (off : w.option.preConv = false) {index code : Nat} (small : index < 0x80)
    (byte : code < 0x100) : RoundTrip w ⟨setPcs index, code⟩ := by
  have ascii := not_ascii (a := typePcs) (by simp) small (.inl (by decide))
  obtain ⟨type, set, _⟩ := set_parts typePcs (by simp) index small
  have distinct : typePcs ≠ typeCs94 ∧ typePcs ≠ typeCs94w ∧ typePcs ≠ typeCs96 ∧ typePcs ≠ typeCs96w ∧
      typePcs ≠ typeCs942 := by decide
  apply single_roundTrip (by simp) small ascii byte
  rw [wtfPush_unit off ascii, writeUnit]
  simp only [type, set, distinct, if_true, if_false, and_low]
  split
  · exact .inr (.inl ⟨0x96, by decide, rfl⟩)
  · split
    · rename_i gr
      exact .inr (.inr ⟨gr.1, gr.2, rfl⟩)
    · exact .inl ⟨0x86, by decide, rfl⟩

theorem unknown_roundTrip (off : w.option.preConv = false) (index : Nat) {code : Nat} (small : index < 0x80)
    (byte : code < 0x100) : RoundTrip w ⟨typeUnknown ||| index, code⟩ := by
  have ascii := not_ascii (a := typeUnknown) (by simp) small (.inl (by decide))
  obtain ⟨type, set, _⟩ := set_parts typeUnknown (by simp) index small
  have distinct : typeUnknown ≠ typeCs94 ∧ typeUnknown ≠ typeCs94w ∧ typeUnknown ≠ typeCs96 ∧
      typeUnknown ≠ typeCs96w ∧ typeUnknown ≠ typeCs942 ∧ typeUnknown ≠ typePcs ∧ typeUnknown ≠ typePcsw ∧
      typeUnknown ≠ typeWcs16 ∧ typeUnknown ≠ typeWcs32 := by decide
  apply single_roundTrip (by simp) small ascii byte
  rw [wtfPush_unit off ascii, writeUnit]
  simp only [type, set, distinct, if_false]
  exact .inl ⟨0x85, by decide, rfl⟩

theorem cs94w_roundTrip (off : w.option.preConv = false) {final code : Nat} (set : final < 0x80)
    (graphic : 0x20 < code / 256 % 128) : RoundTrip w ⟨setCs94w final, code⟩ := by
  have ascii := not_ascii (a := typeCs94w) (by simp) set (.inl (by decide))
  obtain ⟨type, index, _⟩ := set_parts typeCs94w (by simp) final set
  have distinct : typeCs94w ≠ typeCs94 := by decide
  apply double_roundTrip (by simp) set
  rw [wtfPush_unit off ascii, writeUnit]
  simp only [type, index, distinct, if_true, if_false]
  by_cases gr : typeCs94w ||| final = w.grCcs
  · exact .inr ⟨gr, graphic, if_pos gr⟩
  · exact .inl ⟨0x81, by decide, if_neg gr⟩

theorem cs96w_roundTrip (off : w.option.preConv = false) {final code : Nat} (set : final < 0x80) :
    RoundTrip w ⟨typeCs96w ||| final, code⟩ := by
  have ascii := not_ascii (a := typeCs96w) (by simp) set (.inl (by decide))
  obtain ⟨type, index, _⟩ := set_parts typeCs96w (by simp) final set
  have distinct : typeCs96w ≠ typeCs94 ∧ typeCs96w ≠ typeCs94w ∧ typeCs96w ≠ typeCs96 := by decide
  apply double_roundTrip (by simp) set
  rw [wtfPush_unit off ascii, writeUnit]
  simp only [type, index, distinct, if_true, if_false, shift_byte, and_low]
  split
  · rename_i gr
    exact .inr ⟨gr.1, gr.2, rfl⟩
  · exact .inl ⟨0x83, by decide, rfl⟩

theorem cns_roundTrip (off : w.option.preConv = false) {index : Nat} (code : Nat) (set : 0x04 ≤ index ∧ index ≤ 0x0D) :
    RoundTrip w ⟨setPcsw index, code⟩ := by
  have all : ∀ i < 0x0E, 0x04 ≤ i → setPcsw i ∉ wholeSets ∧ setPcsw i ∉ planeSets ∧ setPcsw i ≠ ccsUsAscii := by decide
  obtain ⟨whole, plane, ascii⟩ := all index (by omega) set.1
  have small : index < 0x80 := by omega
  have type : ccsType (setPcsw index) = typePcsw := (set_parts typePcsw (by simp) index small).1
  have same : pcswPlanes ⟨setPcsw index, code⟩ = ⟨setPcsw index, code⟩ := pcswPlanes_other whole
  have unit := pcsw_unit off type small (congrArg Wchar.ccs same)
  rw [same, pcswWhole_other plane] at unit
  refine ⟨⟨setPcsw index, stored code⟩, unit, .inl rfl, ?_⟩
  have distinct : typePcsw ≠ typeWcs16 ∧ typePcsw ≠ typeWcs32 := by decide
  simp only [codeBits, type, distinct, ascii, whole, or_self, if_false, low_stored]

theorem renumbered_roundTrip (off : w.option.preConv = false) {ccs lead trail : Nat}
    (inside : Renumbered ccs lead trail) : RoundTrip w ⟨ccs, lead * 0x100 + trail⟩ := by
  have whole : ccs ∈ wholeSets := by cases inside <;> decide
  have types : ∀ ccs ∈ wholeSets, ccsType ccs = typePcsw := by decide
  have set : ∃ index < 0x80, (pcswPlanes ⟨ccs, lead * 0x100 + trail⟩).ccs = setPcsw index := pcswPlanes_set whole
  obtain ⟨index, small, planes⟩ := set
  have unit := pcsw_unit off (types ccs whole) small planes
  rw [renumbered_readBack inside] at unit
  exact ⟨⟨ccs, lead * 0x100 + trail⟩, unit, .inl rfl, rfl⟩

def wideLead (lead ccs : Nat) : UInt8 :=
  UInt8.ofNat ((if isWide ccs then lead + 1 else lead) ||| (if isComb ccs then 0x10 else 0))

def wideAttributes (lead ccs : Nat) : Nat := ccsMap.getD ((wideLead lead ccs).toNat - 0x80) 0

theorem wcs16_roundTrip (off : w.option.preConv = false) {ccs code : Nat} (type : ccsType ccs = typeWcs16)
    (other : ccs ≠ ccsUsAscii ∧ ccs ∉ planeSets) (small : ccsIndex ccs < 32)
    (tagged : Tagged (wideLead 0x88 ccs) (wideAttributes 0x88 ccs) 4)
    (type' : ccsType (wideAttributes 0x88 ccs) = typeWcs16) (same : wideAttributes 0x88 ccs ||| ccsIndex ccs = ccs)
    (fits : code < 2 ^ 16) : RoundTrip w ⟨ccs, code⟩ := by
  have distinct : typeWcs16 ≠ typeCs94 ∧ typeWcs16 ≠ typeCs94w ∧ typeWcs16 ≠ typeCs96 ∧ typeWcs16 ≠ typeCs96w ∧
      typeWcs16 ≠ typeCs942 ∧ typeWcs16 ≠ typePcs ∧ typeWcs16 ≠ typePcsw := by decide
  have written : writeUnit w (pushPlain w) ⟨ccs, code⟩ = wideLead 0x88 ccs :: wcs16ToWtf (ccsIndex ccs) code := by
    simp only [writeUnit, type, distinct, if_false, if_true]
    rfl
  have unit := wcs16_unit w tagged type' small fits
  rw [same, pcswWhole_other other.2, ← written, ← wtfPush_unit off other.1] at unit
  exact ⟨⟨ccs, code⟩, unit, .inl rfl, rfl⟩

theorem wcs32_roundTrip (off : w.option.preConv = false) {ccs code : Nat} (type : ccsType ccs = typeWcs32)
    (other : ccs ≠ ccsUsAscii ∧ ccs ∉ planeSets) (small : ccsIndex ccs < 8)
    (tagged : Tagged (wideLead 0x8A ccs) (wideAttributes 0x8A ccs) 6)
    (type' : ccsType (wideAttributes 0x8A ccs) = typeWcs32) (same : wideAttributes 0x8A ccs ||| ccsIndex ccs = ccs)
    (fits : code < 2 ^ 32) : RoundTrip w ⟨ccs, code⟩ := by
  have distinct : typeWcs32 ≠ typeCs94 ∧ typeWcs32 ≠ typeCs94w ∧ typeWcs32 ≠ typeCs96 ∧ typeWcs32 ≠ typeCs96w ∧
      typeWcs32 ≠ typeCs942 ∧ typeWcs32 ≠ typePcs ∧ typeWcs32 ≠ typePcsw ∧ typeWcs32 ≠ typeWcs16 := by decide
  have written : writeUnit w (pushPlain w) ⟨ccs, code⟩ = wideLead 0x8A ccs :: wcs32ToWtf (ccsIndex ccs) code := by
    simp only [writeUnit, type, distinct, if_false, if_true]
    rfl
  have unit := wcs32_unit w tagged type' small fits
  rw [same, pcswWhole_other other.2, ← written, ← wtfPush_unit off other.1] at unit
  exact ⟨⟨ccs, code⟩, unit, .inl rfl, rfl⟩

theorem ucs2_roundTrip (off : w.option.preConv = false) {flags code : Nat} (variant : flags ∈ wideFlags)
    (fits : code < 2 ^ 16) : RoundTrip w ⟨ccsUcs2 ||| flags, code⟩ := by
  have all : ∀ flags ∈ wideFlags, ccsType (ccsUcs2 ||| flags) = typeWcs16 ∧
      (ccsUcs2 ||| flags ≠ ccsUsAscii ∧ ccsUcs2 ||| flags ∉ planeSets) ∧ ccsIndex (ccsUcs2 ||| flags) < 32 ∧
      Tagged (wideLead 0x88 (ccsUcs2 ||| flags)) (wideAttributes 0x88 (ccsUcs2 ||| flags)) 4 ∧
      ccsType (wideAttributes 0x88 (ccsUcs2 ||| flags)) = typeWcs16 ∧
      wideAttributes 0x88 (ccsUcs2 ||| flags) ||| ccsIndex (ccsUcs2 ||| flags) = ccsUcs2 ||| flags := by decide
  obtain ⟨type, other, small, tagged, type', same⟩ := all flags variant
  exact wcs16_roundTrip off type other small tagged type' same fits

theorem ucs4_roundTrip (off : w.option.preConv = false) {index flags code : Nat} (set : index < 3)
    (variant : flags ∈ wideFlags) (fits : code < 2 ^ 32) : RoundTrip w ⟨typeWcs32 ||| index ||| flags, code⟩ := by
  have all : ∀ index < 3, ∀ flags ∈ wideFlags, ccsType (typeWcs32 ||| index ||| flags) = typeWcs32 ∧
      (typeWcs32 ||| index ||| flags ≠ ccsUsAscii ∧ typeWcs32 ||| index ||| flags ∉ planeSets) ∧
      ccsIndex (typeWcs32 ||| index ||| flags) < 8 ∧
      Tagged (wideLead 0x8A (typeWcs32 ||| index ||| flags)) (wideAttributes 0x8A (typeWcs32 ||| index ||| flags)) 6 ∧
      ccsType (wideAttributes 0x8A (typeWcs32 ||| index ||| flags)) = typeWcs32 ∧
      wideAttributes 0x8A (typeWcs32 ||| index ||| flags) ||| ccsIndex (typeWcs32 ||| index ||| flags) =
        typeWcs32 ||| index ||| flags := by decide
  obtain ⟨type, other, small, tagged, type', same⟩ := all index set flags variant
  exact wcs32_roundTrip off type other small tagged type' same fits

/-- Every character that a decoder pushes is one unit that is read back as it. -/
theorem push_roundTrip (off : w.option.preConv = false) {cc : Wchar} (pushable : Pushable cc) : RoundTrip w cc := by
  cases pushable with
  | @ascii code small =>
      have byte : (ascii code).toNat = code := by
        rw [ascii_toNat]
        omega
      have unit := ascii_unit w (ascii code) (by
        rw [UInt8.lt_iff_toNat_lt, byte]
        exact small)
      rw [byte] at unit
      exact ⟨⟨ccsUsAscii, code⟩, unit, .inl rfl, rfl⟩
  | cs94 set other katakana graphic byte => exact cs94_roundTrip off set other katakana graphic byte
  | cs942 set graphic byte => exact cs942_roundTrip off set graphic byte
  | cs96 set byte => exact cs96_roundTrip off set byte
  | pcs set byte => exact pcs_roundTrip off (by omega) byte
  | cs94w set graphic bytes => exact cs94w_roundTrip off set graphic
  | cs96w set bytes => exact cs96w_roundTrip off set
  | cns set bytes => exact cns_roundTrip off _ set
  | renumbered inside => exact renumbered_roundTrip off inside
  | ucs2 variant fits => exact ucs2_roundTrip off variant fits
  | wcs32 set variant fits => exact ucs4_roundTrip off set variant fits
  | unknown byte => exact unknown_roundTrip off 0 (by omega) byte
  | c1 byte => exact unknown_roundTrip off 1 (by omega) byte

end Push

/-- Characters pushed one after another are read back one by one, whatever set is in GR:
every call takes as much as its lead byte says, and the last one ends with the text. -/
theorem wtf_roundTrip {w : Wc} (off : w.option.preConv = false) {characters : List Wchar}
    (pushable : ∀ cc ∈ characters, Pushable cc) :
    ∃ read, Walk w (characters.flatMap (wtfPush w)) read ∧ List.Forall₂ SameChar characters read := by
  induction characters with
  | nil => exact ⟨[], .done, .nil⟩
  | cons cc rest ih =>
      rw [List.forall_mem_cons] at pushable
      obtain ⟨cc', unit, same⟩ := push_roundTrip off pushable.1
      obtain ⟨read, walk, later⟩ := ih pushable.2
      exact ⟨cc' :: read, .call unit walk, .cons same later⟩

/-- A Johab syllable and a Latin letter with Johab's first plane in GR. -/
theorem wtf_roundTrip_johab :
    ∃ read, Walk { Wc.initial with grCcs := ccsJohab_1 }
        (([⟨ccsJohab, 0x88 * 0x100 + 0x61⟩, ⟨ccsUsAscii, 0x41⟩] : List Wchar).flatMap
          (wtfPush { Wc.initial with grCcs := ccsJohab_1 })) read ∧
      List.Forall₂ SameChar [⟨ccsJohab, 0x88 * 0x100 + 0x61⟩, ⟨ccsUsAscii, 0x41⟩] read := by
  apply wtf_roundTrip rfl
  rw [List.forall_mem_cons, List.forall_mem_singleton]
  exact ⟨.renumbered (.johab (.inl (by decide))), .ascii (by decide)⟩

end KcnTools.Libwc
