import KcnTools.Libwc.Wtf

/-! Units of the internal text: what `wtf_parse1` takes off the front of a text,
and how far it goes. -/

namespace KcnTools.Libwc

/-- Bytes that are one unit: as many as the lead byte says, and read as `cc` whatever
stands behind them. -/
structure IsUnit (w : Wc) (bytes : List UInt8) (cc : Wchar) : Prop where
  whole : ∃ lead more, bytes = lead :: more ∧ bytes.length = wtfLenMap w lead
  parsed : ∀ rest, wtfParse1 w (bytes ++ rest) = some (cc, rest)

/-- A text that calls of `wtf_parse1` take apart up to its end, each one unit as long
as the lead byte says. -/
inductive Walk (w : Wc) : List UInt8 → List Wchar → Prop
  | done : Walk w [] []
  | call {bytes rest : List UInt8} {cc : Wchar} {later : List Wchar} (unit : IsUnit w bytes cc)
      (onward : Walk w rest later) : Walk w (bytes ++ rest) (cc :: later)

section Bytes

theorem high_toNat (n : Nat) : (high n).toNat = n % 128 + 128 := by
  rw [high, and_low, or_high (Nat.mod_lt _ (by omega)), UInt8.toNat_ofNat']
  omega

theorem high_low {n : Nat} (small : n < 0x80) : (high n).toNat &&& 0x7F = n := by
  rw [high_toNat, and_low]
  omega

theorem high_gr {n : Nat} (graphic : 0x20 < n % 128) : 0xA0 < high n := by
  rw [UInt8.lt_iff_toNat_lt, high_toNat]
  show 0xA0 < _
  omega

theorem ascii_toNat (n : Nat) : (ascii n).toNat = n % 128 := by
  rw [ascii, ofNat_low, and_low]

end Bytes

section Leads

variable (w : Wc)

theorem ascii_unit (byte : UInt8) (small : byte < 0x80) : IsUnit w [byte] ⟨ccsUsAscii, byte.toNat⟩ where
  whole := ⟨byte, [], rfl, by
    have below : ¬ byte > 0xA0 ∧ ¬ byte ≥ 0x80 := by
      simp only [gt_iff_lt, ge_iff_le, UInt8.lt_iff_toNat_lt, UInt8.le_iff_toNat_le] at small ⊢
      have : (0x80 : UInt8).toNat = 0x80 ∧ (0xA0 : UInt8).toNat = 0xA0 := by decide
      omega
    rw [wtfLenMap, if_neg below.1, if_neg below.2]
    rfl⟩
  parsed := fun rest => by
    simp only [List.singleton_append, wtfParse1, if_pos small]
    rfl

def Tagged (lead : UInt8) (attributes length : Nat) : Prop :=
  ¬ lead < 0x80 ∧ ¬ lead > 0xA0 ∧ ccsMap.getD (lead.toNat - 0x80) 0 = attributes ∧
    wtfLenTable.getD (lead.toNat - 0x80) 1 = length

instance (lead : UInt8) (attributes length : Nat) : Decidable (Tagged lead attributes length) :=
  inferInstanceAs (Decidable (_ ∧ _ ∧ _ ∧ _))

theorem tagged_unit {lead : UInt8} {attributes length : Nat} (tagged : Tagged lead attributes length)
    {more : List UInt8} {cc : Wchar} (count : more.length + 1 = length)
    (parsed : ∀ rest, parseTagged attributes (more ++ rest) = some (cc, rest)) :
    IsUnit w (lead :: more) (pcswWhole cc) where
  whole := ⟨lead, more, rfl, by
    obtain ⟨low, high, _, table⟩ := tagged
    rw [wtfLenMap, if_neg high, if_pos (UInt8.not_lt.mp low), table, List.length_cons, count]⟩
  parsed := fun rest => by
    obtain ⟨low, high, map, _⟩ := tagged
    simp only [List.cons_append, wtfParse1, if_neg low, if_neg high, map, parsed]
    rfl

theorem single_unit {lead : UInt8} {attributes index : Nat} (tagged : Tagged lead attributes 3)
    (type : ccsType attributes ∈ [typeCs94, typeCs96, typeCs942, typePcs, typeUnknown]) (small : index < 0x80)
    (code : Nat) :
    IsUnit w [lead, high index, high code] (pcswWhole ⟨attributes ||| index, (high code).toNat⟩) := by
  apply tagged_unit w tagged rfl
  intro rest
  simp only [List.mem_cons, List.not_mem_nil, or_false] at type
  simp only [parseTagged, List.cons_append, List.nil_append, if_pos type, high_low small]

theorem double_unit {lead : UInt8} {attributes index : Nat} (tagged : Tagged lead attributes 4)
    (type : ccsType attributes ∈ [typeCs94w, typeCs96w, typePcsw]) (small : index < 0x80) (code : Nat) :
    IsUnit w (lead :: high index :: highPair code)
      (pcswWhole ⟨attributes ||| index, pair (high (code >>> 8)) (high code)⟩) := by
  apply tagged_unit w tagged rfl
  intro rest
  simp only [List.mem_cons, List.not_mem_nil, or_false] at type
  have other : ¬ (ccsType attributes = typeCs94 ∨ ccsType attributes = typeCs96 ∨ ccsType attributes = typeCs942 ∨
      ccsType attributes = typePcs ∨ ccsType attributes = typeUnknown) := by
    rcases type with type | type | type <;> rw [type] <;> decide
  simp only [parseTagged, highPair, List.cons_append, List.nil_append, if_neg other, if_pos type, high_low small]

theorem wcs16_lead : ∀ index < 32, ∀ bits < 4,
    ((UInt8.ofNat (bits ||| 0x80 ||| index <<< 2)).toNat &&& 0x7C) >>> 2 = index ∧
      (UInt8.ofNat (bits ||| 0x80 ||| index <<< 2)).toNat &&& 0x03 = bits := by
  decide +kernel

theorem wcs32_lead : ∀ index < 8, ∀ bits < 16,
    ((UInt8.ofNat (bits ||| 0x80 ||| index <<< 4)).toNat &&& 0x70) >>> 4 = index ∧
      (UInt8.ofNat (bits ||| 0x80 ||| index <<< 4)).toNat &&& 0x0F = bits := by
  decide +kernel

theorem high_bits (n : Nat) : (high n).toNat &&& 0x7F = n % 128 := by
  rw [high_toNat, and_low]
  omega

theorem join_bits (n k : Nat) : n / 2 ^ (k + 7) * 2 ^ (k + 7) ||| n / 2 ^ k % 128 * 2 ^ k = n / 2 ^ k * 2 ^ k := by
  have small : n / 2 ^ k % 128 * 2 ^ k < 2 ^ (k + 7) := by
    rw [Nat.pow_add, Nat.mul_comm]
    exact Nat.mul_lt_mul_of_pos_left (Nat.mod_lt _ (by omega)) (Nat.two_pow_pos k)
  have split := Nat.div_add_mod (n / 2 ^ k) 128
  rw [or_add (k + 7) ⟨_, Nat.mul_comm _ _⟩ small, Nat.pow_add, ← Nat.div_div_eq_div_mul, ← Nat.mul_assoc,
    Nat.mul_right_comm, ← Nat.add_mul, Nat.mul_comm _ (2 ^ 7), show (2 : Nat) ^ 7 = 128 from rfl, split]

theorem wcs16_unit {lead : UInt8} {attributes index code : Nat} (tagged : Tagged lead attributes 4)
    (type : ccsType attributes = typeWcs16) (small : index < 32) (fits : code < 2 ^ 16) :
    IsUnit w (lead :: wcs16ToWtf index code) (pcswWhole ⟨attributes ||| index, code⟩) := by
  apply tagged_unit w tagged rfl
  intro rest
  have bits : (code >>> 14) &&& 0x03 = code / 2 ^ 14 := by
    rw [Nat.and_two_pow_sub_one_eq_mod _ 2, Nat.shiftRight_eq_div_pow]
    omega
  obtain ⟨set, part⟩ := wcs16_lead index small (code / 2 ^ 14) (by omega)
  have joined : wtfToWcs16 (UInt8.ofNat (code / 2 ^ 14 ||| 0x80 ||| index <<< 2)) (high (code >>> 7)) (high code) =
      code := by
    rw [wtfToWcs16, part, high_bits, high_bits, Nat.shiftLeft_eq, Nat.shiftLeft_eq, Nat.shiftRight_eq_div_pow,
      join_bits code 7]
    simpa using join_bits code 0
  have other : ¬ (ccsType attributes = typeCs94 ∨ ccsType attributes = typeCs96 ∨ ccsType attributes = typeCs942 ∨
      ccsType attributes = typePcs ∨ ccsType attributes = typeUnknown) ∧
      ¬ (ccsType attributes = typeCs94w ∨ ccsType attributes = typeCs96w ∨ ccsType attributes = typePcsw) := by
    rw [type]
    decide
  simp only [parseTagged, wcs16ToWtf, List.cons_append, List.nil_append, if_neg other.1, if_neg other.2, if_pos type,
    bits, set, joined]

theorem wcs32_unit {lead : UInt8} {attributes index code : Nat} (tagged : Tagged lead attributes 6)
    (type : ccsType attributes = typeWcs32) (small : index < 8) (fits : code < 2 ^ 32) :
    IsUnit w (lead :: wcs32ToWtf index code) (pcswWhole ⟨attributes ||| index, code⟩) := by
  apply tagged_unit w tagged rfl
  intro rest
  have bits : (code >>> 28) &&& 0x0F = code / 2 ^ 28 := by
    rw [Nat.and_two_pow_sub_one_eq_mod _ 4, Nat.shiftRight_eq_div_pow]
    omega
  obtain ⟨set, part⟩ := wcs32_lead index small (code / 2 ^ 28) (by omega)
  have joined : wtfToWcs32 (UInt8.ofNat (code / 2 ^ 28 ||| 0x80 ||| index <<< 4)) (high (code >>> 21))
      (high (code >>> 14)) (high (code >>> 7)) (high code) = code := by
    rw [wtfToWcs32, part, high_bits, high_bits, high_bits, high_bits]
    simp only [Nat.shiftLeft_eq, Nat.shiftRight_eq_div_pow]
    rw [join_bits code 21, join_bits code 14, join_bits code 7]
    simpa using join_bits code 0
  have other : ¬ (ccsType attributes = typeCs94 ∨ ccsType attributes = typeCs96 ∨ ccsType attributes = typeCs942 ∨
      ccsType attributes = typePcs ∨ ccsType attributes = typeUnknown) ∧
      ¬ (ccsType attributes = typeCs94w ∨ ccsType attributes = typeCs96w ∨ ccsType attributes = typePcsw) ∧
      ¬ ccsType attributes = typeWcs16 := by
    rw [type]
    decide
  simp only [parseTagged, wcs32ToWtf, List.cons_append, List.nil_append, if_neg other.1, if_neg other.2.1,
    if_neg other.2.2, if_pos type, bits, set, joined]

theorem gr_unit {code : Nat} (narrow : isWide w.grCcs = false) (graphic : 0x20 < code % 128) :
    IsUnit w [high code] (pcswWhole ⟨w.grCcs, (high code).toNat⟩) where
  whole := ⟨high code, [], rfl, by
    have gr := high_gr graphic
    simp [wtfLenMap, narrow, gr]⟩
  parsed := fun rest => by
    have gr := high_gr graphic
    have above : ¬ high code < 0x80 := by
      rw [UInt8.lt_iff_toNat_lt, high_toNat]
      show ¬ _ < 0x80
      omega
    simp only [List.singleton_append, wtfParse1, if_neg above, gt_iff_lt, if_pos gr, narrow]
    rfl

theorem gr_wide_unit {code : Nat} (wide : isWide w.grCcs = true) (graphic : 0x20 < code / 256 % 128) :
    IsUnit w (highPair code) (pcswWhole ⟨w.grCcs, pair (high (code >>> 8)) (high code)⟩) where
  whole := ⟨high (code >>> 8), [high code], rfl, by
    have gr := high_gr (shift_byte code ▸ graphic)
    simp [wtfLenMap, wide, gr, highPair]⟩
  parsed := fun rest => by
    have gr := high_gr (shift_byte code ▸ graphic)
    have above : ¬ high (code >>> 8) < 0x80 := by
      rw [UInt8.lt_iff_toNat_lt, high_toNat]
      show ¬ _ < 0x80
      omega
    simp only [highPair, List.cons_append, List.nil_append, wtfParse1, if_neg above, gt_iff_lt, if_pos gr, wide]
    rfl

end Leads

end KcnTools.Libwc
