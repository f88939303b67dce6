import KcnTools.Libwc.WtfUnits

/-! The renumberings of the private multibyte sets are undone when a unit is read. -/

namespace KcnTools.Libwc

def stored (code : Nat) : Nat := pair (high (code >>> 8)) (high code)

theorem stored_eq (code : Nat) : stored code = (code / 256 % 128 + 128) * 256 + (code % 128 + 128) := by
  rw [stored, pair_eq, high_toNat, high_toNat, shift_byte]

theorem stored_high (code : Nat) : (stored code >>> 8) &&& 0x7F = (code >>> 8) &&& 0x7F := by
  rw [stored_eq, shift_byte, shift_byte, and_low, and_low]
  omega

theorem stored_low (code : Nat) : stored code &&& 0x7F = code &&& 0x7F := by
  rw [stored_eq, and_low, and_low]
  omega

section Planes

theorem cs128wN_stored (code : Nat) : cs128wN (stored code) = cs128wN code := by
  rw [cs128wN, stored_high, stored_low, cs128wN]

theorem cs94wN_stored (code : Nat) : cs94wN (stored code) = cs94wN code := by
  rw [cs94wN, stored_high, stored_low, cs94wN]

theorem cs94x128N_stored (code : Nat) : cs94x128N (stored code) = cs94x128N code := by
  rw [cs94x128N, stored_high, stored_low, cs94x128N]

theorem cs128wN_place {n : Nat} (fits : n < 0x4000) : cs128wN (nCs128w n) = n := by
  rw [cs128wN, nCs128w, shift_byte, and_low, and_low, Nat.shiftLeft_eq]
  omega

theorem cs94wN_place {n : Nat} (fits : n < 0x5E * 0x5E) : cs94wN (nCs94w n) = n := by
  have row : ((n / 0x5E + 0x21) * 2 ^ 8 + (n % 0x5E + 0x21)) / 256 % 128 = n / 0x5E + 0x21 := by omega
  have column : ((n / 0x5E + 0x21) * 2 ^ 8 + (n % 0x5E + 0x21)) % 128 = n % 0x5E + 0x21 := by omega
  rw [cs94wN, nCs94w, shift_byte, and_low, and_low, Nat.shiftLeft_eq, row, column, u32]
  omega

theorem cs94x128N_place {n : Nat} (fits : n < 0x5E * 0x80) : cs94x128N (nCs94x128 n) = n := by
  rw [cs94x128N, nCs94x128, shift_byte, and_low, and_low, Nat.shiftLeft_eq, u32]
  omega

theorem planes_inverse (number place : Nat → Nat) {number' place' : Nat → Nat} {split first second whole code : Nat}
    (reads : ∀ ccs ∈ [first, second], ∀ code,
      pcswWhole ⟨ccs, code⟩ = fromPlanes number place split second whole ⟨ccs, code⟩)
    (distinct : first ≠ second) (bounded : number' code < 2 ^ 31) (few : split < 2 ^ 31)
    (low : number' code < split → number (stored (place' (number' code))) = number' code)
    (high : split ≤ number' code → number (stored (place' (number' code - split))) = number' code - split)
    (inverse : place (number' code) = code) :
    pcswWhole ⟨(toPlanes number' place' split first second ⟨whole, code⟩).ccs,
      stored (toPlanes number' place' split first second ⟨whole, code⟩).code⟩ = ⟨whole, code⟩ := by
  simp only [toPlanes]
  split
  · rename_i below
    rw [reads first (by simp)]
    simp only [fromPlanes, if_neg distinct, low below, inverse]
  · rename_i above
    have sum : u32 (↑(number' code - split) + ↑split) = number' code := by
      rw [u32]
      omega
    rw [reads second (by simp)]
    simp only [fromPlanes, if_true, high (Nat.not_lt.mp above), sum, inverse]

/-- A trail byte in its column of a table: what it is moved by is what the column is moved back by. -/
structure Column (width : Nat) (offset back : Nat → Nat) (trail column : Nat) : Prop where
  byte : trail < 0x100
  within : column < width
  moved : trail = column + offset trail
  same : back column = offset trail

theorem nTable_tableN {base width lead trail column : Nat} {offset back : Nat → Nat} (first : base ≤ lead)
    (narrow : width ≤ 0x100) (byte : lead < 0x100) (found : Column width offset back trail column) :
    tableN base width offset (lead * 0x100 + trail) = (lead - base) * width + column ∧
      nTable base width back (tableN base width offset (lead * 0x100 + trail)) = lead * 0x100 + trail := by
  obtain ⟨byte', within, moved, same⟩ := found
  have leading : (lead * 0x100 + trail) >>> 8 &&& 0xFF = lead := by
    rw [shift_byte, and_byte]
    omega
  have trailing : lead * 0x100 + trail &&& 0xFF = trail := by
    rw [and_byte]
    omega
  have product : (lead - base) * width ≤ 0xFF * 0x100 := Nat.mul_le_mul (by omega) narrow
  have position : tableN base width offset (lead * 0x100 + trail) = (lead - base) * width + column := by
    rw [tableN, leading, trailing, u32]
    have cast : ((lead : Int) - base) * width = ((lead - base) * width : Nat) := by
      rw [Int.natCast_mul, Int.natCast_sub first]
    rw [cast]
    omega
  refine ⟨position, ?_⟩
  have row : ((lead - base) * width + column) / width = lead - base := by
    rw [Nat.mul_comm, Nat.mul_add_div (by omega), Nat.div_eq_of_lt within, Nat.add_zero]
  have rest : ((lead - base) * width + column) % width = column := by
    rw [Nat.mul_comm, Nat.mul_add_mod, Nat.mod_eq_of_lt within]
  rw [position, nTable, row, rest, same, Nat.shiftLeft_eq]
  omega

theorem column_split (width cut edge first second : Nat) {trail : Nat} (byte : trail < 0x100)
    (inside : first ≤ trail ∧ trail < cut ∧ trail - first < edge ∧ trail - first < width ∨
      second ≤ trail ∧ cut ≤ trail ∧ edge ≤ trail - second ∧ trail - second < width) :
    ∃ column, Column width (fun l => if l < cut then first else second)
      (fun l => if l < edge then first else second) trail column := by
  rcases inside with ⟨above, low, early, within⟩ | ⟨above, high, late, within⟩
  · have offset : (if trail < cut then first else second) = first := if_pos low
    exact ⟨trail - first, byte, within, by rw [offset]; omega, by rw [offset]; exact if_pos early⟩
  · have offset : (if trail < cut then first else second) = second := if_neg (by omega)
    exact ⟨trail - second, byte, within, by rw [offset]; omega, by rw [offset]; exact if_neg (by omega)⟩

theorem cs128w_inverse (place : Nat → Nat) {number' : Nat → Nat} {first second whole code : Nat}
    (reads : ∀ ccs ∈ [first, second], ∀ code,
      pcswWhole ⟨ccs, code⟩ = fromPlanes cs128wN place 0x4000 second whole ⟨ccs, code⟩)
    (distinct : first ≠ second) (bounded : number' code < 0x8000) (inverse : place (number' code) = code) :
    pcswWhole ⟨(toPlanes number' nCs128w 0x4000 first second ⟨whole, code⟩).ccs,
      stored (toPlanes number' nCs128w 0x4000 first second ⟨whole, code⟩).code⟩ = ⟨whole, code⟩ :=
  planes_inverse cs128wN place reads distinct (by omega) (by omega)
    (fun below => by rw [cs128wN_stored, cs128wN_place below])
    (fun above => by rw [cs128wN_stored, cs128wN_place (by omega)]) inverse

end Planes

/-- The codes of the sets that are renumbered, by lead and trail byte. -/
inductive Renumbered : Nat → Nat → Nat → Prop
  | big5 {lead trail : Nat} (row : 0xA1 ≤ lead ∧ lead ≤ 0xFE)
      (column : 0x40 ≤ trail ∧ trail ≤ 0x7E ∨ 0xA1 ≤ trail ∧ trail ≤ 0xFE) : Renumbered ccsBig5 lead trail
  | hkscs {lead trail : Nat} (row : 0x88 ≤ lead ∧ lead ≤ 0xFE)
      (column : 0x40 ≤ trail ∧ trail ≤ 0x7E ∨ 0xA1 ≤ trail ∧ trail ≤ 0xFE) : Renumbered ccsHkscs lead trail
  | gbk {lead trail : Nat} (row : 0x81 ≤ lead ∧ lead ≤ 0xFE)
      (column : 0x40 ≤ trail ∧ trail ≤ 0x7E ∨ 0x80 ≤ trail ∧ trail ≤ 0xFE) : Renumbered ccsGbk lead trail
  | gbkExt {lead trail : Nat} (row : 0x81 ≤ lead ∧ lead ≤ 0xFE)
      (column : 0x40 ≤ trail ∧ trail ≤ 0x7E ∨ 0x80 ≤ trail ∧ trail ≤ 0xFE) : Renumbered ccsGbkExt lead trail
  | uhc {lead trail : Nat} (row : 0x81 ≤ lead ∧ lead ≤ 0xFE)
      (column : 0x41 ≤ trail ∧ trail ≤ 0x5A ∨ 0x61 ≤ trail ∧ trail ≤ 0x7A ∨ 0x81 ≤ trail ∧ trail ≤ 0xFE) :
      Renumbered ccsUhc lead trail
  | johab {lead trail : Nat}
      (inside : (0x84 ≤ lead ∧ lead ≤ 0xD3 ∧ (0x41 ≤ trail ∧ trail ≤ 0x7E ∨ 0x81 ≤ trail ∧ trail ≤ 0xFE)) ∨
        ((0xD8 ≤ lead ∧ lead ≤ 0xDE ∨ 0xE0 ≤ lead ∧ lead ≤ 0xF9) ∧
          (0x31 ≤ trail ∧ trail ≤ 0x7E ∨ 0x91 ≤ trail ∧ trail ≤ 0xFE))) : Renumbered ccsJohab lead trail
  | sjisExt {lead trail : Nat} (row : 0x81 ≤ lead ∧ lead ≤ 0x9F ∨ 0xE0 ≤ lead ∧ lead ≤ 0xFC)
      (column : 0x40 ≤ trail ∧ trail ≤ 0x7E ∨ 0x80 ≤ trail ∧ trail ≤ 0xFC) : Renumbered ccsSjisExt lead trail

def ReadBack (ccs code : Nat) : Prop :=
  pcswWhole ⟨(pcswPlanes ⟨ccs, code⟩).ccs, stored (pcswPlanes ⟨ccs, code⟩).code⟩ = ⟨ccs, code⟩

section Sets

theorem reads_pair {first second : Nat} {read : Wchar → Wchar}
    (one : ∀ code, pcswWhole ⟨first, code⟩ = read ⟨first, code⟩)
    (two : ∀ code, pcswWhole ⟨second, code⟩ = read ⟨second, code⟩) :
    ∀ ccs ∈ [first, second], ∀ code, pcswWhole ⟨ccs, code⟩ = read ⟨ccs, code⟩ := by
  simpa using ⟨one, two⟩

theorem big5_inverse {lead trail : Nat} (row : 0xA1 ≤ lead ∧ lead ≤ 0xFE)
    (column : 0x40 ≤ trail ∧ trail ≤ 0x7E ∨ 0xA1 ≤ trail ∧ trail ≤ 0xFE) :
    ReadBack ccsBig5 (lead * 0x100 + trail) := by
  obtain ⟨c, found⟩ := column_split 0x9D 0xA1 0x3F 0x40 0x62 (show trail < 0x100 by omega) (by omega)
  obtain ⟨position, inverse⟩ := nTable_tableN row.1 (by omega) (Nat.lt_succ_of_le (by omega)) found
  have within := found.within
  have number : big5N (lead * 0x100 + trail) < 0x5E * 0x9D := by
    rw [big5N, position]
    omega
  apply planes_inverse cs94wN nBig5 (reads_pair (fun _ => rfl) (fun _ => rfl)) (by decide) (by omega) (by omega) _ _
    inverse
  · intro below
    rw [cs94wN_stored, cs94wN_place (by omega)]
  · intro above
    rw [cs94wN_stored, cs94wN_place (by omega)]

theorem hkscs_inverse {lead trail : Nat} (row : 0x88 ≤ lead ∧ lead ≤ 0xFE)
    (column : 0x40 ≤ trail ∧ trail ≤ 0x7E ∨ 0xA1 ≤ trail ∧ trail ≤ 0xFE) :
    ReadBack ccsHkscs (lead * 0x100 + trail) := by
  obtain ⟨c, found⟩ := column_split 0x9D 0xA1 0x3F 0x40 0x62 (show trail < 0x100 by omega) (by omega)
  obtain ⟨position, inverse⟩ := nTable_tableN (show 0x88 ≤ lead by omega) (by omega) (by omega) found
  have within := found.within
  refine cs128w_inverse nHkscs (reads_pair (fun _ => rfl) (fun _ => rfl)) (by decide) ?_ inverse
  rw [hkscsN, position]
  omega

theorem gbk_position {lead trail : Nat} (row : 0x81 ≤ lead ∧ lead ≤ 0xFE)
    (column : 0x40 ≤ trail ∧ trail ≤ 0x7E ∨ 0x80 ≤ trail ∧ trail ≤ 0xFE) :
    gbkN (lead * 0x100 + trail) < 0x8000 ∧ nGbk (gbkN (lead * 0x100 + trail)) = lead * 0x100 + trail := by
  obtain ⟨c, found⟩ := column_split 0xBE 0x80 0x3F 0x40 0x41 (show trail < 0x100 by omega) (by omega)
  obtain ⟨position, inverse⟩ := nTable_tableN row.1 (by omega) (by omega) found
  have within := found.within
  refine ⟨?_, inverse⟩
  rw [gbkN, position]
  omega

theorem gbk_inverse {lead trail : Nat} (row : 0x81 ≤ lead ∧ lead ≤ 0xFE)
    (column : 0x40 ≤ trail ∧ trail ≤ 0x7E ∨ 0x80 ≤ trail ∧ trail ≤ 0xFE) :
    ReadBack ccsGbk (lead * 0x100 + trail) := by
  obtain ⟨bounded, inverse⟩ := gbk_position row column
  exact cs128w_inverse nGbk (reads_pair (fun _ => rfl) (fun _ => rfl)) (by decide) bounded inverse

theorem gbkExt_inverse {lead trail : Nat} (row : 0x81 ≤ lead ∧ lead ≤ 0xFE)
    (column : 0x40 ≤ trail ∧ trail ≤ 0x7E ∨ 0x80 ≤ trail ∧ trail ≤ 0xFE) :
    ReadBack ccsGbkExt (lead * 0x100 + trail) := by
  obtain ⟨bounded, inverse⟩ := gbk_position row column
  exact cs128w_inverse nGbk (reads_pair (fun _ => rfl) (fun _ => rfl)) (by decide) bounded inverse

theorem uhc_inverse {lead trail : Nat} (row : 0x81 ≤ lead ∧ lead ≤ 0xFE)
    (column : 0x41 ≤ trail ∧ trail ≤ 0x5A ∨ 0x61 ≤ trail ∧ trail ≤ 0x7A ∨ 0x81 ≤ trail ∧ trail ≤ 0xFE) :
    ReadBack ccsUhc (lead * 0x100 + trail) := by
  obtain ⟨c, found⟩ : ∃ c, Column 0xB2 (fun l => if l < 0x61 then 0x41 else if l < 0x81 then 0x47 else 0x4D)
      (fun l => if l < 0x1A then 0x41 else if l < 0x34 then 0x47 else 0x4D) trail c := by
    rcases column with upper | lower | high
    · have offset : (if trail < 0x61 then 0x41 else if trail < 0x81 then 0x47 else 0x4D) = 0x41 := if_pos (by omega)
      exact ⟨trail - 0x41, by omega, by omega, by rw [offset]; omega, by rw [offset]; exact if_pos (by omega)⟩
    · have offset : (if trail < 0x61 then 0x41 else if trail < 0x81 then 0x47 else 0x4D) = 0x47 := by
        rw [if_neg (by omega), if_pos (by omega)]
      refine ⟨trail - 0x47, by omega, by omega, by rw [offset]; omega, ?_⟩
      rw [offset, if_neg (by omega), if_pos (by omega)]
    · have offset : (if trail < 0x61 then 0x41 else if trail < 0x81 then 0x47 else 0x4D) = 0x4D := by
        rw [if_neg (by omega), if_neg (by omega)]
      refine ⟨trail - 0x4D, by omega, by omega, by rw [offset]; omega, ?_⟩
      rw [offset, if_neg (by omega), if_neg (by omega)]
  obtain ⟨position, inverse⟩ := nTable_tableN row.1 (by omega) (by omega) found
  have within := found.within
  refine cs128w_inverse nUhc (reads_pair (fun _ => rfl) (fun _ => rfl)) (by decide) ?_ inverse
  rw [uhcN, position]
  omega

theorem u8_ofNat {value : Int} {n : Nat} (same : value = n) (small : n < 256) : u8 value = n := by
  rw [u8, same]
  omega

theorem sjis_position {lead trail : Nat} (row : 0x81 ≤ lead ∧ lead ≤ 0x9F ∨ 0xE0 ≤ lead ∧ lead ≤ 0xFC)
    (column : 0x40 ≤ trail ∧ trail ≤ 0x7E ∨ 0x80 ≤ trail ∧ trail ≤ 0xFC) :
    ∃ ub lb, sjisToJisx0208 lead trail = (ub, lb) ∧ 0x21 ≤ ub ∧ ub ≤ 0x98 ∧ lb < 0x80 ∧
      jisx0208ToSjis ub lb = (lead, trail) := by
  obtain ⟨r, base, small, leading, there, back⟩ : ∃ r base : Nat, r < 60 ∧ lead = r + base ∧
      (if lead < 0xA0 then 0x81 else 0xC1 : Int) = base ∧ (if r < 0x1F then 0x81 else 0xC1 : Int) = base := by
    rcases row with row | row
    · exact ⟨lead - 0x81, 0x81, by omega, by omega, if_pos (by omega), if_pos (by omega)⟩
    · exact ⟨lead - 0xC1, 0xC1, by omega, by omega, if_neg (by omega), if_neg (by omega)⟩
  have first : u8 (lead - (if lead < 0xA0 then 0x81 else 0xC1)) = r := by
    rw [there]
    exact u8_ofNat (by omega) (by omega)
  have second : u8 ((r <<< 1 : Nat) + 0x21) = 2 * r + 0x21 :=
    u8_ofNat (by rw [Nat.shiftLeft_eq]; omega) (by omega)
  have halved (ub : Nat) (half : ub = 2 * r + 0x21 ∨ ub = 2 * r + 0x22) : u8 (((ub : Int) - 0x21) / 2) = r :=
    u8_ofNat (by omega) (by omega)
  have top : u8 ((r : Int) + (if r < 0x1F then 0x81 else 0xC1)) = lead := by
    rw [back]
    exact u8_ofNat (by omega) (by omega)
  simp only [sjisToJisx0208, first, second]
  by_cases low : trail < 0x9F
  · obtain ⟨off, there, kind⟩ : ∃ off : Nat, (if trail > 0x7E then 0x20 else 0x1F : Int) = off ∧
        (trail > 0x7E ∧ off = 0x20 ∨ trail ≤ 0x7E ∧ off = 0x1F) := by
      by_cases ascii : trail > 0x7E
      · exact ⟨0x20, if_pos ascii, .inl ⟨ascii, rfl⟩⟩
      · exact ⟨0x1F, if_neg ascii, .inr ⟨Nat.not_lt.mp ascii, rfl⟩⟩
    have moved : u8 (trail - (if trail > 0x7E then 0x20 else 0x1F)) = trail - off := by
      rw [there]
      exact u8_ofNat (by omega) (by omega)
    have odd : (2 * r + 0x21) &&& 1 = 1 := by
      rw [Nat.and_one_is_mod]
      omega
    have column' : u8 (↑(trail - off) + 0x1F) = trail - off + 0x1F := u8_ofNat (by omega) (by omega)
    refine ⟨_, _, by rw [if_pos low, moved], by omega, by omega, by omega, ?_⟩
    simp only [jisx0208ToSjis, odd, if_true, halved _ (.inl rfl), top, column']
    refine congrArg (Prod.mk lead) ?_
    rcases kind with ⟨ascii, rfl⟩ | ⟨ascii, rfl⟩
    · rw [if_pos (by omega)]
      exact u8_ofNat (by omega) (by omega)
    · rw [if_neg (by omega)]
      omega
  · have next : u8 (↑(2 * r + 0x21) + 1) = 2 * r + 0x22 := u8_ofNat (by omega) (by omega)
    have moved : u8 (trail - 0x7E) = trail - 0x7E := u8_ofNat (by omega) (by omega)
    have even : ¬ (2 * r + 0x22) &&& 1 = 1 := by
      rw [Nat.and_one_is_mod]
      omega
    refine ⟨_, _, by rw [if_neg low, next, moved], by omega, by omega, by omega, ?_⟩
    simp only [jisx0208ToSjis, if_neg even, halved _ (.inr rfl), top]
    refine congrArg (Prod.mk lead) ?_
    have left : u8 (↑(trail - 0x7E) + 0x7D) = trail - 1 := u8_ofNat (by omega) (by omega)
    rw [left, if_pos (by omega)]
    exact u8_ofNat (by omega) (by omega)

theorem join_bytes {ub lb : Nat} (small : lb < 0x100) : (ub <<< 8) ||| lb = ub * 0x100 + lb := by
  rw [Nat.shiftLeft_eq]
  exact or_add 8 ⟨ub, Nat.mul_comm _ _⟩ small

theorem stored_bytes {ub lb : Nat} (row : ub < 0x80) (column : lb < 0x80) :
    (stored (ub * 0x100 + lb) >>> 8) &&& 0x7F = ub ∧ stored (ub * 0x100 + lb) &&& 0x7F = lb := by
  rw [stored_high, stored_low, shift_byte, and_low, and_low]
  omega

theorem code_bytes {lead trail : Nat} (row : lead < 0x100) (column : trail < 0x100) :
    u8 ((lead * 0x100 + trail) >>> 8 : Nat) = lead ∧ (lead * 0x100 + trail) &&& 0xFF = trail := by
  constructor
  · rw [shift_byte]
    exact u8_ofNat (by omega) (by omega)
  · rw [and_byte]
    omega

theorem sjisExt_inverse {lead trail : Nat} (row : 0x81 ≤ lead ∧ lead ≤ 0x9F ∨ 0xE0 ≤ lead ∧ lead ≤ 0xFC)
    (column : 0x40 ≤ trail ∧ trail ≤ 0x7E ∨ 0x80 ≤ trail ∧ trail ≤ 0xFC) :
    ReadBack ccsSjisExt (lead * 0x100 + trail) := by
  obtain ⟨ub, lb, there, low, high, small, back⟩ := sjis_position row column
  obtain ⟨leading, trailing⟩ := code_bytes (show lead < 0x100 by omega) (show trail < 0x100 by omega)
  have planes : pcswPlanes ⟨ccsSjisExt, lead * 0x100 + trail⟩ =
      if ub ≤ 0x7E then ⟨ccsSjisExt_1, ub * 0x100 + lb⟩ else ⟨ccsSjisExt_2, (ub - 0x5E) * 0x100 + lb⟩ := by
    show sjisExtToCs94w _ = _
    have second : ¬ ub ≤ 0x7E → u8 (ub - 0x5E) = ub - 0x5E := fun above => u8_ofNat (by omega) (by omega)
    simp only [sjisExtToCs94w, leading, trailing, there]
    split
    · rw [join_bytes (by omega)]
    · rename_i above
      rw [second above, join_bytes (by omega)]
  rw [ReadBack, planes]
  split
  · rename_i below
    obtain ⟨first, second⟩ := stored_bytes (show ub < 0x80 by omega) small
    show cs94wToSjisExt _ = _
    simp only [cs94wToSjisExt, first, second, if_neg (show ¬ ccsSjisExt_1 = ccsSjisExt_2 by decide), back]
    rw [join_bytes (by omega)]
  · rename_i above
    obtain ⟨first, second⟩ := stored_bytes (show ub - 0x5E < 0x80 by omega) small
    have whole : u8 (↑(ub - 0x5E) + 0x5E) = ub := u8_ofNat (by omega) (by omega)
    show cs94wToSjisExt _ = _
    simp only [cs94wToSjisExt, first, second, if_true, whole, back]
    rw [join_bytes (by omega)]

theorem johab1_letters : ∀ part < 3, ∀ letter < 32, johab1NMap part letter ≠ 0 →
    nJohab1Map part (johab1NMap part letter - 1) = letter ∧
      johab1NMap part letter ≤ [19, 21, 28].getD part 0 := by
  decide +kernel

theorem johab1_position {code n : Nat} (range : 0x8000 ≤ code ∧ code < 0x10000) (found : johab1ToN code = some n) :
    n < 0x5E * 0x80 ∧ nToJohab1 n = code := by
  have first : (code >>> 10) &&& 0x1F = code / 1024 % 32 := by
    rw [Nat.and_two_pow_sub_one_eq_mod _ 5, Nat.shiftRight_eq_div_pow]
  have second : (code >>> 5) &&& 0x1F = code / 32 % 32 := by
    rw [Nat.and_two_pow_sub_one_eq_mod _ 5, Nat.shiftRight_eq_div_pow]
  have third : code &&& 0x1F = code % 32 := Nat.and_two_pow_sub_one_eq_mod _ 5
  simp only [johab1ToN, first, second, third] at found
  split at found
  · rename_i letters
    obtain ⟨a, aMost⟩ := johab1_letters 0 (by omega) (code / 1024 % 32) (by omega) letters.1
    obtain ⟨b, bMost⟩ := johab1_letters 1 (by omega) (code / 32 % 32) (by omega) letters.2.1
    obtain ⟨c, cMost⟩ := johab1_letters 2 (by omega) (code % 32) (by omega) letters.2.2
    generalize johab1NMap 0 (code / 1024 % 32) = x at *
    generalize johab1NMap 1 (code / 32 % 32) = y at *
    generalize johab1NMap 2 (code % 32) = z at *
    simp only [List.getD_cons_zero, List.getD_cons_succ] at aMost bMost cMost
    have value := Option.some.inj found
    have last : n % 28 = z - 1 := by omega
    have middle : n / 28 % 21 = y - 1 := by omega
    have top : n / 28 / 21 = x - 1 := by omega
    refine ⟨by omega, ?_⟩
    simp only [nToJohab1, last, middle, top, a, b, c, Nat.shiftLeft_eq]
    have one : 0x8000 ||| code / 1024 % 32 * 2 ^ 10 = code / 1024 * 2 ^ 10 := by
      rw [or_add (a := 0x8000) 15 ⟨1, rfl⟩ (by omega)]
      omega
    have two : code / 1024 * 2 ^ 10 ||| code / 32 % 32 * 2 ^ 5 = code / 32 * 2 ^ 5 := by
      rw [or_add 10 ⟨_, Nat.mul_comm _ _⟩ (by omega)]
      omega
    rw [one, two, or_add 5 ⟨_, Nat.mul_comm _ _⟩ (by omega)]
    omega
  · contradiction

theorem johab3_position {lead trail : Nat} (row : 0xD8 ≤ lead ∧ lead ≤ 0xDE ∨ 0xE0 ≤ lead ∧ lead ≤ 0xF9)
    (column : 0x31 ≤ trail ∧ trail ≤ 0x7E ∨ 0x91 ≤ trail ∧ trail ≤ 0xFE) :
    ∃ ub lb, johab3ToKsx1001 lead trail = (ub, lb) ∧ ub < 0x80 ∧ lb < 0x80 ∧
      ksx1001ToJohab3 ub lb = (lead, trail) := by
  obtain ⟨r, base, even, small, kind⟩ : ∃ r base : Nat,
      (if lead < 0xE0 then u8 ((lead - 0xD8 : Int) * 2 + 0x1F) else u8 ((lead - 0xE0 : Int) * 2 + 0x4A)) =
        2 * r + base ∧ 2 * r + base < 0x7F ∧
      (base = 0x1F ∧ lead = r + 0xD8 ∧ r ≤ 6 ∨ base = 0x4A ∧ lead = r + 0xE0) := by
    rcases row with row | row
    · refine ⟨lead - 0xD8, 0x1F, ?_, by omega, .inl (by omega)⟩
      rw [if_pos (by omega)]
      exact u8_ofNat (by omega) (by omega)
    · refine ⟨lead - 0xE0, 0x4A, ?_, by omega, .inr (by omega)⟩
      rw [if_neg (by omega)]
      exact u8_ofNat (by omega) (by omega)
  have split (odd : Nat) (bit : odd < 2) : (if 2 * r + base + odd < 0x4A then
      (u8 (↑(2 * r + base + odd) - 0x1F), 0xD8) else (u8 (↑(2 * r + base + odd) - 0x4A), 0xE0)) =
        (2 * r + odd, lead - r) := by
    rcases kind with kind | kind
    · rw [if_pos (by omega)]
      exact Prod.ext (u8_ofNat (by omega) (by omega)) (show 0xD8 = lead - r by omega)
    · rw [if_neg (by omega)]
      exact Prod.ext (u8_ofNat (by omega) (by omega)) (show 0xE0 = lead - r by omega)
  have halved (odd : Nat) (bit : odd < 2) : u8 ((((2 * r + odd) >>> 1 : Nat) : Int) + ↑(lead - r)) = lead := by
    refine u8_ofNat ?_ (by omega)
    rw [Nat.shiftRight_eq_div_pow]
    omega
  simp only [johab3ToKsx1001, even]
  by_cases low : trail < 0xA1
  · obtain ⟨off, there, kind⟩ : ∃ off : Nat, (if trail < 0x91 then 0x10 else 0x22 : Int) = off ∧
        (trail < 0x91 ∧ off = 0x10 ∨ 0x91 ≤ trail ∧ off = 0x22) := by
      by_cases ascii : trail < 0x91
      · exact ⟨0x10, if_pos ascii, .inl ⟨ascii, rfl⟩⟩
      · exact ⟨0x22, if_neg ascii, .inr ⟨Nat.not_lt.mp ascii, rfl⟩⟩
    have moved : u8 (trail - (if trail < 0x91 then 0x10 else 0x22)) = trail - off := by
      rw [there]
      exact u8_ofNat (by omega) (by omega)
    refine ⟨_, _, by rw [if_pos low, moved], by omega, by omega, ?_⟩
    have bit : ¬ (2 * r + 0) &&& 1 = 1 := by
      rw [Nat.and_one_is_mod]
      omega
    have same : (if trail - off < 0x6F then 0x10 else 0x22 : Int) = off := by
      rcases kind with ⟨ascii, rfl⟩ | ⟨ascii, rfl⟩
      · exact if_pos (by omega)
      · exact if_neg (by omega)
    have back : u8 (↑(trail - off) + (if trail - off < 0x6F then 0x10 else 0x22)) = trail := by
      rw [same]
      exact u8_ofNat (by omega) (by omega)
    have parts := split 0 (by omega)
    simp only [Nat.add_zero] at parts bit
    simp only [ksx1001ToJohab3, parts, if_neg bit, back]
    exact Prod.ext (halved 0 (by omega)) rfl
  · have next : u8 (↑(2 * r + base) + 1) = 2 * r + base + 1 := u8_ofNat (by omega) (by omega)
    have moved : u8 (trail - 0x80) = trail - 0x80 := u8_ofNat (by omega) (by omega)
    refine ⟨_, _, by rw [if_neg low, next, moved], by omega, by omega, ?_⟩
    have bit : (2 * r + 1) &&& 1 = 1 := by
      rw [Nat.and_one_is_mod]
      omega
    have back : u8 (↑(trail - 0x80) + 0x80) = trail := u8_ofNat (by omega) (by omega)
    simp only [ksx1001ToJohab3, split 1 (by omega), if_pos bit, back]
    exact Prod.ext (halved 1 (by omega)) rfl

theorem johab_inverse {lead trail : Nat}
    (inside : (0x84 ≤ lead ∧ lead ≤ 0xD3 ∧ (0x41 ≤ trail ∧ trail ≤ 0x7E ∨ 0x81 ≤ trail ∧ trail ≤ 0xFE)) ∨
      ((0xD8 ≤ lead ∧ lead ≤ 0xDE ∨ 0xE0 ≤ lead ∧ lead ≤ 0xF9) ∧
        (0x31 ≤ trail ∧ trail ≤ 0x7E ∨ 0x91 ≤ trail ∧ trail ≤ 0xFE))) :
    ReadBack ccsJohab (lead * 0x100 + trail) := by
  rcases inside with ⟨low, most, column⟩ | ⟨row, column⟩
  · have below : lead * 0x100 + trail < 0xD800 := by omega
    cases syllable : johab1ToN (lead * 0x100 + trail) with
    | some n =>
        obtain ⟨bounded, back⟩ := johab1_position (by omega) syllable
        have planes : pcswPlanes ⟨ccsJohab, lead * 0x100 + trail⟩ = ⟨ccsJohab_1, nCs94x128 n⟩ := by
          show johabToCs128w _ = _
          simp only [johabToCs128w, if_pos below, syllable]
        rw [ReadBack, planes]
        show cs128wToJohab _ = _
        simp only [cs128wToJohab, if_true, cs94x128N_stored, cs94x128N_place bounded, back]
    | none =>
        obtain ⟨c, found⟩ := column_split 0xBC 0x81 0x3E 0x41 0x43 (show trail < 0x100 by omega) (by omega)
        obtain ⟨position, back⟩ := nTable_tableN low (by omega) (by omega) found
        have within := found.within
        have bounded : johab2N (lead * 0x100 + trail) < 0x4000 := by
          rw [johab2N, position]
          omega
        have planes : pcswPlanes ⟨ccsJohab, lead * 0x100 + trail⟩ =
            ⟨ccsJohab_2, nCs128w (johab2N (lead * 0x100 + trail))⟩ := by
          show johabToCs128w _ = _
          simp only [johabToCs128w, if_pos below, syllable]
        have whole : nJohab2 (johab2N (lead * 0x100 + trail)) = lead * 0x100 + trail := back
        rw [ReadBack, planes]
        show cs128wToJohab _ = _
        simp only [cs128wToJohab, if_neg (show ¬ ccsJohab_2 = ccsJohab_1 by decide), if_true, cs128wN_stored,
          cs128wN_place bounded, whole]
  · obtain ⟨ub, lb, there, high, small, back⟩ := johab3_position row column
    obtain ⟨leading, trailing⟩ := code_bytes (show lead < 0x100 by omega) (show trail < 0x100 by omega)
    have planes : pcswPlanes ⟨ccsJohab, lead * 0x100 + trail⟩ = ⟨ccsJohab_3, ub * 0x100 + lb⟩ := by
      show johabToCs128w _ = _
      simp only [johabToCs128w, if_neg (show ¬ lead * 0x100 + trail < 0xD800 by omega), leading, trailing, there]
      rw [join_bytes (by omega)]
    obtain ⟨first, second⟩ := stored_bytes high small
    rw [ReadBack, planes]
    show cs128wToJohab _ = _
    simp only [cs128wToJohab, if_neg (show ¬ ccsJohab_3 = ccsJohab_1 by decide),
      if_neg (show ¬ ccsJohab_3 = ccsJohab_2 by decide), if_true, first, second, back]
    rw [join_bytes (by omega)]

theorem renumbered_readBack {ccs lead trail : Nat} (inside : Renumbered ccs lead trail) :
    ReadBack ccs (lead * 0x100 + trail) := by
  cases inside with
  | big5 row column => exact big5_inverse row column
  | hkscs row column => exact hkscs_inverse row column
  | gbk row column => exact gbk_inverse row column
  | gbkExt row column => exact gbkExt_inverse row column
  | uhc row column => exact uhc_inverse row column
  | johab inside => exact johab_inverse inside
  | sjisExt row column => exact sjisExt_inverse row column

end Sets

end KcnTools.Libwc
