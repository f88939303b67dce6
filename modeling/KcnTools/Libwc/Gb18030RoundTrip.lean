import KcnTools.Libwc.Gb18030

/-!
From Unicode to GB 18030 and back. The way back from a code of two bytes counts from the end of its
row, so that it is right for rows of one code only.
-/

namespace KcnTools.Libwc

/-! The search for a row by its first number. -/

section Rows

variable {map : List Map3}

theorem rowAt_nat (map : List Map3) (i : Nat) : rowAt map (i : Int) = map[i]? := by
  rw [rowAt, if_pos (by omega), Int.toNat_natCast]

def Follows (a b : Map3) : Prop := a.code3 + (a.code2 - a.code) < b.code3

instance : DecidableRel Follows := fun _ _ => inferInstanceAs (Decidable (_ < _))

instance : Trans Follows Follows Follows := ⟨fun first second => by
  rw [Follows] at *
  omega⟩

def Increasing (map : List Map3) : Prop := map.Pairwise Follows

theorem increasing_getElem? (increasing : Increasing map) {i j : Nat} {a b : Map3} (before : i < j)
    (first : map[i]? = some a) (second : map[j]? = some b) : a.code3 + (a.code2 - a.code) < b.code3 := by
  obtain ⟨iInside, rfl⟩ := List.getElem?_eq_some_iff.mp first
  obtain ⟨jInside, rfl⟩ := List.getElem?_eq_some_iff.mp second
  exact List.pairwise_iff_getElem.mp increasing i j iInside jInside before

def LastRow (map : List Map3) (code : Nat) (i : Nat) : Prop :=
  (∃ m, map[i]? = some m ∧ m.code3 ≤ code) ∧ ∀ j m, i < j → map[j]? = some m → code < m.code3

theorem rowLoop_lastRow (increasing : Increasing map) {code rounds min max : Nat} {first : Map3}
    (low : map[min]? = some first) (notBehind : first.code3 ≤ code) (le : min ≤ max)
    (high : ∀ j m, max < j → map[j]? = some m → code < m.code3) (inside : max < map.length) (enough : max < rounds + min) :
    ∃ i : Nat, rowLoop map code rounds min max = some (i : Int) ∧ LastRow map code i := by
  induction rounds generalizing min max first with
  | zero => omega
  | succ rounds ih =>
      have middle : ((min : Int) + max).tdiv 2 = ((min + max) / 2 : Nat) := by
        rw [Int.tdiv_eq_ediv_of_nonneg (by omega)]
        omega
      rw [rowLoop, middle]
      by_cases same : min = max
      · rw [if_pos (by rw [same]), ← same, show (min + min) / 2 = min by omega]
        exact ⟨min, rfl, ⟨first, low, notBehind⟩, fun j m behind here => high j m (same ▸ behind) here⟩
      · obtain ⟨row, here⟩ : ∃ row, map[(min + max) / 2]? = some row := ⟨_, List.getElem?_eq_getElem (by omega)⟩
        rw [if_neg (by omega), rowAt_nat, here]
        dsimp only
        by_cases behind : code < row.code3
        · have later : min < (min + max) / 2 := by
            rcases Nat.lt_or_ge min ((min + max) / 2) with after | before
            · exact after
            · obtain equal : (min + max) / 2 = min := by omega
              rw [equal, low, Option.some.injEq] at here
              rw [← here] at behind
              omega
          rw [if_pos behind, show (((min + max) / 2 : Nat) : Int) - 1 = ((min + max) / 2 - 1 : Nat) by omega]
          refine ih low notBehind (by omega) (fun j m after there => ?_) (by omega) (by omega)
          rcases Nat.lt_or_eq_of_le (by omega : (min + max) / 2 ≤ j) with further | equal
          · have := increasing_getElem? increasing further here there
            omega
          · rw [← equal, here, Option.some.injEq] at there
            rw [← there]
            exact behind
        · obtain ⟨next, there⟩ : ∃ next, map[(min + max) / 2 + 1]? = some next := ⟨_, List.getElem?_eq_getElem (by omega)⟩
          rw [if_neg behind, show (((min + max) / 2 : Nat) : Int) + 1 = ((min + max) / 2 + 1 : Nat) by omega, rowAt_nat, there]
          dsimp only
          by_cases more : next.code3 ≤ code
          · rw [if_pos more]
            exact ih there more (by omega) high inside (by omega)
          · rw [if_neg more]
            refine ⟨_, rfl, ⟨_, here, by omega⟩, fun j m after later => ?_⟩
            rcases Nat.lt_or_eq_of_le (by omega : (min + max) / 2 + 1 ≤ j) with further | equal
            · have := increasing_getElem? increasing further there later
              omega
            · rw [← equal, there, Option.some.injEq] at later
              rw [← later]
              omega

theorem rowSearch_lastRow (increasing : Increasing map) {code : Nat} {first : Map3} (start : map[0]? = some first)
    (notBehind : first.code3 ≤ code) : ∃ i : Nat, rowSearch map code = some (i : Int) ∧ LastRow map code i := by
  have positive := (List.getElem?_eq_some_iff.mp start).1
  have final := List.getElem?_eq_getElem (by omega : map.length - 1 < map.length)
  have length : (map.length : Int) - 1 = (map.length - 1 : Nat) := by omega
  rw [rowSearch, length, rowAt_nat, final]
  dsimp only
  by_cases behind : map[map.length - 1].code3 ≤ code
  · rw [if_pos behind]
    refine ⟨_, rfl, ⟨_, final, behind⟩, fun j m after there => ?_⟩
    have := (List.getElem?_eq_some_iff.mp there).1
    omega
  · rw [if_neg behind]
    exact rowLoop_lastRow increasing start notBehind (Nat.zero_le _) (fun j m after there => by
      have := (List.getElem?_eq_some_iff.mp there).1
      omega) (by omega) (by omega)

theorem lastRow_eq (increasing : Increasing map) {code i k : Nat} {m : Map3} (last : LastRow map code i)
    (here : map[k]? = some m) (low : m.code3 ≤ code) (high : code ≤ m.code3 + (m.code2 - m.code)) : i = k := by
  obtain ⟨⟨a, there, notBehind⟩, others⟩ := last
  rcases Nat.lt_trichotomy i k with before | equal | after
  · have := others k m before here
    omega
  · exact equal
  · have := increasing_getElem? increasing after here there
    omega

end Rows

/-! The search for the row that has a code. -/

def InFront (a b : Map3) : Prop := a.code2 < b.code ∧ b.code ≤ b.code2

instance : DecidableRel InFront := fun _ _ => inferInstanceAs (Decidable (_ ∧ _))

instance : Trans InFront InFront InFront := ⟨fun first second => by
  rw [InFront] at *
  omega⟩

def SortedRows (map : List Map3) : Prop := map.Pairwise InFront

theorem rangeSearch_some {map : List Map3} {code : Nat} {m : Map3} (found : rangeSearch code map = some m) :
    m ∈ map ∧ m.code ≤ code ∧ code ≤ m.code2 :=
  ⟨List.mem_of_find?_eq_some found, by simpa using List.find?_some found⟩

theorem rangeSearch_mem {map : List Map3} (sorted : SortedRows map) {code : Nat} {m : Map3} (member : m ∈ map) (low : m.code ≤ code) (high : code ≤ m.code2) : rangeSearch code map = some m := by
  obtain ⟨front, back, split⟩ := List.append_of_mem member
  rw [rangeSearch, List.find?_eq_some_iff_append]
  refine ⟨decide_eq_true ⟨low, high⟩, front, back, split, fun a before => ?_⟩
  rw [split] at sorted
  have order : InFront a m := (List.pairwise_append.mp sorted).2.2 a before m (.head _)
  rw [InFront] at order
  simp only [Bool.not_eq_true', decide_eq_false_iff_not]
  omega

/-! What the tables are. -/

theorem ucsGb18030Map_increasing : Increasing ucsGb18030Map := by
  have steps : ucsGb18030Map.IsChain Follows := by decide +kernel
  exact List.isChain_iff_pairwise.mp steps

theorem gbkExtUcsMap_sorted : SortedRows gbkExtUcsMap := by
  have steps : gbkExtUcsMap.IsChain InFront := by decide +kernel
  exact List.isChain_iff_pairwise.mp steps

def GbkCode (c : Nat) : Prop :=
  0x81 ≤ c / 256 ∧ c / 256 ≤ 0xFE ∧ (0x40 ≤ c % 256 ∧ c % 256 ≤ 0x7E ∨ 0x80 ≤ c % 256 ∧ c % 256 ≤ 0xFE)

instance (c : Nat) : Decidable (GbkCode c) := inferInstanceAs (Decidable (_ ∧ _))

def gbkPlace (c : Nat) : Nat := (c / 256 - 0x81) * 190 + (c % 256 - if c % 256 < 0x80 then 0x40 else 0x41)

/-- Each row of one table is a row of the other one, read the other way. -/
structure Mirrored (m back : Map3) : Prop where
  start : back.code = m.code3
  target : back.code3 = m.code
  codes : GbkCode back.code ∧ GbkCode back.code2
  length : gbkPlace back.code2 = gbkPlace back.code + (m.code2 - m.code)
  filled : m.code ≤ m.code2 ∧ m.code2 ≤ 0xFFFF

instance (m back : Map3) : Decidable (Mirrored m back) :=
  decidable_of_iff ((back.code = m.code3 ∧ back.code3 = m.code) ∧ (GbkCode back.code ∧ GbkCode back.code2) ∧
    gbkPlace back.code2 = gbkPlace back.code + (m.code2 - m.code) ∧ m.code ≤ m.code2 ∧ m.code2 ≤ 0xFFFF)
    ⟨fun ⟨⟨a, b⟩, c, d, e⟩ => ⟨a, b, c, d, e⟩, fun ⟨a, b, c, d, e⟩ => ⟨⟨a, b⟩, c, d, e⟩⟩

theorem ucsGbkExtMap_mirrored : ∀ m ∈ ucsGbkExtMap, ∃ back ∈ gbkExtUcsMap, Mirrored m back := by
  have check : (ucsGbkExtMap.all fun m => gbkExtUcsMap.any fun back =>
      Nat.beq back.code m.code3 && decide (Mirrored m back)) = true := by decide +kernel
  intro m member
  obtain ⟨back, backMember, both⟩ := List.any_eq_true.mp (List.all_eq_true.mp check m member)
  rw [Bool.and_eq_true, decide_eq_true_eq] at both
  exact ⟨back, backMember, both.2⟩

theorem ucsGb18030Map_filled : ∀ m ∈ ucsGb18030Map, m.code ≤ m.code2 ∧ m.code2 ≤ 0xFFFF ∧ m.code3 + (m.code2 - m.code) < 39420 := by
  decide +kernel

/-! Mixed radix. -/

theorem nGbk_eq (n : Nat) : nGbk n = (n / 190 + 0x81) * 256 + (n % 190 + if n % 190 < 0x3F then 0x40 else 0x41) := by
  rw [nGbk, nTable, Nat.shiftLeft_eq]

theorem gbkN_nGbk {n : Nat} (small : n < 126 * 190) : gbkN (nGbk n) = n := by
  have lower : nGbk n &&& 0xFF = n % 190 + if n % 190 < 0x3F then 0x40 else 0x41 := by
    rw [nGbk_eq, and_byte]
    split <;> omega
  have upper : (nGbk n >>> 8) &&& 0xFF = n / 190 + 0x81 := by
    rw [nGbk_eq, and_byte, Nat.shiftRight_eq_div_pow]
    split <;> omega
  rw [gbkN, tableN, lower, upper, u32]
  split
  · split <;> omega
  · split <;> omega

theorem gbkN_place {c : Nat} (code : GbkCode c) : gbkN c = gbkPlace c ∧ gbkPlace c < 126 * 190 ∧ nGbk (gbkPlace c) = c := by
  obtain ⟨low, high, trail⟩ := code
  refine ⟨?_, ?_, ?_⟩
  · have lead : c / 256 % 256 = c / 256 := Nat.mod_eq_of_lt (by omega)
    rw [gbkN, tableN, and_byte, and_byte, shift_byte, lead, gbkPlace, u32]
    obtain ⟨row, equal⟩ := Nat.exists_eq_add_of_le low
    rw [equal]
    split <;> omega
  · rw [gbkPlace]
    split <;> omega
  · have column : gbkPlace c % 190 = c % 256 - if c % 256 < 0x80 then 0x40 else 0x41 := by
      rw [gbkPlace]
      split <;> omega
    have row : gbkPlace c / 190 = c / 256 - 0x81 := by
      rw [gbkPlace]
      split <;> omega
    rw [nGbk_eq, column, row]
    split
    · split <;> omega
    · split <;> omega

theorem nGbk_mono {n m : Nat} (le : n ≤ m) (small : m < 126 * 190) : nGbk n ≤ nGbk m ∧ nGbk m < 2 ^ 16 := by
  rw [nGbk_eq, nGbk_eq]
  split
  · split <;> omega
  · split <;> omega

theorem packed_bytes {a b c d : Nat} (bSmall : b < 256) (cSmall : c < 256) (dSmall : d < 256) (aSmall : a < 256) :
    (a * 2 ^ 24 + b * 2 ^ 16 + c * 2 ^ 8 + d) / 2 ^ 24 % 256 = a ∧
      (a * 2 ^ 24 + b * 2 ^ 16 + c * 2 ^ 8 + d) / 2 ^ 16 % 256 = b ∧
        (a * 2 ^ 24 + b * 2 ^ 16 + c * 2 ^ 8 + d) / 2 ^ 8 % 256 = c ∧
          (a * 2 ^ 24 + b * 2 ^ 16 + c * 2 ^ 8 + d) % 256 = d := by
  omega

structure Digits (n a b c d : Nat) : Prop where
  value : n = ((a * 10 + b) * 126 + c) * 10 + d
  aSmall : a < 126
  bSmall : b < 10
  cSmall : c < 126
  dSmall : d < 10

theorem digits_exist {n : Nat} (small : n < 126 * 12600) : ∃ a b c d, Digits n a b c d ∧
    nGb18030 n = (a + 0x81) * 2 ^ 24 + (b + 0x30) * 2 ^ 16 + (c + 0x81) * 2 ^ 8 + (d + 0x30) := by
  have first := Nat.div_add_mod n 10
  have second := Nat.div_add_mod (n / 10) 126
  have third := Nat.div_add_mod (n / 10 / 126) 10
  have bSmall := Nat.mod_lt (n / 10 / 126) (by decide : 0 < 10)
  have cSmall := Nat.mod_lt (n / 10) (by decide : 0 < 126)
  have dSmall := Nat.mod_lt n (by decide : 0 < 10)
  refine ⟨n / 10 / 126 / 10, n / 10 / 126 % 10, n / 10 % 126, n % 10, ⟨by omega, by omega, bSmall, cSmall, dSmall⟩, ?_⟩
  have aSmall : n / 10 / 126 / 10 < 126 := by omega
  rw [nGb18030]
  generalize n / 10 / 126 / 10 = a at *
  generalize n / 10 / 126 % 10 = b at *
  generalize n / 10 % 126 = c at *
  generalize n % 10 = d at *
  clear first second third
  omega

theorem gb18030N_nGb18030 {n : Nat} (small : n < 126 * 12600) : gb18030N (nGb18030 n) = n := by
  obtain ⟨a, b, c, d, digits, size⟩ := digits_exist small
  obtain ⟨value, aSmall, bSmall, cSmall, dSmall⟩ := digits
  obtain ⟨first, second, third, fourth⟩ := @packed_bytes (a + 0x81) (b + 0x30) (c + 0x81) (d + 0x30)
    (by omega) (by omega) (by omega) (by omega)
  rw [gb18030N, size, first, second, third, fourth]
  clear first second third fourth size
  omega

theorem nGb18030_mono {n m : Nat} (le : n ≤ m) (small : m < 126 * 12600) : nGb18030 n ≤ nGb18030 m := by
  obtain ⟨a, b, c, d, ⟨value, -, bSmall, cSmall, dSmall⟩, size⟩ := digits_exist (Nat.lt_of_le_of_lt le small)
  obtain ⟨a', b', c', d', ⟨value', -, bSmall', cSmall', dSmall'⟩, size'⟩ := digits_exist small
  rw [size, size']
  clear size size'
  by_cases first : a < a'
  · omega
  · obtain rfl : a = a' := by omega
    by_cases second : b < b'
    · omega
    · obtain rfl : b = b' := by omega
      by_cases third : c < c'
      · omega
      · omega

theorem u32_nat {n : Nat} (small : n < 2 ^ 32) : u32 n = n := by
  rw [u32]
  omega

/-! The way there and back. -/

section RoundTrip

variable (asUcs : Bool) (ucsToCcs : Nat → Nat) (anyToUcs : Wchar → Nat)

theorem gb18030Ccs_set (ucs : Nat) : ccsSet (gb18030Ccs asUcs ucsToCcs ucs) = ccsGb18030 := by
  cases asUcs with
  | false =>
      rw [gb18030Ccs, if_neg Bool.false_ne_true]
      decide
  | true =>
      have other : ucsToCcs ucs &&& 0xFFFF0000 &&& 0xFFFF = 0 := by
        rw [Nat.and_assoc]
        exact Nat.and_zero _
      rw [gb18030Ccs, if_pos rfl, ccsSet, ccsSetMask, Nat.and_or_distrib_right, other]
      rfl

theorem gb18030ToUcs_ucs2 {ccs n : Nat} {i : Int} {m : Map3} (set : ccsSet ccs = ccsGb18030) (small : n < 39420)
    (found : rowSearch ucsGb18030Map n = some i) (here : rowAt ucsGb18030Map i = some m) :
    gb18030ToUcs anyToUcs ⟨ccs, nGb18030 n⟩ = some (u32 (m.code + n - m.code3)) := by
  have low : gb18030Ucs2 ≤ nGb18030 n := nGb18030_mono (Nat.zero_le n) (by omega)
  have high : nGb18030 n ≤ gb18030Ucs2End := @nGb18030_mono n 39419 (by omega) (by omega)
  have number : u32 (gb18030N (nGb18030 n) - gb18030N gb18030Ucs2) = n := by
    rw [gb18030N_nGb18030 (by omega), show gb18030N gb18030Ucs2 = 0 from rfl, Int.sub_zero, u32_nat (by omega)]
  rw [gb18030ToUcs, set, if_neg (by decide), if_neg (by decide), if_pos rfl, if_pos ⟨low, high⟩, number]
  dsimp only
  rw [found]
  dsimp only
  rw [here, Option.map_some]

theorem gb18030ToUcs_ucs4 {ccs n : Nat} (set : ccsSet ccs = ccsGb18030) (least : 189000 ≤ n) (small : n ≤ 1237575) :
    gb18030ToUcs anyToUcs ⟨ccs, nGb18030 n⟩ = some (n - 189000 + 0x10000) := by
  have low : gb18030Ucs4 ≤ nGb18030 n := @nGb18030_mono 189000 n least (by omega)
  have high : nGb18030 n ≤ gb18030Ucs4End := @nGb18030_mono n 1237575 small (by omega)
  have number : u32 (gb18030N (nGb18030 n) - gb18030N gb18030Ucs4 + 0x10000) = n - 189000 + 0x10000 := by
    rw [gb18030N_nGb18030 (by omega), show gb18030N gb18030Ucs4 = 189000 from rfl, u32]
    omega
  have behind : ¬ nGb18030 n ≤ gb18030Ucs2End := by
    rw [gb18030Ucs4] at low
    rw [gb18030Ucs2End]
    omega
  rw [gb18030ToUcs, set, if_neg (by decide), if_neg (by decide), if_pos rfl, if_neg fun both => behind both.2,
    if_pos ⟨low, high⟩, number]

theorem gb18030ToUcs_gbkExt {code : Nat} {back : Map3} (found : rangeSearch (code % 2 ^ 16) gbkExtUcsMap = some back) :
    gb18030ToUcs anyToUcs ⟨ccsGbkExt, code⟩ = some (u32 (back.code3 + gbkN code - gbkN back.code2)) := by
  have set : ccsSet ccsGbkExt = ccsGbkExt := by decide
  have others : ¬ (ccsSet ccsGbkExt = ccsGbkExt_1 ∨ ccsSet ccsGbkExt = ccsGbkExt_2) := by decide
  rw [gb18030ToUcs, if_neg others, if_pos set, gbkExtToUcs, found]

/-- A code of two bytes comes back as many codes too low as its row has behind its first one. -/
theorem gbkExtToUcs_row {m : Map3} (member : m ∈ ucsGbkExtMap) {ucs : Nat} (low : m.code ≤ ucs) (high : ucs ≤ m.code2) :
    gb18030ToUcs anyToUcs ⟨ccsGbkExt, nGbk (u32 (gbkN m.code3 + ucs - m.code))⟩ =
      some (u32 (ucs - (m.code2 - m.code : Nat))) := by
  obtain ⟨back, backMember, mirror⟩ := ucsGbkExtMap_mirrored m member
  obtain ⟨start, target, ⟨firstCode, lastCode⟩, length, filled, short⟩ := mirror
  obtain ⟨number, -, first⟩ := gbkN_place firstCode
  obtain ⟨number', small, last⟩ := gbkN_place lastCode
  obtain ⟨k, offset⟩ : ∃ k, ucs = m.code + k := ⟨ucs - m.code, by omega⟩
  rw [length] at number' small last
  generalize gbkPlace back.code = n at *
  have code : u32 (gbkN m.code3 + ucs - m.code) = n + k := by
    rw [← start, number, u32]
    omega
  obtain ⟨lowCode, -⟩ := @nGbk_mono n (n + k) (Nat.le_add_right n k) (by omega)
  obtain ⟨highCode, word⟩ := @nGbk_mono (n + k) (n + (m.code2 - m.code)) (by omega) (by omega)
  have found : rangeSearch (nGbk (n + k) % 2 ^ 16) gbkExtUcsMap = some back := by
    rw [Nat.mod_eq_of_lt (by omega)]
    exact rangeSearch_mem gbkExtUcsMap_sorted backMember (by omega) (by omega)
  rw [code, gb18030ToUcs_gbkExt anyToUcs found, gbkN_nGbk (by omega), number', target, offset]
  refine congrArg some (congrArg u32 ?_)
  omega

theorem gb18030ToUcs_row {m : Map3} (member : m ∈ ucsGb18030Map) {ccs ucs : Nat} (set : ccsSet ccs = ccsGb18030)
    (low : m.code ≤ ucs) (high : ucs ≤ m.code2) :
    gb18030ToUcs anyToUcs ⟨ccs, nGb18030 (u32 (m.code3 + ucs - m.code + gb18030N gb18030Ucs2))⟩ = some ucs := by
  obtain ⟨filled, short, small⟩ := ucsGb18030Map_filled m member
  have code : u32 (m.code3 + ucs - m.code + gb18030N gb18030Ucs2) = m.code3 + (ucs - m.code) := by
    rw [show gb18030N gb18030Ucs2 = 0 from rfl, u32]
    omega
  obtain ⟨k, here⟩ := List.getElem?_of_mem member
  obtain ⟨i, found, last⟩ := @rowSearch_lastRow _ ucsGb18030Map_increasing (m.code3 + (ucs - m.code)) _ rfl (Nat.zero_le _)
  obtain rfl := lastRow_eq ucsGb18030Map_increasing last here (by omega) (by omega)
  rw [code, gb18030ToUcs_ucs2 anyToUcs set (by omega) found ((rowAt_nat _ _).trans here)]
  refine congrArg some ?_
  rw [u32]
  omega

/-- A character comes back where its row in the table of two bytes has one code. -/
theorem roundTrip_iff (ucs : Nat) (known : (ucsToGb18030 asUcs ucsToCcs ucs).ccs ≠ ccsUnknown) :
    gb18030ToUcs anyToUcs (ucsToGb18030 asUcs ucsToCcs ucs) = some ucs ↔
      ∀ m, ucs ≤ 0xFFFF → rangeSearch ucs ucsGbkExtMap = some m → m.code = m.code2 := by
  rw [ucsToGb18030] at known ⊢
  by_cases small : ucs ≤ 0xFFFF
  · rw [if_pos small] at known ⊢
    cases found : rangeSearch ucs ucsGbkExtMap with
    | some m =>
        obtain ⟨member, low, high⟩ := rangeSearch_some found
        obtain ⟨back, -, mirror⟩ := ucsGbkExtMap_mirrored m member
        have filled := mirror.filled
        rw [gbkExtToUcs_row anyToUcs member low high, Option.some.injEq]
        constructor
        · intro same other _ other'
          obtain rfl := Option.some.inj other'
          rw [u32] at same
          omega
        · intro one
          rw [one m small rfl, Nat.sub_self, u32]
          omega
    | none =>
        cases found' : rangeSearch ucs ucsGb18030Map with
        | none =>
            rw [found, found'] at known
            exact absurd rfl known
        | some m =>
            obtain ⟨member, low, high⟩ := rangeSearch_some found'
            have back := gb18030ToUcs_row anyToUcs member (gb18030Ccs_set asUcs ucsToCcs ucs) low high
            exact ⟨fun _ other _ nothing => absurd nothing (by simp), fun _ => back⟩
  · rw [if_neg small] at known ⊢
    by_cases inside : ucs ≤ 0x10FFFF
    · have code : u32 (ucs - 0x10000 + gb18030N gb18030Ucs4) = ucs - 0x10000 + 189000 := by
        rw [show gb18030N gb18030Ucs4 = 189000 from rfl, u32]
        omega
      rw [if_pos inside, code, gb18030ToUcs_ucs4 anyToUcs (gb18030Ccs_set asUcs ucsToCcs ucs) (by omega) (by omega)]
      refine ⟨fun _ m less => absurd less small, fun _ => congrArg some ?_⟩
      omega
    · rw [if_neg inside] at known
      exact absurd rfl known

theorem gb18030ToUcs_inside (cc : Wchar) : ∃ ucs, gb18030ToUcs anyToUcs cc = some ucs := by
  rw [gb18030ToUcs]
  dsimp only
  split
  · exact ⟨_, rfl⟩
  · split
    · exact ⟨_, rfl⟩
    · split
      · split
        · obtain ⟨i, found, ⟨m, here, -⟩, -⟩ := @rowSearch_lastRow _ ucsGb18030Map_increasing
            (u32 (gb18030N cc.code - gb18030N gb18030Ucs2)) _ rfl (Nat.zero_le _)
          have row := (rowAt_nat ucsGb18030Map i).trans here
          rw [found]
          dsimp only
          rw [row]
          exact ⟨_, rfl⟩
        · split
          · exact ⟨_, rfl⟩
          · exact ⟨_, rfl⟩
      · exact ⟨_, rfl⟩

theorem ucsToGb18030_unknown {ucs : Nat} (unknown : (ucsToGb18030 asUcs ucsToCcs ucs).ccs = ccsUnknown)
    (small : ucs ≤ 0xFFFF) : rangeSearch ucs ucsGbkExtMap = none := by
  rw [ucsToGb18030, if_pos small] at unknown
  cases found : rangeSearch ucs ucsGbkExtMap with
  | none => rfl
  | some m =>
      rw [found] at unknown
      have same : ccsGbkExt = ccsUnknown := unknown
      exact absurd same (by decide)

/-- The rows of two bytes that have more than one code are the ones that do not come back. -/
theorem gb18030_corresponds_iff :
    (∀ ucs, ((ucsToGb18030 asUcs ucsToCcs ucs).ccs ≠ ccsUnknown →
        gb18030ToUcs anyToUcs (ucsToGb18030 asUcs ucsToCcs ucs) = some ucs) ↔
          ∀ m, ucs ≤ 0xFFFF → rangeSearch ucs ucsGbkExtMap = some m → m.code = m.code2) ∧
      ∀ cc, ∃ ucs, gb18030ToUcs anyToUcs cc = some ucs := by
  refine ⟨fun ucs => ?_, gb18030ToUcs_inside anyToUcs⟩
  by_cases unknown : (ucsToGb18030 asUcs ucsToCcs ucs).ccs = ccsUnknown
  · refine ⟨fun _ m small found => ?_, fun _ known => absurd unknown known⟩
    rw [ucsToGb18030_unknown asUcs ucsToCcs unknown small] at found
    exact absurd found (by simp)
  · have iff := roundTrip_iff asUcs ucsToCcs anyToUcs ucs unknown
    exact ⟨fun back => iff.mp (back unknown), fun one _ => iff.mpr one⟩

end RoundTrip

/-- U+E000 goes to 0xAAA1 and comes back as U+DFA3. -/
theorem gb18030_privateUse :
    ¬ ∀ ucs, ucs ≤ 0x10FFFF → ¬ (0xD800 ≤ ucs ∧ ucs ≤ 0xDFFF) → (ucsToGb18030 false id ucs).ccs ≠ ccsUnknown →
      gb18030ToUcs Wchar.code (ucsToGb18030 false id ucs) = some ucs := by
  intro all
  have known : (ucsToGb18030 false id 0xE000).ccs ≠ ccsUnknown := by decide +kernel
  have other : gb18030ToUcs Wchar.code (ucsToGb18030 false id 0xE000) ≠ some 0xE000 := by decide +kernel
  exact other (all 0xE000 (by decide) (by decide) known)

end KcnTools.Libwc
