import KcnTools.Intl.ConvertString
import KcnTools.Intl.NumericEntity

/-!
`add_html_to_string` of `util/conv.c` writes characters as numeric entities, and `convert_string`
reads these through the table `strings`.
-/

namespace KcnTools.Intl

open Protocols KcnTools.Decimal

def isHtmlPlain (c : UInt8) : Bool :=
  isalnum c || c = 45 || c = 95 || c = 32 || c = 46 || c = 58 || c = 59

def addHtmlByte (c : UInt8) : List UInt8 :=
  if isHtmlPlain c then [c] else 38 :: 35 :: decimal c.toNat ++ [59]

def addHtmlToString (src : List UInt8) : List UInt8 := src.flatMap addHtmlByte

def readBack (c : UInt8) : UInt8 := if c = 23 ∨ c = 31 then 27 else c

variable {tables : CharsetTables} {qsort : List EntityCacheEntry → List EntityCacheEntry}

theorem isDecimal_decimal (n : Nat) : isDecimal (decimal n) := by
  refine ⟨decimal_ne_nil n, fun c member => ?_⟩
  obtain ⟨low, high⟩ := decimal_digits member
  simp only [isdigit, Bool.and_eq_true, decide_eq_true_eq, UInt8.le_iff_toNat_le]
  exact ⟨low, high⟩

/-- The entity of an ASCII character stands for its string, whatever the cache has. -/
theorem getEntityString_decimal {cache : EntityCache} (ok : CacheOk tables cache) {c : UInt8} (positive : 0 < c)
    (small : c < 128) (cp : Nat) :
    (getEntityString tables qsort cache (35 :: decimal c.toNat) cp).2 = some [readBack c] := by
  have range : c.toNat < 128 := small
  have short := @decimal_length_le c.toNat 2 (by omega)
  have several : FirstFits tables cache (35 :: decimal c.toNat) cp := by
    intro one
    have some_digit := List.length_pos_iff.mpr (decimal_ne_nil c.toNat)
    rw [List.length_cons] at one
    omega
  have digits := isDecimal_decimal c.toNat
  rw [(getEntityString_eq_iff ok (List.cons_ne_nil _ _)).mpr several, entityString,
    numericEntity_decimal digits, if_pos (by omega),
    decimalEntity_below digits.2 (by rw [decimalValue_decimal]; omega), decimalValue_decimal, Option.bind_some,
    u2cp, if_neg (by omega), u2cpPlain, if_pos range, UInt8.ofNat_toNat, byteString, readBack]
  split
  · rfl
  · have nonzero : c ≠ 0 := by
      rintro rfl
      cases positive
    rw [cString, List.takeWhile_cons_of_pos (by simpa using nonzero), List.takeWhile_nil]

theorem takeWhile_decimal (n : Nat) (rest : List UInt8) :
    (35 :: decimal n ++ 59 :: rest).takeWhile isEntityChar = 35 :: decimal n := by
  have digits : ∀ c ∈ 35 :: decimal n, isEntityChar c = true := by
    intro c member
    rcases List.mem_cons.mp member with rfl | digit
    · rfl
    · rw [isEntityChar, (isDecimal_decimal n).2 c digit, Bool.or_true, Bool.true_or]
  rw [List.takeWhile_append_of_pos digits, List.takeWhile_cons_of_neg (by decide), List.append_nil]

theorem convertNext_escaped {cache : EntityCache} (ok : CacheOk tables cache) {c : UInt8} (positive : 0 < c)
    (small : c < 128) (cp : Nat) (behind : UInt8) (rest : List UInt8) :
    convertNext tables qsort none cp .default behind cache 38 (35 :: decimal c.toNat ++ 59 :: rest) =
      ((getEntityString tables qsort cache (35 :: decimal c.toNat) cp).1,
        some ([readBack c], (decimal c.toNat).length + 3)) := by
  have nonzero : readBack c ≠ 0 := by
    rw [readBack]
    split
    · decide
    · rintro rfl
      cases positive
  rw [convertNext, if_neg (by decide), if_neg (by decide), convertEntity]
  dsimp only
  rw [takeWhile_decimal, List.drop_left, List.headD_cons, if_pos ⟨.inl rfl, List.cons_ne_nil _ _, rfl, rfl⟩,
    getEntityString_decimal ok positive small, if_neg (by decide), Option.map_some, cString,
    List.takeWhile_cons_of_pos (by simpa using nonzero), List.takeWhile_nil, List.length_cons, List.length_append,
    List.length_cons, List.length_cons, if_pos (by omega)]

theorem convertedText_addHtml (sorts : ∀ table, (qsort table).Perm table) (cp : Nat) (behind : UInt8)
    {text : List UInt8} (ascii : ∀ c ∈ text, 0 < c ∧ c < 128) {cache : EntityCache} (ok : CacheOk tables cache) :
    (convertedText tables qsort none cp .default behind cache (addHtmlToString text)).2 = text.map readBack := by
  induction text generalizing cache with
  | nil =>
      rw [addHtmlToString, List.flatMap_nil, convertedText]
      rfl
  | cons c text ih =>
      obtain ⟨positive, small⟩ := ascii c List.mem_cons_self
      have later := fun other member => ascii other (List.mem_cons_of_mem c member)
      rw [addHtmlToString, List.flatMap_cons, ← addHtmlToString, addHtmlByte, List.map_cons]
      split
      next plain =>
        have literal : c ≠ 38 := by
          rintro rfl
          cases plain
        have same : readBack c = c := by
          rw [readBack, if_neg]
          rintro (rfl | rfl)
          · cases plain
          · cases plain
        rw [List.singleton_append, convertedText, convertStep,
          convertNext_plain tables qsort cp .default behind rfl cache literal, same]
        dsimp only [Option.getD_none]
        rw [List.drop_zero, ih later ok]
        rfl
      next =>
        have read := @convertNext_escaped tables qsort cache ok c positive small cp behind (addHtmlToString text)
        have whole : 38 :: 35 :: decimal c.toNat ++ [59] ++ addHtmlToString text =
            38 :: (35 :: decimal c.toNat ++ 59 :: addHtmlToString text) := by
          rw [List.append_assoc, List.singleton_append]
          rfl
        have consumed : (35 :: decimal c.toNat ++ 59 :: addHtmlToString text).drop
            ((decimal c.toNat).length + 3 - 1) = addHtmlToString text := by
          rw [List.cons_append]
          exact List.drop_length_add_append 1
        rw [whole, convertedText, convertStep, read]
        dsimp only [Option.getD_some]
        rw [consumed, ih later (getEntityString_ok sorts ok _ _)]
        rfl

theorem map_readBack_iff (text : List UInt8) : text.map readBack = text ↔ 23 ∉ text ∧ 31 ∉ text := by
  have same : ∀ c : UInt8, readBack c = c ↔ 23 ≠ c ∧ 31 ≠ c := by
    intro c
    rw [readBack]
    split
    next changed =>
      rcases changed with rfl | rfl
      · decide
      · decide
    next kept => exact iff_of_true rfl ⟨fun other => kept (.inl other.symm), fun other => kept (.inr other.symm)⟩
  induction text with
  | nil => simp
  | cons c text ih =>
      rw [List.map_cons, List.cons.injEq, List.mem_cons, List.mem_cons, not_or, not_or]
      refine (and_congr (same c) ih).trans ?_
      constructor
      · rintro ⟨⟨first, second⟩, third, fourth⟩
        exact ⟨⟨first, third⟩, second, fourth⟩
      · rintro ⟨⟨first, third⟩, second, fourth⟩
        exact ⟨⟨first, second⟩, third, fourth⟩

/-- Escaped ASCII text comes back in every codepage and after any entities, except for the two
characters that stand wrong in the table. -/
theorem convertString_addHtml_iff (tables : CharsetTables) (qsort : List EntityCacheEntry → List EntityCacheEntry)
    (sorts : ∀ table, (qsort table).Perm table) (calls : List (List UInt8 × Nat)) (cp : Nat) (behind : UInt8)
    (previous : Nat) (text : List UInt8) (ascii : ∀ c ∈ text, 0 < c ∧ c < 128) :
    (∃ whole, convertString tables qsort none (addHtmlToString text) behind cp .default previous false
        (cacheAfter tables qsort calls) = some whole ∧ whole.returned = some text) ↔
      23 ∉ text ∧ 31 ∉ text := by
  obtain ⟨whole, ran, -, returned, -⟩ := convertString_whole tables qsort none cp .default behind
    (addHtmlToString text) previous (cacheAfter tables qsort calls)
  rw [convertedText_addHtml sorts cp behind ascii (cacheAfter_ok sorts calls)] at returned
  rw [← map_readBack_iff]
  constructor
  · rintro ⟨other, ran', same⟩
    rw [ran, Option.some.injEq] at ran'
    subst ran'
    rw [returned, Option.some.injEq] at same
    exact same
  · intro same
    exact ⟨whole, ran, returned.trans (congrArg some same)⟩

/-- `<a&b>` -/
theorem convertString_addHtml_tag :
    (∃ whole, convertString noTables sortByHits none (addHtmlToString (ascii ['<', 'a', '&', 'b', '>'])) 0 0
        .default 0 false (cacheAfter noTables sortByHits []) = some whole ∧
      whole.returned = some (ascii ['<', 'a', '&', 'b', '>'])) ↔
    23 ∉ ascii ['<', 'a', '&', 'b', '>'] ∧ 31 ∉ ascii ['<', 'a', '&', 'b', '>'] :=
  convertString_addHtml_iff noTables sortByHits (fun table => List.mergeSort_perm table _) [] 0 0 0 _ (by decide +kernel)

/-- The character 23 comes back as an escape character. -/
theorem convertString_addHtml_etb :
    addHtmlToString [23] = ascii ['&', '#', '2', '3', ';'] ∧
      (convertString noTables sortByHits none (addHtmlToString [23]) 0 0 .default 0 false emptyEntityCache).map
        Converted.returned = some (some [27]) := by
  decide +kernel

end KcnTools.Intl
