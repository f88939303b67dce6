import KcnTools.Intl.ConvertString
import KcnTools.Intl.TranslationTrie

/-!
What `convert_string` makes of UTF-8 with a table of `add_utf_8`. Where the tables end before the
encoding does, a replacement stands for the bytes so far and one for each byte behind them.
-/

namespace KcnTools.Intl

open Protocols

section

variable (tables : CharsetTables) (qsort : List EntityCacheEntry → List EntityCacheEntry) (table : ConvTable)
  (cp : Nat) (behind : UInt8) (cache : EntityCache)

def translatedText (text : List UInt8) : List UInt8 :=
  (convertedText tables qsort (some table) cp .none behind cache text).2

theorem translatedText_low {c : UInt8} (low : c < 128) (rest : List UInt8) :
    translatedText tables qsort table cp behind cache (c :: rest) =
      c :: translatedText tables qsort table cp behind cache rest := by
  have copied : convertNext tables qsort (some table) cp .none behind cache c rest = (cache, none) := by
    rw [convertNext]
    split
    · rfl
    · rw [if_pos (.inr rfl)]
  rw [translatedText, convertedText, convertStep, copied]
  rfl

theorem translatedText_high {c : UInt8} (high : 128 ≤ c) {rest found : List UInt8} {consumed : Nat}
    (walked : walkTable table (c :: rest) = some (found, consumed + 1)) :
    translatedText tables qsort table cp behind cache (c :: rest) =
      found ++ translatedText tables qsort table cp behind cache (rest.drop consumed) := by
  have other : c ≠ 38 := by
    rintro rfl
    exact absurd high (by decide)
  have next : convertNext tables qsort (some table) cp .none behind cache c rest =
      (cache, some (found, consumed + 1)) := by
    rw [convertNext, if_pos other, if_neg (UInt8.not_lt.mpr high), Option.bind_some, walked]
  rw [translatedText, convertedText, convertStep, next]
  rfl

variable {table} (shaped : TableShaped table)

include shaped

theorem translatedText_stray {c : UInt8} (high : 128 ≤ c) (alone : following c = 0) (rest : List UInt8) :
    translatedText tables qsort table cp behind cache (c :: rest) =
      42 :: translatedText tables qsort table cp behind cache rest := by
  have default := shaped c high
  rw [if_pos alone] at default
  have walked : walkTable table (c :: rest) = some ([42], 0 + 1) := by
    rw [walkTable, default]
    rfl
  exact translatedText_high tables qsort table cp behind cache high walked

theorem translatedText_strays {word : List UInt8} (continues : ∀ c ∈ word, isContinuation c) (rest : List UInt8) :
    translatedText tables qsort table cp behind cache (word ++ rest) =
      List.replicate word.length 42 ++ translatedText tables qsort table cp behind cache rest := by
  induction word with
  | nil => rfl
  | cons c word ih =>
      obtain ⟨high, low⟩ := continues c List.mem_cons_self
      rw [List.cons_append, translatedText_stray tables qsort cp behind cache shaped high (if_pos low),
        ih fun other member => continues other (List.mem_cons_of_mem c member)]
      rfl

omit shaped

theorem walkTable_entry {word : List UInt8} (continues : ∀ c ∈ word, isContinuation c) {table : ConvTable}
    {c : UInt8} (shaped : EntryShaped word.length (table c)) (rest : List UInt8) :
    walkTable table (c :: (word ++ rest)) =
      some (entryText (storedString (table c) word), tableCount (table c) word + 1) := by
  induction word generalizing table c with
  | nil =>
      obtain ⟨str, here⟩ := shaped
      rw [walkTable, here]
      rfl
  | cons d word ih =>
      rcases shaped with here | ⟨deeper, here, shaped⟩
      · rw [walkTable, here]
        rfl
      · rw [walkTable, here]
        dsimp only
        rw [List.cons_append, ih (fun other member => continues other (List.mem_cons_of_mem d member))
          (shaped d (continues d List.mem_cons_self))]
        rfl

theorem tableCount_le (entry : ConvEntry) (word : List UInt8) : tableCount entry word ≤ word.length := by
  induction word generalizing entry with
  | nil => cases entry <;> exact Nat.le_refl 0
  | cons c word ih =>
      cases entry with
      | str => exact Nat.zero_le _
      | tbl table => exact Nat.succ_le_succ (ih (table c))

theorem tableCount_stored {entry : ConvEntry} {word found : List UInt8}
    (stored : storedString entry word = some found) : tableCount entry word = word.length := by
  induction word generalizing entry with
  | nil => cases entry <;> rfl
  | cons c word ih =>
      cases entry with
      | str => cases stored
      | tbl table => exact congrArg (· + 1) (ih stored)

include shaped

theorem translatedText_sequence {lead : UInt8} (high : 128 ≤ lead) {word : List UInt8}
    (follows : following lead = word.length) (several : word ≠ []) (continues : ∀ c ∈ word, isContinuation c)
    (rest : List UInt8) :
    translatedText tables qsort table cp behind cache (lead :: (word ++ rest)) =
      entryText (storedString (table lead) word) ++
        List.replicate (word.length - tableCount (table lead) word) 42 ++
        translatedText tables qsort table cp behind cache rest := by
  have here := shaped lead high
  rw [follows, if_neg (fun nothing => several (List.eq_nil_of_length_eq_zero nothing))] at here
  rw [translatedText_high tables qsort table cp behind cache high (walkTable_entry continues here rest),
    List.drop_append_of_le_length (tableCount_le _ _),
    translatedText_strays tables qsort cp behind cache shaped
      (fun c member => continues c (List.mem_of_mem_drop member)), List.length_drop, List.append_assoc]

inductive Complete : List UInt8 → Prop
  | nil : Complete []
  | item {lead : UInt8} {word rest : List UInt8} : following lead = word.length →
      (∀ c ∈ word, isContinuation c) → Complete rest → Complete (lead :: (word ++ rest))

theorem translatedText_append {front : List UInt8} (complete : Complete front) (back : List UInt8) :
    translatedText tables qsort table cp behind cache (front ++ back) =
      translatedText tables qsort table cp behind cache front ++
        translatedText tables qsort table cp behind cache back := by
  induction complete with
  | nil =>
      rw [translatedText, translatedText, convertedText]
      rfl
  | @item lead word rest follows continues _ ih =>
      rw [List.cons_append, List.append_assoc]
      by_cases several : word = []
      · subst several
        rw [List.nil_append, List.nil_append]
        by_cases low : lead < 128
        · rw [translatedText_low _ _ _ _ _ _ low, translatedText_low _ _ _ _ _ _ low, ih, List.cons_append]
        · have high := UInt8.not_lt.mp low
          rw [translatedText_stray _ _ _ _ _ shaped high follows, translatedText_stray _ _ _ _ _ shaped high follows,
            ih, List.cons_append]
      · have high : 128 ≤ lead := by
          by_contra low
          rw [following, if_pos (UInt8.lt_trans (UInt8.not_le.mp low) (by decide))] at follows
          exact several (List.eq_nil_of_length_eq_zero follows.symm)
        rw [translatedText_sequence _ _ _ _ _ shaped high follows several continues,
          translatedText_sequence _ _ _ _ _ shaped high follows several continues, ih, ← List.append_assoc]

theorem translatedText_encodeUtf8 {v : Nat} (encodable : Encodable v) :
    translatedText tables qsort table cp behind cache (encodeUtf8 v) =
      match codeString table v with
      | some found => cString found
      | none => List.replicate ((encodeUtf8 v).length - codeTables table v) 42 := by
  obtain ⟨lead, count, encoded⟩ := encodeUtf8_spec encodable
  have length := utf8Tail_length count v
  have several : utf8Tail count v ≠ [] := by
    intro nothing
    rw [nothing] at length
    exact Nat.ne_of_gt encoded.several length.symm
  have sequence := translatedText_sequence tables qsort cp behind cache shaped encoded.high
    (encoded.follows.trans length.symm) several (fun c member => isContinuation_tail member) []
  have ended : translatedText tables qsort table cp behind cache [] = [] := by
    rw [translatedText, convertedText]
  rw [List.append_nil, ended, List.append_nil] at sequence
  rw [codeString, codeTables, encoded.bytes]
  dsimp only
  rw [sequence, List.length_cons]
  cases stored : storedString (table lead) (utf8Tail count v) with
  | none =>
      have few := tableCount_le (table lead) (utf8Tail count v)
      rw [Nat.succ_sub few]
      rfl
  | some found =>
      rw [tableCount_stored stored, Nat.sub_self, List.replicate_zero, List.append_nil]
      rfl

omit shaped

end

def convertedBy (tables : CharsetTables) (qsort : List EntityCacheEntry → List EntityCacheEntry) (table : ConvTable)
    (cp : Nat) (behind : UInt8) (cache : EntityCache) (chars : List UInt8) : Option (List UInt8) :=
  (convertString tables qsort (some table) chars behind cp .none 0 false cache).bind Converted.returned

theorem convertedBy_eq (tables : CharsetTables) (qsort : List EntityCacheEntry → List EntityCacheEntry)
    (table : ConvTable) (cp : Nat) (behind : UInt8) (cache : EntityCache) (chars : List UInt8) :
    convertedBy tables qsort table cp behind cache chars =
      some (translatedText tables qsort table cp behind cache chars) := by
  obtain ⟨whole, ran, -, returned, -⟩ :=
    convertString_whole tables qsort (some table) cp .none behind chars 0 cache
  rw [convertedBy, ran]
  exact returned

/-- No assertion fails, every code point has the first string it was given or replacements, and
other bytes are copied. -/
theorem addUtf8_exact (calls : List (Nat × Option (List UInt8))) (encodable : ∀ call ∈ calls, Encodable call.1)
    (tables : CharsetTables) (qsort : List EntityCacheEntry → List EntityCacheEntry) (cp : Nat) (behind : UInt8)
    (cache : EntityCache) :
    ∃ table, addAll newTranslationTable calls = some table ∧
      (∀ v, Encodable v →
        convertedBy tables qsort table cp behind cache (encodeUtf8 v) =
          some (match firstString calls v with
            | some found => cString found
            | none => List.replicate ((encodeUtf8 v).length - sharedWithAny calls v) 42)) ∧
      ∀ front, Complete front → ∀ c < 128, ∀ back,
        ∃ first second, convertedBy tables qsort table cp behind cache front = some first ∧
          convertedBy tables qsort table cp behind cache back = some second ∧
          convertedBy tables qsort table cp behind cache (front ++ c :: back) = some (first ++ c :: second) := by
  obtain ⟨table, ran, shaped, strings⟩ := addAll_spec tableShaped_new encodable
  refine ⟨table, ran, fun v inside => ?_, fun front complete c low back => ?_⟩
  · obtain ⟨nothing, none⟩ := codeString_new v inside
    obtain ⟨string, count⟩ := strings v inside
    rw [nothing, Option.none_or] at string
    rw [none, Nat.zero_max] at count
    rw [convertedBy_eq, translatedText_encodeUtf8 tables qsort cp behind cache shaped inside, string, count]
  · refine ⟨_, _, convertedBy_eq _ _ _ _ _ _ _, convertedBy_eq _ _ _ _ _ _ _, ?_⟩
    rw [convertedBy_eq, translatedText_append tables qsort cp behind cache shaped complete,
      translatedText_low _ _ _ _ _ _ low]

/-- The first string of U+00E9 stays, and the euro sign is written with three letters. -/
theorem addUtf8_exact_euro :
    ∃ table, addAll newTranslationTable [(0xe9, some [0xe9]), (0x20ac, some [69, 85, 82]), (0xe9, some [101])] =
        some table ∧
      convertedBy noTables sortByHits table 0 0 emptyEntityCache (encodeUtf8 0xe9 ++ 65 :: encodeUtf8 0x20ac) =
        some [0xe9, 65, 69, 85, 82] := by
  obtain ⟨table, ran, strings, copies⟩ :=
    addUtf8_exact [(0xe9, some [0xe9]), (0x20ac, some [69, 85, 82]), (0xe9, some [101])]
    (fun call member => by
      simp only [List.mem_cons, List.not_mem_nil, or_false] at member
      rcases member with rfl | rfl | rfl <;> exact ⟨by decide, by decide⟩)
    noTables sortByHits 0 0 emptyEntityCache
  have complete : Complete (encodeUtf8 0xe9) := by
    refine @Complete.item 0xc3 [0xa9] [] (by decide) (fun c member => ?_) .nil
    rw [List.mem_singleton.mp member]
    exact ⟨by decide, by decide⟩
  obtain ⟨first, second, front, back, all⟩ := copies (encodeUtf8 0xe9) complete 65 (by decide) (encodeUtf8 0x20ac)
  rw [strings 0xe9 ⟨by decide, by decide⟩] at front
  rw [strings 0x20ac ⟨by decide, by decide⟩] at back
  refine ⟨table, ran, ?_⟩
  rw [all, ← Option.some.inj front, ← Option.some.inj back]
  rfl

/-- On a new table U+0080 becomes two replacements. -/
theorem addUtf8_none_twice :
    addAll newTranslationTable [] = some newTranslationTable ∧ encodeUtf8 0x80 = [0xc2, 0x80] ∧
      convertedBy noTables sortByHits newTranslationTable 0 0 emptyEntityCache (encodeUtf8 0x80) = some [42, 42] := by
  refine ⟨rfl, ?_, ?_⟩
  · decide
  · decide +kernel

end KcnTools.Intl
