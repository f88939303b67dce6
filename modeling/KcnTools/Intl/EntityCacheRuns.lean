import KcnTools.Intl.EntityCache

/-!
When the entity cache can be seen. Table 0 has the entities of one byte together with the long
ones, and a search for one byte looks at the first byte of an entry only.
-/

namespace KcnTools.Intl

open Protocols

variable {tables : CharsetTables} {qsort : List EntityCacheEntry → List EntityCacheEntry}
  {cache : EntityCache} {str : List UInt8} {encoding : Nat} {entry : EntityCacheEntry}

structure EntryOk (tables : CharsetTables) (slot : Nat) (entry : EntityCacheEntry) : Prop where
  slot : slot = entitySlot entry.str
  nonempty : entry.str ≠ []
  result : entry.result = entityString tables entry.str entry.encoding

def CacheOk (tables : CharsetTables) (cache : EntityCache) : Prop :=
  ∀ slot, ∀ entry ∈ cache slot, EntryOk tables slot entry

def FirstFits (tables : CharsetTables) (cache : EntityCache) (str : List UInt8) (encoding : Nat) : Prop :=
  str.length = 1 → ∀ entry, (cache 0).find? (entityMatches str encoding) = some entry →
    entry.str.length = 1 ∨ entityString tables entry.str encoding = entityString tables str encoding

theorem CacheOk.setTable (ok : CacheOk tables cache) {slot : Nat} {table : List EntityCacheEntry}
    (tableOk : ∀ entry ∈ table, EntryOk tables slot entry) : CacheOk tables (cache.setTable slot table) := by
  intro other entry member
  rw [EntityCache.setTable] at member
  split at member
  next same =>
    rw [same]
    exact tableOk entry member
  next => exact ok other entry member

theorem mem_addEntity {table : List EntityCacheEntry} {added : EntityCacheEntry}
    (member : entry ∈ addEntity table added) : entry ∈ table ∨ entry = added := by
  rw [addEntity, List.mem_append, List.mem_singleton] at member
  rcases member with older | same
  · split at older
    · exact .inl older
    · exact .inl ((List.dropLast_subset table) older)
  · exact .inr same

theorem getEntityString_ok (sorts : ∀ table, (qsort table).Perm table) (ok : CacheOk tables cache)
    (str : List UInt8) (encoding : Nat) :
    CacheOk tables (getEntityString tables qsort cache str encoding).1 := by
  rw [getEntityString]
  split
  · exact ok
  next nonempty =>
    simp only
    split
    next index _ =>
      apply ok.setTable
      intro entry member
      obtain ⟨place, there⟩ := List.mem_iff_getElem?.mp member
      rw [List.getElem?_modify] at there
      obtain ⟨before, old, rfl⟩ := Option.map_eq_some_iff.mp there
      have good := ok _ before (List.mem_of_getElem? old)
      split
      · exact ⟨good.slot, good.nonempty, good.result⟩
      · exact good
    next =>
      split
      · apply ok.setTable
        intro entry member
        rcases mem_addEntity member with older | rfl
        · split at older
          · exact ok _ entry ((sorts _).mem_iff.mp older)
          · exact ok _ entry older
        · exact ⟨rfl, nonempty, rfl⟩
      · exact ok

theorem EntryOk.matches_exact (ok : EntryOk tables (entitySlot str) entry)
    (found : entityMatches str encoding entry = true) (short : str.length < entityCacheMaxlen)
    (nonempty : str ≠ []) (several : str.length ≠ 1 ∨ entry.str.length = 1) :
    entry.str = str ∧ entry.encoding = encoding := by
  rw [entityMatches, Bool.and_eq_true, decide_eq_true_eq, decide_eq_true_eq] at found
  have positive := List.length_pos_iff.mpr nonempty
  have slots := ok.slot
  have same : entry.str.length = str.length := by
    rw [entitySlot, entitySlot] at slots
    rcases several with many | one
    · rw [if_pos ⟨by omega, short⟩] at slots
      split at slots
      · omega
      · omega
    · rw [if_neg (show ¬ (1 < entry.str.length ∧ _) by omega)] at slots
      split at slots
      · omega
      · omega
  refine ⟨?_, found.1⟩
  rw [← same, List.take_length] at found
  exact found.2

theorem getEntityString_empty (tables : CharsetTables) (qsort : List EntityCacheEntry → List EntityCacheEntry)
    (encoding : Nat) (nonempty : str ≠ []) :
    (getEntityString tables qsort emptyEntityCache str encoding).2 = entityString tables str encoding := by
  rw [getEntityString, if_neg nonempty]
  simp only [emptyEntityCache, List.findIdx?_nil, ite_self]
  split <;> rfl

theorem getEntityString_eq_iff (ok : CacheOk tables cache) (nonempty : str ≠ []) :
    (getEntityString tables qsort cache str encoding).2 = entityString tables str encoding ↔
      FirstFits tables cache str encoding := by
  rw [getEntityString, if_neg nonempty]
  simp only
  by_cases short : str.length < entityCacheMaxlen
  · rw [if_pos short]
    cases found : (cache (entitySlot str)).findIdx? (entityMatches str encoding) with
    | none =>
        simp only
        have nothing : FirstFits tables cache str encoding := by
          intro one entry first
          have slot : entitySlot str = 0 := by
            rw [entitySlot, if_neg]
            omega
          rw [slot, List.findIdx?_eq_none_iff] at found
          have apart := found entry (List.mem_of_find?_eq_some first)
          rw [List.find?_some first] at apart
          cases apart
        split
        · exact iff_of_true rfl nothing
        · exact iff_of_true rfl nothing
    | some index =>
        obtain ⟨inRange, matching, before⟩ := List.findIdx?_eq_some_iff_getElem.mp found
        generalize entryEq : (cache (entitySlot str))[index] = entry at matching
        have good := ok _ entry (entryEq ▸ List.getElem_mem inRange)
        have chosen : ((cache (entitySlot str)).map EntityCacheEntry.result).getD index none =
            entityString tables entry.str encoding := by
          have sameEncoding : entry.encoding = encoding := by
            rw [entityMatches, Bool.and_eq_true, decide_eq_true_eq] at matching
            exact matching.1
          rw [List.getD_eq_getElem?_getD, List.getElem?_map, List.getElem?_eq_getElem inRange, entryEq]
          rw [← sameEncoding, ← good.result]
          rfl
        simp only [chosen]
        by_cases one : str.length = 1
        · have slot : entitySlot str = 0 := by
            rw [entitySlot, if_neg]
            omega
          have first : (cache 0).find? (entityMatches str encoding) = some entry := by
            rw [List.find?_eq_some_iff_getElem]
            rw [slot] at inRange
            refine ⟨matching, index, inRange, ?_, ?_⟩
            · rw [← entryEq]
              congr 1
              rw [slot]
            · intro j earlier
              have other := before j earlier
              rw [Bool.not_eq_true] at other
              rw [Bool.not_eq_true', ← other]
              congr 2
              rw [slot]
          constructor
          · intro same _ other firstOther
            rw [first, Option.some.injEq] at firstOther
            subst firstOther
            exact .inr same
          · intro fits
            rcases fits one entry first with single | same
            · rw [(good.matches_exact matching short nonempty (.inr single)).1]
            · exact same
        · refine iff_of_true ?_ fun impossible => absurd impossible one
          rw [(good.matches_exact matching short nonempty (.inl one)).1]
  · rw [if_neg short]
    simp only
    have long : FirstFits tables cache str encoding := by
      intro one
      rw [one] at short
      exact absurd (by decide) short
    split
    · exact iff_of_true rfl long
    · exact iff_of_true rfl long

def cacheAfter (tables : CharsetTables) (qsort : List EntityCacheEntry → List EntityCacheEntry)
    (calls : List (List UInt8 × Nat)) : EntityCache :=
  calls.foldl (fun cache call => (getEntityString tables qsort cache call.1 call.2).1) emptyEntityCache

theorem cacheAfter_ok (sorts : ∀ table, (qsort table).Perm table) (calls : List (List UInt8 × Nat)) :
    CacheOk tables (cacheAfter tables qsort calls) := by
  apply List.foldlRecOn calls
  · intro slot entry member
    cases member
  · intro cache ok call _
    exact getEntityString_ok sorts ok call.1 call.2

/-- After any calls the result is the one of an empty cache, exactly when no longer entity with
another meaning answers for one byte. -/
theorem getEntityString_transparent_iff (tables : CharsetTables)
    (qsort : List EntityCacheEntry → List EntityCacheEntry) (sorts : ∀ table, (qsort table).Perm table)
    (calls : List (List UInt8 × Nat)) (str : List UInt8) (encoding : Nat) :
    (getEntityString tables qsort (cacheAfter tables qsort calls) str encoding).2 =
        (getEntityString tables qsort emptyEntityCache str encoding).2 ↔
      FirstFits tables (cacheAfter tables qsort calls) str encoding := by
  by_cases empty : str = []
  · subst empty
    refine iff_of_true rfl ?_
    intro one
    cases one
  · rw [getEntityString_empty tables qsort encoding empty, getEntityString_eq_iff (cacheAfter_ok sorts calls) empty]

def noTables : CharsetTables := ⟨fun _ => none, fun _ => [], []⟩

def sortByHits (table : List EntityCacheEntry) : List EntityCacheEntry :=
  table.mergeSort fun first second => second.hits ≤ first.hits

/-- `amp` after `amp` and `lt` -/
theorem getEntityString_transparent_iff_amp :
    (getEntityString noTables sortByHits (cacheAfter noTables sortByHits [([97, 109, 112], 0), ([108, 116], 0)])
        [97, 109, 112] 0).2 =
      (getEntityString noTables sortByHits emptyEntityCache [97, 109, 112] 0).2 := by
  refine (getEntityString_transparent_iff noTables sortByHits (fun table => List.mergeSort_perm table _)
    [([97, 109, 112], 0), ([108, 116], 0)] [97, 109, 112] 0).mpr ?_
  intro one
  cases one

/-- `#` after `#00000065` -/
theorem getEntityString_visible :
    (getEntityString noTables sortByHits (cacheAfter noTables sortByHits [([35, 48, 48, 48, 48, 48, 48, 54, 53], 0)])
        [35] 0).2 = some [65] ∧
      (getEntityString noTables sortByHits emptyEntityCache [35] 0).2 = none := by
  decide +kernel

end KcnTools.Intl
