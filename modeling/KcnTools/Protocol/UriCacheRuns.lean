import KcnTools.Cache.CacheDefragment
import KcnTools.Lib.Counting
import KcnTools.Protocol.UriCache
import Mathlib

/-!
Interning over whole runs: what the table, the two counts and the outstanding references have
to do with one another, while no length and no count leaves the range of an `int`.
-/

namespace KcnTools.Protocols

open Cache (wrapInt wrapInt_of_bounds)
open KcnTools.Count Run Util

variable {getUserProgram : List UInt8 → Bool} {cache : UriCache} {session : UriSession}
  {string : List UInt8} {object : Nat} {entry : UriCacheEntry}

def references (held : List (List UInt8 × Nat)) (object : Nat) : Nat :=
  held.countP fun reference => reference.2 = object

def UriCache.entries (cache : UriCache) : Nat := cache.memory.countP Option.isSome

def UriCache.InMap (cache : UriCache) (object : Nat) : Prop :=
  ∃ map, cache.map = some map ∧ ∃ value, ∃ item ∈ map.hash value, item.value = object

def Stored (cache : UriCache) (item : HashItem Nat Nat) : Prop :=
  item.key = item.value ∧
    ∃ entry, cache.entry item.value = some entry ∧ entry.string.length = item.keylen

/-- The cache by itself: its map has the live entries and is there when one is. -/
structure Tabled (cache : UriCache) : Prop where
  sized : ∀ object entry, cache.entry object = some entry →
    0 < entry.string.length ∧ (entry.string.length : Int) < 2 ^ 31
  counted : cache.refcount = cache.entries
  bounded : cache.refcount < 2 ^ 31
  table : ∀ map, cache.map = some map → Holds (stringAt cache.memory) map (Stored cache)
  exists_iff : cache.map.isSome = true ↔ cache.entries ≠ 0

structure Consistent (getUserProgram : List UInt8 → Bool) (session : UriSession) : Prop where
  tabled : Tabled session.cache
  counted : ∀ object entry, session.cache.entry object = some entry →
    entry.refcount = references session.held object ∧ entry.refcount < 2 ^ 31
  used : ∀ object entry, session.cache.entry object = some entry → 0 < references session.held object
  owned : ∀ reference ∈ session.held,
    ∃ entry, session.cache.entry reference.2 = some entry ∧ entry.string = reference.1
  parsed : ∀ object entry, session.cache.entry object = some entry →
    parseUri getUserProgram entry.string = .ok entry.uri

section Entries

theorem entry_modifyRefcount (cache : UriCache) (object other : Nat) (change : Int → Int) :
    (cache.modifyRefcount object change).entry other =
      if object = other then
        (cache.entry other).map fun entry => { entry with refcount := change entry.refcount }
      else cache.entry other := by
  rw [UriCache.entry, UriCache.modifyRefcount, List.getElem?_modify]
  split
  next same =>
    subst same
    cases block : cache.memory[object]? with
    | none => simp [UriCache.entry, block]
    | some content => simp [UriCache.entry, block]
  next apart => simp [UriCache.entry]

theorem stringAt_of_entry (found : cache.entry object = some entry) :
    stringAt cache.memory object = entry.string := by
  rw [UriCache.entry] at found
  rw [stringAt, found]
  rfl

theorem stringAt_modifyRefcount (cache : UriCache) (object : Nat) (change : Int → Int) :
    stringAt (cache.modifyRefcount object change).memory = stringAt cache.memory := by
  funext other
  have changed := entry_modifyRefcount cache object other change
  simp only [UriCache.entry] at changed
  rw [stringAt, changed, stringAt]
  split
  · cases ((cache.memory[other]?).join) <;> rfl
  · rfl

theorem stored_modifyRefcount (cache : UriCache) (object : Nat) (change : Int → Int)
    (item : HashItem Nat Nat) : Stored (cache.modifyRefcount object change) item ↔ Stored cache item := by
  rw [Stored, Stored, entry_modifyRefcount]
  split
  · cases cache.entry item.value <;> simp
  · rfl

theorem entries_modifyRefcount (cache : UriCache) (object : Nat) (change : Int → Int) :
    (cache.modifyRefcount object change).entries = cache.entries := by
  cases here : cache.memory[object]? with
  | none =>
      have outside := List.getElem?_eq_none_iff.mp here
      rw [UriCache.entries, UriCache.modifyRefcount, List.modify_eq_self outside]
      rfl
  | some block =>
      have kept := countP_modify Option.isSome (f := fun block : Option UriCacheEntry =>
        block.map fun entry => { entry with refcount := change entry.refcount }) here
      rw [Option.isSome_map, Nat.add_right_cancel_iff] at kept
      exact kept

theorem entries_pos (found : cache.entry object = some entry) : 0 < cache.entries := by
  have here : cache.memory[object]? = some (some entry) := Option.join_eq_some_iff.mp found
  exact List.countP_pos_iff.mpr ⟨_, List.mem_of_getElem? here, rfl⟩

theorem exists_entry (positive : 0 < cache.entries) : ∃ object entry, cache.entry object = some entry := by
  obtain ⟨block, member, isSome⟩ := List.countP_pos_iff.mp positive
  obtain ⟨entry, rfl⟩ := Option.isSome_iff_exists.mp isSome
  obtain ⟨object, here⟩ := List.mem_iff_getElem?.mp member
  exact ⟨object, entry, by rw [UriCache.entry, here]; rfl⟩

theorem entry_append (cache : UriCache) (added : UriCacheEntry) (map : Option (Hash Nat Nat)) (refcount : Int)
    (other : Nat) :
    (⟨map, refcount, cache.memory ++ [some added]⟩ : UriCache).entry other =
      if other = cache.memory.length then some added else cache.entry other := by
  rw [UriCache.entry, List.getElem?_append, UriCache.entry]
  split
  next inside => rw [if_neg (by omega)]
  next outside =>
    split
    next same =>
      subst same
      simp
    next apart =>
      have beyond : other - cache.memory.length ≠ 0 := by omega
      have nothing : cache.memory[other]? = none := List.getElem?_eq_none (by omega)
      rw [nothing, List.getElem?_eq_none]
      simp
      omega

theorem entry_lt (found : cache.entry object = some entry) : object < cache.memory.length := by
  have here : cache.memory[object]? = some (some entry) := Option.join_eq_some_iff.mp found
  exact (List.getElem?_eq_some_iff.mp here).1

theorem entry_set (cache : UriCache) (map : Option (Hash Nat Nat)) (refcount : Int) (object other : Nat) :
    (⟨map, refcount, cache.memory.set object none⟩ : UriCache).entry other =
      if other = object then none else cache.entry other := by
  rw [UriCache.entry, List.getElem?_set, UriCache.entry]
  split
  next same =>
    subst same
    rw [if_pos rfl]
    split <;> rfl
  next apart => rw [if_neg (fun same => apart same.symm)]

end Entries

section Tables

def entryItem (object : Nat) (entry : UriCacheEntry) : HashItem Nat Nat :=
  ⟨object, entry.string.length, object⟩

theorem stored_entryItem (found : cache.entry object = some entry) : Stored cache (entryItem object entry) :=
  ⟨rfl, entry, found, rfl⟩

theorem stored_iff {item : HashItem Nat Nat} :
    Stored cache item ↔ ∃ object entry, cache.entry object = some entry ∧ item = entryItem object entry := by
  constructor
  · rintro ⟨same, entry, found, length⟩
    refine ⟨item.value, entry, found, ?_⟩
    obtain ⟨key, keylen, value⟩ := item
    simp only at same length
    rw [entryItem, same, length]
  · rintro ⟨object, entry, found, rfl⟩
    exact stored_entryItem found

theorem tabled_empty : Tabled emptyUriCache where
  sized object entry found := by simp [emptyUriCache, UriCache.entry] at found
  counted := rfl
  bounded := by decide
  table map present := by simp [emptyUriCache] at present
  exists_iff := by simp [emptyUriCache, UriCache.entries]

theorem Tabled.map_of_entry (tabled : Tabled cache) (found : cache.entry object = some entry) :
    ∃ map, cache.map = some map ∧ Holds (stringAt cache.memory) map (Stored cache) := by
  have present := tabled.exists_iff.mpr (Nat.pos_iff_ne_zero.mp (entries_pos found))
  obtain ⟨map, here⟩ := Option.isSome_iff_exists.mp present
  exact ⟨map, here, tabled.table map here⟩

theorem Tabled.unique (tabled : Tabled cache) {other : Nat} {another : UriCacheEntry}
    (found : cache.entry object = some entry) (also : cache.entry other = some another)
    (same : entry.string = another.string) : object = other := by
  obtain ⟨map, _, holds⟩ := tabled.map_of_entry found
  have equal := holds.unique (entryItem object entry) (entryItem other another)
    (stored_entryItem found) (stored_entryItem also)
    (by
      change stringAt cache.memory object = stringAt cache.memory other
      rw [stringAt_of_entry found, stringAt_of_entry also, same])
  exact congrArg HashItem.value equal

theorem Tabled.inMap_iff (tabled : Tabled cache) :
    cache.InMap object ↔ ∃ entry, cache.entry object = some entry := by
  constructor
  · rintro ⟨map, present, value, item, member, rfl⟩
    obtain ⟨⟨_, entry, found, _⟩, _⟩ := ((tabled.table map present).mem value item).mp member
    exact ⟨entry, found⟩
  · rintro ⟨entry, found⟩
    obtain ⟨map, present, holds⟩ := tabled.map_of_entry found
    exact ⟨map, present, _, entryItem object entry,
      (holds.mem _ _).mpr ⟨stored_entryItem found, rfl⟩, rfl⟩

theorem Tabled.modifyRefcount (tabled : Tabled cache) (object : Nat) (change : Int → Int) :
    Tabled (cache.modifyRefcount object change) where
  sized other entry found := by
    rw [entry_modifyRefcount] at found
    split at found
    · obtain ⟨before, here, rfl⟩ := Option.map_eq_some_iff.mp found
      exact tabled.sized other before here
    · exact tabled.sized other entry found
  counted := by
    rw [entries_modifyRefcount]
    exact tabled.counted
  bounded := tabled.bounded
  table map present := by
    rw [stringAt_modifyRefcount]
    exact (tabled.table map present).stored_congr fun item => stored_modifyRefcount cache object change item
  exists_iff := by
    rw [entries_modifyRefcount]
    exact tabled.exists_iff

theorem Tabled.reorder (tabled : Tabled cache) {map : Hash Nat Nat} (present : cache.map.isSome = true)
    (holds : Holds (stringAt cache.memory) map (Stored cache)) : Tabled { cache with map := some map } where
  sized := tabled.sized
  counted := tabled.counted
  bounded := tabled.bounded
  table other here := by
    obtain rfl : map = other := Option.some.inj here
    exact holds
  exists_iff := by
    have there := tabled.exists_iff.mp present
    exact ⟨fun _ => there, fun _ => rfl⟩

theorem isObjectUsed_iff (tabled : Tabled cache) :
    isObjectUsed cache.refcount = true ↔ cache.map.isSome = true := by
  rw [tabled.exists_iff, tabled.counted, isObjectUsed, decide_eq_true_eq]
  omega

theorem Tabled.add (tabled : Tabled cache) {map : Hash Nat Nat} {added : UriCacheEntry}
    (holds : Holds (stringAt cache.memory) map (Stored cache))
    (fresh : ∀ object entry, cache.entry object = some entry → entry.string ≠ added.string)
    (nonempty : 0 < added.string.length) (short : (added.string.length : Int) < 2 ^ 31)
    (room : cache.refcount + 1 < 2 ^ 31) :
    Tabled
      { map := some (addHashItem map added.string (entryItem cache.memory.length added))
        refcount := objectLock cache.refcount
        memory := cache.memory ++ [some added] } := by
  have locked : objectLock cache.refcount = cache.refcount + 1 := by
    have counted := tabled.counted
    exact wrapInt_of_bounds (by omega) room
  have more : (cache.memory ++ [some added]).countP Option.isSome = cache.entries + 1 := by
    rw [List.countP_append]
    rfl
  constructor
  · intro object entry found
    rw [entry_append] at found
    split at found
    · obtain rfl : added = entry := Option.some.inj found
      exact ⟨nonempty, short⟩
    · exact tabled.sized object entry found
  · change objectLock cache.refcount = _
    rw [locked, tabled.counted, UriCache.entries, UriCache.entries, more, UriCache.entries]
    rfl
  · change objectLock cache.refcount < _
    rwa [locked]
  · intro table present
    rw [Option.some.injEq] at present
    subst present
    set grown : UriCache := ⟨_, _, cache.memory ++ [some added]⟩
    have same : ∀ item, Stored cache item → stringAt grown.memory item.key = stringAt cache.memory item.key := by
      rintro item ⟨key, entry, found, _⟩
      rw [key, stringAt_of_entry found]
      apply stringAt_of_entry
      rw [entry_append, if_neg (Nat.ne_of_lt (entry_lt found)), found]
    have here : grown.entry cache.memory.length = some added := by rw [entry_append, if_pos rfl]
    have bytes : stringAt grown.memory (entryItem cache.memory.length added).key = added.string :=
      stringAt_of_entry here
    have grew := (holds.memory_congr same).add
      (by rw [bytes]; rfl)
      (by
        intro other stored
        obtain ⟨key, entry, found, _⟩ := stored
        rw [bytes, same other ⟨key, entry, found, ‹_›⟩, key, stringAt_of_entry found]
        exact fresh _ entry found)
    rw [bytes] at grew
    apply grew.stored_congr
    intro item
    rw [stored_iff, stored_iff]
    constructor
    · rintro ⟨object, entry, found, rfl⟩
      rw [entry_append] at found
      split at found
      next last =>
        obtain rfl : added = entry := Option.some.inj found
        exact .inr (by rw [last])
      next => exact .inl ⟨object, entry, found, rfl⟩
    · rintro (⟨object, entry, found, rfl⟩ | rfl)
      · refine ⟨object, entry, ?_, rfl⟩
        rw [entry_append, if_neg (Nat.ne_of_lt (entry_lt found)), found]
      · exact ⟨_, added, here, rfl⟩
  · change _ ↔ (cache.memory ++ [some added]).countP Option.isSome ≠ 0
    rw [more]
    simp

theorem Tabled.remove (tabled : Tabled cache) {map : Hash Nat Nat} (found : cache.entry object = some entry)
    (holds : Holds (stringAt cache.memory) map (Stored cache)) :
    Tabled
      { map := if isObjectUsed (objectUnlock cache.refcount) then
          some (delHashItem map (entryItem object entry)) else none
        refcount := objectUnlock cache.refcount
        memory := cache.memory.set object none } := by
  have inside : cache.memory[object]? = some (some entry) := Option.join_eq_some_iff.mp found
  have positive := entries_pos found
  have fewer : (cache.memory.set object none).countP Option.isSome + 1 = cache.entries := by
    have changed := countP_modify Option.isSome (f := fun _ => none) inside
    rw [← List.set_eq_modify] at changed
    exact changed
  have unlocked : objectUnlock cache.refcount = cache.refcount - 1 := by
    have counted := tabled.counted
    have bounded := tabled.bounded
    exact wrapInt_of_bounds (by omega) (by omega)
  have used : isObjectUsed (objectUnlock cache.refcount) = true ↔
      (cache.memory.set object none).countP Option.isSome ≠ 0 := by
    rw [unlocked, tabled.counted, isObjectUsed, decide_eq_true_eq]
    omega
  constructor
  · intro other also there
    rw [entry_set] at there
    split at there
    · cases there
    · exact tabled.sized other also there
  · change objectUnlock cache.refcount = ((cache.memory.set object none).countP Option.isSome : Nat)
    rw [unlocked, tabled.counted]
    omega
  · change objectUnlock cache.refcount < 2 ^ 31
    have bounded := tabled.bounded
    omega
  · intro table present
    have without : table = delHashItem map (entryItem object entry) := by
      simp only at present
      split at present
      · exact (Option.some.inj present).symm
      · cases present
    subst without
    apply ((holds.del (entryItem object entry)).memory_congr _).stored_congr
    · intro item
      rw [stored_iff, stored_iff]
      constructor
      · rintro ⟨other, also, there, rfl⟩
        rw [entry_set] at there
        split at there
        · cases there
        next apart => exact ⟨⟨other, also, there, rfl⟩, fun same => apart (congrArg HashItem.value same)⟩
      · rintro ⟨⟨other, also, there, rfl⟩, apart⟩
        refine ⟨other, also, ?_, rfl⟩
        rw [entry_set, if_neg, there]
        rintro rfl
        rw [found, Option.some.injEq] at there
        exact apart (by rw [there])
    · rintro item ⟨stored, apart⟩
      obtain ⟨other, also, there, rfl⟩ := stored_iff.mp stored
      change stringAt _ other = stringAt _ other
      rw [stringAt_of_entry there]
      refine @stringAt_of_entry ⟨none, 0, cache.memory.set object none⟩ _ _ ?_
      rw [entry_set, if_neg, there]
      rintro rfl
      rw [found, Option.some.injEq] at there
      exact apart (by rw [there])
  · change Option.isSome (if _ then _ else _) = true ↔ (cache.memory.set object none).countP Option.isSome ≠ 0
    rw [← used]
    split
    next is => simp [is]
    next is => simp [is]

end Tables

section Operations

def FitsInt (string : List UInt8) : Prop :=
  0 < wrapInt string.length → wrapInt string.length = string.length

/-- The entry that `get_uri_cache_entry` finds or makes, and the cache it leaves. -/
inductive GetEntry (getUserProgram : List UInt8 → Bool) (cache : UriCache) (string : List UInt8)
    (allocations : UriAllocations) : UriCache → Nat → Prop
  | found {object : Nat} {entry : UriCacheEntry} (map : Hash Nat Nat) :
      cache.entry object = some entry → entry.string = string →
      Holds (stringAt cache.memory) map (Stored cache) →
      GetEntry getUserProgram cache string allocations { cache with map := some map } object
  | created {uri : Uri} (map : Hash Nat Nat) :
      parseUri getUserProgram string = .ok uri → 0 < string.length → (string.length : Int) < 2 ^ 31 →
      allocations.entry = true → allocations.item = true →
      (∀ object entry, cache.entry object = some entry → entry.string ≠ string) →
      Holds (stringAt cache.memory) map (Stored cache) →
      GetEntry getUserProgram cache string allocations
        { map := some (addHashItem map string (entryItem cache.memory.length ⟨uri, string, 0⟩))
          refcount := objectLock cache.refcount
          memory := cache.memory ++ [some ⟨uri, string, 0⟩] } cache.memory.length

theorem getUriCacheEntry_spec {opened : UriCache} {map : Hash Nat Nat} (memory : opened.memory = cache.memory)
    (refcount : opened.refcount = cache.refcount) (holds : Holds (stringAt cache.memory) map (Stored cache))
    (fits : FitsInt string) (allocations : UriAllocations) :
    getUriCacheEntry getUserProgram opened map string (wrapInt string.length) allocations = (opened, none) ∨
      ∃ next object, GetEntry getUserProgram cache string allocations next object ∧
        getUriCacheEntry getUserProgram opened map string (wrapInt string.length) allocations =
          (next, some object) := by
  rw [getUriCacheEntry, memory, refcount]
  by_cases empty : wrapInt string.length ≤ 0
  · rw [if_pos empty]
    exact .inl rfl
  have whole := fits (by omega)
  have text : string.take (wrapInt string.length).toNat = string := by
    rw [whole]
    exact List.take_length
  have short : (string.length : Int) < 2 ^ 31 := by
    rw [← whole]
    exact Cache.wrapInt_lt _
  rw [if_neg empty, text]
  by_cases known : ∃ object entry, cache.entry object = some entry ∧ entry.string = string
  · obtain ⟨object, entry, found, same⟩ := known
    obtain ⟨next, gotten, kept⟩ := holds.get_some (stored_entryItem found)
    have key : stringAt cache.memory (entryItem object entry).key = string :=
      (stringAt_of_entry found).trans same
    rw [key] at gotten
    simp only [gotten]
    exact .inr ⟨_, object, .found next found same kept, rfl⟩
  · have fresh : ∀ object entry, cache.entry object = some entry → entry.string ≠ string :=
      fun object entry found same => known ⟨object, entry, found, same⟩
    have missing : getHashItem (stringAt cache.memory) map string = none := by
      apply holds.get_none
      intro item stored same
      obtain ⟨object, entry, found, rfl⟩ := stored_iff.mp stored
      exact fresh object entry found ((stringAt_of_entry found).symm.trans same)
    simp only [missing]
    split
    next allocated =>
      cases parsed : parseUri getUserProgram string with
      | error error => exact .inl rfl
      | ok uri =>
          simp only
          split
          next linked =>
            exact .inr ⟨_, _, .created map parsed (by omega) short allocated linked fresh holds, rfl⟩
          next => exact .inl rfl
    next => exact .inl rfl

theorem opened_memory (cache : UriCache) : cache.opened.memory = cache.memory := by
  rw [UriCache.opened]
  split <;> rfl

theorem opened_refcount (cache : UriCache) : cache.opened.refcount = cache.refcount := by
  rw [UriCache.opened]
  split <;> rfl

theorem Tabled.opened (tabled : Tabled cache) :
    ∃ map, cache.opened.map = some map ∧ Holds (stringAt cache.memory) map (Stored cache) := by
  rw [UriCache.opened]
  split
  next used =>
    obtain ⟨map, present⟩ := Option.isSome_iff_exists.mp ((isObjectUsed_iff tabled).mp used)
    exact ⟨map, present, tabled.table map present⟩
  next unused =>
    refine ⟨_, rfl, (holds_initHash _ _).stored_congr fun item => ?_⟩
    rw [iff_false, stored_iff]
    rintro ⟨object, entry, found, _⟩
    obtain ⟨map, present, _⟩ := tabled.map_of_entry found
    rw [isObjectUsed_iff tabled, present] at unused
    exact unused rfl

theorem Tabled.closed (tabled : Tabled cache) :
    (if isObjectUsed cache.opened.refcount then cache.opened else { cache.opened with map := none }) = cache := by
  rw [opened_refcount, UriCache.opened]
  split
  next => rfl
  next unused =>
    rw [isObjectUsed_iff tabled, Bool.not_eq_true, Option.isSome_eq_false_iff, Option.isNone_iff_eq_none] at unused
    rw [← unused]

theorem getUri_spec (tabled : Tabled cache) (fits : FitsInt string) (allocations : UriAllocations) :
    getUri getUserProgram cache string allocations = some (cache, none) ∨
      ∃ next object, GetEntry getUserProgram cache string allocations next object ∧
        getUri getUserProgram cache string allocations =
          some (next.modifyRefcount object objectLock, some object) := by
  by_cases failed : isObjectUsed cache.refcount = false ∧ allocations.hash = false
  · rw [getUri, if_pos failed]
    exact .inl rfl
  obtain ⟨map, present, holds⟩ := tabled.opened
  rw [getUri, if_neg failed, present, Option.map_some]
  rcases getUriCacheEntry_spec (opened_memory cache) (opened_refcount cache) holds fits allocations with
    nothing | ⟨next, object, gets, gotten⟩
  · rw [nothing, lockEntry, tabled.closed]
    exact .inl rfl
  · rw [gotten]
    exact .inr ⟨next, object, gets, rfl⟩

theorem getUri_rejected (tabled : Tabled cache) (fits : FitsInt string)
    (fresh : ∀ object entry, cache.entry object = some entry → entry.string ≠ string)
    (rejects : ∀ uri, parseUri getUserProgram string ≠ .ok uri) (allocations : UriAllocations) :
    getUri getUserProgram cache string allocations = some (cache, none) := by
  rcases getUri_spec tabled fits allocations with unchanged | ⟨next, object, gets, _⟩
  · exact unchanged
  · cases gets with
    | found map found same => exact absurd same (fresh _ _ found)
    | created map parsed => exact absurd parsed (rejects _)

/-- The last reference takes the entry away, and with the last entry the map. -/
theorem doneUri_spec (tabled : Tabled cache) (found : cache.entry object = some entry)
    (positive : 0 < entry.refcount) (bounded : entry.refcount < 2 ^ 31) :
    ∃ next, doneUri cache object = some next ∧ Tabled next ∧
      ∀ other, next.entry other =
        if other = object then
          if entry.refcount = 1 then none else some { entry with refcount := entry.refcount - 1 }
        else cache.entry other := by
  have unlocked : objectUnlock entry.refcount = entry.refcount - 1 :=
    wrapInt_of_bounds (by omega) (by omega)
  have sized := tabled.sized object entry found
  have whole : wrapInt entry.string.length = entry.string.length :=
    wrapInt_of_bounds (by omega) sized.2
  have lowered := tabled.modifyRefcount object objectUnlock
  have after : (cache.modifyRefcount object objectUnlock).entry object =
      some { entry with refcount := entry.refcount - 1 } := by
    rw [entry_modifyRefcount, if_pos rfl, found, Option.map_some, unlocked]
  rw [doneUri, found]
  simp only [unlocked, whole, Int.toNat_natCast, List.take_length]
  by_cases last : entry.refcount = 1
  · have unused : isObjectUsed (entry.refcount - 1) = false := by
      rw [last]
      rfl
    obtain ⟨map, present, holds⟩ := lowered.map_of_entry after
    obtain ⟨next, gotten, kept⟩ := holds.get_some (stored_entryItem after)
    have key : stringAt (cache.modifyRefcount object objectUnlock).memory
        (entryItem object { entry with refcount := entry.refcount - 1 }).key = entry.string := by
      exact (stringAt_of_entry after).trans rfl
    rw [key] at gotten
    simp only [unused, Bool.false_eq_true, ↓reduceIte, present, gotten]
    refine ⟨_, rfl, lowered.remove after kept, ?_⟩
    intro other
    rw [if_pos last, entry_set]
    change (if other = object then _ else _) = _
    by_cases same : other = object
    · rw [if_pos same, if_pos same]
    · rw [if_neg same, if_neg same]
      exact (entry_modifyRefcount ..).trans (if_neg fun equal => same equal.symm)
  · have used : isObjectUsed (entry.refcount - 1) = true := by
      rw [isObjectUsed, decide_eq_true_eq]
      omega
    simp only [used, ↓reduceIte]
    refine ⟨_, rfl, lowered, ?_⟩
    intro other
    rw [if_neg last]
    split
    next same => rw [same, after]
    next apart => rw [entry_modifyRefcount, if_neg fun same => apart same.symm]

end Operations

section Sessions

theorem references_append (held : List (List UInt8 × Nat)) (string : List UInt8) (object other : Nat) :
    references (held ++ [(string, object)]) other =
      references held other + if object = other then 1 else 0 := by
  rw [references, List.countP_append, references]
  congr 1
  by_cases same : object = other <;> simp [same]

theorem references_eraseIdx {held : List (List UInt8 × Nat)} {index : Nat} {reference : List UInt8 × Nat}
    (here : held[index]? = some reference) (other : Nat) :
    references (held.eraseIdx index) other + (if reference.2 = other then 1 else 0) = references held other := by
  have fewer := countP_eraseIdx (fun reference => reference.2 = other) here
  rw [references, references, ← fewer]
  congr 1
  by_cases same : reference.2 = other <;> simp [same]

theorem references_pos {held : List (List UInt8 × Nat)} {reference : List UInt8 × Nat}
    (member : reference ∈ held) : 0 < references held reference.2 :=
  List.countP_pos_iff.mpr ⟨reference, member, by simp⟩

theorem consistent_empty : Consistent getUserProgram ⟨emptyUriCache, []⟩ where
  tabled := tabled_empty
  counted object entry found := by simp [emptyUriCache, UriCache.entry] at found
  used object entry found := by simp [emptyUriCache, UriCache.entry] at found
  owned := by simp
  parsed object entry found := by simp [emptyUriCache, UriCache.entry] at found

theorem Consistent.acquire (consistent : Consistent getUserProgram session) {next : UriCache} {uri : Uri}
    (tabled : Tabled next)
    (entries : ∀ other, next.entry other =
      if other = object then some ⟨uri, string, references session.held object + 1⟩
      else session.cache.entry other)
    (same : ∀ reference ∈ session.held, reference.2 = object → reference.1 = string)
    (bounded : (references session.held object + 1 : Int) < 2 ^ 31)
    (parsed : parseUri getUserProgram string = .ok uri) :
    Consistent getUserProgram ⟨next, session.held ++ [(string, object)]⟩ := by
  constructor
  · exact tabled
  · intro other entry found
    rw [entries] at found
    rw [references_append]
    split at found
    next here =>
      obtain rfl : _ = entry := Option.some.inj found
      rw [if_pos here.symm, here]
      exact ⟨rfl, bounded⟩
    next apart =>
      rw [if_neg fun equal => apart equal.symm]
      exact consistent.counted other entry found
  · intro other entry found
    rw [entries] at found
    rw [references_append]
    split at found
    next here =>
      rw [if_pos here.symm]
      omega
    next =>
      have positive := consistent.used other entry found
      omega
  · intro reference member
    rw [entries]
    rcases List.mem_append.mp member with before | last
    · split
      next here => exact ⟨_, rfl, (same reference before here).symm⟩
      next => exact consistent.owned reference before
    · obtain rfl := List.mem_singleton.mp last
      exact ⟨_, if_pos rfl, rfl⟩
  · intro other entry found
    rw [entries] at found
    split at found
    next =>
      obtain rfl : _ = entry := Option.some.inj found
      exact parsed
    next => exact consistent.parsed other entry found

theorem Consistent.release (consistent : Consistent getUserProgram session) {next : UriCache} {index : Nat}
    (tabled : Tabled next) (here : session.held[index]? = some (string, object))
    (found : session.cache.entry object = some entry)
    (entries : ∀ other, next.entry other =
      if other = object then
        if entry.refcount = 1 then none else some { entry with refcount := entry.refcount - 1 }
      else session.cache.entry other) :
    Consistent getUserProgram ⟨next, session.held.eraseIdx index⟩ := by
  have counted := consistent.counted object entry found
  have fewer := references_eraseIdx here
  simp only at fewer
  constructor
  · exact tabled
  · intro other after there
    rw [entries] at there
    have less := fewer other
    split at there
    next same =>
      subst same
      rw [if_pos rfl] at less
      split at there
      · cases there
      · obtain rfl : _ = after := Option.some.inj there
        simp only
        omega
    next apart =>
      rw [if_neg fun same => apart same.symm] at less
      have before := consistent.counted other after there
      simp only
      omega
  · intro other after there
    rw [entries] at there
    have less := fewer other
    split at there
    next same =>
      subst same
      rw [if_pos rfl] at less
      split at there
      · cases there
      · simp only
        omega
    next apart =>
      rw [if_neg fun same => apart same.symm] at less
      have before := consistent.used other after there
      simp only
      omega
  · intro reference member
    have earlier : reference ∈ session.held := List.mem_of_mem_eraseIdx member
    obtain ⟨owner, owned, same⟩ := consistent.owned reference earlier
    rw [entries]
    split
    next equal =>
      have positive : 0 < references (session.held.eraseIdx index) reference.2 := references_pos member
      have less := fewer reference.2
      rw [equal, found, Option.some.injEq] at owned
      subst owned
      rw [if_pos equal.symm] at less
      rw [equal] at less positive
      rw [if_neg (by omega)]
      exact ⟨_, rfl, same⟩
    next => exact ⟨owner, owned, same⟩
  · intro other after there
    rw [entries] at there
    split at there
    next =>
      split at there
      · cases there
      · obtain rfl : _ = after := Option.some.inj there
        exact consistent.parsed object entry found
    next => exact consistent.parsed other after there

def Proper (session : UriSession) : UriOperation → Prop
  | .getUri _ _ => True
  | .getUriReference reference => reference < session.held.length
  | .doneUri reference => reference < session.held.length

def CountsFit (session : UriSession) : UriOperation → Prop
  | .getUri string _ =>
      FitsInt string ∧
        (∀ object entry, session.cache.entry object = some entry → entry.string = string →
          entry.refcount + 1 < 2 ^ 31) ∧
        ((∀ object entry, session.cache.entry object = some entry → entry.string ≠ string) →
          session.cache.refcount + 1 < 2 ^ 31)
  | .getUriReference reference =>
      ∀ held entry, session.held[reference]? = some held → session.cache.entry held.2 = some entry →
        entry.refcount + 1 < 2 ^ 31
  | .doneUri _ => True

theorem Consistent.lock (consistent : Consistent getUserProgram session) {next : UriCache}
    (tabled : Tabled next) (same : ∀ other, next.entry other = session.cache.entry other)
    (found : session.cache.entry object = some entry) (fits : entry.refcount + 1 < 2 ^ 31) :
    Consistent getUserProgram
      ⟨next.modifyRefcount object objectLock, session.held ++ [(entry.string, object)]⟩ := by
  have counted := consistent.counted object entry found
  have locked : objectLock entry.refcount = references session.held object + 1 := by
    rw [← counted.1]
    exact wrapInt_of_bounds (by omega) fits
  have parsed := consistent.parsed object entry found
  refine consistent.acquire (tabled.modifyRefcount object objectLock) ?_ ?_ ?_ parsed
  · intro other
    rw [entry_modifyRefcount, same]
    by_cases here : other = object
    · rw [if_pos here.symm, if_pos here, here, found, Option.map_some, locked]
    · rw [if_neg fun equal => here equal.symm, if_neg here]
  · intro reference member here
    obtain ⟨owner, owned, equal⟩ := consistent.owned reference member
    rw [here, found, Option.some.injEq] at owned
    rw [← equal, owned]
  · omega

theorem Consistent.getUri (consistent : Consistent getUserProgram session) (allocations : UriAllocations)
    (fits : CountsFit session (.getUri string allocations)) :
    ∃ next, uriStep getUserProgram session (.getUri string allocations) = some next ∧
      Consistent getUserProgram next := by
  obtain ⟨fitsInt, entryFits, cacheFits⟩ := fits
  rw [uriStep]
  rcases getUri_spec consistent.tabled fitsInt allocations with unchanged | ⟨next, object, gets, gotten⟩
  · rw [unchanged]
    exact ⟨_, rfl, consistent⟩
  · rw [gotten]
    refine ⟨_, rfl, ?_⟩
    cases gets with
    | found map found same holds =>
        subst same
        obtain ⟨_, present, _⟩ := consistent.tabled.map_of_entry found
        have tabled := consistent.tabled.reorder (by rw [present]; rfl) holds
        exact consistent.lock tabled (fun other => rfl) found (entryFits _ _ found rfl)
    | @created uri map parsed nonempty short _ _ fresh holds =>
        have tabled := @Tabled.add _ consistent.tabled map ⟨uri, string, 0⟩ holds fresh nonempty short
          (cacheFits fresh)
        have missing : ∀ reference ∈ session.held, reference.2 ≠ session.cache.memory.length := by
          intro reference member same
          obtain ⟨owner, owned, _⟩ := consistent.owned reference member
          have inside := entry_lt owned
          omega
        have none : references session.held session.cache.memory.length = 0 := by
          rw [references, List.countP_eq_zero]
          intro reference member
          simpa using missing reference member
        apply consistent.acquire (tabled.modifyRefcount _ _)
        · intro other
          rw [entry_modifyRefcount, entry_append]
          by_cases here : other = session.cache.memory.length
          · rw [if_pos here.symm, if_pos here, if_pos here, none]
            rfl
          · rw [if_neg fun equal => here equal.symm, if_neg here, if_neg here]
        · intro reference member here
          exact absurd here (missing reference member)
        · rw [none]
          decide
        · exact parsed

theorem Consistent.step (consistent : Consistent getUserProgram session) (operation : UriOperation)
    (proper : Proper session operation) (fits : CountsFit session operation) :
    ∃ next, uriStep getUserProgram session operation = some next ∧ Consistent getUserProgram next := by
  cases operation with
  | getUri string allocations => exact consistent.getUri allocations fits
  | getUriReference reference =>
      have here : session.held[reference]? = some session.held[reference] := List.getElem?_eq_getElem proper
      obtain ⟨entry, found, same⟩ := consistent.owned _ (List.getElem_mem proper)
      refine ⟨_, ?_, consistent.lock consistent.tabled (fun other => rfl) found (fits _ entry here found)⟩
      rw [uriStep, here, Option.bind_some, getUriReference, found, same]
      rfl
  | doneUri reference =>
      have here : session.held[reference]? = some session.held[reference] := List.getElem?_eq_getElem proper
      obtain ⟨entry, found, same⟩ := consistent.owned _ (List.getElem_mem proper)
      have counted := consistent.counted _ entry found
      have used := consistent.used _ entry found
      obtain ⟨next, done, tabled, entries⟩ := doneUri_spec consistent.tabled found (by omega) counted.2
      refine ⟨_, ?_, consistent.release tabled here found entries⟩
      rw [uriStep, here, Option.bind_some, done]
      rfl

structure Interned (session : UriSession) : Prop where
  same_object : ∀ first ∈ session.held, ∀ second ∈ session.held, first.2 = second.2 ↔ first.1 = second.1
  usage : ∀ reference ∈ session.held, ∃ entry, session.cache.entry reference.2 = some entry ∧
    entry.string = reference.1 ∧ entry.refcount = references session.held reference.2
  in_map : ∀ object, session.cache.InMap object ↔ 0 < references session.held object
  map_exists : session.cache.map.isSome = true ↔ ∃ object, session.cache.InMap object

theorem Consistent.interned (consistent : Consistent getUserProgram session) : Interned session := by
  constructor
  · intro first member second also
    obtain ⟨entry, found, same⟩ := consistent.owned first member
    obtain ⟨other, there, equal⟩ := consistent.owned second also
    constructor
    · intro object
      rw [object, there, Option.some.injEq] at found
      rw [← same, ← equal, found]
    · intro string
      exact consistent.tabled.unique found there (by rw [same, equal, string])
  · intro reference member
    obtain ⟨entry, found, same⟩ := consistent.owned reference member
    exact ⟨entry, found, same, (consistent.counted _ entry found).1⟩
  · intro object
    rw [consistent.tabled.inMap_iff]
    constructor
    · rintro ⟨entry, found⟩
      exact consistent.used object entry found
    · intro positive
      obtain ⟨reference, member, here⟩ := List.countP_pos_iff.mp positive
      obtain ⟨entry, found, _⟩ := consistent.owned reference member
      rw [decide_eq_true_eq] at here
      exact ⟨entry, here ▸ found⟩
  · rw [consistent.tabled.exists_iff]
    constructor
    · intro some
      obtain ⟨object, entry, found⟩ := exists_entry (Nat.pos_of_ne_zero some)
      exact ⟨object, consistent.tabled.inMap_iff.mpr ⟨entry, found⟩⟩
    · rintro ⟨object, inside⟩
      obtain ⟨entry, found⟩ := consistent.tabled.inMap_iff.mp inside
      exact Nat.pos_iff_ne_zero.mp (entries_pos found)

theorem Consistent.rejected (consistent : Consistent getUserProgram session) (fits : FitsInt string)
    (rejects : ∀ uri, parseUri getUserProgram string ≠ .ok uri) (allocations : UriAllocations) :
    uriStep getUserProgram session (.getUri string allocations) = some session := by
  have fresh : ∀ object entry, session.cache.entry object = some entry → entry.string ≠ string := by
    rintro object entry found rfl
    exact rejects _ (consistent.parsed object entry found)
  rw [uriStep, getUri_rejected consistent.tabled fits fresh rejects allocations]
  rfl

end Sessions

/-- Every admitted run goes through and interns, and a rejected string changes nothing. -/
theorem runUris_interned (getUserProgram : List UInt8 → Bool) (operations : List UriOperation)
    (admitted : Admitted (uriStep getUserProgram)
      (fun session operation => Proper session operation ∧ CountsFit session operation)
      ⟨emptyUriCache, []⟩ operations) :
    ∃ final, run (uriStep getUserProgram) ⟨emptyUriCache, []⟩ operations = some final ∧ Interned final ∧
      ∀ string allocations, FitsInt string → (∀ uri, parseUri getUserProgram string ≠ .ok uri) →
        uriStep getUserProgram final (.getUri string allocations) = some final := by
  obtain ⟨final, reached, consistent⟩ := run_invariant (Consistent getUserProgram)
    (fun session operation consistent admitted => consistent.step operation admitted.1 admitted.2)
    consistent_empty admitted
  exact ⟨final, reached, consistent.interned, fun string allocations fits rejects =>
    consistent.rejected fits rejects allocations⟩

def everyAllocation : UriAllocations := ⟨true, true, true⟩

def shortUri : List UInt8 := [104, 116, 116, 112, 58, 47, 47, 97, 47]

/-- The string is got twice, and one of the references is given back. -/
def getTwice : List UriOperation :=
  [.getUri shortUri everyAllocation, .getUri shortUri everyAllocation, .doneUri 0]

theorem runUris_interned_getTwice :
    ∃ final, run (uriStep fun _ => false) ⟨emptyUriCache, []⟩ getTwice = some final ∧ Interned final ∧
      final.held = [(shortUri, 0)] := by
  have held : (run (uriStep fun _ => false) ⟨emptyUriCache, []⟩ getTwice).map UriSession.held =
      some [(shortUri, 0)] := by decide +kernel
  have first : (uriStep (fun _ => false) ⟨emptyUriCache, []⟩ (.getUri shortUri everyAllocation)).map
      (fun session => (session.held.length, session.cache.refcount)) = some (1, 1) := by decide +kernel
  have second : ((uriStep (fun _ => false) ⟨emptyUriCache, []⟩ (.getUri shortUri everyAllocation)).bind
      fun session => uriStep (fun _ => false) session (.getUri shortUri everyAllocation)).map
      (fun session => session.held.length) = some 2 := by decide +kernel
  have empty : CountsFit ⟨emptyUriCache, []⟩ (.getUri shortUri everyAllocation) := by
    refine ⟨fun _ => by decide, ?_, fun _ => by decide⟩
    intro object entry found
    simp [emptyUriCache, UriCache.entry] at found
  have admitted : Admitted (uriStep fun _ => false) (fun session operation => Proper session operation ∧
      CountsFit session operation) ⟨emptyUriCache, []⟩ getTwice := by
    refine ⟨⟨trivial, empty⟩, fun session stepped => ⟨⟨trivial, ?_⟩, fun later again => ⟨⟨?_, trivial⟩, ?_⟩⟩⟩
    · obtain ⟨next, same, consistent⟩ := consistent_empty.step (.getUri shortUri everyAllocation) trivial empty
      obtain rfl : session = next := Option.some.inj (stepped.symm.trans same)
      rw [stepped, Option.map_some, Option.some.injEq, Prod.mk.injEq] at first
      refine ⟨fun _ => by decide, fun object entry found _ => ?_, fun _ => by rw [first.2]; decide⟩
      have count : references session.held object ≤ session.held.length := List.countP_le_length
      rw [(consistent.counted object entry found).1]
      omega
    · rw [stepped, Option.bind_some, again, Option.map_some, Option.some.injEq] at second
      rw [Proper, second]
      decide
    · intro last done
      trivial
  obtain ⟨final, reached, interned, -⟩ := runUris_interned (fun _ => false) getTwice admitted
  rw [reached] at held
  exact ⟨final, reached, interned, Option.some.inj held⟩

theorem getUri_cut {short rest : List UInt8} (cut : wrapInt (short ++ rest).length = short.length)
    (fits : wrapInt short.length = short.length) (cache : UriCache) (allocations : UriAllocations) :
    getUri getUserProgram cache (short ++ rest) allocations = getUri getUserProgram cache short allocations := by
  have text : (short ++ rest).take (wrapInt (short ++ rest).length).toNat =
      short.take (wrapInt short.length).toNat := by
    rw [cut, fits, Int.toNat_natCast, List.take_left, List.take_length]
  have same : ∀ map, getUriCacheEntry getUserProgram cache.opened map (short ++ rest)
        (wrapInt (short ++ rest).length) allocations =
      getUriCacheEntry getUserProgram cache.opened map short (wrapInt short.length) allocations := by
    intro map
    rw [getUriCacheEntry, getUriCacheEntry, text, cut, fits]
  rw [getUri, getUri]
  simp only [same]

def longUri : List UInt8 := shortUri ++ List.replicate (2 ^ 32) 97

/-- Two strings, one object. -/
theorem runUris_interned_fails_longUri :
    Admitted (uriStep fun _ => false) Proper ⟨emptyUriCache, []⟩
        [.getUri shortUri everyAllocation, .getUri longUri everyAllocation] ∧
      ∃ final, run (uriStep fun _ => false) ⟨emptyUriCache, []⟩
          [.getUri shortUri everyAllocation, .getUri longUri everyAllocation] = some final ∧
        ¬ Interned final := by
  refine ⟨⟨trivial, fun _ _ => ⟨trivial, fun _ _ => trivial⟩⟩, ?_⟩
  have first : (getUri (fun _ => false) emptyUriCache shortUri everyAllocation).map Prod.snd = some (some 0) := by
    decide +kernel
  have second : ((getUri (fun _ => false) emptyUriCache shortUri everyAllocation).bind fun result =>
      (getUri (fun _ => false) result.1 shortUri everyAllocation).map Prod.snd) = some (some 0) := by
    decide +kernel
  obtain ⟨⟨cache, _⟩, gotten, rfl⟩ := Option.map_eq_some_iff.mp first
  rw [gotten, Option.bind_some, Option.map_eq_some_iff] at second
  obtain ⟨⟨last, _⟩, again, rfl⟩ := second
  have length : longUri.length = shortUri.length + 2 ^ 32 := by
    rw [longUri, List.length_append, List.length_replicate]
  have cut : wrapInt longUri.length = shortUri.length := by
    rw [length]
    decide
  have long : getUri (fun _ => false) cache longUri everyAllocation = some (last, some 0) := by
    rw [← again]
    exact getUri_cut cut (by decide) cache everyAllocation
  refine ⟨⟨last, [(shortUri, 0), (longUri, 0)]⟩, ?_, ?_⟩
  · rw [run_cons, uriStep, gotten, Option.map_some, Option.bind_some, run_cons, uriStep, long]
    rfl
  · intro interned
    have same := (interned.same_object (shortUri, 0) (by simp) (longUri, 0) (by simp)).mp rfl
    simp only at same
    rw [← same] at length
    omega

end KcnTools.Protocols
