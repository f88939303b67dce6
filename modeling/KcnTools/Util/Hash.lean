import Mathlib

/-!
The hash tables of `util/hash.c`. Keys are pointers into a memory that is read when items are
compared, and an item that has been found moves to the top of its list.
-/

namespace KcnTools.Util

structure HashItem (κ ν : Type) where
  key : κ
  keylen : Nat
  value : ν
  deriving DecidableEq

structure Hash (κ ν : Type) where
  width : Nat
  func : List UInt8 → Nat → Nat
  hash : Nat → List (HashItem κ ν)

variable {κ ν : Type}

def strhash (k : List UInt8) (initval : Nat) : Nat :=
  k.foldl (fun h c => (h * 2 ^ 5 - h + c.toNat) % 2 ^ 64) initval

def hashMagic : Nat := 0xdeadbeef

def initHash (width : Nat) (func : List UInt8 → Nat → Nat) : Hash κ ν := ⟨width, func, fun _ => []⟩

def Hash.hashval (hash : Hash κ ν) (key : List UInt8) : Nat := hash.func key hashMagic % 2 ^ hash.width

def Hash.setList (hash : Hash κ ν) (hashval : Nat) (list : List (HashItem κ ν)) : Hash κ ν :=
  { hash with hash := fun value => if value = hashval then list else hash.hash value }

def addHashItem (hash : Hash κ ν) (bytes : List UInt8) (item : HashItem κ ν) : Hash κ ν :=
  hash.setList (hash.hashval bytes) (item :: hash.hash (hash.hashval bytes))

def matchesKey (memory : κ → List UInt8) (key : List UInt8) (item : HashItem κ ν) : Bool :=
  key.length = item.keylen && key = (memory item.key).take key.length

def getHashItem [DecidableEq κ] [DecidableEq ν] (memory : κ → List UInt8) (hash : Hash κ ν)
    (key : List UInt8) : Option (HashItem κ ν × Hash κ ν) :=
  let list := hash.hash (hash.hashval key)
  match list.find? (matchesKey memory key) with
  | none => none
  | some item => some (item, hash.setList (hash.hashval key) (item :: list.erase item))

def delHashItem [DecidableEq κ] [DecidableEq ν] (hash : Hash κ ν) (item : HashItem κ ν) : Hash κ ν :=
  { hash with hash := fun value => (hash.hash value).erase item }

/-- The table holds the stored items, each in the list of its key. -/
structure Holds (memory : κ → List UInt8) (hash : Hash κ ν) (stored : HashItem κ ν → Prop) : Prop where
  nodup : ∀ value, (hash.hash value).Nodup
  mem : ∀ value item, item ∈ hash.hash value ↔ stored item ∧ value = hash.hashval (memory item.key)
  length : ∀ item, stored item → (memory item.key).length = item.keylen
  unique : ∀ first second, stored first → stored second →
    memory first.key = memory second.key → first = second

variable {memory : κ → List UInt8} {hash : Hash κ ν} {stored : HashItem κ ν → Prop}

theorem holds_initHash (width : Nat) (func : List UInt8 → Nat → Nat) :
    Holds memory (initHash width func : Hash κ ν) fun _ => False where
  nodup _ := List.nodup_nil
  mem := by
    intro value item
    simp [initHash]
  length _ impossible := impossible.elim
  unique _ _ impossible := impossible.elim

theorem Holds.matches_iff (holds : Holds memory hash stored) {item : HashItem κ ν} (inside : stored item)
    (key : List UInt8) : matchesKey memory key item = true ↔ memory item.key = key := by
  have length := holds.length item inside
  rw [matchesKey, Bool.and_eq_true, decide_eq_true_eq, decide_eq_true_eq]
  constructor
  · rintro ⟨same, equal⟩
    rw [same, ← length, List.take_length] at equal
    exact equal.symm
  · rintro rfl
    exact ⟨length, List.take_length.symm⟩

theorem mem_setList {hashval value : Nat} {list : List (HashItem κ ν)} {item : HashItem κ ν} :
    item ∈ (hash.setList hashval list).hash value ↔
      if value = hashval then item ∈ list else item ∈ hash.hash value := by
  simp only [Hash.setList]
  split <;> rfl

theorem nodup_setList {hashval : Nat} {list : List (HashItem κ ν)} (nodup : list.Nodup)
    (others : ∀ value, (hash.hash value).Nodup) (value : Nat) :
    ((hash.setList hashval list).hash value).Nodup := by
  simp only [Hash.setList]
  split
  · exact nodup
  · exact others value

theorem Holds.reorder (holds : Holds memory hash stored) {hashval : Nat} {list : List (HashItem κ ν)}
    (perm : list.Perm (hash.hash hashval)) : Holds memory (hash.setList hashval list) stored where
  nodup := nodup_setList (perm.nodup_iff.mpr (holds.nodup hashval)) holds.nodup
  mem := by
    intro value item
    rw [mem_setList]
    split
    next same =>
      rw [perm.mem_iff, ← same]
      exact holds.mem value item
    next => exact holds.mem value item
  length := holds.length
  unique := holds.unique

theorem Holds.add (holds : Holds memory hash stored) {item : HashItem κ ν}
    (length : (memory item.key).length = item.keylen)
    (fresh : ∀ other, stored other → memory other.key ≠ memory item.key) :
    Holds memory (addHashItem hash (memory item.key) item) fun other => stored other ∨ other = item := by
  have absent : ¬ stored item := fun inside => fresh item inside rfl
  constructor
  · apply nodup_setList _ holds.nodup
    rw [List.nodup_cons]
    exact ⟨fun member => absent ((holds.mem _ _).mp member).1, holds.nodup _⟩
  · intro value other
    rw [addHashItem, mem_setList]
    change _ ↔ _ ∧ value = hash.hashval (memory other.key)
    by_cases here : value = hash.hashval (memory item.key)
    · rw [if_pos here, List.mem_cons, holds.mem, ← here]
      constructor
      · rintro (rfl | ⟨inside, same⟩)
        · exact ⟨.inr rfl, here⟩
        · exact ⟨.inl inside, same⟩
      · rintro ⟨inside | rfl, same⟩
        · exact .inr ⟨inside, same⟩
        · exact .inl rfl
    · rw [if_neg here, holds.mem]
      constructor
      · rintro ⟨inside, same⟩
        exact ⟨.inl inside, same⟩
      · rintro ⟨inside | rfl, same⟩
        · exact ⟨inside, same⟩
        · exact absurd same here
  · rintro other (inside | rfl)
    · exact holds.length other inside
    · exact length
  · rintro first second (inside | rfl) (also | rfl) same
    · exact holds.unique first second inside also same
    · exact absurd same (fresh first inside)
    · exact absurd same.symm (fresh second also)
    · rfl

section Items

variable [DecidableEq κ] [DecidableEq ν]

theorem Holds.get_some (holds : Holds memory hash stored) {item : HashItem κ ν} (inside : stored item) :
    ∃ next, getHashItem memory hash (memory item.key) = some (item, next) ∧ Holds memory next stored := by
  have member := (holds.mem (hash.hashval (memory item.key)) item).mpr ⟨inside, rfl⟩
  cases found : (hash.hash (hash.hashval (memory item.key))).find? (matchesKey memory (memory item.key)) with
  | none =>
      rw [List.find?_eq_none] at found
      exact absurd ((holds.matches_iff inside _).mpr rfl) (found item member)
  | some other =>
      have there := List.mem_of_find?_eq_some found
      have stores := ((holds.mem _ _).mp there).1
      have same := (holds.matches_iff stores _).mp (List.find?_some found)
      obtain rfl : other = item := holds.unique _ _ stores inside same
      refine ⟨_, ?_, holds.reorder (List.perm_cons_erase there).symm⟩
      rw [getHashItem, found]

theorem Holds.get_none (holds : Holds memory hash stored) {key : List UInt8}
    (missing : ∀ item, stored item → memory item.key ≠ key) : getHashItem memory hash key = none := by
  have nothing : (hash.hash (hash.hashval key)).find? (matchesKey memory key) = none := by
    rw [List.find?_eq_none]
    intro item member fits
    have stores := ((holds.mem _ _).mp member).1
    exact missing item stores ((holds.matches_iff stores key).mp fits)
  rw [getHashItem, nothing]

theorem Holds.del (holds : Holds memory hash stored) (item : HashItem κ ν) :
    Holds memory (delHashItem hash item) fun other => stored other ∧ other ≠ item where
  nodup value := (holds.nodup value).erase item
  mem := by
    intro value other
    change other ∈ (hash.hash value).erase item ↔ _ ∧ value = hash.hashval (memory other.key)
    rw [(holds.nodup value).mem_erase_iff, holds.mem]
    constructor
    · rintro ⟨apart, inside, same⟩
      exact ⟨⟨inside, apart⟩, same⟩
    · rintro ⟨⟨inside, apart⟩, same⟩
      exact ⟨apart, inside, same⟩
  length other inside := holds.length other inside.1
  unique first second inside also := holds.unique first second inside.1 also.1

end Items

theorem Holds.memory_congr (holds : Holds memory hash stored) {later : κ → List UInt8}
    (same : ∀ item, stored item → later item.key = memory item.key) : Holds later hash stored where
  nodup := holds.nodup
  mem := by
    intro value item
    rw [holds.mem]
    constructor
    · rintro ⟨inside, here⟩
      exact ⟨inside, by rw [same item inside, here]⟩
    · rintro ⟨inside, here⟩
      exact ⟨inside, by rw [here, same item inside]⟩
  length item inside := by rw [same item inside, holds.length item inside]
  unique first second inside also equal := by
    rw [same first inside, same second also] at equal
    exact holds.unique first second inside also equal

theorem Holds.stored_congr (holds : Holds memory hash stored) {other : HashItem κ ν → Prop}
    (same : ∀ item, other item ↔ stored item) : Holds memory hash other := by
  have equal : other = stored := funext fun item => propext (same item)
  rwa [equal]

end KcnTools.Util
