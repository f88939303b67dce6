import KcnTools.Util.FastfindCompress

/-!
What a search of the finished index gives, compared with looking through the list of keys.
-/

namespace KcnTools.Util

open Trie

variable {δ : Type} {fold : UInt8 → UInt8} {info : FastfindInfo δ} {paths : List (List UInt8)}
  {keys : List (List UInt8 × δ)}

def lookup (fold : UInt8 → UInt8) (keys : List (List UInt8 × δ)) (key : List UInt8) : Option δ :=
  (keys.find? fun entry => entry.1.map fold = key.map fold).map Prod.snd

inductive Reachable (info : FastfindInfo δ) : Nat → Prop
  | root : info.rootLeafset ≠ 0 → Reachable info info.rootLeafset
  | child {address below : Nat} {nodes : List FfNode} {node : FfNode} : Reachable info address →
      info.block address = some nodes → node ∈ nodes → node.l ≠ 0 →
      info.leafsets[node.l]? = some below → Reachable info below

structure PlainLookup (toupper : UInt8 → UInt8) (flags : FastfindFlags) (keys : List (List UInt8 × δ))
    (info : FastfindInfo δ) : Prop where
  search : ∀ key, fastfindSearch toupper info key = some (lookup (ifcase toupper flags) keys key)
  live : ∀ address, Reachable info address → (info.block address).isSome = true

theorem mem_keyWords {word : List UInt8} {p : Nat} :
    (word, p) ∈ keyWords fold keys ↔ ∃ entry, keys[p]? = some entry ∧ entry.1.map fold = word := by
  rw [keyWords, List.mem_map]
  constructor
  · rintro ⟨⟨entry, place⟩, member, same⟩
    obtain ⟨rfl, rfl⟩ := Prod.mk.inj same
    exact ⟨entry, List.mem_zipIdx_iff_getElem?.mp member, rfl⟩
  · rintro ⟨entry, there, rfl⟩
    exact ⟨(entry, p), List.mem_zipIdx_iff_getElem?.mpr there, rfl⟩

theorem Built.dataOf (built : Built fold info paths keys) : DataOf info (keyWords fold keys) where
  data := by
    intro word p member
    obtain ⟨entry, there, rfl⟩ := mem_keyWords.mp member
    refine ⟨⟨entry.2, entry.1.length⟩, ?_, (List.length_map _).symm⟩
    rw [built.data, keyData, List.getElem?_map, there]
    rfl

theorem lookup_eq_some (distinct : (keys.map fun entry => entry.1.map fold).Nodup) {key : List UInt8}
    {p : Nat} {entry : List UInt8 × δ} (there : keys[p]? = some entry)
    (same : entry.1.map fold = key.map fold) : lookup fold keys key = some entry.2 := by
  have member := List.mem_of_getElem? there
  obtain ⟨other, found⟩ : ∃ other, (keys.find? fun entry => entry.1.map fold = key.map fold) = some other := by
    rw [← Option.isSome_iff_exists, List.find?_isSome]
    exact ⟨entry, member, by simpa using same⟩
  have equal : other.1.map fold = entry.1.map fold := by
    have matched := List.find?_some found
    rw [decide_eq_true_eq] at matched
    rw [matched, same]
  have sameEntry := List.inj_on_of_nodup_map distinct (List.mem_of_find?_eq_some found) member equal
  rw [lookup, found, sameEntry, Option.map_some]

theorem find_eq_lookup {words : List (List UInt8 × Nat)} (isWords : words = keyWords fold keys)
    (stores : Stores (trieNodes info) paths words) (root : paths[0]? = some [])
    (data : info.data = keyData keys) (distinct : (keys.map fun entry => entry.1.map fold).Nodup)
    (nonempty : ∀ entry ∈ keys, entry.1 ≠ []) (key : List UInt8) :
    (find (trieNodes info) 0 (key.map fold)).bind (pointerAt info) = lookup fold keys key := by
  subst isWords
  have absent : (∀ p, (key.map fold, p) ∉ keyWords fold keys) → lookup fold keys key = none := by
    intro nowhere
    rw [lookup, Option.map_eq_none_iff, List.find?_eq_none]
    intro entry member same
    obtain ⟨p, there⟩ := List.mem_iff_getElem?.mp member
    exact nowhere p (mem_keyWords.mpr ⟨entry, there, by simpa using same⟩)
  by_cases empty : key = []
  · rw [absent]
    · rw [empty]
      rfl
    · intro p member
      obtain ⟨entry, there, same⟩ := mem_keyWords.mp member
      rw [empty, List.map_nil, List.map_eq_nil_iff] at same
      exact nonempty entry (List.mem_of_getElem? there) same
  · have more : key.map fold ≠ [] := fun nothing => empty (List.map_eq_nil_iff.mp nothing)
    cases found : find (trieNodes info) 0 (key.map fold) with
    | none =>
        rw [absent, Option.bind_none]
        intro p member
        rw [(stores.find_iff root more p).mpr member] at found
        cases found
    | some p =>
        have member := (stores.find_iff root more p).mp found
        obtain ⟨entry, there, same⟩ := mem_keyWords.mp member
        rw [lookup_eq_some distinct there same, Option.bind_some, pointerAt, data, keyData,
          List.getElem?_map, there]
        rfl

theorem plainLookup_of_linked {toupper : UInt8 → UInt8} {flags : FastfindFlags}
    (indexable : Indexable (ifcase toupper flags) keys) (sameFlags : info.flags = flags)
    (linked : Linked info paths.length)
    (stores : Stores (trieNodes info) paths (keyWords (ifcase toupper flags) keys))
    (dataOf : DataOf info (keyWords (ifcase toupper flags) keys)) (data : info.data = keyData keys)
    (root : paths[0]? = some []) (rootLeafset : info.leafsets[1]? = some info.rootLeafset)
    (lengths : ∀ entry ∈ keys, info.minKeyLen ≤ entry.1.length ∧ entry.1.length ≤ info.maxKeyLen) :
    PlainLookup toupper flags keys info where
  search := by
    intro key
    have missing : (∀ entry ∈ keys, entry.1.length ≠ key.length) →
        lookup (ifcase toupper flags) keys key = none := by
      intro none_long
      rw [lookup, Option.map_eq_none_iff, List.find?_eq_none]
      intro entry member same
      have equal := congrArg List.length (of_decide_eq_true same)
      rw [List.length_map, List.length_map] at equal
      exact none_long entry member equal
    rw [fastfindSearch, sameFlags]
    split
    next long =>
      rw [missing]
      intro entry member
      have bounds := lengths entry member
      omega
    next =>
      split
      next short =>
        rw [missing]
        intro entry member
        have bounds := lengths entry member
        omega
      next =>
        rw [ffSearch_eq (ifcase toupper flags) linked stores dataOf root rootLeafset (by simp),
          find_eq_lookup rfl stores root data indexable.distinct indexable.nonempty]
  live := by
    have live : ∀ leafset address, leafset ≠ 0 → info.leafsets[leafset]? = some address →
        (info.block address).isSome = true := by
      intro leafset address positive there
      have inside := (List.getElem?_eq_some_iff.mp there).1
      rw [linked.size] at inside
      obtain ⟨other, nodes, here, block, _⟩ := linked.block (leafset - 1) (by omega)
      rw [show leafset - 1 + 1 = leafset by omega, there] at here
      rw [Option.some.inj here, block]
      rfl
    intro address reachable
    cases reachable with
    | root _ => exact live 1 _ Nat.one_ne_zero rootLeafset
    | child _ _ _ positive there => exact live _ _ positive there

/-- The characters in use in the root leafset are the first ones of the keys. -/
theorem usedAt_root (indexed : Indexed fold info paths keys) {address : Nat} {nodes : List FfNode}
    (leafset : info.leafsets[1]? = some address) (block : info.block address = some nodes)
    (wide : WideBlock info.uniqChars.length nodes) {j : Nat} {k : UInt8}
    (char : info.uniqChars[j]? = some k) :
    usedAt nodes j = true ↔ ∃ entry ∈ keys, (entry.1.map fold).head? = some k := by
  have stores := indexed.built.stores
  have root := indexed.built.root
  have inside : j < nodes.length := by
    rw [wide.size]
    exact (List.getElem?_eq_some_iff.mp char).1
  have found := List.getElem?_eq_getElem inside
  have letter : letterNode info (0 + 1) k = some nodes[j] :=
    indexed.built.linked.letterNode_wide leafset block wide found char
  obtain ⟨mark, child⟩ := trieNodes_of_letter letter
  rw [usedAt, found, Option.any_some, Bool.or_eq_true, decide_eq_true_eq]
  constructor
  · rintro (leaf | ends)
    · rw [if_neg leaf] at child
      have there := (stores.child 0 [] k _ root).mp child
      obtain ⟨word, member, begins⟩ := indexed.inUse _ (List.mem_of_getElem? there)
      obtain ⟨entry, inKeys, rfl⟩ := List.mem_map.mp member
      obtain ⟨rest, starts⟩ := begins.trans (List.dropLast_prefix _)
      exact ⟨entry, inKeys, by rw [← starts]; rfl⟩
    · rw [if_pos ends] at mark
      obtain ⟨entry, there, same⟩ := mem_keyWords.mp ((stores.mark 0 [] k _ root).mp mark)
      exact ⟨entry, List.mem_of_getElem? there, by rw [same]; rfl⟩
  · rintro ⟨entry, inKeys, first⟩
    obtain ⟨p, there⟩ := List.mem_iff_getElem?.mp inKeys
    have word : (entry.1.map fold, p) ∈ keyWords fold keys := mem_keyWords.mpr ⟨entry, there, rfl⟩
    cases split : entry.1.map fold with
    | nil =>
        rw [split] at first
        cases first
    | cons c rest =>
        rw [split] at first word
        obtain rfl : c = k := Option.some.inj first
        cases rest with
        | nil =>
            right
            by_contra unmarked
            rw [if_neg unmarked, (stores.mark 0 [] c p root).mpr word] at mark
            cases mark
        | cons next rest =>
            left
            intro leaf
            rw [if_pos leaf] at child
            have path := stores.reached [c] (next :: rest) p word (List.cons_ne_nil next rest)
            exact (stores.child_eq_none root).mp child path

theorem usedCount_root (indexed : Indexed fold info paths keys) (some_key : keys ≠ [])
    (nonempty : ∀ entry ∈ keys, entry.1 ≠ []) {address : Nat} {nodes : List FfNode}
    (leafset : info.leafsets[1]? = some address) (block : info.block address = some nodes)
    (wide : WideBlock info.uniqChars.length nodes) :
    usedCount nodes = 1 ↔ ∃ k, ∀ entry ∈ keys, (entry.1.map fold).head? = some k := by
  have firsts : ∀ entry ∈ keys, ∃ (j : Nat) (k : UInt8),
      info.uniqChars[j]? = some k ∧ (entry.1.map fold).head? = some k := by
    intro entry inKeys
    obtain ⟨c, rest, split⟩ := List.exists_cons_of_ne_nil (nonempty entry inKeys)
    have member : c ∈ entry.1 := split ▸ List.mem_cons_self
    obtain ⟨j, there⟩ := List.mem_iff_getElem?.mp (indexed.known entry inKeys c member)
    exact ⟨j, fold c, there, by rw [split]; rfl⟩
  have used := fun (j : Nat) (k : UInt8) (char : info.uniqChars[j]? = some k) =>
    usedAt_root indexed leafset block wide char
  have listed : ∀ (j : Nat) (k : UInt8), info.uniqChars[j]? = some k →
      (j ∈ (List.range nodes.length).filter (usedAt nodes) ↔ usedAt nodes j = true) := by
    intro j k char
    have inside := (List.getElem?_eq_some_iff.mp char).1
    rw [List.mem_filter, List.mem_range, wide.size]
    exact and_iff_right inside
  constructor
  · intro single
    obtain ⟨pos, filtered⟩ := List.length_eq_one_iff.mp single
    obtain ⟨entry, inKeys⟩ := List.exists_mem_of_ne_nil keys some_key
    obtain ⟨j, k, char, first⟩ := firsts entry inKeys
    have here := (listed j k char).mpr ((used j k char).mpr ⟨entry, inKeys, first⟩)
    rw [filtered, List.mem_singleton] at here
    refine ⟨k, ?_⟩
    intro other inList
    obtain ⟨l, a, there, begins⟩ := firsts other inList
    have same := (listed l a there).mpr ((used l a there).mpr ⟨other, inList, begins⟩)
    rw [filtered, List.mem_singleton, ← here] at same
    rw [same, char] at there
    rw [begins, there]
  · rintro ⟨k, shared⟩
    obtain ⟨entry, inKeys⟩ := List.exists_mem_of_ne_nil keys some_key
    obtain ⟨j, a, char, first⟩ := firsts entry inKeys
    obtain rfl : a = k := Option.some.inj (first.symm.trans (shared entry inKeys))
    have only : ∀ l, l ∈ (List.range nodes.length).filter (usedAt nodes) ↔ l ∈ [j] := by
      intro l
      rw [List.mem_singleton]
      constructor
      · intro member
        have inside : l < info.uniqChars.length := by
          rw [← wide.size]
          exact List.mem_range.mp (List.mem_filter.mp member).1
        have there := List.getElem?_eq_getElem inside
        obtain ⟨other, inList, begins⟩ := (used l _ there).mp (List.mem_filter.mp member).2
        have same := Option.some.inj (begins.symm.trans (shared other inList))
        rw [same] at there
        exact (List.getElem?_inj inside indexed.chars.distinct).mp (there.trans char.symm)
      · rintro rfl
        exact (listed l a char).mpr ((used l a char).mpr ⟨entry, inKeys, first⟩)
    have same := (List.perm_ext_iff_of_nodup (List.nodup_range.filter _) (List.nodup_singleton j)).mpr only
    exact same.length_eq

theorem several_leafsets (indexed : Indexed fold info paths keys) :
    1 < paths.length ↔ ∃ entry ∈ keys, 2 ≤ entry.1.length := by
  have stores := indexed.built.stores
  have root := indexed.built.root
  constructor
  · intro more
    have here := List.getElem?_eq_getElem more
    obtain ⟨word, member, begins⟩ := indexed.inUse _ (List.getElem_mem more)
    obtain ⟨entry, inKeys, rfl⟩ := List.mem_map.mp member
    refine ⟨entry, inKeys, ?_⟩
    have longer : paths[1] ≠ [] := by
      intro empty
      rw [empty] at here
      have same := (List.getElem?_inj more stores.distinct).mp (here.trans root.symm)
      omega
    have positive := List.length_pos_iff.mpr longer
    have bound := begins.length_le
    rw [List.length_dropLast, List.length_map] at bound
    omega
  · rintro ⟨entry, inKeys, long⟩
    obtain ⟨p, there⟩ := List.mem_iff_getElem?.mp inKeys
    match split : entry.1, long with
    | c :: next :: rest, _ =>
        have word : ([fold c] ++ fold next :: rest.map fold, p) ∈ keyWords fold keys :=
          mem_keyWords.mpr ⟨entry, there, by rw [split]; rfl⟩
        have path := stores.reached _ _ p word (List.cons_ne_nil _ _)
        obtain ⟨place, found⟩ := List.mem_iff_getElem?.mp path
        have inside := (List.getElem?_eq_some_iff.mp found).1
        have other : place ≠ 0 := by
          rintro rfl
          rw [root] at found
          cases found
        omega

theorem fastfindIndex_spec {toupper : UInt8 → UInt8} {flags : FastfindFlags}
    (indexable : Indexable (ifcase toupper flags) keys) (some_key : keys ≠ []) :
    ∃ (info : FastfindInfo δ) (paths : List (List UInt8)), Indexed (ifcase toupper flags) info paths keys ∧
      info.flags = flags ∧ fastfindIndex toupper flags keys =
        if flags.compress then compressTree info.maxKeyLen info info.rootLeafset else some info := by
  obtain ⟨minKeyLen, maxKeyLen, uniqChars, measured, chars, _, _, _, bounds⟩ :=
    @measureKeys_spec _ _ keys (initFastfind flags) ⟨List.nodup_nil, fun _ member => absurd member List.not_mem_nil⟩
      indexable.nonempty indexable.short indexable.sevenBit
  obtain ⟨info, paths, tree, indexed, sameFlags⟩ := @buildTree_spec _ _ _ indexable some_key { initFastfind flags with
    minKeyLen := minKeyLen
    maxKeyLen := maxKeyLen
    uniqChars := uniqChars
    count := 0 + keys.length } chars rfl rfl rfl (Nat.zero_add _) bounds
  refine ⟨info, paths, indexed, sameFlags, ?_⟩
  have count : 0 + keys.length ≠ 0 := by
    have positive := List.length_pos_iff.mpr some_key
    omega
  simp only [initFastfind] at tree
  rw [fastfindIndex, measured]
  simp only [Option.bind_eq_bind, Option.bind_some, initFastfind, count, ↓reduceIte, tree]

theorem Indexed.wideAt (indexed : Indexed fold info paths keys) {i : Nat} (inside : i < paths.length) :
    WideAt info i := by
  obtain ⟨nodes, block, wide⟩ := indexed.built.numbered.wide (i + 1) (by omega) inside
  refine ⟨i + 1, nodes, ?_, block, wide⟩
  rw [indexed.built.numbered.leafsets, List.getElem?_range (by omega)]

theorem Indexed.deep (indexed : Indexed fold info paths keys) (nonempty : ∀ entry ∈ keys, entry.1 ≠ []) :
    ∀ path ∈ paths, path.length < ([] : List UInt8).length + info.maxKeyLen := by
  intro path member
  obtain ⟨word, inWords, begins⟩ := indexed.inUse path member
  obtain ⟨entry, inKeys, rfl⟩ := List.mem_map.mp inWords
  have bound := begins.length_le
  have most := (indexed.lengths entry inKeys).2
  have positive := List.length_pos_iff.mpr (nonempty entry inKeys)
  rw [List.length_dropLast, List.length_map] at bound
  rw [List.length_nil]
  omega

def SingleChildRoot (fold : UInt8 → UInt8) (keys : List (List UInt8 × δ)) : Prop :=
  (∃ k, ∀ entry ∈ keys, (entry.1.map fold).head? = some k) ∧ ∃ entry ∈ keys, 2 ≤ entry.1.length

theorem Indexed.compressTree (indexed : Indexed fold info paths keys) (some_key : keys ≠ [])
    (nonempty : ∀ entry ∈ keys, entry.1 ≠ []) :
    ∃ next, compressTree info.maxKeyLen info info.rootLeafset = some next ∧
      Compressed paths.length (Below paths []) info next ∧
      (SingleChildRoot fold keys → next.block info.rootLeafset = none) ∧
      (¬ SingleChildRoot fold keys → next.leafsets[1]? = some info.rootLeafset) := by
  have root := indexed.built.root
  have inside := (List.getElem?_eq_some_iff.mp root).1
  obtain ⟨address, nodes, leafset, block, wide⟩ := indexed.wideAt inside
  have number : info.leafsets[0 + 1]? = some info.rootLeafset := by
    rw [indexed.built.rootLeafset, indexed.built.numbered.leafsets, List.getElem?_range (by omega)]
  obtain rfl : address = info.rootLeafset := Option.some.inj (leafset.symm.trans number)
  obtain ⟨next, compresses, compressed, rooted⟩ := compressTree_spec info.maxKeyLen info 0 [] _ nodes
    ⟨indexed.built.linked, indexed.built.stores, indexed.chars.length_le⟩ root leafset block
    (fun j below => by
      obtain ⟨other, there, _⟩ := below
      exact indexed.wideAt (List.getElem?_eq_some_iff.mp there).1) (indexed.deep nonempty)
  refine ⟨next, compresses, compressed, ?_, ?_⟩
  · rintro ⟨shared, long⟩
    rwa [if_pos ⟨(usedCount_root indexed some_key nonempty leafset block wide).mpr shared,
      (several_leafsets indexed).mpr long⟩] at rooted
  · intro several
    rw [if_neg fun both => several
      ⟨(usedCount_root indexed some_key nonempty leafset block wide).mp both.1,
        (several_leafsets indexed).mp both.2⟩] at rooted
    exact rooted.leafset.trans leafset

theorem fastfindSearch_freed {toupper : UInt8 → UInt8} {entry : List UInt8 × δ}
    (linked : Linked info paths.length)
    (freed : info.block info.rootLeafset = none) (some_char : entry.1 ≠ [])
    (known : ∀ c ∈ entry.1, ifcase toupper info.flags c ∈ info.uniqChars)
    (bounds : info.minKeyLen ≤ entry.1.length ∧ entry.1.length ≤ info.maxKeyLen) :
    fastfindSearch toupper info entry.1 = none := by
  rw [fastfindSearch, if_neg (Nat.not_lt.mpr bounds.2), if_neg (Nat.not_lt.mpr bounds.1)]
  obtain ⟨c, rest, split⟩ := List.exists_cons_of_ne_nil some_char
  rw [split] at known ⊢
  obtain ⟨lidx, there⟩ := List.mem_iff_getElem?.mp (known c List.mem_cons_self)
  have index := (linked.alphabet _ lidx).mpr there
  have low : ¬ ffMaxChars ≤ (ifcase toupper info.flags c).toNat := by
    intro high
    rw [linked.sevenBit _ high] at index
    cases index
  rw [ffSearch, if_neg low, index]
  simp only [freed, Option.bind_none]

theorem plainLookup_empty (toupper : UInt8 → UInt8) (flags : FastfindFlags) :
    PlainLookup toupper flags ([] : List (List UInt8 × δ)) (initFastfind flags) where
  search := by
    intro key
    have most : (initFastfind flags : FastfindInfo δ).maxKeyLen = 0 := rfl
    have least : (initFastfind flags : FastfindInfo δ).minKeyLen = 255 := rfl
    rw [fastfindSearch, most, least]
    by_cases some_char : 0 < key.length
    · rw [if_pos some_char]
      rfl
    · rw [if_neg some_char, if_pos (by omega)]
      rfl
  live := by
    intro address reachable
    have nothing : False := by
      induction reachable with
      | root some_root => exact some_root rfl
      | child _ _ _ _ _ ih => exact ih
    exact nothing.elim

/-- The index agrees with its list unless compression has freed its root. -/
theorem plainLookup_iff (toupper : UInt8 → UInt8) (flags : FastfindFlags) (keys : List (List UInt8 × δ))
    (indexable : Indexable (ifcase toupper flags) keys) :
    (∃ info, fastfindIndex toupper flags keys = some info ∧ PlainLookup toupper flags keys info) ↔
      ¬ (flags.compress = true ∧ SingleChildRoot (ifcase toupper flags) keys) := by
  by_cases some_key : keys = []
  · subst some_key
    have single : ¬ SingleChildRoot (ifcase toupper flags) ([] : List (List UInt8 × δ)) := by
      rintro ⟨_, entry, member, _⟩
      exact List.not_mem_nil member
    exact iff_of_true ⟨initFastfind flags, rfl, plainLookup_empty toupper flags⟩ fun both => single both.2
  · obtain ⟨info, paths, indexed, rfl, result⟩ := fastfindIndex_spec indexable some_key
    have built := indexed.built
    rw [result]
    by_cases compress : info.flags.compress = true
    · obtain ⟨next, compresses, compressed, freed, kept⟩ :=
        indexed.compressTree some_key indexable.nonempty
      obtain ⟨heap, leafsets, same⟩ := compressed.regrown
      rw [if_pos compress, compresses]
      constructor
      · rintro ⟨final, found, plain⟩ ⟨_, single⟩
        obtain rfl : next = final := Option.some.inj found
        obtain ⟨entry, inKeys⟩ := List.exists_mem_of_ne_nil keys some_key
        have gone := freed single
        subst same
        have fault : fastfindSearch toupper _ entry.1 = none := fastfindSearch_freed compressed.linked gone
          (indexable.nonempty entry inKeys) (indexed.known entry inKeys) (indexed.lengths entry inKeys)
        rw [plain.search entry.1] at fault
        cases fault
      · intro several
        have root := kept fun single => several ⟨compress, single⟩
        subst same
        exact ⟨_, rfl, plainLookup_of_linked indexable rfl compressed.linked
          (compressed.nodes ▸ built.stores) ⟨built.dataOf.data⟩ built.data built.root root indexed.lengths⟩
    · have root : info.leafsets[1]? = some info.rootLeafset := by
        have inside := (List.getElem?_eq_some_iff.mp built.root).1
        rw [built.rootLeafset, built.numbered.leafsets, List.getElem?_range (by omega)]
      rw [if_neg compress]
      exact iff_of_true ⟨info, rfl, plainLookup_of_linked indexable rfl built.linked built.stores
        built.dataOf built.data built.root root indexed.lengths⟩ fun both => compress both.1

/-- `a` and `bc`, compressed and without regard to case. -/
theorem plainLookup_iff_twoKeys :
    ∃ info, fastfindIndex id ⟨false, true, true⟩ [([97], 0), ([98, 99], 1)] = some info ∧
      PlainLookup id ⟨false, true, true⟩ [([97], 0), ([98, 99], 1)] info := by
  refine (plainLookup_iff id ⟨false, true, true⟩ [([97], 0), ([98, 99], 1)]
    ⟨by decide, by decide, by decide +kernel, by decide, by decide, by decide⟩).mpr ?_
  rintro ⟨_, ⟨k, shared⟩, _⟩
  have first := shared ([97], 0) (by simp)
  have second := shared ([98, 99], 1) (by simp)
  exact absurd (first.trans second.symm) (by decide)

/-- A search for the only key `ab` reads the root leafset after it has been freed. -/
theorem plainLookup_iff_oneKey :
    ¬ ∃ info, fastfindIndex id ⟨true, true, true⟩ [([97, 98], 0)] = some info ∧
      PlainLookup id ⟨true, true, true⟩ [([97, 98], 0)] info := by
  rintro ⟨info, found, plain⟩
  have fault : ((fastfindIndex id ⟨true, true, true⟩ [([97, 98], 0)]).bind fun info =>
      fastfindSearch id info [97, 98]) = none := by
    decide +kernel
  rw [found, Option.bind_some, plain.search] at fault
  cases fault

end KcnTools.Util
