import KcnTools.Util.FastfindBuild

/-!
The whole index of a list of keys within the limits: the alphabet and the lengths of the keys,
and the tree that is built from them.
-/

namespace KcnTools.Util

open Trie

variable {δ : Type} {fold : UInt8 → UInt8}

/-- The limits of `fastfind.c`. The characters are those after the case folding. -/
structure Indexable (fold : UInt8 → UInt8) (keys : List (List UInt8 × δ)) : Prop where
  nonempty : ∀ entry ∈ keys, entry.1 ≠ []
  short : ∀ entry ∈ keys, entry.1.length ≤ ffMaxKeylen
  sevenBit : ∀ entry ∈ keys, ∀ c ∈ entry.1, (fold c).toNat < ffMaxChars
  distinct : (keys.map fun entry => entry.1.map fold).Nodup
  few : keys.length < ffMaxKeys
  leafsets : (leafsetPaths (keys.map fun entry => entry.1.map fold)).length ≤ ffMaxLeafsets

structure AlphabetOk (uniqChars : List UInt8) : Prop where
  distinct : uniqChars.Nodup
  sevenBit : ∀ k ∈ uniqChars, k.toNat < ffMaxChars

theorem AlphabetOk.length_le {uniqChars : List UInt8} (ok : AlphabetOk uniqChars) :
    uniqChars.length ≤ ffMaxChars := by
  have inside : uniqChars.map UInt8.toNat ⊆ List.range ffMaxChars := by
    intro n member
    obtain ⟨k, there, rfl⟩ := List.mem_map.mp member
    exact List.mem_range.mpr (ok.sevenBit k there)
  have distinct := ok.distinct.map fun _ _ same => UInt8.toNat_inj.mp same
  have shorter := (List.Nodup.subperm distinct inside).length_le
  rwa [List.length_map, List.length_range] at shorter

theorem AlphabetOk.concat {uniqChars : List UInt8} (ok : AlphabetOk uniqChars) {k : UInt8}
    (low : k.toNat < ffMaxChars) (fresh : k ∉ uniqChars) : AlphabetOk (uniqChars ++ [k]) where
  distinct := List.nodup_append.mpr ⟨ok.distinct, List.nodup_singleton k, by
    rintro _ member _ last rfl
    exact fresh (List.mem_singleton.mp last ▸ member)⟩
  sevenBit := by
    intro other member
    rcases List.mem_append.mp member with old | new
    · exact ok.sevenBit other old
    · rw [List.mem_singleton.mp new]
      exact low

theorem char2idx_eq_some {uniqChars : List UInt8} (distinct : uniqChars.Nodup) (k : UInt8) (i : Nat) :
    char2idx k uniqChars = some i ↔ uniqChars[i]? = some k := by
  rw [char2idx, List.findIdx?_eq_some_iff_getElem]
  constructor
  · rintro ⟨inside, found, _⟩
    rw [List.getElem?_eq_getElem inside, beq_iff_eq.mp found]
  · intro there
    obtain ⟨inside, found⟩ := List.getElem?_eq_some_iff.mp there
    refine ⟨inside, beq_iff_eq.mpr found, ?_⟩
    intro j before same
    have equal := (List.Nodup.getElem_inj_iff distinct).mp ((beq_iff_eq.mp (by simpa using same)).trans found.symm)
    omega

theorem char2idx_isNone (k : UInt8) (uniqChars : List UInt8) :
    (char2idx k uniqChars).isNone = true ↔ k ∉ uniqChars := by
  rw [char2idx, Option.isNone_iff_eq_none, List.findIdx?_eq_none_iff]
  constructor
  · intro nowhere member
    simpa using nowhere k member
  · intro absent other member
    simp only [beq_eq_false_iff_ne]
    rintro rfl
    exact absent member

theorem addUniqChars_spec (key : List UInt8) {uniqChars : List UInt8} (ok : AlphabetOk uniqChars)
    (low : ∀ c ∈ key, (fold c).toNat < ffMaxChars) :
    ∃ next, addUniqChars fold uniqChars key = some next ∧ AlphabetOk next ∧ uniqChars ⊆ next ∧
      ∀ c ∈ key, fold c ∈ next := by
  induction key generalizing uniqChars with
  | nil => exact ⟨uniqChars, rfl, ok, List.Subset.refl _, fun c member => absurd member List.not_mem_nil⟩
  | cons c key ih =>
      rw [List.forall_mem_cons] at low
      rw [addUniqChars, if_neg (Nat.not_le.mpr low.1)]
      by_cases known : fold c ∈ uniqChars
      · rw [if_neg (fun missing => (char2idx_isNone _ _).mp missing known)]
        obtain ⟨next, added, nextOk, kept, all⟩ := ih ok low.2
        exact ⟨next, added, nextOk, kept, List.forall_mem_cons.mpr ⟨kept known, all⟩⟩
      · have longer := ok.concat low.1 known
        have room := longer.length_le
        rw [List.length_append, List.length_singleton] at room
        rw [if_pos ((char2idx_isNone _ _).mpr known), if_pos (Nat.lt_of_succ_le room)]
        obtain ⟨next, added, nextOk, kept, all⟩ := ih longer low.2
        refine ⟨next, added, nextOk, ?_, List.forall_mem_cons.mpr ⟨kept (by simp), all⟩⟩
        exact List.Subset.trans (List.subset_append_left _ _) kept

theorem measureKeys_spec (keys : List (List UInt8 × δ)) {info : FastfindInfo δ}
    (ok : AlphabetOk info.uniqChars) (nonempty : ∀ entry ∈ keys, entry.1 ≠ [])
    (short : ∀ entry ∈ keys, entry.1.length ≤ ffMaxKeylen)
    (low : ∀ entry ∈ keys, ∀ c ∈ entry.1, (fold c).toNat < ffMaxChars) :
    ∃ minKeyLen maxKeyLen uniqChars, measureKeys fold info keys =
        some { info with
          minKeyLen := minKeyLen
          maxKeyLen := maxKeyLen
          uniqChars := uniqChars
          count := info.count + keys.length } ∧
      AlphabetOk uniqChars ∧ info.uniqChars ⊆ uniqChars ∧
      minKeyLen ≤ info.minKeyLen ∧ info.maxKeyLen ≤ maxKeyLen ∧
      ∀ entry ∈ keys, minKeyLen ≤ entry.1.length ∧ entry.1.length ≤ maxKeyLen ∧
        ∀ c ∈ entry.1, fold c ∈ uniqChars := by
  induction keys generalizing info with
  | nil =>
      exact ⟨_, _, _, rfl, ok, List.Subset.refl _, Nat.le_refl _, Nat.le_refl _,
        fun entry member => absurd member List.not_mem_nil⟩
  | cons entry keys ih =>
      rw [List.forall_mem_cons] at nonempty short low
      obtain ⟨next, added, nextOk, kept, all⟩ := addUniqChars_spec entry.1 ok low.1
      have measured := @ih { info with
        minKeyLen := min info.minKeyLen entry.1.length
        maxKeyLen := max info.maxKeyLen entry.1.length
        uniqChars := next
        count := info.count + 1 } nextOk nonempty.2 short.2 low.2
      obtain ⟨minKeyLen, maxKeyLen, uniqChars, result, finalOk, grown, least, most, bounds⟩ := measured
      refine ⟨minKeyLen, maxKeyLen, uniqChars, ?_, finalOk, List.Subset.trans kept grown, ?_, ?_, ?_⟩
      · rw [measureKeys, if_pos ⟨List.length_pos_iff.mpr nonempty.1, short.1⟩, added]
        simp only [result, List.length_cons, Nat.add_assoc, Nat.add_comm 1]
      · simp only at least
        omega
      · simp only at most
        omega
      · refine List.forall_mem_cons.mpr ⟨⟨?_, ?_, fun c member => grown (all c member)⟩, bounds⟩
        · simp only at least
          omega
        · simp only at most
          omega

theorem idx_initIdxtab (info : FastfindInfo δ) (k : UInt8) :
    (initIdxtab info).idx k = if k.toNat < ffMaxChars then char2idx k info.uniqChars else none := by
  rw [FastfindInfo.idx, initIdxtab, List.getElem?_map]
  by_cases low : k.toNat < ffMaxChars
  · rw [if_pos low, List.getElem?_range low, Option.map_some, Option.join_some, UInt8.ofNat_toNat]
  · rw [if_neg low, List.getElem?_eq_none (by rw [List.length_range]; omega)]
    rfl

theorem built_root {info : FastfindInfo δ}
    (alphabet : ∀ k i, info.idx k = some i ↔ info.uniqChars[i]? = some k)
    (sevenBit : ∀ k, ffMaxChars ≤ k.toNat → info.idx k = none) (heap : info.heap = [none])
    (leafsets : info.leafsets = [0]) (data : info.data = []) :
    Built fold { grown info with rootLeafset := 1 } [[]] [] := by
  have start : Numbered info 0 := by
    refine ⟨leafsets, by rw [heap]; rfl, ?_⟩
    intro leafset first last
    omega
  have numbered : Numbered (grown info) 1 := start.grown
  have empty : ∀ k, letterNode (grown info) 1 k = none ∨
      letterNode (grown info) 1 k = some emptyNode := by
    intro k
    rw [numbered.letterNode_eq (i := 0) Nat.one_pos]
    cases (grown info).idx k with
    | none => exact .inl rfl
    | some j =>
        rw [Option.bind_some, FastfindInfo.node, block_grown, if_pos (by rw [start.heap]),
          Option.bind_some, List.getElem?_replicate]
        split
        · exact .inr rfl
        · exact .inl rfl
  have only : ∀ (node : Nat) path, ([[]] : List (List UInt8))[node]? = some path → node = 0 ∧ path = [] := by
    intro node path here
    have inside := (List.getElem?_eq_some_iff.mp here).1
    obtain rfl : node = 0 := by simpa using inside
    exact ⟨rfl, (Option.some.inj here).symm⟩
  refine ⟨alphabet, sevenBit, ⟨numbered.leafsets, numbered.heap, numbered.wide⟩, rfl, rfl, data, ?_⟩
  have nodes : trieNodes { grown info with rootLeafset := 1 } = trieNodes (grown info) := rfl
  rw [nodes]
  constructor
  · exact List.nodup_singleton []
  · intro path letter member
    simp at member
  · intro node path letter below here
    obtain ⟨rfl, rfl⟩ := only node path here
    rw [(trieNodes_of_empty (empty letter)).2]
    constructor
    · intro child
      cases child
    · intro there
      cases (only below _ there).2
  · intro node path letter p here
    obtain ⟨rfl, rfl⟩ := only node path here
    rw [(trieNodes_of_empty (empty letter)).1]
    constructor
    · intro marked
      cases marked
    · intro member
      cases member
  · intro path rest p member more
    cases member

theorem addKeys_spec {words : List (List UInt8)}
    (limit : (leafsetPaths words).length ≤ ffMaxLeafsets) (keys : List (List UInt8 × δ))
    {done : List (List UInt8 × δ)} {info : FastfindInfo δ} {paths : List (List UInt8)}
    (built : Built fold info paths done) (nonempty : ∀ entry ∈ keys, entry.1 ≠ [])
    (known : ∀ entry ∈ keys, ∀ c ∈ entry.1, fold c ∈ info.uniqChars)
    (listed : ∀ entry ∈ keys, entry.1.map fold ∈ words)
    (distinct : ((done ++ keys).map fun entry => entry.1.map fold).Nodup)
    (few : (done ++ keys).length < ffMaxKeys) (inUse : ∀ path ∈ paths, InUse words path) :
    ∃ next later, keys.foldlM (fun info entry => addKey fold info entry.1 entry.2) info = some next ∧
      Built fold next later (done ++ keys) ∧
      (∃ data heap leafsets, next = { info with data := data, heap := heap, leafsets := leafsets }) ∧
      ∀ path ∈ later, InUse words path := by
  induction keys generalizing done info paths with
  | nil =>
      rw [List.append_nil]
      exact ⟨info, paths, rfl, built, ⟨_, _, _, rfl⟩, inUse⟩
  | cons entry keys ih =>
      rw [List.forall_mem_cons] at nonempty known listed
      have chars : ∀ c ∈ entry.1, ∃ lidx, info.idx (fold c) = some lidx := by
        intro c member
        obtain ⟨lidx, there⟩ := List.mem_iff_getElem?.mp (known.1 c member)
        exact ⟨lidx, (built.alphabet (fold c) lidx).mpr there⟩
      have fresh : ∀ old, (entry.1.map fold, old) ∉ keyWords fold done := by
        intro old member
        obtain ⟨⟨other, place⟩, there, same⟩ := List.mem_map.mp member
        have inDone := (List.mem_zipIdx' there).2
        rw [List.map_append, List.map_cons] at distinct
        have apart := (List.nodup_append.mp distinct).2.2 (other.1.map fold)
          (List.mem_map.mpr ⟨other, inDone ▸ List.getElem_mem _, rfl⟩) _ List.mem_cons_self
        exact apart (Prod.mk.inj same).1
      rw [List.append_cons] at distinct few
      obtain ⟨next, later, added, after, ⟨data, heap, leafsets, same⟩, used⟩ :=
        built.addKey entry.2 limit listed.1 nonempty.1 chars fresh
          (by simp at few; omega) inUse
      subst same
      obtain ⟨final, last, all, ended, ⟨_, _, _, more⟩, finally_used⟩ := ih after nonempty.2 known.2
        listed.2 distinct few used
      refine ⟨final, last, ?_, ?_, ⟨_, _, _, more⟩, finally_used⟩
      · rw [List.foldlM_cons, added]
        exact all
      · rw [List.append_cons]
        exact ended

structure Indexed (fold : UInt8 → UInt8) (info : FastfindInfo δ) (paths : List (List UInt8))
    (keys : List (List UInt8 × δ)) : Prop where
  built : Built fold info paths keys
  chars : AlphabetOk info.uniqChars
  lengths : ∀ entry ∈ keys, info.minKeyLen ≤ entry.1.length ∧ entry.1.length ≤ info.maxKeyLen
  known : ∀ entry ∈ keys, ∀ c ∈ entry.1, fold c ∈ info.uniqChars
  inUse : ∀ path ∈ paths, InUse (keys.map fun entry => entry.1.map fold) path

theorem buildTree_spec {keys : List (List UInt8 × δ)} (indexable : Indexable fold keys)
    (some_key : keys ≠ []) {info : FastfindInfo δ} (chars : AlphabetOk info.uniqChars)
    (heap : info.heap = [none]) (leafsets : info.leafsets = [0]) (data : info.data = [])
    (count : info.count = keys.length) (bounds : ∀ entry ∈ keys, info.minKeyLen ≤ entry.1.length ∧
      entry.1.length ≤ info.maxKeyLen ∧ ∀ c ∈ entry.1, fold c ∈ info.uniqChars) :
    ∃ next paths, buildTree fold info keys = some next ∧ Indexed fold next paths keys ∧
      next.flags = info.flags := by
  have alphabet : ∀ k i, (initIdxtab info).idx k = some i ↔ info.uniqChars[i]? = some k := by
    intro k i
    rw [idx_initIdxtab, ← char2idx_eq_some chars.distinct]
    split
    next low => rfl
    next high =>
      constructor
      · intro nothing
        cases nothing
      · intro found
        have there := (char2idx_eq_some chars.distinct k i).mp found
        exact absurd (chars.sevenBit k (List.mem_of_getElem? there)) high
  have sevenBit : ∀ k, ffMaxChars ≤ k.toNat → (initIdxtab info).idx k = none := by
    intro k high
    rw [idx_initIdxtab, if_neg (Nat.not_lt.mpr high)]
  have root : Built fold { grown (initIdxtab info) with rootLeafset := 1 } [[]] [] :=
    built_root alphabet sevenBit heap leafsets data
  have rootUse : ∀ path ∈ [[]], InUse (keys.map fun entry => entry.1.map fold) path := by
    intro path member
    obtain ⟨entry, inKeys⟩ := List.exists_mem_of_ne_nil keys some_key
    rw [List.mem_singleton.mp member]
    exact ⟨_, List.mem_map.mpr ⟨entry, inKeys, rfl⟩, List.nil_prefix⟩
  obtain ⟨next, paths, added, built, ⟨_, _, _, same⟩, inUse⟩ := addKeys_spec indexable.leafsets keys root
    indexable.nonempty (fun entry member => (bounds entry member).2.2)
    (fun entry member => List.mem_map.mpr ⟨entry, member, rfl⟩) (by rw [List.nil_append]; exact indexable.distinct)
    (by rw [List.nil_append]; exact indexable.few) rootUse
  rw [List.nil_append] at built
  refine ⟨next, paths, ?_, ⟨built, ?_, ?_, ?_, inUse⟩, ?_⟩
  · have alloc : allocLeafset (initIdxtab info) = some (grown (initIdxtab info)) := by
      rw [allocLeafset, if_pos]
      · rfl
      · rw [FastfindInfo.leafsetsCount, initIdxtab, leafsets]
        decide
    have address : (grown (initIdxtab info)).leafsets[(grown (initIdxtab info)).leafsetsCount]? = some 1 := by
      simp only [FastfindInfo.leafsetsCount, grown, initIdxtab, leafsets, heap]
      rfl
    have fits : (grown (initIdxtab info)).count < ffMaxKeys := by
      simp only [grown, initIdxtab, count]
      exact indexable.few
    rw [buildTree, alloc]
    simp only [Option.bind_eq_bind, Option.bind_some, address, if_pos fits]
    exact added
  · rw [same]
    exact chars
  · rw [same]
    exact fun entry member => ⟨(bounds entry member).1, (bounds entry member).2.1⟩
  · rw [same]
    exact fun entry member => (bounds entry member).2.2
  · rw [same]
    rfl

end KcnTools.Util
