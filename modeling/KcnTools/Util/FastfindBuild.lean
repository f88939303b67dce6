import KcnTools.Lib.Modify
import KcnTools.Util.FastfindSearch
import Mathlib

/-!
The tree while the keys are added: leafsets are numbered in the order of their allocation, none
is compressed, and each stands for the beginning of a key.
-/

namespace KcnTools.Util

open Trie

variable {δ : Type} {info : FastfindInfo δ}

def keyWords (fold : UInt8 → UInt8) (keys : List (List UInt8 × δ)) : List (List UInt8 × Nat) :=
  keys.zipIdx.map fun entry => (entry.1.1.map fold, entry.2)

def keyData (keys : List (List UInt8 × δ)) : List (FfData δ) :=
  keys.map fun entry => ⟨entry.2, entry.1.length⟩

structure WideBlock (chars : Nat) (nodes : List FfNode) : Prop where
  size : nodes.length = chars
  uncompressed : ∀ node ∈ nodes, node.c = false

/-- Leafsets are numbered by their addresses, and each has a node for every character. -/
structure Numbered (info : FastfindInfo δ) (count : Nat) : Prop where
  leafsets : info.leafsets = List.range (count + 1)
  heap : info.heap.length = count + 1
  wide : ∀ leafset, 1 ≤ leafset → leafset ≤ count →
    ∃ nodes, info.block leafset = some nodes ∧ WideBlock info.uniqChars.length nodes

structure Built (fold : UInt8 → UInt8) (info : FastfindInfo δ) (paths : List (List UInt8))
    (done : List (List UInt8 × δ)) : Prop where
  alphabet : ∀ k i, info.idx k = some i ↔ info.uniqChars[i]? = some k
  sevenBit : ∀ k, ffMaxChars ≤ k.toNat → info.idx k = none
  numbered : Numbered info paths.length
  root : paths[0]? = some []
  rootLeafset : info.rootLeafset = 1
  data : info.data = keyData done
  stores : Stores (trieNodes info) paths (keyWords fold done)

theorem block_modifyNode (leafset idx address : Nat) (change : FfNode → FfNode) :
    (info.modifyNode leafset idx change).block address =
      if address = leafset then (info.block address).map fun nodes => nodes.modify idx change
      else info.block address := by
  by_cases here : address = leafset
  · subst here
    rw [if_pos rfl, FastfindInfo.block, FastfindInfo.block, FastfindInfo.modifyNode,
      List.getElem?_modify_eq]
    cases info.heap[address]? with
    | none => rfl
    | some block => cases block <;> rfl
  · rw [if_neg here]
    simp [FastfindInfo.block, FastfindInfo.modifyNode, Ne.symm here]

theorem node_modifyNode (leafset idx address other : Nat) (change : FfNode → FfNode) :
    (info.modifyNode leafset idx change).node address other =
      if address = leafset ∧ other = idx then (info.node address other).map change
      else info.node address other := by
  rw [FastfindInfo.node, block_modifyNode, FastfindInfo.node]
  by_cases here : address = leafset
  · rw [if_pos here, Option.bind_map]
    cases info.block address with
    | none => simp
    | some nodes =>
        simp only [Option.bind_some, Function.comp, List.getElem?_modify, here, true_and]
        by_cases same : other = idx
        · rw [if_pos same, same]
          simp
        · rw [if_neg same]
          simp [Ne.symm same]
  · rw [if_neg here, if_neg fun both => here both.1]

variable {fold : UInt8 → UInt8} {paths : List (List UInt8)} {done : List (List UInt8 × δ)}

theorem WideBlock.blockNode {chars lidx : Nat} {nodes : List FfNode} (wide : WideBlock chars nodes) :
    (blockNode nodes lidx).join = nodes[lidx]? := by
  cases nodes with
  | nil => rfl
  | cons first rest =>
      have plain := wide.uncompressed first List.mem_cons_self
      simp only [Util.blockNode, List.getElem?_cons_zero, plain, Bool.false_eq_true, ↓reduceIte]
      cases (first :: rest)[lidx]? <;> rfl

theorem Numbered.letterNode_eq {count i : Nat} (numbered : Numbered info count) (inside : i < count)
    (k : UInt8) : letterNode info (i + 1) k = (info.idx k).bind (info.node (i + 1)) := by
  obtain ⟨nodes, block, wide⟩ := numbered.wide (i + 1) (by omega) (by omega)
  have address : info.leafsets[i + 1]? = some (i + 1) := by
    rw [numbered.leafsets, List.getElem?_range (by omega)]
  cases known : info.idx k with
  | none =>
      simp only [letterNode, known]
      rfl
  | some lidx =>
      simp only [letterNode, known, address, block, Option.bind_eq_bind, Option.bind_some,
        FastfindInfo.node, wide.blockNode]

theorem Built.linked (built : Built fold info paths done) : Linked info paths.length where
  alphabet := built.alphabet
  sevenBit := built.sevenBit
  size := by rw [built.numbered.leafsets, List.length_range]
  distinct := by
    rw [built.numbered.leafsets]
    exact List.nodup_range
  bounded := by
    intro address member
    rw [built.numbered.leafsets, List.mem_range] at member
    rwa [built.numbered.heap]
  block := by
    intro i inside
    obtain ⟨nodes, block, wide⟩ := built.numbered.wide (i + 1) (by omega) inside
    refine ⟨i + 1, nodes, ?_, block, .wide wide.size wide.uncompressed⟩
    rw [built.numbered.leafsets, List.getElem?_range (by omega)]

def InUse (words : List (List UInt8)) (path : List UInt8) : Prop :=
  ∃ word ∈ words, path <+: word.dropLast

def Regrown (info next : FastfindInfo δ) : Prop :=
  ∃ heap leafsets, next = { info with heap := heap, leafsets := leafsets }

theorem Regrown.refl (info : FastfindInfo δ) : Regrown info info := ⟨info.heap, info.leafsets, rfl⟩

theorem Regrown.trans {first second third : FastfindInfo δ} (earlier : Regrown first second)
    (later : Regrown second third) : Regrown first third := by
  obtain ⟨_, _, rfl⟩ := earlier
  obtain ⟨heap, leafsets, rfl⟩ := later
  exact ⟨heap, leafsets, rfl⟩

def grown (info : FastfindInfo δ) : FastfindInfo δ :=
  { info with
    heap := info.heap ++ [some (List.replicate info.uniqChars.length emptyNode)]
    leafsets := info.leafsets ++ [info.heap.length] }

theorem block_grown (address : Nat) :
    (grown info).block address =
      if address = info.heap.length then some (List.replicate info.uniqChars.length emptyNode)
      else info.block address := by
  simp only [grown, FastfindInfo.block]
  by_cases fresh : address = info.heap.length
  · rw [if_pos fresh, fresh, List.getElem?_concat_length]
    rfl
  · rw [if_neg fresh]
    by_cases old : address < info.heap.length
    · rw [List.getElem?_append_left old]
    · rw [List.getElem?_eq_none (by simp; omega), List.getElem?_eq_none (by omega)]

def linkLeaf (info : FastfindInfo δ) (leafset idx : Nat) : FastfindInfo δ :=
  (grown info).modifyNode leafset idx fun node => { node with l := (grown info).leafsetsCount % 2 ^ 13 }

theorem growLeaf_eq {leafset idx : Nat} {node : FfNode} (found : info.node leafset idx = some node)
    (few : info.leafsetsCount < ffMaxLeafsets) :
    growLeaf info leafset idx = some (if node.l = 0 then linkLeaf info leafset idx else info) := by
  rw [growLeaf, found]
  simp only [allocLeafset, if_pos few, Option.map_some, linkLeaf, grown]
  split <;> rfl

theorem Numbered.leafsetsCount {count : Nat} (numbered : Numbered info count) :
    info.leafsetsCount = count := by
  rw [FastfindInfo.leafsetsCount, numbered.leafsets, List.length_range]
  rfl

theorem Numbered.grown_leafsetsCount {count : Nat} (numbered : Numbered info count) :
    (grown info).leafsetsCount = count + 1 := by
  simp [FastfindInfo.leafsetsCount, grown, numbered.leafsets]

theorem Numbered.node_linkLeaf {count : Nat} (numbered : Numbered info count)
    (few : count < ffMaxLeafsets) {leafset : Nat} (old : leafset ≤ count) (idx address other : Nat) :
    (linkLeaf info leafset idx).node address other =
      if address = count + 1 then (List.replicate info.uniqChars.length emptyNode)[other]?
      else if address = leafset ∧ other = idx then
        (info.node address other).map fun node => { node with l := count + 1 }
      else info.node address other := by
  have bits : (count + 1) % 2 ^ 13 = count + 1 := by
    apply Nat.mod_eq_of_lt
    simp only [ffMaxLeafsets] at few
    omega
  rw [linkLeaf, node_modifyNode, numbered.grown_leafsetsCount, bits]
  by_cases fresh : address = count + 1
  · rw [if_pos fresh, if_neg (by omega), FastfindInfo.node, block_grown, numbered.heap, if_pos fresh,
      Option.bind_some]
  · have same : (grown info).node address other = info.node address other := by
      rw [FastfindInfo.node, block_grown, numbered.heap, if_neg fresh]
      rfl
    rw [if_neg fresh, same]

theorem WideBlock.replicate (chars : Nat) : WideBlock chars (List.replicate chars emptyNode) where
  size := List.length_replicate
  uncompressed := by
    intro node member
    rw [List.eq_of_mem_replicate member]
    rfl

theorem WideBlock.modify {chars : Nat} {nodes : List FfNode} (wide : WideBlock chars nodes) (idx : Nat)
    {change : FfNode → FfNode} (same : ∀ node, (change node).c = node.c) :
    WideBlock chars (nodes.modify idx change) where
  size := by rw [List.length_modify, wide.size]
  uncompressed := by
    intro node member
    rcases Modify.mem_modify member with old | ⟨other, old, changed⟩
    · exact wide.uncompressed node old
    · rw [changed, same]
      exact wide.uncompressed other (List.mem_of_getElem? old)

theorem Numbered.modifyNode {count : Nat} (numbered : Numbered info count) (leafset idx : Nat)
    {change : FfNode → FfNode} (same : ∀ node, (change node).c = node.c) :
    Numbered (info.modifyNode leafset idx change) count where
  leafsets := numbered.leafsets
  heap := by
    rw [← numbered.heap]
    exact List.length_modify _ _ _
  wide := by
    intro address first last
    obtain ⟨nodes, block, wide⟩ := numbered.wide address first last
    rw [block_modifyNode, block]
    split
    · exact ⟨_, rfl, wide.modify idx same⟩
    · exact ⟨nodes, rfl, wide⟩

theorem Numbered.grown {count : Nat} (numbered : Numbered info count) :
    Numbered (grown info) (count + 1) where
  leafsets := by
    rw [List.range_succ, ← numbered.leafsets, ← numbered.heap]
    rfl
  heap := by
    rw [← numbered.heap]
    exact List.length_append
  wide := by
    intro address first last
    rw [block_grown, numbered.heap]
    by_cases fresh : address = count + 1
    · rw [if_pos fresh]
      exact ⟨_, rfl, .replicate _⟩
    · rw [if_neg fresh]
      exact numbered.wide address first (by omega)

theorem Numbered.linkLeaf {count : Nat} (numbered : Numbered info count) (leafset idx : Nat) :
    Numbered (linkLeaf info leafset idx) (count + 1) :=
  numbered.grown.modifyNode leafset idx fun _ => rfl

theorem Built.letterNode_change (built : Built fold info paths done) {next : FastfindInfo δ}
    {count i lidx : Nat} {k : UInt8} {change : FfNode → FfNode} (numbered : Numbered next count)
    (more : paths.length ≤ count) (sameIdx : next.idx = info.idx) (known : info.idx k = some lidx)
    (nodes : ∀ other < paths.length, ∀ j, next.node (other + 1) j =
      if other = i ∧ j = lidx then (info.node (other + 1) j).map change
      else info.node (other + 1) j) {other : Nat} (inside : other < paths.length) (a : UInt8) :
    letterNode next (other + 1) a =
      if other = i ∧ a = k then (letterNode info (other + 1) a).map change
      else letterNode info (other + 1) a := by
  rw [numbered.letterNode_eq (by omega), built.numbered.letterNode_eq inside, sameIdx]
  cases found : info.idx a with
  | none => simp
  | some j =>
      have same : j = lidx ↔ a = k := by
        constructor
        · rintro rfl
          have first := (built.alphabet a j).mp found
          have second := (built.alphabet k j).mp known
          exact Option.some.inj (first.symm.trans second)
        · rintro rfl
          exact Option.some.inj (found.symm.trans known)
      rw [Option.bind_some, Option.bind_some, nodes other inside j]
      simp only [same]

theorem Built.letterNode_some (built : Built fold info paths done) {i lidx : Nat} {k : UInt8}
    (inside : i < paths.length) (known : info.idx k = some lidx) :
    ∃ node, info.node (i + 1) lidx = some node ∧ letterNode info (i + 1) k = some node := by
  obtain ⟨nodes, block, wide⟩ := built.numbered.wide (i + 1) (by omega) inside
  have below : lidx < nodes.length := by
    rw [wide.size]
    exact (List.getElem?_eq_some_iff.mp ((built.alphabet k lidx).mp known)).1
  have found : info.node (i + 1) lidx = some nodes[lidx] := by
    rw [FastfindInfo.node, block, Option.bind_some, List.getElem?_eq_getElem below]
  refine ⟨_, found, ?_⟩
  rw [built.numbered.letterNode_eq inside, known, Option.bind_some, found]

theorem Built.link (built : Built fold info paths done) {i lidx : Nat} {path : List UInt8} {k : UInt8}
    (here : paths[i]? = some path) (known : info.idx k = some lidx)
    (missing : path ++ [k] ∉ paths) (few : paths.length < ffMaxLeafsets) :
    Built fold (linkLeaf info (i + 1) lidx) (paths ++ [path ++ [k]]) done := by
  have inside := (List.getElem?_eq_some_iff.mp here).1
  have numbered : Numbered (linkLeaf info (i + 1) lidx) (paths ++ [path ++ [k]]).length := by
    rw [List.length_append]
    exact built.numbered.linkLeaf (i + 1) lidx
  have nodes := built.numbered.node_linkLeaf few (show i + 1 ≤ paths.length from inside) lidx
  have changed : ∀ other < paths.length, ∀ j, (linkLeaf info (i + 1) lidx).node (other + 1) j =
      if other = i ∧ j = lidx then
        (info.node (other + 1) j).map fun node => { node with l := paths.length + 1 }
      else info.node (other + 1) j := by
    intro other old j
    rw [nodes, if_neg (by omega)]
    simp only [Nat.add_right_cancel_iff]
  have letters := fun other (old : other < paths.length) =>
    built.letterNode_change numbered (by simp) rfl known changed old
  have fresh : ∀ a, letterNode (linkLeaf info (i + 1) lidx) (paths.length + 1) a = none ∨
      letterNode (linkLeaf info (i + 1) lidx) (paths.length + 1) a = some emptyNode := by
    intro a
    rw [numbered.letterNode_eq (by simp)]
    cases found : (linkLeaf info (i + 1) lidx).idx a with
    | none => exact .inl rfl
    | some j =>
        rw [Option.bind_some, nodes, if_pos rfl, List.getElem?_replicate]
        split
        · exact .inr rfl
        · exact .inl rfl
  obtain ⟨node, _, letter⟩ := built.letterNode_some inside known
  refine ⟨built.alphabet, built.sevenBit, numbered, ?_, built.rootLeafset, built.data, ?_⟩
  · rw [List.getElem?_append_left (by omega)]
    exact built.root
  · apply built.stores.addNode here missing
    · intro other old a
      simp only [trieNodes, letters other old a]
      split
      · cases letterNode info (other + 1) a <;> rfl
      · rfl
    · intro other old a edge
      simp only [trieNodes, letters other old a, if_neg edge]
    · simp only [trieNodes, letters i inside k, letter]
      simp
    · intro a
      exact (trieNodes_of_empty (fresh a)).1
    · intro a
      exact (trieNodes_of_empty (fresh a)).2

theorem Built.leafset_below (built : Built fold info paths done) {i lidx : Nat} {path : List UInt8}
    {k : UInt8} (here : paths[i]? = some path) (known : info.idx k = some lidx)
    (member : path ++ [k] ∈ paths) : ∃ below, paths[below]? = some (path ++ [k]) ∧
      ((info.node (i + 1) lidx).bind fun node => info.leafsets[node.l]?) = some (below + 1) := by
  have inside := (List.getElem?_eq_some_iff.mp here).1
  obtain ⟨below, there⟩ := List.mem_iff_getElem?.mp member
  obtain ⟨node, found, letter⟩ := built.letterNode_some inside known
  have child := (built.stores.child i path k below here).mpr there
  rw [(trieNodes_of_letter letter).2] at child
  split at child
  · cases child
  next more =>
    have number : node.l = below + 1 := by
      have before := Option.some.inj child
      omega
    have inside := (List.getElem?_eq_some_iff.mp there).1
    refine ⟨below, there, ?_⟩
    rw [found, Option.bind_some, number, built.numbered.leafsets, List.getElem?_range (by omega)]

theorem Built.growLeaf (built : Built fold info paths done) {i lidx : Nat} {path : List UInt8}
    {k : UInt8} (here : paths[i]? = some path) (known : info.idx k = some lidx)
    (few : path ++ [k] ∉ paths → paths.length < ffMaxLeafsets) :
    ∃ next later, growLeaf info (i + 1) lidx = some next ∧ Built fold next later done ∧
      Regrown info next ∧ (later = paths ∨ later = paths ++ [path ++ [k]]) ∧
      path ++ [k] ∈ later ∧ later[i]? = some path := by
  have inside := (List.getElem?_eq_some_iff.mp here).1
  obtain ⟨node, found, letter⟩ := built.letterNode_some inside known
  have child := (trieNodes_of_letter letter).2
  have missing : (trieNodes info).child i k = none ↔ path ++ [k] ∉ paths :=
    built.stores.child_eq_none here
  by_cases empty : node.l = 0
  · rw [if_pos empty] at child
    have fresh := missing.mp child
    have room := few fresh
    rw [← built.numbered.leafsetsCount] at room
    refine ⟨linkLeaf info (i + 1) lidx, _, ?_, built.link here known fresh (few fresh),
      ⟨_, _, rfl⟩, .inr rfl, List.mem_append_right _ (List.mem_singleton.mpr rfl), ?_⟩
    · rw [growLeaf_eq found room, if_pos empty]
    · rw [List.getElem?_append_left inside, here]
  · rw [if_neg empty] at child
    have member : path ++ [k] ∈ paths := by
      by_contra absent
      rw [missing.mpr absent] at child
      cases child
    refine ⟨info, paths, ?_, built, .refl info, .inl rfl, member, here⟩
    rw [Util.growLeaf, found]
    exact if_neg empty

def leafsetPaths (words : List (List UInt8)) : List (List UInt8) :=
  (words.flatMap fun word => word.dropLast.inits).dedup

theorem mem_leafsetPaths {words : List (List UInt8)} {path : List UInt8} :
    path ∈ leafsetPaths words ↔ InUse words path := by
  simp only [leafsetPaths, List.mem_dedup, List.mem_flatMap, List.mem_inits, InUse]

theorem leafsets_few {words : List (List UInt8)} {path : List UInt8} (distinct : paths.Nodup)
    (inUse : ∀ other ∈ paths, InUse words other) (needed : InUse words path) (fresh : path ∉ paths)
    (limit : (leafsetPaths words).length ≤ ffMaxLeafsets) : paths.length < ffMaxLeafsets := by
  have nodup : (path :: paths).Nodup := List.nodup_cons.mpr ⟨fresh, distinct⟩
  have inside : path :: paths ⊆ leafsetPaths words := by
    intro other member
    apply mem_leafsetPaths.mpr
    rcases List.mem_cons.mp member with rfl | old
    · exact needed
    · exact inUse other old
  have shorter := (List.Nodup.subperm nodup inside).length_le
  rw [List.length_cons] at shorter
  omega

theorem Built.descend {words : List (List UInt8)} {word : List UInt8}
    (limit : (leafsetPaths words).length ≤ ffMaxLeafsets) (listed : word ∈ words)
    (rest : List UInt8) (built : Built fold info paths done) {i : Nat} {path : List UInt8}
    (here : paths[i]? = some path) (begins : path ++ rest.map fold <+: word.dropLast)
    (known : ∀ c ∈ rest, ∃ lidx, info.idx (fold c) = some lidx)
    (inUse : ∀ other ∈ paths, InUse words other) :
    ∃ next later j, descend fold info (i + 1) rest = some (next, j + 1) ∧
      Built fold next later done ∧ Regrown info next ∧ later[j]? = some (path ++ rest.map fold) ∧
      ∀ other ∈ later, InUse words other := by
  induction rest generalizing info paths i path with
  | nil =>
      refine ⟨info, paths, i, rfl, built, .refl info, ?_, inUse⟩
      rw [List.map_nil, List.append_nil, here]
  | cons c rest ih =>
      rw [List.map_cons, List.append_cons] at begins
      have needed : InUse words (path ++ [fold c]) :=
        ⟨word, listed, (List.prefix_append _ _).trans begins⟩
      obtain ⟨lidx, index⟩ := known c List.mem_cons_self
      obtain ⟨next, later, grows, after, regrown, same, member, still⟩ :=
        built.growLeaf here index fun fresh =>
          leafsets_few built.stores.distinct inUse needed fresh limit
      obtain ⟨_, _, rfl⟩ := regrown
      have later_inUse : ∀ other ∈ later, InUse words other := by
        intro other there
        rcases same with rfl | rfl
        · exact inUse other there
        · rcases List.mem_append.mp there with old | new
          · exact inUse other old
          · rw [List.mem_singleton.mp new]
            exact needed
      obtain ⟨below, there, follows⟩ := after.leafset_below still index member
      obtain ⟨final, last, j, descends, ended, more, place, used⟩ := ih after there begins
        (fun other inRest => known other (List.mem_cons_of_mem c inRest)) later_inUse
      refine ⟨final, last, j, ?_, ended, Regrown.trans ⟨_, _, rfl⟩ more, ?_, used⟩
      · rw [Util.descend, index]
        simp only [grows, follows]
        exact descends
      · rw [List.map_cons, List.append_cons]
        exact place

theorem keyWords_concat (keys : List (List UInt8 × δ)) (key : List UInt8) (pointer : δ) :
    keyWords fold (keys ++ [(key, pointer)]) = keyWords fold keys ++ [(key.map fold, keys.length)] := by
  simp [keyWords, List.zipIdx_append]

theorem Built.endKey (built : Built fold info paths done) {i lidx : Nat} {path key : List UInt8}
    {k : UInt8} {pointer : δ} (here : paths[i]? = some path) (known : info.idx k = some lidx)
    (word : key.map fold = path ++ [k]) (fresh : ∀ old, (path ++ [k], old) ∉ keyWords fold done)
    (few : done.length < ffMaxKeys) :
    Built fold (addToFfData (endKey info (i + 1) lidx) pointer key.length) paths
      (done ++ [(key, pointer)]) := by
  have inside := (List.getElem?_eq_some_iff.mp here).1
  have count : info.data.length % 2 ^ 10 = done.length := by
    rw [built.data, keyData, List.length_map]
    exact Nat.mod_eq_of_lt few
  have numbered : Numbered (Util.endKey info (i + 1) lidx) paths.length :=
    built.numbered.modifyNode (i + 1) lidx fun _ => rfl
  have changed : ∀ other < paths.length, ∀ j, (Util.endKey info (i + 1) lidx).node (other + 1) j =
      if other = i ∧ j = lidx then
        (info.node (other + 1) j).map fun node =>
          { node with e := true, p := info.data.length % 2 ^ 10 }
      else info.node (other + 1) j := by
    intro other _ j
    rw [Util.endKey, node_modifyNode]
    simp only [Nat.add_right_cancel_iff]
  have letters := fun other (old : other < paths.length) =>
    built.letterNode_change numbered (Nat.le_refl _) rfl known changed old
  obtain ⟨node, _, letter⟩ := built.letterNode_some inside known
  refine ⟨built.alphabet, built.sevenBit, ⟨numbered.leafsets, numbered.heap, numbered.wide⟩,
    built.root, built.rootLeafset, ?_, ?_⟩
  · simp only [addToFfData, Util.endKey, FastfindInfo.modifyNode, built.data, keyData, List.map_append,
      List.map_cons, List.map_nil]
  · rw [keyWords_concat, word]
    have nodes : trieNodes (addToFfData (Util.endKey info (i + 1) lidx) pointer key.length) =
        trieNodes (Util.endKey info (i + 1) lidx) := rfl
    rw [nodes]
    apply built.stores.addWord here fresh
    · intro other old a
      simp only [trieNodes, letters other old a]
      split
      · cases letterNode info (other + 1) a <;> rfl
      · rfl
    · intro other old a edge
      simp only [trieNodes, letters other old a, if_neg edge]
    · simp only [trieNodes, letters i inside k, letter, count]
      simp

theorem Built.addKey {words : List (List UInt8)} {key : List UInt8} (pointer : δ)
    (limit : (leafsetPaths words).length ≤ ffMaxLeafsets) (listed : key.map fold ∈ words)
    (built : Built fold info paths done) (some_char : key ≠ [])
    (known : ∀ c ∈ key, ∃ lidx, info.idx (fold c) = some lidx)
    (fresh : ∀ old, (key.map fold, old) ∉ keyWords fold done) (few : done.length < ffMaxKeys)
    (inUse : ∀ other ∈ paths, InUse words other) :
    ∃ next later, addKey fold info key pointer = some next ∧
      Built fold next later (done ++ [(key, pointer)]) ∧
      (∃ data heap leafsets, next = { info with data := data, heap := heap, leafsets := leafsets }) ∧
      ∀ other ∈ later, InUse words other := by
  obtain ⟨front, last, rfl⟩ := (List.eq_nil_or_concat key).resolve_left some_char
  rw [List.concat_eq_append] at *
  have split : (front ++ [last]).map fold = front.map fold ++ [fold last] := by simp
  have begins : [] ++ front.map fold <+: ((front ++ [last]).map fold).dropLast := by
    rw [split, List.dropLast_concat]
    exact List.prefix_rfl
  obtain ⟨next, later, j, descends, after, ⟨heap, leafsets, same⟩, place, used⟩ :=
    Built.descend limit listed front built built.root begins
      (fun c inFront => known c (List.mem_append_left _ inFront)) inUse
  obtain ⟨lidx, index⟩ := known last (by simp)
  have still : next.idx (fold last) = some lidx := by
    rw [same]
    exact index
  refine ⟨_, later, ?_, after.endKey place still split ?_ few, ?_, used⟩
  · rw [Util.addKey, built.rootLeafset, List.dropLast_concat, List.getLast?_concat]
    simp only [descends, still]
  · intro old
    rw [List.nil_append, ← split]
    exact fresh old
  · rw [same]
    exact ⟨_, _, _, rfl⟩

end KcnTools.Util
