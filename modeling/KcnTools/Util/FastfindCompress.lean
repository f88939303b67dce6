import KcnTools.Util.FastfindKeys

/-!
The compression of the tree. A leafset with one node in use is replaced by that node, which
leaves the trie as it was; the block of the old leafset is gone.
-/

namespace KcnTools.Util

open Trie

variable {δ : Type} {info next : FastfindInfo δ}

def WideAt (info : FastfindInfo δ) (i : Nat) : Prop :=
  ∃ address nodes, info.leafsets[i + 1]? = some address ∧ info.block address = some nodes ∧
    WideBlock info.uniqChars.length nodes

structure Untouched (info next : FastfindInfo δ) (i : Nat) : Prop where
  leafset : next.leafsets[i + 1]? = info.leafsets[i + 1]?
  block : ∀ address, info.leafsets[i + 1]? = some address → next.block address = info.block address

theorem Untouched.trans {last : FastfindInfo δ} {i : Nat} (earlier : Untouched info next i)
    (later : Untouched next last i) : Untouched info last i where
  leafset := later.leafset.trans earlier.leafset
  block := by
    intro address here
    have there : next.leafsets[i + 1]? = some address := by rw [earlier.leafset, here]
    exact (later.block address there).trans (earlier.block address here)

theorem WideAt.untouched {i : Nat} (wide : WideAt info i) (kept : Untouched info next i)
    (chars : next.uniqChars = info.uniqChars) : WideAt next i := by
  obtain ⟨address, nodes, leafset, block, ok⟩ := wide
  refine ⟨address, nodes, ?_, ?_, ?_⟩
  · rw [kept.leafset, leafset]
  · rw [kept.block address leafset, block]
  · rwa [chars]

/-- The trie stays as it is, and only some leafsets are touched. -/
structure Compressed (count : Nat) (touched : Nat → Prop) (info next : FastfindInfo δ) : Prop where
  regrown : Regrown info next
  nodes : trieNodes next = trieNodes info
  linked : Linked next count
  untouched : ∀ i, ¬ touched i → Untouched info next i

theorem Compressed.refl {count : Nat} (linked : Linked info count) (touched : Nat → Prop) :
    Compressed count touched info info :=
  ⟨.refl info, rfl, linked, fun _ _ => ⟨rfl, fun _ _ => rfl⟩⟩

theorem Compressed.trans {count : Nat} {first second all : Nat → Prop} {last : FastfindInfo δ}
    (earlier : Compressed count first info next) (later : Compressed count second next last)
    (covers : ∀ i, first i ∨ second i → all i) : Compressed count all info last where
  regrown := earlier.regrown.trans later.regrown
  nodes := later.nodes.trans earlier.nodes
  linked := later.linked
  untouched := by
    intro i outside
    exact (earlier.untouched i fun inside => outside (covers i (.inl inside))).trans
      (later.untouched i fun inside => outside (covers i (.inr inside)))

theorem Regrown.uniqChars (regrown : Regrown info next) : next.uniqChars = info.uniqChars := by
  obtain ⟨_, _, rfl⟩ := regrown
  rfl

section CompressNode

variable {count i address pos : Nat} {nodes : List FfNode} {node : FfNode}

theorem block_compressNode {other : Nat} (apart : other ≠ address) (old : other < info.heap.length) :
    (compressNode info address (i + 1) node pos).block other = info.block other := by
  rw [FastfindInfo.block, compressNode, List.getElem?_append_left (by simpa using old),
    List.getElem?_set_ne (Ne.symm apart)]
  rfl

theorem block_compressNode_new (low : pos < ffMaxChars) :
    (compressNode info address (i + 1) node pos).block info.heap.length =
      some [{ node with c := true, ch := pos }] := by
  have bits : pos % 2 ^ 7 = pos := Nat.mod_eq_of_lt low
  rw [FastfindInfo.block, compressNode, List.getElem?_append_right (by simp), bits]
  simp

theorem block_compressNode_old (old : address < info.heap.length) :
    (compressNode info address (i + 1) node pos).block address = none := by
  rw [FastfindInfo.block, compressNode, List.getElem?_append_left (by simpa using old),
    List.getElem?_set_self old]
  rfl

theorem untouched_compressNode (linked : Linked info count) (here : info.leafsets[i + 1]? = some address)
    {j : Nat} (apart : j ≠ i) : Untouched info (compressNode info address (i + 1) node pos) j where
  leafset := by
    rw [compressNode, List.getElem?_set_ne (by omega)]
  block := by
    intro other there
    apply block_compressNode _ (linked.bounded other (List.mem_of_getElem? there))
    rintro rfl
    have inside := (List.getElem?_eq_some_iff.mp there).1
    have same := (List.getElem?_inj inside linked.distinct).mp (there.trans here.symm)
    omega

theorem linked_compressNode (linked : Linked info count) (here : info.leafsets[i + 1]? = some address)
    (low : pos < ffMaxChars) : Linked (compressNode info address (i + 1) node pos) count where
  alphabet := linked.alphabet
  sevenBit := linked.sevenBit
  size := by rw [compressNode, List.length_set, linked.size]
  distinct := by
    apply linked.distinct.set
    intro member
    exact Nat.lt_irrefl _ (linked.bounded _ member)
  bounded := by
    intro other member
    have length : (compressNode info address (i + 1) node pos).heap.length = info.heap.length + 1 := by
      simp [compressNode]
    rw [length]
    rcases List.mem_or_eq_of_mem_set member with old | rfl
    · exact Nat.lt_succ_of_lt (linked.bounded other old)
    · exact Nat.lt_succ_self _
  block := by
    intro j inside
    by_cases same : j = i
    · refine ⟨info.heap.length, _, ?_, block_compressNode_new low, .single rfl⟩
      rw [same, compressNode, List.getElem?_set_self (List.getElem?_eq_some_iff.mp here).1]
    · obtain ⟨other, nodes, there, block, ok⟩ := linked.block j inside
      have kept : Untouched info (compressNode info address (i + 1) node pos) j :=
        untouched_compressNode linked here same
      exact ⟨other, nodes, kept.leafset.trans there, (kept.block other there).trans block, ok⟩

theorem Untouched.letterNode_eq {j : Nat} (kept : Untouched info next j) (sameIdx : next.idx = info.idx)
    (k : UInt8) : letterNode next (j + 1) k = letterNode info (j + 1) k := by
  cases found : info.leafsets[j + 1]? with
  | none =>
      simp only [letterNode, sameIdx, kept.leafset, found]
      rfl
  | some other =>
      simp only [letterNode, sameIdx, kept.leafset, found, Option.bind_eq_bind, Option.bind_some,
        kept.block other found]

def OnlyUsed (nodes : List FfNode) (pos : Nat) : Prop :=
  ∀ j node, nodes[j]? = some node → j ≠ pos → node.l = 0 ∧ node.e = false

theorem letterNode_compressNode
    (here : info.leafsets[i + 1]? = some address) (low : pos < ffMaxChars) (k : UInt8) :
    letterNode (compressNode info address (i + 1) node pos) (i + 1) k =
      (info.idx k).bind fun lidx => if pos = lidx then some { node with c := true, ch := pos } else none := by
  have there : (compressNode info address (i + 1) node pos).leafsets[i + 1]? = some info.heap.length := by
    rw [compressNode, List.getElem?_set_self (List.getElem?_eq_some_iff.mp here).1]
  cases known : info.idx k with
  | none =>
      have same : (compressNode info address (i + 1) node pos).idx k = none := known
      simp only [letterNode, same]
      rfl
  | some lidx =>
      have same : (compressNode info address (i + 1) node pos).idx k = some lidx := known
      simp only [letterNode, same, there, block_compressNode_new low, Option.bind_eq_bind, Option.bind_some,
        blockNode, List.getElem?_cons_zero, ↓reduceIte, Option.join_some]

theorem trieNodes_compressNode (linked : Linked info count)
    (here : info.leafsets[i + 1]? = some address) (block : info.block address = some nodes)
    (wide : WideBlock info.uniqChars.length nodes) (found : nodes[pos]? = some node)
    (low : pos < ffMaxChars) (only : OnlyUsed nodes pos) :
    trieNodes (compressNode info address (i + 1) node pos) = trieNodes info := by
  have letters : ∀ k, letterNode info (i + 1) k = (info.idx k).bind fun lidx => nodes[lidx]? := by
    intro k
    cases known : info.idx k with
    | none =>
        simp only [letterNode, known]
        rfl
    | some lidx =>
        simp only [letterNode, known, here, block, Option.bind_eq_bind, Option.bind_some, wide.blockNode]
  have same : ∀ j k, (trieNodes (compressNode info address (i + 1) node pos)).mark j k = (trieNodes info).mark j k ∧
      (trieNodes (compressNode info address (i + 1) node pos)).child j k = (trieNodes info).child j k := by
    intro j k
    by_cases apart : j = i
    · subst apart
      simp only [trieNodes, letterNode_compressNode here low, letters k]
      cases known : info.idx k with
      | none => exact ⟨rfl, rfl⟩
      | some lidx =>
          simp only [Option.bind_some]
          by_cases chosen : pos = lidx
          · rw [if_pos chosen, ← chosen, found]
            exact ⟨rfl, rfl⟩
          · rw [if_neg chosen]
            cases other : nodes[lidx]? with
            | none => exact ⟨rfl, rfl⟩
            | some unused =>
                obtain ⟨l, e⟩ := only lidx unused other (Ne.symm chosen)
                simp [l, e]
    · have kept : Untouched info (compressNode info address (i + 1) node pos) _ :=
        untouched_compressNode linked here apart
      simp only [trieNodes, kept.letterNode_eq rfl k]
      exact ⟨trivial, trivial⟩
  have marks : (trieNodes (compressNode info address (i + 1) node pos)).mark = (trieNodes info).mark := by
    funext j k
    exact (same j k).1
  have children : (trieNodes (compressNode info address (i + 1) node pos)).child =
      (trieNodes info).child := by
    funext j k
    exact (same j k).2
  exact Nodes.ext marks children

theorem compressed_compressNode (linked : Linked info count)
    (here : info.leafsets[i + 1]? = some address) (block : info.block address = some nodes)
    (wide : WideBlock info.uniqChars.length nodes) (found : nodes[pos]? = some node)
    (low : pos < ffMaxChars) (only : OnlyUsed nodes pos) :
    Compressed count (fun j => j = i) info (compressNode info address (i + 1) node pos) where
  regrown := ⟨_, _, rfl⟩
  nodes := trieNodes_compressNode linked here block wide found low only
  linked := linked_compressNode linked here low
  untouched _ apart := untouched_compressNode linked here apart

theorem find_leafset (linked : Linked info count) (here : info.leafsets[i + 1]? = some address) :
    ((List.range' 1 (info.leafsetsCount - 1)).find? fun j => info.leafsets[j]? = some address) =
      if i + 1 < count then some (i + 1) else none := by
  have size : info.leafsetsCount = count := by
    rw [FastfindInfo.leafsetsCount, linked.size]
    rfl
  have unique : ∀ j, info.leafsets[j]? = some address → j = i + 1 := by
    intro j there
    have inside := (List.getElem?_eq_some_iff.mp there).1
    exact (List.getElem?_inj inside linked.distinct).mp (there.trans here.symm)
  rw [size]
  cases found : (List.range' 1 (count - 1)).find? fun j => info.leafsets[j]? = some address with
  | none =>
      rw [List.find?_eq_none] at found
      rw [if_neg]
      intro inside
      have member : i + 1 ∈ List.range' 1 (count - 1) := by
        rw [List.mem_range'_1]
        omega
      simpa [here] using found (i + 1) member
  | some j =>
      have there := List.find?_some found
      have member := List.mem_of_find?_eq_some found
      rw [List.mem_range'_1] at member
      rw [unique j (by simpa using there)] at member ⊢
      rw [if_pos (by omega)]

end CompressNode

section CompressTree

variable {paths : List (List UInt8)} {words : List (List UInt8 × Nat)}

def Below (paths : List (List UInt8)) (path : List UInt8) (i : Nat) : Prop :=
  ∃ other, paths[i]? = some other ∧ path <+: other

theorem Below.parent {path : List UInt8} {k : UInt8} {i : Nat} (below : Below paths (path ++ [k]) i) :
    Below paths path i := by
  obtain ⟨other, there, begins⟩ := below
  exact ⟨other, there, (List.prefix_append path [k]).trans begins⟩

theorem Below.unique {path : List UInt8} {k l : UInt8} {i : Nat} (first : Below paths (path ++ [k]) i)
    (second : Below paths (path ++ [l]) i) : k = l := by
  obtain ⟨other, there, begins⟩ := first
  obtain ⟨same, here, starts⟩ := second
  obtain rfl : other = same := Option.some.inj (there.symm.trans here)
  have together := List.prefix_of_prefix_length_le begins starts (by simp)
  have equal := together.eq_of_length (by simp)
  exact (List.cons.inj (List.append_cancel_left equal)).1

theorem not_below_self {path : List UInt8} {i : Nat} (here : paths[i]? = some path) (k : UInt8) :
    ¬ Below paths (path ++ [k]) i := by
  rintro ⟨other, there, begins⟩
  obtain rfl : path = other := Option.some.inj (here.symm.trans there)
  have longer := begins.length_le
  rw [List.length_append, List.length_singleton] at longer
  omega

structure Compressible (paths : List (List UInt8)) (words : List (List UInt8 × Nat))
    (info : FastfindInfo δ) : Prop where
  linked : Linked info paths.length
  stores : Stores (trieNodes info) paths words
  chars : info.uniqChars.length ≤ ffMaxChars

theorem Compressible.compressed {touched : Nat → Prop} (ok : Compressible paths words info)
    (compressed : Compressed paths.length touched info next) : Compressible paths words next where
  linked := compressed.linked
  stores := compressed.nodes ▸ ok.stores
  chars := by
    rw [compressed.regrown.uniqChars]
    exact ok.chars

def usedAt (nodes : List FfNode) (j : Nat) : Bool :=
  (nodes[j]?).any fun node => decide (node.l ≠ 0) || node.e

def usedCount (nodes : List FfNode) : Nat := ((List.range nodes.length).filter (usedAt nodes)).length

def CompressesFrom (paths : List (List UInt8)) (words : List (List UInt8 × Nat)) (δ : Type)
    (fuel : Nat) : Prop :=
  ∀ (info : FastfindInfo δ) (i : Nat) (path : List UInt8) (address : Nat) (nodes : List FfNode),
    Compressible paths words info → paths[i]? = some path → info.leafsets[i + 1]? = some address →
    info.block address = some nodes → (∀ j, Below paths path j → WideAt info j) →
    (∀ other ∈ paths, other.length < path.length + fuel) →
    ∃ next, compressTree fuel info address = some next ∧
      Compressed paths.length (Below paths path) info next ∧
      if usedCount nodes = 1 ∧ i + 1 < paths.length then next.block address = none
      else Untouched info next i

theorem Linked.letterNode_wide {count i address lidx : Nat} {nodes : List FfNode} {node : FfNode}
    {k : UInt8} (linked : Linked info count) (here : info.leafsets[i + 1]? = some address)
    (block : info.block address = some nodes) (wide : WideBlock info.uniqChars.length nodes)
    (found : nodes[lidx]? = some node) (char : info.uniqChars[lidx]? = some k) :
    letterNode info (i + 1) k = some node := by
  have known := (linked.alphabet k lidx).mpr char
  simp only [letterNode, known, here, block, Option.bind_eq_bind, Option.bind_some, wide.blockNode, found]

theorem compressLeaf_spec {fuel i address j : Nat} (cnt pos : Nat) {path : List UInt8} {nodes : List FfNode}
    {node : FfNode} {k : UInt8} (deeper : CompressesFrom paths words δ fuel)
    (here : paths[i]? = some path) (ok : Compressible paths words info)
    (leafset : info.leafsets[i + 1]? = some address) (block : info.block address = some nodes)
    (wide : WideBlock info.uniqChars.length nodes) (found : nodes[j]? = some node)
    (char : info.uniqChars[j]? = some k) (below : ∀ d, Below paths (path ++ [k]) d → WideAt info d)
    (deep : ∀ other ∈ paths, other.length < path.length + (fuel + 1)) :
    ∃ next, compressLeaf (compressTree fuel) address (info, cnt, pos) j =
        some (if usedAt nodes j then (next, cnt + 1, j) else (next, cnt, pos)) ∧
      Compressed paths.length (Below paths (path ++ [k])) info next := by
  have plain := wide.uncompressed node (List.mem_of_getElem? found)
  have read : info.node address j = some node := by
    rw [FastfindInfo.node, block, Option.bind_some, found]
  have use : usedAt nodes j = (decide (node.l ≠ 0) || node.e) := by
    rw [usedAt, found]
    rfl
  by_cases leaf : node.l = 0
  · refine ⟨info, ?_, .refl ok.linked _⟩
    simp only [compressLeaf, read, Option.bind_eq_bind, Option.bind_some, plain, Bool.false_eq_true, ↓reduceIte,
      leaf, ne_eq, not_true_eq_false, false_or, use, decide_false, Bool.false_or]
  · have letter := ok.linked.letterNode_wide leafset block wide found char
    obtain ⟨down, address', number, _, there, leafset'⟩ :=
      leafset_below ok.linked ok.stores here letter leaf
    obtain ⟨other, otherNodes, place, otherBlock, _⟩ := below down ⟨_, there, List.prefix_rfl⟩
    obtain rfl : address' = other := Option.some.inj (leafset'.symm.trans place)
    obtain ⟨next, result, compressed, _⟩ := deeper info down (path ++ [k]) address' otherNodes ok there
      leafset' otherBlock below (by
        intro other member
        have bound := deep other member
        rw [List.length_append, List.length_singleton]
        omega)
    refine ⟨next, ?_, compressed⟩
    rw [← number] at leafset'
    simp only [compressLeaf, read, Option.bind_eq_bind, Option.bind_some, plain, Bool.false_eq_true, ↓reduceIte,
      ne_eq, leaf, not_false_eq_true, leafset', result, true_or, use, decide_true, Bool.true_or]

theorem compressLeaves_spec {fuel i address : Nat} {path : List UInt8} {nodes : List FfNode}
    (deeper : CompressesFrom paths words δ fuel) (here : paths[i]? = some path)
    (deep : ∀ other ∈ paths, other.length < path.length + (fuel + 1)) (idxs : List Nat)
    (distinct : idxs.Nodup) (inside : ∀ j ∈ idxs, j < nodes.length) {info : FastfindInfo δ}
    (ok : Compressible paths words info) (leafset : info.leafsets[i + 1]? = some address)
    (block : info.block address = some nodes) (wide : WideBlock info.uniqChars.length nodes)
    (below : ∀ j ∈ idxs, ∀ k, info.uniqChars[j]? = some k → ∀ d, Below paths (path ++ [k]) d → WideAt info d)
    (cnt pos : Nat) :
    ∃ next, idxs.foldlM (compressLeaf (compressTree fuel) address) (info, cnt, pos) =
        some (next, cnt + (idxs.filter (usedAt nodes)).length,
          ((idxs.filter (usedAt nodes)).getLast?).getD pos) ∧
      Compressed paths.length (fun d => ∃ j ∈ idxs, ∃ k, info.uniqChars[j]? = some k ∧
        Below paths (path ++ [k]) d) info next := by
  induction idxs generalizing info cnt pos with
  | nil => exact ⟨info, rfl, .refl ok.linked _⟩
  | cons j idxs ih =>
      rw [List.forall_mem_cons] at inside below
      rw [List.nodup_cons] at distinct
      have low : j < info.uniqChars.length := wide.size ▸ inside.1
      have found := List.getElem?_eq_getElem inside.1
      have char := List.getElem?_eq_getElem low
      obtain ⟨first, step, compressed⟩ := compressLeaf_spec cnt pos deeper here ok leafset block
        wide found char (below.1 _ char) deep
      have own := compressed.untouched i (not_below_self here _)
      have chars := compressed.regrown.uniqChars
      have other : ∀ l ∈ idxs, ∀ k, first.uniqChars[l]? = some k →
          ∀ d, Below paths (path ++ [k]) d → WideAt first d := by
        intro l later k there d under
        rw [chars] at there
        have apart : ¬ Below paths (path ++ [info.uniqChars[j]]) d := by
          intro also
          rw [← under.unique also] at char
          have same := (ok.linked.alphabet k l).mpr there
          rw [(ok.linked.alphabet k j).mpr char] at same
          exact distinct.1 (Option.some.inj same ▸ later)
        exact (below.2 l later k there d under).untouched (compressed.untouched d apart) chars
      obtain ⟨next, rest, further⟩ := ih distinct.2 inside.2 (ok.compressed compressed)
        (own.leafset.trans leafset) ((own.block address leafset).trans block) (chars ▸ wide) other
        (if usedAt nodes j then cnt + 1 else cnt) (if usedAt nodes j then j else pos)
      refine ⟨next, ?_, compressed.trans further ?_⟩
      · rw [List.foldlM_cons, step]
        by_cases use : usedAt nodes j = true
        · simp only [use, ↓reduceIte] at rest ⊢
          rw [List.filter_cons_of_pos use, List.length_cons, List.getLast?_cons, Option.getD_some,
            ← Nat.add_assoc, Nat.add_right_comm]
          exact rest
        · simp only [use, Bool.false_eq_true, ↓reduceIte] at rest ⊢
          rw [List.filter_cons_of_neg use]
          exact rest
      · rintro d (under | ⟨l, later, k, there, under⟩)
        · exact ⟨j, List.mem_cons_self, _, char, under⟩
        · exact ⟨l, List.mem_cons_of_mem j later, k, chars ▸ there, under⟩

theorem onlyUsed_of_count {nodes : List FfNode} {pos : Nat}
    (single : (List.range nodes.length).filter (usedAt nodes) = [pos]) :
    OnlyUsed nodes pos ∧ pos < nodes.length := by
  have member : ∀ j, j ∈ (List.range nodes.length).filter (usedAt nodes) ↔ j = pos := by
    intro j
    rw [single, List.mem_singleton]
  simp only [List.mem_filter, List.mem_range] at member
  refine ⟨?_, ((member pos).mpr rfl).1⟩
  intro j node found apart
  by_contra inUse
  have use : usedAt nodes j = true := by
    rw [usedAt, found, Option.any_some]
    by_contra unused
    simp only [Bool.or_eq_true, decide_eq_true_eq, not_or, Bool.not_eq_true, ne_eq, not_not] at unused
    exact inUse unused
  exact apart ((member j).mp ⟨(List.getElem?_eq_some_iff.mp found).1, use⟩)

theorem compressTree_spec (fuel : Nat) : CompressesFrom paths words δ fuel := by
  induction fuel with
  | zero =>
      intro info i path address nodes _ here _ _ _ deep
      have short := deep path (List.mem_of_getElem? here)
      omega
  | succ fuel ih =>
      intro info i path address nodes ok here leafset block below deep
      obtain ⟨other, otherNodes, there, otherBlock, wide⟩ := below i ⟨path, here, List.prefix_rfl⟩
      obtain rfl : address = other := Option.some.inj (leafset.symm.trans there)
      obtain rfl : nodes = otherNodes := Option.some.inj (block.symm.trans otherBlock)
      obtain ⟨next, leaves, compressed⟩ := compressLeaves_spec ih here deep (List.range nodes.length)
        List.nodup_range (fun j member => List.mem_range.mp member) ok leafset block wide
        (fun j _ k _ d under => below d under.parent) 0 0
      have own : Untouched info next i := by
        apply compressed.untouched
        rintro ⟨_, _, k, _, under⟩
        exact not_below_self here k under
      have inner : ∀ d, (∃ j ∈ List.range nodes.length, ∃ k, info.uniqChars[j]? = some k ∧
          Below paths (path ++ [k]) d) → Below paths path d := by
        rintro d ⟨_, _, k, _, under⟩
        exact under.parent
      have chars := compressed.regrown.uniqChars
      rw [compressTree, ← wide.size, leaves]
      simp only [Option.bind_eq_bind, Option.bind_some, Nat.zero_add]
      by_cases single : usedCount nodes = 1
      · obtain ⟨pos, filtered⟩ := List.length_eq_one_iff.mp single
        obtain ⟨only, inside⟩ := onlyUsed_of_count filtered
        have found := List.getElem?_eq_getElem inside
        have leafset' := own.leafset.trans leafset
        have block' := (own.block address leafset).trans block
        have plain := wide.uncompressed _ (List.getElem_mem inside)
        have read : next.node address pos = some nodes[pos] := by
          rw [FastfindInfo.node, block', Option.bind_some, found]
        have low : pos < ffMaxChars := Nat.lt_of_lt_of_le (wide.size ▸ inside) ok.chars
        simp only [filtered, List.length_singleton, ne_eq, not_true_eq_false, ↓reduceIte,
          List.getLast?_singleton, Option.getD_some, read, Option.bind_some, plain, Bool.false_eq_true,
          find_leafset compressed.linked leafset', single, true_and]
        by_cases before : i + 1 < paths.length
        · simp only [before, ↓reduceIte]
          refine ⟨_, rfl, compressed.trans (compressed_compressNode compressed.linked leafset' block'
            (chars ▸ wide) found low only) ?_, ?_⟩
          · rintro d (under | rfl)
            · exact inner d under
            · exact ⟨path, here, List.prefix_rfl⟩
          · apply block_compressNode_old
            exact compressed.linked.bounded address (List.mem_of_getElem? leafset')
        · simp only [before, ↓reduceIte]
          exact ⟨next, rfl, compressed.trans (.refl compressed.linked _) fun d covered =>
            covered.elim (inner d) id, own⟩
      · have several : (List.filter (usedAt nodes) (List.range nodes.length)).length ≠ 1 := single
        simp only [several, ne_eq, not_false_eq_true, ↓reduceIte, single, false_and]
        exact ⟨next, rfl, compressed.trans (.refl compressed.linked _) fun d covered =>
          covered.elim (inner d) id, own⟩

end CompressTree

end KcnTools.Util
