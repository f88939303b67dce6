import KcnTools.Util.Fastfind

/-!
The leafsets as a trie over the folded characters. A search gives what the trie holds, however
its leafsets are stored.
-/

namespace KcnTools.Util

open Trie

variable {δ : Type}

def letterNode (info : FastfindInfo δ) (leafset : Nat) (k : UInt8) : Option FfNode := do
  let lidx ← info.idx k
  let address ← info.leafsets[leafset]?
  let nodes ← info.block address
  (blockNode nodes lidx).join

def trieNodes (info : FastfindInfo δ) : Nodes UInt8 Nat where
  mark i k := (letterNode info (i + 1) k).bind fun node => if node.e then some node.p else none
  child i k := (letterNode info (i + 1) k).bind fun node => if node.l = 0 then none else some (node.l - 1)

/-- A leafset has a node for each character, or is compressed to a single node. -/
inductive BlockOk (chars : Nat) : List FfNode → Prop
  | wide {nodes} (size : nodes.length = chars) (uncompressed : ∀ node ∈ nodes, node.c = false) :
      BlockOk chars nodes
  | single {node : FfNode} (compressed : node.c = true) : BlockOk chars [node]

theorem BlockOk.blockNode {chars lidx : Nat} {nodes : List FfNode} (ok : BlockOk chars nodes)
    (inside : lidx < chars) : ∃ node, blockNode nodes lidx = some node := by
  cases ok with
  | wide size uncompressed =>
      have first : 0 < nodes.length := by omega
      have there : lidx < nodes.length := by omega
      rw [Util.blockNode, List.getElem?_eq_getElem first]
      simp only [uncompressed _ (List.getElem_mem first), Bool.false_eq_true, ↓reduceIte,
        List.getElem?_eq_getElem there]
      exact ⟨_, rfl⟩
  | single compressed =>
      simp only [Util.blockNode, List.getElem?_cons_zero, compressed, ↓reduceIte]
      exact ⟨_, rfl⟩

/-- The leafsets of the nodes are allocated at addresses of their own. -/
structure Linked (info : FastfindInfo δ) (count : Nat) : Prop where
  alphabet : ∀ k i, info.idx k = some i ↔ info.uniqChars[i]? = some k
  sevenBit : ∀ k, ffMaxChars ≤ k.toNat → info.idx k = none
  size : info.leafsets.length = count + 1
  distinct : info.leafsets.Nodup
  bounded : ∀ address ∈ info.leafsets, address < info.heap.length
  block : ∀ i < count, ∃ address nodes, info.leafsets[i + 1]? = some address ∧
    info.block address = some nodes ∧ BlockOk info.uniqChars.length nodes

structure DataOf (info : FastfindInfo δ) (words : List (List UInt8 × Nat)) : Prop where
  data : ∀ word p, (word, p) ∈ words → ∃ data, info.data[p]? = some data ∧ data.keylen = word.length

variable {info : FastfindInfo δ} {paths : List (List UInt8)} {words : List (List UInt8 × Nat)}

theorem find_of_letter_none {node : Nat} {k : UInt8} (nothing : letterNode info (node + 1) k = none)
    (rest : List UInt8) : find (trieNodes info) node (k :: rest) = none := by
  cases rest with
  | nil =>
      rw [find]
      simp only [trieNodes, nothing, Option.bind_none]
  | cons next rest =>
      rw [find]
      simp only [trieNodes, nothing, Option.bind_none]

theorem find_of_idx_none {k : UInt8} (missing : info.idx k = none) (node : Nat) (rest : List UInt8) :
    find (trieNodes info) node (k :: rest) = none := by
  apply find_of_letter_none
  simp only [letterNode, missing]
  rfl

theorem Linked.letterNode_eq (linked : Linked info paths.length) {i lidx : Nat} {k : UInt8}
    (inside : i < paths.length) (known : info.idx k = some lidx) :
    ∃ address nodes node, info.leafsets[i + 1]? = some address ∧ info.block address = some nodes ∧
      blockNode nodes lidx = some node ∧ letterNode info (i + 1) k = node := by
  obtain ⟨address, nodes, leafset, block, ok⟩ := linked.block i inside
  have below : lidx < info.uniqChars.length :=
    (List.getElem?_eq_some_iff.mp ((linked.alphabet k lidx).mp known)).1
  obtain ⟨node, found⟩ := ok.blockNode below
  refine ⟨address, nodes, node, leafset, block, found, ?_⟩
  simp only [letterNode, known, leafset, block, found, Option.bind_eq_bind, Option.bind_some,
    Option.join_some]

theorem trieNodes_of_letter {i : Nat} {k : UInt8} {node : FfNode}
    (letter : letterNode info (i + 1) k = some node) :
    (trieNodes info).mark i k = (if node.e then some node.p else none) ∧
      (trieNodes info).child i k = if node.l = 0 then none else some (node.l - 1) := by
  constructor
  · simp only [trieNodes, letter, Option.bind_some]
  · simp only [trieNodes, letter, Option.bind_some]

theorem trieNodes_of_empty {i : Nat} {k : UInt8}
    (empty : letterNode info (i + 1) k = none ∨ letterNode info (i + 1) k = some emptyNode) :
    (trieNodes info).mark i k = none ∧ (trieNodes info).child i k = none := by
  rcases empty with nothing | blank
  · simp only [trieNodes, nothing]
    exact ⟨rfl, rfl⟩
  · simp only [trieNodes, blank]
    exact ⟨rfl, rfl⟩

def pointerAt (info : FastfindInfo δ) (p : Nat) : Option δ := (info.data[p]?).map FfData.pointer

theorem endingKey_eq (stores : Stores (trieNodes info) paths words) (dataOf : DataOf info words)
    {i : Nat} {path : List UInt8} {k : UInt8} {node : FfNode} (here : paths[i]? = some path)
    (letter : letterNode info (i + 1) k = some node) (more : Nat) :
    endingKey info (path.length + 1 + more) node =
      some (if more = 0 then ((trieNodes info).mark i k).bind (pointerAt info) else none) := by
  have mark := (trieNodes_of_letter letter).1
  by_cases ends : node.e = true
  · rw [if_pos ends] at mark
    obtain ⟨data, found, keylen⟩ := dataOf.data _ _ ((stores.mark i path k node.p here).mp mark)
    rw [List.length_append, List.length_singleton] at keylen
    rw [endingKey, if_pos ends, found, Option.map_some, keylen, mark, Option.bind_some, pointerAt, found]
    by_cases last : more = 0
    · rw [if_pos last, if_pos (by omega)]
      rfl
    · rw [if_neg last, if_neg (by omega)]
  · rw [if_neg ends] at mark
    rw [endingKey, if_neg ends, mark, Option.bind_none, ite_self]

theorem leafset_below (linked : Linked info paths.length)
    (stores : Stores (trieNodes info) paths words) {i : Nat} {path : List UInt8} {k : UInt8}
    {node : FfNode} (here : paths[i]? = some path) (letter : letterNode info (i + 1) k = some node)
    (more : node.l ≠ 0) : ∃ below address, node.l = below + 1 ∧
      (trieNodes info).child i k = some below ∧ paths[below]? = some (path ++ [k]) ∧
      info.leafsets[below + 1]? = some address := by
  have child := (trieNodes_of_letter letter).2
  rw [if_neg more] at child
  have there := (stores.child i path k _ here).mp child
  have inside := (List.getElem?_eq_some_iff.mp there).1
  obtain ⟨address, nodes, leafset, _⟩ := linked.block (node.l - 1) inside
  exact ⟨node.l - 1, address, by omega, child, there, leafset⟩

theorem ffSearch_eq (fold : UInt8 → UInt8) (linked : Linked info paths.length)
    (stores : Stores (trieNodes info) paths words) (dataOf : DataOf info words)
    {i address keyLen : Nat} {path rest : List UInt8} (here : paths[i]? = some path)
    (leafset : info.leafsets[i + 1]? = some address) (length : keyLen = path.length + rest.length) :
    ffSearch fold info keyLen address rest =
      some ((find (trieNodes info) i (rest.map fold)).bind (pointerAt info)) := by
  induction rest generalizing i address path with
  | nil => rfl
  | cons c rest ih =>
      rw [ffSearch, List.map_cons]
      by_cases high : ffMaxChars ≤ (fold c).toNat
      · rw [if_pos high, find_of_idx_none (linked.sevenBit _ high), Option.bind_none]
      rw [if_neg high]
      cases known : info.idx (fold c) with
      | none => rw [find_of_idx_none known, Option.bind_none]
      | some lidx =>
          have inside := (List.getElem?_eq_some_iff.mp here).1
          obtain ⟨other, nodes, node, there, block, found, letter⟩ :=
            linked.letterNode_eq inside known
          obtain rfl : address = other := Option.some.inj (leafset.symm.trans there)
          simp only [block, Option.bind_some, found]
          cases node with
          | none => rw [find_of_letter_none letter, Option.bind_none]
          | some node =>
              rw [List.length_cons] at length
              have ending := endingKey_eq stores dataOf here letter rest.length
              rw [show path.length + 1 + rest.length = keyLen by omega] at ending
              simp only [ending]
              cases rest with
              | nil =>
                  rw [if_pos List.length_nil, List.map_nil, find]
                  cases ((trieNodes info).mark i (fold c)).bind (pointerAt info) with
                  | some pointer => rfl
                  | none =>
                      simp only
                      split
                      next => rfl
                      next more =>
                        obtain ⟨below, address, l, _, _, leafset⟩ :=
                          leafset_below linked stores here letter more
                        rw [l, leafset]
                        rfl
              | cons next rest =>
                  rw [if_neg (by simp), List.map_cons, find]
                  simp only
                  split
                  next last =>
                    rw [(trieNodes_of_letter letter).2, if_pos last]
                    rfl
                  next more =>
                    obtain ⟨below, address, l, child, path, leafset⟩ :=
                      leafset_below linked stores here letter more
                    rw [l, leafset, child, Option.bind_some, ← List.map_cons]
                    apply ih path leafset
                    rw [List.length_append, List.length_singleton]
                    omega

end KcnTools.Util
