import KcnTools.Lib.Trie
import KcnTools.Protocol.ProtocolTable
import Mathlib

/-!
The keyword index of `util/fastfind.c`: a trie of leafsets over the characters that occur in the
keys. Leafsets are allocated blocks of nodes; a block that has been freed is gone.
-/

namespace KcnTools.Util

open Protocols (cTolower)

def ffMaxKeys : Nat := 2 ^ 10

def ffMaxLeafsets : Nat := 2 ^ 13 - 1

def ffMaxChars : Nat := 2 ^ 7

def ffMaxKeylen : Nat := 255

/-- `e` marks the end of a key with data `p`, and `l` is the leafset below, 0 for none. A block
of one compressed node stands for the character with index `ch`. -/
structure FfNode where
  e : Bool
  c : Bool
  p : Nat
  l : Nat
  ch : Nat
  deriving DecidableEq

def emptyNode : FfNode := ⟨false, false, 0, 0, 0⟩

structure FfData (δ : Type) where
  pointer : δ
  keylen : Nat

structure FastfindFlags where
  caseAware : Bool
  localeIndep : Bool
  compress : Bool

/-- Leafsets are addresses in the heap, where nothing lies at 0; the first one is never used. -/
structure FastfindInfo (δ : Type) where
  data : List (FfData δ)
  heap : List (Option (List FfNode))
  leafsets : List Nat
  rootLeafset : Nat
  minKeyLen : Nat
  maxKeyLen : Nat
  count : Nat
  flags : FastfindFlags
  uniqChars : List UInt8
  idxtab : List (Option Nat)

variable {δ : Type}

def cToupper (c : UInt8) : UInt8 := if 97 ≤ c && c ≤ 122 then c - 32 else c

def ifcase (toupper : UInt8 → UInt8) (flags : FastfindFlags) (c : UInt8) : UInt8 :=
  if flags.caseAware then c else if flags.localeIndep then cToupper c else toupper c

def initFastfind (flags : FastfindFlags) : FastfindInfo δ where
  data := []
  heap := [none]
  leafsets := [0]
  rootLeafset := 0
  minKeyLen := ffMaxKeylen
  maxKeyLen := 0
  count := 0
  flags := flags
  uniqChars := []
  idxtab := []

def FastfindInfo.leafsetsCount (info : FastfindInfo δ) : Nat := info.leafsets.length - 1

def FastfindInfo.block (info : FastfindInfo δ) (leafset : Nat) : Option (List FfNode) :=
  (info.heap[leafset]?).join

def FastfindInfo.node (info : FastfindInfo δ) (leafset idx : Nat) : Option FfNode :=
  (info.block leafset).bind fun nodes => nodes[idx]?

def FastfindInfo.modifyNode (info : FastfindInfo δ) (leafset idx : Nat) (change : FfNode → FfNode) :
    FastfindInfo δ :=
  { info with heap := info.heap.modify leafset (Option.map fun nodes => nodes.modify idx change) }

def allocLeafset (info : FastfindInfo δ) : Option (FastfindInfo δ) :=
  if info.leafsetsCount < ffMaxLeafsets then
    some { info with
      heap := info.heap ++ [some (List.replicate info.uniqChars.length emptyNode)]
      leafsets := info.leafsets ++ [info.heap.length] }
  else none

def char2idx (c : UInt8) (uniqChars : List UInt8) : Option Nat :=
  uniqChars.findIdx? fun other => other == c

def initIdxtab (info : FastfindInfo δ) : FastfindInfo δ :=
  { info with
    idxtab := (List.range ffMaxChars).map fun i => char2idx (UInt8.ofNat i) info.uniqChars }

def FastfindInfo.idx (info : FastfindInfo δ) (k : UInt8) : Option Nat := (info.idxtab[k.toNat]?).join

def addUniqChars (fold : UInt8 → UInt8) (uniqChars : List UInt8) : List UInt8 → Option (List UInt8)
  | [] => some uniqChars
  | c :: rest =>
      if ffMaxChars ≤ (fold c).toNat then none
      else if (char2idx (fold c) uniqChars).isNone then
        if uniqChars.length < ffMaxChars then addUniqChars fold (uniqChars ++ [fold c]) rest
        else none
      else addUniqChars fold uniqChars rest

def measureKeys (fold : UInt8 → UInt8) : FastfindInfo δ → List (List UInt8 × δ) → Option (FastfindInfo δ)
  | info, [] => some info
  | info, (key, _) :: rest =>
      if 0 < key.length ∧ key.length ≤ ffMaxKeylen then
        match addUniqChars fold info.uniqChars key with
        | none => none
        | some uniqChars =>
            measureKeys fold { info with
              minKeyLen := min info.minKeyLen key.length
              maxKeyLen := max info.maxKeyLen key.length
              uniqChars := uniqChars
              count := info.count + 1 } rest
      else none

def growLeaf (info : FastfindInfo δ) (leafset idx : Nat) : Option (FastfindInfo δ) :=
  match info.node leafset idx with
  | none => none
  | some node =>
      if node.l = 0 then
        (allocLeafset info).map fun info => info.modifyNode leafset idx fun node =>
          { node with l := info.leafsetsCount % 2 ^ 13 }
      else some info

def descend (fold : UInt8 → UInt8) : FastfindInfo δ → Nat → List UInt8 → Option (FastfindInfo δ × Nat)
  | info, leafset, [] => some (info, leafset)
  | info, leafset, c :: rest =>
      match info.idx (fold c) with
      | none => none
      | some idx =>
          match growLeaf info leafset idx with
          | none => none
          | some info =>
              match (info.node leafset idx).bind fun node => info.leafsets[node.l]? with
              | none => none
              | some below => descend fold info below rest

def endKey (info : FastfindInfo δ) (leafset i : Nat) : FastfindInfo δ :=
  info.modifyNode leafset i fun node => { node with e := true, p := info.data.length % 2 ^ 10 }

def addToFfData (info : FastfindInfo δ) (pointer : δ) (keyLen : Nat) : FastfindInfo δ :=
  { info with data := info.data ++ [⟨pointer, keyLen⟩] }

def addKey (fold : UInt8 → UInt8) (info : FastfindInfo δ) (key : List UInt8) (pointer : δ) :
    Option (FastfindInfo δ) :=
  match descend fold info info.rootLeafset key.dropLast, key.getLast? with
  | some (info, leafset), some last =>
      match info.idx (fold last) with
      | none => none
      | some i =>
          some (addToFfData (endKey info leafset i) pointer key.length)
  | _, _ => none

/-- The block of a leafset is freed, and a single node takes its place in the table. -/
def compressNode (info : FastfindInfo δ) (leafset i : Nat) (node : FfNode) (pos : Nat) :
    FastfindInfo δ :=
  { info with
    heap := info.heap.set leafset none ++ [some [{ node with c := true, ch := pos % 2 ^ 7 }]]
    leafsets := info.leafsets.set i info.heap.length }

def compressLeaf (compressTree : FastfindInfo δ → Nat → Option (FastfindInfo δ)) (leafset : Nat)
    (state : FastfindInfo δ × Nat × Nat) (i : Nat) : Option (FastfindInfo δ × Nat × Nat) := do
  let node ← state.1.node leafset i
  if node.c then
    some state
  else
    let info ← if node.l ≠ 0 then (state.1.leafsets[node.l]?).bind (compressTree state.1) else some state.1
    some (if node.l ≠ 0 ∨ node.e then (info, state.2.1 + 1, i) else (info, state.2.1, state.2.2))

def compressTree : Nat → FastfindInfo δ → Nat → Option (FastfindInfo δ)
  | 0, _, _ => none
  | fuel + 1, info, leafset => do
      let (info, cnt, pos) ←
        (List.range info.uniqChars.length).foldlM (compressLeaf (compressTree fuel) leafset) (info, 0, 0)
      if cnt ≠ 1 then some info
      else
        let node ← info.node leafset pos
        if node.c then some info
        else
          match (List.range' 1 (info.leafsetsCount - 1)).find? fun i => info.leafsets[i]? = some leafset with
          | none => some info
          | some i => some (compressNode info leafset i node pos)

def buildTree (fold : UInt8 → UInt8) (info : FastfindInfo δ) (keys : List (List UInt8 × δ)) :
    Option (FastfindInfo δ) := do
  let info ← allocLeafset (initIdxtab info)
  let root ← info.leafsets[info.leafsetsCount]?
  if info.count < ffMaxKeys then
    keys.foldlM (fun info entry => addKey fold info entry.1 entry.2) { info with rootLeafset := root }
  else none

def fastfindIndex (toupper : UInt8 → UInt8) (flags : FastfindFlags) (keys : List (List UInt8 × δ)) :
    Option (FastfindInfo δ) := do
  let info ← measureKeys (ifcase toupper flags) (initFastfind flags) keys
  if info.count = 0 then some info
  else
    let info ← buildTree (ifcase toupper flags) info keys
    if flags.compress then compressTree info.maxKeyLen info info.rootLeafset else some info

def blockNode (nodes : List FfNode) (lidx : Nat) : Option (Option FfNode) :=
  match nodes[0]? with
  | none => none
  | some first =>
      if first.c then some (if first.ch = lidx then some first else none)
      else (nodes[lidx]?).map some

/-- The data of the key that ends at a node, if it has the length of the key searched for. -/
def endingKey (info : FastfindInfo δ) (keyLen : Nat) (node : FfNode) : Option (Option δ) :=
  if node.e then
    (info.data[node.p]?).map fun data => if keyLen = data.keylen then some data.pointer else none
  else some none

/-- `none` when memory is read that is not allocated. -/
def ffSearch (fold : UInt8 → UInt8) (info : FastfindInfo δ) (keyLen : Nat) :
    Nat → List UInt8 → Option (Option δ)
  | _, [] => some none
  | current, c :: rest =>
      if ffMaxChars ≤ (fold c).toNat then some none
      else
        match info.idx (fold c) with
        | none => some none
        | some lidx =>
            match (info.block current).bind fun nodes => blockNode nodes lidx with
            | none => none
            | some none => some none
            | some (some node) =>
                match endingKey info keyLen node with
                | none => none
                | some (some pointer) => some (some pointer)
                | some none =>
                    if node.l = 0 then some none
                    else
                      match info.leafsets[node.l]? with
                      | none => none
                      | some below => ffSearch fold info keyLen below rest

def fastfindSearch (toupper : UInt8 → UInt8) (info : FastfindInfo δ) (key : List UInt8) :
    Option (Option δ) :=
  if info.maxKeyLen < key.length then some none
  else if key.length < info.minKeyLen then some none
  else ffSearch (ifcase toupper info.flags) info key.length info.rootLeafset key

end KcnTools.Util
