import KcnTools.Lib.Buffer
import KcnTools.Lib.Segment
import Mathlib

/-!
Executable model of the fragment lists in `cache/cache.c`. A fragment owns its
allocated block, every `memcpy`, `memmove` and `memcmp` is bounds-checked against
that block, and `none` is the run that leaves it. Offsets are exact integers:
the C code gives no meaning to a sum that leaves `off_t` (2^63 and more).
-/

namespace KcnTools.Cache

structure Fragment where
  offset : Int
  length : Int
  realLength : Int
  data : List UInt8
  deriving DecidableEq

structure CacheEntry where
  frag : List Fragment
  id : Int
  length : Int
  dataSize : Int
  preformatted : Bool
  incomplete : Bool
  deriving DecidableEq

/-- One cache entry with the file-scope variables its operations change. -/
structure CacheContext where
  entry : CacheEntry
  cacheSize : Int
  idCounter : Int
  deriving DecidableEq

/-- Which `mem_mmap_alloc` and `mem_mmap_realloc` calls of one operation succeed. An
empty request and one for half the address space or more are always refused. -/
structure Allocator where
  alloc : Nat → Bool
  realloc : Nat → Nat → Bool
  refuses : ∀ size, size = 0 ∨ 2 ^ 63 ≤ size → alloc size = false

def CacheContext.setFrag (context : CacheContext) (frag : List Fragment) : CacheContext :=
  { context with entry := { context.entry with frag } }

def enlargeEntry (context : CacheContext) (size : Int) : CacheContext :=
  let dataSize := context.entry.dataSize + size
  { context with
    entry := { context.entry with dataSize := if dataSize < 0 then 0 else dataSize }
    cacheSize := context.cacheSize + size }

def cachePad (size : Nat) : Nat := (size ||| 0x3fff) + 1

def fragSize (size : Int) : Nat := ((48 + size - 1) % 2 ^ 64).toNat

def fragAlloc (memory : Allocator) (size : Int) : Option Fragment :=
  if memory.alloc (fragSize size) then
    some { offset := 0, length := 0, realLength := 0, data := List.replicate size.toNat 0 }
  else none

def fragRealloc (memory : Allocator) (f : Fragment) (size : Int) : Option Fragment :=
  if memory.realloc (fragSize f.realLength) (fragSize size) then
    some { f with data := Buffer.resize 0 f.data size.toNat }
  else none

/-- One turn of the loop in `remove_overlaps`: `next` is merged into `f` or dropped. -/
def removeOverlap (memory : Allocator) (fEndOffset : Int) (context : CacheContext)
    (f next : Fragment) (trunc : Bool) : Option (CacheContext × Fragment × Bool) := do
  let endOffset := next.offset + next.length
  if fEndOffset < endOffset then
    match fragRealloc memory f (endOffset - f.offset) with
    | some nf =>
        let shared := nf.offset + nf.length - next.offset
        let mine ← Buffer.read nf.data (next.offset - nf.offset) shared
        let theirs ← Buffer.read next.data 0 shared
        let tail ← Buffer.read next.data (fEndOffset - next.offset) (endOffset - fEndOffset)
        let data ← Buffer.write nf.data nf.length tail
        let length := endOffset - nf.offset
        some (enlargeEntry (enlargeEntry context (endOffset - fEndOffset)) (-next.length),
          { nf with length, realLength := length, data }, trunc || mine != theirs)
    | none => some (enlargeEntry context (-next.length), f, trunc)
  else
    let mine ← Buffer.read f.data (next.offset - f.offset) next.length
    let theirs ← Buffer.read next.data 0 next.length
    some (enlargeEntry context (-next.length), f, trunc || mine != theirs)

def removeOverlaps (memory : Allocator) (fEndOffset : Int) :
    CacheContext → Fragment → List Fragment → Bool →
      Option (CacheContext × Fragment × List Fragment × Bool)
  | context, f, [], trunc => some (context, f, [], trunc)
  | context, f, next :: after, trunc =>
      if fEndOffset > next.offset then do
        let (context, f, trunc) ← removeOverlap memory fEndOffset context f next trunc
        removeOverlaps memory fEndOffset context f after trunc
      else some (context, f, next :: after, trunc)

def deleteFragment (context : CacheContext) (fragments : List Fragment) : CacheContext :=
  fragments.foldl (fun context f => enlargeEntry context (-f.length)) context

/-- The one fragment that `truncate_entry` shortens; memory is given back when `final`. -/
def truncateFragment (memory : Allocator) (f : Fragment) (size : Int) (final : Bool) : Fragment :=
  let f := { f with length := size }
  if final then
    match fragRealloc memory f f.length with
    | some nf => { nf with realLength := nf.length }
    | none => f
  else f

def truncateFragments (memory : Allocator) (offset : Int) (final : Bool) :
    CacheContext → List Fragment → CacheContext × List Fragment
  | context, [] => (context, [])
  | context, f :: rest =>
      let size := offset - f.offset
      if size ≥ f.length then
        let (context, kept) := truncateFragments memory offset final context rest
        (context, f :: kept)
      else if size > 0 then
        let context := enlargeEntry context (-(f.length - size))
        (deleteFragment context rest, [truncateFragment memory f size final])
      else (deleteFragment context (f :: rest), [])

def truncateEntry (memory : Allocator) (context : CacheContext) (offset : Int) (final : Bool) :
    CacheContext :=
  let context := if context.entry.length > offset then
      { context with entry := { context.entry with length := offset, incomplete := true } }
    else context
  let (context, frag) := truncateFragments memory offset final context context.entry.frag
  context.setFrag frag

/-- The tail of `add_fragment`: a new fragment is made up between `before` and `after`. -/
def insertFragment (memory : Allocator) (context : CacheContext) (before after : List Fragment)
    (offset : Int) (data : List UInt8) : Option (Int × CacheContext) :=
  match fragAlloc memory (cachePad data.length) with
  | none => some (-1, context.setFrag (before ++ after))
  | some nf => do
      let bytes ← Buffer.write nf.data 0 data
      let nf := { offset, length := data.length, realLength := cachePad data.length, data := bytes }
      let endOffset := offset + data.length
      let (context, nf, after, trunc) ←
        removeOverlaps memory endOffset (enlargeEntry context data.length) nf after false
      let context := context.setFrag (before ++ nf :: after)
      some (1, if trunc then truncateEntry memory context endOffset false else context)

def overwriteFragment (memory : Allocator) (context : CacheContext) (before : List Fragment)
    (f : Fragment) (after : List Fragment) (offset : Int) (data : List UInt8) (ret : Int) :
    Option (Int × CacheContext) := do
  let bytes ← Buffer.write f.data (offset - f.offset) data
  let (context, f, after, _) ←
    removeOverlaps memory (f.offset + f.length) context { f with data := bytes } after false
  let context := context.setFrag (before ++ f :: after)
  some (ret, truncateEntry memory context (offset + data.length) false)

def addFragmentLoop (memory : Allocator) (context : CacheContext) (offset : Int)
    (data : List UInt8) : List Fragment → List Fragment → Option (Int × CacheContext)
  | before, [] => insertFragment memory context before [] offset data
  | before, f :: after =>
      let endOffset := offset + data.length
      let fEndOffset := f.offset + f.length
      if f.offset > offset then insertFragment memory context before (f :: after) offset data
      else if fEndOffset < offset then
        addFragmentLoop memory context offset data (before ++ [f]) after
      else if endOffset > fEndOffset then
        if endOffset - f.offset ≤ f.realLength then
          overwriteFragment memory (enlargeEntry context (endOffset - fEndOffset)) before
            { f with length := endOffset - f.offset } after offset data 1
        else
          insertFragment memory context (before ++ [{ f with length := offset - f.offset }]) after
            offset data
      else overwriteFragment memory context before f after offset data 0

def extendEntry (context : CacheContext) (endOffset : Int) : CacheContext :=
  let length := if context.entry.length < endOffset then endOffset else context.entry.length
  { context with
    entry := { context.entry with length, id := context.idCounter }
    idCounter := context.idCounter + 1 }

def addFragment (memory : Allocator) (context : CacheContext) (offset : Int)
    (data : List UInt8) : Option (Int × CacheContext) :=
  if data.isEmpty then some (0, context)
  else addFragmentLoop memory (extendEntry context (offset + data.length)) offset data []
    context.entry.frag

def wrapInt (value : Int) : Int := (value + 2 ^ 31) % 2 ^ 32 - 2 ^ 31

/-- The fragments that follow `prev` without a gap, and the rest; `none` on an overlap. -/
def adjacentFragments (prev : Fragment) : List Fragment → Option (List Fragment × List Fragment)
  | [] => some ([], [])
  | adj :: rest =>
      let gap := adj.offset - (prev.offset + prev.length)
      if gap > 0 then some ([], adj :: rest)
      else if gap = 0 then
        (adjacentFragments adj rest).map fun (run, rest) => (adj :: run, rest)
      else none

def newFragLen (fragments : List Fragment) : Int :=
  fragments.foldl (fun length f => wrapInt (length + f.length)) 0

def copyFragments : List Fragment → List UInt8 → Int → Option (List UInt8)
  | [], data, _ => some data
  | frag :: rest, data, length => do
      let bytes ← Buffer.read frag.data 0 frag.length
      let data ← Buffer.write data length bytes
      copyFragments rest data (wrapInt (length + frag.length))

def defragment (memory : Allocator) (context : CacheContext) (first : Fragment)
    (run rest : List Fragment) : Option (Option Fragment × CacheContext) :=
  let length := newFragLen (first :: run)
  match fragAlloc memory length with
  | none => some (if first.length ≠ 0 then some first else none, context)
  | some newFrag => do
      let data ← copyFragments (first :: run) newFrag.data 0
      let newFrag := { newFrag with length, realLength := length, data }
      some (some newFrag, context.setFrag (newFrag :: rest))

def getCacheFragment (memory : Allocator) (context : CacheContext) :
    Option (Option Fragment × CacheContext) :=
  match context.entry.frag with
  | [] => some (none, context)
  | first :: others =>
      if first.offset ≠ 0 then some (none, context)
      else if others.isEmpty then some (some first, context)
      else match adjacentFragments first others with
        | none => some (none, context)
        | some (run, rest) =>
            if run.isEmpty then some (some first, context)
            else defragment memory context first run rest

def freeFragmentsTo (offset : Int) :
    CacheContext → List Fragment → Option (CacheContext × List Fragment)
  | context, [] => some (context, [])
  | context, f :: rest =>
      if f.offset + f.length ≤ offset then
        freeFragmentsTo offset (enlargeEntry context (-f.length)) rest
      else if f.offset < offset then do
        let size := offset - f.offset
        let bytes ← Buffer.read f.data size (f.length - size)
        let data ← Buffer.write f.data 0 bytes
        let (context, rest) ← freeFragmentsTo offset (enlargeEntry context (-size)) rest
        some (context, { f with offset, length := f.length - size, data } :: rest)
      else some (context, f :: rest)

def freeEntryTo (context : CacheContext) (offset : Int) : Option CacheContext := do
  let (context, frag) ← freeFragmentsTo offset context context.entry.frag
  some (context.setFrag frag)

def deleteEntryContent (context : CacheContext) : CacheContext :=
  let context := enlargeEntry context (-context.entry.dataSize)
  { context with
    entry := { context.entry with frag := [], id := context.idCounter, length := 0, incomplete := true }
    idCounter := context.idCounter + 1 }

def normalizeCacheEntry (memory : Allocator) (context : CacheContext) (truncateLength : Int) :
    CacheContext :=
  if truncateLength < 0 then context
  else
    let context := truncateEntry memory context truncateLength true
    { context with entry := { context.entry with incomplete := false, preformatted := false } }

def emptyEntry (id : Int) : CacheEntry :=
  { frag := [], id, length := 0, dataSize := 0, preformatted := false, incomplete := true }

/-! Runs of operations on one entry, each with its own allocator. -/

inductive CacheOp
  | addFragment (memory : Allocator) (offset : Int) (data : List UInt8)
  | getCacheFragment (memory : Allocator)
  | freeEntryTo (offset : Int)
  | truncateEntry (memory : Allocator) (offset : Int) (final : Bool)
  | normalizeCacheEntry (memory : Allocator) (truncateLength : Int)
  | deleteEntryContent

def step (context : CacheContext) : CacheOp → Option CacheContext
  | .addFragment memory offset data => (addFragment memory context offset data).map Prod.snd
  | .getCacheFragment memory => (getCacheFragment memory context).map Prod.snd
  | .freeEntryTo offset => freeEntryTo context offset
  | .truncateEntry memory offset final => some (truncateEntry memory context offset final)
  | .normalizeCacheEntry memory truncateLength =>
      some (normalizeCacheEntry memory context truncateLength)
  | .deleteEntryContent => some (deleteEntryContent context)

end KcnTools.Cache
