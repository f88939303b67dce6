import KcnTools.Protocol.ProtocolTable
import Mathlib

/-!
The entities of `intl/charsets.c`: what a numeric or named entity stands for in a codepage,
and the cache in front of that. The generated tables are parameters.
-/

namespace KcnTools.Intl

open Protocols

/-- The named entities as `bsearch` finds them, the codepages, and the 7-bit replacements. -/
structure CharsetTables where
  entities : List UInt8 → Option Nat
  codepages : Nat → List (UInt8 × Nat)
  unicode7b : List (Nat × List UInt8)

def byteString (c : UInt8) : List UInt8 := cString [if c = 23 ∨ c = 31 then 27 else c]

def nbspCharString : List UInt8 := [1]

def noStr : List UInt8 := [42]

def strangeChars : List Nat :=
  [0x20ac, 0x0000, 0x002a, 0x0000, 0x201e, 0x2026, 0x2020, 0x2021,
    0x005e, 0x2030, 0x0160, 0x003c, 0x0152, 0x0000, 0x0000, 0x0000,
    0x0000, 0x0060, 0x0027, 0x0022, 0x0022, 0x002a, 0x2013, 0x2014,
    0x007e, 0x2122, 0x0161, 0x003e, 0x0153, 0x0000, 0x0000, 0x0000]

def binSearch (table : List (Nat × List UInt8)) (key : Nat) : Nat → Nat → Int → Option (List UInt8)
  | 0, _, _ => none
  | fuel + 1, start, stop =>
      if stop < start then none
      else
        let middle := (start + stop.toNat) / 2
        match table[middle]? with
        | none => none
        | some (x, s) =>
            if x = key then some s
            else if key < x then binSearch table key fuel start ((middle : Int) - 1)
            else binSearch table key fuel (middle + 1) stop

section

variable (tables : CharsetTables)

def u2cpPlain (u encoding : Nat) : Option (List UInt8) :=
  if u < 128 then some (byteString (UInt8.ofNat u))
  else if u = 0xa0 then some nbspCharString
  else if u = 0xad then some []
  else
    -- without the flag of the system charset
    match (tables.codepages (encoding - (encoding &&& 128))).find? fun entry => entry.2 = u with
    | some (c, _) => some (byteString c)
    | none =>
        match binSearch tables.unicode7b u (tables.unicode7b.length + 1) 0 ((tables.unicode7b.length : Int) - 1) with
        | some s => some s
        | none => some noStr

def u2cp (u encoding : Nat) : Option (List UInt8) :=
  if 0x80 ≤ u ∧ u < 0xa0 then
    let strange := strangeChars.getD (u - 0x80) 0
    if strange = 0 then none else u2cpPlain tables strange encoding
  else u2cpPlain tables u encoding

def isxdigit (c : UInt8) : Bool := isdigit c || (65 ≤ c && c ≤ 70) || (97 ≤ c && c ≤ 102)

def hexValue : List UInt8 → Nat → Option Nat
  | [], n => some n
  | c :: rest, n =>
      let c := c ||| 32
      if isdigit c then hexValue rest ((n * 16 % 2 ^ 32) ||| (c.toNat - 48))
      else if isxdigit c then hexValue rest ((n * 16 % 2 ^ 32) ||| (c.toNat - 97 + 10))
      else none

def decimalEntity : List UInt8 → Nat → Option Nat
  | [], n => some n
  | c :: rest, n =>
      if isdigit c then
        let n := (n * 10 + (c.toNat - 48)) % 2 ^ 32
        if 0xffffffff ≤ n then none else decimalEntity rest n
      else none

def numericEntity : List UInt8 → Option Nat
  | [] => none
  | c :: rest =>
      if c ||| 32 = 120 then
        if rest.isEmpty ∨ 9 < rest.length + 1 then none else hexValue rest 0
      else if 10 < rest.length + 1 then none
      else decimalEntity (c :: rest) 0

def entityString (str : List UInt8) (encoding : Nat) : Option (List UInt8) :=
  match str with
  | 35 :: digits => (numericEntity digits).bind fun n => u2cp tables n encoding
  | str => (tables.entities str).bind fun n => u2cp tables n encoding

structure EntityCacheEntry where
  hits : Nat
  encoding : Nat
  result : Option (List UInt8)
  str : List UInt8
  deriving DecidableEq

def entityCacheSize : Nat := 10

def entityCacheMaxlen : Nat := 9

abbrev EntityCache := Nat → List EntityCacheEntry

def emptyEntityCache : EntityCache := fun _ => []

def entitySlot (str : List UInt8) : Nat :=
  if 1 < str.length ∧ str.length < entityCacheMaxlen then str.length else 0

def entityMatches (str : List UInt8) (encoding : Nat) (entry : EntityCacheEntry) : Bool :=
  entry.encoding = encoding && entry.str.take str.length = str

def EntityCache.setTable (cache : EntityCache) (slot : Nat) (table : List EntityCacheEntry) : EntityCache :=
  fun other => if other = slot then table else cache other

def addEntity (table : List EntityCacheEntry) (entry : EntityCacheEntry) : List EntityCacheEntry :=
  (if table.length < entityCacheSize then table else table.dropLast) ++ [entry]

def getEntityString (qsort : List EntityCacheEntry → List EntityCacheEntry) (cache : EntityCache)
    (str : List UInt8) (encoding : Nat) : EntityCache × Option (List UInt8) :=
  if str = [] then (cache, none)
  else
    let slot := entitySlot str
    let table := cache slot
    match if str.length < entityCacheMaxlen then table.findIdx? (entityMatches str encoding) else none with
    | some index =>
        (cache.setTable slot (table.modify index fun entry =>
            { entry with hits := if entry.hits < 2 ^ 32 - 1 then entry.hits + 1 else entry.hits }),
          (table.map EntityCacheEntry.result).getD index none)
    | none =>
        let result := entityString tables str encoding
        if str.length < 20 then
          let table := if 1 < table.length then qsort table else table
          (cache.setTable slot (addEntity table ⟨1, encoding, result, str⟩), result)
        else (cache, result)

end

end KcnTools.Intl
