import KcnTools.Cache.CacheCore
import KcnTools.Lib.Run
import KcnTools.Protocol.UriParse
import KcnTools.Util.Hash
import Mathlib

/-!
The URI cache of `protocol/uri.c`: one object for each string, with a count of its users, in a
hash table that lives as long as it has entries. Lengths and counts are `int`.
-/

namespace KcnTools.Protocols

open Cache (wrapInt)
open Util

structure UriCacheEntry where
  uri : Uri
  string : List UInt8
  refcount : Int

/-- Objects are addresses in the memory. The keys of the items are the strings of the entries. -/
structure UriCache where
  map : Option (Hash Nat Nat)
  refcount : Int
  memory : List (Option UriCacheEntry)

structure UriAllocations where
  hash : Bool
  entry : Bool
  item : Bool

def emptyUriCache : UriCache := ⟨none, 0, []⟩

def UriCache.entry (cache : UriCache) (object : Nat) : Option UriCacheEntry :=
  (cache.memory[object]?).join

def stringAt (memory : List (Option UriCacheEntry)) (object : Nat) : List UInt8 :=
  ((memory[object]?).join).elim [] UriCacheEntry.string

def UriCache.modifyRefcount (cache : UriCache) (object : Nat) (change : Int → Int) : UriCache :=
  { cache with memory := cache.memory.modify object fun block =>
      block.map fun entry => { entry with refcount := change entry.refcount } }

def objectLock (refcount : Int) : Int := wrapInt (refcount + 1)

def objectUnlock (refcount : Int) : Int := wrapInt (refcount - 1)

def isObjectUsed (refcount : Int) : Bool := refcount ≠ 0

def UriCache.opened (cache : UriCache) : UriCache :=
  if isObjectUsed cache.refcount then cache else { cache with map := some (initHash (2 ^ 3) strhash) }

def lockEntry (result : UriCache × Option Nat) : UriCache × Option Nat :=
  match result with
  | (cache, none) => (if isObjectUsed cache.refcount then cache else { cache with map := none }, none)
  | (cache, some object) => (cache.modifyRefcount object objectLock, some object)

section

variable (getUserProgram : List UInt8 → Bool)

def getUriCacheEntry (cache : UriCache) (map : Hash Nat Nat) (string : List UInt8) (length : Int)
    (allocations : UriAllocations) : UriCache × Option Nat :=
  if length ≤ 0 then (cache, none)
  else
    let text := string.take length.toNat
    match getHashItem (stringAt cache.memory) map text with
    | some (item, map) => ({ cache with map := some map }, some item.value)
    | none =>
        if allocations.entry then
          match parseUri getUserProgram text with
          | .error _ => (cache, none)
          | .ok uri =>
              let object := cache.memory.length
              if allocations.item then
                ({ map := some (addHashItem map text ⟨object, text.length, object⟩)
                   refcount := objectLock cache.refcount
                   memory := cache.memory ++ [some ⟨uri, text, 0⟩] }, some object)
              else (cache, none)
        else (cache, none)

/-- `get_uri` without components; `none` when there is no map where one is used. -/
def getUri (cache : UriCache) (string : List UInt8) (allocations : UriAllocations) :
    Option (UriCache × Option Nat) :=
  if isObjectUsed cache.refcount = false ∧ allocations.hash = false then some (cache, none)
  else
    cache.opened.map.map fun map =>
      lockEntry
        (getUriCacheEntry getUserProgram cache.opened map string (wrapInt string.length) allocations)

end

def getUriReference (cache : UriCache) (object : Nat) : Option UriCache :=
  (cache.entry object).map fun _ => cache.modifyRefcount object objectLock

/-- `none` when the entry of the string is not found. -/
def doneUri (cache : UriCache) (object : Nat) : Option UriCache :=
  match cache.entry object with
  | none => none
  | some entry =>
      let cache := cache.modifyRefcount object objectUnlock
      if isObjectUsed (objectUnlock entry.refcount) then some cache
      else
        match cache.map with
        | none => none
        | some map =>
            match getHashItem (stringAt cache.memory) map (entry.string.take (wrapInt entry.string.length).toNat) with
            | none => none
            | some (item, map) =>
                let refcount := objectUnlock cache.refcount
                some { map := if isObjectUsed refcount then some (delHashItem map item) else none
                       refcount := refcount
                       memory := cache.memory.set item.value none }

/-- The references that are outstanding, with the strings they were obtained for. -/
structure UriSession where
  cache : UriCache
  held : List (List UInt8 × Nat)

/-- References are given by their places among the outstanding ones. -/
inductive UriOperation
  | getUri (string : List UInt8) (allocations : UriAllocations)
  | getUriReference (reference : Nat)
  | doneUri (reference : Nat)

def uriStep (getUserProgram : List UInt8 → Bool) (session : UriSession) : UriOperation → Option UriSession
  | .getUri string allocations =>
      (getUri getUserProgram session.cache string allocations).map fun result =>
        ⟨result.1, match result.2 with
          | none => session.held
          | some object => session.held ++ [(string, object)]⟩
  | .getUriReference reference =>
      (session.held[reference]?).bind fun held =>
        (getUriReference session.cache held.2).map fun cache => ⟨cache, session.held ++ [held]⟩
  | .doneUri reference =>
      (session.held[reference]?).bind fun held =>
        (doneUri session.cache held.2).map fun cache => ⟨cache, session.held.eraseIdx reference⟩

end KcnTools.Protocols
