import Mathlib.Data.List.DropRight
import KcnTools.Cache.CacheCore

/-! The strings of the pager. A string is a block of `area_size` bytes of which the
first `length` are in use; an operation is `none` where it leaves the block. -/

namespace KcnTools.W3m

open Cache (wrapInt)

structure Str where
  ptr : List UInt8
  length : Int
  areaSize : Int

structure CString where
  bytes : List UInt8
  unbroken : ∀ c ∈ bytes, c ≠ 0

def initialStrSize : Int := 32

section
variable (junk : Nat → UInt8)

def malloc (size : Int) : List UInt8 := (List.range size.toNat).map junk

def strnewSize (n : Int) : Option Str := do
  let ptr ← Buffer.write (malloc junk (n + 1)) 0 [0]
  some ⟨ptr, 0, n + 1⟩

def strnew : Option Str := do
  let ptr ← Buffer.write (malloc junk initialStrSize) 0 [0]
  some ⟨ptr, 0, initialStrSize⟩

def strnewCharp : Option CString → Option Str
  | none => strnew junk
  | some p => do
      let n : Int := p.bytes.length + 1
      let ptr ← Buffer.write (malloc junk n) 0 (p.bytes ++ [0])
      some ⟨ptr, n - 1, n⟩

def strnewCharpN (p : Option (List UInt8)) (n : Nat) : Option Str :=
  match p with
  | none => strnewSize junk n
  | some p => do
      let ptr ← Buffer.write (malloc junk (n + 1)) 0 (← Buffer.read p 0 n)
      let ptr ← Buffer.write ptr n [0]
      some ⟨ptr, n, n + 1⟩

def roomFor (x : Str) (size : Int) : Str :=
  if x.areaSize < size then { x with ptr := malloc junk size, areaSize := size } else x

def strcopy (x y : Str) : Option Str := do
  let bytes ← Buffer.read y.ptr 0 (y.length + 1)
  let x := roomFor junk x (y.length + 1)
  let ptr ← Buffer.write x.ptr 0 bytes
  some { x with ptr := ptr, length := y.length }

def strdup (s : Str) : Option Str := do
  let n ← strnewSize junk s.length
  strcopy junk n s

def strcopyCharp (x : Str) : Option CString → Option Str
  | none => some { x with length := 0 }
  | some y => do
      let len := y.bytes.length
      let x := roomFor junk x (len + 1)
      let ptr ← Buffer.write x.ptr 0 (y.bytes ++ [0])
      some { x with ptr := ptr, length := len }

def strcopyCharpN (x : Str) (y : Option (List UInt8)) (n : Nat) : Option Str :=
  match y with
  | none => some { x with length := 0 }
  | some y => do
      let x := roomFor junk x (n + 1)
      let ptr ← Buffer.write x.ptr 0 (← Buffer.read y 0 n)
      let ptr ← Buffer.write ptr n [0]
      some { x with ptr := ptr, length := n }

def catRoom (x : Str) (newlen : Int) : Option Str :=
  if x.areaSize < newlen then do
    let newlen := wrapInt (newlen * 3) / 2
    let ptr ← Buffer.write (malloc junk newlen) 0 (← Buffer.read x.ptr 0 x.length)
    some { x with ptr := ptr, areaSize := newlen }
  else some x

def strcatCharpN (x : Str) (y : Option (List UInt8)) (n : Nat) : Option Str :=
  match y with
  | none => some x
  | some y => do
      let x ← catRoom junk x (x.length + n + 1)
      let ptr ← Buffer.write x.ptr x.length (← Buffer.read y 0 n)
      let ptr ← Buffer.write ptr (x.length + n) [0]
      some { x with ptr := ptr, length := x.length + n }

/-- `Strcat`. When `y` is `x` itself and has to grow, its block is freed before it is read. -/
def strcat (same : Bool) (x y : Str) : Option Str :=
  if same ∧ x.areaSize < x.length + y.length + 1 then none
  else strcatCharpN junk x (some y.ptr) y.length.toNat

def strcatCharp (x : Str) : Option CString → Option Str
  | none => some x
  | some y => strcatCharpN junk x (some y.bytes) y.bytes.length

def strcatMCharp (x : Str) (ps : List CString) : Option Str :=
  ps.foldlM (fun x p => strcatCharp junk x (some p)) x

def strnewMCharp (ps : List CString) : Option Str := do
  let r ← strnew junk
  strcatMCharp junk r ps

def strgrow (x : Str) : Option Str := do
  let newlen := wrapInt (x.length * 6) / 5
  let newlen := if newlen = x.length then newlen + 2 else newlen
  let ptr ← Buffer.write (malloc junk newlen) 0 (← Buffer.read x.ptr 0 x.length)
  some { x with ptr := ptr, areaSize := newlen }

def growWhen (full : Prop) [Decidable full] (x : Str) : Option Str :=
  if full then strgrow junk x else some x

def strcatChar (x : Str) (y : UInt8) : Option Str := do
  let x ← growWhen junk (x.length + 1 ≥ x.areaSize) x
  let ptr ← Buffer.write x.ptr x.length [y]
  let ptr ← Buffer.write ptr (x.length + 1) [0]
  some { x with ptr := ptr, length := x.length + 1 }

def strcatChars (x : Str) (cs : List UInt8) : Option Str := cs.foldlM (strcatChar junk) x

def strsubstr (s : Str) (beg len : Nat) : Option Str := do
  let new ← strnew junk
  if (beg : Int) ≥ s.length then some new
  else strcatChars junk new (← Buffer.read s.ptr beg (min len (s.length - beg)))

def shiftUp (ptr : List UInt8) (pos : Int) : Nat → Option (List UInt8)
  | 0 => some ptr
  | count + 1 => do
      let ptr ← Buffer.write ptr (pos + count + 1) (← Buffer.read ptr (pos + count) 1)
      shiftUp ptr pos count

def strinsertChar (s : Str) (pos : Int) (c : UInt8) : Option Str :=
  if pos < 0 ∨ s.length < pos then some s
  else do
    let s ← growWhen junk (s.length + 2 > s.areaSize) s
    let ptr ← shiftUp s.ptr pos (s.length - pos).toNat
    let ptr ← Buffer.write ptr (s.length + 1) [0]
    let ptr ← Buffer.write ptr pos [c]
    some { s with ptr := ptr, length := s.length + 1 }

def strinsertCharp (s : Str) (pos : Int) : List UInt8 → Option Str
  | [] => some s
  | c :: p => do
      let s ← strinsertChar junk s pos c
      strinsertCharp s (pos + 1) p

end

def isEol (c : UInt8) : Bool := c == 10 || c == 13

def isSpace (c : UInt8) : Bool := c == 32 || (9 ≤ c && c ≤ 13)

def chopFrom (ptr : List UInt8) (length : Nat) : Option Nat := do
  let last ← Buffer.read ptr ((length : Int) - 1) 1
  match length with
  | 0 => some 0
  | rest + 1 => if last.all isEol then chopFrom ptr rest else some (rest + 1)

def strchop (s : Str) : Option Str := do
  let length ← chopFrom s.ptr s.length.toNat
  let ptr ← Buffer.write s.ptr length [0]
  some { s with ptr := ptr, length := length }

def shiftDown (ptr : List UInt8) (pos n : Int) : Nat → Option (List UInt8)
  | 0 => some ptr
  | count + 1 => do
      let ptr ← Buffer.write ptr pos (← Buffer.read ptr (pos + n) 1)
      shiftDown ptr (pos + 1) n count

def strtruncate (s : Str) (pos : Int) : Option Str := do
  let ptr ← Buffer.write s.ptr pos [0]
  some { s with ptr := ptr, length := pos }

def strdelete (s : Str) (pos n : Int) : Option Str :=
  if s.length ≤ pos + n then strtruncate s pos
  else do
    let ptr ← shiftDown s.ptr pos n (s.length - n - pos).toNat
    let ptr ← Buffer.write ptr (s.length - n) [0]
    some { s with ptr := ptr, length := s.length - n }

def strshrink (s : Str) (n : Int) : Option Str :=
  if n ≥ s.length then strtruncate s 0 else strtruncate s (s.length - n)

def leadingSpaces (ptr : List UInt8) (pos : Int) : Nat → Option Nat
  | 0 => some 0
  | count + 1 => do
      let c ← Buffer.read ptr pos 1
      if c.all isSpace then (leadingSpaces ptr (pos + 1) count).map (· + 1) else some 0

def strremovefirstspaces (s : Str) : Option Str := do
  let i ← leadingSpaces s.ptr 0 s.length.toNat
  if i = 0 then some s else strdelete s 0 i

def trimmedLength (ptr : List UInt8) : Nat → Option Nat
  | 0 => some 0
  | rest + 1 => do
      let c ← Buffer.read ptr rest 1
      if c.all isSpace then trimmedLength ptr rest else some (rest + 1)

def strremovetrailingspaces (s : Str) : Option Str := do
  let length ← trimmedLength s.ptr s.length.toNat
  strtruncate s length

section
variable (junk : Nat → UInt8)

def blanks (n : Int) : List UInt8 := List.replicate n.toNat 32

def stralignLeft (s : Str) (width : Int) : Option Str :=
  if s.length ≥ width then strdup junk s
  else do
    let n ← strnewSize junk width
    let n ← strcopy junk n s
    strcatChars junk n (blanks (width - s.length))

def stralignRight (s : Str) (width : Int) : Option Str :=
  if s.length ≥ width then strdup junk s
  else do
    let n ← strnewSize junk width
    let n ← strcatChars junk n (blanks (width - s.length))
    strcat junk false n s

def stralignCenter (s : Str) (width : Int) : Option Str :=
  if s.length ≥ width then strdup junk s
  else do
    let n ← strnewSize junk width
    let w := (width - s.length) / 2
    let n ← strcatChars junk n (blanks w)
    let n ← strcat junk false n s
    strcatChars junk n (blanks (width - (w + s.length)))

end

end KcnTools.W3m
