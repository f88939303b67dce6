import KcnTools.Lib.Buffer
import KcnTools.Lib.Run
import KcnTools.Libwc.Wtf

/-! The line editor of w3m (linein.c). Its globals are one record; an operation is
`none` where it leaves strProp or the text of strBuf. -/

namespace KcnTools.W3m.Linein

open Libwc (Wc wtfLenMap isWide)

abbrev Lineprop := UInt16

def strLen : Nat := 1024

def wtfTypeTable : List UInt16 :=
  [2, 0xA, 2, 0xA, 2, 0x12, 2, 0xA, 2, 0xA, 2, 0xA, 0x20, 0x20, 0x20, 0x20,
   4, 0xC, 4, 0xC, 4, 0x20, 4, 0xC, 4, 0xC, 4, 0xC, 0x20, 0x20, 0x20, 0x20, 0x20]

def wtfTypeMap (w : Wc) (lead : UInt8) : UInt16 :=
  if lead > 0xA0 then if isWide w.grCcs then 0xA else 2
  else if lead ≥ 0x80 then wtfTypeTable.getD (lead.toNat - 0x80) 0x20
  else if lead < 0x20 ∨ lead = 0x7F then 1
  else 0

def pcAscii : Lineprop := 0
def pcCtrl : Lineprop := 0x100
def pcWchar1 : Lineprop := 0x200
def pcWchar2 : Lineprop := 0x400
def pcUnknown : Lineprop := 0x1000

def getMctype (w : Wc) (lead : UInt8) : Lineprop := wtfTypeMap w lead <<< 8
def getMclen (w : Wc) (lead : UInt8) : Nat := wtfLenMap w lead

def isWchar2 (prop : Lineprop) : Bool := prop &&& pcWchar2 != 0

/-- The type of a character in the editor: a password is shown in asterisks only. -/
def charType (w : Wc) (isPasswd : Bool) (lead : UInt8) : Lineprop :=
  let ctype := getMctype w lead
  if isPasswd then
    let ctype := if ctype &&& pcCtrl != 0 then pcAscii else ctype
    if ctype &&& pcUnknown != 0 then pcWchar1 else ctype
  else ctype

def behindFirst (ctype : Lineprop) : Lineprop := ctype &&& ~~~pcWchar1 ||| pcWchar2

structure Hist where
  list : List (List UInt8)
  current : Option Nat

def lastHist (hist : Hist) : Option (List UInt8 × Hist) :=
  match hist.list.getLast? with
  | some last => some (last, { hist with current := some (hist.list.length - 1) })
  | none => none

def nextHist (hist : Hist) : Option (List UInt8 × Hist) := do
  let current ← hist.current
  let next ← hist.list[current + 1]?
  some (next, { hist with current := some (current + 1) })

def prevHist (hist : Hist) : Option (List UInt8 × Hist) :=
  match hist.current with
  | some (current + 1) => do
      let prev ← hist.list[current]?
      some (prev, { hist with current := some current })
  | _ => none

structure LineInput where
  strBuf : List UInt8
  strProp : List Lineprop
  cPos : Int
  cLen : Int
  isPasswd : Bool
  moveWord : Bool
  /-- `cm_mode & CPL_URL` -/
  cplUrl : Bool
  /-- `CurrentHist`; without one use_hist is FALSE. -/
  currentHist : Option Hist
  strCurrentBuf : Option (List UInt8)

def LineInput.charAt (s : LineInput) (index : Int) : Option UInt8 := Buffer.get (s.strBuf ++ [0]) index

def LineInput.setChar (s : LineInput) (index : Int) (c : UInt8) : Option LineInput := do
  some { s with strBuf := (← Buffer.put (s.strBuf ++ [0]) index c).take s.strBuf.length }

def LineInput.insertChar (s : LineInput) (pos : Int) (c : UInt8) : LineInput :=
  if pos < 0 ∨ s.strBuf.length < pos then s
  else { s with strBuf := s.strBuf.take pos.toNat ++ c :: s.strBuf.drop pos.toNat }

def LineInput.truncate (s : LineInput) (pos : Int) : Option LineInput :=
  if 0 ≤ pos ∧ pos ≤ s.strBuf.length then some { s with strBuf := s.strBuf.take pos.toNat } else none

def LineInput.delete (s : LineInput) (pos n : Int) : Option LineInput :=
  if s.strBuf.length ≤ pos + n then s.truncate pos
  else if 0 ≤ pos ∧ 0 ≤ n then
    some { s with strBuf := s.strBuf.take pos.toNat ++ s.strBuf.drop (pos + n).toNat }
  else none

/-- `strProp[i] = strProp[i - 1]` for the `count` places behind `pos`, the last one first. -/
def propsUp (strProp : List Lineprop) (pos : Int) : Nat → Option (List Lineprop)
  | 0 => some strProp
  | count + 1 => do
      let strProp ← Buffer.put strProp (pos + count + 1) (← Buffer.get strProp (pos + count))
      propsUp strProp pos count

def insC (s : LineInput) : Option LineInput := do
  let s := s.insertChar s.cPos 0x20
  let s := { s with cLen := s.strBuf.length }
  some { s with strProp := ← propsUp s.strProp s.cPos (s.cLen - s.cPos).toNat }

def insByte (s : LineInput) (c : UInt8) (ctype : Lineprop) : Option LineInput := do
  let s ← insC s
  let s ← s.setChar s.cPos c
  let strProp ← Buffer.put s.strProp s.cPos ctype
  some { s with strProp := strProp, cPos := s.cPos + 1 }

theorem getMclen_pos (w : Wc) (lead : UInt8) : 0 < getMclen w lead := by
  rw [getMclen, wtfLenMap]
  split
  · split <;> decide
  · split
    · have all : ∀ place < 0x80, 0 < Libwc.wtfLenTable.getD place 1 := by decide
      have := lead.toNat_lt
      exact all _ (by omega)
    · decide

def insChars (w : Wc) (s : LineInput) (str : List UInt8) : Option LineInput :=
  match str with
  | [] => some s
  | lead :: behind => do
      let len := getMclen w lead
      let ctype := charType w s.isPasswd lead
      let more ← Buffer.read behind 0 ((len : Int) - 1)
      let s ← insByte s lead ctype
      let s ← more.foldlM (fun s c => insByte s c (behindFirst ctype)) s
      insChars w s ((lead :: behind).drop len)
termination_by str.length
decreasing_by
  have := getMclen_pos w lead
  simp only [List.length_drop, List.length_cons]
  omega

def insChar (w : Wc) (s : LineInput) (str : List UInt8) : Option LineInput :=
  if s.cLen + str.length ≥ strLen then some s else insChars w s str

def insertself (s : LineInput) (c : UInt8) : Option LineInput :=
  if s.cLen ≥ strLen then some s
  else insByte s c (if s.isPasswd then pcAscii else pcCtrl)

def skipWchar2 (strProp : List Lineprop) (pos : Int) : Nat → Option Int
  | 0 => some pos
  | count + 1 => do
      if isWchar2 (← Buffer.get strProp pos) then skipWchar2 strProp (pos + 1) count else some pos

def propsDown (strProp : List Lineprop) (pos delta : Int) : Nat → Option (List Lineprop)
  | 0 => some strProp
  | count + 1 => do
      let strProp ← Buffer.put strProp pos (← Buffer.get strProp (pos + delta))
      propsDown strProp (pos + 1) delta count

def delC (s : LineInput) : Option LineInput :=
  if s.cLen = s.cPos then some s
  else do
    let delta := (← skipWchar2 s.strProp (s.cPos + 1) (s.cLen - (s.cPos + 1)).toNat) - s.cPos
    let strProp ← propsDown s.strProp s.cPos delta (s.cLen - s.cPos).toNat
    let s ← { s with strProp := strProp }.delete s.cPos delta
    some { s with cLen := s.cLen - delta }

def backWchar2 (strProp : List Lineprop) : Nat → Option Nat
  | 0 => some 0
  | pos + 1 => do
      if isWchar2 (← Buffer.get strProp (pos + 1 : Nat)) then backWchar2 strProp pos else some (pos + 1)

def mvL (s : LineInput) : Option LineInput :=
  if 0 < s.cPos then do
    let cPos ← backWchar2 s.strProp (s.cPos - 1).toNat
    some { s with cPos := cPos }
  else some s

def mvR (s : LineInput) : Option LineInput := do
  let cPos := if s.cPos < s.cLen then s.cPos + 1 else s.cPos
  let cPos ← skipWchar2 s.strProp cPos (s.cLen - cPos).toNat
  some { s with cPos := cPos }

def terminated (c : UInt8) : Bool := [0x2F, 0x26, 0x3F, 0x20].contains c

def stopsAt (s : LineInput) (first : Bool) (cPos : Int) : Option Bool := do
  if first then some false else some (terminated (← s.charAt (cPos - 1)))

def wideAt (s : LineInput) (inside : Bool) (pos : Int) : Option Bool :=
  if inside then isWchar2 <$> Buffer.get s.strProp pos else some false

def mvLwLoop (s : LineInput) (first : Bool) (cPos : Int) : Option Int :=
  if 0 < cPos then do
    if ← stopsAt s first cPos then some cPos
    else
      let wide ← wideAt s (0 < cPos - 1) (cPos - 1)
      let cPos := if wide then cPos - 1 - 1 else cPos - 1
      if s.moveWord then mvLwLoop s false cPos else some cPos
  else some cPos
termination_by cPos.toNat
decreasing_by
  split <;> omega

def mvLw (s : LineInput) : Option LineInput := do
  some { s with cPos := ← mvLwLoop s true s.cPos }

def mvRwLoop (s : LineInput) (first : Bool) (cPos : Int) : Option Int :=
  if cPos < s.cLen then do
    if ← stopsAt s first cPos then some cPos
    else
      let wide ← wideAt s (cPos + 1 < s.cLen) (cPos + 1)
      let cPos := if wide then cPos + 1 + 1 else cPos + 1
      if s.moveWord then mvRwLoop s false cPos else some cPos
  else some cPos
termination_by (s.cLen - cPos).toNat
decreasing_by
  split <;> omega

def mvRw (s : LineInput) : Option LineInput := do
  some { s with cPos := ← mvRwLoop s true s.cPos }

def bs (s : LineInput) : Option LineInput :=
  if 0 < s.cPos then do delC (← mvL s) else some s

def bswLoop (s : LineInput) : Nat → Option LineInput
  | 0 => some s
  | rounds + 1 =>
      if 0 < s.cPos then do
        let s ← mvL s
        let t ← if s.moveWord then terminated <$> s.charAt (s.cPos - 1) else some false
        let s ← delC s
        if t then some s else bswLoop s rounds
      else some s

def bsw (s : LineInput) : Option LineInput := bswLoop s s.cPos.toNat

def mvB (s : LineInput) : LineInput := { s with cPos := 0 }

def mvE (s : LineInput) : LineInput := { s with cPos := s.cLen }

def killn (s : LineInput) : Option LineInput := { s with cLen := s.cPos }.truncate s.cPos

def killbLoop (s : LineInput) : Nat → Option LineInput
  | 0 => some s
  | rounds + 1 => if 0 < s.cPos then do killbLoop (← bs s) rounds else some s

def killb (s : LineInput) : Option LineInput := killbLoop s s.cPos.toNat

def setStrTypeFrom (w : Wc) (isPasswd : Bool) (str : List UInt8) (i : Int) (prop : List Lineprop) :
    Option (Int × List Lineprop) :=
  match str with
  | [] => some (i, prop)
  | lead :: behind =>
      let len := getMclen w lead
      if i + len > strLen then some (i, prop)
      else do
        let ctype := charType w isPasswd lead
        let prop ← Buffer.put prop i ctype
        let prop ← Buffer.write prop (i + 1) (List.replicate (len - 1) (behindFirst ctype))
        setStrTypeFrom w isPasswd ((lead :: behind).drop len) (i + len) prop
termination_by str.length
decreasing_by
  have := getMclen_pos w lead
  simp only [List.length_drop, List.length_cons]
  omega

def setStrType (w : Wc) (isPasswd : Bool) (str : List UInt8) (prop : List Lineprop) :
    Option (Int × List Lineprop) :=
  setStrTypeFrom w isPasswd str 0 prop

def LineInput.load (w : Wc) (s : LineInput) (str : List UInt8) : Option LineInput := do
  let (count, strProp) ← setStrType w s.isPasswd str s.strProp
  some { s with strBuf := str, strProp := strProp, cLen := count, cPos := count }

section History
/-! `convert` is `url_unquote_conv` where DecodeURL is set, and the identity where it is not. -/

variable (convert : List UInt8 → List UInt8)

def shownEntry (s : LineInput) (entry : List UInt8) : List UInt8 := if s.cplUrl then convert entry else entry

def prevEntry (s : LineInput) : Option (List UInt8 × Hist) := do
  let hist ← s.currentHist
  if s.strCurrentBuf.isSome then prevHist hist else lastHist hist

def prev (w : Wc) (s : LineInput) : Option LineInput :=
  match prevEntry s with
  | none => some s
  | some (entry, hist) =>
      { s with currentHist := some hist, strCurrentBuf := some (s.strCurrentBuf.getD s.strBuf) }.load w
        (shownEntry convert s entry)

def next (w : Wc) (s : LineInput) : Option LineInput :=
  match s.currentHist, s.strCurrentBuf with
  | some hist, some saved =>
      match nextHist hist with
      | some (entry, hist) => { s with currentHist := some hist }.load w (shownEntry convert s entry)
      | none => { s with strCurrentBuf := none }.load w saved
  | _, _ => some s

end History

def inFilename : Nat := 0x20
def inPassword : Nat := 0x40
def inUrl : Nat := 0x100

def emptyLine (strProp : List Lineprop) (strCurrentBuf : Option (List UInt8)) (flag : Nat) (hist : Option Hist) :
    LineInput :=
  let url := flag &&& inUrl ≠ 0
  let password := ¬ url ∧ ¬ flag &&& inFilename ≠ 0 ∧ flag &&& inPassword ≠ 0
  { strBuf := [], strProp := strProp, cPos := 0, cLen := 0, isPasswd := password, moveWord := ¬ password,
    cplUrl := url, currentHist := hist, strCurrentBuf := if hist.isSome then none else strCurrentBuf }

def inputLineHistSearch (w : Wc) (strProp : List Lineprop) (strCurrentBuf : Option (List UInt8))
    (defStr : Option (List UInt8)) (flag : Nat) (hist : Option Hist) : Option LineInput :=
  match defStr with
  | some str => (emptyLine strProp strCurrentBuf flag hist).load w str
  | none => some (emptyLine strProp strCurrentBuf flag hist)

end KcnTools.W3m.Linein
