import Mathlib

/-!
The anchors of a buffer: `anchor.c`. A list of anchors is sorted by the start; `hseq` numbers the
links and form fields of a buffer, and the markers say where each number begins.
-/

namespace KcnTools.Anchors

/-- Lines and positions are not negative, so that their differences are `int`s. -/
structure BufferPoint where
  line : Int
  pos : Int
  deriving DecidableEq

def bpcmp (a b : BufferPoint) : Int := if a.line - b.line ≠ 0 then a.line - b.line else a.pos - b.pos

structure AnchorData where
  url : Option (List UInt8)
  target : Option (List UInt8)
  referer : Option (List UInt8)
  title : Option (List UInt8)
  accesskey : UInt8
  deriving DecidableEq

structure Anchor where
  data : AnchorData
  slave : Bool
  start : BufferPoint
  /-- The field `end` -/
  stop : BufferPoint
  hseq : Int
  deriving DecidableEq

structure AnchorList where
  anchors : List Anchor
  anchormax : Nat
  acache : Int

def FIRST_ANCHOR_SIZE : Nat := 30

def newAnchorList : AnchorList := ⟨[], 0, -1⟩

/-- The place of a new anchor: behind the last one, or in front of the first one that does not start
before it. -/
def insertPlace (anchors : List Anchor) (bp : BufferPoint) : Nat :=
  match anchors.getLast? with
  | none => 0
  | some last =>
      if bpcmp last.start bp < 0 then anchors.length
      else anchors.findIdx fun a => decide (0 ≤ bpcmp a.start bp)

def anchorRoom (anchors : List Anchor) (anchormax : Nat) : Nat :=
  let anchormax := if anchormax = 0 then FIRST_ANCHOR_SIZE else anchormax
  if anchors.length = anchormax then anchormax * 2 else anchormax

/-- `hseq` is what has been there: that of the anchor that makes room, or of a slot that has not been
used. -/
def putAnchor (al : AnchorList) (data : AnchorData) (bp : BufferPoint) (unused : Int) : AnchorList :=
  let i := insertPlace al.anchors bp
  let hseq := (al.anchors[i]?.map (·.hseq)).getD unused
  { al with anchors := al.anchors.insertIdx i ⟨data, false, bp, bp, hseq⟩
            anchormax := anchorRoom al.anchors al.anchormax }

def onAnchor (a : Anchor) (line pos : Int) : Int :=
  if bpcmp ⟨line, pos⟩ a.start < 0 then -1 else if bpcmp a.stop ⟨line, pos⟩ ≤ 0 then 1 else 0

def sizeT (n : Int) : Nat := (n % 2 ^ 64).toNat

def wrapInt (n : Int) : Int := (n + 2 ^ 31) % 2 ^ 32 - 2 ^ 31

def anchorAt (anchors : List Anchor) (i : Int) : Option Anchor := if 0 ≤ i then anchors[i.toNat]? else none

/-- The loop of `retrieveAnchor`: the index of the anchor, and `acache`. It is `none` where an index
is outside, and where the rounds are used up. -/
def retrieveLoop (anchors : List Anchor) (line pos : Int) : Nat → Nat → Nat → Int → Option (Option Int × Int)
  | 0, _, _, _ => none
  | rounds + 1, b, e, acache =>
      if e < b then some (none, acache)
      else
        match anchorAt anchors acache with
        | none => none
        | some a =>
            let cmp := onAnchor a line pos
            if cmp = 0 then some (some acache, acache)
            else if 0 < cmp then
              let b := sizeT (acache + 1)
              retrieveLoop anchors line pos rounds b e (wrapInt ((b + e) % 2 ^ 64 / 2 : Nat))
            else if acache = 0 then some (none, acache)
            else
              let e := sizeT (acache - 1)
              retrieveLoop anchors line pos rounds b e (wrapInt ((b + e) % 2 ^ 64 / 2 : Nat))

def retrieveAnchor (al : AnchorList) (line pos : Int) : Option (Option Int × Int) :=
  if al.anchors = [] then some (none, al.acache)
  else
    let acache := if al.acache < 0 ∨ (al.anchors.length : Int) ≤ al.acache then 0 else al.acache
    retrieveLoop al.anchors line pos (al.anchors.length + 1) 0 (sizeT (al.anchors.length - 1)) acache

/-! Shifting. The markers are a list of points, one for each `hseq`. -/

/-- The search of `shiftAnchorPosition` for the first anchor that is not in front of the position -/
def shiftSearch (anchors : List Anchor) (line pos : Int) : Nat → Nat → Nat → Nat → Option Nat
  | 0, _, _, _ => none
  | rounds + 1, b, e, s =>
      if e < b then some s
      else
        match anchors[s]? with
        | none => none
        | some a =>
            let cmp := onAnchor a line pos
            if cmp = 0 then some s
            else if 0 < cmp then
              let b := sizeT (s + 1)
              shiftSearch anchors line pos rounds b e ((b + e + 1) % 2 ^ 64 / 2)
            else if s = 0 then some s
            else
              let e := sizeT (s - 1)
              shiftSearch anchors line pos rounds b e ((b + e + 1) % 2 ^ 64 / 2)

def BufferPoint.shift (bp : BufferPoint) (shift : Int) : BufferPoint := { bp with pos := bp.pos + shift }

def markAt (marks : List BufferPoint) (hseq : Int) : Option BufferPoint :=
  if 0 ≤ hseq then marks[hseq.toNat]? else none

/-- The start of an anchor behind the position, and its marker where that is in the line -/
def shiftStart (line pos shift : Int) (a : Anchor) (marks : List BufferPoint) : Option (Anchor × List BufferPoint) :=
  if pos < a.start.pos then
    match markAt marks a.hseq with
    | none => none
    | some mark =>
        some ({ a with start := a.start.shift shift },
          if mark.line = line then marks.set a.hseq.toNat { mark with pos := a.start.pos + shift } else marks)
  else some (a, marks)

def shiftRest (line pos shift : Int) : List Anchor → List BufferPoint → Option (List Anchor × List BufferPoint)
  | [], marks => some ([], marks)
  | a :: rest, marks =>
      if line < a.start.line then some (a :: rest, marks)
      else do
        let (shifted, marks) ← shiftStart line pos shift a marks
        let shifted := if pos ≤ a.stop.pos then { shifted with stop := a.stop.shift shift } else shifted
        let (rest, marks) ← shiftRest line pos shift rest marks
        some (shifted :: rest, marks)

def shiftAnchorPosition (anchors : List Anchor) (marks : List BufferPoint) (line pos shift : Int) :
    Option (List Anchor × List BufferPoint) :=
  if anchors = [] then some (anchors, marks)
  else do
    let s ← shiftSearch anchors line pos (anchors.length + 1) 0 (sizeT (anchors.length - 1)) (anchors.length / 2)
    let (rest, marks) ← shiftRest line pos shift (anchors.drop s) marks
    some (anchors.take s ++ rest, marks)

end KcnTools.Anchors
