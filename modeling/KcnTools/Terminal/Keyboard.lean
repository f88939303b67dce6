import Mathlib

/-!
The keyboard of a terminal: the queue of bytes that were read, the decoding of escape
sequences, keys and mouse reports, and the loop that drains the queue.
-/

namespace KcnTools.Terminal

def kbdUndef : Int := -1
def kbdEnter : Int := 0x100
def kbdBs : Int := 0x101
def kbdTab : Int := 0x102
def kbdEsc : Int := 0x103
def kbdLeft : Int := 0x104
def kbdRight : Int := 0x105
def kbdUp : Int := 0x106
def kbdDown : Int := 0x107
def kbdIns : Int := 0x108
def kbdDel : Int := 0x109
def kbdHome : Int := 0x10a
def kbdEnd : Int := 0x10b
def kbdPageUp : Int := 0x10c
def kbdPageDown : Int := 0x10d
def kbdF (number : Int) : Int := 0x11f + number

def kbdModNone : Nat := 0
def kbdModShift : Nat := 1
def kbdModCtrl : Nat := 2
def kbdModAlt : Nat := 4

structure TermEventKeyboard where
  key : Int
  modifier : Nat
  deriving DecidableEq

inductive TermEvent where
  | keyboard (kbd : TermEventKeyboard)
  | mouse (x y : Int) (button : Nat)
  | resize
  deriving DecidableEq

def undefined : TermEventKeyboard := ⟨kbdUndef, kbdModNone⟩
def plain (key : Int) : TermEventKeyboard := ⟨key, kbdModNone⟩
def shift (key : Int) : TermEventKeyboard := ⟨key, kbdModShift⟩
def ctrl (key : Int) : TermEventKeyboard := ⟨key, kbdModCtrl⟩
def alt (key : Int) : TermEventKeyboard := ⟨key, kbdModAlt⟩

def os2xtd : List TermEventKeyboard :=
  [undefined, undefined, ctrl 32] ++
    List.replicate 11 undefined ++
    [alt kbdBs, undefined, alt 81, alt 87, alt 69, alt 82, alt 84, alt 89, alt 85, alt 73,
     alt 79, alt 80, alt 91, alt 93, alt kbdEnter, undefined, alt 65, alt 83, alt 68, alt 70,
     alt 71, alt 72, alt 74, alt 75, alt 76, alt 59, alt 39, alt 96, undefined, alt 92, alt 90,
     alt 88, alt 67, alt 86, alt 66, alt 78, alt 77, alt 44, alt 46, alt 47, undefined, alt 42,
     undefined, alt 32, undefined, plain (kbdF 1), plain (kbdF 2), plain (kbdF 3),
     plain (kbdF 4), plain (kbdF 5), plain (kbdF 6), plain (kbdF 7), plain (kbdF 8),
     plain (kbdF 9), plain (kbdF 10), undefined, undefined, plain kbdHome, plain kbdUp,
     plain kbdPageUp, alt 45, plain kbdLeft, plain 53, plain kbdRight, alt 43, plain kbdEnd,
     plain kbdDown, plain kbdPageDown, plain kbdIns, plain kbdDel] ++
    List.replicate 10 undefined ++
    [ctrl (kbdF 1), ctrl (kbdF 2), ctrl (kbdF 3), ctrl (kbdF 4), ctrl (kbdF 5), ctrl (kbdF 6),
     ctrl (kbdF 7), ctrl (kbdF 8), ctrl (kbdF 9), ctrl (kbdF 10), alt (kbdF 1), alt (kbdF 2),
     alt (kbdF 3), alt (kbdF 4), alt (kbdF 5), alt (kbdF 6), alt (kbdF 7), alt (kbdF 8),
     alt (kbdF 9), alt (kbdF 10), undefined, ctrl kbdLeft, ctrl kbdRight, ctrl kbdEnd,
     ctrl kbdPageDown, ctrl kbdHome, alt 49, alt 50, alt 51, alt 52, alt 53, alt 54, alt 55,
     alt 56, alt 57, alt 48, alt 45, alt 61, ctrl kbdPageUp, plain (kbdF 11), plain (kbdF 12),
     undefined, undefined, ctrl (kbdF 11), ctrl (kbdF 12), alt (kbdF 11), alt (kbdF 12),
     ctrl kbdUp, ctrl 45, ctrl 53, ctrl 43, ctrl kbdDown, ctrl kbdIns, ctrl kbdDel,
     ctrl kbdTab, undefined, undefined, alt kbdHome, alt kbdUp, alt kbdPageUp, undefined,
     alt kbdLeft, undefined, alt kbdRight, undefined, alt kbdEnd, alt kbdDown, alt kbdPageDown,
     alt kbdIns, alt kbdDel, undefined, alt kbdTab, alt kbdEnter] ++
    List.replicate 89 undefined

def isdigit (c : UInt8) : Bool := 48 ≤ c && c ≤ 57

structure EscCode where
  length : Nat
  code : UInt8
  num : Nat

def escCodeFrom (pos num : Nat) : List UInt8 → EscCode
  | [] => ⟨0, 0, num⟩
  | c :: str =>
      if ¬ isdigit c ∨ pos > 7 then ⟨pos + 1, c, num⟩
      else escCodeFrom (pos + 1) (num * 10 + (c.toNat - 48)) str

def getEscCode (str : List UInt8) : EscCode := escCodeFrom 2 0 (str.drop 2)

/-- A decoded sequence: its length, or -1 to wait for more of it, and what it leaves behind. -/
structure Sequence where
  el : Int
  ev : TermEvent
  xtermButton : Int
  resized : Bool

def byteAt (queue : List UInt8) (index : Nat) : Int := (queue.getD index 0).toNat

def decodeMousePosition (queue : List UInt8) (start : Nat) : Int :=
  let position := byteAt queue start - 32 - 1 + (byteAt queue (start + 1) - 32 - 1) * 2 ^ 7
  if (BitVec.ofInt 32 position).getLsbD 13 then 0 else position

def twinButton (pressed xtermButton : Int) : Nat :=
  let before := BitVec.ofInt 32 xtermButton
  let changed := BitVec.ofInt 32 pressed ^^^ before
  if changed = 1 then if before.getLsbD 0 then 32 else 0
  else if changed = 2 then 1 ||| if before.getLsbD 1 then 32 else 0
  else if changed = 4 then 2 ||| if before.getLsbD 2 then 32 else 0
  else if changed = 0 then 64
  else 0

def xtermMouseButton (pressed : UInt8) (xtermButton : Int) : Nat :=
  let button := (pressed &&& 7).toNat
  let button := if button = 3 ∧ xtermButton ≠ -1 then (BitVec.ofInt 32 xtermButton ||| 32).toNat else button
  if pressed &&& 96 = 96 then if pressed &&& 1 = 1 then 4 else 3 else button

def decodeTerminalMouseEscapeSequence (queue : List UInt8) (ev : TermEvent) (el v : Nat)
    (xtermButton : Int) : Sequence :=
  if queue.length < el + 3 then ⟨-1, ev, xtermButton, false⟩
  else if v = 5 then
    let xtermButton := if xtermButton = -1 then 0 else xtermButton
    if queue.length < el + 5 then ⟨-1, ev, xtermButton, false⟩
    else
      let pressed := byteAt queue el - 32
      ⟨el + 5, .mouse (decodeMousePosition queue (el + 1)) (decodeMousePosition queue (el + 3))
        (twinButton pressed xtermButton), pressed, false⟩
  else
    let button := xtermMouseButton (queue.getD el 0) xtermButton
    ⟨el + 3, .mouse (byteAt queue (el + 1) - 32 - 1) (byteAt queue (el + 2) - 32 - 1) button,
      if button &&& 32 = 0 then ((button &&& 7 : Nat) : Int) else -1, false⟩

def sunKey (v : Nat) : TermEventKeyboard :=
  match v with
  | 247 => plain kbdIns
  | 214 => plain kbdHome
  | 220 => plain kbdEnd
  | 216 => plain kbdPageUp
  | 222 => plain kbdPageDown
  | 249 => plain kbdDel
  | _ => undefined

def tildeKey (v : Nat) : TermEventKeyboard :=
  match v with
  | 1 => plain kbdHome
  | 2 => plain kbdIns
  | 3 => plain kbdDel
  | 4 => plain kbdEnd
  | 5 => plain kbdPageUp
  | 6 => plain kbdPageDown
  | 7 => plain kbdHome
  | 8 => plain kbdEnd
  | 11 => plain (kbdF 1)
  | 12 => plain (kbdF 2)
  | 13 => plain (kbdF 3)
  | 14 => plain (kbdF 4)
  | 15 => plain (kbdF 5)
  | 17 => plain (kbdF 6)
  | 18 => plain (kbdF 7)
  | 19 => plain (kbdF 8)
  | 20 => plain (kbdF 9)
  | 21 => plain (kbdF 10)
  | 23 => plain (kbdF 11)
  | 24 => plain (kbdF 12)
  | 25 => shift (kbdF 3)
  | 26 => shift (kbdF 4)
  | 28 => shift (kbdF 5)
  | 29 => shift (kbdF 6)
  | 31 => shift (kbdF 7)
  | 32 => shift (kbdF 8)
  | 33 => shift (kbdF 9)
  | 34 => shift (kbdF 10)
  | _ => undefined

def escKey (c : UInt8) (v : Nat) : TermEventKeyboard :=
  match c with
  | 65 => plain kbdUp
  | 66 => plain kbdDown
  | 67 => plain kbdRight
  | 68 => plain kbdLeft
  | 70 => plain kbdEnd
  | 101 => plain kbdEnd
  | 72 => plain kbdHome
  | 73 => plain kbdPageUp
  | 71 => plain kbdPageDown
  | 76 => plain kbdIns
  | 78 => plain (kbdF 2)
  | 79 => plain (kbdF 3)
  | 80 => plain (kbdF 4)
  | 81 => plain (kbdF 5)
  | 83 => plain (kbdF 7)
  | 84 => plain (kbdF 8)
  | 85 => plain (kbdF 9)
  | 86 => plain (kbdF 10)
  | 87 => plain (kbdF 11)
  | 88 => plain (kbdF 12)
  | 90 => shift kbdTab
  | 122 => sunKey v
  | 126 => tildeKey v
  | _ => undefined

def keyEvent (ev : TermEvent) (kbd : TermEventKeyboard) : TermEvent :=
  if kbd.key = kbdUndef then ev else .keyboard kbd

def decodeTerminalEscapeSequence (queue : List UInt8) (ev : TermEvent) (xtermButton : Int) : Sequence :=
  if queue.length < 3 then ⟨-1, ev, xtermButton, false⟩
  else if queue.getD 2 0 = 91 then
    if queue.length ≥ 4 ∧ 65 ≤ queue.getD 3 0 ∧ queue.getD 3 0 ≤ 76 then
      ⟨4, .keyboard (plain (kbdF 1 + byteAt queue 3 - 65)), xtermButton, false⟩
    else ⟨-1, ev, xtermButton, false⟩
  else
    let esc := getEscCode queue
    if esc.code = 0 then ⟨-1, ev, xtermButton, false⟩
    else if esc.code = 77 then decodeTerminalMouseEscapeSequence queue ev esc.length esc.num xtermButton
    else ⟨esc.length, keyEvent ev (escKey esc.code esc.num), xtermButton, esc.code = 82⟩

def setKbdEvent (key : Int) (modifier : Nat) : TermEvent :=
  if key = 9 then .keyboard ⟨kbdTab, modifier⟩
  else if key = 8 ∨ key = 127 then .keyboard ⟨kbdBs, modifier⟩
  else if key = 10 ∨ key = 13 then .keyboard ⟨kbdEnter, modifier⟩
  else if key < 32 then .keyboard ⟨key + 64, kbdModCtrl⟩
  else .keyboard ⟨key, modifier⟩

def frontSequence (queue : List UInt8) (xtermButton : Int) : Sequence :=
  let ev := TermEvent.keyboard undefined
  if queue.getD 0 0 = 27 then
    if queue.length < 2 then ⟨-1, ev, xtermButton, false⟩
    else if queue.getD 1 0 = 91 ∨ queue.getD 1 0 = 79 then
      decodeTerminalEscapeSequence queue ev xtermButton
    else if queue.getD 1 0 = 27 then
      ⟨if queue.length ≥ 3 ∧ (queue.getD 2 0 = 91 ∨ queue.getD 2 0 = 79) then 1 else 2,
        setKbdEvent kbdEsc kbdModNone, xtermButton, false⟩
    else ⟨2, setKbdEvent (byteAt queue 1) kbdModAlt, xtermButton, false⟩
  else if queue.getD 0 0 = 0 then
    if queue.length < 2 then ⟨-1, ev, xtermButton, false⟩
    else ⟨2, .keyboard (os2xtd.getD (queue.getD 1 0).toNat undefined), xtermButton, false⟩
  else ⟨1, setKbdEvent (byteAt queue 0) 0, xtermButton, false⟩

structure Itrm where
  queue : List UInt8
  xtermButton : Int
  /-- The ESC delay timer is set. -/
  timer : Bool
  /-- What was sent to the master, in order. -/
  events : List TermEvent
  deriving DecidableEq

def TermEvent.sent : TermEvent → Bool
  | .keyboard kbd => kbd.key ≠ kbdUndef
  | _ => true

def Sequence.events (sequence : Sequence) : List TermEvent :=
  (if sequence.resized then [.resize] else []) ++ if sequence.ev.sent then [sequence.ev] else []

def processQueue (itrm : Itrm) : Itrm × Nat :=
  if itrm.queue = [] then (itrm, 0)
  else
    let sequence := frontSequence itrm.queue itrm.xtermButton
    if sequence.el = -1 then
      ({ itrm with xtermButton := sequence.xtermButton, timer := true }, 0)
    else
      ({ itrm with
          queue := itrm.queue.drop sequence.el.toNat
          xtermButton := sequence.xtermButton
          events := itrm.events ++ sequence.events }, sequence.el.toNat)

def drainQueue : Nat → Itrm → Itrm
  | 0, itrm => itrm
  | turns + 1, itrm =>
      let (next, el) := processQueue itrm
      if el = 0 then next else drainQueue turns next

def inQueueSize : Nat := 16

def inKbd (itrm : Itrm) (bytes : List UInt8) : Option Itrm :=
  if bytes = [] ∨ itrm.queue.length + bytes.length > inQueueSize then none
  else
    let queue := itrm.queue ++ bytes
    some (drainQueue (queue.length + 1) { itrm with queue, timer := false })

end KcnTools.Terminal
