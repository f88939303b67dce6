import Mathlib

/-!
The search index of a document: `get_search_data` of `viewer/text/search.c` puts the characters of
the nodes behind each other, and two entries for each line say where to start and end a search.
-/

namespace KcnTools.Viewer

def INT_MAX : Int := 2 ^ 31 - 1

structure Search where
  x : Int
  y : Int
  /-- A field of 24 bits -/
  n : Int
  c : UInt8
  deriving DecidableEq

structure ScreenChar where
  data : UInt8
  unsearchable : Bool

structure Box where
  x : Nat
  y : Nat
  width : Nat
  height : Nat

structure Document where
  height : Nat
  data : List (List ScreenChar)
  nodes : List Box

structure SearchChar where
  c : UInt8
  x : Int
  y : Int
  nn : Int

def wrap24 (n : Int) : Int := (n + 2 ^ 23) % 2 ^ 24 - 2 ^ 23

def addSrchChr (search : List Search) (char : SearchChar) : List Search :=
  if char.c = 32 ∧ (search.getLast?.map (·.c)).getD 32 = 32 then search
  else search ++ [⟨char.x, char.y, wrap24 char.nn, char.c⟩]

/-- The characters of a line from a column on; a run of control characters belongs to the blank in
front of it. -/
def lineChars (y : Nat) : Nat → Nat → List ScreenChar → List SearchChar
  | 0, _, _ => []
  | _ + 1, _, [] => []
  | fuel + 1, x, char :: rest =>
      if char.unsearchable then lineChars y fuel (x + 1) rest
      else if 32 < char.data then ⟨char.data, x, y, 1⟩ :: lineChars y fuel (x + 1) rest
      else
        let run := (rest.takeWhile fun other => other.data < 32).length
        let count := if run = rest.length then 0 else run + 1
        ⟨32, x, y, count⟩ :: lineChars y fuel (x + 1 + run) (rest.drop run)

def nodeLine (document : Document) (node : Box) (y : Nat) : List SearchChar :=
  let line := document.data.getD y []
  let width := min (node.x + node.width) line.length
  let chars := (line.take width).drop node.x
  let blanks := (chars.takeWhile fun char => char.data ≤ 32).length
  lineChars y chars.length (node.x + blanks) (chars.drop blanks) ++ [⟨32, max node.x width, y, 0⟩]

def getSrch (document : Document) : List SearchChar :=
  document.nodes.reverse.flatMap fun node =>
    (List.range' node.y (min (node.y + node.height) document.height - node.y)).flatMap (nodeLine document node)

def trimSearch (search : List Search) : Nat → Nat
  | 0 => 0
  | nsearch + 1 => if (search[nsearch]?.map (·.c)).getD 0 = 32 then trimSearch search nsearch else nsearch

/-- The entry of a line with the smallest key below a start; the first one of several. -/
def sortLine (key : Search → Int) (start : Int) (search : List Search) (nsearch : Nat) (y : Nat) :
    Int × Option Nat :=
  (List.range nsearch).foldl
    (fun best i =>
      match search[i]? with
      | none => best
      | some s => if s.y = (y : Int) ∧ key s < best.1 then (key s, some i) else best)
    (start, none)

structure SearchData where
  search : List Search
  nsearch : Nat
  slines1 : Nat → Option Nat
  slines2 : Nat → Option Nat
  height : Nat

def sortSrch (search : List Search) (nsearch height : Nat) : SearchData where
  search := search
  nsearch := nsearch
  slines1 y := if y < height then (sortLine (·.x) INT_MAX search nsearch y).2 else none
  slines2 y := if y < height then (sortLine (fun s => -(s.x + s.n)) 0 search nsearch y).2 else none
  height := height

def getSearchData (calls : List SearchChar) (height : Nat) : SearchData :=
  let search := calls.foldl addSrchChr []
  sortSrch search (trimSearch search search.length) height

/-! Searching. -/

def windowLines (document : SearchData) (y height : Int) : List Nat :=
  (List.range document.height).filter fun (i : Nat) => max y 0 ≤ (i : Int) ∧ (i : Int) < max y 0 + height

def getRange (document : SearchData) (y height : Int) (l : Nat) : Option (Int × Int) :=
  let lines := windowLines document y height
  match (lines.filterMap document.slines1).min?, (lines.filterMap document.slines2).max? with
  | some s1, some s2 =>
      let s1 : Int := max (s1 - l) 0
      let s2 : Int := min s2 (document.nsearch - l + 1)
      if s2 < s1 then none else some (s1, s2)
  | _, _ => none

structure InRange where
  found : Bool
  min : Int
  max : Int
  deriving DecidableEq

def InRange.start : InRange := ⟨false, INT_MAX, 0⟩

def InRange.extend (range : InRange) (s : Search) : InRange :=
  if s.n = 0 then range
  else { range with min := if s.x < range.min then s.x else range.min
                    max := if range.max < s.x + s.n then s.x + s.n else range.max }

def matchEntries (document : SearchData) (text : List UInt8) (k : Nat) : List Search :=
  (document.search.drop k).take text.length

def isMatch (fold : UInt8 → UInt8) (document : SearchData) (y height : Int) (text : List UInt8) (k : Nat) : Bool :=
  (matchEntries document text k).map (fun s => fold s.c) = text &&
    (document.search[k + text.length]?.map fun s => decide (y ≤ s.y ∧ s.y < y + height)).getD false

def visitMatch (fold : UInt8 → UInt8) (document : SearchData) (y height : Int) (text : List UInt8)
    (range : InRange) (k : Nat) : InRange :=
  if isMatch fold document y height text k then
    (matchEntries document text k).foldl InRange.extend { range with found := true }
  else range

def isInRange (tolower : UInt8 → UInt8) (caseSensitive : Bool) (document : SearchData) (y height : Int)
    (text : List UInt8) : InRange :=
  let fold := if caseSensitive then id else tolower
  match getRange document y height text.length with
  | none => .start
  | some (s1, s2) =>
      (List.range' s1.toNat (s2 - s1 + 1).toNat).foldl
        (visitMatch fold document y height (text.map fold)) .start

end KcnTools.Viewer
