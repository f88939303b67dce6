import KcnTools.Cache.CacheCore
import Mathlib

/-!
The reader of a chunked HTTP body without content encoding: the read buffer, the search for a
line end, and the loop that `read_chunked_http_data` runs on every network read.
-/

namespace KcnTools.Http

open Cache (wrapInt)

def chunkDataEnd : Int := -3
def chunkZeroSize : Int := -2
def chunkSize : Int := -1

structure ReadBuffer where
  data : List UInt8
  /-- What memory holds behind the data. -/
  behind : List UInt8

structure HttpConnection where
  chunkRemaining : Int
  /-- The member `from`: the offset of the next fragment. -/
  offset : Int
  /-- The offsets and bytes that `add_fragment` was called with, in order. -/
  fragments : List (Int × List UInt8)
  rb : ReadBuffer

def isLineInBuffer (l : Int) : List UInt8 → Int
  | [] => 0
  | a0 :: rest =>
      if a0 = 10 then l + 1
      else if a0 = 13 ∧ rest.head? = some 10 then l + 2
      else if a0 = 13 ∧ rest = [] then 0
      else if a0 < 32 then -1
      else isLineInBuffer (l + 1) rest

/-- Killing more than there is, or less than nothing, is an assertion failure that empties
the buffer. -/
def killBufferData (rb : ReadBuffer) (n : Int) : ReadBuffer :=
  if 0 ≤ n ∧ n ≤ rb.data.length then
    ⟨rb.data.drop n.toNat, (rb.data ++ rb.behind).drop (rb.data.length - n.toNat)⟩
  else ⟨[], rb.data ++ rb.behind⟩

def isspace (c : UInt8) : Bool := c = 32 || (9 ≤ c && c ≤ 13)

def xdigit (c : UInt8) : Option Nat :=
  if 48 ≤ c ∧ c ≤ 57 then some (c.toNat - 48)
  else if 65 ≤ c ∧ c ≤ 70 then some (c.toNat - 55)
  else if 97 ≤ c ∧ c ≤ 102 then some (c.toNat - 87)
  else none

def isxdigit (c : UInt8) : Bool := (xdigit c).isSome

def hexValue (digits : List UInt8) : Nat :=
  digits.foldl (fun value c => 16 * value + (xdigit c).getD 0) 0

structure Strtol where
  value : Int
  /-- `*endptr` -/
  rest : List UInt8
  /-- `errno` was set. -/
  error : Bool

def strtolSign : List UInt8 → Bool × List UInt8
  | 45 :: rest => (true, rest)
  | 43 :: rest => (false, rest)
  | text => (false, text)

def strtolBase : List UInt8 → List UInt8
  | 48 :: x :: d :: rest => if (x = 120 ∨ x = 88) ∧ isxdigit d then d :: rest else 48 :: x :: d :: rest
  | text => text

def strtol (text : List UInt8) : Strtol :=
  let sign := strtolSign (text.dropWhile isspace)
  let number := strtolBase sign.2
  let digits := number.takeWhile isxdigit
  if digits = [] then ⟨0, text, false⟩
  else
    let value : Int := if sign.1 then -(hexValue digits) else hexValue digits
    if value < -2 ^ 63 then ⟨-2 ^ 63, number.dropWhile isxdigit, true⟩
    else if 2 ^ 63 ≤ value then ⟨2 ^ 63 - 1, number.dropWhile isxdigit, true⟩
    else ⟨value, number.dropWhile isxdigit, false⟩

/-- Without content encoding the data is handed on, and counted off the block if one is open. -/
def decompressData (conn : HttpConnection) (len : Int) : HttpConnection × List UInt8 :=
  ({ conn with
      chunkRemaining :=
        if conn.chunkRemaining > 0 then conn.chunkRemaining - len else conn.chunkRemaining },
    conn.rb.data.take len.toNat)

/-- What one turn of the loop leads to: another turn, or the return value. -/
inductive Turn where
  | again (conn : HttpConnection) (totalDataLen : Int)
  | stop (conn : HttpConnection) (ret : Int)

def breakLoop (conn : HttpConnection) (totalDataLen : Int) : Turn :=
  .stop conn (if totalDataLen = 0 then 0 else 1)

def dataEndTurn (conn : HttpConnection) (totalDataLen : Int) : Turn :=
  let l := isLineInBuffer 0 conn.rb.data
  if l = 0 then breakLoop conn totalDataLen
  else if l = -1 then .stop conn (-1)
  else
    let conn := { conn with rb := killBufferData conn.rb l }
    if l ≤ 2 then .stop conn 2 else .again conn totalDataLen

def chunkSizeTurn (conn : HttpConnection) (totalDataLen : Int) : Turn :=
  let l := isLineInBuffer 0 conn.rb.data
  if l = 0 then breakLoop conn totalDataLen
  else if l = -1 then .stop conn (-1)
  else
    let text := conn.rb.data ++ conn.rb.behind
    let n := strtol text
    -- The end of the list stands for the NUL that ends a string.
    if n.error ∨ n.rest.headD 0 = 0 then .stop conn (-1)
    else if n.rest.length = text.length then .stop conn (-1)
    else
      .again { conn with
        rb := killBufferData conn.rb l
        chunkRemaining := if wrapInt n.value = 0 then chunkZeroSize else wrapInt n.value } totalDataLen

def newlineTurn (conn : HttpConnection) (totalDataLen : Int) : Turn :=
  match conn.rb.data with
  | [] => breakLoop conn totalDataLen
  | first :: rest =>
      if first = 10 then
        .again { conn with rb := killBufferData conn.rb 1, chunkRemaining := chunkSize } totalDataLen
      else if first ≠ 13 ∨ (rest ≠ [] ∧ rest.head? ≠ some 10) then .stop conn (-1)
      else if rest = [] then breakLoop conn totalDataLen
      else
        .again { conn with rb := killBufferData conn.rb 2, chunkRemaining := chunkSize } totalDataLen

def handOver (conn : HttpConnection) : HttpConnection :=
  let len := min conn.chunkRemaining conn.rb.data.length
  let (conn, data) := decompressData conn len
  { conn with
    offset := conn.offset + len
    fragments := conn.fragments ++ [(conn.offset, data)]
    rb := killBufferData conn.rb len }

def chunkDataTurn (conn : HttpConnection) (totalDataLen : Int) : Turn :=
  if conn.chunkRemaining = chunkZeroSize then
    .again { handOver { conn with chunkRemaining := 0 } with chunkRemaining := chunkDataEnd } totalDataLen
  else
    let total := totalDataLen + min conn.chunkRemaining conn.rb.data.length
    let conn := handOver conn
    if conn.chunkRemaining = 0 then newlineTurn conn total else breakLoop conn total

def chunkTurn (conn : HttpConnection) (totalDataLen : Int) : Turn :=
  if conn.chunkRemaining = chunkDataEnd then dataEndTurn conn totalDataLen
  else if conn.chunkRemaining = chunkSize then chunkSizeTurn conn totalDataLen
  else chunkDataTurn conn totalDataLen

def chunkLoop : Nat → HttpConnection → Int → HttpConnection × Int
  | 0, conn, _ => (conn, 0)
  | turns + 1, conn, totalDataLen =>
      match chunkTurn conn totalDataLen with
      | .again conn totalDataLen => chunkLoop turns conn totalDataLen
      | .stop conn ret => (conn, ret)

/-- What the loop can still take: every turn but the one at the last chunk kills data. -/
def turnsLeft (conn : HttpConnection) : Nat :=
  2 * conn.rb.data.length + if conn.chunkRemaining = chunkZeroSize then 1 else 0

def readChunkedHttpData (conn : HttpConnection) : HttpConnection × Int :=
  chunkLoop (turnsLeft conn + 1) conn 0

end KcnTools.Http

/-!
The chunked coding of a body: chunks with their size lines, the last chunk, and trailers whose
fields may be folded over several lines. A body carries the well-formedness of its parts.
-/

namespace KcnTools.Http

inductive LineEnd where
  | crlf
  | lf
  deriving DecidableEq

def LineEnd.bytes : LineEnd → List UInt8
  | .crlf => [13, 10]
  | .lf => [10]

def Printable (c : UInt8) : Prop := 32 ≤ c ∧ c ≠ 127

structure Line where
  text : List UInt8
  lineEnd : LineEnd

def Line.encode (line : Line) : List UInt8 := line.text ++ line.lineEnd.bytes

/-- A chunk size, an extension that blanks or a semicolon set off, and the line end. -/
structure SizeLine where
  digits : List UInt8
  extension : List UInt8
  lineEnd : LineEnd
  written : digits ≠ []
  hexadecimal : ∀ c ∈ digits, isxdigit c = true
  small : hexValue digits < 2 ^ 31
  setOff : ∀ c ∈ extension.head?, c = 32 ∨ c = 59
  printable : ∀ c ∈ extension, Printable c

def SizeLine.line (size : SizeLine) : Line := ⟨size.digits ++ size.extension, size.lineEnd⟩

structure Chunk where
  size : SizeLine
  data : List UInt8
  lineEnd : LineEnd
  filled : data ≠ []
  sized : hexValue size.digits = data.length

def Chunk.encode (chunk : Chunk) : List UInt8 :=
  chunk.size.line.encode ++ (chunk.data ++ chunk.lineEnd.bytes)

structure FoldedLine where
  text : List UInt8
  lineEnd : LineEnd
  printable : ∀ c ∈ text, Printable c

structure Trailer where
  name : List UInt8
  value : List UInt8
  lineEnd : LineEnd
  folded : List FoldedLine
  named : name ≠ []
  printableName : ∀ c ∈ name, Printable c
  printableValue : ∀ c ∈ value, Printable c

def Trailer.lines (trailer : Trailer) : List Line :=
  ⟨trailer.name ++ 58 :: trailer.value, trailer.lineEnd⟩ ::
    trailer.folded.map fun folded => ⟨32 :: folded.text, folded.lineEnd⟩

structure Body where
  chunks : List Chunk
  last : SizeLine
  trailers : List Trailer
  lineEnd : LineEnd
  zero : hexValue last.digits = 0

def Body.trailerLines (body : Body) : List Line := body.trailers.flatMap Trailer.lines

def encodeChunks (chunks : List Chunk) : List UInt8 := chunks.flatMap Chunk.encode

def chunkData (chunks : List Chunk) : List UInt8 := chunks.flatMap Chunk.data

def encodeLines (lines : List Line) (lineEnd : LineEnd) : List UInt8 :=
  lines.flatMap Line.encode ++ lineEnd.bytes

def Body.encode (body : Body) : List UInt8 :=
  encodeChunks body.chunks ++ (body.last.line.encode ++ encodeLines body.trailerLines body.lineEnd)

def Body.data (body : Body) : List UInt8 := chunkData body.chunks

structure Line.Printed (line : Line) : Prop where
  written : line.text ≠ []
  printable : ∀ c ∈ line.text, Printable c

theorem printable_blank : Printable 32 := ⟨by decide, by decide⟩

theorem printable_colon : Printable 58 := ⟨by decide, by decide⟩

theorem Trailer.printed (trailer : Trailer) {line : Line} (member : line ∈ trailer.lines) :
    line.Printed := by
  rw [Trailer.lines, List.mem_cons, List.mem_map] at member
  rcases member with rfl | ⟨folded, _, rfl⟩
  · constructor
    · simp
    · intro c inside
      rw [List.mem_append, List.mem_cons] at inside
      rcases inside with name | rfl | value
      · exact trailer.printableName c name
      · exact printable_colon
      · exact trailer.printableValue c value
  · constructor
    · simp
    · intro c inside
      rw [List.mem_cons] at inside
      rcases inside with rfl | inside
      · exact printable_blank
      · exact folded.printable c inside

theorem Body.printed (body : Body) {line : Line} (member : line ∈ body.trailerLines) :
    line.Printed := by
  obtain ⟨trailer, _, inside⟩ := List.mem_flatMap.mp member
  exact trailer.printed inside

structure Arrival where
  bytes : List UInt8
  behind : List UInt8

def HttpConnection.arrive (conn : HttpConnection) (arrival : Arrival) : HttpConnection :=
  { conn with rb := ⟨conn.rb.data ++ arrival.bytes, arrival.behind⟩ }

inductive Reading where
  | more (conn : HttpConnection)
  /-- The arrivals that nothing reads any more. -/
  | done (conn : HttpConnection) (unread : List Arrival)
  | failed

def readHttpData (conn : HttpConnection) : List Arrival → Reading
  | [] => .more conn
  | arrival :: arrivals =>
      let (conn, ret) := readChunkedHttpData (conn.arrive arrival)
      if ret = 2 then .done conn arrivals
      else if ret = -1 then .failed
      else readHttpData conn arrivals

def allBytes (arrivals : List Arrival) : List UInt8 := arrivals.flatMap Arrival.bytes

def Placed : Int → List (Int × List UInt8) → Prop
  | _, [] => True
  | offset, (position, bytes) :: rest => position = offset ∧ Placed (offset + bytes.length) rest

def fragmentBytes (fragments : List (Int × List UInt8)) : List UInt8 := fragments.flatMap Prod.snd

def startReading (offset : Int) : HttpConnection := ⟨chunkSize, offset, [], ⟨[], []⟩⟩

/-- The reader asks for more while the body is not over; when all of it was read, and only then,
it is done, with the data handed over piece by piece. -/
def ReadsBody (body : Body) (offset : Int) (arrivals : List Arrival) : Prop :=
  ∀ earlier later, arrivals = earlier ++ later →
    match readHttpData (startReading offset) earlier with
    | .more _ => allBytes later ≠ []
    | .done conn unread => conn.rb.data ++ allBytes (unread ++ later) = [] ∧
        Placed offset conn.fragments ∧ fragmentBytes conn.fragments = body.data
    | .failed => False

end KcnTools.Http
