import Mathlib.Data.List.TakeWhile
import KcnTools.Lib.Run

/-! The buffered input streams of the pager. A stream refills its buffer when the
buffer is used up; `ISread` reads past the buffer into the memory of its caller. -/

namespace KcnTools.W3m

/-- The underlying source: what it has still to return, in the pieces it arrives in. -/
structure Handle where
  pieces : List (List UInt8)
  nonempty : ∀ piece ∈ pieces, piece ≠ []

def Handle.bytes (handle : Handle) : List UInt8 := handle.pieces.flatten

def rejoin (piece : List UInt8) (pieces : List (List UInt8)) : List (List UInt8) :=
  if piece = [] then pieces else piece :: pieces

theorem rejoin_nonempty {piece : List UInt8} {pieces : List (List UInt8)}
    (nonempty : ∀ piece ∈ pieces, piece ≠ []) : ∀ other ∈ rejoin piece pieces, other ≠ [] := by
  intro other found
  rw [rejoin] at found
  split at found
  next => exact nonempty other found
  next filled =>
    rcases List.mem_cons.mp found with rfl | later
    · exact filled
    · exact nonempty other later

theorem rejoin_flatten (piece : List UInt8) (pieces : List (List UInt8)) :
    (rejoin piece pieces).flatten = piece ++ pieces.flatten := by
  rw [rejoin]
  split
  next empty => simp [empty]
  next => rfl

def Handle.read : Handle → Nat → List UInt8 × Handle
  | ⟨[], nonempty⟩, _ => ([], ⟨[], nonempty⟩)
  | ⟨piece :: pieces, nonempty⟩, len =>
      if len = 0 then ([], ⟨piece :: pieces, nonempty⟩)
      else (piece.take len, ⟨rejoin (piece.drop len) pieces,
        rejoin_nonempty fun other found => nonempty other (List.mem_cons_of_mem piece found)⟩)

theorem Handle.read_bytes (handle : Handle) (len : Nat) :
    (handle.read len).1 ++ (handle.read len).2.bytes = handle.bytes := by
  obtain ⟨_ | ⟨piece, pieces⟩, nonempty⟩ := handle
  · rfl
  · rw [Handle.read]
    split
    next => rfl
    next =>
      simp only [Handle.bytes, rejoin_flatten, List.flatten_cons]
      rw [← List.append_assoc, List.take_append_drop]

/-- What `base->read` is called with; a read that returns bytes leaves fewer to return. -/
class StreamHandle (η : Type) where
  read : η → Nat → List UInt8 × η
  left : η → Nat
  read_left : ∀ handle len, (read handle len).1 ≠ [] →
    (read handle len).1.length + left (read handle len).2 = left handle

instance : StreamHandle Handle where
  read := Handle.read
  left handle := handle.bytes.length
  read_left handle len _ := by rw [← List.length_append, handle.read_bytes]

/-- `struct base_stream`; the bytes of the buffer from `cur` to `next` are `unread`. -/
structure BufferedStream (η : Type) where
  unread : List UInt8
  size : Nat
  handle : η
  iseos : Bool

abbrev BaseStream := BufferedStream Handle

def BufferedStream.rest (base : BaseStream) : List UInt8 := base.unread ++ base.handle.bytes

def initBuffer (unread : List UInt8) (size : Nat) (handle : Handle) : BaseStream :=
  { unread := unread, size := size, handle := handle, iseos := false }

def streamBufSize : Nat := 8192

def sslBufSize : Nat := 1536

inductive Source where
  | basic (handle : Handle)
  | file (handle : Handle)
  | ssl (handle : Handle)
  | encoded (handle : Handle)
  | str (s : List UInt8)

def newInputStream (handle : Handle) : BaseStream := initBuffer [] streamBufSize handle

def newFileStream (handle : Handle) : BaseStream := initBuffer [] streamBufSize handle

def newSSLStream (handle : Handle) : BaseStream := initBuffer [] sslBufSize handle

def newEncodedStream (handle : Handle) : BaseStream := initBuffer [] streamBufSize handle

def newStrStream (s : List UInt8) : BaseStream := initBuffer s s.length ⟨[], by simp⟩

def Source.opened : Source → BaseStream
  | .basic handle => newInputStream handle
  | .file handle => newFileStream handle
  | .ssl handle => newSSLStream handle
  | .encoded handle => newEncodedStream handle
  | .str s => newStrStream s

def Source.bytes : Source → List UInt8
  | .basic handle | .file handle | .ssl handle | .encoded handle => handle.bytes
  | .str s => s

section Buffered
variable {η : Type} [StreamHandle η]

def doUpdate (base : BufferedStream η) : BufferedStream η :=
  let (got, handle) := StreamHandle.read base.handle base.size
  if got = [] then { base with unread := [], handle := handle, iseos := true }
  else { base with unread := got, handle := handle }

def BufferedStream.work (base : BufferedStream η) : Nat :=
  if base.iseos then 0
  else 2 * (base.unread.length + StreamHandle.left base.handle) + (if base.unread = [] then 1 else 0) + 1

theorem doUpdate_size (base : BufferedStream η) : (doUpdate base).size = base.size := by
  rw [doUpdate]
  split
  split
  · rfl
  · rfl

theorem doUpdate_filled (base : BufferedStream η) (going : base.iseos = false) :
    (doUpdate base).iseos = true ∨ (doUpdate base).unread ≠ [] ∧ (doUpdate base).iseos = false := by
  rw [doUpdate]
  split
  split
  next => exact .inl rfl
  next filled => exact .inr ⟨filled, going⟩

theorem doUpdate_work {base : BufferedStream η} (empty : base.unread = []) (going : ¬ base.iseos = true) :
    (doUpdate base).work < base.work := by
  have kept := StreamHandle.read_left base.handle base.size
  rw [BufferedStream.work, BufferedStream.work, if_neg going, if_pos empty, empty, doUpdate]
  split
  next got handle read =>
    rw [read] at kept
    by_cases none : got = []
    · simp [none]
    · have same := kept none
      dsimp only at same
      simp only [if_neg none, if_neg going, List.length_nil]
      omega

def isGetc (base : BufferedStream η) : UInt8 × BufferedStream η :=
  let base := if !base.iseos && base.unread.isEmpty then doUpdate base else base
  if base.iseos then (0, base) else (base.unread.headD 0, { base with unread := base.unread.tail })

def scanTo (isEnd : UInt8 → Bool) (bytes : List UInt8) : List UInt8 × List UInt8 :=
  (bytes.takeWhile fun c => !isEnd c, bytes.dropWhile fun c => !isEnd c)

theorem scanTo_append (isEnd : UInt8 → Bool) (bytes : List UInt8) :
    (scanTo isEnd bytes).1 ++ (scanTo isEnd bytes).2 = bytes :=
  List.takeWhile_append_dropWhile

theorem consumed_work {base : BufferedStream η} (going : ¬ base.iseos = true) (bytes : List UInt8) {left : List UInt8}
    (filled : bytes ≠ []) (split : base.unread = bytes ++ left) :
    ({ base with unread := left } : BufferedStream η).work < base.work := by
  have shorter : 0 < bytes.length := List.length_pos_iff.mpr filled
  have nonempty : base.unread ≠ [] := by simp [split, filled]
  rw [BufferedStream.work, BufferedStream.work, if_neg going, if_neg going, if_neg nonempty]
  simp only [split, List.length_append]
  split <;> omega

def strISgetsFrom (base : BufferedStream η) (s : List UInt8) : List UInt8 × BufferedStream η :=
  if base.iseos then (s, base)
  else if _empty : base.unread = [] then strISgetsFrom (doUpdate base) s
  else
    match scanTo (· == 10) base.unread with
    | (before, newline :: left) => (s ++ before ++ [newline], { base with unread := left })
    | (before, []) => strISgetsFrom { base with unread := [] } (s ++ before)
termination_by base.work
decreasing_by
  · exact doUpdate_work _empty ‹_›
  · exact consumed_work ‹_› _ _empty (by simp)

def strISgets (base : BufferedStream η) : List UInt8 × BufferedStream η := strISgetsFrom base []

/-- The loop of `StrmyISgets`. A line that ends with CR takes an LF that follows it. -/
def strmyISgetsFrom (base : BufferedStream η) (s : List UInt8) : List UInt8 × BufferedStream η :=
  if base.iseos then (s, base)
  else if _empty : base.unread = [] then strmyISgetsFrom (doUpdate base) s
  else if s.getLast? = some 13 then
    if base.unread.head? = some 10 then (s ++ [10], { base with unread := base.unread.tail })
    else (s, base)
  else
    match _found : scanTo (fun c => c == 10 || c == 13) base.unread with
    | (before, lineEnd :: left) =>
        if lineEnd = 10 then (s ++ before ++ [lineEnd], { base with unread := left })
        else strmyISgetsFrom { base with unread := left } (s ++ before ++ [lineEnd])
    | (before, []) => strmyISgetsFrom { base with unread := [] } (s ++ before)
termination_by base.work
decreasing_by
  · exact doUpdate_work _empty ‹_›
  · have whole := scanTo_append (fun c => c == 10 || c == 13) base.unread
    rw [_found] at whole
    exact consumed_work ‹_› (before ++ [lineEnd]) (by simp) (by simpa using whole.symm)
  · exact consumed_work ‹_› _ _empty (by simp)

def strmyISgets (base : BufferedStream η) : List UInt8 × BufferedStream η := strmyISgetsFrom base []

def isEos (base : BufferedStream η) : Bool × BufferedStream η :=
  let base := if !base.iseos && base.unread.isEmpty then doUpdate base else base
  (base.iseos, base)

end Buffered

theorem Handle.read_length (handle : Handle) (len : Nat) : (handle.read len).1.length ≤ len := by
  obtain ⟨_ | ⟨piece, pieces⟩, nonempty⟩ := handle
  · exact Nat.zero_le len
  · rw [Handle.read]
    split
    next => exact Nat.zero_le len
    next => exact List.length_take_le len piece

/-- A read returns nothing for a length of 0 and at the end, and nowhere else. -/
theorem Handle.read_nil (handle : Handle) (len : Nat) :
    (handle.read len).1 = [] ↔ len = 0 ∨ handle.bytes = [] := by
  obtain ⟨_ | ⟨piece, pieces⟩, nonempty⟩ := handle
  · simp [Handle.read, Handle.bytes]
  · have filled : piece ≠ [] := nonempty piece List.mem_cons_self
    rw [Handle.read]
    split
    next zero => simp [zero]
    next positive => simp [positive, filled, Handle.bytes]

theorem doUpdate_base (base : BaseStream) :
    doUpdate base =
      let (got, handle) := base.handle.read base.size
      if got = [] then { base with unread := [], handle := handle, iseos := true }
      else { base with unread := got, handle := handle } := rfl

theorem doUpdate_rest (base : BaseStream) (empty : base.unread = []) : (doUpdate base).rest = base.rest := by
  have kept := base.handle.read_bytes base.size
  rw [doUpdate_base]
  split
  next got handle read =>
    rw [read] at kept
    split
    next none =>
      rw [none] at kept
      simpa [BufferedStream.rest, empty] using kept
    next => simpa [BufferedStream.rest, empty] using kept

/-- `ISread`: what the buffer has, then one read for the remainder of the request. The
bytes are those of `buf` after the call; the result of the call is 0 when there are none. -/
def isRead (base : BaseStream) (count : Nat) : List UInt8 × BaseStream :=
  if base.iseos then ([], base)
  else
    let taken := base.unread.take count
    let base := { base with unread := base.unread.drop count }
    if base.unread = [] then
      let (got, handle) := base.handle.read (count - taken.length)
      (taken ++ got, { base with handle := handle, iseos := got.isEmpty })
    else (taken, base)

end KcnTools.W3m
