import KcnTools.Http.ChunkedReader
import Mathlib

/-!
Reading a chunked body however it is split. What the reader keeps between two calls says which
part of the body is still unread, so a call goes on where the last one stopped.
-/

namespace KcnTools.Http

open Cache (wrapInt)

section Lines

theorem Printable.not_lineEnd {c : UInt8} (printable : Printable c) : c ≠ 10 ∧ c ≠ 13 ∧ ¬ c < 32 := by
  have all : ∀ bits : BitVec 8, (32 : UInt8) ≤ ⟨bits⟩ → (⟨bits⟩ : UInt8) ≠ 10 ∧ (⟨bits⟩ : UInt8) ≠ 13 ∧
      ¬ (⟨bits⟩ : UInt8) < 32 := by decide +kernel
  exact all c.toBitVec printable.1

/-- The end of a line is found once all of the line is there, and not before. -/
theorem isLineInBuffer_line {text : List UInt8} (printable : ∀ c ∈ text, Printable c)
    (lineEnd : LineEnd) {buffer later rest : List UInt8}
    (stream : buffer ++ later = text ++ (lineEnd.bytes ++ rest)) (l : Int) :
    (isLineInBuffer l buffer = 0 ∧ later ≠ []) ∨
      ∃ more, buffer = text ++ (lineEnd.bytes ++ more) ∧ more ++ later = rest ∧
        isLineInBuffer l buffer = l + (text ++ lineEnd.bytes).length := by
  induction text generalizing buffer l with
  | nil =>
      cases lineEnd with
      | lf =>
          cases buffer with
          | nil => exact .inl ⟨rfl, by rintro rfl; simp [LineEnd.bytes] at stream⟩
          | cons c buffer =>
              simp only [LineEnd.bytes, List.nil_append, List.cons_append, List.cons.injEq] at stream
              obtain ⟨rfl, stream⟩ := stream
              exact .inr ⟨buffer, rfl, stream, by simp [isLineInBuffer, LineEnd.bytes]⟩
      | crlf =>
          cases buffer with
          | nil => exact .inl ⟨rfl, by rintro rfl; simp [LineEnd.bytes] at stream⟩
          | cons c buffer =>
              simp only [LineEnd.bytes, List.nil_append, List.cons_append, List.cons.injEq] at stream
              obtain ⟨rfl, stream⟩ := stream
              cases buffer with
              | nil => exact .inl ⟨by simp [isLineInBuffer], by rintro rfl; simp at stream⟩
              | cons d buffer =>
                  rw [List.cons_append, List.cons.injEq] at stream
                  obtain ⟨rfl, stream⟩ := stream
                  exact .inr ⟨buffer, rfl, stream, by simp [isLineInBuffer, LineEnd.bytes]⟩
  | cons c text ih =>
      rw [List.forall_mem_cons] at printable
      cases buffer with
      | nil => exact .inl ⟨rfl, by rintro rfl; simp at stream⟩
      | cons d buffer =>
          simp only [List.cons_append, List.cons.injEq] at stream
          obtain ⟨rfl, stream⟩ := stream
          obtain ⟨notLf, notCr, notControl⟩ := printable.1.not_lineEnd
          have goesOn : isLineInBuffer l (d :: buffer) = isLineInBuffer (l + 1) buffer := by
            rw [isLineInBuffer]
            simp [notLf, notCr, notControl]
          rcases ih printable.2 stream (l + 1) with waits | ⟨more, split, behind, found⟩
          · rw [goesOn]
            exact .inl waits
          · refine .inr ⟨more, by rw [split]; rfl, behind, ?_⟩
            rw [goesOn, found]
            simp only [List.cons_append, List.length_cons]
            omega

theorem killBufferData_line {rb : ReadBuffer} {line more : List UInt8} (split : rb.data = line ++ more) :
    (killBufferData rb line.length).data = more := by
  rw [killBufferData, if_pos (by rw [split, List.length_append]; omega), split]
  exact List.drop_left' (by simp)

theorem LineEnd.length_pos (lineEnd : LineEnd) : 0 < lineEnd.bytes.length := by
  cases lineEnd <;> decide

end Lines

section Sizes

theorem isxdigit_plain {c : UInt8} (digit : isxdigit c = true) :
    isspace c = false ∧ c ≠ 45 ∧ c ≠ 43 ∧ c ≠ 120 ∧ c ≠ 88 ∧ Printable c := by
  have all : ∀ bits : BitVec 8, isxdigit ⟨bits⟩ = true → isspace ⟨bits⟩ = false ∧
      (⟨bits⟩ : UInt8) ≠ 45 ∧ (⟨bits⟩ : UInt8) ≠ 43 ∧ (⟨bits⟩ : UInt8) ≠ 120 ∧ (⟨bits⟩ : UInt8) ≠ 88 ∧
      (32 : UInt8) ≤ ⟨bits⟩ ∧ (⟨bits⟩ : UInt8) ≠ 127 := by decide +kernel
  exact all c.toBitVec digit

/-- Digits are all that is read of a numeral, unless what follows makes a base prefix of them. -/
theorem strtol_digits {digits rest : List UInt8} {c : UInt8} (written : digits ≠ [])
    (hexadecimal : ∀ d ∈ digits, isxdigit d = true) (small : hexValue digits < 2 ^ 31)
    (other : isxdigit c = false) (noBase : c ≠ 120 ∧ c ≠ 88) :
    strtol (digits ++ c :: rest) = ⟨hexValue digits, c :: rest, false⟩ := by
  obtain ⟨first, tail, rfl⟩ := List.exists_cons_of_ne_nil written
  obtain ⟨noSpace, noMinus, noPlus, _⟩ := isxdigit_plain (hexadecimal first List.mem_cons_self)
  have atFirst : ((first :: tail) ++ c :: rest).dropWhile isspace = (first :: tail) ++ c :: rest := by
    rw [List.cons_append, List.dropWhile_cons_of_neg (by rw [noSpace]; exact Bool.false_ne_true)]
  have unsigned : strtolSign ((first :: tail) ++ c :: rest) = (false, (first :: tail) ++ c :: rest) := by
    rw [strtolSign.eq_3]
    · rintro other eq
      exact noMinus (List.cons.inj eq).1
    · rintro other eq
      exact noPlus (List.cons.inj eq).1
  have noPrefix : strtolBase ((first :: tail) ++ c :: rest) = (first :: tail) ++ c :: rest := by
    rw [strtolBase.eq_def]
    split
    next x d _ shape =>
      rw [if_neg, shape]
      rintro ⟨base, _⟩
      cases tail with
      | nil =>
          have same : c = x := (List.cons.inj (List.cons.inj shape).2).1
          subst same
          exact base.elim noBase.1 noBase.2
      | cons second tail =>
          have same : second = x := (List.cons.inj (List.cons.inj shape).2).1
          subst same
          obtain ⟨_, _, _, noX, noBigX, _⟩ := isxdigit_plain (hexadecimal second (by simp))
          exact base.elim noX noBigX
    next => rfl
  have taken : ((first :: tail) ++ c :: rest).takeWhile isxdigit = first :: tail := by
    rw [List.takeWhile_append_of_pos hexadecimal, List.takeWhile_cons_of_neg (by rw [other]; exact Bool.false_ne_true),
      List.append_nil]
  have dropped : ((first :: tail) ++ c :: rest).dropWhile isxdigit = c :: rest := by
    rw [List.dropWhile_append_of_pos hexadecimal, List.dropWhile_cons_of_neg (by rw [other]; exact Bool.false_ne_true)]
  simp only [strtol, atFirst, unsigned, noPrefix, taken, dropped]
  rw [if_neg written]
  simp only [Bool.false_eq_true, if_false]
  rw [if_neg (by omega), if_neg (by omega)]

theorem isxdigit_setOff {c : UInt8} (sets : c = 32 ∨ c = 59 ∨ c = 13 ∨ c = 10) :
    isxdigit c = false ∧ (c ≠ 120 ∧ c ≠ 88) ∧ c ≠ 0 := by
  rcases sets with rfl | rfl | rfl | rfl <;> decide

theorem SizeLine.printableText (size : SizeLine) {c : UInt8} (member : c ∈ size.line.text) : Printable c := by
  rcases List.mem_append.mp member with digit | extension
  · exact (isxdigit_plain (size.hexadecimal c digit)).2.2.2.2.2
  · exact size.printable c extension

theorem SizeLine.encode_eq (size : SizeLine) (rest : List UInt8) :
    ∃ c tail, (c = 32 ∨ c = 59 ∨ c = 13 ∨ c = 10) ∧
      size.line.encode ++ rest = size.digits ++ c :: tail := by
  have shape : size.line.encode ++ rest =
      size.digits ++ (size.extension ++ (size.lineEnd.bytes ++ rest)) := by
    simp [Line.encode, SizeLine.line]
  rw [shape]
  cases extension : size.extension with
  | cons c tail =>
      have sets := size.setOff c (by rw [extension]; rfl)
      exact ⟨c, tail ++ (size.lineEnd.bytes ++ rest), by tauto, rfl⟩
  | nil =>
      cases size.lineEnd with
      | crlf => exact ⟨13, 10 :: rest, by simp, rfl⟩
      | lf => exact ⟨10, rest, by simp, rfl⟩

end Sizes

section Parts

def Line.Lone (line : Line) : Prop := line.text.length = 1 ∧ line.lineEnd = .lf

instance (line : Line) : Decidable line.Lone :=
  inferInstanceAs (Decidable (line.text.length = 1 ∧ line.lineEnd = .lf))

def unreadLines (lineEnd : LineEnd) : List Line → List UInt8
  | [] => []
  | line :: lines => if line.Lone then encodeLines lines lineEnd else unreadLines lineEnd lines

def Body.unread (body : Body) : List UInt8 := unreadLines body.lineEnd body.trailerLines

def Body.encodeFrom (body : Body) (chunks : List Chunk) : List UInt8 :=
  encodeChunks chunks ++ (body.last.line.encode ++ encodeLines body.trailerLines body.lineEnd)

/-- The count that the reader keeps, the unread part of the body, and the data in it. -/
inductive Pending (body : Body) : Int → List UInt8 → List UInt8 → Prop
  | size (chunks : List Chunk) : Pending body chunkSize (body.encodeFrom chunks) (chunkData chunks)
  | data (part : List UInt8) (lineEnd : LineEnd) (chunks : List Chunk) :
      Pending body part.length (part ++ (lineEnd.bytes ++ body.encodeFrom chunks))
        (part ++ chunkData chunks)
  | zero : Pending body chunkZeroSize (encodeLines body.trailerLines body.lineEnd) []
  | trailers (passed lines : List Line) (split : body.trailerLines = passed ++ lines)
      (through : ∀ line ∈ passed, ¬ line.Lone) :
      Pending body chunkDataEnd (encodeLines lines body.lineEnd) []

/-- The fragments so far and the data that is still to come make up the body. -/
structure Served (body : Body) (offset : Int) (conn : HttpConnection) (later : List UInt8) : Prop where
  placed : Placed offset conn.fragments
  position : conn.offset = offset + (fragmentBytes conn.fragments).length
  pending : ∃ data, Pending body conn.chunkRemaining (conn.rb.data ++ later) data ∧
    fragmentBytes conn.fragments ++ data = body.data

/-- The reader is done, and leaves what follows the line that it took for the empty one. -/
structure Finished (body : Body) (offset : Int) (conn : HttpConnection) (later : List UInt8) : Prop where
  placed : Placed offset conn.fragments
  handed : fragmentBytes conn.fragments = body.data
  unread : conn.rb.data ++ later = body.unread

/-- A turn brings the reading forward, waits only for what is still to come, or ends it. -/
def Turn.Fits (body : Body) (offset : Int) (before : HttpConnection) (later : List UInt8) : Turn → Prop
  | .again conn _ => Served body offset conn later ∧ turnsLeft conn < turnsLeft before
  | .stop conn ret =>
      ((ret = 0 ∨ ret = 1) ∧ Served body offset conn later ∧ later ≠ []) ∨
        (ret = 2 ∧ Finished body offset conn later)

variable {body : Body} {offset : Int} {conn : HttpConnection} {later : List UInt8}

theorem breakLoop_fits {before : HttpConnection} (served : Served body offset conn later)
    (waits : later ≠ []) (total : Int) : (breakLoop conn total).Fits body offset before later := by
  refine .inl ⟨?_, served, waits⟩
  split
  · exact .inl rfl
  · exact .inr rfl

theorem placed_append {fragments : List (Int × List UInt8)} (placed : Placed offset fragments)
    (bytes : List UInt8) :
    Placed offset (fragments ++ [(offset + (fragmentBytes fragments).length, bytes)]) := by
  induction fragments generalizing offset with
  | nil => exact ⟨by simp [fragmentBytes], trivial⟩
  | cons fragment fragments ih =>
      refine ⟨placed.1, ?_⟩
      have rest := ih placed.2
      have same : offset + (fragment.2.length : Int) + (fragmentBytes fragments).length =
          offset + (fragmentBytes (fragment :: fragments)).length := by
        simp only [fragmentBytes, List.flatMap_cons, List.length_append]
        omega
      rwa [same] at rest

theorem fragmentBytes_append (fragments : List (Int × List UInt8)) (position : Int) (bytes : List UInt8) :
    fragmentBytes (fragments ++ [(position, bytes)]) = fragmentBytes fragments ++ bytes := by
  simp [fragmentBytes]

end Parts

section Turns

variable {body : Body} {offset : Int} {conn : HttpConnection} {later : List UInt8}

theorem unreadLines_passed {passed lines : List Line} {lineEnd : LineEnd}
    (through : ∀ line ∈ passed, ¬ line.Lone) :
    unreadLines lineEnd (passed ++ lines) = unreadLines lineEnd lines := by
  induction passed with
  | nil => rfl
  | cons line passed ih =>
      rw [List.forall_mem_cons] at through
      rw [List.cons_append, unreadLines, if_neg through.1, ih through.2]

theorem turnsLeft_lt {before after : HttpConnection} (kills : after.rb.data.length < before.rb.data.length) :
    turnsLeft after < turnsLeft before := by
  rw [turnsLeft, turnsLeft]
  split <;> split <;> omega

theorem Line.length_le_two {line : Line} (written : line.text ≠ []) :
    (line.text ++ line.lineEnd.bytes).length ≤ 2 ↔ line.Lone := by
  have positive := List.length_pos_iff.mpr written
  rw [List.length_append, Line.Lone]
  cases line.lineEnd with
  | crlf => simp [LineEnd.bytes]; omega
  | lf => simp [LineEnd.bytes]; omega

theorem dataEndTurn_fits (served : Served body offset conn later) (atEnd : conn.chunkRemaining = chunkDataEnd)
    (total : Int) : (dataEndTurn conn total).Fits body offset conn later := by
  obtain ⟨data, pending, whole⟩ := served.pending
  rw [atEnd] at pending
  generalize stream : conn.rb.data ++ later = unread at pending
  cases pending with
  | trailers passed lines split through =>
      rw [List.append_nil] at whole
      cases lines with
      | nil =>
          have shape : conn.rb.data ++ later = [] ++ (body.lineEnd.bytes ++ []) := by
            rw [stream]
            simp [encodeLines]
          rcases isLineInBuffer_line (by simp) body.lineEnd shape 0 with
            ⟨found, waits⟩ | ⟨more, buffer, rest, found⟩
          · rw [dataEndTurn, found]
            exact breakLoop_fits served waits total
          · have long := body.lineEnd.length_pos
            have short : body.lineEnd.bytes.length ≤ 2 := by cases body.lineEnd <;> decide
            have killed : (killBufferData conn.rb (0 + (([] ++ body.lineEnd.bytes : List UInt8).length))).data =
                more := by
              rw [Int.zero_add]
              exact killBufferData_line (by rw [buffer, List.append_assoc])
            rw [dataEndTurn, found]
            dsimp only
            rw [List.nil_append] at killed ⊢
            rw [if_neg (by omega), if_neg (by omega), if_pos (by omega)]
            refine .inr ⟨rfl, served.placed, whole, ?_⟩
            rw [killed, rest, Body.unread, split, unreadLines_passed through]
            rfl
      | cons line lines =>
          have printed : line.Printed := body.printed (by rw [split]; simp)
          have shape : conn.rb.data ++ later = line.text ++ (line.lineEnd.bytes ++ encodeLines lines body.lineEnd) := by
            rw [stream]
            simp [encodeLines, Line.encode]
          rcases isLineInBuffer_line printed.printable line.lineEnd shape 0 with
            ⟨found, waits⟩ | ⟨more, buffer, rest, found⟩
          · rw [dataEndTurn, found]
            exact breakLoop_fits served waits total
          · have long := line.lineEnd.length_pos
            have killed : (killBufferData conn.rb (0 + ((line.text ++ line.lineEnd.bytes).length))).data = more := by
              rw [Int.zero_add]
              exact killBufferData_line (by rw [buffer, List.append_assoc])
            have total_pos : 0 < (line.text ++ line.lineEnd.bytes).length := by rw [List.length_append]; omega
            have lone := Line.length_le_two printed.written
            rw [dataEndTurn, found]
            dsimp only
            rw [if_neg (by omega), if_neg (by omega)]
            split
            next short =>
              refine .inr ⟨rfl, served.placed, whole, ?_⟩
              rw [killed, rest, Body.unread, split, unreadLines_passed through, unreadLines,
                if_pos (lone.mp (by omega))]
            next long =>
              refine ⟨⟨served.placed, served.position, [], ?_, by rw [List.append_nil]; exact whole⟩, ?_⟩
              · rw [killed, rest, atEnd]
                refine .trailers (passed ++ [line]) lines (by rw [split]; simp) ?_
                intro other member
                rw [List.mem_append, List.mem_singleton] at member
                rcases member with earlier | rfl
                · exact through other earlier
                · exact fun alone => long (by have := lone.mpr alone; omega)
              · apply turnsLeft_lt
                rw [killed, buffer]
                simp only [List.length_append] at total_pos ⊢
                omega

theorem chunkSizeTurn_line (size : SizeLine) {rest : List UInt8}
    (stream : conn.rb.data ++ later = size.line.encode ++ rest) (total : Int) :
    (later ≠ [] ∧ chunkSizeTurn conn total = breakLoop conn total) ∨
      ∃ rb : ReadBuffer, rb.data ++ later = rest ∧ rb.data.length < conn.rb.data.length ∧
        chunkSizeTurn conn total = .again { conn with
          rb, chunkRemaining := if hexValue size.digits = 0 then chunkZeroSize else hexValue size.digits } total := by
  have shape : conn.rb.data ++ later = size.line.text ++ (size.line.lineEnd.bytes ++ rest) := by
    rw [stream, Line.encode, List.append_assoc]
  rcases isLineInBuffer_line (fun c => size.printableText) size.line.lineEnd shape 0 with
    ⟨found, waits⟩ | ⟨more, buffer, behind, found⟩
  · refine .inl ⟨waits, ?_⟩
    rw [chunkSizeTurn, found]
    rfl
  · have long := size.line.lineEnd.length_pos
    have killed : (killBufferData conn.rb (size.line.text ++ size.line.lineEnd.bytes).length).data = more :=
      killBufferData_line (by rw [buffer, List.append_assoc])
    obtain ⟨c, tail, sets, numeral⟩ := size.encode_eq (more ++ conn.rb.behind)
    obtain ⟨other, noBase, noNul⟩ := isxdigit_setOff sets
    have text : conn.rb.data ++ conn.rb.behind = size.digits ++ c :: tail := by
      rw [← numeral, buffer, Line.encode]
      simp
    have number : strtol (size.digits ++ c :: tail) = ⟨hexValue size.digits, c :: tail, false⟩ :=
      strtol_digits size.written size.hexadecimal size.small other noBase
    have small := size.small
    have wrapped : wrapInt (hexValue size.digits) = hexValue size.digits := by
      rw [wrapInt]
      omega
    have advanced : ¬ (c :: tail).length = (size.digits ++ c :: tail).length := by
      have := List.length_pos_iff.mpr size.written
      rw [List.length_append]
      omega
    refine .inr ⟨killBufferData conn.rb (size.line.text ++ size.line.lineEnd.bytes).length, ?_, ?_, ?_⟩
    · rw [killed, behind]
    · rw [killed, buffer]
      simp only [List.length_append]
      omega
    · rw [chunkSizeTurn, found, Int.zero_add]
      dsimp only
      rw [List.length_append, if_neg (by omega), if_neg (by omega), text, number]
      dsimp only
      rw [if_neg (by simpa using noNul), if_neg advanced, wrapped]
      simp only [Int.natCast_eq_zero]

theorem chunkSizeTurn_fits (served : Served body offset conn later) (atSize : conn.chunkRemaining = chunkSize)
    (total : Int) : (chunkSizeTurn conn total).Fits body offset conn later := by
  obtain ⟨data, pending, whole⟩ := served.pending
  rw [atSize] at pending
  generalize stream : conn.rb.data ++ later = unread at pending
  cases pending with
  | size chunks =>
      cases chunks with
      | nil =>
          have shape : conn.rb.data ++ later = body.last.line.encode ++ encodeLines body.trailerLines body.lineEnd :=
              stream
          rcases chunkSizeTurn_line body.last shape total with ⟨waits, stops⟩ | ⟨rb, rest, shorter, goesOn⟩
          · rw [stops]
            exact breakLoop_fits served waits total
          · rw [goesOn, if_pos body.zero]
            refine ⟨⟨served.placed, served.position, [], ?_, whole⟩, turnsLeft_lt shorter⟩
            rw [rest]
            exact .zero
      | cons chunk chunks =>
          have shape : conn.rb.data ++ later = chunk.size.line.encode ++
              (chunk.data ++ (chunk.lineEnd.bytes ++ body.encodeFrom chunks)) := by
            rw [stream]
            simp [Body.encodeFrom, encodeChunks, Chunk.encode]
          rcases chunkSizeTurn_line chunk.size shape total with ⟨waits, stops⟩ | ⟨rb, rest, shorter, goesOn⟩
          · rw [stops]
            exact breakLoop_fits served waits total
          · have filled := List.length_pos_iff.mpr chunk.filled
            rw [goesOn, if_neg (by rw [chunk.sized]; omega), chunk.sized]
            refine ⟨⟨served.placed, served.position, chunk.data ++ chunkData chunks, ?_, ?_⟩, turnsLeft_lt shorter⟩
            · rw [rest]
              exact .data chunk.data chunk.lineEnd chunks
            · simpa [chunkData] using whole

theorem handOver_eq {remaining : Nat} (count : conn.chunkRemaining = remaining) :
    ∃ rb : ReadBuffer, rb.data = conn.rb.data.drop remaining ∧
      handOver conn = ⟨((remaining - conn.rb.data.length : Nat) : Int),
        conn.offset + (conn.rb.data.take remaining).length,
        conn.fragments ++ [(conn.offset, conn.rb.data.take remaining)], rb⟩ := by
  have len : min conn.chunkRemaining conn.rb.data.length = ((min remaining conn.rb.data.length : Nat) : Int) := by
    rw [count]
    omega
  have taken : conn.rb.data.take (min remaining conn.rb.data.length) = conn.rb.data.take remaining := by
    rw [← List.take_eq_take_min]
  have left : (if (remaining : Int) > 0 then (remaining : Int) - (min remaining conn.rb.data.length : Nat) else
      remaining) =
      ((remaining - conn.rb.data.length : Nat) : Int) := by
    split <;> omega
  have killed : (killBufferData conn.rb (min remaining conn.rb.data.length : Nat)).data = conn.rb.data.drop
      remaining := by
    rw [killBufferData, if_pos (by omega), Int.toNat_natCast]
    dsimp only
    by_cases all : remaining ≤ conn.rb.data.length
    · rw [Nat.min_eq_left all]
    · rw [Nat.min_eq_right (by omega), List.drop_eq_nil_of_le (Nat.le_refl _), List.drop_eq_nil_of_le (by omega)]
  refine ⟨_, killed, ?_⟩
  rw [handOver, decompressData, len]
  dsimp only
  rw [count, left, Int.toNat_natCast, taken, List.length_take]

theorem newlineTurn_fits {before : HttpConnection} (shorter : conn.rb.data.length ≤ before.rb.data.length)
    (placed : Placed offset conn.fragments)
    (position : conn.offset = offset + (fragmentBytes conn.fragments).length)
    (lineEnd : LineEnd) (chunks : List Chunk) (count : conn.chunkRemaining = 0)
    (stream : conn.rb.data ++ later = lineEnd.bytes ++ body.encodeFrom chunks)
    (whole : fragmentBytes conn.fragments ++ chunkData chunks = body.data) (total : Int) :
    (newlineTurn conn total).Fits body offset before later := by
  have served : Served body offset conn later := by
    refine ⟨placed, position, chunkData chunks, ?_, whole⟩
    rw [count, stream]
    exact .data [] lineEnd chunks
  have behind : ∀ rb : ReadBuffer, rb.data ++ later = body.encodeFrom chunks →
      Served body offset { conn with rb, chunkRemaining := chunkSize } later := by
    intro rb rest
    refine ⟨placed, position, chunkData chunks, ?_, whole⟩
    show Pending body chunkSize (rb.data ++ later) _
    rw [rest]
    exact .size chunks
  cases data : conn.rb.data with
  | nil =>
      rw [newlineTurn, data]
      refine breakLoop_fits served ?_ total
      rintro rfl
      rw [data, List.append_nil] at stream
      cases lineEnd <;> simp [LineEnd.bytes] at stream
  | cons first rest =>
      rw [data] at stream shorter
      rw [List.length_cons] at shorter
      cases lineEnd with
      | lf =>
          simp only [LineEnd.bytes, List.cons_append, List.nil_append, List.cons.injEq] at stream
          obtain ⟨rfl, stream⟩ := stream
          have killed : (killBufferData conn.rb 1).data = rest := @killBufferData_line _ [10] _ (by rw [data]; rfl)
          rw [newlineTurn, data]
          dsimp only
          rw [if_pos rfl]
          exact ⟨behind _ (by rw [killed, stream]), turnsLeft_lt (by dsimp only; rw [killed]; omega)⟩
      | crlf =>
          simp only [LineEnd.bytes, List.cons_append, List.nil_append, List.cons.injEq] at stream
          obtain ⟨rfl, stream⟩ := stream
          rw [newlineTurn, data]
          dsimp only
          rw [if_neg (by decide)]
          cases rest with
          | nil =>
              rw [if_neg (by simp), if_pos rfl]
              refine breakLoop_fits served ?_ total
              rintro rfl
              simp at stream
          | cons second rest =>
              rw [List.cons_append, List.cons.injEq] at stream
              obtain ⟨rfl, stream⟩ := stream
              have killed : (killBufferData conn.rb 2).data = rest :=
                @killBufferData_line _ [13, 10] _ (by rw [data]; rfl)
              rw [if_neg (by simp), if_neg (List.cons_ne_nil _ _)]
              rw [List.length_cons] at shorter
              exact ⟨behind _ (by rw [killed, stream]), turnsLeft_lt (by dsimp only; rw [killed]; omega)⟩

theorem fragments_handed (served : Served body offset conn later) (bytes : List UInt8) :
    Placed offset (conn.fragments ++ [(conn.offset, bytes)]) ∧
      conn.offset + bytes.length =
        offset + (fragmentBytes (conn.fragments ++ [(conn.offset, bytes)])).length := by
  constructor
  · rw [served.position]
    exact placed_append served.placed bytes
  · rw [fragmentBytes_append, List.length_append, served.position]
    omega

theorem chunkDataTurn_fits (served : Served body offset conn later)
    (notEnd : conn.chunkRemaining ≠ chunkDataEnd) (notSize : conn.chunkRemaining ≠ chunkSize) (total : Int) :
    (chunkDataTurn conn total).Fits body offset conn later := by
  obtain ⟨data, pending, whole⟩ := served.pending
  generalize count : conn.chunkRemaining = remaining at pending notEnd notSize
  generalize stream : conn.rb.data ++ later = unread at pending
  cases pending with
  | size chunks => exact absurd rfl notSize
  | trailers passed lines split through => exact absurd rfl notEnd
  | zero =>
      obtain ⟨rb, kept, handed⟩ := @handOver_eq { conn with chunkRemaining := 0 } 0 rfl
      dsimp only at kept handed
      rw [List.drop_zero] at kept
      rw [List.take_zero, List.length_nil, Nat.zero_sub] at handed
      obtain ⟨placed, position⟩ := fragments_handed served []
      rw [chunkDataTurn, if_pos count, handed]
      refine ⟨⟨placed, position, [], ?_, ?_⟩, ?_⟩
      · show Pending body chunkDataEnd (rb.data ++ later) []
        rw [kept, stream]
        exact .trailers [] body.trailerLines rfl (by simp)
      · rw [fragmentBytes_append, List.append_nil]
        exact whole
      · rw [turnsLeft, turnsLeft, count, if_pos rfl]
        dsimp only
        rw [kept, if_neg (by decide)]
        omega
  | data part lineEnd chunks =>
      obtain ⟨rb, kept, handed⟩ := handOver_eq count
      have notZero : ¬ conn.chunkRemaining = chunkZeroSize := by
        rw [count, chunkZeroSize]
        omega
      rw [chunkDataTurn, if_neg notZero, handed]
      dsimp only
      obtain ⟨placed, position⟩ := fragments_handed served (conn.rb.data.take part.length)
      by_cases short : conn.rb.data.length < part.length
      · -- All that has come belongs to the chunk.
        have began : conn.rb.data = part.take conn.rb.data.length := by
          have front := congrArg (List.take conn.rb.data.length) stream
          rwa [List.take_left, List.take_append_of_le_length (by omega)] at front
        have comes : later = part.drop conn.rb.data.length ++ (lineEnd.bytes ++ body.encodeFrom chunks) := by
          have back := congrArg (List.drop conn.rb.data.length) stream
          rwa [List.drop_left, List.drop_append_of_le_length (by omega)] at back
        have nothing : rb.data = [] := by rw [kept, List.drop_eq_nil_of_le (by omega)]
        rw [if_neg (by omega)]
        refine breakLoop_fits ⟨placed, position, part.drop conn.rb.data.length ++ chunkData chunks, ?_, ?_⟩ ?_ _
        · dsimp only
          rw [nothing, List.nil_append, comes]
          have rest := @Pending.data body (part.drop conn.rb.data.length) lineEnd chunks
          rwa [List.length_drop] at rest
        · rw [fragmentBytes_append, List.take_of_length_le (by omega), List.append_assoc, ← List.append_assoc
          conn.rb.data]
          nth_rewrite 1 [began]
          rw [List.take_append_drop]
          exact whole
        · rw [comes]
          have ends := lineEnd.length_pos
          rintro nothing
          rw [List.append_eq_nil_iff, List.append_eq_nil_iff] at nothing
          rw [nothing.2.1] at ends
          exact absurd ends (by decide)
      · have came : conn.rb.data.take part.length = part := by
          have front := congrArg (List.take part.length) stream
          rwa [List.take_left, List.take_append_of_le_length (by omega)] at front
        have rest : rb.data ++ later = lineEnd.bytes ++ body.encodeFrom chunks := by
          have back := congrArg (List.drop part.length) stream
          rwa [List.drop_left, List.drop_append_of_le_length (by omega), ← kept] at back
        rw [if_pos (by omega)]
        refine newlineTurn_fits ?_ placed position lineEnd chunks ?_ rest ?_ _
        · dsimp only
          rw [kept, List.length_drop]
          omega
        · dsimp only
          omega
        · rw [fragmentBytes_append, came, List.append_assoc]
          exact whole

theorem chunkTurn_fits (served : Served body offset conn later) (total : Int) :
    (chunkTurn conn total).Fits body offset conn later := by
  rw [chunkTurn]
  split
  next atEnd => exact dataEndTurn_fits served atEnd total
  next notEnd =>
    split
    next atSize => exact chunkSizeTurn_fits served atSize total
    next notSize => exact chunkDataTurn_fits served notEnd notSize total

end Turns

section Runs

variable {body : Body} {offset : Int}

def CallFits (body : Body) (offset : Int) (later : List UInt8) (result : HttpConnection × Int) : Prop :=
  ((result.2 = 0 ∨ result.2 = 1) ∧ Served body offset result.1 later ∧ later ≠ []) ∨
    (result.2 = 2 ∧ Finished body offset result.1 later)

theorem chunkLoop_fits {later : List UInt8} (turns : Nat) {conn : HttpConnection}
    (served : Served body offset conn later) (enough : turnsLeft conn < turns) (total : Int) :
    CallFits body offset later (chunkLoop turns conn total) := by
  induction turns generalizing conn total with
  | zero => exact absurd enough (Nat.not_lt_zero _)
  | succ turns ih =>
      have fits := chunkTurn_fits served total
      rw [chunkLoop]
      cases turn : chunkTurn conn total with
      | again next total =>
          rw [turn] at fits
          exact ih fits.1 (by have := fits.2; omega) total
      | stop next ret =>
          rw [turn] at fits
          exact fits

theorem readChunkedHttpData_fits {later : List UInt8} {conn : HttpConnection}
    (served : Served body offset conn later) : CallFits body offset later (readChunkedHttpData conn) :=
  chunkLoop_fits _ served (Nat.lt_succ_self _) 0

def Reading.Fits (body : Body) (offset : Int) (later : List UInt8) : Reading → Prop
  | .more conn => Served body offset conn later ∧ later ≠ []
  | .done conn unread => Finished body offset conn (allBytes unread ++ later)
  | .failed => False

theorem Served.arrive {conn : HttpConnection} {arrival : Arrival} {later : List UInt8}
    (served : Served body offset conn (arrival.bytes ++ later)) : Served body offset (conn.arrive arrival) later := by
  obtain ⟨data, pending, whole⟩ := served.pending
  refine ⟨served.placed, served.position, data, ?_, whole⟩
  rw [HttpConnection.arrive]
  dsimp only
  rwa [List.append_assoc]

theorem readHttpData_fits {conn : HttpConnection} {arrivals : List Arrival} {later : List UInt8}
    (served : Served body offset conn (allBytes arrivals ++ later)) (comes : allBytes arrivals ++ later ≠ []) :
    (readHttpData conn arrivals).Fits body offset later := by
  induction arrivals generalizing conn with
  | nil => exact ⟨served, comes⟩
  | cons arrival arrivals ih =>
      have split : allBytes (arrival :: arrivals) ++ later = arrival.bytes ++ (allBytes arrivals ++ later) := by
        simp [allBytes]
      rw [split] at served
      have call := readChunkedHttpData_fits served.arrive
      rw [readHttpData]
      rcases call with ⟨more, kept, waits⟩ | ⟨done, finished⟩
      · dsimp only
        rw [if_neg (by omega), if_neg (by omega)]
        exact ih kept waits
      · dsimp only
        rw [if_pos done]
        exact finished

theorem LineEnd.bytes_ne_nil (lineEnd : LineEnd) : lineEnd.bytes ≠ [] := by
  cases lineEnd <;> decide

theorem encodeLines_ne_nil (lines : List Line) (lineEnd : LineEnd) : encodeLines lines lineEnd ≠ [] := by
  intro nothing
  rw [encodeLines, List.append_eq_nil_iff] at nothing
  exact lineEnd.bytes_ne_nil nothing.2

theorem Body.encode_ne_nil (body : Body) : body.encode ≠ [] := by
  intro nothing
  rw [Body.encode, List.append_eq_nil_iff, List.append_eq_nil_iff] at nothing
  exact encodeLines_ne_nil _ _ nothing.2.2

theorem startReading_served (body : Body) (offset : Int) : Served body offset (startReading offset) body.encode := by
  refine ⟨trivial, ?_, body.data, ?_, rfl⟩
  · simp [startReading, fragmentBytes]
  · exact .size body.chunks

theorem unreadLines_eq_nil (lineEnd : LineEnd) (lines : List Line) :
    unreadLines lineEnd lines = [] ↔ ∀ line ∈ lines, ¬ line.Lone := by
  induction lines with
  | nil => simp [unreadLines]
  | cons line lines ih =>
      rw [unreadLines, List.forall_mem_cons]
      split
      next lone => exact iff_of_false (encodeLines_ne_nil lines lineEnd) fun none => none.1 lone
      next through => rw [ih, and_iff_right through]

/-- However a body is split, it is read to its end exactly when no line of its trailers is a
single character that a bare LF ends. -/
theorem readsBody_iff (body : Body) (offset : Int) (arrivals : List Arrival) (split : allBytes arrivals = body.encode) :
    ReadsBody body offset arrivals ↔ ∀ line ∈ body.trailerLines, ¬ line.Lone := by
  rw [← unreadLines_eq_nil body.lineEnd]
  constructor
  · intro reads
    have fits : (readHttpData (startReading offset) arrivals).Fits body offset [] := by
      apply readHttpData_fits
      · rw [List.append_nil, split]
        exact startReading_served body offset
      · rw [List.append_nil, split]
        exact body.encode_ne_nil
    have whole := reads arrivals [] (by rw [List.append_nil])
    cases reading : readHttpData (startReading offset) arrivals with
    | more conn =>
        rw [reading] at fits
        exact absurd rfl fits.2
    | done conn unread =>
        rw [reading] at fits whole
        have rest := fits.unread
        have nothing := whole.1
        rw [List.append_nil] at rest nothing
        rw [nothing] at rest
        exact rest.symm
    | failed =>
        rw [reading] at fits
        exact fits.elim
  · intro through earlier later parts
    have bytes : allBytes earlier ++ allBytes later = body.encode := by
      rw [← split, parts]
      simp [allBytes]
    have fits : (readHttpData (startReading offset) earlier).Fits body offset (allBytes later) := by
      apply readHttpData_fits
      · rw [bytes]
        exact startReading_served body offset
      · rw [bytes]
        exact body.encode_ne_nil
    cases reading : readHttpData (startReading offset) earlier with
    | more conn =>
        rw [reading] at fits
        exact fits.2
    | done conn unread =>
        rw [reading] at fits
        refine ⟨?_, fits.placed, fits.handed⟩
        have rest := fits.unread
        rw [Body.unread, through] at rest
        simpa [allBytes] using rest
    | failed =>
        rw [reading] at fits
        exact fits.elim

def letterBody : Body where
  chunks := [⟨⟨[49], [], .crlf, by decide, by simp; decide, by decide, by simp, by simp⟩, [97], .crlf, by decide,
  by decide⟩]
  last := ⟨[48], [], .crlf, by decide, by simp; decide, by decide, by simp, by simp⟩
  trailers := [⟨[98], [], .crlf, [], by decide, by simp [Printable], by simp⟩]
  lineEnd := .crlf
  zero := by decide

/-- Cut between CR and LF, and inside the trailer. -/
theorem readsBody_iff_letter : ReadsBody letterBody 0
    [⟨[49, 13], [7]⟩, ⟨[10, 97, 13, 10, 48, 13, 10, 98], []⟩, ⟨[58, 13, 10, 13], []⟩, ⟨[10], []⟩] :=
  (readsBody_iff letterBody 0 _ (by decide)).mpr (by decide)

/-- `a`, in one chunk, with a trailer `b:` that is folded on a blank line, and bare LF. -/
def foldedBody : Body where
  chunks := [⟨⟨[49], [], .lf, by decide, by simp; decide, by decide, by simp, by simp⟩, [97], .lf, by decide,
  by decide⟩]
  last := ⟨[48], [], .lf, by decide, by simp; decide, by decide, by simp, by simp⟩
  trailers := [⟨[98], [], .lf, [⟨[], .lf, by simp⟩], by decide, by simp [Printable], by simp⟩]
  lineEnd := .lf
  zero := by decide

/-- The empty line is still unread when the reader is done. -/
theorem readsBody_folded : allBytes [⟨foldedBody.encode, []⟩] = foldedBody.encode ∧
    ¬ ReadsBody foldedBody 0 [⟨foldedBody.encode, []⟩] := by
  refine ⟨by decide, ?_⟩
  intro reads
  have whole := reads [⟨foldedBody.encode, []⟩] [] rfl
  have reading : ∃ conn, readHttpData (startReading 0) [⟨foldedBody.encode, []⟩] = .done conn [] ∧
      conn.rb.data = [10] := ⟨_, rfl, rfl⟩
  obtain ⟨conn, reading, left⟩ := reading
  rw [reading] at whole
  have nothing := whole.1
  rw [left] at nothing
  exact absurd nothing (by decide)

end Runs

end KcnTools.Http
