import KcnTools.W3m.IstreamRuns
import KcnTools.W3m.MimeDecode

/-!
A stream that decodes the lines of another stream. `ens_read` returns 0 for a line that
decodes to nothing, and `do_update` takes that for the end of the stream.
-/

namespace KcnTools.W3m

structure EnsHandle where
  is : BaseStream
  sound : is.Sound
  s : Option (List UInt8)
  pos : Nat
  encoding : Encoding

theorem strmyISgets_spec {base : BaseStream} (sound : base.Sound) :
    (strmyISgets base).1 = nextLine base.rest ∧ Returns base (strmyISgets base).1 (strmyISgets base).2 := by
  obtain ⟨bytes, read, line, returns⟩ := strmyISgetsFrom_spec base [] sound
  rw [List.nil_append] at read
  rw [lineRest, if_neg (by simp)] at line
  rw [strmyISgets, read]
  exact ⟨line, returns⟩

def EnsHandle.usedUp (handle : EnsHandle) : Bool :=
  match handle.s with
  | none => true
  | some s => handle.pos == s.length

def EnsHandle.left (handle : EnsHandle) : List UInt8 := (handle.s.getD []).drop handle.pos

def EnsHandle.copy (handle : EnsHandle) (len : Nat) : List UInt8 × EnsHandle :=
  (handle.left.take len, { handle with pos := handle.pos + (handle.left.take len).length })

def EnsHandle.fill (handle : EnsHandle) : EnsHandle where
  is := (strmyISgets handle.is).2
  sound := (strmyISgets_spec handle.sound).2.sound
  s := some (decodeLine handle.encoding (strmyISgets handle.is).1)
  pos := 0
  encoding := handle.encoding

def ensRead (handle : EnsHandle) (len : Nat) : List UInt8 × EnsHandle :=
  if handle.usedUp then
    if (strmyISgets handle.is).1 = [] then ([], { handle.fill with s := some [], pos := handle.pos })
    else handle.fill.copy len
  else handle.copy len

def bodyLines (rest : List UInt8) : List (List UInt8) :=
  if _empty : rest = [] then []
  else nextLine rest :: bodyLines (rest.drop (nextLine rest).length)
termination_by rest.length
decreasing_by
  have line : nextLine rest ≠ [] := fun none => _empty (nextLine_nil none)
  have long : 0 < (nextLine rest).length := List.length_pos_iff.mpr line
  have rest_long : 0 < rest.length := List.length_pos_iff.mpr _empty
  rw [List.length_drop]
  omega

def decodings (encoding : Encoding) (rest : List UInt8) : List (List UInt8) :=
  (bodyLines rest).map (decodeLine encoding)

section Plain

def filledLines (lines : List (List UInt8)) : List (List UInt8) := lines.takeWhile (· ≠ [])

theorem filledLines_nonempty {lines : List (List UInt8)} : ∀ line ∈ filledLines lines, line ≠ [] := by
  intro line member
  simpa using List.mem_takeWhile_imp member

def EnsHandle.plain (handle : EnsHandle) : Handle :=
  ⟨rejoin handle.left (filledLines (decodings handle.encoding handle.is.rest)), rejoin_nonempty filledLines_nonempty⟩

theorem decodings_nil (encoding : Encoding) : decodings encoding [] = [] := by
  rw [decodings, bodyLines]
  rfl

theorem decodings_next {base : BaseStream} (sound : base.Sound) (encoding : Encoding)
    (filled : (strmyISgets base).1 ≠ []) :
    decodings encoding base.rest =
      decodeLine encoding (strmyISgets base).1 :: decodings encoding (strmyISgets base).2.rest := by
  obtain ⟨line, returns⟩ := strmyISgets_spec sound
  have split := returns.rest
  have more : base.rest ≠ [] := by
    rw [split]
    simp [filled]
  have behind : base.rest.drop (nextLine base.rest).length = (strmyISgets base).2.rest := by
    rw [← line]
    conv_lhs => rw [split]
    exact List.drop_left
  rw [decodings, bodyLines, dif_neg more, List.map_cons, behind, ← line, decodings]

theorem strmyISgets_nil {base : BaseStream} (sound : base.Sound) (none : (strmyISgets base).1 = []) : base.rest =
    [] := by
  obtain ⟨line, _⟩ := strmyISgets_spec sound
  exact nextLine_nil (line ▸ none)

def EnsHandle.Fits (handle : EnsHandle) : Prop := handle.pos ≤ (handle.s.getD []).length

theorem EnsHandle.usedUp_left {handle : EnsHandle} (used : handle.usedUp = true) : handle.left = [] := by
  obtain ⟨is, sound, s, pos, encoding⟩ := handle
  cases s with
  | none => exact List.drop_nil
  | some s =>
      have last : pos = s.length := by simpa [EnsHandle.usedUp] using used
      exact List.drop_eq_nil_of_le last.ge

theorem EnsHandle.left_usedUp {handle : EnsHandle} (fits : handle.Fits) (none : handle.left = []) :
    handle.usedUp = true := by
  obtain ⟨is, sound, s, pos, encoding⟩ := handle
  cases s with
  | none => rfl
  | some s =>
      have behind : s.length ≤ pos := List.drop_eq_nil_iff.mp none
      have inside : pos ≤ s.length := fits
      simp only [EnsHandle.usedUp, beq_iff_eq]
      omega

theorem drop_taken (l : List UInt8) (n : Nat) : l.drop (l.take n).length = l.drop n := by
  rcases Nat.le_total n l.length with short | long
  · rw [List.length_take_of_le short]
  · rw [List.take_of_length_le long, List.drop_length, List.drop_eq_nil_of_le long]

theorem EnsHandle.plain_filled {handle : EnsHandle} {piece : List UInt8} {pieces : List (List UInt8)}
    (filled : ∀ other ∈ piece :: pieces, other ≠ [])
    (whole : rejoin handle.left (filledLines (decodings handle.encoding handle.is.rest)) = piece :: pieces) :
    handle.plain = ⟨piece :: pieces, filled⟩ := by
  simp only [EnsHandle.plain, whole]

theorem copy_filled {handle : EnsHandle} {len : Nat} (got : (handle.copy len).1 ≠ []) :
    (handle.copy len).1 = (handle.plain.read len).1 ∧ (handle.copy len).2.plain = (handle.plain.read len).2 ∧
      (handle.copy len).2.Fits := by
  have taken : handle.left.take len ≠ [] := got
  have filled : handle.left ≠ [] := fun none => taken (by rw [none, List.take_nil])
  have room : ¬ len = 0 := fun none => taken (by rw [none, List.take_zero])
  have whole : rejoin handle.left (filledLines (decodings handle.encoding handle.is.rest)) =
      handle.left :: filledLines (decodings handle.encoding handle.is.rest) := if_neg filled
  have later : (handle.copy len).2.left = handle.left.drop len := by
    rw [← drop_taken, EnsHandle.copy, EnsHandle.left, EnsHandle.left, List.drop_drop]
  rw [EnsHandle.plain_filled (by rw [← whole]; exact handle.plain.nonempty) whole, Handle.read, if_neg room]
  refine ⟨rfl, ?_, ?_⟩
  · simp only [EnsHandle.plain, later]
    rfl
  · have inside : handle.pos < (handle.s.getD []).length := by
      by_contra behind
      exact filled (List.drop_eq_nil_of_le (Nat.le_of_not_lt behind))
    show handle.pos + (handle.left.take len).length ≤ (handle.s.getD []).length
    rw [EnsHandle.left, List.length_take, List.length_drop]
    omega

theorem EnsHandle.fill_plain {handle : EnsHandle} (used : handle.usedUp = true)
    (filled : (strmyISgets handle.is).1 ≠ []) (bytes : handle.fill.left ≠ []) : handle.plain = handle.fill.plain := by
  have lines : rejoin handle.left (filledLines (decodings handle.encoding handle.is.rest)) =
      rejoin handle.fill.left (filledLines (decodings handle.fill.encoding handle.fill.is.rest)) := by
    have left : decodeLine handle.encoding (strmyISgets handle.is).1 = handle.fill.left := rfl
    rw [EnsHandle.usedUp_left used, rejoin, if_pos rfl, decodings_next handle.sound _ filled, rejoin, if_neg bytes,
      left,
      filledLines, List.takeWhile_cons_of_pos (by simpa using bytes)]
    rfl
  simp only [EnsHandle.plain, lines]

theorem ensRead_filled {handle : EnsHandle} {len : Nat} (got : (ensRead handle len).1 ≠ []) :
    (ensRead handle len).1 = (handle.plain.read len).1 ∧ (ensRead handle len).2.plain = (handle.plain.read len).2 ∧
      (ensRead handle len).2.Fits := by
  rw [ensRead] at got ⊢
  split at got
  next used =>
    rw [if_pos used]
    split at got
    next => exact (got rfl).elim
    next filled =>
      have bytes : handle.fill.left ≠ [] := by
        intro none
        apply got
        rw [EnsHandle.copy, none, List.take_nil]
      rw [if_neg filled, EnsHandle.fill_plain used filled bytes]
      exact copy_filled got
  next more =>
    rw [if_neg more]
    exact copy_filled got

theorem ensRead_empty {handle : EnsHandle} (fits : handle.Fits) {len : Nat} (room : 0 < len)
    (none : (ensRead handle len).1 = []) : (handle.plain.read len).1 = [] := by
  have nothing : ∀ next : EnsHandle, (next.copy len).1 = [] → next.left = [] := by
    intro next empty
    rcases List.take_eq_nil_iff.mp empty with zero | left
    · omega
    · exact left
  rw [ensRead] at none
  rw [Handle.read_nil, Handle.bytes]
  right
  split at none
  next used =>
    simp only [EnsHandle.plain, EnsHandle.usedUp_left used, rejoin, ↓reduceIte]
    split at none
    next last =>
      rw [strmyISgets_nil handle.sound last, decodings_nil]
      rfl
    next filled =>
      have empty : decodeLine handle.encoding (strmyISgets handle.is).1 = [] := nothing _ none
      rw [decodings_next handle.sound _ filled, empty]
      rfl
  next more => exact (more (EnsHandle.left_usedUp fits (nothing _ none))).elim

end Plain

instance : StreamHandle EnsHandle where
  read := ensRead
  left handle := handle.plain.bytes.length
  read_left handle len got := by
    obtain ⟨bytes, later, _⟩ := ensRead_filled got
    rw [bytes, later, ← List.length_append, Handle.read_bytes]

abbrev EncodedStream := BufferedStream EnsHandle

def encodedStream (is : BaseStream) (sound : is.Sound) (encoding : Encoding) : EncodedStream :=
  ⟨[], streamBufSize, ⟨is, sound, none, 0, encoding⟩, false⟩

namespace EncodedStream

def plain (stream : EncodedStream) : BaseStream := ⟨stream.unread, stream.size, stream.handle.plain, stream.iseos⟩

theorem doUpdate_encoded (stream : EncodedStream) :
    doUpdate stream =
      let (got, handle) := ensRead stream.handle stream.size
      if got = [] then { stream with unread := [], handle := handle, iseos := true }
      else { stream with unread := got, handle := handle } := rfl

theorem doUpdate_cases (stream : EncodedStream) (going : ¬ stream.iseos = true) :
    (doUpdate stream).iseos = true ∧ (doUpdate stream).unread = [] ∧ (ensRead stream.handle stream.size).1 = [] ∨
      (doUpdate stream).iseos = false ∧ plain (doUpdate stream) = doUpdate stream.plain ∧
        (doUpdate stream).handle.Fits := by
  rw [doUpdate_encoded]
  split
  next got handle read =>
    split
    next none => exact .inl ⟨rfl, rfl, by rw [read]; exact none⟩
    next filled =>
      have present : (ensRead stream.handle stream.size).1 ≠ [] := by
        rw [read]
        exact filled
      have same := ensRead_filled present
      rw [read] at same
      obtain ⟨bytes, later, fits⟩ := same
      refine .inr ⟨by simpa using going, ?_, fits⟩
      dsimp only at bytes later
      rw [doUpdate_base]
      simp only [plain, ← bytes, ← later, if_neg filled]

/-- The stream and one with the pieces as its source. Their sources may differ once they have ended. -/
structure Simulates (stream : EncodedStream) (base : BaseStream) : Prop where
  unread : base.unread = stream.unread
  size : base.size = stream.size
  iseos : base.iseos = stream.iseos
  room : 0 < stream.size
  going : ¬ stream.iseos = true → base.handle = stream.handle.plain ∧ stream.handle.Fits

theorem Simulates.plain_eq {stream : EncodedStream} {base : BaseStream} (same : stream.Simulates base)
    (going : ¬ stream.iseos = true) : base = stream.plain := by
  obtain ⟨unread, size, handle, iseos⟩ := base
  obtain ⟨sameUnread, sameSize, sameIseos, _, sameHandle⟩ := same
  have handles := (sameHandle going).1
  dsimp only at sameUnread sameSize sameIseos handles
  rw [plain, sameUnread, sameSize, sameIseos, handles]

theorem Simulates.update {stream : EncodedStream} {base : BaseStream} (same : stream.Simulates base)
    (going : ¬ stream.iseos = true) : Simulates (doUpdate stream) (doUpdate base) := by
  have room : 0 < (doUpdate stream).size := by
    rw [doUpdate_size]
    exact same.room
  have base_eq := same.plain_eq going
  rcases doUpdate_cases stream going with ⟨ended, streamEnds, none⟩ | ⟨more, plain, fits⟩
  · have stopped := ensRead_empty (same.going going).2 same.room none
    subst base_eq
    have ends : doUpdate stream.plain =
        { stream.plain with unread := [], handle := (stream.handle.plain.read stream.size).2, iseos := true } := by
      rw [doUpdate_base]
      simp only [EncodedStream.plain, stopped, ↓reduceIte]
    rw [ends]
    exact ⟨streamEnds.symm, (doUpdate_size stream).symm, ended.symm, room, fun going => (going ended).elim⟩
  · rw [base_eq, ← plain]
    exact ⟨rfl, rfl, rfl, room, fun _ => ⟨rfl, fits⟩⟩

theorem Simulates.take {stream : EncodedStream} {base : BaseStream} (same : stream.Simulates base)
    (left : List UInt8) : Simulates { stream with unread := left } { base with unread := left } :=
  ⟨rfl, same.size, same.iseos, same.room, same.going⟩

theorem isGetc_simulates {stream : EncodedStream} {base : BaseStream} (same : stream.Simulates base) :
    (isGetc stream).1 = (isGetc base).1 ∧ Simulates (isGetc stream).2 (isGetc base).2 := by
  have refilled : Simulates (if !stream.iseos && stream.unread.isEmpty then doUpdate stream else stream)
      (if !base.iseos && base.unread.isEmpty then doUpdate base else base) := by
    rw [same.iseos, same.unread]
    split
    next refill =>
      simp only [Bool.and_eq_true, Bool.not_eq_true'] at refill
      exact same.update (by simp [refill.1])
    next => exact same
  rw [isGetc, isGetc]
  generalize (if !stream.iseos && stream.unread.isEmpty then doUpdate stream else stream) = stream' at refilled ⊢
  generalize (if !base.iseos && base.unread.isEmpty then doUpdate base else base) = base' at refilled ⊢
  by_cases ended : stream'.iseos = true
  · rw [if_pos ended, if_pos (refilled.iseos.trans ended)]
    exact ⟨rfl, refilled⟩
  · rw [if_neg ended, if_neg (by rw [refilled.iseos]; exact ended), refilled.unread]
    exact ⟨rfl, refilled.take _⟩

theorem strmyISgetsFrom_simulates {stream : EncodedStream} {s : List UInt8} {base : BaseStream}
    (same : stream.Simulates base) : (strmyISgetsFrom stream s).1 = (strmyISgetsFrom base s).1 ∧
      Simulates (strmyISgetsFrom stream s).2 (strmyISgetsFrom base s).2 := by
  fun_induction strmyISgetsFrom stream s generalizing base with
  | case1 stream s ended =>
      rw [strmyISgetsFrom.eq_def base, if_pos (same.iseos.trans ended)]
      exact ⟨rfl, same⟩
  | case2 stream s going empty ih =>
      rw [strmyISgetsFrom.eq_def base, if_neg (by rw [same.iseos]; exact going), dif_pos (same.unread.trans empty)]
      exact ih (same.update going)
  | case3 stream s going filled cr lf =>
      rw [strmyISgetsFrom.eq_def base, if_neg (by rw [same.iseos]; exact going), dif_neg (by rw [same.unread]; exact filled),
        if_pos cr, if_pos (by rw [same.unread]; exact lf), same.unread]
      exact ⟨rfl, same.take _⟩
  | case4 stream s going filled cr other =>
      rw [strmyISgetsFrom.eq_def base, if_neg (by rw [same.iseos]; exact going), dif_neg (by rw [same.unread]; exact filled),
        if_pos cr, if_neg (by rw [same.unread]; exact other)]
      exact ⟨rfl, same⟩
  | case5 stream s going filled plain before left found =>
      rw [strmyISgetsFrom.eq_def base, if_neg (by rw [same.iseos]; exact going), dif_neg (by rw [same.unread]; exact filled),
        if_neg plain, same.unread, found]
      exact ⟨rfl, same.take _⟩
  | case6 stream s going filled plain before lineEnd left found other ih =>
      rw [strmyISgetsFrom.eq_def base, if_neg (by rw [same.iseos]; exact going), dif_neg (by rw [same.unread]; exact filled),
        if_neg plain, same.unread, found]
      simp only [other, ↓reduceIte]
      exact ih (same.take _)
  | case7 stream s going filled plain before found ih =>
      rw [strmyISgetsFrom.eq_def base, if_neg (by rw [same.iseos]; exact going), dif_neg (by rw [same.unread]; exact filled),
        if_neg plain, same.unread, found]
      exact ih (same.take _)

end EncodedStream

section Runs

inductive EncodedCall where
  | getc
  | mygets

def EncodedCall.call : EncodedCall → Call
  | .getc => .getc
  | .mygets => .mygets

namespace EncodedStream

def call (stream : EncodedStream) : EncodedCall → Answer × EncodedStream
  | .getc => (.char (isGetc stream).1, (isGetc stream).2)
  | .mygets => (.line (strmyISgets stream).1, (strmyISgets stream).2)

def trace (stream : EncodedStream) : List EncodedCall → List (Call × Answer × Bool)
  | [] => []
  | c :: calls => (c.call, (stream.call c).1, (stream.call c).2.iseos) :: trace (stream.call c).2 calls

theorem call_simulates {stream : EncodedStream} {base : BaseStream} (same : stream.Simulates base) (c : EncodedCall) :
    (stream.call c).1 = (W3m.call base c.call).1 ∧ Simulates (stream.call c).2 (W3m.call base c.call).2 := by
  cases c with
  | getc =>
      obtain ⟨answer, after⟩ := isGetc_simulates same
      exact ⟨congrArg Answer.char answer, after⟩
  | mygets =>
      obtain ⟨answer, after⟩ := strmyISgetsFrom_simulates same
      exact ⟨congrArg Answer.line answer, after⟩

theorem trace_simulates {stream : EncodedStream} {base : BaseStream} (same : stream.Simulates base)
    (calls : List EncodedCall) : stream.trace calls = W3m.trace base (calls.map EncodedCall.call) := by
  induction calls generalizing stream base with
  | nil => rfl
  | cons c calls ih =>
      obtain ⟨answer, after⟩ := call_simulates same c
      rw [trace, List.map_cons, W3m.trace, answer, ih after, after.iseos]

end EncodedStream

theorem encodedStream_simulates (is : BaseStream) (sound : is.Sound) (encoding : Encoding) :
    (encodedStream is sound encoding).Simulates
      (newEncodedStream ⟨filledLines (decodings encoding is.rest), filledLines_nonempty⟩) :=
  ⟨rfl, rfl, rfl, Nat.succ_pos _, fun _ => ⟨rfl, Nat.le_refl 0⟩⟩

theorem encodedStream_filled (is : BaseStream) (sound : is.Sound) (encoding : Encoding) (calls : List EncodedCall) :
    WholeStream (filledLines (decodings encoding is.rest)).flatten ((encodedStream is sound encoding).trace calls) := by
  rw [EncodedStream.trace_simulates (encodedStream_simulates is sound encoding)]
  have whole := trace_whole_iff
    (Source.opened_sound (.encoded ⟨filledLines (decodings encoding is.rest), filledLines_nonempty⟩))
    (calls.map EncodedCall.call)
  apply whole.mpr
  apply Run.admitted_of_inputs
  intro c member base
  obtain ⟨encoded, _, rfl⟩ := List.mem_map.mp member
  cases encoded with
  | getc => trivial
  | mygets => trivial

theorem wholeStream_unique {rest other : List UInt8} {stream : EncodedStream}
    (whole : WholeStream rest (stream.trace (List.replicate (rest.length + 1) .getc)))
    (same : WholeStream other (stream.trace (List.replicate (rest.length + 1) .getc))) : other = rest := by
  induction rest generalizing other stream with
  | nil =>
      obtain ⟨_, _, _, ends, _⟩ := whole
      obtain ⟨_, _, _, delivers, _⟩ := same
      generalize (stream.call .getc).1 = answer at ends delivers
      generalize (stream.call .getc).2.iseos = ended at ends delivers
      cases ends with
      | getc _ _ shape => cases shape
      | getcEnd =>
          cases delivers with
          | getcEnd none => exact none
  | cons c rest ih =>
      obtain ⟨_, _, parts, first, _, later⟩ := whole
      obtain ⟨_, _, otherParts, delivers, _, otherLater⟩ := same
      generalize (stream.call .getc).1 = answer at first delivers
      generalize (stream.call .getc).2.iseos = ended at first delivers
      cases first with
      | getc _ _ _ =>
          obtain ⟨rfl, rfl⟩ := List.cons.inj parts
          cases delivers with
          | getc _ _ _ =>
              rw [otherParts, ih later otherLater]
              rfl
      | getcEnd none => cases none

def StopsEarly (lines : List (List UInt8)) : Prop :=
  ∃ before after line, lines = before ++ [] :: after ∧ line ∈ after ∧ line ≠ []

theorem stopsEarly_empty {lines : List (List UInt8)} : StopsEarly ([] :: lines) ↔ ∃ line ∈ lines, line ≠ [] := by
  constructor
  · rintro ⟨before, after, line, parts, member, filled⟩
    refine ⟨line, ?_, filled⟩
    cases before with
    | nil => rwa [(List.cons.inj parts).2]
    | cons _ before =>
        rw [(List.cons.inj parts).2]
        exact List.mem_append_right _ (List.mem_cons_of_mem _ member)
  · rintro ⟨line, member, filled⟩
    exact ⟨[], lines, line, rfl, member, filled⟩

theorem stopsEarly_filled {line : List UInt8} (filled : line ≠ []) {lines : List (List UInt8)} :
    StopsEarly (line :: lines) ↔ StopsEarly lines := by
  constructor
  · rintro ⟨before, after, later, parts, found⟩
    cases before with
    | nil => exact (filled (List.cons.inj parts).1).elim
    | cons _ before => exact ⟨before, after, later, (List.cons.inj parts).2, found⟩
  · rintro ⟨before, after, later, rfl, found⟩
    exact ⟨line :: before, after, later, rfl, found⟩

theorem filledLines_flatten_iff (lines : List (List UInt8)) :
    lines.flatten = (filledLines lines).flatten ↔ ¬ StopsEarly lines := by
  induction lines with
  | nil =>
      refine iff_of_true rfl ?_
      rintro ⟨before, after, _, parts, _⟩
      cases before <;> cases parts
  | cons line lines ih =>
      by_cases empty : line = []
      · rw [empty, stopsEarly_empty]
        simp [filledLines]
      · have more : filledLines (line :: lines) = line :: filledLines lines :=
          List.takeWhile_cons_of_pos (by simpa using empty)
        rw [stopsEarly_filled empty, ← ih, more, List.flatten_cons, List.flatten_cons, List.append_cancel_left_eq]

theorem wholeStream_flatten {is : BaseStream} {sound : is.Sound} {encoding : Encoding} {rest : List UInt8}
    (whole : ∀ calls, WholeStream rest ((encodedStream is sound encoding).trace calls)) :
    rest = (filledLines (decodings encoding is.rest)).flatten :=
  wholeStream_unique (encodedStream_filled is sound encoding _) (whole _)

/-- The decodings of well-formed lines are what they encode, and a stream delivers the
decodings of all lines unless one without bytes stops it early. -/
theorem encodedStream_whole_iff (is : BaseStream) (sound : is.Sound) (encoding : Encoding) :
    (∀ line data, Encodes encoding line data → decodeLine encoding line = data) ∧
      ((∀ calls, WholeStream (decodings encoding is.rest).flatten ((encodedStream is sound encoding).trace calls)) ↔
        ¬ StopsEarly (decodings encoding is.rest)) := by
  refine ⟨fun _ _ => decodeLine_encodes, ?_⟩
  rw [← filledLines_flatten_iff]
  constructor
  · exact wholeStream_flatten
  · intro same calls
    rw [same]
    exact encodedStream_filled is sound encoding calls

theorem decodeLine_letter : decodeLine .base64 [81, 81, 61, 61, 10] = [65] :=
  decodeLine_base64 (.twicePadded (show 16 < 64 by decide) (show 16 < 64 by decide))
    (show IsLineEnd [10] by simp [IsLineEnd])

theorem decodeLine_blank : decodeLine .base64 [10] = [] :=
  decodeLine_base64 .nil (show IsLineEnd [10] by simp [IsLineEnd])

/-- `QQ==` on two lines, the second one with CRLF -/
theorem encodedStream_whole_lines :
    decodings .base64 [81, 81, 61, 61, 10, 81, 81, 61, 61, 13, 10] = [[65], [65]] ∧
      ∀ calls, WholeStream [65, 65]
        ((encodedStream (newStrStream [81, 81, 61, 61, 10, 81, 81, 61, 61, 13, 10]) (Source.opened_sound (.str _))
          .base64).trace calls) := by
  have letterCrLf : decodeLine .base64 [81, 81, 61, 61, 13, 10] = [65] :=
    decodeLine_base64 (.twicePadded (show 16 < 64 by decide) (show 16 < 64 by decide))
      (show IsLineEnd [13, 10] by simp [IsLineEnd])
  have lines : decodings .base64 [81, 81, 61, 61, 10, 81, 81, 61, 61, 13, 10] = [[65], [65]] := by
    rw [decodings, bodyLines, dif_neg (by simp)]
    have first : nextLine [81, 81, 61, 61, 10, 81, 81, 61, 61, 13, 10] = [81, 81, 61, 61, 10] := by decide
    have second : nextLine [81, 81, 61, 61, 13, 10] = [81, 81, 61, 61, 13, 10] := by decide
    have behind : ([81, 81, 61, 61, 10, 81, 81, 61, 61, 13, 10] : List UInt8).drop
        ([81, 81, 61, 61, 10] : List UInt8).length = [81, 81, 61, 61, 13, 10] := rfl
    rw [first, behind, bodyLines, dif_neg (by simp), second, List.drop_length, bodyLines, dif_pos rfl, List.map_cons,
      List.map_singleton, decodeLine_letter, letterCrLf]
  refine ⟨lines, ?_⟩
  have whole := (encodedStream_whole_iff (newStrStream [81, 81, 61, 61, 10, 81, 81, 61, 61, 13, 10])
    (Source.opened_sound (.str _)) .base64).2
  have rest : (newStrStream [81, 81, 61, 61, 10, 81, 81, 61, 61, 13, 10]).rest =
      [81, 81, 61, 61, 10, 81, 81, 61, 61, 13, 10] := Source.opened_rest (.str _)
  rw [rest, lines] at whole
  apply whole.mpr
  rw [stopsEarly_filled (by simp), stopsEarly_filled (by simp)]
  rintro ⟨before, _, _, parts, _⟩
  cases before <;> cases parts

/-- A blank line, and `QQ==` behind it. -/
theorem encodedStream_blank :
    decodings .base64 [10, 81, 81, 61, 61, 10] = [[], [65]] ∧
      ¬ ∀ calls, WholeStream [65]
        ((encodedStream (newStrStream [10, 81, 81, 61, 61, 10]) (Source.opened_sound (.str _)) .base64).trace
        calls) := by
  have lines : decodings .base64 [10, 81, 81, 61, 61, 10] = [[], [65]] := by
    rw [decodings, bodyLines, dif_neg (by simp)]
    have first : nextLine [10, 81, 81, 61, 61, 10] = [10] := by decide
    have second : nextLine [81, 81, 61, 61, 10] = [81, 81, 61, 61, 10] := by decide
    have behind : ([10, 81, 81, 61, 61, 10] : List UInt8).drop ([10] : List UInt8).length = [81, 81, 61, 61, 10] := rfl
    rw [first, behind, bodyLines, dif_neg (by simp), second, List.drop_length, bodyLines, dif_pos rfl, List.map_cons,
      List.map_singleton, decodeLine_blank, decodeLine_letter]
  refine ⟨lines, fun whole => ?_⟩
  have all := wholeStream_flatten whole
  have rest : (newStrStream [10, 81, 81, 61, 61, 10]).rest = [10, 81, 81, 61, 61, 10] := Source.opened_rest (.str _)
  rw [rest, lines] at all
  cases all

end Runs

end KcnTools.W3m
