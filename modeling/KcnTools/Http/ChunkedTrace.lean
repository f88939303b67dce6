import KcnTools.Lib.Run
import KcnTools.Http.ChunkedReader

/-!
The chunked reader with a record of its calls: the block lengths that `decompress_data`,
`add_fragment` and `kill_buffer_data` get, and what size lines put into `chunk_remaining`. Without
the record it is the reader itself.
-/

namespace KcnTools.Http

open Cache (wrapInt)

structure TracedConnection where
  conn : HttpConnection
  received : Int
  /-- The lengths of blocks, each with the number of bytes that were buffered at the call -/
  blocks : List (Int × Nat)
  /-- What the size lines were read as -/
  sizes : List Int

namespace TracedConnection

def block (t : TracedConnection) (len : Int) : TracedConnection :=
  { t with blocks := t.blocks ++ [(len, t.conn.rb.data.length)] }

def kill (t : TracedConnection) (n : Int) : TracedConnection :=
  { t.block n with conn := { t.conn with rb := killBufferData t.conn.rb n } }

def setRemaining (t : TracedConnection) (remaining : Int) : TracedConnection :=
  { t with conn := { t.conn with chunkRemaining := remaining } }

end TracedConnection

inductive TracedTurn where
  | again (t : TracedConnection) (totalDataLen : Int)
  | stop (t : TracedConnection) (ret : Int)

def TracedTurn.erase : TracedTurn → Turn
  | .again t totalDataLen => .again t.conn totalDataLen
  | .stop t ret => .stop t.conn ret

def tracedBreak (t : TracedConnection) (totalDataLen : Int) : TracedTurn :=
  .stop t (if totalDataLen = 0 then 0 else 1)

def tracedDataEnd (t : TracedConnection) (totalDataLen : Int) : TracedTurn :=
  let l := isLineInBuffer 0 t.conn.rb.data
  if l = 0 then tracedBreak t totalDataLen
  else if l = -1 then .stop t (-1)
  else if l ≤ 2 then .stop (t.kill l) 2
  else .again (t.kill l) totalDataLen

def storedSize (conn : HttpConnection) : Option Int :=
  let l := isLineInBuffer 0 conn.rb.data
  let text := conn.rb.data ++ conn.rb.behind
  let n := strtol text
  if l = 0 ∨ l = -1 ∨ n.error ∨ n.rest.headD 0 = 0 ∨ n.rest.length = text.length then none
  else some (if wrapInt n.value = 0 then chunkZeroSize else wrapInt n.value)

def tracedSize (t : TracedConnection) (totalDataLen : Int) : TracedTurn :=
  let l := isLineInBuffer 0 t.conn.rb.data
  if l = 0 then tracedBreak t totalDataLen
  else
    match storedSize t.conn with
    | none => .stop t (-1)
    | some n => .again { (t.kill l).setRemaining n with sizes := t.sizes ++ [n] } totalDataLen

def tracedNewline (t : TracedConnection) (totalDataLen : Int) : TracedTurn :=
  match t.conn.rb.data with
  | [] => tracedBreak t totalDataLen
  | first :: rest =>
      if first = 10 then .again ((t.kill 1).setRemaining chunkSize) totalDataLen
      else if first ≠ 13 ∨ (rest ≠ [] ∧ rest.head? ≠ some 10) then .stop t (-1)
      else if rest = [] then tracedBreak t totalDataLen
      else .again ((t.kill 2).setRemaining chunkSize) totalDataLen

def tracedHandOver (t : TracedConnection) : TracedConnection :=
  let len := min t.conn.chunkRemaining t.conn.rb.data.length
  let t := { t with received := t.received + len }
  -- `decompress_data` without content encoding: the length of the data is that of the block
  let (conn, data) := decompressData t.conn len
  let t := { t.block len with conn }
  let t := t.block len
  let t := { t with conn := { t.conn with
    offset := t.conn.offset + len
    fragments := t.conn.fragments ++ [(t.conn.offset, data)] } }
  t.kill len

def tracedChunkData (t : TracedConnection) (totalDataLen : Int) : TracedTurn :=
  if t.conn.chunkRemaining = chunkZeroSize then
    .again ((tracedHandOver (t.setRemaining 0)).setRemaining chunkDataEnd) totalDataLen
  else
    let total := totalDataLen + min t.conn.chunkRemaining t.conn.rb.data.length
    let t := tracedHandOver t
    if t.conn.chunkRemaining = 0 then tracedNewline t total else tracedBreak t total

def tracedTurn (t : TracedConnection) (totalDataLen : Int) : TracedTurn :=
  if t.conn.chunkRemaining = chunkDataEnd then tracedDataEnd t totalDataLen
  else if t.conn.chunkRemaining = chunkSize then tracedSize t totalDataLen
  else tracedChunkData t totalDataLen

section Erase

/-! The record changes nothing. -/

theorem tracedDataEnd_erase (t : TracedConnection) (totalDataLen : Int) :
    (tracedDataEnd t totalDataLen).erase = dataEndTurn t.conn totalDataLen := by
  rw [tracedDataEnd, dataEndTurn]
  dsimp only
  split
  · rfl
  · split
    · rfl
    · split <;> rfl

theorem tracedSize_erase (t : TracedConnection) (totalDataLen : Int) :
    (tracedSize t totalDataLen).erase = chunkSizeTurn t.conn totalDataLen := by
  rw [tracedSize, chunkSizeTurn, storedSize]
  dsimp only
  by_cases none : isLineInBuffer 0 t.conn.rb.data = 0
  · rw [if_pos none, if_pos none]
    rfl
  · rw [if_neg none, if_neg none]
    by_cases invalid : isLineInBuffer 0 t.conn.rb.data = -1
    · rw [if_pos invalid, if_pos (.inr (.inl invalid))]
      rfl
    · rw [if_neg invalid]
      generalize strtol (t.conn.rb.data ++ t.conn.rb.behind) = n
      by_cases unended : n.error = true ∨ n.rest.headD 0 = 0
      · rw [if_pos unended, if_pos (.inr (.inr (by tauto)))]
        rfl
      · rw [if_neg unended]
        by_cases unread : n.rest.length = (t.conn.rb.data ++ t.conn.rb.behind).length
        · rw [if_pos unread, if_pos (by tauto)]
          rfl
        · rw [if_neg unread, if_neg (by tauto)]
          rfl

theorem tracedNewline_erase (t : TracedConnection) (totalDataLen : Int) :
    (tracedNewline t totalDataLen).erase = newlineTurn t.conn totalDataLen := by
  rw [tracedNewline, newlineTurn]
  cases t.conn.rb.data with
  | nil => rfl
  | cons first rest =>
      dsimp only
      split
      · rfl
      · split
        · rfl
        · split <;> rfl

theorem tracedHandOver_conn (t : TracedConnection) : (tracedHandOver t).conn = handOver t.conn := rfl

theorem tracedTurn_erase (t : TracedConnection) (totalDataLen : Int) :
    (tracedTurn t totalDataLen).erase = chunkTurn t.conn totalDataLen := by
  rw [tracedTurn, chunkTurn]
  split
  · exact tracedDataEnd_erase t totalDataLen
  · split
    · exact tracedSize_erase t totalDataLen
    · rw [tracedChunkData, chunkDataTurn]
      split
      · rfl
      · dsimp only
        rw [tracedHandOver_conn]
        split
        · rw [tracedNewline_erase, tracedHandOver_conn]
        · rfl

end Erase

section Steps

inductive Phase where
  | waiting
  | reading (totalDataLen : Int)
  | finished

structure ReaderState where
  traced : TracedConnection
  phase : Phase

/-- A network read, or one turn of the loop in the call that follows it -/
inductive ReaderEvent where
  | receive (arrival : Arrival)
  | turn

def readerStep (s : ReaderState) : ReaderEvent → Option ReaderState
  | .receive arrival =>
      match s.phase with
      | .waiting => some ⟨{ s.traced with conn := s.traced.conn.arrive arrival }, .reading 0⟩
      | _ => none
  | .turn =>
      match s.phase with
      | .reading totalDataLen =>
          match tracedTurn s.traced totalDataLen with
          | .again t totalDataLen => some ⟨t, .reading totalDataLen⟩
          | .stop t ret => some ⟨t, if ret = 0 ∨ ret = 1 then .waiting else .finished⟩
      | _ => none

theorem chunkLoop_turns (turns : Nat) (t : TracedConnection) (totalDataLen : Int) :
    ∃ count state, Run.run readerStep ⟨t, .reading totalDataLen⟩ (List.replicate count .turn) = some state ∧
      state.traced.conn = (chunkLoop turns t.conn totalDataLen).1 := by
  induction turns generalizing t totalDataLen with
  | zero => exact ⟨0, _, rfl, rfl⟩
  | succ turns ih =>
      have erased := tracedTurn_erase t totalDataLen
      rw [chunkLoop]
      cases turn : tracedTurn t totalDataLen with
      | stop after ret =>
          rw [turn] at erased
          refine ⟨1, ⟨after, if ret = 0 ∨ ret = 1 then .waiting else .finished⟩, ?_, ?_⟩
          · rw [List.replicate_one, Run.run_cons, readerStep]
            simp only [turn, Option.bind_some, Run.run_nil]
          · rw [← erased]
            rfl
      | again after total =>
          rw [turn] at erased
          obtain ⟨count, state, ran, same⟩ := ih after total
          refine ⟨count + 1, state, ?_, ?_⟩
          · rw [List.replicate_succ, Run.run_cons, readerStep]
            simp only [turn, Option.bind_some]
            exact ran
          · rw [same, ← erased]
            rfl

def SizeInRange (n : Int) : Prop := 0 ≤ n ∨ n = chunkZeroSize

def SizeFits (s : ReaderState) : ReaderEvent → Prop
  | .receive _ => True
  | .turn => ∀ totalDataLen, s.phase = .reading totalDataLen → s.traced.conn.chunkRemaining = chunkSize →
      ∀ n, storedSize s.traced.conn = some n → SizeInRange n

structure TraceSafe (t : TracedConnection) : Prop where
  blocks : ∀ block ∈ t.blocks, 0 ≤ block.1 ∧ block.1 ≤ block.2
  sizes : ∀ n ∈ t.sizes, SizeInRange n

def InState (remaining : Int) : Prop := 0 ≤ remaining ∨ remaining = chunkDataEnd ∨ remaining = chunkZeroSize ∨ remaining = chunkSize

structure Sound (t : TracedConnection) : Prop extends TraceSafe t where
  state : InState t.conn.chunkRemaining

theorem isLineInBuffer_bounds (l : Int) (data : List UInt8) (found : isLineInBuffer l data ≠ 0)
    (valid : isLineInBuffer l data ≠ -1) :
    l < isLineInBuffer l data ∧ isLineInBuffer l data ≤ l + data.length := by
  induction data generalizing l with
  | nil => exact absurd rfl found
  | cons a0 rest ih =>
      rw [isLineInBuffer] at found valid ⊢
      rw [List.length_cons]
      by_cases lf : a0 = 10
      · rw [if_pos lf]
        omega
      · rw [if_neg lf] at found valid ⊢
        by_cases crlf : a0 = 13 ∧ rest.head? = some 10
        · rw [if_pos crlf]
          have written : rest ≠ [] := by
            rintro rfl
            cases crlf.2
          have length := List.length_pos_iff.mpr written
          omega
        · rw [if_neg crlf] at found valid ⊢
          by_cases cr : a0 = 13 ∧ rest = []
          · rw [if_pos cr] at found
            exact absurd rfl found
          · rw [if_neg cr] at found valid ⊢
            by_cases control : a0 < 32
            · rw [if_pos control] at valid
              exact absurd rfl valid
            · rw [if_neg control] at found valid ⊢
              have later := ih (l + 1) found valid
              omega

def Forward (before after : TracedConnection) : Prop :=
  before.conn.offset ≤ after.conn.offset ∧ before.received ≤ after.received

theorem Forward.refl (t : TracedConnection) : Forward t t := ⟨Int.le_refl _, Int.le_refl _⟩

def TracedTurn.traced : TracedTurn → TracedConnection
  | .again t _ => t
  | .stop t _ => t

theorem Sound.block {t : TracedConnection} (sound : Sound t) {len : Int} (lower : 0 ≤ len)
    (upper : len ≤ t.conn.rb.data.length) : Sound (t.block len) := by
  refine ⟨⟨?_, sound.sizes⟩, sound.state⟩
  intro block member
  rcases List.mem_append.mp member with earlier | this
  · exact sound.blocks block earlier
  · rw [List.mem_singleton.mp this]
    exact ⟨lower, upper⟩

theorem Sound.kill {t : TracedConnection} (sound : Sound t) {n : Int} (lower : 0 ≤ n)
    (upper : n ≤ t.conn.rb.data.length) : Sound (t.kill n) := by
  have blocked := sound.block lower upper
  exact ⟨⟨blocked.blocks, blocked.sizes⟩, blocked.state⟩

theorem Sound.setRemaining {t : TracedConnection} (sound : Sound t) {remaining : Int} (state : InState remaining) :
    Sound (t.setRemaining remaining) := ⟨⟨sound.blocks, sound.sizes⟩, state⟩

theorem tracedDataEnd_sound {t : TracedConnection} (sound : Sound t) (totalDataLen : Int) :
    Sound (tracedDataEnd t totalDataLen).traced ∧ Forward t (tracedDataEnd t totalDataLen).traced := by
  rw [tracedDataEnd]
  by_cases none : isLineInBuffer 0 t.conn.rb.data = 0
  · rw [if_pos none]
    exact ⟨sound, Forward.refl t⟩
  · rw [if_neg none]
    by_cases invalid : isLineInBuffer 0 t.conn.rb.data = -1
    · rw [if_pos invalid]
      exact ⟨sound, Forward.refl t⟩
    · rw [if_neg invalid]
      have bounds := isLineInBuffer_bounds 0 t.conn.rb.data none invalid
      have killed : Sound (t.kill (isLineInBuffer 0 t.conn.rb.data)) := sound.kill (by omega) (by omega)
      split
      · exact ⟨killed, Forward.refl t⟩
      · exact ⟨killed, Forward.refl t⟩

theorem tracedSize_sound {t : TracedConnection} (sound : Sound t)
    (fits : ∀ n, storedSize t.conn = some n → SizeInRange n) (totalDataLen : Int) :
    Sound (tracedSize t totalDataLen).traced ∧ Forward t (tracedSize t totalDataLen).traced := by
  rw [tracedSize]
  by_cases none : isLineInBuffer 0 t.conn.rb.data = 0
  · rw [if_pos none]
    exact ⟨sound, Forward.refl t⟩
  · rw [if_neg none]
    cases stored : storedSize t.conn with
    | none => exact ⟨sound, Forward.refl t⟩
    | some n =>
        have range := fits n stored
        have valid : isLineInBuffer 0 t.conn.rb.data ≠ -1 := by
          intro invalid
          rw [storedSize, if_pos (.inr (.inl invalid))] at stored
          cases stored
        have bounds := isLineInBuffer_bounds 0 t.conn.rb.data none valid
        have killed : Sound (t.kill (isLineInBuffer 0 t.conn.rb.data)) := sound.kill (by omega) (by omega)
        refine ⟨⟨⟨killed.blocks, ?_⟩, ?_⟩, Forward.refl t⟩
        · intro size member
          rcases List.mem_append.mp member with earlier | this
          · exact sound.sizes size earlier
          · rw [List.mem_singleton.mp this]
            exact range
        · rcases range with count | zero
          · exact .inl count
          · exact .inr (.inr (.inl zero))

theorem tracedNewline_sound {t : TracedConnection} (sound : Sound t) (totalDataLen : Int) :
    Sound (tracedNewline t totalDataLen).traced ∧ Forward t (tracedNewline t totalDataLen).traced := by
  rw [tracedNewline]
  have atSize : InState chunkSize := .inr (.inr (.inr rfl))
  cases buffered : t.conn.rb.data with
  | nil => exact ⟨sound, Forward.refl t⟩
  | cons first rest =>
      dsimp only
      split
      · exact ⟨(sound.kill (by decide) (by rw [buffered, List.length_cons]; omega)).setRemaining atSize, Forward.refl t⟩
      · split
        · exact ⟨sound, Forward.refl t⟩
        · by_cases last : rest = []
          · rw [if_pos last]
            exact ⟨sound, Forward.refl t⟩
          · have length := List.length_pos_iff.mpr last
            rw [if_neg last]
            exact ⟨(sound.kill (by decide) (by rw [buffered, List.length_cons]; omega)).setRemaining atSize,
              Forward.refl t⟩

theorem tracedHandOver_sound {t : TracedConnection} (sound : Sound t) (count : 0 ≤ t.conn.chunkRemaining) :
    Sound (tracedHandOver t) ∧ Forward t (tracedHandOver t) := by
  have lower : 0 ≤ min t.conn.chunkRemaining t.conn.rb.data.length := by omega
  have upper : min t.conn.chunkRemaining t.conn.rb.data.length ≤ (t.conn.rb.data.length : Int) := by omega
  have once := sound.block lower upper
  have twice := once.block lower upper
  have thrice := twice.block lower upper
  refine ⟨⟨⟨thrice.blocks, sound.sizes⟩, .inl ?_⟩, ?_, ?_⟩
  · simp only [tracedHandOver, decompressData, TracedConnection.kill, TracedConnection.block]
    split <;> omega
  · simp only [tracedHandOver, decompressData, TracedConnection.kill, TracedConnection.block]
    omega
  · simp only [tracedHandOver, decompressData, TracedConnection.kill, TracedConnection.block]
    omega

theorem tracedChunkData_sound {t : TracedConnection} (sound : Sound t) (notEnd : t.conn.chunkRemaining ≠ chunkDataEnd)
    (notSize : t.conn.chunkRemaining ≠ chunkSize) (totalDataLen : Int) :
    Sound (tracedChunkData t totalDataLen).traced ∧ Forward t (tracedChunkData t totalDataLen).traced := by
  rw [tracedChunkData]
  split
  · have zero := sound.setRemaining (.inl (Int.le_refl 0) : InState 0)
    have handed := tracedHandOver_sound zero (Int.le_refl 0)
    exact ⟨handed.1.setRemaining (.inr (.inl rfl)), handed.2⟩
  · rename_i notZero
    have count : 0 ≤ t.conn.chunkRemaining := by
      rcases sound.state with count | atEnd | zero | size
      · exact count
      · exact absurd atEnd notEnd
      · exact absurd zero notZero
      · exact absurd size notSize
    have handed := tracedHandOver_sound sound count
    dsimp only
    split
    · have after := tracedNewline_sound handed.1 (totalDataLen + min t.conn.chunkRemaining t.conn.rb.data.length)
      exact ⟨after.1, Int.le_trans handed.2.1 after.2.1, Int.le_trans handed.2.2 after.2.2⟩
    · exact handed

theorem tracedTurn_sound {t : TracedConnection} (sound : Sound t)
    (fits : t.conn.chunkRemaining = chunkSize → ∀ n, storedSize t.conn = some n → SizeInRange n) (totalDataLen : Int) :
    Sound (tracedTurn t totalDataLen).traced ∧ Forward t (tracedTurn t totalDataLen).traced := by
  rw [tracedTurn]
  split
  · exact tracedDataEnd_sound sound totalDataLen
  · rename_i notEnd
    split
    · rename_i size
      exact tracedSize_sound sound (fits size) totalDataLen
    · rename_i notSize
      exact tracedChunkData_sound sound notEnd notSize totalDataLen

theorem readerStep_sound {state next : ReaderState} {event : ReaderEvent} (sound : Sound state.traced)
    (fits : SizeFits state event) (stepped : readerStep state event = some next) :
    Sound next.traced ∧ Forward state.traced next.traced := by
  cases event with
  | receive arrival =>
      rw [readerStep] at stepped
      split at stepped
      · rw [Option.some.injEq] at stepped
        rw [← stepped]
        exact ⟨⟨⟨sound.blocks, sound.sizes⟩, sound.state⟩, Forward.refl _⟩
      · cases stepped
  | turn =>
      rw [readerStep] at stepped
      split at stepped
      · rename_i totalDataLen reading
        have after := tracedTurn_sound sound (fits totalDataLen reading) totalDataLen
        split at stepped
        · rename_i turn
          rw [turn] at after
          rw [Option.some.injEq] at stepped
          rw [← stepped]
          exact after
        · rename_i turn
          rw [turn] at after
          rw [Option.some.injEq] at stepped
          rw [← stepped]
          exact after
      · cases stepped

def startReader (offset received : Int) (rb : ReadBuffer) : ReaderState :=
  ⟨⟨⟨chunkSize, offset, [], rb⟩, received, [], []⟩, .reading 0⟩

/-- In all states of a run the blocks and sizes are in range, and no step goes back. -/
def RunSafe (start : ReaderState) (events : List ReaderEvent) : Prop :=
  ∀ early event late state next, events = early ++ event :: late → Run.run readerStep start early = some state →
    readerStep state event = some next → TraceSafe next.traced ∧ Forward state.traced next.traced

theorem runSafe_iff (offset received : Int) (rb : ReadBuffer) (events : List ReaderEvent) :
    RunSafe (startReader offset received rb) events ↔
      Run.Admitted readerStep SizeFits (startReader offset received rb) events := by
  have initial : Sound (startReader offset received rb).traced :=
    ⟨⟨fun _ none => absurd none List.not_mem_nil, fun _ none => absurd none List.not_mem_nil⟩, .inr (.inr (.inr rfl))⟩
  constructor
  · intro safe
    apply Run.admitted_of_reached
    intro early event late state split ran
    cases event with
    | receive arrival => trivial
    | turn =>
        intro totalDataLen reading size n stored
        have line : isLineInBuffer 0 state.traced.conn.rb.data ≠ 0 := by
          intro none
          rw [storedSize, if_pos (.inl none)] at stored
          cases stored
        have notEnd : state.traced.conn.chunkRemaining ≠ chunkDataEnd := by
          rw [size]
          decide
        have stepped : ∃ next, readerStep state .turn = some next ∧ n ∈ next.traced.sizes := by
          rw [readerStep]
          simp only [reading]
          rw [tracedTurn, if_neg notEnd, if_pos size, tracedSize, if_neg line, stored]
          exact ⟨_, rfl, List.mem_append_right _ (List.mem_singleton.mpr rfl)⟩
        obtain ⟨next, stepped, member⟩ := stepped
        exact (safe early .turn late state next split ran stepped).1.sizes n member
  · intro admitted early event late state next split ran stepped
    rw [split] at admitted
    obtain ⟨before, after⟩ := Run.admitted_split admitted
    have sound : Sound state.traced := Run.run_preserves (fun state => Sound state.traced)
      (fun _ _ _ sound fits stepped => (readerStep_sound sound fits stepped).1) initial before ran
    have result := readerStep_sound sound (after state ran).1 stepped
    exact ⟨result.1.toTraceSafe, result.2⟩

/-- `-5`: the block is said to be of -5 bytes, and they are taken off the count of bytes received. -/
theorem runSafe_negative :
    ((Run.run readerStep (startReader 0 0 ⟨[45, 53, 13, 10, 120], []⟩) [.turn, .turn]).map fun state =>
        (state.traced.sizes, state.traced.blocks, state.traced.conn.offset, state.traced.received)) =
      some ([-5], [(4, 5), (-5, 1), (-5, 1), (-5, 1)], -5, -5) ∧
    ((Run.run readerStep (startReader 0 0 ⟨[70, 70, 70, 70, 70, 70, 70, 68, 13, 10], []⟩) [.turn]).map fun state =>
        state.traced.conn.chunkRemaining) = some chunkDataEnd := by
  decide +kernel

end Steps

end KcnTools.Http
