import KcnTools.Bittorrent.Torrent
import KcnTools.Bittorrent.PeerCodec
import KcnTools.Lib.Framing
import Mathlib

/-!
The loop of `read_bittorrent_peer_data` against the split of the received stream by
its length prefixes, however the network cuts the stream into reads.
-/

namespace KcnTools.Bittorrent

/-- A message that was given to `read_bittorrent_peer_message`: its own length + 4 bytes,
and the fields that were read for it. -/
structure DispatchedMessage where
  id : BittorrentMessageId
  bytes : List UInt8
  fields : Option PeerMessageFields
  deriving DecidableEq

def dispatchedMessage (id : BittorrentMessageId) (buffer : ReadBuffer) (messageLength : Nat) :
    DispatchedMessage where
  id := id
  bytes := buffer.data.take (messageLength + 4)
  fields := fieldsRead id buffer messageLength

def DispatchedMessage.message (dispatched : DispatchedMessage) : BittorrentMessageId × List UInt8 :=
  (dispatched.id, dispatched.bytes.drop 5)

/-- The bytes are one message with its length, and what stands behind them was not read. -/
structure DispatchedMessage.OwnBytes (dispatched : DispatchedMessage) : Prop where
  framed : BigEndian.decode (dispatched.bytes.take 4) + 4 = dispatched.bytes.length
  inside : dispatched.bytes.length ≠ messageMinimum dispatched.id + 4 → ∀ beyond,
    dispatched.fields = fieldsRead dispatched.id ⟨dispatched.bytes, beyond⟩ (dispatched.bytes.length - 4)

/-- The loop's progress: what is left in the buffer and the messages that were dispatched. -/
structure PeerData where
  bittorrent : BittorrentConnection
  reading : PeerReading
  pending : List UInt8
  dispatched : List DispatchedMessage

/-- The dispatched messages as message IDs and payloads. -/
def PeerData.messages (data : PeerData) : List (BittorrentMessageId × List UInt8) :=
  data.dispatched.map DispatchedMessage.message

def readPeerMessages (options : BittorrentOptions) (receive : Nat → BittorrentReceive)
    (index : Nat) : Nat → BittorrentConnection → List UInt8 → PeerData
  | 0, bittorrent, data => ⟨bittorrent, .waiting, data, []⟩
  | fuel + 1, bittorrent, data =>
      match bittorrent.peers[index]? with
      | none => ⟨bittorrent, .dropped, data, []⟩
      | some peer =>
          let received := receiveBittorrentPeerMessage options (receive fuel) bittorrent index peer
            data
          let buffer : ReadBuffer := ⟨data, (receive fuel).beyond⟩
          match received.2 with
          | .accepted id messageLength =>
              let later := readPeerMessages options receive index fuel received.1
                (data.drop (messageLength + 4))
              { later with
                dispatched := dispatchedMessage id buffer messageLength :: later.dispatched }
          | .rejected id messageLength | .aborted id messageLength =>
              ⟨received.1, received.2, data, [dispatchedMessage id buffer messageLength]⟩
          | _ => ⟨received.1, received.2, data, []⟩

def readBittorrentPeerData (options : BittorrentOptions) (receive : Nat → BittorrentReceive)
    (outside : BittorrentOutside) (bittorrent : BittorrentConnection) (index : Nat)
    (data : List UInt8) : PeerData :=
  let read := readPeerMessages options receive index data.length bittorrent data
  if read.reading = .waiting then
    { read with
      bittorrent := updateBittorrentPeerConnectionState options outside read.bittorrent index
      reading := if (read.bittorrent.peers[index]?).any (isFinishedPeer read.bittorrent) then .dropped
        else .waiting }
  else read

/-- One read of a peer's socket; `before` is what has happened to the torrent since the
last one, and where the peer is now. -/
structure PeerRead where
  bytes : List UInt8
  before : BittorrentConnection → BittorrentConnection × Nat
  receive : Nat → BittorrentReceive
  outside : BittorrentOutside

def readPeerStream (options : BittorrentOptions) : List PeerRead → PeerData → PeerData
  | [], data => data
  | read :: reads, data =>
      if data.reading = .waiting then
        let now := read.before data.bittorrent
        let later := readBittorrentPeerData options read.receive read.outside now.1 now.2
          (data.pending ++ read.bytes)
        readPeerStream options reads
          { later with dispatched := data.dispatched ++ later.dispatched }
      else data

def lengthFramer (maximum : Nat) : Framer UInt8 where
  next stream :=
    let length := BigEndian.decode (stream.take 4)
    if stream.length < 4 ∨ maximum < length ∨ stream.length - 4 < length then none
    else some ((stream.drop 4).take length, stream.drop (length + 4))
  shrinks := by
    intro stream frame rest found
    simp only at found
    split at found
    · simp at found
    · rw [Option.some.injEq, Prod.mk.injEq] at found
      rw [← found.2, List.length_drop]
      omega
  extends_append := by
    intro stream frame rest found more
    simp only at found ⊢
    split at found
    · simp at found
    · rename_i complete
      rw [Option.some.injEq, Prod.mk.injEq] at found
      have prefixed : (stream ++ more).take 4 = stream.take 4 :=
        List.take_append_of_le_length (by omega)
      rw [prefixed, if_neg (by rw [List.length_append]; omega), ← found.1, ← found.2,
        List.drop_append_of_le_length (by omega), List.drop_append_of_le_length (by omega),
        List.take_append_of_le_length (by rw [List.length_drop]; omega)]

def frameMessage : List UInt8 → BittorrentMessageId × List UInt8
  | [] => (.keepAlive, [])
  | id :: payload => (messageIdOfByte id, payload)

def streamMessages (options : BittorrentOptions) (stream : List UInt8) :
    List (BittorrentMessageId × List UInt8) :=
  ((lengthFramer options.maxMessageLength).frames stream).map frameMessage

theorem lengthFramer_some {maximum : Nat} {stream frame rest : List UInt8}
    (found : (lengthFramer maximum).next stream = some (frame, rest)) :
    4 + frame.length ≤ stream.length ∧ BigEndian.decode (stream.take 4) = frame.length ∧
      frame.length ≤ maximum ∧ (stream.drop 4).take frame.length = frame ∧
      stream.drop (frame.length + 4) = rest := by
  simp only [lengthFramer] at found
  split at found
  · simp at found
  · rename_i complete
    rw [Option.some.injEq, Prod.mk.injEq] at found
    have length : frame.length = BigEndian.decode (stream.take 4) := by
      rw [← found.1, List.length_take, List.length_drop]
      omega
    rw [← length] at found complete
    exact ⟨by omega, length.symm, by omega, found.1, found.2⟩

theorem lengthFramer_added (maximum : Nat) (body : List UInt8) (fits : body.length ≤ maximum)
    (small : body.length < 2 ^ 32) (rest : List UInt8) :
    (lengthFramer maximum).next (addBittorrentPeerInteger body.length ++ (body ++ rest)) =
      some (body, rest) := by
  have four : (addBittorrentPeerInteger body.length).length = 4 := BigEndian.encode_length 4 _
  have length : BigEndian.decode (addBittorrentPeerInteger body.length) = body.length :=
    BigEndian.decode_encode_of_lt (by omega)
  have behind : (addBittorrentPeerInteger body.length ++ (body ++ rest)).drop (body.length + 4) =
      rest := by
    rw [Nat.add_comm, ← List.drop_drop, List.drop_left' four, List.drop_left]
  simp only [lengthFramer]
  rw [List.take_left' four, length, List.length_append, List.length_append, four,
    if_neg (by omega), List.drop_left' four, List.take_left, behind]

theorem check_of_frame {options : BittorrentOptions} {buffer : ReadBuffer} {frame rest : List UInt8}
    (found : (lengthFramer options.maxMessageLength).next buffer.data = some (frame, rest)) :
    checkBittorrentPeerMessage options buffer = ((frameMessage frame).1, frame.length) ∧
      (buffer.data.drop 5).take (frame.length - 1) = (frameMessage frame).2 := by
  obtain ⟨inside, length, fits, taken, -⟩ := lengthFramer_some found
  have read : getBittorrentPeerInteger buffer 0 = frame.length := by
    rw [getBittorrentPeerInteger_eq (by omega), List.drop_zero, length]
  have checked : checkBittorrentPeerMessage options buffer =
      if frame.length = 0 then (.keepAlive, 0) else (messageIdOfByte (buffer.byte 4), frame.length) := by
    simp only [checkBittorrentPeerMessage, read]
    rw [if_neg (by omega), if_neg (by omega), if_neg (by omega)]
  rw [checked]
  cases frame with
  | nil => simp [frameMessage]
  | cons id payload =>
      cases behind : buffer.data.drop 4 with
      | nil =>
          rw [behind] at taken
          simp at taken
      | cons first tail =>
          rw [behind, List.length_cons, List.take_succ_cons, List.cons.injEq] at taken
          have byte : buffer.byte 4 = id := by
            have here : buffer.data[4]? = (buffer.data.drop 4)[0]? := by
              rw [List.getElem?_drop]
            rw [ReadBuffer.byte, List.getD_eq_getElem?_getD, here, behind, List.getElem?_cons_zero,
              Option.getD_some, taken.1]
          have later : buffer.data.drop 5 = tail := by
            have split : buffer.data.drop 5 = (buffer.data.drop 4).drop 1 := by
              rw [List.drop_drop]
            rw [split, behind, List.drop_succ_cons, List.drop_zero]
          rw [if_neg (by simp), byte, later, List.length_cons,
            Nat.add_sub_cancel, taken.2]
          exact ⟨rfl, rfl⟩

theorem messageIdOfByte_proper (byte : UInt8) :
    messageIdOfByte byte ≠ .incomplete ∧ messageIdOfByte byte ≠ .error := by
  simp only [messageIdOfByte]
  split <;> simp

theorem frameMessage_proper (frame : List UInt8) :
    (frameMessage frame).1 ≠ .incomplete ∧ (frameMessage frame).1 ≠ .error := by
  cases frame with
  | nil => simp [frameMessage]
  | cons id payload => exact messageIdOfByte_proper id

/-- The frames that the loop sees: it waits until there are more bytes than a length. -/
def peerFramer (options : BittorrentOptions) : Framer UInt8 :=
  (lengthFramer options.maxMessageLength).guarded 4

theorem peerFramer_rest {options : BittorrentOptions} {data frame rest : List UInt8}
    (found : (peerFramer options).next data = some (frame, rest)) : data.drop (frame.length + 4) = rest := by
  simp only [peerFramer, Framer.guarded] at found
  split at found
  · simp at found
  · exact (lengthFramer_some found).2.2.2.2

theorem receive_of_frame {options : BittorrentOptions} {receive : BittorrentReceive}
    {bittorrent : BittorrentConnection} {index : Nat} {peer : BittorrentPeerConnection}
    {data frame rest : List UInt8} (found : (peerFramer options).next data = some (frame, rest)) :
    (receiveBittorrentPeerMessage options receive bittorrent index peer data).2 =
        .accepted (frameMessage frame).1 frame.length ∨
      (receiveBittorrentPeerMessage options receive bittorrent index peer data).2 =
        .rejected (frameMessage frame).1 frame.length ∨
      (receiveBittorrentPeerMessage options receive bittorrent index peer data).2 =
        .aborted (frameMessage frame).1 frame.length := by
  simp only [peerFramer, Framer.guarded] at found
  split at found
  · simp at found
  · rename_i long
    obtain ⟨checked, -⟩ := @check_of_frame options ⟨data, receive.beyond⟩ _ _ found
    obtain ⟨proper, valid⟩ := frameMessage_proper frame
    simp only [receiveBittorrentPeerMessage]
    rw [if_neg long, checked, if_neg proper, if_neg valid]
    split
    · exact .inl rfl
    · split
      · exact .inr (.inl rfl)
      · exact .inr (.inr rfl)

/-- Above the minimum of its ID a message has all fields that are read for it. -/
theorem readPeerMessageFields_own {id : BittorrentMessageId} {data : List UInt8} {messageLength : Nat}
    (long : messageMinimum id < messageLength) (small : messageLength < 2 ^ 32)
    (inside : messageLength + 4 ≤ data.length) (beyond outside : Nat → UInt8) :
    readPeerMessageFields id ⟨data, beyond⟩ messageLength =
      readPeerMessageFields id ⟨data.take (messageLength + 4), outside⟩ messageLength := by
  have length : (data.take (messageLength + 4)).length = messageLength + 4 := List.length_take_of_le inside
  have integer (offset : Nat) (ends : offset ≤ messageLength) :
      getBittorrentPeerInteger ⟨data, beyond⟩ offset =
        getBittorrentPeerInteger ⟨data.take (messageLength + 4), outside⟩ offset := by
    rw [getBittorrentPeerInteger_eq (by simp only; omega), getBittorrentPeerInteger_eq (by simp only; omega),
      List.drop_take, List.take_take, Nat.min_eq_left (by omega)]
  have block (start count : Nat) (ends : start + count ≤ messageLength + 4) :
      (data.drop start).take count = ((data.take (messageLength + 4)).drop start).take count := by
    rw [List.drop_take, List.take_take, Nat.min_eq_left (by omega)]
  cases id with
  | haveMessage =>
      simp only [messageMinimum] at long
      simp only [readPeerMessageFields]
      rw [integer 5 (by omega)]
  | bitfield =>
      simp only [messageMinimum] at long
      simp only [readPeerMessageFields]
      rw [block 5 _ (by omega)]
  | request | cancel =>
      simp only [messageMinimum] at long
      simp only [readPeerMessageFields]
      rw [integer 5 (by omega), integer 9 (by omega), integer 13 (by omega)]
  | piece =>
      simp only [messageMinimum] at long
      simp only [readPeerMessageFields]
      rw [integer 5 (by omega), integer 9 (by omega), block 13 _ (by omega)]
  | _ => rfl

theorem dispatchedMessage_of_frame {options : BittorrentOptions} {buffer : ReadBuffer}
    {frame rest : List UInt8} (found : (peerFramer options).next buffer.data = some (frame, rest)) :
    (dispatchedMessage (frameMessage frame).1 buffer frame.length).message = frameMessage frame ∧
      (dispatchedMessage (frameMessage frame).1 buffer frame.length).OwnBytes := by
  simp only [peerFramer, Framer.guarded] at found
  split at found
  · simp at found
  · obtain ⟨inside, length, -, -, -⟩ := lengthFramer_some found
    obtain ⟨-, payload⟩ := check_of_frame found
    have own : (buffer.data.take (frame.length + 4)).length = frame.length + 4 :=
      List.length_take_of_le (by omega)
    refine ⟨?_, ?_, ?_⟩
    · rw [DispatchedMessage.message, dispatchedMessage, List.drop_take, show frame.length + 4 - 5 = frame.length - 1 by omega,
        payload]
    · simp only [dispatchedMessage]
      rw [List.take_take, Nat.min_eq_left (by omega), length, own]
    · intro other beyond
      simp only [dispatchedMessage, own, fieldsRead] at other ⊢
      rw [Nat.add_sub_cancel]
      split
      · rfl
      · have small : frame.length < 2 ^ 32 := by
          have bound := BigEndian.decode_lt (buffer.data.take 4)
          rw [length, List.length_take_of_le (by omega)] at bound
          exact bound
        rw [readPeerMessageFields_own (by omega) small (by omega) buffer.beyond beyond]

/-- Without a frame the loop waits for more bytes, or the next frame is over-long. -/
theorem receive_of_none {options : BittorrentOptions} {receive : BittorrentReceive}
    {bittorrent : BittorrentConnection} {index : Nat} {peer : BittorrentPeerConnection}
    {data : List UInt8} (found : (peerFramer options).next data = none) :
    (receiveBittorrentPeerMessage options receive bittorrent index peer data).2 = .waiting ∨
      (receiveBittorrentPeerMessage options receive bittorrent index peer data).2 = .overlong ∧
        4 ≤ data.length ∧ options.maxMessageLength < BigEndian.decode (data.take 4) := by
  simp only [receiveBittorrentPeerMessage]
  split
  · exact .inl rfl
  · rename_i long
    have read : getBittorrentPeerInteger ⟨data, receive.beyond⟩ 0 = BigEndian.decode (data.take 4) := by
      rw [getBittorrentPeerInteger_eq (by simp only; omega), List.drop_zero]
    simp only [peerFramer, Framer.guarded, if_neg long, lengthFramer] at found
    simp only [checkBittorrentPeerMessage, read]
    rw [if_neg (show ¬data.length < 4 by omega)]
    by_cases large : options.maxMessageLength < BigEndian.decode (data.take 4)
    · rw [if_pos large, if_neg (by simp), if_pos rfl]
      exact .inr ⟨rfl, by omega, large⟩
    · rw [if_neg large]
      split at found
      · have short : data.length - 4 < BigEndian.decode (data.take 4) := by omega
        rw [if_pos short, if_pos rfl]
        exact .inl rfl
      · simp at found

theorem peerFramer_overlong {options : BittorrentOptions} {data : List UInt8}
    (long : 4 ≤ data.length) (large : options.maxMessageLength < BigEndian.decode (data.take 4))
    (more : List UInt8) : (peerFramer options).frames (data ++ more) = [] := by
  apply Framer.frames_of_none
  have same : (data ++ more).take 4 = data.take 4 := List.take_append_of_le_length long
  simp only [peerFramer, Framer.guarded, lengthFramer, same]
  split
  · rfl
  · rw [if_pos (.inr (.inl large))]

def ReadsFrames (options : BittorrentOptions) (stream : List UInt8) (data : PeerData) : Prop :=
  data.messages <+: ((peerFramer options).frames stream).map frameMessage ∧
    (data.reading = .waiting →
      data.messages = ((peerFramer options).frames stream).map frameMessage ∧
        data.pending = (peerFramer options).remainder stream) ∧
    (data.reading = .overlong → ∀ more,
      data.messages = ((peerFramer options).frames (stream ++ more)).map frameMessage) ∧
    ∀ message ∈ data.dispatched, message.OwnBytes

theorem readPeerMessages_readsFrames (options : BittorrentOptions)
    (receive : Nat → BittorrentReceive) (index fuel : Nat) (bittorrent : BittorrentConnection)
    (data : List UInt8) (enough : data.length ≤ fuel) :
    ReadsFrames options data (readPeerMessages options receive index fuel bittorrent data) := by
  induction fuel generalizing bittorrent data with
  | zero =>
      have empty : data = [] := List.length_eq_zero_iff.mp (by omega)
      have found : (peerFramer options).next data = none := by
        rw [empty]
        rfl
      rw [ReadsFrames, Framer.frames_of_none found, Framer.remainder_of_none found]
      simp [readPeerMessages, PeerData.messages]
  | succ fuel ih =>
      simp only [readPeerMessages]
      cases bittorrent.peers[index]? with
      | none => simp [ReadsFrames, PeerData.messages]
      | some peer =>
          cases found : (peerFramer options).next data with
          | none =>
              rcases @receive_of_none options (receive fuel) bittorrent index peer _ found with
                waits | ⟨ends, long, large⟩
              · simp [ReadsFrames, PeerData.messages, waits, Framer.frames_of_none found,
                  Framer.remainder_of_none found]
              · simp [ReadsFrames, PeerData.messages, ends, peerFramer_overlong long large]
          | some both =>
              obtain ⟨frame, rest⟩ := both
              have shorter := (peerFramer options).shrinks found
              have frames := Framer.frames_of_some found
              have extended (more : List UInt8) :=
                Framer.frames_of_some ((peerFramer options).extends_append found more)
              have behind := peerFramer_rest found
              obtain ⟨message, own⟩ :=
                @dispatchedMessage_of_frame options ⟨data, (receive fuel).beyond⟩ _ _ found
              rcases @receive_of_frame options (receive fuel) bittorrent index peer _ _ _ found with
                accepted | rejected | aborted
              · simp only [accepted, behind]
                obtain ⟨ahead, waiting, overlong, owns⟩ := ih (receiveBittorrentPeerMessage options
                  (receive fuel) bittorrent index peer data).1 rest (by omega)
                refine ⟨?_, fun reading => ?_, fun reading more => ?_, List.forall_mem_cons.mpr ⟨own, owns⟩⟩
                · rw [frames, List.map_cons, PeerData.messages, List.map_cons, message]
                  exact (List.prefix_cons_inj _).mpr ahead
                · rw [frames, List.map_cons, PeerData.messages, List.map_cons, message,
                    Framer.remainder_of_some found]
                  exact ⟨congrArg _ (waiting reading).1, (waiting reading).2⟩
                · rw [extended, List.map_cons, PeerData.messages, List.map_cons, message]
                  exact congrArg _ (overlong reading more)
              · simp [ReadsFrames, PeerData.messages, rejected, message, frames, own]
              · simp [ReadsFrames, PeerData.messages, aborted, message, frames, own]

/-- The stream ends in the middle of a message, or behind one that is no keep-alive. -/
def EndsProperly (options : BittorrentOptions) (stream : List UInt8) : Prop :=
  (lengthFramer options.maxMessageLength).remainder stream ≠ [] ∨
    ((lengthFramer options.maxMessageLength).frames stream).getLast? ≠ some []

theorem peerFramer_frames {options : BittorrentOptions} {stream : List UInt8}
    (proper : EndsProperly options stream) :
    (peerFramer options).frames stream = (lengthFramer options.maxMessageLength).frames stream := by
  obtain ⟨frames, remainder⟩ := (lengthFramer options.maxMessageLength).frames_eq_guarded 4 stream
  have stopped := (peerFramer options).next_remainder stream
  change _ = (peerFramer options).frames stream ++ _ at frames
  change _ = (lengthFramer options.maxMessageLength).remainder
    ((peerFramer options).remainder stream) at remainder
  change _ = _ ++ (lengthFramer options.maxMessageLength).frames
    ((peerFramer options).remainder stream) at frames
  generalize (peerFramer options).remainder stream = rest at *
  cases found : (lengthFramer options.maxMessageLength).next rest with
  | none => rw [frames, Framer.frames_of_none found, List.append_nil]
  | some both =>
      obtain ⟨frame, behind⟩ := both
      obtain ⟨inside, -, -, -, left⟩ := lengthFramer_some found
      have short : rest.length ≤ 4 := by
        by_contra long
        simp only [peerFramer, Framer.guarded, if_neg long] at stopped
        rw [found] at stopped
        simp at stopped
      have empty : frame = [] := List.length_eq_zero_iff.mp (by omega)
      have nothing : behind = [] := by
        rw [← left, empty]
        exact List.drop_eq_nil_of_le short
      have nothingFramed : (lengthFramer options.maxMessageLength).next [] = none := rfl
      rw [Framer.remainder_of_some found, nothing, Framer.remainder_of_none nothingFramed] at remainder
      rw [Framer.frames_of_some found, nothing, Framer.frames_of_none nothingFramed, empty] at frames
      rcases proper with unfinished | carried
      · exact absurd remainder unfinished
      · rw [frames, List.getLast?_append] at carried
        simp at carried

theorem peerFramer_isPrefix (options : BittorrentOptions) (stream : List UInt8) :
    (peerFramer options).frames stream <+:
      (lengthFramer options.maxMessageLength).frames stream := by
  rw [((lengthFramer options.maxMessageLength).frames_eq_guarded 4 stream).1]
  exact List.prefix_append _ _

theorem ReadsFrames.extend {options : BittorrentOptions} {stream : List UInt8} {data : PeerData}
    (reads : ReadsFrames options stream data) (stopped : data.reading ≠ .waiting)
    (more : List UInt8) : ReadsFrames options (stream ++ more) data := by
  obtain ⟨ahead, -, overlong, owns⟩ := reads
  refine ⟨?_, fun waiting => absurd waiting stopped, fun reading later => ?_, owns⟩
  · rw [Framer.frames_append, List.map_append]
    exact ahead.trans (List.prefix_append _ _)
  · rw [List.append_assoc]
    exact overlong reading (more ++ later)

theorem ReadsFrames.resume {options : BittorrentOptions} {stream bytes : List UInt8}
    {data later : PeerData} (reads : ReadsFrames options stream data)
    (waiting : data.reading = .waiting)
    (next : ReadsFrames options (data.pending ++ bytes) later) :
    ReadsFrames options (stream ++ bytes)
      { later with dispatched := data.dispatched ++ later.dispatched } := by
  obtain ⟨-, all, -, owns⟩ := reads
  obtain ⟨dispatched, pending⟩ := all waiting
  obtain ⟨ahead, wait, overlong, laterOwns⟩ := next
  rw [pending] at ahead wait overlong
  have messages : ({ later with dispatched := data.dispatched ++ later.dispatched } : PeerData).messages =
      ((peerFramer options).frames stream).map frameMessage ++ later.messages := by
    rw [← dispatched]
    exact List.map_append
  refine ⟨?_, fun reading => ⟨?_, ?_⟩, fun reading more => ?_, List.forall_mem_append.mpr ⟨owns, laterOwns⟩⟩
  · rw [Framer.frames_append, List.map_append, messages]
    exact (List.prefix_append_right_inj _).mpr ahead
  · rw [Framer.frames_append, List.map_append, messages]
    exact congrArg _ (wait reading).1
  · rw [Framer.remainder_append]
    exact (wait reading).2
  · rw [List.append_assoc, Framer.frames_append, List.map_append, messages, ← List.append_assoc]
    exact congrArg _ (overlong reading more)

theorem readBittorrentPeerData_readsFrames (options : BittorrentOptions)
    (receive : Nat → BittorrentReceive) (outside : BittorrentOutside)
    (bittorrent : BittorrentConnection) (index : Nat) (data : List UInt8) :
    ReadsFrames options data
      (readBittorrentPeerData options receive outside bittorrent index data) := by
  have read := readPeerMessages_readsFrames options receive index data.length bittorrent data
    (Nat.le_refl _)
  simp only [readBittorrentPeerData]
  split
  · rename_i waiting
    refine ⟨read.1, fun _ => read.2.1 waiting, fun reading => ?_, read.2.2.2⟩
    simp only at reading
    split at reading <;> simp at reading
  · exact read

theorem readPeerStream_readsFrames (options : BittorrentOptions) (reads : List PeerRead)
    {stream : List UInt8} {data : PeerData} (before : ReadsFrames options stream data) :
    ReadsFrames options (stream ++ reads.flatMap PeerRead.bytes)
      (readPeerStream options reads data) := by
  induction reads generalizing stream data with
  | nil =>
      rw [List.flatMap_nil, List.append_nil]
      exact before
  | cons read reads ih =>
      rw [List.flatMap_cons, ← List.append_assoc]
      simp only [readPeerStream]
      split
      · rename_i waiting
        exact ih (before.resume waiting (readBittorrentPeerData_readsFrames options _ _ _ _ _))
      · rename_i stopped
        rw [List.append_assoc]
        exact before.extend stopped _

def startReading (bittorrent : BittorrentConnection) : PeerData := ⟨bittorrent, .waiting, [], []⟩

/-- However a stream is cut into reads, the messages that are dispatched are the first
ones of its split, and all of them unless the peer is given up on the way. -/
theorem readPeerStream_dispatched (options : BittorrentOptions) (bittorrent : BittorrentConnection)
    (reads : List PeerRead) :
    (readPeerStream options reads (startReading bittorrent)).messages <+:
        streamMessages options (reads.flatMap PeerRead.bytes) ∧
      ((readPeerStream options reads (startReading bittorrent)).reading = .waiting ∨
          (readPeerStream options reads (startReading bittorrent)).reading = .overlong →
        EndsProperly options (reads.flatMap PeerRead.bytes) →
        (readPeerStream options reads (startReading bittorrent)).messages =
          streamMessages options (reads.flatMap PeerRead.bytes)) ∧
      ∀ message ∈ (readPeerStream options reads (startReading bittorrent)).dispatched, message.OwnBytes := by
  have start : ReadsFrames options [] (startReading bittorrent) := by
    have nothing : (peerFramer options).next [] = none := rfl
    rw [ReadsFrames, Framer.frames_of_none nothing, Framer.remainder_of_none nothing]
    simp [startReading, PeerData.messages]
  have read := readPeerStream_readsFrames options reads start
  rw [List.nil_append] at read
  obtain ⟨ahead, waiting, overlong, owns⟩ := read
  refine ⟨?_, fun reading proper => ?_, owns⟩
  · exact ahead.trans ((peerFramer_isPrefix options _).map frameMessage)
  · rw [streamMessages, ← peerFramer_frames proper]
    rcases reading with waits | ends
    · exact (waiting waits).1
    · have all := overlong ends []
      rwa [List.append_nil] at all

def onePeerTorrent : BittorrentConnection :=
  { initBittorrentPieceCache (singlePiece 1 Nat.one_pos oneByte_bound) (-1) with
    peers := [newPeer 1] }

def plainRead (bytes : List UInt8) : PeerRead where
  bytes := bytes
  before := fun bittorrent => (bittorrent, 0)
  receive := fun _ => ⟨⟨fun _ => noFileAnswer, 0⟩, fun _ => 0⟩
  outside := ⟨fun _ => noDraws, fun _ _ => noFileAnswer, fun _ => 0⟩

theorem readPeerStream_dispatched_cut :
    (readPeerStream (defaultBittorrentOptions id) [plainRead [0, 0], plainRead [0, 1, 1]]
        (startReading onePeerTorrent)).messages =
      streamMessages (defaultBittorrentOptions id) [0, 0, 0, 1, 1] := by
  have whole : (lengthFramer (defaultBittorrentOptions id).maxMessageLength).next [0, 0, 0, 1, 1] =
      some ([1], []) := lengthFramer_added _ [1] (by decide) (by decide) []
  have nothingFramed : (lengthFramer (defaultBittorrentOptions id).maxMessageLength).next [] = none := rfl
  refine (readPeerStream_dispatched (defaultBittorrentOptions id) onePeerTorrent
    [plainRead [0, 0], plainRead [0, 1, 1]]).2.1 (.inl (by decide +kernel)) (.inr ?_)
  change ((lengthFramer _).frames [0, 0, 0, 1, 1]).getLast? ≠ _
  rw [Framer.frames_of_some whole, Framer.frames_of_none nothingFramed]
  simp

/-- A HAVE message without its index ends the connection, so the UNCHOKE behind it is
not dispatched. -/
theorem readPeerStream_shortHave :
    (readPeerStream (defaultBittorrentOptions id) [plainRead [0, 0, 0, 1, 4, 0, 0, 0, 1, 1]]
        (startReading onePeerTorrent)).messages = [(.haveMessage, [])] ∧
      streamMessages (defaultBittorrentOptions id) [0, 0, 0, 1, 4, 0, 0, 0, 1, 1] =
        [(.haveMessage, []), (.unchoke, [])] := by
  have first : (lengthFramer (defaultBittorrentOptions id).maxMessageLength).next
      [0, 0, 0, 1, 4, 0, 0, 0, 1, 1] = some ([4], [0, 0, 0, 1, 1]) :=
    lengthFramer_added _ [4] (by decide) (by decide) [0, 0, 0, 1, 1]
  have second : (lengthFramer (defaultBittorrentOptions id).maxMessageLength).next [0, 0, 0, 1, 1] =
      some ([1], []) := lengthFramer_added _ [1] (by decide) (by decide) []
  have nothingFramed : (lengthFramer (defaultBittorrentOptions id).maxMessageLength).next [] = none := rfl
  refine ⟨by decide +kernel, ?_⟩
  rw [streamMessages, Framer.frames_of_some first, Framer.frames_of_some second,
    Framer.frames_of_none nothingFramed]
  rfl

end KcnTools.Bittorrent
