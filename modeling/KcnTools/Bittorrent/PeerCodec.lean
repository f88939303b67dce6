import KcnTools.Bittorrent.PeerWire
import Mathlib

/-! Messages that one client writes, read by another one. -/

namespace KcnTools.Bittorrent

theorem ReadBuffer.byte_eq {buffer : ReadBuffer} {position : Nat}
    (inside : position < buffer.data.length) : buffer.byte position = buffer.data[position] := by
  rw [ReadBuffer.byte, List.getD_eq_getElem?_getD, List.getElem?_eq_getElem inside, Option.getD_some]

theorem take_four {data : List UInt8} (long : 4 ≤ data.length) :
    data.take 4 = [data[0], data[1], data[2], data[3]] := by
  match data, long with
  | first :: second :: third :: fourth :: rest, _ => rfl

theorem getBittorrentPeerInteger_eq {buffer : ReadBuffer} {offset : Nat}
    (inside : offset + 4 ≤ buffer.data.length) :
    getBittorrentPeerInteger buffer offset = BigEndian.decode ((buffer.data.drop offset).take 4) := by
  have long : 4 ≤ (buffer.data.drop offset).length := by
    rw [List.length_drop]
    omega
  rw [getBittorrentPeerInteger, take_four long, ReadBuffer.byte_eq (by omega),
    ReadBuffer.byte_eq (by omega), ReadBuffer.byte_eq (by omega), ReadBuffer.byte_eq (by omega)]
  simp only [List.getElem_drop, Nat.add_zero]

theorem getBittorrentPeerInteger_added {buffer : ReadBuffer} {before after : List UInt8}
    {offset integer : Nat} (place : before.length = offset)
    (data : buffer.data = before ++ (addBittorrentPeerInteger integer ++ after))
    (small : integer < 2 ^ 32) : getBittorrentPeerInteger buffer offset = integer := by
  subst offset
  have inside : before.length + 4 ≤ buffer.data.length := by
    rw [data]
    simp [addBittorrentPeerInteger]
  rw [getBittorrentPeerInteger_eq inside, data, List.drop_left,
    List.take_left' (by simp [addBittorrentPeerInteger]), addBittorrentPeerInteger,
    BigEndian.decode_encode_of_lt (by omega)]

theorem composed_length (bitfield : Bitfield) (message : BittorrentPeerRequest) (data : List UInt8) :
    (composeBittorrentPeerMessage bitfield message data).length =
      (messageBody bitfield message data).length + 4 := by
  simp [composeBittorrentPeerMessage, addBittorrentPeerInteger, Nat.add_comm]

theorem checkBittorrentPeerMessage_framed (options : BittorrentOptions) {buffer : ReadBuffer}
    {body rest : List UInt8} (small : body.length < 2 ^ 32)
    (data : buffer.data = addBittorrentPeerInteger body.length ++ (body ++ rest)) :
    checkBittorrentPeerMessage options buffer =
      if options.maxMessageLength < body.length then (.error, 0)
      else match body with
        | [] => (.keepAlive, 0)
        | id :: _ => (messageIdOfByte id, body.length) := by
  have length : buffer.data.length = 4 + (body.length + rest.length) := by
    rw [data]
    simp [addBittorrentPeerInteger]
  have read : getBittorrentPeerInteger buffer 0 = body.length :=
    getBittorrentPeerInteger_added List.length_nil data small
  simp only [checkBittorrentPeerMessage, read]
  rw [if_neg (by omega)]
  split
  · rfl
  · rw [if_neg (by omega)]
    cases body with
    | nil => rfl
    | cons id payload =>
        have first : buffer.byte 4 = id := by
          rw [ReadBuffer.byte, data]
          rfl
        rw [if_neg (by simp), first]

/-- The integers of a message and the rest of its payload, as its sender filled them in. -/
def sentFields (bitfield : Bitfield) (message : BittorrentPeerRequest) (data : List UInt8) :
    PeerMessageFields :=
  match message.id with
  | .haveMessage => ⟨message.piece, 0, 0, []⟩
  | .bitfield => ⟨0, 0, bitfield.bits.length, bitfield.bits⟩
  | .request | .cancel => ⟨message.piece, message.offset, message.length, []⟩
  | .piece => ⟨message.piece, message.offset, data.length, data⟩
  | _ => ⟨0, 0, 0, []⟩

def isSendable : BittorrentMessageId → Bool
  | .error | .incomplete | .unknown _ => false
  | _ => true

structure AcceptedRequest (options : BittorrentOptions) (metainfo : BittorrentMeta)
    (request : BittorrentPeerRequest) : Prop where
  piece : request.piece < metainfo.pieces
  sum : (request.offset + request.length) % 2 ^ 32 ≤
    getBittorrentPieceLength metainfo request.piece
  length : request.length ≤ options.maxRequestLength
  offset : request.offset < 2 ^ 32

/-- A message that a client of the torrent composes, with the block of a PIECE message. -/
structure Composable (options : BittorrentOptions) (metainfo : BittorrentMeta)
    (bitfield : Bitfield) (message : BittorrentPeerRequest) (data : List UInt8) : Prop where
  sendable : isSendable message.id = true
  bitsize : bitfield.bitsize = metainfo.pieces
  announced : message.id = .haveMessage → message.piece < metainfo.pieces
  requested : message.id = .request ∨ message.id = .cancel →
    message.piece < metainfo.pieces ∧ message.length ≤ options.requestLength ∧
      message.offset + message.length ≤ getBittorrentPieceLength metainfo message.piece
  answered : message.id = .piece →
    AcceptedRequest options metainfo message ∧ data.length = message.length

/-- The receiver finds the message that was sent, all of it and nothing else. -/
structure Understood (options : BittorrentOptions) (bitfield : Bitfield)
    (message : BittorrentPeerRequest) (data : List UInt8) (buffer : ReadBuffer) : Prop where
  id : (checkBittorrentPeerMessage options buffer).1 = message.id
  consumed : (checkBittorrentPeerMessage options buffer).2 + 4 =
    (composeBittorrentPeerMessage bitfield message data).length
  long : messageMinimum message.id ≤ (checkBittorrentPeerMessage options buffer).2
  fields : readPeerMessageFields message.id buffer (checkBittorrentPeerMessage options buffer).2 =
    sentFields bitfield message data
  granted : message.id = .request ∨ message.id = .cancel → message.length ≤ options.maxRequestLength

theorem messageBody_length (bitfield : Bitfield) (message : BittorrentPeerRequest)
    (data : List UInt8) :
    (messageBody bitfield message data).length =
      match message.id with
      | .keepAlive => 0
      | .haveMessage => 5
      | .bitfield => 1 + getBitfieldByteSize bitfield.bitsize
      | .request | .cancel => 13
      | .piece => 9 + data.length
      | _ => 1 := by
  cases kind : message.id with
  | bitfield => simp [messageBody, messagePayload, kind, bitfield.allocated, Nat.add_comm]
  | piece => simp [messageBody, messagePayload, kind, addBittorrentPeerInteger]; omega
  | _ => simp [messageBody, messagePayload, kind, addBittorrentPeerInteger]

theorem Composable.body_length_lt {options : BittorrentOptions} {metainfo : BittorrentMeta}
    {bitfield : Bitfield} {message : BittorrentPeerRequest} {data : List UInt8}
    (composable : Composable options metainfo bitfield message data) :
    (messageBody bitfield message data).length < 2 ^ 32 := by
  have pieces := metainfo.piecesBound
  have bytes : getBitfieldByteSize bitfield.bitsize < 2 ^ 31 := by
    rw [composable.bitsize, getBitfieldByteSize]
    omega
  have granted := options.maxRequestLengthBound
  rw [messageBody_length]
  cases kind : message.id with
  | piece =>
      have block := (composable.answered kind).1.length
      rw [← (composable.answered kind).2] at block
      simp only
      omega
  | bitfield =>
      simp only
      omega
  | _ => simp

theorem Composable.integers {options : BittorrentOptions} {metainfo : BittorrentMeta}
    {bitfield : Bitfield} {message : BittorrentPeerRequest} {data : List UInt8}
    (composable : Composable options metainfo bitfield message data) :
    (message.id = .haveMessage ∨ message.id = .request ∨ message.id = .cancel ∨
        message.id = .piece → message.piece < 2 ^ 32) ∧
      (message.id = .request ∨ message.id = .cancel ∨ message.id = .piece →
        message.offset < 2 ^ 32) ∧
      (message.id = .request ∨ message.id = .cancel → message.length < 2 ^ 32) := by
  have pieces := metainfo.piecesBound
  have bound := getBittorrentPieceLength_lt metainfo message.piece
  refine ⟨?_, ?_, ?_⟩
  · rintro (kind | kind | kind | kind)
    · have := composable.announced kind
      omega
    · have := (composable.requested (.inl kind)).1
      omega
    · have := (composable.requested (.inr kind)).1
      omega
    · have := (composable.answered kind).1.piece
      omega
  · rintro (kind | kind | kind)
    · have := (composable.requested (.inl kind)).2.2
      omega
    · have := (composable.requested (.inr kind)).2.2
      omega
    · exact (composable.answered kind).1.offset
  · intro kind
    have := (composable.requested kind).2.2
    omega

def messageHeader (messageLength : Nat) (id : BittorrentMessageId) : List UInt8 :=
  addBittorrentPeerInteger messageLength ++ [messageIdByte id]

@[simp] theorem messageHeader_length (messageLength : Nat) (id : BittorrentMessageId) :
    (messageHeader messageLength id).length = 5 := by
  simp [messageHeader, addBittorrentPeerInteger]

theorem composed_eq_header {bitfield : Bitfield} {message : BittorrentPeerRequest}
    {data : List UInt8} (carried : message.id ≠ .keepAlive) :
    composeBittorrentPeerMessage bitfield message data =
      messageHeader (messageBody bitfield message data).length message.id ++
        messagePayload bitfield message data := by
  simp only [composeBittorrentPeerMessage, messageHeader]
  rw [messageBody, if_neg carried, List.append_assoc]

theorem payloadIntegers {buffer : ReadBuffer} {header after : List UInt8} {piece offset : Nat}
    (place : header.length = 5) (pieceSmall : piece < 2 ^ 32) (offsetSmall : offset < 2 ^ 32)
    (received : buffer.data = header ++
      (addBittorrentPeerInteger piece ++ (addBittorrentPeerInteger offset ++ after))) :
    getBittorrentPeerInteger buffer 5 = piece ∧ getBittorrentPeerInteger buffer 9 = offset := by
  constructor
  · exact getBittorrentPeerInteger_added place received pieceSmall
  · have behind : (header ++ addBittorrentPeerInteger piece).length = 9 := by
      simp [addBittorrentPeerInteger, place]
    rw [← List.append_assoc] at received
    exact getBittorrentPeerInteger_added behind received offsetSmall

theorem readPeerMessageFields_composed {options : BittorrentOptions} {metainfo : BittorrentMeta}
    {bitfield : Bitfield} {message : BittorrentPeerRequest} {data rest : List UInt8}
    {buffer : ReadBuffer} (composable : Composable options metainfo bitfield message data)
    (received : buffer.data = composeBittorrentPeerMessage bitfield message data ++ rest) :
    readPeerMessageFields message.id buffer (messageBody bitfield message data).length =
      sentFields bitfield message data := by
  obtain ⟨pieceSmall, offsetSmall, lengthSmall⟩ := composable.integers
  have length := messageBody_length bitfield message data
  have small := composable.body_length_lt
  by_cases carried : message.id = .keepAlive
  · simp only [readPeerMessageFields, sentFields, carried]
  rw [composed_eq_header carried, List.append_assoc] at received
  generalize header : messageHeader (messageBody bitfield message data).length message.id = front
    at received
  have place : front.length = 5 := by
    rw [← header, messageHeader_length]
  generalize (messageBody bitfield message data).length = messageLength at length small ⊢
  have threeIntegers (kind : message.id = .request ∨ message.id = .cancel)
      (payload : messagePayload bitfield message data =
        addBittorrentPeerInteger message.piece ++ addBittorrentPeerInteger message.offset ++
          addBittorrentPeerInteger message.length) :
      getBittorrentPeerInteger buffer 5 = message.piece ∧
        getBittorrentPeerInteger buffer 9 = message.offset ∧
          getBittorrentPeerInteger buffer 13 = message.length := by
    rw [payload, List.append_assoc, List.append_assoc] at received
    obtain ⟨first, second⟩ := payloadIntegers place
      (pieceSmall (.inr (kind.elim .inl fun cancelled => .inr (.inl cancelled))))
      (offsetSmall (kind.elim .inl fun cancelled => .inr (.inl cancelled))) received
    refine ⟨first, second, ?_⟩
    have behind : (front ++ addBittorrentPeerInteger message.piece ++
        addBittorrentPeerInteger message.offset).length = 13 := by
      simp [addBittorrentPeerInteger, place]
    rw [← List.append_assoc, ← List.append_assoc] at received
    exact getBittorrentPeerInteger_added behind received (lengthSmall kind)
  cases kind : message.id with
  | haveMessage =>
      have payload : messagePayload bitfield message data =
          addBittorrentPeerInteger message.piece := by
        rw [messagePayload, kind]
      rw [payload] at received
      simp only [readPeerMessageFields, sentFields, kind,
        getBittorrentPeerInteger_added place received (pieceSmall (.inl kind))]
  | bitfield =>
      have payload : messagePayload bitfield message data = bitfield.bits := by
        rw [messagePayload, kind]
      rw [payload] at received
      rw [kind] at length
      have bytes : messageLength - 1 = bitfield.bits.length := by
        rw [length, bitfield.allocated]
        simp
      simp only [readPeerMessageFields, sentFields, kind, received, bytes]
      rw [List.drop_left' place, List.take_left' rfl]
  | request =>
      obtain ⟨first, second, third⟩ := threeIntegers (.inl kind) (by rw [messagePayload, kind])
      simp only [readPeerMessageFields, sentFields, kind, first, second, third]
  | cancel =>
      obtain ⟨first, second, third⟩ := threeIntegers (.inr kind) (by rw [messagePayload, kind])
      simp only [readPeerMessageFields, sentFields, kind, first, second, third]
  | piece =>
      have payload : messagePayload bitfield message data =
          addBittorrentPeerInteger message.piece ++ (addBittorrentPeerInteger message.offset ++
            data) := by
        simp only [messagePayload, kind, List.append_assoc]
      rw [payload, List.append_assoc, List.append_assoc] at received
      rw [kind] at length
      obtain ⟨first, second⟩ := payloadIntegers place (pieceSmall (.inr (.inr (.inr kind))))
        (offsetSmall (.inr (.inr kind))) received
      have bytes : (messageLength + (2 ^ 32 - 9)) % 2 ^ 32 = data.length := by
        rw [length]
        simp only at length ⊢
        omega
      have block : (buffer.data.drop 13).take data.length = data := by
        have front13 : (front ++ addBittorrentPeerInteger message.piece ++
            addBittorrentPeerInteger message.offset).length = 13 := by
          simp [addBittorrentPeerInteger, place]
        rw [received, ← List.append_assoc, ← List.append_assoc, List.drop_left' front13,
          List.take_left' rfl]
      simp only [readPeerMessageFields, sentFields, kind, first, second, bytes, block]
  | _ => simp only [readPeerMessageFields, sentFields, kind]

theorem check_composed (options : BittorrentOptions) {metainfo : BittorrentMeta}
    {bitfield : Bitfield} {message : BittorrentPeerRequest} {data : List UInt8}
    (composable : Composable options metainfo bitfield message data) (rest : List UInt8)
    (beyond : Nat → UInt8) :
    checkBittorrentPeerMessage options
        ⟨composeBittorrentPeerMessage bitfield message data ++ rest, beyond⟩ =
      if options.maxMessageLength < (messageBody bitfield message data).length then (.error, 0)
      else (message.id, (messageBody bitfield message data).length) := by
  have framed : composeBittorrentPeerMessage bitfield message data ++ rest =
      addBittorrentPeerInteger (messageBody bitfield message data).length ++
        (messageBody bitfield message data ++ rest) := by
    rw [composeBittorrentPeerMessage, List.append_assoc]
  rw [checkBittorrentPeerMessage_framed options composable.body_length_lt framed]
  congr 1
  have sendable := composable.sendable
  cases kind : message.id with
  | keepAlive => simp [messageBody, messagePayload, kind]
  | error | incomplete | unknown => simp [kind, isSendable] at sendable
  | _ =>
      simp only [messageBody, kind]
      rfl

/-- Exactly the messages that fit below the receiver's limit are understood. -/
theorem understood_iff_fits {options : BittorrentOptions} {metainfo : BittorrentMeta}
    {bitfield : Bitfield} {message : BittorrentPeerRequest} {data : List UInt8}
    (composable : Composable options metainfo bitfield message data)
    (granted : options.requestLength ≤ options.maxRequestLength) (rest : List UInt8)
    (beyond : Nat → UInt8) :
    Understood options bitfield message data
        ⟨composeBittorrentPeerMessage bitfield message data ++ rest, beyond⟩ ↔
      (messageBody bitfield message data).length ≤ options.maxMessageLength := by
  have checked := check_composed options composable rest beyond
  constructor
  · intro understood
    by_contra large
    have same := understood.id
    rw [checked, if_pos (by omega)] at same
    have sendable := composable.sendable
    rw [← same] at sendable
    simp [isSendable] at sendable
  · intro fits
    rw [if_neg (by omega)] at checked
    constructor
    · rw [checked]
    · rw [checked, composed_length]
    · rw [checked, messageBody_length]
      cases message.id with
      | piece =>
          simp only [messageMinimum]
          omega
      | _ => simp [messageMinimum]
    · rw [checked]
      exact readPeerMessageFields_composed composable rfl
    · intro kind
      exact Nat.le_trans (composable.requested kind).2.1 granted

/-- With the default limits a PIECE message needs 9 bytes beside its block, and a
BITFIELD message one byte beside the bitfield. -/
theorem understood_iff (sha1 : List UInt8 → List UInt8) {metainfo : BittorrentMeta}
    {bitfield : Bitfield} {message : BittorrentPeerRequest} {data : List UInt8}
    (composable : Composable (defaultBittorrentOptions sha1) metainfo bitfield message data)
    (rest : List UInt8) (beyond : Nat → UInt8) :
    Understood (defaultBittorrentOptions sha1) bitfield message data
        ⟨composeBittorrentPeerMessage bitfield message data ++ rest, beyond⟩ ↔
      (message.id = .piece → message.length ≤ 2 ^ 23 - 9) ∧
        (message.id = .bitfield → getBitfieldByteSize metainfo.pieces ≤ 2 ^ 23 - 1) := by
  have granted : bittorrentRequestLength ≤ bittorrentRequestAcceptLength := by decide
  rw [understood_iff_fits composable granted, messageBody_length]
  have limit : (defaultBittorrentOptions sha1).maxMessageLength = 2 ^ 23 := rfl
  rw [limit, ← composable.bitsize]
  cases kind : message.id with
  | piece =>
      have block := (composable.answered kind).2
      simp only [true_implies, reduceCtorEq, false_implies, and_true]
      omega
  | bitfield =>
      simp only [true_implies, reduceCtorEq, false_implies, true_and]
      omega
  | _ => simp

def singlePiece (length : Nat) (positive : 0 < length) (bound : length < 2 ^ 31 - 1) :
    BittorrentMeta where
  pieces := 1
  pieceLength := length
  lastPieceLength := length
  pieceHash := []
  files := []
  piecesPositive := Nat.one_pos
  piecesBound := onePiece_bound
  pieceLengthBound := bound
  lastPieceLengthPositive := positive
  lastPieceLengthBound := Nat.le_refl length

theorem understood_iff_have :
    Composable (defaultBittorrentOptions id) (singlePiece 5 (by decide) (by decide))
        (initBitfield 1) ⟨0, 0, 0, 0, .haveMessage, false, false⟩ [] ∧
      (Understood (defaultBittorrentOptions id) (initBitfield 1)
          ⟨0, 0, 0, 0, .haveMessage, false, false⟩ []
          ⟨composeBittorrentPeerMessage (initBitfield 1)
            ⟨0, 0, 0, 0, .haveMessage, false, false⟩ [] ++ [], fun _ => 0⟩ ↔
        (BittorrentMessageId.haveMessage = .piece → 0 ≤ 2 ^ 23 - 9) ∧
          (BittorrentMessageId.haveMessage = .bitfield → getBitfieldByteSize 1 ≤ 2 ^ 23 - 1)) := by
  have composable : Composable (defaultBittorrentOptions id)
      (singlePiece 5 (by decide) (by decide)) (initBitfield 1)
      ⟨0, 0, 0, 0, .haveMessage, false, false⟩ [] := by
    constructor
    · rfl
    · rfl
    · exact fun _ => Nat.zero_lt_one
    · simp
    · simp
  exact ⟨composable, understood_iff id composable [] fun _ => 0⟩

theorem composable_wholePiece {length : Nat} (positive : 0 < length) (bound : length < 2 ^ 31 - 1)
    (accepted : length ≤ 2 ^ 23) {data : List UInt8} (whole : data.length = length) :
    Composable (defaultBittorrentOptions id) (singlePiece length positive bound) (initBitfield 1)
      ⟨0, 0, length, 0, .piece, false, false⟩ data := by
  constructor
  · rfl
  · rfl
  · simp
  · simp
  · refine fun _ => ⟨⟨Nat.zero_lt_one, ?_, accepted, Nat.two_pow_pos 32⟩, whole⟩
    simp only [getBittorrentPieceLength, singlePiece, Nat.zero_add]
    rw [Nat.mod_eq_of_lt (by omega)]
    simp

/-- A request for a whole piece of 8 MiB is accepted, but the answer to it is not. -/
theorem understood_largestBlock :
    Composable (defaultBittorrentOptions id) (singlePiece (2 ^ 23) (by decide) (by decide))
        (initBitfield 1) ⟨0, 0, 2 ^ 23, 0, .piece, false, false⟩ (List.replicate (2 ^ 23) 0) ∧
      ¬Understood (defaultBittorrentOptions id) (initBitfield 1)
        ⟨0, 0, 2 ^ 23, 0, .piece, false, false⟩ (List.replicate (2 ^ 23) 0)
        ⟨composeBittorrentPeerMessage (initBitfield 1) ⟨0, 0, 2 ^ 23, 0, .piece, false, false⟩
          (List.replicate (2 ^ 23) 0), fun _ => 0⟩ := by
  have composable := composable_wholePiece (by decide) (by decide) (by decide)
    (List.length_replicate (n := 2 ^ 23) (a := (0 : UInt8)))
  refine ⟨composable, fun understood => ?_⟩
  have granted : bittorrentRequestLength ≤ bittorrentRequestAcceptLength := by decide
  rw [← List.append_nil (composeBittorrentPeerMessage _ _ _)] at understood
  have fits := (understood_iff_fits composable granted [] fun _ => 0).mp understood
  rw [messageBody_length, List.length_replicate] at fits
  exact absurd fits (by decide)

end KcnTools.Bittorrent
