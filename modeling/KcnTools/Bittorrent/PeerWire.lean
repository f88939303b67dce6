import KcnTools.Bittorrent.PieceCache
import KcnTools.Lib.BigEndian

/-!
Peer-wire messages (`peerwire.c`) and the end of a peer connection
(`peerconnect.c`): composing, checking and reading one message, and the updates
that follow.
-/

namespace KcnTools.Bittorrent

structure ReadBuffer where
  data : List UInt8
  beyond : Nat → UInt8

def ReadBuffer.byte (buffer : ReadBuffer) (position : Nat) : UInt8 :=
  buffer.data.getD position (buffer.beyond position)

def addBittorrentPeerInteger (integer : Nat) : List UInt8 := BigEndian.encode 4 integer

def getBittorrentPeerInteger (buffer : ReadBuffer) (offset : Nat) : Nat :=
  BigEndian.decode [buffer.byte offset, buffer.byte (offset + 1), buffer.byte (offset + 2),
    buffer.byte (offset + 3)]

def messagePayload (bitfield : Bitfield) (message : BittorrentPeerRequest) (data : List UInt8) :
    List UInt8 :=
  match message.id with
  | .haveMessage => addBittorrentPeerInteger message.piece
  | .bitfield => bitfield.bits
  | .request | .cancel =>
      addBittorrentPeerInteger message.piece ++ addBittorrentPeerInteger message.offset ++
        addBittorrentPeerInteger message.length
  | .piece =>
      addBittorrentPeerInteger message.piece ++ addBittorrentPeerInteger message.offset ++ data
  | _ => []

def messageBody (bitfield : Bitfield) (message : BittorrentPeerRequest) (data : List UInt8) :
    List UInt8 :=
  (if message.id = .keepAlive then [] else [messageIdByte message.id]) ++
    messagePayload bitfield message data

def composeBittorrentPeerMessage (bitfield : Bitfield) (message : BittorrentPeerRequest)
    (data : List UInt8) : List UInt8 :=
  addBittorrentPeerInteger (messageBody bitfield message data).length ++
    messageBody bitfield message data

def blockPositions (message : BittorrentPeerRequest) : List Nat :=
  List.range' message.offset message.length

def readBlock (data : List UInt8) (beyond : Nat → UInt8) (message : BittorrentPeerRequest) :
    List UInt8 :=
  (blockPositions message).map fun position => data.getD position (beyond position)

def checkBittorrentPeerMessage (options : BittorrentOptions) (buffer : ReadBuffer) :
    BittorrentMessageId × Nat :=
  if buffer.data.length < 4 then (.incomplete, 0)
  else
    let messageLength := getBittorrentPeerInteger buffer 0
    if options.maxMessageLength < messageLength then (.error, 0)
    else if buffer.data.length - 4 < messageLength then (.incomplete, 0)
    else if messageLength = 0 then (.keepAlive, 0)
    else (messageIdOfByte (buffer.byte 4), messageLength)

/-- The least message length that passes the check of its ID. -/
def messageMinimum : BittorrentMessageId → Nat
  | .haveMessage => 4
  | .request | .cancel => 4 * 3
  | .piece => 4 * 2
  | _ => 0

structure PeerMessageFields where
  piece : Nat
  offset : Nat
  length : Nat
  data : List UInt8
  deriving DecidableEq

def readPeerMessageFields (id : BittorrentMessageId) (buffer : ReadBuffer) (messageLength : Nat) :
    PeerMessageFields :=
  match id with
  | .haveMessage => ⟨getBittorrentPeerInteger buffer 5, 0, 0, []⟩
  | .bitfield =>
      let length := messageLength - 1
      ⟨0, 0, length, (buffer.data.drop 5).take length⟩
  | .request | .cancel =>
      ⟨getBittorrentPeerInteger buffer 5, getBittorrentPeerInteger buffer 9,
        getBittorrentPeerInteger buffer 13, []⟩
  | .piece =>
      let length := (messageLength + (2 ^ 32 - 9)) % 2 ^ 32
      ⟨getBittorrentPeerInteger buffer 5, getBittorrentPeerInteger buffer 9, length,
        (buffer.data.drop 13).take length⟩
  | _ => ⟨0, 0, 0, []⟩

/-- The fields that are read for a message, none when it is below the minimum of its ID. -/
def fieldsRead (id : BittorrentMessageId) (buffer : ReadBuffer) (messageLength : Nat) :
    Option PeerMessageFields :=
  if messageLength < messageMinimum id then none
  else some (readPeerMessageFields id buffer messageLength)

def readChoke (bittorrent : BittorrentConnection) (index : Nat) (peer : BittorrentPeerConnection) :
    BittorrentConnection :=
  let choked := bittorrent.modifyPeer index fun peer => { peer with localStatus.choked := true }
  (addRequestsToBittorrentPieceCache index peer.localStatus.requests.length choked).modifyPeer index
    fun peer => { peer with queue := peer.queue.filter fun message => message.id != .cancel }

def readHave (bittorrent : BittorrentConnection) (index : Nat) (peer : BittorrentPeerConnection)
    (piece : Nat) : BittorrentConnection :=
  if bittorrent.metainfo.pieces ≤ piece then bittorrent
  else if testBitfieldBit peer.bitfield piece then bittorrent
  else
    let bitfield := setBitfieldBit peer.bitfield piece
    let recorded := { peer with bitfield, remoteStatus.seeder := bitfieldIsSet bitfield }
    let wanted := !testBitfieldBit bittorrent.cache.bitfield piece
    { bittorrent.modifyPeer index fun _ =>
        if wanted then setBittorrentPeerInterested recorded else recorded with
      cache := updateBittorrentPieceCache bittorrent.cache piece }

def readBitfield (bittorrent : BittorrentConnection) (index : Nat) (peer : BittorrentPeerConnection)
    (bits : List UInt8) : BittorrentConnection :=
  if getBitfieldByteSize peer.bitfield.bitsize < bits.length then bittorrent
  else if peer.remoteStatus.bitfield then bittorrent
  else
    let bitfield := copyBitfield peer.bitfield bits
    let recorded := { peer with bitfield, remoteStatus.seeder := bitfieldIsSet bitfield }
    let wanted := (bitfieldSetBits bitfield).any fun piece =>
      !testBitfieldBit bittorrent.cache.bitfield piece
    { bittorrent.modifyPeer index fun _ =>
        if wanted then setBittorrentPeerInterested recorded else recorded with
      cache := updateBittorrentPieceCacheFromBitfield bittorrent.cache bitfield }

/-- A request that is passed over; the sum of offset and length has 32 bits. -/
def isIgnoredRequest (bittorrent : BittorrentConnection) (peer : BittorrentPeerConnection)
    (fields : PeerMessageFields) : Bool :=
  peer.remoteStatus.choked || bittorrent.metainfo.pieces ≤ fields.piece ||
    getBittorrentPieceLength bittorrent.metainfo fields.piece <
      (fields.offset + fields.length) % 2 ^ 32 ||
    !testBitfieldBit bittorrent.cache.bitfield fields.piece

def isIgnoredPiece (bittorrent : BittorrentConnection) (peer : BittorrentPeerConnection)
    (fields : PeerMessageFields) : Bool :=
  peer.localStatus.choked || bittorrent.metainfo.pieces ≤ fields.piece ||
    getBittorrentPieceLength bittorrent.metainfo fields.piece <
      (fields.offset + fields.length) % 2 ^ 32 ||
    fields.length = 0

def handleBittorrentPeerMessage (options : BittorrentOptions) (write : BittorrentWrite)
    (bittorrent : BittorrentConnection) (index : Nat) (peer : BittorrentPeerConnection)
    (id : BittorrentMessageId) (fields : PeerMessageFields) :
    BittorrentConnection × BittorrentState × Nat :=
  match id with
  | .choke => (readChoke bittorrent index peer, .ok, 0)
  | .unchoke =>
      (bittorrent.modifyPeer index fun peer => { peer with localStatus.choked := false }, .ok, 0)
  | .interested =>
      (bittorrent.modifyPeer index fun peer => { peer with remoteStatus.interested := true }, .ok, 0)
  | .notInterested =>
      (bittorrent.modifyPeer index fun peer => { peer with remoteStatus.interested := false }, .ok, 0)
  | .haveMessage => (readHave bittorrent index peer fields.piece, .ok, 0)
  | .bitfield => (readBitfield bittorrent index peer fields.data, .ok, 0)
  | .request =>
      if isIgnoredRequest bittorrent peer fields then (bittorrent, .ok, 0)
      else if options.maxRequestLength < fields.length then (bittorrent, .error, 0)
      else
        (bittorrent.modifyPeer index fun peer =>
          { peer with
            remoteStatus := addBittorrentPeerRequest peer.remoteStatus fields.piece fields.offset
              fields.length }, .ok, 0)
  | .cancel =>
      if isIgnoredRequest bittorrent peer fields then (bittorrent, .ok, 0)
      else if options.maxRequestLength < fields.length then (bittorrent, .error, 0)
      else
        (bittorrent.modifyPeer index fun peer =>
          { peer with
            remoteStatus := delBittorrentPeerRequest peer.remoteStatus fields.piece fields.offset
              fields.length }, .ok, 0)
  | .piece =>
      if isIgnoredPiece bittorrent peer fields then (bittorrent, .ok, 0)
      else addToBittorrentPieceCache options write bittorrent index fields.piece fields.offset
        fields.length fields.data
  | _ => (bittorrent, .ok, 0)

def readBittorrentPeerMessage (options : BittorrentOptions) (write : BittorrentWrite)
    (bittorrent : BittorrentConnection) (index : Nat) (peer : BittorrentPeerConnection)
    (id : BittorrentMessageId) (buffer : ReadBuffer) (messageLength : Nat) :
    BittorrentConnection × BittorrentState × Nat :=
  match fieldsRead id buffer messageLength with
  | none => (bittorrent, .error, 0)
  | some fields =>
      let handled := handleBittorrentPeerMessage options write bittorrent index peer id fields
      if handled.2.1 ≠ .ok then handled
      else
        (handled.1.modifyPeer index fun peer => { peer with remoteStatus.bitfield := true }, .ok, 0)

def doneBittorrentPeerConnection (bittorrent : BittorrentConnection) (index : Nat) :
    BittorrentConnection :=
  match bittorrent.peers[index]? with
  | none => bittorrent
  | some peer =>
      let removed := { bittorrent with peers := bittorrent.peers.eraseIdx index }
      let returned := peer.localStatus.requests.foldl addRequestToBittorrentPieceCache removed
      { returned with cache := removeBittorrentPeerFromPieceCache returned.cache peer.bitfield }

/-- What the file system and the memory behind the buffer contribute to one message. -/
structure BittorrentReceive where
  write : BittorrentWrite
  beyond : Nat → UInt8

/-- How a turn of the message loop ends: with more data to wait for, with a message that
was given to `read_bittorrent_peer_message`, with one too long for it, or without the peer. -/
inductive PeerReading
  | waiting
  | accepted (id : BittorrentMessageId) (messageLength : Nat)
  | rejected (id : BittorrentMessageId) (messageLength : Nat)
  | aborted (id : BittorrentMessageId) (messageLength : Nat)
  | overlong
  | dropped
  deriving DecidableEq

def PeerReading.isAborted : PeerReading → Bool
  | .aborted _ _ => true
  | _ => false

def receiveBittorrentPeerMessage (options : BittorrentOptions) (receive : BittorrentReceive)
    (bittorrent : BittorrentConnection) (index : Nat) (peer : BittorrentPeerConnection)
    (data : List UInt8) : BittorrentConnection × PeerReading :=
  if data.length ≤ 4 then (bittorrent, .waiting)
  else
    let buffer : ReadBuffer := ⟨data, receive.beyond⟩
    let checked := checkBittorrentPeerMessage options buffer
    if checked.1 = .incomplete then (bittorrent, .waiting)
    else if checked.1 = .error then (doneBittorrentPeerConnection bittorrent index, .overlong)
    else
      let read := readBittorrentPeerMessage options receive.write bittorrent index peer checked.1
        buffer checked.2
      if read.2.1 = .ok then
        (updateBittorrentConnectionStats read.1 0 0 (checked.2 + 4), .accepted checked.1 checked.2)
      else if read.2.1 ≠ .outOfMem ∧ read.2.2 = 0 then
        (doneBittorrentPeerConnection read.1 index, .rejected checked.1 checked.2)
      else (read.1, .aborted checked.1 checked.2)

end KcnTools.Bittorrent
