import KcnTools.Util.Bitfield

/-!
The data of a running torrent (`common.h`, `piececache.h`) and the request lists
of its peers (`common.c`). Peers, requests and pieces are named by their position
in the list or table that holds them.
-/

namespace KcnTools.Bittorrent

inductive BittorrentState
  | ok | error | requestFailure | outOfMem | cacheFailure | cacheResume | fileMissing
  deriving DecidableEq

def bittorrentNullId : List UInt8 := List.replicate 20 0

def bittorrentIdIsEmpty (id : List UInt8) : Bool := id = bittorrentNullId

/-- Peer-wire state and message IDs; a byte above 8 is the ID of no known message. -/
inductive BittorrentMessageId
  | error | incomplete | keepAlive
  | choke | unchoke | interested | notInterested | haveMessage | bitfield | request | piece | cancel
  | unknown (value : UInt8)
  deriving DecidableEq

def messageIdOfByte (byte : UInt8) : BittorrentMessageId :=
  match byte.toNat with
  | 0 => .choke
  | 1 => .unchoke
  | 2 => .interested
  | 3 => .notInterested
  | 4 => .haveMessage
  | 5 => .bitfield
  | 6 => .request
  | 7 => .piece
  | 8 => .cancel
  | _ => .unknown byte

def messageIdByte : BittorrentMessageId → UInt8
  | .error => 253
  | .incomplete => 254
  | .keepAlive => 255
  | .choke => 0
  | .unchoke => 1
  | .interested => 2
  | .notInterested => 3
  | .haveMessage => 4
  | .bitfield => 5
  | .request => 6
  | .piece => 7
  | .cancel => 8
  | .unknown value => value

structure BittorrentPeerRequest where
  piece : Nat
  offset : Nat
  length : Nat
  block : Nat
  id : BittorrentMessageId
  cloned : Bool
  requested : Bool
  deriving DecidableEq

structure BittorrentPeerStatus where
  requests : List BittorrentPeerRequest
  choked : Bool
  interested : Bool
  bitfield : Bool
  seeder : Bool
  deriving DecidableEq

structure BittorrentPeerConnection where
  localStatus : BittorrentPeerStatus
  remoteStatus : BittorrentPeerStatus
  queue : List BittorrentPeerRequest
  bitfield : Bitfield
  /-- The message that is being written to the socket. -/
  writeBuffer : Option (List UInt8)
  deriving DecidableEq

structure BittorrentFile where
  length : Nat
  selected : Bool
  name : List UInt8
  deriving DecidableEq

/-- The bounds are the ones that parsing and checking the metafile leave. -/
structure BittorrentMeta where
  pieces : Nat
  pieceLength : Nat
  lastPieceLength : Nat
  pieceHash : List UInt8
  files : List BittorrentFile
  piecesPositive : 0 < pieces
  piecesBound : pieces * 20 < 2 ^ 31 - 1
  pieceLengthBound : pieceLength < 2 ^ 31 - 1
  lastPieceLengthPositive : 0 < lastPieceLength
  lastPieceLengthBound : lastPieceLength ≤ pieceLength

theorem onePiece_bound : 1 * 20 < 2 ^ 31 - 1 := by decide

theorem twoPieces_bound : 2 * 20 < 2 ^ 31 - 1 := by decide

theorem oneByte_bound : 1 < 2 ^ 31 - 1 := by decide

theorem oneByte_le : 1 ≤ 1 := Nat.le_refl 1

inductive BittorrentConnectionMode
  | pieceless | normal | endGame | seeder
  deriving DecidableEq

structure BittorrentPieceCacheEntry where
  rarity : Nat
  completed : Bool
  remaining : Bool
  locked : Bool
  selected : Bool
  blocks : Option Bitfield
  data : Option (List UInt8)
  deriving DecidableEq

/-- `partialDownload` is the source's `partial`, and `resumeFd` is -1 when no
resume thread is read from. -/
structure BittorrentPieceCache where
  remainingPieces : Nat
  completedPieces : Nat
  loadingPieces : Nat
  rejectedPieces : Nat
  unavailablePieces : Nat
  partialPieces : Nat
  lockedPieces : Nat
  partialDownload : Bool
  resumeFd : Int
  resumePos : Nat
  bitfield : Bitfield
  queue : List Nat
  freeList : List BittorrentPeerRequest
  entries : List BittorrentPieceCacheEntry

/-- The byte counts of the connection; `estLength` is -1 before the first update. -/
structure BittorrentStats where
  estLength : Int
  start : Int
  received : Int
  downloaded : Int
  uploaded : Int
  left : Int
  deriving DecidableEq

structure BittorrentConnection where
  mode : BittorrentConnectionMode
  metainfo : BittorrentMeta
  cache : BittorrentPieceCache
  peers : List BittorrentPeerConnection
  stats : BittorrentStats

/-- The user's options with the bounds their declarations set, and the hash function. -/
structure BittorrentOptions where
  requestLength : Nat
  requestQueueSize : Nat
  rarestFirstCutoff : Nat
  maxMessageLength : Nat
  maxRequestLength : Nat
  pieceCacheSize : Nat
  sha1 : List UInt8 → List UInt8
  requestLengthPositive : 0 < requestLength
  requestLengthBound : requestLength < 2 ^ 31
  maxMessageLengthBound : maxMessageLength < 2 ^ 31
  maxRequestLengthBound : maxRequestLength < 2 ^ 31

def bittorrentRequestLength : Nat := 2 ^ 14

def bittorrentRequestAcceptLength : Nat := 2 ^ 23

def bittorrentMessageMaxSize : Nat := 2 ^ 23

def defaultBittorrentOptions (sha1 : List UInt8 → List UInt8) : BittorrentOptions where
  requestLength := bittorrentRequestLength
  requestQueueSize := 5
  rarestFirstCutoff := 4
  maxMessageLength := bittorrentMessageMaxSize
  maxRequestLength := bittorrentRequestAcceptLength
  pieceCacheSize := 1048576
  sha1 := sha1
  requestLengthPositive := by decide
  requestLengthBound := by decide
  maxMessageLengthBound := by decide
  maxRequestLengthBound := by decide

def getBittorrentPieceLength (metainfo : BittorrentMeta) (piece : Nat) : Nat :=
  if piece = metainfo.pieces - 1 then metainfo.lastPieceLength else metainfo.pieceLength

def bittorrentPieceIsValid (options : BittorrentOptions) (metainfo : BittorrentMeta) (piece : Nat)
    (data : List UInt8) : Bool :=
  options.sha1 data = (metainfo.pieceHash.drop (piece * 20)).take 20

def moveCounter (counter : Nat) (delta : Int) : Nat := ((counter + delta) % 2 ^ 32).toNat

def isRequestFor (piece offset length : Nat) (request : BittorrentPeerRequest) : Bool :=
  request.piece = piece && request.offset = offset && request.length = length

def getBittorrentPeerRequest (status : BittorrentPeerStatus) (piece offset length : Nat) :
    Option BittorrentPeerRequest :=
  status.requests.find? (isRequestFor piece offset length)

def addBittorrentPeerRequest (status : BittorrentPeerStatus) (piece offset length : Nat) :
    BittorrentPeerStatus :=
  if (getBittorrentPeerRequest status piece offset length).isSome then status
  else { status with requests := status.requests ++ [⟨piece, offset, length, 0, .choke, false, false⟩] }

def delBittorrentPeerRequest (status : BittorrentPeerStatus) (piece offset length : Nat) :
    BittorrentPeerStatus :=
  { status with requests := status.requests.eraseP (isRequestFor piece offset length) }

def updateBittorrentConnectionStats (bittorrent : BittorrentConnection)
    (downloaded uploaded received : Int) : BittorrentConnection :=
  let stats := bittorrent.stats
  let length : Int :=
    (bittorrent.metainfo.pieces - 1 : Nat) * bittorrent.metainfo.pieceLength +
      bittorrent.metainfo.lastPieceLength
  let known := if stats.estLength = -1 then { stats with estLength := length, left := length }
    else stats
  { bittorrent with
    stats := { known with
      received := known.received + received
      start := known.start + downloaded
      downloaded := if 0 < downloaded then known.downloaded + downloaded else known.downloaded
      uploaded := known.uploaded + uploaded
      left := known.left - downloaded } }

theorem getBittorrentPieceLength_positive (metainfo : BittorrentMeta) (piece : Nat) :
    0 < getBittorrentPieceLength metainfo piece := by
  have positive := metainfo.lastPieceLengthPositive
  have bound := metainfo.lastPieceLengthBound
  simp only [getBittorrentPieceLength]
  split <;> omega

theorem getBittorrentPieceLength_lt (metainfo : BittorrentMeta) (piece : Nat) :
    getBittorrentPieceLength metainfo piece < 2 ^ 31 - 1 := by
  have length := metainfo.pieceLengthBound
  have bound := metainfo.lastPieceLengthBound
  simp only [getBittorrentPieceLength]
  split <;> omega

theorem isRequestFor_iff {piece offset length : Nat} {request : BittorrentPeerRequest} :
    isRequestFor piece offset length request = true ↔
      request.piece = piece ∧ request.offset = offset ∧ request.length = length := by
  simp [isRequestFor, and_assoc]

theorem moveCounter_moveCounter (counter : Nat) (first second : Int) :
    moveCounter (moveCounter counter first) second = moveCounter counter (first + second) := by
  simp only [moveCounter]
  omega

theorem moveCounter_lt (counter : Nat) (delta : Int) : moveCounter counter delta < 2 ^ 32 := by
  simp only [moveCounter]
  omega

theorem moveCounter_of_sum {counter next : Nat} {delta : Int} (sum : counter + delta = next)
    (small : next < 2 ^ 32) : moveCounter counter delta = next := by
  simp only [moveCounter]
  omega

end KcnTools.Bittorrent
