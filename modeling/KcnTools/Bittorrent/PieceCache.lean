import KcnTools.Bittorrent.PieceSelect
import KcnTools.Bittorrent.PieceFiles

/-!
The piece cache (`piececache.c`): requests handed back, the rarity index, received
blocks, the data of pieces, and resuming a download from disk.
-/

namespace KcnTools.Bittorrent

def handleBittorrentModeChanges (options : BittorrentOptions) (bittorrent : BittorrentConnection) :
    BittorrentConnection :=
  let cache := bittorrent.cache
  if cache.completedPieces = bittorrent.metainfo.pieces ∨
      (cache.partialDownload ∧ cache.partialPieces = cache.completedPieces) then
    { bittorrent with
      mode := .seeder
      peers := bittorrent.peers.map setBittorrentPeerNotInterested }
  else if bittorrent.mode = .pieceless ∧ options.rarestFirstCutoff ≤ cache.completedPieces then
    { bittorrent with mode := .normal }
  else bittorrent

def holdsRequest (request : BittorrentPeerRequest) (peer : BittorrentPeerConnection) : Bool :=
  (findLocalBittorrentPeerRequest peer request).isSome

def singleClone (request : BittorrentPeerRequest) :
    List BittorrentPeerConnection → Nat → Option Nat → Option Nat
  | [], _, single => single
  | peer :: peers, index, single =>
      if !holdsRequest request peer then singleClone request peers (index + 1) single
      else if single.isSome then none
      else singleClone request peers (index + 1) (some index)

def clearFirst (matched : BittorrentPeerRequest → Bool) :
    List BittorrentPeerRequest → List BittorrentPeerRequest
  | [] => []
  | request :: rest =>
      if matched request then { request with cloned := false } :: rest
      else request :: clearFirst matched rest

def clearClone (request : BittorrentPeerRequest) (peer : BittorrentPeerConnection) :
    BittorrentPeerConnection :=
  { peer with
    localStatus.requests := clearFirst (isRequestFor request.piece request.offset request.length)
      peer.localStatus.requests }

def clearClonedBittorrentPeerRequest (peers : List BittorrentPeerConnection)
    (request : BittorrentPeerRequest) : List BittorrentPeerConnection :=
  match singleClone request peers 0 none with
  | none => peers
  | some index => peers.modify index (clearClone request)

def addRequestToBittorrentPieceCache (bittorrent : BittorrentConnection)
    (request : BittorrentPeerRequest) : BittorrentConnection :=
  if !request.cloned then
    { bittorrent with
      cache := { bittorrent.cache with
        freeList := { request with requested := false } :: bittorrent.cache.freeList } }
  else
    { bittorrent with peers := clearClonedBittorrentPeerRequest bittorrent.peers request }

def addRequestsToBittorrentPieceCache (index : Nat) :
    Nat → BittorrentConnection → BittorrentConnection
  | 0, bittorrent => bittorrent
  | count + 1, bittorrent =>
      match (bittorrent.peers[index]?).bind fun peer => peer.localStatus.requests.head? with
      | none => bittorrent
      | some request =>
          let removed := bittorrent.modifyPeer index fun peer =>
            { peer with localStatus.requests := peer.localStatus.requests.tail }
          addRequestsToBittorrentPieceCache index count
            (addRequestToBittorrentPieceCache removed request)

def updateBittorrentPieceCache (cache : BittorrentPieceCache) (piece : Nat) : BittorrentPieceCache :=
  let entry := cache.entry piece
  { cache.modifyEntry piece fun entry => { entry with rarity := (entry.rarity + 1) % 2 ^ 16 } with
    unavailablePieces := if !entry.completed ∧ entry.rarity = 0 then
      moveCounter cache.unavailablePieces (-1) else cache.unavailablePieces }

def updateBittorrentPieceCacheFromBitfield (cache : BittorrentPieceCache) (bitfield : Bitfield) :
    BittorrentPieceCache :=
  (bitfieldSetBits bitfield).foldl updateBittorrentPieceCache cache

def removePieceFromBittorrentPieceCache (cache : BittorrentPieceCache) (piece : Nat) :
    BittorrentPieceCache :=
  let removed := cache.modifyEntry piece fun entry =>
    { entry with rarity := (entry.rarity + (2 ^ 16 - 1)) % 2 ^ 16 }
  let entry := removed.entry piece
  { removed with
    unavailablePieces := if !entry.completed ∧ entry.rarity = 0 then
      moveCounter cache.unavailablePieces 1 else cache.unavailablePieces }

def removeBittorrentPeerFromPieceCache (cache : BittorrentPieceCache) (bitfield : Bitfield) :
    BittorrentPieceCache :=
  (bitfieldSetBits bitfield).foldl removePieceFromBittorrentPieceCache cache

def cancelClonedBittorrentPeerRequests (peers : List BittorrentPeerConnection)
    (request : BittorrentPeerRequest) : List BittorrentPeerConnection :=
  peers.map fun peer =>
    match findLocalBittorrentPeerRequest peer request with
    | none => peer
    | some clone =>
        let cancelled := if clone.requested then cancelBittorrentPeerRequest peer clone else peer
        { cancelled with
          localStatus.requests := cancelled.localStatus.requests.eraseP
            (isRequestFor request.piece request.offset request.length) }

/-- The result of writing a piece: the state of the translation and `errno`. -/
structure BittorrentWrite where
  answer : Nat → BittorrentFileAnswer
  errno : Nat

def pendingRequest (bittorrent : BittorrentConnection) (index piece offset length : Nat) :
    Option BittorrentPeerRequest :=
  if (bittorrent.cache.entry piece).blocks.isNone then none
  else (bittorrent.peers[index]?).bind fun peer =>
    getBittorrentPeerRequest peer.localStatus piece offset length

theorem pendingRequest_piece {bittorrent : BittorrentConnection}
    {index piece offset length : Nat} {request : BittorrentPeerRequest}
    (pending : pendingRequest bittorrent index piece offset length = some request) :
    ∃ peer, bittorrent.peers[index]? = some peer ∧ request ∈ peer.localStatus.requests ∧
      request.piece = piece := by
  simp only [pendingRequest] at pending
  split at pending
  · simp at pending
  · obtain ⟨peer, here, found⟩ := Option.bind_eq_some_iff.mp pending
    exact ⟨peer, here, List.mem_of_find?_eq_some found,
      (isRequestFor_iff.mp (List.find?_some found)).1⟩

def storeBlock (entry : BittorrentPieceCacheEntry) (pieceLength block offset : Nat)
    (data : List UInt8) : BittorrentPieceCacheEntry :=
  let stored := entry.data.getD (List.replicate pieceLength 0)
  { entry with
    data := some (stored.take offset ++ data ++ stored.drop (offset + data.length))
    blocks := entry.blocks.map fun blocks => setBitfieldBit blocks block }

def receiveBlock (bittorrent : BittorrentConnection) (index : Nat)
    (request : BittorrentPeerRequest) (data : List UInt8) : BittorrentConnection :=
  let pieceLength := getBittorrentPieceLength bittorrent.metainfo request.piece
  let stored := { bittorrent with
    cache := bittorrent.cache.modifyEntry request.piece fun entry =>
      storeBlock entry pieceLength request.block request.offset data }
  let counted := updateBittorrentConnectionStats stored request.length 0 0
  let removed := counted.modifyPeer index fun peer =>
    { peer with
      localStatus.requests := peer.localStatus.requests.eraseP
        (isRequestFor request.piece request.offset request.length) }
  if request.cloned then
    { removed with peers := cancelClonedBittorrentPeerRequests removed.peers request }
  else removed

def rejectPiece (bittorrent : BittorrentConnection) (piece : Nat) : BittorrentConnection :=
  let pieceLength := getBittorrentPieceLength bittorrent.metainfo piece
  let cache := bittorrent.cache.modifyEntry piece fun entry => { entry with data := none }
  let rejected := { bittorrent with
    cache := { cache with rejectedPieces := moveCounter cache.rejectedPieces 1 } }
  let counted := updateBittorrentConnectionStats rejected (-pieceLength) 0 0
  { counted with
    cache := setBittorrentPieceCacheRemaining counted.cache piece 1
    mode := if counted.mode = .endGame then .normal else counted.mode }

def completePiece (options : BittorrentOptions) (write : BittorrentWrite)
    (bittorrent : BittorrentConnection) (piece : Nat) :
    BittorrentConnection × BittorrentState × Nat :=
  let cache := setBittorrentPieceCacheCompleted bittorrent.cache piece
  let written := bittorrentFilePieceTranslation bittorrent.metainfo write.answer
    (cache.entry piece) piece .write
  let saved := cache.modifyEntry piece fun _ => written.2.1
  let announced := { bittorrent with
    peers := setBittorrentPeerHave bittorrent.peers piece
    cache := { saved with queue := if written.2.2 then piece :: saved.queue else saved.queue } }
  if written.1 ≠ .ok then (announced, written.1, write.errno)
  else (handleBittorrentModeChanges options announced, .ok, 0)

def addToBittorrentPieceCache (options : BittorrentOptions) (write : BittorrentWrite)
    (bittorrent : BittorrentConnection) (index piece offset length : Nat) (data : List UInt8) :
    BittorrentConnection × BittorrentState × Nat :=
  match pendingRequest bittorrent index piece offset length with
  | none => (bittorrent, .ok, 0)
  | some request =>
      let received := receiveBlock bittorrent index request data
      let entry := received.cache.entry piece
      if !(entry.blocks.map bitfieldIsSet).getD false then (received, .ok, 0)
      else
        let full := { received with
          cache := received.cache.modifyEntry piece fun entry => { entry with blocks := none } }
        if !bittorrentPieceIsValid options bittorrent.metainfo piece (entry.data.getD []) then
          (rejectPiece full piece, .ok, 0)
        else completePiece options write full piece

def getBittorrentPieceCacheData (answer : Nat → BittorrentFileAnswer)
    (bittorrent : BittorrentConnection) (piece : Nat) :
    BittorrentConnection × Option (List UInt8) :=
  let cache := bittorrent.cache
  let entry := cache.entry piece
  if !entry.completed then (bittorrent, none)
  else if entry.data.isSome then
    ({ bittorrent with cache := { cache with queue := piece :: cache.queue.erase piece } }, entry.data)
  else
    let loaded := bittorrentFilePieceTranslation bittorrent.metainfo answer entry piece .read
    let saved := cache.modifyEntry piece fun _ => loaded.2.1
    ({ bittorrent with
        cache := { saved with queue := if loaded.2.2 then piece :: saved.queue else saved.queue } },
      if loaded.1 = .ok then loaded.2.1.data else none)

def shrinkQueue (options : BittorrentOptions) (metainfo : BittorrentMeta) :
    List Nat → Nat → BittorrentPieceCache → BittorrentPieceCache
  | [], _, cache => cache
  | piece :: rest, size, cache =>
      let current := size + getBittorrentPieceLength metainfo piece
      if current < options.pieceCacheSize ∨ (cache.entry piece).locked then
        shrinkQueue options metainfo rest current cache
      else
        let freed := cache.modifyEntry piece fun entry => { entry with data := none }
        shrinkQueue options metainfo rest current
          { freed with queue := freed.queue.erase piece }

def updateBittorrentPieceCacheState (options : BittorrentOptions)
    (bittorrent : BittorrentConnection) : BittorrentConnection :=
  if options.pieceCacheSize = 0 then bittorrent
  else { bittorrent with
    cache := shrinkQueue options bittorrent.metainfo bittorrent.cache.queue 0 bittorrent.cache }

structure PartialDownload where
  cache : BittorrentPieceCache
  estLength : Int
  completed : Int

def noFileAnswer : BittorrentFileAnswer := ⟨false, [], 0⟩

def preparePiece (metainfo : BittorrentMeta) (download : PartialDownload) (piece : Nat) :
    PartialDownload :=
  let found := bittorrentFilePieceTranslation metainfo (fun _ => noFileAnswer)
    (download.cache.entry piece) piece .seek
  let entry := found.2.1
  let cache := download.cache.modifyEntry piece fun _ => entry
  let marked := { cache with
    partialDownload := cache.partialDownload || entry.locked || !entry.selected
    lockedPieces := if entry.locked then moveCounter cache.lockedPieces 1 else cache.lockedPieces }
  let pieceLength : Int := getBittorrentPieceLength metainfo piece
  if entry.selected then
    { cache := { marked with partialPieces := moveCounter marked.partialPieces 1 }
      estLength := download.estLength + pieceLength
      completed := if entry.completed then download.completed + pieceLength
        else download.completed }
  else
    { download with
      cache := if entry.remaining then setBittorrentPieceCacheRemaining marked piece (-1)
        else marked }

def preparePartialBittorrentDownload (bittorrent : BittorrentConnection) : BittorrentConnection :=
  let prepared := (List.range bittorrent.metainfo.pieces).foldl (preparePiece bittorrent.metainfo)
    ⟨bittorrent.cache, 0, 0⟩
  { bittorrent with
    cache := prepared.cache
    stats := if prepared.cache.partialDownload then
        { bittorrent.stats with estLength := prepared.estLength, start := prepared.completed }
      else bittorrent.stats }

def doneBittorrentResume (bittorrent : BittorrentConnection) : BittorrentConnection :=
  { bittorrent with cache := { bittorrent.cache with resumeFd := -1 } }

def endBittorrentResume (options : BittorrentOptions) (bittorrent : BittorrentConnection) :
    BittorrentConnection :=
  let prepared := preparePartialBittorrentDownload (doneBittorrentResume bittorrent)
  let handled := handleBittorrentModeChanges options prepared
  { handled with
    cache := { handled.cache with
      loadingPieces := 0
      unavailablePieces := moveCounter handled.metainfo.pieces (-handled.cache.completedPieces) } }

def resumePiece (bittorrent : BittorrentConnection) (piece : Nat) : BittorrentConnection :=
  let length : Int := getBittorrentPieceLength bittorrent.metainfo piece
  let cache := setBittorrentPieceCacheCompleted bittorrent.cache piece
  { bittorrent with
    cache := { cache with remainingPieces := moveCounter cache.remainingPieces (-1) }
    stats := { bittorrent.stats with
      left := bittorrent.stats.left - length
      start := bittorrent.stats.start + length } }

def resumePieces (options : BittorrentOptions) :
    List UInt8 → BittorrentConnection → BittorrentConnection
  | [], bittorrent => bittorrent
  | complete :: rest, bittorrent =>
      let piece := bittorrent.cache.resumePos
      let advanced := { bittorrent with
        cache := { bittorrent.cache with resumePos := moveCounter piece 1 } }
      if bittorrent.metainfo.pieces ≤ piece then endBittorrentResume options advanced
      else if complete = 0 then resumePieces options rest advanced
      else resumePieces options rest (resumePiece advanced piece)

def bittorrentResumeReader (options : BittorrentOptions) (completed : List UInt8)
    (bittorrent : BittorrentConnection) : BittorrentConnection :=
  if completed = [] then endBittorrentResume options bittorrent
  else resumePieces options completed bittorrent

def emptyPieceCache (pieces : Nat) : BittorrentPieceCache where
  remainingPieces := 0
  completedPieces := 0
  loadingPieces := 0
  rejectedPieces := 0
  unavailablePieces := 0
  partialPieces := 0
  lockedPieces := 0
  partialDownload := false
  resumeFd := -1
  resumePos := 0
  bitfield := initBitfield pieces
  queue := []
  freeList := []
  entries := List.replicate pieces blankEntry

def initBittorrentPieceCache (metainfo : BittorrentMeta) (resumeFd : Int) : BittorrentConnection :=
  let connection : BittorrentConnection :=
    { mode := .pieceless, metainfo, cache := emptyPieceCache metainfo.pieces, peers := [],
      stats := ⟨-1, 0, 0, 0, 0, 0⟩ }
  let counted := updateBittorrentConnectionStats connection 0 0 0
  let cache := (List.range metainfo.pieces).foldl
    (fun cache piece => setBittorrentPieceCacheRemaining cache piece 1) counted.cache
  { counted with cache := { cache with resumeFd } }

end KcnTools.Bittorrent
