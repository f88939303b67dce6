import KcnTools.Bittorrent.Torrent
import KcnTools.Lib.Modify
import Mathlib.Logic.Relation

/-!
The elementary changes of a torrent. Every event is a sequence of them, so that an
invariant of the torrent has to be checked for these alone.
-/

namespace KcnTools.Bittorrent

open Modify

/-- The part of a request that says what it is for and whether it was cloned. -/
structure BlockClaim where
  piece : Nat
  offset : Nat
  length : Nat
  block : Nat
  cloned : Bool
  deriving DecidableEq

def blockClaim (request : BittorrentPeerRequest) : BlockClaim :=
  ⟨request.piece, request.offset, request.length, request.block, request.cloned⟩

structure QuietPeer (before after : BittorrentPeerConnection) : Prop where
  bitfield : after.bitfield = before.bitfield
  requests : after.localStatus.requests.map blockClaim = before.localStatus.requests.map blockClaim
  serving : ∀ request ∈ after.remoteStatus.requests, ∃ earlier ∈ before.remoteStatus.requests,
    request.piece = earlier.piece ∧ request.offset = earlier.offset ∧
      request.length = earlier.length
  greeted : before.remoteStatus.bitfield = true → after.remoteStatus.bitfield = true

structure QuietCache (before after : BittorrentPieceCache) : Prop where
  entries : List.Forall₂ SameProgress before.entries after.entries
  freeList : after.freeList = before.freeList
  bitfield : after.bitfield = before.bitfield
  resumeFd : after.resumeFd = before.resumeFd
  resumePos : after.resumeFd ≠ -1 → after.resumePos = before.resumePos
  remainingPieces : after.remainingPieces = before.remainingPieces
  completedPieces : after.completedPieces = before.completedPieces
  loadingPieces : after.loadingPieces = before.loadingPieces
  unavailablePieces : after.unavailablePieces = before.unavailablePieces

/-- No bytes are counted as downloaded, once the length of the torrent is set. -/
structure QuietStats (before after : BittorrentStats) : Prop where
  left : before.estLength ≠ -1 → after.left = before.left
  estLength : before.estLength ≠ -1 → after.estLength = before.estLength

/-- Nothing happens to the requests, the piece table and its counters; fewer requests
of a peer may be waiting to be served. -/
structure Quiet (before after : BittorrentConnection) : Prop where
  metainfo : after.metainfo = before.metainfo
  peers : List.Forall₂ QuietPeer before.peers after.peers
  cache : QuietCache before.cache after.cache
  stats : QuietStats before.stats after.stats

theorem SameProgress.refl (entry : BittorrentPieceCacheEntry) : SameProgress entry entry :=
  ⟨rfl, rfl, rfl, rfl⟩

theorem QuietPeer.refl (peer : BittorrentPeerConnection) : QuietPeer peer peer where
  bitfield := rfl
  requests := rfl
  serving request member := ⟨request, member, rfl, rfl, rfl⟩
  greeted := id

theorem QuietPeer.trans {first second third : BittorrentPeerConnection}
    (earlier : QuietPeer first second) (later : QuietPeer second third) : QuietPeer first third where
  bitfield := later.bitfield.trans earlier.bitfield
  requests := later.requests.trans earlier.requests
  serving request member := by
    obtain ⟨middle, found, piece, offset, length⟩ := later.serving request member
    obtain ⟨oldest, kept, same⟩ := earlier.serving middle found
    exact ⟨oldest, kept, piece.trans same.1, offset.trans same.2.1, length.trans same.2.2⟩
  greeted set := later.greeted (earlier.greeted set)

theorem QuietCache.refl (cache : BittorrentPieceCache) : QuietCache cache cache := by
  constructor
  · exact forall₂_self SameProgress.refl _
  · rfl
  · rfl
  · rfl
  · exact fun _ => rfl
  all_goals rfl

theorem QuietCache.trans {first second third : BittorrentPieceCache}
    (earlier : QuietCache first second) (later : QuietCache second third) :
    QuietCache first third where
  entries := forall₂_trans (fun first second => first.trans second) earlier.entries later.entries
  freeList := later.freeList.trans earlier.freeList
  bitfield := later.bitfield.trans earlier.bitfield
  resumeFd := later.resumeFd.trans earlier.resumeFd
  resumePos resuming :=
    (later.resumePos resuming).trans (earlier.resumePos (later.resumeFd ▸ resuming))
  remainingPieces := later.remainingPieces.trans earlier.remainingPieces
  completedPieces := later.completedPieces.trans earlier.completedPieces
  loadingPieces := later.loadingPieces.trans earlier.loadingPieces
  unavailablePieces := later.unavailablePieces.trans earlier.unavailablePieces

theorem QuietStats.refl (stats : BittorrentStats) : QuietStats stats stats :=
  ⟨fun _ => rfl, fun _ => rfl⟩

theorem QuietStats.trans {first second third : BittorrentStats} (earlier : QuietStats first second)
    (later : QuietStats second third) : QuietStats first third where
  left known := (later.left (by rwa [earlier.estLength known])).trans (earlier.left known)
  estLength known :=
    (later.estLength (by rwa [earlier.estLength known])).trans (earlier.estLength known)

theorem Quiet.refl (bittorrent : BittorrentConnection) : Quiet bittorrent bittorrent :=
  ⟨rfl, forall₂_self QuietPeer.refl _, QuietCache.refl _, QuietStats.refl _⟩

theorem Quiet.trans {first second third : BittorrentConnection} (earlier : Quiet first second)
    (later : Quiet second third) : Quiet first third where
  metainfo := later.metainfo.trans earlier.metainfo
  peers := forall₂_trans (fun first second => first.trans second) earlier.peers later.peers
  cache := earlier.cache.trans later.cache
  stats := earlier.stats.trans later.stats

theorem Quiet.modifyPeer (bittorrent : BittorrentConnection) (index : Nat)
    {change : BittorrentPeerConnection → BittorrentPeerConnection}
    (quiet : ∀ peer, bittorrent.peers[index]? = some peer → QuietPeer peer (change peer)) :
    Quiet bittorrent (bittorrent.modifyPeer index change) :=
  ⟨rfl, forall₂_modify_self QuietPeer.refl _ index quiet, QuietCache.refl _, QuietStats.refl _⟩

theorem QuietCache.modifyEntry (cache : BittorrentPieceCache) (piece : Nat)
    {change : BittorrentPieceCacheEntry → BittorrentPieceCacheEntry}
    (quiet : ∀ entry, cache.entries[piece]? = some entry → SameProgress entry (change entry)) :
    QuietCache cache (cache.modifyEntry piece change) := by
  constructor
  · exact forall₂_modify_self SameProgress.refl _ piece quiet
  · rfl
  · rfl
  · rfl
  · exact fun _ => rfl
  all_goals rfl

theorem QuietCache.setEntry (cache : BittorrentPieceCache) (piece : Nat)
    {entry : BittorrentPieceCacheEntry} (same : SameProgress (cache.entry piece) entry) :
    QuietCache cache (cache.modifyEntry piece fun _ => entry) := by
  apply QuietCache.modifyEntry
  intro old found
  rw [BittorrentPieceCache.entry, List.getD_eq_getElem?_getD, found, Option.getD_some] at same
  exact same

theorem Quiet.counted (bittorrent : BittorrentConnection) (uploaded received : Int) :
    Quiet bittorrent (updateBittorrentConnectionStats bittorrent 0 uploaded received) := by
  refine ⟨rfl, forall₂_self QuietPeer.refl _, QuietCache.refl _, fun known => ?_, fun known => ?_⟩
  · simp only [updateBittorrentConnectionStats, if_neg known, Int.sub_zero]
  · simp only [updateBittorrentConnectionStats, if_neg known]

theorem SameRecord.quiet {before after : BittorrentPeerConnection} (same : SameRecord before after)
    (greeted : after.remoteStatus.bitfield = before.remoteStatus.bitfield) :
    QuietPeer before after := by
  obtain ⟨bitfield, requests, serving⟩ := same
  refine ⟨bitfield, ?_, ?_, ?_⟩
  · rw [requests]
  · rw [serving]
    exact (QuietPeer.refl before).serving
  · rw [greeted]
    exact id

theorem sendBittorrentPeerMessage_quiet (peer : BittorrentPeerConnection)
    (id : BittorrentMessageId) (piece offset length : Nat) :
    QuietPeer peer (sendBittorrentPeerMessage peer id piece offset length) :=
  SameRecord.quiet ⟨rfl, rfl, rfl⟩ rfl

theorem setBittorrentPeerNotInterested_quiet (peer : BittorrentPeerConnection) :
    QuietPeer peer (setBittorrentPeerNotInterested peer) := by
  refine (setBittorrentPeerNotInterested_sameRecord peer).quiet ?_
  simp only [setBittorrentPeerNotInterested]
  split <;> rfl

theorem chokeBittorrentPeer_quiet (peer : BittorrentPeerConnection) :
    QuietPeer peer (chokeBittorrentPeer peer) := by
  simp only [chokeBittorrentPeer]
  split
  · exact QuietPeer.refl peer
  · exact ⟨rfl, rfl, by simp, id⟩

theorem unchokeBittorrentPeer_quiet (peer : BittorrentPeerConnection) :
    QuietPeer peer (unchokeBittorrentPeer peer) := by
  simp only [unchokeBittorrentPeer]
  split
  · exact QuietPeer.refl peer
  · exact (QuietPeer.refl peer).trans (SameRecord.quiet ⟨rfl, rfl, rfl⟩ rfl)

theorem setBittorrentPeerHave_quiet (peers : List BittorrentPeerConnection) (piece : Nat) :
    List.Forall₂ QuietPeer peers (setBittorrentPeerHave peers piece) := by
  rw [setBittorrentPeerHave, List.forall₂_map_right_iff]
  refine forall₂_self (fun peer => ?_) peers
  split
  · exact QuietPeer.refl peer
  · exact sendBittorrentPeerMessage_quiet peer _ _ _ _

theorem handleBittorrentModeChanges_quiet (options : BittorrentOptions)
    (bittorrent : BittorrentConnection) :
    Quiet bittorrent (handleBittorrentModeChanges options bittorrent) := by
  simp only [handleBittorrentModeChanges]
  split
  · refine ⟨rfl, ?_, QuietCache.refl _, QuietStats.refl _⟩
    rw [List.forall₂_map_right_iff]
    exact forall₂_self setBittorrentPeerNotInterested_quiet _
  · split
    · exact ⟨rfl, forall₂_self QuietPeer.refl _, QuietCache.refl _, QuietStats.refl _⟩
    · exact Quiet.refl bittorrent

theorem QuietCache.setQueue {before after : BittorrentPieceCache} (quiet : QuietCache before after)
    (queue : List Nat) : QuietCache before { after with queue } :=
  { quiet with }

theorem getBittorrentPieceCacheData_quiet (answer : Nat → BittorrentFileAnswer)
    (bittorrent : BittorrentConnection) (piece : Nat) :
    Quiet bittorrent (getBittorrentPieceCacheData answer bittorrent piece).1 := by
  simp only [getBittorrentPieceCacheData]
  split
  · exact Quiet.refl bittorrent
  · split
    · exact ⟨rfl, forall₂_self QuietPeer.refl _, (QuietCache.refl _).setQueue _, QuietStats.refl _⟩
    · refine ⟨rfl, forall₂_self QuietPeer.refl _, QuietCache.setQueue ?_ _, QuietStats.refl _⟩
      exact QuietCache.setEntry _ piece (bittorrentFilePieceTranslation_sameProgress _ _ _ _ _)

theorem shrinkQueue_quiet (options : BittorrentOptions) (metainfo : BittorrentMeta)
    (queue : List Nat) (size : Nat) (cache : BittorrentPieceCache) :
    QuietCache cache (shrinkQueue options metainfo queue size cache) := by
  induction queue generalizing size cache with
  | nil => exact QuietCache.refl cache
  | cons piece rest ih =>
      simp only [shrinkQueue]
      split
      · exact ih _ cache
      · refine QuietCache.trans ?_ (ih _ _)
        refine QuietCache.setQueue (QuietCache.modifyEntry cache piece ?_) _
        exact fun entry _ => ⟨rfl, rfl, rfl, rfl⟩

theorem updateBittorrentPieceCacheState_quiet (options : BittorrentOptions)
    (bittorrent : BittorrentConnection) :
    Quiet bittorrent (updateBittorrentPieceCacheState options bittorrent) := by
  simp only [updateBittorrentPieceCacheState]
  split
  · exact Quiet.refl bittorrent
  · exact ⟨rfl, forall₂_self QuietPeer.refl _, shrinkQueue_quiet _ _ _ _ _, QuietStats.refl _⟩

theorem enterEndGame_quiet (bittorrent : BittorrentConnection) :
    Quiet bittorrent (enterEndGame bittorrent) := by
  simp only [enterEndGame]
  split
  · exact ⟨rfl, forall₂_self QuietPeer.refl _, QuietCache.refl _, QuietStats.refl _⟩
  · exact Quiet.refl bittorrent

def appendRequest (request : BittorrentPeerRequest) (peer : BittorrentPeerConnection) :
    BittorrentPeerConnection :=
  { peer with localStatus.requests := peer.localStatus.requests ++ [request] }

def dropFirstRequest (peer : BittorrentPeerConnection) : BittorrentPeerConnection :=
  { peer with localStatus.requests := peer.localStatus.requests.tail }

def dropBlocks (bittorrent : BittorrentConnection) (piece : Nat) : BittorrentConnection :=
  { bittorrent with
    cache := bittorrent.cache.modifyEntry piece fun entry => { entry with blocks := none } }

def fillPiece (bittorrent : BittorrentConnection) (piece : Nat) : BittorrentConnection :=
  { dropBlocks bittorrent piece with
    cache := setBittorrentPieceCacheCompleted (dropBlocks bittorrent piece).cache piece }

def recordHave (bittorrent : BittorrentConnection) (index piece : Nat) : BittorrentConnection :=
  { bittorrent.modifyPeer index fun peer =>
      { peer with
        bitfield := setBitfieldBit peer.bitfield piece
        remoteStatus.bitfield := true } with
    cache := updateBittorrentPieceCache bittorrent.cache piece }

def recordBitfield (bittorrent : BittorrentConnection) (index : Nat) (bitfield : Bitfield) :
    BittorrentConnection :=
  { bittorrent.modifyPeer index fun peer =>
      { peer with bitfield, remoteStatus.bitfield := true } with
    cache := updateBittorrentPieceCacheFromBitfield bittorrent.cache bitfield }

def advanceResume (bittorrent : BittorrentConnection) : BittorrentConnection :=
  { bittorrent with
    cache := { bittorrent.cache with resumePos := moveCounter bittorrent.cache.resumePos 1 } }

inductive BittorrentTransition (options : BittorrentOptions) :
    BittorrentConnection → BittorrentConnection → Prop
  | quiet {before after : BittorrentConnection} (same : Quiet before after) :
      BittorrentTransition options before after
  | sort {before : BittorrentConnection} {peers : List BittorrentPeerConnection}
      (sorted : peers.Perm before.peers) :
      BittorrentTransition options before { before with peers }
  | take {before : BittorrentConnection} {index : Nat} {peer : BittorrentPeerConnection}
      {request : BittorrentPeerRequest} {rest : List BittorrentPeerRequest}
      (here : before.peers[index]? = some peer)
      (found : findBittorrentFreeListPeerRequest peer none before.cache.freeList =
        some (request, rest)) :
      BittorrentTransition options before
        (({ before with cache := { before.cache with freeList := rest } }).modifyPeer index
          (appendRequest request))
  | clone {before : BittorrentConnection} {index : Nat} {peer : BittorrentPeerConnection}
      {place : Nat × Nat} {request : BittorrentPeerRequest}
      (here : before.peers[index]? = some peer)
      (found : findClonableBittorrentPeerRequest before.peers peer = some place)
      (cloned : (cloneBittorrentPeerRequest before place).2 = some request) :
      BittorrentTransition options before
        ((cloneBittorrentPeerRequest before place).1.modifyPeer index (appendRequest request))
  | split {before : BittorrentConnection} {index piece : Nat} {peer : BittorrentPeerConnection}
      {request : BittorrentPeerRequest} (here : before.peers[index]? = some peer)
      (remaining : (before.cache.entry piece).remaining = true)
      (offered : testBitfieldBit peer.bitfield piece = true)
      (last : (addPieceToBittorrentFreeList options before piece).2 = some request) :
      BittorrentTransition options before
        ((addPieceToBittorrentFreeList options before piece).1.modifyPeer index
          (appendRequest request))
  | requeue {before : BittorrentConnection} {index : Nat} {peer : BittorrentPeerConnection}
      {request : BittorrentPeerRequest} (here : before.peers[index]? = some peer)
      (first : peer.localStatus.requests.head? = some request) :
      BittorrentTransition options before
        (addRequestToBittorrentPieceCache (before.modifyPeer index dropFirstRequest) request)
  | leave (before : BittorrentConnection) (index : Nat) :
      BittorrentTransition options before (doneBittorrentPeerConnection before index)
  | store {before : BittorrentConnection} {index piece offset length : Nat}
      {request : BittorrentPeerRequest} (data : List UInt8)
      (pending : pendingRequest before index piece offset length = some request)
      (unfinished : ((((receiveBlock before index request data).cache.entry piece).blocks.map
        bitfieldIsSet).getD false) = false) :
      BittorrentTransition options before (receiveBlock before index request data)
  | reject {before : BittorrentConnection} {index piece offset length : Nat}
      {request : BittorrentPeerRequest} {blocks : Bitfield} (data : List UInt8)
      (pending : pendingRequest before index piece offset length = some request)
      (loading : ((receiveBlock before index request data).cache.entry piece).blocks = some blocks)
      (full : bitfieldIsSet blocks = true) :
      BittorrentTransition options before
        (rejectPiece (dropBlocks (receiveBlock before index request data) piece) piece)
  | complete {before : BittorrentConnection} {index piece offset length : Nat}
      {request : BittorrentPeerRequest} {blocks : Bitfield} (data : List UInt8)
      (pending : pendingRequest before index piece offset length = some request)
      (loading : ((receiveBlock before index request data).cache.entry piece).blocks = some blocks)
      (full : bitfieldIsSet blocks = true) :
      BittorrentTransition options before
        (fillPiece (receiveBlock before index request data) piece)
  | haveMessage {before : BittorrentConnection} {index piece : Nat}
      {peer : BittorrentPeerConnection} (here : before.peers[index]? = some peer)
      (inside : piece < before.metainfo.pieces)
      (fresh : testBitfieldBit peer.bitfield piece = false) :
      BittorrentTransition options before (recordHave before index piece)
  | bitfield {before : BittorrentConnection} {index : Nat} {peer : BittorrentPeerConnection}
      {bits : List UInt8} (here : before.peers[index]? = some peer)
      (fresh : peer.remoteStatus.bitfield = false) :
      BittorrentTransition options before
        (recordBitfield before index (copyBitfield peer.bitfield bits))
  | serve {before : BittorrentConnection} {index : Nat} {peer : BittorrentPeerConnection}
      {fields : PeerMessageFields} (here : before.peers[index]? = some peer)
      (valid : isIgnoredRequest before peer fields = false)
      (granted : fields.length ≤ options.maxRequestLength) (small : fields.offset < 2 ^ 32) :
      BittorrentTransition options before
        (before.modifyPeer index fun peer =>
          { peer with
            remoteStatus := addBittorrentPeerRequest peer.remoteStatus fields.piece fields.offset
              fields.length })
  | skipped {before : BittorrentConnection} (resuming : before.cache.resumeFd ≠ -1)
      (inside : before.cache.resumePos < before.metainfo.pieces) :
      BittorrentTransition options before (advanceResume before)
  | resumed {before : BittorrentConnection} (resuming : before.cache.resumeFd ≠ -1)
      (inside : before.cache.resumePos < before.metainfo.pieces) :
      BittorrentTransition options before
        (resumePiece (advanceResume before) before.cache.resumePos)
  | ended {before : BittorrentConnection} (resuming : before.cache.resumeFd ≠ -1) (position : Nat) :
      BittorrentTransition options before
        (endBittorrentResume options
          { before with cache := { before.cache with resumePos := position } })

def BittorrentChange (options : BittorrentOptions) :
    BittorrentConnection → BittorrentConnection → Prop :=
  Relation.ReflTransGen (BittorrentTransition options)

variable {options : BittorrentOptions}

theorem Quiet.change {before after : BittorrentConnection} (quiet : Quiet before after) :
    BittorrentChange options before after :=
  .single (.quiet quiet)

theorem BittorrentChange.trans {first second third : BittorrentConnection}
    (earlier : BittorrentChange options first second)
    (later : BittorrentChange options second third) : BittorrentChange options first third :=
  Relation.ReflTransGen.trans earlier later

end KcnTools.Bittorrent
