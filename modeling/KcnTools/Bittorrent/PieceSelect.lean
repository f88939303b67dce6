import KcnTools.Bittorrent.Common

/-! Queueing of peer messages, none of which is written directly (`peerwire.c`, `peerwire.h`). -/

namespace KcnTools.Bittorrent

def bittorrentPeerMessage (id : BittorrentMessageId) (piece offset length : Nat) :
    BittorrentPeerRequest :=
  match id with
  | .cancel => ⟨piece, offset, length, 0, id, false, false⟩
  | .haveMessage => ⟨piece, 0, 0, 0, id, false, false⟩
  | _ => ⟨0, 0, 0, 0, id, false, false⟩

def sendBittorrentPeerMessage (peer : BittorrentPeerConnection) (id : BittorrentMessageId)
    (piece offset length : Nat) : BittorrentPeerConnection :=
  let message := bittorrentPeerMessage id piece offset length
  { peer with
    queue := if id = .bitfield ∨ id = .cancel then message :: peer.queue
      else peer.queue ++ [message] }

def setBittorrentPeerInterested (peer : BittorrentPeerConnection) : BittorrentPeerConnection :=
  if peer.localStatus.interested then peer
  else sendBittorrentPeerMessage { peer with localStatus.interested := true } .interested 0 0 0

def setBittorrentPeerNotInterested (peer : BittorrentPeerConnection) : BittorrentPeerConnection :=
  if !peer.localStatus.interested then peer
  else sendBittorrentPeerMessage { peer with localStatus.interested := false } .notInterested 0 0 0

def chokeBittorrentPeer (peer : BittorrentPeerConnection) : BittorrentPeerConnection :=
  if peer.remoteStatus.choked then peer
  else
    let choked := sendBittorrentPeerMessage { peer with remoteStatus.choked := true } .choke 0 0 0
    { choked with remoteStatus.requests := [] }

def unchokeBittorrentPeer (peer : BittorrentPeerConnection) : BittorrentPeerConnection :=
  if !peer.remoteStatus.choked then peer
  else sendBittorrentPeerMessage { peer with remoteStatus.choked := false } .unchoke 0 0 0

def setBittorrentPeerHave (peers : List BittorrentPeerConnection) (piece : Nat) :
    List BittorrentPeerConnection :=
  peers.map fun peer =>
    if !peer.localStatus.bitfield then peer
    else sendBittorrentPeerMessage peer .haveMessage piece 0 0

def cancelBittorrentPeerRequest (peer : BittorrentPeerConnection)
    (request : BittorrentPeerRequest) : BittorrentPeerConnection :=
  sendBittorrentPeerMessage peer .cancel request.piece request.offset request.length

@[simp] theorem sendBittorrentPeerMessage_local (peer : BittorrentPeerConnection)
    (id : BittorrentMessageId) (piece offset length : Nat) :
    (sendBittorrentPeerMessage peer id piece offset length).localStatus = peer.localStatus := rfl

@[simp] theorem sendBittorrentPeerMessage_remote (peer : BittorrentPeerConnection)
    (id : BittorrentMessageId) (piece offset length : Nat) :
    (sendBittorrentPeerMessage peer id piece offset length).remoteStatus = peer.remoteStatus := rfl

@[simp] theorem sendBittorrentPeerMessage_bitfield (peer : BittorrentPeerConnection)
    (id : BittorrentMessageId) (piece offset length : Nat) :
    (sendBittorrentPeerMessage peer id piece offset length).bitfield = peer.bitfield := rfl

/-- What the swarm-wide bookkeeping sees of a peer: its bitfield and the two request lists. -/
def SameRecord (before after : BittorrentPeerConnection) : Prop :=
  after.bitfield = before.bitfield ∧
    after.localStatus.requests = before.localStatus.requests ∧
    after.remoteStatus.requests = before.remoteStatus.requests

theorem SameRecord.refl (peer : BittorrentPeerConnection) : SameRecord peer peer :=
  ⟨rfl, rfl, rfl⟩

theorem setBittorrentPeerInterested_sameRecord (peer : BittorrentPeerConnection) :
    SameRecord peer (setBittorrentPeerInterested peer) := by
  simp only [setBittorrentPeerInterested]
  split
  · exact SameRecord.refl peer
  · exact ⟨rfl, rfl, rfl⟩

theorem setBittorrentPeerNotInterested_sameRecord (peer : BittorrentPeerConnection) :
    SameRecord peer (setBittorrentPeerNotInterested peer) := by
  simp only [setBittorrentPeerNotInterested]
  split
  · exact SameRecord.refl peer
  · exact ⟨rfl, rfl, rfl⟩

end KcnTools.Bittorrent

/-!
The free list of block requests and the choice of the next request for a peer
(`find_bittorrent_peer_request` and the functions below it in `piececache.c`).
-/

namespace KcnTools.Bittorrent

def blankEntry : BittorrentPieceCacheEntry := ⟨0, false, false, false, false, none, none⟩

def BittorrentPieceCache.entry (cache : BittorrentPieceCache) (piece : Nat) :
    BittorrentPieceCacheEntry :=
  cache.entries.getD piece blankEntry

def BittorrentPieceCache.modifyEntry (cache : BittorrentPieceCache) (piece : Nat)
    (change : BittorrentPieceCacheEntry → BittorrentPieceCacheEntry) : BittorrentPieceCache :=
  { cache with entries := cache.entries.modify piece change }

theorem BittorrentPieceCache.entry_modifyEntry {cache : BittorrentPieceCache} {piece : Nat}
    (inside : piece < cache.entries.length)
    (change : BittorrentPieceCacheEntry → BittorrentPieceCacheEntry) (other : Nat) :
    (cache.modifyEntry piece change).entry other =
      if piece = other then change (cache.entry piece) else cache.entry other := by
  simp only [entry, modifyEntry, List.getD_eq_getElem?_getD, List.getElem?_modify]
  by_cases same : piece = other
  · subst same
    simp [List.getElem?_eq_getElem inside]
  · simp [same]

theorem BittorrentPieceCache.entry_of_map {β : Type} {before after : BittorrentPieceCache}
    (view : BittorrentPieceCacheEntry → β)
    (same : after.entries.map view = before.entries.map view) (piece : Nat) :
    view (after.entry piece) = view (before.entry piece) := by
  have read : ∀ cache : BittorrentPieceCache,
      view (cache.entry piece) = (cache.entries.map view).getD piece (view blankEntry) :=
    fun cache => by simp only [entry, List.getD_eq_getElem?_getD, List.getElem?_map, Option.getD_map]
  rw [read, read, same]

def BittorrentConnection.modifyPeer (bittorrent : BittorrentConnection) (index : Nat)
    (change : BittorrentPeerConnection → BittorrentPeerConnection) : BittorrentConnection :=
  { bittorrent with peers := bittorrent.peers.modify index change }

def setBittorrentPieceCacheRemaining (cache : BittorrentPieceCache) (piece : Nat)
    (remaining : Int) : BittorrentPieceCache :=
  { cache.modifyEntry piece fun entry => { entry with remaining := 0 < remaining } with
    remainingPieces := moveCounter cache.remainingPieces remaining
    loadingPieces := moveCounter cache.loadingPieces (-remaining) }

def setBittorrentPieceCacheCompleted (cache : BittorrentPieceCache) (piece : Nat) :
    BittorrentPieceCache :=
  { cache.modifyEntry piece fun entry => { entry with completed := true, remaining := false } with
    loadingPieces := moveCounter cache.loadingPieces (-1)
    completedPieces := moveCounter cache.completedPieces 1
    bitfield := setBitfieldBit cache.bitfield piece }

/-- A search of the free list that gives the request and the list without it.
`skipped` is the piece that was last found to be missing at the peer. -/
def findBittorrentFreeListPeerRequest (peer : BittorrentPeerConnection) (skipped : Option Nat) :
    List BittorrentPeerRequest → Option (BittorrentPeerRequest × List BittorrentPeerRequest)
  | [] => none
  | request :: rest =>
      if some request.piece = skipped then
        (findBittorrentFreeListPeerRequest peer skipped rest).map fun found =>
          (found.1, request :: found.2)
      else if !testBitfieldBit peer.bitfield request.piece then
        (findBittorrentFreeListPeerRequest peer (some request.piece) rest).map fun found =>
          (found.1, request :: found.2)
      else some (request, rest)

theorem findBittorrentFreeListPeerRequest_spec {peer : BittorrentPeerConnection}
    {skipped : Option Nat} {freeList rest : List BittorrentPeerRequest}
    {request : BittorrentPeerRequest}
    (found : findBittorrentFreeListPeerRequest peer skipped freeList = some (request, rest)) :
    testBitfieldBit peer.bitfield request.piece = true ∧ (request :: rest).Perm freeList := by
  induction freeList generalizing skipped rest with
  | nil => simp [findBittorrentFreeListPeerRequest] at found
  | cons first others ih =>
      have later : ∀ {skipped : Option Nat},
          ((findBittorrentFreeListPeerRequest peer skipped others).map fun found =>
            (found.1, first :: found.2)) = some (request, rest) →
          testBitfieldBit peer.bitfield request.piece = true ∧
            (request :: rest).Perm (first :: others) := by
        intro skipped searched
        obtain ⟨⟨request, kept⟩, there, same⟩ := Option.map_eq_some_iff.mp searched
        rw [Prod.mk.injEq] at same
        obtain ⟨rfl, rfl⟩ := same
        obtain ⟨offered, perm⟩ := ih there
        exact ⟨offered, (List.Perm.swap first request kept).trans (perm.cons first)⟩
      simp only [findBittorrentFreeListPeerRequest] at found
      split at found
      · exact later found
      · split at found
        · exact later found
        · rename_i offered
          rw [Option.some.injEq, Prod.mk.injEq] at found
          obtain ⟨rfl, rfl⟩ := found
          exact ⟨by simpa using offered, List.Perm.refl _⟩

/-- The random numbers of one search: where a piece is placed, and the final pick. -/
structure BittorrentDraws where
  place : Nat → Fin 20
  pick : Fin 20

def noDraws : BittorrentDraws := ⟨fun _ => 0, 0⟩

/-- The table of candidate pieces, an undefined piece being `none`. -/
structure BittorrentCandidates where
  pieces : List (Option Nat)
  places : Nat
  rarity : Nat

def initialCandidates : BittorrentCandidates := ⟨List.replicate 20 none, 20, 2 ^ 16 - 1⟩

def spreadPiece (candidates : BittorrentCandidates) (piece : Nat) : BittorrentCandidates :=
  { candidates with
    pieces := candidates.pieces.mapIdx fun position old =>
      if position % (20 / candidates.places) = 0 then some piece else old
    places := candidates.places / 2 }

def dropPiece (draws : BittorrentDraws) (candidates : BittorrentCandidates) (piece : Nat) :
    BittorrentCandidates :=
  { candidates with pieces := candidates.pieces.set (draws.place piece) (some piece) }

def pickPiece (draws : BittorrentDraws) (candidates : BittorrentCandidates) : Option Nat :=
  (candidates.pieces[draws.pick.val]?).join

def considerRandom (draws : BittorrentDraws) (cache : BittorrentPieceCache)
    (candidates : BittorrentCandidates) (piece : Nat) : BittorrentCandidates :=
  if !(cache.entry piece).remaining then candidates
  else if 2 ≤ candidates.places then spreadPiece candidates piece
  else dropPiece draws candidates piece

def findRandomInBittorrentPieceCache (draws : BittorrentDraws) (cache : BittorrentPieceCache)
    (peer : BittorrentPeerConnection) : Option Nat :=
  pickPiece draws ((bitfieldSetBits peer.bitfield).reverse.foldl (considerRandom draws cache)
    initialCandidates)

def considerRarest (draws : BittorrentDraws) (cache : BittorrentPieceCache)
    (candidates : BittorrentCandidates) (piece : Nat) : BittorrentCandidates :=
  let entry := cache.entry piece
  if !entry.remaining || candidates.rarity < entry.rarity then candidates
  else if entry.rarity < candidates.rarity then
    spreadPiece { candidates with places := 20, rarity := entry.rarity } piece
  else if candidates.places < 2 then dropPiece draws candidates piece
  else spreadPiece candidates piece

def findRarestInBittorrentPieceCache (draws : BittorrentDraws) (cache : BittorrentPieceCache)
    (peer : BittorrentPeerConnection) : Option Nat :=
  pickPiece draws ((bitfieldSetBits peer.bitfield).reverse.foldl (considerRarest draws cache)
    initialCandidates)

def findLocalBittorrentPeerRequest (peer : BittorrentPeerConnection)
    (request : BittorrentPeerRequest) : Option BittorrentPeerRequest :=
  getBittorrentPeerRequest peer.localStatus request.piece request.offset request.length

def isClonable (peer : BittorrentPeerConnection) (request : BittorrentPeerRequest) : Bool :=
  testBitfieldBit peer.bitfield request.piece &&
    (findLocalBittorrentPeerRequest peer request).isNone && !request.cloned

/-- The place of the first request that can be cloned, as its peer and its position
there. Requests that are cloned already are never the result: what the search records
about them is kept in a variable that hides the one returned. -/
def findClonableBittorrentPeerRequest (peers : List BittorrentPeerConnection)
    (peer : BittorrentPeerConnection) : Option (Nat × Nat) :=
  match peers.findIdx? fun active => active.localStatus.requests.any (isClonable peer) with
  | none => none
  | some index =>
      match peers[index]? with
      | none => none
      | some active =>
          (active.localStatus.requests.findIdx? (isClonable peer)).map fun position =>
            (index, position)

theorem findClonableBittorrentPeerRequest_spec {peers : List BittorrentPeerConnection}
    {peer : BittorrentPeerConnection} {place : Nat × Nat}
    (found : findClonableBittorrentPeerRequest peers peer = some place) :
    ∃ active request, peers[place.1]? = some active ∧
      active.localStatus.requests[place.2]? = some request ∧ isClonable peer request = true := by
  simp only [findClonableBittorrentPeerRequest] at found
  split at found
  · simp at found
  · rename_i index _
    split at found
    · simp at found
    · rename_i active here
      obtain ⟨position, searched, same⟩ := Option.map_eq_some_iff.mp found
      subst same
      obtain ⟨inside, clonable, _⟩ := List.findIdx?_eq_some_iff_getElem.mp searched
      exact ⟨active, _, here, List.getElem?_eq_getElem inside, clonable⟩

def cloneBittorrentPeerRequest (bittorrent : BittorrentConnection) (place : Nat × Nat) :
    BittorrentConnection × Option BittorrentPeerRequest :=
  match (bittorrent.peers[place.1]?).bind fun peer => peer.localStatus.requests[place.2]? with
  | none => (bittorrent, none)
  | some request =>
      (bittorrent.modifyPeer place.1 fun peer =>
        { peer with
          localStatus.requests := peer.localStatus.requests.modify place.2 fun request =>
            { request with cloned := true } },
        some { request with cloned := true, requested := false })

def pieceRequests (piece requestLength pieceLength : Nat) :
    Nat → Nat → Nat → List BittorrentPeerRequest
  | 0, _, _ => []
  | fuel + 1, offset, blocks =>
      let length := if pieceLength < (offset + requestLength) % 2 ^ 32 then pieceLength - offset
        else requestLength
      ⟨piece, offset, length, blocks, .choke, false, false⟩ ::
        if offset + length < pieceLength then
          pieceRequests piece requestLength pieceLength fuel (offset + length) ((blocks + 1) % 2 ^ 16)
        else []

theorem pieceRequests_piece {piece requestLength pieceLength fuel offset blocks : Nat}
    {request : BittorrentPeerRequest}
    (member : request ∈ pieceRequests piece requestLength pieceLength fuel offset blocks) :
    request.piece = piece := by
  induction fuel generalizing offset blocks with
  | zero => simp [pieceRequests] at member
  | succ fuel ih =>
      simp only [pieceRequests] at member
      rcases List.mem_cons.mp member with first | later
      · rw [first]
      · exact ih (List.mem_ite_nil_right.mp later).2

def addPieceToBittorrentFreeList (options : BittorrentOptions) (bittorrent : BittorrentConnection)
    (piece : Nat) : BittorrentConnection × Option BittorrentPeerRequest :=
  let pieceLength := getBittorrentPieceLength bittorrent.metainfo piece
  let requests := pieceRequests piece (min options.requestLength pieceLength) pieceLength
    pieceLength 0 0
  let cache := bittorrent.cache.modifyEntry piece fun entry =>
    { entry with blocks := some (initBitfield (requests.length % 2 ^ 16)) }
  let loading := setBittorrentPieceCacheRemaining cache piece (-1)
  ({ bittorrent with
      cache := { loading with freeList := loading.freeList ++ requests.dropLast } },
    requests.getLast?)

def enterEndGame (bittorrent : BittorrentConnection) : BittorrentConnection :=
  if bittorrent.cache.remainingPieces = 0 ∧ bittorrent.cache.freeList = [] then
    { bittorrent with mode := .endGame }
  else bittorrent

def selectBittorrentPiece (draws : BittorrentDraws) (bittorrent : BittorrentConnection)
    (peer : BittorrentPeerConnection) : Option Nat :=
  match bittorrent.mode with
  | .pieceless => findRandomInBittorrentPieceCache draws bittorrent.cache peer
  | .normal => findRarestInBittorrentPieceCache draws bittorrent.cache peer
  | .endGame => none
  | .seeder => none

def findBittorrentPeerRequest (options : BittorrentOptions) (draws : BittorrentDraws)
    (bittorrent : BittorrentConnection) (peer : BittorrentPeerConnection) :
    BittorrentConnection × Option BittorrentPeerRequest :=
  match findBittorrentFreeListPeerRequest peer none bittorrent.cache.freeList with
  | some (request, rest) =>
      ({ bittorrent with cache := { bittorrent.cache with freeList := rest } }, some request)
  | none =>
      let entered := enterEndGame bittorrent
      if entered.mode = .endGame then
        match findClonableBittorrentPeerRequest entered.peers peer with
        | none => (entered, none)
        | some place => cloneBittorrentPeerRequest entered place
      else
        match selectBittorrentPiece draws entered peer with
        | none => (entered, none)
        | some piece =>
            let added := addPieceToBittorrentFreeList options entered piece
            (enterEndGame added.1, added.2)

end KcnTools.Bittorrent
