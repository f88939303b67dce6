import KcnTools.Bittorrent.PieceBlocks
import KcnTools.Lib.Counting
import Mathlib.Data.List.Perm.Basic

/-!
The free list and the requests of all peers as a pool of jobs, and what each operation on
requests does to it.
-/

namespace KcnTools.Bittorrent

open Modify Pool KcnTools.Count

variable {options : BittorrentOptions} {metainfo : BittorrentMeta} {cache : BittorrentPieceCache}
  {peers : List BittorrentPeerConnection} {request : BittorrentPeerRequest}

def OpenRequests (options : BittorrentOptions) (metainfo : BittorrentMeta)
    (cache : BittorrentPieceCache) (peer : BittorrentPeerConnection) : Prop :=
  (∀ request ∈ peer.localStatus.requests, requestRange request ∈ openBlocks options metainfo cache) ∧
    (peer.localStatus.requests.map requestRange).Nodup

theorem OpenRequests.finds {peer : BittorrentPeerConnection}
    (asked : OpenRequests options metainfo cache peer)
    (opened : requestRange request ∈ openBlocks options metainfo cache) :
    MatchesRange (isRequestFor request.piece request.offset request.length) request
      peer.localStatus.requests :=
  matchesRange_isRequestFor opened asked.1

theorem OpenRequests.dropFirst {peer : BittorrentPeerConnection}
    (asked : OpenRequests options metainfo cache peer) :
    OpenRequests options metainfo cache (dropFirstRequest peer) :=
  ⟨fun request member => asked.1 request (List.mem_of_mem_tail member),
    asked.2.sublist ((List.tail_sublist _).map requestRange)⟩

theorem holdsRequest_eq {peer : BittorrentPeerConnection}
    (asked : OpenRequests options metainfo cache peer)
    (opened : requestRange request ∈ openBlocks options metainfo cache) :
    holdsRequest request peer = holds (requestRange request) (peerJobs peer) := by
  rw [holdsRequest, findLocalBittorrentPeerRequest, getBittorrentPeerRequest, List.isSome_find?]
  exact (asked.finds opened).any

theorem clearClone_jobs {peer : BittorrentPeerConnection}
    (asked : OpenRequests options metainfo cache peer)
    (opened : requestRange request ∈ openBlocks options metainfo cache) :
    peerJobs (clearClone request peer) = mark (requestRange request) false (peerJobs peer) :=
  (asked.finds opened).clearFirst asked.2

theorem singleClone_some (request : BittorrentPeerRequest) (peers : List BittorrentPeerConnection)
    (index single : Nat) :
    singleClone request peers index (some single) =
      if peers.countP (holdsRequest request) = 0 then some single else none := by
  induction peers generalizing index with
  | nil => rfl
  | cons peer rest ih =>
      rw [singleClone, List.countP_cons]
      cases holding : holdsRequest request peer with
      | false => simpa using ih (index + 1)
      | true => simp

theorem singleClone_none (request : BittorrentPeerRequest) (peers : List BittorrentPeerConnection)
    (index : Nat) :
    singleClone request peers index none =
      if peers.countP (holdsRequest request) = 1 then
        some (index + peers.findIdx (holdsRequest request)) else none := by
  induction peers generalizing index with
  | nil => rfl
  | cons peer rest ih =>
      rw [singleClone, List.countP_cons, List.findIdx_cons]
      cases holding : holdsRequest request peer with
      | false =>
          simp only [Bool.not_false, if_true, Bool.false_eq_true, if_false, Nat.add_zero, cond_false]
          rw [ih (index + 1)]
          split
          · congr 1
            omega
          · rfl
      | true => simp [singleClone_some]

theorem findIdx_of_single {α : Type} {p : α → Bool} {l : List α} (single : l.countP p = 1) :
    ∃ a, l[l.findIdx p]? = some a ∧ ∀ b ∈ l.eraseIdx (l.findIdx p), p b = false := by
  have found : l.findIdx p < l.length := by
    rw [List.findIdx_lt_length]
    exact List.countP_pos_iff.mp (by omega)
  refine ⟨l[l.findIdx p], List.getElem?_eq_getElem found, fun b member => ?_⟩
  have counted := countP_eraseIdx p (List.getElem?_eq_getElem found)
  have passes : p l[l.findIdx p] = true := List.findIdx_getElem
  rw [single, passes, Bool.toNat_true, Nat.add_eq_right, List.countP_eq_zero] at counted
  exact Bool.eq_false_iff.mpr (counted b member)

theorem clearClonedBittorrentPeerRequest_jobs
    (asked : ∀ peer ∈ peers, OpenRequests options metainfo cache peer)
    (opened : requestRange request ∈ openBlocks options metainfo cache) :
    (clearClonedBittorrentPeerRequest peers request).map peerJobs =
      settle (requestRange request) (peers.map peerJobs) := by
  have counted : holders (requestRange request) (peers.map peerJobs) =
      peers.countP (holdsRequest request) := by
    rw [holders, List.countP_map]
    refine List.countP_congr fun peer member => ?_
    rw [holdsRequest_eq (asked peer member) opened]
    exact Iff.rfl
  simp only [clearClonedBittorrentPeerRequest, singleClone_none, settle, counted, Nat.zero_add]
  split
  · rename_i none
    split at none
    · simp at none
    · rename_i several
      rw [if_neg several]
  · rename_i index found
    split at found
    · rename_i single
      rw [if_pos single, ← Option.some.inj found]
      obtain ⟨peer, here, others⟩ := findIdx_of_single single
      refine map_modify_others here
        (clearClone_jobs (asked peer (List.mem_of_getElem? here)) opened) fun other member => ?_
      have missing := others other member
      rw [holdsRequest_eq (asked other (List.mem_of_mem_eraseIdx member)) opened] at missing
      exact mark_of_not_holds false missing
    · simp at found

variable {free : List (Job BlockRange)} {held : List (List (Job BlockRange))} {index : Nat}
  {peer : BittorrentPeerConnection}

theorem openRequests_of_serves (serves : Serves (openBlocks options metainfo cache) free held)
    (member : peerJobs peer ∈ held) : OpenRequests options metainfo cache peer := by
  constructor
  · intro request there
    exact serves.key_wanted member (List.mem_map_of_mem there)
  · have nodup := serves.heldNodup _ member
    rwa [peerJobs, requestJob_keys] at nodup

theorem peerJobs_focus (here : peers[index]? = some peer) :
    (peerJobs peer :: (peers.eraseIdx index).map peerJobs).Perm (peers.map peerJobs) := by
  obtain ⟨inside, found⟩ := List.getElem?_eq_some_iff.mp here
  have perm := (List.getElem_cons_eraseIdx_perm inside).map peerJobs
  rwa [found] at perm

theorem peerJobs_modify (here : peers[index]? = some peer)
    (change : BittorrentPeerConnection → BittorrentPeerConnection) :
    ((peers.modify index change).map peerJobs).Perm
      (peerJobs (change peer) :: (peers.eraseIdx index).map peerJobs) := by
  have changed : (peers.modify index change)[index]? = some (change peer) := by
    simp [here]
  have focus := (peerJobs_focus changed).symm
  rwa [List.eraseIdx_modify_of_eq] at focus

theorem peerJobs_append (peer : BittorrentPeerConnection) (request : BittorrentPeerRequest) :
    peerJobs (appendRequest request peer) = peerJobs peer ++ [requestJob request] :=
  List.map_append

theorem Serves.takeRequest {wanted : Set BlockRange} {freeList rest : List BittorrentPeerRequest}
    (serves : Serves wanted (freeList.map requestJob) (peers.map peerJobs))
    (here : peers[index]? = some peer) (perm : (request :: rest).Perm freeList) :
    Serves wanted (rest.map requestJob)
      ((peers.modify index (appendRequest request)).map peerJobs) := by
  have taken := (serves.perm (perm.map requestJob) (peerJobs_focus here)).take
  refine taken.perm (List.Perm.refl _) ((peerJobs_modify here _).trans ?_)
  rw [peerJobs_append]

theorem Serves.addRequest {bittorrent : BittorrentConnection} {jobs : List (Job BlockRange)}
    (serves : Serves (openBlocks options metainfo cache)
      (bittorrent.cache.freeList.map requestJob)
      ((requestJob request :: jobs) :: bittorrent.peers.map peerJobs)) :
    Serves (openBlocks options metainfo cache)
      ((addRequestToBittorrentPieceCache bittorrent request).cache.freeList.map requestJob)
      (jobs :: (addRequestToBittorrentPieceCache bittorrent request).peers.map peerJobs) := by
  simp only [addRequestToBittorrentPieceCache]
  split
  · rename_i alone
    exact serves.release (by simpa [requestJob] using alone)
  · rename_i cloned
    have opened : requestRange request ∈ openBlocks options metainfo cache :=
      serves.key_wanted List.mem_cons_self List.mem_cons_self
    have asked : ∀ peer ∈ bittorrent.peers, OpenRequests options metainfo cache peer :=
      fun peer member => openRequests_of_serves serves
        (List.mem_cons_of_mem _ (List.mem_map_of_mem member))
    rw [clearClonedBittorrentPeerRequest_jobs asked opened]
    exact serves.abandon (by simpa [requestJob] using cloned)

theorem Serves.addRequests {bittorrent : BittorrentConnection}
    (requests : List BittorrentPeerRequest)
    (serves : Serves (openBlocks options metainfo cache)
      (bittorrent.cache.freeList.map requestJob)
      (requests.map requestJob :: bittorrent.peers.map peerJobs)) :
    Serves (openBlocks options metainfo cache)
      ((requests.foldl addRequestToBittorrentPieceCache bittorrent).cache.freeList.map requestJob)
      ((requests.foldl addRequestToBittorrentPieceCache bittorrent).peers.map peerJobs) := by
  induction requests generalizing bittorrent with
  | nil => exact Serves.idle_iff.mp serves
  | cons request rest ih => exact ih (Serves.addRequest serves)

theorem Serves.requeue {bittorrent : BittorrentConnection}
    (serves : Serves (openBlocks options metainfo cache)
      (bittorrent.cache.freeList.map requestJob) (bittorrent.peers.map peerJobs))
    (here : bittorrent.peers[index]? = some peer)
    (first : peer.localStatus.requests.head? = some request) :
    Serves (openBlocks options metainfo cache)
      ((addRequestToBittorrentPieceCache (bittorrent.modifyPeer index dropFirstRequest)
        request).cache.freeList.map requestJob)
      ((addRequestToBittorrentPieceCache (bittorrent.modifyPeer index dropFirstRequest)
        request).peers.map peerJobs) := by
  have whole : peerJobs peer = requestJob request :: peerJobs (dropFirstRequest peer) := by
    obtain ⟨rest, split⟩ := List.head?_eq_some_iff.mp first
    rw [peerJobs, peerJobs, dropFirstRequest, split]
    rfl
  have focused := serves.perm (List.Perm.refl _) (peerJobs_focus here)
  rw [whole] at focused
  have dropped := peerJobs_modify here dropFirstRequest
  simp only [addRequestToBittorrentPieceCache]
  split
  · rename_i alone
    exact (focused.release (by simpa [requestJob] using alone)).perm (List.Perm.refl _) dropped
  · rename_i cloned
    have opened : requestRange request ∈ openBlocks options metainfo cache :=
      focused.key_wanted List.mem_cons_self List.mem_cons_self
    have abandoned := focused.abandon (by simpa [requestJob] using cloned)
    have missing : holds (requestRange request) (peerJobs (dropFirstRequest peer)) = false := by
      have nodup := focused.heldNodup _ List.mem_cons_self
      rw [List.map_cons, List.nodup_cons] at nodup
      exact holds_eq_false_iff.mpr nodup.1
    have asked : ∀ other ∈ bittorrent.peers.modify index dropFirstRequest,
        OpenRequests options metainfo cache other := by
      intro other member
      rcases mem_modify member with kept | ⟨earlier, there, changed⟩
      · exact openRequests_of_serves serves (List.mem_map_of_mem kept)
      · rw [changed]
        exact (openRequests_of_serves serves
          (List.mem_map_of_mem (List.mem_of_getElem? there))).dropFirst
    refine abandoned.perm (List.Perm.refl _) ?_
    change ((clearClonedBittorrentPeerRequest (bittorrent.peers.modify index dropFirstRequest)
      request).map peerJobs).Perm _
    rw [clearClonedBittorrentPeerRequest_jobs asked opened]
    have settled := settle_perm dropped (requestRange request)
    rwa [settle_cons _ missing] at settled

theorem markClone_jobs {position : Nat} (nodup : (peer.localStatus.requests.map requestRange).Nodup)
    (here : peer.localStatus.requests[position]? = some request) :
    peerJobs { peer with
        localStatus.requests := peer.localStatus.requests.modify position fun request =>
          { request with cloned := true } } =
      mark (requestRange request) true (peerJobs peer) := by
  obtain ⟨inside, found⟩ := List.getElem?_eq_some_iff.mp here
  have perm := (List.getElem_cons_eraseIdx_perm inside).map requestRange
  have distinct := perm.nodup_iff.mpr nodup
  rw [found, List.map_cons, List.nodup_cons] at distinct
  refine map_modify_others here ?_ fun other member => ?_
  · exact (if_pos rfl).symm
  · refine if_neg fun same => distinct.1 ?_
    rw [← same]
    exact List.mem_map_of_mem member

theorem Serves.single {wanted : Set BlockRange} (serves : Serves wanted free (peers.map peerJobs))
    (here : peers[index]? = some peer) (queued : request ∈ peer.localStatus.requests)
    (unshared : request.cloned = false) :
    holders (requestRange request) (peers.map peerJobs) = 1 := by
  have holding : peerJobs peer ∈ peers.map peerJobs := List.mem_map_of_mem (List.mem_of_getElem? here)
  have there : requestJob request ∈ peerJobs peer := List.mem_map_of_mem queued
  have positive := holders_pos holding there
  have once := serves.marked _ holding _ there
  rw [show (requestJob request).shared = false from unshared, eq_comm, decide_eq_false_iff_not] at once
  change 0 < holders (requestRange request) _ at positive
  change ¬2 ≤ holders (requestRange request) _ at once
  omega

theorem Serves.nobody_else {wanted : Set BlockRange}
    (serves : Serves wanted free (peers.map peerJobs)) (here : peers[index]? = some peer)
    (queued : request ∈ peer.localStatus.requests) (unshared : request.cloned = false) :
    ∀ other ∈ peers.eraseIdx index, holds (requestRange request) (peerJobs other) = false := by
  intro other member
  have single := Serves.single serves here queued unshared
  have holder : holds (requestRange request) (peerJobs peer) = true :=
    holds_iff.mpr (List.mem_map_of_mem (List.mem_map_of_mem queued))
  have counted := countP_eraseIdx (fun peer => holds (requestRange request) (peerJobs peer)) here
  rw [holder, Bool.toNat_true] at counted
  rw [holders, List.countP_map] at single
  change List.countP (fun peer => holds (requestRange request) (peerJobs peer)) _ = 1 at single
  rw [single, Nat.add_eq_right, List.countP_eq_zero] at counted
  exact Bool.eq_false_iff.mpr (counted other member)

theorem Serves.cloneRequest {bittorrent : BittorrentConnection} {place : Nat × Nat}
    (serves : Serves (openBlocks options metainfo cache)
      (bittorrent.cache.freeList.map requestJob) (bittorrent.peers.map peerJobs))
    (here : bittorrent.peers[index]? = some peer)
    (found : findClonableBittorrentPeerRequest bittorrent.peers peer = some place)
    (cloned : (cloneBittorrentPeerRequest bittorrent place).2 = some request) :
    Serves (openBlocks options metainfo cache) (bittorrent.cache.freeList.map requestJob)
      (((cloneBittorrentPeerRequest bittorrent place).1.modifyPeer index
        (appendRequest request)).peers.map peerJobs) := by
  obtain ⟨active, original, there, position, clonable⟩ := findClonableBittorrentPeerRequest_spec found
  simp only [cloneBittorrentPeerRequest, there, position, Option.bind_some, Option.some.injEq]
    at cloned ⊢
  have job : requestJob request = ⟨requestRange original, true⟩ := by
    rw [← cloned]
    rfl
  simp only [isClonable, Bool.and_eq_true, Bool.not_eq_true'] at clonable
  have holding : peerJobs active ∈ bittorrent.peers.map peerJobs :=
    List.mem_map_of_mem (List.mem_of_getElem? there)
  have queued : requestJob original ∈ peerJobs active :=
    List.mem_map_of_mem (List.mem_of_getElem? position)
  have opened : requestRange original ∈ openBlocks options metainfo cache :=
    serves.key_wanted holding queued
  have asked : ∀ other ∈ bittorrent.peers, OpenRequests options metainfo cache other :=
    fun other member => openRequests_of_serves serves (List.mem_map_of_mem member)
  have missing : holds (requestRange original) (peerJobs peer) = false := by
    rw [← holdsRequest_eq (asked peer (List.mem_of_getElem? here)) opened, holdsRequest,
      ← Option.not_isNone, clonable.1.2]
    rfl
  have single := Serves.single serves there (List.mem_of_getElem? position) clonable.2
  have marked : ((bittorrent.peers.modify place.1 fun peer =>
      { peer with
        localStatus.requests := peer.localStatus.requests.modify place.2 fun request =>
          { request with cloned := true } }).map peerJobs) =
      (bittorrent.peers.map peerJobs).map (mark (requestRange original) true) := by
    refine map_modify_others there
      (markClone_jobs (asked active (List.mem_of_getElem? there)).2 position) fun other member => ?_
    refine mark_of_not_holds true ?_
    exact Serves.nobody_else serves there (List.mem_of_getElem? position) clonable.2 other member
  have focused := serves.perm (List.Perm.refl _) (peerJobs_focus here)
  have alone : holders (requestRange original) ((bittorrent.peers.eraseIdx index).map peerJobs) = 1 := by
    rw [← holders_perm (peerJobs_focus here), holders_cons, missing] at single
    exact single
  have shared := focused.share alone missing
  have unmarked : mark (requestRange original) true (peerJobs peer) = peerJobs peer :=
    mark_of_not_holds true missing
  refine shared.perm (List.Perm.refl _) ?_
  simp only [BittorrentConnection.modifyPeer]
  generalize (bittorrent.peers.modify place.1 fun peer =>
    { peer with
      localStatus.requests := peer.localStatus.requests.modify place.2 fun request =>
        { request with cloned := true } }) = cloning at marked ⊢
  have asking := congrArg (fun l => l[index]?) marked
  simp only [List.getElem?_map, here, Option.map_some] at asking
  obtain ⟨waiting, now, same⟩ := Option.map_eq_some_iff.mp asking
  have rest := congrArg (fun l => l.eraseIdx index) marked
  simp only [List.eraseIdx_map] at rest
  refine (peerJobs_modify now (appendRequest request)).trans ?_
  rw [peerJobs_append, same, unmarked, job, rest]

def BlocksServed (options : BittorrentOptions) (bittorrent : BittorrentConnection) : Prop :=
  Serves (openBlocks options bittorrent.metainfo bittorrent.cache)
    (bittorrent.cache.freeList.map requestJob) (bittorrent.peers.map peerJobs)

theorem mem_blockRequests {count piece : Nat} {range : BlockRange} :
    range ∈ (((List.range count).map (blockRequest options metainfo piece)).map requestRange) ↔
      ∃ block < count, range = blockRange options metainfo piece block := by
  simp only [List.map_map, List.mem_map, List.mem_range, Function.comp_apply, blockRequest_range]
  exact exists_congr fun block => and_congr_right fun _ => eq_comm

theorem blockRequests_nodup (count piece : Nat) :
    (((List.range count).map (blockRequest options metainfo piece)).map requestRange).Nodup := by
  rw [List.map_map]
  refine List.nodup_range.map fun first second same => ?_
  exact congrArg BlockRange.block same

theorem openBlocks_split {piece : Nat} {split : BittorrentPieceCache} {count : Nat}
    (idle : (cache.entry piece).blocks = none)
    (blocks : ∀ other, (split.entry other).blocks =
      if piece = other then some (initBitfield count) else (cache.entry other).blocks) :
    openBlocks options metainfo split = openBlocks options metainfo cache ∪
      {range | range ∈ ((List.range count).map (blockRequest options metainfo piece)).map
        requestRange} := by
  ext range
  rw [Set.mem_union, Set.mem_ofPred_eq, mem_blockRequests]
  constructor
  · rintro ⟨other, block, opened, loading, within, clear, rfl⟩
    rw [blocks] at loading
    split at loading
    · rename_i same
      subst same
      rw [← Option.some.inj loading] at within
      exact .inr ⟨block, within, rfl⟩
    · exact .inl ⟨other, block, opened, loading, within, clear, rfl⟩
  · rintro (⟨other, block, opened, loading, within, clear, rfl⟩ | ⟨block, within, rfl⟩)
    · refine ⟨other, block, opened, ?_, within, clear, rfl⟩
      rw [blocks, if_neg]
      · exact loading
      · intro same
        rw [← same, idle] at loading
        simp at loading
    · refine ⟨piece, block, initBitfield count, ?_, within, testBitfieldBit_init _ _, rfl⟩
      rw [blocks, if_pos rfl]

theorem addPiece_blocks {bittorrent : BittorrentConnection} {piece : Nat}
    (inside : piece < bittorrent.cache.entries.length)
    (few : blockCount options bittorrent.metainfo piece < 2 ^ 16) (other : Nat) :
    ((addPieceToBittorrentFreeList options bittorrent piece).1.cache.entry other).blocks =
      if piece = other then some (initBitfield (blockCount options bittorrent.metainfo piece))
      else (bittorrent.cache.entry other).blocks := by
  have count : (pieceRequests piece
      (min options.requestLength (getBittorrentPieceLength bittorrent.metainfo piece))
      (getBittorrentPieceLength bittorrent.metainfo piece)
      (getBittorrentPieceLength bittorrent.metainfo piece) 0 0).length % 2 ^ 16 =
      blockCount options bittorrent.metainfo piece := by
    rw [addPiece_requests piece few, List.length_map, List.length_range, Nat.mod_eq_of_lt few]
  have entries : (addPieceToBittorrentFreeList options bittorrent piece).1.cache.entries =
      (bittorrent.cache.modifyEntry piece fun entry =>
        { entry with
          blocks := some (initBitfield (blockCount options bittorrent.metainfo piece))
          remaining := false }).entries := by
    rw [← count]
    exact List.modify_modify_eq _ _ _ _
  have entry : (addPieceToBittorrentFreeList options bittorrent piece).1.cache.entry other =
      (bittorrent.cache.modifyEntry piece fun entry =>
        { entry with
          blocks := some (initBitfield (blockCount options bittorrent.metainfo piece))
          remaining := false }).entry other := by
    rw [BittorrentPieceCache.entry, entries]
    rfl
  rw [entry, BittorrentPieceCache.entry_modifyEntry inside]
  split <;> rfl

theorem Serves.introducePiece (options : BittorrentOptions) (metainfo : BittorrentMeta)
    (count piece : Nat) {wanted : Set BlockRange} {freeList : List BittorrentPeerRequest}
    (serves : Serves wanted (freeList.map requestJob) held)
    (new : ∀ range ∈ wanted, range.piece ≠ piece) :
    Serves (wanted ∪ {range | range ∈ ((List.range count).map
        (blockRequest options metainfo piece)).map requestRange})
      ((freeList ++ (List.range count).map (blockRequest options metainfo piece)).map requestJob)
      held := by
  have introduced := @Serves.introduce _ _ wanted _ held
    (((List.range count).map (blockRequest options metainfo piece)).map requestJob) serves
  rw [requestJob_keys] at introduced
  rw [List.map_append]
  refine introduced (blockRequests_nodup _ _) ?_ ?_
  · intro job member
    obtain ⟨made, there, rfl⟩ := List.mem_map.mp member
    obtain ⟨block, _, rfl⟩ := List.mem_map.mp there
    rfl
  · intro job member opened
    obtain ⟨made, there, rfl⟩ := List.mem_map.mp member
    obtain ⟨block, _, rfl⟩ := List.mem_map.mp there
    exact new _ opened rfl

theorem openBlocks_piece_ne {piece : Nat} (idle : (cache.entry piece).blocks = none) :
    ∀ range ∈ openBlocks options metainfo cache, range.piece ≠ piece := by
  rintro range ⟨other, block, blocks, loading, _, _, rfl⟩ same
  have equal : other = piece := same
  rw [equal, idle] at loading
  simp at loading

theorem BlocksServed.split {bittorrent : BittorrentConnection} {piece : Nat}
    (serves : BlocksServed options bittorrent) (here : bittorrent.peers[index]? = some peer)
    (inside : piece < bittorrent.cache.entries.length)
    (idle : (bittorrent.cache.entry piece).blocks = none)
    (few : blockCount options bittorrent.metainfo piece < 2 ^ 16)
    (last : (addPieceToBittorrentFreeList options bittorrent piece).2 = some request) :
    BlocksServed options ((addPieceToBittorrentFreeList options bittorrent piece).1.modifyPeer index
      (appendRequest request)) := by
  have opened : openBlocks options bittorrent.metainfo
      (addPieceToBittorrentFreeList options bittorrent piece).1.cache = _ :=
    openBlocks_split idle (addPiece_blocks inside few)
  have introduced := Serves.introducePiece options bittorrent.metainfo
    (blockCount options bittorrent.metainfo piece) piece serves (openBlocks_piece_ne idle)
  rw [← opened] at introduced
  have requests := addPiece_requests piece few
  change List.getLast? (pieceRequests _ _ _ _ _ _) = _ at last
  rw [requests] at last
  have freeList : (addPieceToBittorrentFreeList options bittorrent piece).1.cache.freeList =
      bittorrent.cache.freeList ++ ((List.range (blockCount options bittorrent.metainfo piece)).map
        (blockRequest options bittorrent.metainfo piece)).dropLast := by
    rw [← requests]
    rfl
  have whole := List.dropLast_append_getLast? request last
  have perm : (request :: (addPieceToBittorrentFreeList options bittorrent piece).1.cache.freeList).Perm
      (bittorrent.cache.freeList ++ (List.range (blockCount options bittorrent.metainfo piece)).map
        (blockRequest options bittorrent.metainfo piece)) := by
    rw [freeList, ← whole, List.dropLast_concat, ← List.append_assoc]
    exact (List.perm_append_singleton _ _).symm
  exact Serves.takeRequest introduced here perm

theorem openBlocks_store {range : BlockRange} (opened : range ∈ openBlocks options metainfo cache)
    {stored : BittorrentPieceCache}
    (blocks : ∀ other, (stored.entry other).blocks =
      if range.piece = other then
        (cache.entry range.piece).blocks.map fun blocks => setBitfieldBit blocks range.block
      else (cache.entry other).blocks) :
    openBlocks options metainfo stored = openBlocks options metainfo cache \ {range} := by
  obtain ⟨piece, block, bitfield, loading, within, clear, rfl⟩ := opened
  simp only [blockRange, loading, Option.map_some] at blocks
  ext other
  rw [Set.mem_sdiff, Set.mem_singleton_iff]
  constructor
  · rintro ⟨otherPiece, otherBlock, otherBits, there, inside, still, rfl⟩
    rw [blocks] at there
    split at there
    · rename_i same
      subst same
      rw [← Option.some.inj there, testBitfieldBit_set, Bool.or_eq_false_iff,
        decide_eq_false_iff_not] at still
      rw [← Option.some.inj there, setBitfieldBit_bitsize] at inside
      refine ⟨⟨piece, otherBlock, bitfield, loading, inside, still.1, rfl⟩, fun same => still.2 ?_⟩
      exact ⟨(congrArg BlockRange.block same).symm, within⟩
    · rename_i apart
      refine ⟨⟨otherPiece, otherBlock, otherBits, there, inside, still, rfl⟩, fun same => apart ?_⟩
      exact (congrArg BlockRange.piece same).symm
  · rintro ⟨⟨otherPiece, otherBlock, otherBits, there, inside, still, rfl⟩, apart⟩
    by_cases same : piece = otherPiece
    · subst same
      rw [loading] at there
      rw [← Option.some.inj there] at inside still
      have different : block ≠ otherBlock := by
        intro equal
        rw [equal] at apart
        exact apart rfl
      refine ⟨piece, otherBlock, setBitfieldBit bitfield block, ?_, ?_, ?_, rfl⟩
      · rw [blocks, if_pos rfl]
      · rwa [setBitfieldBit_bitsize]
      · rw [testBitfieldBit_set_of_ne different, still]
    · refine ⟨otherPiece, otherBlock, otherBits, ?_, inside, still, rfl⟩
      rw [blocks, if_neg same, there]

def eraseRequest (request : BittorrentPeerRequest) (peer : BittorrentPeerConnection) :
    BittorrentPeerConnection :=
  { peer with
    localStatus.requests := peer.localStatus.requests.eraseP
      (isRequestFor request.piece request.offset request.length) }

theorem eraseRequest_jobs (asked : OpenRequests options metainfo cache peer)
    (opened : requestRange request ∈ openBlocks options metainfo cache) :
    peerJobs (eraseRequest request peer) = finish (requestRange request) (peerJobs peer) :=
  (asked.finds opened).eraseP asked.2

theorem OpenRequests.erase (asked : OpenRequests options metainfo cache peer)
    (request : BittorrentPeerRequest) :
    OpenRequests options metainfo cache (eraseRequest request peer) :=
  ⟨fun request member => asked.1 request (List.mem_of_mem_eraseP member),
    asked.2.sublist (List.eraseP_sublist.map requestRange)⟩

theorem cancelCloned_jobs (asked : ∀ peer ∈ peers, OpenRequests options metainfo cache peer)
    (opened : requestRange request ∈ openBlocks options metainfo cache) :
    (cancelClonedBittorrentPeerRequests peers request).map peerJobs =
      (peers.map peerJobs).map (finish (requestRange request)) := by
  rw [cancelClonedBittorrentPeerRequests, List.map_map, List.map_map]
  refine List.map_congr_left fun peer member => ?_
  have erased := eraseRequest_jobs (asked peer member) opened
  simp only [Function.comp_apply]
  split
  · rename_i nothing
    have missing := holdsRequest_eq (asked peer member) opened
    rw [holdsRequest, nothing] at missing
    exact (finish_of_not_holds missing.symm).symm
  · rename_i clone _
    rw [← erased, peerJobs, peerJobs, eraseRequest]
    split <;> rfl

theorem receiveBlock_peers (bittorrent : BittorrentConnection) (index : Nat)
    (request : BittorrentPeerRequest) (data : List UInt8) :
    (receiveBlock bittorrent index request data).peers =
      if request.cloned then
        cancelClonedBittorrentPeerRequests
          (bittorrent.peers.modify index (eraseRequest request)) request
      else bittorrent.peers.modify index (eraseRequest request) := by
  simp only [receiveBlock]
  split <;> rfl

theorem receiveBlock_jobs {bittorrent : BittorrentConnection} (data : List UInt8)
    (serves : Serves (openBlocks options metainfo cache) free (bittorrent.peers.map peerJobs))
    (here : bittorrent.peers[index]? = some peer) (queued : request ∈ peer.localStatus.requests) :
    (receiveBlock bittorrent index request data).peers.map peerJobs =
      (bittorrent.peers.map peerJobs).map (finish (requestRange request)) := by
  have member := List.mem_of_getElem? here
  have asked : ∀ other ∈ bittorrent.peers, OpenRequests options metainfo cache other :=
    fun other there => openRequests_of_serves serves (List.mem_map_of_mem there)
  have opened : requestRange request ∈ openBlocks options metainfo cache :=
    (asked peer member).1 request queued
  have erased := eraseRequest_jobs (asked peer member) opened
  rw [receiveBlock_peers]
  split
  · have left : ∀ other ∈ bittorrent.peers.modify index (eraseRequest request),
        OpenRequests options metainfo cache other := by
      intro other there
      rcases mem_modify there with kept | ⟨earlier, found, changed⟩
      · exact asked other kept
      · rw [changed]
        exact (asked earlier (List.mem_of_getElem? found)).erase request
    rw [cancelCloned_jobs left opened, List.map_map, List.map_map]
    have again : (finish (requestRange request) ∘ peerJobs) (eraseRequest request peer) =
        id ((finish (requestRange request) ∘ peerJobs) peer) := by
      rw [Function.comp_apply, erased, finish_finish]
      rfl
    have same := map_modify_others here again fun _ _ => rfl
    rwa [List.map_id] at same
  · rename_i single
    refine map_modify_others here erased fun other there => ?_
    exact finish_of_not_holds
      (Serves.nobody_else serves here queued (by simpa using single) other there)

theorem entry_lt_of_blocks {piece : Nat} {blocks : Bitfield}
    (loading : (cache.entry piece).blocks = some blocks) : piece < cache.entries.length := by
  by_contra outside
  rw [BittorrentPieceCache.entry, List.getD_eq_getElem?_getD,
    List.getElem?_eq_none (Nat.le_of_not_lt outside)] at loading
  simp [blankEntry] at loading

theorem receiveBlock_blocks {bittorrent : BittorrentConnection} (index : Nat)
    (data : List UInt8) (inside : request.piece < bittorrent.cache.entries.length) (other : Nat) :
    ((receiveBlock bittorrent index request data).cache.entry other).blocks =
      if request.piece = other then
        (bittorrent.cache.entry request.piece).blocks.map fun blocks =>
          setBitfieldBit blocks request.block
      else (bittorrent.cache.entry other).blocks := by
  rw [receiveBlock_cache, BittorrentPieceCache.entry_modifyEntry inside]
  split <;> rfl

theorem BlocksServed.store {bittorrent : BittorrentConnection} {piece offset length : Nat}
    (serves : BlocksServed options bittorrent) (data : List UInt8)
    (pending : pendingRequest bittorrent index piece offset length = some request) :
    BlocksServed options (receiveBlock bittorrent index request data) := by
  obtain ⟨peer, here, queued, _⟩ := pendingRequest_piece pending
  have holding : peerJobs peer ∈ bittorrent.peers.map peerJobs :=
    List.mem_map_of_mem (List.mem_of_getElem? here)
  have there : requestJob request ∈ peerJobs peer := List.mem_map_of_mem queued
  have opened : requestRange request ∈ openBlocks options bittorrent.metainfo bittorrent.cache :=
    serves.key_wanted holding there
  have inside : request.piece < bittorrent.cache.entries.length := by
    obtain ⟨piece, _, _, loading, _, _, same⟩ := opened
    rw [show request.piece = piece from congrArg BlockRange.piece same]
    exact entry_lt_of_blocks loading
  have taken : requestRange request ∉ (bittorrent.cache.freeList.map requestJob).map Job.key := by
    intro member
    obtain ⟨job, waiting, same⟩ := List.mem_map.mp member
    have nobody := serves.unheld job waiting
    have somebody := holders_pos holding there
    rw [same] at nobody
    change 0 < holders (requestRange request) _ at somebody
    omega
  have finished := serves.finish taken
  rw [← openBlocks_store opened (receiveBlock_blocks index data inside),
    ← receiveBlock_jobs data serves here queued] at finished
  have freeList : (receiveBlock bittorrent index request data).cache.freeList =
      bittorrent.cache.freeList := by
    rw [receiveBlock_cache]
    rfl
  rw [BlocksServed, receiveBlock_metainfo, freeList]
  exact finished

theorem openBlocks_drop {piece : Nat} {blocks : Bitfield}
    (loading : (cache.entry piece).blocks = some blocks) (full : bitfieldIsSet blocks = true)
    {dropped : BittorrentPieceCache}
    (kept : ∀ other, (dropped.entry other).blocks =
      if piece = other then none else (cache.entry other).blocks) :
    openBlocks options metainfo dropped = openBlocks options metainfo cache := by
  ext range
  constructor
  · rintro ⟨other, block, bitfield, there, inside, clear, rfl⟩
    rw [kept] at there
    split at there
    · simp at there
    · exact ⟨other, block, bitfield, there, inside, clear, rfl⟩
  · rintro ⟨other, block, bitfield, there, inside, clear, rfl⟩
    refine ⟨other, block, bitfield, ?_, inside, clear, rfl⟩
    rw [kept, if_neg]
    · exact there
    · intro same
      rw [← same, loading] at there
      rw [← Option.some.inj there] at inside clear
      rw [(bitfieldIsSet_iff blocks).mp full block inside] at clear
      exact absurd clear (by decide)

theorem BlocksServed.same {before after : BittorrentConnection} (serves : BlocksServed options before)
    (metainfo : after.metainfo = before.metainfo)
    (blocks : openBlocks options before.metainfo after.cache =
      openBlocks options before.metainfo before.cache)
    (freeList : after.cache.freeList = before.cache.freeList)
    (peers : (after.peers.map peerJobs).Perm (before.peers.map peerJobs)) :
    BlocksServed options after := by
  rw [BlocksServed, metainfo, blocks, freeList]
  exact serves.perm (List.Perm.refl _) peers

end KcnTools.Bittorrent
