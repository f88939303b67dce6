import KcnTools.Bittorrent.BlockPool
import KcnTools.Bittorrent.PieceCounters
import KcnTools.Bittorrent.ServedRequests
import Mathlib

/-!
In every state of a torrent each block that has not arrived is on the free list or asked
for, and a peer that is the only one asked for a block hands it back when it leaves.
-/

namespace KcnTools.Bittorrent

open Modify Pool

variable {options : BittorrentOptions} {resumeFd : Int} {before after : BittorrentConnection}

def claimJob (claim : BlockClaim) : Job BlockRange :=
  ⟨⟨claim.piece, claim.offset, claim.length, claim.block⟩, claim.cloned⟩

theorem peerJobs_eq_claims (peer : BittorrentPeerConnection) :
    peerJobs peer = (peer.localStatus.requests.map blockClaim).map claimJob := by
  rw [List.map_map]
  rfl

theorem Quiet.jobs (quiet : Quiet before after) :
    after.peers.map peerJobs = before.peers.map peerJobs :=
  forall₂_map_eq (fun before after same => by
    rw [peerJobs_eq_claims, peerJobs_eq_claims, same.requests]) quiet.peers

theorem QuietCache.openBlocks {before after : BittorrentPieceCache} (quiet : QuietCache before after)
    (options : BittorrentOptions) (metainfo : BittorrentMeta) :
    openBlocks options metainfo after = openBlocks options metainfo before :=
  openBlocks_map (forall₂_map_eq (fun _ _ same => same.2.2.2) quiet.entries)

theorem BlocksServed.quiet (serves : BlocksServed options before) (quiet : Quiet before after) :
    BlocksServed options after :=
  serves.same quiet.metainfo (quiet.cache.openBlocks options before.metainfo) quiet.cache.freeList
    (List.Perm.of_eq quiet.jobs)

theorem foldl_freeList {ι : Type} (step : BittorrentPieceCache → ι → BittorrentPieceCache)
    (same : ∀ cache item, (step cache item).freeList = cache.freeList)
    (items : List ι) (cache : BittorrentPieceCache) :
    (items.foldl step cache).freeList = cache.freeList := by
  induction items generalizing cache with
  | nil => rfl
  | cons item rest ih => exact (ih (step cache item)).trans (same cache item)

theorem addRequests_entries (requests : List BittorrentPeerRequest)
    (bittorrent : BittorrentConnection) :
    (requests.foldl addRequestToBittorrentPieceCache bittorrent).cache.entries =
      bittorrent.cache.entries := by
  induction requests generalizing bittorrent with
  | nil => rfl
  | cons request rest ih =>
      rw [List.foldl_cons, ih, addRequestToBittorrentPieceCache]
      split <;> rfl

/-- Taking a peer out of the rarity of the pieces leaves all blocks as they are. -/
theorem removePeer_openBlocks (metainfo : BittorrentMeta) (cache : BittorrentPieceCache)
    (bitfield : Bitfield) :
    openBlocks options metainfo (removeBittorrentPeerFromPieceCache cache bitfield) =
      openBlocks options metainfo cache :=
  openBlocks_map (foldl_entries_map
    (fun cache piece => map_modify_of_eq cache.entries piece fun _ => by dsimp only) _ cache)

theorem leave_openBlocks (metainfo : BittorrentMeta) (bittorrent : BittorrentConnection)
    (index : Nat) :
    openBlocks options metainfo (doneBittorrentPeerConnection bittorrent index).cache =
      openBlocks options metainfo bittorrent.cache := by
  simp only [doneBittorrentPeerConnection]
  split
  · rfl
  · rw [removePeer_openBlocks]
    refine openBlocks_map ?_
    rw [addRequests_entries]

theorem leave_metainfo (bittorrent : BittorrentConnection) (index : Nat) :
    (doneBittorrentPeerConnection bittorrent index).metainfo = bittorrent.metainfo :=
  (@BittorrentTransition.leave (defaultBittorrentOptions id) bittorrent index).metainfo_eq

theorem BlocksServed.leave (serves : BlocksServed options before) (index : Nat) :
    BlocksServed options (doneBittorrentPeerConnection before index) := by
  rw [BlocksServed, leave_metainfo, leave_openBlocks]
  simp only [doneBittorrentPeerConnection]
  split
  · exact serves
  · rename_i peer here
    have focused := serves.perm (List.Perm.refl _) (peerJobs_focus here)
    generalize removal : { before with peers := before.peers.eraseIdx index } = removed
    have returned : Serves (openBlocks options before.metainfo before.cache)
        ((peer.localStatus.requests.foldl addRequestToBittorrentPieceCache removed).cache.freeList.map
          requestJob)
        ((peer.localStatus.requests.foldl addRequestToBittorrentPieceCache removed).peers.map
          peerJobs) := by
      refine Serves.addRequests peer.localStatus.requests ?_
      rw [← removal]
      exact focused
    have freeList : (removeBittorrentPeerFromPieceCache
        (peer.localStatus.requests.foldl addRequestToBittorrentPieceCache removed).cache
        peer.bitfield).freeList = _ :=
      foldl_freeList removePieceFromBittorrentPieceCache (fun _ _ => rfl) _ _
    rw [← freeList] at returned
    exact returned

theorem PieceMove.blocks {piece : Nat} {old new : PieceStage} {before after : BittorrentPieceCache}
    (moved : PieceMove piece old new before after) (inside : piece < before.entries.length)
    (here : pieceFlags (before.entry piece) = old.flags) (idle : new ≠ .loading) (other : Nat) :
    (after.entry other).blocks = if piece = other then none else (before.entry other).blocks := by
  obtain ⟨change, entries, shows⟩ := moved.entries
  have entry : after.entry other = (before.modifyEntry piece change).entry other := by
    rw [BittorrentPieceCache.entry, entries]
    rfl
  rw [entry, BittorrentPieceCache.entry_modifyEntry inside]
  split
  · have shown := congrArg (fun flags => flags.2.1) (shows _ here)
    simp only [pieceFlags] at shown
    rw [← Option.isNone_iff_eq_none, ← Option.not_isSome, shown]
    cases new <;> simp_all [PieceStage.flags]
  · rfl

variable {stages : List PieceStage}

theorem BlocksServed.drop (serves : BlocksServed options before)
    (table : PieceTable before.metainfo stages before.cache) {piece : Nat} {blocks : Bitfield}
    {new : PieceStage} (loading : (before.cache.entry piece).blocks = some blocks)
    (full : bitfieldIsSet blocks = true) (idle : new ≠ .loading)
    (moved : PieceMove piece .loading new before.cache after.cache)
    (metainfo : after.metainfo = before.metainfo)
    (freeList : after.cache.freeList = before.cache.freeList) (peers : after.peers = before.peers) :
    BlocksServed options after := by
  have here := table.flags piece
  rw [table.stage_of_blocks loading] at here
  have kept := moved.blocks (entry_lt_of_blocks loading) here idle
  exact serves.same metainfo (openBlocks_drop loading full kept) freeList
    (by rw [peers])

theorem preparePiece_freeList (metainfo : BittorrentMeta) (download : PartialDownload)
    (piece : Nat) :
    (preparePiece metainfo download piece).cache.freeList = download.cache.freeList := by
  simp only [preparePiece]
  split
  · rfl
  · split <;> rfl

theorem BlocksServed.endResume (serves : BlocksServed options before) :
    BlocksServed options (endBittorrentResume options before) := by
  have quiet := handleBittorrentModeChanges_quiet options
    (preparePartialBittorrentDownload (doneBittorrentResume before))
  have blocks := congrArg (List.map Prod.snd)
    (preparePartialBittorrentDownload_progress (doneBittorrentResume before))
  rw [List.map_map, List.map_map] at blocks
  have freeList := preparePartialBittorrentDownload_keeps BittorrentPieceCache.freeList
    preparePiece_freeList (doneBittorrentResume before)
  have prepared : BlocksServed options
      (preparePartialBittorrentDownload (doneBittorrentResume before)) :=
    serves.same rfl (openBlocks_map blocks) freeList (List.Perm.refl _)
  have handled := prepared.quiet quiet
  exact handled.same rfl (openBlocks_map rfl) rfl (List.Perm.refl _)

theorem BlocksServed.requeue {index : Nat} {peer : BittorrentPeerConnection}
    {request : BittorrentPeerRequest} (serves : BlocksServed options before)
    (here : before.peers[index]? = some peer)
    (first : peer.localStatus.requests.head? = some request) :
    BlocksServed options
      (addRequestToBittorrentPieceCache (before.modifyPeer index dropFirstRequest) request) := by
  have handed := Serves.requeue serves here first
  have blocks := addRequests_entries [request] (before.modifyPeer index dropFirstRequest)
  have metainfo := addRequests_metainfo [request] (before.modifyPeer index dropFirstRequest)
  simp only [List.foldl_cons, List.foldl_nil] at blocks metainfo
  rw [BlocksServed, metainfo]
  change Serves (openBlocks options before.metainfo _) _ _
  rw [openBlocks_map (congrArg (List.map fun entry => entry.blocks) blocks)]
  exact handed

theorem BlocksServed.clone {index : Nat} {place : Nat × Nat} {peer : BittorrentPeerConnection}
    {request : BittorrentPeerRequest} (serves : BlocksServed options before)
    (here : before.peers[index]? = some peer)
    (found : findClonableBittorrentPeerRequest before.peers peer = some place)
    (cloned : (cloneBittorrentPeerRequest before place).2 = some request) :
    BlocksServed options
      ((cloneBittorrentPeerRequest before place).1.modifyPeer index (appendRequest request)) := by
  have shared := Serves.cloneRequest serves here found cloned
  have metainfo :
      ((cloneBittorrentPeerRequest before place).1.modifyPeer index
        (appendRequest request)).metainfo = before.metainfo :=
    (@BittorrentTransition.clone options before index peer place request here found cloned).metainfo_eq
  rw [BlocksServed, metainfo]
  change Serves (openBlocks options before.metainfo (cloneBittorrentPeerRequest before place).1.cache)
    ((cloneBittorrentPeerRequest before place).1.cache.freeList.map requestJob) _
  rw [cloneBittorrentPeerRequest_cache]
  exact shared

theorem PieceTable.split_idle {metainfo : BittorrentMeta} {cache : BittorrentPieceCache} {piece : Nat}
    (table : PieceTable metainfo stages cache) (stage : stageAt stages piece = .remaining) :
    (cache.entry piece).blocks = none := by
  have shown := congrArg (fun flags => flags.2.1) (table.flags piece)
  rw [stage] at shown
  rw [← Option.isNone_iff_eq_none, ← Option.not_isSome]
  exact congrArg Bool.not shown

theorem stageAt_remaining_lt {metainfo : BittorrentMeta} {cache : BittorrentPieceCache} {piece : Nat}
    (table : PieceTable metainfo stages cache) (stage : stageAt stages piece = .remaining) :
    piece < metainfo.pieces := by
  rw [← table.size]
  exact stageAt_lt (by rw [stage]; decide)

theorem BlocksServed.step (recorded : PiecesRecorded resumeFd before)
    (few : ∀ piece < before.metainfo.pieces, blockCount options before.metainfo piece < 2 ^ 16)
    (step : BittorrentTransition options before after) (serves : BlocksServed options before) :
    BlocksServed options after := by
  obtain ⟨stages, record⟩ := recorded
  cases step with
  | quiet quiet => exact serves.quiet quiet
  | sort sorted => exact serves.same rfl rfl rfl (sorted.map peerJobs)
  | take here found =>
      exact Serves.takeRequest serves here (findBittorrentFreeListPeerRequest_spec found).2
  | clone here found cloned => exact serves.clone here found cloned
  | split here remaining offered last =>
      have stage := record.table.stage_of_remaining remaining
      have inside := stageAt_remaining_lt record.table stage
      refine serves.split here ?_ (record.table.split_idle stage) (few _ inside) last
      rwa [record.table.entries_length]
  | requeue here first => exact serves.requeue here first
  | leave index => exact serves.leave index
  | store data pending => exact serves.store data pending
  | reject data pending loading full =>
      have stored := serves.store data pending
      exact stored.drop (record.received _ _ data).table loading full (by decide)
        (rejectPiece_move _ _) rfl rfl rfl
  | complete data pending loading full =>
      have stored := serves.store data pending
      exact stored.drop (record.received _ _ data).table loading full (by decide)
        (fillPiece_move _ _) rfl rfl rfl
  | haveMessage here =>
      refine serves.same rfl (openBlocks_map ?_) rfl (List.Perm.of_eq ?_)
      · exact map_modify_of_eq _ _ fun _ => by dsimp only
      · exact map_modify_of_eq _ _ fun _ => rfl
  | bitfield here =>
      refine serves.same rfl (openBlocks_map ?_) ?_ (List.Perm.of_eq ?_)
      · exact foldl_entries_map (fun cache piece => map_modify_of_eq cache.entries piece
          fun _ => by dsimp only) _ _
      · exact foldl_freeList updateBittorrentPieceCache (fun _ _ => rfl) _ _
      · exact map_modify_of_eq _ _ fun _ => rfl
  | serve =>
      exact serves.same rfl rfl rfl (List.Perm.of_eq (map_modify_of_eq _ _ fun _ => rfl))
  | skipped => exact serves.same rfl (openBlocks_map rfl) rfl (List.Perm.refl _)
  | resumed resuming inside =>
      have still := record.resuming resuming
      have stage := still.ahead before.cache.resumePos (Nat.le_refl _) inside
      have idle := record.table.split_idle stage
      have here := record.table.flags before.cache.resumePos
      rw [stage] at here
      have kept := (resumePiece_move (advanceResume before) before.cache.resumePos).blocks
        (by rwa [show (advanceResume before).cache.entries.length = _ from
          record.table.entries_length]) here (by decide)
      refine serves.same rfl (openBlocks_congr fun piece => ?_) rfl (List.Perm.refl _)
      rw [kept]
      split
      · rename_i same
        rw [← same, idle]
      · rfl
  | ended resuming position =>
      refine BlocksServed.endResume ?_
      exact serves.same rfl (openBlocks_map rfl) rfl (List.Perm.refl _)

theorem BlocksServed.connect (serves : BlocksServed options before) :
    BlocksServed options (connectPeer before) :=
  Serves.idle_iff.mpr serves

theorem BlocksServed.initial (options : BittorrentOptions) (metainfo : BittorrentMeta)
    (resumeFd : Int) : BlocksServed options (initBittorrentPieceCache metainfo resumeFd) := by
  have blocks : (initBittorrentPieceCache metainfo resumeFd).cache.entries.map
      (fun entry => entry.blocks) =
      (emptyPieceCache metainfo.pieces).entries.map fun entry => entry.blocks := by
    refine foldl_entries_map (fun cache piece => ?_) _ _
    exact map_modify_of_eq cache.entries piece fun _ => rfl
  have freeList : (initBittorrentPieceCache metainfo resumeFd).cache.freeList = [] :=
    foldl_freeList (fun cache piece => setBittorrentPieceCacheRemaining cache piece 1)
      (fun _ _ => rfl) _ _
  have closed : openBlocks options metainfo
      (initBittorrentPieceCache metainfo resumeFd).cache = ∅ := by
    rw [openBlocks_map blocks, Set.eq_empty_iff_forall_notMem]
    rintro range ⟨piece, block, bitfield, loading, _⟩
    have inside := entry_lt_of_blocks loading
    simp [BittorrentPieceCache.entry, emptyPieceCache, blankEntry] at loading inside
  change Serves (openBlocks options metainfo _) _ []
  rw [closed, freeList]
  exact Serves.nothing

structure BlocksRecorded (options : BittorrentOptions) (metainfo : BittorrentMeta) (resumeFd : Int)
    (bittorrent : BittorrentConnection) : Prop where
  pieces : PiecesRecorded resumeFd bittorrent
  metainfo : bittorrent.metainfo = metainfo
  served : BlocksServed options bittorrent

variable {metainfo : BittorrentMeta}

theorem BlocksRecorded.step
    (few : ∀ piece < metainfo.pieces, blockCount options metainfo piece < 2 ^ 16)
    (step : BittorrentTransition options before after)
    (recorded : BlocksRecorded options metainfo resumeFd before) :
    BlocksRecorded options metainfo resumeFd after where
  pieces := recorded.pieces.step step
  metainfo := step.metainfo_eq.trans recorded.metainfo
  served := recorded.served.step recorded.pieces (by rwa [recorded.metainfo]) step

theorem BlocksRecorded.connect (recorded : BlocksRecorded options metainfo resumeFd before)
    (started : before.cache.resumeFd = -1) :
    BlocksRecorded options metainfo resumeFd (connectPeer before) :=
  ⟨recorded.pieces.connect started, recorded.metainfo, recorded.served.connect⟩

theorem blocksRecorded_run {events : List BittorrentEvent} {bittorrent : BittorrentConnection}
    (few : ∀ piece < metainfo.pieces, blockCount options metainfo piece < 2 ^ 16)
    (reached : Run.run (bittorrentStep options) (initBittorrentPieceCache metainfo resumeFd) events =
      some bittorrent) : BlocksRecorded options metainfo resumeFd bittorrent := by
  refine Run.run_preserves (BlocksRecorded options metainfo resumeFd) ?_
    ⟨PieceRecord.initial metainfo resumeFd, rfl, BlocksServed.initial options metainfo resumeFd⟩
    (Run.admitted_of_forall (fun _ _ => trivial) _ events) reached
  intro before event after recorded _ stepped
  exact bittorrentStep_preserves (fun _ _ => BlocksRecorded.step few)
    (fun _ started => recorded.connect started) stepped recorded

theorem clearFirst_map {β : Type} {view : BittorrentPeerRequest → β}
    (matched : BittorrentPeerRequest → Bool) (requests : List BittorrentPeerRequest)
    (same : ∀ request, view { request with cloned := false } = view request) :
    (clearFirst matched requests).map view = requests.map view := by
  induction requests with
  | nil => rfl
  | cons request rest ih =>
      rw [clearFirst]
      split
      · rw [List.map_cons, List.map_cons, same]
      · rw [List.map_cons, List.map_cons, ih]

theorem addRequests_ranges (requests : List BittorrentPeerRequest)
    (bittorrent : BittorrentConnection) :
    (requests.foldl addRequestToBittorrentPieceCache bittorrent).peers.map
        (fun peer => peer.localStatus.requests.map requestRange) =
      bittorrent.peers.map fun peer => peer.localStatus.requests.map requestRange := by
  induction requests generalizing bittorrent with
  | nil => rfl
  | cons request rest ih =>
      rw [List.foldl_cons, ih, addRequestToBittorrentPieceCache]
      split
      · rfl
      · exact clearClonedBittorrentPeerRequest_map _ _ fun peer => clearFirst_map _ _ fun _ => rfl

theorem leave_ranges {bittorrent : BittorrentConnection} {index : Nat}
    {peer : BittorrentPeerConnection} (here : bittorrent.peers[index]? = some peer) :
    (doneBittorrentPeerConnection bittorrent index).peers.map
        (fun peer => peer.localStatus.requests.map requestRange) =
      (bittorrent.peers.eraseIdx index).map fun peer =>
        peer.localStatus.requests.map requestRange := by
  simp only [doneBittorrentPeerConnection, here]
  exact addRequests_ranges _ _

theorem holds_peerJobs (range : BlockRange) (peer : BittorrentPeerConnection) :
    holds range (peerJobs peer) =
      (peer.localStatus.requests.map requestRange).any fun asked => asked = range := by
  rw [holds, peerJobs, List.any_map, List.any_map]
  rfl

structure OnlyHolder (range : BlockRange) (bittorrent : BittorrentConnection) (index : Nat)
    (request : BittorrentPeerRequest) : Prop where
  asks : ∃ peer, bittorrent.peers[index]? = some peer ∧ request ∈ peer.localStatus.requests
  same : requestRange request = range
  alone : ∀ other ∈ bittorrent.peers.eraseIdx index, ∀ asked ∈ other.localStatus.requests,
    requestRange asked ≠ range

theorem OnlyHolder.others {range : BlockRange} {bittorrent : BittorrentConnection} {index : Nat}
    {request : BittorrentPeerRequest} (holder : OnlyHolder range bittorrent index request) :
    holders range ((bittorrent.peers.eraseIdx index).map peerJobs) = 0 := by
  rw [holders_eq_zero]
  intro jobs member
  obtain ⟨other, there, rfl⟩ := List.mem_map.mp member
  rw [holds_eq_false_iff, peerJobs, requestJob_keys]
  intro asked
  obtain ⟨request, queued, same⟩ := List.mem_map.mp asked
  exact holder.alone other there request queued same

theorem OnlyHolder.unshared {range : BlockRange} {bittorrent : BittorrentConnection} {index : Nat}
    {request : BittorrentPeerRequest} (holder : OnlyHolder range bittorrent index request)
    (serves : BlocksServed options bittorrent) : request.cloned = false := by
  obtain ⟨peer, here, queued⟩ := holder.asks
  have holding : peerJobs peer ∈ bittorrent.peers.map peerJobs :=
    List.mem_map_of_mem (List.mem_of_getElem? here)
  have counted := holders_perm (peerJobs_focus here).symm range
  rw [holders_cons, holder.others, Nat.zero_add] at counted
  have shared := serves.marked _ holding (requestJob request) (List.mem_map_of_mem queued)
  rw [show (requestJob request).key = range from holder.same, counted] at shared
  have atMost := Bool.toNat_le (holds range (peerJobs peer))
  exact shared.trans (decide_eq_false (by omega))

theorem OnlyHolder.returned {range : BlockRange} {bittorrent : BittorrentConnection} {index : Nat}
    {request : BittorrentPeerRequest} (holder : OnlyHolder range bittorrent index request)
    (serves : BlocksServed options bittorrent) :
    ∃ returned ∈ (doneBittorrentPeerConnection bittorrent index).cache.freeList,
      requestRange returned = range := by
  obtain ⟨peer, here, queued⟩ := holder.asks
  have opened : range ∈ openBlocks options bittorrent.metainfo bittorrent.cache := by
    rw [← holder.same]
    exact serves.key_wanted (List.mem_map_of_mem (List.mem_of_getElem? here))
      (show requestJob request ∈ peerJobs peer from List.mem_map_of_mem queued)
  have left := serves.leave index
  rw [BlocksServed, leave_metainfo, leave_openBlocks] at left
  have nobody : holders range
      ((doneBittorrentPeerConnection bittorrent index).peers.map peerJobs) = 0 := by
    have ranges := congrArg (List.countP fun ranges => ranges.any fun asked => asked = range)
      (leave_ranges here)
    have others := holder.others
    rw [holders, List.countP_map] at others ⊢
    rw [List.countP_map, List.countP_map] at ranges
    simp only [Function.comp_def, ← holds_peerJobs] at ranges
    exact ranges.trans others
  rcases (left.served range).mp opened with free | held
  · obtain ⟨job, member, same⟩ := List.mem_map.mp free
    obtain ⟨returned, there, rfl⟩ := List.mem_map.mp member
    exact ⟨returned, there, same⟩
  · omega

/-- No block is ever lost. -/
theorem openBlock_requested {events : List BittorrentEvent}
    {bittorrent : BittorrentConnection}
    (few : ∀ piece < metainfo.pieces, blockCount options metainfo piece < 2 ^ 16)
    (reached : Run.run (bittorrentStep options) (initBittorrentPieceCache metainfo resumeFd) events =
      some bittorrent) {piece block : Nat} {blocks : Bitfield}
    (loading : (bittorrent.cache.entry piece).blocks = some blocks) (inside : block < blocks.bitsize)
    (clear : testBitfieldBit blocks block = false) :
    (∃ request, requestRange request = blockRange options metainfo piece block ∧
      (request ∈ bittorrent.cache.freeList ∨
        ∃ peer ∈ bittorrent.peers, request ∈ peer.localStatus.requests)) ∧
    ∀ index request,
      OnlyHolder (blockRange options metainfo piece block) bittorrent index request →
        request.cloned = false ∧
        ∃ returned ∈ (doneBittorrentPeerConnection bittorrent index).cache.freeList,
          requestRange returned = blockRange options metainfo piece block := by
  have serves := (blocksRecorded_run few reached).served
  refine ⟨?_, fun index request holder => ⟨holder.unshared serves, holder.returned serves⟩⟩
  have opened : blockRange options metainfo piece block ∈
      openBlocks options bittorrent.metainfo bittorrent.cache := by
    rw [metainfo_run reached]
    exact ⟨piece, block, blocks, loading, inside, clear, rfl⟩
  rcases (serves.served _).mp opened with free | held
  · obtain ⟨job, member, same⟩ := List.mem_map.mp free
    obtain ⟨request, there, rfl⟩ := List.mem_map.mp member
    exact ⟨request, same, .inl there⟩
  · obtain ⟨jobs, member, holding⟩ := List.countP_pos_iff.mp held
    obtain ⟨peer, connected, rfl⟩ := List.mem_map.mp member
    obtain ⟨job, queued, same⟩ := List.mem_map.mp (holds_iff.mp holding)
    obtain ⟨request, there, rfl⟩ := List.mem_map.mp queued
    exact ⟨request, same, .inr ⟨peer, connected, there⟩⟩

def singleFile : BittorrentMeta :=
  { singlePiece 1 Nat.one_pos oneByte_bound with files := [⟨1, true, [97]⟩] }

def singleBlockEvents : List BittorrentEvent :=
  [.resume [], .connect,
    .receive 0 [0, 0, 0, 5, 4, 0, 0, 0, 0] ⟨⟨fun _ => noFileAnswer, 0⟩, fun _ => 0⟩,
    .receive 0 [0, 0, 0, 1, 1] ⟨⟨fun _ => noFileAnswer, 0⟩, fun _ => 0⟩,
    .update 0 ⟨fun _ => noDraws, fun _ _ => noFileAnswer, fun _ => 0⟩]

theorem openBlock_requested_single :
    ∃ bittorrent,
      Run.run (bittorrentStep (defaultBittorrentOptions id))
          (initBittorrentPieceCache singleFile 3) singleBlockEvents = some bittorrent ∧
      (∃ request, requestRange request =
          blockRange (defaultBittorrentOptions id) singleFile 0 0 ∧
        (request ∈ bittorrent.cache.freeList ∨
          ∃ peer ∈ bittorrent.peers, request ∈ peer.localStatus.requests)) := by
  have few : ∀ piece < singleFile.pieces,
      blockCount (defaultBittorrentOptions id) singleFile piece < 2 ^ 16 := by decide +kernel
  obtain ⟨bittorrent, reached⟩ : ∃ bittorrent,
      Run.run (bittorrentStep (defaultBittorrentOptions id))
          (initBittorrentPieceCache singleFile 3) singleBlockEvents = some bittorrent :=
    Option.isSome_iff_exists.mp (by decide +kernel)
  have opened : ((Run.run (bittorrentStep (defaultBittorrentOptions id))
      (initBittorrentPieceCache singleFile 3) singleBlockEvents).map fun state =>
        (state.cache.entry 0).blocks) = some (some (initBitfield 1)) := by decide +kernel
  rw [reached, Option.map_some, Option.some.injEq] at opened
  have requested := openBlock_requested few reached opened (show 0 < 1 by decide) (by decide)
  exact ⟨bittorrent, reached, requested.1⟩

end KcnTools.Bittorrent
