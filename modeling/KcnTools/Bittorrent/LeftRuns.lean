import KcnTools.Bittorrent.LeftBytes
import Mathlib

/-!
The bytes that are left in every run of a torrent: each change of the torrent either moves no
progress, or moves one piece and takes its bytes off or adds them again.
-/

namespace KcnTools.Bittorrent

open Finset Modify Total

variable {options : BittorrentOptions} {metainfo : BittorrentMeta} {resumeFd : Int}
  {before after : BittorrentConnection}

/-- Neither the progress of a piece nor the bytes that are left change. -/
structure SameLeft (before after : BittorrentConnection) : Prop where
  entries : after.cache.entries.map pieceProgress = before.cache.entries.map pieceProgress
  stats : before.stats.estLength ≠ -1 →
    after.stats.left = before.stats.left ∧ after.stats.estLength = before.stats.estLength

theorem Quiet.sameLeft (quiet : Quiet before after) : SameLeft before after where
  entries := quiet.cache.progress
  stats set := ⟨quiet.stats.left set, quiet.stats.estLength set⟩

/-- What a change of the torrent does to the progress of its pieces. -/
inductive ProgressChange (options : BittorrentOptions) (before : BittorrentConnection) :
    BittorrentConnection → Prop
  | still {after : BittorrentConnection} (same : SameLeft before after) :
      ProgressChange options before after
  | split {piece : Nat} {peers : List BittorrentPeerConnection}
      (remaining : (before.cache.entry piece).remaining = true) :
      ProgressChange options before
        { (addPieceToBittorrentFreeList options before piece).1 with peers }
  | store {index piece offset length : Nat} {request : BittorrentPeerRequest} (data : List UInt8)
      (pending : pendingRequest before index piece offset length = some request)
      (unfinished : ((((receiveBlock before index request data).cache.entry piece).blocks.map
        bitfieldIsSet).getD false) = false) :
      ProgressChange options before (receiveBlock before index request data)
  | reject {index piece offset length : Nat} {request : BittorrentPeerRequest} {blocks : Bitfield}
      (data : List UInt8)
      (pending : pendingRequest before index piece offset length = some request)
      (loading : ((receiveBlock before index request data).cache.entry piece).blocks = some blocks)
      (full : bitfieldIsSet blocks = true) :
      ProgressChange options before
        (rejectPiece (dropBlocks (receiveBlock before index request data) piece) piece)
  | complete {index piece offset length : Nat} {request : BittorrentPeerRequest} {blocks : Bitfield}
      (data : List UInt8)
      (pending : pendingRequest before index piece offset length = some request)
      (loading : ((receiveBlock before index request data).cache.entry piece).blocks = some blocks)
      (full : bitfieldIsSet blocks = true) :
      ProgressChange options before (fillPiece (receiveBlock before index request data) piece)
  | resumed (resuming : before.cache.resumeFd ≠ -1)
      (inside : before.cache.resumePos < before.metainfo.pieces) :
      ProgressChange options before (resumePiece (advanceResume before) before.cache.resumePos)
  | ended (position : Nat) :
      ProgressChange options before
        (endBittorrentResume options
          { before with cache := { before.cache with resumePos := position } })

theorem BittorrentTransition.progress (step : BittorrentTransition options before after) :
    ProgressChange options before after := by
  cases step with
  | quiet quiet => exact .still quiet.sameLeft
  | sort | take | serve | skipped => exact .still ⟨rfl, fun _ => ⟨rfl, rfl⟩⟩
  | @clone index peer place request here found cloned =>
      refine .still ⟨?_, fun _ => ?_⟩
      · change (cloneBittorrentPeerRequest before place).1.cache.entries.map pieceProgress = _
        rw [cloneBittorrentPeerRequest_cache]
      · change (cloneBittorrentPeerRequest before place).1.stats.left = _ ∧
          (cloneBittorrentPeerRequest before place).1.stats.estLength = _
        simp only [cloneBittorrentPeerRequest]
        split <;> exact ⟨rfl, rfl⟩
  | split here remaining offered last => exact .split remaining
  | @requeue index peer request here first =>
      have entries := addRequests_entries [request] (before.modifyPeer index dropFirstRequest)
      have stats := addRequests_stats [request] (before.modifyPeer index dropFirstRequest)
      simp only [List.foldl_cons, List.foldl_nil] at entries stats
      refine .still ⟨by rw [entries]; rfl, fun _ => ?_⟩
      rw [stats]
      exact ⟨rfl, rfl⟩
  | leave index =>
      refine .still ⟨leave_progress before index, fun _ => ?_⟩
      rw [leave_stats]
      exact ⟨rfl, rfl⟩
  | store data pending unfinished => exact .store data pending unfinished
  | reject data pending loading full => exact .reject data pending loading full
  | complete data pending loading full => exact .complete data pending loading full
  | haveMessage =>
      exact .still ⟨updatePieces_progress [_] before.cache, fun _ => ⟨rfl, rfl⟩⟩
  | bitfield => exact .still ⟨updatePieces_progress _ before.cache, fun _ => ⟨rfl, rfl⟩⟩
  | resumed resuming inside => exact .resumed resuming inside
  | ended resuming position => exact .ended position

theorem LeftBalanced.step (balanced : LeftBalanced options before)
    (recorded : PiecesRecorded resumeFd before) (serves : BlocksServed options before)
    (few : ∀ piece < before.metainfo.pieces, blockCount options before.metainfo piece < 2 ^ 16)
    (metainfo : after.metainfo = before.metainfo) (change : ProgressChange options before after) :
    LeftBalanced options after := by
  obtain ⟨stages, record⟩ := recorded
  have set : before.stats.estLength ≠ -1 := by
    have known := balanced.known
    omega
  cases change with
  | still same =>
      have stats := same.stats set
      refine balanced.same metainfo ?_ stats.1 same.entries
      rw [stats.2]
      exact balanced.known
  | @split piece peers remaining =>
      have stage := record.table.stage_of_remaining remaining
      have inside := stageAt_remaining_lt record.table stage
      have split := balanced.split record.table (few piece inside) stage
      exact ⟨split.known, split.left, split.sized⟩
  | store data pending unfinished => exact balanced.receive serves record.table data pending
  | reject data pending loading full =>
      have stored := balanced.receive serves record.table data pending
      exact stored.reject (record.received _ _ data).table loading full
  | complete data pending loading full =>
      have stored := balanced.receive serves record.table data pending
      exact stored.complete (record.received _ _ data).table loading full
  | resumed resuming inside =>
      have stage := (record.resuming resuming).ahead before.cache.resumePos (Nat.le_refl _) inside
      exact balanced.resumed record.table stage
  | ended position =>
      have moved : LeftBalanced options
          { before with cache := { before.cache with resumePos := position } } :=
        ⟨balanced.known, balanced.left, balanced.sized⟩
      exact moved.ended

def LoadingOpen (cache : BittorrentPieceCache) : Prop :=
  ∀ piece blocks, (cache.entry piece).blocks = some blocks → bitfieldIsSet blocks = false

theorem LoadingOpen.same {before after : BittorrentPieceCache}
    (waiting : LoadingOpen before)
    (entries : after.entries.map pieceProgress = before.entries.map pieceProgress) :
    LoadingOpen after := by
  intro piece blocks loading
  refine waiting piece blocks ?_
  rw [← loading]
  exact (congrArg Prod.snd (BittorrentPieceCache.entry_of_map pieceProgress entries piece)).symm

theorem initBitfield_open {count : Nat} (positive : 0 < count) :
    bitfieldIsSet (initBitfield count) = false := by
  rw [← Bool.not_eq_true, bitfieldIsSet_iff]
  intro all
  have first := all 0 positive
  rw [testBitfieldBit_init] at first
  simp at first

variable {stages : List PieceStage}

theorem LoadingOpen.drop {before after : BittorrentPieceCache} {piece : Nat} {old new : PieceStage}
    (others : ∀ other, other ≠ piece → ∀ blocks, (before.entry other).blocks = some blocks →
      bitfieldIsSet blocks = false)
    (table : PieceTable metainfo stages before) (here : stageAt stages piece = old)
    (wanted : old ≠ .unwanted) (idle : new ≠ .loading) (moved : PieceMove piece old new before after) :
    LoadingOpen after := by
  intro other blocks loading
  have inside : piece < before.entries.length := by
    rw [table.entries_length, ← table.size]
    exact stageAt_lt (here ▸ wanted)
  rw [moved.blocks inside (here ▸ table.flags piece) idle] at loading
  split at loading
  · simp at loading
  · rename_i different
    exact others other (Ne.symm different) blocks loading

theorem LoadingOpen.receive (waiting : LoadingOpen before.cache) {index piece offset length : Nat}
    {request : BittorrentPeerRequest} (data : List UInt8)
    (pending : pendingRequest before index piece offset length = some request) (other : Nat)
    (different : other ≠ piece) {blocks : Bitfield}
    (loading : ((receiveBlock before index request data).cache.entry other).blocks = some blocks) :
    bitfieldIsSet blocks = false := by
  obtain ⟨peer, _, _, place⟩ := pendingRequest_piece pending
  refine waiting other blocks ?_
  rw [← loading, receiveBlock_cache, place]
  exact congrArg BittorrentPieceCacheEntry.blocks
    (@entry_modify_of_ne before.cache piece other _ (Ne.symm different)).symm

theorem LoadingOpen.step (waiting : LoadingOpen before.cache)
    (recorded : PiecesRecorded resumeFd before)
    (few : ∀ piece < before.metainfo.pieces, blockCount options before.metainfo piece < 2 ^ 16)
    (change : ProgressChange options before after) : LoadingOpen after.cache := by
  obtain ⟨stages, record⟩ := recorded
  cases change with
  | still same => exact waiting.same same.entries
  | @split piece peers remaining =>
      have stage := record.table.stage_of_remaining remaining
      have inside := stageAt_remaining_lt record.table stage
      intro other blocks loading
      change ((addPieceToBittorrentFreeList options before piece).1.cache.entry other).blocks =
        some blocks at loading
      rw [addPiece_blocks (by rwa [record.table.entries_length]) (few piece inside)] at loading
      split at loading
      · rw [← Option.some.inj loading]
        exact initBitfield_open (blockCount_positive options before.metainfo piece)
      · exact waiting other blocks loading
  | @store index piece offset length request data pending unfinished =>
      intro other blocks loading
      by_cases same : other = piece
      · subst same
        rw [loading] at unfinished
        exact unfinished
      · exact waiting.receive data pending other same loading
  | @reject index piece offset length request blocks data pending loading full =>
      have received := record.received index request data
      exact LoadingOpen.drop (fun other different _ =>
          waiting.receive data pending other different)
        received.table (received.table.stage_of_blocks loading) (by decide) (by decide)
        (rejectPiece_move _ _)
  | @complete index piece offset length request blocks data pending loading full =>
      have received := record.received index request data
      exact LoadingOpen.drop (fun other different _ =>
          waiting.receive data pending other different)
        received.table (received.table.stage_of_blocks loading) (by decide) (by decide)
        (fillPiece_move _ _)
  | resumed resuming inside =>
      have stage := (record.resuming resuming).ahead before.cache.resumePos (Nat.le_refl _) inside
      have moved := resumePiece_move (advanceResume before) before.cache.resumePos
      have moves : PieceMove before.cache.resumePos .remaining .completed before.cache
          (resumePiece (advanceResume before) before.cache.resumePos).cache :=
        ⟨moved.entries, moved.bitfield, moved.remaining, moved.completed⟩
      exact LoadingOpen.drop (fun other _ blocks => waiting other blocks) record.table stage (by decide)
        (by decide) moves
  | ended position => exact waiting.same (endBittorrentResume_progress options _)

theorem emptyProgress (metainfo : BittorrentMeta) (resumeFd : Int) (piece : Nat) :
    pieceProgress ((initBittorrentPieceCache metainfo resumeFd).cache.entry piece) = (false, none) := by
  have entries : (initBittorrentPieceCache metainfo resumeFd).cache.entries.map pieceProgress =
      (emptyPieceCache metainfo.pieces).entries.map pieceProgress :=
    foldl_entries_map (fun cache piece => map_modify_of_eq cache.entries piece fun _ => by rfl) _ _
  rw [BittorrentPieceCache.entry_of_map pieceProgress entries]
  simp [BittorrentPieceCache.entry, emptyPieceCache, pieceProgress, blankEntry]

theorem LeftBalanced.initial (options : BittorrentOptions) (metainfo : BittorrentMeta)
    (resumeFd : Int) : LeftBalanced options (initBittorrentPieceCache metainfo resumeFd) := by
  have progress := emptyProgress metainfo resumeFd
  have stats : (initBittorrentPieceCache metainfo resumeFd).stats.estLength = torrentLength metainfo ∧
      (initBittorrentPieceCache metainfo resumeFd).stats.left = torrentLength metainfo := by
    simp [initBittorrentPieceCache, updateBittorrentConnectionStats, torrentLength]
  refine ⟨?_, ?_, fun piece blocks loading => ?_⟩
  · rw [stats.1]
    exact Int.natCast_nonneg _
  · have nothing : totalCredit options metainfo (initBittorrentPieceCache metainfo resumeFd).cache = 0 :=
      sum_eq_zero fun piece _ => by
        have fresh := progress piece
        rw [pieceProgress, Prod.mk.injEq] at fresh
        simp only [pieceCredit, completedLength, loadedLength, fresh.1, fresh.2, Bool.false_eq_true,
          if_false, Nat.add_zero]
    rw [stats.2]
    change (torrentLength metainfo : Int) + (totalCredit options metainfo _ : Nat) = _
    rw [nothing]
    exact Int.add_zero _
  · have fresh := congrArg Prod.snd (progress piece)
    simp only [pieceProgress] at fresh
    rw [fresh] at loading
    simp at loading

theorem LoadingOpen.initial (metainfo : BittorrentMeta) (resumeFd : Int) :
    LoadingOpen (initBittorrentPieceCache metainfo resumeFd).cache := by
  intro piece blocks loading
  have fresh := congrArg Prod.snd (emptyProgress metainfo resumeFd piece)
  simp only [pieceProgress] at fresh
  rw [fresh] at loading
  simp at loading

/-- What is kept about the bytes that are left from event to event. -/
structure LeftRecorded (options : BittorrentOptions) (metainfo : BittorrentMeta) (resumeFd : Int)
    (bittorrent : BittorrentConnection) : Prop where
  blocks : BlocksRecorded options metainfo resumeFd bittorrent
  balanced : LeftBalanced options bittorrent
  waiting : LoadingOpen bittorrent.cache

theorem LeftRecorded.step
    (few : ∀ piece < metainfo.pieces, blockCount options metainfo piece < 2 ^ 16)
    (change : BittorrentTransition options before after)
    (recorded : LeftRecorded options metainfo resumeFd before) :
    LeftRecorded options metainfo resumeFd after := by
  have small : ∀ piece < before.metainfo.pieces,
      blockCount options before.metainfo piece < 2 ^ 16 := by
    rwa [recorded.blocks.metainfo]
  exact {
    blocks := recorded.blocks.step few change
    balanced := recorded.balanced.step recorded.blocks.pieces recorded.blocks.served small
      change.metainfo_eq change.progress
    waiting := recorded.waiting.step recorded.blocks.pieces small change.progress }

theorem leftRecorded_run {events : List BittorrentEvent} {bittorrent : BittorrentConnection}
    (few : ∀ piece < metainfo.pieces, blockCount options metainfo piece < 2 ^ 16)
    (reached : Run.run (bittorrentStep options) (initBittorrentPieceCache metainfo resumeFd) events =
      some bittorrent) : LeftRecorded options metainfo resumeFd bittorrent := by
  refine Run.run_preserves (LeftRecorded options metainfo resumeFd) ?_
    ⟨blocksRecorded_run few (Run.run_nil _ _), LeftBalanced.initial options metainfo resumeFd,
      LoadingOpen.initial metainfo resumeFd⟩
    (Run.admitted_of_forall (fun _ _ => trivial) _ events) reached
  intro before event after recorded _ stepped
  refine bittorrentStep_preserves (fun _ _ change => LeftRecorded.step few change) (fun _ started => ?_)
    stepped recorded
  have balanced := recorded.balanced
  exact ⟨recorded.blocks.connect started, ⟨balanced.known, balanced.left, balanced.sized⟩,
    recorded.waiting⟩

/-- The bytes that are left are those of the torrent without the completed pieces and the
blocks that have arrived, and there are none once every piece is completed. -/
structure LeftAgrees (options : BittorrentOptions) (bittorrent : BittorrentConnection) : Prop where
  left : bittorrent.stats.left = (torrentLength bittorrent.metainfo : Int) -
    ∑ piece ∈ range bittorrent.metainfo.pieces,
      (completedLength bittorrent.metainfo bittorrent.cache piece : Int) -
    ∑ piece ∈ range bittorrent.metainfo.pieces,
      (loadedLength options bittorrent.metainfo bittorrent.cache piece : Int)
  finished : bittorrent.stats.left = 0 ↔
    ∀ piece < bittorrent.metainfo.pieces, (bittorrent.cache.entry piece).completed = true

theorem pieceCredit_le (balanced : LeftBalanced options before) (recorded : PiecesRecorded resumeFd before)
    (waiting : LoadingOpen before.cache) (piece : Nat) :
    pieceCredit options before.metainfo before.cache piece ≤
        getBittorrentPieceLength before.metainfo piece ∧
      (pieceCredit options before.metainfo before.cache piece =
          getBittorrentPieceLength before.metainfo piece ↔
        (before.cache.entry piece).completed = true) := by
  obtain ⟨stages, record⟩ := recorded
  have positive := getBittorrentPieceLength_positive before.metainfo piece
  cases loading : (before.cache.entry piece).blocks with
  | none =>
      rw [pieceCredit, completedLength, loadedLength, loading]
      split
      · rename_i done
        simp [done]
      · rename_i undone
        refine ⟨Nat.zero_le _, fun same => ?_, fun done => absurd done undone⟩
        exact absurd same (Nat.ne_of_lt positive)
  | some blocks =>
      have shown := congrArg (fun flags => flags.2.2) (record.table.flags piece)
      rw [record.table.stage_of_blocks loading] at shown
      have undone : (before.cache.entry piece).completed = false := shown
      have short := receivedLength_lt (balanced.sized piece blocks loading) (waiting piece blocks loading)
      rw [pieceCredit_loading record.table loading, undone]
      refine ⟨Nat.le_of_lt short, fun same => ?_, fun done => by simp at done⟩
      exact absurd same (Nat.ne_of_lt short)

theorem LeftRecorded.agrees (recorded : LeftRecorded options metainfo resumeFd before) :
    LeftAgrees options before := by
  have left := recorded.balanced.left
  have credit := pieceCredit_le recorded.balanced recorded.blocks.pieces recorded.waiting
  refine ⟨?_, ?_⟩
  · have parts : totalCredit options before.metainfo before.cache = _ := sum_add_distrib
    rw [parts] at left
    push_cast at left
    omega
  · have bound := @sum_eq_bound (pieceCredit options before.metainfo before.cache)
      (getBittorrentPieceLength before.metainfo) before.metainfo.pieces fun piece _ => (credit piece).1
    rw [← torrentLength_eq] at bound
    have all := forall₂_congr fun piece (_ : piece < before.metainfo.pieces) => (credit piece).2
    rw [← all, ← bound]
    change (before.stats.left = 0) ↔ totalCredit options before.metainfo before.cache = _
    omega

/-- In every run of a torrent the bytes that are left are accounted for. -/
theorem leftAgrees_run {events : List BittorrentEvent} {bittorrent : BittorrentConnection}
    (few : ∀ piece < metainfo.pieces, blockCount options metainfo piece < 2 ^ 16)
    (reached : Run.run (bittorrentStep options) (initBittorrentPieceCache metainfo resumeFd) events =
      some bittorrent) : LeftAgrees options bittorrent :=
  (leftRecorded_run few reached).agrees

theorem leftAgrees_run_seven :
    ∃ bittorrent,
      Run.run (bittorrentStep (defaultBittorrentOptions id)) (initBittorrentPieceCache sevenFile 3)
          (singleBlockEvents ++ [sevenArrives ⟨true, [], 1⟩]) = some bittorrent ∧
      bittorrent.stats.left = 0 ∧ (bittorrent.cache.entry 0).completed = true := by
  have few : ∀ piece < sevenFile.pieces,
      blockCount (defaultBittorrentOptions id) sevenFile piece < 2 ^ 16 := by decide +kernel
  obtain ⟨bittorrent, reached⟩ : ∃ bittorrent,
      Run.run (bittorrentStep (defaultBittorrentOptions id)) (initBittorrentPieceCache sevenFile 3)
        (singleBlockEvents ++ [sevenArrives ⟨true, [], 1⟩]) = some bittorrent :=
    Option.isSome_iff_exists.mp (by decide +kernel)
  have left : ((Run.run (bittorrentStep (defaultBittorrentOptions id))
      (initBittorrentPieceCache sevenFile 3) (singleBlockEvents ++ [sevenArrives ⟨true, [], 1⟩])).map
        fun state => state.stats.left) = some 0 := by decide +kernel
  rw [reached, Option.map_some, Option.some.injEq] at left
  refine ⟨bittorrent, reached, left, ?_⟩
  have inside : 0 < bittorrent.metainfo.pieces := bittorrent.metainfo.piecesPositive
  exact (leftAgrees_run few reached).finished.mp left 0 inside

theorem oneByte_request : 1 < 2 ^ 31 := by decide

def byteBlocks : BittorrentOptions :=
  { defaultBittorrentOptions fun _ => [] with
    requestLength := 1, requestQueueSize := 1
    requestLengthPositive := Nat.one_pos, requestLengthBound := oneByte_request }

def wrappedFile : BittorrentMeta :=
  { singlePiece 65536 (by decide) (by decide) with
    pieceHash := [1]
    files := [⟨65536, true, [97]⟩] }

def lastByte : BittorrentPeerRequest := splitRequest byteBlocks wrappedFile 0 65535

def lastByteArrives : BittorrentEvent :=
  .receive 0 [0, 0, 0, 10, 7, 0, 0, 0, 0, 0, 0, 255, 255, 7] ⟨⟨fun _ => noFileAnswer, 0⟩, fun _ => 0⟩

def firstDraws : BittorrentOutside := ⟨fun _ => noDraws, fun _ _ => noFileAnswer, fun _ => 0⟩

def knownPeer : BittorrentPeerConnection where
  localStatus := ⟨[], false, true, false, false⟩
  remoteStatus := ⟨[], true, false, true, true⟩
  queue := [⟨0, 0, 0, 0, .interested, false, false⟩]
  bitfield := ⟨1, [128], by decide⟩
  writeBuffer := none

def askedPeer : BittorrentPeerConnection :=
  { knownPeer with
    localStatus := ⟨[lastByte], false, true, true, false⟩
    queue := []
    writeBuffer := some (composeBittorrentPeerMessage ⟨1, [0], by decide⟩
      ⟨0, 0, 0, 0, .interested, false, false⟩ []) }

def wrappedTorrent (freeList : List BittorrentPeerRequest) (blocks : Option Bitfield)
    (peer : BittorrentPeerConnection) : BittorrentConnection where
  mode := .pieceless
  metainfo := wrappedFile
  cache := ⟨blocks.isNone.toNat, 0, blocks.isSome.toNat, 0, 0, 1, 0, false, -1, 0,
    ⟨1, [0], by decide⟩, [], freeList, [⟨1, false, blocks.isNone, false, true, blocks, none⟩]⟩
  peers := [peer]
  stats := ⟨65536, 0, 14, 0, 0, 65536⟩

theorem wrappedTorrent_known :
    Run.run (bittorrentStep byteBlocks) (initBittorrentPieceCache wrappedFile 3)
        singleBlockEvents.dropLast = some (wrappedTorrent [] none knownPeer) := rfl

theorem map_range_ends {α : Type} (f : Nat → α) (count : Nat) :
    ∃ middle, (List.range (count + 2)).map f = f 0 :: middle ++ [f (count + 1)] ∧
      middle.length = count := by
  refine ⟨(List.range count).map fun index => f (index + 1), ?_, by simp⟩
  rw [List.range_succ, List.map_append, List.range_succ_eq_map]
  simp

theorem wrappedRequests_eq :
    ∃ first middle, pieceRequests 0 1 65536 65536 0 0 = first :: middle ++ [lastByte] ∧
      (first :: middle ++ [lastByte]).length = 65536 := by
  have count : blockCount byteBlocks wrappedFile 0 = 65534 + 2 := by decide +kernel
  have requests := addPiece_splitRequests byteBlocks wrappedFile 0
  obtain ⟨middle, ends, length⟩ := map_range_ends (splitRequest byteBlocks wrappedFile 0) 65534
  rw [count] at requests
  refine ⟨_, middle, requests.trans ends, ?_⟩
  rw [List.length_append, List.length_cons, length, List.length_singleton]

theorem addPiece_wrapped {first : BittorrentPeerRequest} {middle : List BittorrentPeerRequest}
    (requests : pieceRequests 0 1 65536 65536 0 0 = first :: middle ++ [lastByte])
    (count : (first :: middle ++ [lastByte]).length = 65536) :
    addPieceToBittorrentFreeList byteBlocks (wrappedTorrent [] none knownPeer) 0 =
      (wrappedTorrent (first :: middle) (some (initBitfield 0)) knownPeer, some lastByte) := by
  have split : pieceRequests 0
      (min byteBlocks.requestLength (getBittorrentPieceLength (wrappedTorrent [] none knownPeer).metainfo 0))
      (getBittorrentPieceLength (wrappedTorrent [] none knownPeer).metainfo 0)
      (getBittorrentPieceLength (wrappedTorrent [] none knownPeer).metainfo 0) 0 0 = _ := requests
  simp only [addPieceToBittorrentFreeList]
  rw [split, count, List.getLast?_concat, List.dropLast_concat]
  rfl

theorem queueRequests_one {index : Nat} {peer : BittorrentPeerConnection}
    {request : BittorrentPeerRequest} {draws : Nat → BittorrentDraws}
    (here : before.peers[index]? = some peer)
    (found : findBittorrentPeerRequest options (draws 0) before peer = (after, some request)) :
    queueRequests options draws index 1 before = after.modifyPeer index (appendRequest request) := by
  simp only [queueRequests, here, found]
  rfl

theorem updateState_queued {outside : BittorrentOutside} {index : Nat} {peer : BittorrentPeerConnection}
    (here : before.peers[index]? = some peer) (active : isFinishedPeer before peer = false)
    (asks : (peer.localStatus.interested && !peer.localStatus.choked) = true)
    (queued : queueBittorrentPeerConnectionRequests options outside.draws before index peer = after) :
    updateBittorrentPeerConnectionState options outside before index =
      match after.peers[index]? with
      | none => after
      | some peer => if peer.writeBuffer.isSome then after else sendPending outside after index peer := by
  simp only [updateBittorrentPeerConnectionState, here, active, asks, queued]
  rfl

theorem wrappedTorrent_asked {first : BittorrentPeerRequest} {middle : List BittorrentPeerRequest}
    (split : addPieceToBittorrentFreeList byteBlocks (wrappedTorrent [] none knownPeer) 0 =
      (wrappedTorrent (first :: middle) (some (initBitfield 0)) knownPeer, some lastByte)) :
    bittorrentStep byteBlocks (wrappedTorrent [] none knownPeer) (.update 0 firstDraws) =
      some (wrappedTorrent (first :: middle) (some (initBitfield 0)) askedPeer) := by
  have chosen : findBittorrentPeerRequest byteBlocks (firstDraws.draws 0)
      (wrappedTorrent [] none knownPeer) knownPeer =
      (enterEndGame
          (addPieceToBittorrentFreeList byteBlocks (wrappedTorrent [] none knownPeer) 0).1,
        (addPieceToBittorrentFreeList byteBlocks (wrappedTorrent [] none knownPeer) 0).2) := rfl
  rw [split] at chosen
  have queued : queueBittorrentPeerConnectionRequests byteBlocks firstDraws.draws
      (wrappedTorrent [] none knownPeer) 0 knownPeer =
      wrappedTorrent (first :: middle) (some (initBitfield 0))
        { knownPeer with localStatus.requests := [lastByte] } := by
    change (queueRequests byteBlocks firstDraws.draws 0 1 (wrappedTorrent [] none knownPeer)).modifyPeer
      0 _ = _
    rw [queueRequests_one rfl chosen]
    rfl
  exact congrArg some (updateState_queued rfl rfl rfl queued)

/-- The last block of 65536 arrives as the first one. The piece is taken for full, its hash is
wrong, and all of its bytes are added to those that are left. -/
theorem leftAgrees_run_wrapped :
    ∃ bittorrent,
      Run.run (bittorrentStep byteBlocks) (initBittorrentPieceCache wrappedFile 3)
          (singleBlockEvents ++ [lastByteArrives]) = some bittorrent ∧
      bittorrent.stats.left = 131071 ∧ torrentLength bittorrent.metainfo = 65536 ∧
      ¬LeftAgrees byteBlocks bittorrent := by
  obtain ⟨first, middle, requests, count⟩ := wrappedRequests_eq
  have asked := wrappedTorrent_asked (addPiece_wrapped requests count)
  have arrived : (bittorrentStep byteBlocks
      (wrappedTorrent (first :: middle) (some (initBitfield 0)) askedPeer) lastByteArrives).map
        (fun state => (state.stats.left, state.metainfo)) = some (131071, wrappedFile) := rfl
  obtain ⟨bittorrent, stepped, same⟩ := Option.map_eq_some_iff.mp arrived
  obtain ⟨left, metainfo⟩ := Prod.mk.inj same
  have length : torrentLength bittorrent.metainfo = 65536 := by
    rw [metainfo]
    decide +kernel
  refine ⟨bittorrent, ?_, left, length, fun agrees => ?_⟩
  · rw [show singleBlockEvents ++ [lastByteArrives] =
      singleBlockEvents.dropLast ++ [.update 0 firstDraws, lastByteArrives] from rfl, Run.run_append,
      wrappedTorrent_known, Option.bind_some, Run.run_cons, asked, Option.bind_some, Run.run_cons,
      stepped, Option.bind_some, Run.run_nil]
  · have counted := agrees.left
    rw [left, length] at counted
    have completed : 0 ≤ ∑ piece ∈ range bittorrent.metainfo.pieces,
        (completedLength bittorrent.metainfo bittorrent.cache piece : Int) :=
      sum_nonneg fun piece _ => Int.natCast_nonneg _
    have loaded : 0 ≤ ∑ piece ∈ range bittorrent.metainfo.pieces,
        (loadedLength byteBlocks bittorrent.metainfo bittorrent.cache piece : Int) :=
      sum_nonneg fun piece _ => Int.natCast_nonneg _
    omega

end KcnTools.Bittorrent
