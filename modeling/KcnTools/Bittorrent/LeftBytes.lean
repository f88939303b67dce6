import KcnTools.Bittorrent.SavedPieces
import KcnTools.Lib.Counting

/-!
The number of bytes that are left to download (`bittorrent->left`), which the tracker is
told: the length of the torrent without the completed pieces and the blocks that arrived.
-/

namespace KcnTools.Bittorrent

open Finset Modify Total

variable {options : BittorrentOptions} {metainfo : BittorrentMeta}

def torrentLength (metainfo : BittorrentMeta) : Nat :=
  (metainfo.pieces - 1) * metainfo.pieceLength + metainfo.lastPieceLength

def receivedLength (options : BittorrentOptions) (metainfo : BittorrentMeta) (piece : Nat)
    (blocks : Bitfield) : Nat :=
  ∑ block ∈ range blocks.bitsize,
    if testBitfieldBit blocks block then (blockRange options metainfo piece block).length else 0

def completedLength (metainfo : BittorrentMeta) (cache : BittorrentPieceCache) (piece : Nat) : Nat :=
  if (cache.entry piece).completed then getBittorrentPieceLength metainfo piece else 0

def loadedLength (options : BittorrentOptions) (metainfo : BittorrentMeta)
    (cache : BittorrentPieceCache) (piece : Nat) : Nat :=
  match (cache.entry piece).blocks with
  | none => 0
  | some blocks => receivedLength options metainfo piece blocks

def pieceCredit (options : BittorrentOptions) (metainfo : BittorrentMeta)
    (cache : BittorrentPieceCache) (piece : Nat) : Nat :=
  completedLength metainfo cache piece + loadedLength options metainfo cache piece

def totalCredit (options : BittorrentOptions) (metainfo : BittorrentMeta)
    (cache : BittorrentPieceCache) : Nat :=
  ∑ piece ∈ range metainfo.pieces, pieceCredit options metainfo cache piece

theorem torrentLength_eq (metainfo : BittorrentMeta) :
    torrentLength metainfo =
      ∑ piece ∈ range metainfo.pieces, getBittorrentPieceLength metainfo piece := by
  have positive := metainfo.piecesPositive
  obtain ⟨last, count⟩ : ∃ last, metainfo.pieces = last + 1 := ⟨metainfo.pieces - 1, by omega⟩
  have before : ∀ piece ∈ range last,
      getBittorrentPieceLength metainfo piece = metainfo.pieceLength := by
    intro piece member
    have inside := mem_range.mp member
    rw [getBittorrentPieceLength, if_neg (by omega)]
  rw [torrentLength, count, sum_range_succ, sum_congr rfl before, sum_const, card_range,
    getBittorrentPieceLength, if_pos (by omega)]
  rfl

section blocks

variable {piece block : Nat} {blocks : Bitfield}

theorem receivedLength_init (count : Nat) :
    receivedLength options metainfo piece (initBitfield count) = 0 := by
  simp [receivedLength]

theorem receivedLength_set (inside : block < blocks.bitsize)
    (clear : testBitfieldBit blocks block = false) :
    receivedLength options metainfo piece (setBitfieldBit blocks block) =
      receivedLength options metainfo piece blocks +
        (blockRange options metainfo piece block).length := by
  rw [receivedLength, receivedLength, setBitfieldBit_bitsize]
  have changed := @sum_change
    (fun other => if testBitfieldBit blocks other then
      (blockRange options metainfo piece other).length else 0)
    (fun other => if testBitfieldBit (setBitfieldBit blocks block) other then
      (blockRange options metainfo piece other).length else 0) _ _ inside fun other different => by
        rw [testBitfieldBit_set_of_ne (Ne.symm different)]
  rw [clear, testBitfieldBit_set_self inside] at changed
  simpa using changed

theorem blockRange_sum (options : BittorrentOptions) (metainfo : BittorrentMeta) (piece : Nat) :
    ∑ block ∈ range (blockCount options metainfo piece),
        (blockRange options metainfo piece block).length =
      getBittorrentPieceLength metainfo piece := by
  have reaches := lt_blockCount options metainfo piece (blockCount options metainfo piece)
  have whole := sum_blocks (blockLength options metainfo piece)
    (getBittorrentPieceLength metainfo piece) (blockCount options metainfo piece)
  rw [Nat.min_eq_left (by omega)] at whole
  exact whole

theorem receivedLength_full (sized : blocks.bitsize = blockCount options metainfo piece)
    (full : bitfieldIsSet blocks = true) :
    receivedLength options metainfo piece blocks = getBittorrentPieceLength metainfo piece := by
  rw [receivedLength, ← blockRange_sum options metainfo piece, sized]
  refine sum_congr rfl fun block member => ?_
  rw [if_pos]
  exact (bitfieldIsSet_iff blocks).mp full block (by rw [sized]; exact mem_range.mp member)

theorem receivedLength_lt (sized : blocks.bitsize = blockCount options metainfo piece)
    (unfinished : bitfieldIsSet blocks = false) :
    receivedLength options metainfo piece blocks < getBittorrentPieceLength metainfo piece := by
  obtain ⟨block, inside, clear⟩ : ∃ block < blocks.bitsize, testBitfieldBit blocks block = false := by
    by_contra none
    rw [← Bool.not_eq_true, bitfieldIsSet_iff] at unfinished
    refine unfinished fun block inside => ?_
    by_contra clear
    exact none ⟨block, inside, by simpa using clear⟩
  rw [receivedLength, ← blockRange_sum options metainfo piece, sized]
  refine sum_lt_sum (fun other _ => by split <;> omega) ⟨block, ?_, ?_⟩
  · rw [mem_range, ← sized]
    exact inside
  · rw [clear, if_neg (by decide)]
    rw [sized, lt_blockCount] at inside
    have positive := blockLength_positive options metainfo piece
    simp only [blockRange]
    omega

end blocks

structure LeftBalanced (options : BittorrentOptions) (bittorrent : BittorrentConnection) : Prop where
  known : 0 ≤ bittorrent.stats.estLength
  left : bittorrent.stats.left + totalCredit options bittorrent.metainfo bittorrent.cache =
    torrentLength bittorrent.metainfo
  sized : ∀ piece blocks, (bittorrent.cache.entry piece).blocks = some blocks →
    blocks.bitsize = blockCount options bittorrent.metainfo piece

variable {before after : BittorrentConnection} {cache other : BittorrentPieceCache}
  {stages : List PieceStage}

theorem pieceCredit_congr {piece : Nat}
    (same : pieceProgress (other.entry piece) = pieceProgress (cache.entry piece)) :
    pieceCredit options metainfo other piece = pieceCredit options metainfo cache piece := by
  rw [pieceProgress, pieceProgress, Prod.mk.injEq] at same
  rw [pieceCredit, pieceCredit, completedLength, completedLength, loadedLength, loadedLength, same.1,
    same.2]

theorem LeftBalanced.change (balanced : LeftBalanced options before) {piece : Nat}
    (inside : piece < before.metainfo.pieces) (metainfo : after.metainfo = before.metainfo)
    (known : 0 ≤ after.stats.estLength)
    (others : ∀ other, other ≠ piece →
      pieceProgress (after.cache.entry other) = pieceProgress (before.cache.entry other))
    (left : after.stats.left + pieceCredit options before.metainfo after.cache piece =
      before.stats.left + pieceCredit options before.metainfo before.cache piece)
    (sized : ∀ blocks, (after.cache.entry piece).blocks = some blocks →
      blocks.bitsize = blockCount options before.metainfo piece) : LeftBalanced options after where
  known := known
  left := by
    have changed : totalCredit options before.metainfo after.cache + _ =
        totalCredit options before.metainfo before.cache + _ :=
      sum_change inside fun other different => pieceCredit_congr (others other different)
    have before := balanced.left
    rw [metainfo]
    omega
  sized other blocks loading := by
    rw [metainfo]
    by_cases same : other = piece
    · subst same
      exact sized blocks loading
    · refine balanced.sized other blocks ?_
      rw [← loading]
      exact (congrArg Prod.snd (others other same)).symm

theorem LeftBalanced.same (balanced : LeftBalanced options before)
    (metainfo : after.metainfo = before.metainfo) (known : 0 ≤ after.stats.estLength)
    (left : after.stats.left = before.stats.left)
    (entries : after.cache.entries.map pieceProgress = before.cache.entries.map pieceProgress) :
    LeftBalanced options after := by
  have progress := BittorrentPieceCache.entry_of_map pieceProgress entries
  refine balanced.change before.metainfo.piecesPositive metainfo known (fun other _ => progress other)
    ?_ fun blocks loading => ?_
  · rw [left, pieceCredit_congr (progress 0)]
  · refine balanced.sized 0 blocks ?_
    rw [← loading]
    exact (congrArg Prod.snd (progress 0)).symm

theorem PieceMove.others {piece other : Nat} {old new : PieceStage}
    (moved : PieceMove piece old new cache after.cache) (different : other ≠ piece) :
    after.cache.entry other = cache.entry other := by
  obtain ⟨change, entries, _⟩ := moved.entries
  rw [BittorrentPieceCache.entry, entries]
  exact entry_modify_of_ne change (Ne.symm different)

theorem PieceMove.here {piece : Nat} {old new : PieceStage}
    (moved : PieceMove piece old new cache other) (inside : piece < cache.entries.length)
    (here : pieceFlags (cache.entry piece) = old.flags) :
    pieceFlags (other.entry piece) = new.flags := by
  obtain ⟨change, entries, shows⟩ := moved.entries
  have entry : other.entry piece = (cache.modifyEntry piece change).entry piece := by
    rw [BittorrentPieceCache.entry, entries]
    rfl
  rw [entry, BittorrentPieceCache.entry_modifyEntry inside, if_pos rfl]
  exact shows _ here

theorem pieceCredit_of_flags (options : BittorrentOptions) (metainfo : BittorrentMeta)
    {piece : Nat} {stage : PieceStage} (shown : pieceFlags (cache.entry piece) = stage.flags)
    (idle : stage ≠ .loading) :
    (cache.entry piece).blocks = none ∧ pieceCredit options metainfo cache piece =
      if stage = .completed then getBittorrentPieceLength metainfo piece else 0 := by
  simp only [pieceFlags] at shown
  have empty : (cache.entry piece).blocks = none := by
    have present := congrArg (fun flags => flags.2.1) shown
    rw [← Option.isNone_iff_eq_none, ← Option.not_isSome]
    cases stage <;> simp_all [PieceStage.flags]
  refine ⟨empty, ?_⟩
  have completed := congrArg (fun flags => flags.2.2) shown
  simp only at completed
  rw [pieceCredit, completedLength, loadedLength, empty, completed, Nat.add_zero]
  cases stage <;> rfl

theorem pieceCredit_loading {piece : Nat} {blocks : Bitfield}
    (table : PieceTable metainfo stages cache) (loading : (cache.entry piece).blocks = some blocks) :
    pieceCredit options metainfo cache piece = receivedLength options metainfo piece blocks := by
  have shown := congrArg (fun flags => flags.2.2) (table.flags piece)
  rw [table.stage_of_blocks loading] at shown
  simp only [pieceFlags, PieceStage.flags] at shown
  rw [pieceCredit, completedLength, loadedLength, loading, shown, if_neg (by decide), Nat.zero_add]

/-- A piece that is not loading afterwards moves, and the bytes that are left make up for it. -/
theorem LeftBalanced.move (balanced : LeftBalanced options before)
    (table : PieceTable before.metainfo stages before.cache) {piece : Nat} {old new : PieceStage}
    (here : stageAt stages piece = old) (wanted : old ≠ .unwanted) (idle : new ≠ .loading)
    (moved : PieceMove piece old new before.cache after.cache)
    (metainfo : after.metainfo = before.metainfo) (known : 0 ≤ after.stats.estLength)
    (left : after.stats.left + (if new = .completed then
        getBittorrentPieceLength before.metainfo piece else 0 : Nat) =
      before.stats.left + pieceCredit options before.metainfo before.cache piece) :
    LeftBalanced options after := by
  have inside : piece < before.metainfo.pieces := by
    rw [← table.size]
    exact stageAt_lt (here ▸ wanted)
  have shown := moved.here (by rwa [table.entries_length]) (here ▸ table.flags piece)
  obtain ⟨empty, credit⟩ := pieceCredit_of_flags options before.metainfo shown idle
  refine balanced.change inside metainfo known (fun other different => ?_) ?_ fun blocks loading => ?_
  · rw [moved.others different]
  · rw [credit]
    exact left
  · rw [empty] at loading
    simp at loading

theorem addRequests_stats (requests : List BittorrentPeerRequest)
    (bittorrent : BittorrentConnection) :
    (requests.foldl addRequestToBittorrentPieceCache bittorrent).stats = bittorrent.stats := by
  induction requests generalizing bittorrent with
  | nil => rfl
  | cons request rest ih =>
      rw [List.foldl_cons, ih, addRequestToBittorrentPieceCache]
      split <;> rfl

theorem leave_stats (bittorrent : BittorrentConnection) (index : Nat) :
    (doneBittorrentPeerConnection bittorrent index).stats = bittorrent.stats := by
  simp only [doneBittorrentPeerConnection]
  split
  · rfl
  · exact addRequests_stats _ _

theorem updatePieces_progress (pieces : List Nat) (cache : BittorrentPieceCache) :
    (pieces.foldl updateBittorrentPieceCache cache).entries.map pieceProgress =
      cache.entries.map pieceProgress :=
  foldl_entries_map (fun cache piece => map_modify_of_eq cache.entries piece
    fun _ => by simp only [pieceProgress]) pieces cache

theorem leave_progress (bittorrent : BittorrentConnection) (index : Nat) :
    (doneBittorrentPeerConnection bittorrent index).cache.entries.map pieceProgress =
      bittorrent.cache.entries.map pieceProgress := by
  simp only [doneBittorrentPeerConnection]
  split
  · rfl
  · rename_i peer _
    have removed : ∀ cache : BittorrentPieceCache,
        (removeBittorrentPeerFromPieceCache cache peer.bitfield).entries.map pieceProgress =
          cache.entries.map pieceProgress :=
      foldl_entries_map (fun cache piece => map_modify_of_eq cache.entries piece
        fun _ => by simp only [pieceProgress]) _
    rw [removed, addRequests_entries]

theorem receiveBlock_stats (bittorrent : BittorrentConnection) (index : Nat)
    (request : BittorrentPeerRequest) (data : List UInt8) :
    (receiveBlock bittorrent index request data).stats =
      (updateBittorrentConnectionStats bittorrent request.length 0 0).stats := by
  simp only [receiveBlock]
  split <;> rfl

theorem updateStats_known {bittorrent : BittorrentConnection} (downloaded : Int)
    (known : 0 ≤ bittorrent.stats.estLength) :
    (updateBittorrentConnectionStats bittorrent downloaded 0 0).stats.estLength =
        bittorrent.stats.estLength ∧
      (updateBittorrentConnectionStats bittorrent downloaded 0 0).stats.left =
        bittorrent.stats.left - downloaded := by
  have set : bittorrent.stats.estLength ≠ -1 := by omega
  simp only [updateBittorrentConnectionStats, if_neg set, and_self]

theorem LeftBalanced.receive (balanced : LeftBalanced options before)
    (serves : BlocksServed options before)
    (table : PieceTable before.metainfo stages before.cache) {index piece offset length : Nat}
    {request : BittorrentPeerRequest} (data : List UInt8)
    (pending : pendingRequest before index piece offset length = some request) :
    LeftBalanced options (receiveBlock before index request data) := by
  obtain ⟨peer, here, queued, _⟩ := pendingRequest_piece pending
  obtain ⟨piece, block, blocks, loading, within, clear, same⟩ :
      requestRange request ∈ openBlocks options before.metainfo before.cache :=
    serves.key_wanted (List.mem_map_of_mem (List.mem_of_getElem? here))
      (show requestJob request ∈ peerJobs peer from List.mem_map_of_mem queued)
  have place : request.piece = piece := congrArg BlockRange.piece same
  have number : request.block = block := congrArg BlockRange.block same
  have bytes : request.length = (blockRange options before.metainfo piece block).length :=
    congrArg BlockRange.length same
  have there : request.piece < before.cache.entries.length := by
    rw [place]
    exact entry_lt_of_blocks loading
  have entry := fun other => receiveBlock_blocks index data there other
  have progress : ∀ other, other ≠ piece →
      pieceProgress ((receiveBlock before index request data).cache.entry other) =
        pieceProgress (before.cache.entry other) := by
    intro other different
    rw [pieceProgress, pieceProgress, entry, place, if_neg (Ne.symm different)]
    exact congrArg (fun done => (done, (before.cache.entry other).blocks)) (completed_of_flags
      (receiveBlock_sameTable before index request data).completedFlags other)
  have stored : ((receiveBlock before index request data).cache.entry piece).blocks =
      some (setBitfieldBit blocks block) := by
    rw [entry, place, if_pos rfl, loading, number]
    rfl
  have received : PieceTable before.metainfo stages (receiveBlock before index request data).cache :=
    table.same (receiveBlock_sameTable before index request data)
  have counted := updateStats_known request.length balanced.known
  rw [← receiveBlock_stats before index request data] at counted
  refine balanced.change ?_ (receiveBlock_metainfo _ _ _ _) ?_ progress ?_ ?_
  · rw [← table.entries_length]
    exact entry_lt_of_blocks loading
  · rw [counted.1]
    exact balanced.known
  · rw [pieceCredit_loading received stored, pieceCredit_loading table loading,
      receivedLength_set within clear, counted.2, bytes]
    omega
  · intro later loaded
    rw [stored, Option.some.injEq] at loaded
    rw [← loaded, setBitfieldBit_bitsize]
    exact balanced.sized piece blocks loading

theorem LeftBalanced.reject (balanced : LeftBalanced options before)
    (table : PieceTable before.metainfo stages before.cache) {piece : Nat} {blocks : Bitfield}
    (loading : (before.cache.entry piece).blocks = some blocks) (full : bitfieldIsSet blocks = true) :
    LeftBalanced options (rejectPiece (dropBlocks before piece) piece) := by
  have counted := updateStats_known (-getBittorrentPieceLength before.metainfo piece) balanced.known
  refine balanced.move table (table.stage_of_blocks loading) (by decide) (by decide)
    (rejectPiece_move before piece) rfl ?_ ?_
  · exact Int.le_trans balanced.known (Int.le_of_eq counted.1.symm)
  · rw [pieceCredit_loading table loading, receivedLength_full (balanced.sized piece blocks loading) full,
      if_neg (by decide)]
    change (updateBittorrentConnectionStats before (-getBittorrentPieceLength before.metainfo piece)
      0 0).stats.left + _ = _
    rw [counted.2]
    omega

theorem LeftBalanced.complete (balanced : LeftBalanced options before)
    (table : PieceTable before.metainfo stages before.cache) {piece : Nat} {blocks : Bitfield}
    (loading : (before.cache.entry piece).blocks = some blocks) (full : bitfieldIsSet blocks = true) :
    LeftBalanced options (fillPiece before piece) := by
  refine balanced.move table (table.stage_of_blocks loading) (by decide) (by decide)
    (fillPiece_move before piece) rfl balanced.known ?_
  rw [pieceCredit_loading table loading, receivedLength_full (balanced.sized piece blocks loading) full]
  rfl

theorem LeftBalanced.resumed (balanced : LeftBalanced options before)
    (table : PieceTable before.metainfo stages before.cache) {piece : Nat}
    (here : stageAt stages piece = .remaining) :
    LeftBalanced options (resumePiece (advanceResume before) piece) := by
  obtain ⟨_, credit⟩ := pieceCredit_of_flags options before.metainfo
    ((table.flags piece).trans (congrArg PieceStage.flags here)) (by decide)
  have moved := resumePiece_move (advanceResume before) piece
  have moves : PieceMove piece .remaining .completed before.cache
      (resumePiece (advanceResume before) piece).cache :=
    ⟨moved.entries, moved.bitfield, moved.remaining, moved.completed⟩
  refine balanced.move table here (by decide) (by decide) moves rfl balanced.known ?_
  rw [credit, if_pos rfl, if_neg (by decide)]
  simp only [resumePiece, advanceResume]
  omega

theorem LeftBalanced.split (balanced : LeftBalanced options before)
    (table : PieceTable before.metainfo stages before.cache) {piece : Nat}
    (few : blockCount options before.metainfo piece < 2 ^ 16)
    (here : stageAt stages piece = .remaining) :
    LeftBalanced options (addPieceToBittorrentFreeList options before piece).1 := by
  have inside := stageAt_remaining_lt table here
  have there : piece < before.cache.entries.length := by rwa [table.entries_length]
  have shown := (table.flags piece).trans (congrArg PieceStage.flags here)
  have moved := addPiece_move options before piece
  obtain ⟨_, credit⟩ := pieceCredit_of_flags options before.metainfo shown (by decide)
  have blocks := @addPiece_blocks options before piece there few piece
  rw [if_pos rfl] at blocks
  refine balanced.change inside rfl balanced.known (fun other different => ?_) ?_ fun later loading => ?_
  · rw [moved.others different]
  · have splitTable := table.move here (stageAt_lt (by rw [here]; decide)) (by decide) moved
    rw [credit, if_neg (by decide), pieceCredit_loading splitTable blocks, receivedLength_init]
    rfl
  · rw [blocks, Option.some.injEq] at loading
    rw [← loading]
    rfl

theorem preparePartialBittorrentDownload_known (known : 0 ≤ before.stats.estLength) :
    0 ≤ (preparePartialBittorrentDownload before).stats.estLength := by
  have counts : ∀ (pieces : List Nat) (download : PartialDownload), 0 ≤ download.estLength →
      0 ≤ (pieces.foldl (preparePiece before.metainfo) download).estLength := by
    intro pieces
    induction pieces with
    | nil => exact fun _ counted => counted
    | cons piece rest ih =>
        intro download counted
        refine ih _ ?_
        simp only [preparePiece]
        split
        · exact Int.add_nonneg counted (Int.natCast_nonneg _)
        · exact counted
  simp only [preparePartialBittorrentDownload]
  split
  · exact counts _ _ (Int.le_refl 0)
  · exact known

theorem LeftBalanced.ended (balanced : LeftBalanced options before) :
    LeftBalanced options (endBittorrentResume options before) := by
  have quiet := handleBittorrentModeChanges_quiet options
    (preparePartialBittorrentDownload (doneBittorrentResume before))
  have known : 0 ≤
      (preparePartialBittorrentDownload (doneBittorrentResume before)).stats.estLength :=
    preparePartialBittorrentDownload_known balanced.known
  have prepared : LeftBalanced options
      (preparePartialBittorrentDownload (doneBittorrentResume before)) := by
    refine balanced.same rfl known ?_
      (preparePartialBittorrentDownload_progress (doneBittorrentResume before))
    simp only [preparePartialBittorrentDownload]
    split <;> rfl
  have set : (preparePartialBittorrentDownload (doneBittorrentResume before)).stats.estLength ≠ -1 := by
    omega
  refine prepared.same quiet.metainfo ?_ (quiet.stats.left set) quiet.cache.progress
  exact Int.le_trans known (Int.le_of_eq (quiet.stats.estLength set).symm)

end KcnTools.Bittorrent
