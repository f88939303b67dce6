import KcnTools.Bittorrent.RemoteView

/-!
The stage that each piece of a torrent is at. The flags of the piece table, the bits of
its bitfield and two of its counters are read off the list of stages; what a step does to
them is one move of one piece.
-/

namespace KcnTools.Bittorrent

open Modify

variable {options : BittorrentOptions}

inductive PieceStage
  | remaining | loading | completed | unwanted
  deriving DecidableEq

def pieceFlags (entry : BittorrentPieceCacheEntry) : Bool × Bool × Bool :=
  (entry.remaining, entry.blocks.isSome, entry.completed)

def PieceStage.flags : PieceStage → Bool × Bool × Bool
  | .remaining => (true, false, false)
  | .loading => (false, true, false)
  | .completed => (false, false, true)
  | .unwanted => (false, false, false)

def stageAt (stages : List PieceStage) (piece : Nat) : PieceStage := stages.getD piece .unwanted

structure PieceTable (metainfo : BittorrentMeta) (stages : List PieceStage)
    (cache : BittorrentPieceCache) : Prop where
  size : stages.length = metainfo.pieces
  described : cache.entries.map pieceFlags = stages.map PieceStage.flags
  bitsize : cache.bitfield.bitsize = metainfo.pieces
  recorded : ∀ piece, testBitfieldBit cache.bitfield piece =
    decide (stageAt stages piece = .completed)
  remainingPieces : cache.remainingPieces = stages.count .remaining
  completedPieces : cache.completedPieces = stages.count .completed

variable {metainfo : BittorrentMeta} {stages : List PieceStage} {cache after : BittorrentPieceCache}

theorem stageAt_set (stages : List PieceStage) (piece other : Nat) (stage : PieceStage)
    (inside : piece < stages.length) :
    stageAt (stages.set piece stage) other =
      if piece = other then stage else stageAt stages other := by
  rw [stageAt, stageAt, List.getD_eq_getElem?_getD, List.getD_eq_getElem?_getD, List.getElem?_set]
  by_cases same : piece = other
  · subst same
    simp [inside]
  · simp [same]

theorem stageAt_lt {piece : Nat} (wanted : stageAt stages piece ≠ .unwanted) :
    piece < stages.length := by
  by_contra outside
  refine wanted ?_
  rw [stageAt, List.getD_eq_default]
  exact Nat.le_of_not_lt outside

theorem PieceTable.flags (table : PieceTable metainfo stages cache) (piece : Nat) :
    pieceFlags (cache.entry piece) = (stageAt stages piece).flags := by
  have entry : (cache.entries.map pieceFlags).getD piece (pieceFlags blankEntry) =
      pieceFlags (cache.entry piece) := List.getD_map _ _ pieceFlags
  have stage : (stages.map PieceStage.flags).getD piece (PieceStage.flags .unwanted) =
      (stageAt stages piece).flags := List.getD_map _ _ PieceStage.flags
  rw [← entry, ← stage, table.described]
  rfl

theorem PieceTable.stage_of_remaining (table : PieceTable metainfo stages cache) {piece : Nat}
    (remaining : (cache.entry piece).remaining = true) : stageAt stages piece = .remaining := by
  have shown := congrArg Prod.fst (table.flags piece)
  simp only [pieceFlags, remaining] at shown
  cases stage : stageAt stages piece with
  | remaining => rfl
  | _ => simp [stage, PieceStage.flags] at shown

theorem PieceTable.stage_of_blocks (table : PieceTable metainfo stages cache) {piece : Nat}
    {blocks : Bitfield} (loading : (cache.entry piece).blocks = some blocks) :
    stageAt stages piece = .loading := by
  have shown := congrArg (fun flags => flags.2.1) (table.flags piece)
  simp only [pieceFlags, loading, Option.isSome_some] at shown
  cases stage : stageAt stages piece with
  | loading => rfl
  | _ => simp [stage, PieceStage.flags] at shown

theorem PieceTable.completed_iff (table : PieceTable metainfo stages cache) (piece : Nat) :
    (cache.entry piece).completed = true ↔ stageAt stages piece = .completed := by
  have shown := congrArg (fun flags => flags.2.2) (table.flags piece)
  simp only [pieceFlags] at shown
  rw [shown]
  cases stageAt stages piece <;> simp [PieceStage.flags]

theorem PieceTable.entries_length (table : PieceTable metainfo stages cache) :
    cache.entries.length = metainfo.pieces := by
  have lengths := congrArg List.length table.described
  rwa [List.length_map, List.length_map, table.size] at lengths

theorem pieces_lt (metainfo : BittorrentMeta) : metainfo.pieces < 2 ^ 31 := by
  have bound := metainfo.piecesBound
  omega

theorem PieceTable.count_le (table : PieceTable metainfo stages cache) (stage : PieceStage) :
    stages.count stage ≤ metainfo.pieces := by
  rw [← table.size]
  exact List.count_le_length

theorem PieceTable.remainingPieces_lt (table : PieceTable metainfo stages cache) :
    cache.remainingPieces < 2 ^ 32 := by
  have most := table.count_le .remaining
  have small := pieces_lt metainfo
  rw [table.remainingPieces]
  omega

theorem PieceTable.completedPieces_lt (table : PieceTable metainfo stages cache) :
    cache.completedPieces < 2 ^ 32 := by
  have most := table.count_le .completed
  have small := pieces_lt metainfo
  rw [table.completedPieces]
  omega

def PieceStage.weight (stage counted : PieceStage) : Int := if stage = counted then 1 else 0

theorem count_stage_set {piece : Nat} {old : PieceStage} (here : stageAt stages piece = old)
    (inside : piece < stages.length) (new counted : PieceStage) :
    (((stages.set piece new).count counted : Nat) : Int) =
      stages.count counted + (new.weight counted - old.weight counted) := by
  have stored : stages[piece] = old := by
    rw [← here, stageAt, List.getD_eq_getElem _ _ inside]
  have present : old = counted → 0 < stages.count counted := by
    intro same
    rw [List.count_pos_iff, ← same, ← stored]
    exact List.getElem_mem inside
  rw [List.count_set inside, stored]
  simp only [PieceStage.weight, beq_iff_eq]
  split <;> split <;> rename_i first second <;> (try have := present first) <;> omega

theorem moveCounter_stage {counter piece : Nat} {debt : Int} {old new counted : PieceStage}
    (here : stageAt stages piece = old) (inside : piece < stages.length)
    (counts : counter = moveCounter (stages.count counted) debt) :
    moveCounter counter (new.weight counted - old.weight counted) =
      moveCounter ((stages.set piece new).count counted) debt := by
  rw [counts, moveCounter_moveCounter]
  simp only [moveCounter, count_stage_set here inside new counted]
  congr 2
  omega

theorem moveCounter_count {counter piece : Nat} {old new counted : PieceStage}
    (here : stageAt stages piece = old) (inside : piece < stages.length)
    (small : stages.length < 2 ^ 32) (counts : counter = stages.count counted) :
    moveCounter counter (new.weight counted - old.weight counted) =
      (stages.set piece new).count counted := by
  refine moveCounter_of_sum ?_ ?_
  · rw [counts, count_stage_set here inside new counted]
  · have most := List.count_le_length (a := counted) (l := stages.set piece new)
    rw [List.length_set] at most
    omega

theorem moveCounter_zero {counter : Nat} (small : counter < 2 ^ 32) :
    moveCounter counter 0 = counter :=
  moveCounter_of_sum (by omega) small

/-- A piece goes from one stage to the next. The count of loading pieces is not part of
it: resuming moves pieces without keeping that count. -/
structure PieceMove (piece : Nat) (old new : PieceStage) (before after : BittorrentPieceCache) :
    Prop where
  entries : ∃ change, after.entries = before.entries.modify piece change ∧
    ∀ entry, pieceFlags entry = old.flags → pieceFlags (change entry) = new.flags
  bitfield : after.bitfield =
    if new = .completed then setBitfieldBit before.bitfield piece else before.bitfield
  remaining : before.remainingPieces < 2 ^ 32 → after.remainingPieces =
    moveCounter before.remainingPieces (new.weight .remaining - old.weight .remaining)
  completed : before.completedPieces < 2 ^ 32 → after.completedPieces =
    moveCounter before.completedPieces (new.weight .completed - old.weight .completed)

theorem PieceTable.move (table : PieceTable metainfo stages cache) {piece : Nat}
    {old new : PieceStage} (here : stageAt stages piece = old) (inside : piece < stages.length)
    (uncompleted : old ≠ .completed) (moved : PieceMove piece old new cache after) :
    PieceTable metainfo (stages.set piece new) after := by
  have small := pieces_lt metainfo
  obtain ⟨change, entries, shows⟩ := moved.entries
  constructor
  · rw [List.length_set, table.size]
  · rw [entries, List.map_set, ← table.described]
    refine map_modify_set cache.entries piece fun entry found => shows entry ?_
    rw [← here, ← table.flags piece, BittorrentPieceCache.entry, List.getD_eq_getElem?_getD, found,
      Option.getD_some]
  · rw [moved.bitfield]
    split <;> simp [table.bitsize]
  · intro other
    rw [moved.bitfield, stageAt_set _ _ _ _ inside]
    by_cases same : piece = other
    · subst same
      rw [if_pos rfl]
      split
      · rename_i completes
        rw [testBitfieldBit_set_self (by rw [table.bitsize, ← table.size]; exact inside)]
        simp [completes]
      · rename_i unfinished
        simp [table.recorded, here, uncompleted, unfinished]
    · rw [if_neg same, ← table.recorded]
      split
      · exact testBitfieldBit_set_of_ne same
      · rfl
  · rw [moved.remaining table.remainingPieces_lt]
    exact moveCounter_count here inside (by rw [table.size]; omega) table.remainingPieces
  · rw [moved.completed table.completedPieces_lt]
    exact moveCounter_count here inside (by rw [table.size]; omega) table.completedPieces

/-- Two caches with the same flags and the same counters of pieces. -/
structure SameTable (before after : BittorrentPieceCache) : Prop where
  resumeFd : after.resumeFd = before.resumeFd
  resumePos : after.resumeFd ≠ -1 → after.resumePos = before.resumePos
  flags : after.entries.map pieceFlags = before.entries.map pieceFlags
  bitfield : after.bitfield = before.bitfield
  remainingPieces : after.remainingPieces = before.remainingPieces
  completedPieces : after.completedPieces = before.completedPieces
  loadingPieces : after.loadingPieces = before.loadingPieces

theorem SameTable.refl (cache : BittorrentPieceCache) : SameTable cache cache :=
  ⟨rfl, fun _ => rfl, rfl, rfl, rfl, rfl, rfl⟩

theorem SameTable.trans {first second third : BittorrentPieceCache}
    (earlier : SameTable first second) (later : SameTable second third) :
    SameTable first third where
  resumeFd := later.resumeFd.trans earlier.resumeFd
  resumePos still :=
    (later.resumePos still).trans (earlier.resumePos (later.resumeFd ▸ still))
  flags := later.flags.trans earlier.flags
  bitfield := later.bitfield.trans earlier.bitfield
  remainingPieces := later.remainingPieces.trans earlier.remainingPieces
  completedPieces := later.completedPieces.trans earlier.completedPieces
  loadingPieces := later.loadingPieces.trans earlier.loadingPieces

theorem PieceTable.same (table : PieceTable metainfo stages cache) (same : SameTable cache after) :
    PieceTable metainfo stages after where
  size := table.size
  described := same.flags.trans table.described
  bitsize := by rw [same.bitfield, table.bitsize]
  recorded piece := by rw [same.bitfield, table.recorded]
  remainingPieces := by rw [same.remainingPieces, table.remainingPieces]
  completedPieces := by rw [same.completedPieces, table.completedPieces]

theorem QuietCache.sameTable (quiet : QuietCache cache after) : SameTable cache after where
  resumeFd := quiet.resumeFd
  resumePos := quiet.resumePos
  flags := by
    refine forall₂_map_eq (fun before after same => ?_) quiet.entries
    rw [pieceFlags, pieceFlags, same.2.1, same.2.2.1, same.2.2.2]
  bitfield := quiet.bitfield
  remainingPieces := quiet.remainingPieces
  completedPieces := quiet.completedPieces
  loadingPieces := quiet.loadingPieces

theorem foldl_sameTable {ι : Type} {step : BittorrentPieceCache → ι → BittorrentPieceCache}
    (same : ∀ cache item, SameTable cache (step cache item)) (items : List ι)
    (cache : BittorrentPieceCache) : SameTable cache (items.foldl step cache) := by
  induction items generalizing cache with
  | nil => exact SameTable.refl cache
  | cons item rest ih => exact (same cache item).trans (ih (step cache item))

theorem foldl_entries_map {ι β : Type} {step : BittorrentPieceCache → ι → BittorrentPieceCache}
    {view : BittorrentPieceCacheEntry → β}
    (same : ∀ cache item, (step cache item).entries.map view = cache.entries.map view)
    (items : List ι) (cache : BittorrentPieceCache) :
    (items.foldl step cache).entries.map view = cache.entries.map view := by
  induction items generalizing cache with
  | nil => rfl
  | cons item rest ih => exact (ih (step cache item)).trans (same cache item)

theorem updateBittorrentPieceCache_sameTable (cache : BittorrentPieceCache) (piece : Nat) :
    SameTable cache (updateBittorrentPieceCache cache piece) where
  resumeFd := rfl
  resumePos _ := rfl
  flags := map_modify_of_eq cache.entries piece fun _ => by simp only [pieceFlags]
  bitfield := rfl
  remainingPieces := rfl
  completedPieces := rfl
  loadingPieces := rfl

theorem removePieceFromBittorrentPieceCache_sameTable (cache : BittorrentPieceCache) (piece : Nat) :
    SameTable cache (removePieceFromBittorrentPieceCache cache piece) where
  resumeFd := rfl
  resumePos _ := rfl
  flags := map_modify_of_eq cache.entries piece fun _ => by simp only [pieceFlags]
  bitfield := rfl
  remainingPieces := rfl
  completedPieces := rfl
  loadingPieces := rfl

theorem removeBittorrentPeerFromPieceCache_sameTable (cache : BittorrentPieceCache)
    (bitfield : Bitfield) : SameTable cache (removeBittorrentPeerFromPieceCache cache bitfield) :=
  foldl_sameTable removePieceFromBittorrentPieceCache_sameTable (bitfieldSetBits bitfield) cache

theorem addRequest_sameTable (bittorrent : BittorrentConnection) (request : BittorrentPeerRequest) :
    SameTable bittorrent.cache (addRequestToBittorrentPieceCache bittorrent request).cache := by
  simp only [addRequestToBittorrentPieceCache]
  split
  · exact ⟨rfl, fun _ => rfl, rfl, rfl, rfl, rfl, rfl⟩
  · exact SameTable.refl _

theorem addRequests_sameTable (requests : List BittorrentPeerRequest)
    (bittorrent : BittorrentConnection) :
    SameTable bittorrent.cache
      (requests.foldl addRequestToBittorrentPieceCache bittorrent).cache := by
  induction requests generalizing bittorrent with
  | nil => exact SameTable.refl _
  | cons request rest ih => exact (addRequest_sameTable bittorrent request).trans (ih _)

theorem leave_sameTable (bittorrent : BittorrentConnection) (index : Nat) :
    SameTable bittorrent.cache (doneBittorrentPeerConnection bittorrent index).cache := by
  simp only [doneBittorrentPeerConnection]
  split
  · exact SameTable.refl _
  · rename_i peer _
    have returned := addRequests_sameTable peer.localStatus.requests
      { bittorrent with peers := bittorrent.peers.eraseIdx index }
    exact returned.trans (removeBittorrentPeerFromPieceCache_sameTable _ peer.bitfield)

theorem receiveBlock_cache (bittorrent : BittorrentConnection) (index : Nat)
    (request : BittorrentPeerRequest) (data : List UInt8) :
    (receiveBlock bittorrent index request data).cache =
      bittorrent.cache.modifyEntry request.piece fun entry =>
        storeBlock entry (getBittorrentPieceLength bittorrent.metainfo request.piece)
          request.block request.offset data := by
  simp only [receiveBlock]
  split <;> rfl

theorem receiveBlock_metainfo (bittorrent : BittorrentConnection) (index : Nat)
    (request : BittorrentPeerRequest) (data : List UInt8) :
    (receiveBlock bittorrent index request data).metainfo = bittorrent.metainfo := by
  simp only [receiveBlock]
  split <;> rfl

theorem receiveBlock_sameTable (bittorrent : BittorrentConnection) (index : Nat)
    (request : BittorrentPeerRequest) (data : List UInt8) :
    SameTable bittorrent.cache (receiveBlock bittorrent index request data).cache := by
  rw [receiveBlock_cache]
  refine ⟨rfl, fun _ => rfl, map_modify_of_eq _ _ fun entry => ?_, rfl, rfl, rfl, rfl⟩
  rw [pieceFlags, pieceFlags, storeBlock, Option.isSome_map]

theorem cloneBittorrentPeerRequest_cache (bittorrent : BittorrentConnection) (place : Nat × Nat) :
    (cloneBittorrentPeerRequest bittorrent place).1.cache = bittorrent.cache := by
  simp only [cloneBittorrentPeerRequest]
  split <;> rfl

theorem addPiece_move (options : BittorrentOptions) (bittorrent : BittorrentConnection)
    (piece : Nat) :
    PieceMove piece .remaining .loading bittorrent.cache
      (addPieceToBittorrentFreeList options bittorrent piece).1.cache where
  entries := by
    refine ⟨_, List.modify_modify_eq _ _ _ _, fun entry shown => ?_⟩
    simp only [pieceFlags, PieceStage.flags, Prod.mk.injEq] at shown
    simp [pieceFlags, PieceStage.flags, shown]
  bitfield := rfl
  remaining _ := rfl
  completed small := (moveCounter_zero small).symm

theorem rejectPiece_move (bittorrent : BittorrentConnection) (piece : Nat) :
    PieceMove piece .loading .remaining bittorrent.cache
      (rejectPiece (dropBlocks bittorrent piece) piece).cache where
  entries := by
    refine ⟨fun entry => { entry with blocks := none, data := none, remaining := true }, ?_, ?_⟩
    · change ((bittorrent.cache.entries.modify piece _).modify piece _).modify piece _ = _
      rw [List.modify_modify_eq, List.modify_modify_eq]
      rfl
    · intro entry shown
      simp only [pieceFlags, PieceStage.flags, Prod.mk.injEq] at shown
      simp [pieceFlags, PieceStage.flags, shown]
  bitfield := rfl
  remaining _ := rfl
  completed small := (moveCounter_zero small).symm

theorem fillPiece_move (bittorrent : BittorrentConnection) (piece : Nat) :
    PieceMove piece .loading .completed bittorrent.cache (fillPiece bittorrent piece).cache where
  entries := ⟨_, List.modify_modify_eq _ _ _ _, fun _ _ => rfl⟩
  bitfield := rfl
  remaining small := (moveCounter_zero small).symm
  completed _ := rfl

theorem resumePiece_move (bittorrent : BittorrentConnection) (piece : Nat) :
    PieceMove piece .remaining .completed bittorrent.cache
      (resumePiece bittorrent piece).cache where
  entries := by
    refine ⟨_, rfl, fun entry shown => ?_⟩
    simp only [pieceFlags, PieceStage.flags, Prod.mk.injEq] at shown
    simp [pieceFlags, PieceStage.flags, shown]
  bitfield := rfl
  remaining _ := rfl
  completed _ := rfl

theorem wantPiece_move (cache : BittorrentPieceCache) (piece : Nat) :
    PieceMove piece .unwanted .remaining cache
      (setBittorrentPieceCacheRemaining cache piece 1) where
  entries := by
    refine ⟨_, rfl, fun entry shown => ?_⟩
    simp only [pieceFlags, PieceStage.flags, Prod.mk.injEq] at shown
    simp [pieceFlags, PieceStage.flags, shown]
  bitfield := rfl
  remaining _ := rfl
  completed small := (moveCounter_zero small).symm

theorem unwantPiece_move (cache : BittorrentPieceCache) (piece : Nat) :
    PieceMove piece .remaining .unwanted cache
      (setBittorrentPieceCacheRemaining cache piece (-1)) where
  entries := by
    refine ⟨_, rfl, fun entry shown => ?_⟩
    simp only [pieceFlags, PieceStage.flags, Prod.mk.injEq] at shown
    simp [pieceFlags, PieceStage.flags, shown]
  bitfield := rfl
  remaining _ := rfl
  completed small := (moveCounter_zero small).symm

theorem count_loading_set {piece : Nat} {old new : PieceStage} (here : stageAt stages piece = old)
    (inside : piece < stages.length) (still : old ≠ .loading) (idle : new ≠ .loading) :
    (stages.set piece new).count .loading = stages.count .loading := by
  have moved := count_stage_set here inside new .loading
  simp only [PieceStage.weight, still, idle, if_false] at moved
  omega

theorem preparePiece_table {metainfo : BittorrentMeta} {download : PartialDownload} (piece : Nat)
    (table : PieceTable metainfo stages download.cache) :
    ∃ prepared, PieceTable metainfo prepared (preparePiece metainfo download piece).cache ∧
      prepared.count .loading = stages.count .loading := by
  have progress := bittorrentFilePieceTranslation_sameProgress metainfo (fun _ => noFileAnswer)
    (download.cache.entry piece) piece .seek
  simp only [preparePiece]
  generalize found : bittorrentFilePieceTranslation metainfo (fun _ => noFileAnswer)
    (download.cache.entry piece) piece .seek = sought at *
  have same : SameTable download.cache (download.cache.modifyEntry piece fun _ => sought.2.1) :=
    (QuietCache.setEntry download.cache piece progress).sameTable
  split
  · exact ⟨stages, table.same ⟨same.1, same.2, same.3, same.4, same.5, same.6, same.7⟩, rfl⟩
  · split
    · rename_i remaining
      have here : stageAt stages piece = .remaining := by
        refine table.stage_of_remaining ?_
        rw [← progress.2.2.1]
        exact remaining
      have inside : piece < stages.length := stageAt_lt (by rw [here]; decide)
      refine ⟨stages.set piece .unwanted, ?_, count_loading_set here inside (by decide) (by decide)⟩
      refine PieceTable.move ?_ here inside (by decide) (unwantPiece_move _ piece)
      exact table.same ⟨same.1, same.2, same.3, same.4, same.5, same.6, same.7⟩
    · exact ⟨stages, table.same ⟨same.1, same.2, same.3, same.4, same.5, same.6, same.7⟩, rfl⟩

theorem preparePartialBittorrentDownload_table {bittorrent : BittorrentConnection}
    (table : PieceTable bittorrent.metainfo stages bittorrent.cache) :
    ∃ prepared,
      PieceTable bittorrent.metainfo prepared (preparePartialBittorrentDownload bittorrent).cache ∧
        prepared.count .loading = stages.count .loading := by
  simp only [preparePartialBittorrentDownload]
  generalize List.range bittorrent.metainfo.pieces = pieces
  generalize started : (⟨bittorrent.cache, 0, 0⟩ : PartialDownload) = download
  replace table : PieceTable bittorrent.metainfo stages download.cache := by rwa [← started]
  clear started
  induction pieces generalizing download stages with
  | nil => exact ⟨stages, table, rfl⟩
  | cons piece rest ih =>
      obtain ⟨next, first, same⟩ := preparePiece_table piece table
      obtain ⟨prepared, later, still⟩ := ih _ first
      exact ⟨prepared, later, still.trans same⟩

theorem preparePartialBittorrentDownload_keeps {β : Type} (view : BittorrentPieceCache → β)
    (keeps : ∀ metainfo download piece,
      view (preparePiece metainfo download piece).cache = view download.cache)
    (bittorrent : BittorrentConnection) :
    view (preparePartialBittorrentDownload bittorrent).cache = view bittorrent.cache := by
  simp only [preparePartialBittorrentDownload]
  generalize List.range bittorrent.metainfo.pieces = pieces
  generalize started : (⟨bittorrent.cache, 0, 0⟩ : PartialDownload) = download
  have same : view bittorrent.cache = view download.cache := by rw [← started]
  rw [same]
  clear started same
  induction pieces generalizing download with
  | nil => rfl
  | cons piece rest ih => exact (ih _).trans (keeps _ _ _)

/-- How far a piece is: whether it is completed, and which of its blocks have arrived. -/
def pieceProgress (entry : BittorrentPieceCacheEntry) : Bool × Option Bitfield :=
  (entry.completed, entry.blocks)

theorem preparePiece_progress (metainfo : BittorrentMeta) (download : PartialDownload) (piece : Nat) :
    (preparePiece metainfo download piece).cache.entries.map pieceProgress =
      download.cache.entries.map pieceProgress := by
  have progress := bittorrentFilePieceTranslation_sameProgress metainfo (fun _ => noFileAnswer)
    (download.cache.entry piece) piece .seek
  simp only [preparePiece]
  generalize bittorrentFilePieceTranslation metainfo (fun _ => noFileAnswer)
    (download.cache.entry piece) piece .seek = sought at *
  have kept : (download.cache.modifyEntry piece fun _ => sought.2.1).entries.map pieceProgress =
      download.cache.entries.map pieceProgress :=
    forall₂_map_eq (fun _ _ same => by rw [pieceProgress, pieceProgress, same.2.1, same.2.2.2])
      (QuietCache.setEntry download.cache piece progress).entries
  split
  · exact kept
  · split
    · exact (map_modify_of_eq _ piece fun _ => by rfl).trans kept
    · exact kept

theorem preparePartialBittorrentDownload_progress (bittorrent : BittorrentConnection) :
    (preparePartialBittorrentDownload bittorrent).cache.entries.map pieceProgress =
      bittorrent.cache.entries.map pieceProgress :=
  preparePartialBittorrentDownload_keeps (fun cache => cache.entries.map pieceProgress)
    preparePiece_progress bittorrent

theorem preparePiece_resumeFd (metainfo : BittorrentMeta) (download : PartialDownload)
    (piece : Nat) :
    (preparePiece metainfo download piece).cache.resumeFd = download.cache.resumeFd := by
  simp only [preparePiece]
  split
  · rfl
  · split <;> rfl

theorem endBittorrentResume_resumeFd (options : BittorrentOptions)
    (bittorrent : BittorrentConnection) :
    (endBittorrentResume options bittorrent).cache.resumeFd = -1 := by
  have quiet := handleBittorrentModeChanges_quiet options
    (preparePartialBittorrentDownload (doneBittorrentResume bittorrent))
  exact quiet.cache.resumeFd.trans (preparePartialBittorrentDownload_keeps
    BittorrentPieceCache.resumeFd preparePiece_resumeFd (doneBittorrentResume bittorrent))

theorem endBittorrentResume_metainfo (options : BittorrentOptions)
    (bittorrent : BittorrentConnection) :
    (endBittorrentResume options bittorrent).metainfo = bittorrent.metainfo :=
  (handleBittorrentModeChanges_quiet options
    (preparePartialBittorrentDownload (doneBittorrentResume bittorrent))).metainfo

theorem QuietCache.progress (quiet : QuietCache cache after) :
    after.entries.map pieceProgress = cache.entries.map pieceProgress :=
  forall₂_map_eq (fun _ _ same => by rw [pieceProgress, pieceProgress, same.2.1, same.2.2.2])
    quiet.entries

theorem endBittorrentResume_progress (options : BittorrentOptions)
    (bittorrent : BittorrentConnection) :
    (endBittorrentResume options bittorrent).cache.entries.map pieceProgress =
      bittorrent.cache.entries.map pieceProgress := by
  have quiet := handleBittorrentModeChanges_quiet options
    (preparePartialBittorrentDownload (doneBittorrentResume bittorrent))
  exact quiet.cache.progress.trans
    (preparePartialBittorrentDownload_progress (doneBittorrentResume bittorrent))

theorem endBittorrentResume_table (options : BittorrentOptions) {bittorrent : BittorrentConnection}
    (table : PieceTable bittorrent.metainfo stages bittorrent.cache) :
    ∃ prepared,
      PieceTable bittorrent.metainfo prepared (endBittorrentResume options bittorrent).cache ∧
        prepared.count .loading = stages.count .loading := by
  have done : PieceTable (doneBittorrentResume bittorrent).metainfo stages
      (doneBittorrentResume bittorrent).cache :=
    ⟨table.1, table.2, table.3, table.4, table.5, table.6⟩
  obtain ⟨prepared, later, still⟩ := preparePartialBittorrentDownload_table done
  have quiet := handleBittorrentModeChanges_quiet options
    (preparePartialBittorrentDownload (doneBittorrentResume bittorrent))
  have handled := later.same quiet.cache.sameTable
  exact ⟨prepared, ⟨handled.1, handled.2, handled.3, handled.4, handled.5, handled.6⟩, still⟩

end KcnTools.Bittorrent
