import KcnTools.Bittorrent.PieceCounters
import KcnTools.Bittorrent.OfferedRequests
import KcnTools.Lib.Counting

/-!
The rarity index of the piece cache. For a table of how many peers have each piece it holds
that number for each piece and the count of the pieces that nobody has and that are missing.
-/

namespace KcnTools.Bittorrent

open Modify KcnTools.Count

variable {options : BittorrentOptions} {metainfo : BittorrentMeta} {cache after : BittorrentPieceCache}
  {held : Nat → Nat} {debt : Nat}

def isUnavailable (cache : BittorrentPieceCache) (held : Nat → Nat) (piece : Nat) : Bool :=
  !(cache.entry piece).completed && decide (held piece = 0)

def unavailableCount (metainfo : BittorrentMeta) (cache : BittorrentPieceCache)
    (held : Nat → Nat) : Nat :=
  (List.range metainfo.pieces).countP (isUnavailable cache held)

structure RarityIndex (metainfo : BittorrentMeta) (held : Nat → Nat) (debt : Nat)
    (cache : BittorrentPieceCache) : Prop where
  size : cache.entries.length = metainfo.pieces
  rarity : ∀ piece, (cache.entry piece).rarity = held piece
  unavailable : cache.unavailablePieces =
    moveCounter (unavailableCount metainfo cache held) (-debt)

def heldAlso (held : Nat → Nat) (bitfield : Nat → Bool) (piece : Nat) : Nat :=
  held piece + (bitfield piece).toNat

theorem unavailableCount_le (metainfo : BittorrentMeta) (cache : BittorrentPieceCache)
    (held : Nat → Nat) : unavailableCount metainfo cache held ≤ metainfo.pieces := by
  have most := List.countP_le_length (p := isUnavailable cache held) (l := List.range metainfo.pieces)
  rwa [List.length_range] at most

theorem RarityIndex.move (index : RarityIndex metainfo held debt cache) {piece : Nat}
    (inside : piece < metainfo.pieces) {entry : BittorrentPieceCacheEntry} {heldAfter : Nat → Nat}
    (entries : ∀ other, after.entry other = if piece = other then entry else cache.entry other)
    (size : after.entries.length = cache.entries.length)
    (apart : ∀ other, other ≠ piece → heldAfter other = held other)
    (rarity : entry.rarity = heldAfter piece)
    (unavailable : after.unavailablePieces = moveCounter cache.unavailablePieces
      ((isUnavailable after heldAfter piece).toNat - (isUnavailable cache held piece).toNat)) :
    RarityIndex metainfo heldAfter debt after := by
  constructor
  · rw [size, index.size]
  · intro other
    rw [entries]
    split
    · rename_i same
      rw [rarity, same]
    · rename_i different
      rw [index.rarity, apart other fun equal => different equal.symm]
  · have counted : unavailableCount metainfo after heldAfter + (isUnavailable cache held piece).toNat =
        unavailableCount metainfo cache held + (isUnavailable after heldAfter piece).toNat := by
      refine countP_except List.nodup_range (List.mem_range.mpr inside) fun other different => ?_
      rw [isUnavailable, isUnavailable, entries, if_neg fun equal => different equal.symm,
        apart other different]
    rw [unavailable, index.unavailable, moveCounter_moveCounter]
    simp only [moveCounter]
    omega

theorem RarityIndex.unavailable_lt (index : RarityIndex metainfo held debt cache) :
    cache.unavailablePieces < 2 ^ 32 := by
  rw [index.unavailable]
  exact moveCounter_lt _ _

theorem RarityIndex.update (index : RarityIndex metainfo held debt cache) {piece : Nat}
    (inside : piece < metainfo.pieces) (few : held piece + 1 < 2 ^ 16) :
    RarityIndex metainfo (heldAlso held fun other => decide (other = piece)) debt
      (updateBittorrentPieceCache cache piece) := by
  have stored : piece < cache.entries.length := by rwa [index.size]
  have entries : ∀ other, (updateBittorrentPieceCache cache piece).entry other =
      if piece = other then
        { cache.entry piece with rarity := ((cache.entry piece).rarity + 1) % 2 ^ 16 }
      else cache.entry other :=
    BittorrentPieceCache.entry_modifyEntry stored _
  refine index.move inside entries (List.length_modify _ _ _) (fun other different => ?_) ?_ ?_
  · simp [heldAlso, different]
  · simp only [heldAlso, decide_true, Bool.toNat_true, index.rarity, Nat.mod_eq_of_lt few]
  · have available : isUnavailable (updateBittorrentPieceCache cache piece)
        (heldAlso held fun other => decide (other = piece)) piece = false := by
      simp [isUnavailable, heldAlso]
    have missing : isUnavailable cache held piece =
        decide (!(cache.entry piece).completed ∧ (cache.entry piece).rarity = 0) := by
      simp [isUnavailable, index.rarity]
    rw [available, missing]
    simp only [updateBittorrentPieceCache]
    split
    · rename_i first
      simp [first]
    · rename_i again
      simp only [again, decide_false, Bool.toNat_false]
      exact (moveCounter_zero index.unavailable_lt).symm

theorem RarityIndex.remove {piece : Nat}
    (index : RarityIndex metainfo (heldAlso held fun other => decide (other = piece)) debt cache)
    (inside : piece < metainfo.pieces) (few : held piece + 1 < 2 ^ 16) :
    RarityIndex metainfo held debt (removePieceFromBittorrentPieceCache cache piece) := by
  have stored : piece < cache.entries.length := by rwa [index.size]
  have rarity : (cache.entry piece).rarity = held piece + 1 := by
    rw [index.rarity]
    simp [heldAlso]
  have entries : ∀ other, (removePieceFromBittorrentPieceCache cache piece).entry other =
      if piece = other then
        { cache.entry piece with
          rarity := ((cache.entry piece).rarity + (2 ^ 16 - 1)) % 2 ^ 16 }
      else cache.entry other :=
    BittorrentPieceCache.entry_modifyEntry stored _
  have lowered : ((cache.entry piece).rarity + (2 ^ 16 - 1)) % 2 ^ 16 = held piece := by
    rw [rarity]
    omega
  refine index.move inside entries (List.length_modify _ _ _) (fun other different => ?_) lowered ?_
  · simp [heldAlso, different]
  · have available : isUnavailable cache (heldAlso held fun other => decide (other = piece)) piece =
        false := by
      simp [isUnavailable, heldAlso]
    have missing : isUnavailable (removePieceFromBittorrentPieceCache cache piece) held piece =
        decide (!((removePieceFromBittorrentPieceCache cache piece).entry piece).completed ∧
          ((removePieceFromBittorrentPieceCache cache piece).entry piece).rarity = 0) := by
      have now : ((removePieceFromBittorrentPieceCache cache piece).entry piece).rarity =
          held piece := by
        rw [entries, if_pos rfl]
        exact lowered
      simp [isUnavailable, now]
    have removed : (removePieceFromBittorrentPieceCache cache piece).unavailablePieces =
        if !((removePieceFromBittorrentPieceCache cache piece).entry piece).completed ∧
            ((removePieceFromBittorrentPieceCache cache piece).entry piece).rarity = 0 then
          moveCounter cache.unavailablePieces 1 else cache.unavailablePieces := rfl
    rw [available, missing, removed]
    split
    · rename_i last
      simp [last]
    · rename_i others
      simp only [others, decide_false, Bool.toNat_false]
      exact (moveCounter_zero index.unavailable_lt).symm

theorem heldAlso_nil (held : Nat → Nat) :
    heldAlso held (fun piece => decide (piece ∈ ([] : List Nat))) = held := by
  funext piece
  simp [heldAlso]

theorem heldAlso_cons (held : Nat → Nat) {piece : Nat} {rest : List Nat} (new : piece ∉ rest) :
    heldAlso (heldAlso held fun other => decide (other = piece)) (fun other => decide (other ∈ rest)) =
      heldAlso held fun other => decide (other ∈ piece :: rest) := by
  funext other
  simp only [heldAlso, List.mem_cons]
  by_cases same : other = piece
  · subst same
    simp [new]
  · simp [same]

theorem heldAlso_comm (held : Nat → Nat) (first second : Nat → Bool) :
    heldAlso (heldAlso held first) second = heldAlso (heldAlso held second) first := by
  funext piece
  simp only [heldAlso]
  omega

theorem RarityIndex.updates (pieces : List Nat) (nodup : pieces.Nodup)
    (inside : ∀ piece ∈ pieces, piece < metainfo.pieces)
    (few : ∀ piece ∈ pieces, held piece + 1 < 2 ^ 16)
    (index : RarityIndex metainfo held debt cache) :
    RarityIndex metainfo (heldAlso held fun piece => decide (piece ∈ pieces)) debt
      (pieces.foldl updateBittorrentPieceCache cache) := by
  induction pieces generalizing held cache with
  | nil =>
      rw [heldAlso_nil]
      exact index
  | cons piece rest ih =>
      rw [List.nodup_cons] at nodup
      rw [List.forall_mem_cons] at inside few
      rw [← heldAlso_cons held nodup.1]
      refine ih nodup.2 inside.2 (fun other member => ?_) (index.update inside.1 few.1)
      have apart : other ≠ piece := fun equal => nodup.1 (equal ▸ member)
      simpa [heldAlso, apart] using few.2 other member

theorem RarityIndex.removes (pieces : List Nat) (nodup : pieces.Nodup)
    (inside : ∀ piece ∈ pieces, piece < metainfo.pieces)
    (few : ∀ piece ∈ pieces, held piece + 1 < 2 ^ 16)
    (index : RarityIndex metainfo (heldAlso held fun piece => decide (piece ∈ pieces)) debt cache) :
    RarityIndex metainfo held debt (pieces.foldl removePieceFromBittorrentPieceCache cache) := by
  induction pieces generalizing cache with
  | nil =>
      rw [heldAlso_nil] at index
      exact index
  | cons piece rest ih =>
      rw [List.nodup_cons] at nodup
      rw [List.forall_mem_cons] at inside few
      rw [← heldAlso_cons held nodup.1, heldAlso_comm] at index
      refine ih nodup.2 inside.2 few.2 (index.remove inside.1 ?_)
      simpa [heldAlso, nodup.1] using few.1

/-- A change that leaves the rarities and the completed pieces alone. -/
structure SameIndex (before after : BittorrentPieceCache) : Prop where
  entries : after.entries.map (fun entry => (entry.rarity, entry.completed)) =
    before.entries.map fun entry => (entry.rarity, entry.completed)
  unavailable : after.unavailablePieces = before.unavailablePieces

theorem SameIndex.entry (same : SameIndex cache after) (piece : Nat) :
    (after.entry piece).rarity = (cache.entry piece).rarity ∧
      (after.entry piece).completed = (cache.entry piece).completed :=
  Prod.mk.inj (BittorrentPieceCache.entry_of_map _ same.entries piece)

theorem RarityIndex.same (index : RarityIndex metainfo held debt cache)
    (same : SameIndex cache after) : RarityIndex metainfo held debt after where
  size := by
    have lengths := congrArg List.length same.entries
    rw [List.length_map, List.length_map] at lengths
    rw [lengths, index.size]
  rarity piece := by rw [(same.entry piece).1, index.rarity]
  unavailable := by
    rw [same.unavailable, index.unavailable, unavailableCount, unavailableCount]
    congr 2
    funext piece
    rw [isUnavailable, isUnavailable, (same.entry piece).2]

theorem RarityIndex.complete (index : RarityIndex metainfo held debt cache) {piece : Nat}
    (inside : piece < metainfo.pieces) (available : held piece ≠ 0) :
    RarityIndex metainfo held debt (setBittorrentPieceCacheCompleted cache piece) := by
  have stored : piece < cache.entries.length := by rwa [index.size]
  refine index.move inside (BittorrentPieceCache.entry_modifyEntry stored _)
    (List.length_modify _ _ _) (fun _ _ => rfl) (index.rarity piece) ?_
  have before : isUnavailable cache held piece = false := by simp [isUnavailable, available]
  have after : isUnavailable (setBittorrentPieceCacheCompleted cache piece) held piece = false := by
    simp [isUnavailable, available]
  rw [before, after]
  exact (moveCounter_zero index.unavailable_lt).symm

theorem SameIndex.refl (cache : BittorrentPieceCache) : SameIndex cache cache := ⟨rfl, rfl⟩

theorem SameIndex.trans {first second third : BittorrentPieceCache}
    (earlier : SameIndex first second) (later : SameIndex second third) : SameIndex first third :=
  ⟨later.entries.trans earlier.entries, later.unavailable.trans earlier.unavailable⟩

theorem QuietCache.sameIndex (quiet : QuietCache cache after) : SameIndex cache after where
  entries := forall₂_map_eq (fun before after same => by rw [same.1, same.2.1]) quiet.entries
  unavailable := quiet.unavailablePieces

theorem addRequests_sameIndex (requests : List BittorrentPeerRequest)
    (bittorrent : BittorrentConnection) :
    SameIndex bittorrent.cache
      (requests.foldl addRequestToBittorrentPieceCache bittorrent).cache := by
  induction requests generalizing bittorrent with
  | nil => exact SameIndex.refl _
  | cons request rest ih =>
      refine SameIndex.trans ?_ (ih _)
      simp only [addRequestToBittorrentPieceCache]
      split
      · exact ⟨rfl, rfl⟩
      · exact SameIndex.refl _

theorem modifyEntry_sameIndex (cache : BittorrentPieceCache) (piece : Nat)
    {change : BittorrentPieceCacheEntry → BittorrentPieceCacheEntry}
    (same : ∀ entry, ((change entry).rarity, (change entry).completed) =
      (entry.rarity, entry.completed)) :
    SameIndex cache (cache.modifyEntry piece change) :=
  ⟨map_modify_of_eq cache.entries piece same, rfl⟩

theorem receiveBlock_sameIndex (bittorrent : BittorrentConnection) (index : Nat)
    (request : BittorrentPeerRequest) (data : List UInt8) :
    SameIndex bittorrent.cache (receiveBlock bittorrent index request data).cache := by
  rw [receiveBlock_cache]
  exact modifyEntry_sameIndex _ _ fun _ => rfl

theorem setRemaining_sameIndex (cache : BittorrentPieceCache) (piece : Nat) (remaining : Int) :
    SameIndex cache (setBittorrentPieceCacheRemaining cache piece remaining) :=
  ⟨map_modify_of_eq cache.entries piece fun _ => rfl, rfl⟩

theorem addPiece_sameIndex (options : BittorrentOptions) (bittorrent : BittorrentConnection)
    (piece : Nat) :
    SameIndex bittorrent.cache (addPieceToBittorrentFreeList options bittorrent piece).1.cache := by
  refine ⟨?_, rfl⟩
  refine (congrArg _ (List.modify_modify_eq _ _ piece bittorrent.cache.entries)).trans ?_
  exact map_modify_of_eq _ piece fun _ => rfl

theorem rejectPiece_sameIndex (bittorrent : BittorrentConnection) (piece : Nat) :
    SameIndex bittorrent.cache (rejectPiece (dropBlocks bittorrent piece) piece).cache := by
  have dropped : SameIndex bittorrent.cache (dropBlocks bittorrent piece).cache :=
    modifyEntry_sameIndex _ piece fun _ => rfl
  have emptied : SameIndex (dropBlocks bittorrent piece).cache
      ((dropBlocks bittorrent piece).cache.modifyEntry piece fun entry =>
        { entry with data := none }) := modifyEntry_sameIndex _ piece fun _ => rfl
  have rejected := (dropped.trans emptied).trans (setRemaining_sameIndex _ piece 1)
  exact ⟨rejected.entries, rejected.unavailable⟩

theorem preparePiece_sameIndex (metainfo : BittorrentMeta) (download : PartialDownload)
    (piece : Nat) : SameIndex download.cache (preparePiece metainfo download piece).cache := by
  have progress := bittorrentFilePieceTranslation_sameProgress metainfo (fun _ => noFileAnswer)
    (download.cache.entry piece) piece .seek
  simp only [preparePiece]
  generalize bittorrentFilePieceTranslation metainfo (fun _ => noFileAnswer)
    (download.cache.entry piece) piece .seek = sought at *
  have same : SameIndex download.cache (download.cache.modifyEntry piece fun _ => sought.2.1) :=
    (QuietCache.setEntry download.cache piece progress).sameIndex
  split
  · exact ⟨same.1, same.2⟩
  · split
    · refine SameIndex.trans ?_ (setRemaining_sameIndex _ piece (-1))
      exact ⟨same.1, same.2⟩
    · exact ⟨same.1, same.2⟩

def peersWith (peers : List BittorrentPeerConnection) (piece : Nat) : Nat :=
  peers.countP fun peer => testBitfieldBit peer.bitfield piece

theorem peersWith_congr {before after : List BittorrentPeerConnection}
    (same : after.map (fun peer => peer.bitfield) = before.map fun peer => peer.bitfield) :
    peersWith after = peersWith before := by
  funext piece
  have counted : ∀ peers : List BittorrentPeerConnection, peersWith peers piece =
      (peers.map fun peer => peer.bitfield).countP fun bitfield =>
        testBitfieldBit bitfield piece := fun peers => by
    rw [peersWith, List.countP_map]
    rfl
  rw [counted, counted, same]

theorem peersWith_views {before after : BittorrentConnection}
    (same : remoteViews after = remoteViews before) :
    peersWith after.peers = peersWith before.peers := by
  refine peersWith_congr ?_
  have bitfields := congrArg (List.map RemoteView.bitfield) same
  simp only [remoteViews, List.map_map] at bitfields
  exact bitfields

theorem peersWith_le (peers : List BittorrentPeerConnection) (piece : Nat) :
    peersWith peers piece ≤ peers.length := List.countP_le_length

end KcnTools.Bittorrent
