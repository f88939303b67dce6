import KcnTools.Bittorrent.RarityIndex

/-!
The rarity index in every state of a torrent: the rarities are the numbers of peers that
have each piece, and the count of unavailable pieces is right once resuming has ended.
-/

namespace KcnTools.Bittorrent

open Modify KcnTools.Count

variable {options : BittorrentOptions} {resumeFd : Int} {before after : BittorrentConnection}

def unavailableDebt (resumeFd : Int) (bittorrent : BittorrentConnection) : Nat :=
  if resumeFd = -1 then bittorrent.metainfo.pieces
  else if bittorrent.cache.resumeFd = -1 then 0
  else bittorrent.metainfo.pieces - bittorrent.cache.completedPieces

structure RarityRecord (resumeFd : Int) (bittorrent : BittorrentConnection) : Prop where
  recorded : PiecesRecorded resumeFd bittorrent
  sound : SoundPeers bittorrent
  few : bittorrent.peers.length < 2 ^ 16
  index : RarityIndex bittorrent.metainfo (peersWith bittorrent.peers)
    (unavailableDebt resumeFd bittorrent) bittorrent.cache

theorem unavailableDebt_same (metainfo : after.metainfo = before.metainfo)
    (descriptor : after.cache.resumeFd = before.cache.resumeFd)
    (completed : before.cache.resumeFd ≠ -1 →
      after.cache.completedPieces = before.cache.completedPieces) :
    unavailableDebt resumeFd after = unavailableDebt resumeFd before := by
  simp only [unavailableDebt, metainfo, descriptor]
  split
  · rfl
  · split
    · rfl
    · rename_i resuming
      rw [completed resuming]

/-- When no peer has any piece, the pieces that are not completed are unavailable. -/
theorem unavailableCount_alone {metainfo : BittorrentMeta} {stages : List PieceStage}
    {cache : BittorrentPieceCache} (table : PieceTable metainfo stages cache) :
    unavailableCount metainfo cache (peersWith []) = metainfo.pieces - cache.completedPieces := by
  have completed : (List.range metainfo.pieces).countP (testBitfieldBit cache.bitfield) =
      cache.completedPieces := by
    rw [table.completedPieces, ← table.setCount, getBitfieldSetCount, bitfieldSetBits,
      table.bitsize, List.countP_eq_length_filter]
  have total := List.length_eq_countP_add_countP (testBitfieldBit cache.bitfield)
    (l := List.range metainfo.pieces)
  rw [List.length_range, completed] at total
  have missing : unavailableCount metainfo cache (peersWith []) =
      (List.range metainfo.pieces).countP fun piece => ¬testBitfieldBit cache.bitfield piece := by
    refine List.countP_congr fun piece _ => ?_
    have flag : testBitfieldBit cache.bitfield piece = (cache.entry piece).completed := by
      rw [Bool.eq_iff_iff, table.completed_iff, table.recorded, decide_eq_true_eq]
    simp [isUnavailable, peersWith, flag]
  omega

theorem RarityIndex.alone {metainfo : BittorrentMeta} {stages : List PieceStage} {debt : Nat}
    {cache : BittorrentPieceCache} (table : PieceTable metainfo stages cache)
    (rarity : ∀ piece, (cache.entry piece).rarity = 0)
    (unavailable : cache.unavailablePieces =
      moveCounter (metainfo.pieces - cache.completedPieces : Nat) (-debt)) :
    RarityIndex metainfo (peersWith []) debt cache where
  size := table.entries_length
  rarity := rarity
  unavailable := by rw [unavailable, unavailableCount_alone table]

theorem RarityRecord.same (record : RarityRecord resumeFd before)
    (step : BittorrentTransition options before after)
    (index : SameIndex before.cache after.cache)
    (peers : peersWith after.peers = peersWith before.peers)
    (debt : unavailableDebt resumeFd after = unavailableDebt resumeFd before) :
    RarityRecord resumeFd after where
  recorded := record.recorded.step step
  sound := record.sound.step step
  few := Nat.lt_of_le_of_lt step.peers_length_le record.few
  index := by
    rw [step.metainfo_eq, peers, debt]
    exact record.index.same index

theorem unavailableDebt_table (step : BittorrentTransition options before after)
    (same : SameTable before.cache after.cache) :
    unavailableDebt resumeFd after = unavailableDebt resumeFd before :=
  unavailableDebt_same step.metainfo_eq same.resumeFd fun _ => same.completedPieces

theorem heldAlso_peersWith_eraseIdx {peers : List BittorrentPeerConnection} {index : Nat}
    {peer : BittorrentPeerConnection} (here : peers[index]? = some peer) :
    heldAlso (peersWith (peers.eraseIdx index)) (testBitfieldBit peer.bitfield) =
      peersWith peers := by
  funext piece
  exact countP_eraseIdx (fun peer => testBitfieldBit peer.bitfield piece) here

theorem decide_mem_bitfieldSetBits (bitfield : Bitfield) :
    (fun piece => decide (piece ∈ bitfieldSetBits bitfield)) = testBitfieldBit bitfield := by
  funext piece
  rw [Bool.eq_iff_iff, decide_eq_true_eq, mem_bitfieldSetBits]

theorem peersWith_eraseIdx_lt {peers : List BittorrentPeerConnection} {index : Nat}
    {peer : BittorrentPeerConnection} (here : peers[index]? = some peer) (piece : Nat) :
    peersWith (peers.eraseIdx index) piece + 1 ≤ peers.length := by
  have inside : index < peers.length := (List.getElem?_eq_some_iff.mp here).1
  have most := peersWith_le (peers.eraseIdx index) piece
  rw [List.length_eraseIdx_of_lt inside] at most
  omega

theorem peersWith_leave (before : BittorrentConnection) (position : Nat) :
    peersWith (doneBittorrentPeerConnection before position).peers =
      peersWith (before.peers.eraseIdx position) := by
  have views := remoteViews_leave before position
  have erased : remoteViews { before with peers := before.peers.eraseIdx position } =
      (remoteViews before).eraseIdx position := by
    rw [remoteViews, remoteViews, List.eraseIdx_map]
  exact peersWith_views (views.trans erased.symm)

theorem RarityIndex.leave {debt : Nat}
    (index : RarityIndex before.metainfo (peersWith before.peers) debt before.cache)
    (sound : SoundPeers before) (few : before.peers.length < 2 ^ 16) {position : Nat}
    {peer : BittorrentPeerConnection} (here : before.peers[position]? = some peer) :
    RarityIndex before.metainfo (peersWith (before.peers.eraseIdx position)) debt
      (doneBittorrentPeerConnection before position).cache := by
  have returned := index.same (addRequests_sameIndex peer.localStatus.requests
    { before with peers := before.peers.eraseIdx position })
  rw [← heldAlso_peersWith_eraseIdx here, ← decide_mem_bitfieldSetBits] at returned
  have bitsize := (sound peer (List.mem_of_getElem? here)).bitsize
  simp only [doneBittorrentPeerConnection, here]
  refine returned.removes _ (bitfieldSetBits_nodup _) (fun piece member => ?_) fun piece _ => ?_
  · rw [← bitsize]
    exact testBitfieldBit_lt (mem_bitfieldSetBits.mp member)
  · exact Nat.lt_of_le_of_lt (peersWith_eraseIdx_lt here piece) few

theorem peersWith_modify {index : Nat} {peer : BittorrentPeerConnection}
    {change : BittorrentPeerConnection → BittorrentPeerConnection}
    (here : before.peers[index]? = some peer) {gained : Nat → Bool}
    (changed : ∀ piece, (testBitfieldBit (change peer).bitfield piece).toNat =
      (testBitfieldBit peer.bitfield piece).toNat + (gained piece).toNat) :
    peersWith (before.modifyPeer index change).peers =
      heldAlso (peersWith before.peers) gained := by
  funext piece
  have counted := countP_modify (fun peer => testBitfieldBit peer.bitfield piece) (f := change) here
  have gains := changed piece
  simp only [heldAlso, peersWith, BittorrentConnection.modifyPeer] at counted ⊢
  omega

theorem peersWith_recordHave {index piece : Nat} {peer : BittorrentPeerConnection}
    (sound : SoundPeers before) (here : before.peers[index]? = some peer)
    (inside : piece < before.metainfo.pieces) (fresh : testBitfieldBit peer.bitfield piece = false) :
    peersWith (recordHave before index piece).peers =
      heldAlso (peersWith before.peers) fun other => decide (other = piece) := by
  have bitsize := (sound peer (List.mem_of_getElem? here)).bitsize
  refine peersWith_modify here fun other => ?_
  rw [testBitfieldBit_set, bitsize]
  by_cases same : other = piece
  · subst same
    simp [fresh, inside]
  · have apart : ¬piece = other := fun equal => same equal.symm
    simp [same, apart]

theorem peersWith_recordBitfield {index : Nat} {peer : BittorrentPeerConnection}
    (sound : SoundPeers before) (here : before.peers[index]? = some peer)
    (fresh : peer.remoteStatus.bitfield = false) (bitfield : Bitfield) :
    peersWith (recordBitfield before index bitfield).peers =
      heldAlso (peersWith before.peers) (testBitfieldBit bitfield) := by
  have silent := (sound peer (List.mem_of_getElem? here)).silent fresh
  refine peersWith_modify here fun other => ?_
  simp [silent other]

theorem heldAlso_lt {held : Nat → Nat} {gained : Nat → Bool}
    {peers : List BittorrentPeerConnection} (counted : peersWith peers = heldAlso held gained)
    (few : peers.length < 2 ^ 16) {piece : Nat} (new : gained piece = true) :
    held piece + 1 < 2 ^ 16 := by
  have most := peersWith_le peers piece
  rw [counted, heldAlso, new, Bool.toNat_true] at most
  omega

/-- The piece that is completed is one that the peer which sent its last block has. -/
theorem peersWith_pending {index piece offset length : Nat} {request : BittorrentPeerRequest}
    (sound : SoundPeers before)
    (pending : pendingRequest before index piece offset length = some request) :
    piece < before.metainfo.pieces ∧ peersWith before.peers piece ≠ 0 := by
  obtain ⟨peer, here, member, same⟩ := pendingRequest_piece pending
  have connected := List.mem_of_getElem? here
  have offered := (sound peer connected).offered request member
  rw [same] at offered
  refine ⟨?_, ?_⟩
  · rw [← (sound peer connected).bitsize]
    exact testBitfieldBit_lt offered
  · exact Nat.ne_of_gt (List.countP_pos_iff.mpr ⟨peer, connected, offered⟩)

theorem RarityIndex.complete_pending {debt index piece offset length : Nat}
    {request : BittorrentPeerRequest}
    (rarity : RarityIndex before.metainfo (peersWith before.peers) debt before.cache)
    (sound : SoundPeers before) (data : List UInt8)
    (pending : pendingRequest before index piece offset length = some request) :
    RarityIndex before.metainfo (peersWith before.peers) debt
      (fillPiece (receiveBlock before index request data) piece).cache := by
  obtain ⟨inside, available⟩ := peersWith_pending sound pending
  have received := rarity.same (receiveBlock_sameIndex before index request data)
  have dropped : SameIndex (receiveBlock before index request data).cache
      (dropBlocks (receiveBlock before index request data) piece).cache :=
    modifyEntry_sameIndex _ piece fun _ => rfl
  exact (received.same dropped).complete inside available

theorem RarityRecord.alone (record : RarityRecord resumeFd before)
    (resuming : before.cache.resumeFd ≠ -1) : before.peers = [] := by
  obtain ⟨stages, pieces⟩ := record.recorded
  exact (pieces.resuming resuming).alone

theorem RarityRecord.started_of_peer (record : RarityRecord resumeFd before) {index : Nat}
    {peer : BittorrentPeerConnection} (here : before.peers[index]? = some peer) :
    before.cache.resumeFd = -1 := by
  obtain ⟨stages, pieces⟩ := record.recorded
  exact pieces.started_of_peer here

theorem RarityRecord.uncounted (record : RarityRecord resumeFd before)
    (resuming : before.cache.resumeFd ≠ -1) : before.cache.unavailablePieces = 0 := by
  obtain ⟨stages, pieces⟩ := record.recorded
  have started : resumeFd ≠ -1 := fun never => resuming (pieces.unresumed never)
  have most := pieces.table.count_le .completed
  have index := record.index
  rw [record.alone resuming] at index
  rw [index.unavailable, unavailableCount_alone pieces.table, unavailableDebt, if_neg started,
    if_neg resuming]
  exact moveCounter_of_sum (by omega) (by omega)

theorem resumePiece_rarity (bittorrent : BittorrentConnection) (position piece : Nat) :
    ((resumePiece bittorrent position).cache.entry piece).rarity =
      (bittorrent.cache.entry piece).rarity := by
  have same : (resumePiece bittorrent position).cache.entries.map (fun entry => entry.rarity) =
      bittorrent.cache.entries.map fun entry => entry.rarity :=
    map_modify_of_eq bittorrent.cache.entries position fun _ => rfl
  exact BittorrentPieceCache.entry_of_map _ same piece

theorem RarityRecord.resumed (record : RarityRecord resumeFd before)
    (resuming : before.cache.resumeFd ≠ -1)
    (recorded : PiecesRecorded resumeFd
      (resumePiece (advanceResume before) before.cache.resumePos)) :
    RarityIndex before.metainfo (peersWith before.peers)
      (unavailableDebt resumeFd (resumePiece (advanceResume before) before.cache.resumePos))
      (resumePiece (advanceResume before) before.cache.resumePos).cache := by
  obtain ⟨stages, pieces⟩ := recorded
  have started : resumeFd ≠ -1 := fun never => resuming (pieces.unresumed never)
  have index := record.index
  rw [record.alone resuming] at index ⊢
  refine RarityIndex.alone pieces.table (fun piece => ?_) ?_
  · rw [resumePiece_rarity]
    exact index.rarity piece
  · have uncounted : (resumePiece (advanceResume before)
        before.cache.resumePos).cache.unavailablePieces = 0 := record.uncounted resuming
    have descriptor : (resumePiece (advanceResume before)
        before.cache.resumePos).cache.resumeFd ≠ -1 := resuming
    have small := pieces_lt before.metainfo
    rw [uncounted, unavailableDebt, if_neg started, if_neg descriptor]
    refine (moveCounter_of_sum ?_ (by omega)).symm
    change ((before.metainfo.pieces - _ : Nat) : Int) + -((before.metainfo.pieces - _ : Nat) : Int) = 0
    omega

theorem endBittorrentResume_rarity (options : BittorrentOptions)
    (bittorrent : BittorrentConnection) (piece : Nat) :
    ((endBittorrentResume options bittorrent).cache.entry piece).rarity =
      (bittorrent.cache.entry piece).rarity := by
  have prepared := preparePartialBittorrentDownload_keeps
    (fun cache => cache.entries.map fun entry => (entry.rarity, entry.completed))
    (fun metainfo download piece => (preparePiece_sameIndex metainfo download piece).entries)
    (doneBittorrentResume bittorrent)
  have handled := (handleBittorrentModeChanges_quiet options
    (preparePartialBittorrentDownload (doneBittorrentResume bittorrent))).cache.sameIndex
  have same := BittorrentPieceCache.entry_of_map _ (handled.entries.trans prepared) piece
  exact (Prod.mk.inj same).1

theorem RarityIndex.ended (before : BittorrentConnection) {debt : Nat} (alone : before.peers = [])
    (index : RarityIndex before.metainfo (peersWith before.peers) debt before.cache)
    (recorded : PiecesRecorded resumeFd (endBittorrentResume options before)) :
    RarityIndex before.metainfo (peersWith []) 0 (endBittorrentResume options before).cache := by
  obtain ⟨stages, pieces⟩ := recorded
  have table := pieces.table
  rw [endBittorrentResume_metainfo] at table
  rw [alone] at index
  refine RarityIndex.alone table (fun piece => ?_) ?_
  · rw [endBittorrentResume_rarity]
    exact index.rarity piece
  · have counted : (endBittorrentResume options before).cache.unavailablePieces =
        moveCounter (endBittorrentResume options before).metainfo.pieces
          (-(endBittorrentResume options before).cache.completedPieces) := rfl
    have most := table.count_le .completed
    rw [← table.completedPieces] at most
    rw [counted, endBittorrentResume_metainfo, moveCounter, moveCounter]
    congr 2
    omega

theorem RarityRecord.step (step : BittorrentTransition options before after)
    (record : RarityRecord resumeFd before) : RarityRecord resumeFd after := by
  have keeps := record.same step
  have table := @unavailableDebt_table options resumeFd before after step
  have recorded := record.recorded.step step
  have metainfo := step.metainfo_eq
  have sound := record.sound.step step
  have shorter := step.peers_length_le
  have few := Nat.lt_of_le_of_lt shorter record.few
  cases step with
  | quiet same =>
      refine keeps same.cache.sameIndex ?_ (table same.cache.sameTable)
      exact peersWith_congr (forall₂_map_eq (fun _ _ quiet => quiet.bitfield) same.peers)
  | sort sorted =>
      refine keeps (SameIndex.refl _) ?_ (table (SameTable.refl _))
      funext piece
      exact sorted.countP_eq _
  | serve here valid granted small =>
      refine keeps (SameIndex.refl _) ?_
        (table (SameTable.refl _))
      exact peersWith_congr (map_modify_of_eq before.peers _ fun _ => rfl)
  | take here found =>
      refine keeps ⟨rfl, rfl⟩ ?_ ?_
      · exact peersWith_congr (map_modify_of_eq before.peers _ fun _ => rfl)
      · exact unavailableDebt_same rfl rfl fun _ => rfl
  | clone here found cloned =>
      refine keeps ?_ (peersWith_views ?_) ?_
      · change SameIndex before.cache (cloneBittorrentPeerRequest before _).1.cache
        rw [cloneBittorrentPeerRequest_cache]
        exact SameIndex.refl _
      · rw [remoteViews_appendRequest, remoteViews_clone]
      · refine unavailableDebt_same ?_ ?_ fun _ => ?_
        all_goals
          simp only [BittorrentConnection.modifyPeer, cloneBittorrentPeerRequest]
          split <;> rfl
  | split here remaining offered last =>
      refine keeps (addPiece_sameIndex options before _) ?_ ?_
      · exact peersWith_congr (map_modify_of_eq before.peers _ fun _ => rfl)
      · exact unavailableDebt_same rfl rfl fun _ => rfl
  | requeue here first =>
      refine keeps (addRequests_sameIndex [_] (before.modifyPeer _ dropFirstRequest))
        (peersWith_views ?_) (table (addRequest_sameTable (before.modifyPeer _ _) _))
      rw [remoteViews_addRequest, remoteViews_dropFirstRequest]
  | store data pending =>
      refine keeps (receiveBlock_sameIndex before _ _ data) ?_
        (table (receiveBlock_sameTable before _ _ data))
      exact peersWith_views (remoteViews_receiveBlock before _ _ data)
  | @reject index piece _ _ request _ data pending loading full =>
      have received := receiveBlock_sameTable before index request data
      refine keeps ((receiveBlock_sameIndex before index request data).trans
        (rejectPiece_sameIndex _ piece)) ?_ ?_
      · exact peersWith_views (remoteViews_receiveBlock before index request data)
      · exact unavailableDebt_same metainfo received.resumeFd fun _ => received.completedPieces
  | skipped resuming inside =>
      refine keeps ⟨rfl, rfl⟩ rfl ?_
      exact unavailableDebt_same rfl rfl fun _ => rfl
  | leave position =>
      refine ⟨recorded, sound, few, ?_⟩
      rw [table (leave_sameTable before position), metainfo, peersWith_leave]
      cases here : before.peers[position]? with
      | none =>
          have missing := List.getElem?_eq_none_iff.mp here
          rw [List.eraseIdx_of_length_le missing]
          simp only [doneBittorrentPeerConnection, here]
          exact record.index
      | some peer => exact record.index.leave record.sound record.few here
  | @complete index piece _ _ request _ data pending loading full =>
      refine ⟨recorded, sound, few, ?_⟩
      have received := receiveBlock_sameTable before index request data
      have peers : peersWith (fillPiece (receiveBlock before index request data) piece).peers =
          peersWith before.peers := peersWith_views (remoteViews_receiveBlock before index request data)
      have debt : unavailableDebt resumeFd (fillPiece (receiveBlock before index request data) piece) =
          unavailableDebt resumeFd before := by
        refine unavailableDebt_same metainfo received.resumeFd fun resuming => ?_
        obtain ⟨peer, here, _⟩ := pendingRequest_piece pending
        exact absurd (record.started_of_peer here) resuming
      rw [metainfo, peers, debt]
      exact record.index.complete_pending record.sound data pending
  | haveMessage here inside fresh =>
      refine ⟨recorded, sound, few, ?_⟩
      have peers := peersWith_recordHave record.sound here inside fresh
      rw [table (updateBittorrentPieceCache_sameTable _ _), metainfo, peers]
      refine record.index.update inside (heldAlso_lt peers few (by simp))
  | @bitfield index peer bits here fresh =>
      refine ⟨recorded, sound, few, ?_⟩
      have peers := peersWith_recordBitfield record.sound here fresh (copyBitfield peer.bitfield bits)
      have bitsize := (record.sound peer (List.mem_of_getElem? here)).bitsize
      rw [table (foldl_sameTable updateBittorrentPieceCache_sameTable _ _), metainfo, peers,
        ← decide_mem_bitfieldSetBits]
      refine record.index.updates _ (bitfieldSetBits_nodup _) (fun piece member => ?_)
        fun piece member => heldAlso_lt peers few (mem_bitfieldSetBits.mp member)
      rw [← bitsize, ← copyBitfield_bitsize peer.bitfield bits]
      exact testBitfieldBit_lt (mem_bitfieldSetBits.mp member)
  | resumed resuming inside => exact ⟨recorded, sound, few, record.resumed resuming recorded⟩
  | ended resuming position =>
      refine ⟨recorded, sound, few, ?_⟩
      have started : resumeFd ≠ -1 := by
        obtain ⟨stages, pieces⟩ := record.recorded
        exact fun never => resuming (pieces.unresumed never)
      have alone := record.alone resuming
      have index : RarityIndex before.metainfo (peersWith before.peers)
          (unavailableDebt resumeFd before) { before.cache with resumePos := position } :=
        record.index.same ⟨rfl, rfl⟩
      have nobody : (endBittorrentResume options
          { before with cache := { before.cache with resumePos := position } }).peers = [] := by
        have none : before.peers.length = 0 := by
          rw [alone]
          rfl
        exact List.eq_nil_of_length_eq_zero (Nat.le_zero.mp (Nat.le_trans shorter (Nat.le_of_eq none)))
      rw [metainfo, nobody, unavailableDebt, if_neg started,
        if_pos (endBittorrentResume_resumeFd options _)]
      exact RarityIndex.ended { before with cache := { before.cache with resumePos := position } }
        alone index recorded

theorem RarityRecord.connect (record : RarityRecord resumeFd before)
    (started : before.cache.resumeFd = -1) (few : before.peers.length + 1 < 2 ^ 16) :
    RarityRecord resumeFd (connectPeer before) where
  recorded := record.recorded.connect started
  sound := record.sound.connect
  few := few
  index := by
    have peers : peersWith (connectPeer before).peers = peersWith before.peers := by
      funext piece
      simp [peersWith, connectPeer, newPeer]
    rw [peers]
    exact record.index

theorem setRemaining_foldl_sameIndex (pieces : List Nat) (cache : BittorrentPieceCache) :
    SameIndex cache
      (pieces.foldl (fun cache piece => setBittorrentPieceCacheRemaining cache piece 1) cache) := by
  induction pieces generalizing cache with
  | nil => exact SameIndex.refl cache
  | cons piece rest ih => exact (setRemaining_sameIndex cache piece 1).trans (ih _)

theorem rarityRecord_initial (metainfo : BittorrentMeta) (resumeFd : Int) :
    RarityRecord resumeFd (initBittorrentPieceCache metainfo resumeFd) := by
  obtain ⟨stages, fresh⟩ := freshTable_foldl metainfo metainfo.pieces (Nat.le_refl _)
  have same := setRemaining_foldl_sameIndex (List.range metainfo.pieces)
    (emptyPieceCache metainfo.pieces)
  have completed : (initBittorrentPieceCache metainfo resumeFd).cache.completedPieces = 0 :=
    fresh.completedPieces
  have debt : unavailableDebt resumeFd (initBittorrentPieceCache metainfo resumeFd) =
      metainfo.pieces := by
    simp only [unavailableDebt, completed, Nat.sub_zero]
    split
    · rfl
    · rename_i started
      exact if_neg started
  have index : RarityIndex metainfo (peersWith []) metainfo.pieces
      ((List.range metainfo.pieces).foldl
        (fun cache piece => setBittorrentPieceCacheRemaining cache piece 1)
        (emptyPieceCache metainfo.pieces)) := by
    refine RarityIndex.alone fresh.table (fun piece => ?_) ?_
    · have blank : (emptyPieceCache metainfo.pieces).entry piece = blankEntry := by
        rw [BittorrentPieceCache.entry, List.getD_eq_getElem?_getD, emptyPieceCache,
          List.getElem?_replicate]
        split <;> rfl
      rw [(same.entry piece).1, blank]
      rfl
    · have small := pieces_lt metainfo
      rw [same.unavailable, fresh.completedPieces]
      refine (moveCounter_of_sum ?_ (Nat.pow_pos (by decide))).symm
      change (metainfo.pieces : Int) + -(metainfo.pieces : Int) = 0
      omega
  refine ⟨PieceRecord.initial metainfo resumeFd, fun peer member => ?_, ?_, ?_⟩
  · exact absurd member List.not_mem_nil
  · exact Nat.pow_pos (by decide)
  · rw [debt]
    exact ⟨index.size, index.rarity, index.unavailable⟩

def RoomForPeer (bittorrent : BittorrentConnection) (event : BittorrentEvent) : Prop :=
  event = .connect → bittorrent.peers.length + 1 < 2 ^ 16

theorem rarityRecord_run {metainfo : BittorrentMeta} {resumeFd : Int}
    {events : List BittorrentEvent} {bittorrent : BittorrentConnection}
    (room : Run.Admitted (bittorrentStep options) RoomForPeer
      (initBittorrentPieceCache metainfo resumeFd) events)
    (reached : Run.run (bittorrentStep options) (initBittorrentPieceCache metainfo resumeFd) events =
      some bittorrent) : RarityRecord resumeFd bittorrent := by
  refine Run.run_preserves (RarityRecord resumeFd) ?_ (rarityRecord_initial metainfo resumeFd) room
    reached
  intro before event after record fits stepped
  exact bittorrentStep_preserves (fun _ _ => RarityRecord.step)
    (fun connects started => record.connect started (fits connects)) stepped record

/-- The rarities and the count of unavailable pieces, read off the peers. -/
structure RarityAgrees (bittorrent : BittorrentConnection) : Prop where
  rarity : ∀ piece < bittorrent.metainfo.pieces, (bittorrent.cache.entry piece).rarity =
    bittorrent.peers.countP fun peer => testBitfieldBit peer.bitfield piece
  unavailable : bittorrent.cache.unavailablePieces =
    (List.range bittorrent.metainfo.pieces).countP fun piece =>
      !(bittorrent.cache.entry piece).completed &&
        !bittorrent.peers.any fun peer => testBitfieldBit peer.bitfield piece

/-- Whatever the peers send, the index agrees with what they have exactly when the resume
thread could be started and resuming has ended or has found every piece. -/
theorem rarityAgrees_iff {metainfo : BittorrentMeta} {resumeFd : Int}
    {events : List BittorrentEvent} {bittorrent : BittorrentConnection}
    (room : Run.Admitted (bittorrentStep options) RoomForPeer
      (initBittorrentPieceCache metainfo resumeFd) events)
    (reached : Run.run (bittorrentStep options) (initBittorrentPieceCache metainfo resumeFd) events =
      some bittorrent) :
    RarityAgrees bittorrent ↔ resumeFd ≠ -1 ∧
      (bittorrent.cache.resumeFd = -1 ∨
        bittorrent.cache.completedPieces = bittorrent.metainfo.pieces) := by
  have record := rarityRecord_run room reached
  have nobody : ∀ piece, (!bittorrent.peers.any fun peer => testBitfieldBit peer.bitfield piece) =
      decide (peersWith bittorrent.peers piece = 0) := by
    intro piece
    rw [Bool.eq_iff_iff, decide_eq_true_eq, peersWith, List.countP_eq_zero, Bool.not_eq_true',
      List.any_eq_false]
  have missing : ((List.range bittorrent.metainfo.pieces).countP fun piece =>
      !(bittorrent.cache.entry piece).completed &&
        !bittorrent.peers.any fun peer => testBitfieldBit peer.bitfield piece) =
      unavailableCount bittorrent.metainfo bittorrent.cache (peersWith bittorrent.peers) := by
    refine List.countP_congr fun piece _ => ?_
    rw [nobody]
    exact Iff.rfl
  have most := unavailableCount_le bittorrent.metainfo bittorrent.cache
    (peersWith bittorrent.peers)
  have small := pieces_lt bittorrent.metainfo
  obtain ⟨stages, pieces⟩ := record.recorded
  have completed := pieces.table.count_le .completed
  rw [← pieces.table.completedPieces] at completed
  have positive := bittorrent.metainfo.piecesPositive
  have bound : unavailableDebt resumeFd bittorrent < 2 ^ 32 := by
    simp only [unavailableDebt]
    split
    · omega
    · split <;> omega
  have agrees : RarityAgrees bittorrent ↔ unavailableDebt resumeFd bittorrent = 0 := by
    rw [← moveCounter_debt (show unavailableCount bittorrent.metainfo bittorrent.cache
      (peersWith bittorrent.peers) < 2 ^ 32 by omega) bound, ← record.index.unavailable, ← missing]
    exact ⟨fun agree => agree.unavailable, fun equal => ⟨fun piece _ => record.index.rarity piece, equal⟩⟩
  rw [agrees, unavailableDebt]
  split
  · rename_i never
    constructor
    · omega
    · exact fun both => absurd never both.1
  · rename_i started
    split
    · rename_i ended
      exact ⟨fun _ => ⟨started, .inl ended⟩, fun _ => rfl⟩
    · rename_i resuming
      constructor
      · exact fun none => ⟨started, .inr (by omega)⟩
      · intro both
        have all := both.2.resolve_left resuming
        omega

def offeringEvents : List BittorrentEvent :=
  [.resume [0], .resume [], .connect,
    .receive 0
      (composeBittorrentPeerMessage (initBitfield 1) ⟨0, 0, 0, 0, .haveMessage, false, false⟩ [])
      ⟨⟨fun _ => noFileAnswer, 0⟩, fun _ => 0⟩]

theorem rarityAgrees_iff_have :
    ∃ bittorrent,
      Run.run (bittorrentStep (defaultBittorrentOptions id))
          (initBittorrentPieceCache (singlePiece 1 (by decide) (by decide)) 3) offeringEvents =
        some bittorrent ∧
      (RarityAgrees bittorrent ↔ (3 : Int) ≠ -1 ∧
        (bittorrent.cache.resumeFd = -1 ∨
          bittorrent.cache.completedPieces = bittorrent.metainfo.pieces)) := by
  have room : Run.Admitted (bittorrentStep (defaultBittorrentOptions id)) RoomForPeer
      (initBittorrentPieceCache (singlePiece 1 (by decide) (by decide)) 3) offeringEvents := by
    refine ⟨by simp [RoomForPeer], fun first resumed => ⟨by simp [RoomForPeer], fun second ended =>
      ⟨fun _ => ?_, fun third connected => ⟨by simp [RoomForPeer], fun _ _ => trivial⟩⟩⟩⟩
    rw [← Option.some.inj resumed] at ended
    rw [← Option.some.inj ended]
    decide +kernel
  have ends : (Run.run (bittorrentStep (defaultBittorrentOptions id))
      (initBittorrentPieceCache (singlePiece 1 (by decide) (by decide)) 3)
      offeringEvents).isSome = true := by
    decide +kernel
  obtain ⟨bittorrent, reached⟩ := Option.isSome_iff_exists.mp ends
  exact ⟨bittorrent, reached, rarityAgrees_iff room reached⟩

/-- Without a resume thread no piece is ever counted as unavailable at the start. -/
theorem rarityAgrees_unresumed :
    (initBittorrentPieceCache (singlePiece 1 (by decide) (by decide)) (-1)).cache.unavailablePieces =
        0 ∧
      ¬RarityAgrees (initBittorrentPieceCache (singlePiece 1 (by decide) (by decide)) (-1)) := by
  refine ⟨by decide +kernel, fun agree => ?_⟩
  have unavailable := agree.unavailable
  revert unavailable
  decide +kernel

end KcnTools.Bittorrent
