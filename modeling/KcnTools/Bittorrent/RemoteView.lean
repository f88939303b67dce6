import KcnTools.Bittorrent.EventSteps

/-! What a peer has told about itself and asked for, and the changes that leave it alone. -/

namespace KcnTools.Bittorrent

open Modify

structure RemoteView where
  bitfield : Bitfield
  serving : List BittorrentPeerRequest
  greeted : Bool

def remoteView (peer : BittorrentPeerConnection) : RemoteView :=
  ⟨peer.bitfield, peer.remoteStatus.requests, peer.remoteStatus.bitfield⟩

def remoteViews (bittorrent : BittorrentConnection) : List RemoteView :=
  bittorrent.peers.map remoteView

variable {options : BittorrentOptions}

theorem remoteViews_modifyPeer (bittorrent : BittorrentConnection) (index : Nat)
    {change : BittorrentPeerConnection → BittorrentPeerConnection}
    (same : ∀ peer, remoteView (change peer) = remoteView peer) :
    remoteViews (bittorrent.modifyPeer index change) = remoteViews bittorrent :=
  map_modify_of_eq bittorrent.peers index same

@[simp] theorem remoteViews_appendRequest (bittorrent : BittorrentConnection) (index : Nat)
    (request : BittorrentPeerRequest) :
    remoteViews (bittorrent.modifyPeer index (appendRequest request)) = remoteViews bittorrent :=
  remoteViews_modifyPeer bittorrent index fun _ => rfl

@[simp] theorem remoteViews_dropFirstRequest (bittorrent : BittorrentConnection) (index : Nat) :
    remoteViews (bittorrent.modifyPeer index dropFirstRequest) = remoteViews bittorrent :=
  remoteViews_modifyPeer bittorrent index fun _ => rfl

theorem clearClonedBittorrentPeerRequest_map {β : Type} {view : BittorrentPeerConnection → β}
    (peers : List BittorrentPeerConnection) (request : BittorrentPeerRequest)
    (same : ∀ peer, view (clearClone request peer) = view peer) :
    (clearClonedBittorrentPeerRequest peers request).map view = peers.map view := by
  simp only [clearClonedBittorrentPeerRequest]
  split
  · rfl
  · exact map_modify_of_eq peers _ same

@[simp] theorem remoteViews_addRequest (bittorrent : BittorrentConnection)
    (request : BittorrentPeerRequest) :
    remoteViews (addRequestToBittorrentPieceCache bittorrent request) = remoteViews bittorrent := by
  simp only [addRequestToBittorrentPieceCache]
  split
  · rfl
  · exact clearClonedBittorrentPeerRequest_map _ _ fun _ => rfl

@[simp] theorem remoteViews_addRequests (requests : List BittorrentPeerRequest)
    (bittorrent : BittorrentConnection) :
    remoteViews (requests.foldl addRequestToBittorrentPieceCache bittorrent) =
      remoteViews bittorrent := by
  induction requests generalizing bittorrent with
  | nil => rfl
  | cons request rest ih => rw [List.foldl_cons, ih, remoteViews_addRequest]

@[simp] theorem remoteViews_clone (bittorrent : BittorrentConnection) (place : Nat × Nat) :
    remoteViews (cloneBittorrentPeerRequest bittorrent place).1 = remoteViews bittorrent := by
  simp only [cloneBittorrentPeerRequest]
  split
  · rfl
  · exact remoteViews_modifyPeer _ _ fun _ => rfl

theorem remoteView_cancelled (peer : BittorrentPeerConnection) (clone : BittorrentPeerRequest)
    (cancels : Bool) :
    remoteView (if cancels then cancelBittorrentPeerRequest peer clone else peer) =
      remoteView peer := by
  cases cancels <;> rfl

@[simp] theorem remoteViews_receiveBlock (bittorrent : BittorrentConnection) (index : Nat)
    (request : BittorrentPeerRequest) (data : List UInt8) :
    remoteViews (receiveBlock bittorrent index request data) = remoteViews bittorrent := by
  have removed : remoteViews ((updateBittorrentConnectionStats
      { bittorrent with
        cache := bittorrent.cache.modifyEntry request.piece fun entry =>
          storeBlock entry (getBittorrentPieceLength bittorrent.metainfo request.piece) request.block
            request.offset data } request.length 0 0).modifyPeer index fun peer =>
        { peer with
          localStatus.requests := peer.localStatus.requests.eraseP
            (isRequestFor request.piece request.offset request.length) }) =
      remoteViews bittorrent :=
    remoteViews_modifyPeer _ _ fun _ => rfl
  simp only [receiveBlock]
  split
  · rw [← removed, remoteViews, cancelClonedBittorrentPeerRequests, List.map_map]
    refine List.map_congr_left fun peer _ => ?_
    simp only [Function.comp_apply]
    split
    · rfl
    · rename_i clone _
      exact remoteView_cancelled peer clone clone.requested
  · exact removed

@[simp] theorem remoteViews_rejectPiece (bittorrent : BittorrentConnection) (piece : Nat) :
    remoteViews (rejectPiece (dropBlocks bittorrent piece) piece) = remoteViews bittorrent := rfl

@[simp] theorem remoteViews_fillPiece (bittorrent : BittorrentConnection) (piece : Nat) :
    remoteViews (fillPiece bittorrent piece) = remoteViews bittorrent := rfl

theorem remoteViews_leave (bittorrent : BittorrentConnection) (index : Nat) :
    remoteViews (doneBittorrentPeerConnection bittorrent index) =
      (remoteViews bittorrent).eraseIdx index := by
  simp only [doneBittorrentPeerConnection]
  split
  · rename_i missing
    rw [remoteViews, List.eraseIdx_of_length_le]
    rw [List.length_map]
    exact List.getElem?_eq_none_iff.mp missing
  · rename_i peer here
    change remoteViews (peer.localStatus.requests.foldl addRequestToBittorrentPieceCache _) = _
    rw [remoteViews_addRequests, remoteViews, remoteViews, List.eraseIdx_map]

theorem remoteViews_setNotInterested (peers : List BittorrentPeerConnection) :
    (peers.map setBittorrentPeerNotInterested).map remoteView = peers.map remoteView := by
  rw [List.map_map]
  refine List.map_congr_left fun peer _ => ?_
  simp only [Function.comp_apply, setBittorrentPeerNotInterested]
  split <;> rfl

@[simp] theorem remoteViews_handleBittorrentModeChanges (options : BittorrentOptions)
    (bittorrent : BittorrentConnection) :
    remoteViews (handleBittorrentModeChanges options bittorrent) = remoteViews bittorrent := by
  simp only [handleBittorrentModeChanges]
  split
  · exact remoteViews_setNotInterested _
  · split <;> rfl

@[simp] theorem remoteViews_endBittorrentResume (options : BittorrentOptions)
    (bittorrent : BittorrentConnection) :
    remoteViews (endBittorrentResume options bittorrent) = remoteViews bittorrent :=
  remoteViews_handleBittorrentModeChanges options _

theorem addRequests_metainfo (requests : List BittorrentPeerRequest)
    (bittorrent : BittorrentConnection) :
    (requests.foldl addRequestToBittorrentPieceCache bittorrent).metainfo = bittorrent.metainfo := by
  induction requests generalizing bittorrent with
  | nil => rfl
  | cons request rest ih =>
      rw [List.foldl_cons, ih, addRequestToBittorrentPieceCache]
      split <;> rfl

theorem BittorrentTransition.metainfo_eq {before after : BittorrentConnection}
    (step : BittorrentTransition options before after) : after.metainfo = before.metainfo := by
  cases step with
  | quiet same => exact same.metainfo
  | clone =>
      simp only [cloneBittorrentPeerRequest]
      split <;> rfl
  | requeue =>
      simp only [addRequestToBittorrentPieceCache]
      split <;> rfl
  | leave =>
      simp only [doneBittorrentPeerConnection]
      split
      · rfl
      · exact addRequests_metainfo _ _
  | store =>
      simp only [receiveBlock]
      split <;> rfl
  | reject =>
      simp only [rejectPiece, updateBittorrentConnectionStats, dropBlocks, receiveBlock]
      split <;> rfl
  | complete =>
      simp only [fillPiece, dropBlocks, receiveBlock]
      split <;> rfl
  | ended => exact (handleBittorrentModeChanges_quiet options _).metainfo
  | _ => rfl

theorem BittorrentTransition.peers_length_le {before after : BittorrentConnection}
    (step : BittorrentTransition options before after) :
    after.peers.length ≤ before.peers.length := by
  have views : ∀ bittorrent : BittorrentConnection,
      bittorrent.peers.length = (remoteViews bittorrent).length := by simp [remoteViews]
  rw [views, views]
  cases step with
  | quiet same => rw [← views, ← views, same.peers.length_eq]
  | sort sorted => rw [← views, ← views, sorted.length_eq]
  | leave index =>
      rw [remoteViews_leave]
      exact List.length_eraseIdx_le _ _
  | haveMessage | bitfield | serve =>
      rw [← views, ← views]
      exact Nat.le_of_eq (List.length_modify _ _ _)
  | take | split =>
      rw [remoteViews_appendRequest]
      exact Nat.le_refl _
  | clone => simp
  | requeue => simp
  | store => simp
  | reject => simp
  | complete => simp
  | ended =>
      rw [remoteViews_endBittorrentResume]
      exact Nat.le_refl _
  | skipped | resumed => exact Nat.le_refl _

end KcnTools.Bittorrent
