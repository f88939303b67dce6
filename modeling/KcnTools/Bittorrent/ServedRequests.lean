import KcnTools.Bittorrent.RemoteView
import KcnTools.Bittorrent.PeerCodec
import Mathlib

/-! The blocks that peers ask for, and whether serving them stays inside the piece. -/

namespace KcnTools.Bittorrent

open Modify

variable {options : BittorrentOptions}

/-- Every block a peer waits for was asked for by a message that passed the checks. -/
def OnlyAccepted (options : BittorrentOptions) (bittorrent : BittorrentConnection) : Prop :=
  ∀ view ∈ remoteViews bittorrent, ∀ request ∈ view.serving,
    AcceptedRequest options bittorrent.metainfo request

theorem AcceptedRequest.congr {metainfo : BittorrentMeta} {earlier request : BittorrentPeerRequest}
    (accepted : AcceptedRequest options metainfo earlier)
    (same : request.piece = earlier.piece ∧ request.offset = earlier.offset ∧
      request.length = earlier.length) : AcceptedRequest options metainfo request := by
  obtain ⟨piece, offset, length⟩ := same
  constructor
  · rw [piece]
    exact accepted.piece
  · rw [piece, offset, length]
    exact accepted.sum
  · rw [length]
    exact accepted.length
  · rw [offset]
    exact accepted.offset

theorem OnlyAccepted.of_views {before after : BittorrentConnection}
    (holds : OnlyAccepted options before) (metainfo : after.metainfo = before.metainfo)
    (views : ∀ view ∈ remoteViews after, ∀ request ∈ view.serving,
      ∃ earlier ∈ remoteViews before, ∃ old ∈ earlier.serving,
        request.piece = old.piece ∧ request.offset = old.offset ∧ request.length = old.length) :
    OnlyAccepted options after := by
  intro view member request asked
  obtain ⟨earlier, present, old, waiting, same⟩ := views view member request asked
  rw [metainfo]
  exact (holds earlier present old waiting).congr same

theorem OnlyAccepted.of_subset {before after : BittorrentConnection}
    (holds : OnlyAccepted options before) (metainfo : after.metainfo = before.metainfo)
    (views : remoteViews after ⊆ remoteViews before) : OnlyAccepted options after :=
  holds.of_views metainfo fun view member request asked =>
    ⟨view, views member, request, asked, rfl, rfl, rfl⟩

theorem OnlyAccepted.quiet {before after : BittorrentConnection}
    (holds : OnlyAccepted options before) (same : Quiet before after) :
    OnlyAccepted options after := by
  refine holds.of_views same.metainfo fun view member request asked => ?_
  obtain ⟨peer, present, rfl⟩ := List.mem_map.mp member
  obtain ⟨earlier, there, quiet⟩ := forall₂_mem_right same.peers present
  obtain ⟨old, waiting, fields⟩ := quiet.serving request asked
  exact ⟨remoteView earlier, List.mem_map_of_mem there, old, waiting, fields⟩

theorem acceptedRequest_of_valid {bittorrent : BittorrentConnection}
    {peer : BittorrentPeerConnection} {fields : PeerMessageFields}
    (valid : isIgnoredRequest bittorrent peer fields = false)
    (granted : fields.length ≤ options.maxRequestLength) (small : fields.offset < 2 ^ 32) :
    AcceptedRequest options bittorrent.metainfo
      ⟨fields.piece, fields.offset, fields.length, 0, .choke, false, false⟩ := by
  simp only [isIgnoredRequest, Bool.or_eq_false_iff, decide_eq_false_iff_not, Nat.not_le,
    Nat.not_lt] at valid
  exact ⟨valid.1.1.2, valid.1.2, granted, small⟩

theorem OnlyAccepted.serve {before : BittorrentConnection} (index : Nat)
    {peer : BittorrentPeerConnection} {fields : PeerMessageFields}
    (holds : OnlyAccepted options before)
    (valid : isIgnoredRequest before peer fields = false)
    (granted : fields.length ≤ options.maxRequestLength) (small : fields.offset < 2 ^ 32) :
    OnlyAccepted options
      (before.modifyPeer index fun peer =>
        { peer with
          remoteStatus := addBittorrentPeerRequest peer.remoteStatus fields.piece fields.offset
            fields.length }) := by
  intro view member request asked
  obtain ⟨after, present, rfl⟩ := List.mem_map.mp member
  rcases mem_modify present with kept | ⟨old, there, changed⟩
  · exact holds _ (List.mem_map_of_mem kept) request asked
  · have still := holds _ (List.mem_map_of_mem (List.mem_of_getElem? there))
    rw [changed] at asked
    simp only [remoteView, addBittorrentPeerRequest] at asked
    split at asked
    · exact still request asked
    · rcases List.mem_append.mp asked with waiting | added
      · exact still request waiting
      · rw [List.mem_singleton.mp added]
        exact acceptedRequest_of_valid valid granted small

theorem OnlyAccepted.step {before after : BittorrentConnection}
    (step : BittorrentTransition options before after) (holds : OnlyAccepted options before) :
    OnlyAccepted options after := by
  have metainfo := step.metainfo_eq
  cases step with
  | quiet same => exact holds.quiet same
  | sort sorted =>
      exact holds.of_subset metainfo (List.map_subset remoteView sorted.subset)
  | serve here valid granted small => exact holds.serve _ valid granted small
  | leave index =>
      refine holds.of_subset metainfo ?_
      rw [remoteViews_leave]
      exact List.eraseIdx_subset
  | haveMessage | bitfield =>
      refine holds.of_views metainfo fun view member request asked => ?_
      obtain ⟨after, present, rfl⟩ := List.mem_map.mp member
      rcases mem_modify present with kept | ⟨old, there, changed⟩
      · exact ⟨_, List.mem_map_of_mem kept, request, asked, rfl, rfl, rfl⟩
      · rw [changed] at asked
        exact ⟨_, List.mem_map_of_mem (List.mem_of_getElem? there), request, asked, rfl, rfl, rfl⟩
  | take =>
      refine holds.of_subset metainfo ?_
      rw [remoteViews_appendRequest]
      exact fun _ => id
  | clone =>
      refine holds.of_subset metainfo ?_
      rw [remoteViews_appendRequest, remoteViews_clone]
      exact fun _ => id
  | split =>
      refine holds.of_subset metainfo ?_
      rw [remoteViews_appendRequest]
      exact fun _ => id
  | requeue =>
      refine holds.of_subset metainfo ?_
      rw [remoteViews_addRequest, remoteViews_dropFirstRequest]
      exact fun _ => id
  | store =>
      refine holds.of_subset metainfo ?_
      rw [remoteViews_receiveBlock]
      exact fun _ => id
  | ended =>
      refine holds.of_subset metainfo ?_
      rw [remoteViews_endBittorrentResume]
      exact fun _ => id
  | reject =>
      refine holds.of_subset metainfo ?_
      rw [remoteViews_rejectPiece, remoteViews_receiveBlock]
      exact fun _ => id
  | complete =>
      refine holds.of_subset metainfo ?_
      rw [remoteViews_fillPiece, remoteViews_receiveBlock]
      exact fun _ => id
  | skipped | resumed => exact holds.of_subset metainfo fun _ => id

theorem OnlyAccepted.connect {before : BittorrentConnection} (holds : OnlyAccepted options before) :
    OnlyAccepted options (connectPeer before) := by
  intro view member request asked
  rcases List.mem_cons.mp member with same | earlier
  · subst same
    simp [remoteView, newPeer] at asked
  · exact holds view earlier request asked

theorem onlyAccepted_run {metainfo : BittorrentMeta} {resumeFd : Int}
    {events : List BittorrentEvent} {bittorrent : BittorrentConnection}
    (reached : Run.run (bittorrentStep options) (initBittorrentPieceCache metainfo resumeFd) events =
      some bittorrent) : OnlyAccepted options bittorrent := by
  refine Run.run_preserves (OnlyAccepted options) ?_ ?_
    (Run.admitted_of_forall (fun _ _ => trivial) _ events) reached
  · intro before event after holds _ stepped
    exact bittorrentStep_preserves (fun _ _ => OnlyAccepted.step) (fun _ _ => holds.connect)
      stepped holds
  · intro view member
    simp [remoteViews, initBittorrentPieceCache, updateBittorrentConnectionStats] at member

theorem metainfo_run {metainfo : BittorrentMeta} {resumeFd : Int} {events : List BittorrentEvent}
    {bittorrent : BittorrentConnection}
    (reached : Run.run (bittorrentStep options) (initBittorrentPieceCache metainfo resumeFd) events =
      some bittorrent) : bittorrent.metainfo = metainfo := by
  refine Run.run_preserves (fun state => state.metainfo = metainfo) ?_ rfl
    (Run.admitted_of_forall (fun _ _ => trivial) _ events) reached
  intro before event after holds _ stepped
  exact bittorrentStep_preserves (fun _ _ step same => step.metainfo_eq.trans same)
    (fun _ _ => holds) stepped holds

/-- The block of a request lies inside an existing piece, is no longer than the options grant, and so
is every byte that is read to serve it. -/
structure ServedInside (options : BittorrentOptions) (metainfo : BittorrentMeta)
    (request : BittorrentPeerRequest) : Prop where
  piece : request.piece < metainfo.pieces
  inside : request.offset + request.length ≤ getBittorrentPieceLength metainfo request.piece
  granted : request.length ≤ options.maxRequestLength
  read : ∀ position ∈ blockPositions request,
    position < getBittorrentPieceLength metainfo request.piece

theorem servedInside_iff {metainfo : BittorrentMeta} {request : BittorrentPeerRequest}
    (accepted : AcceptedRequest options metainfo request) :
    ServedInside options metainfo request ↔ request.offset + request.length < 2 ^ 32 := by
  have bound := getBittorrentPieceLength_lt metainfo request.piece
  constructor
  · intro served
    have inside := served.inside
    omega
  · intro small
    have inside : request.offset + request.length ≤
        getBittorrentPieceLength metainfo request.piece := by
      have sum := accepted.sum
      rwa [Nat.mod_eq_of_lt small] at sum
    refine ⟨accepted.piece, inside, accepted.length, fun position member => ?_⟩
    rw [blockPositions, List.mem_range'_1] at member
    omega

/-- Whatever bytes come from the peers, a request that waits to be served lies inside
its piece exactly when its end does not wrap around in 32 bits. -/
theorem servedRequest_inside_iff {metainfo : BittorrentMeta} {resumeFd : Int}
    {events : List BittorrentEvent} {bittorrent : BittorrentConnection}
    (reached : Run.run (bittorrentStep options) (initBittorrentPieceCache metainfo resumeFd) events =
      some bittorrent)
    {peer : BittorrentPeerConnection} (connected : peer ∈ bittorrent.peers)
    {request : BittorrentPeerRequest} (waiting : request ∈ peer.remoteStatus.requests) :
    ServedInside options metainfo request ↔ request.offset + request.length < 2 ^ 32 := by
  have accepted := onlyAccepted_run reached (remoteView peer) (List.mem_map_of_mem connected)
    request waiting
  rw [metainfo_run reached] at accepted
  exact servedInside_iff accepted

def seedingEvents (offset length : Nat) : List BittorrentEvent :=
  [.resume [1], .resume [], .connect, .unchoke 0,
    .receive 0
      (composeBittorrentPeerMessage (initBitfield 1) ⟨0, offset, length, 0, .request, false, false⟩ [])
      ⟨⟨fun _ => noFileAnswer, 0⟩, fun _ => 0⟩]

def servedAfter (events : List BittorrentEvent) : Option (List (List BittorrentPeerRequest)) :=
  (Run.run (bittorrentStep (defaultBittorrentOptions id))
    (initBittorrentPieceCache (singlePiece 1 Nat.one_pos oneByte_bound) 3) events).map fun bittorrent =>
      bittorrent.peers.map fun peer => peer.remoteStatus.requests

theorem servedRequest_inside_iff_byte :
    ∃ bittorrent peer request,
      Run.run (bittorrentStep (defaultBittorrentOptions id))
          (initBittorrentPieceCache (singlePiece 1 (by decide) (by decide)) 3) (seedingEvents 0 1) =
        some bittorrent ∧
      peer ∈ bittorrent.peers ∧ request ∈ peer.remoteStatus.requests ∧
      (ServedInside (defaultBittorrentOptions id) (singlePiece 1 (by decide) (by decide)) request ↔
        request.offset + request.length < 2 ^ 32) := by
  have served : servedAfter (seedingEvents 0 1) =
      some [[⟨0, 0, 1, 0, .choke, false, false⟩]] := by decide +kernel
  obtain ⟨bittorrent, reached, lists⟩ := Option.map_eq_some_iff.mp served
  have listed : [⟨0, 0, 1, 0, .choke, false, false⟩] ∈
      bittorrent.peers.map fun peer => peer.remoteStatus.requests := by
    rw [lists]
    exact List.mem_singleton_self _
  obtain ⟨peer, connected, requests⟩ := List.mem_map.mp listed
  have waiting : (⟨0, 0, 1, 0, .choke, false, false⟩ : BittorrentPeerRequest) ∈
      peer.remoteStatus.requests := by
    rw [requests]
    exact List.mem_singleton_self _
  exact ⟨bittorrent, peer, _, reached, connected, waiting,
    servedRequest_inside_iff reached connected waiting⟩

/-- One byte at the largest offset wraps around to 0 and is served. -/
theorem servedRequest_wraps :
    servedAfter (seedingEvents (2 ^ 32 - 1) 1) =
        some [[⟨0, 2 ^ 32 - 1, 1, 0, .choke, false, false⟩]] ∧
      ¬ServedInside (defaultBittorrentOptions id) (singlePiece 1 (by decide) (by decide))
        ⟨0, 2 ^ 32 - 1, 1, 0, .choke, false, false⟩ := by
  refine ⟨by decide +kernel, fun served => ?_⟩
  have inside := served.inside
  exact absurd inside (by decide)

end KcnTools.Bittorrent
