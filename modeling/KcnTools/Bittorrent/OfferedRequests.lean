import KcnTools.Bittorrent.RemoteView

/-!
A peer is only asked for pieces that it says it has, and until it has said something it
has none.
-/

namespace KcnTools.Bittorrent

open Modify

variable {options : BittorrentOptions} {pieces : Nat}

structure SoundPeer (pieces : Nat) (peer : BittorrentPeerConnection) : Prop where
  bitsize : peer.bitfield.bitsize = pieces
  silent : peer.remoteStatus.bitfield = false →
    ∀ piece, testBitfieldBit peer.bitfield piece = false
  offered : ∀ request ∈ peer.localStatus.requests,
    testBitfieldBit peer.bitfield request.piece = true

def SoundPeers (bittorrent : BittorrentConnection) : Prop :=
  ∀ peer ∈ bittorrent.peers, SoundPeer bittorrent.metainfo.pieces peer

/-- The peer has the same pieces and is asked for no other piece than before. -/
structure LessAsked (before after : BittorrentPeerConnection) : Prop where
  bitfield : after.bitfield = before.bitfield
  greeted : before.remoteStatus.bitfield = true → after.remoteStatus.bitfield = true
  requests : ∀ request ∈ after.localStatus.requests,
    ∃ earlier ∈ before.localStatus.requests, request.piece = earlier.piece

theorem LessAsked.refl (peer : BittorrentPeerConnection) : LessAsked peer peer :=
  ⟨rfl, id, fun request member => ⟨request, member, rfl⟩⟩

theorem LessAsked.trans {first second third : BittorrentPeerConnection}
    (earlier : LessAsked first second) (later : LessAsked second third) : LessAsked first third where
  bitfield := later.bitfield.trans earlier.bitfield
  greeted set := later.greeted (earlier.greeted set)
  requests request member := by
    obtain ⟨middle, found, same⟩ := later.requests request member
    obtain ⟨oldest, there, equal⟩ := earlier.requests middle found
    exact ⟨oldest, there, same.trans equal⟩

theorem LessAsked.of_sublist {before after : BittorrentPeerConnection}
    (bitfield : after.bitfield = before.bitfield)
    (greeted : after.remoteStatus.bitfield = before.remoteStatus.bitfield)
    (requests : after.localStatus.requests ⊆ before.localStatus.requests) :
    LessAsked before after :=
  ⟨bitfield, fun set => greeted.trans set, fun request member => ⟨request, requests member, rfl⟩⟩

theorem QuietPeer.lessAsked {before after : BittorrentPeerConnection}
    (quiet : QuietPeer before after) : LessAsked before after where
  bitfield := quiet.bitfield
  greeted := quiet.greeted
  requests request member := by
    have claimed : blockClaim request ∈ before.localStatus.requests.map blockClaim := by
      rw [← quiet.requests]
      exact List.mem_map_of_mem member
    obtain ⟨earlier, there, same⟩ := List.mem_map.mp claimed
    exact ⟨earlier, there, (congrArg BlockClaim.piece same).symm⟩

theorem SoundPeer.less {before after : BittorrentPeerConnection} (sound : SoundPeer pieces before)
    (less : LessAsked before after) : SoundPeer pieces after where
  bitsize := by rw [less.bitfield, sound.bitsize]
  silent quiet piece := by
    rw [less.bitfield]
    refine sound.silent ?_ piece
    by_contra greeted
    rw [Bool.not_eq_false] at greeted
    rw [less.greeted greeted] at quiet
    exact absurd quiet (by decide)
  offered request member := by
    obtain ⟨earlier, there, same⟩ := less.requests request member
    rw [less.bitfield, same]
    exact sound.offered earlier there

def LessAskedPeers (before after : List BittorrentPeerConnection) : Prop :=
  ∀ peer ∈ after, ∃ earlier ∈ before, LessAsked earlier peer

theorem LessAskedPeers.of_subset {before after : List BittorrentPeerConnection}
    (subset : after ⊆ before) : LessAskedPeers before after :=
  fun peer member => ⟨peer, subset member, LessAsked.refl peer⟩

theorem LessAskedPeers.trans {first second third : List BittorrentPeerConnection}
    (earlier : LessAskedPeers first second) (later : LessAskedPeers second third) :
    LessAskedPeers first third := by
  intro peer member
  obtain ⟨middle, found, less⟩ := later peer member
  obtain ⟨oldest, there, lesser⟩ := earlier middle found
  exact ⟨oldest, there, lesser.trans less⟩

theorem LessAskedPeers.modify (peers : List BittorrentPeerConnection) (index : Nat)
    {change : BittorrentPeerConnection → BittorrentPeerConnection}
    (less : ∀ peer, LessAsked peer (change peer)) :
    LessAskedPeers peers (peers.modify index change) := by
  intro peer member
  rcases mem_modify member with kept | ⟨earlier, there, changed⟩
  · exact ⟨peer, kept, LessAsked.refl peer⟩
  · rw [changed]
    exact ⟨earlier, List.mem_of_getElem? there, less earlier⟩

theorem SoundPeers.less {before after : BittorrentConnection} (sound : SoundPeers before)
    (metainfo : after.metainfo = before.metainfo)
    (less : LessAskedPeers before.peers after.peers) : SoundPeers after := by
  intro peer member
  obtain ⟨earlier, there, lesser⟩ := less peer member
  rw [metainfo]
  exact (sound earlier there).less lesser

theorem clearFirst_mem {matched : BittorrentPeerRequest → Bool}
    {requests : List BittorrentPeerRequest} {request : BittorrentPeerRequest}
    (member : request ∈ clearFirst matched requests) :
    ∃ earlier ∈ requests, request.piece = earlier.piece := by
  induction requests with
  | nil => simp [clearFirst] at member
  | cons first rest ih =>
      simp only [clearFirst] at member
      split at member
      · rcases List.mem_cons.mp member with cleared | later
        · exact ⟨first, List.mem_cons_self, by rw [cleared]⟩
        · exact ⟨request, List.mem_cons_of_mem first later, rfl⟩
      · rcases List.mem_cons.mp member with same | later
        · exact ⟨first, List.mem_cons_self, by rw [same]⟩
        · obtain ⟨earlier, there, piece⟩ := ih later
          exact ⟨earlier, List.mem_cons_of_mem first there, piece⟩

theorem clearClone_lessAsked (request : BittorrentPeerRequest) (peer : BittorrentPeerConnection) :
    LessAsked peer (clearClone request peer) :=
  ⟨rfl, id, fun _ member => clearFirst_mem member⟩

theorem addRequest_lessAsked (bittorrent : BittorrentConnection) (request : BittorrentPeerRequest) :
    LessAskedPeers bittorrent.peers
      (addRequestToBittorrentPieceCache bittorrent request).peers := by
  simp only [addRequestToBittorrentPieceCache, clearClonedBittorrentPeerRequest]
  split
  · exact .of_subset fun _ => id
  · split
    · exact .of_subset fun _ => id
    · exact LessAskedPeers.modify _ _ (clearClone_lessAsked request)

theorem addRequests_lessAsked (requests : List BittorrentPeerRequest)
    (bittorrent : BittorrentConnection) :
    LessAskedPeers bittorrent.peers
      (requests.foldl addRequestToBittorrentPieceCache bittorrent).peers := by
  induction requests generalizing bittorrent with
  | nil => exact .of_subset fun _ => id
  | cons request rest ih => exact (addRequest_lessAsked bittorrent request).trans (ih _)

theorem leave_lessAsked (bittorrent : BittorrentConnection) (index : Nat) :
    LessAskedPeers bittorrent.peers (doneBittorrentPeerConnection bittorrent index).peers := by
  simp only [doneBittorrentPeerConnection]
  split
  · exact .of_subset fun _ => id
  · rename_i peer _
    have removed : LessAskedPeers bittorrent.peers (bittorrent.peers.eraseIdx index) :=
      .of_subset List.eraseIdx_subset
    exact removed.trans (addRequests_lessAsked peer.localStatus.requests
      { bittorrent with peers := bittorrent.peers.eraseIdx index })

theorem eraseRequest_lessAsked (peer : BittorrentPeerConnection)
    (matched : BittorrentPeerRequest → Bool) :
    LessAsked peer { peer with localStatus.requests := peer.localStatus.requests.eraseP matched } :=
  .of_sublist rfl rfl List.eraseP_subset

theorem cancelCloned_lessAsked (peers : List BittorrentPeerConnection)
    (request : BittorrentPeerRequest) :
    LessAskedPeers peers (cancelClonedBittorrentPeerRequests peers request) := by
  intro peer member
  obtain ⟨earlier, there, rfl⟩ := List.mem_map.mp member
  refine ⟨earlier, there, ?_⟩
  split
  · exact LessAsked.refl earlier
  · rename_i clone _
    refine LessAsked.trans ?_ (eraseRequest_lessAsked _ _)
    split
    · exact .of_sublist rfl rfl fun _ => id
    · exact LessAsked.refl earlier

theorem receiveBlock_lessAsked (bittorrent : BittorrentConnection) (index : Nat)
    (request : BittorrentPeerRequest) (data : List UInt8) :
    LessAskedPeers bittorrent.peers (receiveBlock bittorrent index request data).peers := by
  have removed := LessAskedPeers.modify bittorrent.peers index
    fun peer => eraseRequest_lessAsked peer
      (isRequestFor request.piece request.offset request.length)
  simp only [receiveBlock]
  split
  · exact removed.trans (cancelCloned_lessAsked _ request)
  · exact removed

theorem clone_lessAsked (bittorrent : BittorrentConnection) (place : Nat × Nat) :
    LessAskedPeers bittorrent.peers (cloneBittorrentPeerRequest bittorrent place).1.peers := by
  simp only [cloneBittorrentPeerRequest]
  split
  · exact .of_subset fun _ => id
  · refine LessAskedPeers.modify _ _ fun peer => ⟨rfl, id, fun request member => ?_⟩
    rcases mem_modify member with kept | ⟨earlier, there, changed⟩
    · exact ⟨request, kept, rfl⟩
    · exact ⟨earlier, List.mem_of_getElem? there, by rw [changed]⟩

theorem clone_offered {bittorrent : BittorrentConnection} {peer : BittorrentPeerConnection}
    {place : Nat × Nat} {request : BittorrentPeerRequest}
    (found : findClonableBittorrentPeerRequest bittorrent.peers peer = some place)
    (cloned : (cloneBittorrentPeerRequest bittorrent place).2 = some request) :
    testBitfieldBit peer.bitfield request.piece = true := by
  obtain ⟨active, original, here, there, clonable⟩ := findClonableBittorrentPeerRequest_spec found
  simp only [cloneBittorrentPeerRequest, here, there, Option.bind_some] at cloned
  rw [← Option.some.inj cloned]
  simp only [isClonable, Bool.and_eq_true] at clonable
  exact clonable.1.1

theorem clone_bitfield {bittorrent : BittorrentConnection} {place : Nat × Nat} {index : Nat}
    {peer cloning : BittorrentPeerConnection} (here : bittorrent.peers[index]? = some peer)
    (there : (cloneBittorrentPeerRequest bittorrent place).1.peers[index]? = some cloning) :
    cloning.bitfield = peer.bitfield := by
  have views := remoteViews_clone bittorrent place
  have same := congrArg (fun views : List RemoteView => views[index]?) views
  simp only [remoteViews, List.getElem?_map, here, there, Option.map_some, Option.some.injEq] at same
  exact congrArg RemoteView.bitfield same

theorem SoundPeer.append {peer : BittorrentPeerConnection} (sound : SoundPeer pieces peer)
    {request : BittorrentPeerRequest} (offered : testBitfieldBit peer.bitfield request.piece = true) :
    SoundPeer pieces (appendRequest request peer) where
  bitsize := sound.bitsize
  silent := sound.silent
  offered other member := by
    rcases List.mem_append.mp member with earlier | added
    · exact sound.offered other earlier
    · rw [List.mem_singleton.mp added]
      exact offered

theorem SoundPeers.modify {bittorrent : BittorrentConnection} (sound : SoundPeers bittorrent)
    {index : Nat} {change : BittorrentPeerConnection → BittorrentPeerConnection}
    (changed : ∀ peer, bittorrent.peers[index]? = some peer →
      SoundPeer bittorrent.metainfo.pieces peer →
      SoundPeer bittorrent.metainfo.pieces (change peer)) :
    SoundPeers (bittorrent.modifyPeer index change) := by
  intro peer member
  rcases mem_modify member with kept | ⟨earlier, there, equal⟩
  · exact sound peer kept
  · rw [equal]
    exact changed earlier there (sound earlier (List.mem_of_getElem? there))

theorem SoundPeers.step {before after : BittorrentConnection}
    (step : BittorrentTransition options before after) (sound : SoundPeers before) :
    SoundPeers after := by
  have metainfo := step.metainfo_eq
  cases step with
  | quiet same =>
      refine sound.less metainfo fun peer member => ?_
      obtain ⟨earlier, there, quiet⟩ := forall₂_mem_right same.peers member
      exact ⟨earlier, there, quiet.lessAsked⟩
  | sort sorted => exact sound.less metainfo (.of_subset sorted.subset)
  | leave index => exact sound.less metainfo (leave_lessAsked before index)
  | store data => exact sound.less metainfo (receiveBlock_lessAsked before _ _ data)
  | reject data => exact sound.less metainfo (receiveBlock_lessAsked before _ _ data)
  | complete data => exact sound.less metainfo (receiveBlock_lessAsked before _ _ data)
  | requeue =>
      refine sound.less metainfo (LessAskedPeers.trans ?_ (addRequest_lessAsked _ _))
      exact LessAskedPeers.modify before.peers _ fun peer => .of_sublist rfl rfl (List.tail_sublist _).subset
  | serve =>
      refine sound.less metainfo (LessAskedPeers.modify before.peers _ fun peer => ?_)
      refine ⟨rfl, fun greeted => ?_, fun request member => ⟨request, member, rfl⟩⟩
      simp only [addBittorrentPeerRequest]
      split <;> exact greeted
  | take here found =>
      refine SoundPeers.modify sound fun peer there earlier => earlier.append ?_
      rw [Option.some.inj (there.symm.trans here)]
      exact (findBittorrentFreeListPeerRequest_spec found).1
  | clone here found cloned =>
      have asked : SoundPeers (cloneBittorrentPeerRequest before _).1 :=
        sound.less metainfo (clone_lessAsked before _)
      refine SoundPeers.modify asked fun peer there earlier => earlier.append ?_
      rw [clone_bitfield here there]
      exact clone_offered found cloned
  | split here remaining offered last =>
      refine SoundPeers.modify sound fun peer there earlier => earlier.append ?_
      have piece := pieceRequests_piece (List.mem_of_getLast? last)
      rw [piece, Option.some.inj (there.symm.trans here)]
      exact offered
  | haveMessage here inside fresh =>
      refine SoundPeers.modify sound fun peer there earlier => ⟨?_, ?_, fun request member => ?_⟩
      · rw [setBitfieldBit_bitsize, earlier.bitsize]
      · simp
      · rw [testBitfieldBit_set, earlier.offered request member, Bool.true_or]
  | bitfield here fresh =>
      refine SoundPeers.modify sound fun peer there earlier => ⟨?_, ?_, fun request member => ?_⟩
      · rw [copyBitfield_bitsize, (sound _ (List.mem_of_getElem? here)).bitsize]
      · simp
      · have same := Option.some.inj (there.symm.trans here)
        have unheard := earlier.silent (by rw [same]; exact fresh) request.piece
        rw [earlier.offered request member] at unheard
        exact absurd unheard (by decide)
  | skipped | resumed => exact sound
  | ended resuming position =>
      refine sound.less metainfo fun peer member => ?_
      have quiet := handleBittorrentModeChanges_quiet options
        (preparePartialBittorrentDownload (doneBittorrentResume
          { before with cache := { before.cache with resumePos := position } }))
      obtain ⟨earlier, there, same⟩ := forall₂_mem_right quiet.peers member
      exact ⟨earlier, there, same.lessAsked⟩

theorem SoundPeers.connect {before : BittorrentConnection} (sound : SoundPeers before) :
    SoundPeers (connectPeer before) := by
  intro peer member
  rcases List.mem_cons.mp member with new | earlier
  · rw [new]
    exact ⟨rfl, fun _ piece => testBitfieldBit_init _ piece, by simp [newPeer]⟩
  · exact sound peer earlier

end KcnTools.Bittorrent
