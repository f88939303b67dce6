import KcnTools.Bittorrent.Transitions

/-! Every event of a torrent, but for a new peer, is a sequence of elementary changes. -/

namespace KcnTools.Bittorrent

open Modify

variable {options : BittorrentOptions}

theorem BittorrentTransition.change {before after : BittorrentConnection}
    (step : BittorrentTransition options before after) : BittorrentChange options before after :=
  .single step

theorem BittorrentChange.refl (bittorrent : BittorrentConnection) :
    BittorrentChange options bittorrent bittorrent :=
  Relation.ReflTransGen.refl

theorem addRequestsToBittorrentPieceCache_change (index count : Nat)
    (bittorrent : BittorrentConnection) :
    BittorrentChange options bittorrent
      (addRequestsToBittorrentPieceCache index count bittorrent) := by
  induction count generalizing bittorrent with
  | zero => exact .refl bittorrent
  | succ count ih =>
      simp only [addRequestsToBittorrentPieceCache]
      split
      · exact .refl bittorrent
      · rename_i request found
        obtain ⟨peer, here, first⟩ := Option.bind_eq_some_iff.mp found
        exact (BittorrentTransition.requeue here first).change.trans (ih _)

theorem readChoke_change (bittorrent : BittorrentConnection) (index : Nat)
    (peer : BittorrentPeerConnection) :
    BittorrentChange options bittorrent (readChoke bittorrent index peer) := by
  have choked : Quiet bittorrent
      (bittorrent.modifyPeer index fun peer => { peer with localStatus.choked := true }) :=
    Quiet.modifyPeer bittorrent index fun peer _ => SameRecord.quiet ⟨rfl, rfl, rfl⟩ rfl
  have returned : BittorrentChange options _ _ := addRequestsToBittorrentPieceCache_change index
    peer.localStatus.requests.length
    (bittorrent.modifyPeer index fun peer => { peer with localStatus.choked := true })
  refine choked.change.trans (returned.trans (Quiet.change (Quiet.modifyPeer _ index ?_)))
  exact fun peer _ => SameRecord.quiet ⟨rfl, rfl, rfl⟩ rfl

theorem completePiece_change (write : BittorrentWrite) (bittorrent : BittorrentConnection)
    (piece : Nat) :
    Quiet { bittorrent with cache := setBittorrentPieceCacheCompleted bittorrent.cache piece }
      (completePiece options write bittorrent piece).1 := by
  have saved : QuietCache (setBittorrentPieceCacheCompleted bittorrent.cache piece)
      ((setBittorrentPieceCacheCompleted bittorrent.cache piece).modifyEntry piece fun _ =>
        (bittorrentFilePieceTranslation bittorrent.metainfo write.answer
          ((setBittorrentPieceCacheCompleted bittorrent.cache piece).entry piece) piece .write).2.1) :=
    QuietCache.setEntry _ piece (bittorrentFilePieceTranslation_sameProgress _ _ _ _ _)
  simp only [completePiece]
  split
  · exact ⟨rfl, setBittorrentPeerHave_quiet _ _, saved.setQueue _, QuietStats.refl _⟩
  · refine Quiet.trans ?_ (handleBittorrentModeChanges_quiet options _)
    exact ⟨rfl, setBittorrentPeerHave_quiet _ _, saved.setQueue _, QuietStats.refl _⟩

theorem addToBittorrentPieceCache_change (write : BittorrentWrite)
    (bittorrent : BittorrentConnection) (index piece offset length : Nat) (data : List UInt8) :
    BittorrentChange options bittorrent
      (addToBittorrentPieceCache options write bittorrent index piece offset length data).1 := by
  simp only [addToBittorrentPieceCache]
  split
  · exact .refl bittorrent
  · rename_i request pending
    split
    · rename_i unfinished
      exact (BittorrentTransition.store data pending (by simpa using unfinished)).change
    · rename_i complete
      have full : (((receiveBlock bittorrent index request data).cache.entry piece).blocks.map
          bitfieldIsSet).getD false = true := by simpa using complete
      cases loading : ((receiveBlock bittorrent index request data).cache.entry piece).blocks with
      | none => simp [loading] at full
      | some blocks =>
          rw [loading, Option.map_some, Option.getD_some] at full
          split
          · exact (BittorrentTransition.reject data pending loading full).change
          · exact (BittorrentTransition.complete data pending loading full).change.trans
              (completePiece_change write _ piece).change

def greetPeer (peer : BittorrentPeerConnection) : BittorrentPeerConnection :=
  { peer with remoteStatus.bitfield := true }

theorem greetPeer_quiet (peer : BittorrentPeerConnection) : QuietPeer peer (greetPeer peer) :=
  ⟨rfl, rfl, (QuietPeer.refl peer).serving, fun _ => rfl⟩

theorem greet_change {before after : BittorrentConnection}
    (change : BittorrentChange options before after) (index : Nat) :
    BittorrentChange options before (after.modifyPeer index greetPeer) :=
  change.trans (Quiet.modifyPeer after index fun peer _ => greetPeer_quiet peer).change

theorem recorded_quiet {peer : BittorrentPeerConnection} (bitfield : Bitfield) (wanted : Bool) :
    QuietPeer { peer with bitfield, remoteStatus.bitfield := true }
      (greetPeer (if wanted then
        setBittorrentPeerInterested
          { peer with bitfield, remoteStatus.seeder := bitfieldIsSet bitfield }
      else { peer with bitfield, remoteStatus.seeder := bitfieldIsSet bitfield })) := by
  have same : SameRecord { peer with bitfield, remoteStatus.seeder := bitfieldIsSet bitfield }
      (if wanted then
        setBittorrentPeerInterested
          { peer with bitfield, remoteStatus.seeder := bitfieldIsSet bitfield }
      else { peer with bitfield, remoteStatus.seeder := bitfieldIsSet bitfield }) := by
    split
    · exact setBittorrentPeerInterested_sameRecord _
    · exact SameRecord.refl _
  obtain ⟨kept, requests, serving⟩ := same
  refine ⟨kept, ?_, ?_, fun _ => rfl⟩
  · exact congrArg _ requests
  · intro request member
    have earlier : request ∈ peer.remoteStatus.requests := by
      rw [← serving]
      exact member
    exact ⟨request, earlier, rfl, rfl, rfl⟩

/-- A peer's record is set, and its flag after that, as one change of the peer. -/
theorem recorded_change {bittorrent : BittorrentConnection} {index : Nat}
    {peer : BittorrentPeerConnection} (here : bittorrent.peers[index]? = some peer)
    (cache : BittorrentPieceCache) (bitfield : Bitfield) (wanted : Bool)
    {change : BittorrentPeerConnection → BittorrentPeerConnection}
    (changed : change peer = { peer with bitfield, remoteStatus.bitfield := true }) :
    Quiet { bittorrent.modifyPeer index change with cache }
      (({ bittorrent.modifyPeer index fun _ =>
          if wanted then
            setBittorrentPeerInterested
              { peer with bitfield, remoteStatus.seeder := bitfieldIsSet bitfield }
          else { peer with bitfield, remoteStatus.seeder := bitfieldIsSet bitfield } with
          cache }).modifyPeer index greetPeer) := by
  refine ⟨rfl, ?_, QuietCache.refl cache, QuietStats.refl _⟩
  simp only [BittorrentConnection.modifyPeer, List.modify_modify_eq]
  refine forall₂_modify QuietPeer.refl _ index fun other found => ?_
  rw [here, Option.some.injEq] at found
  subst other
  rw [changed]
  exact recorded_quiet bitfield wanted

theorem readHave_change {bittorrent : BittorrentConnection} {index : Nat}
    {peer : BittorrentPeerConnection} (here : bittorrent.peers[index]? = some peer) (piece : Nat) :
    BittorrentChange options bittorrent
      ((readHave bittorrent index peer piece).modifyPeer index greetPeer) := by
  simp only [readHave]
  split
  · exact greet_change (.refl bittorrent) index
  · split
    · exact greet_change (.refl bittorrent) index
    · rename_i outside fresh
      have inside : piece < bittorrent.metainfo.pieces := by omega
      exact (BittorrentTransition.haveMessage here inside (by simpa using fresh)).change.trans
        (recorded_change here _ (setBitfieldBit peer.bitfield piece) _ rfl).change

theorem readBitfield_change {bittorrent : BittorrentConnection} {index : Nat}
    {peer : BittorrentPeerConnection} (here : bittorrent.peers[index]? = some peer)
    (bits : List UInt8) :
    BittorrentChange options bittorrent
      ((readBitfield bittorrent index peer bits).modifyPeer index greetPeer) := by
  simp only [readBitfield]
  split
  · exact greet_change (.refl bittorrent) index
  · split
    · exact greet_change (.refl bittorrent) index
    · rename_i fresh
      exact (BittorrentTransition.bitfield here (by simpa using fresh)).change.trans
        (recorded_change here _ (copyBitfield peer.bitfield bits) _ rfl).change

theorem readPeerMessageFields_offset_lt (id : BittorrentMessageId) (buffer : ReadBuffer)
    (messageLength : Nat) : (readPeerMessageFields id buffer messageLength).offset < 2 ^ 32 := by
  have small (offset : Nat) : getBittorrentPeerInteger buffer offset < 2 ^ 32 := by
    have bound := BigEndian.decode_lt [buffer.byte offset, buffer.byte (offset + 1),
      buffer.byte (offset + 2), buffer.byte (offset + 3)]
    have width : 256 ^ 4 = 2 ^ 32 := by decide
    exact Nat.lt_of_lt_of_eq bound width
  cases id <;> simp only [readPeerMessageFields, small] <;> decide

theorem delBittorrentPeerRequest_quiet (peer : BittorrentPeerConnection)
    (piece offset length : Nat) :
    QuietPeer peer
      { peer with
        remoteStatus := delBittorrentPeerRequest peer.remoteStatus piece offset length } := by
  refine ⟨rfl, rfl, fun request member => ?_, id⟩
  exact ⟨request, List.mem_of_mem_eraseP member, rfl, rfl, rfl⟩

theorem modifyStatus_change (bittorrent : BittorrentConnection) (index : Nat)
    {change : BittorrentPeerConnection → BittorrentPeerConnection}
    (quiet : ∀ peer, QuietPeer peer (change peer)) :
    BittorrentChange options bittorrent (bittorrent.modifyPeer index change) :=
  (Quiet.modifyPeer bittorrent index fun peer _ => quiet peer).change

theorem handleBittorrentPeerMessage_change (write : BittorrentWrite)
    {bittorrent : BittorrentConnection} {index : Nat} {peer : BittorrentPeerConnection}
    (here : bittorrent.peers[index]? = some peer) {id : BittorrentMessageId}
    {fields : PeerMessageFields} (small : fields.offset < 2 ^ 32)
    (other : id ≠ .haveMessage ∧ id ≠ .bitfield) :
    BittorrentChange options bittorrent
      (handleBittorrentPeerMessage options write bittorrent index peer id fields).1 := by
  cases id with
  | choke => exact readChoke_change bittorrent index peer
  | unchoke | interested | notInterested =>
      exact modifyStatus_change bittorrent index fun peer => SameRecord.quiet ⟨rfl, rfl, rfl⟩ rfl
  | haveMessage => exact absurd rfl other.1
  | bitfield => exact absurd rfl other.2
  | request =>
      simp only [handleBittorrentPeerMessage]
      split
      · exact .refl bittorrent
      · rename_i valid
        split
        · exact .refl bittorrent
        · rename_i granted
          exact (BittorrentTransition.serve here (by simpa using valid) (by omega) small).change
  | cancel =>
      simp only [handleBittorrentPeerMessage]
      split
      · exact .refl bittorrent
      · split
        · exact .refl bittorrent
        · exact modifyStatus_change bittorrent index fun peer =>
            delBittorrentPeerRequest_quiet peer _ _ _
  | piece =>
      simp only [handleBittorrentPeerMessage]
      split
      · exact .refl bittorrent
      · exact addToBittorrentPieceCache_change write bittorrent index _ _ _ _
  | _ => exact .refl bittorrent

/-- A message that is read changes the torrent by elementary changes, whether it is
accepted or not. -/
theorem readBittorrentPeerMessage_change (write : BittorrentWrite)
    {bittorrent : BittorrentConnection} {index : Nat} {peer : BittorrentPeerConnection}
    (here : bittorrent.peers[index]? = some peer) (id : BittorrentMessageId) (buffer : ReadBuffer)
    (messageLength : Nat) :
    BittorrentChange options bittorrent
      (readBittorrentPeerMessage options write bittorrent index peer id buffer messageLength).1 := by
  simp only [readBittorrentPeerMessage]
  split
  · exact .refl bittorrent
  · rename_i fields read
    rw [fieldsRead, Option.ite_none_left_eq_some, Option.some.injEq] at read
    have small := readPeerMessageFields_offset_lt id buffer messageLength
    rw [read.2] at small
    by_cases announces : id ≠ .haveMessage ∧ id ≠ .bitfield
    · have handled : BittorrentChange options _ _ :=
        handleBittorrentPeerMessage_change write here small announces
      split
      · exact handled
      · exact greet_change handled index
    · have kind : id = .haveMessage ∨ id = .bitfield := by
        by_contra neither
        rw [not_or] at neither
        exact announces neither
      rcases kind with rfl | rfl
      · exact readHave_change here fields.piece
      · exact readBitfield_change here fields.data

theorem receiveBittorrentPeerMessage_change (receive : BittorrentReceive)
    {bittorrent : BittorrentConnection} {index : Nat} {peer : BittorrentPeerConnection}
    (here : bittorrent.peers[index]? = some peer) (data : List UInt8) :
    BittorrentChange options bittorrent
      (receiveBittorrentPeerMessage options receive bittorrent index peer data).1 := by
  simp only [receiveBittorrentPeerMessage]
  split
  · exact .refl bittorrent
  · split
    · exact .refl bittorrent
    · split
      · exact (BittorrentTransition.leave bittorrent index).change
      · have read : BittorrentChange options _ _ := readBittorrentPeerMessage_change receive.write here
          (checkBittorrentPeerMessage options ⟨data, receive.beyond⟩).1 ⟨data, receive.beyond⟩
          (checkBittorrentPeerMessage options ⟨data, receive.beyond⟩).2
        split
        · exact read.trans (Quiet.counted _ _ _).change
        · split
          · exact read.trans (BittorrentTransition.leave _ index).change
          · exact read

section Candidates

def OnlyOffered (cache : BittorrentPieceCache) (bitfield : Bitfield)
    (candidates : BittorrentCandidates) : Prop :=
  ∀ piece, some piece ∈ candidates.pieces →
    (cache.entry piece).remaining = true ∧ testBitfieldBit bitfield piece = true

variable {cache : BittorrentPieceCache} {bitfield : Bitfield} {candidates : BittorrentCandidates}

theorem initialCandidates_onlyOffered : OnlyOffered cache bitfield initialCandidates := by
  intro piece member
  simp [initialCandidates] at member

theorem spreadPiece_onlyOffered {piece : Nat} (before : OnlyOffered cache bitfield candidates)
    (remaining : (cache.entry piece).remaining = true)
    (offered : testBitfieldBit bitfield piece = true) :
    OnlyOffered cache bitfield (spreadPiece candidates piece) := by
  intro other member
  simp only [spreadPiece, List.mem_mapIdx] at member
  obtain ⟨position, inside, placed⟩ := member
  split at placed
  · rw [Option.some.injEq] at placed
    rw [← placed]
    exact ⟨remaining, offered⟩
  · exact before other (placed ▸ List.getElem_mem inside)

theorem dropPiece_onlyOffered (draws : BittorrentDraws) {piece : Nat}
    (before : OnlyOffered cache bitfield candidates)
    (remaining : (cache.entry piece).remaining = true)
    (offered : testBitfieldBit bitfield piece = true) :
    OnlyOffered cache bitfield (dropPiece draws candidates piece) := by
  intro other member
  rcases List.mem_or_eq_of_mem_set member with old | new
  · exact before other old
  · rw [Option.some.injEq] at new
    rw [new]
    exact ⟨remaining, offered⟩

theorem considerRandom_onlyOffered (draws : BittorrentDraws) {piece : Nat}
    (offered : testBitfieldBit bitfield piece = true)
    (before : OnlyOffered cache bitfield candidates) :
    OnlyOffered cache bitfield (considerRandom draws cache candidates piece) := by
  simp only [considerRandom]
  split
  · exact before
  · rename_i remaining
    have remains : (cache.entry piece).remaining = true := by simpa using remaining
    split
    · exact spreadPiece_onlyOffered before remains offered
    · exact dropPiece_onlyOffered draws before remains offered

theorem considerRarest_onlyOffered (draws : BittorrentDraws) {piece : Nat}
    (offered : testBitfieldBit bitfield piece = true)
    (before : OnlyOffered cache bitfield candidates) :
    OnlyOffered cache bitfield (considerRarest draws cache candidates piece) := by
  simp only [considerRarest]
  split
  · exact before
  · rename_i remaining
    have remains : (cache.entry piece).remaining = true := by
      rw [Bool.or_eq_true, not_or] at remaining
      simpa using remaining.1
    split
    · exact spreadPiece_onlyOffered before remains offered
    · split
      · exact dropPiece_onlyOffered draws before remains offered
      · exact spreadPiece_onlyOffered before remains offered

theorem pickPiece_offered {draws : BittorrentDraws}
    {consider : BittorrentCandidates → Nat → BittorrentCandidates}
    (keeps : ∀ candidates piece, testBitfieldBit bitfield piece = true →
      OnlyOffered cache bitfield candidates → OnlyOffered cache bitfield (consider candidates piece))
    {piece : Nat}
    (picked : pickPiece draws ((bitfieldSetBits bitfield).reverse.foldl consider
      initialCandidates) = some piece) :
    (cache.entry piece).remaining = true ∧ testBitfieldBit bitfield piece = true := by
  have all : ∀ (pieces : List Nat), (∀ other ∈ pieces, testBitfieldBit bitfield other = true) →
      ∀ candidates, OnlyOffered cache bitfield candidates →
        OnlyOffered cache bitfield (pieces.foldl consider candidates) := by
    intro pieces
    induction pieces with
    | nil => exact fun _ candidates before => before
    | cons first rest ih =>
        intro offered candidates before
        rw [List.forall_mem_cons] at offered
        exact ih offered.2 _ (keeps candidates first offered.1 before)
  rw [pickPiece, Option.join_eq_some_iff] at picked
  refine all _ (fun other member => ?_) _ initialCandidates_onlyOffered piece
    (List.mem_of_getElem? picked)
  exact mem_bitfieldSetBits.mp (List.mem_reverse.mp member)

theorem selectBittorrentPiece_offered {draws : BittorrentDraws}
    {bittorrent : BittorrentConnection} {peer : BittorrentPeerConnection} {piece : Nat}
    (selected : selectBittorrentPiece draws bittorrent peer = some piece) :
    (bittorrent.cache.entry piece).remaining = true ∧
      testBitfieldBit peer.bitfield piece = true := by
  simp only [selectBittorrentPiece] at selected
  split at selected
  · exact pickPiece_offered (fun _ _ => considerRandom_onlyOffered draws) selected
  · exact pickPiece_offered (fun _ _ => considerRarest_onlyOffered draws) selected
  · simp at selected
  · simp at selected

end Candidates

theorem enterEndGame_modifyPeer (bittorrent : BittorrentConnection) (index : Nat)
    (change : BittorrentPeerConnection → BittorrentPeerConnection) :
    enterEndGame (bittorrent.modifyPeer index change) =
      (enterEndGame bittorrent).modifyPeer index change := by
  simp only [enterEndGame, BittorrentConnection.modifyPeer]
  by_cases finished : bittorrent.cache.remainingPieces = 0 ∧ bittorrent.cache.freeList = []
  · simp [finished]
  · simp only [finished, if_false]

theorem enterEndGame_peers (bittorrent : BittorrentConnection) :
    (enterEndGame bittorrent).peers = bittorrent.peers := by
  simp only [enterEndGame]
  split <;> rfl

theorem pieceRequests_ne_nil (piece requestLength : Nat) {pieceLength fuel : Nat}
    (offset blocks : Nat) (positive : 0 < fuel) :
    pieceRequests piece requestLength pieceLength fuel offset blocks ≠ [] := by
  cases fuel with
  | zero => omega
  | succ fuel => simp [pieceRequests]

def takeOffer (index : Nat) (found : BittorrentConnection × Option BittorrentPeerRequest) :
    BittorrentConnection :=
  match found.2 with
  | none => found.1
  | some request => found.1.modifyPeer index (appendRequest request)

theorem cloneBittorrentPeerRequest_none {bittorrent : BittorrentConnection} {place : Nat × Nat}
    (nothing : (cloneBittorrentPeerRequest bittorrent place).2 = none) :
    (cloneBittorrentPeerRequest bittorrent place).1 = bittorrent := by
  simp only [cloneBittorrentPeerRequest] at nothing ⊢
  split at nothing
  · rfl
  · simp at nothing

theorem findBittorrentPeerRequest_change (draws : BittorrentDraws)
    {bittorrent : BittorrentConnection} {index : Nat} {peer : BittorrentPeerConnection}
    (here : bittorrent.peers[index]? = some peer) :
    BittorrentChange options bittorrent
      (takeOffer index (findBittorrentPeerRequest options draws bittorrent peer)) := by
  have entered : BittorrentChange options bittorrent (enterEndGame bittorrent) :=
    (enterEndGame_quiet bittorrent).change
  have stillHere : (enterEndGame bittorrent).peers[index]? = some peer := by
    rw [enterEndGame_peers, here]
  simp only [findBittorrentPeerRequest]
  split
  · rename_i request rest free
    exact (BittorrentTransition.take here free).change
  · split
    · split
      · exact entered
      · rename_i place clonable
        simp only [takeOffer]
        split
        · rename_i nothing
          rw [cloneBittorrentPeerRequest_none nothing]
          exact entered
        · rename_i request cloned
          exact entered.trans (BittorrentTransition.clone stillHere clonable cloned).change
    · split
      · exact entered
      · rename_i piece selected
        obtain ⟨remaining, offered⟩ := selectBittorrentPiece_offered selected
        simp only [takeOffer]
        split
        · rename_i last
          simp only [addPieceToBittorrentFreeList, List.getLast?_eq_none_iff] at last
          exact absurd last (pieceRequests_ne_nil piece _ 0 0
            (getBittorrentPieceLength_positive _ piece))
        · rename_i request last
          rw [← enterEndGame_modifyPeer]
          exact entered.trans
            ((BittorrentTransition.split stillHere remaining offered last).change.trans
              (enterEndGame_quiet _).change)

theorem queueRequests_change (draws : Nat → BittorrentDraws) (index count : Nat)
    (bittorrent : BittorrentConnection) :
    BittorrentChange options bittorrent (queueRequests options draws index count bittorrent) := by
  induction count generalizing bittorrent with
  | zero => exact .refl bittorrent
  | succ count ih =>
      simp only [queueRequests]
      split
      · exact .refl bittorrent
      · rename_i peer here
        have found : BittorrentChange options _ _ :=
          findBittorrentPeerRequest_change (draws count) here
        simp only [takeOffer] at found
        split
        · rename_i nothing
          rw [nothing] at found
          exact found
        · rename_i request offered
          rw [offered] at found
          exact found.trans (ih _)

theorem markRequested_claims (requests : List BittorrentPeerRequest) :
    (markRequested requests).map blockClaim = requests.map blockClaim := by
  induction requests with
  | nil => rfl
  | cons request rest ih =>
      simp only [markRequested]
      split
      · rw [List.map_cons, List.map_cons, ih]
      · rfl

theorem sendPieces_quiet (outside : BittorrentOutside) (index count position : Nat)
    (bittorrent : BittorrentConnection) :
    Quiet bittorrent (sendPieces outside index count position bittorrent) := by
  induction count generalizing position bittorrent with
  | zero => exact Quiet.refl bittorrent
  | succ count ih =>
      simp only [sendPieces]
      split
      · exact Quiet.refl bittorrent
      · rename_i request found
        have loaded := getBittorrentPieceCacheData_quiet (outside.answer request.piece) bittorrent
          request.piece
        split
        · refine loaded.trans (Quiet.trans (Quiet.modifyPeer _ index ?_) (ih _ _))
          intro peer _
          refine ⟨rfl, rfl, fun request member => ?_, id⟩
          rcases mem_modify member with kept | ⟨earlier, there, changed⟩
          · exact ⟨request, kept, rfl, rfl, rfl⟩
          · exact ⟨earlier, List.mem_of_getElem? there, by rw [changed], by rw [changed],
              by rw [changed]⟩
        · refine loaded.trans (Quiet.trans (Quiet.modifyPeer _ index ?_) (Quiet.counted _ _ _))
          intro peer _
          refine ⟨rfl, rfl, ?_, id⟩
          exact fun request member => ⟨request, List.mem_of_mem_eraseIdx member, rfl, rfl, rfl⟩

theorem sendPending_quiet (outside : BittorrentOutside) (bittorrent : BittorrentConnection)
    (index : Nat) (peer : BittorrentPeerConnection) :
    Quiet bittorrent (sendPending outside bittorrent index peer) := by
  simp only [sendPending]
  split
  · refine Quiet.modifyPeer _ index ?_
    exact fun peer _ => SameRecord.quiet ⟨rfl, rfl, rfl⟩ rfl
  · split
    · refine Quiet.modifyPeer _ index fun peer _ => ?_
      exact ⟨rfl, markRequested_claims _, (QuietPeer.refl peer).serving, id⟩
    · exact sendPieces_quiet outside index _ 0 bittorrent

theorem queueBittorrentPeerConnectionRequests_change (draws : Nat → BittorrentDraws)
    (bittorrent : BittorrentConnection) (index : Nat) (peer : BittorrentPeerConnection) :
    BittorrentChange options bittorrent
      (queueBittorrentPeerConnectionRequests options draws bittorrent index peer) := by
  refine (queueRequests_change draws index _ bittorrent).trans
    (Quiet.modifyPeer _ index fun peer _ => ?_).change
  split
  · exact setBittorrentPeerNotInterested_quiet peer
  · exact QuietPeer.refl peer

theorem updateBittorrentPeerConnectionState_change (outside : BittorrentOutside)
    (bittorrent : BittorrentConnection) (index : Nat) :
    BittorrentChange options bittorrent
      (updateBittorrentPeerConnectionState options outside bittorrent index) := by
  simp only [updateBittorrentPeerConnectionState]
  split
  · exact .refl bittorrent
  · rename_i peer here
    split
    · exact (BittorrentTransition.leave bittorrent index).change
    · have queued : BittorrentChange options bittorrent
          (if (peer.localStatus.interested && !peer.localStatus.choked) = true then
            queueBittorrentPeerConnectionRequests options outside.draws bittorrent index peer
          else bittorrent) := by
        split
        · exact queueBittorrentPeerConnectionRequests_change _ _ _ _
        · exact .refl bittorrent
      split
      · exact queued
      · split
        · exact queued
        · exact queued.trans (sendPending_quiet outside _ index _).change

theorem resumePieces_change (completed : List UInt8) {bittorrent : BittorrentConnection}
    (resuming : bittorrent.cache.resumeFd ≠ -1) :
    BittorrentChange options bittorrent (resumePieces options completed bittorrent) := by
  induction completed generalizing bittorrent with
  | nil => exact .refl bittorrent
  | cons complete rest ih =>
      simp only [resumePieces]
      split
      · exact (BittorrentTransition.ended resuming _).change
      · rename_i inside
        split
        · exact (BittorrentTransition.skipped resuming (by omega)).change.trans (ih resuming)
        · exact (BittorrentTransition.resumed resuming (by omega)).change.trans (ih resuming)

theorem bittorrentResumeReader_change (completed : List UInt8) {bittorrent : BittorrentConnection}
    (resuming : bittorrent.cache.resumeFd ≠ -1) :
    BittorrentChange options bittorrent
      (bittorrentResumeReader options completed bittorrent) := by
  simp only [bittorrentResumeReader]
  split
  · exact (BittorrentTransition.ended resuming bittorrent.cache.resumePos).change
  · exact resumePieces_change completed resuming

theorem receiveStep_change {bittorrent after : BittorrentConnection} {index : Nat}
    {data : List UInt8} {receive : BittorrentReceive}
    (stepped : receiveStep options bittorrent index data receive = some after) :
    BittorrentChange options bittorrent after := by
  simp only [receiveStep] at stepped
  split at stepped
  · rw [← Option.some.inj stepped]
    exact .refl bittorrent
  · rename_i peer here
    split at stepped
    · simp at stepped
    · rw [← Option.some.inj stepped]
      exact receiveBittorrentPeerMessage_change receive here data

theorem bittorrentStep_change {bittorrent after : BittorrentConnection} {event : BittorrentEvent}
    (stepped : bittorrentStep options bittorrent event = some after) (known : event ≠ .connect) :
    BittorrentChange options bittorrent after := by
  simp only [bittorrentStep] at stepped
  split at stepped
  · cases event with
    | connect => exact absurd rfl known
    | receive index data receive => exact receiveStep_change stepped
    | resume completed =>
        rw [← Option.some.inj stepped]
        exact .refl bittorrent
    | sort peers =>
        rw [← Option.some.inj stepped]
        split
        · rename_i sorted
          exact (BittorrentTransition.sort (List.isPerm_iff.mp sorted)).change
        · exact .refl bittorrent
    | update index outside =>
        rw [← Option.some.inj stepped]
        exact updateBittorrentPeerConnectionState_change outside bittorrent index
    | sent index =>
        rw [← Option.some.inj stepped]
        exact modifyStatus_change bittorrent index fun peer => SameRecord.quiet ⟨rfl, rfl, rfl⟩ rfl
    | choke index =>
        rw [← Option.some.inj stepped]
        exact modifyStatus_change bittorrent index chokeBittorrentPeer_quiet
    | unchoke index =>
        rw [← Option.some.inj stepped]
        exact modifyStatus_change bittorrent index unchokeBittorrentPeer_quiet
    | handshakeSent index =>
        rw [← Option.some.inj stepped]
        split
        · exact .refl bittorrent
        · exact modifyStatus_change bittorrent index fun peer =>
            sendBittorrentPeerMessage_quiet peer _ _ _ _
    | shrink =>
        rw [← Option.some.inj stepped]
        exact (updateBittorrentPieceCacheState_quiet options bittorrent).change
    | disconnect index =>
        rw [← Option.some.inj stepped]
        exact (BittorrentTransition.leave bittorrent index).change
  · rename_i resuming
    cases event with
    | resume completed =>
        rw [← Option.some.inj stepped]
        exact bittorrentResumeReader_change completed resuming
    | _ =>
        rw [← Option.some.inj stepped]
        exact .refl bittorrent

def connectPeer (bittorrent : BittorrentConnection) : BittorrentConnection :=
  { bittorrent with peers := newPeer bittorrent.metainfo.pieces :: bittorrent.peers }

theorem bittorrentStep_connect {bittorrent after : BittorrentConnection}
    (stepped : bittorrentStep options bittorrent .connect = some after) :
    after = bittorrent ∨ bittorrent.cache.resumeFd = -1 ∧ after = connectPeer bittorrent := by
  simp only [bittorrentStep] at stepped
  split at stepped
  · rename_i started
    exact .inr ⟨started, (Option.some.inj stepped).symm⟩
  · exact .inl (Option.some.inj stepped).symm

/-- What every elementary change and every new peer preserves, every event preserves. -/
theorem bittorrentStep_preserves {invariant : BittorrentConnection → Prop}
    (changes : ∀ before after, BittorrentTransition options before after → invariant before →
      invariant after)
    {bittorrent after : BittorrentConnection} {event : BittorrentEvent}
    (connects : event = .connect → bittorrent.cache.resumeFd = -1 →
      invariant (connectPeer bittorrent))
    (stepped : bittorrentStep options bittorrent event = some after)
    (holds : invariant bittorrent) : invariant after := by
  by_cases kind : event = .connect
  · subst kind
    rcases bittorrentStep_connect stepped with same | ⟨started, connected⟩
    · rwa [same]
    · rw [connected]
      exact connects rfl started
  · have change := bittorrentStep_change stepped kind
    clear stepped
    induction change with
    | refl => exact holds
    | tail _ step ih => exact changes _ _ step ih

end KcnTools.Bittorrent
