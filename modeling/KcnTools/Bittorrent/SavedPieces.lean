import KcnTools.Bittorrent.PieceStorage
import KcnTools.Bittorrent.BlockRuns

/-!
Pieces that are announced as completed: each was found on disk, or written to it when its
last block arrived, as long as the disk takes what is written.
-/

namespace KcnTools.Bittorrent

open Modify

variable {options : BittorrentOptions}

def completedFlags (bittorrent : BittorrentConnection) : List Bool :=
  bittorrent.cache.entries.map fun entry => entry.completed

theorem completed_of_flags {before after : BittorrentConnection}
    (same : completedFlags after = completedFlags before) (piece : Nat) :
    (after.cache.entry piece).completed = (before.cache.entry piece).completed :=
  BittorrentPieceCache.entry_of_map (fun entry => entry.completed) same piece

theorem SameTable.completedFlags {before after : BittorrentConnection}
    (same : SameTable before.cache after.cache) : completedFlags after = completedFlags before := by
  have flags := congrArg (List.map fun flags => flags.2.2) same.flags
  rwa [List.map_map, List.map_map] at flags

theorem Quiet.completedFlags {before after : BittorrentConnection} (quiet : Quiet before after) :
    completedFlags after = completedFlags before :=
  SameTable.completedFlags quiet.cache.sameTable

def finishedMemory (options : BittorrentOptions) (bittorrent : BittorrentConnection)
    (index piece offset length : Nat) (data : List UInt8) : Option (List UInt8) :=
  (pendingRequest bittorrent index piece offset length).bind fun request =>
    let entry := (receiveBlock bittorrent index request data).cache.entry piece
    if (entry.blocks.map bitfieldIsSet).getD false &&
        bittorrentPieceIsValid options bittorrent.metainfo piece (entry.data.getD []) then
      some (entry.data.getD [])
    else none

def messagePiece (options : BittorrentOptions) (bittorrent : BittorrentConnection) (index : Nat)
    (peer : BittorrentPeerConnection) (buffer : ReadBuffer) : Option (Nat × List UInt8) :=
  let checked := checkBittorrentPeerMessage options buffer
  let fields := readPeerMessageFields .piece buffer checked.2
  if buffer.data.length ≤ 4 ∨ checked.1 ≠ .piece ∨ checked.2 < messageMinimum .piece ∨
      isIgnoredPiece bittorrent peer fields = true then none
  else
    (finishedMemory options bittorrent index fields.piece fields.offset fields.length
      fields.data).map fun memory => (fields.piece, memory)

def finishedPiece (options : BittorrentOptions) (bittorrent : BittorrentConnection) :
    BittorrentEvent → Option (Nat × List UInt8)
  | .receive index data receive =>
      if bittorrent.cache.resumeFd ≠ -1 then none
      else (bittorrent.peers[index]?).bind fun peer =>
        messagePiece options bittorrent index peer ⟨data, receive.beyond⟩
  | _ => none

/-- The pieces that a run of flags of the resume thread reports, from a position on. -/
def foundPieces : Nat → List UInt8 → List Nat
  | _, [] => []
  | position, complete :: rest =>
      (if complete = 0 then [] else [position]) ++ foundPieces (moveCounter position 1) rest

theorem addRequestsToBittorrentPieceCache_entries (index count : Nat)
    (bittorrent : BittorrentConnection) :
    (addRequestsToBittorrentPieceCache index count bittorrent).cache.entries =
      bittorrent.cache.entries := by
  induction count generalizing bittorrent with
  | zero => rfl
  | succ count ih =>
      rw [addRequestsToBittorrentPieceCache]
      split
      · rfl
      · rw [ih, addRequestToBittorrentPieceCache]
        split <;> rfl

theorem addPiece_completedFlags (options : BittorrentOptions) (bittorrent : BittorrentConnection)
    (piece : Nat) :
    completedFlags (addPieceToBittorrentFreeList options bittorrent piece).1 =
      completedFlags bittorrent :=
  (map_modify_of_eq _ piece fun _ => by rfl).trans (map_modify_of_eq _ piece fun _ => by rfl)

theorem findBittorrentPeerRequest_completedFlags (options : BittorrentOptions) (draws : BittorrentDraws)
    (bittorrent : BittorrentConnection) (peer : BittorrentPeerConnection) :
    completedFlags (findBittorrentPeerRequest options draws bittorrent peer).1 =
      completedFlags bittorrent := by
  have entered := (enterEndGame_quiet bittorrent).completedFlags
  simp only [findBittorrentPeerRequest]
  split
  · rfl
  · split
    · split
      · exact entered
      · rw [completedFlags, cloneBittorrentPeerRequest_cache]
        exact entered
    · split
      · exact entered
      · exact (enterEndGame_quiet _).completedFlags.trans
          ((addPiece_completedFlags options _ _).trans entered)

theorem queueRequests_completedFlags (draws : Nat → BittorrentDraws) (index count : Nat)
    (bittorrent : BittorrentConnection) :
    completedFlags (queueRequests options draws index count bittorrent) =
      completedFlags bittorrent := by
  induction count generalizing bittorrent with
  | zero => rfl
  | succ count ih =>
      simp only [queueRequests]
      split
      · rfl
      · rename_i peer _
        have found := findBittorrentPeerRequest_completedFlags options (draws count) bittorrent peer
        split
        · exact found
        · exact (ih _).trans found

theorem updateState_completedFlags (outside : BittorrentOutside)
    (bittorrent : BittorrentConnection) (index : Nat) :
    completedFlags (updateBittorrentPeerConnectionState options outside bittorrent index) =
      completedFlags bittorrent := by
  rw [updateBittorrentPeerConnectionState]
  split
  · rfl
  · rename_i peer _
    split
    · exact SameTable.completedFlags (leave_sameTable bittorrent index)
    · have queued : completedFlags
          (if (peer.localStatus.interested && !peer.localStatus.choked) = true then
            queueBittorrentPeerConnectionRequests options outside.draws bittorrent index peer
          else bittorrent) = completedFlags bittorrent := by
        split
        · exact queueRequests_completedFlags _ _ _ _
        · rfl
      dsimp only
      split
      · exact queued
      · split
        · exact queued
        · exact (sendPending_quiet outside _ index _).completedFlags.trans queued

theorem rejectPiece_completedFlags (bittorrent : BittorrentConnection) (piece : Nat) :
    completedFlags (rejectPiece (dropBlocks bittorrent piece) piece) = completedFlags bittorrent :=
  (map_modify_of_eq _ piece fun _ => by rfl).trans
    ((map_modify_of_eq _ piece fun _ => by rfl).trans (map_modify_of_eq _ piece fun _ => by rfl))

theorem entry_modify_of_ne {cache : BittorrentPieceCache} {piece other : Nat}
    (change : BittorrentPieceCacheEntry → BittorrentPieceCacheEntry) (different : piece ≠ other) :
    (cache.entries.modify piece change).getD other blankEntry = cache.entry other := by
  simp only [BittorrentPieceCache.entry, List.getD_eq_getElem?_getD, List.getElem?_modify, different,
    if_false, id_map']

theorem fillPiece_completed (bittorrent : BittorrentConnection) {piece other : Nat}
    (done : ((fillPiece bittorrent piece).cache.entry other).completed = true) :
    other = piece ∨ (bittorrent.cache.entry other).completed = true := by
  by_cases same : piece = other
  · exact .inl same.symm
  · have filled : (fillPiece bittorrent piece).cache.entries =
        bittorrent.cache.entries.modify piece _ := List.modify_modify_eq _ _ _ _
    rw [BittorrentPieceCache.entry, filled, entry_modify_of_ne _ same] at done
    exact .inr done

theorem resumePiece_completed (bittorrent : BittorrentConnection) {piece other : Nat}
    (done : ((resumePiece bittorrent piece).cache.entry other).completed = true) :
    other = piece ∨ (bittorrent.cache.entry other).completed = true := by
  by_cases same : piece = other
  · exact .inl same.symm
  · refine .inr (Eq.trans (congrArg _ ?_) done)
    exact (entry_modify_of_ne _ same).symm

/-- A block can complete its own piece only, and only when it is the last one. -/
theorem addToBittorrentPieceCache_completed (write : BittorrentWrite)
    {bittorrent : BittorrentConnection} {index piece offset length other : Nat} {data : List UInt8}
    (done : ((addToBittorrentPieceCache options write bittorrent index piece offset length
      data).1.cache.entry other).completed = true) :
    (bittorrent.cache.entry other).completed = true ∨
      other = piece ∧
        (finishedMemory options bittorrent index piece offset length data).isSome = true := by
  simp only [addToBittorrentPieceCache] at done
  split at done
  · exact .inl done
  · rename_i request pending
    have received := (receiveBlock_sameTable bittorrent index request data).completedFlags
    rw [finishedMemory, pending, Option.bind_some]
    split at done
    · rw [completed_of_flags received] at done
      exact .inl done
    · rename_i full
      split at done
      · have kept := completed_of_flags ((rejectPiece_completedFlags _ piece).trans received) other
        exact .inl (kept.symm.trans done)
      · rename_i valid
        have filled : ((fillPiece (receiveBlock bittorrent index request data) piece).cache.entry
            other).completed = true :=
          (completed_of_flags (completePiece_change write _ piece).completedFlags other).symm.trans done
        rcases fillPiece_completed _ filled with same | earlier
        · refine .inr ⟨same, ?_⟩
          dsimp only
          rw [if_pos]
          · rfl
          · rw [Bool.and_eq_true]
            exact ⟨by simpa using full, by simpa using valid⟩
        · rw [completed_of_flags received] at earlier
          exact .inl earlier

theorem handleBittorrentPeerMessage_completedFlags (write : BittorrentWrite)
    (bittorrent : BittorrentConnection) (index : Nat) (peer : BittorrentPeerConnection)
    {id : BittorrentMessageId} (fields : PeerMessageFields) (other : id ≠ .piece) :
    completedFlags (handleBittorrentPeerMessage options write bittorrent index peer id fields).1 =
      completedFlags bittorrent := by
  cases id with
  | piece => exact absurd rfl other
  | choke =>
      exact congrArg (List.map fun entry => entry.completed)
        (addRequestsToBittorrentPieceCache_entries index _ _)
  | haveMessage =>
      simp only [handleBittorrentPeerMessage, readHave]
      split
      · rfl
      · split
        · rfl
        · exact (updateBittorrentPieceCache_sameTable bittorrent.cache fields.piece).completedFlags
  | bitfield =>
      simp only [handleBittorrentPeerMessage, readBitfield]
      split
      · rfl
      · split
        · rfl
        · exact SameTable.completedFlags
            (foldl_sameTable updateBittorrentPieceCache_sameTable _ bittorrent.cache)
  | request | cancel =>
      simp only [handleBittorrentPeerMessage]
      split
      · rfl
      · split <;> rfl
  | _ => rfl

theorem readBittorrentPeerMessage_completed (write : BittorrentWrite)
    {bittorrent : BittorrentConnection} {index other : Nat} {peer : BittorrentPeerConnection}
    {buffer : ReadBuffer} (present : ¬buffer.data.length ≤ 4)
    (done : ((readBittorrentPeerMessage options write bittorrent index peer
      (checkBittorrentPeerMessage options buffer).1 buffer
      (checkBittorrentPeerMessage options buffer).2).1.cache.entry other).completed = true) :
    (bittorrent.cache.entry other).completed = true ∨
      ∃ memory, messagePiece options bittorrent index peer buffer = some (other, memory) := by
  simp only [messagePiece]
  generalize checkBittorrentPeerMessage options buffer = checked at *
  simp only [readBittorrentPeerMessage] at done
  split at done
  · exact .inl done
  · rename_i fields read
    rw [fieldsRead, Option.ite_none_left_eq_some, Option.some.injEq] at read
    obtain ⟨long, rfl⟩ := read
    have handled : ((handleBittorrentPeerMessage options write bittorrent index peer checked.1
        (readPeerMessageFields checked.1 buffer checked.2)).1.cache.entry other).completed = true := by
      split at done <;> exact done
    by_cases kind : checked.1 = .piece
    · rw [kind] at handled long
      simp only [handleBittorrentPeerMessage] at handled
      split at handled
      · exact .inl handled
      · rename_i accepted
        rcases addToBittorrentPieceCache_completed write handled with earlier | ⟨same, finished⟩
        · exact .inl earlier
        · obtain ⟨memory, found⟩ := Option.isSome_iff_exists.mp finished
          refine .inr ⟨memory, ?_⟩
          rw [if_neg, found, same]
          · rfl
          · simp only [kind, not_or]
            exact ⟨present, not_not_intro rfl, long, accepted⟩
    · rw [completed_of_flags (handleBittorrentPeerMessage_completedFlags write bittorrent index peer _
        kind)] at handled
      exact .inl handled

theorem receiveBittorrentPeerMessage_completed (receive : BittorrentReceive)
    {bittorrent : BittorrentConnection} {index other : Nat} {peer : BittorrentPeerConnection}
    {data : List UInt8}
    (done : ((receiveBittorrentPeerMessage options receive bittorrent index peer
      data).1.cache.entry other).completed = true) :
    (bittorrent.cache.entry other).completed = true ∨
      ∃ memory, messagePiece options bittorrent index peer ⟨data, receive.beyond⟩ =
        some (other, memory) := by
  simp only [receiveBittorrentPeerMessage] at done
  split at done
  · exact .inl done
  · rename_i present
    split at done
    · exact .inl done
    · split at done
      · rw [completed_of_flags (leave_sameTable bittorrent index).completedFlags] at done
        exact .inl done
      · refine readBittorrentPeerMessage_completed receive.write present ?_
        split at done
        · exact done
        · split at done
          · rw [completed_of_flags (leave_sameTable _ index).completedFlags] at done
            exact done
          · exact done

theorem endBittorrentResume_completedFlags (bittorrent : BittorrentConnection) :
    completedFlags (endBittorrentResume options bittorrent) = completedFlags bittorrent := by
  have progress := congrArg (List.map Prod.fst) (endBittorrentResume_progress options bittorrent)
  rw [List.map_map, List.map_map] at progress
  exact progress

theorem resumePieces_completed (flags : List UInt8) {bittorrent : BittorrentConnection} {piece : Nat}
    (done : ((resumePieces options flags bittorrent).cache.entry piece).completed = true) :
    (bittorrent.cache.entry piece).completed = true ∨
      piece ∈ foundPieces bittorrent.cache.resumePos flags := by
  induction flags generalizing bittorrent with
  | nil => exact .inl done
  | cons complete rest ih =>
      simp only [resumePieces] at done
      rw [foundPieces, List.mem_append]
      split at done
      · rw [completed_of_flags (endBittorrentResume_completedFlags _)] at done
        exact .inl done
      · split at done
        · exact (ih done).imp_right .inr
        · rename_i reported
          rw [if_neg reported, List.mem_singleton]
          rcases ih done with earlier | later
          · rcases resumePiece_completed _ earlier with same | before
            · exact .inr (.inl same)
            · exact .inl before
          · exact .inr (.inr later)

theorem bittorrentStep_completed {before after : BittorrentConnection} {event : BittorrentEvent}
    {piece : Nat} (stepped : bittorrentStep options before event = some after)
    (done : (after.cache.entry piece).completed = true) :
    (before.cache.entry piece).completed = true ∨
      (∃ memory, finishedPiece options before event = some (piece, memory)) ∨
        ∃ flags, event = .resume flags ∧ before.cache.resumeFd ≠ -1 ∧
          piece ∈ foundPieces before.cache.resumePos flags := by
  simp only [bittorrentStep] at stepped
  split at stepped
  · rename_i started
    have kept : completedFlags after = completedFlags before →
        (before.cache.entry piece).completed = true := by
      intro same
      rwa [← completed_of_flags same]
    cases event with
    | receive index data receive =>
        simp only [receiveStep] at stepped
        split at stepped
        · rw [← Option.some.inj stepped] at done
          exact .inl done
        · rename_i peer here
          split at stepped
          · simp at stepped
          · rw [← Option.some.inj stepped] at done
            rcases receiveBittorrentPeerMessage_completed receive done with earlier | finished
            · exact .inl earlier
            · refine .inr (.inl ?_)
              rw [finishedPiece, if_neg (not_not_intro started), here]
              exact finished
    | update index outside =>
        refine .inl (kept ?_)
        rw [← Option.some.inj stepped]
        exact updateState_completedFlags outside before index
    | shrink =>
        refine .inl (kept ?_)
        rw [← Option.some.inj stepped]
        exact (updateBittorrentPieceCacheState_quiet options before).completedFlags
    | disconnect index =>
        refine .inl (kept ?_)
        rw [← Option.some.inj stepped]
        exact SameTable.completedFlags (leave_sameTable before index)
    | sort | handshakeSent =>
        refine .inl (kept ?_)
        rw [← Option.some.inj stepped]
        split <;> rfl
    | resume =>
        refine .inl (kept ?_)
        rw [← Option.some.inj stepped]
    | connect | sent | choke | unchoke =>
        refine .inl (kept ?_)
        rw [← Option.some.inj stepped]
        rfl
  · rename_i resuming
    cases event with
    | resume flags =>
        simp only [Option.some.injEq] at stepped
        rw [← stepped, bittorrentResumeReader] at done
        split at done
        · rw [completed_of_flags (endBittorrentResume_completedFlags _)] at done
          exact .inl done
        · rcases resumePieces_completed flags done with earlier | found
          · exact .inl earlier
          · exact .inr (.inr ⟨flags, rfl, resuming, found⟩)
    | _ =>
        rw [← Option.some.inj stepped] at done
        exact .inl done

theorem initial_completed (metainfo : BittorrentMeta) (resumeFd : Int) (piece : Nat) :
    ((initBittorrentPieceCache metainfo resumeFd).cache.entry piece).completed = false := by
  have flags : completedFlags (initBittorrentPieceCache metainfo resumeFd) =
      (emptyPieceCache metainfo.pieces).entries.map fun entry => entry.completed := by
    refine foldl_entries_map (fun cache piece => ?_) _ _
    exact map_modify_of_eq cache.entries piece fun _ => rfl
  have same := BittorrentPieceCache.entry_of_map (fun entry => entry.completed) flags piece
  rw [same, emptyPieceCache, BittorrentPieceCache.entry, List.getD_eq_getElem?_getD,
    List.getElem?_replicate]
  split <;> rfl

def eventAnswer : BittorrentEvent → Nat → BittorrentFileAnswer
  | .receive _ _ receive => receive.write.answer
  | _ => fun _ => noFileAnswer

def TakesFinished (options : BittorrentOptions) (before : BittorrentConnection)
    (event : BittorrentEvent) : Prop :=
  ∀ piece memory, finishedPiece options before event = some (piece, memory) →
    DiskTakes before.metainfo (eventAnswer event) piece

/-- The event writes all of a piece with the right hash, or finds the piece on disk. -/
def SavesPiece (options : BittorrentOptions) (piece : Nat) (before : BittorrentConnection)
    (event : BittorrentEvent) : Prop :=
  (∃ memory, finishedPiece options before event = some (piece, memory) ∧
    bittorrentPieceIsValid options before.metainfo piece memory = true ∧
    PieceWritten before.metainfo piece memory
      (bittorrentPieceWrites before.metainfo (eventAnswer event) memory piece)) ∨
  ∃ flags, event = .resume flags ∧ before.cache.resumeFd ≠ -1 ∧
    piece ∈ foundPieces before.cache.resumePos flags

def SavedInRun (options : BittorrentOptions) (initial : BittorrentConnection)
    (events : List BittorrentEvent) (piece : Nat) : Prop :=
  ∃ earlier event later before, events = earlier ++ event :: later ∧
    Run.run (bittorrentStep options) initial earlier = some before ∧
    SavesPiece options piece before event

theorem finishedMemory_valid {bittorrent : BittorrentConnection} {index piece offset length : Nat}
    {data memory : List UInt8}
    (finished : finishedMemory options bittorrent index piece offset length data = some memory) :
    bittorrentPieceIsValid options bittorrent.metainfo piece memory = true := by
  obtain ⟨request, _, found⟩ := Option.bind_eq_some_iff.mp finished
  dsimp only at found
  split at found
  · rename_i valid
    rw [← Option.some.inj found]
    exact (Bool.and_eq_true_iff.mp valid).2
  · simp at found

theorem finishedPiece_valid {bittorrent : BittorrentConnection} {event : BittorrentEvent}
    {piece : Nat} {memory : List UInt8}
    (finished : finishedPiece options bittorrent event = some (piece, memory)) :
    bittorrentPieceIsValid options bittorrent.metainfo piece memory = true := by
  cases event with
  | receive index data receive =>
      rw [finishedPiece] at finished
      split at finished
      · simp at finished
      · obtain ⟨peer, _, message⟩ := Option.bind_eq_some_iff.mp finished
        simp only [messagePiece] at message
        split at message
        · simp at message
        · obtain ⟨found, completed, same⟩ := Option.map_eq_some_iff.mp message
          rw [Prod.mk.injEq] at same
          rw [← same.1, ← same.2]
          exact finishedMemory_valid completed
  | _ => simp [finishedPiece] at finished

theorem savesPiece_of_completed {before after : BittorrentConnection} {event : BittorrentEvent}
    {piece : Nat} (takes : TakesFinished options before event)
    (stepped : bittorrentStep options before event = some after)
    (done : (after.cache.entry piece).completed = true) :
    (before.cache.entry piece).completed = true ∨ SavesPiece options piece before event := by
  rcases bittorrentStep_completed stepped done with earlier | ⟨memory, finished⟩ | found
  · exact .inl earlier
  · exact .inr (.inl ⟨memory, finished, finishedPiece_valid finished,
      (takes piece memory finished).written memory⟩)
  · exact .inr (.inr found)

theorem addToBittorrentPieceCache_takes {write : BittorrentWrite} {bittorrent : BittorrentConnection}
    {index piece offset length : Nat} {data : List UInt8}
    (takes : ∀ memory, finishedMemory options bittorrent index piece offset length data = some memory →
      DiskTakes bittorrent.metainfo write.answer piece) :
    (addToBittorrentPieceCache options write bittorrent index piece offset length data).2.1 = .ok := by
  simp only [addToBittorrentPieceCache]
  split
  · rfl
  · rename_i request pending
    split
    · rfl
    · rename_i full
      split
      · rfl
      · rename_i valid
        have finished : finishedMemory options bittorrent index piece offset length data =
            some (((receiveBlock bittorrent index request data).cache.entry piece).data.getD []) := by
          rw [finishedMemory, pending, Option.bind_some]
          dsimp only
          rw [if_pos]
          rw [Bool.and_eq_true]
          exact ⟨by simpa using full, by simpa using valid⟩
        have takes := takes _ finished
        rw [← receiveBlock_metainfo bittorrent index request data] at takes
        simp only [completePiece, takes.translation]
        rfl

/-- Whatever happens to a torrent, as long as its files take the pieces that are finished,
every piece that is announced is in memory or on disk, and no call fails with a piece completed. -/
theorem announcedPiece_readable {metainfo : BittorrentMeta} {resumeFd : Int}
    {events : List BittorrentEvent} {bittorrent : BittorrentConnection}
    (taken : Run.Admitted (bittorrentStep options) (TakesFinished options)
      (initBittorrentPieceCache metainfo resumeFd) events)
    (reached : Run.run (bittorrentStep options) (initBittorrentPieceCache metainfo resumeFd) events =
      some bittorrent) :
    (∀ piece, (bittorrent.cache.entry piece).completed = true ∨
        testBitfieldBit bittorrent.cache.bitfield piece = true →
      (∃ memory, (bittorrent.cache.entry piece).data = some memory ∧
        bittorrentPieceIsValid options metainfo piece memory = true) ∨
      SavedInRun options (initBittorrentPieceCache metainfo resumeFd) events piece) ∧
    ∀ write index piece offset length data,
      (∀ memory, finishedMemory options bittorrent index piece offset length data = some memory →
        DiskTakes metainfo write.answer piece) →
      (addToBittorrentPieceCache options write bittorrent index piece offset length data).2.1 ≠ .ok →
      ((addToBittorrentPieceCache options write bittorrent index piece offset length
        data).1.cache.entry piece).completed = false := by
  have metainfos := metainfo_run reached
  constructor
  · intro piece announced
    obtain ⟨stages, record⟩ := piecesRecorded_run reached
    have completed : (bittorrent.cache.entry piece).completed = true := by
      rw [record.table.recorded, decide_eq_true_eq, ← record.table.completed_iff, or_self] at announced
      exact announced
    rcases Run.run_cause (fun before event after takes stepped done =>
      savesPiece_of_completed takes stepped done) taken reached completed with started | saved
    · rw [initial_completed] at started
      exact absurd started (by decide)
    · exact .inr saved
  · intro write index piece offset length data takes failed
    rw [← metainfos] at takes
    exact absurd (addToBittorrentPieceCache_takes takes) failed

def sevenFile : BittorrentMeta := { singleFile with pieceHash := [7] }

def sevenArrives (answer : BittorrentFileAnswer) : BittorrentEvent :=
  .receive 0 [0, 0, 0, 10, 7, 0, 0, 0, 0, 0, 0, 0, 0, 7] ⟨⟨fun _ => answer, 0⟩, fun _ => 0⟩

theorem messagePiece_other {bittorrent : BittorrentConnection} {index : Nat}
    {peer : BittorrentPeerConnection} {buffer : ReadBuffer}
    (other : (checkBittorrentPeerMessage options buffer).1 ≠ .piece) :
    messagePiece options bittorrent index peer buffer = none :=
  if_pos (.inr (.inl other))

theorem takesFinished_other {before : BittorrentConnection} {event : BittorrentEvent}
    (other : ∀ index data receive, event = .receive index data receive →
      (checkBittorrentPeerMessage options ⟨data, receive.beyond⟩).1 ≠ .piece) :
    TakesFinished options before event := by
  intro piece memory finished
  cases event with
  | receive index data receive =>
      rw [finishedPiece] at finished
      split at finished
      · simp at finished
      · obtain ⟨peer, _, message⟩ := Option.bind_eq_some_iff.mp finished
        rw [messagePiece_other (other index data receive rfl)] at message
        simp at message
  | _ => simp [finishedPiece] at finished

theorem sevenFile_takes : DiskTakes sevenFile (fun _ => ⟨true, [], 1⟩) 0 := by
  refine ⟨fun place file there => ?_, by decide⟩
  cases place with
  | zero =>
      rw [← Option.some.inj there]
      exact fun _ _ => .inl ⟨rfl, rfl⟩
  | succ place => simp [sevenFile, singleFile] at there

theorem sevenArrives_takes {before : BittorrentConnection} (metainfo : before.metainfo = sevenFile) :
    TakesFinished (defaultBittorrentOptions id) before (sevenArrives ⟨true, [], 1⟩) := by
  intro piece memory finished
  rw [sevenArrives, finishedPiece] at finished
  split at finished
  · simp at finished
  · obtain ⟨peer, _, message⟩ := Option.bind_eq_some_iff.mp finished
    simp only [messagePiece] at message
    split at message
    · simp at message
    · obtain ⟨found, _, same⟩ := Option.map_eq_some_iff.mp message
      rw [Prod.mk.injEq] at same
      rw [metainfo, ← same.1]
      exact sevenFile_takes

theorem announcedPiece_readable_seven :
    ∃ bittorrent,
      Run.run (bittorrentStep (defaultBittorrentOptions id)) (initBittorrentPieceCache sevenFile 3)
          (singleBlockEvents ++ [sevenArrives ⟨true, [], 1⟩]) = some bittorrent ∧
      testBitfieldBit bittorrent.cache.bitfield 0 = true ∧
      ((∃ memory, (bittorrent.cache.entry 0).data = some memory ∧
          bittorrentPieceIsValid (defaultBittorrentOptions id) sevenFile 0 memory = true) ∨
        SavedInRun (defaultBittorrentOptions id) (initBittorrentPieceCache sevenFile 3)
          (singleBlockEvents ++ [sevenArrives ⟨true, [], 1⟩]) 0) := by
  have taken : Run.Admitted (bittorrentStep (defaultBittorrentOptions id))
      (TakesFinished (defaultBittorrentOptions id)) (initBittorrentPieceCache sevenFile 3)
      (singleBlockEvents ++ [sevenArrives ⟨true, [], 1⟩]) := by
    refine Run.admitted_append ?_ fun middle reached => ?_
    · refine Run.admitted_of_inputs (fun event member before => takesFinished_other ?_) _
      intro index data receive same
      subst same
      simp only [singleBlockEvents, List.mem_cons, reduceCtorEq, BittorrentEvent.receive.injEq,
        List.not_mem_nil, or_false, false_or] at member
      rcases member with ⟨_, rfl, rfl⟩ | ⟨_, rfl, rfl⟩ <;> decide +kernel
    · exact ⟨sevenArrives_takes (metainfo_run reached), fun _ _ => trivial⟩
  obtain ⟨bittorrent, reached⟩ : ∃ bittorrent,
      Run.run (bittorrentStep (defaultBittorrentOptions id)) (initBittorrentPieceCache sevenFile 3)
        (singleBlockEvents ++ [sevenArrives ⟨true, [], 1⟩]) = some bittorrent :=
    Option.isSome_iff_exists.mp (by decide +kernel)
  have announced : ((Run.run (bittorrentStep (defaultBittorrentOptions id))
      (initBittorrentPieceCache sevenFile 3) (singleBlockEvents ++ [sevenArrives ⟨true, [], 1⟩])).map
        fun state => testBitfieldBit state.cache.bitfield 0) = some true := by decide +kernel
  rw [reached, Option.map_some, Option.some.injEq] at announced
  exact ⟨bittorrent, reached, announced,
    (announcedPiece_readable taken reached).1 0 (.inr announced)⟩

/-- When the disk is full the call fails with its piece completed; when the file cannot be
opened either, and no error number says so, the piece is neither in memory nor on disk. -/
theorem announcedPiece_lost :
    ((Run.run (bittorrentStep (defaultBittorrentOptions id)) (initBittorrentPieceCache sevenFile 3)
        singleBlockEvents).map fun before =>
      let added := addToBittorrentPieceCache (defaultBittorrentOptions id)
        ⟨fun _ => ⟨true, [], 0⟩, 0⟩ before 0 0 0 1 [7]
      (added.2.1, (added.1.cache.entry 0).completed)) = some (.error, true) ∧
    ((Run.run (bittorrentStep (defaultBittorrentOptions id)) (initBittorrentPieceCache sevenFile 3)
        (singleBlockEvents ++ [sevenArrives ⟨false, [], 0⟩])).map fun after =>
      ((after.cache.entry 0).completed, testBitfieldBit after.cache.bitfield 0,
        (after.cache.entry 0).data)) = some (true, true, none) ∧
    bittorrentPieceWrites sevenFile (fun _ => ⟨false, [], 0⟩) [7] 0 = [] := by
  decide +kernel

end KcnTools.Bittorrent
