import KcnTools.Bittorrent.PieceTable
import KcnTools.Bittorrent.PeerCodec

/-!
The counters of pieces in every state of a torrent. Only the count of loading pieces can be
off, by what starting and resuming take off it until the end of resuming resets it.
-/

namespace KcnTools.Bittorrent

open Modify

variable {options : BittorrentOptions} {metainfo : BittorrentMeta} {stages : List PieceStage}
  {cache : BittorrentPieceCache}

/-- While pieces are looked for on disk nobody is connected, nothing is loaded and
the pieces from `resumePos` on are untouched. -/
structure Resuming (bittorrent : BittorrentConnection) (stages : List PieceStage) : Prop where
  alone : bittorrent.peers = []
  idle : ∀ piece, stageAt stages piece ≠ .loading
  ahead : ∀ piece, bittorrent.cache.resumePos ≤ piece → piece < bittorrent.metainfo.pieces →
    stageAt stages piece = .remaining

/-- How far the count of loading pieces is behind: every piece takes one off it at the start,
and so does every piece found on disk, until the end of resuming sets it to zero. -/
def loadingDebt (resumeFd : Int) (bittorrent : BittorrentConnection) : Nat :=
  if resumeFd = -1 then bittorrent.metainfo.pieces
  else if bittorrent.cache.resumeFd = -1 then 0
  else bittorrent.metainfo.pieces + bittorrent.cache.completedPieces

structure PieceRecord (resumeFd : Int) (bittorrent : BittorrentConnection)
    (stages : List PieceStage) : Prop where
  table : PieceTable bittorrent.metainfo stages bittorrent.cache
  loading : bittorrent.cache.loadingPieces =
    moveCounter (stages.count .loading) (-loadingDebt resumeFd bittorrent)
  resuming : bittorrent.cache.resumeFd ≠ -1 → Resuming bittorrent stages
  unresumed : resumeFd = -1 → bittorrent.cache.resumeFd = -1

variable {resumeFd : Int} {before next : BittorrentConnection}

theorem PieceRecord.same (record : PieceRecord resumeFd before stages)
    (same : SameTable before.cache next.cache) (metainfo : next.metainfo = before.metainfo)
    (peers : next.peers.length ≤ before.peers.length) : PieceRecord resumeFd next stages where
  table := by
    rw [metainfo]
    exact record.table.same same
  loading := by
    rw [same.loadingPieces, record.loading, loadingDebt, loadingDebt, metainfo, same.resumeFd,
      same.completedPieces]
  resuming still := by
    have resuming := record.resuming (same.resumeFd ▸ still)
    constructor
    · rw [resuming.alone] at peers
      exact List.eq_nil_of_length_eq_zero (Nat.le_zero.mp peers)
    · exact resuming.idle
    · rw [same.resumePos still, metainfo]
      exact resuming.ahead
  unresumed never := by rw [same.resumeFd, record.unresumed never]

theorem PieceRecord.move (record : PieceRecord resumeFd before stages)
    (started : before.cache.resumeFd = -1) {piece : Nat} {old new : PieceStage}
    (here : stageAt stages piece = old) (wanted : old ≠ .unwanted) (uncompleted : old ≠ .completed)
    (moved : PieceMove piece old new before.cache next.cache)
    (metainfo : next.metainfo = before.metainfo)
    (descriptor : next.cache.resumeFd = before.cache.resumeFd)
    (loading : next.cache.loadingPieces =
      moveCounter before.cache.loadingPieces (new.weight .loading - old.weight .loading)) :
    PieceRecord resumeFd next (stages.set piece new) where
  table := by
    rw [metainfo]
    exact record.table.move here (stageAt_lt (here ▸ wanted)) uncompleted moved
  loading := by
    have inside : piece < stages.length := stageAt_lt (here ▸ wanted)
    have debt : loadingDebt resumeFd next = loadingDebt resumeFd before := by
      simp only [loadingDebt, metainfo, descriptor, started, if_true]
    rw [loading, debt]
    exact moveCounter_stage here inside record.loading
  resuming still := absurd (descriptor.trans started) still
  unresumed _ := descriptor.trans started

theorem moveCounter_inside {position : Nat} (inside : position < metainfo.pieces) :
    moveCounter position 1 = position + 1 := by
  have small := pieces_lt metainfo
  exact moveCounter_of_sum (by omega) (by omega)

theorem PieceRecord.skipped (record : PieceRecord resumeFd before stages)
    (inside : before.cache.resumePos < before.metainfo.pieces) :
    PieceRecord resumeFd (advanceResume before) stages where
  table := ⟨record.table.1, record.table.2, record.table.3, record.table.4, record.table.5,
    record.table.6⟩
  loading := record.loading
  resuming still := by
    have still := record.resuming still
    refine ⟨still.alone, still.idle, fun piece reached => still.ahead piece ?_⟩
    simp only [advanceResume, moveCounter_inside inside] at reached
    omega
  unresumed := record.unresumed

theorem PieceRecord.resumed (record : PieceRecord resumeFd before stages)
    (resuming : before.cache.resumeFd ≠ -1)
    (inside : before.cache.resumePos < before.metainfo.pieces) :
    PieceRecord resumeFd (resumePiece (advanceResume before) before.cache.resumePos)
      (stages.set before.cache.resumePos .completed) := by
  have still := record.resuming resuming
  have here := still.ahead before.cache.resumePos (Nat.le_refl _) inside
  have skipped := record.skipped inside
  have moved := skipped.table.move here (stageAt_lt (by rw [here]; decide)) (by decide)
    (resumePiece_move (advanceResume before) before.cache.resumePos)
  have started : resumeFd ≠ -1 := fun never => resuming (record.unresumed never)
  have stagesInside : before.cache.resumePos < stages.length := by rwa [record.table.size]
  have idle : (stages.set before.cache.resumePos .completed).count .loading =
      stages.count .loading := count_loading_set here stagesInside (by decide) (by decide)
  have counted := count_stage_set here stagesInside .completed .completed
  rw [← moved.completedPieces, ← record.table.completedPieces] at counted
  refine ⟨moved, ?_, fun _ => ?_, fun never => absurd never started⟩
  · have later : (resumePiece (advanceResume before) before.cache.resumePos).cache.resumeFd ≠ -1 :=
      resuming
    rw [idle]
    change moveCounter before.cache.loadingPieces (-1) = _
    rw [record.loading, moveCounter_moveCounter, loadingDebt, loadingDebt, if_neg started,
      if_neg started, if_neg resuming, if_neg later]
    congr 1
    simp only [PieceStage.weight, if_true, reduceCtorEq, if_false] at counted
    change _ = -((before.metainfo.pieces + _ : Nat) : Int)
    omega
  · refine ⟨still.alone, fun piece => ?_, fun piece reached smaller => ?_⟩
    · rw [stageAt_set _ _ _ _ stagesInside]
      split
      · decide
      · exact still.idle piece
    · change moveCounter before.cache.resumePos 1 ≤ piece at reached
      rw [moveCounter_inside inside] at reached
      rw [stageAt_set _ _ _ _ stagesInside, if_neg (by omega)]
      exact still.ahead piece (by omega) smaller

theorem count_loading_zero (idle : ∀ piece, stageAt stages piece ≠ .loading) :
    stages.count .loading = 0 := by
  rw [List.count_eq_zero]
  intro member
  obtain ⟨piece, inside, found⟩ := List.getElem_of_mem member
  refine idle piece ?_
  rw [stageAt, List.getD_eq_getElem _ _ inside, found]

theorem PieceRecord.ended (table : PieceTable before.metainfo stages before.cache)
    (idle : ∀ piece, stageAt stages piece ≠ .loading) (started : resumeFd ≠ -1) :
    ∃ prepared, PieceRecord resumeFd (endBittorrentResume options before) prepared := by
  obtain ⟨prepared, ended, same⟩ := endBittorrentResume_table options table
  have descriptor := endBittorrentResume_resumeFd options before
  refine ⟨prepared, ?_, ?_, fun resumes => absurd descriptor resumes, fun _ => descriptor⟩
  · rw [endBittorrentResume_metainfo]
    exact ended
  · rw [same, count_loading_zero idle, loadingDebt, if_neg started, if_pos descriptor]
    rfl

theorem PieceRecord.started_of_loading (record : PieceRecord resumeFd before stages) {piece : Nat}
    (loading : stageAt stages piece = .loading) : before.cache.resumeFd = -1 := by
  by_contra resuming
  exact (record.resuming resuming).idle piece loading

theorem PieceRecord.started_of_peer (record : PieceRecord resumeFd before stages) {index : Nat}
    {peer : BittorrentPeerConnection} (here : before.peers[index]? = some peer) :
    before.cache.resumeFd = -1 := by
  by_contra resuming
  rw [(record.resuming resuming).alone] at here
  simp at here

theorem PieceRecord.received (record : PieceRecord resumeFd before stages) (index : Nat)
    (request : BittorrentPeerRequest) (data : List UInt8) :
    PieceRecord resumeFd (receiveBlock before index request data) stages := by
  refine record.same (receiveBlock_sameTable before index request data) ?_ ?_
  · simp only [receiveBlock]
    split <;> rfl
  · have views := congrArg List.length (remoteViews_receiveBlock before index request data)
    simp only [remoteViews, List.length_map] at views
    exact Nat.le_of_eq views

theorem PieceRecord.step {after : BittorrentConnection}
    (step : BittorrentTransition options before after)
    (record : PieceRecord resumeFd before stages) :
    ∃ stages, PieceRecord resumeFd after stages := by
  have metainfo := step.metainfo_eq
  have peers := step.peers_length_le
  cases step with
  | quiet quiet => exact ⟨stages, record.same quiet.cache.sameTable metainfo peers⟩
  | sort | serve => exact ⟨stages, record.same (SameTable.refl _) metainfo peers⟩
  | take =>
      exact ⟨stages, record.same ⟨rfl, fun _ => rfl, rfl, rfl, rfl, rfl, rfl⟩ metainfo peers⟩
  | clone =>
      refine ⟨stages, record.same ?_ metainfo peers⟩
      change SameTable before.cache (cloneBittorrentPeerRequest before _).1.cache
      rw [cloneBittorrentPeerRequest_cache]
      exact SameTable.refl _
  | requeue =>
      exact ⟨stages, record.same (addRequest_sameTable (before.modifyPeer _ _) _) metainfo peers⟩
  | leave index => exact ⟨stages, record.same (leave_sameTable before index) metainfo peers⟩
  | store data => exact ⟨stages, record.received _ _ data⟩
  | haveMessage =>
      exact ⟨stages, record.same (updateBittorrentPieceCache_sameTable _ _) metainfo peers⟩
  | bitfield =>
      exact ⟨stages, record.same (foldl_sameTable updateBittorrentPieceCache_sameTable _ _)
        metainfo peers⟩
  | split here remaining =>
      have started := record.started_of_peer here
      have stage := record.table.stage_of_remaining remaining
      exact ⟨_, record.move started stage (by decide) (by decide) (addPiece_move options before _)
        metainfo rfl rfl⟩
  | @reject index piece _ _ request blocks data pending loading full =>
      have received := record.received index request data
      have stage := received.table.stage_of_blocks loading
      have started := received.started_of_loading stage
      exact ⟨_, received.move started stage (by decide) (by decide) (rejectPiece_move _ _)
        rfl rfl rfl⟩
  | @complete index piece _ _ request blocks data pending loading full =>
      have received := record.received index request data
      have stage := received.table.stage_of_blocks loading
      have started := received.started_of_loading stage
      exact ⟨_, received.move started stage (by decide) (by decide) (fillPiece_move _ _)
        rfl rfl rfl⟩
  | skipped resuming inside => exact ⟨stages, record.skipped inside⟩
  | resumed resuming inside => exact ⟨_, record.resumed resuming inside⟩
  | ended resuming position =>
      refine PieceRecord.ended ?_ (record.resuming resuming).idle
        fun never => resuming (record.unresumed never)
      exact ⟨record.table.1, record.table.2, record.table.3, record.table.4, record.table.5,
        record.table.6⟩

theorem PieceRecord.connect (record : PieceRecord resumeFd before stages)
    (started : before.cache.resumeFd = -1) : PieceRecord resumeFd (connectPeer before) stages :=
  ⟨record.table, record.loading, fun resuming => absurd started resuming, record.unresumed⟩

/-- The first pieces of a new table are wanted, and each has taken one off the count of
loading pieces. -/
structure FreshTable (metainfo : BittorrentMeta) (count : Nat) (stages : List PieceStage)
    (cache : BittorrentPieceCache) : Prop where
  table : PieceTable metainfo stages cache
  stage : ∀ piece, stageAt stages piece = if piece < count then .remaining else .unwanted
  completedPieces : cache.completedPieces = 0
  loadingPieces : cache.loadingPieces = moveCounter 0 (-count)

theorem stageAt_replicate (count piece : Nat) :
    stageAt (List.replicate count .unwanted) piece = .unwanted := by
  rw [stageAt, List.getD_eq_getElem?_getD, List.getElem?_replicate]
  split <;> rfl

theorem freshTable_empty (metainfo : BittorrentMeta) :
    FreshTable metainfo 0 (List.replicate metainfo.pieces .unwanted)
      (emptyPieceCache metainfo.pieces) where
  table := by
    constructor
    · exact List.length_replicate
    · simp [emptyPieceCache, blankEntry, pieceFlags, PieceStage.flags]
    · rfl
    · intro piece
      simp [emptyPieceCache, stageAt_replicate]
    · simp [emptyPieceCache, List.count_replicate]
    · simp [emptyPieceCache, List.count_replicate]
  stage piece := by
    rw [stageAt_replicate, if_neg (Nat.not_lt_zero piece)]
  completedPieces := rfl
  loadingPieces := rfl

theorem FreshTable.succ {count : Nat} (fresh : FreshTable metainfo count stages cache)
    (inside : count < metainfo.pieces) :
    FreshTable metainfo (count + 1) (stages.set count .remaining)
      (setBittorrentPieceCacheRemaining cache count 1) := by
  have stagesInside : count < stages.length := by rwa [fresh.table.size]
  have here : stageAt stages count = .unwanted := by rw [fresh.stage, if_neg (Nat.lt_irrefl _)]
  constructor
  · exact fresh.table.move here stagesInside (by decide) (wantPiece_move cache count)
  · intro piece
    rw [stageAt_set _ _ _ _ stagesInside, fresh.stage]
    split <;> split <;> first | rfl | omega | (split <;> first | rfl | omega)
  · exact fresh.completedPieces
  · change moveCounter cache.loadingPieces (-1) = _
    rw [fresh.loadingPieces, moveCounter_moveCounter]
    congr 1
    omega

theorem freshTable_foldl (metainfo : BittorrentMeta) (count : Nat) (inside : count ≤ metainfo.pieces) :
    ∃ stages, FreshTable metainfo count stages
      ((List.range count).foldl (fun cache piece => setBittorrentPieceCacheRemaining cache piece 1)
        (emptyPieceCache metainfo.pieces)) := by
  induction count with
  | zero => exact ⟨_, freshTable_empty metainfo⟩
  | succ count ih =>
      obtain ⟨stages, fresh⟩ := ih (by omega)
      refine ⟨stages.set count .remaining, ?_⟩
      rw [List.range_succ, List.foldl_append]
      exact fresh.succ (by omega)

theorem PieceRecord.initial (metainfo : BittorrentMeta) (resumeFd : Int) :
    ∃ stages, PieceRecord resumeFd (initBittorrentPieceCache metainfo resumeFd) stages := by
  obtain ⟨stages, fresh⟩ := freshTable_foldl metainfo metainfo.pieces (Nat.le_refl _)
  have table := fresh.table
  have idle : ∀ piece, stageAt stages piece ≠ .loading := by
    intro piece
    rw [fresh.stage]
    split <;> decide
  refine ⟨stages, ⟨table.1, table.2, table.3, table.4, table.5, table.6⟩, ?_, fun _ => ?_,
    fun never => never⟩
  · have nothing : (initBittorrentPieceCache metainfo resumeFd).cache.completedPieces = 0 :=
      fresh.completedPieces
    have debt : loadingDebt resumeFd (initBittorrentPieceCache metainfo resumeFd) =
        metainfo.pieces := by
      simp only [loadingDebt, nothing, Nat.add_zero]
      split
      · rfl
      · rename_i resumes
        exact if_neg resumes
    rw [debt, count_loading_zero idle]
    exact fresh.loadingPieces
  · refine ⟨rfl, idle, fun piece _ inside => ?_⟩
    rw [fresh.stage]
    exact if_pos inside

def PiecesRecorded (resumeFd : Int) (bittorrent : BittorrentConnection) : Prop :=
  ∃ stages, PieceRecord resumeFd bittorrent stages

theorem PiecesRecorded.step {after : BittorrentConnection}
    (step : BittorrentTransition options before after) (recorded : PiecesRecorded resumeFd before) :
    PiecesRecorded resumeFd after := by
  obtain ⟨stages, record⟩ := recorded
  exact record.step step

theorem PiecesRecorded.connect (recorded : PiecesRecorded resumeFd before)
    (started : before.cache.resumeFd = -1) : PiecesRecorded resumeFd (connectPeer before) := by
  obtain ⟨stages, record⟩ := recorded
  exact ⟨stages, record.connect started⟩

theorem piecesRecorded_run {metainfo : BittorrentMeta} {resumeFd : Int}
    {events : List BittorrentEvent} {bittorrent : BittorrentConnection}
    (reached : Run.run (bittorrentStep options) (initBittorrentPieceCache metainfo resumeFd) events =
      some bittorrent) : PiecesRecorded resumeFd bittorrent := by
  refine Run.run_preserves (PiecesRecorded resumeFd) ?_ (PieceRecord.initial metainfo resumeFd)
    (Run.admitted_of_forall (fun _ _ => trivial) _ events) reached
  intro before event after recorded _ stepped
  exact bittorrentStep_preserves (fun _ _ => PiecesRecorded.step)
    (fun _ started => recorded.connect started) stepped recorded

/-- The counts that are right whether or not resuming has ended. -/
structure PiecesCounted (cache : BittorrentPieceCache) : Prop where
  completed : cache.completedPieces = cache.entries.countP fun entry => entry.completed
  recorded : cache.completedPieces = getBitfieldSetCount cache.bitfield
  remaining : cache.remainingPieces = cache.entries.countP fun entry => entry.remaining
  disjoint : ∀ entry ∈ cache.entries,
    ¬(entry.completed = true ∧ entry.remaining = true) ∧
    ¬(entry.completed = true ∧ entry.blocks.isSome = true) ∧
    ¬(entry.remaining = true ∧ entry.blocks.isSome = true)

structure CountersAgree (cache : BittorrentPieceCache) : Prop extends PiecesCounted cache where
  loading : cache.loadingPieces = cache.entries.countP fun entry => entry.blocks.isSome

theorem PieceTable.countP_flags (table : PieceTable metainfo stages cache)
    (flag : Bool × Bool × Bool → Bool) {stage : PieceStage}
    (marks : ∀ other : PieceStage, flag other.flags = (other == stage)) :
    cache.entries.countP (fun entry => flag (pieceFlags entry)) = stages.count stage := by
  have mapped : (cache.entries.map pieceFlags).countP flag =
      cache.entries.countP fun entry => flag (pieceFlags entry) := List.countP_map
  rw [← mapped, table.described, List.countP_map, List.count]
  congr 1
  funext other
  exact marks other

theorem PieceTable.setCount (table : PieceTable metainfo stages cache) :
    getBitfieldSetCount cache.bitfield = stages.count .completed := by
  have read := map_getD_range stages .unwanted
  rw [table.size] at read
  rw [getBitfieldSetCount, bitfieldSetBits, table.bitsize, ← List.countP_eq_length_filter]
  conv_rhs => rw [← read, List.count, List.countP_map]
  congr 1
  funext piece
  rw [table.recorded]
  rfl

theorem PieceTable.counted (table : PieceTable metainfo stages cache) : PiecesCounted cache where
  completed := by
    rw [table.completedPieces]
    exact (table.countP_flags (fun flags => flags.2.2) fun other => by cases other <;> rfl).symm
  recorded := table.completedPieces.trans table.setCount.symm
  remaining := by
    rw [table.remainingPieces]
    exact (table.countP_flags (fun flags => flags.1) fun other => by cases other <;> rfl).symm
  disjoint entry member := by
    have flags : pieceFlags entry ∈ stages.map PieceStage.flags := by
      rw [← table.described]
      exact List.mem_map_of_mem member
    obtain ⟨stage, _, shown⟩ := List.mem_map.mp flags
    simp only [pieceFlags] at shown
    cases stage <;> simp_all [PieceStage.flags]

theorem moveCounter_debt {count debt : Nat} (small : count < 2 ^ 32) (bound : debt < 2 ^ 32) :
    moveCounter count (-debt) = count ↔ debt = 0 := by
  simp only [moveCounter]
  omega

theorem PieceRecord.debt_lt {bittorrent : BittorrentConnection} {resumeFd : Int}
    (record : PieceRecord resumeFd bittorrent stages) : loadingDebt resumeFd bittorrent < 2 ^ 32 := by
  have small := pieces_lt bittorrent.metainfo
  have most := record.table.count_le .completed
  rw [← record.table.completedPieces] at most
  simp only [loadingDebt]
  split
  · omega
  · split <;> omega

/-- Whatever happens to a torrent, its counters agree with the piece table exactly when
the resume thread could be started and resuming has ended. -/
theorem countersAgree_iff {metainfo : BittorrentMeta} {resumeFd : Int}
    {events : List BittorrentEvent} {bittorrent : BittorrentConnection}
    (reached : Run.run (bittorrentStep options) (initBittorrentPieceCache metainfo resumeFd) events =
      some bittorrent) :
    CountersAgree bittorrent.cache ↔ resumeFd ≠ -1 ∧ bittorrent.cache.resumeFd = -1 := by
  obtain ⟨stages, record⟩ := piecesRecorded_run reached
  have loading : bittorrent.cache.entries.countP (fun entry => entry.blocks.isSome) =
      stages.count .loading :=
    record.table.countP_flags (fun flags => flags.2.1) fun other => by cases other <;> rfl
  have most := record.table.count_le .loading
  have small := pieces_lt bittorrent.metainfo
  have agrees : CountersAgree bittorrent.cache ↔ loadingDebt resumeFd bittorrent = 0 := by
    rw [← moveCounter_debt (show stages.count .loading < 2 ^ 32 by omega) record.debt_lt,
      ← record.loading, ← loading]
    exact ⟨fun agree => agree.loading, fun equal => ⟨record.table.counted, equal⟩⟩
  have positive := bittorrent.metainfo.piecesPositive
  rw [agrees, loadingDebt]
  split
  · rename_i never
    constructor
    · omega
    · exact fun both => absurd never both.1
  · rename_i started
    split
    · rename_i ended
      exact ⟨fun _ => ⟨started, ended⟩, fun _ => rfl⟩
    · rename_i resuming
      constructor
      · omega
      · exact fun both => absurd both.2 resuming

/-- One piece, found on disk by a resume thread that then ends. -/
theorem countersAgree_iff_resumed :
    ∃ bittorrent,
      Run.run (bittorrentStep (defaultBittorrentOptions id))
          (initBittorrentPieceCache (singlePiece 1 (by decide) (by decide)) 3)
          [.resume [1], .resume []] = some bittorrent ∧
      (CountersAgree bittorrent.cache ↔ (3 : Int) ≠ -1 ∧ bittorrent.cache.resumeFd = -1) := by
  obtain ⟨bittorrent, reached⟩ : ∃ bittorrent,
      Run.run (bittorrentStep (defaultBittorrentOptions id))
          (initBittorrentPieceCache (singlePiece 1 (by decide) (by decide)) 3)
          [.resume [1], .resume []] = some bittorrent := ⟨_, rfl⟩
  exact ⟨bittorrent, reached, countersAgree_iff reached⟩

/-- Without a resume thread a torrent starts with 2^32 - 1 pieces that are loading. -/
theorem countersAgree_unresumed :
    (initBittorrentPieceCache (singlePiece 1 (by decide) (by decide)) (-1)).cache.loadingPieces =
        2 ^ 32 - 1 ∧
      ¬CountersAgree
        (initBittorrentPieceCache (singlePiece 1 (by decide) (by decide)) (-1)).cache := by
  refine ⟨by decide +kernel, fun agree => ?_⟩
  have loading := agree.loading
  revert loading
  decide +kernel

end KcnTools.Bittorrent
