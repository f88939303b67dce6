import KcnTools.Bittorrent.PieceStorage
import KcnTools.Bittorrent.PieceTable
import Mathlib

/-! The marks that `prepare_partial_bittorrent_download` gives to the pieces, against the
files that a piece has bytes in. -/

namespace KcnTools.Bittorrent

open Modify

section Seek
variable {pieceLength torrentOffset : Nat}

instance (start length : Nat) : Decidable (ReachesFile torrentOffset pieceLength start length) :=
  inferInstanceAs (Decidable (_ ∧ _))

def reachedSelections (pieceLength torrentOffset : Nat) : List BittorrentFile → Nat → List Bool
  | [], _ => []
  | file :: files, start =>
      if ReachesFile torrentOffset pieceLength start file.length then
        file.selected :: reachedSelections pieceLength torrentOffset files (start + file.length)
      else reachedSelections pieceLength torrentOffset files (start + file.length)

theorem reachedSelections_beyond {files : List BittorrentFile} {start : Nat}
    (beyond : torrentOffset + pieceLength ≤ start) : reachedSelections pieceLength torrentOffset files start = [] := by
  induction files generalizing start with
  | nil => rfl
  | cons file files ih =>
      rw [reachedSelections, if_neg (by rintro ⟨_, before⟩; omega)]
      exact ih (by omega)

theorem mem_reachedSelections {files : List BittorrentFile} {start : Nat} {choice : Bool} :
    choice ∈ reachedSelections pieceLength torrentOffset files start ↔
      ∃ index file, files[index]? = some file ∧ file.selected = choice ∧
        ReachesFile torrentOffset pieceLength (start + fileStart files index) file.length := by
  induction files generalizing start with
  | nil => simp [reachedSelections]
  | cons file files ih =>
      have later : (∃ index other, files[index]? = some other ∧ other.selected = choice ∧
          ReachesFile torrentOffset pieceLength (start + file.length + fileStart files index) other.length) →
          ∃ index other, (file :: files)[index]? = some other ∧ other.selected = choice ∧
            ReachesFile torrentOffset pieceLength (start + fileStart (file :: files) index) other.length := by
        rintro ⟨index, other, there, chosen, reached⟩
        refine ⟨index + 1, other, there, chosen, ?_⟩
        rw [fileStart_succ, ← Nat.add_assoc]
        exact reached
      have earlier {index : Nat} {other : BittorrentFile} (there : (file :: files)[index + 1]? = some other)
          (chosen : other.selected = choice) (reached : ReachesFile torrentOffset pieceLength
            (start + fileStart (file :: files) (index + 1)) other.length) :
          choice ∈ reachedSelections pieceLength torrentOffset files (start + file.length) := by
        rw [fileStart_succ, ← Nat.add_assoc] at reached
        exact ih.mpr ⟨index, other, there, chosen, reached⟩
      rw [reachedSelections]
      split
      next here =>
        rw [List.mem_cons]
        constructor
        · rintro (rfl | inside)
          · exact ⟨0, file, rfl, rfl, here⟩
          · exact later (ih.mp inside)
        · rintro ⟨_ | index, other, there, chosen, reached⟩
          · cases there
            exact .inl chosen.symm
          · exact .inr (earlier there chosen reached)
      next away =>
        constructor
        · intro inside
          exact later (ih.mp inside)
        · rintro ⟨_ | index, other, there, chosen, reached⟩
          · cases there
            exact absurd reached away
          · exact earlier there chosen reached

def seekSelection (loop : BittorrentPieceCacheEntry × Option Bool) (selected : Bool) :
    BittorrentPieceCacheEntry × Option Bool :=
  (seekEntry loop.1 ⟨0, selected, []⟩ loop.2, some selected)

theorem translateFiles_seek (answer : Nat → BittorrentFileAnswer) (positive : 0 < pieceLength)
    (files : List BittorrentFile) (index : Nat)
    (loop : PieceTranslation) (inStep : loop.pieceOffset = min pieceLength (loop.currentOffset - torrentOffset)) :
    let result := translateFiles .seek pieceLength torrentOffset answer files index loop
    (result.loop.entry, result.loop.previous) =
      (reachedSelections pieceLength torrentOffset files loop.currentOffset).foldl seekSelection
        (loop.entry, loop.previous) := by
  induction files generalizing index loop with
  | nil => rfl
  | cons file files ih =>
      rw [translateFiles]
      split
      next filled =>
        rw [reachedSelections_beyond (by omega)]
        rfl
      next unfilled =>
        rw [reachedSelections]
        split
        next passed =>
          rw [if_neg (by rintro ⟨reached, _⟩; omega)]
          exact ih _ { loop with currentOffset := loop.currentOffset + file.length }
            (inStep.trans (passed_pieceOffset passed))
        next notPassed =>
          have reached : ReachesFile torrentOffset pieceLength loop.currentOffset file.length :=
            ⟨by omega, by omega⟩
          have pieceOffset := step_pieceOffset reached
          rw [← step_dataLength reached, ← inStep] at pieceOffset
          rw [if_pos reached, if_pos rfl]
          exact ih _ ⟨seekEntry loop.entry file loop.previous, _, loop.currentOffset + file.length,
            some file.selected⟩ pieceOffset

theorem seekSelections_selected (selections : List Bool) (loop : BittorrentPieceCacheEntry × Option Bool) :
    (selections.foldl seekSelection loop).1.selected = (loop.1.selected || selections.contains true) := by
  induction selections generalizing loop with
  | nil => simp
  | cons selected selections ih =>
      rw [List.foldl_cons, ih, List.contains_cons, ← Bool.or_assoc]
      cases selected <;> rfl

theorem seekSelections_locked (selections : List Bool) (entry : BittorrentPieceCacheEntry) (previous : Bool) :
    (selections.foldl seekSelection (entry, some previous)).1.locked =
      (entry.locked || selections.contains !previous) := by
  induction selections generalizing entry previous with
  | nil => simp
  | cons selected selections ih =>
      rw [List.foldl_cons, seekSelection, ih, List.contains_cons]
      cases previous <;> cases selected <;> simp [seekEntry]

theorem seekSelections_marks (selections : List Bool) {entry : BittorrentPieceCacheEntry}
    (unselected : entry.selected = false) (unlocked : entry.locked = false) :
    let marked := (selections.foldl seekSelection (entry, none)).1
    (marked.selected = true ↔ true ∈ selections) ∧
      (marked.locked = true ↔ true ∈ selections ∧ false ∈ selections) := by
  refine ⟨?_, ?_⟩
  · rw [seekSelections_selected, unselected, Bool.false_or, List.contains_iff_mem]
  · cases selections with
    | nil => simp [unlocked]
    | cons first selections =>
        rw [List.foldl_cons, seekSelection, seekSelections_locked]
        cases first <;> simp [seekEntry, unlocked]

end Seek

section Marks
variable {metainfo : BittorrentMeta}

def SharesByte (metainfo : BittorrentMeta) (piece index : Nat) (file : BittorrentFile) : Prop :=
  ∃ byte, metainfo.pieceLength * piece ≤ byte ∧
    byte < metainfo.pieceLength * piece + getBittorrentPieceLength metainfo piece ∧
    fileStart metainfo.files index ≤ byte ∧ byte < fileStart metainfo.files index + file.length

def SharesSelection (metainfo : BittorrentMeta) (piece : Nat) (choice : Bool) : Prop :=
  ∃ index file, metainfo.files[index]? = some file ∧ file.selected = choice ∧ SharesByte metainfo piece index file

/-- The file has no byte in the piece, but it ends where the piece begins or is an empty one
inside of it. -/
def TouchesPiece (metainfo : BittorrentMeta) (piece index : Nat) (file : BittorrentFile) : Prop :=
  fileStart metainfo.files index + file.length = metainfo.pieceLength * piece ∨
    file.length = 0 ∧ metainfo.pieceLength * piece ≤ fileStart metainfo.files index ∧
      fileStart metainfo.files index < metainfo.pieceLength * piece + getBittorrentPieceLength metainfo piece

def TouchesSelection (metainfo : BittorrentMeta) (piece : Nat) (choice : Bool) : Prop :=
  ∃ index file, metainfo.files[index]? = some file ∧ file.selected = choice ∧ TouchesPiece metainfo piece index file

/-- Selected is what has a byte to download, and locked what has a byte of both kinds. -/
structure MarkedRight (metainfo : BittorrentMeta) (piece : Nat) (entry : BittorrentPieceCacheEntry) : Prop where
  selected : entry.selected = true ↔ SharesSelection metainfo piece true
  locked : entry.locked = true ↔ SharesSelection metainfo piece true ∧ SharesSelection metainfo piece false

theorem reachesFile_iff (piece index : Nat) (file : BittorrentFile) :
    ReachesFile (metainfo.pieceLength * piece) (getBittorrentPieceLength metainfo piece)
        (0 + fileStart metainfo.files index) file.length ↔
      SharesByte metainfo piece index file ∨ TouchesPiece metainfo piece index file := by
  have positive := getBittorrentPieceLength_positive metainfo piece
  simp only [ReachesFile, SharesByte, TouchesPiece, Nat.zero_add]
  generalize metainfo.pieceLength * piece = offset
  constructor
  · rintro ⟨ends, starts⟩
    by_cases inside : max offset (fileStart metainfo.files index) < fileStart metainfo.files index + file.length
    · exact .inl ⟨max offset (fileStart metainfo.files index), by omega, by omega, by omega, inside⟩
    · exact .inr (by omega)
  · rintro (⟨byte, lower, upper, starts, ends⟩ | touches)
    · omega
    · omega

theorem reachesSelection_iff (piece : Nat) (choice : Bool) :
    choice ∈ reachedSelections (getBittorrentPieceLength metainfo piece) (metainfo.pieceLength * piece) metainfo.files
    0 ↔
      SharesSelection metainfo piece choice ∨ TouchesSelection metainfo piece choice := by
  rw [mem_reachedSelections]
  constructor
  · rintro ⟨index, file, there, chosen, reached⟩
    rcases (reachesFile_iff piece index file).mp reached with shares | touches
    · exact .inl ⟨index, file, there, chosen, shares⟩
    · exact .inr ⟨index, file, there, chosen, touches⟩
  · rintro (⟨index, file, there, chosen, shares⟩ | ⟨index, file, there, chosen, touches⟩)
    · exact ⟨index, file, there, chosen, (reachesFile_iff piece index file).mpr (.inl shares)⟩
    · exact ⟨index, file, there, chosen, (reachesFile_iff piece index file).mpr (.inr touches)⟩

theorem bittorrentFilePieceTranslation_marks (metainfo : BittorrentMeta) (answer : Nat → BittorrentFileAnswer)
    (entry : BittorrentPieceCacheEntry) (piece : Nat) :
    let marked := (bittorrentFilePieceTranslation metainfo answer entry piece .seek).2.1
    let loop := (translateFiles .seek (getBittorrentPieceLength metainfo piece) (metainfo.pieceLength * piece) answer
      metainfo.files 0 ⟨entry, 0, 0, none⟩).loop
    marked.selected = loop.entry.selected ∧ marked.locked = loop.entry.locked := by
  have same : openEntry entry (getBittorrentPieceLength metainfo piece) .seek = entry := if_neg (by decide)
  unfold bittorrentFilePieceTranslation
  dsimp only
  rw [same]
  split
  next returned =>
    rw [returned]
    exact ⟨rfl, rfl⟩
  next left =>
    rw [left]
    split <;> exact ⟨rfl, rfl⟩

theorem seekPiece_marks {entry : BittorrentPieceCacheEntry} (answer : Nat → BittorrentFileAnswer) (piece : Nat)
    (unselected : entry.selected = false) (unlocked : entry.locked = false) :
    let marked := (bittorrentFilePieceTranslation metainfo answer entry piece .seek).2.1
    let reaches := fun choice => SharesSelection metainfo piece choice ∨ TouchesSelection metainfo piece choice
    (marked.selected = true ↔ reaches true) ∧ (marked.locked = true ↔ reaches true ∧ reaches false) := by
  have inStep : 0 = min (getBittorrentPieceLength metainfo piece) (0 - metainfo.pieceLength * piece) := by omega
  have loop := congrArg Prod.fst (translateFiles_seek answer (getBittorrentPieceLength_positive metainfo piece)
    metainfo.files 0 ⟨entry, 0, 0, none⟩ inStep)
  have marks := seekSelections_marks (reachedSelections (getBittorrentPieceLength metainfo piece)
    (metainfo.pieceLength * piece) metainfo.files 0) unselected unlocked
  obtain ⟨selected, locked⟩ := bittorrentFilePieceTranslation_marks metainfo answer entry piece
  simp only [reachesSelection_iff] at marks
  dsimp only at loop selected locked ⊢
  rw [selected, locked, loop]
  exact marks

/-- The files that only touch the piece add no selection that those with bytes in it do not have. -/
def TouchesNothingNew (metainfo : BittorrentMeta) (piece : Nat) : Prop :=
  (TouchesSelection metainfo piece true → SharesSelection metainfo piece true) ∧
    (TouchesSelection metainfo piece false → SharesSelection metainfo piece true → SharesSelection metainfo piece false)

theorem markedRight_iff {entry : BittorrentPieceCacheEntry} {piece : Nat}
    (selected : entry.selected = true ↔ SharesSelection metainfo piece true ∨ TouchesSelection metainfo piece true)
    (locked : entry.locked = true ↔ (SharesSelection metainfo piece true ∨ TouchesSelection metainfo piece true) ∧
      (SharesSelection metainfo piece false ∨ TouchesSelection metainfo piece false)) :
    MarkedRight metainfo piece entry ↔ TouchesNothingNew metainfo piece := by
  constructor
  · rintro ⟨rightSelected, rightLocked⟩
    rw [selected] at rightSelected
    rw [locked] at rightLocked
    refine ⟨fun touches => rightSelected.mp (.inr touches), fun touches shares => ?_⟩
    exact (rightLocked.mp ⟨.inl shares, .inr touches⟩).2
  · rintro ⟨newSelected, newUnselected⟩
    refine ⟨selected.trans ⟨?_, .inl⟩, locked.trans ⟨?_, fun ⟨first, second⟩ => ⟨.inl first, .inl second⟩⟩⟩
    · rintro (shares | touches)
      · exact shares
      · exact newSelected touches
    · rintro ⟨some, other⟩
      have shares : SharesSelection metainfo piece true := by
        rcases some with shares | touches
        · exact shares
        · exact newSelected touches
      refine ⟨shares, ?_⟩
      rcases other with others | touches
      · exact others
      · exact newUnselected touches shares

def pieceMarks (entry : BittorrentPieceCacheEntry) : Bool × Bool := (entry.selected, entry.locked)

theorem pieceMarks_entry (cache : BittorrentPieceCache) (piece : Nat) :
    pieceMarks (cache.entry piece) = (cache.entries.map pieceMarks).getD piece (false, false) := by
  rw [BittorrentPieceCache.entry, List.getD_eq_getElem?_getD, List.getD_eq_getElem?_getD, List.getElem?_map]
  cases cache.entries[piece]? <;> rfl

theorem preparePiece_marks (metainfo : BittorrentMeta) (download : PartialDownload) (piece : Nat) :
    (preparePiece metainfo download piece).cache.entries.map pieceMarks =
      (download.cache.entries.map pieceMarks).set piece (pieceMarks (bittorrentFilePieceTranslation metainfo
        (fun _ => noFileAnswer) (download.cache.entry piece) piece .seek).2.1) := by
  simp only [preparePiece]
  generalize bittorrentFilePieceTranslation metainfo (fun _ => noFileAnswer) (download.cache.entry piece) piece
    .seek = sought
  have set : (download.cache.modifyEntry piece fun _ => sought.2.1).entries.map pieceMarks =
      (download.cache.entries.map pieceMarks).set piece (pieceMarks sought.2.1) :=
    map_modify_set _ piece fun _ _ => rfl
  split
  · exact set
  · split
    · exact (map_modify_of_eq _ piece fun _ => by rfl).trans set
    · exact set

def MarkedByReach (metainfo : BittorrentMeta) (piece : Nat) (marks : Bool × Bool) : Prop :=
  let reaches := fun choice => SharesSelection metainfo piece choice ∨ TouchesSelection metainfo piece choice
  (marks.1 = true ↔ reaches true) ∧ (marks.2 = true ↔ reaches true ∧ reaches false)

/-- What the loop over the pieces has marked when it gets to a piece. -/
structure PreparedTo (metainfo : BittorrentMeta) (piece : Nat) (marks : List (Bool × Bool)) : Prop where
  enough : metainfo.pieces ≤ marks.length
  marked : ∀ other < piece, MarkedByReach metainfo other (marks.getD other (false, false))
  clear : ∀ other ≥ piece, marks.getD other (false, false) = (false, false)

theorem preparePiece_prepared {download : PartialDownload} {piece : Nat}
    (prepared : PreparedTo metainfo piece (download.cache.entries.map pieceMarks)) (inside : piece < metainfo.pieces) :
    PreparedTo metainfo (piece + 1) ((preparePiece metainfo download piece).cache.entries.map pieceMarks) := by
  have clear := prepared.clear piece (Nat.le_refl _)
  rw [← pieceMarks_entry, pieceMarks, Prod.mk.injEq] at clear
  have here : MarkedByReach metainfo piece (pieceMarks (bittorrentFilePieceTranslation metainfo
      (fun _ => noFileAnswer) (download.cache.entry piece) piece .seek).2.1) :=
    seekPiece_marks (fun _ => noFileAnswer) piece clear.1 clear.2
  have stored := Nat.lt_of_lt_of_le inside prepared.enough
  rw [preparePiece_marks]
  refine ⟨?_, ?_, ?_⟩
  · rw [List.length_set]
    exact prepared.enough
  · intro other below
    rw [List.getD_eq_getElem?_getD, List.getElem?_set]
    by_cases same : piece = other
    · rw [← same, if_pos rfl, if_pos stored]
      exact here
    · rw [if_neg same, ← List.getD_eq_getElem?_getD]
      exact prepared.marked other (by omega)
  · intro other beyond
    rw [List.getD_eq_getElem?_getD, List.getElem?_set, if_neg (by omega), ← List.getD_eq_getElem?_getD]
    exact prepared.clear other (by omega)

theorem preparePieces_prepared {cache : BittorrentPieceCache} (enough : metainfo.pieces ≤ cache.entries.length)
    (clear : ∀ entry ∈ cache.entries, pieceMarks entry = (false, false)) (count : Nat)
    (inside : count ≤ metainfo.pieces) :
    PreparedTo metainfo count
      (((List.range count).foldl (preparePiece metainfo) ⟨cache, 0, 0⟩).cache.entries.map pieceMarks) := by
  induction count with
  | zero =>
      refine ⟨?_, fun other below => absurd below (Nat.not_lt_zero other), fun other _ => ?_⟩
      · rw [List.length_map]
        exact enough
      · rw [List.range_zero, List.foldl_nil, ← pieceMarks_entry, BittorrentPieceCache.entry,
          List.getD_eq_getElem?_getD]
        cases here : cache.entries[other]? with
        | none => rfl
        | some entry => exact clear entry (List.mem_of_getElem? here)
  | succ count ih =>
      rw [List.range_succ, List.foldl_append, List.foldl_cons, List.foldl_nil]
      exact preparePiece_prepared (ih (by omega)) inside

end Marks

/-- The marks are right exactly for the pieces that no file with another selection touches
without having a byte in them. -/
theorem preparePartialBittorrentDownload_marked_iff (bittorrent : BittorrentConnection)
    (enough : bittorrent.metainfo.pieces ≤ bittorrent.cache.entries.length)
    (clear : ∀ entry ∈ bittorrent.cache.entries, entry.selected = false ∧ entry.locked = false) (piece : Nat)
    (inside : piece < bittorrent.metainfo.pieces) :
    MarkedRight bittorrent.metainfo piece ((preparePartialBittorrentDownload bittorrent).cache.entry piece) ↔
      TouchesNothingNew bittorrent.metainfo piece := by
  have prepared := preparePieces_prepared enough
    (fun entry member => Prod.ext (clear entry member).1 (clear entry member).2) _ (Nat.le_refl _)
  obtain ⟨selected, locked⟩ := prepared.marked piece inside
  rw [← pieceMarks_entry] at selected locked
  exact markedRight_iff selected locked

def secondFile : BittorrentConnection :=
  initBittorrentPieceCache ⟨2, 1, 1, [], [⟨1, false, []⟩, ⟨1, true, []⟩], Nat.two_pos, twoPieces_bound, oneByte_bound,
    Nat.one_pos, oneByte_le⟩ 0

theorem preparePartialBittorrentDownload_marked_first :
    MarkedRight secondFile.metainfo 0 ((preparePartialBittorrentDownload secondFile).cache.entry 0) ↔
      TouchesNothingNew secondFile.metainfo 0 :=
  preparePartialBittorrentDownload_marked_iff secondFile (by decide) (by decide) 0 (by decide)

/-- The second piece is a whole selected file, but the unselected one ends where it begins. -/
theorem preparePartialBittorrentDownload_locked :
    ((preparePartialBittorrentDownload secondFile).cache.entry 1).locked = true ∧
      ¬ MarkedRight secondFile.metainfo 1 ((preparePartialBittorrentDownload secondFile).cache.entry 1) := by
  have locked : ((preparePartialBittorrentDownload secondFile).cache.entry 1).locked = true := by decide
  refine ⟨locked, fun right => ?_⟩
  obtain ⟨_, index, file, there, chosen, byte, lower, upper, starts, ends⟩ := right.locked.mp locked
  match index with
  | 0 =>
      cases there
      change 1 ≤ byte at lower
      change byte < 0 + 1 at ends
      omega
  | 1 =>
      cases there
      cases chosen
  | index + 2 => cases there

end KcnTools.Bittorrent
