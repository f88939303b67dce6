import KcnTools.Bittorrent.PieceFiles
import KcnTools.Lib.SparseFile

/-!
Where the bytes of a piece go: the writes that `bittorrent_file_piece_translation` makes,
and what becomes of a piece when the disk takes every byte of it.
-/

namespace KcnTools.Bittorrent

open SparseFile

def fileStart (files : List BittorrentFile) (index : Nat) : Nat :=
  ((files.take index).map BittorrentFile.length).sum

def filesLength (files : List BittorrentFile) : Nat := (files.map BittorrentFile.length).sum

def ReachesFile (torrentOffset pieceLength start length : Nat) : Prop :=
  torrentOffset ≤ start + length ∧ start < torrentOffset + pieceLength

def sharedLength (torrentOffset pieceLength start length : Nat) : Nat :=
  min (torrentOffset + pieceLength) (start + length) - max torrentOffset start

def memoryPart (data : List UInt8) (offset count : Nat) : List UInt8 :=
  (List.range count).map fun index => data.getD (offset + index) 0

/-- What is written to the files, in order; the file of a write is its place in the list. -/
def pieceWrites (pieceLength torrentOffset : Nat) (answer : Nat → BittorrentFileAnswer)
    (data : List UInt8) :
    List BittorrentFile → Nat → Nat → Nat → List (FileWrite Nat UInt8)
  | [], _, _, _ => []
  | file :: files, index, pieceOffset, currentOffset =>
      if pieceLength ≤ pieceOffset then []
      else if currentOffset + file.length < torrentOffset then
        pieceWrites pieceLength torrentOffset answer data files (index + 1) pieceOffset
          (currentOffset + file.length)
      else
        let fileOffset := torrentOffset - currentOffset
        let dataLength := min (pieceLength - pieceOffset) (file.length - fileOffset)
        if !file.selected then
          pieceWrites pieceLength torrentOffset answer data files (index + 1)
            (pieceOffset + dataLength) (currentOffset + file.length)
        else if !(answer index).opened then
          if isBogusFileName file.name then
            pieceWrites pieceLength torrentOffset answer data files (index + 1) pieceOffset
              (currentOffset + file.length)
          else []
        else
          ⟨index, fileOffset, memoryPart data pieceOffset (min dataLength (answer index).written)⟩ ::
            if (answer index).written = dataLength then
              pieceWrites pieceLength torrentOffset answer data files (index + 1)
                (pieceOffset + dataLength) (currentOffset + file.length)
            else []

def bittorrentPieceWrites (metainfo : BittorrentMeta) (answer : Nat → BittorrentFileAnswer)
    (data : List UInt8) (piece : Nat) : List (FileWrite Nat UInt8) :=
  pieceWrites (getBittorrentPieceLength metainfo piece) (metainfo.pieceLength * piece) answer data
    metainfo.files 0 0 0

section files

variable {torrentOffset pieceLength start length : Nat}

/-- The loop is in step while every file it passed took its part of the piece. -/
theorem step_dataLength (reached : ReachesFile torrentOffset pieceLength start length) :
    min (pieceLength - min pieceLength (start - torrentOffset))
        (length - (torrentOffset - start)) =
      sharedLength torrentOffset pieceLength start length := by
  obtain ⟨_, _⟩ := reached
  simp only [sharedLength]
  omega

theorem step_pieceOffset (reached : ReachesFile torrentOffset pieceLength start length) :
    min pieceLength (start - torrentOffset) + sharedLength torrentOffset pieceLength start length =
      min pieceLength (start + length - torrentOffset) := by
  obtain ⟨_, _⟩ := reached
  simp only [sharedLength]
  omega

theorem passed_pieceOffset (passed : start + length < torrentOffset) :
    min pieceLength (start - torrentOffset) =
      min pieceLength (start + length - torrentOffset) := by
  omega

/-- The file is unselected, or it takes its part of the piece; one that holds none of it may
also have a name that cannot be opened. -/
def FileTakes (answer : Nat → BittorrentFileAnswer) (torrentOffset pieceLength index start : Nat)
    (file : BittorrentFile) : Prop :=
  file.selected = true → ReachesFile torrentOffset pieceLength start file.length →
    ((answer index).opened = true ∧
        (answer index).written = sharedLength torrentOffset pieceLength start file.length) ∨
      ((answer index).opened = false ∧ isBogusFileName file.name = true ∧
        sharedLength torrentOffset pieceLength start file.length = 0)

def FilesTake (answer : Nat → BittorrentFileAnswer) (torrentOffset pieceLength : Nat)
    (files : List BittorrentFile) (index start : Nat) : Prop :=
  ∀ place file, files[place]? = some file →
    FileTakes answer torrentOffset pieceLength (index + place) (start + fileStart files place) file

variable {answer : Nat → BittorrentFileAnswer} {files : List BittorrentFile} {index : Nat}
  {file : BittorrentFile}

@[simp] theorem fileStart_zero (files : List BittorrentFile) : fileStart files 0 = 0 := rfl

theorem fileStart_succ (file : BittorrentFile) (files : List BittorrentFile) (place : Nat) :
    fileStart (file :: files) (place + 1) = file.length + fileStart files place := by
  simp only [fileStart, List.take_succ_cons, List.map_cons, List.sum_cons]

theorem FilesTake.head (take : FilesTake answer torrentOffset pieceLength (file :: files) index start) :
    FileTakes answer torrentOffset pieceLength index start file :=
  take 0 file rfl

theorem FilesTake.tail (take : FilesTake answer torrentOffset pieceLength (file :: files) index start) :
    FilesTake answer torrentOffset pieceLength files (index + 1) (start + file.length) := by
  intro place other there
  have taken := take (place + 1) other there
  rw [fileStart_succ] at taken
  rw [Nat.add_assoc, Nat.add_comm 1, Nat.add_assoc start]
  exact taken

theorem translateFiles_take (index : Nat) (loop : PieceTranslation)
    (take : FilesTake answer torrentOffset pieceLength files index loop.currentOffset)
    (inStep : loop.pieceOffset = min pieceLength (loop.currentOffset - torrentOffset)) :
    ∃ final, translateFiles .write pieceLength torrentOffset answer files index loop = .left .ok final ∧
      final.entry = loop.entry ∧
      final.pieceOffset =
        min pieceLength (loop.currentOffset + filesLength files - torrentOffset) := by
  induction files generalizing index loop with
  | nil => exact ⟨loop, rfl, rfl, inStep⟩
  | cons file files ih =>
      have whole : loop.currentOffset + filesLength (file :: files) =
          loop.currentOffset + file.length + filesLength files := by
        simp only [filesLength, List.map_cons, List.sum_cons, Nat.add_assoc]
      rw [whole, translateFiles]
      split
      · rename_i filled
        exact ⟨loop, rfl, rfl, by omega⟩
      · rename_i open_
        split
        · rename_i passed
          exact ih _ { loop with currentOffset := loop.currentOffset + file.length } take.tail
            (inStep.trans (passed_pieceOffset passed))
        · rename_i notPassed
          have reached : ReachesFile torrentOffset pieceLength loop.currentOffset file.length :=
            ⟨by omega, by omega⟩
          have dataLength := step_dataLength reached
          have pieceOffset := step_pieceOffset reached
          rw [← inStep] at dataLength pieceOffset
          simp only [dataLength]
          rw [if_neg (by decide)]
          split
          · exact ih _ { loop with
              pieceOffset := loop.pieceOffset +
                sharedLength torrentOffset pieceLength loop.currentOffset file.length
              currentOffset := loop.currentOffset + file.length } take.tail pieceOffset
          · rename_i selected
            have chosen : file.selected = true := by
              simpa using selected
            rcases take.head chosen reached with ⟨opened, written⟩ | ⟨closed, bogus, nothing⟩
            · rw [opened, written, if_neg (by decide), if_neg (by decide), if_pos rfl]
              exact ih _ { loop with
                pieceOffset := loop.pieceOffset +
                  sharedLength torrentOffset pieceLength loop.currentOffset file.length
                currentOffset := loop.currentOffset + file.length } take.tail pieceOffset
            · rw [closed, bogus]
              refine ih _ { loop with currentOffset := loop.currentOffset + file.length } take.tail ?_
              rw [nothing] at pieceOffset
              exact pieceOffset

def takenPart (torrentOffset pieceLength : Nat) (data : List UInt8) (index start length : Nat) :
    FileWrite Nat UInt8 :=
  ⟨index, torrentOffset - start, memoryPart data (start - torrentOffset)
    (sharedLength torrentOffset pieceLength start length)⟩

theorem exists_place_cons {p : Nat → BittorrentFile → Prop} :
    (∃ place other, (file :: files)[place]? = some other ∧ p place other) ↔
      p 0 file ∨ ∃ place other, files[place]? = some other ∧ p (place + 1) other := by
  constructor
  · rintro ⟨place, other, there, holds⟩
    cases place with
    | zero =>
        rw [List.getElem?_cons_zero, Option.some.injEq] at there
        rw [there]
        exact .inl holds
    | succ place => exact .inr ⟨place, other, there, holds⟩
  · rintro (holds | ⟨place, other, there, holds⟩)
    · exact ⟨0, file, rfl, holds⟩
    · exact ⟨place + 1, other, there, holds⟩

/-- Exactly the opened files that a piece gets to are written, each with its part of the piece. -/
theorem mem_pieceWrites {data : List UInt8} {pieceOffset : Nat} {write : FileWrite Nat UInt8}
    (take : FilesTake answer torrentOffset pieceLength files index start) (positive : 0 < pieceLength)
    (inStep : pieceOffset = min pieceLength (start - torrentOffset)) :
    write ∈ pieceWrites pieceLength torrentOffset answer data files index pieceOffset start ↔
      ∃ place file, files[place]? = some file ∧ file.selected = true ∧
        ReachesFile torrentOffset pieceLength (start + fileStart files place) file.length ∧
        (answer (index + place)).opened = true ∧
        write = takenPart torrentOffset pieceLength data (index + place)
          (start + fileStart files place) file.length := by
  induction files generalizing index pieceOffset start with
  | nil => simp [pieceWrites]
  | cons file files ih =>
      have shift : ∀ place, start + fileStart (file :: files) (place + 1) =
          start + file.length + fileStart files place := by
        intro place
        rw [fileStart_succ, Nat.add_assoc]
      have number : ∀ place, index + 1 + place = index + (place + 1) := by omega
      have tail := fun pieceOffset => @ih (start + file.length) (index + 1) pieceOffset take.tail
      simp only [number] at tail
      rw [exists_place_cons]
      simp only [shift, fileStart_zero, Nat.add_zero]
      rw [pieceWrites]
      split
      · rename_i filled
        have beyond : torrentOffset + pieceLength ≤ start := by omega
        refine iff_of_false List.not_mem_nil ?_
        rintro (⟨_, reached, _⟩ | ⟨place, other, _, _, reached, _⟩)
        · exact absurd reached.2 (by omega)
        · exact absurd reached.2 (by omega)
      · rename_i unfilled
        split
        · rename_i passed
          have next := inStep.trans (passed_pieceOffset passed)
          rw [tail _ next]
          refine (or_iff_right fun here => ?_).symm
          exact absurd here.2.1.1 (by omega)
        · rename_i notPassed
          have reached : ReachesFile torrentOffset pieceLength start file.length :=
            ⟨by omega, by omega⟩
          have dataLength := step_dataLength reached
          have next := step_pieceOffset reached
          rw [← inStep] at dataLength next
          simp only [dataLength]
          split
          · rename_i unselected
            rw [tail _ next]
            refine (or_iff_right fun here => ?_).symm
            rw [here.1] at unselected
            exact absurd unselected (by decide)
          · rename_i selected
            have chosen : file.selected = true := by
              simpa using selected
            rcases take.head chosen reached with ⟨opened, written⟩ | ⟨closed, bogus, nothing⟩
            · rw [opened, written, if_neg (by decide), if_pos rfl, List.mem_cons, tail _ next]
              refine or_congr_left ?_
              rw [Nat.min_self]
              have offset : pieceOffset = start - torrentOffset := by
                obtain ⟨_, _⟩ := reached
                omega
              rw [offset]
              exact ⟨fun here => ⟨chosen, reached, rfl, here⟩, fun here => here.2.2.2⟩
            · rw [closed, bogus]
              rw [nothing, Nat.add_zero] at next
              rw [if_pos (by decide), if_pos rfl, tail _ next]
              exact (or_iff_right fun here => absurd here.2.2.1 (by decide)).symm

variable {data : List UInt8} {offset : Nat}

theorem takenPart_length :
    (takenPart torrentOffset pieceLength data index start length).bytes.length =
      sharedLength torrentOffset pieceLength start length := by
  rw [takenPart, memoryPart, List.length_map, List.length_range]

theorem takenPart_covers {other : Nat} :
    (takenPart torrentOffset pieceLength data index start length).Covers other offset ↔
      index = other ∧ offset < length ∧ torrentOffset ≤ start + offset ∧
        start + offset < torrentOffset + pieceLength := by
  rw [FileWrite.Covers, takenPart_length]
  simp only [takenPart, sharedLength]
  omega

theorem takenPart_byte {other : Nat}
    (covers : (takenPart torrentOffset pieceLength data index start length).Covers other offset) :
    (takenPart torrentOffset pieceLength data index start length).bytes.getD
        (offset - (takenPart torrentOffset pieceLength data index start length).offset) 0 =
      data.getD (start + offset - torrentOffset) 0 := by
  have inside := covers.2
  rw [takenPart_length] at inside
  simp only [takenPart, memoryPart] at inside ⊢
  rw [List.getD_eq_getElem _ _ (by rw [List.length_map, List.length_range]; omega), List.getElem_map,
    List.getElem_range]
  congr 1
  omega

end files

/-- Every byte of the piece that lies in a selected file was written where it belongs. -/
def PieceWritten (metainfo : BittorrentMeta) (piece : Nat) (data : List UInt8)
    (writes : List (FileWrite Nat UInt8)) : Prop :=
  ∀ position < getBittorrentPieceLength metainfo piece,
    ∀ index file offset, metainfo.files[index]? = some file → file.selected = true →
      offset < file.length →
      fileStart metainfo.files index + offset = metainfo.pieceLength * piece + position →
        ∃ write ∈ writes, write.Covers index offset ∧
          write.bytes.getD (offset - write.offset) 0 = data.getD position 0

def DiskTakes (metainfo : BittorrentMeta) (answer : Nat → BittorrentFileAnswer) (piece : Nat) : Prop :=
  FilesTake answer (metainfo.pieceLength * piece) (getBittorrentPieceLength metainfo piece)
      metainfo.files 0 0 ∧
    metainfo.pieceLength * piece + getBittorrentPieceLength metainfo piece ≤
      filesLength metainfo.files

variable {metainfo : BittorrentMeta} {answer : Nat → BittorrentFileAnswer} {piece : Nat}

theorem DiskTakes.translation (takes : DiskTakes metainfo answer piece)
    (entry : BittorrentPieceCacheEntry) :
    bittorrentFilePieceTranslation metainfo answer entry piece .write = (.ok, entry, true) := by
  have inStep : 0 = min (getBittorrentPieceLength metainfo piece)
      (0 - metainfo.pieceLength * piece) := by omega
  obtain ⟨final, result, kept, filled⟩ := translateFiles_take 0
    ⟨openEntry entry (getBittorrentPieceLength metainfo piece) .write, 0, 0, none⟩ takes.1 inStep
  have whole : final.pieceOffset = getBittorrentPieceLength metainfo piece := by
    have holds := takes.2
    simp only [Nat.zero_add] at filled
    omega
  simp only [bittorrentFilePieceTranslation, result]
  rw [if_neg (by simp [whole]), kept]
  rfl

theorem DiskTakes.written (takes : DiskTakes metainfo answer piece) (data : List UInt8) :
    PieceWritten metainfo piece data (bittorrentPieceWrites metainfo answer data piece) := by
  intro position inside index file offset there selected within placed
  have positive := getBittorrentPieceLength_positive metainfo piece
  have reached : ReachesFile (metainfo.pieceLength * piece)
      (getBittorrentPieceLength metainfo piece) (fileStart metainfo.files index) file.length :=
    ⟨by omega, by omega⟩
  have shares : 0 < sharedLength (metainfo.pieceLength * piece)
      (getBittorrentPieceLength metainfo piece) (fileStart metainfo.files index) file.length := by
    simp only [sharedLength]
    omega
  have opened : (answer index).opened = true := by
    have taken := takes.1 index file there
    rw [Nat.zero_add, Nat.zero_add] at taken
    rcases taken selected reached with ⟨opened, _⟩ | ⟨_, _, nothing⟩
    · exact opened
    · omega
  have covers : (takenPart (metainfo.pieceLength * piece) (getBittorrentPieceLength metainfo piece)
      data index (fileStart metainfo.files index) file.length).Covers index offset :=
    takenPart_covers.mpr ⟨rfl, within, by omega, by omega⟩
  refine ⟨_, (mem_pieceWrites takes.1 positive (by omega)).mpr
    ⟨index, file, there, selected, ?_, ?_, rfl⟩, ?_⟩
  · rwa [Nat.zero_add]
  · rwa [Nat.zero_add]
  · rw [Nat.zero_add, Nat.zero_add]
    refine ⟨covers, (takenPart_byte covers).trans ?_⟩
    congr 1
    omega

end KcnTools.Bittorrent
