import KcnTools.Bittorrent.PieceCache
import KcnTools.Bittorrent.PieceStorage
import KcnTools.Bittorrent.Paths
import Mathlib

/-!
Pieces that are written to a disk that never fails and are read back from it. Files are found
by their path, and a file that was written to is as long as its last byte demands.
-/

namespace KcnTools.Bittorrent

open SparseFile

section files

variable {torrentOffset pieceLength start length : Nat} {data : List UInt8}

theorem memoryPart_eq {offset count : Nat} (inside : offset + count ≤ data.length) :
    memoryPart data offset count = (data.drop offset).take count := by
  refine List.ext_getElem ?_ fun index first second => ?_
  · simp only [memoryPart, List.length_map, List.length_range, List.length_take, List.length_drop]
    omega
  · simp only [memoryPart, List.length_map, List.length_range] at first
    simp only [memoryPart, List.getElem_map, List.getElem_range, List.getElem_take, List.getElem_drop]
    exact List.getD_eq_getElem _ _ (by omega)

theorem memoryPart_length {offset count : Nat} : (memoryPart data offset count).length = count := by
  rw [memoryPart, List.length_map, List.length_range]

theorem memoryPart_congr {other : List UInt8} {offset otherOffset count : Nat}
    (same : ∀ index < count, data.getD (offset + index) 0 = other.getD (otherOffset + index) 0) :
    memoryPart data offset count = memoryPart other otherOffset count :=
  List.map_congr_left fun index member => same index (List.mem_range.mp member)

def readMemory (data : List UInt8) (filled : Nat) : List UInt8 :=
  data.take filled ++ List.replicate (data.length - filled) 0

theorem readMemory_zero : readMemory data 0 = List.replicate data.length 0 := rfl

theorem readMemory_full : readMemory data data.length = data := by
  simp [readMemory]

theorem readEntry_memory {entry : BittorrentPieceCacheEntry} {filled count : Nat}
    (inside : filled + count ≤ data.length) (memory : entry.data = some (readMemory data filled)) :
    readEntry entry filled (memoryPart data filled count) =
      { entry with data := some (readMemory data (filled + count)) } := by
  have taken : (data.take filled).length = filled := by
    rw [List.length_take]
    omega
  have part : ((data.drop filled).take count).length = count := by
    rw [List.length_take, List.length_drop]
    omega
  rw [readEntry, memory, memoryPart_eq inside, Option.map_some, part]
  congr 2
  have behind : (readMemory data filled).drop (filled + count) =
      List.replicate (data.length - (filled + count)) 0 := by
    rw [readMemory, List.drop_append, List.drop_eq_nil_of_le (by omega), List.nil_append, taken,
      List.drop_replicate]
    congr 1
    omega
  rw [behind, readMemory, readMemory, List.take_left' taken, List.take_add]

/-- The file can be read where the piece lies in it; one that holds none of it may also have a
name that cannot be opened. -/
def FileGives (answer : Nat → BittorrentFileAnswer) (torrentOffset pieceLength : Nat)
    (data : List UInt8) (index start : Nat) (file : BittorrentFile) : Prop :=
  ReachesFile torrentOffset pieceLength start file.length →
    ((answer index).opened = true ∧
        (answer index).bytes.take (sharedLength torrentOffset pieceLength start file.length) =
          memoryPart data (start - torrentOffset)
            (sharedLength torrentOffset pieceLength start file.length)) ∨
      ((answer index).opened = false ∧ isBogusFileName file.name = true ∧
        sharedLength torrentOffset pieceLength start file.length = 0)

def FilesGive (answer : Nat → BittorrentFileAnswer) (torrentOffset pieceLength : Nat)
    (data : List UInt8) (files : List BittorrentFile) (index start : Nat) : Prop :=
  ∀ place file, files[place]? = some file → file.selected = true ∧
    FileGives answer torrentOffset pieceLength data (index + place) (start + fileStart files place) file

variable {answer : Nat → BittorrentFileAnswer} {files : List BittorrentFile} {index : Nat}
  {file : BittorrentFile}

theorem FilesGive.tail
    (give : FilesGive answer torrentOffset pieceLength data (file :: files) index start) :
    FilesGive answer torrentOffset pieceLength data files (index + 1) (start + file.length) := by
  intro place other there
  have given := give (place + 1) other there
  rw [fileStart_succ] at given
  rw [Nat.add_assoc, Nat.add_comm 1, Nat.add_assoc start]
  exact given

theorem translateFiles_give (index : Nat) (loop : PieceTranslation)
    (give : FilesGive answer torrentOffset pieceLength data files index loop.currentOffset)
    (inStep : loop.pieceOffset = min pieceLength (loop.currentOffset - torrentOffset))
    (length : data.length = pieceLength)
    (memory : loop.entry.data = some (readMemory data loop.pieceOffset)) :
    ∃ final, translateFiles .read pieceLength torrentOffset answer files index loop = .left .ok final ∧
      final.entry = { loop.entry with data := some (readMemory data final.pieceOffset) } ∧
      final.pieceOffset =
        min pieceLength (loop.currentOffset + filesLength files - torrentOffset) := by
  induction files generalizing index loop with
  | nil =>
      refine ⟨loop, rfl, ?_, inStep⟩
      rw [← memory]
  | cons file files ih =>
      have whole : loop.currentOffset + filesLength (file :: files) =
          loop.currentOffset + file.length + filesLength files := by
        simp only [filesLength, List.map_cons, List.sum_cons, Nat.add_assoc]
      rw [whole, translateFiles]
      split
      · rename_i filled
        refine ⟨loop, rfl, ?_, by omega⟩
        rw [← memory]
      · rename_i open_
        split
        · rename_i passed
          exact ih _ { loop with currentOffset := loop.currentOffset + file.length } give.tail
            (inStep.trans (passed_pieceOffset passed)) memory
        · rename_i notPassed
          have reached : ReachesFile torrentOffset pieceLength loop.currentOffset file.length :=
            ⟨by omega, by omega⟩
          have dataLength := step_dataLength reached
          have pieceOffset := step_pieceOffset reached
          have offset : loop.currentOffset - torrentOffset = loop.pieceOffset := by
            obtain ⟨_, _⟩ := reached
            omega
          obtain ⟨selected, gives⟩ := give 0 file rfl
          rw [← inStep] at dataLength pieceOffset
          simp only [dataLength]
          rw [if_neg (by decide), if_neg (by simp [selected])]
          rcases gives reached with ⟨opened, bytes⟩ | ⟨closed, bogus, nothing⟩
          · rw [Nat.add_zero] at opened bytes
            have shared : loop.pieceOffset +
                sharedLength torrentOffset pieceLength loop.currentOffset file.length ≤ data.length := by
              omega
            simp only [fileStart_zero, Nat.add_zero, offset] at bytes
            have count : (memoryPart data loop.pieceOffset
                (sharedLength torrentOffset pieceLength loop.currentOffset file.length)).length = _ :=
              memoryPart_length
            rw [opened, if_neg (by decide), bytes, count, if_pos rfl, if_pos trivial]
            have read := readEntry_memory shared memory
            obtain ⟨final, result, kept, filled⟩ := ih (index + 1) { loop with
              pieceOffset := loop.pieceOffset +
                sharedLength torrentOffset pieceLength loop.currentOffset file.length
              currentOffset := loop.currentOffset + file.length
              entry := { loop.entry with data := some (readMemory data (loop.pieceOffset +
                sharedLength torrentOffset pieceLength loop.currentOffset file.length)) } }
              give.tail pieceOffset rfl
            refine ⟨final, ?_, kept, filled⟩
            rw [← result, read]
          · rw [Nat.add_zero] at closed
            rw [closed, bogus]
            simp only [fileStart_zero, Nat.add_zero] at nothing
            rw [nothing] at pieceOffset
            exact ih _ { loop with currentOffset := loop.currentOffset + file.length } give.tail
              pieceOffset memory

/-- Reading ends at a file that lies right before the piece and cannot be opened. -/
theorem translateFiles_closed {place : Nat} (index : Nat) (loop : PieceTranslation)
    (there : files[place]? = some file) (filled : loop.pieceOffset < pieceLength)
    (ends : loop.currentOffset + fileStart files place + file.length = torrentOffset)
    (positive : 0 < file.length) (selected : file.selected = true)
    (closed : (answer (index + place)).opened = false) (named : isBogusFileName file.name = false) :
    ∃ final, translateFiles .read pieceLength torrentOffset answer files index loop =
        .left .fileMissing final ∧ final.pieceOffset = loop.pieceOffset := by
  induction files generalizing index loop place with
  | nil => simp at there
  | cons first files ih =>
      rw [translateFiles, if_neg (by omega)]
      cases place with
      | zero =>
          rw [List.getElem?_cons_zero, Option.some.injEq] at there
          subst there
          simp only [fileStart_zero, Nat.add_zero] at ends closed
          rw [if_neg (by omega)]
          simp only [reduceCtorEq, if_false, selected, closed, named, Bool.not_true, Bool.false_and,
            Bool.false_eq_true, Bool.not_false, if_true]
          exact ⟨loop, rfl, rfl⟩
      | succ place =>
          rw [fileStart_succ] at ends
          rw [if_pos (by omega)]
          rw [List.getElem?_cons_succ] at there
          exact ih (index + 1) { loop with currentOffset := loop.currentOffset + first.length } there
            filled (by rw [← ends, Nat.add_assoc loop.currentOffset]) (by
              rw [Nat.add_assoc, Nat.add_comm 1]
              exact closed)

theorem exists_file {position : Nat} (inside : position < filesLength files) :
    ∃ index file offset, files[index]? = some file ∧ offset < file.length ∧
      fileStart files index + offset = position := by
  induction files generalizing position with
  | nil => simp [filesLength] at inside
  | cons file files ih =>
      by_cases here : position < file.length
      · exact ⟨0, file, position, rfl, here, by rw [fileStart_zero, Nat.zero_add]⟩
      · have later : position - file.length < filesLength files := by
          simp only [filesLength, List.map_cons, List.sum_cons] at inside ⊢
          omega
        obtain ⟨index, other, offset, there, within, lies⟩ := ih later
        refine ⟨index + 1, other, offset, there, within, ?_⟩
        rw [fileStart_succ]
        omega

end files

/-- Where a torrent is saved, and which file each path leads to. -/
structure DownloadPlace (κ : Type) where
  directory : List UInt8
  metaName : List UInt8
  type : BittorrentMetaType
  fileAt : List UInt8 → κ

variable {κ : Type}

def DownloadPlace.file (place : DownloadPlace κ) (file : BittorrentFile) : κ :=
  place.fileAt (getBittorrentFileName place.directory place.metaName file.name place.type)

def idealWrite (metainfo : BittorrentMeta) (piece index : Nat) : BittorrentFileAnswer :=
  ⟨true, [], sharedLength (metainfo.pieceLength * piece) (getBittorrentPieceLength metainfo piece)
    (fileStart metainfo.files index) ((metainfo.files[index]?).elim 0 BittorrentFile.length)⟩

/-- A file can be opened for reading when it is there and reaches up to the offset that is
read from (`open_bittorrent_file`). -/
def idealRead (place : DownloadPlace κ) (metainfo : BittorrentMeta) (disk : κ → Option (List UInt8))
    (piece index : Nat) : BittorrentFileAnswer :=
  let offset := metainfo.pieceLength * piece - fileStart metainfo.files index
  match (metainfo.files[index]?).bind fun file => disk (place.file file) with
  | none => ⟨false, [], 0⟩
  | some contents => ⟨decide (offset ≤ contents.length), contents.drop offset, 0⟩

def placeWrite (place : DownloadPlace κ) (metainfo : BittorrentMeta) (write : FileWrite Nat UInt8) :
    FileWrite κ UInt8 :=
  ⟨place.file (metainfo.files.getD write.file ⟨0, true, []⟩), write.offset, write.bytes⟩

def savingWrites (place : DownloadPlace κ) (metainfo : BittorrentMeta) (data : List UInt8)
    (piece : Nat) : List (FileWrite κ UInt8) :=
  (bittorrentPieceWrites metainfo (idealWrite metainfo piece) data piece).map (placeWrite place metainfo)

def savedDisk [DecidableEq κ] (place : DownloadPlace κ) (metainfo : BittorrentMeta)
    (data : Nat → List UInt8) (order : List Nat) : κ → Option (List UInt8) :=
  order.foldl (fun disk piece => performAll 0 disk (savingWrites place metainfo (data piece) piece))
    fun _ => none

def StoredAt (place : DownloadPlace κ) (metainfo : BittorrentMeta) (piece position : Nat) (key : κ)
    (offset : Nat) : Prop :=
  position < getBittorrentPieceLength metainfo piece ∧
    ∃ index file, metainfo.files[index]? = some file ∧ place.file file = key ∧ offset < file.length ∧
      fileStart metainfo.files index + offset = metainfo.pieceLength * piece + position

/-- Pieces of a torrent whose files are all selected and make up its length. -/
structure SavablePieces (metainfo : BittorrentMeta) (data : Nat → List UInt8) (order : List Nat) :
    Prop where
  selected : ∀ file ∈ metainfo.files, file.selected = true
  whole : filesLength metainfo.files =
    (metainfo.pieces - 1) * metainfo.pieceLength + metainfo.lastPieceLength
  inside : ∀ piece ∈ order, piece < metainfo.pieces
  sized : ∀ piece ∈ order, (data piece).length = getBittorrentPieceLength metainfo piece

variable {place : DownloadPlace κ} {metainfo : BittorrentMeta} {data : Nat → List UInt8}
  {order : List Nat} {piece : Nat}

theorem piece_ends (inside : piece < metainfo.pieces) :
    metainfo.pieceLength * piece + getBittorrentPieceLength metainfo piece ≤
      (metainfo.pieces - 1) * metainfo.pieceLength + metainfo.lastPieceLength := by
  rw [getBittorrentPieceLength, Nat.mul_comm]
  split
  · rename_i last
    rw [last]
  · rename_i early
    have next : piece + 1 ≤ metainfo.pieces - 1 := by omega
    have below := Nat.mul_le_mul_right metainfo.pieceLength next
    rw [Nat.succ_mul] at below
    omega

theorem SavablePieces.takes (savable : SavablePieces metainfo data order) (member : piece ∈ order) :
    DiskTakes metainfo (idealWrite metainfo piece) piece := by
  refine ⟨fun index file there _ _ => .inl ⟨rfl, ?_⟩, ?_⟩
  · rw [Nat.zero_add, Nat.zero_add]
    simp only [idealWrite, there, Option.elim_some]
  · rw [savable.whole]
    exact piece_ends (savable.inside piece member)

theorem SavablePieces.stored (savable : SavablePieces metainfo data order) (member : piece ∈ order)
    (place : DownloadPlace κ) {position : Nat}
    (inside : position < getBittorrentPieceLength metainfo piece) :
    ∃ key offset, StoredAt place metainfo piece position key offset := by
  have ends := piece_ends (savable.inside piece member)
  rw [← savable.whole] at ends
  have below : metainfo.pieceLength * piece + position < filesLength metainfo.files := by omega
  obtain ⟨index, file, offset, there, within, lies⟩ := exists_file below
  exact ⟨place.file file, offset, inside, index, file, there, rfl, within, lies⟩

theorem mem_savingWrites (savable : SavablePieces metainfo data order) (member : piece ∈ order)
    {write : FileWrite κ UInt8} :
    write ∈ savingWrites place metainfo (data piece) piece ↔
      ∃ index file, metainfo.files[index]? = some file ∧
        ReachesFile (metainfo.pieceLength * piece) (getBittorrentPieceLength metainfo piece)
          (fileStart metainfo.files index) file.length ∧
        write = placeWrite place metainfo (takenPart (metainfo.pieceLength * piece)
          (getBittorrentPieceLength metainfo piece) (data piece) index
          (fileStart metainfo.files index) file.length) := by
  have members := fun write => @mem_pieceWrites (metainfo.pieceLength * piece)
    (getBittorrentPieceLength metainfo piece) 0 (idealWrite metainfo piece) metainfo.files 0
    (data piece) 0 write (savable.takes member).1 (getBittorrentPieceLength_positive metainfo piece)
    (by omega)
  simp only [Nat.zero_add] at members
  rw [savingWrites, List.mem_map]
  constructor
  · rintro ⟨taken, written, rfl⟩
    obtain ⟨index, file, there, _, reached, _, rfl⟩ := (members taken).mp written
    exact ⟨index, file, there, reached, rfl⟩
  · rintro ⟨index, file, there, reached, rfl⟩
    refine ⟨_, (members _).mpr ⟨index, file, there, ?_, reached, rfl, rfl⟩, rfl⟩
    exact savable.selected file (List.mem_of_getElem? there)

theorem placeWrite_covers {write : FileWrite Nat UInt8} {key : κ} {offset : Nat} {file : BittorrentFile}
    (there : metainfo.files[write.file]? = some file) :
    (placeWrite place metainfo write).Covers key offset ↔
      place.file file = key ∧ write.Covers write.file offset := by
  rw [FileWrite.Covers, FileWrite.Covers, placeWrite, List.getD_eq_getElem?_getD, there]
  simp

theorem savingWrites_covers (savable : SavablePieces metainfo data order) (member : piece ∈ order)
    {write : FileWrite κ UInt8} (written : write ∈ savingWrites place metainfo (data piece) piece)
    {key : κ} {offset : Nat} (covers : write.Covers key offset) :
    ∃ position, StoredAt place metainfo piece position key offset ∧
      write.bytes.getD (offset - write.offset) 0 = (data piece).getD position 0 := by
  obtain ⟨index, file, there, reached, rfl⟩ := (mem_savingWrites savable member).mp written
  rw [@placeWrite_covers _ _ _ _ _ _ file there] at covers
  have byte := takenPart_byte covers.2
  have lies := takenPart_covers.mp covers.2
  refine ⟨fileStart metainfo.files index + offset - metainfo.pieceLength * piece,
    ⟨by omega, index, file, there, covers.1, lies.2.1, by omega⟩, byte⟩

theorem StoredAt.written {position offset : Nat} {key : κ}
    (stored : StoredAt place metainfo piece position key offset)
    (savable : SavablePieces metainfo data order) (member : piece ∈ order) :
    ∃ write ∈ savingWrites place metainfo (data piece) piece, write.Covers key offset := by
  obtain ⟨inside, index, file, there, same, within, lies⟩ := stored
  have reached : ReachesFile (metainfo.pieceLength * piece)
      (getBittorrentPieceLength metainfo piece) (fileStart metainfo.files index) file.length :=
    ⟨by omega, by omega⟩
  refine ⟨_, (mem_savingWrites savable member).mpr ⟨index, file, there, reached, rfl⟩, ?_⟩
  rw [@placeWrite_covers _ _ _ _ _ _ file there]
  exact ⟨same, takenPart_covers.mpr ⟨rfl, within, by omega, by omega⟩⟩

def SharedBytesAgree (place : DownloadPlace κ) (metainfo : BittorrentMeta) (data : Nat → List UInt8)
    (order : List Nat) : Prop :=
  ∀ piece ∈ order, ∀ other ∈ order, ∀ position otherPosition key offset,
    StoredAt place metainfo piece position key offset →
      StoredAt place metainfo other otherPosition key offset →
        (data piece).getD position 0 = (data other).getD otherPosition 0

def BoundaryWritten (place : DownloadPlace κ) (metainfo : BittorrentMeta) (order : List Nat) : Prop :=
  ∀ piece ∈ order, ∀ index file, metainfo.files[index]? = some file → 0 < file.length →
    isBogusFileName file.name = false →
      fileStart metainfo.files index + file.length = metainfo.pieceLength * piece →
        ∃ other ∈ order, ∃ position offset,
          StoredAt place metainfo other position (place.file file) offset ∧ file.length ≤ offset + 1

/-- Writing and reading succeed, what is read is what was written, and every byte is where it
belongs and nowhere else. -/
structure PiecesKept [DecidableEq κ] (place : DownloadPlace κ) (metainfo : BittorrentMeta)
    (data : Nat → List UInt8) (order : List Nat) : Prop where
  written : ∀ piece ∈ order, ∀ entry,
    bittorrentFilePieceTranslation metainfo (idealWrite metainfo piece) entry piece .write =
      (.ok, entry, true)
  read : ∀ piece ∈ order, ∀ entry,
    bittorrentFilePieceTranslation metainfo
        (idealRead place metainfo (savedDisk place metainfo data order) piece) entry piece .read =
      (.ok, { entry with data := some (data piece) }, true)
  placed : ∀ piece ∈ order, ∀ position < getBittorrentPieceLength metainfo piece,
    (∃ key offset, StoredAt place metainfo piece position key offset) ∧
      ∀ key offset, StoredAt place metainfo piece position key offset →
        offset < fileSize (savedDisk place metainfo data order) key ∧
          byteAt 0 (savedDisk place metainfo data order) key offset = (data piece).getD position 0
  untouched : ∀ piece ∈ order, ∀ write ∈ savingWrites place metainfo (data piece) piece,
    ∀ key offset, write.Covers key offset →
      ∃ position, StoredAt place metainfo piece position key offset

section disk

variable [DecidableEq κ]

theorem savedDisk_eq :
    savedDisk place metainfo data order = performAll 0 (fun _ => none)
      (order.flatMap fun piece => savingWrites place metainfo (data piece) piece) := by
  rw [performAll, List.foldl_flatMap]
  rfl

theorem savedDisk_byte (savable : SavablePieces metainfo data order)
    (agree : SharedBytesAgree place metainfo data order) (member : piece ∈ order) {position : Nat}
    {key : κ} {offset : Nat} (stored : StoredAt place metainfo piece position key offset) :
    byteAt 0 (savedDisk place metainfo data order) key offset = (data piece).getD position 0 := by
  rw [savedDisk_eq]
  obtain ⟨write, written, covers⟩ := stored.written savable member
  refine performAll_covered ⟨write, List.mem_flatMap.mpr ⟨piece, member, written⟩, covers⟩ ?_
  intro other performed otherCovers
  obtain ⟨otherPiece, listed, fromPiece⟩ := List.mem_flatMap.mp performed
  obtain ⟨otherPosition, otherStored, byte⟩ :=
    savingWrites_covers savable listed fromPiece otherCovers
  rw [byte]
  exact agree otherPiece listed piece member otherPosition position key offset otherStored stored

theorem savedDisk_size (savable : SavablePieces metainfo data order) {key : κ} {length : Nat}
    (positive : 0 < length) :
    length ≤ fileSize (savedDisk place metainfo data order) key ↔
      ∃ piece ∈ order, ∃ position offset,
        StoredAt place metainfo piece position key offset ∧ length ≤ offset + 1 := by
  have empty : ¬length - 1 < fileSize (fun _ : κ => none (α := List UInt8)) key :=
    Nat.not_lt_zero _
  have last : length ≤ fileSize (savedDisk place metainfo data order) key ↔
      length - 1 < fileSize (savedDisk place metainfo data order) key := by omega
  rw [last, savedDisk_eq, performAll_size, or_iff_right empty]
  constructor
  · rintro ⟨write, performed, same, grows, beyond⟩
    obtain ⟨piece, listed, written⟩ := List.mem_flatMap.mp performed
    have covers : write.Covers key (write.offset + write.bytes.length - 1) :=
      ⟨same, by omega, by omega⟩
    obtain ⟨position, stored, _⟩ := savingWrites_covers savable listed written covers
    exact ⟨piece, listed, position, _, stored, by omega⟩
  · rintro ⟨piece, listed, position, offset, stored, reaches⟩
    obtain ⟨write, written, same, starts, ends⟩ := stored.written savable listed
    exact ⟨write, List.mem_flatMap.mpr ⟨piece, listed, written⟩, same, by omega, by omega⟩

theorem savedDisk_created (savable : SavablePieces metainfo data order) (member : piece ∈ order)
    {index : Nat} {file : BittorrentFile} (there : metainfo.files[index]? = some file)
    (reached : ReachesFile (metainfo.pieceLength * piece) (getBittorrentPieceLength metainfo piece)
      (fileStart metainfo.files index) file.length) :
    (savedDisk place metainfo data order (place.file file)).isSome = true := by
  rw [savedDisk_eq, performAll_isSome]
  refine .inr ⟨_, List.mem_flatMap.mpr ⟨piece, member, (mem_savingWrites savable member).mpr
    ⟨index, file, there, reached, rfl⟩⟩, ?_⟩
  simp only [placeWrite, takenPart]
  rw [List.getD_eq_getElem?_getD, there, Option.getD_some]

omit [DecidableEq κ] in
theorem idealRead_eq {disk : κ → Option (List UInt8)} {index : Nat} {file : BittorrentFile}
    {contents : List UInt8} (there : metainfo.files[index]? = some file)
    (found : disk (place.file file) = some contents) :
    idealRead place metainfo disk piece index =
      ⟨decide (metainfo.pieceLength * piece - fileStart metainfo.files index ≤ contents.length),
        contents.drop (metainfo.pieceLength * piece - fileStart metainfo.files index), 0⟩ := by
  simp only [idealRead, there, Option.bind_some, found]

theorem savedDisk_gives (savable : SavablePieces metainfo data order)
    (agree : SharedBytesAgree place metainfo data order)
    (boundary : BoundaryWritten place metainfo order) (member : piece ∈ order) :
    FilesGive (idealRead place metainfo (savedDisk place metainfo data order) piece)
      (metainfo.pieceLength * piece) (getBittorrentPieceLength metainfo piece) (data piece)
      metainfo.files 0 0 := by
  intro index file there
  refine ⟨savable.selected file (List.mem_of_getElem? there), ?_⟩
  rw [Nat.zero_add, Nat.zero_add]
  intro reached
  obtain ⟨contents, found⟩ := Option.isSome_iff_exists.mp
    (@savedDisk_created _ place _ _ _ _ _ savable member _ _ there reached)
  have size : fileSize (savedDisk place metainfo data order) (place.file file) = contents.length := by
    rw [fileSize, found]
    rfl
  have bytes : ∀ position offset, StoredAt place metainfo piece position (place.file file) offset →
      contents.getD offset 0 = (data piece).getD position 0 := by
    intro position offset stored
    have kept := savedDisk_byte savable agree member stored
    rwa [byteAt, found] at kept
  have reaches := @savedDisk_size κ place metainfo data order _ savable (place.file file)
  rw [size] at reaches
  rw [idealRead_eq there found]
  generalize shared : sharedLength (metainfo.pieceLength * piece)
    (getBittorrentPieceLength metainfo piece) (fileStart metainfo.files index) file.length = count
  simp only [sharedLength] at shared
  obtain ⟨ends, starts⟩ := reached
  have long := getBittorrentPieceLength_positive metainfo piece
  rcases Nat.eq_zero_or_pos count with nothing | positive
  · subst nothing
    by_cases opened : metainfo.pieceLength * piece - fileStart metainfo.files index ≤ contents.length
    · refine .inl ⟨decide_eq_true opened, ?_⟩
      rw [List.take_zero]
      rfl
    · refine .inr ⟨decide_eq_false opened, ?_, rfl⟩
      by_contra named
      have filled := boundary piece member index file there (by omega) (by simpa using named) (by omega)
      exact opened (Nat.le_trans (by omega) ((reaches (by omega)).mpr filled))
  · have stored : ∀ step < count, StoredAt place metainfo piece
        (fileStart metainfo.files index - metainfo.pieceLength * piece + step) (place.file file)
        (metainfo.pieceLength * piece - fileStart metainfo.files index + step) := by
      intro step below
      exact ⟨by omega, index, file, there, rfl, by omega, by omega⟩
    have fits : metainfo.pieceLength * piece - fileStart metainfo.files index + count ≤
        contents.length :=
      (reaches (by omega)).mpr ⟨piece, member, _, _, stored (count - 1) (by omega), by omega⟩
    refine .inl ⟨decide_eq_true (by omega), ?_⟩
    rw [← memoryPart_eq fits]
    exact memoryPart_congr fun step below => bytes _ _ (stored step below)

theorem readBack {answer : Nat → BittorrentFileAnswer} {memory : List UInt8}
    (give : FilesGive answer (metainfo.pieceLength * piece) (getBittorrentPieceLength metainfo piece)
      memory metainfo.files 0 0)
    (sized : memory.length = getBittorrentPieceLength metainfo piece)
    (whole : metainfo.pieceLength * piece + getBittorrentPieceLength metainfo piece ≤
      filesLength metainfo.files) (entry : BittorrentPieceCacheEntry) :
    bittorrentFilePieceTranslation metainfo answer entry piece .read =
      (.ok, { entry with data := some memory }, true) := by
  have opened : (openEntry entry (getBittorrentPieceLength metainfo piece) .read).data =
      some (readMemory memory 0) := by
    rw [readMemory_zero, sized]
    rfl
  have inStep : 0 = min (getBittorrentPieceLength metainfo piece)
      (0 - metainfo.pieceLength * piece) := by omega
  obtain ⟨final, result, kept, filled⟩ := translateFiles_give 0
    ⟨openEntry entry (getBittorrentPieceLength metainfo piece) .read, 0, 0, none⟩ give inStep sized
    opened
  have ended : final.pieceOffset = getBittorrentPieceLength metainfo piece := by
    simp only [Nat.zero_add] at filled
    omega
  rw [ended, ← sized, readMemory_full] at kept
  simp only [bittorrentFilePieceTranslation, result]
  rw [if_neg (by simp [ended]), kept]
  rfl

/-- Reading fails when the file that ends where the piece starts cannot be opened. -/
theorem read_closed {answer : Nat → BittorrentFileAnswer} {index : Nat} {file : BittorrentFile}
    (there : metainfo.files[index]? = some file) (positive : 0 < file.length)
    (selected : file.selected = true) (named : isBogusFileName file.name = false)
    (ends : fileStart metainfo.files index + file.length = metainfo.pieceLength * piece)
    (closed : (answer index).opened = false) (entry : BittorrentPieceCacheEntry) :
    (bittorrentFilePieceTranslation metainfo answer entry piece .read).1 = .error := by
  have long := getBittorrentPieceLength_positive metainfo piece
  rw [← Nat.zero_add index] at closed
  rw [← Nat.zero_add (fileStart metainfo.files index)] at ends
  obtain ⟨final, result, still⟩ := translateFiles_closed 0
    ⟨openEntry entry (getBittorrentPieceLength metainfo piece) .read, 0, 0, none⟩ there long ends
    positive selected closed named
  have unfilled : final.pieceOffset ≠ getBittorrentPieceLength metainfo piece := by
    rw [still]
    exact Nat.ne_of_lt long
  simp only [bittorrentFilePieceTranslation, result]
  rw [if_pos (.inr unfilled), if_pos unfilled]

/-- Pieces can be read back exactly when the bytes that share a place agree, and files that
end where a piece starts are filled. -/
theorem piecesKept_iff (place : DownloadPlace κ) (savable : SavablePieces metainfo data order) :
    PiecesKept place metainfo data order ↔
      SharedBytesAgree place metainfo data order ∧ BoundaryWritten place metainfo order := by
  constructor
  · intro kept
    refine ⟨?_, ?_⟩
    · intro piece listed other otherListed position otherPosition key offset stored otherStored
      have first := ((kept.placed piece listed position stored.1).2 key offset stored).2
      have second := ((kept.placed other otherListed otherPosition otherStored.1).2 key offset
        otherStored).2
      rw [← first, second]
    · intro piece listed index file there positive named ends
      rw [← @savedDisk_size _ place _ _ _ _ savable (place.file file) _ positive]
      by_contra short
      have closed : (idealRead place metainfo (savedDisk place metainfo data order) piece index).opened =
          false := by
        cases found : savedDisk place metainfo data order (place.file file) with
        | none => simp only [idealRead, there, Option.bind_some, found]
        | some contents =>
            rw [fileSize, found, Option.getD_some] at short
            rw [idealRead_eq there found]
            exact decide_eq_false (by omega)
      have failed := read_closed there positive
        (savable.selected file (List.mem_of_getElem? there)) named ends closed blankEntry
      rw [kept.read piece listed blankEntry] at failed
      simp at failed
  · rintro ⟨agree, boundary⟩
    refine {
      written := fun piece listed => (savable.takes listed).translation
      read := ?_
      placed := ?_
      untouched := ?_ }
    · intro piece listed entry
      exact readBack (savedDisk_gives savable agree boundary listed) (savable.sized piece listed)
        (savable.takes listed).2 entry
    · intro piece listed position inside
      refine ⟨savable.stored listed place inside, fun key offset stored =>
        ⟨?_, savedDisk_byte savable agree listed stored⟩⟩
      exact (savedDisk_size savable (Nat.succ_pos offset)).mpr
        ⟨piece, listed, position, offset, stored, Nat.le_refl _⟩
    · intro piece listed write written key offset covers
      obtain ⟨position, stored, _⟩ := savingWrites_covers savable listed written covers
      exact ⟨position, stored⟩

end disk

def twoFiles : BittorrentMeta where
  pieces := 2
  pieceLength := 1
  lastPieceLength := 1
  pieceHash := []
  files := [⟨1, true, [97]⟩, ⟨1, true, [98]⟩]
  piecesPositive := Nat.two_pos
  piecesBound := twoPieces_bound
  pieceLengthBound := oneByte_bound
  lastPieceLengthPositive := Nat.one_pos
  lastPieceLengthBound := oneByte_le

def homePlace : DownloadPlace (List UInt8) := ⟨[100], [116], .multiFile, id⟩

theorem twoFiles_savable {order : List Nat} (inside : ∀ piece ∈ order, piece < 2) :
    SavablePieces twoFiles (fun _ => [7]) order where
  selected := by decide
  whole := rfl
  inside := inside
  sized piece _ := by
    rw [getBittorrentPieceLength]
    split <;> rfl

theorem piecesKept_twoFiles : PiecesKept homePlace twoFiles (fun _ => [7]) [1, 0] := by
  refine (piecesKept_iff homePlace (twoFiles_savable (by decide))).mpr ⟨?_, ?_⟩
  · intro piece _ other _ position otherPosition key offset stored otherStored
    have length : ∀ piece, getBittorrentPieceLength twoFiles piece = 1 := fun piece => by
      rw [getBittorrentPieceLength]
      split <;> rfl
    have first := stored.1
    have second := otherStored.1
    rw [length, Nat.lt_one_iff] at first second
    rw [first, second]
  · intro piece listed index file there positive named ends
    have after : piece = 1 := by
      rcases List.mem_pair.mp listed with one | zero
      · exact one
      · rw [zero] at ends
        omega
    have first : index = 0 ∧ file = ⟨1, true, [97]⟩ := by
      obtain ⟨inside, same⟩ := List.getElem?_eq_some_iff.mp there
      obtain rfl | rfl : index = 0 ∨ index = 1 := Nat.le_one_iff_eq_zero_or_eq_one.mp (Nat.le_of_lt_succ inside)
      · exact ⟨rfl, same.symm⟩
      · have second : ⟨1, true, [98]⟩ = file := same
        rw [after, ← second] at ends
        exact absurd ends (by decide)
    obtain ⟨rfl, rfl⟩ := first
    exact ⟨0, by decide, 0, 0, ⟨by decide, 0, _, rfl, rfl, by decide, rfl⟩, by decide⟩

/-- The second piece alone cannot be read back: the first file ends where it starts, and this
file was created but is empty. -/
theorem piecesKept_boundary :
    SavablePieces twoFiles (fun _ => [7]) [1] ∧ (∀ file ∈ twoFiles.files, file.name ≠ []) ∧
      (bittorrentFilePieceTranslation twoFiles
        (idealRead homePlace twoFiles (savedDisk homePlace twoFiles (fun _ => [7]) [1]) 1)
        blankEntry 1 .read).1 = .error ∧
      ¬PiecesKept homePlace twoFiles (fun _ => [7]) [1] := by
  have failed : (bittorrentFilePieceTranslation twoFiles
      (idealRead homePlace twoFiles (savedDisk homePlace twoFiles (fun _ => [7]) [1]) 1)
      blankEntry 1 .read).1 = .error := by decide +kernel
  refine ⟨twoFiles_savable (by decide), by decide, failed, fun kept => ?_⟩
  rw [kept.read 1 (by decide) blankEntry] at failed
  simp at failed

end KcnTools.Bittorrent
