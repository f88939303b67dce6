import KcnTools.Bittorrent.Common
import KcnTools.Protocol.UriNormalize

/-!
Reading and writing a piece through the files it spans
(`bittorrent_file_piece_translation`). What the file system answers is a parameter.
-/

namespace KcnTools.Bittorrent

open Protocols

inductive BittorrentTranslation
  | read | write | seek
  deriving DecidableEq

/-- The answer to opening one file of a torrent and then reading or writing it. -/
structure BittorrentFileAnswer where
  opened : Bool
  bytes : List UInt8
  written : Nat

/-- The variables of the loop over the files; `previous` is `prev_selected`, -1 being `none`. -/
structure PieceTranslation where
  entry : BittorrentPieceCacheEntry
  pieceOffset : Nat
  currentOffset : Nat
  previous : Option Bool

inductive PieceTranslationResult
  | left (state : BittorrentState) (loop : PieceTranslation)
  | returned (state : BittorrentState) (loop : PieceTranslation)

def isBogusFileName (name : List UInt8) : Bool :=
  match name.getLast? with
  | none => true
  | some last => dirSep last

def openEntry (entry : BittorrentPieceCacheEntry) (pieceLength : Nat)
    (trans : BittorrentTranslation) : BittorrentPieceCacheEntry :=
  if trans = .read then { entry with data := some (List.replicate pieceLength 0) } else entry

def seekEntry (entry : BittorrentPieceCacheEntry) (file : BittorrentFile) (previous : Option Bool) :
    BittorrentPieceCacheEntry :=
  { entry with
    selected := entry.selected || file.selected
    locked := entry.locked || (previous.isSome && previous != some file.selected) }

def readEntry (entry : BittorrentPieceCacheEntry) (offset : Nat) (bytes : List UInt8) :
    BittorrentPieceCacheEntry :=
  { entry with
    data := entry.data.map fun data => data.take offset ++ bytes ++ data.drop (offset + bytes.length) }

def translateFiles (trans : BittorrentTranslation) (pieceLength torrentOffset : Nat)
    (answer : Nat → BittorrentFileAnswer) :
    List BittorrentFile → Nat → PieceTranslation → PieceTranslationResult
  | [], _, loop => .left .ok loop
  | file :: files, index, loop =>
      if pieceLength ≤ loop.pieceOffset then .left .ok loop
      else if loop.currentOffset + file.length < torrentOffset then
        translateFiles trans pieceLength torrentOffset answer files (index + 1)
          { loop with currentOffset := loop.currentOffset + file.length }
      else
        let fileOffset := torrentOffset - loop.currentOffset
        let dataLength := min (pieceLength - loop.pieceOffset) (file.length - fileOffset)
        let next := { loop with
          pieceOffset := loop.pieceOffset + dataLength
          currentOffset := loop.currentOffset + file.length }
        if trans = .seek then
          translateFiles trans pieceLength torrentOffset answer files (index + 1)
            { next with
              entry := seekEntry loop.entry file loop.previous
              previous := some file.selected }
        else if !file.selected && (trans != .read || !loop.entry.completed) then
          translateFiles trans pieceLength torrentOffset answer files (index + 1) next
        else if !(answer index).opened then
          if isBogusFileName file.name then
            translateFiles trans pieceLength torrentOffset answer files (index + 1)
              { loop with currentOffset := loop.currentOffset + file.length }
          else .left (if trans = .write then .error else .fileMissing) loop
        else if trans = .read then
          let bytes := (answer index).bytes.take dataLength
          let entry := readEntry loop.entry loop.pieceOffset bytes
          if bytes.length = dataLength then
            translateFiles trans pieceLength torrentOffset answer files (index + 1)
              { next with entry }
          else .returned .error { loop with entry }
        else if (answer index).written = dataLength then
          translateFiles trans pieceLength torrentOffset answer files (index + 1) next
        else .returned .error loop

/-- The entry afterwards and whether it was added to the queue of disposable entries. -/
def bittorrentFilePieceTranslation (metainfo : BittorrentMeta) (answer : Nat → BittorrentFileAnswer)
    (entry : BittorrentPieceCacheEntry) (piece : Nat) (trans : BittorrentTranslation) :
    BittorrentState × BittorrentPieceCacheEntry × Bool :=
  let pieceLength := getBittorrentPieceLength metainfo piece
  match translateFiles trans pieceLength (metainfo.pieceLength * piece) answer metainfo.files 0
    ⟨openEntry entry pieceLength trans, 0, 0, none⟩ with
  | .returned state loop => (state, loop.entry, false)
  | .left state loop =>
      if state ≠ .ok ∨ loop.pieceOffset ≠ pieceLength then
        (if loop.pieceOffset ≠ pieceLength then .error else state,
          { loop.entry with data := none }, false)
      else (.ok, loop.entry, trans != .seek)

def SameProgress (before after : BittorrentPieceCacheEntry) : Prop :=
  after.rarity = before.rarity ∧ after.completed = before.completed ∧
    after.remaining = before.remaining ∧ after.blocks = before.blocks

theorem SameProgress.trans {first second third : BittorrentPieceCacheEntry}
    (earlier : SameProgress first second) (later : SameProgress second third) :
    SameProgress first third := by
  obtain ⟨rarity, completed, remaining, blocks⟩ := later
  refine ⟨?_, ?_, ?_, ?_⟩
  · exact rarity.trans earlier.1
  · exact completed.trans earlier.2.1
  · exact remaining.trans earlier.2.2.1
  · exact blocks.trans earlier.2.2.2

def PieceTranslationResult.loop : PieceTranslationResult → PieceTranslation
  | .left _ loop => loop
  | .returned _ loop => loop

theorem translateFiles_sameProgress (trans : BittorrentTranslation) (pieceLength torrentOffset : Nat)
    (answer : Nat → BittorrentFileAnswer) (files : List BittorrentFile) (index : Nat)
    (loop : PieceTranslation) :
    SameProgress loop.entry
      (translateFiles trans pieceLength torrentOffset answer files index loop).loop.entry := by
  fun_induction translateFiles trans pieceLength torrentOffset answer files index loop with
  | case1 | case2 | case7 | case9 | case11 => exact ⟨rfl, rfl, rfl, rfl⟩
  | case3 | case4 | case5 | case6 | case8 | case10 =>
      rename_i ih
      exact ih

theorem bittorrentFilePieceTranslation_sameProgress (metainfo : BittorrentMeta)
    (answer : Nat → BittorrentFileAnswer) (entry : BittorrentPieceCacheEntry) (piece : Nat)
    (trans : BittorrentTranslation) :
    SameProgress entry
      (bittorrentFilePieceTranslation metainfo answer entry piece trans).2.1 := by
  have opened : SameProgress entry
      (openEntry entry (getBittorrentPieceLength metainfo piece) trans) := by
    simp only [openEntry]
    split <;> exact ⟨rfl, rfl, rfl, rfl⟩
  have looped := translateFiles_sameProgress trans (getBittorrentPieceLength metainfo piece)
    (metainfo.pieceLength * piece) answer metainfo.files 0
    ⟨openEntry entry (getBittorrentPieceLength metainfo piece) trans, 0, 0, none⟩
  have kept := SameProgress.trans opened looped
  simp only [bittorrentFilePieceTranslation]
  split
  · rename_i stopped
    rw [stopped] at kept
    exact kept
  · rename_i stopped
    rw [stopped] at kept
    split <;> exact kept

end KcnTools.Bittorrent
