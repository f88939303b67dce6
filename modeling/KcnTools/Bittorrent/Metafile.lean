import KcnTools.Bittorrent.Bencoding
import KcnTools.Bittorrent.Common
import KcnTools.Bittorrent.Paths

/-! The parser of `.torrent` files (`bencoding.c`). Its functions get the tokens that are still to
be read, and a failure keeps what has been stored up to there. -/

namespace KcnTools.Bittorrent

open Protocols (cString)

/-- A file while the metafile is parsed: its length is not checked yet. -/
structure MetafileFile where
  length : Int
  md5sum : List UInt8
  selected : Bool
  name : List UInt8
  deriving DecidableEq

/-- `struct bittorrent_meta` while it is filled. `digested` is what `SHA1` has been called with for
the info hash. -/
structure Metafile (υ : Type) where
  infoHash : List UInt8
  creationDate : Int
  comment : Option (List UInt8)
  trackerUris : List υ
  pieces : Nat
  pieceLength : Nat
  lastPieceLength : Nat
  pieceHash : Option (List UInt8)
  type : BittorrentMetaType
  maliciousPaths : Bool
  name : Option (List UInt8)
  files : List MetafileFile
  digested : Option (List UInt8)
  deriving DecidableEq

def initialMetafile (υ : Type) : Metafile υ where
  infoHash := bittorrentNullId
  creationDate := 0
  comment := none
  trackerUris := []
  pieces := 0
  pieceLength := 0
  lastPieceLength := 0
  pieceHash := none
  type := .singleFile
  maliciousPaths := false
  name := none
  files := []
  digested := none

def emptyMetafileFile : MetafileFile := ⟨0, List.replicate 32 0, false, []⟩

structure MetafileServices (υ : Type) where
  getUserProgram : List UInt8 → Bool
  getUri : List UInt8 → Option υ
  sha1 : List UInt8 → List UInt8

abbrev MetafileFailure (υ : Type) := BittorrentState × Metafile υ

section Parser
variable {υ : Type} (services : MetafileServices υ)

def addBittorrentFile (metainfo : Metafile υ) (path : List UInt8) (template : MetafileFile) :
    Except (MetafileFailure υ) (Metafile υ) :=
  match normalizeBencodingPath services.getUserProgram (cString path) with
  | none => .error (.outOfMem, metainfo)
  | some (name, malicious) => .ok { metainfo with
      maliciousPaths := malicious || metainfo.maliciousPaths
      files := metainfo.files ++ [{ template with name, selected := true }] }

/-- The path with one more element; a separator stands in front unless the path is still empty. -/
def addPathElement (path element : List UInt8) : List UInt8 :=
  if 0 < path.length then path ++ 47 :: element else element

/-- From behind the list token to the end token, which is left; `none` is the error. -/
def parseBencodingFilePath (path : List UInt8) : List ReadToken → Option (List UInt8 × List ReadToken)
  | [] => none
  | token :: tokens =>
      if token.type = .end then some (path, token :: tokens)
      else if token.type ≠ .string then none
      else parseBencodingFilePath (addPathElement path token.string) tokens

def parseFileEntry (metainfo : Metafile υ) (parsed : MetafileFile × List UInt8) (key : BencodingKey)
    (tokens : List ReadToken) :
    Except (MetafileFailure υ) ((MetafileFile × List UInt8) × List ReadToken) :=
  match key, tokens with
  | .path, tokens =>
      match parseBencodingFilePath parsed.2 (tokens.drop 1) with
      | none => .error (.error, metainfo)
      | some (path, tokens) => .ok ((parsed.1, path), tokens.drop 1)
  | .length, value :: tokens =>
      .ok (({ parsed.1 with length := parseBencodingInteger value.string }, parsed.2), tokens)
  | .md5sum, value :: tokens =>
      if value.string.length ≠ 32 then .error (.error, metainfo)
      else .ok (({ parsed.1 with md5sum := value.string }, parsed.2), tokens)
  | _, tokens => .ok (parsed, skipBencodingTokens 0 tokens)

def finishFile (metainfo : Metafile υ) (parsed : MetafileFile × List UInt8) (tokens : List ReadToken) :
    Except (MetafileFailure υ) (Metafile υ × List ReadToken) :=
  (addBittorrentFile services metainfo parsed.2 parsed.1).map fun metainfo => (metainfo, tokens.drop 1)

def parseBencodingFileDictionary (metainfo : Metafile υ) (tokens : List ReadToken) :
    Except (MetafileFailure υ) (Metafile υ × List ReadToken) :=
  parseBencodingEntries (parseFileEntry metainfo) (finishFile services metainfo) (fun _ => (.error, metainfo))
    tokens.length (emptyMetafileFile, []) (tokens.drop 1)

/-- From behind the list token on to behind the end token; each round takes a token at least. -/
def parseBencodingFilesList : Nat → Metafile υ → List ReadToken →
    Except (MetafileFailure υ) (Metafile υ × List ReadToken)
  | rounds + 1, metainfo, token :: tokens =>
      if token.type = .end then .ok (metainfo, tokens)
      else if token.type ≠ .dictionary then .error (.error, metainfo)
      else
        match parseBencodingFileDictionary services metainfo (token :: tokens) with
        | .error failure => .error failure
        | .ok (metainfo, tokens) => parseBencodingFilesList rounds metainfo tokens
  | _, metainfo, _ => .error (.error, metainfo)

def parseInfoEntry (parsed : Metafile υ × MetafileFile) (key : BencodingKey) (tokens : List ReadToken) :
    Except (MetafileFailure υ) ((Metafile υ × MetafileFile) × List ReadToken) :=
  let (metainfo, file) := parsed
  match key, tokens with
  | .name, value :: tokens =>
      match normalizeBencodingPath services.getUserProgram value.string with
      | none => .error (.outOfMem, { metainfo with name := none })
      | some (name, malicious) => .ok (({ metainfo with
          name := some name, maliciousPaths := malicious || metainfo.maliciousPaths }, file), tokens)
  | .pieces, value :: tokens =>
      if value.string.length % 20 ≠ 0 then .error (.error, metainfo)
      else .ok (({ metainfo with
        pieces := value.string.length / 20, pieceHash := some value.string }, file), tokens)
  | .pieceLength, value :: tokens =>
      let length := parseBencodingInteger value.string
      if length < 0 ∨ 2 ^ 31 - 1 ≤ length then .error (.error, metainfo)
      else .ok (({ metainfo with pieceLength := length.toNat }, file), tokens)
  | .files, tokens =>
      match parseBencodingFilesList services tokens.length { metainfo with type := .multiFile } (tokens.drop 1) with
      | .error failure => .error failure
      | .ok (metainfo, tokens) => .ok ((metainfo, file), tokens)
  | .length, value :: tokens =>
      .ok ((metainfo, { file with length := parseBencodingInteger value.string }), tokens)
  | .md5sum, value :: tokens =>
      if value.string.length ≠ 32 then .error (.error, metainfo)
      else .ok ((metainfo, { file with md5sum := value.string }), tokens)
  | _, tokens => .ok (parsed, skipBencodingTokens 0 tokens)

def finishInfo (parsed : Metafile υ × MetafileFile) (tokens : List ReadToken) :
    Except (MetafileFailure υ) (Metafile υ × List ReadToken) :=
  let (metainfo, file) := parsed
  if metainfo.type = .multiFile then .ok (metainfo, tokens)
  else
    match metainfo.name with
    | none => .error (.error, metainfo)
    | some name => (addBittorrentFile services metainfo name file).map fun metainfo => (metainfo, tokens)

def parseBencodingInfoDictionary (metainfo : Metafile υ) (tokens : List ReadToken) :
    Except (MetafileFailure υ) (Metafile υ × List ReadToken) :=
  parseBencodingEntries (parseInfoEntry services) (finishInfo services) (fun parsed => (.error, parsed.1))
    tokens.length (metainfo, emptyMetafileFile) (tokens.drop 1)

def bytesUpTo (text : List UInt8) (start : Nat) (token : ReadToken) : List UInt8 :=
  (text.drop start).take (token.start + token.string.length - start)

def parseMetafileEntry (text : List UInt8) (metainfo : Metafile υ) (key : BencodingKey) (tokens : List ReadToken) :
    Except (MetafileFailure υ) (Metafile υ × List ReadToken) :=
  match key, tokens with
  | .announce, value :: tokens =>
      match services.getUri (cString value.string) with
      | none => .ok (metainfo, tokens)
      | some uri => .ok ({ metainfo with trackerUris := metainfo.trackerUris ++ [uri] }, tokens)
  | .info, value :: tokens =>
      match parseBencodingInfoDictionary services metainfo (value :: tokens) with
      | .error (_, metainfo) => .error (.error, metainfo)
      | .ok (metainfo, []) => .error (.error, metainfo)
      | .ok (metainfo, token :: tokens) =>
          let bytes := bytesUpTo text value.start token
          .ok ({ metainfo with infoHash := services.sha1 bytes, digested := some bytes }, tokens)
  | .comment, value :: tokens => .ok ({ metainfo with comment := some (value.string.take 1024) }, tokens)
  | .creationDate, value :: tokens =>
      .ok ({ metainfo with creationDate := parseBencodingInteger value.string }, tokens)
  | .createdBy, _ :: tokens => .ok (metainfo, tokens)
  | _, tokens => .ok (metainfo, skipBencodingTokens 0 tokens)

/-- The sum of the lengths, `none` when one is negative. -/
def totalLength : Int → List MetafileFile → Option Int
  | total, [] => some total
  | total, file :: files => if file.length < 0 then none else totalLength (wrapOff (total + file.length)) files

def checkBittorrentMetafile (metainfo : Metafile υ) : BittorrentState × Metafile υ :=
  if bittorrentIdIsEmpty metainfo.infoHash ∨ metainfo.pieces = 0 ∨ metainfo.name.getD [] = [] ∨
      metainfo.pieceHash = none ∨ metainfo.pieceLength = 0 ∨ metainfo.trackerUris.length = 0 ∨
      metainfo.files.length = 0 then (.error, metainfo)
  else
    match totalLength 0 metainfo.files with
    | none => (.error, metainfo)
    | some total =>
        let remainder := total.tmod metainfo.pieceLength
        let lastPieceLength : Int := if remainder = 0 then metainfo.pieceLength else remainder
        let stored : Nat := (lastPieceLength % 2 ^ 32).toNat
        (if (stored : Int) ≠ lastPieceLength then .error else .ok, { metainfo with lastPieceLength := stored })

def parseBittorrentMetafile (text : List UInt8) : BittorrentState × Metafile υ :=
  match bencodingTokens text with
  | [] => (.error, initialMetafile υ)
  | token :: tokens =>
      if token.type ≠ .dictionary then (.error, initialMetafile υ)
      else
        match parseBencodingEntries (parseMetafileEntry services text)
            (fun metainfo _ => .ok (checkBittorrentMetafile metainfo)) (fun metainfo => (.error, metainfo))
            tokens.length (initialMetafile υ) tokens with
        | .ok checked => checked
        | .error failure => failure

end Parser

end KcnTools.Bittorrent
