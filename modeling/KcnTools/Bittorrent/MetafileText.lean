import KcnTools.Bittorrent.BencodedText
import KcnTools.Bittorrent.Metafile

/-! What the values of a well-formed metafile are read as: each parser goes through the entries of
its dictionary, and leaves the tokens behind it. -/

namespace KcnTools.Bittorrent

open Protocols (cString)

section Meaning
variable {υ : Type} (services : MetafileServices υ)

def readFilePath (path : List UInt8) (items : List BencodedValue) : Option (List UInt8) :=
  items.foldlM (fun path item =>
    match item with
    | .string element => some (addPathElement path element)
    | _ => none) path

def readFileEntry (metainfo : Metafile υ) (parsed : MetafileFile × List UInt8) (key : List UInt8)
    (value : BencodedValue) : Except (MetafileFailure υ) (MetafileFile × List UInt8) :=
  match bencodingKey key value.type, value with
  | .path, .list items =>
      match readFilePath parsed.2 items with
      | none => .error (.error, metainfo)
      | some path => .ok (parsed.1, path)
  | .length, .integer length =>
      .ok ({ parsed.1 with length := parseBencodingInteger (encodeInteger length) }, parsed.2)
  | .md5sum, .string bytes =>
      if bytes.length ≠ 32 then .error (.error, metainfo) else .ok ({ parsed.1 with md5sum := bytes }, parsed.2)
  | _, _ => .ok parsed

def readFile (metainfo : Metafile υ) (entries : BencodedEntries) : Except (MetafileFailure υ) (Metafile υ) :=
  (entries.foldlM (fun parsed entry => readFileEntry metainfo parsed entry.1 entry.2) (emptyMetafileFile, [])).bind
    fun parsed => addBittorrentFile services metainfo parsed.2 parsed.1

def readFilesItem (metainfo : Metafile υ) : BencodedValue → Except (MetafileFailure υ) (Metafile υ)
  | .dictionary entries => readFile services metainfo entries
  | _ => .error (.error, metainfo)

def readFiles (metainfo : Metafile υ) (items : List BencodedValue) : Except (MetafileFailure υ) (Metafile υ) :=
  items.foldlM (readFilesItem services) metainfo

def readInfoEntry (parsed : Metafile υ × MetafileFile) (key : List UInt8) (value : BencodedValue) :
    Except (MetafileFailure υ) (Metafile υ × MetafileFile) :=
  let (metainfo, file) := parsed
  match bencodingKey key value.type, value with
  | .name, .string bytes =>
      match normalizeBencodingPath services.getUserProgram bytes with
      | none => .error (.outOfMem, { metainfo with name := none })
      | some (name, malicious) => .ok ({ metainfo with
          name := some name, maliciousPaths := malicious || metainfo.maliciousPaths }, file)
  | .pieces, .string bytes =>
      if bytes.length % 20 ≠ 0 then .error (.error, metainfo)
      else .ok ({ metainfo with pieces := bytes.length / 20, pieceHash := some bytes }, file)
  | .pieceLength, .integer length =>
      let length := parseBencodingInteger (encodeInteger length)
      if length < 0 ∨ 2 ^ 31 - 1 ≤ length then .error (.error, metainfo)
      else .ok ({ metainfo with pieceLength := length.toNat }, file)
  | .files, .list items =>
      (readFiles services { metainfo with type := .multiFile } items).map fun metainfo => (metainfo, file)
  | .length, .integer length =>
      .ok (metainfo, { file with length := parseBencodingInteger (encodeInteger length) })
  | .md5sum, .string bytes =>
      if bytes.length ≠ 32 then .error (.error, metainfo) else .ok (metainfo, { file with md5sum := bytes })
  | _, _ => .ok parsed

def readInfo (metainfo : Metafile υ) (entries : BencodedEntries) : Except (MetafileFailure υ) (Metafile υ) :=
  (entries.foldlM (fun parsed entry => readInfoEntry services parsed entry.1 entry.2)
    (metainfo, emptyMetafileFile)).bind fun parsed => (finishInfo services parsed []).map (·.1)

def readMetafileEntry (metainfo : Metafile υ) (key : List UInt8) (value : BencodedValue) :
    Except (MetafileFailure υ) (Metafile υ) :=
  match bencodingKey key value.type, value with
  | .announce, .string bytes =>
      match services.getUri (cString bytes) with
      | none => .ok metainfo
      | some uri => .ok { metainfo with trackerUris := metainfo.trackerUris ++ [uri] }
  | .info, .dictionary entries =>
      match readInfo services metainfo entries with
      | .error (_, metainfo) => .error (.error, metainfo)
      | .ok metainfo =>
          let bytes := encodeValue (.dictionary entries)
          .ok { metainfo with infoHash := services.sha1 bytes, digested := some bytes }
  | .comment, .string bytes => .ok { metainfo with comment := some (bytes.take 1024) }
  | .creationDate, .integer date =>
      .ok { metainfo with creationDate := parseBencodingInteger (encodeInteger date) }
  | _, _ => .ok metainfo

def readMetafileEntries (metainfo : Metafile υ) (entries : BencodedEntries) : Except (MetafileFailure υ) (Metafile υ) :=
  entries.foldlM (fun metainfo entry => readMetafileEntry services metainfo entry.1 entry.2) metainfo

def readMetafile (entries : BencodedEntries) : BittorrentState × Metafile υ :=
  match readMetafileEntries services (initialMetafile υ) entries with
  | .ok metainfo => checkBittorrentMetafile metainfo
  | .error failure => failure

end Meaning

section Reading
variable {υ : Type} {services : MetafileServices υ} {text : List UInt8}

theorem parseBencodingFilePath_items (path : List UInt8) (items : List BencodedValue) (position stop : Nat)
    (rest : List ReadToken) :
    parseBencodingFilePath path (itemTokens position items ++ endToken stop :: rest) =
      (readFilePath path items).map fun path => (path, endToken stop :: rest) := by
  induction items generalizing path position with
  | nil => rfl
  | cons item items ih =>
      rw [readFilePath, List.foldlM_cons, itemTokens, List.append_assoc]
      cases item with
      | string element => exact ih (addPathElement path element) _
      | integer value => rfl
      | list items => rfl
      | dictionary entries => rfl

theorem parseFileEntry_reads (metainfo : Metafile υ) :
    ReadsEntries text (parseFileEntry metainfo) (readFileEntry metainfo) := by
  intro parsed key value position rest _
  cases found : bencodingKey key value.type with
  | path =>
      obtain ⟨items, rfl⟩ := BencodedValue.list_of_type (bencodingKey_type found BencodingKey.noConfusion (by decide))
      simp only [readFileEntry, found, valueTokens, List.cons_append, List.append_assoc]
      simp only [parseFileEntry, List.drop_succ_cons, List.drop_zero]
      rw [parseBencodingFilePath_items]
      cases readFilePath parsed.2 items <;> rfl
  | length =>
      obtain ⟨length, rfl⟩ := BencodedValue.integer_of_type (bencodingKey_type found BencodingKey.noConfusion
          (by decide))
      simp only [readFileEntry, found, valueTokens]
      rfl
  | md5sum =>
      obtain ⟨bytes, rfl⟩ := BencodedValue.string_of_type (bencodingKey_type found BencodingKey.noConfusion (by decide))
      simp only [readFileEntry, found, valueTokens]
      show (if bytes.length ≠ 32 then _ else _) = _
      split <;> rfl
  | _ =>
      simp only [readFileEntry, found]
      exact congrArg (fun tokens => Except.ok (parsed, tokens)) (skipBencodingTokens_whole value position rest)

theorem parseBencodingFileDictionary_reads (services : MetafileServices υ) (metainfo : Metafile υ)
    {entries : BencodedEntries} {position : Nat}
    {after : List UInt8} (here : text.drop position = encodeValue (.dictionary entries) ++ after)
    (rest : List ReadToken) :
    parseBencodingFileDictionary services metainfo (valueTokens position (.dictionary entries) ++ rest) =
      (readFile services metainfo entries).map fun metainfo => (metainfo, rest) := by
  rw [parseBencodingFileDictionary, parseBencodingEntries_dictionary (parseFileEntry_reads metainfo) _ _ _ here,
    readFile]
  cases entries.foldlM (fun parsed entry => readFileEntry metainfo parsed entry.1 entry.2) (emptyMetafileFile, []) with
  | error failure => rfl
  | ok parsed =>
      show finishFile services metainfo parsed _ = (addBittorrentFile services metainfo parsed.2 parsed.1).map _
      rw [finishFile]
      rfl

theorem parseBencodingFilesList_reads (services : MetafileServices υ) {rounds : Nat} (metainfo : Metafile υ)
    {items : List BencodedValue}
    (enough : items.length < rounds) {position : Nat} {after : List UInt8}
    (here : text.drop position = encodeItems items ++ after) (stop : Nat) (rest : List ReadToken) :
    parseBencodingFilesList services rounds metainfo (itemTokens position items ++ endToken stop :: rest) =
      (readFiles services metainfo items).map fun metainfo => (metainfo, rest) := by
  induction items generalizing rounds metainfo position with
  | nil =>
      obtain ⟨rounds, rfl⟩ := Nat.exists_eq_succ_of_ne_zero (Nat.pos_iff_ne_zero.mp enough)
      rfl
  | cons item items ih =>
      obtain ⟨rounds, rfl⟩ := Nat.exists_eq_succ_of_ne_zero (Nat.pos_iff_ne_zero.mp (Nat.zero_lt_of_lt enough))
      rw [encodeItems, List.append_assoc] at here
      rw [readFiles, List.foldlM_cons, itemTokens, List.append_assoc]
      cases item with
      | integer value => rfl
      | string bytes => rfl
      | list items => rfl
      | dictionary entries =>
          have first := parseBencodingFileDictionary_reads services metainfo here
            (itemTokens (position + (encodeValue (.dictionary entries)).length) items ++ endToken stop :: rest)
          have opened : valueTokens position (.dictionary entries) = ⟨.dictionary, [100], position⟩ ::
              (entryTokens (position + 1) entries ++ [endToken (position + 1 + (encodeEntries entries).length)]) := by
            rw [valueTokens]
          rw [opened, List.cons_append] at first ⊢
          rw [parseBencodingFilesList, if_neg BencodingToken.noConfusion, if_neg (not_not.mpr rfl), first,
            readFilesItem]
          cases readFile services metainfo entries with
          | error failure => rfl
          | ok metainfo => exact ih metainfo (Nat.lt_of_succ_lt_succ enough) (drop_of_drop _ here)

theorem parseInfoEntry_reads : ReadsEntries text (parseInfoEntry services) (readInfoEntry services) := by
  rintro ⟨metainfo, file⟩ key value position rest ⟨after, here⟩
  cases found : bencodingKey key value.type with
  | name =>
      obtain ⟨bytes, rfl⟩ := BencodedValue.string_of_type (bencodingKey_type found BencodingKey.noConfusion (by decide))
      simp only [readInfoEntry, found, valueTokens]
      unfold parseInfoEntry
      dsimp only [List.cons_append, List.nil_append, stringToken]
      generalize normalizeBencodingPath services.getUserProgram bytes = normal
      cases normal <;> rfl
  | pieces =>
      obtain ⟨bytes, rfl⟩ := BencodedValue.string_of_type (bencodingKey_type found BencodingKey.noConfusion (by decide))
      simp only [readInfoEntry, found, valueTokens]
      show (if bytes.length % 20 ≠ 0 then _ else _) = _
      split <;> rfl
  | pieceLength =>
      obtain ⟨length, rfl⟩ := BencodedValue.integer_of_type (bencodingKey_type found BencodingKey.noConfusion
          (by decide))
      simp only [readInfoEntry, found, valueTokens]
      show (if _ ∨ _ then _ else _) = _
      split <;> rfl
  | files =>
      obtain ⟨items, rfl⟩ := BencodedValue.list_of_type (bencodingKey_type found BencodingKey.noConfusion (by decide))
      rw [encodeValue, List.cons_append, List.append_assoc] at here
      have inside : text.drop (position + 1) = encodeItems items ++ ([101] ++ after) := drop_of_drop [108] here
      simp only [readInfoEntry, found, valueTokens, List.cons_append, List.append_assoc]
      unfold parseInfoEntry
      have enough : items.length < (itemTokens (position + 1) items ++
          endToken (position + 1 + (encodeItems items).length) :: rest).length + 1 := by
        have fewer := length_le_itemTokens (position + 1) items
        rw [List.length_append]
        omega
      have listed := parseBencodingFilesList_reads services { metainfo with type := .multiFile } enough inside
        (position + 1 + (encodeItems items).length) rest
      simp only [List.drop_succ_cons, List.drop_zero, List.length_cons, List.nil_append]
      rw [listed]
      cases readFiles services { metainfo with type := .multiFile } items <;> rfl
  | length =>
      obtain ⟨length, rfl⟩ := BencodedValue.integer_of_type (bencodingKey_type found BencodingKey.noConfusion
          (by decide))
      simp only [readInfoEntry, found, valueTokens]
      rfl
  | md5sum =>
      obtain ⟨bytes, rfl⟩ := BencodedValue.string_of_type (bencodingKey_type found BencodingKey.noConfusion (by decide))
      simp only [readInfoEntry, found, valueTokens]
      show (if bytes.length ≠ 32 then _ else _) = _
      split <;> rfl
  | _ =>
      simp only [readInfoEntry, found]
      exact congrArg (fun tokens => Except.ok ((metainfo, file), tokens))
        (skipBencodingTokens_whole value position rest)

theorem parseBencodingInfoDictionary_reads (services : MetafileServices υ) (metainfo : Metafile υ)
    {entries : BencodedEntries} {position : Nat}
    {after : List UInt8} (here : text.drop position = encodeValue (.dictionary entries) ++ after)
    (rest : List ReadToken) :
    parseBencodingInfoDictionary services metainfo (valueTokens position (.dictionary entries) ++ rest) =
      (readInfo services metainfo entries).map fun metainfo =>
        (metainfo, endToken (position + 1 + (encodeEntries entries).length) :: rest) := by
  rw [parseBencodingInfoDictionary, parseBencodingEntries_dictionary parseInfoEntry_reads _ _ _ here, readInfo]
  cases entries.foldlM (fun parsed entry => readInfoEntry services parsed entry.1 entry.2)
      (metainfo, emptyMetafileFile) with
  | error failure => rfl
  | ok parsed =>
      show finishInfo services parsed _ = ((finishInfo services parsed []).map _).map _
      rw [finishInfo, finishInfo]
      split
      · rfl
      · cases parsed.1.name with
        | none => rfl
        | some name =>
            dsimp only
            cases addBittorrentFile services parsed.1 name parsed.2 <;> rfl

theorem bytesUpTo_dictionary {entries : BencodedEntries} {position : Nat} {after : List UInt8}
    (here : text.drop position = encodeValue (.dictionary entries) ++ after) :
    bytesUpTo text position (endToken (position + 1 + (encodeEntries entries).length)) =
      encodeValue (.dictionary entries) := by
  have length : (encodeValue (.dictionary entries)).length = (encodeEntries entries).length + 2 := by
    rw [encodeValue, List.length_cons, List.length_append, List.length_singleton]
  have stop : position + 1 + (encodeEntries entries).length + 1 - position = (encodeEntries entries).length + 2 := by
    omega
  rw [bytesUpTo, here]
  show (encodeValue (.dictionary entries) ++ after).take
    (position + 1 + (encodeEntries entries).length + 1 - position) = _
  rw [stop, ← length, List.take_left]

theorem parseMetafileEntry_reads :
    ReadsEntries text (parseMetafileEntry services text) (readMetafileEntry services) := by
  rintro metainfo key value position rest ⟨after, here⟩
  cases found : bencodingKey key value.type with
  | announce =>
      obtain ⟨bytes, rfl⟩ := BencodedValue.string_of_type (bencodingKey_type found BencodingKey.noConfusion (by decide))
      simp only [readMetafileEntry, found, valueTokens]
      show (match services.getUri (cString bytes) with
        | none => _
        | some uri => _) = _
      cases services.getUri (cString bytes) <;> rfl
  | info =>
      obtain ⟨entries, rfl⟩ :=
        BencodedValue.dictionary_of_type (bencodingKey_type found BencodingKey.noConfusion (by decide))
      have read := parseBencodingInfoDictionary_reads services metainfo here rest
      obtain ⟨token, tokens, split, start⟩ : ∃ token tokens,
          valueTokens position (.dictionary entries) = token :: tokens ∧ token.start = position := ⟨_, _, rfl, rfl⟩
      rw [split, List.cons_append] at read ⊢
      simp only [readMetafileEntry, found]
      rw [parseMetafileEntry, read]
      cases readInfo services metainfo entries with
      | error failure => rfl
      | ok metainfo =>
          dsimp only [Except.map]
          rw [start, bytesUpTo_dictionary here]
  | comment =>
      obtain ⟨bytes, rfl⟩ := BencodedValue.string_of_type (bencodingKey_type found BencodingKey.noConfusion (by decide))
      simp only [readMetafileEntry, found, valueTokens]
      rfl
  | creationDate =>
      obtain ⟨date, rfl⟩ := BencodedValue.integer_of_type (bencodingKey_type found BencodingKey.noConfusion (by decide))
      simp only [readMetafileEntry, found, valueTokens]
      rfl
  | createdBy =>
      obtain ⟨bytes, rfl⟩ := BencodedValue.string_of_type (bencodingKey_type found BencodingKey.noConfusion (by decide))
      simp only [readMetafileEntry, found, valueTokens]
      rfl
  | _ =>
      simp only [readMetafileEntry, found]
      exact congrArg (fun tokens => Except.ok (metainfo, tokens)) (skipBencodingTokens_whole value position rest)

theorem parseBittorrentMetafile_reads (services : MetafileServices υ) (entries : BencodedEntries)
    (small : (encodeValue (.dictionary entries)).length < 2 ^ 31) :
    parseBittorrentMetafile services (encodeValue (.dictionary entries)) = readMetafile services entries := by
  have tokens := bencodingTokens_encodeValue (.dictionary entries) small
  rw [valueTokens, Nat.zero_add] at tokens
  have inside : (encodeValue (.dictionary entries)).drop 1 = encodeEntries entries ++ [101] := by
    rw [encodeValue]
    rfl
  have enough : entries.length < (entryTokens 1 entries ++ [endToken (1 + (encodeEntries entries).length)]).length := by
    have fewer := length_le_entryTokens 1 entries
    rw [List.length_append, List.length_singleton]
    omega
  rw [parseBittorrentMetafile, tokens]
  dsimp only
  rw [if_neg (not_not.mpr rfl), parseBencodingEntries_entries parseMetafileEntry_reads _ _ entries enough _ inside,
    readMetafile, readMetafileEntries]
  cases entries.foldlM (fun metainfo entry => readMetafileEntry services metainfo entry.1 entry.2)
      (initialMetafile υ) <;> rfl

end Reading

end KcnTools.Bittorrent
