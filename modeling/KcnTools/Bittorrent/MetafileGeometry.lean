import KcnTools.Bittorrent.BencodedText
import KcnTools.Bittorrent.Metafile

/-! What an accepted metafile says about its pieces, against the lengths of its files. -/

namespace KcnTools.Bittorrent

open Protocols (ascii)

section Entries
variable {ε σ ω : Type}

theorem skipBencodingTokens_subset (level : Int) (tokens : List ReadToken) :
    skipBencodingTokens level tokens ⊆ tokens := by
  induction tokens generalizing level with
  | nil => exact List.Subset.refl []
  | cons token tokens ih =>
      rw [skipBencodingTokens]
      split
      · exact List.subset_cons_of_subset token (ih _)
      · exact List.subset_cons_self token tokens

theorem checkBencodingDictionaryEntry_subset (tokens : List ReadToken) :
    (checkBencodingDictionaryEntry tokens).2 ⊆ tokens := by
  match tokens with
  | [] => exact List.Subset.refl []
  | [key] =>
      rw [checkBencodingDictionaryEntry]
      split
      · exact List.Subset.refl _
      · split
        · exact List.Subset.refl _
        · exact List.nil_subset _
  | key :: value :: tokens =>
      rw [checkBencodingDictionaryEntry]
      split
      · exact List.Subset.refl _
      · split
        · exact List.Subset.refl _
        · exact List.subset_cons_self key (value :: tokens)

theorem parseBencodingEntries_keeps
    {entry : σ → BencodingKey → List ReadToken → Except ε (σ × List ReadToken)}
    {finish : σ → List ReadToken → Except ε ω} {error : σ → ε} (Kept : σ → Prop) (Result : ω → Prop)
    {all : List ReadToken}
    (step : ∀ parsed key tokens next rest, Kept parsed → tokens ⊆ all → entry parsed key tokens = .ok (next, rest) →
      Kept next ∧ rest ⊆ all)
    (stop : ∀ parsed tokens result, Kept parsed → tokens ⊆ all → finish parsed tokens = .ok result → Result result)
    {rounds : Nat} {parsed : σ} {tokens : List ReadToken} {result : ω} (kept : Kept parsed) (inside : tokens ⊆ all)
    (read : parseBencodingEntries entry finish error rounds parsed tokens = .ok result) : Result result := by
  induction rounds generalizing parsed tokens with
  | zero => cases read
  | succ rounds ih =>
      cases tokens with
      | nil => cases read
      | cons token tokens =>
          have within := List.Subset.trans (checkBencodingDictionaryEntry_subset (token :: tokens)) inside
          rw [parseBencodingEntries] at read
          split at read
          next checked =>
            rw [checked] at within
            exact stop _ _ _ kept within read
          next => cases read
          next checked =>
            rw [checked] at within
            split at read
            · cases read
            next answer =>
              obtain ⟨next, rest⟩ := step _ _ _ _ _ kept within answer
              exact ih next rest read

theorem parseBencodingEntries_fails
    {entry : σ → BencodingKey → List ReadToken → Except ε (σ × List ReadToken)}
    {finish : σ → List ReadToken → Except ε ω} {error : σ → ε} (Failed : ε → Prop)
    (step : ∀ parsed key tokens failure, entry parsed key tokens = .error failure → Failed failure)
    (stop : ∀ parsed tokens failure, finish parsed tokens = .error failure → Failed failure)
    (short : ∀ parsed, Failed (error parsed)) {rounds : Nat} {parsed : σ} {tokens : List ReadToken} {failure : ε}
    (read : parseBencodingEntries entry finish error rounds parsed tokens = .error failure) : Failed failure := by
  induction rounds generalizing parsed tokens with
  | zero =>
      cases read
      exact short parsed
  | succ rounds ih =>
      cases tokens with
      | nil =>
          cases read
          exact short parsed
      | cons token tokens =>
          rw [parseBencodingEntries] at read
          split at read
          · exact stop _ _ _ read
          · cases read
            exact short parsed
          · split at read
            next answer =>
              cases read
              exact step _ _ _ _ answer
            · exact ih read

end Entries

section Numbers
variable {υ : Type} {services : MetafileServices υ} {all : List ReadToken}

structure SameNumbers (metainfo after : Metafile υ) : Prop where
  pieces : after.pieces = metainfo.pieces
  pieceLength : after.pieceLength = metainfo.pieceLength

theorem addBittorrentFile_numbers {metainfo after : Metafile υ} {path : List UInt8} {template : MetafileFile}
    (added : addBittorrentFile services metainfo path template = .ok after) : SameNumbers metainfo after := by
  unfold addBittorrentFile at added
  cases normal : normalizeBencodingPath services.getUserProgram (Protocols.cString path) with
  | none =>
      rw [normal] at added
      cases added
  | some normalized =>
      rw [normal] at added
      cases added
      exact ⟨rfl, rfl⟩

theorem parseBencodingFilePath_subset {path after : List UInt8} {tokens rest : List ReadToken}
    (read : parseBencodingFilePath path tokens = some (after, rest)) : rest ⊆ tokens := by
  induction tokens generalizing path with
  | nil => cases read
  | cons token tokens ih =>
      rw [parseBencodingFilePath] at read
      split at read
      · cases read
        exact List.Subset.refl _
      · split at read
        · cases read
        · exact List.subset_cons_of_subset token (ih read)

theorem parseFileEntry_subset {metainfo : Metafile υ} {parsed next : MetafileFile × List UInt8} {key : BencodingKey}
    {tokens rest : List ReadToken} (read : parseFileEntry metainfo parsed key tokens = .ok (next, rest)) :
    rest ⊆ tokens := by
  rw [parseFileEntry.eq_def] at read
  split at read
  · split at read
    · cases read
    next path =>
      cases read
      exact List.Subset.trans (List.drop_subset 1 _)
        (List.Subset.trans (parseBencodingFilePath_subset path) (List.drop_subset 1 _))
  · cases read
    exact List.subset_cons_self _ _
  · split at read
    · cases read
    · cases read
      exact List.subset_cons_self _ _
  · cases read
    exact skipBencodingTokens_subset 0 _

theorem parseBencodingFileDictionary_numbers {metainfo after : Metafile υ} {tokens rest : List ReadToken}
    (inside : tokens ⊆ all)
    (read : parseBencodingFileDictionary services metainfo tokens = .ok (after, rest)) :
    SameNumbers metainfo after ∧ rest ⊆ all := by
  refine parseBencodingEntries_keeps (fun _ => True) (fun result => SameNumbers metainfo result.1 ∧ result.2 ⊆ all) ?_
    ?_ trivial
    (List.Subset.trans (List.drop_subset 1 tokens) inside) read
  · intro parsed key tokens next rest _ within answer
    exact ⟨trivial, List.Subset.trans (parseFileEntry_subset answer) within⟩
  · intro parsed tokens result _ within answer
    rw [finishFile] at answer
    cases added : addBittorrentFile services metainfo parsed.2 parsed.1 with
    | error failure =>
        rw [added] at answer
        cases answer
    | ok after =>
        rw [added] at answer
        cases answer
        exact ⟨addBittorrentFile_numbers added, List.Subset.trans (List.drop_subset 1 tokens) within⟩

theorem parseBencodingFilesList_numbers {rounds : Nat} {metainfo after : Metafile υ} {tokens rest : List ReadToken}
    (inside : tokens ⊆ all) (read : parseBencodingFilesList services rounds metainfo tokens = .ok (after, rest)) :
    SameNumbers metainfo after ∧ rest ⊆ all := by
  induction rounds generalizing metainfo tokens with
  | zero => cases read
  | succ rounds ih =>
      cases tokens with
      | nil => cases read
      | cons token tokens =>
          rw [parseBencodingFilesList] at read
          split at read
          · cases read
            exact ⟨⟨rfl, rfl⟩, List.Subset.trans (List.subset_cons_self _ _) inside⟩
          · split at read
            · cases read
            · split at read
              · cases read
              next next left answer =>
                obtain ⟨first, within⟩ := parseBencodingFileDictionary_numbers inside answer
                obtain ⟨others, behind⟩ := ih within read
                exact ⟨⟨others.pieces.trans first.pieces, others.pieceLength.trans first.pieceLength⟩, behind⟩

structure NumbersFit (length : Nat) (metainfo : Metafile υ) : Prop where
  pieces : metainfo.pieces ≤ length
  pieceLength : metainfo.pieceLength < 2 ^ 31

theorem NumbersFit.same {length : Nat} {metainfo after : Metafile υ} (fit : NumbersFit length metainfo)
    (same : SameNumbers metainfo after) : NumbersFit length after where
  pieces := Nat.le_trans (Nat.le_of_eq same.pieces) fit.pieces
  pieceLength := Nat.lt_of_le_of_lt (Nat.le_of_eq same.pieceLength) fit.pieceLength

theorem parseInfoEntry_fits {length : Nat} (short : ∀ token ∈ all, token.string.length ≤ length)
    {parsed next : Metafile υ × MetafileFile} {key : BencodingKey} {tokens rest : List ReadToken}
    (fit : NumbersFit length parsed.1) (inside : tokens ⊆ all)
    (read : parseInfoEntry services parsed key tokens = .ok (next, rest)) :
    NumbersFit length next.1 ∧ rest ⊆ all := by
  obtain ⟨metainfo, file⟩ := parsed
  unfold parseInfoEntry at read
  dsimp only at read
  have behind {value : ReadToken} {tokens : List ReadToken} (within : value :: tokens ⊆ all) : tokens ⊆ all :=
    List.Subset.trans (List.subset_cons_self value tokens) within
  split at read
  next value tokens =>
    generalize normalizeBencodingPath services.getUserProgram value.string = normal at read
    split at read
    · cases read
    · cases read
      exact ⟨⟨fit.pieces, fit.pieceLength⟩, behind inside⟩
  next value tokens =>
    split at read
    · cases read
    · cases read
      have fewer := short value (inside List.mem_cons_self)
      exact ⟨⟨Nat.le_trans (Nat.div_le_self _ _) fewer, fit.pieceLength⟩, behind inside⟩
  · split at read
    · cases read
    next valid =>
      cases read
      refine ⟨⟨fit.pieces, ?_⟩, behind inside⟩
      dsimp only
      omega
  · split at read
    · cases read
    next answer =>
      cases read
      obtain ⟨same, within⟩ := parseBencodingFilesList_numbers (List.Subset.trans (List.drop_subset 1 _) inside) answer
      exact ⟨fit.same ⟨same.pieces, same.pieceLength⟩, within⟩
  · cases read
    exact ⟨fit, behind inside⟩
  · split at read
    · cases read
    · cases read
      exact ⟨fit, behind inside⟩
  · cases read
    exact ⟨fit, List.Subset.trans (skipBencodingTokens_subset 0 _) inside⟩

theorem finishInfo_fits {length : Nat} {parsed : Metafile υ × MetafileFile} {after : Metafile υ}
    {tokens rest : List ReadToken} (fit : NumbersFit length parsed.1)
    (read : finishInfo services parsed tokens = .ok (after, rest)) : NumbersFit length after ∧ rest = tokens := by
  unfold finishInfo at read
  dsimp only at read
  split at read
  · cases read
    exact ⟨fit, rfl⟩
  · split at read
    · cases read
    next name _ =>
      cases added : addBittorrentFile services parsed.1 name parsed.2 with
      | error failure =>
          rw [added] at read
          cases read
      | ok after =>
          rw [added] at read
          cases read
          exact ⟨fit.same (addBittorrentFile_numbers added), rfl⟩

theorem parseBencodingInfoDictionary_fits {length : Nat} (short : ∀ token ∈ all, token.string.length ≤ length)
    {metainfo after : Metafile υ} {tokens rest : List ReadToken} (fit : NumbersFit length metainfo)
    (inside : tokens ⊆ all) (read : parseBencodingInfoDictionary services metainfo tokens = .ok (after, rest)) :
    NumbersFit length after ∧ rest ⊆ all := by
  refine parseBencodingEntries_keeps (fun parsed => NumbersFit length parsed.1)
    (fun result => NumbersFit length result.1 ∧ result.2 ⊆ all) ?_ ?_ fit
    (List.Subset.trans (List.drop_subset 1 tokens) inside) read
  · intro parsed key tokens next rest fit within answer
    exact parseInfoEntry_fits short fit within answer
  · intro parsed tokens result fit within answer
    obtain ⟨fits, rfl⟩ := finishInfo_fits fit answer
    exact ⟨fits, within⟩

theorem parseMetafileEntry_fits {length : Nat} (short : ∀ token ∈ all, token.string.length ≤ length)
    {text : List UInt8} {metainfo next : Metafile υ} {key : BencodingKey} {tokens rest : List ReadToken}
    (fit : NumbersFit length metainfo) (inside : tokens ⊆ all)
    (read : parseMetafileEntry services text metainfo key tokens = .ok (next, rest)) :
    NumbersFit length next ∧ rest ⊆ all := by
  unfold parseMetafileEntry at read
  have behind {value : ReadToken} {tokens : List ReadToken} (within : value :: tokens ⊆ all) : tokens ⊆ all :=
    List.Subset.trans (List.subset_cons_self value tokens) within
  split at read
  · split at read
    · cases read
      exact ⟨fit, behind inside⟩
    · cases read
      exact ⟨⟨fit.pieces, fit.pieceLength⟩, behind inside⟩
  · split at read
    · cases read
    · cases read
    next answer =>
      cases read
      obtain ⟨fits, within⟩ := parseBencodingInfoDictionary_fits short fit inside answer
      exact ⟨⟨fits.pieces, fits.pieceLength⟩, behind within⟩
  · cases read
    exact ⟨⟨fit.pieces, fit.pieceLength⟩, behind inside⟩
  · cases read
    exact ⟨⟨fit.pieces, fit.pieceLength⟩, behind inside⟩
  · cases read
    exact ⟨fit, behind inside⟩
  · cases read
    exact ⟨fit, List.Subset.trans (skipBencodingTokens_subset 0 _) inside⟩

theorem bencodingTokens_length (text : List UInt8) :
    ∀ token ∈ bencodingTokens text, token.string.length ≤ text.length := by
  intro token member
  obtain ⟨scanned, _, rfl⟩ := List.mem_map.mp member
  rw [readToken, List.length_take, List.length_drop]
  omega

theorem parseMetafileEntry_error {text : List UInt8} {metainfo : Metafile υ} {key : BencodingKey}
    {tokens : List ReadToken} {failure : MetafileFailure υ}
    (read : parseMetafileEntry services text metainfo key tokens = .error failure) : failure.1 = .error := by
  unfold parseMetafileEntry at read
  split at read
  · split at read <;> cases read
  · split at read
    · cases read
      rfl
    · cases read
      rfl
    · cases read
  all_goals cases read

theorem parseBittorrentMetafile_checked {text : List UInt8}
    (accepted : (parseBittorrentMetafile services text).1 = .ok) :
    ∃ parsed, NumbersFit text.length parsed ∧ parseBittorrentMetafile services text = checkBittorrentMetafile
    parsed := by
  have short := bencodingTokens_length text
  unfold parseBittorrentMetafile at accepted ⊢
  cases all : bencodingTokens text with
  | nil =>
      rw [all] at accepted
      cases accepted
  | cons token tokens =>
      rw [all] at accepted short
      dsimp only at accepted ⊢
      split at accepted
      · cases accepted
      next opened =>
        rw [if_neg opened]
        have start : NumbersFit text.length (initialMetafile υ) := ⟨Nat.zero_le _, Nat.two_pow_pos 31⟩
        cases read : parseBencodingEntries (parseMetafileEntry services text)
            (fun metainfo _ => .ok (checkBittorrentMetafile metainfo)) (fun metainfo => (.error, metainfo))
            tokens.length (initialMetafile υ) tokens with
        | error failure =>
            have failed : failure.1 = BittorrentState.error := by
              refine parseBencodingEntries_fails (fun failure => failure.1 = BittorrentState.error)
                (fun parsed key tokens failure answer => parseMetafileEntry_error answer) ?_ (fun _ => rfl) read
              intro parsed tokens failure answer
              cases answer
            rw [read] at accepted
            exact absurd (failed.symm.trans accepted) BittorrentState.noConfusion
        | ok checked =>
            refine parseBencodingEntries_keeps (NumbersFit text.length)
              (fun checked => ∃ parsed, NumbersFit text.length parsed ∧ checked = checkBittorrentMetafile parsed)
              ?_ ?_ start (List.subset_cons_self token tokens) read
            · intro parsed key tokens next rest fit within answer
              exact parseMetafileEntry_fits short fit within answer
            · intro parsed tokens result fit _ answer
              cases answer
              exact ⟨parsed, fit, rfl⟩

end Numbers

section Geometry
variable {υ : Type} {services : MetafileServices υ}

def fileBytes (files : List MetafileFile) : Int := (files.map (·.length)).sum

/-- The pieces are the bytes of the files, and none of them is empty. -/
structure ConsistentGeometry (metainfo : Metafile υ) : Prop where
  total : fileBytes metainfo.files = ((metainfo.pieces : Int) - 1) * metainfo.pieceLength + metainfo.lastPieceLength
  lastPositive : 0 < metainfo.lastPieceLength
  lastBound : metainfo.lastPieceLength ≤ metainfo.pieceLength
  inside : ∀ piece < metainfo.pieces, ∃ length, 0 < length ∧
    length = (if piece = metainfo.pieces - 1 then metainfo.lastPieceLength else metainfo.pieceLength) ∧
    (metainfo.pieceLength * piece + length : Int) ≤ fileBytes metainfo.files

/-- The number of hashes is the number of bytes divided by the piece length, rounded up. -/
def HashForEveryPiece (metainfo : Metafile υ) : Prop :=
  ((metainfo.pieces : Int) - 1) * metainfo.pieceLength < fileBytes metainfo.files ∧
    fileBytes metainfo.files ≤ metainfo.pieces * metainfo.pieceLength

theorem fileBytes_cons (file : MetafileFile) (files : List MetafileFile) :
    fileBytes (file :: files) = file.length + fileBytes files := List.sum_cons

theorem fileBytes_nonneg {start total : Int} {files : List MetafileFile} (sum : totalLength start files = some total) :
    0 ≤ fileBytes files := by
  induction files generalizing start with
  | nil => exact Int.le_refl 0
  | cons file files ih =>
      rw [totalLength] at sum
      split at sum
      · cases sum
      next valid =>
        have rest := ih sum
        rw [fileBytes_cons]
        omega

theorem totalLength_eq {start total : Int} {files : List MetafileFile} (sum : totalLength start files = some total)
    (positive : 0 ≤ start) (bound : start + fileBytes files < 2 ^ 63) : total = start + fileBytes files := by
  induction files generalizing start with
  | nil =>
      cases sum
      exact (Int.add_zero _).symm
  | cons file files ih =>
      rw [fileBytes_cons] at bound ⊢
      rw [totalLength] at sum
      split at sum
      · cases sum
      next valid =>
        have rest := fileBytes_nonneg sum
        have exact : wrapOff (start + file.length) = start + file.length := by
          rw [wrapOff]
          omega
        rw [exact] at sum
        rw [ih sum (by omega) (by omega)]
        omega

theorem lastPiece_of_bounds {pieces bytes pieceLength : Int}
    (lower : (pieces - 1) * pieceLength < bytes) (upper : bytes ≤ pieces * pieceLength) :
    (if bytes % pieceLength = 0 then pieceLength else bytes % pieceLength) = bytes - (pieces - 1) * pieceLength := by
  rw [Int.sub_mul, Int.one_mul] at lower ⊢
  obtain ⟨last, rfl⟩ : ∃ last, bytes = last + (pieces - 1) * pieceLength :=
    ⟨bytes - (pieces - 1) * pieceLength, by omega⟩
  rw [Int.sub_mul, Int.one_mul] at lower upper ⊢
  have remainder : (last + (pieces * pieceLength - pieceLength)) % pieceLength = last % pieceLength := by
    rw [show last + (pieces * pieceLength - pieceLength) = last + pieceLength * (pieces - 1) by
      rw [Int.mul_sub, Int.mul_one, Int.mul_comm pieceLength]]
    exact Int.add_mul_emod_self_left last pieceLength (pieces - 1)
  rw [remainder]
  by_cases full : last = pieceLength
  · rw [full, Int.emod_self, if_pos rfl]
    omega
  · rw [Int.emod_eq_of_lt (by omega) (by omega), if_neg (by omega)]
    omega

theorem ConsistentGeometry.of_total {metainfo : Metafile υ} (someLength : 0 < metainfo.pieceLength)
    (total : fileBytes metainfo.files = ((metainfo.pieces : Int) - 1) * metainfo.pieceLength + metainfo.lastPieceLength)
    (lastPositive : 0 < metainfo.lastPieceLength) (lastBound : metainfo.lastPieceLength ≤ metainfo.pieceLength) :
    ConsistentGeometry metainfo where
  total := total
  lastPositive := lastPositive
  lastBound := lastBound
  inside := by
    intro piece below
    refine ⟨_, ?_, rfl, ?_⟩
    · split
      · exact lastPositive
      · exact someLength
    · rw [total]
      split
      next last =>
        have before : (piece : Int) = (metainfo.pieces : Int) - 1 := by omega
        exact Int.le_of_eq (by rw [before, Int.mul_comm])
      next before =>
        have next : ((piece + 1 : Nat) : Int) ≤ (metainfo.pieces : Int) - 1 := by omega
        have scaled := Int.mul_le_mul_of_nonneg_right next (Int.natCast_nonneg metainfo.pieceLength)
        rw [Int.natCast_succ, Int.add_mul, Int.one_mul, Int.mul_comm (piece : Int)] at scaled
        omega

/-- The check says nothing about the number of pieces, and what it stores for the last one fits
exactly when there is a hash for every piece. -/
theorem checkBittorrentMetafile_geometry_iff {metainfo : Metafile υ} {length : Nat} (small : length < 2 ^ 31)
    (fit : NumbersFit length metainfo) (accepted : (checkBittorrentMetafile metainfo).1 = .ok) :
    ConsistentGeometry (checkBittorrentMetafile metainfo).2 ↔ HashForEveryPiece metainfo := by
  obtain ⟨pieces, pieceLength⟩ := fit
  unfold checkBittorrentMetafile at accepted ⊢
  split at accepted
  · cases accepted
  next complete =>
    rw [if_neg complete]
    simp only [not_or] at complete
    obtain ⟨_, somePiece, _, _, someLength, _, _⟩ := complete
    cases sum : totalLength 0 metainfo.files with
    | none =>
        rw [sum] at accepted
        cases accepted
    | some total =>
        rw [sum] at accepted
        dsimp only at accepted ⊢
        generalize remainder : (if total.tmod metainfo.pieceLength = 0 then (metainfo.pieceLength : Int)
          else total.tmod metainfo.pieceLength) = last at accepted ⊢
        generalize (last % 2 ^ 32).toNat = stored at accepted ⊢
        split at accepted
        · cases accepted
        next same =>
          have same : (stored : Int) = last := not_not.mp same
          have positive : 0 < metainfo.pieceLength := Nat.pos_of_ne_zero someLength
          constructor
          · intro consistent
            have total := consistent.total
            have bound := consistent.lastBound
            have least := consistent.lastPositive
            dsimp only at total bound least
            rw [HashForEveryPiece, total, Int.sub_mul, Int.one_mul]
            constructor <;> omega
          · rintro ⟨lower, upper⟩
            have scaled := Nat.mul_le_mul (Nat.le_trans pieces (Nat.le_of_lt small)) (Nat.le_of_lt pieceLength)
            have scaled : ((metainfo.pieces * metainfo.pieceLength : Nat) : Int) ≤ 2 ^ 31 * 2 ^ 31 := by
              exact_mod_cast scaled
            rw [Int.natCast_mul] at scaled
            have bytes : total = fileBytes metainfo.files := by
              rw [totalLength_eq sum (Int.le_refl 0) (by omega), Int.zero_add]
            rw [bytes, Int.tmod_eq_emod_of_nonneg (fileBytes_nonneg sum),
              lastPiece_of_bounds lower upper] at remainder
            rw [Int.sub_mul, Int.one_mul] at remainder lower
            refine .of_total positive ?_ ?_ ?_
            · dsimp only
              rw [Int.sub_mul, Int.one_mul]
              omega
            · dsimp only
              omega
            · dsimp only
              omega

end Geometry

/-- The info dictionary of a torrent with one file of one byte, in pieces of one byte. -/
def oneByteInfo (hashes : Nat) : BencodedValue := .dictionary
  [(ascii ['l', 'e', 'n', 'g', 't', 'h'], .integer 1),
    (ascii ['n', 'a', 'm', 'e'], .string (ascii ['n'])),
    (ascii ['p', 'i', 'e', 'c', 'e', ' ', 'l', 'e', 'n', 'g', 't', 'h'], .integer 1),
    (ascii ['p', 'i', 'e', 'c', 'e', 's'], .string (List.replicate (20 * hashes) 65))]

def oneByteEntries (hashes : Nat) : BencodedEntries :=
  [(ascii ['a', 'n', 'n', 'o', 'u', 'n', 'c', 'e'], .string (ascii ['h', 't', 't', 'p', ':', '/', '/', 'a', '/'])),
    (ascii ['i', 'n', 'f', 'o'], oneByteInfo hashes)]

def oneByteMetafile (hashes : Nat) : List UInt8 := encodeValue (.dictionary (oneByteEntries hashes))

def oneByteServices (sha1 : List UInt8 → List UInt8) : MetafileServices (List UInt8) where
  getUserProgram _ := false
  getUri string := if string = ascii ['h', 't', 't', 'p', ':', '/', '/', 'a', '/'] then some string else none
  sha1 := sha1

end KcnTools.Bittorrent
