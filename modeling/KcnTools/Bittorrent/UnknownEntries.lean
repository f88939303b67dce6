import KcnTools.Bittorrent.InfoHash
import Mathlib

/-! What an entry that its parser does not act on changes of a metafile: nothing but the info hash. -/

namespace KcnTools.Bittorrent

open Protocols (cString)

structure DictionaryPlace where
  front : BencodedEntries
  name : List UInt8
  back : BencodedEntries

def DictionaryPlace.entries (place : DictionaryPlace) (dictionary : BencodedEntries) : BencodedEntries :=
  place.front ++ (place.name, .dictionary dictionary) :: place.back

inductive InfoPlace
  | info (front back : BencodedEntries)
  | file (before : BencodedEntries) (files : List UInt8) (first : List BencodedValue) (front back : BencodedEntries)
      (later : List BencodedValue) (behind : BencodedEntries)

def InfoPlace.entries (added : BencodedEntries) : InfoPlace → BencodedEntries
  | .info front back => front ++ added ++ back
  | .file before files first front back later behind =>
      before ++ (files, .list (first ++ .dictionary (front ++ added ++ back) :: later)) :: behind

/-- The places of a metafile where an entry can be inserted -/
inductive EntryPlace
  | metafile (front back : BencodedEntries)
  | below (place : DictionaryPlace) (inside : InfoPlace)

def EntryPlace.entries (added : BencodedEntries) : EntryPlace → BencodedEntries
  | .metafile front back => front ++ added ++ back
  | .below place inside => place.entries (inside.entries added)

structure SameMetafile {υ : Type} (first second : BittorrentState × Metafile υ) : Prop where
  state : second.1 = first.1
  name : second.2.name = first.2.name
  pieces : second.2.pieces = first.2.pieces
  pieceLength : second.2.pieceLength = first.2.pieceLength
  files : second.2.files = first.2.files
  trackerUris : second.2.trackerUris = first.2.trackerUris
  comment : second.2.comment = first.2.comment

section Acted
variable {υ : Type} (services : MetafileServices υ)

def actsInFile (key : List UInt8) (value : BencodedValue) : Bool :=
  bencodingKey key value.type ∈ [.path, .length, .md5sum]

def actsInInfo (key : List UInt8) (value : BencodedValue) : Bool :=
  bencodingKey key value.type ∈ [.name, .pieces, .pieceLength, .files, .length, .md5sum]

def actsInMetafile (key : List UInt8) (value : BencodedValue) : Bool :=
  match bencodingKey key value.type, value with
  | .announce, .string bytes => (services.getUri (cString bytes)).isSome
  | .info, _ | .comment, _ => true
  | _, _ => false

/-- The parser of the info dictionary gets as far as the entry, and acts on it. -/
def InfoPlace.ActedOn (metainfo : Metafile υ) (entry : List UInt8 × BencodedValue) : InfoPlace → Prop
  | .info front _ =>
      (∃ parsed, front.foldlM (fun parsed entry => readInfoEntry services parsed entry.1 entry.2)
        (metainfo, emptyMetafileFile) = .ok parsed) ∧ actsInInfo entry.1 entry.2 = true
  | .file before files first front _ _ _ =>
      ∃ parsed, before.foldlM (fun parsed entry => readInfoEntry services parsed entry.1 entry.2)
          (metainfo, emptyMetafileFile) = .ok parsed ∧
        bencodingKey files .list = .files ∧
        ∃ metainfo, readFiles services { parsed.1 with type := .multiFile } first = .ok metainfo ∧
          (∃ parsed, front.foldlM (fun parsed entry => readFileEntry metainfo parsed entry.1 entry.2)
            (emptyMetafileFile, []) = .ok parsed) ∧ actsInFile entry.1 entry.2 = true

def EntryPlace.ActedOn (entry : List UInt8 × BencodedValue) : EntryPlace → Prop
  | .metafile front _ =>
      (∃ metainfo, readMetafileEntries services (initialMetafile υ) front = .ok metainfo) ∧
        actsInMetafile services entry.1 entry.2 = true
  | .below place inside =>
      ∃ metainfo, readMetafileEntries services (initialMetafile υ) place.front = .ok metainfo ∧
        bencodingKey place.name .dictionary = .info ∧ inside.ActedOn services metainfo entry

/-- The last dictionary that is taken for the info dictionary stands here. -/
def DictionaryPlace.Hashed (place : DictionaryPlace) : Prop :=
  scannerTokenStrlcasecmp place.name infoKey = true ∧
    lastDictionary (scannerTokenStrlcasecmp · infoKey) none place.back = none

def parsedEntries (entries : BencodedEntries) : BittorrentState × Metafile υ :=
  parseBittorrentMetafile services (encodeValue (.dictionary entries))

/-- Where all depends on the digest of the info dictionary, it is empty with the entry as it is without it. -/
def EntryPlace.HashKept (entry : List UInt8 × BencodedValue) : EntryPlace → Prop
  | .metafile _ _ => True
  | .below place inside =>
      place.Hashed →
        (∃ sha1, (parsedEntries { services with sha1 := sha1 } (place.entries (inside.entries []))).1 = .ok) →
          bittorrentIdIsEmpty (services.sha1 (encodeDictionary (inside.entries [entry]))) =
            bittorrentIdIsEmpty (services.sha1 (encodeDictionary (inside.entries [])))

end Acted

section Renaming
variable {ε ε' σ σ' α : Type} (failed : ε → ε') (passed : σ → σ')

def mapResult : Except ε σ → Except ε' σ'
  | .error failure => .error (failed failure)
  | .ok state => .ok (passed state)

theorem foldlM_mapResult {step : σ → α → Except ε σ} {other : σ' → α → Except ε' σ'}
    (same : ∀ state a, other (passed state) a = mapResult failed passed (step state a)) (list : List α) (state : σ) :
    list.foldlM other (passed state) = mapResult failed passed (list.foldlM step state) := by
  induction list generalizing state with
  | nil => rfl
  | cons a list ih =>
      rw [List.foldlM_cons, List.foldlM_cons, same]
      cases step state a with
      | error failure => rfl
      | ok next => exact ih next

theorem bind_mapResult {ω ω' : Type} {finished : ω → ω'} {finish : σ → Except ε ω} {other : σ' → Except ε' ω'}
    (same : ∀ state, other (passed state) = mapResult failed finished (finish state)) (result : Except ε σ) :
    (mapResult failed passed result).bind other = mapResult failed finished (result.bind finish) := by
  cases result with
  | error failure => rfl
  | ok state => exact same state

end Renaming

section Hashes

/-- What of a metafile is not compared -/
structure Unseen where
  infoHash : List UInt8
  digested : Option (List UInt8)
  creationDate : Int

def Metafile.unseen {υ : Type} (metainfo : Metafile υ) : Unseen :=
  ⟨metainfo.infoHash, metainfo.digested, metainfo.creationDate⟩

variable {υ : Type} (services : MetafileServices υ) (unseen : Unseen)

def withUnseen (metainfo : Metafile υ) : Metafile υ :=
  { metainfo with infoHash := unseen.infoHash, digested := unseen.digested, creationDate := unseen.creationDate }

def failureWithUnseen (failure : MetafileFailure υ) : MetafileFailure υ := (failure.1, withUnseen unseen failure.2)

theorem addBittorrentFile_withUnseen (metainfo : Metafile υ) (path : List UInt8) (template : MetafileFile) :
    addBittorrentFile services (withUnseen unseen metainfo) path template =
      mapResult (failureWithUnseen unseen) (withUnseen unseen)
        (addBittorrentFile services metainfo path template) := by
  rw [addBittorrentFile, addBittorrentFile]
  cases normalizeBencodingPath services.getUserProgram (Protocols.cString path) <;> rfl

theorem readFileEntry_withUnseen (metainfo : Metafile υ) (parsed : MetafileFile × List UInt8) (key : List UInt8)
    (value : BencodedValue) :
    readFileEntry (withUnseen unseen metainfo) parsed key value =
      mapResult (failureWithUnseen unseen) id (readFileEntry metainfo parsed key value) := by
  rw [readFileEntry.eq_def, readFileEntry.eq_def]
  dsimp only
  split
  · split <;> rfl
  · rfl
  · split <;> rfl
  · rfl

theorem readFile_withUnseen (metainfo : Metafile υ) (entries : BencodedEntries) :
    readFile services (withUnseen unseen metainfo) entries =
      mapResult (failureWithUnseen unseen) (withUnseen unseen) (readFile services metainfo entries) := by
  have fold : entries.foldlM (fun parsed entry =>
      readFileEntry (withUnseen unseen metainfo) parsed entry.1 entry.2) (emptyMetafileFile, []) =
      mapResult (failureWithUnseen unseen) id
        (entries.foldlM (fun parsed entry => readFileEntry metainfo parsed entry.1 entry.2) (emptyMetafileFile, [])) :=
    foldlM_mapResult _ id (fun parsed entry =>
      readFileEntry_withUnseen unseen metainfo parsed entry.1 entry.2) entries _
  rw [readFile, readFile, fold]
  exact bind_mapResult _ id
    (fun parsed => addBittorrentFile_withUnseen services unseen metainfo parsed.2 parsed.1) _

theorem readFilesItem_withUnseen (metainfo : Metafile υ) (item : BencodedValue) :
    readFilesItem services (withUnseen unseen metainfo) item =
      mapResult (failureWithUnseen unseen) (withUnseen unseen) (readFilesItem services metainfo item) := by
  cases item with
  | dictionary entries => exact readFile_withUnseen services unseen metainfo entries
  | _ => rfl

theorem readFiles_withUnseen (metainfo : Metafile υ) (items : List BencodedValue) :
    readFiles services (withUnseen unseen metainfo) items =
      mapResult (failureWithUnseen unseen) (withUnseen unseen) (readFiles services metainfo items) :=
  foldlM_mapResult _ _ (readFilesItem_withUnseen services unseen) items metainfo

def parsedWithUnseen (parsed : Metafile υ × MetafileFile) : Metafile υ × MetafileFile :=
  (withUnseen unseen parsed.1, parsed.2)

theorem readInfoEntry_withUnseen (parsed : Metafile υ × MetafileFile) (key : List UInt8) (value : BencodedValue) :
    readInfoEntry services (parsedWithUnseen unseen parsed) key value =
      mapResult (failureWithUnseen unseen) (parsedWithUnseen unseen)
        (readInfoEntry services parsed key value) := by
  obtain ⟨metainfo, file⟩ := parsed
  rw [readInfoEntry.eq_def, readInfoEntry.eq_def]
  dsimp only [parsedWithUnseen]
  split
  next bytes _ =>
    cases normalizeBencodingPath services.getUserProgram bytes <;> rfl
  · split <;> rfl
  · split <;> rfl
  next items _ =>
    have read := readFiles_withUnseen services unseen { metainfo with type := .multiFile } items
    rw [show { withUnseen unseen metainfo with type := .multiFile } =
      withUnseen unseen { metainfo with type := .multiFile } from rfl, read]
    cases readFiles services { metainfo with type := .multiFile } items <;> rfl
  · rfl
  · split <;> rfl
  · rfl

theorem finishInfo_withUnseen (parsed : Metafile υ × MetafileFile) :
    (finishInfo services (parsedWithUnseen unseen parsed) []).map (·.1) =
      mapResult (failureWithUnseen unseen) (withUnseen unseen)
        ((finishInfo services parsed []).map (·.1)) := by
  obtain ⟨metainfo, file⟩ := parsed
  rw [finishInfo, finishInfo]
  dsimp only [parsedWithUnseen]
  show (if metainfo.type = .multiFile then _ else _ : Except _ _).map _ = _
  split
  · rfl
  · have named : (withUnseen unseen metainfo).name = metainfo.name := rfl
    rw [named]
    cases metainfo.name with
    | none => rfl
    | some name =>
        dsimp only
        rw [addBittorrentFile_withUnseen]
        cases addBittorrentFile services metainfo name file <;> rfl

theorem readInfo_withUnseen (metainfo : Metafile υ) (entries : BencodedEntries) :
    readInfo services (withUnseen unseen metainfo) entries =
      mapResult (failureWithUnseen unseen) (withUnseen unseen) (readInfo services metainfo entries) := by
  have fold : entries.foldlM (fun parsed entry => readInfoEntry services parsed entry.1 entry.2)
      (withUnseen unseen metainfo, emptyMetafileFile) =
      mapResult (failureWithUnseen unseen) (parsedWithUnseen unseen)
        (entries.foldlM (fun parsed entry => readInfoEntry services parsed entry.1 entry.2)
          (metainfo, emptyMetafileFile)) :=
    foldlM_mapResult _ (parsedWithUnseen unseen) (fun parsed entry =>
      readInfoEntry_withUnseen services unseen parsed entry.1 entry.2) entries (metainfo, emptyMetafileFile)
  rw [readInfo, readInfo, fold]
  exact bind_mapResult _ (parsedWithUnseen unseen) (finishInfo_withUnseen services unseen) _

end Hashes

section Skipped
variable {υ : Type} {services : MetafileServices υ} {key : List UInt8} {value : BencodedValue}

theorem foldlM_idle {ε σ α : Type} {step : σ → α → Except ε σ} {a : α} {front : List α} {state : σ}
    (idle : ∀ reached, front.foldlM step state = .ok reached → step reached a = .ok reached) (back : List α) :
    (front ++ [a] ++ back).foldlM step state = (front ++ [] ++ back).foldlM step state := by
  rw [List.append_assoc, List.append_nil, List.foldlM_append, List.foldlM_append]
  cases reach : front.foldlM step state with
  | error failure => rfl
  | ok reached =>
      show (a :: back).foldlM step reached = back.foldlM step reached
      rw [List.foldlM_cons, idle reached reach]
      rfl

theorem foldlM_replace {ε σ α : Type} {step : σ → α → Except ε σ} {a b : α} {front : List α} {state : σ}
    (same : ∀ reached, front.foldlM step state = .ok reached → step reached b = step reached a) (back : List α) :
    (front ++ b :: back).foldlM step state = (front ++ a :: back).foldlM step state := by
  rw [List.foldlM_append, List.foldlM_append]
  cases reach : front.foldlM step state with
  | error failure => rfl
  | ok reached =>
      show (b :: back).foldlM step reached = (a :: back).foldlM step reached
      rw [List.foldlM_cons, List.foldlM_cons, same reached reach]

theorem readFileEntry_idle (idle : actsInFile key value = false) (metainfo : Metafile υ)
    (parsed : MetafileFile × List UInt8) : readFileEntry metainfo parsed key value = .ok parsed := by
  cases found : bencodingKey key value.type <;> simp_all [actsInFile, readFileEntry]

theorem readInfoEntry_idle (idle : actsInInfo key value = false) (parsed : Metafile υ × MetafileFile) :
    readInfoEntry services parsed key value = .ok parsed := by
  cases found : bencodingKey key value.type <;> simp_all [actsInInfo, readInfoEntry]

theorem readMetafileEntry_idle (idle : actsInMetafile services key value = false) (metainfo : Metafile υ) :
    ∃ date, readMetafileEntry services metainfo key value = .ok { metainfo with creationDate := date } := by
  cases found : bencodingKey key value.type with
  | announce =>
      obtain ⟨bytes, rfl⟩ := BencodedValue.string_of_type (bencodingKey_type found BencodingKey.noConfusion (by decide))
      simp only [actsInMetafile, found, Option.isSome_eq_false_iff, Option.isNone_iff_eq_none] at idle
      simp only [readMetafileEntry, found, idle]
      exact ⟨metainfo.creationDate, rfl⟩
  | info | comment => simp [actsInMetafile, found] at idle
  | creationDate =>
      obtain ⟨date, rfl⟩ := BencodedValue.integer_of_type (bencodingKey_type found BencodingKey.noConfusion (by decide))
      simp only [readMetafileEntry, found]
      exact ⟨_, rfl⟩
  | _ =>
      simp only [readMetafileEntry, found]
      exact ⟨metainfo.creationDate, rfl⟩

theorem readInfoEntry_list (parsed : Metafile υ × MetafileFile) (name : List UInt8) (items : List BencodedValue) :
    readInfoEntry services parsed name (.list items) =
      if bencodingKey name .list = .files then
        (readFiles services { parsed.1 with type := .multiFile } items).map fun metainfo => (metainfo, parsed.2)
      else .ok parsed := by
  obtain ⟨metainfo, file⟩ := parsed
  cases found : bencodingKey name .list <;> simp [readInfoEntry, BencodedValue.type, found]

/-- An info dictionary whose parser does not act on the entry is read as if it had no such entry. -/
theorem readInfo_unacted {inside : InfoPlace} {metainfo : Metafile υ}
    (unacted : ¬ inside.ActedOn services metainfo (key, value)) :
    readInfo services metainfo (inside.entries [(key, value)]) = readInfo services metainfo (inside.entries []) := by
  rw [readInfo, readInfo]
  refine congrArg (Except.bind · _) ?_
  cases inside with
  | info front back =>
      refine foldlM_idle (fun parsed reach => ?_) back
      have idle : actsInInfo key value = false := eq_false_of_ne_true fun acts => unacted ⟨⟨parsed, reach⟩, acts⟩
      exact readInfoEntry_idle idle parsed
  | file before files first front back later behind =>
      refine foldlM_replace (fun parsed reach => ?_) behind
      dsimp only
      rw [readInfoEntry_list, readInfoEntry_list]
      split
      next named =>
        refine congrArg (Except.map _) (foldlM_replace (fun metainfo listed => ?_) later)
        show readFile services metainfo _ = readFile services metainfo _
        rw [readFile, readFile]
        refine congrArg (Except.bind · _) (foldlM_idle (fun file opened => ?_) back)
        have idle : actsInFile key value = false := eq_false_of_ne_true fun acts =>
          unacted ⟨parsed, reach, named, metainfo, listed, ⟨file, opened⟩, acts⟩
        exact readFileEntry_idle idle metainfo file
      next => rfl

theorem readMetafileEntry_dictionary (metainfo : Metafile υ) (name : List UInt8) (info : BencodedEntries) :
    readMetafileEntry services metainfo name (.dictionary info) =
      if bencodingKey name .dictionary = .info then
        match readInfo services metainfo info with
        | .error (_, metainfo) => .error (.error, metainfo)
        | .ok metainfo => .ok { metainfo with
            infoHash := services.sha1 (encodeDictionary info), digested := some (encodeDictionary info) }
      else .ok metainfo := by
  cases found : bencodingKey name .dictionary with
  | info =>
      simp only [readMetafileEntry, BencodedValue.type, found]
      rfl
  | _ => simp [readMetafileEntry, BencodedValue.type, found]

end Skipped

section Agree
variable {υ : Type} {services : MetafileServices υ}

def Agree (first second : Metafile υ) : Prop := second = withUnseen second.unseen first

inductive ResultsAgree : Except (MetafileFailure υ) (Metafile υ) → Except (MetafileFailure υ) (Metafile υ) → Prop
  | ok {first second : Metafile υ} (agree : Agree first second) : ResultsAgree (.ok first) (.ok second)
  | error {first second : Metafile υ} (state : BittorrentState) (agree : Agree first second) :
      ResultsAgree (.error (state, first)) (.error (state, second))

theorem Agree.refl (metainfo : Metafile υ) : Agree metainfo metainfo := rfl

theorem ResultsAgree.refl (result : Except (MetafileFailure υ) (Metafile υ)) : ResultsAgree result result := by
  cases result with
  | error failure => exact .error failure.1 (.refl _)
  | ok metainfo => exact .ok (.refl metainfo)

/-- An entry is read alike whatever the digest is. -/
theorem readMetafileEntry_agree {first second : Metafile υ} (agree : Agree first second)
    (sha1 : List UInt8 → List UInt8) (key : List UInt8) (value : BencodedValue) :
    ResultsAgree (readMetafileEntry services first key value)
      (readMetafileEntry { services with sha1 := sha1 } second key value) := by
  unfold Agree at agree
  generalize second.unseen = unseen at agree
  subst agree
  cases found : bencodingKey key value.type with
  | announce =>
      obtain ⟨bytes, rfl⟩ := BencodedValue.string_of_type (bencodingKey_type found BencodingKey.noConfusion (by decide))
      simp only [readMetafileEntry, found]
      cases services.getUri (cString bytes) with
      | none => exact .ok rfl
      | some uri => exact .ok rfl
  | info =>
      obtain ⟨info, rfl⟩ :=
        BencodedValue.dictionary_of_type (bencodingKey_type found BencodingKey.noConfusion (by decide))
      have found : bencodingKey key .dictionary = .info := found
      have read : readInfo { services with sha1 := sha1 } (withUnseen unseen first) info =
          readInfo services (withUnseen unseen first) info := rfl
      rw [readMetafileEntry_dictionary, readMetafileEntry_dictionary, if_pos found, if_pos found, read,
        readInfo_withUnseen]
      cases readInfo services first info with
      | error failure => exact .error .error rfl
      | ok metainfo => exact .ok rfl
  | comment =>
      obtain ⟨bytes, rfl⟩ := BencodedValue.string_of_type (bencodingKey_type found BencodingKey.noConfusion (by decide))
      simp only [readMetafileEntry, found]
      exact .ok rfl
  | creationDate =>
      obtain ⟨date, rfl⟩ := BencodedValue.integer_of_type (bencodingKey_type found BencodingKey.noConfusion (by decide))
      simp only [readMetafileEntry, found]
      exact .ok rfl
  | _ =>
      simp only [readMetafileEntry, found]
      exact .ok rfl

theorem readMetafileEntries_agree {first second : Metafile υ} (agree : Agree first second)
    (sha1 : List UInt8 → List UInt8) (entries : BencodedEntries) :
    ResultsAgree (readMetafileEntries services first entries)
      (readMetafileEntries { services with sha1 := sha1 } second entries) := by
  induction entries generalizing first second with
  | nil => exact .ok agree
  | cons entry entries ih =>
      obtain ⟨key, value⟩ := entry
      have step := @readMetafileEntry_agree _ services _ _ agree sha1 key value
      rw [readMetafileEntries, readMetafileEntries, List.foldlM_cons, List.foldlM_cons]
      dsimp only
      generalize readMetafileEntry services first key value = one at step
      generalize readMetafileEntry { services with sha1 := sha1 } second key value = two at step
      cases step with
      | ok agree => exact ih agree
      | error state agree => exact .error state agree

theorem readMetafileEntries_metafile {entry : List UInt8 × BencodedValue} {front back : BencodedEntries}
    (unacted : ¬ (EntryPlace.metafile front back).ActedOn services entry) :
    ResultsAgree (readMetafileEntries services (initialMetafile υ) (front ++ [] ++ back))
      (readMetafileEntries services (initialMetafile υ) (front ++ [entry] ++ back)) := by
  rw [List.append_nil, List.append_assoc, readMetafileEntries, readMetafileEntries, List.foldlM_append,
    List.foldlM_append]
  cases reach : front.foldlM (fun metainfo entry => readMetafileEntry services metainfo entry.1 entry.2)
      (initialMetafile υ) with
  | error failure => exact .refl _
  | ok metainfo =>
      have idle : actsInMetafile services entry.1 entry.2 = false :=
        eq_false_of_ne_true fun acts => unacted ⟨⟨metainfo, reach⟩, acts⟩
      obtain ⟨date, read⟩ := readMetafileEntry_idle idle metainfo
      show ResultsAgree (readMetafileEntries services metainfo back)
        (readMetafileEntries services metainfo (entry :: back))
      rw [readMetafileEntries, readMetafileEntries, List.foldlM_cons, read]
      have agree : Agree metainfo { metainfo with creationDate := date } := rfl
      exact readMetafileEntries_agree agree services.sha1 back

theorem lastDictionary_or (named : List UInt8 → Bool) (last : Option BencodedEntries) (entries : BencodedEntries) :
    lastDictionary named last entries = (lastDictionary named none entries).or last := by
  induction entries generalizing last with
  | nil => rfl
  | cons entry entries ih =>
      have step (last : Option BencodedEntries) : lastDictionary named last (entry :: entries) =
          lastDictionary named (lastDictionary named last [entry]) entries := rfl
      have first : lastDictionary named last [entry] = (lastDictionary named none [entry]).or last := by
        obtain ⟨key, value⟩ := entry
        cases value with
        | dictionary inner =>
            show (if named key then _ else _) = Option.or (if named key then _ else _) last
            split <;> rfl
        | _ => rfl
      rw [step, step none, ih, ih (lastDictionary named none [entry]), first, Option.or_assoc]

/-- A changed dictionary below the top level, whose parser does not act on the change. -/
theorem readMetafileEntries_below {entry : List UInt8 × BencodedValue} {place : DictionaryPlace} {inside : InfoPlace}
    (unacted : ¬ (EntryPlace.below place inside).ActedOn services entry) :
    ResultsAgree (readMetafileEntries services (initialMetafile υ) (place.entries (inside.entries [])))
      (readMetafileEntries services (initialMetafile υ) (place.entries (inside.entries [entry]))) := by
  rw [DictionaryPlace.entries, DictionaryPlace.entries, readMetafileEntries, readMetafileEntries, List.foldlM_append,
    List.foldlM_append]
  cases reach : place.front.foldlM (fun metainfo entry => readMetafileEntry services metainfo entry.1 entry.2)
      (initialMetafile υ) with
  | error failure => exact .refl _
  | ok metainfo =>
      show ResultsAgree
        (readMetafileEntries services metainfo ((place.name, .dictionary (inside.entries [])) :: place.back))
        (readMetafileEntries services metainfo ((place.name, .dictionary (inside.entries [entry])) :: place.back))
      rw [readMetafileEntries, readMetafileEntries, List.foldlM_cons, List.foldlM_cons, readMetafileEntry_dictionary,
        readMetafileEntry_dictionary]
      split
      next named =>
        rw [readInfo_unacted fun acts => unacted ⟨metainfo, reach, named, acts⟩]
        cases readInfo services metainfo (inside.entries []) with
        | error failure => exact .refl _
        | ok metainfo =>
            have agree : Agree { metainfo with
                infoHash := services.sha1 (encodeDictionary (inside.entries []))
                digested := some (encodeDictionary (inside.entries [])) } { metainfo with
                infoHash := services.sha1 (encodeDictionary (inside.entries [entry]))
                digested := some (encodeDictionary (inside.entries [entry])) } := rfl
            exact readMetafileEntries_agree agree services.sha1 place.back
      next => exact .refl _

theorem DictionaryPlace.last (place : DictionaryPlace) (dictionary : BencodedEntries) :
    lastDictionary (scannerTokenStrlcasecmp · infoKey) none (place.entries dictionary) =
      (lastDictionary (scannerTokenStrlcasecmp · infoKey) none place.back).or
        (if scannerTokenStrlcasecmp place.name infoKey = true then some dictionary
          else lastDictionary (scannerTokenStrlcasecmp · infoKey) none place.front) := by
  rw [← lastDictionary_or]
  exact List.foldl_append

/-- The info hash of a metafile is that of the dictionary here, or that of another one. -/
theorem infoHash_of_hashed {place : DictionaryPlace} (hashed : place.Hashed) {dictionary : BencodedEntries}
    {metainfo : Metafile υ}
    (read : readMetafileEntries services (initialMetafile υ) (place.entries dictionary) = .ok metainfo) :
    metainfo.infoHash = services.sha1 (encodeDictionary dictionary) := by
  have digests := readMetafileEntries_digested digested_initialMetafile read
  rw [place.last, hashed.2, if_pos hashed.1] at digests
  rw [digests.infoHash, digests.digested]
  rfl

theorem infoHash_of_unhashed {place : DictionaryPlace} (other : ¬ place.Hashed) {dictionary larger : BencodedEntries}
    {first second : Metafile υ}
    (one : readMetafileEntries services (initialMetafile υ) (place.entries dictionary) = .ok first)
    (two : readMetafileEntries services (initialMetafile υ) (place.entries larger) = .ok second) :
    second.infoHash = first.infoHash := by
  have before := readMetafileEntries_digested digested_initialMetafile one
  have after := readMetafileEntries_digested digested_initialMetafile two
  have same : lastDictionary (scannerTokenStrlcasecmp · infoKey) none (place.entries larger) =
      lastDictionary (scannerTokenStrlcasecmp · infoKey) none (place.entries dictionary) := by
    rw [place.last, place.last]
    cases later : lastDictionary (scannerTokenStrlcasecmp · infoKey) none place.back with
    | none => rw [if_neg fun named => other ⟨named, later⟩, if_neg fun named => other ⟨named, later⟩]
    | some inner => rfl
  rw [same] at after
  rw [after.infoHash, after.digested, before.infoHash, before.digested]

theorem checkBittorrentMetafile_empty {metainfo : Metafile υ} (empty : bittorrentIdIsEmpty metainfo.infoHash = true) :
    (checkBittorrentMetafile metainfo).1 = .error := by
  rw [checkBittorrentMetafile, if_pos (.inl empty)]

theorem checkBittorrentMetafile_cases (metainfo : Metafile υ) :
    (checkBittorrentMetafile metainfo).1 = .ok ∨ (checkBittorrentMetafile metainfo).1 = .error := by
  rw [checkBittorrentMetafile]
  split
  · exact .inr rfl
  · split
    · exact .inr rfl
    · exact (ite_eq_or_eq _ _ _).symm

theorem checkBittorrentMetafile_state {first second : Metafile υ} (agree : Agree first second)
    (empty : bittorrentIdIsEmpty second.infoHash = bittorrentIdIsEmpty first.infoHash) :
    (checkBittorrentMetafile second).1 = (checkBittorrentMetafile first).1 := by
  unfold Agree at agree
  generalize second.unseen = unseen at agree
  subst agree
  have empty : bittorrentIdIsEmpty unseen.infoHash = bittorrentIdIsEmpty first.infoHash := empty
  simp only [checkBittorrentMetafile, withUnseen, empty]
  split
  · rfl
  · cases totalLength 0 first.files <;> rfl

theorem checkBittorrentMetafile_fields (metainfo : Metafile υ) :
    ∃ stored, (checkBittorrentMetafile metainfo).2 = { metainfo with lastPieceLength := stored } := by
  rw [checkBittorrentMetafile]
  split
  · exact ⟨metainfo.lastPieceLength, rfl⟩
  · split
    · exact ⟨metainfo.lastPieceLength, rfl⟩
    · exact ⟨_, rfl⟩

theorem checkBittorrentMetafile_same {first second : Metafile υ} (agree : Agree first second) :
    SameMetafile (checkBittorrentMetafile first) (checkBittorrentMetafile second) ↔
      (checkBittorrentMetafile second).1 = (checkBittorrentMetafile first).1 := by
  refine ⟨SameMetafile.state, fun state => ?_⟩
  obtain ⟨stored, before⟩ := checkBittorrentMetafile_fields first
  obtain ⟨other, after⟩ := checkBittorrentMetafile_fields second
  rw [agree] at after
  constructor
  · exact state
  all_goals rw [agree, after, before]; rfl

/-- The metafile would be accepted with some digest. -/
def Acceptable (metainfo : Metafile υ) : Prop := ∃ infoHash, (checkBittorrentMetafile { metainfo with infoHash }).1 = .ok

theorem Agree.acceptable {first second : Metafile υ} (agree : Agree first second) :
    Acceptable second ↔ Acceptable first := by
  refine exists_congr fun infoHash => ?_
  have hashed : Agree { first with infoHash } { second with infoHash } := by
    rw [agree]
    rfl
  rw [checkBittorrentMetafile_state hashed rfl]

theorem checkBittorrentMetafile_ok_iff (metainfo : Metafile υ) :
    (checkBittorrentMetafile metainfo).1 = .ok ↔
      bittorrentIdIsEmpty metainfo.infoHash = false ∧ Acceptable metainfo := by
  have filled {metainfo : Metafile υ} (accepted : (checkBittorrentMetafile metainfo).1 = .ok) :
      bittorrentIdIsEmpty metainfo.infoHash = false := by
    refine eq_false_of_ne_true fun empty => ?_
    rw [checkBittorrentMetafile_empty empty] at accepted
    cases accepted
  refine ⟨fun accepted => ⟨filled accepted, metainfo.infoHash, accepted⟩, ?_⟩
  rintro ⟨own, infoHash, accepted⟩
  have agree : Agree { metainfo with infoHash } metainfo := rfl
  rw [checkBittorrentMetafile_state agree (own.trans (filled accepted).symm)]
  exact accepted

/-- Metafiles that agree are both accepted or both rejected, unless only one digest is empty. -/
theorem checkBittorrentMetafile_state_iff {first second : Metafile υ} (agree : Agree first second) :
    (checkBittorrentMetafile second).1 = (checkBittorrentMetafile first).1 ↔
      (Acceptable first → bittorrentIdIsEmpty second.infoHash = bittorrentIdIsEmpty first.infoHash) := by
  have both : (checkBittorrentMetafile second).1 = (checkBittorrentMetafile first).1 ↔
      ((checkBittorrentMetafile second).1 = .ok ↔ (checkBittorrentMetafile first).1 = .ok) := by
    rcases checkBittorrentMetafile_cases first with before | before <;>
      rcases checkBittorrentMetafile_cases second with after | after <;> simp [before, after]
  rw [both, checkBittorrentMetafile_ok_iff, checkBittorrentMetafile_ok_iff, agree.acceptable]
  cases bittorrentIdIsEmpty first.infoHash <;> cases bittorrentIdIsEmpty second.infoHash <;> simp

theorem readMetafile_of_error {entries others : BencodedEntries} {failure : MetafileFailure υ}
    (failed : readMetafileEntries services (initialMetafile υ) entries = .error failure)
    (results : ResultsAgree (readMetafileEntries services (initialMetafile υ) entries)
      (readMetafileEntries services (initialMetafile υ) others)) :
    SameMetafile (readMetafile services entries) (readMetafile services others) := by
  rw [readMetafile, readMetafile, failed]
  rw [failed] at results
  generalize readMetafileEntries services (initialMetafile υ) others = two at results
  cases results with
  | error _ agree =>
      dsimp only
      rw [agree]
      exact ⟨rfl, rfl, rfl, rfl, rfl, rfl, rfl⟩

/-- Whether a metafile is accepted with some digest can be asked of its text, with the digest as any function. -/
theorem readMetafile_acceptable {place : DictionaryPlace} (hashed : place.Hashed) {dictionary : BencodedEntries}
    {first : Metafile υ}
    (read : readMetafileEntries services (initialMetafile υ) (place.entries dictionary) = .ok first) :
    (∃ sha1, (readMetafile { services with sha1 := sha1 } (place.entries dictionary)).1 = .ok) ↔ Acceptable first := by
  have others (sha1 : List UInt8 → List UInt8) : ∃ other,
      readMetafileEntries { services with sha1 := sha1 } (initialMetafile υ) (place.entries dictionary) = .ok other ∧
        Agree first other := by
    have results := @readMetafileEntries_agree _ services _ _ (.refl (initialMetafile υ)) sha1 (place.entries dictionary)
    rw [read] at results
    generalize readMetafileEntries { services with sha1 := sha1 } (initialMetafile υ)
      (place.entries dictionary) = result at results
    obtain ⟨agree⟩ := results
    exact ⟨_, rfl, agree⟩
  constructor
  · rintro ⟨sha1, accepted⟩
    obtain ⟨other, readOther, agree⟩ := others sha1
    rw [readMetafile, readOther] at accepted
    exact agree.acceptable.mp ⟨other.infoHash, accepted⟩
  · rintro ⟨infoHash, accepted⟩
    obtain ⟨other, readOther, agree⟩ := others fun _ => infoHash
    refine ⟨fun _ => infoHash, ?_⟩
    have hash : other.infoHash = infoHash := infoHash_of_hashed hashed readOther
    have same : Agree { first with infoHash } other := by
      rw [agree]
      rfl
    rw [readMetafile, readOther]
    exact (checkBittorrentMetafile_state same (by rw [hash])).trans accepted

/-- The metafile with the larger dictionary is accepted where the other one is, as long as both digests are
empty or both are not. -/
theorem readMetafile_below {entry : List UInt8 × BencodedValue} {place : DictionaryPlace} {inside : InfoPlace}
    (unacted : ¬ (EntryPlace.below place inside).ActedOn services entry) :
    SameMetafile (readMetafile services (place.entries (inside.entries [])))
        (readMetafile services (place.entries (inside.entries [entry]))) ↔
      (place.Hashed →
        (∃ sha1, (readMetafile { services with sha1 := sha1 } (place.entries (inside.entries []))).1 = .ok) →
          bittorrentIdIsEmpty (services.sha1 (encodeDictionary (inside.entries [entry]))) =
            bittorrentIdIsEmpty (services.sha1 (encodeDictionary (inside.entries [])))) := by
  have results := readMetafileEntries_below unacted
  cases one : readMetafileEntries services (initialMetafile υ) (place.entries (inside.entries [])) with
  | error failure =>
      refine iff_of_true (readMetafile_of_error one results) ?_
      rintro _ ⟨sha1, accepted⟩
      have state := readMetafileEntries_error one
      have other := @readMetafileEntries_agree _ services _ _ (.refl (initialMetafile υ)) sha1
        (place.entries (inside.entries []))
      rw [one] at other
      rw [readMetafile] at accepted
      generalize readMetafileEntries { services with sha1 := sha1 } (initialMetafile υ)
        (place.entries (inside.entries [])) = result at accepted other
      cases other with
      | error _ _ => exact BittorrentState.noConfusion (state.symm.trans accepted)
  | ok first =>
      rw [one] at results
      cases two : readMetafileEntries services (initialMetafile υ) (place.entries (inside.entries [entry])) with
      | error failure =>
          rw [two] at results
          cases results
      | ok second =>
          rw [two] at results
          obtain ⟨agree⟩ := results
          have same : SameMetafile (readMetafile services (place.entries (inside.entries [])))
              (readMetafile services (place.entries (inside.entries [entry]))) ↔
              (checkBittorrentMetafile second).1 = (checkBittorrentMetafile first).1 := by
            rw [readMetafile, readMetafile, one, two]
            exact checkBittorrentMetafile_same agree
          rw [same]
          by_cases hashed : place.Hashed
          · rw [readMetafile_acceptable hashed one, ← infoHash_of_hashed hashed one, ← infoHash_of_hashed hashed two,
              checkBittorrentMetafile_state_iff agree, forall_prop_of_true hashed]
          · refine iff_of_true ?_ fun named => absurd named hashed
            exact checkBittorrentMetafile_state agree (by rw [infoHash_of_unhashed hashed one two])

theorem lastDictionary_inserted {entry : List UInt8 × BencodedValue}
    (other : bencodingKey entry.1 entry.2.type ≠ .info) (front back : BencodedEntries) :
    lastDictionary (scannerTokenStrlcasecmp · infoKey) none (front ++ [entry] ++ back) =
      lastDictionary (scannerTokenStrlcasecmp · infoKey) none (front ++ [] ++ back) := by
  have step (last : Option BencodedEntries) :
      lastDictionary (scannerTokenStrlcasecmp · infoKey) last [entry] = last := lastDictionary_other other
  unfold lastDictionary at step ⊢
  rw [List.foldl_append, List.foldl_append, step, List.append_nil, List.foldl_append]

theorem readMetafile_metafile {entry : List UInt8 × BencodedValue} {front back : BencodedEntries}
    (unacted : ¬ (EntryPlace.metafile front back).ActedOn services entry) :
    SameMetafile (readMetafile services (front ++ [] ++ back)) (readMetafile services (front ++ [entry] ++ back)) := by
  have results := readMetafileEntries_metafile unacted
  cases one : readMetafileEntries services (initialMetafile υ) (front ++ [] ++ back) with
  | error failure => exact readMetafile_of_error one results
  | ok first =>
      have reach : ∃ metainfo, readMetafileEntries services (initialMetafile υ) front = .ok metainfo := by
        rw [List.append_nil, readMetafileEntries, List.foldlM_append] at one
        rw [readMetafileEntries]
        cases reach : front.foldlM (fun metainfo entry => readMetafileEntry services metainfo entry.1 entry.2)
            (initialMetafile υ) with
        | error failure =>
            rw [reach] at one
            cases one
        | ok metainfo => exact ⟨metainfo, rfl⟩
      have other : bencodingKey entry.1 entry.2.type ≠ .info := fun info =>
        unacted ⟨reach, by simp only [actsInMetafile, info]⟩
      rw [one] at results
      cases two : readMetafileEntries services (initialMetafile υ) (front ++ [entry] ++ back) with
      | error failure =>
          rw [two] at results
          cases results
      | ok second =>
          rw [two] at results
          obtain ⟨agree⟩ := results
          rw [readMetafile, readMetafile, one, two]
          have before := readMetafileEntries_digested digested_initialMetafile one
          have after := readMetafileEntries_digested digested_initialMetafile two
          rw [lastDictionary_inserted other] at after
          have hash : second.infoHash = first.infoHash := by
            rw [after.infoHash, after.digested, before.infoHash, before.digested]
          exact (checkBittorrentMetafile_same agree).mpr (checkBittorrentMetafile_state agree (by rw [hash]))

end Agree

def KnownEntry (key : List UInt8) (value : BencodedValue) : Prop :=
  ∃ entry ∈ bencodingDictionaryEntries, sameIgnoringCase key entry.key = true ∧ value.type = entry.valueType

theorem bencodingKey_unknown {key : List UInt8} {value : BencodedValue} (unknown : ¬ KnownEntry key value)
    (clean : 0 ∉ key) : bencodingKey key value.type = .none := by
  have names : ∀ entry ∈ bencodingDictionaryEntries, 0 ∉ entry.key := by decide
  have missing : bencodingDictionaryEntries.find? (fun entry =>
      scannerTokenStrlcasecmp key entry.key && decide (value.type = entry.valueType)) = none := by
    rw [List.find?_eq_none]
    intro entry member found
    rw [Bool.and_eq_true, decide_eq_true_eq, scannerTokenStrlcasecmp_eq clean (names entry member)] at found
    exact unknown ⟨entry, member, found⟩
  rw [bencodingKey, missing]

theorem unacted_of_clean {υ : Type} (services : MetafileServices υ) {entry : List UInt8 × BencodedValue}
    (unknown : ¬ KnownEntry entry.1 entry.2) (clean : 0 ∉ entry.1) (place : EntryPlace) :
    ¬ place.ActedOn services entry := by
  have none := bencodingKey_unknown unknown clean
  intro acts
  cases place with
  | metafile front back => simp [EntryPlace.ActedOn, actsInMetafile, none] at acts
  | below place inside =>
      obtain ⟨metainfo, _, _, acts⟩ := acts
      cases inside with
      | info front back => simp [InfoPlace.ActedOn, actsInInfo, none] at acts
      | file before files first front back later behind => simp [InfoPlace.ActedOn, actsInFile, none] at acts

/-- An entry that its parser does not act on changes the info hash at most; this is so for an unknown one whose
key has no NUL. -/
theorem parseBittorrentMetafile_ignores {υ : Type} (services : MetafileServices υ) (place : EntryPlace)
    (entry : List UInt8 × BencodedValue) (small : (encodeValue (.dictionary (place.entries []))).length < 2 ^ 31)
    (stillSmall : (encodeValue (.dictionary (place.entries [entry]))).length < 2 ^ 31) :
    (¬ place.ActedOn services entry →
        (SameMetafile (parsedEntries services (place.entries [])) (parsedEntries services (place.entries [entry])) ↔
          place.HashKept services entry)) ∧
      (¬ KnownEntry entry.1 entry.2 → 0 ∉ entry.1 → ¬ place.ActedOn services entry) := by
  refine ⟨fun unacted => ?_, fun unknown clean => unacted_of_clean services unknown clean place⟩
  have reads (sha1 : List UInt8 → List UInt8) :=
    parseBittorrentMetafile_reads { services with sha1 := sha1 } (place.entries []) small
  rw [parsedEntries, parsedEntries, parseBittorrentMetafile_reads services _ small,
    parseBittorrentMetafile_reads services _ stillSmall]
  cases place with
  | metafile front back =>
      refine iff_of_true ?_ trivial
      exact readMetafile_metafile unacted
  | below place inside =>
      simp only [EntryPlace.HashKept, parsedEntries]
      simp only [EntryPlace.entries] at reads ⊢
      simp only [reads]
      exact readMetafile_below unacted

def behindAnnounce : EntryPlace := .metafile ((oneByteEntries 1).take 1) ((oneByteEntries 1).drop 1)

/-- In front of the first entry of the info dictionary -/
def inOneByteInfo : EntryPlace :=
  match oneByteInfo 1 with
  | .dictionary entries => .below ⟨(oneByteEntries 1).take 1, infoKey, []⟩ (.info [] entries)
  | _ => behindAnnounce

theorem parseBittorrentMetafile_ignores_x :
    let services := oneByteServices fun _ => [121, 33, 97, 100, 218, 23, 241, 252, 114, 81, 56, 105, 73, 101, 210,
    135, 128, 233, 209, 8]
    SameMetafile (parsedEntries services (oneByteEntries 1))
      (parsedEntries services (inOneByteInfo.entries [([120], .list [.integer 7])])) := by
  intro services
  obtain ⟨same, unacted⟩ := parseBittorrentMetafile_ignores services inOneByteInfo ([120], .list [.integer 7])
    (by decide +kernel) (by decide +kernel)
  refine (same (unacted ?_ (by decide))).mpr fun _ _ => rfl
  rintro ⟨known, member, sameKey, _⟩
  have other : ∀ known ∈ bencodingDictionaryEntries, sameIgnoringCase [120] known.key = false := by decide
  rw [other known member] at sameKey
  cases sameKey

/-- A string under the unknown key `com` and four NULs becomes the comment. -/
theorem parseBittorrentMetafile_ignores_nul :
    let services := oneByteServices fun _ => [121, 33, 97, 100, 218, 23, 241, 252, 114, 81, 56, 105, 73, 101, 210,
    135, 128, 233, 209, 8]
    let entry : List UInt8 × BencodedValue := ([99, 111, 109, 0, 0, 0, 0], .string [120])
    ¬ KnownEntry entry.1 entry.2 ∧
      ¬ SameMetafile (parsedEntries services (behindAnnounce.entries []))
        (parsedEntries services (behindAnnounce.entries [entry])) := by
  intro services entry
  refine ⟨?_, fun same => ?_⟩
  · rintro ⟨known, member, sameKey, _⟩
    have other : ∀ known ∈ bencodingDictionaryEntries, sameIgnoringCase entry.1 known.key = false := by decide
    rw [other known member] at sameKey
    cases sameKey
  · have comment := same.comment
    have before : (parsedEntries services (behindAnnounce.entries [])).2.comment = none := by decide +kernel
    have after : (parsedEntries services (behindAnnounce.entries [entry])).2.comment = some [120] := by
      decide +kernel
    rw [before, after] at comment
    cases comment

end KcnTools.Bittorrent
