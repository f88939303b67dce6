import KcnTools.Bittorrent.MetafileGeometry
import KcnTools.Bittorrent.MetafileText

/-! Which bytes of a metafile the info hash is made of. -/

namespace KcnTools.Bittorrent

open Protocols (ascii)
open Util

def sameIgnoringCase (key name : List UInt8) : Bool := key.map cToupper == name.map cToupper

def infoKey : List UInt8 := ascii ['i', 'n', 'f', 'o']

def lastDictionary (named : List UInt8 → Bool) (last : Option BencodedEntries) (entries : BencodedEntries) :
    Option BencodedEntries :=
  entries.foldl (fun last entry =>
    match entry.2 with
    | .dictionary inner => if named entry.1 then some inner else last
    | _ => last) last

def encodeDictionary (entries : BencodedEntries) : List UInt8 := encodeValue (.dictionary entries)

/-- The info hash is the digest of the last dictionary whose key is `info`. -/
structure DigestsInfo {υ : Type} (services : MetafileServices υ) (entries : BencodedEntries) (metainfo : Metafile υ) :
    Prop where
  digested : metainfo.digested = (lastDictionary (sameIgnoringCase · infoKey) none entries).map encodeDictionary
  present : metainfo.digested.isSome = true
  infoHash : some metainfo.infoHash = metainfo.digested.map services.sha1

/-- The last dictionary under a key that `scanner_token_strlcasecmp` takes for `info` has the bytes
of the last one whose key is `info`. -/
def InfoKeysAgree (entries : BencodedEntries) : Prop :=
  (lastDictionary (scannerTokenStrlcasecmp · infoKey) none entries).map encodeDictionary =
    (lastDictionary (sameIgnoringCase · infoKey) none entries).map encodeDictionary

section Keys

/-- Without a NUL all of the bytes are compared. -/
theorem strlcasecmpLoop_iff {key name : List UInt8} (length : key.length = name.length) (clean : 0 ∉ key)
    (cleanName : 0 ∉ name) : strlcasecmpLoop key name = true ↔ key.map cToupper = name.map cToupper := by
  induction key generalizing name with
  | nil =>
      cases name with
      | nil => exact iff_of_true rfl rfl
      | cons d name => cases length
  | cons c key ih =>
      cases name with
      | nil => cases length
      | cons d name =>
          rw [List.mem_cons, not_or] at clean cleanName
          rw [strlcasecmpLoop, if_neg (not_or_intro (Ne.symm clean.1) (Ne.symm cleanName.1)), List.map_cons,
            List.map_cons, List.cons.injEq]
          split
          next different => exact iff_of_false Bool.false_ne_true fun same => different same.1
          next same =>
            rw [ih (Nat.succ.inj length) clean.2 cleanName.2]
            exact (and_iff_right (not_not.mp same)).symm

theorem scannerTokenStrlcasecmp_eq {key name : List UInt8} (clean : 0 ∉ key) (cleanName : 0 ∉ name) :
    scannerTokenStrlcasecmp key name = sameIgnoringCase key name := by
  rw [Bool.eq_iff_iff, scannerTokenStrlcasecmp, Bool.and_eq_true, beq_iff_eq, sameIgnoringCase, beq_iff_eq]
  constructor
  · rintro ⟨length, same⟩
    exact (strlcasecmpLoop_iff length clean cleanName).mp same
  · intro same
    have length : key.length = name.length := by
      have lengths := congrArg List.length same
      rwa [List.length_map, List.length_map] at lengths
    exact ⟨length, (strlcasecmpLoop_iff length clean cleanName).mpr same⟩

end Keys

section Digest
variable {υ : Type} {services : MetafileServices υ}

theorem bencodingKey_info (key : List UInt8) :
    bencodingKey key .dictionary = .info ↔ scannerTokenStrlcasecmp key infoKey = true := by
  simp only [bencodingKey, bencodingDictionaryEntries, List.find?, reduceCtorEq, decide_false, decide_true,
    Bool.and_false, Bool.and_true]
  cases same : scannerTokenStrlcasecmp key (ascii ['i', 'n', 'f', 'o'])
  · simp [infoKey, same]
  · simp [infoKey, same]

structure Digested (services : MetafileServices υ) (last : Option BencodedEntries) (metainfo : Metafile υ) : Prop where
  digested : metainfo.digested = last.map encodeDictionary
  infoHash : metainfo.infoHash = (metainfo.digested.map services.sha1).getD bittorrentNullId

theorem lastDictionary_other {last : Option BencodedEntries} {key : List UInt8} {value : BencodedValue}
    (other : bencodingKey key value.type ≠ .info) :
    lastDictionary (scannerTokenStrlcasecmp · infoKey) last [(key, value)] = last := by
  cases value with
  | dictionary inner => exact if_neg fun same => other ((bencodingKey_info key).mpr same)
  | _ => rfl

theorem readMetafileEntry_digested {metainfo after : Metafile υ} {last : Option BencodedEntries} {key : List UInt8}
    {value : BencodedValue} (before : Digested services last metainfo)
    (read : readMetafileEntry services metainfo key value = .ok after) :
    Digested services (lastDictionary (scannerTokenStrlcasecmp · infoKey) last [(key, value)]) after := by
  by_cases found : bencodingKey key value.type = .info
  · obtain ⟨inner, rfl⟩ :=
      BencodedValue.dictionary_of_type (bencodingKey_type found BencodingKey.noConfusion (by decide))
    have named : lastDictionary (scannerTokenStrlcasecmp · infoKey) last [(key, .dictionary inner)] = some inner :=
      if_pos ((bencodingKey_info key).mp found)
    simp only [readMetafileEntry, found] at read
    split at read
    · cases read
    · cases read
      rw [named]
      exact ⟨rfl, rfl⟩
  · rw [lastDictionary_other found]
    rw [readMetafileEntry.eq_def] at read
    dsimp only at read
    split at read
    · split at read <;> cases read <;> exact ⟨before.digested, before.infoHash⟩
    next here => exact absurd here found
    all_goals cases read; exact ⟨before.digested, before.infoHash⟩

theorem readMetafileEntries_digested {metainfo after : Metafile υ} {last : Option BencodedEntries}
    {entries : BencodedEntries} (before : Digested services last metainfo)
    (read : readMetafileEntries services metainfo entries = .ok after) :
    Digested services (lastDictionary (scannerTokenStrlcasecmp · infoKey) last entries) after := by
  induction entries generalizing metainfo last with
  | nil =>
      cases read
      exact before
  | cons entry entries ih =>
      obtain ⟨key, value⟩ := entry
      rw [readMetafileEntries, List.foldlM_cons] at read
      cases first : readMetafileEntry services metainfo key value with
      | error failure =>
          rw [first] at read
          cases read
      | ok next =>
          rw [first] at read
          exact ih (readMetafileEntry_digested before first) read

theorem readMetafileEntry_error {metainfo : Metafile υ} {key : List UInt8} {value : BencodedValue}
    {failure : MetafileFailure υ} (read : readMetafileEntry services metainfo key value = .error failure) :
    failure.1 = .error := by
  rw [readMetafileEntry.eq_def] at read
  dsimp only at read
  split at read
  · split at read <;> cases read
  · split at read
    · cases read
      rfl
    · cases read
  all_goals cases read

theorem readMetafileEntries_error {metainfo : Metafile υ} {entries : BencodedEntries} {failure : MetafileFailure υ}
    (read : readMetafileEntries services metainfo entries = .error failure) : failure.1 = .error := by
  induction entries generalizing metainfo with
  | nil => cases read
  | cons entry entries ih =>
      obtain ⟨key, value⟩ := entry
      rw [readMetafileEntries, List.foldlM_cons] at read
      cases first : readMetafileEntry services metainfo key value with
      | error other =>
          rw [first] at read
          cases read
          exact readMetafileEntry_error first
      | ok next =>
          rw [first] at read
          exact ih read

theorem readMetafile_checked {entries : BencodedEntries} (accepted : (readMetafile services entries).1 = .ok) :
    ∃ metainfo, readMetafileEntries services (initialMetafile υ) entries = .ok metainfo ∧
      readMetafile services entries = checkBittorrentMetafile metainfo := by
  rw [readMetafile] at accepted ⊢
  cases read : readMetafileEntries services (initialMetafile υ) entries with
  | error failure =>
      rw [read] at accepted
      exact absurd ((readMetafileEntries_error read).symm.trans accepted) BittorrentState.noConfusion
  | ok metainfo => exact ⟨metainfo, rfl, rfl⟩

theorem checkBittorrentMetafile_hash (metainfo : Metafile υ) :
    (checkBittorrentMetafile metainfo).2.digested = metainfo.digested ∧
      (checkBittorrentMetafile metainfo).2.infoHash = metainfo.infoHash ∧
      ((checkBittorrentMetafile metainfo).1 = .ok → metainfo.infoHash ≠ bittorrentNullId) := by
  rw [checkBittorrentMetafile]
  split
  · exact ⟨rfl, rfl, fun accepted => BittorrentState.noConfusion accepted⟩
  next complete =>
    have hashed : metainfo.infoHash ≠ bittorrentNullId := fun same =>
      complete (.inl (by rw [bittorrentIdIsEmpty, same]; exact decide_eq_true rfl))
    split
    · exact ⟨rfl, rfl, fun _ => hashed⟩
    · exact ⟨rfl, rfl, fun _ => hashed⟩

theorem digested_initialMetafile : Digested services none (initialMetafile υ) := ⟨rfl, rfl⟩

end Digest

/-- The info hash covers the info dictionary unless a NUL in a key makes it another one. -/
theorem parseBittorrentMetafile_digests_iff {υ : Type} (services : MetafileServices υ) (entries : BencodedEntries)
    (small : (encodeValue (.dictionary entries)).length < 2 ^ 31)
    (accepted : (parseBittorrentMetafile services (encodeValue (.dictionary entries))).1 = .ok) :
    DigestsInfo services entries (parseBittorrentMetafile services (encodeValue (.dictionary entries))).2 ↔
      InfoKeysAgree entries := by
  rw [parseBittorrentMetafile_reads services entries small] at accepted ⊢
  obtain ⟨metainfo, read, checked⟩ := readMetafile_checked accepted
  rw [checked] at accepted ⊢
  obtain ⟨digested, infoHash, hashed⟩ := checkBittorrentMetafile_hash metainfo
  have last := readMetafileEntries_digested digested_initialMetafile read
  have some : metainfo.digested.isSome = true := by
    rw [Option.isSome_iff_ne_none]
    intro none
    have empty := last.infoHash
    rw [none] at empty
    exact hashed accepted empty
  have sha1 : Option.some metainfo.infoHash = metainfo.digested.map services.sha1 := by
    obtain ⟨bytes, here⟩ := Option.isSome_iff_exists.mp some
    rw [last.infoHash, here]
    rfl
  constructor
  · intro digests
    exact last.digested.symm.trans (digested.symm.trans digests.digested)
  · intro agree
    refine ⟨digested.trans (last.digested.trans agree), ?_, ?_⟩
    · rw [digested]
      exact some
    · rw [digested, infoHash]
      exact sha1

theorem parseBittorrentMetafile_digests_one :
    let services := oneByteServices fun _ => [121, 33, 97, 100, 218, 23, 241, 252, 114, 81, 56, 105, 73, 101, 210,
    135, 128, 233, 209, 8]
    DigestsInfo services (oneByteEntries 1) (parseBittorrentMetafile services (oneByteMetafile 1)).2 ↔
      InfoKeysAgree (oneByteEntries 1) :=
  parseBittorrentMetafile_digests_iff _ (oneByteEntries 1) (by decide +kernel) (by decide +kernel)

/-- An empty dictionary under the key `i`, NUL, `fo` is digested in place of the one under `info`. -/
theorem parseBittorrentMetafile_digests_nul :
    let services := oneByteServices fun bytes => if bytes = [100, 101] then [96, 12, 205, 27, 113, 86, 146, 50, 208,
    29, 17, 11, 198, 62, 144, 107, 234, 176, 77, 140] else [121, 33, 97, 100, 218, 23, 241, 252, 114, 81, 56, 105, 73,
    101, 210, 135, 128, 233, 209, 8]
    let entries := oneByteEntries 1 ++ [([105, 0, 102, 111], .dictionary [])]
    let parsed := parseBittorrentMetafile services (encodeValue (.dictionary entries))
    parsed.1 = .ok ∧ ¬ DigestsInfo services entries parsed.2 := by
  intro services entries parsed
  refine ⟨by decide +kernel, fun digests => ?_⟩
  have digested : parsed.2.digested = some [100, 101] := by decide +kernel
  have info : (lastDictionary (sameIgnoringCase · infoKey) none entries).map encodeDictionary =
      some (encodeValue (oneByteInfo 1)) := by decide +kernel
  have same := digests.digested
  rw [digested, info] at same
  exact absurd (Option.some.inj same) (by decide +kernel)

end KcnTools.Bittorrent
