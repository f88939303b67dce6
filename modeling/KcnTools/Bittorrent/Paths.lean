import KcnTools.Protocol.PathClean

/-!
The paths of a torrent's files, from the bytes in the metafile to the name below the
download directory (`bencoding.c` and `piececache.c`).
-/

namespace KcnTools.Bittorrent

open Protocols KcnTools.Path

def fileScheme : List UInt8 := ascii ['f', 'i', 'l', 'e', ':', '/', '/']

def normalizeBencodingPath (getUserProgram : List UInt8 → Bool) (path : List UInt8) :
    Option (List UInt8 × Bool) :=
  let string := cString (fileScheme ++ ascii ['.', '/'] ++ path)
  let normal := normalizeUri getUserProgram string
  if normal.take 7 ≠ fileScheme then none
  else
    let malicious := dirSep (byteAt normal 7)
    some (normal.drop (8 + if malicious then 0 else 1), malicious)

inductive BittorrentMetaType
  | singleFile | multiFile
  deriving DecidableEq

def getBittorrentFileName (downloadDirectory metaName fileName : List UInt8)
    (type : BittorrentMetaType) : List UInt8 :=
  let name := downloadDirectory ++ 47 :: metaName
  if type = .multiFile then name ++ 47 :: fileName else name

/-! The URI `file://./path`. -/

theorem parseFragment_fields (uri : Uri) (position : Nat) :
    (parseFragment uri position).protocol = uri.protocol ∧
      (parseFragment uri position).protocollen = uri.protocollen ∧
      (parseFragment uri position).host = uri.host ∧
      (parseFragment uri position).data = uri.data := by
  simp only [parseFragment]
  split
  · split <;> simp
  · split <;> simp

theorem parseUri_file (getUserProgram : List UInt8 → Bool) (path : List UInt8) :
    ∃ uri, parseUri getUserProgram (fileScheme ++ 46 :: path) = .ok uri ∧ uri.protocol = .file ∧
      uri.protocollen = 4 ∧ uri.host = none ∧ uri.data = 7 := by
  have length : getProtocolLength (fileScheme ++ 46 :: path) = 4 := rfl
  have protocol : getProtocol getUserProgram ((fileScheme ++ 46 :: path).take 4) = .file := rfl
  refine ⟨parseFragment { initialUri (fileScheme ++ 46 :: path) .file 4 0 with
      data := 7, datalen := strcspn (46 :: path) [postChar, 35] % 2 ^ 16 }
    (7 + strcspn (46 :: path) [postChar, 35]), ?_, ?_⟩
  · have digit : isdigit 58 = false := rfl
    have colon : byteAt (fileScheme ++ 46 :: path) 4 = 58 := rfl
    have slash : byteAt (fileScheme ++ 46 :: path) 5 = 47 := rfl
    have second : byteAt (fileScheme ++ 46 :: path) 6 = 47 := rfl
    have third : byteAt (fileScheme ++ 46 :: path) 7 = 46 := rfl
    have rest : (fileScheme ++ 46 :: path).drop 7 = 46 :: path := rfl
    have nonempty : (fileScheme ++ 46 :: path).isEmpty = false := rfl
    generalize fileScheme ++ 46 :: path = string at *
    simp [parseUri, nonempty, length, protocol, digit, colon, slash, second, third, rest,
      protocolBackend, bind, Except.bind]
  · obtain ⟨same, prefixed, host, data⟩ := parseFragment_fields
      { initialUri (fileScheme ++ 46 :: path) .file 4 0 with
        data := 7, datalen := strcspn (46 :: path) [postChar, 35] % 2 ^ 16 }
      (7 + strcspn (46 :: path) [postChar, 35])
    exact ⟨same, prefixed, host, data⟩

theorem isUriDirSep_file : isUriDirSep .file = dirSep := rfl

theorem normalizeUri_file (getUserProgram : List UInt8 → Bool) {path : List UInt8}
    (noNul : 0 ∉ path) :
    normalizeUri getUserProgram (fileScheme ++ 46 :: path) =
      fileScheme ++ normalPath dirSep [] (46 :: path) := by
  obtain ⟨uri, parsed, protocol, protocollen, host, data⟩ := parseUri_file getUserProgram path
  have clean : 0 ∉ fileScheme ++ 46 :: path := by
    rw [List.mem_append, List.mem_cons, not_or, not_or]
    exact ⟨by decide, by decide, noNul⟩
  have scheme : (fileScheme ++ 46 :: path).take 7 = fileScheme := rfl
  have rest : (fileScheme ++ 46 :: path).drop 7 = 46 :: path := rfl
  have lowered : lowercase (fileScheme ++ 46 :: path) 0 4 = fileScheme ++ 46 :: path := rfl
  have long : 7 ≤ (fileScheme ++ 46 :: path).length := by simp [fileScheme, ascii]
  generalize fileScheme ++ 46 :: path = string at *
  rw [← rest]
  have found : lowercaseUri getUserProgram (string.length + 1) string 0 =
      (string, some (0, uri)) := by
    simp [lowercaseUri, parsed, protocol, protocollen, host, lowered]
  have before := normalizeLoop_take dirSep (string.length + 2) string 7 (Nat.le_refl 7) long
  have behind := normalizeLoop_eq dirSep_nul dirSep_dot string 7 [] clean List.nil_prefix
    (Nat.le_refl 7) long (show string.length - 7 + 2 ≤ string.length + 2 by omega)
  simp only [normalizeUri, found, protocol, data, protocolBackend, Bool.false_eq_true, and_false,
    ↓reduceIte, isUriDirSep_file]
  rw [← List.take_append_drop 7 (normalizeLoop dirSep 7 (string.length + 2) string 7 7), before,
    scheme, cString_append fileScheme (by decide), ← behind]
  rfl

/-! The paths that are safe, and when the code builds one. -/

def SafePath (path : List UInt8) : Prop :=
  (∀ c ∈ path.head?, dirSep c = false) ∧ upElement ∉ components dirSep path

def Below (directory file : List UInt8) : Prop :=
  resolve upElement hereElement [] (components dirSep directory) <:+
    resolve upElement hereElement [] (components dirSep file)

def TailStaysBelow (path : List UInt8) : Prop :=
  upElement ∉ (components dirSep (unnormalized (cString path))).tail

theorem below_append (directory : List UInt8) {path : List UInt8} (safe : SafePath path) :
    Below directory (directory ++ 47 :: path) := by
  rw [Below, components_append_cons dirSep _ _ rfl, resolve_append]
  exact resolve_below upElement hereElement safe.2 _

theorem getBittorrentFileName_below (directory : List UInt8) {metaName fileName : List UInt8}
    (safeMeta : SafePath metaName) (safeFile : SafePath fileName) (type : BittorrentMetaType) :
    Below directory (getBittorrentFileName directory metaName fileName type) := by
  cases type with
  | singleFile => exact below_append directory safeMeta
  | multiFile =>
      exact (below_append directory safeMeta).trans (below_append (directory ++ 47 :: metaName) safeFile)

theorem normalizeBencodingPath_spec (getUserProgram : List UInt8 → Bool) (path : List UInt8) :
    ∃ name malicious, normalizeBencodingPath getUserProgram path = some (name, malicious) ∧
      (SafePath name ↔ TailStaysBelow path) := by
  have noNul : 0 ∉ cString path := by
    intro member
    simpa using List.mem_takeWhile_imp member
  have string : cString (fileScheme ++ ascii ['.', '/'] ++ path) =
      fileScheme ++ 46 :: 47 :: cString path :=
    cString_append (fileScheme ++ ascii ['.', '/']) (by decide) path
  have first : normalPath dirSep [] (46 :: 47 :: cString path) =
      normalPath dirSep [46] (47 :: cString path) := by
    have step : pathStep dirSep (byteAt (46 :: 47 :: cString path)) = .copy := rfl
    rw [normalPath, step]
  obtain ⟨before, normal, clean⟩ := normalPath_clean (by simp [noNul]) (Clean.start (cString path))
  rw [unnormalized_cons (by decide)] at normal clean
  have spec : ∀ head, (head = [] ∨ head = [46]) → ∀ name, before.reverse = head ++ 47 :: name →
      (SafePath (name ++ unnormalized (cString path)) ↔ TailStaysBelow path) := by
    intro head here name split
    have list : before = name.reverse ++ 47 :: head.reverse := by
      rw [← List.reverse_reverse before, split]
      simp
    have components := clean.upElement_iff
    rw [split, List.append_assoc, List.cons_append, components_append_cons dirSep _ _ rfl,
      List.mem_append] at components
    have other : upElement ∉ Path.components dirSep head := by
      rcases here with rfl | rfl <;> decide
    rw [or_iff_right other] at components
    rw [list] at clean
    rw [SafePath, TailStaysBelow, components]
    refine and_iff_right fun c member => clean.head_after ?_
    rwa [List.reverse_reverse]
  have scheme : ∀ rest, (fileScheme ++ rest).take 7 = fileScheme := fun _ => rfl
  rcases clean.rooted with ⟨name, root | root⟩ | ⟨_, c, head, separates⟩
  · have split : before.reverse = [] ++ 47 :: name.reverse := by rw [root]; simp
    refine ⟨name.reverse ++ unnormalized (cString path), true, ?_, spec [] (Or.inl rfl) _ split⟩
    rw [normalizeBencodingPath, string, normalizeUri_file _ (by simp [noNul]), first, normal, split]
    rfl
  · have split : before.reverse = [46] ++ 47 :: name.reverse := by rw [root]; simp
    refine ⟨name.reverse ++ unnormalized (cString path), false, ?_, spec [46] (Or.inr rfl) _ split⟩
    rw [normalizeBencodingPath, string, normalizeUri_file _ (by simp [noNul]), first, normal, split]
    rfl
  · have ends := endOfDir_head_unnormalized head
    rw [not_endOfDir_of_dirSep separates] at ends
    exact absurd ends (by decide)

/-- The path of a metafile is safe, and every file name built from it stays below the
download directory, exactly when the part left unnormalized stays below. -/
theorem normalizeBencodingPath_safe_iff (getUserProgram : List UInt8 → Bool) (path : List UInt8) :
    (∃ name malicious, normalizeBencodingPath getUserProgram path = some (name, malicious) ∧
      SafePath name ∧ ∀ directory other type, SafePath other →
        Below directory (getBittorrentFileName directory name other type) ∧
        Below directory (getBittorrentFileName directory other name type)) ↔
      TailStaysBelow path := by
  obtain ⟨name, malicious, found, safe⟩ := normalizeBencodingPath_spec getUserProgram path
  rw [← safe]
  constructor
  · rintro ⟨_, _, same, holds, _⟩
    rw [found, Option.some.injEq, Prod.mk.injEq] at same
    rwa [same.1]
  · intro holds
    exact ⟨name, malicious, found, holds, fun directory other type safeOther =>
      ⟨getBittorrentFileName_below directory holds safeOther type,
        getBittorrentFileName_below directory safeOther holds type⟩⟩

/-- The name `a?/../../x` is copied as it is. -/
theorem normalizeBencodingPath_query :
    normalizeBencodingPath (fun _ => false) [97, 63, 47, 46, 46, 47, 46, 46, 47, 120] =
        some ([97, 63, 47, 46, 46, 47, 46, 46, 47, 120], false) ∧
      ¬SafePath [97, 63, 47, 46, 46, 47, 46, 46, 47, 120] ∧
      ¬Below [100] (getBittorrentFileName [100] [97, 63, 47, 46, 46, 47, 46, 46, 47, 120] []
        .singleFile) := by
  refine ⟨by decide, fun safe => absurd safe.2 (by decide), ?_⟩
  rw [Below]
  decide

-- The parsers that call it must not unfold the loops below it.
attribute [irreducible] normalizeBencodingPath

end KcnTools.Bittorrent
