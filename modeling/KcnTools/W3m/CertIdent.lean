import KcnTools.Cookies.CookieDomain
import KcnTools.W3m.Str

/-!
The comparison of a host name with a name in a certificate: `ssl_match_cert_ident` of
`istream.c`, beside the rule of its comment.
-/

namespace KcnTools.W3m

open Cookies (lower)
open Protocols (cTolower)

/-- The loop over `ident`, with `hostname` at a byte of the name or at its NUL; `none` is
a read behind the NUL. -/
def matchIdent : List UInt8 → List UInt8 → Option Bool
  | [], hostname => some hostname.isEmpty
  | 42 :: 46 :: ident, hostname =>
      match hostname.dropWhile (· != 46) with
      | _ :: hostname => matchIdent ident hostname
      -- the NUL ends the inner loop, and `hostname` stands behind it
      | [] => none
  | c :: _, [] => if c = 0 then none else some false
  | c :: ident, h :: hostname => if c = h then matchIdent ident hostname else some false

def sslMatchCertIdent (ident hostname : CString) : Option Bool :=
  if ident.bytes.length = hostname.bytes.length ∧ lower ident.bytes = lower hostname.bytes then some true
  else matchIdent ident.bytes hostname.bytes

def IsWildcard (ident : List UInt8) : Prop := ∃ rest, ident = 42 :: 46 :: rest

/-- The name is the pattern with each `*` before a dot replaced by a part of one label;
`same` says which letters agree. -/
inductive Obtained (same : UInt8 → UInt8 → Prop) : List UInt8 → List UInt8 → Prop
  | nil : Obtained same [] []
  | wildcard {part ident hostname : List UInt8} (label : 46 ∉ part) (rest : Obtained same ident hostname) :
      Obtained same (42 :: 46 :: ident) (part ++ 46 :: hostname)
  | letter {c h : UInt8} {ident hostname : List UInt8} (plain : ¬ IsWildcard (c :: ident)) (agree : same c h)
      (rest : Obtained same ident hostname) : Obtained same (c :: ident) (h :: hostname)

def SameLetter (c h : UInt8) : Prop := cTolower c = cTolower h

def CertMatches (ident hostname : List UInt8) : Prop :=
  lower ident = lower hostname ∨ Obtained SameLetter ident hostname

inductive EndsInWildcard : List UInt8 → List UInt8 → Prop
  | here {ident hostname : List UInt8} (label : 46 ∉ hostname) : EndsInWildcard (42 :: 46 :: ident) hostname
  | wildcard {part ident hostname : List UInt8} (label : 46 ∉ part) (rest : EndsInWildcard ident hostname) :
      EndsInWildcard (42 :: 46 :: ident) (part ++ 46 :: hostname)
  | letter {c : UInt8} {ident hostname : List UInt8} (plain : ¬ IsWildcard (c :: ident))
      (rest : EndsInWildcard ident hostname) : EndsInWildcard (c :: ident) (c :: hostname)

def CaseDiffers (ident hostname : List UInt8) : Prop :=
  Obtained SameLetter ident hostname ∧ ¬ Obtained Eq ident hostname

theorem dropWhile_dot {hostname : List UInt8} :
    hostname.dropWhile (· != 46) = [] ↔ 46 ∉ hostname := by
  rw [List.dropWhile_eq_nil_iff]
  constructor
  · intro all dot
    simpa using all 46 dot
  · rintro free c member
    have other : c ≠ 46 := fun dot => free (dot ▸ member)
    simpa using other

theorem first_label {part rest hostname : List UInt8} (label : 46 ∉ part)
    (parts : hostname = part ++ 46 :: rest) : hostname.dropWhile (· != 46) = 46 :: rest := by
  rw [parts, List.dropWhile_append, dropWhile_dot.mpr label]
  simp

theorem exists_label {hostname rest : List UInt8} {dot : UInt8}
    (found : hostname.dropWhile (· != 46) = dot :: rest) : ∃ part, 46 ∉ part ∧ hostname = part ++ 46 :: rest := by
  have nonempty : hostname.dropWhile (· != 46) ≠ [] := by
    rw [found]
    exact List.cons_ne_nil _ _
  have stops : dot = 46 := by
    have head := List.head_dropWhile_not _ nonempty
    simpa [found] using head
  rw [stops] at found
  refine ⟨hostname.takeWhile (· != 46), ?_, ?_⟩
  · intro member
    simpa using List.mem_takeWhile_imp member
  · rw [← found]
    exact List.takeWhile_append_dropWhile.symm

theorem Obtained.behind_label {same : UInt8 → UInt8 → Prop} {ident hostname : List UInt8}
    (obtained : Obtained same (42 :: 46 :: ident) hostname) :
    ∃ rest, hostname.dropWhile (· != 46) = 46 :: rest ∧ Obtained same ident rest := by
  cases obtained with
  | wildcard label rest => exact ⟨_, first_label label rfl, rest⟩
  | letter plain => exact (plain ⟨ident, rfl⟩).elim

theorem Obtained.behind_letter {same : UInt8 → UInt8 → Prop} {c : UInt8} {ident hostname : List UInt8}
    (plain : ¬ IsWildcard (c :: ident)) (obtained : Obtained same (c :: ident) hostname) :
    ∃ h rest, hostname = h :: rest ∧ same c h ∧ Obtained same ident rest := by
  cases obtained with
  | wildcard => exact (plain ⟨_, rfl⟩).elim
  | letter _ agree rest => exact ⟨_, _, rfl, agree, rest⟩

theorem EndsInWildcard.behind_label {ident hostname : List UInt8}
    (ends : EndsInWildcard (42 :: 46 :: ident) hostname) :
    46 ∉ hostname ∨ ∃ rest, hostname.dropWhile (· != 46) = 46 :: rest ∧ EndsInWildcard ident rest := by
  cases ends with
  | here label => exact .inl label
  | wildcard label rest => exact .inr ⟨_, first_label label rfl, rest⟩
  | letter plain => exact (plain ⟨ident, rfl⟩).elim

theorem EndsInWildcard.behind_letter {c : UInt8} {ident hostname : List UInt8}
    (plain : ¬ IsWildcard (c :: ident)) (ends : EndsInWildcard (c :: ident) hostname) :
    ∃ rest, hostname = c :: rest ∧ EndsInWildcard ident rest := by
  cases ends with
  | here => exact (plain ⟨_, rfl⟩).elim
  | wildcard => exact (plain ⟨_, rfl⟩).elim
  | letter _ rest => exact ⟨_, rfl, rest⟩

theorem not_isWildcard {c : UInt8} {ident : List UInt8}
    (plain : ∀ rest, c = 42 → ident = 46 :: rest → False) : ¬ IsWildcard (c :: ident) := by
  rintro ⟨rest, wildcard⟩
  obtain ⟨star, dot⟩ := List.cons.inj wildcard
  exact plain rest star dot

/-- The loop accepts what is obtained from the pattern with the same letters. -/
theorem matchIdent_true (ident hostname : List UInt8) (unbroken : ∀ c ∈ ident, c ≠ 0) :
    matchIdent ident hostname = some true ↔ Obtained Eq ident hostname := by
  fun_induction matchIdent ident hostname with
  | case1 hostname =>
      constructor
      · intro ended
        have empty : hostname = [] := by simpa using ended
        rw [empty]
        exact .nil
      · rintro ⟨⟩
        rfl
  | case2 ident hostname dot rest found ih =>
      have rest_unbroken : ∀ c ∈ ident, c ≠ 0 := fun c member => unbroken c (by simp [member])
      rw [ih rest_unbroken]
      constructor
      · intro obtained
        obtain ⟨part, label, parts⟩ := exists_label found
        rw [parts]
        exact .wildcard label obtained
      · intro obtained
        obtain ⟨other, stops, behind⟩ := obtained.behind_label
        rw [found] at stops
        rw [(List.cons.inj stops).2]
        exact behind
  | case3 ident hostname none =>
      constructor
      · rintro ⟨⟩
      · intro obtained
        obtain ⟨rest, stops, _⟩ := obtained.behind_label
        rw [none] at stops
        cases stops
  | case4 ident plain =>
      exact (unbroken 0 List.mem_cons_self rfl).elim
  | case5 c ident plain _ =>
      constructor
      · rintro ⟨⟩
      · intro obtained
        obtain ⟨h, rest, parts, _⟩ := obtained.behind_letter (not_isWildcard plain)
        cases parts
  | case6 c ident hostname plain ih =>
      rw [ih fun c member => unbroken c (List.mem_cons_of_mem _ member)]
      constructor
      · intro obtained
        exact .letter (not_isWildcard plain) rfl obtained
      · intro obtained
        obtain ⟨h, rest, parts, _, behind⟩ := obtained.behind_letter (not_isWildcard plain)
        rw [(List.cons.inj parts).2]
        exact behind
  | case7 c ident h hostname plain differ =>
      constructor
      · rintro ⟨⟩
      · intro obtained
        obtain ⟨other, rest, parts, agree, _⟩ := obtained.behind_letter (not_isWildcard plain)
        exact (differ (agree.trans (List.cons.inj parts).1.symm)).elim

theorem matchIdent_none (ident hostname : List UInt8) (unbroken : ∀ c ∈ ident, c ≠ 0) :
    matchIdent ident hostname = none ↔ EndsInWildcard ident hostname := by
  fun_induction matchIdent ident hostname with
  | case1 hostname =>
      constructor
      · rintro ⟨⟩
      · rintro ⟨⟩
  | case2 ident hostname dot rest found ih =>
      have rest_unbroken : ∀ c ∈ ident, c ≠ 0 := fun c member => unbroken c (by simp [member])
      obtain ⟨part, label, parts⟩ := exists_label found
      rw [ih rest_unbroken]
      constructor
      · intro ends
        rw [parts]
        exact .wildcard label ends
      · intro ends
        rcases ends.behind_label with free | ⟨other, stops, behind⟩
        · exact (free (by simp [parts])).elim
        · rw [found] at stops
          rw [(List.cons.inj stops).2]
          exact behind
  | case3 ident hostname none =>
      constructor
      · intro _
        exact .here (dropWhile_dot.mp none)
      · intro _
        rfl
  | case4 ident plain =>
      exact (unbroken 0 List.mem_cons_self rfl).elim
  | case5 c ident plain _ =>
      constructor
      · rintro ⟨⟩
      · intro ends
        obtain ⟨rest, parts, _⟩ := ends.behind_letter (not_isWildcard plain)
        cases parts
  | case6 c ident hostname plain ih =>
      rw [ih fun c member => unbroken c (List.mem_cons_of_mem _ member)]
      constructor
      · intro ends
        exact .letter (not_isWildcard plain) ends
      · intro ends
        obtain ⟨rest, parts, behind⟩ := ends.behind_letter (not_isWildcard plain)
        rw [(List.cons.inj parts).2]
        exact behind
  | case7 c ident h hostname plain differ =>
      constructor
      · rintro ⟨⟩
      · intro ends
        obtain ⟨rest, parts, _⟩ := ends.behind_letter (not_isWildcard plain)
        exact (differ (List.cons.inj parts).1.symm).elim

theorem obtained_mono {same other : UInt8 → UInt8 → Prop} (weaker : ∀ c h, same c h → other c h)
    {ident hostname : List UInt8} (obtained : Obtained same ident hostname) : Obtained other ident hostname := by
  induction obtained with
  | nil => exact .nil
  | wildcard label _ ih => exact .wildcard label ih
  | letter plain agree _ ih => exact .letter plain (weaker _ _ agree) ih

def MatchesAsDocumented (ident hostname : CString) : Prop :=
  ∃ accepted, sslMatchCertIdent ident hostname = some accepted ∧
    (accepted = true ↔ CertMatches ident.bytes hostname.bytes)

theorem certIdent_documented_iff (ident hostname : CString) :
    MatchesAsDocumented ident hostname ↔
      lower ident.bytes = lower hostname.bytes ∨
        ¬ EndsInWildcard ident.bytes hostname.bytes ∧ ¬ CaseDiffers ident.bytes hostname.bytes := by
  rw [MatchesAsDocumented, sslMatchCertIdent]
  by_cases equal : lower ident.bytes = lower hostname.bytes
  · rw [if_pos ⟨Cookies.lower_length_eq equal, equal⟩]
    exact iff_of_true ⟨true, rfl, iff_of_true rfl (.inl equal)⟩ (.inl equal)
  · have matches_iff : CertMatches ident.bytes hostname.bytes ↔ Obtained SameLetter ident.bytes hostname.bytes :=
      or_iff_right equal
    have exact_letters : Obtained Eq ident.bytes hostname.bytes → Obtained SameLetter ident.bytes hostname.bytes :=
      obtained_mono fun c h same => congrArg cTolower same
    rw [if_neg fun both => equal both.2, matches_iff, or_iff_right equal,
      ← matchIdent_none _ _ ident.unbroken, CaseDiffers, ← matchIdent_true _ _ ident.unbroken]
    rw [← matchIdent_true _ _ ident.unbroken] at exact_letters
    constructor
    · rintro ⟨accepted, result, rule⟩
      rw [result] at exact_letters ⊢
      refine ⟨by simp, ?_⟩
      rintro ⟨obtained, refused⟩
      exact refused (congrArg some (rule.mpr obtained))
    · rintro ⟨stays, agree⟩
      obtain ⟨accepted, result⟩ := Option.ne_none_iff_exists'.mp stays
      rw [result] at exact_letters agree
      refine ⟨accepted, result, ?_⟩
      constructor
      · intro holds
        exact exact_letters (congrArg some holds)
      · intro obtained
        by_contra refused
        exact agree ⟨obtained, fun holds => refused (Option.some.inj holds)⟩

/-- `*.` against `a`: the host name ends in the wildcard. -/
theorem certIdent_not_documented :
    ¬ MatchesAsDocumented ⟨[42, 46], by simp⟩ ⟨[97], by simp⟩ := by
  rintro ⟨accepted, result, _⟩
  have behind : sslMatchCertIdent ⟨[42, 46], by simp⟩ ⟨[97], by simp⟩ = none := by decide
  rw [behind] at result
  cases result

end KcnTools.W3m
