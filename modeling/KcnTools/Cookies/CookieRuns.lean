import KcnTools.Cookies.CookieStore

/-!
The cookie list over whole runs: which duplicates it can have, which domains are known, and
what is sent.
-/

namespace KcnTools.Cookies

open Protocols

def SameKey (c d : Cookie) : Prop := lower c.name = lower d.name ∧ lower c.domain = lower d.domain

instance (c d : Cookie) : Decidable (SameKey c d) := inferInstanceAs (Decidable (_ ∧ _))

def Due (uri : Uri) (now : Int) (c : Cookie) : Prop :=
  BelowDomain c.domain (uriHost uri) ∧ c.path <+: uriPath uri ∧ (c.expires = 0 ∨ now < c.expires) ∧
    (c.secure = true → uri.protocol = .https)

def isDue (uri : Uri) (now : Int) (c : Cookie) : Bool :=
  isInDomain c.domain (uriHost uri) && isPathPrefix c.path (uriPath uri) &&
    !(c.expires ≠ 0 && c.expires ≤ now) && !(c.secure && uri.protocol ≠ .https)

/-- Matching cookies that have expired are deleted instead. -/
def isExpired (uri : Uri) (now : Int) (c : Cookie) : Bool :=
  isInDomain c.domain (uriHost uri) && isPathPrefix c.path (uriPath uri) && (c.expires ≠ 0 && c.expires ≤ now)

def cookiePair (c : Cookie) : List UInt8 := c.name ++ 61 :: c.value

theorem isPathPrefix_iff (d s : List UInt8) : isPathPrefix d s = true ↔ d <+: s := by
  rw [isPathPrefix, Bool.and_eq_true, decide_eq_true_eq, decide_eq_true_eq, List.prefix_iff_eq_take]
  constructor
  · exact And.right
  · intro taken
    refine ⟨?_, taken⟩
    rw [taken, List.length_take]
    omega

theorem isDue_iff (uri : Uri) (now : Int) (c : Cookie) : isDue uri now c = true ↔ Due uri now c := by
  rw [isDue, Due, Bool.and_eq_true, Bool.and_eq_true, Bool.and_eq_true, isInDomain_iff, isPathPrefix_iff, and_assoc,
    and_assoc]
  refine and_congr Iff.rfl (and_congr Iff.rfl (and_congr ?_ ?_))
  · by_cases zero : c.expires = 0 <;> simp [zero]
  · cases c.secure <;> simp

instance (uri : Uri) (now : Int) : DecidablePred (Due uri now) := fun c =>
  decidable_of_iff _ (isDue_iff uri now c)

section Sending

variable {uri : Uri} {now : Int}

def addPair (header : List UInt8) (c : Cookie) : List UInt8 :=
  (if header.length ≠ 0 then header ++ [59, 32] else header) ++ cookiePair c

theorem sendLoop_eq (cookies : List Cookie) (header : List UInt8) :
    sendLoop uri now cookies header =
      (cookies.filter fun c => !isExpired uri now c, cookies.filter (isExpired uri now),
        (cookies.filter (isDue uri now)).foldl addPair header) := by
  induction cookies generalizing header with
  | nil => rfl
  | cons c rest ih =>
      rw [sendLoop]
      split
      next elsewhere =>
        have noMatch : isExpired uri now c = false ∧ isDue uri now c = false := by
          rw [Bool.or_eq_true, Bool.not_eq_true', Bool.not_eq_true'] at elsewhere
          rw [isExpired, isDue]
          rcases elsewhere with outside | outside
          · simp [outside]
          · simp [outside]
        simp [ih, noMatch]
      next here =>
        rw [Bool.not_eq_true, Bool.or_eq_false_iff, Bool.not_eq_false', Bool.not_eq_false'] at here
        split
        next old =>
          have expired : isExpired uri now c = true ∧ isDue uri now c = false := by
            simp [isExpired, isDue, here, old]
          simp [ih, expired]
        next fresh =>
          have young : isExpired uri now c = false := by
            simp only [isExpired, here, Bool.and_self, Bool.true_and]
            simpa using fresh
          split
          next hidden =>
            have withheld : isDue uri now c = false := by simp [isDue, hidden]
            simp [ih, young, withheld]
          next shown =>
            have due : isDue uri now c = true := by
              simp only [isDue, here, Bool.and_self, Bool.true_and, Bool.and_eq_true, Bool.not_eq_true']
              refine ⟨by simpa using fresh, ?_⟩
              cases secure : c.secure <;> simp_all
            simp only [ih, young, due, List.filter_cons, Bool.not_false, ↓reduceIte, List.foldl_cons, addPair,
              cookiePair, List.append_assoc, Bool.false_eq_true]

theorem foldl_addPair {header : List UInt8} (some : header.length ≠ 0) (cookies : List Cookie) :
    cookies.foldl addPair header = header ++ cookies.flatMap fun c => [59, 32] ++ cookiePair c := by
  induction cookies generalizing header with
  | nil => simp
  | cons c rest ih =>
      have longer : (addPair header c).length ≠ 0 := by simp [addPair, cookiePair]
      rw [List.foldl_cons, ih longer, addPair, if_pos some, List.flatMap_cons, List.append_assoc, List.append_assoc,
        List.append_assoc]

theorem foldl_addPair_nil (cookies : List Cookie) :
    cookies.foldl addPair [] = [59, 32].intercalate (cookies.map cookiePair) := by
  cases cookies with
  | nil => rfl
  | cons c rest =>
      have some : (cookiePair c).length ≠ 0 := by simp [cookiePair]
      rw [List.foldl_cons]
      change rest.foldl addPair (cookiePair c) = _
      rw [foldl_addPair some]
      induction rest generalizing c with
      | nil => simp [List.intercalate]
      | cons d rest ih =>
          have next := ih d (by simp [cookiePair])
          rw [List.flatMap_cons, List.append_assoc, next]
          simp [List.intercalate]

theorem foldl_addPair_length (cookies : List Cookie) : (cookies.foldl addPair []).length = 0 ↔ cookies = [] := by
  cases cookies with
  | nil => simp
  | cons c rest =>
      have some : (cookiePair c).length ≠ 0 := by simp [cookiePair]
      rw [List.foldl_cons]
      change (rest.foldl addPair (cookiePair c)).length = 0 ↔ _
      rw [foldl_addPair some, List.length_append]
      constructor
      · intro nothing
        omega
      · intro impossible
        cases impossible

end Sending

/-- `loaded` are the cookies that the last load put into the list. -/
structure CookieSession where
  jar : CookieJar
  loaded : List Cookie

inductive CookieOperation
  | setCookie (options : CookiesOptions) (outside : CookiesOutside) (uri : Uri) (str : List UInt8)
  | acceptCookie (cookie : Cookie)
  | sendCookies (uri : Uri) (now : Int)
  | loadCookies (file : Option (List UInt8)) (now : Int)
  | doneCookies

def cookieStep (session : CookieSession) : CookieOperation → CookieSession
  | .setCookie options outside uri str => { session with jar := setCookie options outside session.jar uri str }
  | .acceptCookie cookie => { session with jar := acceptCookie false session.jar cookie }
  | .sendCookies uri now => { session with jar := (sendCookies session.jar uri now).1 }
  | .loadCookies file now =>
      let jar := loadCookies session.jar file now
      ⟨jar, jar.cookies⟩
  | .doneCookies => ⟨clearCookies session.jar, []⟩

def runCookies (operations : List CookieOperation) : CookieSession := operations.foldl cookieStep ⟨emptyJar, []⟩

def DomainsListed (jar : CookieJar) : Prop :=
  ∀ c ∈ jar.cookies, ∃ domain ∈ jar.domains, lower domain = lower c.domain

def OnlyLoadedTwice (cookies loaded : List Cookie) : Prop :=
  ∃ recent old, cookies = recent ++ old ∧ old.Sublist loaded ∧
    recent.Pairwise (fun c d => ¬ SameKey c d) ∧ ∀ c ∈ recent, ∀ d ∈ old, ¬ SameKey c d

structure ConsistentCookies (session : CookieSession) : Prop where
  listed : DomainsListed session.jar
  apart : OnlyLoadedTwice session.jar.cookies session.loaded

section Steps

variable {jar : CookieJar} {cookies loaded : List Cookie}

theorem isDuplicate_iff (c d : Cookie) : isDuplicate c d = true ↔ SameKey d c := by
  rw [isDuplicate, Bool.and_eq_true, decide_eq_true_eq, decide_eq_true_eq, SameKey]

theorem DomainsListed.accept (listed : DomainsListed jar) (loading : Bool) (cookie : Cookie) :
    DomainsListed (acceptCookie loading jar cookie) := by
  have kept : ∀ domain ∈ jar.domains, domain ∈ (acceptCookie loading jar cookie).domains := by
    intro domain member
    rw [acceptCookie]
    simp only
    split
    · exact member
    · exact List.mem_cons_of_mem _ member
  intro c member
  rcases List.mem_cons.mp member with rfl | older
  · rw [acceptCookie]
    simp only
    split
    next known =>
      obtain ⟨domain, there, same⟩ := List.any_eq_true.mp known
      exact ⟨domain, there, of_decide_eq_true same⟩
    next => exact ⟨_, List.mem_cons_self, rfl⟩
  · have before : c ∈ jar.cookies := by
      cases loading with
      | true => exact older
      | false => exact List.mem_of_mem_filter older
    obtain ⟨domain, there, same⟩ := listed c before
    exact ⟨domain, kept domain there, same⟩

theorem OnlyLoadedTwice.filter (apart : OnlyLoadedTwice cookies loaded) (p : Cookie → Bool) :
    OnlyLoadedTwice (cookies.filter p) loaded := by
  obtain ⟨recent, old, rfl, sublist, distinct, across⟩ := apart
  refine ⟨recent.filter p, old.filter p, List.filter_append .., ?_, ?_, ?_⟩
  · exact List.Sublist.trans List.filter_sublist sublist
  · exact List.Pairwise.sublist List.filter_sublist distinct
  · intro c inRecent d inOld
    exact across c (List.mem_of_mem_filter inRecent) d (List.mem_of_mem_filter inOld)

theorem OnlyLoadedTwice.cons (apart : OnlyLoadedTwice cookies loaded) {cookie : Cookie}
    (fresh : ∀ c ∈ cookies, ¬ SameKey cookie c) : OnlyLoadedTwice (cookie :: cookies) loaded := by
  obtain ⟨recent, old, rfl, sublist, distinct, across⟩ := apart
  rw [List.forall_mem_append] at fresh
  refine ⟨cookie :: recent, old, rfl, sublist, ?_, ?_⟩
  · exact List.pairwise_cons.mpr ⟨fresh.1, distinct⟩
  · rw [List.forall_mem_cons]
    exact ⟨fresh.2, across⟩

theorem OnlyLoadedTwice.accept (apart : OnlyLoadedTwice jar.cookies loaded) (cookie : Cookie) :
    OnlyLoadedTwice (acceptCookie false jar cookie).cookies loaded := by
  apply (apart.filter fun other => !isDuplicate cookie other).cons
  intro c member same
  have weeded := List.of_mem_filter member
  rw [Bool.not_eq_true', ← Bool.not_eq_true, isDuplicate_iff] at weeded
  exact weeded ⟨same.1.symm, same.2.symm⟩

theorem loadLine_listed (listed : DomainsListed jar) (now : Int) (line : List UInt8) :
    DomainsListed (loadLine now jar line) := by
  rw [loadLine]
  split
  · simp only
    split
    · exact listed
    · apply DomainsListed.accept
      exact listed
  · exact listed

theorem loadCookies_listed (jar : CookieJar) (file : Option (List UInt8)) (now : Int) :
    DomainsListed (loadCookies jar file now) := by
  have cleared : DomainsListed (clearCookies jar) := fun c member => absurd member List.not_mem_nil
  cases file with
  | none => exact cleared
  | some file =>
      exact List.foldlRecOn _ _ cleared fun jar listed line _ => loadLine_listed listed now line

theorem setCookie_cases (options : CookiesOptions) (outside : CookiesOutside) (uri : Uri) (str : List UInt8) :
    (setCookie options outside jar uri str).cookies = jar.cookies ∧
        (setCookie options outside jar uri str).domains = jar.domains ∨
      ∃ servers cookie, setCookie options outside jar uri str = acceptCookie false { jar with servers } cookie := by
  rw [setCookie]
  split
  · exact .inl ⟨rfl, rfl⟩
  · simp only
    split
    · exact .inl ⟨rfl, rfl⟩
    · split
      · exact .inl ⟨rfl, rfl⟩
      · exact .inr ⟨_, _, rfl⟩

theorem sendCookies_jar (uri : Uri) (now : Int) :
    (sendCookies jar uri now).1.domains = jar.domains ∧
      ∃ p, (sendCookies jar uri now).1.cookies = jar.cookies.filter p := by
  have all : jar.cookies = jar.cookies.filter fun _ => true := by simp
  rw [sendCookies]
  split
  · exact ⟨rfl, _, all⟩
  · split
    · rw [sendLoop_eq]
      exact ⟨rfl, _, rfl⟩
    · exact ⟨rfl, _, all⟩

theorem ConsistentCookies.step {session : CookieSession} (consistent : ConsistentCookies session)
    (operation : CookieOperation) : ConsistentCookies (cookieStep session operation) := by
  obtain ⟨listed, apart⟩ := consistent
  cases operation with
  | setCookie options outside uri str =>
      rcases setCookie_cases options outside uri str with ⟨sameCookies, sameDomains⟩ | ⟨servers, cookie, accepts⟩
      · constructor
        · rw [DomainsListed, cookieStep, sameCookies, sameDomains]
          exact listed
        · rw [cookieStep, sameCookies]
          exact apart
      · constructor
        · rw [cookieStep, accepts]
          apply DomainsListed.accept
          exact listed
        · rw [cookieStep, accepts]
          apply OnlyLoadedTwice.accept
          exact apart
  | acceptCookie cookie => exact ⟨listed.accept false cookie, apart.accept cookie⟩
  | sendCookies uri now =>
      obtain ⟨sameDomains, p, kept⟩ := @sendCookies_jar session.jar uri now
      constructor
      · intro c member
        rw [cookieStep, kept] at member
        rw [cookieStep, sameDomains]
        exact listed c (List.mem_of_mem_filter member)
      · rw [cookieStep, kept]
        exact apart.filter p
  | loadCookies file now =>
      refine ⟨loadCookies_listed session.jar file now, [], _, rfl, List.Sublist.refl _, List.Pairwise.nil, ?_⟩
      intro c impossible
      cases impossible
  | doneCookies =>
      refine ⟨fun c member => absurd member List.not_mem_nil, [], [], rfl, List.Sublist.refl _, List.Pairwise.nil, ?_⟩
      intro c impossible
      cases impossible

theorem runCookies_consistent (operations : List CookieOperation) : ConsistentCookies (runCookies operations) := by
  apply List.foldlRecOn operations cookieStep
  · refine ⟨fun c member => absurd member List.not_mem_nil, [], [], rfl, List.Sublist.refl _, List.Pairwise.nil, ?_⟩
    intro c impossible
    cases impossible
  · intro session consistent operation _
    exact consistent.step operation

theorem sendCookies_header (listed : DomainsListed jar) (uri : Uri) (now : Int) :
    (sendCookies jar uri now).2 =
      if uri.host = none ∨ jar.cookies.filter (fun c => Due uri now c) = [] then none
      else some ([59, 32].intercalate ((jar.cookies.filter fun c => Due uri now c).map cookiePair)) := by
  have sameFilter : (jar.cookies.filter fun c => Due uri now c) = jar.cookies.filter (isDue uri now) := by
    apply List.filter_congr
    intro c _
    rw [Bool.eq_iff_iff, decide_eq_true_eq]
    exact (isDue_iff uri now c).symm
  rw [sendCookies, sameFilter]
  by_cases hostless : uri.host = none
  · rw [if_pos hostless, if_pos (.inl hostless)]
  · rw [if_neg hostless]
    split
    · rw [sendLoop_eq]
      simp only [foldl_addPair_length]
      by_cases nothing : jar.cookies.filter (isDue uri now) = []
      · rw [if_pos nothing, if_pos (.inr nothing)]
      · rw [if_neg nothing, if_neg (not_or.mpr ⟨hostless, nothing⟩), foldl_addPair_nil]
    next unknown =>
      rw [if_pos]
      refine .inr (List.filter_eq_nil_iff.mpr ?_)
      intro c member due
      obtain ⟨domain, there, same⟩ := listed c member
      apply unknown
      rw [List.any_eq_true]
      refine ⟨domain, there, ?_⟩
      have matching := ((isDue_iff uri now c).mp due).1
      rw [isInDomain_iff, BelowDomain, same]
      exact matching

end Steps

/-- Every run keeps the list consistent, and what is sent are the cookies that are due, in order. -/
theorem runCookies_sends (operations : List CookieOperation) :
    let session := runCookies operations
    OnlyLoadedTwice session.jar.cookies session.loaded ∧ DomainsListed session.jar ∧
      ∀ uri now, (sendCookies session.jar uri now).2 =
        if uri.host = none ∨ session.jar.cookies.filter (fun c => Due uri now c) = [] then none
        else some ([59, 32].intercalate ((session.jar.cookies.filter fun c => Due uri now c).map cookiePair)) := by
  intro session
  have consistent := runCookies_consistent operations
  exact ⟨consistent.apart, consistent.listed, sendCookies_header consistent.listed⟩

def savedLine : List UInt8 := [97, 9, 98, 9, 104, 9, 47, 9, 104, 9, 57, 9, 48, 10]

/-- A file with the same line twice. -/
theorem runCookies_loadedTwice :
    ¬ (runCookies [.loadCookies (some (savedLine ++ savedLine)) 0]).jar.cookies.Pairwise
      fun c d => ¬ SameKey c d := by
  decide +kernel

end KcnTools.Cookies
