import KcnTools.Cookies.CookieDomain
import KcnTools.W3m.CookieExpiry

/-!
Where the pager sends a cookie: to the host that set it, and below its domain. A host that
starts with a dot is stored as a domain without the checks of a domain attribute.
-/

namespace KcnTools.W3m

open Cookies (lower cTolower_eq_dot lower_append drop_of_append lower_length_eq)
open Protocols (cTolower isdigit)

def quadAt : Nat → List UInt8 → Bool
  | 0, s => (s.takeWhile isdigit).length != 0
  | dots + 1, s =>
      (s.takeWhile isdigit).length != 0 &&
        match s.dropWhile isdigit with
        | 46 :: rest => quadAt dots rest
        | _ => false

def dottedQuad (s : List UInt8) : Bool := s.tails.any (quadAt 3)

def EndsWith (s tail : List UInt8) : Prop := ∃ front rest, s = front ++ rest ∧ lower rest = lower tail

def BelowDomain (domain host : List UInt8) : Prop := EndsWith host domain ∨ lower host = lower domain.tail

/-- An embedded dot, and for a cookie of version 0 two dots before a listed top level
domain, or three. -/
def EnoughDots (version : Int) (domain : List UInt8) : Prop :=
  46 ∈ domain.tail ∧
    (version = 0 → 3 ≤ domain.count 46 ∨ 2 ≤ domain.count 46 ∧ ∃ top ∈ specialDomain, EndsWith domain top)

/-- The cookie that `setter` set with this domain may go to `host`. -/
structure StaysInDomain (isAddress : List UInt8 → Bool) (version : Int) (setter domain host : List UInt8) : Prop where
  scope : lower host = lower setter ∨
    domain.head? = some 46 ∧ BelowDomain domain setter ∧ BelowDomain domain host ∧ EnoughDots version domain ∨
    lower domain = localDomain ∧ 46 ∉ setter ∧ 46 ∉ host
  address : isAddress setter = true ∨ isAddress host = true → lower host = lower domain

section Matching

theorem endsWith_iff {s tail : List UInt8} : endsWith s tail = true ↔ EndsWith s tail := by
  simp only [endsWith, Bool.and_eq_true, decide_eq_true_eq, beq_iff_eq]
  constructor
  · rintro ⟨_, same⟩
    exact ⟨_, _, (List.take_append_drop _ s).symm, same⟩
  · rintro ⟨front, rest, rfl, same⟩
    have length := lower_length_eq same
    rw [drop_of_append length, List.length_append]
    exact ⟨by omega, same⟩

theorem lower_head_dot {s : List UInt8} (dot : (lower s).head? = some 46) : s.head? = some 46 := by
  cases s with
  | nil => cases dot
  | cons c s =>
      have first : cTolower c = 46 := Option.some.inj dot
      rw [(cTolower_eq_dot c).mp first]
      rfl

theorem lower_mem_dot {s : List UInt8} : 46 ∈ lower s ↔ 46 ∈ s := by
  rw [lower, List.mem_map]
  constructor
  · rintro ⟨c, member, dot⟩
    exact (cTolower_eq_dot c).mp dot ▸ member
  · intro member
    exact ⟨46, member, rfl⟩

theorem lower_eq_dot {s : List UInt8} (dot : lower s = [46]) : s = [46] := by
  cases s with
  | nil => cases dot
  | cons c rest =>
      obtain ⟨first, behind⟩ := List.cons.inj dot
      rw [(cTolower_eq_dot c).mp first, List.map_eq_nil_iff.mp behind]

theorem containNoDots_iff {s : List UInt8} : containNoDots s = true ↔ 46 ∉ s := by
  rw [containNoDots, totalDotNumber, beq_iff_eq, ← List.count_eq_zero]
  omega

/-- A host without an address matches a domain in one of four ways. -/
inductive NameMatch (host domain : List UInt8) : Prop
  | all (dot : domain = [46])
  | here (dot : lower domain = localDomain) (plain : 46 ∉ host)
  | below (dot : domain.head? = some 46) (other : lower domain ≠ localDomain) (below : BelowDomain domain host)
  | same (plain : domain.head? ≠ some 46) (same : lower host = lower domain)

variable {isAddress : List UInt8 → Bool}

theorem domainMatch_cases {host domain : List UInt8} (found : (domainMatch isAddress host domain).isSome = true) :
    isAddress host = true ∧ isAddress domain = true ∧ lower host = lower domain ∨
      isAddress host = false ∧ isAddress domain = false ∧ NameMatch host domain := by
  rw [domainMatch] at found
  split at found
  next both =>
    rw [Bool.and_eq_true] at both
    split at found
    next same => exact .inl ⟨both.1, both.2, same⟩
    next => cases found
  next =>
    split at found
    next neither =>
      simp only [Bool.and_eq_true, Bool.not_eq_true'] at neither
      refine .inr ⟨neither.1, neither.2, ?_⟩
      split at found
      next wide =>
        split at found
        next matched =>
          rcases wide with dot | dot
          · exact .all (lower_eq_dot dot)
          · have long : ¬ domain.length = 1 := by
              rw [lower_length_eq (t := localDomain) (by rw [dot]; rfl)]
              decide
            simp only [Bool.or_eq_true, decide_eq_true_eq, long, false_or] at matched
            exact .here dot (containNoDots_iff.mp matched)
        next => cases found
      next narrow =>
        rw [not_or] at narrow
        split at found
        next bare => exact .below bare.1 narrow.2 (.inr bare.2)
        next =>
          by_cases dot : domain.head? = some 46
          · simp only [dot, ↓reduceIte] at found
            split at found
            next tail => exact .below dot narrow.2 (.inl ⟨_, _, (List.take_append_drop _ host).symm, tail.2⟩)
            next => cases found
          · simp only [dot, ↓reduceIte] at found
            split at found
            next whole => exact .same dot whole.2
            next => cases found
    next => cases found

end Matching

section Setting

variable {config : CookieConfig} {request : CookieRequest}

theorem except_bind_ok {ε α β : Type} {x : Except ε α} {f : α → Except ε β} {b : β} :
    x.bind f = .ok b ↔ ∃ a, x = .ok a ∧ f a = .ok b := by
  cases x with
  | error err => simp [Except.bind]
  | ok a => simp [Except.bind]

theorem cookieError_ok (strict : request.override = false) (err : CookieError) (failed : Bool) :
    request.cookieError err failed = .ok () ↔ failed = false := by
  cases failed <;> simp [CookieRequest.cookieError, strict]

structure DomainChecked (config : CookieConfig) (version : Int) (domainname domain : List UInt8) : Prop where
  dots : version = 0 → 3 ≤ domain.count 46 ∨ 2 ≤ domain.count 46 ∧ ∃ top ∈ specialDomain, EndsWith domain top
  embedded : version ≠ 0 → lower domain = localDomain ∨ 46 ∈ domain.tail
  matched : (domainMatch config.isAddress domainname domain).isSome = true

theorem checkDots_checked (strict : request.override = false) (none : config.avoidWrongNumberOfDots = [])
    {domain : List UInt8} (passes : request.checkDots config domain = .ok ()) :
    (request.version = 0 → 3 ≤ domain.count 46 ∨
      2 ≤ domain.count 46 ∧ ∃ top ∈ specialDomain, EndsWith domain top) ∧
      (request.version ≠ 0 → lower domain = localDomain ∨ 46 ∈ domain.tail) := by
  have exempt : checkAvoidWrongNumberOfDotsDomain config domain = false := by
    rw [checkAvoidWrongNumberOfDotsDomain, none]
    rfl
  rw [CookieRequest.checkDots] at passes
  split at passes
  next zero =>
    refine ⟨fun _ => ?_, fun other => (other zero).elim⟩
    have count : totalDotNumber domain 3 = min (domain.count 46) 3 := rfl
    dsimp only at passes
    split at passes
    next few =>
      rw [cookieError_ok strict, exempt] at passes
      cases passes
    next =>
      split at passes
      next two =>
        rw [cookieError_ok strict, exempt] at passes
        simp only [Bool.not_false, Bool.and_true, Bool.not_eq_false', List.any_eq_true] at passes
        obtain ⟨top, listed, ends⟩ := passes
        exact .inr ⟨by omega, top, listed, endsWith_iff.mp ends⟩
      next => exact .inl (by omega)
  next other =>
    refine ⟨fun zero => (other zero).elim, fun _ => ?_⟩
    rw [cookieError_ok strict, Bool.and_eq_false_iff, bne_eq_false_iff_eq] at passes
    refine passes.imp id fun dots => ?_
    rw [← List.drop_one]
    by_contra free
    rw [containNoDots_iff.mpr free] at dots
    cases dots

theorem checkDomain_checked (strict : request.override = false) (none : config.avoidWrongNumberOfDots = [])
    {domainname domain : List UInt8} (passes : request.checkDomain config domainname (some domain) = .ok ()) :
    DomainChecked config request.version domainname domain := by
  obtain ⟨_, dots, rest⟩ := except_bind_ok.mp passes
  obtain ⟨_, matched, _⟩ := except_bind_ok.mp rest
  obtain ⟨zero, other⟩ := checkDots_checked strict none dots
  rw [cookieError_ok strict, Option.isNone_eq_false_iff] at matched
  exact ⟨zero, other, matched⟩

def CookieRequest.storedDomain (request : CookieRequest) (domainname : List UInt8) : List UInt8 :=
  (request.domain.map (dottedDomain request.version domainname)).getD domainname

structure SetBy (config : CookieConfig) (request : CookieRequest) (p : Cookie) : Prop where
  made : ∃ domainname use path portl, request.domainname config = some domainname ∧
    request.checkDomain config domainname (request.domain.map (dottedDomain request.version domainname)) = .ok () ∧
      p = request.cookie use (request.storedDomain domainname) path portl

theorem mem_modify_index {cookies : List Cookie} {change : Cookie → Cookie} {index : Nat} {p : Cookie}
    (member : p ∈ cookies.modify index change) : p ∈ cookies ∨ ∃ old, p = change old := by
  induction cookies generalizing index with
  | nil => simp at member
  | cons first rest ih =>
      cases index with
      | zero =>
          rw [List.modify_zero_cons] at member
          rcases List.mem_cons.mp member with rfl | later
          · exact .inr ⟨first, rfl⟩
          · exact .inl (List.mem_cons_of_mem _ later)
      | succ index =>
          rw [List.modify_succ_cons] at member
          rcases List.mem_cons.mp member with rfl | later
          · exact .inl List.mem_cons_self
          · exact (ih later).imp (List.mem_cons_of_mem _) id

theorem addCookie_cookies {now : Int} {jar after : CookieJar} (added : addCookie config request now jar = .ok after)
    {p : Cookie} (member : p ∈ after.cookies) : p ∈ jar.cookies ∨ SetBy config request p := by
  rw [addCookie] at added
  split at added
  next => cases added
  next domainname known =>
    obtain ⟨_, checked, rest⟩ := except_bind_ok.mp added
    obtain ⟨_, _, rest⟩ := except_bind_ok.mp rest
    obtain ⟨portl, _, stored⟩ := except_bind_ok.mp rest
    rw [← Except.ok.inj stored] at member
    have inside := mem_checkExpiredCookies member
    have made : ∀ use path, SetBy config request (request.cookie use (request.storedDomain domainname) path portl) :=
      fun use path => ⟨domainname, use, path, portl, known, checked, rfl⟩
    simp only [CookieRequest.store] at inside
    split at inside
    next index found =>
      rcases mem_modify_index inside with old | ⟨old, rfl⟩
      · exact .inl old
      · exact .inr (made _ _)
    next =>
      rcases List.mem_cons.mp inside with rfl | old
      · exact .inr (made _ _)
      · exact .inl old

end Setting

section Runs

inductive CookieEvent where
  | add (request : CookieRequest) (now : Int)
  | find (pu : ParsedURL) (now : Int)

variable (config : CookieConfig)

def cookieStep (jar : CookieJar) : CookieEvent → CookieJar
  | .add request now =>
      match addCookie config request now jar with
      | .ok jar => jar
      | .error _ => jar
  | .find pu now => (findCookie config pu now jar).2

def runCookies (events : List CookieEvent) : CookieJar := events.foldl (cookieStep config) ⟨[], true⟩

def SetIn (events : List CookieEvent) (p : Cookie) : Prop :=
  ∃ request now, .add request now ∈ events ∧ SetBy config request p

variable {config}

theorem cookieStep_cookies {jar : CookieJar} {event : CookieEvent} {p : Cookie}
    (member : p ∈ (cookieStep config jar event).cookies) : p ∈ jar.cookies ∨ SetIn config [event] p := by
  cases event with
  | add request now =>
      rw [cookieStep] at member
      split at member
      next after added =>
        exact (addCookie_cookies added member).imp id fun made => ⟨request, now, List.mem_singleton_self _, made⟩
      next => exact .inl member
  | find pu now => exact .inl (mem_checkExpiredCookies member)

theorem runCookies_set {events : List CookieEvent} {p : Cookie} (member : p ∈ (runCookies config events).cookies) :
    SetIn config events p := by
  induction events using List.reverseRecOn with
  | nil => cases member
  | append_singleton events event ih =>
      rw [runCookies, List.foldl_append, List.foldl_cons, List.foldl_nil] at member
      rcases cookieStep_cookies member with old | ⟨request, now, last, made⟩
      · obtain ⟨request, now, earlier, made⟩ := ih old
        exact ⟨request, now, List.mem_append_left _ earlier, made⟩
      · exact ⟨request, now, List.mem_append_right _ last, made⟩

def FqdnKeeps (config : CookieConfig) (pu : ParsedURL) : Prop := ∀ host, pu.host = some host → config.fqdn host =
    some host

/-- A request without a domain attribute does not come from a host that reads as a domain
with too few dots. -/
def NarrowHost (isAddress : List UInt8 → Bool) (request : CookieRequest) : Prop :=
  ∀ host, request.domain = none → request.pu.host = some host → host.head? = some 46 →
    isAddress host = true ∨ EnoughDots request.version host

theorem below_self (domain : List UInt8) : BelowDomain domain domain := .inl ⟨[], domain, rfl, rfl⟩

theorem host_stays {isAddress : List UInt8 → Bool} {version : Int} {setter host : List UInt8}
    (narrow : setter.head? = some 46 → isAddress setter = true ∨ EnoughDots version setter)
    (matched : (domainMatch isAddress host setter).isSome = true) :
    StaysInDomain isAddress version setter setter host := by
  rcases domainMatch_cases matched with ⟨_, _, same⟩ | ⟨plain, unnumbered, name⟩
  · exact ⟨.inl same, fun _ => same⟩
  · have dots : setter.head? = some 46 → EnoughDots version setter := fun dot =>
      (narrow dot).resolve_left (by simp [unnumbered])
    refine ⟨?_, by simp [plain, unnumbered]⟩
    cases name with
    | all dot =>
        rw [dot] at dots
        cases (dots rfl).1
    | here dot _ =>
        have head : setter.head? = some 46 := lower_head_dot (by rw [dot]; rfl)
        have embedded : 46 ∈ (lower setter).tail := by
          rw [lower, ← List.map_tail]
          exact lower_mem_dot.mpr (dots head).1
        rw [dot] at embedded
        simp [localDomain] at embedded
    | below dot _ below => exact .inr (.inl ⟨dot, below_self setter, below, dots dot⟩)
    | same _ same => exact .inl same

theorem domain_stays {version : Int} {setter domain host : List UInt8}
    (checked : DomainChecked config version setter domain)
    (matched : (domainMatch config.isAddress host domain).isSome = true) :
    StaysInDomain config.isAddress version setter domain host := by
  rcases domainMatch_cases matched with ⟨_, numbered, same⟩ | ⟨plain, unnumbered, name⟩
  · rcases domainMatch_cases checked.matched with ⟨_, _, setterSame⟩ | ⟨_, other, _⟩
    · exact ⟨.inl (same.trans setterSame.symm), fun _ => same⟩
    · rw [numbered] at other
      cases other
  · rcases domainMatch_cases checked.matched with ⟨_, other, _⟩ | ⟨setterPlain, _, setterName⟩
    · rw [unnumbered] at other
      cases other
    · refine ⟨?_, by simp [plain, setterPlain]⟩
      have notAll : domain ≠ [46] := by
        rintro rfl
        by_cases zero : version = 0
        · have few := checked.dots zero
          simp at few
        · have none := checked.embedded zero
          simp [localDomain, lower] at none
      have localHead : lower domain = localDomain → domain.head? = some 46 := fun dot =>
        lower_head_dot (by rw [dot]; rfl)
      cases name with
      | all dot => exact (notAll dot).elim
      | here dot hostPlain =>
          refine .inr (.inr ⟨dot, ?_, hostPlain⟩)
          cases setterName with
          | all dot => exact (notAll dot).elim
          | here _ setterPlain => exact setterPlain
          | below _ other => exact (other dot).elim
          | same plain => exact (plain (localHead dot)).elim
      | below dot other below =>
          refine .inr (.inl ⟨dot, ?_, below, ?_, checked.dots⟩)
          · cases setterName with
            | all dot => exact (notAll dot).elim
            | here dot => exact (other dot).elim
            | below _ _ setterBelow => exact setterBelow
            | same plain => exact (plain dot).elim
          · by_cases zero : version = 0
            · have many : 2 ≤ domain.count 46 := by
                rcases checked.dots zero with three | ⟨two, _⟩ <;> omega
              obtain ⟨rest, rfl⟩ := List.head?_eq_some_iff.mp dot
              rw [List.count_cons_self] at many
              exact List.count_pos_iff.mp (by rw [List.tail_cons]; omega)
            · exact (checked.embedded zero).resolve_left other
      | same plain same =>
          cases setterName with
          | all dot => exact (notAll dot).elim
          | here dot => exact (plain (localHead dot)).elim
          | below dot => exact (plain dot).elim
          | same _ setterSame => exact .inl (same.trans setterSame.symm)

def quadConfig : CookieConfig := ⟨dottedQuad, some, [], true, fun _ => []⟩

def requestTo (host : List UInt8) : ParsedURL := { plainURL with host := some host }

def sessionRequest (host : List UInt8) : CookieRequest :=
  ⟨requestTo host, [97], [98], -1, none, none, false, false, false, none, 0, none, none⟩

def sessionCookie (host : List UInt8) : Cookie := (sessionRequest host).cookie true host [] []

def domainRequest : CookieRequest :=
  { sessionRequest [120, 46, 98, 46, 99, 111, 109] with domain := some [46, 98, 46, 99, 111, 109] }

end Runs

end KcnTools.W3m
