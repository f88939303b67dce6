import KcnTools.Cookies.CookieStore

/-!
For which domains a host can set a cookie. The test for setting drops a second leading dot and
does not look at the byte of the host before the domain.
-/

namespace KcnTools.Cookies

open Protocols

def leadingDot (domain : List UInt8) : List UInt8 := domain.take (domain.length - (dropDot domain).length)

def beforeDomain (domain host : List UInt8) : List UInt8 :=
  host.take (host.length - (dropDot domain).length)

/-- An accepted domain starts at a label of the host; one of an address is the address. -/
def StartsAtLabel (isIpAddress : List UInt8 → Bool) (paranoidSecurity : Bool) (domain host : List UInt8) : Prop :=
  isDomainSecurityOk isIpAddress paranoidSecurity domain host = true →
    (beforeDomain domain host = leadingDot domain ∨ (46 :: leadingDot domain) <:+ beforeDomain domain host) ∧
      (isIpAddress host = true → domain = host)

theorem dropDot_cases (domain : List UInt8) :
    (dropDot domain = domain ∧ leadingDot domain = []) ∨ domain = 46 :: dropDot domain ∧ leadingDot domain = [46] := by
  cases domain with
  | nil => exact .inl ⟨rfl, rfl⟩
  | cons c rest =>
      by_cases dot : c = 46
      · subst dot
        exact .inr ⟨rfl, by simp [leadingDot, dropDot]⟩
      · have kept : dropDot (c :: rest) = c :: rest := by
          rw [dropDot]
          intro other same
          exact dot (List.cons.inj same).1
        exact .inl ⟨kept, by simp [leadingDot, kept]⟩

theorem leadingDot_append (domain : List UInt8) : leadingDot domain ++ dropDot domain = domain := by
  rcases dropDot_cases domain with ⟨same, nothing⟩ | ⟨dotted, dot⟩
  · rw [nothing, same]
    rfl
  · rw [dot]
    exact dotted.symm

theorem lower_eq_dots {dots s : List UInt8} (all : ∀ c ∈ dots, c = 46) : lower s = dots ↔ s = dots := by
  induction s generalizing dots with
  | nil =>
      cases dots with
      | nil => simp [lower]
      | cons => simp [lower]
  | cons c s ih =>
      cases dots with
      | nil => simp [lower]
      | cons dot dots =>
          rw [List.forall_mem_cons] at all
          obtain ⟨rfl, rest⟩ := all
          rw [lower, List.map_cons, List.cons.injEq, cTolower_eq_dot, List.cons.injEq, ← lower, ih rest]

theorem lower_leadingDot (domain : List UInt8) : lower (leadingDot domain) = leadingDot domain := by
  rcases dropDot_cases domain with ⟨_, nothing⟩ | ⟨_, dot⟩
  · rw [nothing]
    rfl
  · rw [dot]
    rfl

theorem leadingDot_dots (domain : List UInt8) : ∀ c ∈ leadingDot domain, c = 46 := by
  rcases dropDot_cases domain with ⟨_, nothing⟩ | ⟨_, dot⟩
  · simp [nothing]
  · simp [dot]

theorem isDomainSecurityOk_host {isIpAddress : List UInt8 → Bool} {paranoidSecurity : Bool}
    {domain host : List UInt8} (ok : isDomainSecurityOk isIpAddress paranoidSecurity domain host = true) :
    ∃ rest, host = beforeDomain domain host ++ rest ∧ lower rest = lower (dropDot domain) := by
  rw [isDomainSecurityOk] at ok
  split at ok
  · cases ok
  split at ok
  · cases ok
  next same =>
    rw [ne_eq, Decidable.not_not] at same
    exact ⟨_, (List.take_append_drop _ host).symm, same.symm⟩

theorem belowDomain_iff {domain host rest : List UInt8} (split : host = beforeDomain domain host ++ rest)
    (same : lower rest = lower (dropDot domain)) :
    BelowDomain domain host ↔
      beforeDomain domain host = leadingDot domain ∨ (46 :: leadingDot domain) <:+ beforeDomain domain host := by
  generalize beforeDomain domain host = before at split
  subst split
  have whole : lower domain = leadingDot domain ++ lower rest := by
    rw [same, ← lower_leadingDot, ← lower_append, leadingDot_append]
  rw [BelowDomain, whole, lower_append]
  apply or_congr
  · rw [List.append_cancel_right_eq]
    exact lower_eq_dots (leadingDot_dots domain)
  · constructor
    · rintro ⟨front, back, equal, lowered⟩
      obtain ⟨middle, rfl⟩ : ∃ middle, back = middle ++ rest := by
        have longer : rest.length ≤ back.length := by
          have lengths := congrArg List.length lowered
          simp at lengths
          omega
        have suffix : rest <:+ front ++ 46 :: back := ⟨before, equal⟩
        have tail : back <:+ front ++ 46 :: back := ⟨front ++ [46], by simp⟩
        obtain ⟨middle, joined⟩ := List.suffix_of_suffix_length_le suffix tail longer
        exact ⟨middle, joined.symm⟩
      rw [lower_append, List.append_cancel_right_eq, lower_eq_dots (leadingDot_dots domain)] at lowered
      subst lowered
      rw [← List.cons_append, ← List.append_assoc, List.append_cancel_right_eq] at equal
      exact ⟨front, equal.symm⟩
    · rintro ⟨front, rfl⟩
      refine ⟨front, leadingDot domain ++ rest, by simp, ?_⟩
      rw [lower_append, lower_leadingDot]

theorem belowDomain_self (host : List UInt8) : BelowDomain host host := .inl rfl

/-- The domain of a cookie is the host or a domain that the host is in, exactly when the domain
that is asked for starts at a label. -/
theorem makeCookie_belowDomain_iff (options : CookiesOptions) (outside : CookiesOutside)
    (server : List UInt8) (uri : Uri) (str : List UInt8) {cookie : Cookie}
    (made : makeCookie options outside server uri str = some cookie) :
    (BelowDomain cookie.domain (uriHost uri) ∧ isInDomain cookie.domain (uriHost uri) = true ∧
        (outside.isIpAddress (uriHost uri) = true → cookie.domain = uriHost uri)) ↔
      StartsAtLabel outside.isIpAddress options.paranoidSecurity (askedDomain uri str) (uriHost uri) := by
  have domain : cookie.domain = cookieDomain options outside uri str := by
    obtain ⟨_, _, rfl⟩ := Option.map_eq_some_iff.mp made
    rfl
  rw [domain, isInDomain_iff, ← and_assoc, and_self, cookieDomain, StartsAtLabel]
  split
  next ok =>
    obtain ⟨rest, split, same⟩ := isDomainSecurityOk_host ok
    rw [belowDomain_iff split same]
    constructor
    · intro fits _
      exact fits
    · intro fits
      exact fits ok
  next rejected =>
    constructor
    · intro _ ok
      exact absurd ok rejected
    · intro _
      exact ⟨belowDomain_self _, fun _ => rfl⟩

def evilUri : Uri :=
  { string := ascii ['h', 't', 't', 'p', ':', '/', '/', 'e', 'v', 'i', 'l', 'e', 'x', 'a', 'm', 'p', 'l', 'e', '.',
      'c', 'o', 'm', '/']
    protocol := .http, ipFamily := 0, user := none, password := none, host := some 7, port := none, data := 23
    fragment := none, post := none, protocollen := 4, userlen := 0, passwordlen := 0, hostlen := 15, portlen := 0
    datalen := 0, fragmentlen := 0, ipv6 := false }

def exampleCookie : List UInt8 :=
  ascii ['a', '=', 'b', ';', ' ', 'd', 'o', 'm', 'a', 'i', 'n', '=', 'e', 'x', 'a', 'm', 'p', 'l', 'e', '.', 'c', 'o',
    'm']

def acceptAll : CookiesOptions := ⟨.all, -1, false⟩

def nowhere : CookiesOutside := ⟨fun _ => false, fun _ => 0, 0⟩

def wwwUri : Uri :=
  { evilUri with
    string := ascii ['h', 't', 't', 'p', ':', '/', '/', 'w', 'w', 'w', '.', 'e', 'x', 'a', 'm', 'p', 'l', 'e', '.',
      'c', 'o', 'm', '/'] }

/-- The host `www.example.com` may set a cookie for `example.com`. -/
theorem makeCookie_belowDomain_iff_parent :
    ∃ cookie, makeCookie acceptAll nowhere (uriHost wwwUri) wwwUri exampleCookie = some cookie ∧
      cookie.domain = ascii ['e', 'x', 'a', 'm', 'p', 'l', 'e', '.', 'c', 'o', 'm'] ∧
      BelowDomain cookie.domain (uriHost wwwUri) := by
  have below := makeCookie_belowDomain_iff acceptAll nowhere (uriHost wwwUri) wwwUri exampleCookie rfl
  refine ⟨_, rfl, by decide +kernel, (below.mpr ?_).1⟩
  intro _
  exact ⟨.inr ⟨[119, 119, 119], by decide +kernel⟩, fun address => absurd address Bool.false_ne_true⟩

/-- The host `evilexample.com` sets a cookie for `example.com`. -/
theorem makeCookie_notBelowDomain :
    parseUri (fun _ => false) evilUri.string = .ok evilUri ∧
      ∃ cookie, makeCookie acceptAll nowhere (uriHost evilUri) evilUri exampleCookie = some cookie ∧
        cookie.domain = ascii ['e', 'x', 'a', 'm', 'p', 'l', 'e', '.', 'c', 'o', 'm'] ∧
        ¬ BelowDomain cookie.domain (uriHost evilUri) := by
  refine ⟨by decide +kernel, _, rfl, by decide +kernel, ?_⟩
  rw [← isInDomain_iff]
  decide +kernel

end KcnTools.Cookies
