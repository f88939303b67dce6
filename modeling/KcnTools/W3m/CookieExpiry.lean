import KcnTools.W3m.Cookie

/-!
Expired cookies. The first cookie of the list is looked at once, so a second expired cookie
behind an expired first one becomes the head of the list and stays.
-/

namespace KcnTools.W3m

variable {config : CookieConfig} {now : Int}

theorem isExpired_eq_false {p : Cookie} : p.isExpired now = false ↔ p.expires = -1 ∨ now ≤ p.expires := by
  simp only [Cookie.isExpired, Bool.and_eq_false_iff, bne_eq_false_iff_eq, decide_eq_false_iff_not, Int.not_lt]

def unexpired (now : Int) (cookies : List Cookie) : List Cookie :=
  cookies.filter fun p => p.expires = -1 ∨ now ≤ p.expires

def OnlySessionsExpired (now : Int) (cookies : List Cookie) : Prop :=
  ∀ p ∈ cookies, p.expires ≠ -1 → p.expires < now → p.flag.discard = true

instance (now : Int) (cookies : List Cookie) : Decidable (OnlySessionsExpired now cookies) :=
  inferInstanceAs (Decidable (∀ p ∈ cookies, p.expires ≠ -1 → p.expires < now → p.flag.discard = true))

@[simp] theorem unexpired_nil : unexpired now [] = [] := rfl

@[simp] theorem onlySessionsExpired_nil : OnlySessionsExpired now [] := by
  rintro p ⟨⟩

theorem unexpired_cons {p : Cookie} (rest : List Cookie) :
    unexpired now (p :: rest) = if p.isExpired now then unexpired now rest else p :: unexpired now rest := by
  by_cases expired : p.isExpired now = true
  · have gone : ¬ (p.expires = -1 ∨ now ≤ p.expires) := by
      rw [← isExpired_eq_false]
      simp [expired]
    rw [if_pos expired, unexpired, List.filter_cons_of_neg (by simpa using gone), unexpired]
  · have stays := isExpired_eq_false.mp (eq_false_of_ne_true expired)
    rw [if_neg expired, unexpired, List.filter_cons_of_pos (by simpa using stays), unexpired]

theorem onlySessionsExpired_cons {p : Cookie} {rest : List Cookie} :
    OnlySessionsExpired now (p :: rest) ↔
      (p.isExpired now = true → p.flag.discard = true) ∧ OnlySessionsExpired now rest := by
  rw [OnlySessionsExpired, List.forall_mem_cons, OnlySessionsExpired]
  refine and_congr_left fun _ => ?_
  simp only [Cookie.isExpired, Bool.and_eq_true, bne_iff_ne, decide_eq_true_eq, and_imp]

theorem dropExpired_spec (isSaved : Bool) (cookies : List Cookie) :
    dropExpired now isSaved cookies =
      ⟨unexpired now cookies, isSaved && decide (OnlySessionsExpired now cookies)⟩ := by
  induction cookies generalizing isSaved with
  | nil => simp [dropExpired]
  | cons p rest ih =>
      rw [dropExpired, unexpired_cons]
      by_cases expired : p.isExpired now = true
      · rw [if_pos expired, if_pos expired, ih]
        simp [onlySessionsExpired_cons, expired, Bool.and_assoc]
      · rw [if_neg expired, if_neg expired, ih]
        simp [onlySessionsExpired_cons, expired]

def TwoExpiredAhead (now : Int) (cookies : List Cookie) : Prop :=
  ∃ p q rest, cookies = p :: q :: rest ∧ p.isExpired now = true ∧ q.isExpired now = true

theorem checkExpiredCookies_spec {jar : CookieJar} (ahead : ¬ TwoExpiredAhead now jar.cookies) :
    checkExpiredCookies now jar =
      ⟨unexpired now jar.cookies, jar.isSaved && decide (OnlySessionsExpired now jar.cookies)⟩ := by
  obtain ⟨cookies, isSaved⟩ := jar
  cases cookies with
  | nil => simp [checkExpiredCookies]
  | cons p rest =>
      by_cases expired : p.isExpired now = true
      · cases rest with
        | nil => simp [checkExpiredCookies, unexpired_cons, onlySessionsExpired_cons, expired]
        | cons q rest =>
            have stays : ¬ q.isExpired now = true := fun late => ahead ⟨p, q, rest, rfl, expired, late⟩
            simp [checkExpiredCookies, unexpired_cons, onlySessionsExpired_cons, expired, stays, dropExpired_spec,
              Bool.and_assoc]
      · simp [checkExpiredCookies, unexpired_cons, onlySessionsExpired_cons, expired, dropExpired_spec]

theorem mem_checkExpiredCookies {jar : CookieJar} {p : Cookie}
    (member : p ∈ (checkExpiredCookies now jar).cookies) : p ∈ jar.cookies := by
  have dropped : ∀ isSaved cookies, ∀ p ∈ (dropExpired now isSaved cookies).cookies, p ∈ cookies := by
    intro isSaved cookies p member
    rw [dropExpired_spec] at member
    exact List.mem_of_mem_filter member
  obtain ⟨cookies, isSaved⟩ := jar
  cases cookies with
  | nil => exact member
  | cons first rest =>
      simp only [checkExpiredCookies] at member
      split at member
      next found =>
        split at found
        · cases member
        · cases member
      next second later found =>
        have inside : ∀ q ∈ second :: later, q ∈ first :: rest := by
          intro q kept
          split at found
          · have whole : rest = second :: later := found
            exact List.mem_cons_of_mem _ (whole ▸ kept)
          · have whole : first :: rest = second :: later := found
            exact whole ▸ kept
        rcases List.mem_cons.mp member with rfl | later
        · exact inside _ List.mem_cons_self
        · exact inside _ (List.mem_cons_of_mem _ (dropped _ _ _ later))

theorem mem_selectCookies {pu : ParsedURL} {cookies : List Cookie} {p : Cookie}
    (sent : p ∈ selectCookies config pu cookies) :
    p ∈ cookies ∧ matchCookie config pu p (requestName config pu p) = true := by
  rw [selectCookies] at sent
  induction cookies using List.reverseRecOn with
  | nil => cases sent
  | append_singleton cookies last ih =>
      rw [List.foldl_append, List.foldl_cons, List.foldl_nil, selectCookie] at sent
      split at sent
      next passes =>
        simp only [Bool.and_eq_true] at passes
        rcases List.mem_cons.mp sent with rfl | earlier
        · exact ⟨List.mem_append_right _ List.mem_cons_self, passes.1.2⟩
        · exact ⟨List.mem_append_left _ (ih earlier).1, (ih earlier).2⟩
      next => exact ⟨List.mem_append_left _ (ih sent).1, (ih sent).2⟩

structure ExpiredGone (config : CookieConfig) (now : Int) (jar : CookieJar) : Prop where
  kept : (checkExpiredCookies now jar).cookies = jar.cookies.filter fun p => p.expires = -1 ∨ now ≤ p.expires
  saved : (checkExpiredCookies now jar).isSaved = (jar.isSaved && decide (OnlySessionsExpired now jar.cookies))
  sent : ∀ pu, ∀ p ∈ sentCookies config pu now jar, p.expires = -1 ∨ now ≤ p.expires
  written : ∀ noRcDir cookies, savedCookies noRcDir now jar = some cookies →
    ∀ p ∈ cookies, p.expires = -1 ∨ now ≤ p.expires

theorem expiredGone_iff (config : CookieConfig) (now : Int) (jar : CookieJar) :
    ExpiredGone config now jar ↔ ¬ TwoExpiredAhead now jar.cookies := by
  constructor
  · rintro gone ⟨p, q, rest, cookies, first, second⟩
    have head : q ∈ (checkExpiredCookies now jar).cookies := by
      simp [checkExpiredCookies, cookies, first]
    rw [gone.kept, List.mem_filter] at head
    have stays := isExpired_eq_false.mpr (of_decide_eq_true head.2)
    rw [second] at stays
    cases stays
  · intro ahead
    have checked := checkExpiredCookies_spec ahead
    have left : ∀ p ∈ (checkExpiredCookies now jar).cookies, p.expires = -1 ∨ now ≤ p.expires := by
      intro p member
      rw [checked] at member
      exact of_decide_eq_true (List.mem_filter.mp member).2
    refine ⟨congrArg CookieJar.cookies checked, congrArg CookieJar.isSaved checked, ?_, ?_⟩
    · intro pu p sent
      exact left p (mem_selectCookies sent).1
    · intro noRcDir cookies written p member
      rw [savedCookies] at written
      split at written
      · cases written
      · rw [← Option.some.inj written] at member
        exact left p (List.mem_of_mem_filter member)

def plainURL : ParsedURL :=
  ⟨.http, none, none, some [97], 80, [47], none, none, none, false⟩

def shortCookie : Cookie :=
  ⟨plainURL, [97], [98], 1, [47], [97], none, none, [], 0, ⟨true, false, false, false, false⟩⟩

def plainConfig : CookieConfig := ⟨fun _ => false, some, [], true, fun _ => []⟩

theorem expiredGone_two : ¬ ExpiredGone plainConfig 2 ⟨[shortCookie, shortCookie], true⟩ := by
  intro gone
  have left := gone.kept
  revert left
  decide

end KcnTools.W3m
