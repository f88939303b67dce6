import KcnTools.Cookies.CookieStore
import Mathlib.Data.List.Nodup

/-!
The cookie servers. There is one for each host without regard to case, and its count is the
number of the cookies that came from it.
-/

namespace KcnTools.Cookies

variable {servers : List CookieServer} {jar : CookieJar}

structure ServersOk (servers : List CookieServer) : Prop where
  distinct : (servers.map fun server => lower server.host).Nodup
  used : ∀ server ∈ servers, 0 < server.refcount

def users : List CookieServer → List UInt8 → Nat
  | [], _ => 0
  | server :: rest, host => (if server.host = host then server.refcount else 0) + users rest host

def cookiesFrom (cookies : List Cookie) (host : List UInt8) : Nat := cookies.countP fun c => c.server = host

structure CountedServers (jar : CookieJar) : Prop where
  ok : ServersOk jar.servers
  noQueries : jar.queries = []
  counted : ∀ host, users jar.servers host = cookiesFrom jar.cookies host

theorem users_append (first second : List CookieServer) (host : List UInt8) :
    users (first ++ second) host = users first host + users second host := by
  induction first with
  | nil => simp [users]
  | cons server rest ih => rw [List.cons_append, users, users, ih, Nat.add_assoc]

theorem users_pos {host : List UInt8} (positive : 0 < users servers host) :
    ∃ server ∈ servers, server.host = host := by
  induction servers with
  | nil => cases positive
  | cons server rest ih =>
      by_cases here : server.host = host
      · exact ⟨server, List.mem_cons_self, here⟩
      · rw [users, if_neg here, Nat.zero_add] at positive
        obtain ⟨other, member, same⟩ := ih positive
        exact ⟨other, List.mem_cons_of_mem _ member, same⟩

theorem ServersOk.users_of_mem (ok : ServersOk servers) {server : CookieServer} (member : server ∈ servers) :
    0 < users servers server.host := by
  obtain ⟨before, after, rfl⟩ := List.append_of_mem member
  have positive := ok.used server member
  rw [users_append, users, if_pos rfl]
  omega

theorem ServersOk.unique (ok : ServersOk servers) {host other : List UInt8} (first : 0 < users servers host)
    (second : 0 < users servers other) (same : lower host = lower other) : host = other := by
  obtain ⟨server, member, rfl⟩ := users_pos first
  obtain ⟨another, also, rfl⟩ := users_pos second
  rw [List.inj_on_of_nodup_map ok.distinct member also same]

theorem users_modify {index : Nat} {server : CookieServer} (here : servers[index]? = some server)
    (host : List UInt8) :
    users (servers.modify index fun server => { server with refcount := server.refcount + 1 }) host =
      users servers host + if host = server.host then 1 else 0 := by
  induction servers generalizing index with
  | nil => simp at here
  | cons head rest ih =>
      cases index with
      | zero =>
          rw [List.getElem?_cons_zero, Option.some.injEq] at here
          subst here
          rw [List.modify_zero_cons, users, users]
          by_cases same : head.host = host
          · rw [if_pos same, if_pos same, if_pos same.symm]
            simp only
            omega
          · rw [if_neg same, if_neg same, if_neg fun equal => same equal.symm]
            omega
      | succ index =>
          rw [List.getElem?_cons_succ] at here
          rw [List.modify_succ_cons, users, users, ih here, Nat.add_assoc]

theorem ServersOk.get (ok : ServersOk servers) (host : List UInt8) :
    ServersOk (getCookieServer servers host).2 ∧
      ((getCookieServer servers host).1 = host ∨
        0 < users servers (getCookieServer servers host).1 ∧
          lower (getCookieServer servers host).1 = lower host) ∧
      ∀ other, users (getCookieServer servers host).2 other =
        users servers other + if other = (getCookieServer servers host).1 then 1 else 0 := by
  rw [getCookieServer]
  split
  next missing =>
    rw [List.findIdx?_eq_none_iff] at missing
    refine ⟨⟨?_, ?_⟩, .inl rfl, ?_⟩
    · rw [List.map_append, List.nodup_append]
      refine ⟨ok.distinct, by simp, ?_⟩
      intro before member after also same
      obtain ⟨server, inside, rfl⟩ := List.mem_map.mp member
      rw [List.map_singleton, List.mem_singleton] at also
      exact of_decide_eq_false (missing server inside) (same.trans also)
    · intro server member
      rcases List.mem_append.mp member with older | last
      · exact ok.used server older
      · rw [List.mem_singleton.mp last]
        exact Nat.one_pos
    · intro other
      rw [users_append]
      by_cases same : host = other
      · rw [users, users, if_pos same, if_pos same.symm]
      · rw [users, users, if_neg same, if_neg fun equal => same equal.symm]
  next index found =>
    obtain ⟨inside, matching, _⟩ := List.findIdx?_eq_some_iff_getElem.mp found
    have here : servers[index]? = some servers[index] := List.getElem?_eq_getElem inside
    have chosen : (servers.map CookieServer.host).getD index [] = servers[index].host := by
      rw [List.getD_eq_getElem?_getD, List.getElem?_map, here]
      rfl
    simp only [chosen]
    refine ⟨⟨?_, ?_⟩, .inr ⟨?_, of_decide_eq_true matching⟩, users_modify here⟩
    · have sameHosts : (servers.modify index fun server => { server with refcount := server.refcount + 1 }).map
          (fun server => lower server.host) = servers.map fun server => lower server.host := by
        apply List.ext_getElem?
        intro other
        rw [List.getElem?_map, List.getElem?_modify, List.getElem?_map]
        cases servers[other]? with
        | none => rfl
        | some server =>
            by_cases same : index = other <;> simp [same]
      rw [sameHosts]
      exact ok.distinct
    · intro server member
      obtain ⟨other, there⟩ := List.mem_iff_getElem?.mp member
      rw [List.getElem?_modify] at there
      obtain ⟨before, old, rfl⟩ := Option.map_eq_some_iff.mp there
      have positive := ok.used before (List.mem_of_getElem? old)
      split
      · exact Nat.succ_pos _
      · exact positive
    · exact ok.users_of_mem (List.getElem_mem inside)

theorem users_done (ok : ServersOk servers) {host : List UInt8} (positive : 0 < users servers host) :
    ServersOk (doneCookieServer servers host) ∧
      ∀ other, users (doneCookieServer servers host) other + (if other = host then 1 else 0) =
        users servers other := by
  induction servers with
  | nil => cases positive
  | cons server rest ih =>
      have distinct := ok.distinct
      rw [List.map_cons, List.nodup_cons] at distinct
      have restOk : ServersOk rest := ⟨distinct.2, fun other member => ok.used other (List.mem_cons_of_mem _ member)⟩
      by_cases here : server.host = host
      · subst here
        have elsewhere : users rest server.host = 0 := by
          by_contra some
          obtain ⟨other, member, same⟩ := users_pos (Nat.pos_of_ne_zero some)
          exact distinct.1 (List.mem_map.mpr ⟨other, member, by rw [same]⟩)
        have untouched : doneCookieServer rest server.host = rest := by
          rw [doneCookieServer, List.filterMap_congr, List.filterMap_some]
          intro other member
          rw [if_neg]
          intro same
          exact distinct.1 (List.mem_map.mpr ⟨other, member, by rw [same]⟩)
        have used := ok.used server List.mem_cons_self
        rw [doneCookieServer, List.filterMap_cons, if_pos rfl]
        by_cases last : server.refcount - 1 = 0
        · rw [if_pos last]
          change ServersOk (doneCookieServer rest server.host) ∧ ∀ other, users (doneCookieServer rest _) other + _ = _
          rw [untouched]
          refine ⟨restOk, fun other => ?_⟩
          rw [users]
          by_cases same : server.host = other
          · subst same
            rw [if_pos rfl, if_pos rfl]
            omega
          · rw [if_neg same, if_neg fun equal => same equal.symm]
            omega
        · rw [if_neg last]
          change ServersOk (_ :: doneCookieServer rest server.host) ∧
            ∀ other, users (_ :: doneCookieServer rest _) other + _ = _
          rw [untouched]
          refine ⟨⟨ok.distinct, ?_⟩, fun other => ?_⟩
          · rw [List.forall_mem_cons]
            exact ⟨Nat.pos_of_ne_zero last, restOk.used⟩
          · rw [users, users]
            by_cases same : server.host = other
            · subst same
              rw [if_pos rfl, if_pos rfl, if_pos rfl]
              simp only
              omega
            · rw [if_neg same, if_neg same, if_neg fun equal => same equal.symm]
              omega
      · rw [users, if_neg here, Nat.zero_add] at positive
        obtain ⟨later, counts⟩ := ih restOk positive
        rw [doneCookieServer, List.filterMap_cons, if_neg here]
        change ServersOk (server :: doneCookieServer rest host) ∧
          ∀ other, users (server :: doneCookieServer rest host) other + _ = _
        refine ⟨⟨?_, ?_⟩, fun other => ?_⟩
        · rw [List.map_cons, List.nodup_cons]
          refine ⟨?_, later.distinct⟩
          intro member
          obtain ⟨other, inside, same⟩ := List.mem_map.mp member
          have counted := counts other.host
          have some := later.users_of_mem inside
          obtain ⟨before, there, equal⟩ := @users_pos rest other.host (by omega)
          exact distinct.1 (List.mem_map.mpr ⟨before, there, by rw [equal, same]⟩)
        · rw [List.forall_mem_cons]
          exact ⟨ok.used server List.mem_cons_self, later.used⟩
        · rw [users, users, ← counts other, Nat.add_assoc]

theorem cookiesFrom_cons (c : Cookie) (cookies : List Cookie) (host : List UInt8) :
    cookiesFrom (c :: cookies) host = cookiesFrom cookies host + if host = c.server then 1 else 0 := by
  rw [cookiesFrom, List.countP_cons, cookiesFrom]
  by_cases same : host = c.server
  · simp [same]
  · have apart : ¬ c.server = host := fun equal => same equal.symm
    simp [same, apart]

theorem users_doneCookies (ok : ServersOk servers) {cookies : List Cookie}
    (held : ∀ host, cookiesFrom cookies host ≤ users servers host) :
    ServersOk (doneCookies servers cookies) ∧
      ∀ host, users (doneCookies servers cookies) host + cookiesFrom cookies host = users servers host := by
  induction cookies generalizing servers with
  | nil => exact ⟨ok, fun host => rfl⟩
  | cons c rest ih =>
      have positive : 0 < users servers c.server := by
        have bound := held c.server
        rw [cookiesFrom_cons, if_pos rfl] at bound
        omega
      obtain ⟨nextOk, counts⟩ := users_done ok positive
      have nextHeld : ∀ host, cookiesFrom rest host ≤ users (doneCookieServer servers c.server) host := by
        intro host
        have bound := held host
        have count := counts host
        rw [cookiesFrom_cons] at bound
        omega
      obtain ⟨lastOk, lastCounts⟩ := ih nextOk nextHeld
      refine ⟨lastOk, fun host => ?_⟩
      have count := counts host
      have last := lastCounts host
      rw [cookiesFrom_cons]
      change users (doneCookies (doneCookieServer servers c.server) rest) host + _ = _
      omega

theorem countedServers_empty : CountedServers emptyJar where
  ok := ⟨List.nodup_nil, fun _ member => absurd member List.not_mem_nil⟩
  noQueries := rfl
  counted _ := rfl

theorem cookiesFrom_partition (cookies : List Cookie) (p : Cookie → Bool) (host : List UInt8) :
    cookiesFrom (cookies.filter p) host + cookiesFrom (cookies.filter fun c => !p c) host =
      cookiesFrom cookies host := by
  rw [cookiesFrom, cookiesFrom, cookiesFrom]
  exact (List.countP_eq_countP_filter_add cookies _ p).symm

theorem CountedServers.accept (counted : CountedServers jar) {more : List CookieServer} (ok : ServersOk more)
    (loading : Bool) {cookie : Cookie}
    (users : ∀ host, users more host = users jar.servers host + if host = cookie.server then 1 else 0) :
    CountedServers (acceptCookie loading { jar with servers := more } cookie) := by
  cases loading with
  | true =>
      refine ⟨ok, counted.noQueries, fun host => ?_⟩
      change Cookies.users more host = cookiesFrom (cookie :: jar.cookies) host
      rw [cookiesFrom_cons, users, counted.counted]
  | false =>
      have parts := cookiesFrom_partition jar.cookies (isDuplicate cookie)
      have held : ∀ host, cookiesFrom (jar.cookies.filter (isDuplicate cookie)) host ≤ Cookies.users more host := by
        intro host
        have part := parts host
        rw [users, counted.counted]
        omega
      obtain ⟨lastOk, counts⟩ := users_doneCookies ok held
      refine ⟨lastOk, counted.noQueries, fun host => ?_⟩
      change Cookies.users (doneCookies more (jar.cookies.filter (isDuplicate cookie))) host =
        cookiesFrom (cookie :: jar.cookies.filter fun other => !isDuplicate cookie other) host
      have count := counts host
      have part := parts host
      rw [users, counted.counted] at count
      rw [cookiesFrom_cons]
      omega

theorem CountedServers.users_pos (counted : CountedServers jar) {c : Cookie} (member : c ∈ jar.cookies) :
    0 < users jar.servers c.server := by
  rw [counted.counted]
  exact List.countP_pos_iff.mpr ⟨c, member, decide_eq_true rfl⟩

theorem CountedServers.clear (counted : CountedServers jar) : clearCookies jar = emptyJar := by
  obtain ⟨ok, counts⟩ := users_doneCookies counted.ok fun host => Nat.le_of_eq (counted.counted host).symm
  rw [clearCookies, counted.noQueries]
  change CookieJar.mk [] [] [] (doneCookies jar.servers jar.cookies) = emptyJar
  rw [emptyJar]
  congr 1
  rw [List.eq_nil_iff_forall_not_mem]
  intro server member
  have some := ok.users_of_mem member
  have count := counts server.host
  rw [counted.counted] at count
  omega

end KcnTools.Cookies
