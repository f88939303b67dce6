import Mathlib.Data.List.TakeWhile
import KcnTools.Network.ConnectionQueue

/-!
What one pass of `check_queue` does: a connection is started where there is room, or a less urgent
one is suspended for it, and nothing more urgent could have been done.
-/

namespace KcnTools.Network

variable {Host : Type}

def Replaced (old new : Connection Host) (before after : List (Connection Host)) : Prop :=
  ∃ front back, before = front ++ old :: back ∧ after = front ++ new :: back

theorem Replaced.countP {old new : Connection Host} {before after : List (Connection Host)}
    (replaced : Replaced old new before after) (p : Connection Host → Bool) :
    after.countP p + (p old).toNat = before.countP p + (p new).toNat := by
  obtain ⟨front, back, rfl, rfl⟩ := replaced
  rw [List.countP_append, List.countP_append, List.countP_cons, List.countP_cons]
  cases p old <;> cases p new <;> simp <;> omega

theorem Replaced.map_eq {old new : Connection Host} {before after : List (Connection Host)}
    (replaced : Replaced old new before after) {β : Type} {view : Connection Host → β} (same : view new = view old) :
    after.map view = before.map view := by
  obtain ⟨front, back, rfl, rfl⟩ := replaced
  rw [List.map_append, List.map_append, List.map_cons, List.map_cons, same]

theorem Replaced.mem_after {old new c : Connection Host} {before after : List (Connection Host)}
    (replaced : Replaced old new before after) (member : c ∈ after) : c = new ∨ c ∈ before := by
  obtain ⟨front, back, rfl, rfl⟩ := replaced
  rw [List.mem_append, List.mem_cons] at member ⊢
  tauto

theorem Replaced.mem_before {old new c : Connection Host} {before after : List (Connection Host)}
    (replaced : Replaced old new before after) (member : c ∈ before) : c = old ∨ c ∈ after := by
  obtain ⟨front, back, rfl, rfl⟩ := replaced
  rw [List.mem_append, List.mem_cons] at member ⊢
  tauto

theorem Replaced.old_mem {old new : Connection Host} {before after : List (Connection Host)}
    (replaced : Replaced old new before after) : old ∈ before := by
  obtain ⟨front, back, rfl, rfl⟩ := replaced
  exact List.mem_append_right _ List.mem_cons_self

theorem replaced_modify {queue : List (Connection Host)} {index : Nat} {c : Connection Host}
    (here : queue[index]? = some c) (f : Connection Host → Connection Host) :
    Replaced c (f c) queue (queue.modify index f) := by
  induction queue generalizing index with
  | nil => cases here
  | cons d queue ih =>
      cases index with
      | zero =>
          rw [List.getElem?_cons_zero, Option.some.injEq] at here
          subst here
          exact ⟨[], queue, rfl, rfl⟩
      | succ index =>
          obtain ⟨front, back, first, second⟩ := ih here
          refine ⟨d :: front, back, ?_, ?_⟩
          · rw [first]
            rfl
          · rw [List.modify_succ_cons, second]
            rfl

def Sorted (queue : List (Connection Host)) : Prop :=
  queue.Pairwise fun first second => first.priority ≤ second.priority

/-! One try. -/

theorem Replaced.reverse {old new : Connection Host} {before after : List (Connection Host)}
    (replaced : Replaced old new before.reverse after) : Replaced old new before after.reverse := by
  obtain ⟨front, back, first, rfl⟩ := replaced
  refine ⟨back.reverse, front.reverse, ?_, ?_⟩
  · rw [← List.reverse_reverse before, first, List.reverse_append, List.reverse_cons, List.append_assoc]
    rfl
  · rw [List.reverse_append, List.reverse_cons, List.append_assoc]
    rfl

structure Suspendable (priority : Fin PRIORITIES) (host : Option Host) (victim : Connection Host) : Prop where
  running : victim.running = true
  unposted : ¬ (victim.post = true ∧ victim.priority < PRI_CANCEL)
  sameHost : host = none ∨ victim.host = host
  less : priority < victim.priority

variable [DecidableEq Host] {limits : Limits}

theorem suspendBack_some {priority : Fin PRIORITIES} {host : Option Host}
    {queue after : List (Connection Host)} {victim : Connection Host}
    (found : suspendBack priority host queue = some (after, victim)) :
    Suspendable priority host victim ∧ Replaced victim victim.suspend queue after := by
  induction queue generalizing after with
  | nil => cases found
  | cons c queue ih =>
      rw [suspendBack] at found
      split at found
      next => cases found
      next less =>
        split at found
        next =>
          obtain ⟨⟨rest, chosen⟩, later, same⟩ := Option.map_eq_some_iff.mp found
          rw [Prod.mk.injEq] at same
          obtain ⟨rfl, rfl⟩ := same
          obtain ⟨suspendable, front, back, first, second⟩ := ih later
          refine ⟨suspendable, c :: front, back, ?_, ?_⟩
          · rw [first]
            rfl
          · dsimp only at second ⊢
            rw [second]
            rfl
        next chosen =>
          rw [Option.some.injEq, Prod.mk.injEq] at found
          obtain ⟨rfl, rfl⟩ := found
          rw [not_or, not_or, Bool.not_eq_false] at chosen
          refine ⟨⟨chosen.1, chosen.2.1, ?_, Fin.not_le.mp less⟩, [], queue, rfl, rfl⟩
          by_cases any : host = none
          · exact .inl any
          · right
            by_contra other
            exact chosen.2.2 ⟨any, other⟩

theorem suspendBack_none {priority : Fin PRIORITIES} {host : Option Host} {queue : List (Connection Host)}
    (sorted : queue.Pairwise fun first second => second.priority ≤ first.priority)
    (nothing : suspendBack priority host queue = none) : ∀ c ∈ queue, ¬ Suspendable priority host c := by
  induction queue with
  | nil => nofun
  | cons d queue ih =>
      obtain ⟨first, rest⟩ := List.pairwise_cons.mp sorted
      rw [suspendBack] at nothing
      split at nothing
      next stop =>
        intro c member suspendable
        rcases List.mem_cons.mp member with rfl | later
        · exact absurd suspendable.less (Fin.not_lt.mpr stop)
        · exact absurd suspendable.less (Fin.not_lt.mpr (Fin.le_trans (first c later) stop))
      next =>
        split at nothing
        next skipped =>
          rw [Option.map_eq_none_iff] at nothing
          intro c member suspendable
          rcases List.mem_cons.mp member with rfl | later
          · rcases skipped with waiting | posted | ⟨named, other⟩
            · rw [suspendable.running] at waiting
              cases waiting
            · exact suspendable.unposted posted
            · exact suspendable.sameHost.elim named other
          · exact ih rest nothing c later suspendable
        next => cases nothing

structure Startable (limits : Limits) (queue : List (Connection Host)) (conn : Connection Host) : Prop where
  waiting : conn.running = false
  hostRoom : hostFull limits queue conn.host = false
  room : activeConnections queue < limits.maxConns

def Blocked (limits : Limits) (queue : List (Connection Host)) (conn : Connection Host) : Prop :=
  (hostFull limits queue conn.host = true ∧ ∀ c ∈ queue, ¬ Suspendable conn.priority conn.host c) ∨
    (limits.maxConns ≤ activeConnections queue ∧ ∀ c ∈ queue, ¬ Suspendable conn.priority none c)

inductive Tried (limits : Limits) (conn : Connection Host) (before : List (Connection Host)) :
    List (Connection Host) → Event Host → Prop
  | started {after : List (Connection Host)} : Startable limits before conn →
      Replaced conn conn.run before after → Tried limits conn before after (.started conn)
  | hostSuspended {after : List (Connection Host)} {victim : Connection Host} :
      hostFull limits before conn.host = true → Suspendable conn.priority conn.host victim →
      Replaced victim victim.suspend before after → Tried limits conn before after (.suspended victim conn)
  | suspended {after : List (Connection Host)} {victim : Connection Host} :
      hostFull limits before conn.host = false → limits.maxConns ≤ activeConnections before →
      Suspendable conn.priority none victim → Replaced victim victim.suspend before after →
      Tried limits conn before after (.suspended victim conn)

theorem tryToSuspend_some {conn : Connection Host} {host : Option Host} {queue after : List (Connection Host)}
    {event : Event Host} (found : tryToSuspendConnection conn host queue = some (after, event)) :
    ∃ victim, event = .suspended victim conn ∧ Suspendable conn.priority host victim ∧
      Replaced victim victim.suspend queue after := by
  obtain ⟨⟨reversed, victim⟩, chosen, same⟩ := Option.map_eq_some_iff.mp found
  rw [Prod.mk.injEq] at same
  obtain ⟨rfl, rfl⟩ := same
  obtain ⟨suspendable, replaced⟩ := suspendBack_some chosen
  exact ⟨victim, rfl, suspendable, replaced.reverse⟩

theorem tryToSuspend_none {conn : Connection Host} {host : Option Host} {queue : List (Connection Host)}
    (sorted : Sorted queue) (nothing : tryToSuspendConnection conn host queue = none) :
    ∀ c ∈ queue, ¬ Suspendable conn.priority host c := by
  intro c member
  refine suspendBack_none ?_ (Option.map_eq_none_iff.mp nothing) c (List.mem_reverse.mpr member)
  exact List.pairwise_reverse.mpr sorted

theorem tryConnection_some {queue after : List (Connection Host)} {index : Nat} {conn : Connection Host}
    {event : Event Host} (here : queue[index]? = some conn) (waiting : conn.running = false)
    (tried : tryConnection limits queue index conn = some (after, event)) :
    Tried limits conn queue after event := by
  rw [tryConnection] at tried
  split at tried
  next full =>
    obtain ⟨victim, rfl, suspendable, replaced⟩ := tryToSuspend_some tried
    exact .hostSuspended full suspendable replaced
  next hostRoom =>
    rw [Bool.not_eq_true] at hostRoom
    split at tried
    next full =>
      obtain ⟨victim, rfl, suspendable, replaced⟩ := tryToSuspend_some tried
      exact .suspended hostRoom full suspendable replaced
    next room =>
      rw [Option.some.injEq, Prod.mk.injEq] at tried
      obtain ⟨rfl, rfl⟩ := tried
      exact .started ⟨waiting, hostRoom, Nat.lt_of_not_le room⟩ (replaced_modify here _)

theorem tryConnection_none {queue : List (Connection Host)} (sorted : Sorted queue) {index : Nat}
    {conn : Connection Host} (tried : tryConnection limits queue index conn = none) :
    Blocked limits queue conn := by
  rw [tryConnection] at tried
  split at tried
  next full => exact .inl ⟨full, tryToSuspend_none sorted tried⟩
  next =>
    split at tried
    next full => exact .inr ⟨full, tryToSuspend_none sorted tried⟩
    next => cases tried

/-! One pass. -/

def StandsAt (queue : List (Connection Host)) (index : Nat) (group : List (Connection Host)) : Prop :=
  ∀ i c, group[i]? = some c → queue[index + i]? = some c

omit [DecidableEq Host] in
theorem StandsAt.tail {queue group : List (Connection Host)} {index : Nat} {conn : Connection Host}
    (stands : StandsAt queue index (conn :: group)) : StandsAt queue (index + 1) group := by
  intro i c here
  rw [Nat.add_assoc, Nat.add_comm 1 i]
  exact stands (i + 1) c here

omit [DecidableEq Host] in
theorem StandsAt.split {queue group tail : List (Connection Host)} {index : Nat}
    (stands : StandsAt queue index (group ++ tail)) :
    StandsAt queue index group ∧ StandsAt queue (index + group.length) tail := by
  constructor
  · intro i c here
    have inside := (List.getElem?_eq_some_iff.mp here).1
    exact stands i c (by rwa [List.getElem?_append_left inside])
  · intro i c here
    rw [Nat.add_assoc]
    exact stands (group.length + i) c (by
      rwa [List.getElem?_append_right (Nat.le_add_right _ _), Nat.add_sub_cancel_left])

theorem scanGroup_some {queue after group : List (Connection Host)} {wanted : Nat → Bool} {index : Nat}
    {event : Event Host} (stands : StandsAt queue index group)
    (scanned : scanGroup limits queue wanted index group = some (after, event)) :
    ∃ conn ∈ group, conn.running = false ∧ Tried limits conn queue after event := by
  induction group generalizing index with
  | nil => cases scanned
  | cons c group ih =>
      have later : scanGroup limits queue wanted (index + 1) group = some (after, event) →
          ∃ conn ∈ c :: group, conn.running = false ∧ Tried limits conn queue after event := by
        intro rest
        obtain ⟨conn, member, found⟩ := ih stands.tail rest
        exact ⟨conn, List.mem_cons_of_mem c member, found⟩
      rw [scanGroup] at scanned
      split at scanned
      next candidate =>
        rcases Option.or_eq_some_iff.mp scanned with tried | ⟨-, rest⟩
        · exact ⟨c, List.mem_cons_self, candidate.1,
            tryConnection_some (stands 0 c rfl) candidate.1 tried⟩
        · exact later rest
      next => exact later scanned

theorem scanGroup_none {queue group : List (Connection Host)} (sorted : Sorted queue) {index : Nat}
    (scanned : scanGroup limits queue (fun _ => true) index group = none) :
    ∀ conn ∈ group, conn.running = false → Blocked limits queue conn := by
  induction group generalizing index with
  | nil => nofun
  | cons c group ih =>
      rw [scanGroup] at scanned
      split at scanned
      next =>
        obtain ⟨tried, rest⟩ := Option.or_eq_none_iff.mp scanned
        intro conn member waiting
        rcases List.mem_cons.mp member with rfl | later
        · exact tryConnection_none sorted tried
        · exact ih rest conn later waiting
      next unwanted =>
        intro conn member waiting
        rcases List.mem_cons.mp member with rfl | later
        · exact absurd ⟨waiting, rfl⟩ unwanted
        · exact ih scanned conn later waiting

def FirstTried (limits : Limits) (queue : List (Connection Host)) (after : List (Connection Host))
    (event : Event Host) (among : List (Connection Host)) : Prop :=
  ∃ conn ∈ among, conn.running = false ∧ Tried limits conn queue after event ∧
    ∀ c ∈ among, c.running = false → c.priority < conn.priority → Blocked limits queue c

theorem scanQueue_spec {queue rest : List (Connection Host)} (sorted : Sorted queue) (keepalive : Nat → Bool)
    {fuel index : Nat} (enough : rest.length ≤ fuel) (sortedRest : Sorted rest) (stands : StandsAt queue index rest) :
    match scanQueue limits queue keepalive fuel index rest with
    | none => ∀ conn ∈ rest, conn.running = false → Blocked limits queue conn
    | some (after, event) => FirstTried limits queue after event rest := by
  induction fuel generalizing index rest with
  | zero =>
      rw [List.eq_nil_of_length_eq_zero (Nat.le_zero.mp enough), scanQueue]
      nofun
  | succ fuel ih =>
      cases rest with
      | nil =>
          rw [scanQueue]
          nofun
      | cons conn rest =>
          rw [scanQueue]
          obtain ⟨tail, split⟩ := List.takeWhile_prefix (l := conn :: rest)
            fun c : Connection Host => decide (c.priority = conn.priority)
          have filled : 0 < ((conn :: rest).takeWhile fun c => c.priority = conn.priority).length := by
            simp
          have same : ∀ c ∈ (conn :: rest).takeWhile fun c => c.priority = conn.priority,
              c.priority = conn.priority := fun c member => by simpa using List.mem_takeWhile_imp member
          generalize (conn :: rest).takeWhile (fun c => c.priority = conn.priority) = group at *
          have least : ∀ c ∈ conn :: rest, conn.priority ≤ c.priority :=
            List.forall_mem_cons.mpr ⟨Fin.le_refl _, (List.pairwise_cons.mp sortedRest).1⟩
          have dropped : (conn :: rest).drop group.length = tail :=
            (congrArg (List.drop group.length) split.symm).trans List.drop_left
          have length := congrArg List.length split
          rw [List.length_append, List.length_cons] at length
          rw [List.length_cons] at enough
          rw [← split] at stands sortedRest least
          obtain ⟨standsGroup, standsTail⟩ := stands.split
          have early : ∀ c ∈ conn :: rest, ∀ chosen ∈ group, ¬ c.priority < chosen.priority := by
            intro c member chosen inside less
            rw [same chosen inside] at less
            exact absurd less (Fin.not_lt.mpr (least c (split ▸ member)))
          rw [dropped]
          have inGroup : ∀ {wanted : Nat → Bool} {after : List (Connection Host)} {event : Event Host},
              scanGroup limits queue wanted index group = some (after, event) →
              FirstTried limits queue after event (conn :: rest) := by
            intro wanted after event found
            obtain ⟨chosen, member, waiting, tried⟩ := scanGroup_some standsGroup found
            exact ⟨chosen, split ▸ List.mem_append_left _ member, waiting, tried,
              fun c inside _ less => absurd less (early c inside chosen member)⟩
          cases first : scanGroup limits queue keepalive index group with
          | some found => exact inGroup first
          | none =>
              rw [Option.none_or]
              cases second : scanGroup limits queue (fun _ => true) index group with
              | some found => exact inGroup second
              | none =>
                  rw [Option.none_or]
                  have blocked := scanGroup_none sorted second
                  have later := @ih tail (index + group.length) (by omega)
                    (List.pairwise_append.mp sortedRest).2.1 standsTail
                  split
                  next nothing =>
                    rw [nothing] at later
                    intro c member waiting
                    rcases List.mem_append.mp (split ▸ member) with inside | behind
                    · exact blocked c inside waiting
                    · exact later c behind waiting
                  next after event found =>
                    rw [found] at later
                    obtain ⟨chosen, member, waiting, tried, firstOne⟩ := later
                    refine ⟨chosen, split ▸ List.mem_append_right _ member, waiting, tried, ?_⟩
                    intro c inside waiting' less
                    rcases List.mem_append.mp (split ▸ inside) with inside | behind
                    · exact blocked c inside waiting'
                    · exact firstOne c behind waiting' less

end KcnTools.Network
