import Mathlib.Algebra.Order.BigOperators.Group.List
import Mathlib.Algebra.Order.Ring.Nat
import Mathlib.Data.DFinsupp.WellFounded
import KcnTools.Network.QueueSteps

/-!
`check_queue` stops: what a suspension makes room for is started before anything less urgent, so the
running connections get more urgent, unless there were too many of them.
-/

namespace KcnTools.Network

variable {Host : Type} {limits : Limits} {conn victim : Connection Host}
  {before after : List (Connection Host)} {event : Event Host}

/-! Counts. -/

theorem count_suspend (replaced : Replaced victim victim.suspend before after) (running : victim.running = true)
    (p : Connection Host → Bool) :
    after.countP (fun c => c.running && p c) + (if p victim then 1 else 0) =
      before.countP fun c => c.running && p c := by
  have counts := replaced.countP fun c => c.running && p c
  rw [running, Bool.true_and, Connection.suspend, Bool.false_and] at counts
  split
  next same =>
    rw [same] at counts
    exact counts
  next other =>
    rw [Bool.not_eq_true] at other
    rw [other] at counts
    exact counts

theorem count_run (replaced : Replaced conn conn.run before after) (waiting : conn.running = false)
    {p : Connection Host → Bool} (kept : p conn.run = p conn) :
    after.countP (fun c => c.running && p c) =
      before.countP (fun c => c.running && p c) + if p conn then 1 else 0 := by
  have counts := replaced.countP fun c => c.running && p c
  rw [waiting, kept, Connection.run, Bool.true_and, Bool.false_and] at counts
  split
  next same =>
    rw [same] at counts
    exact counts
  next other =>
    rw [Bool.not_eq_true] at other
    rw [other] at counts
    exact counts

def runningAt (queue : List (Connection Host)) (priority : Nat) : Nat :=
  queue.countP fun c => c.running && c.priority.val = priority

theorem active_suspend (replaced : Replaced victim victim.suspend before after) (running : victim.running = true) :
    activeConnections after + 1 = activeConnections before := by
  have counts := count_suspend replaced running fun _ => true
  simpa only [activeConnections, Bool.and_true, if_true] using counts

theorem active_run (replaced : Replaced conn conn.run before after) (waiting : conn.running = false) :
    activeConnections after = activeConnections before + 1 := by
  have counts := @count_run _ _ _ _ replaced waiting (fun _ => true) rfl
  simpa only [activeConnections, Bool.and_true, if_true] using counts

theorem runningAt_suspend (replaced : Replaced victim victim.suspend before after) (running : victim.running = true)
    (priority : Nat) :
    runningAt after priority + (if victim.priority.val = priority then 1 else 0) = runningAt before priority := by
  simpa only [runningAt, decide_eq_true_eq] using count_suspend replaced running fun c => c.priority.val = priority

theorem runningAt_run (replaced : Replaced conn conn.run before after) (waiting : conn.running = false)
    (priority : Nat) :
    runningAt after priority = runningAt before priority + if conn.priority.val = priority then 1 else 0 := by
  simpa only [runningAt, decide_eq_true_eq] using
    @count_run _ _ _ _ replaced waiting (fun c => c.priority.val = priority) rfl

variable [DecidableEq Host]

theorem host_suspend (replaced : Replaced victim victim.suspend before after) (running : victim.running = true)
    (host : Host) :
    hostConnections after host + (if victim.host = some host then 1 else 0) = hostConnections before host := by
  simpa only [hostConnections, decide_eq_true_eq] using count_suspend replaced running fun c => c.host = some host

theorem host_run (replaced : Replaced conn conn.run before after) (waiting : conn.running = false) (host : Host) :
    hostConnections after host = hostConnections before host + if conn.host = some host then 1 else 0 := by
  simpa only [hostConnections, decide_eq_true_eq] using
    @count_run _ _ _ _ replaced waiting (fun c => c.host = some host) rfl

/-! Limits that are passed. -/

def hostExcess (limits : Limits) (queue : List (Connection Host)) : Option Host → Nat
  | none => 0
  | some host => hostConnections queue host - limits.maxConnsToHost

def excess (limits : Limits) (queue : List (Connection Host)) : Nat :=
  (activeConnections queue - limits.maxConns) + ((queue.map (·.host)).map (hostExcess limits queue)).sum

theorem hostExcess_suspend (replaced : Replaced victim victim.suspend before after) (running : victim.running = true)
    (host : Option Host) : hostExcess limits after host ≤ hostExcess limits before host := by
  cases host with
  | none => exact Nat.le_refl 0
  | some host =>
      have counts := host_suspend replaced running host
      rw [hostExcess, hostExcess]
      omega

variable (limits) in
theorem excess_suspend (replaced : Replaced victim victim.suspend before after) (running : victim.running = true) :
    excess limits after ≤ excess limits before ∧
      (excess limits after = excess limits before →
        activeConnections before ≤ limits.maxConns ∧
          ∀ host, victim.host = some host → hostConnections before host ≤ limits.maxConnsToHost) := by
  have active := active_suspend replaced running
  have hosts : after.map (·.host) = before.map (·.host) := replaced.map_eq rfl
  have terms : ∀ host ∈ before.map (·.host), hostExcess limits after host ≤ hostExcess limits before host :=
    fun host _ => hostExcess_suspend replaced running host
  have sum := List.sum_le_sum terms
  rw [excess, excess, hosts]
  refine ⟨by omega, fun same => ⟨by omega, fun host named => ?_⟩⟩
  by_contra more
  have less : hostExcess limits after (some host) < hostExcess limits before (some host) := by
    have counts := host_suspend replaced running host
    rw [if_pos named] at counts
    rw [hostExcess, hostExcess]
    omega
  have strict := List.sum_lt_sum _ _ terms
    ⟨some host, List.mem_map.mpr ⟨victim, replaced.old_mem, named⟩, less⟩
  omega

theorem excess_run (replaced : Replaced conn conn.run before after) (startable : Startable limits before conn) :
    excess limits after = excess limits before := by
  have active := active_run replaced startable.waiting
  have room := startable.room
  have hosts : after.map (·.host) = before.map (·.host) := replaced.map_eq rfl
  have terms : hostExcess limits after = hostExcess limits before := by
    funext host
    cases host with
    | none => rfl
    | some host =>
        have counts := host_run replaced startable.waiting host
        rw [hostExcess, hostExcess, counts]
        split
        next named =>
          have hostRoom := startable.hostRoom
          have positive := limits.hostPositive
          rw [named] at hostRoom
          simp only [hostFull, Bool.and_eq_false_iff, decide_eq_false_iff_not, not_not] at hostRoom
          omega
        next => rfl
  rw [excess, excess, hosts, terms]
  omega

/-! Room for waiting connections. -/

theorem hostFull_some {queue : List (Connection Host)} {host : Host} :
    hostFull limits queue (some host) = true ↔ limits.maxConnsToHost ≤ hostConnections queue host := by
  have positive := limits.hostPositive
  simp only [hostFull, Bool.and_eq_true, decide_eq_true_eq]
  omega

variable (limits) in
theorem hostFull_mono {first second : List (Connection Host)}
    (fewer : ∀ host, hostConnections first host ≤ hostConnections second host) {host : Option Host}
    (room : hostFull limits second host = false) : hostFull limits first host = false := by
  cases host with
  | none => rfl
  | some host =>
      rw [Bool.eq_false_iff, ne_eq, hostFull_some] at room ⊢
      have few := fewer host
      omega

theorem Blocked.not_startable {queue : List (Connection Host)} (blocked : Blocked limits queue conn) :
    ¬ Startable limits queue conn := by
  rintro ⟨-, hostRoom, room⟩
  rcases blocked with ⟨full, -⟩ | ⟨full, -⟩
  · rw [full] at hostRoom
    cases hostRoom
  · omega

theorem Blocked.suspend {c : Connection Host} (blocked : Blocked limits before c)
    (running : victim.running = true) (unposted : ¬ (victim.post = true ∧ victim.priority < PRI_CANCEL))
    (less : c.priority < victim.priority) (replaced : Replaced victim victim.suspend before after) :
    ¬ Startable limits after c := by
  rintro ⟨-, hostRoom, -⟩
  rcases blocked with ⟨full, nothing⟩ | ⟨-, nothing⟩
  · cases named : c.host with
    | none =>
        rw [named] at full
        cases full
    | some host =>
        rw [named] at full hostRoom nothing
        have other : victim.host ≠ some host :=
          fun same => nothing victim replaced.old_mem ⟨running, unposted, .inr same, less⟩
        have counts := host_suspend replaced running host
        rw [if_neg other] at counts
        rw [Bool.eq_false_iff, ne_eq, hostFull_some] at hostRoom
        rw [hostFull_some] at full
        omega
  · exact nothing victim replaced.old_mem ⟨running, unposted, .inl rfl, less⟩

theorem Blocked.run {c : Connection Host} (blocked : Blocked limits before c) (waiting : conn.running = false)
    (replaced : Replaced conn conn.run before after) : ¬ Startable limits after c := by
  rintro ⟨-, hostRoom, room⟩
  have active := active_run replaced waiting
  rcases blocked with ⟨full, -⟩ | ⟨full, -⟩
  · have before_room := hostFull_mono limits (fun host => by
      have counts := host_run replaced waiting host
      show hostConnections before host ≤ hostConnections after host
      omega) hostRoom
    rw [before_room] at full
    cases full
  · omega

theorem Tried.no_earlier (tried : Tried limits conn before after event)
    (blocked : ∀ c ∈ before, c.running = false → c.priority < conn.priority → Blocked limits before c) :
    ∀ c ∈ after, c.priority < conn.priority → ¬ Startable limits after c := by
  intro c member earlier startable
  have suspending : ∀ victim : Connection Host, victim.running = true →
      ¬ (victim.post = true ∧ victim.priority < PRI_CANCEL) → conn.priority < victim.priority →
      Replaced victim victim.suspend before after → False := by
    intro victim running unposted less replaced
    rcases replaced.mem_after member with rfl | old
    · exact absurd (Fin.lt_trans earlier less) (Fin.lt_irrefl _)
    · exact (blocked c old startable.waiting earlier).suspend running unposted (Fin.lt_trans earlier less) replaced
        startable
  cases tried with
  | started here replaced =>
      rcases replaced.mem_after member with rfl | old
      · exact absurd startable.waiting (by simp [Connection.run])
      · exact (blocked c old startable.waiting earlier).run here.waiting replaced startable
  | hostSuspended _ suspendable replaced =>
      exact suspending _ suspendable.running suspendable.unposted suspendable.less replaced
  | suspended _ _ suspendable replaced =>
      exact suspending _ suspendable.running suspendable.unposted suspendable.less replaced

theorem Tried.makes_room (tried : Tried limits conn before after (.suspended victim conn))
    (waiting : conn.running = false) (same : excess limits after = excess limits before) :
    Startable limits after conn := by
  cases tried with
  | hostSuspended full suspendable replaced =>
      obtain ⟨active, hosts⟩ := (excess_suspend limits replaced suspendable.running).2 same
      have fewer := active_suspend replaced suspendable.running
      refine ⟨waiting, ?_, by omega⟩
      cases named : conn.host with
      | none => rfl
      | some host =>
          have shared : victim.host = some host := by
            rcases suspendable.sameHost with nothing | equal
            · rw [named] at nothing
              cases nothing
            · rw [equal, named]
          have counts := host_suspend replaced suspendable.running host
          have limit := hosts host shared
          rw [if_pos shared] at counts
          rw [Bool.eq_false_iff, ne_eq, hostFull_some]
          omega
  | suspended hostRoom full suspendable replaced =>
      obtain ⟨active, -⟩ := (excess_suspend limits replaced suspendable.running).2 same
      have fewer := active_suspend replaced suspendable.running
      refine ⟨waiting, hostFull_mono limits (fun host => ?_) hostRoom, by omega⟩
      have counts := host_suspend replaced suspendable.running host
      omega

end KcnTools.Network
