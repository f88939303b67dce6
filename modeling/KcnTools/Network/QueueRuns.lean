import Mathlib.Data.DFinsupp.WellFounded
import Mathlib.Data.Prod.Lex
import KcnTools.Network.QueueProgress

/-!
Whole runs of `check_queue`. Each pass lowers a rank: the limits that are passed, then how urgent the
connections are that run or will run next, then their number.
-/

namespace KcnTools.Network

variable {Host : Type} [DecidableEq Host] {limits : Limits} {conn victim : Connection Host}
  {before after : List (Connection Host)} {event : Event Host}

def StartableAt (limits : Limits) (queue : List (Connection Host)) (priority : Nat) : Prop :=
  ∃ c ∈ queue, Startable limits queue c ∧ c.priority.val = priority

def StartableBelow (limits : Limits) (queue : List (Connection Host)) (priority : Nat) : Prop :=
  ∃ c ∈ queue, Startable limits queue c ∧ c.priority.val < priority

open Classical in
/-- The connections that do not run with a priority; the next to start counts as running, and what
is less urgent than it does not count. -/
noncomputable def idleAt (limits : Limits) (queue : List (Connection Host)) (priority : Nat) : Nat :=
  if StartableBelow limits queue priority then queue.length + 2
  else queue.length + 1 - (runningAt queue priority + if StartableAt limits queue priority then 1 else 0)

noncomputable def idle (limits : Limits) (queue : List (Connection Host)) :
    Lex (Fin (PRIORITIES + 1) → Nat) := toLex fun priority => idleAt limits queue priority.val

noncomputable def rank (limits : Limits) (queue : List (Connection Host)) :
    Nat ×ₗ Lex (Fin (PRIORITIES + 1) → Nat) ×ₗ Nat :=
  toLex (excess limits queue, toLex (idle limits queue, activeConnections queue))

theorem idleAt_below {queue : List (Connection Host)} {priority : Nat}
    (below : StartableBelow limits queue priority) : idleAt limits queue priority = queue.length + 2 := by
  rw [idleAt, if_pos below]

theorem idleAt_startable {queue : List (Connection Host)} {priority : Nat}
    (least : ¬ StartableBelow limits queue priority) (here : StartableAt limits queue priority) :
    idleAt limits queue priority = queue.length + 1 - (runningAt queue priority + 1) := by
  rw [idleAt, if_neg least, if_pos here]

theorem idleAt_running {queue : List (Connection Host)} {priority : Nat}
    (least : ¬ StartableBelow limits queue priority) (nothing : ¬ StartableAt limits queue priority) :
    idleAt limits queue priority = queue.length + 1 - runningAt queue priority := by
  rw [idleAt, if_neg least, if_neg nothing]
  rfl

/-- Where nothing up to a priority can be started, only the running connections count. -/
theorem idleAt_early {queue : List (Connection Host)} {priority bound : Nat} (early : priority < bound)
    (least : ¬ StartableBelow limits queue bound) :
    idleAt limits queue priority = queue.length + 1 - runningAt queue priority := by
  refine idleAt_running ?_ ?_
  · rintro ⟨c, member, startable, less⟩
    exact least ⟨c, member, startable, Nat.lt_trans less early⟩
  · rintro ⟨c, member, startable, same⟩
    exact least ⟨c, member, startable, same ▸ early⟩

omit [DecidableEq Host] in
theorem Replaced.length {old new : Connection Host} (replaced : Replaced old new before after) :
    after.length = before.length := by
  obtain ⟨front, back, rfl, rfl⟩ := replaced
  rw [List.length_append, List.length_append, List.length_cons, List.length_cons]

omit [DecidableEq Host] in
theorem runningAt_lt {queue : List (Connection Host)} (member : conn ∈ queue) (waiting : conn.running = false)
    (priority : Nat) : runningAt queue priority < queue.length := by
  rw [runningAt]
  refine Nat.lt_of_le_of_ne List.countP_le_length fun all => ?_
  have running := List.countP_eq_length.mp all conn member
  rw [waiting] at running
  cases running

theorem idle_started (member : conn ∈ before) (startable : Startable limits before conn)
    (least : ¬ StartableBelow limits before conn.priority.val)
    (replaced : Replaced conn conn.run before after) (later : ¬ StartableBelow limits after conn.priority.val) :
    idle limits after < idle limits before := by
  have length := replaced.length
  have waits := runningAt_lt member startable.waiting conn.priority.val
  have here : StartableAt limits before conn.priority.val := ⟨conn, member, startable, rfl⟩
  have counts := runningAt_run replaced startable.waiting
  have early : ∀ priority < conn.priority.val, idleAt limits after priority = idleAt limits before priority := by
    intro priority less
    have same := counts priority
    rw [if_neg (Nat.ne_of_gt less)] at same
    rw [idleAt_early less least, idleAt_early less later, length, same]
    rfl
  have one := counts conn.priority.val
  rw [if_pos rfl] at one
  have next : conn.priority.val + 1 < PRIORITIES + 1 := Nat.succ_lt_succ conn.priority.isLt
  by_cases again : StartableAt limits after conn.priority.val
  · refine ⟨⟨conn.priority.val, Nat.lt_of_succ_lt next⟩, fun priority less => early priority.val less, ?_⟩
    show idleAt limits after conn.priority.val < idleAt limits before conn.priority.val
    rw [idleAt_startable later again, idleAt_startable least here, length, one]
    omega
  · refine ⟨⟨conn.priority.val + 1, next⟩, fun priority less => ?_, ?_⟩
    · rcases Nat.lt_or_eq_of_le (Nat.le_of_lt_succ less) with less | same
      · exact early priority.val less
      · show idleAt limits after priority.val = idleAt limits before priority.val
        rw [same, idleAt_running later again, idleAt_startable least here, length, one]
    · show idleAt limits after (conn.priority.val + 1) < idleAt limits before (conn.priority.val + 1)
      have above : StartableBelow limits before (conn.priority.val + 1) :=
        ⟨conn, member, startable, Nat.lt_succ_self _⟩
      rw [idleAt_below above, idleAt]
      split
      next reached =>
        obtain ⟨c, inside, free, less⟩ := reached
        rcases Nat.lt_or_eq_of_le (Nat.le_of_lt_succ less) with less | same
        · exact absurd ⟨c, inside, free, less⟩ later
        · exact absurd ⟨c, inside, free, same⟩ again
      next => omega

theorem idle_suspended (member : conn ∈ after) (waiting : conn.running = false) (startable : Startable limits after conn)
    (running : victim.running = true) (less : conn.priority < victim.priority)
    (least : ¬ StartableBelow limits before conn.priority.val)
    (replaced : Replaced victim victim.suspend before after)
    (later : ¬ StartableBelow limits after conn.priority.val) :
    idle limits after < idle limits before ∨ idle limits after = idle limits before := by
  have length := replaced.length
  have waits := runningAt_lt member waiting conn.priority.val
  have here : StartableAt limits after conn.priority.val := ⟨conn, member, startable, rfl⟩
  have counts : ∀ priority ≤ conn.priority.val, runningAt after priority = runningAt before priority := by
    intro priority upTo
    have same := runningAt_suspend replaced running priority
    rw [if_neg (Nat.ne_of_gt (Nat.lt_of_le_of_lt upTo less))] at same
    exact same
  have early : ∀ priority < conn.priority.val, idleAt limits after priority = idleAt limits before priority := by
    intro priority less
    rw [idleAt_early less least, idleAt_early less later, length, counts priority (Nat.le_of_lt less)]
  have inside : conn.priority.val < PRIORITIES + 1 := Nat.lt_succ_of_lt conn.priority.isLt
  by_cases already : StartableAt limits before conn.priority.val
  · right
    apply congrArg toLex
    funext priority
    rcases Nat.lt_trichotomy priority.val conn.priority.val with small | same | large
    · exact early priority.val small
    · rw [same, idleAt_startable later here, idleAt_startable least already, length,
        counts conn.priority.val (Nat.le_refl _)]
    · obtain ⟨c, old, free, equal⟩ := already
      rw [idleAt_below ⟨conn, member, startable, large⟩, idleAt_below ⟨c, old, free, equal ▸ large⟩, length]
  · left
    refine ⟨⟨conn.priority.val, inside⟩, fun priority less => early priority.val less, ?_⟩
    show idleAt limits after conn.priority.val < idleAt limits before conn.priority.val
    rw [idleAt_startable later here, idleAt_running least already, ← length, ← counts conn.priority.val (Nat.le_refl _)]
    omega

omit [DecidableEq Host] in
theorem Sorted.replaced {old new : Connection Host} (sorted : Sorted before) (replaced : Replaced old new before after)
    (same : new.priority = old.priority) : Sorted after := by
  have priorities : after.map (·.priority) = before.map (·.priority) := replaced.map_eq same
  rw [Sorted, ← List.pairwise_map (R := (· ≤ ·)) (f := fun c : Connection Host => c.priority)] at sorted ⊢
  rwa [priorities]

theorem rank_lt (first : FirstTried limits before after event before) : rank limits after < rank limits before := by
  obtain ⟨conn, member, waiting, tried, blocked⟩ := first
  have least : ¬ StartableBelow limits before conn.priority.val := by
    rintro ⟨c, inside, startable, less⟩
    exact (blocked c inside startable.waiting less).not_startable startable
  have later : ¬ StartableBelow limits after conn.priority.val := by
    rintro ⟨c, inside, startable, less⟩
    exact tried.no_earlier blocked c inside less startable
  have suspending : ∀ victim : Connection Host, event = .suspended victim conn → victim.running = true →
      conn.priority < victim.priority → Replaced victim victim.suspend before after →
      rank limits after < rank limits before := by
    intro victim named running less replaced
    rw [named] at tried
    rw [rank, rank, Prod.Lex.toLex_lt_toLex]
    rcases Nat.lt_or_eq_of_le (excess_suspend limits replaced running).1 with fewer | same
    · exact .inl fewer
    · refine .inr ⟨same, ?_⟩
      rw [Prod.Lex.toLex_lt_toLex]
      have stays : conn ∈ after := by
        rcases replaced.mem_before member with rfl | inside
        · rw [waiting] at running
          cases running
        · exact inside
      rcases idle_suspended stays waiting (tried.makes_room waiting same) running less least replaced later
        with urgent | equal
      · exact .inl urgent
      · exact .inr ⟨equal, Nat.lt_of_succ_le (Nat.le_of_eq (active_suspend replaced running))⟩
  cases tried with
  | started startable replaced =>
      rw [rank, rank, Prod.Lex.toLex_lt_toLex]
      refine .inr ⟨excess_run replaced startable, ?_⟩
      rw [Prod.Lex.toLex_lt_toLex]
      exact .inl (idle_started member startable least replaced later)
  | hostSuspended _ suspendable replaced =>
      exact suspending _ rfl suspendable.running suspendable.less replaced
  | suspended _ _ suspendable replaced =>
      exact suspending _ rfl suspendable.running suspendable.less replaced

/-! Whole runs. -/

/-- What a run keeps: no count passes its limit further than before, and suspended connections are
less urgent than the ones they make room for. -/
structure RunOk (limits : Limits) (before after : List (Connection Host)) (events : List (Event Host)) : Prop where
  active : activeConnections after ≤ max limits.maxConns (activeConnections before)
  hosts : ∀ host, hostConnections after host ≤ max limits.maxConnsToHost (hostConnections before host)
  urgent : ∀ victim conn, Event.suspended victim conn ∈ events → conn.priority < victim.priority

theorem RunOk.nil (queue : List (Connection Host)) : RunOk limits queue queue [] where
  active := Nat.le_max_right _ _
  hosts _ := Nat.le_max_right _ _
  urgent := nofun

theorem Tried.runOk (tried : Tried limits conn before after event) : RunOk limits before after [event] := by
  have suspending : ∀ victim : Connection Host, event = .suspended victim conn → victim.running = true →
      conn.priority < victim.priority → Replaced victim victim.suspend before after →
      RunOk limits before after [event] := by
    intro victim named running less replaced
    refine ⟨?_, fun host => ?_, ?_⟩
    · have fewer := active_suspend replaced running
      omega
    · have counts := host_suspend replaced running host
      omega
    · intro other conn' member
      rw [List.mem_singleton, named, Event.suspended.injEq] at member
      obtain ⟨rfl, rfl⟩ := member
      exact less
  cases tried with
  | started startable replaced =>
      refine ⟨?_, fun host => ?_, ?_⟩
      · have more := active_run replaced startable.waiting
        have room := startable.room
        omega
      · have counts := host_run replaced startable.waiting host
        split at counts
        next named =>
          have hostRoom := startable.hostRoom
          rw [named, Bool.eq_false_iff, ne_eq, hostFull_some] at hostRoom
          omega
        next => omega
      · intro victim conn' member
        rw [List.mem_singleton] at member
        cases member
  | hostSuspended _ suspendable replaced =>
      exact suspending _ rfl suspendable.running suspendable.less replaced
  | suspended _ _ suspendable replaced =>
      exact suspending _ rfl suspendable.running suspendable.less replaced

theorem RunOk.trans {first second third : List (Connection Host)} {events later : List (Event Host)}
    (start : RunOk limits first second events) (rest : RunOk limits second third later) :
    RunOk limits first third (events ++ later) where
  active := by
    have one := start.active
    have two := rest.active
    omega
  hosts host := by
    have one := start.hosts host
    have two := rest.hosts host
    omega
  urgent victim conn member := by
    rcases List.mem_append.mp member with inside | behind
    · exact start.urgent victim conn inside
    · exact rest.urgent victim conn behind

theorem Tried.sorted (tried : Tried limits conn before after event) (sorted : Sorted before) : Sorted after := by
  cases tried with
  | started _ replaced => exact sorted.replaced replaced rfl
  | hostSuspended _ _ replaced => exact sorted.replaced replaced rfl
  | suspended _ _ _ replaced => exact sorted.replaced replaced rfl

theorem checkLoop_spec (keepalive : Nat → Nat → Bool) (pass : Nat) {queue : List (Connection Host)}
    (sorted : Sorted queue) :
    ∃ fuel after events, checkLoop limits keepalive fuel pass queue = some (after, events) ∧
      RunOk limits queue after events ∧ ∀ c ∈ after, c.running = false → Blocked limits after c := by
  generalize reached : rank limits queue = r
  induction r using WellFoundedLT.induction generalizing queue pass with
  | ind r ih =>
      have scanned := @scanQueue_spec _ _ limits queue queue sorted (keepalive pass) queue.length 0
        (Nat.le_refl _) sorted fun i c here => by rwa [Nat.zero_add]
      cases found : scanQueue limits queue (keepalive pass) queue.length 0 queue with
      | none =>
          rw [found] at scanned
          refine ⟨1, queue, [], ?_, RunOk.nil queue, scanned⟩
          rw [checkLoop, found]
      | some result =>
          obtain ⟨next, event⟩ := result
          rw [found] at scanned
          have lower := rank_lt scanned
          obtain ⟨conn, -, -, tried, -⟩ := scanned
          obtain ⟨fuel, after, events, ran, ok, blocked⟩ :=
            ih (rank limits next) (reached ▸ lower) (pass + 1) (tried.sorted sorted) rfl
          refine ⟨fuel + 1, after, event :: events, ?_, tried.runOk.trans ok, blocked⟩
          rw [checkLoop, found]
          dsimp only
          rw [ran]
          rfl

omit [DecidableEq Host] in
theorem mem_interruptBack {queue : List (Connection Host)} (member : conn ∈ interruptBack queue) : conn ∈ queue := by
  induction queue with
  | nil => cases member
  | cons c queue ih =>
      rw [interruptBack] at member
      split at member
      · exact member
      · split at member
        · rcases List.mem_cons.mp member with rfl | later
          · exact List.mem_cons_self
          · exact List.mem_cons_of_mem c (ih later)
        · exact List.mem_cons_of_mem c (ih member)

omit [DecidableEq Host] in
theorem count_interruptBack (queue : List (Connection Host)) (p : Connection Host → Bool) :
    (interruptBack queue).countP (fun c => c.running && p c) = queue.countP fun c => c.running && p c := by
  induction queue with
  | nil => rfl
  | cons c queue ih =>
      rw [interruptBack]
      split
      · rfl
      · split
        · rw [List.countP_cons, List.countP_cons, ih]
        next waiting =>
          rw [Bool.not_eq_true] at waiting
          rw [List.countP_cons, ih, waiting]
          rfl

theorem hostConnections_dropInterrupted (queue : List (Connection Host)) (host : Host) :
    hostConnections (dropInterrupted queue) host = hostConnections queue host := by
  rw [hostConnections, dropInterrupted, List.countP_reverse, count_interruptBack, List.countP_reverse, hostConnections]

omit [DecidableEq Host] in
theorem activeConnections_dropInterrupted (queue : List (Connection Host)) :
    activeConnections (dropInterrupted queue) = activeConnections queue := by
  have counts := count_interruptBack queue.reverse fun _ => true
  simp only [Bool.and_true] at counts
  rw [activeConnections, dropInterrupted, List.countP_reverse, counts, List.countP_reverse, activeConnections]

/-- `check_queue` stops, passes no limit further than it was, suspends for more urgent connections only
and leaves no connection waiting that there is room for. -/
theorem checkQueue_spec (limits : Limits) (keepalive : Nat → Nat → Bool) (queue : List (Connection Host))
    (sorted : Sorted queue) :
    ∃ fuel after events, checkQueue limits keepalive fuel queue = some (after, events) ∧
      activeConnections after ≤ max limits.maxConns (activeConnections queue) ∧
      (∀ host, hostConnections after host ≤ max limits.maxConnsToHost (hostConnections queue host)) ∧
      (∀ victim conn, Event.suspended victim conn ∈ events → conn.priority < victim.priority) ∧
      ∀ c ∈ after, c.running = false →
        (∃ host, c.host = some host ∧ limits.maxConnsToHost ≤ hostConnections after host) ∨
          limits.maxConns ≤ activeConnections after := by
  obtain ⟨fuel, after, events, ran, ok, blocked⟩ := @checkLoop_spec _ _ limits keepalive 0 queue sorted
  refine ⟨fuel, dropInterrupted after, events, ?_, ?_, fun host => ?_, ok.urgent, fun c member waiting => ?_⟩
  · rw [checkQueue, ran]
    rfl
  · rw [activeConnections_dropInterrupted]
    exact ok.active
  · rw [hostConnections_dropInterrupted]
    exact ok.hosts host
  · rw [activeConnections_dropInterrupted]
    have stayed := List.mem_reverse.mp (mem_interruptBack (List.mem_reverse.mp member))
    rcases blocked c stayed waiting with ⟨full, -⟩ | ⟨full, -⟩
    · left
      cases named : c.host with
      | none =>
          rw [named] at full
          cases full
      | some host =>
          rw [named, hostFull_some] at full
          exact ⟨host, rfl, by rwa [hostConnections_dropInterrupted]⟩
    · exact .inr full

def oneToHost : Limits := ⟨1, 1, by decide, by decide⟩

/-- A page waits for the host that an image is loaded from. -/
theorem checkQueue_page :
    ∃ fuel after events,
      checkQueue oneToHost (fun _ _ => false) fuel
          [⟨⟨0, by decide⟩, some 0, false, false⟩, ⟨⟨4, by decide⟩, some 0, false, true⟩] = some (after, events) ∧
        activeConnections after ≤ 1 ∧
        ∀ victim conn, Event.suspended victim conn ∈ events → conn.priority < victim.priority := by
  obtain ⟨fuel, after, events, ran, active, -, urgent, -⟩ := checkQueue_spec oneToHost (fun _ _ => false)
    [⟨⟨0, by decide⟩, some 0, false, false⟩, ⟨⟨4, by decide⟩, some 0, false, true⟩] (by unfold Sorted; decide)
  exact ⟨fuel, after, events, ran, active, urgent⟩

/-- Two connections that run already keep running with a limit of one. -/
theorem checkQueue_passed :
    ∃ after events,
      checkQueue oneToHost (fun _ _ => false) 1
          [⟨⟨0, by decide⟩, some 0, false, true⟩, ⟨⟨0, by decide⟩, some 1, false, true⟩] = some (after, events) ∧
        oneToHost.maxConns < activeConnections after :=
  ⟨_, _, rfl, by decide⟩

end KcnTools.Network
