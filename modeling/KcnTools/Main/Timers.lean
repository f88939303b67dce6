import Mathlib
import KcnTools.Lib.Run

/-!
The timers of the event loop (`main/timer.c`) over the time values of `util/time.c`. A timer holds
what is left of its delay; `check_timers` takes the time that has passed off every one of them and
calls those that have run out. A called function may set and stop timers itself. Time is that of the
loop: the delay of a new timer counts from the last `check_timers`, not from the call that sets it.
-/

namespace KcnTools.Main

/-! ## Time values -/

structure Timeval where
  sec : Int
  usec : Int
  deriving DecidableEq

def Timeval.total (t : Timeval) : Int := t.sec * 1000000 + t.usec

def borrowSeconds (t : Timeval) : Timeval :=
  if t.usec < 0 then borrowSeconds ⟨t.sec - 1, t.usec + 1000000⟩ else t
termination_by (-t.usec).toNat
decreasing_by omega

def timevalSub (older newer : Timeval) : Timeval :=
  borrowSeconds ⟨newer.sec - older.sec, newer.usec - older.usec⟩

def timevalSubInterval (t interval : Timeval) : Timeval :=
  if t.sec - interval.sec < 0 then ⟨0, 0⟩
  else
    let left := borrowSeconds ⟨t.sec - interval.sec, t.usec - interval.usec⟩
    if left.sec < 0 then ⟨0, 0⟩ else left

def timevalFromMilliseconds (milliseconds : Nat) : Timeval :=
  ⟨milliseconds / 1000, milliseconds % 1000 * 1000⟩

def timevalIsPositive (t : Timeval) : Bool := 0 < t.sec || (t.sec == 0 && 0 < t.usec)

def timevalCmp (t1 t2 : Timeval) : Int :=
  if t1.sec > t2.sec then 1
  else if t1.sec < t2.sec then -1
  else t1.usec - t2.usec

def Timeval.Normal (t : Timeval) : Prop := 0 ≤ t.usec ∧ t.usec < 1000000

theorem borrowSeconds_total (t : Timeval) : (borrowSeconds t).total = t.total := by
  induction t using borrowSeconds.induct with
  | case1 t negative ih =>
      rw [borrowSeconds, if_pos negative, ih]
      simp only [Timeval.total]
      ring
  | case2 t enough => rw [borrowSeconds, if_neg enough]

theorem borrowSeconds_normal (t : Timeval) (small : t.usec < 1000000) : (borrowSeconds t).Normal := by
  induction t using borrowSeconds.induct with
  | case1 t negative ih =>
      rw [borrowSeconds, if_pos negative]
      apply ih
      show t.usec + 1000000 < 1000000
      omega
  | case2 t enough =>
      rw [borrowSeconds, if_neg enough]
      exact ⟨by omega, small⟩

theorem timevalSub_total (older newer : Timeval) :
    (timevalSub older newer).total = newer.total - older.total := by
  rw [timevalSub, borrowSeconds_total]
  simp only [Timeval.total]
  ring

theorem timevalSub_normal {older newer : Timeval} (first : older.Normal) (second : newer.Normal) :
    (timevalSub older newer).Normal := by
  apply borrowSeconds_normal
  have := first.1
  have := second.2
  show newer.usec - older.usec < 1000000
  omega

structure Timeval.Length (t : Timeval) : Prop where
  normal : t.Normal
  positive : 0 ≤ t.sec

theorem timevalSubInterval_spec {t interval : Timeval} (length : t.Length) (normal : interval.Normal) :
    (timevalSubInterval t interval).Length ∧
      (timevalSubInterval t interval).total = max 0 (t.total - interval.total) := by
  obtain ⟨⟨low, high⟩, seconds⟩ := length
  obtain ⟨intervalLow, intervalHigh⟩ := normal
  have zero : (⟨0, 0⟩ : Timeval).Length := ⟨⟨le_refl 0, by decide⟩, le_refl 0⟩
  have nothing : (⟨0, 0⟩ : Timeval).total = 0 := rfl
  rw [timevalSubInterval]
  split_ifs with less
  · refine ⟨zero, ?_⟩
    rw [nothing]
    simp only [Timeval.total]
    omega
  · have same := borrowSeconds_total ⟨t.sec - interval.sec, t.usec - interval.usec⟩
    have normal := borrowSeconds_normal ⟨t.sec - interval.sec, t.usec - interval.usec⟩
      (by show t.usec - interval.usec < 1000000; omega)
    generalize borrowSeconds ⟨t.sec - interval.sec, t.usec - interval.usec⟩ = left at same normal
    have exact : left.total = t.total - interval.total := by
      rw [same]
      simp only [Timeval.total]
      ring
    obtain ⟨leftLow, leftHigh⟩ := normal
    show (if left.sec < 0 then (⟨0, 0⟩ : Timeval) else left).Length ∧
      (if left.sec < 0 then (⟨0, 0⟩ : Timeval) else left).total = _
    split_ifs with below
    · refine ⟨zero, ?_⟩
      rw [nothing, ← exact]
      simp only [Timeval.total]
      omega
    · refine ⟨⟨⟨leftLow, leftHigh⟩, by omega⟩, ?_⟩
      rw [← exact]
      simp only [Timeval.total]
      omega

theorem timevalFromMilliseconds_spec (milliseconds : Nat) :
    (timevalFromMilliseconds milliseconds).Length ∧
      (timevalFromMilliseconds milliseconds).total = milliseconds * 1000 := by
  have sec : (timevalFromMilliseconds milliseconds).sec = milliseconds / 1000 := rfl
  have usec : (timevalFromMilliseconds milliseconds).usec = milliseconds % 1000 * 1000 := rfl
  refine ⟨⟨⟨?_, ?_⟩, ?_⟩, ?_⟩
  · omega
  · omega
  · omega
  · rw [Timeval.total, sec, usec]
    omega

theorem timevalIsPositive_iff {t : Timeval} (length : t.Length) :
    timevalIsPositive t = true ↔ 0 < t.total := by
  obtain ⟨⟨low, high⟩, seconds⟩ := length
  simp only [timevalIsPositive, Timeval.total, Bool.or_eq_true, Bool.and_eq_true, decide_eq_true_eq,
    beq_iff_eq]
  omega

theorem timevalCmp_nonneg_iff {t1 t2 : Timeval} (first : t1.Normal) (second : t2.Normal) :
    0 ≤ timevalCmp t1 t2 ↔ t2.total ≤ t1.total := by
  obtain ⟨low1, high1⟩ := first
  obtain ⟨low2, high2⟩ := second
  simp only [timevalCmp, Timeval.total]
  split_ifs <;> omega

/-! ## The timers -/

structure Timer (δ : Type) where
  id : Nat
  interval : Timeval
  /-- What the timer calls, with what it hands over. -/
  data : δ

/-- A call of a timer's function: in which round of `check_timers`, and at what time. -/
structure Call where
  id : Nat
  round : Nat
  time : Timeval

/-- What a program does to the timers. `install_timer` asserts that the delay is positive. -/
inductive Action (δ : Type)
  | install (delay : ℕ+) (data : δ)
  | kill (id : Option Nat)

/-- The list of timers with the time it was last brought up to. The last four fields are a record
of what happened: the rounds of `check_timers`, when each timer that was ever set is due by the time
of the loop, in the order of their numbers, the timers stopped and the calls made. -/
structure Timers (σ δ : Type) where
  timers : List (Timer δ)
  lastTime : Timeval
  world : σ
  round : Nat
  dues : List Int
  kills : List Nat
  calls : List Call

/-- How a run can fail: a stopped or called timer is stopped again, or a loop does not end. -/
inductive Fault
  | stale
  | endless
  deriving DecidableEq

variable {σ δ : Type}

def addTimer (new : Timer δ) : List (Timer δ) → List (Timer δ)
  | [] => [new]
  | timer :: rest =>
      if timevalCmp timer.interval new.interval ≥ 0 then new :: timer :: rest
      else timer :: addTimer new rest

def installTimer (delay : ℕ+) (data : δ) (s : Timers σ δ) : Timers σ δ :=
  { s with
    timers := addTimer ⟨s.dues.length, timevalFromMilliseconds delay, data⟩ s.timers
    dues := s.dues ++ [s.lastTime.total + (timevalFromMilliseconds delay).total] }

/-- The identifier `none` is `TIMER_ID_UNDEF`. -/
def killTimer (id : Option Nat) (s : Timers σ δ) : Except Fault (Timers σ δ) :=
  match id with
  | none => .ok s
  | some id =>
      if s.timers.any (·.id == id) then
        .ok { s with timers := s.timers.eraseP (·.id == id), kills := s.kills ++ [id] }
      else .error .stale

def perform (s : Timers σ δ) : Action δ → Except Fault (Timers σ δ)
  | .install delay data => .ok (installTimer delay data s)
  | .kill id => killTimer id s

/-- What calling a timer's function does: it changes the rest of the program and acts on the timers,
as do the bottom halves that run behind it. -/
abbrev Behaviour (σ δ : Type) := σ → δ → σ × List (Action δ)

variable (behaviour : Behaviour σ δ)

def callTimer (timer : Timer δ) (rest : List (Timer δ)) (s : Timers σ δ) : Except Fault (Timers σ δ) :=
  (behaviour s.world timer.data).2.foldlM perform
    { s with
      timers := rest
      world := (behaviour s.world timer.data).1
      calls := s.calls ++ [⟨timer.id, s.round, s.lastTime⟩] }

def callExpired : Nat → Timers σ δ → Except Fault (Timers σ δ)
  | 0, _ => .error .endless
  | fuel + 1, s =>
      match s.timers with
      | [] => .ok s
      | timer :: rest =>
          if timevalIsPositive timer.interval then .ok s
          else do
            let next ← callTimer behaviour timer rest s
            callExpired fuel next

/-- The timers with the time passed that `check_timers` takes off them. -/
def passTime (now : Timeval) (s : Timers σ δ) : Timers σ δ :=
  let interval := timevalSub s.lastTime now
  { s with
    timers := s.timers.map fun timer =>
      { timer with interval := timevalSubInterval timer.interval interval }
    lastTime := now
    round := s.round + 1 }

def checkTimers (now : Timeval) (s : Timers σ δ) : Except Fault (Timers σ δ) :=
  callExpired behaviour (s.timers.length + 1) (passTime now s)

/-- What happens to the timers: the program acts on them, or `select_loop` checks them. -/
inductive Event (δ : Type)
  | act (action : Action δ)
  | check (now : Timeval)

def timerStep (s : Timers σ δ) : Event δ → Except Fault (Timers σ δ)
  | .act action => perform s action
  | .check now => checkTimers behaviour now s

def runTimers (s : Timers σ δ) (events : List (Event δ)) : Except Fault (Timers σ δ) :=
  events.foldlM (timerStep behaviour) s

def noTimers (world : σ) (now : Timeval) : Timers σ δ := ⟨[], now, world, 0, [], [], []⟩

def getNextTimerTime (s : Timers σ δ) : Option Timeval := s.timers.head?.map (·.interval)

/-! ## The agenda: when each timer is due -/

def Ends {α : Type} (post : α → Prop) : Except Fault α → Prop
  | .ok value => post value
  | .error fault => fault = .stale

theorem Ends.bind {α β : Type} {first : α → Prop} {second : β → Prop} {result : Except Fault α}
    {next : α → Except Fault β} (ends : Ends first result) (later : ∀ value, first value → Ends second (next value)) :
    Ends second (result >>= next) := by
  cases result with
  | error fault => exact ends
  | ok value => exact later value ends

theorem Ends.imp {α : Type} {weak strong : α → Prop} {result : Except Fault α} (ends : Ends strong result)
    (implies : ∀ value, strong value → weak value) : Ends weak result := by
  cases result with
  | error fault => exact ends
  | ok value => exact implies value ends

abbrev Entry := Int × Nat

def NoLater (a b : Entry) : Prop := a.1 ≤ b.1

instance : DecidableRel NoLater := fun a b => Int.decLe a.1 b.1
instance : Std.Total NoLater := ⟨fun a b => Int.le_total a.1 b.1⟩
instance : IsTrans Entry NoLater := ⟨fun _ _ _ first second => Int.le_trans first second⟩

/-- A timer holds what is left until the time of its entry, and nothing behind that time. -/
structure Waits (clock : Int) (timer : Timer δ) (entry : Entry) : Prop where
  same : timer.id = entry.2
  length : timer.interval.Length
  left : timer.interval.total = max 0 (entry.1 - clock)

/-- One call came before another: in an earlier round, or in the same and due no later. -/
def Timers.Before (dues : List Int) (a b : Call) : Prop :=
  a.round < b.round ∨
    a.round = b.round ∧ ∀ first second, dues[a.id]? = some first → dues[b.id]? = some second → first ≤ second

/-- The timers follow an agenda, and the record tells the fate of each. -/
structure Follows (s : Timers σ δ) (agenda : List Entry) : Prop where
  clock : s.lastTime.Normal
  waits : List.Forall₂ (Waits s.lastTime.total) s.timers agenda
  ordered : agenda.Pairwise NoLater
  dues : ∀ entry ∈ agenda, s.dues[entry.2]? = some entry.1
  fates : (List.range s.dues.length).Perm (agenda.map Prod.snd ++ (s.kills ++ s.calls.map Call.id))
  called : ∀ call ∈ s.calls, ∃ due, s.dues[call.id]? = some due ∧ due ≤ call.time.total
  rounds : ∀ call ∈ s.calls, call.round ≤ s.round
  current : ∀ call ∈ s.calls, call.round = s.round → call.time = s.lastTime ∧
    ∀ entry ∈ agenda, ∀ due, s.dues[call.id]? = some due → due ≤ entry.1
  inOrder : s.calls.Pairwise (Timers.Before s.dues)

theorem addTimer_waits {clock due : Int} {new : Timer δ} {id : Nat} {timers : List (Timer δ)}
    {agenda : List Entry} (waits : List.Forall₂ (Waits clock) timers agenda)
    (waitsNew : Waits clock new (due, id)) (later : clock < due) :
    List.Forall₂ (Waits clock) (addTimer new timers) (agenda.orderedInsert NoLater (due, id)) := by
  induction waits with
  | nil => exact .cons waitsNew .nil
  | @cons timer entry timers agenda waitsTimer waits ih =>
      have place : timevalCmp timer.interval new.interval ≥ 0 ↔ NoLater (due, id) entry := by
        rw [ge_iff_le, timevalCmp_nonneg_iff waitsTimer.length.normal waitsNew.length.normal,
          waitsTimer.left, waitsNew.left]
        show max 0 (due - clock) ≤ max 0 (entry.1 - clock) ↔ due ≤ entry.1
        omega
      rw [addTimer, List.orderedInsert_cons]
      by_cases before : NoLater (due, id) entry
      · rw [if_pos before, if_pos (place.mpr before)]
        exact .cons waitsNew (.cons waitsTimer waits)
      · rw [if_neg before, if_neg fun comes => before (place.mp comes)]
        exact .cons waitsTimer ih

theorem mem_insert {new entry : Entry} {agenda : List Entry} :
    entry ∈ agenda.orderedInsert NoLater new ↔ entry = new ∨ entry ∈ agenda :=
  List.mem_orderedInsert NoLater

theorem dues_old {dues : List Int} {due new : Int} {id : Nat} (old : dues[id]? = some due) :
    (dues ++ [new])[id]? = some due := by
  rw [List.getElem?_append_left (List.getElem?_eq_some_iff.mp old).1]
  exact old

theorem Follows.known {s : Timers σ δ} {agenda : List Entry} (follows : Follows s agenda) {call : Call}
    (member : call ∈ s.calls) {new due : Int} (read : (s.dues ++ [new])[call.id]? = some due) :
    s.dues[call.id]? = some due := by
  obtain ⟨known, found, _⟩ := follows.called call member
  rw [dues_old found] at read
  rw [found, read]

theorem Follows.install {s : Timers σ δ} {agenda : List Entry} (follows : Follows s agenda) (delay : ℕ+) (data : δ) :
    Follows (installTimer delay data s)
      (agenda.orderedInsert NoLater (s.lastTime.total + delay * 1000, s.dues.length)) := by
  obtain ⟨length, total⟩ := timevalFromMilliseconds_spec delay
  have positive : (0 : Int) < delay := by exact_mod_cast delay.pos
  have due : s.lastTime.total < s.lastTime.total + delay * 1000 := by omega
  constructor
  · exact follows.clock
  · refine addTimer_waits follows.waits ⟨rfl, length, ?_⟩ due
    rw [total]
    show (delay : Int) * 1000 = max 0 (s.lastTime.total + delay * 1000 - s.lastTime.total)
    omega
  · exact List.Pairwise.orderedInsert _ _ follows.ordered
  · intro entry member
    show (s.dues ++ [s.lastTime.total + (timevalFromMilliseconds delay).total])[entry.2]? = some entry.1
    rcases mem_insert.mp member with rfl | old
    · rw [List.getElem?_append_right (le_refl _), Nat.sub_self, total]
      rfl
    · exact dues_old (follows.dues entry old)
  · show (List.range (s.dues ++ [s.lastTime.total + (timevalFromMilliseconds delay).total]).length).Perm
      ((agenda.orderedInsert NoLater (s.lastTime.total + delay * 1000, s.dues.length)).map Prod.snd ++
        (s.kills ++ s.calls.map Call.id))
    rw [List.length_append, List.length_singleton, List.range_succ]
    have inserted := (List.perm_orderedInsert NoLater (s.lastTime.total + delay * 1000, s.dues.length) agenda).map Prod.snd
    refine (List.perm_append_singleton _ _).trans ?_
    exact (follows.fates.cons _).trans (inserted.symm.append_right _)
  · intro call member
    obtain ⟨known, found, late⟩ := follows.called call member
    exact ⟨known, dues_old found, late⟩
  · exact follows.rounds
  · intro call member now
    obtain ⟨same, earlier⟩ := follows.current call member now
    refine ⟨same, fun entry inserted known found => ?_⟩
    have read := follows.known member found
    rcases mem_insert.mp inserted with rfl | old
    · obtain ⟨other, again, late⟩ := follows.called call member
      rw [read] at again
      obtain rfl := Option.some.inj again
      rw [same] at late
      exact le_trans late (le_of_lt due)
    · exact earlier entry old known read
  · refine follows.inOrder.imp_of_mem fun {a b} memberA memberB before => ?_
    refine before.imp id fun both => ⟨both.1, fun first second readA readB => ?_⟩
    exact both.2 first second (follows.known memberA readA) (follows.known memberB readB)

theorem waits_any {clock : Int} {timers : List (Timer δ)} {agenda : List Entry}
    (waits : List.Forall₂ (Waits clock) timers agenda) (id : Nat) :
    timers.any (·.id == id) = agenda.any (·.2 == id) := by
  induction waits with
  | nil => rfl
  | cons waitsTimer _ ih => rw [List.any_cons, List.any_cons, ih, waitsTimer.same]

theorem waits_erase {clock : Int} {timers : List (Timer δ)} {agenda : List Entry}
    (waits : List.Forall₂ (Waits clock) timers agenda) (id : Nat) :
    List.Forall₂ (Waits clock) (timers.eraseP (·.id == id)) (agenda.eraseP (·.2 == id)) := by
  induction waits with
  | nil => exact .nil
  | @cons timer entry timers agenda waitsTimer waits ih =>
      rw [List.eraseP_cons, List.eraseP_cons, waitsTimer.same]
      by_cases found : (entry.2 == id) = true
      · rw [found]
        exact waits
      · rw [Bool.not_eq_true] at found
        rw [found]
        exact .cons waitsTimer ih

/-- Erasing the entry of a timer takes its number out of the numbers of the agenda. -/
theorem erased_numbers {agenda : List Entry} {id : Nat} (found : agenda.any (·.2 == id) = true) :
    (agenda.map Prod.snd).Perm (id :: (agenda.eraseP (·.2 == id)).map Prod.snd) := by
  induction agenda with
  | nil => cases found
  | cons entry rest ih =>
      rw [List.eraseP_cons]
      by_cases here : (entry.2 == id) = true
      · rw [here, ← beq_iff_eq.mp here]
        exact List.Perm.refl _
      · rw [Bool.not_eq_true] at here
        rw [List.any_cons, here, Bool.false_or] at found
        rw [here]
        exact ((ih found).cons entry.2).trans (List.Perm.swap id entry.2 _)

theorem Follows.kill {s : Timers σ δ} {agenda : List Entry} (follows : Follows s agenda) (id : Option Nat) :
    Ends (fun next => next.lastTime = s.lastTime ∧ next.round = s.round ∧
      ∃ kept, kept.Sublist agenda ∧ Follows next kept) (killTimer id s) := by
  cases id with
  | none => exact ⟨rfl, rfl, agenda, List.Sublist.refl _, follows⟩
  | some id =>
      rw [killTimer, waits_any follows.waits]
      split_ifs with found
      · have smaller : (agenda.eraseP (·.2 == id)).Sublist agenda := List.eraseP_sublist
        refine ⟨rfl, rfl, agenda.eraseP (·.2 == id), smaller, ?_⟩
        refine ⟨follows.clock, waits_erase follows.waits id, follows.ordered.sublist smaller,
          fun entry member => follows.dues entry (smaller.subset member), ?_, follows.called,
          follows.rounds, fun call member now => ?_, follows.inOrder⟩
        · show (List.range s.dues.length).Perm
            ((agenda.eraseP (·.2 == id)).map Prod.snd ++ (s.kills ++ [id] ++ s.calls.map Call.id))
          refine follows.fates.trans (((erased_numbers found).append_right _).trans ?_)
          rw [List.append_assoc s.kills, List.singleton_append, ← List.append_assoc, List.cons_append,
            ← List.append_assoc]
          exact List.perm_middle.symm
        · obtain ⟨same, earlier⟩ := follows.current call member now
          exact ⟨same, fun entry kept => earlier entry (smaller.subset kept)⟩
      · exact rfl

def overdue (clock : Int) (agenda : List Entry) : Nat := agenda.countP (fun entry => entry.1 ≤ clock)

/-- What the actions of a called function leave: the same round, and no further timer that is due. -/
def Acted (s : Timers σ δ) (agenda : List Entry) (next : Timers σ δ) : Prop :=
  next.lastTime = s.lastTime ∧ next.round = s.round ∧
    ∃ later, Follows next later ∧ overdue s.lastTime.total later ≤ overdue s.lastTime.total agenda

theorem Follows.perform {s : Timers σ δ} {agenda : List Entry} (follows : Follows s agenda) (action : Action δ) :
    Ends (Acted s agenda) (perform s action) := by
  cases action with
  | install delay data =>
      refine ⟨rfl, rfl, _, follows.install delay data, le_of_eq ?_⟩
      rw [overdue, (List.perm_orderedInsert NoLater _ agenda).countP_eq, List.countP_cons_of_neg]
      · rfl
      · have positive : (0 : Int) < delay := by exact_mod_cast delay.pos
        simp only [decide_eq_true_eq]
        omega
  | kill id =>
      refine (follows.kill id).imp ?_
      rintro next ⟨clock, round, kept, smaller, holds⟩
      exact ⟨clock, round, kept, holds, smaller.countP_le⟩

theorem Follows.performAll {s : Timers σ δ} {agenda : List Entry} (follows : Follows s agenda)
    (actions : List (Action δ)) : Ends (Acted s agenda) (actions.foldlM Main.perform s) := by
  induction actions generalizing s agenda with
  | nil => exact ⟨rfl, rfl, agenda, follows, le_refl _⟩
  | cons action rest ih =>
      rw [List.foldlM_cons]
      refine (follows.perform action).bind ?_
      rintro middle ⟨clock, round, later, holds, fewer⟩
      refine (ih holds).imp ?_
      rintro next ⟨nextClock, nextRound, last, follows, fewest⟩
      rw [clock] at nextClock fewest
      exact ⟨nextClock, nextRound.trans round, last, follows, fewest.trans fewer⟩

theorem Follows.called_head {s : Timers σ δ} {timer : Timer δ} {rest : List (Timer δ)} {entry : Entry}
    {agenda : List Entry} (follows : Follows s (entry :: agenda)) (waits : Waits s.lastTime.total timer entry)
    (waitsRest : List.Forall₂ (Waits s.lastTime.total) rest agenda) (due : entry.1 ≤ s.lastTime.total) (world : σ) :
    Follows { s with timers := rest, world := world, calls := s.calls ++ [⟨timer.id, s.round, s.lastTime⟩] } agenda := by
  have known := follows.dues entry List.mem_cons_self
  have ordered := List.pairwise_cons.mp follows.ordered
  refine ⟨follows.clock, waitsRest, ordered.2,
    fun other member => follows.dues other (List.mem_cons_of_mem _ member), ?_, ?_, ?_, ?_, ?_⟩
  · show (List.range s.dues.length).Perm (agenda.map Prod.snd ++
      (s.kills ++ (s.calls ++ [(⟨timer.id, s.round, s.lastTime⟩ : Call)]).map Call.id))
    refine follows.fates.trans ?_
    rw [List.map_append, List.map_singleton, waits.same, List.map_cons, List.cons_append,
      ← List.append_assoc s.kills, ← List.append_assoc (agenda.map Prod.snd) _ [_]]
    exact (List.perm_append_singleton entry.2 _).symm
  · intro call member
    rcases List.mem_append.mp member with old | new
    · exact follows.called call old
    · obtain rfl := List.mem_singleton.mp new
      refine ⟨entry.1, ?_, due⟩
      rw [waits.same]
      exact known
  · intro call member
    rcases List.mem_append.mp member with old | new
    · exact follows.rounds call old
    · obtain rfl := List.mem_singleton.mp new
      exact le_refl _
  · intro call member now
    rcases List.mem_append.mp member with old | new
    · obtain ⟨same, earlier⟩ := follows.current call old now
      exact ⟨same, fun other waiting => earlier other (List.mem_cons_of_mem _ waiting)⟩
    · obtain rfl := List.mem_singleton.mp new
      refine ⟨rfl, fun other waiting found read => ?_⟩
      have read : s.dues[timer.id]? = some found := read
      rw [waits.same, known] at read
      obtain rfl := Option.some.inj read
      exact ordered.1 other waiting
  · refine List.pairwise_append.mpr ⟨follows.inOrder, List.pairwise_singleton _ _, ?_⟩
    intro earlier member call new
    obtain rfl := List.mem_singleton.mp new
    rcases lt_or_eq_of_le (follows.rounds earlier member) with before | now
    · exact .inl before
    · refine .inr ⟨now, fun first second readFirst readSecond => ?_⟩
      have readSecond : s.dues[timer.id]? = some second := readSecond
      rw [waits.same, known] at readSecond
      obtain rfl := Option.some.inj readSecond
      exact (follows.current earlier member now).2 entry List.mem_cons_self first readFirst

theorem Follows.callExpired {s : Timers σ δ} {agenda : List Entry} (follows : Follows s agenda) {fuel : Nat}
    (enough : overdue s.lastTime.total agenda < fuel) :
    Ends (fun next => ∃ later, Follows next later ∧ ∀ entry ∈ later, next.lastTime.total < entry.1)
      (callExpired behaviour fuel s) := by
  induction fuel generalizing s agenda with
  | zero => omega
  | succ fuel ih =>
      rw [Main.callExpired]
      have waits := follows.waits
      cases listed : s.timers with
      | nil =>
          rw [listed, List.forall₂_nil_left_iff] at waits
          subst waits
          exact ⟨[], follows, by simp⟩
      | cons timer rest =>
          rw [listed] at waits
          obtain ⟨entry, agenda, waitsTimer, waitsRest, rfl⟩ := List.forall₂_cons_left_iff.mp waits
          dsimp only
          have ordered := List.pairwise_cons.mp follows.ordered
          split_ifs with positive
          · rw [timevalIsPositive_iff waitsTimer.length, waitsTimer.left] at positive
            refine ⟨entry :: agenda, follows, ?_⟩
            rw [List.forall_mem_cons]
            have first : s.lastTime.total < entry.1 := by omega
            exact ⟨first, fun other member => lt_of_lt_of_le first (ordered.1 other member)⟩
          · rw [timevalIsPositive_iff waitsTimer.length, waitsTimer.left] at positive
            have due : entry.1 ≤ s.lastTime.total := by omega
            have popped := follows.called_head waitsTimer waitsRest due (behaviour s.world timer.data).1
            refine (popped.performAll _).bind ?_
            rintro next ⟨clock, _, later, holds, fewer⟩
            apply ih holds
            rw [clock]
            rw [overdue, List.countP_cons_of_pos (by simpa using due)] at enough
            exact lt_of_le_of_lt fewer (Nat.lt_of_succ_lt_succ enough)

def NoneDue (s : Timers σ δ) (agenda : List Entry) : Prop := overdue s.lastTime.total agenda = 0

theorem noneDue_iff {s : Timers σ δ} {agenda : List Entry} :
    NoneDue s agenda ↔ ∀ entry ∈ agenda, s.lastTime.total < entry.1 := by
  rw [NoneDue, overdue, List.countP_eq_zero]
  simp only [decide_eq_true_eq, not_le]

theorem waits_passed {clock now passed : Timeval} {timers : List (Timer δ)} {agenda : List Entry}
    (waits : List.Forall₂ (Waits clock.total) timers agenda) (later : ∀ entry ∈ agenda, clock.total < entry.1)
    (normal : passed.Normal) (difference : passed.total = now.total - clock.total) :
    List.Forall₂ (Waits now.total)
      (timers.map fun timer => { timer with interval := timevalSubInterval timer.interval passed }) agenda := by
  induction waits with
  | nil => exact .nil
  | @cons timer entry timers agenda waitsTimer waits ih =>
      rw [List.forall_mem_cons] at later
      obtain ⟨length, left⟩ := timevalSubInterval_spec waitsTimer.length normal
      refine .cons ⟨waitsTimer.same, length, left.trans ?_⟩ (ih later.2)
      have first := later.1
      rw [waitsTimer.left, difference]
      omega

theorem Follows.passTime {s : Timers σ δ} {agenda : List Entry} (follows : Follows s agenda)
    (none : NoneDue s agenda) {now : Timeval} (normal : now.Normal) : Follows (passTime now s) agenda := by
  have passed := timevalSub_normal follows.clock normal
  refine ⟨normal, ?_, follows.ordered, follows.dues, follows.fates, follows.called,
    fun call member => (follows.rounds call member).trans (Nat.le_succ _), fun call member here => ?_,
    follows.inOrder⟩
  · exact waits_passed follows.waits (noneDue_iff.mp none) passed (timevalSub_total s.lastTime now)
  · have before := follows.rounds call member
    have here : call.round = s.round + 1 := here
    omega

theorem Follows.check {s : Timers σ δ} {agenda : List Entry} (follows : Follows s agenda)
    (none : NoneDue s agenda) {now : Timeval} (normal : now.Normal) :
    Ends (fun next => ∃ later, Follows next later ∧ NoneDue next later) (checkTimers behaviour now s) := by
  have passed := follows.passTime none normal
  have few : overdue now.total agenda < s.timers.length + 1 := by
    rw [follows.waits.length_eq]
    exact Nat.lt_succ_of_le List.countP_le_length
  refine (passed.callExpired behaviour few).imp ?_
  rintro next ⟨later, holds, all⟩
  exact ⟨later, holds, noneDue_iff.mpr all⟩

/-! ## Runs -/

/-- What holds between any two events. The timers are in the order in which they run out and none of
them has. Each timer that was set is waiting, stopped or was called, and only one of these, once.
It was called at a time at which it was due, and one round calls the timers in the order in which
they are due. `select` does not sleep through a timer. -/
structure Punctual (s : Timers σ δ) : Prop where
  ordered : s.timers.Pairwise fun a b => a.interval.total ≤ b.interval.total
  waiting : ∀ timer ∈ s.timers, 0 < timer.interval.total ∧
    s.dues[timer.id]? = some (s.lastTime.total + timer.interval.total)
  fates : (s.timers.map (·.id) ++ (s.kills ++ s.calls.map (·.id))).Perm (List.range s.dues.length)
  due : ∀ call ∈ s.calls, ∃ due, s.dues[call.id]? = some due ∧ due ≤ call.time.total
  inOrder : s.calls.Pairwise (Timers.Before s.dues)
  awake : ∀ wait, getNextTimerTime s = some wait → ∀ timer ∈ s.timers, wait.total ≤ timer.interval.total

theorem Follows.punctual {s : Timers σ δ} {agenda : List Entry} (follows : Follows s agenda)
    (none : NoneDue s agenda) : Punctual s := by
  have all := noneDue_iff.mp none
  have numbers : s.timers.map (·.id) = agenda.map Prod.snd := by
    rw [← List.forall₂_eq_eq_eq, List.forall₂_map_left_iff, List.forall₂_map_right_iff]
    exact follows.waits.imp fun {_ _} waits => waits.same
  have lefts : s.timers.map (·.interval.total) = agenda.map (fun entry => max 0 (entry.1 - s.lastTime.total)) := by
    rw [← List.forall₂_eq_eq_eq, List.forall₂_map_left_iff, List.forall₂_map_right_iff]
    exact follows.waits.imp fun {_ _} waits => waits.left
  have ordered : s.timers.Pairwise fun a b => a.interval.total ≤ b.interval.total := by
    rw [← List.pairwise_map (f := fun timer : Timer δ => timer.interval.total) (R := (· ≤ ·)), lefts, List.pairwise_map]
    refine follows.ordered.imp fun {a b} before => ?_
    have before : a.1 ≤ b.1 := before
    omega
  refine ⟨ordered, fun timer member => ?_, ?_, follows.called, follows.inOrder, fun wait next timer member => ?_⟩
  · obtain ⟨place, found⟩ := List.mem_iff_getElem?.mp member
    obtain ⟨bound, rfl⟩ := List.getElem?_eq_some_iff.mp found
    have paired := List.forall₂_iff_get.mp follows.waits
    have waits := paired.2 place bound (paired.1 ▸ bound)
    simp only [List.get_eq_getElem] at waits
    have entered := List.getElem_mem (paired.1 ▸ bound : place < agenda.length)
    have later := all _ entered
    have left := waits.left
    refine ⟨by omega, ?_⟩
    rw [waits.same, follows.dues _ entered]
    congr 1
    omega
  · rw [numbers]
    exact follows.fates.symm
  · cases listed : s.timers with
    | nil => rw [listed] at member; cases member
    | cons first rest =>
        rw [getNextTimerTime, listed] at next
        obtain rfl : first.interval = wait := Option.some.inj next
        rw [listed] at member ordered
        rcases List.mem_cons.mp member with rfl | behind
        · exact le_refl _
        · exact (List.pairwise_cons.mp ordered).1 timer behind

def Event.Readable : Event δ → Prop
  | .act _ => True
  | .check now => now.Normal

theorem Follows.step {s : Timers σ δ} {agenda : List Entry} (follows : Follows s agenda)
    (none : NoneDue s agenda) {event : Event δ} (readable : event.Readable) :
    Ends (fun next => ∃ later, Follows next later ∧ NoneDue next later) (timerStep behaviour s event) := by
  cases event with
  | act action =>
      refine (follows.perform action).imp ?_
      rintro next ⟨clock, _, later, holds, fewer⟩
      refine ⟨later, holds, ?_⟩
      rw [NoneDue] at none
      rw [NoneDue, clock]
      omega
  | check now => exact follows.check behaviour none readable

theorem runTimers_follows {s : Timers σ δ} {agenda : List Entry} (follows : Follows s agenda)
    (none : NoneDue s agenda) {events : List (Event δ)} (readable : ∀ event ∈ events, event.Readable) :
    Ends (fun next => ∃ later, Follows next later ∧ NoneDue next later) (runTimers behaviour s events) := by
  induction events generalizing s agenda with
  | nil => exact ⟨agenda, follows, none⟩
  | cons event rest ih =>
      rw [List.forall_mem_cons] at readable
      rw [runTimers, List.foldlM_cons]
      refine (follows.step behaviour none readable.1).bind ?_
      rintro next ⟨later, holds, noneLater⟩
      exact ih holds noneLater readable.2

theorem noTimers_follows {now : Timeval} (normal : now.Normal) (world : σ) :
    Follows (noTimers world now : Timers σ δ) [] :=
  ⟨normal, .nil, .nil, by simp, List.Perm.refl _, by simp [noTimers], by simp [noTimers], by simp [noTimers], .nil⟩

/-- Whatever the called functions do, every round of `check_timers` ends, and the timers are punctual
behind every event, unless the program stops a timer that is no longer waiting. -/
theorem runTimers_punctual (behaviour : Behaviour σ δ) (world : σ) {start : Timeval} (normal : start.Normal)
    {events : List (Event δ)} (readable : ∀ event ∈ events, event.Readable) :
    Ends Punctual (runTimers behaviour (noTimers world start) events) := by
  refine (runTimers_follows behaviour (noTimers_follows normal world) rfl readable).imp ?_
  rintro next ⟨later, follows, none⟩
  exact follows.punctual none

/-- A timer that sets another one, which is due at the second check. -/
theorem runTimers_punctual_two :
    Ends Punctual (runTimers (fun (calls : Nat) (_ : Unit) => (calls + 1, [.install 5 ()])) (noTimers 0 ⟨7, 0⟩)
      [.act (.install 3 ()), .check ⟨7, 4000⟩, .check ⟨7, 9000⟩]) :=
  runTimers_punctual _ 0 ⟨by decide, by decide⟩ (by
    simp only [List.forall_mem_cons]
    exact ⟨trivial, ⟨by decide, by decide⟩, ⟨by decide, by decide⟩, by simp⟩)

end KcnTools.Main
