import Mathlib
import KcnTools.Lib.MarkWindow
import KcnTools.Lib.Run

/-!
The count of the answers in `ping.c`. A table has a bit for each of the last 16384 packets; `pinger`
clears the bit of a new packet, and `pr_pack` sets the bits of those that are answered. The counters
are of type `int` there: `npackets` keeps the first two below 2^31, and `nrepeats` is right for as many
repeated answers.
-/

namespace KcnTools.Ping

open MarkWindow (Tracks)

def maxDupChk : Nat := 8 * 2048

structure RcvdTbl where
  bytes : List UInt8
  size : bytes.length = maxDupChk / 8

def byteInArray (seq : Nat) : Nat := seq / 8 % (maxDupChk / 8)

def bitInByte (seq : Nat) : UInt8 := 1 <<< UInt8.ofNat (seq % 8)

def RcvdTbl.set (tbl : RcvdTbl) (seq : Nat) : RcvdTbl where
  bytes := tbl.bytes.modify (byteInArray seq) (· ||| bitInByte seq)
  size := (List.length_modify _ _ _).trans tbl.size

def RcvdTbl.clr (tbl : RcvdTbl) (seq : Nat) : RcvdTbl where
  bytes := tbl.bytes.modify (byteInArray seq) (· &&& ~~~bitInByte seq)
  size := (List.length_modify _ _ _).trans tbl.size

def RcvdTbl.tst (tbl : RcvdTbl) (seq : Nat) : Bool :=
  tbl.bytes.getD (byteInArray seq) 0 &&& bitInByte seq != 0

structure Counters where
  rcvdTbl : RcvdTbl
  ntransmitted : Nat
  nreceived : Nat
  nrepeats : Nat
  lastrcvd : Bool
  lastSeqno : UInt16

def pinger (counters : Counters) : Counters :=
  { counters with
    lastrcvd := false
    rcvdTbl := counters.rcvdTbl.clr counters.ntransmitted
    ntransmitted := counters.ntransmitted + 1 }

/-- What is printed of an answer: whether it is a duplicate, and how many packets are missing before it. -/
structure Printed where
  dupflag : Bool
  gap : UInt16

def prPack (counters : Counters) (seqno : UInt16) : Counters × Printed :=
  let lastrcvd := counters.lastrcvd || seqno == UInt16.ofNat counters.ntransmitted - 1
  if counters.rcvdTbl.tst seqno.toNat then
    -- nreceived has been raised and is lowered again.
    ({ counters with
        lastrcvd := lastrcvd
        nrepeats := counters.nrepeats + 1 },
      { dupflag := true, gap := 0 })
  else
    let gap := seqno - (counters.lastSeqno + 1)
    ({ counters with
        lastrcvd := lastrcvd
        nreceived := counters.nreceived + 1
        rcvdTbl := counters.rcvdTbl.set seqno.toNat
        lastSeqno := if gap < 0x8000 then seqno else counters.lastSeqno },
      { dupflag := false, gap := if gap < 0x8000 then gap else 0 })

/-- An answer to the packet of this number, and what was printed of it. -/
structure Answer where
  number : Nat
  printed : Printed

structure Session where
  counters : Counters
  answers : List Answer

inductive Event where
  | send
  | answer (number : Nat)

def Session.step (session : Session) : Event → Option Session
  | .send => some { session with counters := pinger session.counters }
  | .answer number =>
      if number < session.counters.ntransmitted then
        let result := prPack session.counters (UInt16.ofNat number)
        some ⟨result.1, ⟨number, result.2⟩ :: session.answers⟩
      else none

def start : Session where
  counters :=
    { rcvdTbl := ⟨List.replicate (maxDupChk / 8) 0, List.length_replicate⟩
      ntransmitted := 0
      nreceived := 0
      nrepeats := 0
      lastrcvd := true
      lastSeqno := 0xffff }
  answers := []

def InTime (session : Session) : Event → Prop
  | .send => True
  | .answer number => session.counters.ntransmitted ≤ number + maxDupChk

def numbers (answers : List Answer) : Finset Nat := (answers.map Answer.number).toFinset

/-- Exactly the answers to packets that have been answered before are printed as duplicates. -/
def FlagsRepeats : List Answer → Prop
  | [] => True
  | answer :: earlier =>
      (answer.printed.dupflag = true ↔ answer.number ∈ numbers earlier) ∧ FlagsRepeats earlier

def answeredTo : List Answer → Nat
  | [] => 0
  | answer :: earlier => max (answer.number + 1) (answeredTo earlier)

/-- The gap of each answer is the number of the packets between it and those answered so far. -/
def ReportsGaps : List Answer → Prop
  | [] => True
  | answer :: earlier =>
      answer.printed.gap.toNat = answer.number - answeredTo earlier ∧ ReportsGaps earlier

def Steady (session : Session) : Event → Prop
  | .send => True
  | .answer number =>
      session.counters.ntransmitted ≤ number + maxDupChk ∧ number < answeredTo session.answers + 0x8000

theorem bitInByte_toNat (seq : Nat) : (bitInByte seq).toNat = 2 ^ (seq % 8) := by
  have shifted : ∀ position < 8, ((1 : UInt8) <<< UInt8.ofNat position).toNat = 2 ^ position := by decide
  exact shifted (seq % 8) (Nat.mod_lt seq (by omega))

theorem and_bitInByte (byte : UInt8) (seq : Nat) :
    (byte &&& bitInByte seq != 0) = byte.toNat.testBit (seq % 8) := by
  have value : (byte &&& bitInByte seq).toNat = (byte.toNat.testBit (seq % 8)).toNat * 2 ^ (seq % 8) := by
    rw [UInt8.toNat_and, bitInByte_toNat, Nat.and_two_pow]
  rw [bne, Bool.not_eq_eq_eq_not, Bool.eq_iff_iff, beq_iff_eq, ← UInt8.toNat_inj, value]
  cases tested : byte.toNat.testBit (seq % 8) with
  | false => simp
  | true => simp

theorem not_bitInByte_testBit (seq : Nat) {position : Nat} (small : position < 8) :
    (~~~bitInByte seq).toNat.testBit position = decide (seq % 8 ≠ position) := by
  rw [UInt8.toNat_not, bitInByte_toNat]
  have cases : ∀ first < 8, ∀ second < 8, (UInt8.size - 1 - 2 ^ first).testBit second = decide (first ≠ second) := by
    decide
  exact cases (seq % 8) (Nat.mod_lt seq (by decide)) position small

theorem RcvdTbl.tst_eq (tbl : RcvdTbl) (seq : Nat) :
    tbl.tst seq = (tbl.bytes.getD (byteInArray seq) 0).toNat.testBit (seq % 8) :=
  and_bitInByte _ _

/-- The bits in a byte and the byte are those of the number modulo the size of the table. -/
theorem place_iff (seq other : Nat) :
    byteInArray seq = byteInArray other ∧ seq % 8 = other % 8 ↔ seq % maxDupChk = other % maxDupChk := by
  simp only [byteInArray, maxDupChk]
  omega

theorem RcvdTbl.tst_mod (tbl : RcvdTbl) (seq : Nat) : tbl.tst (seq % maxDupChk) = tbl.tst seq := by
  obtain ⟨byte, bit⟩ := (place_iff (seq % maxDupChk) seq).mpr (Nat.mod_mod _ _)
  rw [tst_eq, tst_eq, byte, bit]

theorem RcvdTbl.byte_stored (tbl : RcvdTbl) (seq : Nat) : byteInArray seq < tbl.bytes.length := by
  rw [tbl.size]
  exact Nat.mod_lt _ (by decide)

theorem RcvdTbl.getD_modify (tbl : RcvdTbl) (change : UInt8 → UInt8) (seq other : Nat) :
    (tbl.bytes.modify (byteInArray seq) change).getD (byteInArray other) 0 =
      if byteInArray seq = byteInArray other then change (tbl.bytes.getD (byteInArray other) 0)
      else tbl.bytes.getD (byteInArray other) 0 := by
  simp only [List.getD_eq_getElem?_getD, List.getElem?_modify, List.getElem?_eq_getElem (tbl.byte_stored other)]
  split <;> simp_all

theorem RcvdTbl.tst_set (tbl : RcvdTbl) (seq other : Nat) :
    (tbl.set seq).tst other = (tbl.tst other || decide (other % maxDupChk = seq % maxDupChk)) := by
  rw [tst_eq, tst_eq, set, getD_modify]
  simp only [← place_iff]
  by_cases same : byteInArray seq = byteInArray other
  · rw [if_pos same, UInt8.toNat_or, Nat.testBit_or, bitInByte_toNat, Nat.testBit_two_pow]
    simp [same, eq_comm]
  · rw [if_neg same]
    simp [Ne.symm same]

theorem RcvdTbl.tst_clr (tbl : RcvdTbl) (seq other : Nat) :
    (tbl.clr seq).tst other = (tbl.tst other && decide (other % maxDupChk ≠ seq % maxDupChk)) := by
  rw [tst_eq, tst_eq, clr, getD_modify]
  simp only [← place_iff, ne_eq]
  by_cases same : byteInArray seq = byteInArray other
  · have small : other % 8 < 8 := Nat.mod_lt _ (by decide)
    rw [if_pos same, UInt8.toNat_and, Nat.testBit_and, not_bitInByte_testBit _ small]
    simp [same, eq_comm]
  · rw [if_neg same]
    simp [Ne.symm same]

theorem numbers_cons (answer : Answer) (earlier : List Answer) :
    numbers (answer :: earlier) = insert answer.number (numbers earlier) := by
  rw [numbers, List.map_cons, List.toFinset_cons, numbers]

theorem answeredTo_bound {answers : List Answer} {number : Nat} (answered : number ∈ numbers answers) :
    number < answeredTo answers := by
  induction answers with
  | nil => simp [numbers] at answered
  | cons answer earlier ih =>
      rw [numbers_cons, Finset.mem_insert] at answered
      rw [answeredTo, lt_max_iff]
      rcases answered with rfl | before
      · exact .inl (Nat.lt_succ_self _)
      · exact .inr (ih before)

theorem answeredTo_le {answers : List Answer} {count : Nat} (sent : ∀ number ∈ numbers answers, number < count) :
    answeredTo answers ≤ count := by
  induction answers with
  | nil => exact Nat.zero_le _
  | cons answer earlier ih =>
      rw [numbers_cons, Finset.forall_mem_insert] at sent
      exact max_le sent.1 (ih sent.2)

/-- The counts of a session are those of the packets that were sent and answered. -/
structure Tallied (session : Session) : Prop where
  sent : ∀ number ∈ numbers session.answers, number < session.counters.ntransmitted
  tracks : Tracks maxDupChk session.counters.ntransmitted session.counters.rcvdTbl.tst (numbers session.answers)
  received : session.counters.nreceived = (numbers session.answers).card
  together : session.counters.nreceived + session.counters.nrepeats = session.answers.length
  lastrcvd : session.counters.lastrcvd = true ↔
    session.counters.ntransmitted = 0 ∨ session.counters.ntransmitted - 1 ∈ numbers session.answers
  flags : FlagsRepeats session.answers

theorem start_tallied : Tallied start where
  sent := by simp [start, numbers]
  tracks := MarkWindow.tracks_zero _ _
  received := by simp [start, numbers]
  together := rfl
  lastrcvd := by simp [start]
  flags := trivial

theorem seqno_slot (number : Nat) : (UInt16.ofNat number).toNat % maxDupChk = number % maxDupChk := by
  rw [UInt16.toNat_ofNat']
  exact Nat.mod_mod_of_dvd number (by decide)

variable {session : Session} {number : Nat}

theorem Tallied.tst_iff (tallied : Tallied session) (sent : number < session.counters.ntransmitted)
    (inTime : session.counters.ntransmitted ≤ number + maxDupChk) :
    session.counters.rcvdTbl.tst (UInt16.ofNat number).toNat = true ↔ number ∈ numbers session.answers := by
  rw [← RcvdTbl.tst_mod, seqno_slot]
  exact tallied.tracks number sent inTime

theorem seqno_last (sent : number < session.counters.ntransmitted)
    (inTime : session.counters.ntransmitted ≤ number + maxDupChk) :
    UInt16.ofNat number = UInt16.ofNat session.counters.ntransmitted - 1 ↔
      number = session.counters.ntransmitted - 1 := by
  simp only [maxDupChk] at inTime
  rw [← UInt16.toNat_inj, UInt16.toNat_sub, UInt16.toNat_ofNat', UInt16.toNat_ofNat', UInt16.toNat_one]
  omega

theorem Tallied.send (tallied : Tallied session) :
    Tallied { session with counters := pinger session.counters } where
  sent number answered := Nat.lt_succ_of_lt (tallied.sent number answered)
  tracks := tallied.tracks.next (fun answered => Nat.lt_irrefl _ (tallied.sent _ answered)) fun other => by
    rw [pinger, RcvdTbl.tst_clr, Nat.mod_mod]
  received := tallied.received
  together := tallied.together
  lastrcvd := by
    have fresh : session.counters.ntransmitted ∉ numbers session.answers :=
      fun answered => Nat.lt_irrefl _ (tallied.sent _ answered)
    simp [pinger, fresh]
  flags := tallied.flags

theorem Tallied.answer (tallied : Tallied session) (sent : number < session.counters.ntransmitted)
    (inTime : session.counters.ntransmitted ≤ number + maxDupChk) {counters : Counters} {printed : Printed}
    (result : prPack session.counters (UInt16.ofNat number) = (counters, printed)) :
    Tallied ⟨counters, ⟨number, printed⟩ :: session.answers⟩ := by
  have positive : session.counters.ntransmitted ≠ 0 := by omega
  have last : (session.counters.lastrcvd ||
        UInt16.ofNat number == UInt16.ofNat session.counters.ntransmitted - 1) = true ↔
      session.counters.ntransmitted = 0 ∨
        session.counters.ntransmitted - 1 ∈ insert number (numbers session.answers) := by
    rw [Bool.or_eq_true, tallied.lastrcvd, beq_iff_eq, seqno_last sent inTime, Finset.mem_insert]
    tauto
  have bounds : ∀ other ∈ insert number (numbers session.answers), other < session.counters.ntransmitted :=
    Finset.forall_mem_insert _ _ _ |>.mpr ⟨sent, tallied.sent⟩
  have tested := tallied.tst_iff sent inTime
  rw [prPack] at result
  by_cases answered : number ∈ numbers session.answers
  · have same : insert number (numbers session.answers) = numbers session.answers :=
      Finset.insert_eq_of_mem answered
    rw [if_pos (tested.mpr answered), Prod.mk.injEq] at result
    obtain ⟨rfl, rfl⟩ := result
    constructor
    · rw [numbers_cons]
      exact bounds
    · rw [numbers_cons, same]
      exact tallied.tracks
    · rw [numbers_cons, same]
      exact tallied.received
    · rw [List.length_cons, ← tallied.together, Nat.add_assoc]
    · rw [numbers_cons]
      exact last
    · exact ⟨iff_of_true rfl answered, tallied.flags⟩
  · rw [if_neg (mt tested.mp answered), Prod.mk.injEq] at result
    obtain ⟨rfl, rfl⟩ := result
    constructor
    · rw [numbers_cons]
      exact bounds
    · rw [numbers_cons]
      refine tallied.tracks.mark sent inTime fun other => ?_
      rw [RcvdTbl.tst_set, Nat.mod_mod, seqno_slot]
    · rw [numbers_cons, Finset.card_insert_of_notMem answered, ← tallied.received]
    · rw [List.length_cons, ← tallied.together]
      exact Nat.add_right_comm _ _ _
    · rw [numbers_cons]
      exact last
    · exact ⟨iff_of_false Bool.false_ne_true answered, tallied.flags⟩

theorem step_cases {session next : Session} {event : Event} (stepped : session.step event = some next) :
    (event = .send ∧ next = { session with counters := pinger session.counters }) ∨
      ∃ number, event = .answer number ∧ number < session.counters.ntransmitted ∧
        next = ⟨(prPack session.counters (UInt16.ofNat number)).1,
          ⟨number, (prPack session.counters (UInt16.ofNat number)).2⟩ :: session.answers⟩ := by
  cases event with
  | send => exact .inl ⟨rfl, (Option.some.inj stepped).symm⟩
  | answer number =>
      rw [Session.step, Option.ite_none_right_eq_some, Option.some.injEq] at stepped
      exact .inr ⟨number, rfl, stepped.1, stepped.2.symm⟩

theorem step_tallied (session : Session) (event : Event) (next : Session) (tallied : Tallied session)
    (inTime : InTime session event) (stepped : session.step event = some next) : Tallied next := by
  obtain ⟨rfl, rfl⟩ | ⟨number, rfl, sent, rfl⟩ := step_cases stepped
  · exact tallied.send
  · exact tallied.answer sent inTime rfl

theorem prPack_ntransmitted (counters : Counters) (seqno : UInt16) :
    (prPack counters seqno).1.ntransmitted = counters.ntransmitted := by
  simp only [prPack]
  split <;> rfl

theorem step_ntransmitted {session next : Session} {event : Event} (stepped : session.step event = some next) :
    next.counters.ntransmitted ≤ session.counters.ntransmitted + 1 := by
  obtain ⟨rfl, rfl⟩ | ⟨number, rfl, sent, rfl⟩ := step_cases stepped
  · exact Nat.le_refl _
  · rw [prPack_ntransmitted]
    exact Nat.le_succ _

theorem short_inTime {events : List Event} (short : session.counters.ntransmitted + events.length ≤ maxDupChk) :
    Run.Admitted Session.step InTime session events := by
  induction events generalizing session with
  | nil => trivial
  | cons event rest ih =>
      rw [List.length_cons] at short
      refine ⟨?_, fun next stepped => ih ?_⟩
      · cases event with
        | send => trivial
        | answer number => exact (by omega : session.counters.ntransmitted ≤ number + maxDupChk)
      · have counted := step_ntransmitted stepped
        omega

theorem answers_tallied {events : List Event} {session : Session}
    (inTime : Run.Admitted Session.step InTime start events)
    (reached : Run.run Session.step start events = some session) :
    session.counters.nreceived = (numbers session.answers).card ∧
      session.counters.nreceived + session.counters.nrepeats = session.answers.length ∧
      session.counters.nreceived ≤ session.counters.ntransmitted ∧
      (session.counters.lastrcvd = true ↔
        session.counters.ntransmitted = 0 ∨ session.counters.ntransmitted - 1 ∈ numbers session.answers) ∧
      FlagsRepeats session.answers := by
  have tallied : Tallied session := Run.run_preserves Tallied step_tallied start_tallied inTime reached
  refine ⟨tallied.received, tallied.together, ?_, tallied.lastrcvd, tallied.flags⟩
  have inside : numbers session.answers ⊆ Finset.range session.counters.ntransmitted :=
    fun number answered => Finset.mem_range.mpr (tallied.sent number answered)
  calc session.counters.nreceived = (numbers session.answers).card := tallied.received
    _ ≤ (Finset.range session.counters.ntransmitted).card := Finset.card_le_card inside
    _ = session.counters.ntransmitted := Finset.card_range _

theorem answers_tallied_two : ∃ session,
    Run.run Session.step start [.send, .send, .answer 1, .answer 1] = some session ∧
      session.counters.nreceived = (numbers session.answers).card ∧
      session.counters.nreceived + session.counters.nrepeats = session.answers.length ∧
      session.counters.nreceived ≤ session.counters.ntransmitted ∧
      (session.counters.lastrcvd = true ↔
        session.counters.ntransmitted = 0 ∨ session.counters.ntransmitted - 1 ∈ numbers session.answers) ∧
      FlagsRepeats session.answers := by
  have inTime : Run.Admitted Session.step InTime start [.send, .send, .answer 1, .answer 1] :=
    short_inTime (by decide)
  exact ⟨_, rfl, answers_tallied inTime rfl⟩

theorem gap_lt_iff {count highest : Nat} (known : highest ≤ count) (inTime : count ≤ number + maxDupChk)
    (steady : number < highest + 0x8000) :
    UInt16.ofNat number - UInt16.ofNat highest < 0x8000 ↔ highest ≤ number := by
  simp only [maxDupChk] at inTime
  rw [UInt16.lt_iff_toNat_lt, UInt16.toNat_sub, UInt16.toNat_ofNat', UInt16.toNat_ofNat']
  change _ < 0x8000 ↔ _
  omega

theorem gap_toNat {highest : Nat} (ahead : highest ≤ number) (steady : number < highest + 0x8000) :
    (UInt16.ofNat number - UInt16.ofNat highest).toNat = number - highest := by
  rw [UInt16.toNat_sub, UInt16.toNat_ofNat', UInt16.toNat_ofNat']
  omega

structure Gapped (session : Session) : Prop where
  tallied : Tallied session
  lastSeqno : session.counters.lastSeqno + 1 = UInt16.ofNat (answeredTo session.answers)
  gaps : ReportsGaps session.answers

theorem Gapped.answer (gapped : Gapped session) (sent : number < session.counters.ntransmitted)
    (steady : Steady session (.answer number)) {counters : Counters} {printed : Printed}
    (result : prPack session.counters (UInt16.ofNat number) = (counters, printed)) :
    Gapped ⟨counters, ⟨number, printed⟩ :: session.answers⟩ := by
  obtain ⟨inTime, near⟩ := steady
  have highest : answeredTo session.answers ≤ session.counters.ntransmitted := answeredTo_le gapped.tallied.sent
  have tested := gapped.tallied.tst_iff sent inTime
  have kept : counters.lastSeqno + 1 = UInt16.ofNat (max (number + 1) (answeredTo session.answers)) ∧
      printed.gap.toNat = number - answeredTo session.answers := by
    rw [prPack] at result
    by_cases answered : number ∈ numbers session.answers
    · rw [if_pos (tested.mpr answered), Prod.mk.injEq] at result
      obtain ⟨rfl, rfl⟩ := result
      have below := answeredTo_bound answered
      rw [max_eq_right below, Nat.sub_eq_zero_of_le below.le]
      exact ⟨gapped.lastSeqno, rfl⟩
    · rw [if_neg (mt tested.mp answered), Prod.mk.injEq, gapped.lastSeqno] at result
      obtain ⟨rfl, rfl⟩ := result
      have distance := gap_lt_iff highest inTime near
      by_cases ahead : answeredTo session.answers ≤ number
      · rw [if_pos (distance.mpr ahead), if_pos (distance.mpr ahead), max_eq_left (Nat.le_succ_of_le ahead)]
        exact ⟨(UInt16.ofNat_add number 1).symm, gap_toNat ahead near⟩
      · have behind : number < answeredTo session.answers := Nat.lt_of_not_le ahead
        rw [if_neg (mt distance.mp ahead), if_neg (mt distance.mp ahead), max_eq_right behind,
          Nat.sub_eq_zero_of_le behind.le]
        exact ⟨gapped.lastSeqno, rfl⟩
  exact ⟨gapped.tallied.answer sent inTime result, kept.1, kept.2, gapped.gaps⟩

theorem step_gapped (session : Session) (event : Event) (next : Session) (gapped : Gapped session)
    (steady : Steady session event) (stepped : session.step event = some next) : Gapped next := by
  obtain ⟨rfl, rfl⟩ | ⟨number, rfl, sent, rfl⟩ := step_cases stepped
  · exact ⟨gapped.tallied.send, gapped.lastSeqno, gapped.gaps⟩
  · exact gapped.answer sent steady rfl

theorem gaps_reported {events : List Event} {session : Session}
    (steady : Run.Admitted Session.step Steady start events)
    (reached : Run.run Session.step start events = some session) : ReportsGaps session.answers :=
  (Run.run_preserves Gapped step_gapped ⟨start_tallied, rfl, trivial⟩ steady reached).gaps

theorem gaps_reported_two : ∃ session,
    Run.run Session.step start [.send, .send, .answer 1] = some session ∧ ReportsGaps session.answers := by
  have steady : Run.Admitted Session.step Steady start [.send, .send, .answer 1] := by
    refine ⟨trivial, fun first sent => ⟨trivial, fun second more => ⟨?_, fun _ _ => trivial⟩⟩⟩
    have once := step_ntransmitted sent
    have twice := step_ntransmitted more
    exact ⟨twice.trans ((Nat.succ_le_succ once).trans (by decide)), by omega⟩
  exact ⟨_, rfl, gaps_reported steady rfl⟩

end KcnTools.Ping
