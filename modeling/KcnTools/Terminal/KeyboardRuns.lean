import KcnTools.Lib.Run
import KcnTools.Terminal.Keyboard

/-!
The keyboard decoder and the way its bytes arrive. What is found at the front of the queue
stays the same when more bytes come, except for a pair of escapes with nothing behind it.
-/

namespace KcnTools.Terminal

open Run

section Front

theorem escCodeFrom_append {pos num : Nat} {str : List UInt8} (found : (escCodeFrom pos num str).code ≠ 0)
    (more : List UInt8) : escCodeFrom pos num (str ++ more) = escCodeFrom pos num str := by
  induction str generalizing pos num with
  | nil => exact absurd rfl found
  | cons c str ih =>
      rw [escCodeFrom] at found ⊢
      rw [List.cons_append, escCodeFrom]
      split
      · rfl
      next digit =>
        rw [if_neg digit] at found
        exact ih found

theorem escCodeFrom_length {pos num : Nat} {str : List UInt8} (found : (escCodeFrom pos num str).code ≠ 0) :
    pos < (escCodeFrom pos num str).length ∧ (escCodeFrom pos num str).length ≤ pos + str.length := by
  induction str generalizing pos num with
  | nil => exact absurd rfl found
  | cons c str ih =>
      rw [List.length_cons]
      rw [escCodeFrom] at found ⊢
      split
      · constructor <;> dsimp only <;> omega
      next digit =>
        rw [if_neg digit] at found
        have rest := ih found
        omega

theorem getEscCode_append {queue : List UInt8} (long : 2 ≤ queue.length) (found : (getEscCode queue).code ≠ 0)
    (more : List UInt8) : getEscCode (queue ++ more) = getEscCode queue := by
  rw [getEscCode, List.drop_append_of_le_length long]
  exact escCodeFrom_append found more

theorem getEscCode_length {queue : List UInt8} (long : 2 ≤ queue.length) (found : (getEscCode queue).code ≠ 0) :
    2 < (getEscCode queue).length ∧ (getEscCode queue).length ≤ queue.length := by
  have bounds := escCodeFrom_length found
  rw [List.length_drop] at bounds
  rw [getEscCode]
  omega

theorem byteAt_append {queue : List UInt8} {index : Nat} (inside : index < queue.length) (more : List UInt8) :
    byteAt (queue ++ more) index = byteAt queue index := by
  rw [byteAt, byteAt, List.getD_append _ _ _ _ inside]

theorem decodeMousePosition_append {queue : List UInt8} {start : Nat} (inside : start + 1 < queue.length)
    (more : List UInt8) : decodeMousePosition (queue ++ more) start = decodeMousePosition queue start := by
  rw [decodeMousePosition, decodeMousePosition, byteAt_append (by omega), byteAt_append inside]

variable {queue : List UInt8} {ev : TermEvent} {el v : Nat} {xtermButton : Int}

theorem mouseSequence_bounds (taken : (decodeTerminalMouseEscapeSequence queue ev el v xtermButton).el ≠ -1) :
    (el : Int) < (decodeTerminalMouseEscapeSequence queue ev el v xtermButton).el ∧
      (decodeTerminalMouseEscapeSequence queue ev el v xtermButton).el ≤ queue.length := by
  rw [decodeTerminalMouseEscapeSequence] at taken ⊢
  split
  next short => exact absurd (by rw [if_pos short]) taken
  next long =>
    rw [if_neg long] at taken
    split
    next twin =>
      rw [if_pos twin] at taken
      dsimp only at taken ⊢
      split
      next short => exact absurd (by rw [if_pos short]) taken
      next => dsimp only; omega
    next => dsimp only; omega

theorem mouseSequence_append (taken : (decodeTerminalMouseEscapeSequence queue ev el v xtermButton).el ≠ -1)
    (more : List UInt8) :
    decodeTerminalMouseEscapeSequence (queue ++ more) ev el v xtermButton =
      decodeTerminalMouseEscapeSequence queue ev el v xtermButton := by
  rw [decodeTerminalMouseEscapeSequence] at taken
  rw [decodeTerminalMouseEscapeSequence, decodeTerminalMouseEscapeSequence, List.length_append]
  by_cases short : queue.length < el + 3
  · exact absurd (by rw [if_pos short]) taken
  · rw [if_neg short] at taken ⊢
    rw [if_neg (by omega)]
    by_cases twin : v = 5
    · rw [if_pos twin] at taken ⊢
      rw [if_pos twin]
      dsimp only at taken ⊢
      by_cases waits : queue.length < el + 5
      · exact absurd (by rw [if_pos waits]) taken
      · rw [if_neg waits, if_neg (by omega), byteAt_append (by omega),
          decodeMousePosition_append (by omega), decodeMousePosition_append (by omega)]
    · rw [if_neg twin, if_neg twin]
      dsimp only
      rw [List.getD_append _ _ _ _ (by omega), byteAt_append (by omega), byteAt_append (by omega)]

theorem mouseSequence_prepared (long : ¬ queue.length < el + 3) :
    decodeTerminalMouseEscapeSequence queue ev el 5 (if xtermButton = -1 then 0 else xtermButton) =
      decodeTerminalMouseEscapeSequence queue ev el 5 xtermButton := by
  by_cases fresh : xtermButton = -1
  · rw [if_pos fresh, fresh, decodeTerminalMouseEscapeSequence, decodeTerminalMouseEscapeSequence,
      if_neg long, if_neg long]
    rfl
  · rw [if_neg fresh]

theorem mouseSequence_wait (waits : (decodeTerminalMouseEscapeSequence queue ev el v xtermButton).el = -1)
    (more : List UInt8) :
    decodeTerminalMouseEscapeSequence (queue ++ more) ev el v
        (decodeTerminalMouseEscapeSequence queue ev el v xtermButton).xtermButton =
      decodeTerminalMouseEscapeSequence (queue ++ more) ev el v xtermButton := by
  by_cases short : queue.length < el + 3
  · congr 1
    rw [decodeTerminalMouseEscapeSequence, if_pos short]
  · by_cases twin : v = 5
    · subst twin
      have prepared : (decodeTerminalMouseEscapeSequence queue ev el 5 xtermButton).xtermButton =
          if xtermButton = -1 then 0 else xtermButton := by
        rw [decodeTerminalMouseEscapeSequence, if_neg short, if_pos rfl] at waits ⊢
        dsimp only at waits ⊢
        by_cases unfinished : queue.length < el + 5
        · rw [if_pos unfinished]
        · rw [if_neg unfinished] at waits
          dsimp only at waits
          omega
      rw [prepared]
      apply mouseSequence_prepared
      rw [List.length_append]
      omega
    · rw [decodeTerminalMouseEscapeSequence, if_neg short, if_neg twin] at waits
      dsimp only at waits
      omega

theorem escapeSequence_bounds (taken : (decodeTerminalEscapeSequence queue ev xtermButton).el ≠ -1) :
    0 < (decodeTerminalEscapeSequence queue ev xtermButton).el ∧
      (decodeTerminalEscapeSequence queue ev xtermButton).el ≤ queue.length := by
  rw [decodeTerminalEscapeSequence] at taken ⊢
  split
  next short => exact absurd (by rw [if_pos short]) taken
  next long =>
    rw [if_neg long] at taken
    split
    next linux =>
      rw [if_pos linux] at taken
      split
      next => dsimp only; omega
      next waits => exact absurd (by rw [if_neg waits]) taken
    next other =>
      rw [if_neg other] at taken
      dsimp only at taken ⊢
      split
      next waits => exact absurd (by rw [if_pos waits]) taken
      next found =>
        have bounds := getEscCode_length (by omega) found
        rw [if_neg found] at taken
        split
        next mouse =>
          rw [if_pos mouse] at taken
          have longer := mouseSequence_bounds taken
          omega
        next => dsimp only; omega

theorem escapeSequence_append (taken : (decodeTerminalEscapeSequence queue ev xtermButton).el ≠ -1)
    (more : List UInt8) :
    decodeTerminalEscapeSequence (queue ++ more) ev xtermButton =
      decodeTerminalEscapeSequence queue ev xtermButton := by
  rw [decodeTerminalEscapeSequence] at taken
  rw [decodeTerminalEscapeSequence, decodeTerminalEscapeSequence, List.length_append]
  by_cases short : queue.length < 3
  · exact absurd (by rw [if_pos short]) taken
  · rw [if_neg short] at taken ⊢
    rw [if_neg (by omega), List.getD_append _ _ _ _ (by omega)]
    by_cases linux : queue.getD 2 0 = 91
    · rw [if_pos linux] at taken ⊢
      rw [if_pos linux]
      by_cases function : queue.length ≥ 4 ∧ 65 ≤ queue.getD 3 0 ∧ queue.getD 3 0 ≤ 76
      · rw [if_pos function, List.getD_append _ _ _ _ (by omega), if_pos ⟨by omega, function.2⟩,
          byteAt_append (by omega)]
      · exact absurd (by rw [if_neg function]) taken
    · rw [if_neg linux] at taken ⊢
      rw [if_neg linux]
      dsimp only at taken ⊢
      by_cases waits : (getEscCode queue).code = 0
      · exact absurd (by rw [if_pos waits]) taken
      · rw [if_neg waits] at taken ⊢
        rw [getEscCode_append (by omega) waits, if_neg waits]
        by_cases mouse : (getEscCode queue).code = 77
        · rw [if_pos mouse] at taken ⊢
          rw [if_pos mouse, mouseSequence_append taken]
        · rw [if_neg mouse, if_neg mouse]

theorem escapeSequence_wait (waits : (decodeTerminalEscapeSequence queue ev xtermButton).el = -1)
    (more : List UInt8) :
    decodeTerminalEscapeSequence (queue ++ more) ev (decodeTerminalEscapeSequence queue ev xtermButton).xtermButton =
      decodeTerminalEscapeSequence (queue ++ more) ev xtermButton := by
  by_cases short : queue.length < 3
  · congr 1
    rw [decodeTerminalEscapeSequence, if_pos short]
  · by_cases linux : queue.getD 2 0 = 91
    · congr 1
      rw [decodeTerminalEscapeSequence, if_neg short, if_pos linux]
      split <;> rfl
    · by_cases unfinished : (getEscCode queue).code = 0
      · congr 1
        rw [decodeTerminalEscapeSequence, if_neg short, if_neg linux]
        dsimp only
        rw [if_pos unfinished]
      · by_cases mouse : (getEscCode queue).code = 77
        · have decoded (more : List UInt8) (button : Int) : decodeTerminalEscapeSequence (queue ++ more) ev button =
              decodeTerminalMouseEscapeSequence (queue ++ more) ev (getEscCode queue).length (getEscCode queue).num
              button := by
            rw [decodeTerminalEscapeSequence, List.length_append, if_neg (by omega),
              List.getD_append _ _ _ _ (by omega), if_neg linux]
            dsimp only
            rw [getEscCode_append (by omega) unfinished, if_neg unfinished, if_pos mouse]
          have here := decoded []
          rw [List.append_nil] at here
          rw [here] at waits ⊢
          rw [decoded, decoded, mouseSequence_wait waits]
        · rw [decodeTerminalEscapeSequence, if_neg short, if_neg linux] at waits
          dsimp only at waits
          rw [if_neg unfinished, if_neg mouse] at waits
          dsimp only at waits
          omega

theorem frontSequence_bounds (nonempty : queue ≠ []) (taken : (frontSequence queue xtermButton).el ≠ -1) :
    0 < (frontSequence queue xtermButton).el ∧ (frontSequence queue xtermButton).el ≤ queue.length := by
  have positive := List.length_pos_iff.mpr nonempty
  rw [frontSequence] at taken ⊢
  split
  next escape =>
    rw [if_pos escape] at taken
    split
    next short => exact absurd (by rw [if_pos short]) taken
    next long =>
      rw [if_neg long] at taken
      split
      next opens =>
        rw [if_pos opens] at taken
        exact escapeSequence_bounds taken
      next =>
        split
        · dsimp only
          split <;> omega
        · dsimp only
          omega
  next other =>
    rw [if_neg other] at taken
    split
    next nul =>
      rw [if_pos nul] at taken
      split
      next short => exact absurd (by rw [if_pos short]) taken
      next long =>
        dsimp only
        omega
    next =>
      dsimp only
      omega

def Opens (bytes : List UInt8) : Prop := bytes.head? = some 91 ∨ bytes.head? = some 79

/-- More bytes do not change the sequence at the front, unless they open one behind two escapes. -/
theorem frontSequence_append (nonempty : queue ≠ []) (taken : (frontSequence queue xtermButton).el ≠ -1)
    {more : List UInt8} (apart : queue = [27, 27] → ¬ Opens more) :
    frontSequence (queue ++ more) xtermButton = frontSequence queue xtermButton := by
  have positive := List.length_pos_iff.mpr nonempty
  rw [frontSequence] at taken
  rw [frontSequence, frontSequence, List.length_append, List.getD_append _ _ _ _ positive]
  by_cases escape : queue.getD 0 0 = 27
  · rw [if_pos escape] at taken ⊢
    rw [if_pos escape]
    by_cases short : queue.length < 2
    · exact absurd (by rw [if_pos short]) taken
    · rw [if_neg short] at taken ⊢
      rw [if_neg (by omega), List.getD_append _ _ _ _ (by omega), byteAt_append (by omega)]
      by_cases opens : queue.getD 1 0 = 91 ∨ queue.getD 1 0 = 79
      · rw [if_pos opens] at taken ⊢
        rw [if_pos opens, escapeSequence_append taken]
      · rw [if_neg opens, if_neg opens]
        by_cases second : queue.getD 1 0 = 27
        · rw [if_pos second, if_pos second]
          have third : (queue.length + more.length ≥ 3 ∧ ((queue ++ more).getD 2 0 = 91 ∨ (queue ++ more).getD 2 0 =
              79)) ↔
              (queue.length ≥ 3 ∧ (queue.getD 2 0 = 91 ∨ queue.getD 2 0 = 79)) := by
            by_cases long : queue.length ≥ 3
            · rw [List.getD_append _ _ _ _ (by omega)]
              exact and_congr_left fun _ => iff_of_true (by omega) long
            · refine iff_of_false ?_ fun both => long both.1
              rintro ⟨_, opening⟩
              obtain ⟨a, b, rfl⟩ : ∃ a b, queue = [a, b] := List.length_eq_two.mp (by omega)
              have pair : ([a, b] : List UInt8) = [27, 27] := by
                rw [List.getD_cons_zero] at escape
                rw [List.getD_cons_succ, List.getD_cons_zero] at second
                rw [escape, second]
              apply apart pair
              cases more with
              | nil => simp at opening
              | cons c more => simpa [Opens] using opening
          rw [if_congr third rfl rfl]
        · rw [if_neg second, if_neg second]
  · rw [if_neg escape] at taken ⊢
    rw [if_neg escape, byteAt_append positive]
    by_cases nul : queue.getD 0 0 = 0
    · rw [if_pos nul] at taken ⊢
      rw [if_pos nul]
      by_cases short : queue.length < 2
      · exact absurd (by rw [if_pos short]) taken
      · rw [if_neg short, if_neg (by omega), List.getD_append _ _ _ _ (by omega)]
    · rw [if_neg nul, if_neg nul]

theorem frontSequence_wait (nonempty : queue ≠ []) (waits : (frontSequence queue xtermButton).el = -1)
    (more : List UInt8) :
    frontSequence (queue ++ more) (frontSequence queue xtermButton).xtermButton =
      frontSequence (queue ++ more) xtermButton := by
  have positive := List.length_pos_iff.mpr nonempty
  by_cases introducer : queue.getD 0 0 = 27 ∧ ¬ queue.length < 2 ∧ (queue.getD 1 0 = 91 ∨ queue.getD 1 0 = 79)
  · obtain ⟨escape, long, opens⟩ := introducer
    have front (more : List UInt8) (button : Int) : frontSequence (queue ++ more) button =
        decodeTerminalEscapeSequence (queue ++ more) (.keyboard undefined) button := by
      rw [frontSequence, List.length_append, List.getD_append _ _ _ _ positive, List.getD_append _ _ _ _ (by omega)]
      rw [if_pos escape, if_neg (by omega), if_pos opens]
    have here := front []
    rw [List.append_nil] at here
    rw [here] at waits ⊢
    rw [front, front, escapeSequence_wait waits]
  · congr 1
    rw [frontSequence]
    split
    next escape =>
      split
      · rfl
      next long =>
        rw [if_neg fun opens => introducer ⟨escape, long, opens⟩]
        split <;> rfl
    next =>
      split
      · split <;> rfl
      · rfl

end Front

section Queue

/-- A call takes at least one byte and at most all of them, and never looks back. -/
theorem processQueue_takes {itrm : Itrm} (took : (processQueue itrm).2 ≠ 0) :
    1 ≤ (processQueue itrm).2 ∧ (processQueue itrm).2 ≤ itrm.queue.length ∧
      (processQueue itrm).1.queue = itrm.queue.drop (processQueue itrm).2 := by
  rw [processQueue] at took ⊢
  split
  next nothing => exact absurd (by rw [if_pos nothing]) took
  next nonempty =>
    rw [if_neg nonempty] at took
    dsimp only at took ⊢
    split
    next waits => exact absurd (by rw [if_pos waits]) took
    next taken =>
      have bounds := frontSequence_bounds nonempty taken
      dsimp only
      exact ⟨by omega, by omega, rfl⟩

def drained (itrm : Itrm) : Itrm := drainQueue (itrm.queue.length + 1) itrm

theorem drainQueue_enough {turns : Nat} {itrm : Itrm} (enough : itrm.queue.length < turns) :
    drainQueue turns itrm = drained itrm := by
  induction turns using Nat.strongRecOn generalizing itrm with
  | ind turns ih =>
      obtain ⟨rest, rfl⟩ : ∃ rest, turns = rest + 1 := ⟨turns - 1, by omega⟩
      rw [drained, drainQueue, drainQueue]
      dsimp only
      split
      · rfl
      next took =>
        obtain ⟨least, most, left⟩ := processQueue_takes took
        have shorter : (processQueue itrm).1.queue.length < itrm.queue.length := by
          rw [left, List.length_drop]
          omega
        by_cases same : rest = itrm.queue.length
        · rw [same]
        · rw [ih rest (by omega) (by omega), ih itrm.queue.length (by omega) shorter]

theorem drained_eq (itrm : Itrm) :
    drained itrm = if (processQueue itrm).2 = 0 then (processQueue itrm).1 else drained (processQueue itrm).1 := by
  rw [drained, drainQueue]
  dsimp only
  split
  · rfl
  next took =>
    obtain ⟨least, most, left⟩ := processQueue_takes took
    exact drainQueue_enough (by rw [left, List.length_drop]; omega)

theorem drain_induction {motive : Itrm → Prop}
    (stop : ∀ itrm, (processQueue itrm).2 = 0 → motive itrm)
    (step : ∀ itrm, (processQueue itrm).2 ≠ 0 → motive (processQueue itrm).1 → motive itrm)
    (itrm : Itrm) : motive itrm := by
  induction size : itrm.queue.length using Nat.strongRecOn generalizing itrm with
  | ind size ih =>
      by_cases took : (processQueue itrm).2 = 0
      · exact stop itrm took
      · obtain ⟨least, most, left⟩ := processQueue_takes took
        refine step itrm took (ih _ ?_ _ rfl)
        rw [left, List.length_drop]
        omega

theorem processQueue_wait {itrm : Itrm} (nonempty : itrm.queue ≠ [])
    (waits : (frontSequence itrm.queue itrm.xtermButton).el = -1) :
    processQueue itrm =
      ({ itrm with xtermButton := (frontSequence itrm.queue itrm.xtermButton).xtermButton, timer := true }, 0) := by
  rw [processQueue, if_neg nonempty]
  dsimp only
  rw [if_pos waits]

theorem processQueue_drained (itrm : Itrm) : (processQueue (drained itrm)).2 = 0 := by
  induction itrm using drain_induction with
  | step itrm took ih => rwa [drained_eq, if_neg took]
  | stop itrm still =>
      rw [drained_eq, if_pos still]
      by_cases nonempty : itrm.queue = []
      · rw [processQueue, processQueue, if_pos nonempty]
        dsimp only
        rw [if_pos nonempty]
      · have waits : (frontSequence itrm.queue itrm.xtermButton).el = -1 := by
          refine Decidable.byContradiction fun taken => ?_
          have bounds := frontSequence_bounds nonempty taken
          rw [processQueue, if_neg nonempty] at still
          dsimp only at still
          rw [if_neg taken] at still
          dsimp only at still
          omega
        have again := frontSequence_wait nonempty waits []
        rw [List.append_nil] at again
        rw [processQueue_wait nonempty waits]
        have still : (frontSequence itrm.queue (frontSequence itrm.queue itrm.xtermButton).xtermButton).el = -1 := by
          rw [again]
          exact waits
        exact congrArg Prod.snd (@processQueue_wait ⟨itrm.queue, _, true, itrm.events⟩ nonempty still)

end Queue

section Reads

def Itrm.arrive (itrm : Itrm) (bytes : List UInt8) : Itrm :=
  { itrm with queue := itrm.queue ++ bytes, timer := false }

inductive EndsOnEscapes : Itrm → Prop
  | pair {itrm : Itrm} (both : itrm.queue = [27, 27]) : EndsOnEscapes itrm
  | later {itrm : Itrm} (took : (processQueue itrm).2 ≠ 0) (rest : EndsOnEscapes (processQueue itrm).1) :
      EndsOnEscapes itrm

theorem processQueue_taken {itrm : Itrm} (nonempty : itrm.queue ≠ [])
    (taken : (frontSequence itrm.queue itrm.xtermButton).el ≠ -1) :
    processQueue itrm =
      ({ itrm with
          queue := itrm.queue.drop (frontSequence itrm.queue itrm.xtermButton).el.toNat
          xtermButton := (frontSequence itrm.queue itrm.xtermButton).xtermButton
          events := itrm.events ++ (frontSequence itrm.queue itrm.xtermButton).events },
        (frontSequence itrm.queue itrm.xtermButton).el.toNat) := by
  rw [processQueue, if_neg nonempty]
  dsimp only
  rw [if_neg taken]

theorem processQueue_front {itrm : Itrm} (took : (processQueue itrm).2 ≠ 0) :
    itrm.queue ≠ [] ∧ (frontSequence itrm.queue itrm.xtermButton).el ≠ -1 := by
  have nonempty : itrm.queue ≠ [] := by
    intro nothing
    rw [processQueue, if_pos nothing] at took
    exact took rfl
  refine ⟨nonempty, fun waits => ?_⟩
  rw [processQueue_wait nonempty waits] at took
  exact took rfl

/-- A sequence that is taken before more bytes come is taken after they came. -/
theorem processQueue_arrive {itrm : Itrm} {more : List UInt8}
    (took : (processQueue itrm).2 ≠ 0) (apart : itrm.queue = [27, 27] → ¬ Opens more) :
    processQueue (itrm.arrive more) = ((processQueue itrm).1.arrive more, (processQueue itrm).2) := by
  obtain ⟨nonempty, taken⟩ := processQueue_front took
  have bounds := frontSequence_bounds nonempty taken
  have same := frontSequence_append nonempty taken apart
  have front : (itrm.arrive more).queue ≠ [] := by
    intro nothing
    exact nonempty (List.append_eq_nil_iff.mp nothing).1
  have takes : (frontSequence (itrm.arrive more).queue (itrm.arrive more).xtermButton).el ≠ -1 := by
    rw [Itrm.arrive]
    dsimp only
    rwa [same]
  rw [processQueue_taken front takes, processQueue_taken nonempty taken, Itrm.arrive, Itrm.arrive]
  dsimp only
  rw [same, List.drop_append_of_le_length (by omega)]

theorem drained_wait {itrm : Itrm} {more : List UInt8} (waits : (processQueue itrm).2 = 0) :
    drained ((processQueue itrm).1.arrive more) = drained (itrm.arrive more) := by
  by_cases nothing : itrm.queue = []
  · rw [processQueue, if_pos nothing]
  · have unfinished : (frontSequence itrm.queue itrm.xtermButton).el = -1 := by
      refine Decidable.byContradiction fun taken => ?_
      have bounds := frontSequence_bounds nothing taken
      rw [processQueue_taken nothing taken] at waits
      dsimp only at waits
      omega
    have front : itrm.queue ++ more ≠ [] := fun both => nothing (List.append_eq_nil_iff.mp both).1
    have same := frontSequence_wait nothing unfinished more
    have called : processQueue ((processQueue itrm).1.arrive more) = processQueue (itrm.arrive more) := by
      rw [processQueue_wait nothing unfinished, Itrm.arrive, Itrm.arrive, processQueue, processQueue]
      dsimp only
      rw [if_neg front, if_neg front, same]
    rw [drained_eq, called, ← drained_eq]

theorem drained_arrive {itrm : Itrm} {more : List UInt8}
    (apart : EndsOnEscapes itrm → ¬ Opens more) :
    drained ((drained itrm).arrive more) = drained (itrm.arrive more) := by
  induction itrm using drain_induction with
  | stop itrm waits => rw [drained_eq itrm, if_pos waits, drained_wait waits]
  | step itrm took ih =>
      have arrived := processQueue_arrive took fun both => apart (.pair both)
      rw [drained_eq itrm, if_neg took, ih fun rest => apart (.later took rest),
        drained_eq (itrm.arrive more), arrived, if_neg took]

theorem inKbd_eq {itrm next : Itrm} {bytes : List UInt8} (read : inKbd itrm bytes = some next) :
    bytes ≠ [] ∧ next = drained (itrm.arrive bytes) := by
  rw [inKbd] at read
  split at read
  · cases read
  next fits =>
    dsimp only at read
    rw [Option.some.injEq] at read
    exact ⟨fun nothing => fits (.inl nothing), read.symm⟩

/-- No read ends behind two escapes that are taken at its end while the next byte opens a
sequence. -/
def Undivided (itrm : Itrm) : List (List UInt8) → Prop
  | [] => True
  | bytes :: later => (EndsOnEscapes (itrm.arrive bytes) → ¬ Opens later.flatten) ∧
      Undivided (drained (itrm.arrive bytes)) later

/-- A run of undivided reads leaves what one read of all the bytes would leave. -/
theorem inKbd_run {start final : Itrm} {bytes : List UInt8} {later : List (List UInt8)}
    (ran : run inKbd start (bytes :: later) = some final) (undivided : Undivided start (bytes :: later)) :
    final = drained (start.arrive (bytes ++ later.flatten)) := by
  induction later generalizing start bytes with
  | nil =>
      rw [run_cons, Option.bind_eq_some_iff] at ran
      obtain ⟨next, read, rest⟩ := ran
      rw [run_nil, Option.some.injEq] at rest
      rw [← rest, (inKbd_eq read).2, List.flatten_nil, List.append_nil]
  | cons second later ih =>
      rw [run_cons, Option.bind_eq_some_iff] at ran
      obtain ⟨next, read, rest⟩ := ran
      obtain ⟨apart, others⟩ := undivided
      rw [(inKbd_eq read).2] at rest
      rw [ih rest others, List.flatten_cons, drained_arrive (by rwa [List.flatten_cons] at apart)]
      rw [Itrm.arrive, Itrm.arrive, Itrm.arrive]
      dsimp only
      rw [List.append_assoc]

/-- Every call that takes anything takes at least a byte and at most the queue, the draining loop
ends, and undivided reads of the same bytes send the same events. -/
theorem inKbd_runs_agree (start : Itrm) (first second : List (List UInt8)) :
    (∀ itrm, (processQueue itrm).2 ≠ 0 →
      1 ≤ (processQueue itrm).2 ∧ (processQueue itrm).2 ≤ itrm.queue.length ∧
        (processQueue itrm).1.queue = itrm.queue.drop (processQueue itrm).2) ∧
      (∀ itrm, (processQueue (drainQueue (itrm.queue.length + 1) itrm)).2 = 0) ∧
        ∀ firstFinal secondFinal, first.flatten = second.flatten →
          run inKbd start first = some firstFinal → run inKbd start second = some secondFinal →
            Undivided start first → Undivided start second → firstFinal = secondFinal := by
  refine ⟨fun itrm took => processQueue_takes took, processQueue_drained, ?_⟩
  intro firstFinal secondFinal same ranFirst ranSecond undividedFirst undividedSecond
  have reads (bytes : List UInt8) (later : List (List UInt8)) (final : Itrm)
      (ran : run inKbd start (bytes :: later) = some final) : (bytes :: later).flatten ≠ [] := by
    rw [run_cons, Option.bind_eq_some_iff] at ran
    obtain ⟨next, read, _⟩ := ran
    rw [List.flatten_cons]
    exact fun both => (inKbd_eq read).1 (List.append_eq_nil_iff.mp both).1
  cases first with
  | nil =>
      cases second with
      | nil => exact Option.some.inj (ranFirst.symm.trans ranSecond)
      | cons bytes later => exact absurd same.symm (reads bytes later secondFinal ranSecond)
  | cons bytes later =>
      cases second with
      | nil => exact absurd same (reads bytes later firstFinal ranFirst)
      | cons other others =>
          rw [List.flatten_cons, List.flatten_cons] at same
          rw [inKbd_run ranFirst undividedFirst, inKbd_run ranSecond undividedSecond, same]

def startItrm : Itrm := ⟨[], -1, false, []⟩

/-- `a` and the key up, cut inside the sequence or before it. -/
theorem inKbd_runs_agree_up : ∃ final, run inKbd startItrm [[97, 27, 91], [65]] = some final ∧
    run inKbd startItrm [[97], [27, 91, 65]] = some final := by
  have first : ∃ final, run inKbd startItrm [[97, 27, 91], [65]] = some final := ⟨_, rfl⟩
  have second : ∃ final, run inKbd startItrm [[97], [27, 91, 65]] = some final := ⟨_, rfl⟩
  obtain ⟨firstFinal, ranFirst⟩ := first
  obtain ⟨secondFinal, ranSecond⟩ := second
  have same := (inKbd_runs_agree startItrm [[97, 27, 91], [65]] [[97], [27, 91, 65]]).2.2
    firstFinal secondFinal rfl ranFirst ranSecond
    ⟨by simp [Opens], by simp [Opens], trivial⟩ ⟨by simp [Opens], by simp [Opens], trivial⟩
  exact ⟨firstFinal, ranFirst, by rw [same]; exact ranSecond⟩

/-- Escape and the key up in one read, or with the two escapes in a read of their own. -/
theorem inKbd_runs_differ : ∃ whole divided,
    run inKbd startItrm [[27, 27, 91, 65]] = some whole ∧
      run inKbd startItrm [[27, 27], [91, 65]] = some divided ∧
        whole.queue = [] ∧ divided.queue = [] ∧ whole.timer = false ∧ divided.timer = false ∧
          whole.events = [.keyboard (plain kbdEsc), .keyboard (plain kbdUp)] ∧
            divided.events = [.keyboard (plain kbdEsc), .keyboard (plain 91), .keyboard (plain 65)] :=
  ⟨_, _, rfl, rfl, rfl, rfl, rfl, rfl, rfl, rfl⟩

end Reads

end KcnTools.Terminal
