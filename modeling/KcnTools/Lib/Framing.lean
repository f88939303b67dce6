import Mathlib.Data.List.Basic

/-!
Splitting a stream into frames. A framer looks at the front of the symbols that
have arrived; what it finds there does not change when more symbols arrive.
-/

namespace KcnTools

structure Framer (α : Type) where
  /-- The first frame and what follows it, once the frame is complete. -/
  next : List α → Option (List α × List α)
  shrinks : ∀ {stream frame rest}, next stream = some (frame, rest) → rest.length < stream.length
  extends_append : ∀ {stream frame rest}, next stream = some (frame, rest) →
    ∀ more, next (stream ++ more) = some (frame, rest ++ more)

namespace Framer

variable {α : Type} (framer : Framer α)

def frames (stream : List α) : List (List α) :=
  match _found : framer.next stream with
  | none => []
  | some (frame, rest) => frame :: frames rest
termination_by stream.length
decreasing_by exact framer.shrinks _found

def remainder (stream : List α) : List α :=
  match _found : framer.next stream with
  | none => stream
  | some (_, rest) => remainder rest
termination_by stream.length
decreasing_by exact framer.shrinks _found

variable {framer}

theorem frames_of_none {stream : List α} (found : framer.next stream = none) :
    framer.frames stream = [] := by
  rw [frames]
  split
  · rfl
  · simp_all

theorem frames_of_some {stream frame rest : List α}
    (found : framer.next stream = some (frame, rest)) :
    framer.frames stream = frame :: framer.frames rest := by
  rw [frames]
  split
  · simp_all
  · rename_i other
    rw [found, Option.some.injEq, Prod.mk.injEq] at other
    rw [other.1, other.2]

theorem remainder_of_none {stream : List α} (found : framer.next stream = none) :
    framer.remainder stream = stream := by
  rw [remainder]
  split
  · rfl
  · simp_all

theorem remainder_of_some {stream frame rest : List α}
    (found : framer.next stream = some (frame, rest)) :
    framer.remainder stream = framer.remainder rest := by
  rw [remainder]
  split
  · simp_all
  · rename_i other
    rw [found, Option.some.injEq, Prod.mk.injEq] at other
    rw [other.2]

theorem frames_induction (framer : Framer α) {motive : List α → Prop}
    (stop : ∀ stream, framer.next stream = none → motive stream)
    (step : ∀ stream frame rest, framer.next stream = some (frame, rest) → motive rest →
      motive stream) (stream : List α) : motive stream := by
  cases found : framer.next stream with
  | none => exact stop stream found
  | some both => exact step stream both.1 both.2 found (framer.frames_induction stop step both.2)
termination_by stream.length
decreasing_by exact framer.shrinks found

theorem next_remainder (stream : List α) : framer.next (framer.remainder stream) = none := by
  induction stream using framer.frames_induction with
  | stop stream found => rw [remainder_of_none found, found]
  | step stream frame rest found ih => rw [remainder_of_some found, ih]

/-- Frames found before the rest arrived stay, and the search goes on behind them. -/
theorem frames_append (stream more : List α) :
    framer.frames (stream ++ more) =
      framer.frames stream ++ framer.frames (framer.remainder stream ++ more) := by
  induction stream using framer.frames_induction with
  | stop stream found => rw [frames_of_none found, remainder_of_none found, List.nil_append]
  | step stream frame rest found ih =>
      rw [frames_of_some (framer.extends_append found more), frames_of_some found,
        remainder_of_some found, ih, List.cons_append]

theorem remainder_append (stream more : List α) :
    framer.remainder (stream ++ more) = framer.remainder (framer.remainder stream ++ more) := by
  induction stream using framer.frames_induction with
  | stop stream found => rw [remainder_of_none found]
  | step stream frame rest found ih =>
      rw [remainder_of_some (framer.extends_append found more), remainder_of_some found, ih]

def guarded (framer : Framer α) (least : Nat) : Framer α where
  next stream := if stream.length ≤ least then none else framer.next stream
  shrinks := by
    intro stream frame rest found
    split at found
    · simp at found
    · exact framer.shrinks found
  extends_append := by
    intro stream frame rest found more
    split at found
    · simp at found
    · rw [if_neg (by rw [List.length_append]; omega)]
      exact framer.extends_append found more

theorem frames_eq_guarded (framer : Framer α) (least : Nat) (stream : List α) :
    framer.frames stream = (framer.guarded least).frames stream ++
        framer.frames ((framer.guarded least).remainder stream) ∧
      framer.remainder stream = framer.remainder ((framer.guarded least).remainder stream) := by
  induction stream using (framer.guarded least).frames_induction with
  | stop stream found =>
      rw [frames_of_none found, remainder_of_none found, List.nil_append]
      exact ⟨rfl, rfl⟩
  | step stream frame rest found ih =>
      have same : framer.next stream = some (frame, rest) := by
        by_cases short : stream.length ≤ least
        · simp [guarded, if_pos short] at found
        · simpa only [guarded, if_neg short] using found
      rw [frames_of_some found, frames_of_some same, remainder_of_some found,
        remainder_of_some same, ih.1, List.cons_append]
      exact ⟨rfl, ih.2⟩

end Framer

end KcnTools
