import KcnTools.Lib.Transducer

/-! Sixteen bit units regrouped into six bit digits, highest bits first, with zero
bits behind the last unit. -/

namespace KcnTools.Sextets

/-- The low bits of the last unit that are in no digit yet: none, four or two. -/
inductive Pending where
  | none
  | four (bits : Nat)
  | two (bits : Nat)
  deriving DecidableEq

def unitDigits : Pending → Nat → Pending × List Nat
  | .none, unit => (.four (unit % 16), [unit / 1024, unit / 16 % 64])
  | .four bits, unit => (.two (unit % 4), [bits * 4 + unit / 16384, unit / 256 % 64, unit / 4 % 64])
  | .two bits, unit => (.none, [bits * 16 + unit / 4096, unit / 64 % 64, unit % 64])

def lastDigits : Pending → List Nat
  | .none => []
  | .four bits => [bits * 4]
  | .two bits => [bits * 16]

def encoder : Transducer Pending Nat Nat where
  step := unitDigits
  finish := lastDigits

def digits (units : List Nat) : List Nat := encoder.run .none units

def Pending.size : Pending → Nat
  | .none => 0
  | .four _ => 4
  | .two _ => 2

def Pending.Fits : Pending → Prop
  | .none => True
  | .four bits => bits < 16
  | .two bits => bits < 4

theorem run_length (pending : Pending) (units : List Nat) :
    (encoder.run pending units).length = (16 * units.length + pending.size + 5) / 6 := by
  induction units generalizing pending with
  | nil =>
      rw [Transducer.run_nil]
      cases pending <;> simp [encoder, lastDigits, Pending.size]
  | cons unit rest ih =>
      rw [Transducer.run_cons, List.length_append, ih, List.length_cons]
      cases pending <;> simp only [encoder, unitDigits, Pending.size, List.length_cons, List.length_nil] <;> omega

theorem digits_length (units : List Nat) : (digits units).length = (16 * units.length + 5) / 6 :=
  run_length .none units

theorem feed_size (pending : Pending) (units : List Nat) :
    (encoder.feed pending units).1.size = (16 * units.length + pending.size) % 6 := by
  induction units generalizing pending with
  | nil => cases pending <;> rfl
  | cons unit rest ih =>
      rw [Transducer.feed_cons, ih, List.length_cons]
      cases pending <;> simp only [encoder, unitDigits, Pending.size] <;> omega

theorem feed_whole (units : List Nat) : (encoder.feed .none units).1 = .none ↔ 3 ∣ units.length := by
  have sized := feed_size .none units
  have empty : Pending.none.size = 0 := rfl
  constructor
  · intro whole
    rw [whole] at sized
    omega
  · rintro ⟨third, count⟩
    have none : (encoder.feed .none units).1.size = 0 := by omega
    cases pending : (encoder.feed .none units).1 with
    | none => rfl
    | four bits =>
        rw [pending] at none
        contradiction
    | two bits =>
        rw [pending] at none
        contradiction

theorem unitDigits_fits {pending : Pending} (fits : pending.Fits) {unit : Nat} (small : unit < 65536) :
    (unitDigits pending unit).1.Fits ∧ ∀ digit ∈ (unitDigits pending unit).2, digit < 64 := by
  cases pending <;> simp only [unitDigits, Pending.Fits, List.forall_mem_cons, List.not_mem_nil,
    false_implies, implies_true, and_true, true_and] at fits ⊢ <;> omega

theorem digits_lt {units : List Nat} (small : ∀ unit ∈ units, unit < 65536) :
    ∀ digit ∈ digits units, digit < 64 := by
  apply encoder.run_closed Pending.Fits (fun written => ∀ digit ∈ written, digit < 64)
  · rintro first second low low' digit member
    rcases List.mem_append.mp member with early | late
    · exact low digit early
    · exact low' digit late
  · rintro pending unit fits small
    exact unitDigits_fits fits small
  · rintro pending fits
    cases pending <;> simp only [encoder, lastDigits, Pending.Fits, List.forall_mem_cons, List.not_mem_nil,
      false_implies, implies_true, and_true] at fits ⊢
    · omega
    · omega
  · trivial
  · exact small

end KcnTools.Sextets
