import Mathlib.Data.List.Basic

/-! Machines that read symbols one after another, write some at every step and a
last few at the end of their input, and the rules for running two of them behind
each other: a decoder behind its encoder, a machine behind a description of its input. -/

namespace KcnTools

structure Transducer (σ α β : Type) where
  step : σ → α → σ × List β
  /-- What is written when the input ends in a state. -/
  finish : σ → List β

namespace Transducer

variable {σ α β : Type} (machine : Transducer σ α β)

def feed : σ → List α → σ × List β
  | state, [] => (state, [])
  | state, symbol :: rest =>
      let (next, written) := machine.step state symbol
      let (last, more) := feed next rest
      (last, written ++ more)

def run (state : σ) (symbols : List α) : List β :=
  let (last, written) := machine.feed state symbols
  written ++ machine.finish last

@[simp] theorem feed_nil (state : σ) : machine.feed state [] = (state, []) := rfl

theorem feed_cons (state : σ) (symbol : α) (rest : List α) :
    machine.feed state (symbol :: rest) =
      ((machine.feed (machine.step state symbol).1 rest).1,
        (machine.step state symbol).2 ++ (machine.feed (machine.step state symbol).1 rest).2) := rfl

theorem feed_append (state : σ) (first second : List α) :
    machine.feed state (first ++ second) =
      ((machine.feed (machine.feed state first).1 second).1,
        (machine.feed state first).2 ++ (machine.feed (machine.feed state first).1 second).2) := by
  induction first generalizing state with
  | nil => simp
  | cons symbol rest ih => simp only [List.cons_append, feed_cons, ih, List.append_assoc]

theorem run_append (state : σ) (first second : List α) :
    machine.run state (first ++ second) =
      (machine.feed state first).2 ++ machine.run (machine.feed state first).1 second := by
  simp only [run, feed_append, List.append_assoc]

@[simp] theorem run_nil (state : σ) : machine.run state [] = machine.finish state := by
  simp [run]

theorem run_cons (state : σ) (symbol : α) (rest : List α) :
    machine.run state (symbol :: rest) =
      (machine.step state symbol).2 ++ machine.run (machine.step state symbol).1 rest := by
  simp only [run, feed_cons, List.append_assoc]

/-- What is written has a property that pieces hand on to what they are joined to,
if every step writes such a piece. -/
theorem run_closed (invariant : σ → Prop) {admitted : α → Prop} (written : List β → Prop)
    (joined : ∀ first second, written first → written second → written (first ++ second))
    (steps : ∀ state symbol, invariant state → admitted symbol →
      invariant (machine.step state symbol).1 ∧ written (machine.step state symbol).2)
    (finishes : ∀ state, invariant state → written (machine.finish state))
    {state : σ} {symbols : List α} (initial : invariant state)
    (all : ∀ symbol ∈ symbols, admitted symbol) : written (machine.run state symbols) := by
  induction symbols generalizing state with
  | nil =>
      rw [run_nil]
      exact finishes state initial
  | cons symbol rest ih =>
      rw [List.forall_mem_cons] at all
      obtain ⟨kept, wrote⟩ := steps state symbol initial all.1
      rw [run_cons]
      exact joined _ _ wrote (ih kept all.2)

section RoundTrip

variable {ε χ γ : Type} (decoder : Transducer σ β γ) (encoder : Transducer ε χ β) (text : χ → List γ)

/-- A decoder behind an encoder. `linked e owed d`: in these states the decoder
still owes `owed` of the text that the encoder has taken in. -/
structure Inverts (linked : ε → List γ → σ → Prop) (admitted : χ → Prop) : Prop where
  step : ∀ {e owed d c}, linked e owed d → admitted c →
    ∃ d' written owed', decoder.feed d (encoder.step e c).2 = (d', written) ∧
      written ++ owed' = owed ++ text c ∧ linked (encoder.step e c).1 owed' d'
  finish : ∀ {e owed d}, linked e owed d → decoder.run d (encoder.finish e) = owed

variable {decoder encoder text}

theorem Inverts.run {linked : ε → List γ → σ → Prop} {admitted : χ → Prop}
    (inverts : Inverts decoder encoder text linked admitted) {e : ε} {owed : List γ} {d : σ}
    (initial : linked e owed d) {symbols : List χ} (all : ∀ c ∈ symbols, admitted c) :
    decoder.run d (encoder.run e symbols) = owed ++ symbols.flatMap text := by
  induction symbols generalizing e owed d with
  | nil =>
      rw [run_nil, inverts.finish initial]
      simp
  | cons c rest ih =>
      rw [List.forall_mem_cons] at all
      obtain ⟨d', written, owed', fed, balance, next⟩ := inverts.step initial all.1
      rw [run_cons, run_append, fed, ih next all.2, List.flatMap_cons, ← List.append_assoc,
        ← List.append_assoc, balance]

end RoundTrip

/-- Text that is read piece by piece: a machine that is back in its state behind
every piece has written what the pieces stand for. -/
theorem feed_pieces {χ : Type} (encode : χ → List α) (text : χ → List β) {state : σ} (pieces : List χ)
    (each : ∀ piece ∈ pieces, machine.feed state (encode piece) = (state, text piece)) :
    machine.feed state (pieces.flatMap encode) = (state, pieces.flatMap text) := by
  induction pieces with
  | nil => rfl
  | cons piece rest ih =>
      rw [List.forall_mem_cons] at each
      rw [List.flatMap_cons, List.flatMap_cons, feed_append, each.1, ih each.2]

/-- Symbols that are copied up to the first one that is not `direct`; only from
there on the machine runs. -/
def runBehind (copier : Transducer σ α α) (direct : α → Bool) (state : σ) (symbols : List α) : List α :=
  match symbols.dropWhile direct with
  | [] => symbols
  | first :: rest => symbols.takeWhile direct ++ copier.run state (first :: rest)

theorem runBehind_eq (copier : Transducer σ α α) {direct : α → Bool} {state : σ}
    (copies : ∀ symbol, direct symbol = true → copier.step state symbol = (state, [symbol]))
    (ends : copier.finish state = []) (symbols : List α) :
    copier.runBehind direct state symbols = copier.run state symbols := by
  induction symbols with
  | nil => rw [run_nil, ends]; rfl
  | cons symbol rest ih =>
      by_cases copied : direct symbol = true
      · rw [run_cons, copies symbol copied, ← ih, runBehind, runBehind, List.dropWhile_cons_of_pos copied,
          List.takeWhile_cons_of_pos copied]
        cases rest.dropWhile direct <;> rfl
      · rw [runBehind, List.dropWhile_cons_of_neg copied, List.takeWhile_cons_of_neg copied]
        rfl

end Transducer

end KcnTools
