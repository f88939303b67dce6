/-! Finite runs of a machine whose steps can fail, and the rule that carries an
invariant along the runs in which every step meets a condition on its state. -/

namespace KcnTools.Run

variable {σ ι : Type} (step : σ → ι → Option σ)

def run : σ → List ι → Option σ
  | state, [] => some state
  | state, input :: rest => (step state input).bind fun next => run next rest

def Admitted (condition : σ → ι → Prop) : σ → List ι → Prop
  | _, [] => True
  | state, input :: rest =>
      condition state input ∧ ∀ next, step state input = some next → Admitted condition next rest

@[simp] theorem run_nil (state : σ) : run step state [] = some state := rfl

theorem run_cons (state : σ) (input : ι) (rest : List ι) :
    run step state (input :: rest) = (step state input).bind fun next => run step next rest := rfl

theorem run_append (state : σ) (first second : List ι) :
    run step state (first ++ second) =
      (run step state first).bind fun next => run step next second := by
  induction first generalizing state with
  | nil => rfl
  | cons input rest ih =>
      rw [List.cons_append, run_cons, run_cons, Option.bind_assoc]
      congr 1
      funext next
      exact ih next

variable {step}

theorem run_invariant (invariant : σ → Prop) {condition : σ → ι → Prop}
    (preserves : ∀ state input, invariant state → condition state input →
      ∃ next, step state input = some next ∧ invariant next)
    {state : σ} {inputs : List ι} (initial : invariant state)
    (admitted : Admitted step condition state inputs) :
    ∃ final, run step state inputs = some final ∧ invariant final := by
  induction inputs generalizing state with
  | nil => exact ⟨state, rfl, initial⟩
  | cons input rest ih =>
      obtain ⟨next, stepped, kept⟩ := preserves state input initial admitted.1
      obtain ⟨final, reached, holds⟩ := ih kept (admitted.2 next stepped)
      exact ⟨final, by rw [run_cons, stepped]; exact reached, holds⟩

/-- The same for machines whose steps may fail: it holds wherever a run ends. -/
theorem run_preserves (invariant : σ → Prop) {condition : σ → ι → Prop}
    (preserves : ∀ state input next, invariant state → condition state input →
      step state input = some next → invariant next)
    {state final : σ} {inputs : List ι} (initial : invariant state)
    (admitted : Admitted step condition state inputs) (reached : run step state inputs = some final) :
    invariant final := by
  induction inputs generalizing state with
  | nil =>
      rw [run_nil, Option.some.injEq] at reached
      rwa [← reached]
  | cons input rest ih =>
      rw [run_cons, Option.bind_eq_some_iff] at reached
      obtain ⟨next, stepped, later⟩ := reached
      exact ih (preserves state input next initial admitted.1 stepped) (admitted.2 next stepped) later

theorem admitted_of_run (invariant : σ → Prop) {condition : σ → ι → Prop}
    (needs : ∀ state input next, invariant state → step state input = some next →
      condition state input ∧ invariant next)
    {state final : σ} {inputs : List ι} (initial : invariant state) (reached : run step state inputs = some final) :
    Admitted step condition state inputs := by
  induction inputs generalizing state with
  | nil => trivial
  | cons input rest ih =>
      rw [run_cons, Option.bind_eq_some_iff] at reached
      obtain ⟨next, stepped, later⟩ := reached
      obtain ⟨met, kept⟩ := needs state input next initial stepped
      refine ⟨met, fun other equal => ?_⟩
      obtain rfl : next = other := Option.some.inj (stepped.symm.trans equal)
      exact ih kept later

theorem run_cause {done : σ → Prop} {cause condition : σ → ι → Prop}
    (caused : ∀ state input next, condition state input → step state input = some next →
      done next → done state ∨ cause state input)
    {state final : σ} {inputs : List ι} (admitted : Admitted step condition state inputs)
    (reached : run step state inputs = some final) (finished : done final) :
    done state ∨ ∃ earlier input later before, inputs = earlier ++ input :: later ∧
      run step state earlier = some before ∧ cause before input := by
  induction inputs generalizing state with
  | nil =>
      rw [run_nil, Option.some.injEq] at reached
      exact .inl (reached ▸ finished)
  | cons input rest ih =>
      rw [run_cons, Option.bind_eq_some_iff] at reached
      obtain ⟨next, stepped, after⟩ := reached
      rcases ih (admitted.2 next stepped) after with
        started | ⟨earlier, other, later, before, split, ran, causes⟩
      · rcases caused state input next admitted.1 stepped started with already | causes
        · exact .inl already
        · exact .inr ⟨[], input, rest, state, rfl, rfl, causes⟩
      · refine .inr ⟨input :: earlier, other, later, before, ?_, ?_, causes⟩
        · rw [split]
          rfl
        · rw [run_cons, stepped]
          exact ran

theorem admitted_of_inputs {condition : σ → ι → Prop} {inputs : List ι}
    (always : ∀ input ∈ inputs, ∀ state, condition state input) (state : σ) :
    Admitted step condition state inputs := by
  induction inputs generalizing state with
  | nil => trivial
  | cons input rest ih =>
      rw [List.forall_mem_cons] at always
      exact ⟨always.1 state, fun next _ => ih always.2 next⟩

theorem admitted_of_forall {condition : σ → ι → Prop} (always : ∀ state input, condition state input)
    (state : σ) (inputs : List ι) : Admitted step condition state inputs :=
  admitted_of_inputs (fun input _ state => always state input) state

theorem admitted_append {condition : σ → ι → Prop} {state : σ} {first second : List ι}
    (earlier : Admitted step condition state first)
    (later : ∀ middle, run step state first = some middle → Admitted step condition middle second) :
    Admitted step condition state (first ++ second) := by
  induction first generalizing state with
  | nil => exact later state rfl
  | cons input rest ih =>
      refine ⟨earlier.1, fun next stepped => ih (earlier.2 next stepped) fun middle reached => ?_⟩
      refine later middle ?_
      rw [run_cons, stepped]
      exact reached

theorem admitted_split {condition : σ → ι → Prop} {state : σ} {first second : List ι}
    (admitted : Admitted step condition state (first ++ second)) :
    Admitted step condition state first ∧
      ∀ middle, run step state first = some middle → Admitted step condition middle second := by
  induction first generalizing state with
  | nil =>
      refine ⟨trivial, fun middle reached => ?_⟩
      rw [run_nil, Option.some.injEq] at reached
      rwa [← reached]
  | cons input rest ih =>
      refine ⟨⟨admitted.1, fun next stepped => (ih (admitted.2 next stepped)).1⟩, fun middle reached => ?_⟩
      rw [run_cons, Option.bind_eq_some_iff] at reached
      obtain ⟨next, stepped, later⟩ := reached
      exact (ih (admitted.2 next stepped)).2 middle later

/-- The condition is met along a run when it is met wherever a part of the run leads. -/
theorem admitted_of_reached {condition : σ → ι → Prop} {state : σ} {inputs : List ι}
    (met : ∀ early input later reached, inputs = early ++ input :: later →
      run step state early = some reached → condition reached input) :
    Admitted step condition state inputs := by
  induction inputs generalizing state with
  | nil => trivial
  | cons input rest ih =>
      refine ⟨met [] input rest state rfl rfl, fun next stepped => ih ?_⟩
      rintro early other later reached rfl ran
      apply met (input :: early) other later reached rfl
      rw [run_cons, stepped]
      exact ran

end KcnTools.Run
