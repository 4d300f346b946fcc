import Mathlib.Data.List.Basic

/-!
# Postconditions of programs with state and failure

A program of type `EStateM ε σ α` keeps its state when it fails, as a C
function does that returns an error code.  `Ends result good bad` says how one
execution ends: with a value and a state in `good`, or with an error and a
state in `bad`.  The rules below follow the shape of the program.
-/

namespace SaltOS.Lib

variable {ε σ α β : Type}

/-- The execution ended well in `good`, or failed in `bad`. -/
def Ends (result : EStateM.Result ε σ α)
    (good : α → σ → Prop) (bad : ε → σ → Prop) : Prop :=
  match result with
  | .ok value state => good value state
  | .error error state => bad error state

/-- The execution ended, well or not, in a state of `property`. -/
def EndsIn (result : EStateM.Result ε σ α) (property : σ → Prop) : Prop :=
  Ends result (fun _ => property) (fun _ => property)

/-- The state an execution leaves behind. -/
def finalState (result : EStateM.Result ε σ α) : σ :=
  match result with
  | .ok _ state => state
  | .error _ state => state

/-- Whether an execution ended without an error. -/
def succeeded (result : EStateM.Result ε σ α) : Bool :=
  match result with
  | .ok _ _ => true
  | .error _ _ => false

theorem eq_ok_of_succeeded {result : EStateM.Result ε σ Unit}
    (isOk : succeeded result = true) : result = .ok () (finalState result) := by
  cases result with
  | ok value final => rfl
  | error error final => cases isOk

/-- The outcome of a program as a value, as C code that looks at a return
code has it. -/
def attempt {ε' : Type} (program : EStateM ε σ α) :
    EStateM ε' σ (Except ε α) := fun state =>
  match program state with
  | .ok value final => .ok (.ok value) final
  | .error error final => .ok (.error error) final

/-- A program whose return code nobody looks at. -/
def ignore {ε' : Type} (program : EStateM ε σ α) : EStateM ε' σ Unit :=
  fun state => .ok () (finalState (program state))

theorem endsIn_iff {result : EStateM.Result ε σ α} {property : σ → Prop} :
    EndsIn result property ↔ property (finalState result) := by
  cases result <;> exact Iff.rfl

/-- Running on after a first program whose outcome is known. -/
theorem bind_run {first : EStateM ε σ β} {next : β → EStateM ε σ α}
    {state between : σ} {value : β} (outcome : first state = .ok value between) :
    (first >>= next) state = next value between := by
  change EStateM.bind first next state = _
  unfold EStateM.bind
  rw [outcome]

/-! What the primitive programs do. -/

theorem get_run (state : σ) :
    (get : EStateM ε σ σ) state = .ok state state :=
  rfl

theorem modify_run (change : σ → σ) (state : σ) :
    (modify change : EStateM ε σ PUnit) state = .ok ⟨⟩ (change state) :=
  rfl

theorem throw_run (error : ε) (state : σ) :
    (throw error : EStateM ε σ α) state = .error error state :=
  rfl

namespace Ends

variable {good good' : α → σ → Prop} {bad bad' : ε → σ → Prop}
  {state : σ} {property : σ → Prop}

theorem mono {result : EStateM.Result ε σ α} (ends : Ends result good bad)
    (wellImplies : ∀ value final, good value final → good' value final)
    (badImplies : ∀ error final, bad error final → bad' error final) :
    Ends result good' bad' := by
  cases result with
  | ok value final => exact wellImplies value final ends
  | error error final => exact badImplies error final ends

theorem endsIn {result : EStateM.Result ε σ α} (ends : Ends result good bad)
    (wellImplies : ∀ value final, good value final → property final)
    (badImplies : ∀ error final, bad error final → property final) :
    EndsIn result property :=
  ends.mono wellImplies badImplies

theorem and {result : EStateM.Result ε σ α}
    (left : Ends result good bad) (right : Ends result good' bad') :
    Ends result (fun value final => good value final ∧ good' value final)
      (fun error final => bad error final ∧ bad' error final) := by
  cases result <;> exact ⟨left, right⟩

theorem pure {value : α} (holds : good value state) :
    Ends ((Pure.pure value : EStateM ε σ α) state) good bad := holds

theorem throw {error : ε} (holds : bad error state) :
    Ends ((throwThe ε error : EStateM ε σ α) state) good bad := holds

theorem modify {change : σ → σ} {good : Unit → σ → Prop}
    (holds : good () (change state)) :
    Ends ((modify change : EStateM ε σ Unit) state) good bad := holds

/-- Sequencing: the second program starts where the first one ended well. -/
theorem bind {first : EStateM ε σ β} {next : β → EStateM ε σ α}
    {middle : β → σ → Prop}
    (firstEnds : Ends (first state) middle bad)
    (nextEnds : ∀ value between, middle value between →
      Ends (next value between) good bad) :
    Ends ((first >>= next) state) good bad := by
  change Ends (EStateM.bind first next state) good bad
  unfold EStateM.bind
  cases outcome : first state with
  | ok value between =>
      rw [outcome] at firstEnds
      exact nextEnds value between firstEnds
  | error error between =>
      rw [outcome] at firstEnds
      exact firstEnds

/-- Sequencing through a condition that is stated. -/
theorem through {first : EStateM ε σ β} {next : β → EStateM ε σ α}
    (middle : β → σ → Prop)
    (firstEnds : Ends (first state) middle bad)
    (nextEnds : ∀ value between, middle value between →
      Ends (next value between) good bad) :
    Ends ((first >>= next) state) good bad :=
  bind firstEnds nextEnds

/-- Sequencing after a first program whose outcome is known. -/
theorem bindOk {first : EStateM ε σ β} {next : β → EStateM ε σ α}
    {value : β} {between : σ} (outcome : first state = .ok value between)
    (nextEnds : Ends (next value between) good bad) :
    Ends ((first >>= next) state) good bad := by
  rw [bind_run outcome]
  exact nextEnds

theorem attempt {ε' : Type} {program : EStateM ε σ β}
    {good : Except ε β → σ → Prop} {bad : ε' → σ → Prop}
    (ends : Ends (program state) (fun value => good (.ok value))
      (fun error => good (.error error))) :
    Ends ((attempt program : EStateM ε' σ _) state) good bad := by
  unfold Lib.attempt
  cases outcome : program state <;> (rw [outcome] at ends; exact ends)

/-- Sequencing behind an attempt: both outcomes go on. -/
theorem attempted {ε' : Type} {program : EStateM ε σ β}
    {next : Except ε β → EStateM ε' σ α} {bad' : ε' → σ → Prop}
    {well : β → σ → Prop} {ill : ε → σ → Prop}
    (ends : Ends (program state) well ill)
    (wellEnds : ∀ value between, well value between →
      Ends (next (.ok value) between) good bad')
    (illEnds : ∀ error between, ill error between →
      Ends (next (.error error) between) good bad') :
    Ends ((Lib.attempt program >>= next) state) good bad' := by
  cases outcome : program state with
  | ok value between =>
      rw [outcome] at ends
      apply bindOk (by rw [Lib.attempt, outcome])
      exact wellEnds value between ends
  | error error between =>
      rw [outcome] at ends
      apply bindOk (by rw [Lib.attempt, outcome])
      exact illEnds error between ends

theorem ignore {ε' : Type} {program : EStateM ε σ β}
    {good : Unit → σ → Prop} {bad : ε' → σ → Prop}
    (ends : EndsIn (program state) (good ())) :
    Ends ((ignore program : EStateM ε' σ Unit) state) good bad :=
  endsIn_iff.mp ends

theorem ite {condition : Prop} [Decidable condition]
    {yes no : EStateM ε σ α}
    (whenTrue : condition → Ends (yes state) good bad)
    (whenFalse : ¬ condition → Ends (no state) good bad) :
    Ends ((if condition then yes else no) state) good bad := by
  by_cases holds : condition
  · simpa [holds] using whenTrue holds
  · simpa [holds] using whenFalse holds

/-- The loop rule: an invariant indexed by the items still to come. -/
theorem forM {items : List β} {body : β → EStateM ε σ Unit}
    {invariant : List β → σ → Prop} {bad : ε → σ → Prop}
    (initial : invariant items state)
    (step : ∀ item rest before, invariant (item :: rest) before →
      Ends (body item before) (fun _ after => invariant rest after) bad) :
    Ends (items.forM body state) (fun _ final => invariant [] final) bad := by
  induction items generalizing state with
  | nil => exact initial
  | cons item rest induction =>
      exact Ends.bind (step item rest state initial)
        (fun _ between holds => induction holds)

/-- The loop rule for an invariant that does not depend on the position, with
the membership of the current item at hand. -/
theorem forM_mem {items : List β} {body : β → EStateM ε σ Unit}
    {invariant : σ → Prop} {bad : ε → σ → Prop}
    (initial : invariant state)
    (step : ∀ item, item ∈ items → ∀ before, invariant before →
      Ends (body item before) (fun _ after => invariant after) bad) :
    Ends (items.forM body state) (fun _ final => invariant final) bad := by
  induction items generalizing state with
  | nil => exact initial
  | cons item rest induction =>
      refine Ends.bind (step item List.mem_cons_self state initial) ?_
      intro _ between holds
      exact induction holds (fun later member =>
        step later (List.mem_cons_of_mem item member))

end Ends

/-- A loop of which every round changes the state in its way. -/
theorem forM_run {items : List β}
    {program : β → EStateM ε σ Unit} {change : σ → β → σ}
    (each : ∀ item ∈ items, ∀ state,
      program item state = .ok () (change state item)) (state : σ) :
    items.forM program state = .ok () (items.foldl change state) := by
  induction items generalizing state with
  | nil => rfl
  | cons item items induction =>
      have rest := induction
        (fun other member => each other (List.mem_cons_of_mem item member))
        (change state item)
      exact (bind_run (each item List.mem_cons_self state)).trans rest

/-- What a computation without state that returns has gone through. -/
theorem bind_ok {first : Except ε α} {next : α → Except ε β} {result : β}
    (isOk : first >>= next = .ok result) :
    ∃ value, first = .ok value ∧ next value = .ok result := by
  cases first with
  | error message => cases isOk
  | ok value => exact ⟨value, rfl, isOk⟩

end SaltOS.Lib
