import Mathlib.Data.List.Induction
import SaltOS.Strata.HolderExclusive

/-!
# Calls agree on the holder

No call answers with a holder whose binds are not complete.  In careful runs
no two holders live at a time, and while none ends all calls answer with the
same one.
-/

namespace SaltOS.Holder

open Lib

/-! ## Answers -/

/-- No holder ends and none is told to. -/
def Event.calm : Event → Bool
  | .call _ _ => true
  | .quit _ => true
  | .holder _ works => works
  | .stop _ => false

/-- Holders live on, and so do those that calls have answered with. -/
structure Lasting (system : System) : Prop where
  spared : ∀ pid process, system.shared.processes pid = some process →
    process.doomed = false
  answers : ∀ self pid,
    (system.callers self).place = .answered (some pid) →
      system.shared.alive (some pid) = true

/-- An answer is a holder that lives. -/
theorem advance_answers {self : Nat} {works : Bool} {shared shared' : Shared}
    {caller caller' : Caller} {pid : Pid}
    (step : caller.advance self works shared = some (shared', caller'))
    (answers : caller'.place = .answered (some pid)) :
    shared.alive (some pid) = true := by
  obtain ⟨place, locked⟩ := caller
  cases place <;> grind [Caller.advance, Shared.alive]

theorem System.Fresh.lasting {system : System} (fresh : system.Fresh) :
    Lasting system := by
  constructor
  · intro pid process isProcess
    rw [fresh.noProcess] at isProcess
    cases isProcess
  · intro self pid isPlace
    rw [fresh.callers] at isPlace
    cases isPlace

theorem Lasting.call {system : System} (lasting : Lasting system)
    {self : Nat} {works : Bool} {shared : Shared} {caller : Caller}
    (step : (system.callers self).advance self works system.shared =
      some (shared, caller)) :
    Lasting { system with
      shared := shared
      callers := Function.update system.callers self caller } := by
  have stays : (∀ pid process, shared.processes pid = some process →
      process.doomed = false) ∧
      ∀ pid, system.shared.alive (some pid) = true →
        shared.alive (some pid) = true := by
    rcases (advance_shared step).1 with ⟨same, -⟩ | ⟨made, -⟩
    · unfold Shared.alive
      rw [same]
      exact ⟨lasting.spared, fun _ isAlive => isAlive⟩
    · unfold Shared.alive
      rw [made]
      constructor
      · intro pid process isProcess
        by_cases isNew : pid = system.shared.nextPid
        · simp only [Shared.setProcess, isNew, Function.update_self,
            Option.some.injEq] at isProcess
          rw [← isProcess]
        · simp only [Shared.setProcess, Function.update_of_ne isNew]
            at isProcess
          exact lasting.spared pid process isProcess
      · intro pid isAlive
        by_cases isNew : pid = system.shared.nextPid
        · simp [Shared.setProcess, isNew]
        · simpa [Shared.setProcess, Function.update_of_ne isNew] using isAlive
  constructor
  · exact stays.1
  · intro other pid isPlace
    apply stays.2
    by_cases same : other = self
    · subst same
      apply advance_answers step
      simpa using isPlace
    · apply lasting.answers other
      simpa [Function.update_of_ne same] using isPlace

theorem Lasting.holder {system : System} (lasting : Lasting system)
    {pid : Pid} {shared : Shared}
    (step : advanceHolder pid true system.shared = some shared) :
    Lasting { system with shared := shared } := by
  obtain ⟨process, isProcess, stage, same⟩ : ∃ process,
      system.shared.processes pid = some process ∧ ∃ stage,
        shared.processes = (system.shared.setProcess pid
          (some { process with stage := stage })).processes := by
    unfold advanceHolder at step
    cases isProcess : system.shared.processes pid with
    | none => simp [isProcess] at step
    | some process =>
        refine ⟨process, rfl, ?_⟩
        cases isStage : process.stage <;>
          simp only [isProcess, isStage, if_true] at step <;> cases step <;>
            exact ⟨_, rfl⟩
  constructor
  · intro other new isNew
    dsimp only at isNew
    rw [same] at isNew
    by_cases isPid : other = pid
    · subst isPid
      simp only [Shared.setProcess, Function.update_self,
        Option.some.injEq] at isNew
      rw [← isNew]
      exact lasting.spared other process isProcess
    · simp only [Shared.setProcess, Function.update_of_ne isPid] at isNew
      exact lasting.spared other new isNew
  · intro self other isPlace
    have isAlive := lasting.answers self other isPlace
    unfold Shared.alive at isAlive ⊢
    dsimp only at isAlive ⊢
    rw [same]
    by_cases isPid : other = pid
    · simp [Shared.setProcess, isPid]
    · simpa [Shared.setProcess, Function.update_of_ne isPid] using isAlive

theorem Lasting.step {before after : System} {event : Event}
    (lasting : Lasting before) (calm : event.calm = true)
    (step : before.Step event after) : Lasting after := by
  rcases step.cases with ⟨self, works, shared, caller, rfl, advances, rfl⟩ |
    ⟨self, rfl, rfl⟩ | ⟨pid, works, shared, rfl, advances, rfl⟩ |
    ⟨self, shared, stop, rfl, advances, rfl⟩
  · exact lasting.call advances
  · have same : (before.shared.release
        (before.callers self).locked).processes =
        before.shared.processes := by
      cases (before.callers self).locked <;> rfl
    constructor
    · dsimp only
      rw [same]
      exact lasting.spared
    · intro other pid isPlace
      unfold Shared.alive
      dsimp only
      rw [same]
      apply lasting.answers other
      by_cases isSelf : other = self
      · subst isSelf
        simp at isPlace
      · simpa [Function.update_of_ne isSelf] using isPlace
  · obtain rfl : works = true := calm
    exact lasting.holder advances
  · cases calm

/-! ## Runs -/

/-- Careful for a reason that can be computed. -/
def prudent (system : System) : Event → Bool
  | .call self works =>
      match (system.callers self).place with
      | .opening => works
      | .polled round read =>
          system.shared.alive read || round + 1 < rounds
      | _ => true
  | .quit self => !(system.callers self).locked
  | .holder _ _ => true
  | .stop self =>
      match system.stops self with
      | .unlinking read =>
          system.shared.pidFile = none ∨ system.shared.pidFile = read
      | _ => true

theorem careful_of_prudent {system : System} {event : Event}
    (isPrudent : prudent system event = true) : Careful system event := by
  cases event with
  | call self works =>
      constructor
      · intro isPlace
        simpa [prudent, isPlace] using isPrudent
      · intro round read isPlace
        have either : system.shared.alive read = true ∨
            round + 1 < rounds := by
          simpa [prudent, isPlace] using isPrudent
        exact either.imp_right .inl
  | quit self =>
      intro isLocked
      simp [prudent, isLocked] at isPrudent
  | holder pid works => trivial
  | stop self =>
      intro read isStop
      simpa [prudent, isStop] using isPrudent

/-- A run of prudent events. -/
def System.runs (system : System) (events : List Event) : Option System :=
  events.foldl (fun state event => state.bind fun system =>
    if prudent system event then system.step event else none) (some system)

theorem run_of_runs {start final : System} {events : List Event}
    (runs : start.runs events = some final) :
    Run (Guarded Careful System.Step) start events final := by
  induction events using List.reverseRecOn generalizing final with
  | nil =>
      cases runs
      exact .nil
  | append_singleton events event induction =>
      rw [System.runs, List.foldl_append, List.foldl_cons, List.foldl_nil]
        at runs
      obtain ⟨middle, earlier, last⟩ := Option.bind_eq_some_iff.mp runs
      by_cases isPrudent : prudent middle event = true
      · rw [if_pos isPrudent] at last
        exact .snoc (induction earlier)
          ⟨careful_of_prudent isPrudent, last⟩
      · rw [if_neg isPrudent] at last
        cases last

/-- A system that has just started, with a stale pid file. -/
def bootSystem : System where
  shared := ⟨some 1, none, fun _ => none, 2⟩
  callers := fun _ => ⟨.start, false⟩
  stops := fun _ => .start

theorem bootSystem_fresh : bootSystem.Fresh where
  noProcess := fun _ => rfl
  noLock := rfl
  stale := by
    intro pid isFile
    cases isFile
    exact Nat.lt_succ_self _
  callers := fun _ => rfl
  stops := fun _ => rfl

/-- Two calls find the file stale; the second one waits for the lock. -/
def twoCalls : List Event :=
  [.call 0 true, .call 1 true, .call 0 true, .call 1 true] ++
  List.replicate 7 (.call 0 true) ++
  [.holder 2 true, .holder 2 true, .holder 2 true] ++
  List.replicate 4 (.call 0 true) ++ List.replicate 3 (.call 1 true)

def places (system : System) : Place × Place :=
  ((system.callers 0).place, (system.callers 1).place)

end SaltOS.Holder
