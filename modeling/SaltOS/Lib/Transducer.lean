import Mathlib.Data.List.Basic

/-!
# Transducers

A transducer reads items one after the other and writes others; it may refuse
an item.  What it makes of a text follows from what it makes of the parts.
-/

namespace SaltOS.Lib

/-- Modes `σ`, items `α` to read and items `ω` to write. -/
structure Transducer (σ α ω : Type) where
  step : σ → α → Option (List ω × σ)
  finish : σ → Option (List ω)

namespace Transducer

variable {σ α ω β : Type} (machine : Transducer σ α ω)

def run : σ → List α → Option (List ω × σ)
  | mode, [] => some ([], mode)
  | mode, item :: rest =>
      (machine.step mode item).bind fun first =>
        (run first.2 rest).map fun more => (first.1 ++ more.1, more.2)

/-- What is written for a whole text. -/
def output (mode : σ) (text : List α) : Option (List ω) :=
  (machine.run mode text).bind fun read =>
    (machine.finish read.2).map (read.1 ++ ·)

/-- The machine writes `out` for a part of a text and goes on in `after`. -/
def Reads (mode : σ) (part : List α) (out : List ω) (after : σ) : Prop :=
  machine.run mode part = some (out, after)

instance [DecidableEq σ] [DecidableEq ω] (mode : σ) (part : List α)
    (out : List ω) (after : σ) :
    Decidable (machine.Reads mode part out after) :=
  inferInstanceAs (Decidable (machine.run mode part = some (out, after)))

variable {machine} {mode middle after : σ} {first second part : List α}
  {out more last : List ω}

theorem Reads.refl (mode : σ) : machine.Reads mode [] [] mode :=
  rfl

theorem Reads.cons {item : α}
    (isStep : machine.step mode item = some (out, middle))
    (reads : machine.Reads middle part more after) :
    machine.Reads mode (item :: part) (out ++ more) after := by
  unfold Reads
  rw [run, isStep, Option.bind_some, reads]
  rfl

theorem Reads.one {item : α}
    (isStep : machine.step mode item = some (out, after)) :
    machine.Reads mode [item] out after := by
  have reads := Reads.cons isStep (Reads.refl after)
  rwa [List.append_nil] at reads

/-- One part and another behind it. -/
theorem Reads.append (reads : machine.Reads mode first out middle)
    (readsMore : machine.Reads middle second more after) :
    machine.Reads mode (first ++ second) (out ++ more) after := by
  induction first generalizing mode out with
  | nil =>
      cases reads
      exact readsMore
  | cons item first induction =>
      unfold Reads at reads
      rw [run, Option.bind_eq_some_iff] at reads
      obtain ⟨⟨front, between⟩, isStep, isRest⟩ := reads
      obtain ⟨⟨back, final⟩, isBack, isBoth⟩ :=
        Option.map_eq_some_iff.mp isRest
      cases isBoth
      rw [List.append_assoc]
      exact Reads.cons isStep (induction isBack)

/-- Parts that all come back to the mode they started in. -/
theorem Reads.flatMap {items : List β} {text : β → List α}
    {written : β → List ω}
    (each : ∀ item ∈ items,
      machine.Reads mode (text item) (written item) mode) :
    machine.Reads mode (items.flatMap text) (items.flatMap written) mode := by
  induction items with
  | nil => exact Reads.refl mode
  | cons item items induction =>
      rw [List.flatMap_cons, List.flatMap_cons]
      apply Reads.append (each item List.mem_cons_self)
      exact induction fun other member =>
        each other (List.mem_cons_of_mem item member)

theorem Reads.output (reads : machine.Reads mode part out after)
    (ends : machine.finish after = some last) :
    machine.output mode part = some (out ++ last) := by
  unfold Transducer.output
  rw [reads, Option.bind_some, ends]
  rfl

end Transducer

end SaltOS.Lib
