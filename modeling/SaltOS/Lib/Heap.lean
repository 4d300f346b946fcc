import Mathlib.Data.List.Nodup
import SaltOS.Lib.Ends

/-!
# Heaps of cells

A heap gives out addresses in ascending order and never one twice.  A program
that looks at, changes or frees a cell that is not there stops with the fault
`dangling`; this covers what was freed before, so a program without that fault
uses nothing after it was freed and frees nothing twice.
-/

namespace SaltOS.Lib

abbrev Addr := Nat

structure Heap (κ : Type) where
  cells : Addr → Option κ
  next : Addr
  beyond : ∀ addr, next ≤ addr → cells addr = none

/-- A program stops by a fault of its own doing, or with an error. -/
inductive Fault (ε : Type) where
  | dangling
  | deep
  | stop (error : ε)
  deriving DecidableEq, Repr

abbrev HeapM (ε κ : Type) := EStateM (Fault ε) (Heap κ)

/-- Sequencing behind a program that cannot fail. -/
theorem Ends.bindSafe {ε σ α β : Type} {state : σ} {first : EStateM ε σ β}
    {next : β → EStateM ε σ α} {middle : β → σ → Prop}
    {good : α → σ → Prop} {bad : ε → σ → Prop}
    (firstEnds : Ends (first state) middle (fun _ _ => False))
    (nextEnds : ∀ value between, middle value between →
      Ends (next value between) good bad) :
    Ends ((first >>= next) state) good bad := by
  apply Ends.bind _ nextEnds
  exact firstEnds.mono (fun _ _ holds => holds)
    (fun _ _ impossible => False.elim impossible)

namespace Heap

variable {ε κ : Type} {heap : Heap κ} {addr : Addr} {cell : κ}

def empty (κ : Type) : Heap κ where
  cells := fun _ => none
  next := 0
  beyond := fun _ _ => rfl

theorem lt_next (found : heap.cells addr = some cell) : addr < heap.next := by
  by_contra above
  have absent := heap.beyond addr (Nat.le_of_not_lt above)
  rw [absent] at found
  cases found

/-- The heap with the cell at an address that was given out. -/
def put (heap : Heap κ) (addr : Addr) (cell : Option κ)
    (known : addr < heap.next) : Heap κ where
  cells := fun other => if other = addr then cell else heap.cells other
  next := heap.next
  beyond := by
    intro other above
    rw [if_neg (Nat.ne_of_gt (Nat.lt_of_lt_of_le known above))]
    exact heap.beyond other above

/-- The heap with a new cell. -/
def push (heap : Heap κ) (cell : κ) : Heap κ where
  cells := fun other =>
    if other = heap.next then some cell else heap.cells other
  next := heap.next + 1
  beyond := by
    intro other above
    rw [if_neg (Nat.ne_of_gt above)]
    exact heap.beyond other (Nat.le_of_succ_le above)

def alloc (cell : κ) : HeapM ε κ Addr := do
  let heap ← get
  set (heap.push cell)
  return heap.next

def load (addr : Addr) : HeapM ε κ κ := do
  let heap ← get
  match heap.cells addr with
  | some cell => return cell
  | none => throw .dangling

def store (addr : Addr) (cell : Option κ) : HeapM ε κ Unit := do
  let heap ← get
  if known : addr < heap.next ∧ heap.cells addr ≠ none then
    set (heap.put addr cell known.1)
  else throw .dangling

/-- Change the cell at an address. -/
def write (addr : Addr) (cell : κ) : HeapM ε κ Unit :=
  store addr (some cell)

def release (addr : Addr) : HeapM ε κ Unit :=
  store addr none

theorem alloc_run (cell : κ) (heap : Heap κ) :
    (alloc cell : HeapM ε κ Addr) heap = .ok heap.next (heap.push cell) :=
  rfl

theorem load_run (found : heap.cells addr = some cell) :
    (load addr : HeapM ε κ κ) heap = .ok cell heap := by
  unfold load
  rw [bind_run (get_run heap), found]
  rfl

theorem store_run {new : Option κ} (found : heap.cells addr = some cell) :
    (store addr new : HeapM ε κ Unit) heap =
      .ok () (heap.put addr new (lt_next found)) := by
  have known : addr < heap.next ∧ heap.cells addr ≠ none := by
    refine ⟨lt_next found, ?_⟩
    rw [found]
    exact Option.some_ne_none cell
  unfold store
  rw [bind_run (get_run heap), dif_pos known]
  rfl

theorem write_run {new : κ} (found : heap.cells addr = some cell) :
    (write addr new : HeapM ε κ Unit) heap =
      .ok () (heap.put addr (some new) (lt_next found)) :=
  store_run found

theorem release_run (found : heap.cells addr = some cell) :
    (release addr : HeapM ε κ Unit) heap =
      .ok () (heap.put addr none (lt_next found)) :=
  store_run found

theorem write_ends {new : κ} {good : Unit → Heap κ → Prop}
    {bad : Fault ε → Heap κ → Prop} (found : heap.cells addr = some cell)
    (holds : good () (heap.put addr (some new) (lt_next found))) :
    Ends ((write addr new : HeapM ε κ Unit) heap) good bad := by
  rw [write_run found]
  exact holds

@[simp] theorem put_self {new : Option κ} {known : addr < heap.next} :
    (heap.put addr new known).cells addr = new :=
  if_pos rfl

theorem put_other {new : Option κ} {known : addr < heap.next} {other : Addr}
    (differs : other ≠ addr) :
    (heap.put addr new known).cells other = heap.cells other :=
  if_neg differs

@[simp] theorem push_self : (heap.push cell).cells heap.next = some cell :=
  if_pos rfl

theorem push_other {other : Addr} (differs : other ≠ heap.next) :
    (heap.push cell).cells other = heap.cells other :=
  if_neg differs

/-! ## What a program leaves alone -/

/-- Outside of some addresses, every cell that was there is as before. -/
structure SameOutside (owned : List Addr) (before after : Heap κ) : Prop where
  next : before.next ≤ after.next
  same : ∀ addr, addr < before.next → addr ∉ owned →
    after.cells addr = before.cells addr

namespace SameOutside

variable {owned more : List Addr} {before middle after : Heap κ}

theorem refl (owned : List Addr) (heap : Heap κ) :
    SameOutside owned heap heap :=
  ⟨Nat.le_refl _, fun _ _ _ => rfl⟩

/-- Two steps, the second of which also owns what is new. -/
theorem trans (first : SameOutside owned before middle)
    (second : SameOutside more middle after)
    (owns : ∀ addr ∈ more, addr ∈ owned ∨ before.next ≤ addr) :
    SameOutside owned before after := by
  refine ⟨Nat.le_trans first.next second.next, ?_⟩
  intro addr old notOwned
  have notMore : addr ∉ more := by
    intro member
    rcases owns addr member with isOwned | isNew
    · exact notOwned isOwned
    · exact absurd old (Nat.not_lt.mpr isNew)
  rw [second.same addr (Nat.lt_of_lt_of_le old first.next) notMore]
  exact first.same addr old notOwned

theorem mono (same : SameOutside owned before after)
    (fewer : ∀ addr ∈ owned, addr ∈ more ∨ before.next ≤ addr) :
    SameOutside more before after :=
  (refl more before).trans same fewer

theorem push (owned : List Addr) (heap : Heap κ) (cell : κ) :
    SameOutside owned heap (heap.push cell) := by
  refine ⟨Nat.le_succ _, fun addr old _ => ?_⟩
  exact push_other (Nat.ne_of_lt old)

theorem put {addr : Addr} (heap : Heap κ) (new : Option κ)
    (known : addr < heap.next) (owns : addr ∈ owned) :
    SameOutside owned heap (heap.put addr new known) := by
  refine ⟨Nat.le_refl _, fun other _ notOwned => ?_⟩
  apply put_other
  rintro rfl
  exact notOwned owns

end SameOutside

end Heap

end SaltOS.Lib
