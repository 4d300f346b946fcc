import Mathlib.Data.UInt
import SaltOS.Lib.Blocks
import SaltOS.Lib.Run

/-!
# The memory of the Lua interpreter

`conf_alloc` of `src/halite/src/conf.c`, together with the blocks that are
live.  What `realloc` answers comes from outside: no block, or one that lies
apart from all the others.
-/

namespace SaltOS.Config

open Lib

/-- The address space of a `size_t`. -/
def addressSpace : Nat := 2 ^ 64

/-- `CONF_MEM_LIMIT`. -/
def confMemLimit : UInt64 := 64 * 1024 * 1024

/-- The counter of `conf_state`, and the blocks that it is about. -/
structure LuaMemory where
  used : UInt64
  blocks : List Block

/-- `salt_conf_eval` starts with nothing. -/
def LuaMemory.start : LuaMemory := ⟨0, []⟩

/-- The arguments of a call, and the answer of `realloc` in case that it is
called. -/
structure AllocCall where
  ptr : Option Nat
  osize : UInt64
  nsize : UInt64
  granted : Option Nat
  deriving DecidableEq, Repr

/-- Without a block `osize` is the type of what is allocated. -/
def AllocCall.old (call : AllocCall) : UInt64 :=
  if call.ptr.isSome then call.osize else 0

/-- `free`, which does nothing for the null pointer. -/
def freed (ptr : Option Nat) (blocks : List Block) : List Block :=
  match ptr with
  | none => blocks
  | some addr => giveBack addr blocks

/-- `conf_alloc`, with the pointer that it returns. -/
def confAlloc (call : AllocCall) (memory : LuaMemory) :
    LuaMemory × Option Nat :=
  if call.nsize = 0 then
    (⟨memory.used - call.old, freed call.ptr memory.blocks⟩, none)
  else if call.nsize > call.old ∧
      memory.used + (call.nsize - call.old) > confMemLimit then
    (memory, none)
  else
    match call.granted with
    | none => (memory, none)
    | some addr =>
        (⟨memory.used - call.old + call.nsize,
          ⟨addr, call.nsize.toNat⟩ :: freed call.ptr memory.blocks⟩,
          some addr)

/-- What the interpreter and the C library promise: a pointer is that of a
live block, with its size; and a block that is granted lies in the address
space apart from those that stay. -/
structure Respects (memory : LuaMemory) (call : AllocCall) : Prop where
  live : ∀ addr ∈ call.ptr, ⟨addr, call.osize.toNat⟩ ∈ memory.blocks
  granted : ∀ addr ∈ call.granted, call.nsize ≠ 0 →
    Block.Inside addressSpace ⟨addr, call.nsize.toNat⟩ ∧
      ∀ other ∈ freed call.ptr memory.blocks,
        Block.Apart ⟨addr, call.nsize.toNat⟩ other

/-- One call of the interpreter. -/
def AllocStep (before : LuaMemory) (call : AllocCall) (after : LuaMemory) :
    Prop :=
  Respects before call ∧ after = (confAlloc call before).1

/-- The counter is the sum of the live blocks, and within the limit. -/
structure Accounted (memory : LuaMemory) : Prop where
  blocks : Blocks addressSpace memory.blocks
  exact : memory.used.toNat = totalSize memory.blocks
  limited : memory.used ≤ confMemLimit

section

variable {memory : LuaMemory} {call : AllocCall}

theorem accounted_start : Accounted .start :=
  ⟨Blocks.nil, rfl, by decide⟩

/-- The block that is given back is accounted for. -/
theorem totalSize_freed (accounted : Accounted memory)
    (respects : Respects memory call) :
    totalSize (freed call.ptr memory.blocks) + call.old.toNat =
      totalSize memory.blocks := by
  rcases isPtr : call.ptr with _ | addr
  · simp [freed, AllocCall.old, isPtr]
  · have member := respects.live addr (by simp [isPtr])
    have released := totalSize_giveBack accounted.blocks member
    simpa [freed, AllocCall.old, isPtr] using released

theorem old_le_used (accounted : Accounted memory)
    (respects : Respects memory call) : call.old ≤ memory.used := by
  have released := totalSize_freed accounted respects
  rw [UInt64.le_iff_toNat_le, accounted.exact]
  omega

theorem blocks_freed (accounted : Accounted memory) (ptr : Option Nat) :
    Blocks addressSpace (freed ptr memory.blocks) := by
  cases ptr with
  | none => exact accounted.blocks
  | some addr =>
      exact accounted.blocks.sublist (giveBack_sublist addr memory.blocks)

/-- One call keeps the account. -/
theorem confAlloc_accounted (accounted : Accounted memory)
    (respects : Respects memory call) :
    Accounted (confAlloc call memory).1 := by
  have released := totalSize_freed accounted respects
  have enough := old_le_used accounted respects
  have rest := blocks_freed accounted call.ptr
  have holds := UInt64.le_iff_toNat_le.mp enough
  have limit := UInt64.le_iff_toNat_le.mp accounted.limited
  have remains : (memory.used - call.old).toNat =
      memory.used.toNat - call.old.toNat :=
    UInt64.toNat_sub_of_le _ _ enough
  unfold confAlloc
  by_cases isFree : call.nsize = 0
  · rw [if_pos isFree]
    refine ⟨rest, ?_, ?_⟩
    · rw [remains, accounted.exact]
      dsimp only
      omega
    · rw [UInt64.le_iff_toNat_le, remains]
      omega
  rw [if_neg isFree]
  by_cases refused : call.nsize > call.old ∧
      memory.used + (call.nsize - call.old) > confMemLimit
  · rw [if_pos refused]
    exact accounted
  rw [if_neg refused]
  cases isGranted : call.granted with
  | none => exact accounted
  | some addr =>
      obtain ⟨inside, apart⟩ := respects.granted addr (by simp [isGranted])
        isFree
      have after := rest.cons inside apart
      -- The blocks fit in the address space, so no sum has wrapped around.
      have fits := after.totalSize_lt (by decide)
      have total : totalSize (⟨addr, call.nsize.toNat⟩ ::
          freed call.ptr memory.blocks) =
          memory.used.toNat - call.old.toNat + call.nsize.toNat := by
        rw [totalSize, List.map_cons, List.sum_cons, ← totalSize,
          accounted.exact]
        dsimp only
        omega
      rw [total] at fits
      have sum : (memory.used - call.old + call.nsize).toNat =
          memory.used.toNat - call.old.toNat + call.nsize.toNat := by
        rw [UInt64.toNat_add, remains]
        exact Nat.mod_eq_of_lt fits
      refine ⟨after, sum.trans total.symm, ?_⟩
      rw [UInt64.le_iff_toNat_le, sum]
      by_cases grows : call.nsize > call.old
      · have less : call.old.toNat < call.nsize.toNat :=
          UInt64.lt_iff_toNat_lt.mp grows
        have difference : (call.nsize - call.old).toNat =
            call.nsize.toNat - call.old.toNat :=
          UInt64.toNat_sub_of_le _ _ (UInt64.le_of_lt grows)
        have tested : (memory.used + (call.nsize - call.old)).toNat =
            memory.used.toNat + (call.nsize.toNat - call.old.toNat) := by
          rw [UInt64.toNat_add, difference]
          apply Nat.mod_eq_of_lt
          unfold addressSpace at fits
          omega
        have within : memory.used + (call.nsize - call.old) ≤
            confMemLimit := by
          by_contra beyond
          exact refused ⟨grows, UInt64.not_le.mp beyond⟩
        rw [UInt64.le_iff_toNat_le, tested] at within
        omega
      · have shrinks := UInt64.le_iff_toNat_le.mp (UInt64.not_lt.mp grows)
        omega

end

/-- After any calls the counter is the sum of the live blocks, within the
limit, and the next call does not take more from it than it holds. -/
theorem confAlloc_run {calls : List AllocCall} {memory : LuaMemory}
    (run : Run AllocStep .start calls memory) :
    memory.used.toNat = totalSize memory.blocks ∧
      memory.used ≤ confMemLimit ∧
      ∀ call, Respects memory call → call.old ≤ memory.used := by
  have accounted : Accounted memory := by
    refine run.invariant accounted_start ?_
    rintro before call after accounted ⟨respects, rfl⟩
    exact confAlloc_accounted accounted respects
  exact ⟨accounted.exact, accounted.limited,
    fun call respects => old_le_used accounted respects⟩

/-! ## A short run -/

def growCall : AllocCall := ⟨none, 4, 100, some 4096⟩

def shrinkCall : AllocCall := ⟨some 4096, 100, 40, some 4096⟩

/-- A block is made and shrinks where it is. -/
theorem growShrink_accounted :
    (confAlloc shrinkCall (confAlloc growCall .start).1).1.used.toNat =
      totalSize (confAlloc shrinkCall (confAlloc growCall .start).1).1.blocks ∧
    (confAlloc shrinkCall (confAlloc growCall .start).1).1.used = 40 := by
  have grows : Respects .start growCall :=
    ⟨by simp [growCall], by decide⟩
  have shrinks : Respects (confAlloc growCall .start).1 shrinkCall := by
    constructor
    · decide
    · decide
  have run : Run AllocStep .start ([] ++ [growCall] ++ [shrinkCall]) _ :=
    .snoc (.snoc .nil ⟨grows, rfl⟩) ⟨shrinks, rfl⟩
  exact ⟨(confAlloc_run run).1, by decide⟩

end SaltOS.Config
