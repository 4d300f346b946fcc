import Mathlib.Algebra.GroupWithZero.Nat
import Mathlib.Data.Finset.Card
import Mathlib.Order.Interval.Finset.Nat

/-!
# Blocks of memory

What an allocator hands out lies in an address space, and no two blocks that
are live overlap.  Their sizes then add up to less than the address space.
-/

namespace SaltOS.Lib

structure Block where
  addr : Nat
  size : Nat
  deriving DecidableEq, Repr

namespace Block

/-- The addresses of a block. -/
def range (block : Block) : Finset Nat :=
  Finset.Ico block.addr (block.addr + block.size)

/-- One of the blocks ends before the other one starts. -/
def Apart (one other : Block) : Prop :=
  one.addr + one.size ≤ other.addr ∨ other.addr + other.size ≤ one.addr

instance (one other : Block) : Decidable (Apart one other) :=
  inferInstanceAs (Decidable (_ ∨ _))

/-- The block is not empty and lies in an address space whose first address
is the null pointer. -/
def Inside (space : Nat) (block : Block) : Prop :=
  0 < block.addr ∧ 0 < block.size ∧ block.addr + block.size ≤ space

instance (space : Nat) (block : Block) : Decidable (Inside space block) :=
  inferInstanceAs (Decidable (_ ∧ _ ∧ _))

instance : Std.Symm Apart :=
  ⟨fun _ _ apart => apart.symm⟩

theorem Apart.disjoint {one other : Block} (apart : Apart one other) :
    Disjoint one.range other.range := by
  rw [Finset.disjoint_left]
  intro addr inOne inOther
  simp only [range, Finset.mem_Ico] at inOne inOther
  rcases apart with before | behind <;> omega

end Block

/-- The sizes of all blocks. -/
def totalSize (blocks : List Block) : Nat :=
  (blocks.map Block.size).sum

/-- Blocks that may be live together. -/
structure Blocks (space : Nat) (blocks : List Block) : Prop where
  inside : ∀ block ∈ blocks, block.Inside space
  apart : blocks.Pairwise Block.Apart

namespace Blocks

variable {space : Nat} {block : Block} {blocks : List Block}

theorem nil : Blocks space [] :=
  ⟨by simp, List.Pairwise.nil⟩

theorem cons (live : Blocks space blocks) (inside : block.Inside space)
    (apart : ∀ other ∈ blocks, block.Apart other) :
    Blocks space (block :: blocks) where
  inside := by
    intro other member
    rcases List.mem_cons.mp member with rfl | later
    · exact inside
    · exact live.inside other later
  apart := List.pairwise_cons.mpr ⟨apart, live.apart⟩

theorem sublist {fewer : List Block} (live : Blocks space blocks)
    (isSublist : fewer.Sublist blocks) : Blocks space fewer :=
  ⟨fun other member => live.inside other (isSublist.subset member),
    live.apart.sublist isSublist⟩

/-- A live block is known by its address. -/
theorem eq_of_addr (live : Blocks space blocks) {other : Block}
    (member : block ∈ blocks) (alsoMember : other ∈ blocks)
    (same : block.addr = other.addr) : block = other := by
  by_contra differ
  have apart : block.Apart other :=
    live.apart.forall member alsoMember differ
  have size := (live.inside block member).2.1
  have otherSize := (live.inside other alsoMember).2.1
  rcases apart with before | behind <;> omega

/-- Blocks that are live together leave the null pointer free. -/
theorem totalSize_lt (live : Blocks space blocks) (positive : 0 < space) :
    totalSize blocks < space := by
  have covered : ∃ cover ⊆ Finset.Ico 1 space, cover.card = totalSize blocks ∧
      ∀ addr ∈ cover, ∃ block ∈ blocks, addr ∈ block.range := by
    induction blocks with
    | nil => exact ⟨∅, by simp, rfl, by simp⟩
    | cons block blocks induction =>
        obtain ⟨apart, others⟩ := List.pairwise_cons.mp live.apart
        obtain ⟨cover, inSpace, count, fromBlocks⟩ := induction
          ⟨fun other member =>
            live.inside other (List.mem_cons_of_mem block member), others⟩
        have inside := live.inside block List.mem_cons_self
        have separate : Disjoint block.range cover := by
          rw [Finset.disjoint_left]
          intro addr inBlock inCover
          obtain ⟨other, member, inOther⟩ := fromBlocks addr inCover
          exact Finset.disjoint_left.mp (apart other member).disjoint inBlock
            inOther
        refine ⟨block.range ∪ cover, ?_, ?_, ?_⟩
        · apply Finset.union_subset _ inSpace
          exact Finset.Ico_subset_Ico inside.1 inside.2.2
        · rw [Finset.card_union_of_disjoint separate, count, Block.range,
            Nat.card_Ico, totalSize, totalSize, List.map_cons, List.sum_cons,
            Nat.add_sub_cancel_left]
        · intro addr member
          rcases Finset.mem_union.mp member with inBlock | inCover
          · exact ⟨block, List.mem_cons_self, inBlock⟩
          · obtain ⟨other, inBlocks, inOther⟩ := fromBlocks addr inCover
            exact ⟨other, List.mem_cons_of_mem block inBlocks, inOther⟩
  obtain ⟨cover, inSpace, count, -⟩ := covered
  have few := Finset.card_le_card inSpace
  rw [count, Nat.card_Ico] at few
  omega

end Blocks

/-- What is left when the block at an address is given back. -/
def giveBack (addr : Nat) (blocks : List Block) : List Block :=
  blocks.eraseP fun block => block.addr = addr

theorem giveBack_sublist (addr : Nat) (blocks : List Block) :
    (giveBack addr blocks).Sublist blocks :=
  List.eraseP_sublist

theorem totalSize_giveBack {space : Nat} {block : Block} {blocks : List Block}
    (live : Blocks space blocks) (member : block ∈ blocks) :
    totalSize (giveBack block.addr blocks) + block.size =
      totalSize blocks := by
  obtain ⟨found, front, rest, -, sameAddr, split, erased⟩ :=
    List.exists_of_eraseP (p := fun other : Block => other.addr = block.addr)
      member (by simp)
  have isBlock : found = block :=
    live.eq_of_addr (by simp [split]) member (by simpa using sameAddr)
  rw [giveBack, erased, split, isBlock]
  simp [totalSize]
  omega

end SaltOS.Lib
