import Mathlib.Data.List.Perm.Subperm
import SaltOS.Lib.Heap

/-!
# Trees on a heap

The cells of a heap may refer to others.  `Holds` says that the cells form a
tree, and `Held` that no cell is in it twice.  A tree is freed from its leaves
on.  A context is a tree with a hole: what happens below the hole leaves the
rest of the tree as it is.
-/

namespace SaltOS.Lib

open Heap

inductive CellTree (κ : Type) where
  | node (addr : Addr) (cell : κ) (subs : List (CellTree κ))

namespace CellTree

variable {ε κ : Type}

def addr : CellTree κ → Addr
  | node addr _ _ => addr

/-- The addresses of all nodes. -/
def addrs : CellTree κ → List Addr
  | node addr _ subs => addr :: subs.flatMap addrs

theorem addrs_node (addr : Addr) (cell : κ) (subs : List (CellTree κ)) :
    (node addr cell subs).addrs = addr :: subs.flatMap addrs := by
  rw [addrs]

theorem addr_mem_addrs (tree : CellTree κ) : tree.addr ∈ tree.addrs := by
  cases tree with
  | node addr cell subs =>
      rw [addrs_node]
      exact List.mem_cons_self

end CellTree

open CellTree

variable {ε κ : Type} {children : κ → List Addr} {heap : Heap κ}

/-- The cells form the tree. -/
inductive Holds (children : κ → List Addr) (cells : Addr → Option κ) :
    CellTree κ → Prop where
  | node {addr : Addr} {cell : κ} {subs : List (CellTree κ)} :
      cells addr = some cell → children cell = subs.map CellTree.addr →
      (∀ sub ∈ subs, Holds children cells sub) →
      Holds children cells (.node addr cell subs)

structure Held (children : κ → List Addr) (heap : Heap κ)
    (tree : CellTree κ) : Prop where
  holds : Holds children heap.cells tree
  distinct : tree.addrs.Nodup

namespace Holds

variable {cells after : Addr → Option κ} {tree : CellTree κ}

/-- Only the cells of the tree matter. -/
theorem congr (holds : Holds children cells tree)
    (same : ∀ addr ∈ tree.addrs, after addr = cells addr) :
    Holds children after tree := by
  induction holds with
  | @node addr cell subs found isChildren _ induction =>
      rw [addrs_node] at same
      constructor
      · rw [same addr List.mem_cons_self, found]
      · exact isChildren
      · intro sub member
        apply induction sub member
        intro other inside
        apply same
        exact List.mem_cons_of_mem addr
          (List.mem_flatMap.mpr ⟨sub, member, inside⟩)

/-- No cell of the tree is missing. -/
theorem found (holds : Holds children cells tree) :
    ∀ addr ∈ tree.addrs, ∃ cell, cells addr = some cell := by
  induction holds with
  | @node addr cell subs isCell _ _ induction =>
      intro other member
      rw [addrs_node] at member
      rcases List.mem_cons.mp member with rfl | below
      · exact ⟨cell, isCell⟩
      · obtain ⟨sub, isSub, inside⟩ := List.mem_flatMap.mp below
        exact induction sub isSub other inside

theorem lt_next (holds : Holds children heap.cells tree) :
    ∀ addr ∈ tree.addrs, addr < heap.next := by
  intro addr member
  obtain ⟨cell, isCell⟩ := holds.found addr member
  exact Heap.lt_next isCell

theorem of_same {owned : List Addr} {later : Heap κ}
    (holds : Holds children heap.cells tree)
    (same : SameOutside owned heap later)
    (disjoint : ∀ addr ∈ tree.addrs, addr ∉ owned) :
    Holds children later.cells tree := by
  apply holds.congr
  intro addr member
  exact same.same addr (holds.lt_next addr member) (disjoint addr member)

end Holds

namespace Held

variable {tree : CellTree κ}

theorem of_same {owned : List Addr} {later : Heap κ}
    (held : Held children heap tree) (same : SameOutside owned heap later)
    (disjoint : ∀ addr ∈ tree.addrs, addr ∉ owned) :
    Held children later tree :=
  ⟨held.holds.of_same same disjoint, held.distinct⟩

/-- A tree without a cell twice has no more cells than addresses were given
out. -/
theorem length_le (held : Held children heap tree) :
    tree.addrs.length ≤ heap.next := by
  have inside : tree.addrs ⊆ List.range heap.next := by
    intro addr member
    exact List.mem_range.mpr (held.holds.lt_next addr member)
  have shorter := (List.subperm_of_subset held.distinct inside).length_le
  rwa [List.length_range] at shorter

theorem sub {addr : Addr} {cell : κ} {subs : List (CellTree κ)}
    {tree : CellTree κ} (held : Held children heap (.node addr cell subs))
    (member : tree ∈ subs) : Held children heap tree := by
  obtain ⟨holds, distinct⟩ := held
  cases holds with
  | node _ _ below =>
      rw [addrs_node, List.nodup_cons, List.nodup_flatMap] at distinct
      exact ⟨below tree member, distinct.2.1 tree member⟩

theorem leaf {addr : Addr} {cell : κ} (found : heap.cells addr = some cell)
    (childless : children cell = []) :
    Held children heap (.node addr cell []) := by
  constructor
  · exact .node found childless (fun _ member => nomatch member)
  · rw [addrs_node]
    exact List.nodup_singleton addr

end Held

/-! ## Freeing -/

/-- Free a tree: what its cell refers to, and the cell.  The fuel bounds the
depth. -/
def free (children : κ → List Addr) : Nat → Addr → HeapM ε κ Unit
  | 0, _ => throw .deep
  | fuel + 1, addr => do
      let cell ← load addr
      (children cell).forM (free children fuel)
      release addr

/-- Exactly these addresses were freed. -/
structure Freed (addrs : List Addr) (before after : Heap κ) : Prop where
  next : after.next = before.next
  gone : ∀ addr ∈ addrs, after.cells addr = none
  same : ∀ addr, addr ∉ addrs → after.cells addr = before.cells addr

theorem Freed.sameOutside {addrs : List Addr} {before after : Heap κ}
    (freed : Freed addrs before after) : SameOutside addrs before after :=
  ⟨Nat.le_of_eq freed.next.symm, fun addr _ outside => freed.same addr outside⟩

private theorem free_all {fuel : Nat} {subs : List (CellTree κ)}
    (one : ∀ sub ∈ subs, ∀ before : Heap κ, Held children before sub →
      Ends (free (ε := ε) children fuel sub.addr before)
        (fun _ after => Freed sub.addrs before after) (fun _ _ => False))
    (holds : ∀ sub ∈ subs, Holds children heap.cells sub)
    (distinct : (subs.flatMap addrs).Nodup) :
    Ends ((subs.map addr).forM (free (ε := ε) children fuel) heap)
      (fun _ after => Freed (subs.flatMap addrs) heap after)
      (fun _ _ => False) := by
  induction subs generalizing heap with
  | nil => exact ⟨rfl, by simp, fun _ _ => rfl⟩
  | cons sub subs induction =>
      rw [List.flatMap_cons, List.nodup_append] at distinct
      obtain ⟨ownDistinct, laterDistinct, apart⟩ := distinct
      have held : Held children heap sub :=
        ⟨holds sub List.mem_cons_self, ownDistinct⟩
      apply Ends.bind (one sub List.mem_cons_self heap held)
      rintro _ between freed
      have laterHolds : ∀ later ∈ subs,
          Holds children between.cells later := by
        intro later member
        apply (holds later (List.mem_cons_of_mem sub member)).of_same
          freed.sameOutside
        intro addr inside own
        exact apart addr own addr
          (List.mem_flatMap.mpr ⟨later, member, inside⟩) rfl
      have rest := induction
        (fun later member => one later (List.mem_cons_of_mem sub member))
        laterHolds laterDistinct
      apply rest.mono
      · rintro _ after freedLater
        rw [List.flatMap_cons]
        refine ⟨freedLater.next.trans freed.next, ?_, ?_⟩
        · intro addr member
          by_cases later : addr ∈ subs.flatMap addrs
          · exact freedLater.gone addr later
          · rw [freedLater.same addr later]
            rcases List.mem_append.mp member with own | inLater
            · exact freed.gone addr own
            · exact absurd inLater later
        · intro addr outside
          rw [List.mem_append, not_or] at outside
          rw [freedLater.same addr outside.2, freed.same addr outside.1]
      · exact fun _ _ impossible => impossible

theorem free_ends {fuel : Nat} {tree : CellTree κ}
    (held : Held children heap tree) (enough : tree.addrs.length ≤ fuel) :
    Ends (free (ε := ε) children fuel tree.addr heap)
      (fun _ after => Freed tree.addrs heap after) (fun _ _ => False) := by
  induction fuel generalizing heap tree with
  | zero =>
      have positive := List.length_pos_of_mem tree.addr_mem_addrs
      exact absurd enough (Nat.not_le_of_gt positive)
  | succ fuel induction =>
      cases tree with
      | node addr cell subs =>
          obtain ⟨holds, distinct⟩ := held
          cases holds with
          | node found isChildren below =>
              rw [addrs_node, List.nodup_cons] at distinct
              rw [addrs_node, List.length_cons] at enough
              obtain ⟨notBelow, distinctBelow⟩ := distinct
              have one : ∀ sub ∈ subs, ∀ before : Heap κ,
                  Held children before sub →
                  Ends (free (ε := ε) children fuel sub.addr before)
                    (fun _ after => Freed sub.addrs before after)
                    (fun _ _ => False) := by
                intro sub member before heldSub
                apply induction heldSub
                have shorter : sub.addrs.length ≤
                    (subs.flatMap addrs).length :=
                  (List.sublist_flatten_of_mem
                    (List.mem_map_of_mem member)).length_le
                omega
              apply Ends.bindOk (load_run found)
              rw [isChildren]
              apply Ends.bind (free_all one below distinctBelow)
              rintro _ between freed
              have still : between.cells addr = some cell := by
                rw [freed.same addr notBelow, found]
              change Ends (release addr between) _ _
              rw [release_run still, addrs_node]
              refine ⟨freed.next, ?_, ?_⟩
              · intro other member
                by_cases isSelf : other = addr
                · rw [isSelf, put_self]
                · rw [put_other isSelf]
                  rcases List.mem_cons.mp member with same | inside
                  · exact absurd same isSelf
                  · exact freed.gone other inside
              · intro other outside
                rw [List.mem_cons, not_or] at outside
                rw [put_other outside.1, freed.same other outside.2]

/-! ## Contexts -/

/-- A node with a hole among its subtrees. -/
structure Frame (κ : Type) where
  addr : Addr
  cell : κ
  before : List (CellTree κ)
  behind : List (CellTree κ)

namespace Frame

def addrs (frame : Frame κ) : List Addr :=
  frame.addr :: (frame.before ++ frame.behind).flatMap CellTree.addrs

def plug (frame : Frame κ) (tree : CellTree κ) : CellTree κ :=
  .node frame.addr frame.cell (frame.before ++ tree :: frame.behind)

end Frame

/-- The tree around the hole, the innermost frame first. -/
abbrev Context (κ : Type) := List (Frame κ)

/-- The tree that a context makes of what is in its hole. -/
def plug : Context κ → CellTree κ → CellTree κ
  | [], tree => tree
  | frame :: context, tree => plug context (frame.plug tree)

theorem plug_append (inner outer : Context κ) (tree : CellTree κ) :
    plug (inner ++ outer) tree = plug outer (plug inner tree) := by
  induction inner generalizing tree with
  | nil => rfl
  | cons frame inner induction => exact induction (frame.plug tree)

/-- The address of the whole depends on the context, if there is one. -/
theorem addr_plug {tree other : CellTree κ} (context : Context κ)
    (same : tree.addr = other.addr) :
    (plug context tree).addr = (plug context other).addr := by
  induction context generalizing tree other with
  | nil => exact same
  | cons frame context induction => exact induction rfl

theorem addrs_framePlug (frame : Frame κ) (tree : CellTree κ) :
    (frame.plug tree).addrs.Perm (tree.addrs ++ frame.addrs) := by
  rw [Frame.plug, addrs_node, Frame.addrs, List.flatMap_append,
    List.flatMap_append, List.flatMap_cons]
  have swapped : (frame.addr :: (frame.before.flatMap CellTree.addrs ++
      (tree.addrs ++ frame.behind.flatMap CellTree.addrs))).Perm
      (frame.addr :: (tree.addrs ++ (frame.before.flatMap CellTree.addrs ++
        frame.behind.flatMap CellTree.addrs))) := by
    apply List.Perm.cons
    rw [← List.append_assoc, ← List.append_assoc]
    exact List.perm_append_comm.append_right _
  exact swapped.trans List.perm_middle.symm

theorem addrs_plug (context : Context κ) (tree : CellTree κ) :
    (plug context tree).addrs.Perm
      (tree.addrs ++ context.flatMap Frame.addrs) := by
  induction context generalizing tree with
  | nil =>
      rw [List.flatMap_nil, List.append_nil]
      rfl
  | cons frame context induction =>
      apply (induction (frame.plug tree)).trans
      rw [List.flatMap_cons, ← List.append_assoc]
      exact (addrs_framePlug frame tree).append_right _

/-- The cells of the frame, around a tree with that address. -/
structure Frame.Holds (children : κ → List Addr) (cells : Addr → Option κ)
    (frame : Frame κ) (hole : Addr) : Prop where
  found : cells frame.addr = some frame.cell
  isChildren : children frame.cell =
    frame.before.map CellTree.addr ++ hole :: frame.behind.map CellTree.addr
  below : ∀ sub ∈ frame.before ++ frame.behind, Lib.Holds children cells sub

theorem holds_framePlug {cells : Addr → Option κ} {frame : Frame κ}
    {tree : CellTree κ} :
    Holds children cells (frame.plug tree) ↔
      Holds children cells tree ∧ frame.Holds children cells tree.addr := by
  constructor
  · intro holds
    cases holds with
    | node found isChildren below =>
        refine ⟨below tree (by simp), found, ?_, ?_⟩
        · rw [isChildren, List.map_append, List.map_cons]
        · intro sub member
          apply below sub
          rcases List.mem_append.mp member with before | behind
          · exact List.mem_append_left _ before
          · exact List.mem_append_right _ (List.mem_cons_of_mem tree behind)
  · rintro ⟨holds, found, isChildren, below⟩
    constructor
    · exact found
    · rw [isChildren, List.map_append, List.map_cons]
    · intro sub member
      rcases List.mem_append.mp member with before | later
      · exact below sub (List.mem_append_left _ before)
      · rcases List.mem_cons.mp later with rfl | behind
        · exact holds
        · exact below sub (List.mem_append_right _ behind)

/-- The cells of the context, around a tree with that address. -/
def ContextHolds (children : κ → List Addr) (cells : Addr → Option κ) :
    Context κ → Addr → Prop
  | [], _ => True
  | frame :: context, hole =>
      frame.Holds children cells hole ∧
        ContextHolds children cells context frame.addr

theorem holds_plug {cells : Addr → Option κ} {context : Context κ}
    {tree : CellTree κ} :
    Holds children cells (plug context tree) ↔
      Holds children cells tree ∧
        ContextHolds children cells context tree.addr := by
  induction context generalizing tree with
  | nil => exact ⟨fun holds => ⟨holds, trivial⟩, And.left⟩
  | cons frame context induction =>
      rw [plug, induction, holds_framePlug, and_assoc]
      rfl

theorem Frame.Holds.congr {cells after : Addr → Option κ} {frame : Frame κ}
    {hole : Addr} (holds : frame.Holds children cells hole)
    (same : ∀ addr ∈ frame.addrs, after addr = cells addr) :
    frame.Holds children after hole := by
  refine ⟨?_, holds.isChildren, ?_⟩
  · rw [same frame.addr List.mem_cons_self, holds.found]
  · intro sub member
    apply (holds.below sub member).congr
    intro addr inside
    apply same
    exact List.mem_cons_of_mem frame.addr
      (List.mem_flatMap.mpr ⟨sub, member, inside⟩)

theorem contextHolds_congr {cells after : Addr → Option κ}
    {context : Context κ} {hole : Addr}
    (holds : ContextHolds children cells context hole)
    (same : ∀ addr ∈ context.flatMap Frame.addrs, after addr = cells addr) :
    ContextHolds children after context hole := by
  induction context generalizing hole with
  | nil => trivial
  | cons frame context induction =>
      rw [List.flatMap_cons] at same
      constructor
      · apply holds.1.congr
        intro addr inside
        exact same addr (List.mem_append_left _ inside)
      · apply induction holds.2
        intro addr inside
        exact same addr (List.mem_append_right _ inside)

namespace Held

variable {context : Context κ} {tree : CellTree κ}

/-- What is in the hole is a tree of its own. -/
theorem focus (held : Held children heap (plug context tree)) :
    Held children heap tree := by
  refine ⟨(holds_plug.mp held.holds).1, ?_⟩
  have distinct := (addrs_plug context tree).nodup_iff.mp held.distinct
  exact (List.nodup_append.mp distinct).1

theorem inFrame {frame : Frame κ} (held : Held children heap (frame.plug tree)) :
    Held children heap tree := by
  have whole : Held children heap (plug [frame] tree) := held
  exact whole.focus

theorem mem_plug {addr : Addr} (member : addr ∈ tree.addrs) :
    addr ∈ (plug context tree).addrs :=
  (addrs_plug context tree).mem_iff.mpr (List.mem_append_left _ member)

/-- The tree in the hole may change as long as it keeps its address, to its
own cells and to such as the whole does not have. -/
theorem refocus {new : CellTree κ} {later : Heap κ}
    (held : Held children heap (plug context tree))
    (sameAddr : new.addr = tree.addr) (newHeld : Held children later new)
    (same : SameOutside tree.addrs heap later)
    (owns : ∀ addr ∈ new.addrs,
      addr ∈ tree.addrs ∨ addr ∉ (plug context tree).addrs) :
    Held children later (plug context new) := by
  obtain ⟨_, around⟩ := holds_plug.mp held.holds
  have perm := addrs_plug context tree
  obtain ⟨_, aroundDistinct, apart⟩ :=
    List.nodup_append.mp (perm.nodup_iff.mp held.distinct)
  have inWhole : ∀ addr ∈ context.flatMap Frame.addrs,
      addr ∈ (plug context tree).addrs := fun addr member =>
    perm.mem_iff.mpr (List.mem_append_right _ member)
  constructor
  · apply holds_plug.mpr
    refine ⟨newHeld.holds, ?_⟩
    rw [sameAddr]
    apply contextHolds_congr around
    intro addr member
    apply same.same addr (held.holds.lt_next addr (inWhole addr member))
    intro own
    exact apart addr own addr member rfl
  · apply (addrs_plug context new).nodup_iff.mpr
    apply List.nodup_append.mpr
    refine ⟨newHeld.distinct, aroundDistinct, ?_⟩
    rintro addr inNew other inContext rfl
    rcases owns addr inNew with own | outside
    · exact apart addr own addr inContext rfl
    · exact outside (inWhole addr inContext)

/-- A frame written around a tree with none of its cells. -/
theorem plug_put {frame : Frame κ} {later : Heap κ}
    (written : later.cells frame.addr = some frame.cell)
    (same : ∀ addr, addr ≠ frame.addr → later.cells addr = heap.cells addr)
    (isChildren : children frame.cell = frame.before.map CellTree.addr ++
      tree.addr :: frame.behind.map CellTree.addr)
    (below : ∀ sub ∈ frame.before ++ frame.behind,
      Holds children heap.cells sub)
    (frameDistinct : frame.addrs.Nodup) (held : Held children heap tree)
    (apart : ∀ addr ∈ tree.addrs, addr ∉ frame.addrs) :
    Held children later (frame.plug tree) := by
  have notBelow : frame.addr ∉
      (frame.before ++ frame.behind).flatMap CellTree.addrs :=
    (List.nodup_cons.mp frameDistinct).1
  constructor
  · apply holds_framePlug.mpr
    refine ⟨?_, written, isChildren, ?_⟩
    · apply held.holds.congr
      intro addr member
      apply same
      rintro rfl
      exact apart frame.addr member List.mem_cons_self
    · intro sub member
      apply (below sub member).congr
      intro addr inside
      apply same
      rintro rfl
      exact notBelow (List.mem_flatMap.mpr ⟨sub, member, inside⟩)
  · apply (addrs_framePlug frame tree).nodup_iff.mpr
    apply List.nodup_append.mpr
    refine ⟨held.distinct, frameDistinct, ?_⟩
    rintro addr inTree other inFrame rfl
    exact apart addr inTree inFrame

/-- What the tree in the hole may become, the whole may become. -/
theorem mem_refocus {new : CellTree κ} {bound : Addr}
    (owns : ∀ addr ∈ new.addrs, addr ∈ tree.addrs ∨ bound ≤ addr) :
    ∀ addr ∈ (plug context new).addrs,
      addr ∈ (plug context tree).addrs ∨ bound ≤ addr := by
  intro addr member
  rcases List.mem_append.mp ((addrs_plug context new).mem_iff.mp member) with
    inNew | inContext
  · rcases owns addr inNew with own | isNew
    · exact .inl (mem_plug own)
    · exact .inr isNew
  · exact .inl ((addrs_plug context tree).mem_iff.mpr
      (List.mem_append_right _ inContext))

end Held

end SaltOS.Lib
