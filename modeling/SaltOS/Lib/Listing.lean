import Mathlib.Data.Set.Insert
import SaltOS.Lib.Leaves

/-!
# Depth-first listings

What lies below a directory, as the names that lead there: each directory
before what is in it, and the entries of a directory in an order that is left
open.  A listing is complete, names everything once, and depends on the
entries of the directories only.
-/

namespace SaltOS.Lib

variable {γ δ : Type}

/-- Each list of names comes after the one of its directory, unless that is
among those seen before. -/
def ParentsFirst (seen : Set (List Name)) : List (List Name) → Prop
  | [] => True
  | comps :: rest =>
      comps.dropLast ∈ seen ∧ ParentsFirst (insert comps seen) rest

theorem ParentsFirst.mono {seen more : Set (List Name)}
    {listed : List (List Name)} (ordered : ParentsFirst seen listed)
    (sub : seen ⊆ more) : ParentsFirst more listed := by
  induction listed generalizing seen more with
  | nil => trivial
  | cons comps rest induction =>
      obtain ⟨parent, ordered⟩ := ordered
      exact ⟨sub parent, induction ordered (Set.insert_subset_insert sub)⟩

theorem ParentsFirst.append {seen : Set (List Name)}
    {front rest : List (List Name)} (first : ParentsFirst seen front)
    (later : ParentsFirst seen rest) : ParentsFirst seen (front ++ rest) := by
  induction front generalizing seen with
  | nil => exact later
  | cons comps front induction =>
      obtain ⟨parent, ordered⟩ := first
      exact ⟨parent, induction ordered
        (later.mono (Set.subset_insert comps seen))⟩

namespace FileSystem

variable {fs : FileSystem γ} {other : FileSystem δ} {top : Loc}
  {arrange : List Name → List Name}

/-- What lies below the directory that the names lead to; the fuel bounds the
depth. -/
def listing (fs : FileSystem γ) (arrange : List Name → List Name)
    (top : Loc) : Nat → List Name → List (List Name)
  | 0, _ => []
  | fuel + 1, comps =>
      (arrange (fs.children (descend top comps))).flatMap fun name =>
        (comps ++ [name]) :: listing fs arrange top fuel (comps ++ [name])

/-- The order is one of the entries that are there. -/
def Arranges (arrange : List Name → List Name) : Prop :=
  ∀ names, (arrange names).Perm names

theorem mem_arranged (arranges : Arranges arrange) {comps : List Name}
    {name : Name} :
    name ∈ arrange (fs.children (descend top comps)) ↔
      fs.node? (descend top (comps ++ [name])) ≠ none := by
  rw [(arranges _).mem_iff, mem_children, descend_concat]

theorem nodup_children (fs : FileSystem γ) (loc : Loc) :
    (fs.children loc).Nodup := by
  apply List.Nodup.filterMap _ fs.nodes.keys_nodup
  intro first second name isFirst isSecond
  cases first with
  | nil => cases isFirst
  | cons last parent =>
      cases second with
      | nil => cases isSecond
      | cons otherLast otherParent =>
          dsimp only at isFirst isSecond
          split at isFirst
          · split at isSecond
            · rename_i inLoc otherInLoc
              rw [inLoc, otherInLoc, Option.some.inj isFirst,
                Option.some.inj isSecond]
            · cases isSecond
          · cases isFirst

/-- Where nothing is in a directory, nothing is listed. -/
theorem listing_of_not_dir (arranges : Arranges arrange) (fuel : Nat)
    {comps : List Name} (notDir : ¬ fs.IsDir (descend top comps)) :
    fs.listing arrange top fuel comps = [] := by
  cases fuel with
  | zero => rfl
  | succ fuel =>
      rw [listing, children_of_not_dir notDir,
        List.perm_nil.mp (arranges []), List.flatMap_nil]

theorem below_of_mem_listing (arranges : Arranges arrange) {fuel : Nat}
    {comps listed : List Name}
    (member : listed ∈ fs.listing arrange top fuel comps) :
    ∃ name rest, listed = comps ++ name :: rest ∧
      fs.node? (descend top listed) ≠ none := by
  induction fuel generalizing comps with
  | zero => cases member
  | succ fuel induction =>
      obtain ⟨name, isEntry, inside⟩ := List.mem_flatMap.mp member
      obtain rfl | deeper := List.mem_cons.mp inside
      · exact ⟨name, [], rfl, (mem_arranged arranges).mp isEntry⟩
      · obtain ⟨second, rest, isListed, exists_⟩ := induction deeper
        exact ⟨name, second :: rest, by simpa using isListed, exists_⟩

/-- Everything within the fuel is listed. -/
theorem mem_listing (arranges : Arranges arrange) {fuel : Nat}
    {comps rest : List Name} {name : Name} (short : rest.length < fuel)
    (exists_ : fs.node? (descend top (comps ++ name :: rest)) ≠ none) :
    comps ++ name :: rest ∈ fs.listing arrange top fuel comps := by
  induction fuel generalizing comps name rest with
  | zero => exact absurd short (Nat.not_lt_zero _)
  | succ fuel induction =>
      rw [List.append_cons] at exists_
      apply List.mem_flatMap.mpr
      cases rest with
      | nil =>
          refine ⟨name, (mem_arranged arranges).mpr ?_, List.mem_cons_self⟩
          rw [List.append_nil] at exists_
          exact exists_
      | cons second rest =>
          refine ⟨name, (mem_arranged arranges).mpr ?_, ?_⟩
          · have isDir := isDir_of_cut exists_ (List.prefix_append _ _)
              (by simp)
            obtain ⟨mode, found⟩ := isDir_iff.mp isDir
            simp [found]
          · have deeper := induction (Nat.lt_of_succ_lt_succ short) exists_
            rw [List.append_assoc] at deeper
            exact List.mem_cons_of_mem _ deeper

theorem nodup_listing (arranges : Arranges arrange) (fuel : Nat)
    (comps : List Name) : (fs.listing arrange top fuel comps).Nodup := by
  induction fuel generalizing comps with
  | zero => exact List.nodup_nil
  | succ fuel induction =>
      have starts : ∀ {name : Name} {listed : List Name},
          listed ∈ (comps ++ [name]) ::
            fs.listing arrange top fuel (comps ++ [name]) →
          comps ++ [name] <+: listed := by
        intro name listed member
        obtain rfl | deeper := List.mem_cons.mp member
        · exact List.prefix_rfl
        · obtain ⟨second, rest, rfl, -⟩ := below_of_mem_listing arranges deeper
          exact List.prefix_append _ _
      apply List.nodup_flatMap.mpr
      constructor
      · intro name _
        apply List.nodup_cons.mpr
        refine ⟨?_, induction _⟩
        intro deeper
        obtain ⟨second, rest, same, -⟩ := below_of_mem_listing arranges deeper
        have lengths := congrArg List.length same
        simp at lengths
      · have distinct :=
          (arranges (fs.children (descend top comps))).nodup_iff.mpr
            (nodup_children fs _)
        apply distinct.imp
        intro first second differ listed inFirst inSecond
        have same := (List.prefix_of_prefix_length_le (starts inFirst)
          (starts inSecond) (by simp)).eq_of_length (by simp)
        exact differ (by simpa using same)

/-- Directories come before what is in them. -/
theorem parentsFirst_listing (fuel : Nat) {comps : List Name}
    {seen : Set (List Name)} (isSeen : comps ∈ seen) :
    ParentsFirst seen (fs.listing arrange top fuel comps) := by
  induction fuel generalizing comps seen with
  | zero => trivial
  | succ fuel induction =>
      rw [listing]
      generalize arrange (fs.children (descend top comps)) = names
      induction names with
      | nil => trivial
      | cons name names others =>
          rw [List.flatMap_cons]
          apply ParentsFirst.append _ others
          constructor
          · rw [List.dropLast_concat]
            exact isSeen
          · exact induction (Set.mem_insert _ _)

/-- Nothing lies below an empty directory. -/
theorem absent_below_empty (isEmpty : fs.children top = [])
    {comps : List Name} (nonempty : comps ≠ []) :
    fs.node? (descend top comps) = none := by
  by_contra exists_
  obtain ⟨first, rest, rfl⟩ := List.exists_cons_of_ne_nil nonempty
  have firstExists : fs.node? (descend top [first]) ≠ none := by
    by_cases single : rest = []
    · rw [single] at exists_
      exact exists_
    · have isDir := isDir_of_cut exists_ (List.prefix_append [first] rest)
        (by simpa using single)
      obtain ⟨mode, found⟩ := isDir_iff.mp isDir
      simp [found]
  exact firstExists (children_eq_nil_iff.mp isEmpty first)

/-- More fuel than the tree is deep lists nothing more. -/
theorem listing_add (arranges : Arranges arrange) {fuel : Nat} (more : Nat)
    {comps : List Name}
    (shallow : ∀ rest : List Name, fuel < rest.length →
      fs.node? (descend top (comps ++ rest)) = none) :
    fs.listing arrange top (fuel + more) comps =
      fs.listing arrange top fuel comps := by
  induction fuel generalizing comps with
  | zero =>
      cases more with
      | zero => rfl
      | succ more =>
          have childless : fs.children (descend top comps) = [] := by
            apply children_eq_nil_iff.mpr
            intro name
            rw [← descend_concat]
            exact shallow [name] (Nat.zero_lt_one)
          rw [Nat.zero_add, listing, listing, childless,
            List.perm_nil.mp (arranges []), List.flatMap_nil]
  | succ fuel induction =>
      rw [Nat.succ_add, listing, listing]
      apply List.flatMap_congr
      intro name _
      rw [induction]
      intro rest longer
      rw [List.append_assoc]
      exact shallow (name :: rest) (Nat.succ_lt_succ longer)

/-- Listings depend on the entries, however they are ordered. -/
theorem listing_congr {base : Loc}
    (same : ∀ comps, arrange (fs.children (descend top comps)) =
      arrange (other.children (descend base comps)))
    (fuel : Nat) (comps : List Name) :
    fs.listing arrange top fuel comps =
      other.listing arrange base fuel comps := by
  induction fuel generalizing comps with
  | zero => rfl
  | succ fuel induction =>
      simp only [listing, same, induction]

end FileSystem

end SaltOS.Lib
