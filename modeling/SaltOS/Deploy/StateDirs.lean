import SaltOS.Base.BelowCalls
import SaltOS.Deploy.Deploy

/-!
# State directories of transactions

The state directory of every transaction is an entry of one directory, under
the number of the transaction.  What is removed of one leaves the others as
they are.
-/

namespace SaltOS.Deploy

open Lib Disk Txn Util

theorem txnName_valid (id : Nat) : ValidName (txnName id) := by
  have noSlash : 47 ∉ txnName id := by
    intro member
    rcases List.mem_append.mp member with inLabel | inNumber
    · exact absurd inLabel (by decide)
    · have bounds := printBase_bounds (by decide) (by decide) 47 inNumber
      exact absurd bounds.1 (by decide)
  have label : txnName id = 116 :: 120 :: 110 :: 45 :: printBase 10 id := rfl
  refine ⟨?_, ?_, ?_, noSlash⟩ <;> simp [label]

theorem txnName_injective : Function.Injective txnName := by
  intro first second same
  have digits : printBase 10 first = printBase 10 second :=
    List.append_cancel_left same
  have readsFirst : readBase 10 (printBase 10 first) = first :=
    readBase_printBase (by decide) (by decide)
  have readsSecond : readBase 10 (printBase 10 second) = second :=
    readBase_printBase (by decide) (by decide)
  rw [← readsFirst, digits, readsSecond]

theorem dirPath_stateDir (root : Bytes) : DirPath (stateDir root) :=
  DirPath.joinPath root (by decide) (by decide) (by decide)

theorem under_txn (root : Bytes) (id : Nat) :
    Under (stateDir root) (txnStateDir root id) [txnName id] := by
  have under : Under (stateDir root) (txnStateDir root id)
      (components (txnName id)) :=
    Under.of_slash (dirPath_stateDir root).nonempty
      (dirPath_stateDir root).noTrailing
  rwa [components_of_valid (txnName_valid id)] at under

theorem names_txn (id : Nat) : Names [txnName id] :=
  ⟨by simp, by simpa using txnName_valid id⟩

/-- An entry of a state directory. -/
theorem under_entry (root : Bytes) (id : Nat) {name : Name}
    (valid : ValidName name) :
    Under (stateDir root) (joinPath (txnStateDir root id) name)
      [txnName id, name] := by
  have under := (under_txn root id).join (names_txn id) valid.1 (by
    intro slash
    exact valid.2.2.2 (List.mem_of_mem_head? slash))
  rwa [components_of_valid valid] at under

theorem names_entry (id : Nat) {name : Name} (valid : ValidName name) :
    Names [txnName id, name] :=
  ⟨by simp, by simpa using ⟨txnName_valid id, valid⟩⟩

/-- The directory of all state directories leads to `stateTop`, and none of
these is a symbolic link. -/
structure StateTree (disk : Disk Content) (root : Bytes) (stateTop : Loc) :
    Prop where
  rooted : Rooted disk (stateDir root) stateTop
  plain : ∀ id target,
    disk.fs.leaf? (descend stateTop [txnName id]) ≠ some (.link target)

/-- The files and the directories in the state directory of a transaction are
still there, and no other files are. -/
structure KeptState (stateTop : Loc) (id : Nat) (before after : Disk Content) :
    Prop where
  leaves : ∀ names, after.fs.leaf? (descend stateTop (txnName id :: names)) =
    before.fs.leaf? (descend stateTop (txnName id :: names))
  dirs : ∀ names,
    before.fs.IsDir (descend stateTop (txnName id :: names)) →
      after.fs.IsDir (descend stateTop (txnName id :: names))

section

variable {stateTop : Loc} {root : Bytes} {id : Nat}
  {before middle after : Disk Content}

theorem KeptState.refl (disk : Disk Content) :
    KeptState stateTop id disk disk :=
  ⟨fun _ => rfl, fun _ isDir => isDir⟩

theorem KeptState.trans (first : KeptState stateTop id before middle)
    (second : KeptState stateTop id middle after) :
    KeptState stateTop id before after :=
  ⟨fun names => (second.leaves names).trans (first.leaves names),
    fun names isDir => second.dirs names (first.dirs names isDir)⟩

/-- Nothing but the state directory of one transaction has changed. -/
abbrev OnlyState (stateTop : Loc) (id : Nat) (before after : Disk Content) :
    Prop :=
  Changes stateTop Set.univ (below [txnName id]) (below [txnName id]) before
    after

theorem OnlyState.kept (changes : OnlyState stateTop id before after)
    {other : Nat} (differ : other ≠ id) :
    KeptState stateTop other before after := by
  have apart : ∀ names, ∀ touched ∈ below [txnName id],
      descend stateTop (txnName other :: names) ≠
        descend stateTop touched := by
    rintro names touched ⟨rest, rfl⟩ same
    have heads := congrArg List.head? (descend_inj.mp same)
    exact differ (txnName_injective (Option.some.inj heads))
  constructor
  · intro names
    exact Changes.leaves changes _ (apart names)
  · intro names
    exact Changes.kept changes _ (apart names)

/-- An entry of a state directory is reached through directories only. -/
theorem StateTree.plain_entry (tree : StateTree before root stateTop)
    {name : Name} : Plain before.fs stateTop [txnName id, name] := by
  intro cut target isCut proper
  have entries : [txnName id, name] = [txnName id] ++ [name] := rfl
  rw [entries] at isCut proper
  rcases List.prefix_concat_iff.mp isCut with same | shorter
  · exact absurd same proper
  · have single : [txnName id] = [] ++ [txnName id] := rfl
    rw [single] at shorter
    rcases List.prefix_concat_iff.mp shorter with isDir | above
    · rw [isDir]
      exact tree.plain id target
    · rw [List.prefix_nil.mp above, descend_nil,
        FileSystem.leaf?_of_isDir tree.rooted.isDir]
      simp

/-- What changes below an entry of a state directory leaves the directories
where they are. -/
theorem StateTree.changes (tree : StateTree before root stateTop)
    {name : Name}
    (changes : Changes stateTop Set.univ (below [txnName id, name])
      (below [txnName id, name]) before after) :
    StateTree after root stateTop ∧ OnlyState stateTop id before after := by
  constructor
  · refine ⟨tree.rooted.changes changes, ?_⟩
    intro other target
    rw [changes.leaves]
    · exact tree.plain other target
    · rintro names isBelow same
      rw [descend_inj] at same
      subst same
      have shorter := List.IsPrefix.length_le isBelow
      simp at shorter
  · have inside : below [txnName id, name] ⊆ below [txnName id] := by
      intro names isBelow
      exact (List.prefix_append [txnName id] [name]).trans isBelow
    exact Changes.mono changes inside inside

theorem removeTree_state (tree : StateTree before root stateTop)
    {name : Name} (valid : ValidName name) :
    EndsIn (removeTree (joinPath (txnStateDir root id) name) before)
      fun after => StateTree after root stateTop ∧
        OnlyState stateTop id before after := by
  apply Ends.bindOk rfl
  have removed := tree.rooted.removeRecursive_ends (before.fs.depth + 1)
    (under_entry root id valid) (names_entry id valid) tree.plain_entry
  exact removed.endsIn (fun _ _ changes => tree.changes changes)
    fun _ _ changes => tree.changes changes

theorem unlink_state (tree : StateTree before root stateTop)
    {name : Name} (valid : ValidName name) :
    EndsIn (Disk.unlink (joinPath (txnStateDir root id) name) before)
      fun after => StateTree after root stateTop ∧
        OnlyState stateTop id before after := by
  have removed : EndsIn
      (Disk.unlink (joinPath (txnStateDir root id) name) before)
      fun now => Changes stateTop Set.univ {[txnName id, name]} ∅ before now ∧
        _ :=
    tree.rooted.unlink_ends (under_entry root id valid)
      (names_entry id valid) tree.plain_entry
  have inside : {[txnName id, name]} ⊆ below [txnName id, name] := by
    rintro names rfl
    exact List.prefix_rfl
  exact removed.endsIn
    (fun _ _ both => tree.changes (both.1.mono inside (Set.empty_subset _)))
    fun _ _ both => tree.changes (both.1.mono inside (Set.empty_subset _))

end

end SaltOS.Deploy
