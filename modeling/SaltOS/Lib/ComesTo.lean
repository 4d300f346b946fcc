import SaltOS.Lib.Leaves

/-!
# Directories that a resolution stays out of

A resolution comes to the locations it starts at, goes through and ends at.
One that never comes to a directory, and starts outside it, does not see what
is below: it leads to the same place whatever is there.
-/

namespace SaltOS.Lib

variable {γ : Type} {look look' : Loc → Option (Node γ)}
  {goal top cur final : Loc} {comps : List Name} {links : Nat}

/-- The resolution of the components comes to the location. -/
inductive ComesTo (look : Loc → Option (Node γ)) (goal : Loc) :
    Loc → List Name → Prop where
  | here (comps : List Name) : ComesTo look goal goal comps
  | dot {cur : Loc} {comp : Name} {rest : List Name} :
      IsDirIn (look cur) → IsDot comp → ComesTo look goal cur rest →
      ComesTo look goal cur (comp :: rest)
  | up {cur : Loc} {rest : List Name} :
      IsDirIn (look cur) → ComesTo look goal cur.tail rest →
      ComesTo look goal cur (dotDot :: rest)
  | entry {cur : Loc} {comp : Name} {rest : List Name} {node : Node γ} :
      IsDirIn (look cur) → ¬ IsDot comp → comp ≠ dotDot →
      look (comp :: cur) = some node → node.isSymlink = false →
      ComesTo look goal (comp :: cur) rest →
      ComesTo look goal cur (comp :: rest)
  | follow {cur : Loc} {comp target : Name} {rest : List Name} :
      IsDirIn (look cur) → ¬ IsDot comp → comp ≠ dotDot →
      look (comp :: cur) = some (.symlink target) → target ≠ [] →
      ComesTo look goal (baseOf cur target) (components target ++ rest) →
      ComesTo look goal cur (comp :: rest)

namespace ComesTo

theorem not_nil (differs : cur ≠ goal) : ¬ ComesTo look goal cur [] := by
  rintro ⟨⟩
  exact differs rfl

theorem not_dot {comp : Name} (differs : cur ≠ goal) (isDot : IsDot comp)
    (later : ¬ ComesTo look goal cur comps) :
    ¬ ComesTo look goal cur (comp :: comps) := by
  intro comes
  cases comes with
  | here => exact differs rfl
  | dot _ _ comes => exact later comes
  | up => exact absurd isDot (by decide)
  | entry _ notDot => exact notDot isDot
  | follow _ notDot => exact notDot isDot

theorem not_entry {comp : Name} {node : Node γ} (differs : cur ≠ goal)
    (valid : ¬ IsDot comp ∧ comp ≠ dotDot)
    (found : look (comp :: cur) = some node) (plain : node.isSymlink = false)
    (later : ¬ ComesTo look goal (comp :: cur) comps) :
    ¬ ComesTo look goal cur (comp :: comps) := by
  intro comes
  cases comes with
  | here => exact differs rfl
  | dot _ isDot => exact valid.1 isDot
  | up => exact valid.2 rfl
  | entry _ _ _ _ _ comes => exact later comes
  | follow _ _ _ isLink =>
      rw [found, Option.some.injEq] at isLink
      rw [isLink] at plain
      cases plain

end ComesTo

/-- A resolution that stays out of a directory is one in every tree that has
the same outside. -/
theorem Walk.of_avoids (topIsDir : IsDirIn (look' top))
    (same : ∀ loc node, ¬ top <:+ loc → look loc = some node →
      look' loc = some node)
    (walked : Walk look cur comps final links)
    (avoids : ¬ ComesTo look' top cur comps) (outside : ¬ top <:+ cur) :
    Walk look' cur comps final links ∧ ¬ top <:+ final := by
  have stillDir {loc : Loc} (away : ¬ top <:+ loc)
      (isDir : IsDirIn (look loc)) : IsDirIn (look' loc) := by
    obtain ⟨mode, found⟩ := isDirIn_iff.mp isDir
    exact isDirIn_iff.mpr ⟨mode, same loc _ away found⟩
  -- The next entry is not the directory, which it never comes to.
  have entryOutside {cur : Loc} {comp : Name} {rest : List Name}
      (isDir : IsDirIn (look' cur)) (notDot : ¬ IsDot comp)
      (notUp : comp ≠ dotDot) (avoids : ¬ ComesTo look' top cur (comp :: rest))
      (outside : ¬ top <:+ cur) : ¬ top <:+ comp :: cur := by
    intro isBelow
    rcases List.suffix_cons_iff.mp isBelow with isTop | above
    · obtain ⟨mode, found⟩ := isDirIn_iff.mp topIsDir
      rw [isTop] at found avoids
      exact avoids (.entry isDir notDot notUp found rfl (.here rest))
    · exact outside above
  induction walked with
  | nil cur => exact ⟨.nil cur, outside⟩
  | dot isDir isDot _ induction =>
      have isDir' := stillDir outside isDir
      obtain ⟨walked, away⟩ := induction
        (fun comes => avoids (.dot isDir' isDot comes)) outside
      exact ⟨.dot isDir' isDot walked, away⟩
  | up isDir _ induction =>
      have isDir' := stillDir outside isDir
      obtain ⟨walked, away⟩ := induction
        (fun comes => avoids (.up isDir' comes))
        (fun isBelow => outside (isBelow.trans (List.tail_suffix _)))
      exact ⟨.up isDir' walked, away⟩
  | entry isDir notDot notUp found plain _ induction =>
      have isDir' := stillDir outside isDir
      have away := entryOutside isDir' notDot notUp avoids outside
      have found' := same _ _ away found
      obtain ⟨walked, finalAway⟩ := induction
        (fun comes => avoids (.entry isDir' notDot notUp found' plain comes))
        away
      exact ⟨.entry isDir' notDot notUp found' plain walked, finalAway⟩
  | @follow cur final comp target rest links isDir notDot notUp found nonempty
      _ induction =>
      have isDir' := stillDir outside isDir
      have away := entryOutside isDir' notDot notUp avoids outside
      have found' := same _ _ away found
      have avoidsTarget : ¬ ComesTo look' top (baseOf cur target)
          (components target ++ rest) := fun comes =>
        avoids (.follow isDir' notDot notUp found' nonempty comes)
      have baseOutside : ¬ top <:+ baseOf cur target := by
        intro isBelow
        unfold baseOf at isBelow avoidsTarget
        split at isBelow
        · rename_i absolute
          rw [if_pos absolute, ← List.suffix_nil.mp isBelow] at avoidsTarget
          exact avoidsTarget (.here _)
        · exact outside isBelow
      obtain ⟨walked, finalAway⟩ := induction avoidsTarget baseOutside
      exact ⟨.follow isDir' notDot notUp found' nonempty walked, finalAway⟩

end SaltOS.Lib
