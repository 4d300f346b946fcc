import SaltOS.Toml.Statements

/-!
# More fuel

A parser with more fuel gives the same result, unless the fuel that it had did
not suffice.
-/

namespace SaltOS.Toml

variable {α β : Type}

/-- The second result is the first one, unless that ran out of fuel. -/
def Extends (less more : Except Stop α) : Prop :=
  less = .error .outOfFuel ∨ more = less

namespace Extends

theorem refl (result : Except Stop α) : Extends result result :=
  .inr rfl

theorem trans {less middle more : Except Stop α}
    (first : Extends less middle) (second : Extends middle more) :
    Extends less more := by
  rcases first with empty | rfl
  · exact .inl empty
  · exact second

theorem bind {less more : Except Stop α} {next next' : α → Except Stop β}
    (first : Extends less more) (then' : ∀ value,
      Extends (next value) (next' value)) :
    Extends (less >>= next) (more >>= next') := by
  rcases first with rfl | rfl
  · exact .inl rfl
  · cases more with
    | error stop => exact .inr rfl
    | ok value => exact then' value

theorem map {less more : Except Stop α} (extended : Extends less more)
    (change : α → β) : Extends (less.map change) (more.map change) := by
  rcases extended with rfl | rfl
  · exact .inl rfl
  · exact .inr rfl

end Extends

section

variable (next : UInt8)

theorem parse_extends_succ (fuel : Nat) :
    (∀ cursor, Extends (parseValue next fuel cursor)
      (parseValue next (fuel + 1) cursor)) ∧
    (∀ items cursor, Extends (parseArray next fuel items cursor)
      (parseArray next (fuel + 1) items cursor)) ∧
    ∀ table cursor, Extends (parseInlineTable next fuel table cursor)
      (parseInlineTable next (fuel + 1) table cursor) := by
  induction fuel with
  | zero =>
      refine ⟨fun cursor => .inl ?_, fun items cursor => .inl ?_,
        fun table cursor => .inl ?_⟩
      · rw [parseValue]
      · rw [parseArray]
      · rw [parseInlineTable]
  | succ fuel induction =>
      obtain ⟨value, array, inline⟩ := induction
      refine ⟨fun cursor => ?_, fun items cursor => ?_,
        fun table cursor => ?_⟩
      · rw [parseValue, parseValue]
        dsimp only
        split
        · exact .refl _
        · exact .refl _
        · exact .refl _
        · exact .refl _
        · exact .refl _
        · exact array _ _
        · split
          · exact .refl _
          · exact inline _ _
        · exact .refl _
      · rw [parseArray, parseArray]
        dsimp only
        split
        · exact .refl _
        · exact .refl _
        · refine .bind (value _) ?_
          rintro ⟨item, cursor⟩
          dsimp only
          split
          · exact array _ _
          · exact .refl _
          · exact array _ _
      · rw [parseInlineTable, parseInlineTable]
        refine .bind (.refl _) ?_
        rintro ⟨key, cursor⟩
        dsimp only
        split
        · refine .bind (value _) ?_
          rintro ⟨item, cursor⟩
          dsimp only
          split
          · exact inline _ _
          · exact .refl _
          · exact .refl _
        · exact .refl _

/-- What holds of one more unit of fuel holds of any more fuel. -/
theorem Extends.of_succ {run : Nat → Except Stop α}
    (one : ∀ fuel, Extends (run fuel) (run (fuel + 1))) {fuel more : Nat}
    (le : fuel ≤ more) : Extends (run fuel) (run more) := by
  induction le with
  | refl => exact .refl _
  | step _ induction => exact induction.trans (one _)

theorem parseValue_extends {fuel more : Nat} (le : fuel ≤ more)
    (cursor : Cursor) : Extends (parseValue next fuel cursor)
      (parseValue next more cursor) :=
  .of_succ (fun fuel => (parse_extends_succ next fuel).1 cursor) le

theorem parseArray_extends {fuel more : Nat} (le : fuel ≤ more)
    (items : List Node) (cursor : Cursor) :
    Extends (parseArray next fuel items cursor)
      (parseArray next more items cursor) :=
  .of_succ (fun fuel => (parse_extends_succ next fuel).2.1 items cursor) le

theorem parseInlineTable_extends {fuel more : Nat} (le : fuel ≤ more)
    (table : Table) (cursor : Cursor) :
    Extends (parseInlineTable next fuel table cursor)
      (parseInlineTable next more table cursor) :=
  .of_succ (fun fuel => (parse_extends_succ next fuel).2.2 table cursor) le

theorem parseStatement_extends {fuel more : Nat} (le : fuel ≤ more)
    (document : Document) : Extends (parseStatement next fuel document)
      (parseStatement next more document) := by
  unfold parseStatement
  dsimp only
  split
  · exact .refl _
  · exact .refl _
  · apply Extends.map
    refine .bind (.refl _) ?_
    rintro ⟨keys, cursor⟩
    dsimp only
    split
    · refine .bind (parseValue_extends next le _) ?_
      rintro ⟨value, cursor⟩
      exact .refl _
    · exact .refl _

theorem statementLoop_extends {fuel more : Nat} (le : fuel ≤ more)
    (rounds : Nat) (document : Document) :
    Extends (statementLoop next fuel rounds document)
      (statementLoop next more rounds document) := by
  induction rounds generalizing document with
  | zero => exact .refl _
  | succ rounds induction =>
      rw [statementLoop, statementLoop]
      refine .bind (parseStatement_extends next le document) ?_
      intro read
      cases read with
      | none => exact .refl _
      | some document => exact induction document

theorem parse_extends {fuel more : Nat} (le : fuel ≤ more) (text : Bytes) :
    Extends (parse next fuel text) (parse next more text) :=
  statementLoop_extends next le _ _

end

theorem parseFile_extends {fuel more : Nat} (le : fuel ≤ more)
    (content : Option Bytes) :
    Extends (parseFile fuel content) (parseFile more content) := by
  cases content with
  | none => exact .refl _
  | some text =>
      unfold parseFile
      dsimp only
      rcases parse_extends 0 le text with empty | same
      · rw [empty]
        exact .inl rfl
      · rw [same]
        exact .refl _

/-- A result that was reached with some fuel is the result. -/
theorem Returns.of_ok {run : Nat → Except Stop α} {result : α} {fuel : Nat}
    (extends' : ∀ more, fuel ≤ more → Extends (run fuel) (run more))
    (isOk : run fuel = .ok result) : Returns run result := by
  refine ⟨fuel, fun more le => ?_⟩
  rcases extends' more le with empty | same
  · rw [isOk] at empty
    cases empty
  · rw [same, isOk]

/-- Sequencing computations that return. -/
theorem Returns.bind {β : Type} {run : Nat → Except Stop α} {middle : α}
    {next : Nat → α → Except Stop β} {result : β} (first : Returns run middle)
    (second : Returns (fun fuel => next fuel middle) result) :
    Returns (fun fuel => run fuel >>= next fuel) result := by
  obtain ⟨firstBound, isMiddle⟩ := first
  obtain ⟨secondBound, isResult⟩ := second
  refine ⟨firstBound + secondBound, fun fuel enough => ?_⟩
  dsimp only
  rw [isMiddle fuel (by omega)]
  exact isResult fuel (by omega)

theorem Returns.pure (result : α) :
    Returns (fun _ => Except.ok result) result :=
  ⟨0, fun _ _ => rfl⟩

end SaltOS.Toml
