import SaltOS.Toml.Places

/-!
# When the parser returns

A round of the loop for arrays that finds a closing brace reads an empty token
in front of it, finds neither a comma nor a bracket, and goes round again.  The
parser returns exactly when no array has a brace in place of an item.
-/

namespace SaltOS.Toml

open Relation

/-- The parse returns a tree or an error, and every round of a loop that goes
round again has taken a byte. -/
structure Terminates (next : UInt8) (text : Bytes) : Prop where
  returns : ∃ fuel, parse next fuel text ≠ .error .outOfFuel
  advances : ∀ place after, Comes next text place →
    Rounds next place after → after.left < place.left

/-- No array of the text has a closing brace in place of an item. -/
def NoBraceItem (next : UInt8) (text : Bytes) : Prop :=
  ∀ cursor, Comes next text (.item cursor) → ¬ AtBrace cursor

section

variable {next : UInt8}

/-! ## Places that are never left -/

/-- The parser does not come back from a place. -/
def Diverges (next : UInt8) : Place → Prop
  | .value cursor => ∀ fuel,
      parseValue next fuel cursor = .error .outOfFuel
  | .item cursor => ∀ fuel items,
      parseArray next fuel items cursor = .error .outOfFuel
  | .field cursor => ∀ fuel table,
      parseInlineTable next fuel table cursor = .error .outOfFuel
  | .key _ => False
  | .statement document => ∀ fuel rounds,
      statementLoop next fuel rounds document = .error .outOfFuel

theorem brace_starts : StartsStatement 125 :=
  ⟨by decide, by decide, by decide, by decide⟩

theorem AtBrace.exists {cursor : Cursor} (atBrace : AtBrace cursor) :
    ∃ rest, (skipWsAndComments cursor).rest = 125 :: rest :=
  List.head?_eq_some_iff.mp atBrace

/-- In front of a brace an empty token is read. -/
theorem parseValue_brace {cursor : Cursor} {rest : Bytes}
    (isRest : cursor.rest = 125 :: rest) (fuel : Nat) :
    parseValue next (fuel + 1) cursor = .ok (.str [], cursor) := by
  have skipped := skipWsInline_self isRest brace_starts.notBlank
  obtain ⟨_, past, line⟩ := cursor
  subst isRest
  rw [parseValue]
  simp only [skipped, parseScalarToken]
  rfl

/-- A round in front of a brace leads to the next one at the same place. -/
theorem AtBrace.rounds {cursor : Cursor} (atBrace : AtBrace cursor) :
    StartsItem cursor ∧ nextItem (skipWsAndComments cursor) =
      some (skipWsAndComments cursor) ∧
        AtBrace (skipWsAndComments cursor) := by
  obtain ⟨rest, isRest⟩ := atBrace.exists
  have skipped := skipWsAndComments_self isRest brace_starts
  refine ⟨⟨?_, ?_⟩, ?_, ?_⟩
  · simp [isRest]
  · simp [isRest]
  · have other := @nextItem_other (skipWsAndComments cursor)
      (by simp [skipped, isRest]) (by simp [skipped, isRest])
    rwa [skipped] at other
  · rw [AtBrace, skipped]
    exact atBrace

theorem AtBrace.diverges {cursor : Cursor} (atBrace : AtBrace cursor) :
    Diverges next (.item cursor) := by
  intro fuel
  induction fuel generalizing cursor with
  | zero =>
      intro items
      rw [parseArray]
  | succ fuel induction =>
      intro items
      obtain ⟨rest, isRest⟩ := atBrace.exists
      obtain ⟨starts, again, still⟩ := atBrace.rounds
      rw [parseArray_starts starts]
      cases fuel with
      | zero =>
          rw [parseValue]
          rfl
      | succ fuel =>
          rw [parseValue_brace isRest, ok_bind, again]
          exact induction still _

theorem bind_outOfFuel {α β : Type} {first : Except Stop α}
    {then' : α → Except Stop β} (empty : first = .error .outOfFuel) :
    (first >>= then') = .error .outOfFuel := by
  rw [empty]
  rfl

/-- A place that leads to one that is never left is never left. -/
theorem Diverges.of_leads {place after : Place}
    (leads : Leads next place after) (diverges : Diverges next after) :
    Diverges next place := by
  rcases leads with calls | rounds
  · cases calls with
    | @array cursor rest isRest =>
        intro fuel
        cases fuel with
        | zero => rw [parseValue]
        | succ fuel =>
            rw [parseValue]
            simp only [isRest]
            exact diverges fuel []
    | @inlineTable cursor rest isRest notEmpty =>
        intro fuel
        cases fuel with
        | zero => rw [parseValue]
        | succ fuel =>
            rw [parseValue]
            simp only [isRest]
            split
            · rename_i more isMore
              rw [isMore] at notEmpty
              exact absurd rfl notEmpty
            · exact diverges fuel []
    | itemValue starts =>
        intro fuel items
        cases fuel with
        | zero => rw [parseArray]
        | succ fuel =>
            rw [parseArray_starts starts]
            exact bind_outOfFuel (diverges fuel)
    | @fieldValue cursor left key rest isKey isRest =>
        intro fuel table
        cases fuel with
        | zero => rw [parseInlineTable]
        | succ fuel =>
            rw [parseInlineTable, isKey, ok_bind]
            dsimp only
            rw [isRest]
            exact bind_outOfFuel (diverges fuel)
    | headerKeys => exact diverges.elim
    | assignmentKeys => exact diverges.elim
    | @assignmentValue document keys left rest starts isPath isRest =>
        intro fuel rounds
        cases rounds with
        | zero => rfl
        | succ rounds =>
            rw [statementLoop, parseStatement_assignment starts isPath isRest]
            exact bind_outOfFuel (bind_outOfFuel (diverges fuel))
  · cases rounds with
    | @item cursor left after read value starts isValue isNext =>
        intro fuel items
        cases fuel with
        | zero => rw [parseArray]
        | succ fuel =>
            rw [parseArray_starts starts]
            rcases parseValue_outOfFuel_or isValue fuel with empty | isOk
            · exact bind_outOfFuel empty
            · rw [isOk, ok_bind, isNext]
              exact diverges fuel _
    | @field cursor left behind read key rest more value isKey isRest isValue
        isMore =>
        intro fuel table
        cases fuel with
        | zero => rw [parseInlineTable]
        | succ fuel =>
            rw [parseInlineTable, isKey, ok_bind]
            dsimp only
            rw [isRest]
            rcases parseValue_outOfFuel_or isValue fuel with empty | isOk
            · exact bind_outOfFuel empty
            · change (parseValue next fuel
                (skipWsInline ((skipWsInline left).to rest)) >>= _) = _
              rw [isOk, ok_bind]
              dsimp only
              rw [isMore]
              exact diverges fuel _
    | key => exact diverges.elim
    | @statement document after read isNext =>
        intro fuel rounds
        cases rounds with
        | zero => rfl
        | succ rounds =>
            rw [statementLoop]
            rcases parseStatement_outOfFuel_or isNext fuel with empty | isOk
            · exact bind_outOfFuel empty
            · rw [isOk]
              exact diverges fuel rounds

/-! ## Places that are left -/

/-- No place that the parser comes to from here is an item at a brace. -/
def Safe (next : UInt8) (place : Place) : Prop :=
  ∀ cursor, ReflTransGen (Leads next) place (.item cursor) →
    ¬ AtBrace cursor

theorem Safe.leads {place after : Place} (safe : Safe next place)
    (leads : Leads next place after) : Safe next after :=
  fun cursor comes => safe cursor (.head leads comes)

/-- The parser comes back from the values and loops with at most `count` bytes
in front. -/
structure Halts (next : UInt8) (count : Nat) : Prop where
  value : ∀ cursor, cursor.rest.length ≤ count →
    Safe next (.value cursor) →
    ∃ fuel, parseValue next fuel cursor ≠ .error .outOfFuel
  item : ∀ cursor, cursor.rest.length ≤ count → Safe next (.item cursor) →
    ∀ items, ∃ fuel,
      parseArray next fuel items cursor ≠ .error .outOfFuel
  field : ∀ cursor, cursor.rest.length ≤ count →
    Safe next (.field cursor) → ∀ table, ∃ fuel,
      parseInlineTable next fuel table cursor ≠ .error .outOfFuel

theorem value_halts {count : Nat}
    (shorter : ∀ less, less < count → Halts next less) {cursor : Cursor}
    (le : cursor.rest.length ≤ count) (safe : Safe next (.value cursor)) :
    ∃ fuel, parseValue next fuel cursor ≠ .error .outOfFuel := by
  have skipped := (skipWsInline_suffix cursor).length_le
  by_cases isArray : ∃ rest, (skipWsInline cursor).rest = 91 :: rest
  · obtain ⟨rest, isRest⟩ := isArray
    rw [isRest, List.length_cons] at skipped
    obtain ⟨fuel, fueled⟩ := (shorter rest.length (by omega)).item
      ((skipWsInline cursor).to rest) le_rfl
      (safe.leads (.inl (.array isRest))) []
    refine ⟨fuel + 1, ?_⟩
    rw [parseValue]
    simp only [isRest]
    exact fueled
  by_cases isTable : ∃ rest, (skipWsInline cursor).rest = 123 :: rest
  · obtain ⟨rest, isRest⟩ := isTable
    rw [isRest, List.length_cons] at skipped
    by_cases isEmpty : ∃ more,
        (skipWsInline ((skipWsInline cursor).to rest)).rest = 125 :: more
    · obtain ⟨more, isMore⟩ := isEmpty
      refine ⟨1, ?_⟩
      rw [parseValue]
      simp only [isRest, isMore]
      simp
    · have notEmpty : (skipWsInline ((skipWsInline cursor).to
          rest)).rest.head? ≠ some 125 := by
        intro isHead
        exact isEmpty (List.head?_eq_some_iff.mp isHead)
      have blank := (skipWsInline_suffix
        ((skipWsInline cursor).to rest)).length_le
      obtain ⟨fuel, fueled⟩ := (shorter rest.length (by omega)).field
        (skipWsInline ((skipWsInline cursor).to rest)) blank
        (safe.leads (.inl (.inlineTable isRest notEmpty))) []
      refine ⟨fuel + 1, ?_⟩
      rw [parseValue]
      simp only [isRest]
      split
      · rename_i more isMore
        exact absurd ⟨more, isMore⟩ isEmpty
      · exact fueled
  · refine ⟨1, parseValue_flat next 0 ?_ ?_⟩
    · exact fun isHead => isArray (List.head?_eq_some_iff.mp isHead)
    · exact fun isHead => isTable (List.head?_eq_some_iff.mp isHead)

/-- What follows a value that was read, with fuel for both. -/
theorem bind_fueled {β : Type} {first : Nat → Except Stop (Node × Cursor)}
    {then' : Nat → Node × Cursor → Except Stop β}
    (firstExtends : ∀ less more, less ≤ more →
      Extends (first less) (first more))
    (thenExtends : ∀ read less more, less ≤ more →
      Extends (then' less read) (then' more read))
    (firstFueled : ∃ fuel, first fuel ≠ .error .outOfFuel)
    (thenFueled : ∀ fuel read, first fuel = .ok read →
      ∃ other, then' other read ≠ .error .outOfFuel) :
    ∃ fuel, (first fuel >>= then' fuel) ≠ .error .outOfFuel := by
  obtain ⟨fuel, fueled⟩ := firstFueled
  cases isFirst : first fuel with
  | error stop =>
      refine ⟨fuel, ?_⟩
      rw [isFirst]
      intro isEmpty
      cases isEmpty
      exact fueled isFirst
  | ok read =>
      obtain ⟨other, otherFueled⟩ := thenFueled fuel read isFirst
      refine ⟨max fuel other, ?_⟩
      have isMax : first (max fuel other) = .ok read := by
        rcases firstExtends fuel _ (le_max_left fuel other) with
          empty | same
        · exact absurd empty fueled
        · rw [same, isFirst]
      rw [isMax]
      rcases thenExtends read other _ (le_max_right fuel other) with
        empty | same
      · exact absurd empty otherFueled
      · change then' (max fuel other) read ≠ _
        rw [same]
        exact otherFueled

theorem item_halts {count : Nat}
    (shorter : ∀ less, less < count → Halts next less) {cursor : Cursor}
    (le : cursor.rest.length ≤ count) (safe : Safe next (.item cursor))
    (items : List Node) :
    ∃ fuel, parseArray next fuel items cursor ≠ .error .outOfFuel := by
  by_cases starts : StartsItem cursor
  · have skipped := (skipWsAndComments_suffix cursor).length_le
    have both : ∃ fuel, parseArray next (fuel + 1) items cursor ≠
        .error .outOfFuel := by
      simp only [parseArray_starts starts]
      refine bind_fueled (fun _ _ le => parseValue_extends next le _) ?_
        (value_halts shorter (skipped.trans le)
          (safe.leads (.inl (.itemValue starts)))) ?_
      · intro read less more le
        split
        · exact parseArray_extends next le _ _
        · exact .refl _
      · rintro fuel ⟨value, left⟩ isValue
        dsimp only
        cases isNext : nextItem left with
        | none => exact ⟨0, by simp⟩
        | some after =>
            have taken := item_advances starts (safe cursor .refl) isValue
              isNext
            exact (shorter after.rest.length (by omega)).item after le_rfl
              (safe.leads (.inr (.item starts isValue isNext))) _
    obtain ⟨fuel, fueled⟩ := both
    exact ⟨fuel + 1, fueled⟩
  · exact ⟨1, parseArray_ended starts 0 items⟩

theorem field_halts {count : Nat}
    (shorter : ∀ less, less < count → Halts next less) {cursor : Cursor}
    (le : cursor.rest.length ≤ count) (safe : Safe next (.field cursor))
    (table : Table) :
    ∃ fuel, parseInlineTable next fuel table cursor ≠
      .error .outOfFuel := by
  rcases parseInlineTable_cases next cursor with
    ⟨key, left, rest, isKey, isRest, equation⟩ | fueled
  · have safeValue := safe.leads (.inl (.fieldValue isKey isRest))
    have keyTaken := ((parseKeyToken_stops _).leaves _ _ isKey).length_le
    have first := (skipWsInline_suffix cursor).length_le
    have second := (skipWsInline_suffix left).length_le
    have third := (skipWsInline_suffix
      ((skipWsInline left).to rest)).length_le
    rw [isRest, List.length_cons] at second
    rw [List.length_tail] at keyTaken
    simp only [Cursor.to] at third
    have both : ∃ fuel, parseInlineTable next (fuel + 1) table cursor ≠
        .error .outOfFuel := by
      simp only [equation]
      refine bind_fueled (fun _ _ le => parseValue_extends next le _) ?_
        (value_halts shorter (by simp only [Cursor.to]; omega) safeValue) ?_
      · intro read less more le
        split
        · exact parseInlineTable_extends next le _ _
        · exact .refl _
        · exact .refl _
      · rintro fuel ⟨value, behind⟩ isValue
        dsimp only
        split
        · rename_i more isMore
          have taken := field_advances isKey isRest isValue isMore
          exact (shorter more.length (by omega)).field _ le_rfl
            (safe.leads (.inr (.field isKey isRest isValue isMore))) _
        · exact ⟨0, by simp⟩
        · exact ⟨0, by simp [failAt]⟩
    obtain ⟨fuel, fueled⟩ := both
    exact ⟨fuel + 1, fueled⟩
  · exact ⟨1, fueled 0 table⟩

theorem halts (count : Nat) : Halts next count := by
  induction count using Nat.strongRecOn with
  | ind count shorter =>
      exact ⟨fun _ le safe => value_halts shorter le safe,
        fun _ le safe items => item_halts shorter le safe items,
        fun _ le safe table => field_halts shorter le safe table⟩

theorem parseStatement_halts {document : Document}
    (safe : Safe next (.statement document)) :
    ∃ fuel, parseStatement next fuel document ≠ .error .outOfFuel := by
  rcases parseStatement_cases next document with
    ⟨keys, left, rest, starts, isPath, isRest⟩ | fueled
  · have safeValue := safe.leads
      (.inl (.assignmentValue starts isPath isRest))
    obtain ⟨fuel, fueled⟩ := (halts _).value _ le_rfl safeValue
    refine ⟨fuel, ?_⟩
    rw [parseStatement_assignment starts isPath isRest]
    cases isValue : parseValue next fuel ((skipWsInline left).to rest) with
    | error stop =>
        rw [isValue] at fueled
        intro isEmpty
        cases isEmpty
        exact fueled rfl
    | ok read => exact assignKeys_fueled document keys read
  · exact ⟨0, fueled 0⟩

theorem statementLoop_halts {document : Document} {rounds : Nat}
    (safe : Safe next (.statement document))
    (enough : document.cursor.rest.length < rounds) :
    ∃ fuel, statementLoop next fuel rounds document ≠
      .error .outOfFuel := by
  induction rounds generalizing document with
  | zero => exact absurd enough (Nat.not_lt_zero _)
  | succ rounds induction =>
      obtain ⟨fuel, fueled⟩ := parseStatement_halts safe
      cases isRead : parseStatement next fuel document with
      | error stop =>
          refine ⟨fuel, ?_⟩
          rw [statementLoop, isRead]
          intro isEmpty
          cases isEmpty
          exact fueled isRead
      | ok read =>
          cases read with
          | none =>
              refine ⟨fuel, ?_⟩
              rw [statementLoop, isRead]
              simp [bind, Except.bind]
          | some after =>
              have taken := statement_advances isRead
              obtain ⟨other, otherFueled⟩ := induction
                (safe.leads (.inr (.statement isRead))) (by omega)
              refine ⟨max fuel other, ?_⟩
              have isMax : parseStatement next (max fuel other) document =
                  .ok (some after) := by
                rcases parseStatement_extends next (le_max_left fuel other)
                  document with empty | same
                · exact absurd empty fueled
                · rw [same, isRead]
              rw [statementLoop, isMax]
              rcases statementLoop_extends next (le_max_right fuel other)
                rounds after with empty | same
              · exact absurd empty otherFueled
              · change statementLoop next (max fuel other) rounds after ≠ _
                rw [same]
                exact otherFueled

/-! ## Texts -/

theorem diverges_of_comes {place after : Place}
    (comes : ReflTransGen (Leads next) place after)
    (diverges : Diverges next after) : Diverges next place := by
  induction comes using ReflTransGen.head_induction_on with
  | refl => exact diverges
  | head leads _ induction => exact .of_leads leads induction

theorem noBraceItem_of_terminates {text : Bytes}
    (terminates : Terminates next text) : NoBraceItem next text := by
  obtain ⟨fuel, fueled⟩ := terminates.returns
  intro cursor comes atBrace
  have diverges := diverges_of_comes comes atBrace.diverges
  exact fueled (diverges fuel _)

/-- The parser returns, taking bytes in every round, exactly when it does not
come to an array with a closing brace in place of an item. -/
theorem terminates_iff_noBraceItem (next : UInt8) (text : Bytes) :
    Terminates next text ↔ NoBraceItem next text := by
  constructor
  · exact noBraceItem_of_terminates
  · intro noBrace
    refine ⟨statementLoop_halts noBrace (Nat.lt_succ_self _), ?_⟩
    intro place after comes rounds
    cases rounds with
    | item starts isValue isNext =>
        exact item_advances starts (noBrace _ comes) isValue isNext
    | field isKey isRest isValue isMore =>
        exact field_advances isKey isRest isValue isMore
    | key isKey isRest => exact key_advances isKey isRest
    | statement isNext => exact statement_advances isNext

/-- `a = [}` is enough. -/
theorem brace_in_array_loops : ¬ Terminates 0 (ascii "a = [\x7d") := by
  intro terminates
  have starts : StartsAssignment
      { root := [], current := [], cursor := ⟨ascii "a = [\x7d", 0, 1⟩ } :=
    ⟨by decide, by decide⟩
  have isPath : parseDottedPath (skipWsAndComments
      ⟨ascii "a = [\x7d", 0, 1⟩) = .ok ([ascii "a"], ⟨ascii "= [\x7d", 0, 1⟩) := by
    decide
  have value : Comes 0 (ascii "a = [\x7d") (.value ⟨ascii " [\x7d", 0, 1⟩) :=
    .single (.inl (.assignmentValue starts isPath rfl))
  have item : Comes 0 (ascii "a = [\x7d") (.item ⟨ascii "\x7d", 0, 1⟩) :=
    value.tail (.inl (.array rfl))
  exact noBraceItem_of_terminates terminates _ item rfl

end

end SaltOS.Toml
