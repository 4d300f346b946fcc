import Mathlib.Data.Finset.Card
import Mathlib.Data.List.Nodup
import Mathlib.Logic.Relation

/-!
# Depth-first visits

A visit enters a name, visits the successors of the name that were not entered
before, and then leaves it.  Cycles are cut by the set of entered names.  A
visit has fuel for its depth; of the names that are met, those outside of
`known` have no successors, so fuel for the names of `known` is enough.
-/

namespace SaltOS.Lib

variable {κ : Type}

/-- The names that a visit has entered, and those that it has left, in that
order. -/
structure Trail (κ : Type) where
  entered : List κ
  left : List κ

def visit [DecidableEq κ] (next : κ → List κ) : Nat → κ → Trail κ → Trail κ
  | 0, _, trail => trail
  | fuel + 1, name, trail =>
      if name ∈ trail.entered then trail
      else
        let inside := (next name).foldl
          (fun trail successor => visit next fuel successor trail)
          { trail with entered := name :: trail.entered }
        { inside with left := inside.left ++ [name] }

/-- Several visits, one after the other. -/
def visitAll [DecidableEq κ] (next : κ → List κ) (fuel : Nat)
    (names : List κ) (trail : Trail κ) : Trail κ :=
  names.foldl (fun trail name => visit next fuel name trail) trail

/-- Between two trails the names `new` were entered and left, and all of
their successors were entered. -/
structure Visited (next : κ → List κ) (new : List κ)
    (before after : Trail κ) : Prop where
  left : after.left = before.left ++ new
  nodup : new.Nodup
  fresh : ∀ name ∈ new, name ∉ before.entered
  entered : ∀ name, name ∈ after.entered ↔
    name ∈ before.entered ∨ name ∈ new
  closed : ∀ name ∈ new, ∀ successor ∈ next name,
    successor ∈ after.entered

namespace Visited

variable {next : κ → List κ} {before middle after : Trail κ}
  {first second : List κ}

theorem refl (trail : Trail κ) : Visited next [] trail trail where
  left := by simp
  nodup := List.nodup_nil
  fresh := by simp
  entered := by simp
  closed := by simp

theorem keeps (visited : Visited next first before after) {name : κ}
    (member : name ∈ before.entered) : name ∈ after.entered :=
  (visited.entered name).mpr (.inl member)

theorem trans (one : Visited next first before middle)
    (other : Visited next second middle after) :
    Visited next (first ++ second) before after where
  left := by rw [other.left, one.left, List.append_assoc]
  nodup := by
    refine List.nodup_append.mpr ⟨one.nodup, other.nodup, ?_⟩
    rintro name inFirst _ inSecond rfl
    exact other.fresh name inSecond ((one.entered name).mpr (.inr inFirst))
  fresh := by
    intro name member
    rcases List.mem_append.mp member with inFirst | inSecond
    · exact one.fresh name inFirst
    · exact fun old => other.fresh name inSecond (one.keeps old)
  entered := by
    intro name
    rw [other.entered, one.entered, List.mem_append, or_assoc]
  closed := by
    intro name member successor isNext
    rcases List.mem_append.mp member with inFirst | inSecond
    · exact other.keeps (one.closed name inFirst successor isNext)
    · exact other.closed name inSecond successor isNext

/-- A name is left when all of its successors were entered. -/
theorem leave {name : κ} (fresh : name ∉ before.entered)
    (inside : Visited next first
      { before with entered := name :: before.entered } after)
    (successors : ∀ successor ∈ next name, successor ∈ after.entered) :
    Visited next (first ++ [name]) before
      { after with left := after.left ++ [name] } where
  left := by rw [inside.left, List.append_assoc]
  nodup := by
    refine List.nodup_append.mpr ⟨inside.nodup, by simp, ?_⟩
    rintro other member _ isName rfl
    rw [List.mem_singleton] at isName
    exact inside.fresh other member (by simp [isName])
  fresh := by
    intro other member
    rcases List.mem_append.mp member with inFirst | isName
    · intro old
      exact inside.fresh other inFirst (List.mem_cons_of_mem name old)
    · rw [List.mem_singleton.mp isName]
      exact fresh
  entered := by
    intro other
    rw [inside.entered, List.mem_append, List.mem_singleton, List.mem_cons]
    tauto
  closed := by
    intro other member successor isNext
    rcases List.mem_append.mp member with inFirst | isName
    · exact inside.closed other inFirst successor isNext
    · rw [List.mem_singleton.mp isName] at isNext
      exact successors successor isNext

end Visited

section

variable [DecidableEq κ] {next : κ → List κ} {known : Finset κ}

/-- There is fuel for every known name that was not entered yet. -/
def Enough (known : Finset κ) (fuel : Nat) (trail : Trail κ) : Prop :=
  (known.filter (· ∉ trail.entered)).card < fuel

theorem Enough.later {fuel : Nat} {before after : Trail κ} {new : List κ}
    (enough : Enough known fuel before)
    (visited : Visited next new before after) : Enough known fuel after := by
  refine lt_of_le_of_lt (Finset.card_le_card ?_) enough
  intro name member
  rw [Finset.mem_filter] at member ⊢
  exact ⟨member.1, fun old => member.2 (visited.keeps old)⟩

theorem Enough.enter {fuel : Nat} {trail : Trail κ} {name : κ}
    (enough : Enough known (fuel + 1) trail) (isKnown : name ∈ known)
    (fresh : name ∉ trail.entered) :
    Enough known fuel { trail with entered := name :: trail.entered } := by
  refine lt_of_lt_of_le (Finset.card_lt_card ?_) (Nat.le_of_lt_succ enough)
  rw [Finset.ssubset_iff_of_subset]
  · exact ⟨name, by simp [isKnown, fresh], by simp⟩
  · intro other member
    simp only [Finset.mem_filter, List.mem_cons, not_or] at member ⊢
    exact ⟨member.1, member.2.2⟩

/-- A set of names that successors do not lead out of, and in which every name
with a successor is known. -/
structure Bounded (next : κ → List κ) (known : Finset κ) (met : κ → Prop) :
    Prop where
  closed : ∀ name, met name → ∀ successor ∈ next name, met successor
  known : ∀ name, met name → name ∉ known → next name = []

variable {met : κ → Prop}

theorem visitAll_visited {fuel : Nat}
    (each : ∀ name trail, met name → Enough known fuel trail → ∃ new,
      Visited next new trail (visit next fuel name trail) ∧
        name ∈ (visit next fuel name trail).entered)
    (names : List κ) (trail : Trail κ) (starts : ∀ name ∈ names, met name)
    (enough : Enough known fuel trail) :
    ∃ new, Visited next new trail (visitAll next fuel names trail) ∧
      ∀ name ∈ names, name ∈ (visitAll next fuel names trail).entered := by
  induction names generalizing trail with
  | nil => exact ⟨[], .refl trail, by simp⟩
  | cons name names induction =>
      obtain ⟨first, one, isEntered⟩ :=
        each name trail (starts name List.mem_cons_self) enough
      obtain ⟨second, others, areEntered⟩ :=
        induction (visit next fuel name trail)
          (fun other member => starts other (List.mem_cons_of_mem _ member))
          (enough.later one)
      refine ⟨first ++ second, one.trans others, ?_⟩
      intro other member
      rcases List.mem_cons.mp member with rfl | inside
      · exact others.keeps isEntered
      · exact areEntered other inside

/-- A visit with enough fuel leaves what it enters, the successors
included. -/
theorem visit_visited (bounded : Bounded next known met) (fuel : Nat)
    (name : κ) (trail : Trail κ) (isMet : met name)
    (enough : Enough known fuel trail) :
    ∃ new, Visited next new trail (visit next fuel name trail) ∧
      name ∈ (visit next fuel name trail).entered := by
  induction fuel generalizing name trail with
  | zero => exact absurd enough (Nat.not_lt_zero _)
  | succ fuel induction =>
      by_cases old : name ∈ trail.entered
      · rw [visit, if_pos old]
        exact ⟨[], .refl trail, old⟩
      rw [visit, if_neg old]
      by_cases isKnown : name ∈ known
      · obtain ⟨new, inside, successors⟩ := visitAll_visited induction
          (next name) _ (bounded.closed name isMet)
          (enough.enter isKnown old)
        exact ⟨new ++ [name], inside.leave old successors,
          inside.keeps List.mem_cons_self⟩
      · have noNext := bounded.known name isMet isKnown
        rw [noNext]
        exact ⟨[name], (Visited.refl _).leave old (by simp [noNext]),
          List.mem_cons_self⟩

/-- Visits that start on a blank trail. -/
theorem visitAll_closed (bounded : Bounded next known met) (names : List κ)
    (starts : ∀ name ∈ names, met name) {fuel : Nat}
    (enough : known.card < fuel) :
    (visitAll next fuel names ⟨[], []⟩).left.Nodup ∧
      (∀ name ∈ names, name ∈ (visitAll next fuel names ⟨[], []⟩).left) ∧
      ∀ name ∈ (visitAll next fuel names ⟨[], []⟩).left,
        ∀ successor ∈ next name,
          successor ∈ (visitAll next fuel names ⟨[], []⟩).left := by
  have fresh : Enough known fuel ⟨[], []⟩ := by
    simpa [Enough] using enough
  obtain ⟨new, visited, areEntered⟩ := visitAll_visited
    (visit_visited bounded fuel) names ⟨[], []⟩ starts fresh
  have isLeft : (visitAll next fuel names ⟨[], []⟩).left = new :=
    visited.left
  have entered : ∀ name,
      name ∈ (visitAll next fuel names ⟨[], []⟩).entered → name ∈ new := by
    intro name member
    simpa using (visited.entered name).mp member
  rw [isLeft]
  exact ⟨visited.nodup,
    fun name member => entered name (areEntered name member),
    fun name member successor isNext => entered successor
      (visited.closed name member successor isNext)⟩

theorem visitAll_forall {property : κ → Prop} {fuel : Nat}
    (each : ∀ name trail, property name →
      (∀ other ∈ trail.left, property other) →
        ∀ other ∈ (visit next fuel name trail).left, property other)
    (names : List κ) (trail : Trail κ)
    (starts : ∀ name ∈ names, property name)
    (before : ∀ other ∈ trail.left, property other) :
    ∀ other ∈ (visitAll next fuel names trail).left, property other := by
  induction names generalizing trail with
  | nil => exact before
  | cons name names induction =>
      apply induction (visit next fuel name trail)
      · exact fun other member => starts other (List.mem_cons_of_mem _ member)
      · exact each name trail (starts name List.mem_cons_self) before

/-- Visits stay among the names that their starts lead to. -/
theorem visit_forall {property : κ → Prop}
    (closed : ∀ name, property name →
      ∀ successor ∈ next name, property successor) (fuel : Nat)
    (name : κ) (trail : Trail κ) (start : property name)
    (before : ∀ other ∈ trail.left, property other) :
    ∀ other ∈ (visit next fuel name trail).left, property other := by
  induction fuel generalizing name trail with
  | zero => exact before
  | succ fuel induction =>
      rw [visit]
      split
      · exact before
      · intro other member
        rcases List.mem_append.mp member with inside | isName
        · exact visitAll_forall induction (next name)
            { trail with entered := name :: trail.entered }
            (closed name start) before other inside
        · rw [List.mem_singleton.mp isName]
          exact start

/-- A visit on a blank trail enters what its start leads to. -/
theorem visit_entered_iff (bounded : Bounded next known met) {start : κ}
    (isMet : met start) {fuel : Nat} (enough : known.card < fuel) {name : κ} :
    name ∈ (visit next fuel start ⟨[], []⟩).entered ↔
      Relation.ReflTransGen (fun one other => other ∈ next one) start
        name := by
  have fresh : Enough known fuel ⟨[], []⟩ := by
    simpa [Enough] using enough
  obtain ⟨new, visited, isEntered⟩ :=
    visit_visited bounded fuel start ⟨[], []⟩ isMet fresh
  have entered : ∀ other,
      other ∈ (visit next fuel start ⟨[], []⟩).entered ↔ other ∈ new := by
    intro other
    simpa using visited.entered other
  have left : (visit next fuel start ⟨[], []⟩).left = new := visited.left
  constructor
  · intro member
    have steps : ∀ one, Relation.ReflTransGen
        (fun one other => other ∈ next one) start one →
        ∀ other ∈ next one, Relation.ReflTransGen
          (fun one other => other ∈ next one) start other :=
      fun one path other isNext => path.tail isNext
    have reached := visit_forall steps fuel start ⟨[], []⟩ .refl (by simp)
    rw [left] at reached
    exact reached name ((entered name).mp member)
  · intro path
    induction path with
    | refl => exact isEntered
    | tail _ isNext induction =>
        exact visited.closed _ ((entered _).mp induction) _ isNext

/-- Names whose successors are among them are only brought into another
order. -/
theorem visitAll_perm {names : List κ} (distinct : names.Nodup)
    (closed : ∀ name ∈ names, ∀ successor ∈ next name, successor ∈ names)
    {fuel : Nat} (enough : names.length < fuel) :
    (visitAll next fuel names ⟨[], []⟩).left.Perm names := by
  have bounded : Bounded next names.toFinset (· ∈ names) :=
    ⟨closed, fun name isMet unknown =>
      absurd (List.mem_toFinset.mpr isMet) unknown⟩
  obtain ⟨nodup, all, -⟩ := visitAll_closed bounded names
    (fun _ member => member) (names.toFinset_card_le.trans_lt enough)
  have only := visitAll_forall (visit_forall closed fuel) names ⟨[], []⟩
    (fun _ member => member) (by simp)
  exact (List.perm_ext_iff_of_nodup nodup distinct).mpr
    fun name => ⟨only name, all name⟩

/-- A loop whose calls follow visits follows all of them. -/
theorem visitAll_follows {σ : Type} {follows : σ → Trail κ → Prop}
    {call : κ → σ → σ} {fuel : Nat} {names : List κ}
    (each : ∀ name ∈ names, ∀ state trail, follows state trail →
      follows (call name state) (visit next fuel name trail))
    {state : σ} {trail : Trail κ} (start : follows state trail) :
    follows (names.foldl (fun state name => call name state) state)
      (visitAll next fuel names trail) := by
  induction names generalizing state trail with
  | nil => exact start
  | cons name names induction =>
      exact induction
        (fun other member => each other (List.mem_cons_of_mem name member))
        (each name List.mem_cons_self state trail start)

/-! ## What visits reach -/

/-- Visits on a blank trail leave exactly what their starts lead to. -/
theorem visitAll_left_iff (bounded : Bounded next known met) {names : List κ}
    (starts : ∀ name ∈ names, met name) {fuel : Nat}
    (enough : known.card < fuel) {name : κ} :
    name ∈ (visitAll next fuel names ⟨[], []⟩).left ↔
      ∃ start ∈ names, Relation.ReflTransGen
        (fun one other => other ∈ next one) start name := by
  obtain ⟨-, all, closed⟩ := visitAll_closed bounded names starts enough
  have steps : ∀ one, (∃ start ∈ names, Relation.ReflTransGen
      (fun one other => other ∈ next one) start one) →
      ∀ other ∈ next one, ∃ start ∈ names, Relation.ReflTransGen
        (fun one other => other ∈ next one) start other :=
    fun one ⟨start, isStart, path⟩ other isNext =>
      ⟨start, isStart, path.tail isNext⟩
  constructor
  · exact visitAll_forall (visit_forall steps fuel) names ⟨[], []⟩
      (fun start isStart => ⟨start, isStart, .refl⟩) (by simp) name
  · rintro ⟨start, isStart, path⟩
    induction path with
    | refl => exact all start isStart
    | tail _ isNext induction => exact closed _ induction _ isNext

/-! ## The order of a visit -/

/-- A name comes after all of its successors. -/
def Postordered (next : κ → List κ) (names : List κ) : Prop :=
  ∀ before name after, names = before ++ name :: after →
    ∀ successor ∈ next name, successor ∈ before

omit [DecidableEq κ] in
theorem Postordered.append {names : List κ} {name : κ}
    (ordered : Postordered next names)
    (successors : ∀ successor ∈ next name, successor ∈ names) :
    Postordered next (names ++ [name]) := by
  intro before other after split
  rcases List.eq_nil_or_concat after with rfl | ⟨after, last, rfl⟩
  · obtain ⟨rfl, same⟩ := List.append_inj' split rfl
    cases same
    exact successors
  · rw [List.concat_eq_append, ← List.cons_append,
      ← List.append_assoc] at split
    exact ordered before other after (List.append_inj' split rfl).1

/-- A name that was entered and not left yet. -/
def Trail.Open (trail : Trail κ) (name : κ) : Prop :=
  name ∈ trail.entered ∧ name ∉ trail.left

theorem Visited.open_iff {before after : Trail κ} {new : List κ}
    (visited : Visited next new before after) (name : κ) :
    after.Open name ↔ before.Open name := by
  have fresh := visited.fresh name
  rw [Trail.Open, Trail.Open, visited.entered, visited.left,
    List.mem_append]
  tauto

/-- All open names lead to a name. -/
def Trail.LeadsTo (next : κ → List κ) (trail : Trail κ) (name : κ) : Prop :=
  ∀ other, trail.Open other →
    Relation.TransGen (fun one other => other ∈ next one) other name

theorem visitAll_postordered {fuel : Nat}
    (visits : ∀ name trail, met name → Enough known fuel trail → ∃ new,
      Visited next new trail (visit next fuel name trail) ∧
        name ∈ (visit next fuel name trail).entered)
    (each : ∀ name trail, met name → Enough known fuel trail →
      trail.LeadsTo next name → Postordered next trail.left →
      Postordered next (visit next fuel name trail).left)
    (names : List κ) (trail : Trail κ) (starts : ∀ name ∈ names, met name)
    (enough : Enough known fuel trail)
    (leads : ∀ name ∈ names, trail.LeadsTo next name)
    (ordered : Postordered next trail.left) :
    Postordered next (visitAll next fuel names trail).left := by
  induction names generalizing trail with
  | nil => exact ordered
  | cons name names induction =>
      have isMet := starts name List.mem_cons_self
      obtain ⟨new, one, -⟩ := visits name trail isMet enough
      apply induction (visit next fuel name trail)
      · exact fun other member => starts other (List.mem_cons_of_mem _ member)
      · exact enough.later one
      · intro other member outer isOpen
        exact leads other (List.mem_cons_of_mem _ member) outer
          ((one.open_iff outer).mp isOpen)
      · exact each name trail isMet enough (leads name List.mem_cons_self)
          ordered

/-- Without cycles a successor that is still open would lead back to
itself. -/
theorem visit_postordered (bounded : Bounded next known met)
    (acyclic : ∀ name, met name →
      ¬ Relation.TransGen (fun one other => other ∈ next one) name name)
    (fuel : Nat) (name : κ) (trail : Trail κ) (isMet : met name)
    (enough : Enough known fuel trail) (leads : trail.LeadsTo next name)
    (ordered : Postordered next trail.left) :
    Postordered next (visit next fuel name trail).left := by
  induction fuel generalizing name trail with
  | zero => exact ordered
  | succ fuel induction =>
      by_cases old : name ∈ trail.entered
      · rw [visit, if_pos old]
        exact ordered
      rw [visit, if_neg old]
      by_cases isKnown : name ∈ known
      · have metNext := bounded.closed name isMet
        have less := enough.enter isKnown old
        have leadsNext : ∀ successor ∈ next name,
            Trail.LeadsTo next
              { trail with entered := name :: trail.entered } successor := by
          rintro successor isNext other ⟨isEntered, notLeft⟩
          rcases List.mem_cons.mp isEntered with rfl | inTrail
          · exact .single isNext
          · exact (leads other ⟨inTrail, notLeft⟩).tail isNext
        obtain ⟨new, inside, successors⟩ := visitAll_visited
          (visit_visited bounded fuel) (next name) _ metNext less
        apply Postordered.append
        · exact visitAll_postordered (visit_visited bounded fuel) induction
            (next name) _ metNext less leadsNext ordered
        · intro successor isNext
          by_contra notLeft
          have isOpen := (inside.open_iff successor).mp
            ⟨successors successor isNext, notLeft⟩
          exact acyclic successor (metNext successor isNext)
            (leadsNext successor isNext successor isOpen)
      · have noNext := bounded.known name isMet isKnown
        rw [noNext]
        apply ordered.append
        simp [noNext]

/-! ## Visits without fuel -/

/-- Visits of names one after the other, without a bound on their depth: the
calls are finitely many. -/
inductive Visits (next : κ → List κ) :
    List κ → Trail κ → Trail κ → Prop where
  | nil (trail : Trail κ) : Visits next [] trail trail
  | old {name : κ} {names : List κ} {trail after : Trail κ}
      (entered : name ∈ trail.entered) (rest : Visits next names trail after) :
      Visits next (name :: names) trail after
  | enter {name : κ} {names : List κ} {trail inside after : Trail κ}
      (fresh : name ∉ trail.entered)
      (successors : Visits next (next name)
        { trail with entered := name :: trail.entered } inside)
      (rest : Visits next names
        { inside with left := inside.left ++ [name] } after) :
      Visits next (name :: names) trail after

/-- With enough fuel the visits are those without fuel. -/
theorem visitAll_visits (bounded : Bounded next known met) (fuel : Nat)
    (names : List κ) (trail : Trail κ) (starts : ∀ name ∈ names, met name)
    (enough : Enough known fuel trail) :
    Visits next names trail (visitAll next fuel names trail) := by
  induction fuel generalizing names trail with
  | zero => exact absurd enough (Nat.not_lt_zero _)
  | succ fuel induction =>
      induction names generalizing trail with
      | nil => exact .nil trail
      | cons name names others =>
          have isMet := starts name List.mem_cons_self
          obtain ⟨new, one, -⟩ :=
            visit_visited bounded (fuel + 1) name trail isMet enough
          have rest := others (visit next (fuel + 1) name trail)
            (fun other member => starts other (List.mem_cons_of_mem _ member))
            (enough.later one)
          change Visits next (name :: names) trail
            (visitAll next (fuel + 1) names (visit next (fuel + 1) name trail))
          by_cases old : name ∈ trail.entered
          · refine .old old ?_
            rw [visit, if_pos old] at rest ⊢
            exact rest
          · rw [visit, if_neg old] at rest ⊢
            refine .enter old ?_ rest
            by_cases isKnown : name ∈ known
            · exact induction (next name) _ (bounded.closed name isMet)
                (enough.enter isKnown old)
            · have noNext := bounded.known name isMet isKnown
              rw [noNext]
              exact .nil _

end

end SaltOS.Lib
