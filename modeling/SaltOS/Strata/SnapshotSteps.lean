import SaltOS.Strata.Snapshot

/-!
# What a snapshot and a rollback do

A snapshot is copied into whatever is there at its path already, and anything
that is copied or made below it later becomes part of it.  `Fits` is the
condition on a step under which neither happens; such a step leaves every
snapshot as it is.
-/

namespace SaltOS.Strata

open Lib Util Disk

variable {γ : Type} {machine : Machine γ} {before middle after state : State γ}
  {name label path : Bytes} {clock : Int} {refusal : Option Bytes}

/-! ## What the shell does -/

/-- `cp -a` copies a directory onto a directory entry by entry, makes the
directory first if only that is missing, and leaves everything alone where it
cannot; `find -delete` empties a directory.  The names are quoted, so they
hold no quote. -/
structure ShellLaws (system : Bytes → Disk γ → Bool × Disk γ) : Prop where
  copies : ∀ options ∈ [ascii "-ax", ascii "-a"], ∀ source target disk top
    onto, 39 ∉ source → 39 ∉ target → disk.resolve source = .ok top →
    disk.resolve target = .ok onto → Lib.Apart top onto →
    disk.fs.Graftable top onto →
    system (copyCommand options source target) disk =
      (true, { disk with fs := disk.fs.graft top onto })
  makes : ∀ options ∈ [ascii "-ax", ascii "-a"], ∀ source target disk top fs,
    39 ∉ source → 39 ∉ target → disk.resolve source = .ok top →
    disk.fs.IsDir top → mkdirPlan target 493 disk = .ok fs →
    system (copyCommand options source target) disk =
      system (copyCommand options source target) { disk with fs := fs }
  refuses : ∀ options ∈ [ascii "-ax", ascii "-a"], ∀ source target disk errno,
    39 ∉ source → 39 ∉ target →
    (∀ onto, disk.resolve target = .ok onto → ¬ disk.fs.IsDir onto) →
    mkdirPlan target 493 disk = .error errno →
    system (copyCommand options source target) disk = (false, disk)
  clears : ∀ target disk top mode, 39 ∉ target →
    disk.lstat target = .ok (.dir mode) → disk.resolve target = .ok top →
    (system (clearCommand target) disk).2 =
      { disk with fs := disk.fs.emptied top }

/-! ## The condition -/

/-- Where the trees of the strata lie. -/
def State.tops (machine : Machine γ) (state : State γ) : List Loc :=
  state.strata.filterMap fun row =>
    (state.disk.resolve (machine.stratumTarget row.root)).toOption

/-- A location at which a directory can be made: neither in a stratum nor in
a snapshot. -/
def Outlying (machine : Machine γ) (state : State γ) (loc : Loc) : Prop :=
  (∀ top ∈ state.tops machine, ¬ top <:+ loc) ∧
    ∀ snap ∈ state.snapshots, ∀ kept,
      state.disk.resolve snap.path = .ok kept → ¬ kept <:+ loc

/-- A missing entry on the way of one of the paths. -/
def Missing (disk : Disk γ) (texts : List Bytes) (loc : Loc) : Prop :=
  disk.fs.node? loc = none ∧ ∃ text ∈ texts, ∃ cut,
    cut <+: components text ∧ WillLead [] disk text cut loc

/-- What is there already is in the source too, and written over by it. -/
def Covered (fs : FileSystem γ) (source target : Loc) : Prop :=
  ∀ rel there, fs.node? (rel ++ target) = some there →
    ∃ node, fs.node? (rel ++ source) = some node ∧ node.Overlays there

/-- The directory of the new snapshot lies away from every stratum, and either
it holds the tree of the stratum already, or it lies away from every other
snapshot and holds nothing that the copy leaves there. -/
structure Lands (machine : Machine γ) (state : State γ) (path : Bytes)
    (texts : List Bytes) (top onto : Loc) : Prop where
  aside : WillLead (state.tops machine) state.disk path (components path) onto
  apart : ∀ other ∈ state.tops machine, Lib.Apart other onto
  shallow : ∀ loc, Missing state.disk texts loc → ¬ StrictlyBelow onto loc
  room : (∀ rel, state.disk.fs.node? (rel ++ onto) =
      state.disk.fs.node? (rel ++ top)) ∨
    (∀ snap ∈ state.snapshots, ∀ kept,
      state.disk.resolve snap.path = .ok kept → Lib.Apart kept onto) ∧
    Covered state.disk.fs top onto

/-- The names hold no quote, what has to be made on the way lies outside every
stratum and snapshot, and the directory, if there is one or will be, is a
place for the snapshot. -/
structure SnapshotFits (machine : Machine γ) (state : State γ)
    (name path target : Bytes) : Prop where
  unquoted : 39 ∉ target ∧ 39 ∉ path
  making : ∀ loc, Missing state.disk [machine.snapshotDir name, path] loc →
    Outlying machine state loc
  landing : ∀ top onto, state.disk.resolve target = .ok top →
    WillLead [] state.disk path (components path) onto →
    state.disk.fs.node? onto = none ∨ state.disk.fs.IsDir onto →
    Lands machine state path [machine.snapshotDir name, path] top onto

/-- The condition on the steps of a run. -/
def Fits (machine : Machine γ) (state : State γ) (event : Event) : Prop :=
  match event with
  | .create name label clock _ =>
      ∀ row, state.stratum name = some row →
        SnapshotFits machine state name
          (machine.snapshotPath name label clock)
          (machine.stratumTarget row.root)
  | .change _ => True
  | .rollback name id _ =>
      ∀ row snap, state.stratum name = some row →
        state.snapshot name id = some snap →
        39 ∉ machine.stratumTarget row.root ∧ ∃ mode,
          state.disk.lstat (machine.stratumTarget row.root) = .ok (.dir mode)

/-! ## The invariant -/

/-- The trees of the strata are directories outside each other, to which their
paths lead without going through any of them. -/
def Installed (machine : Machine γ) (state : State γ) : Prop :=
  ∀ row ∈ state.strata, ∃ top, Aside (state.tops machine) state.disk
    (machine.stratumTarget row.root) top

/-- A snapshot that nothing happens to. -/
structure Sheltered (machine : Machine γ) (state : State γ)
    (snap : SnapshotRow) : Prop where
  isCopy : snap.kind = .copy
  unquoted : 39 ∉ snap.path
  known : snap.id ≤ state.lastId
  away : ∃ kept, Aside (state.tops machine) state.disk snap.path kept ∧
    ∀ top ∈ state.tops machine, Lib.Apart top kept

/-- What holds in every state of a run. -/
structure Ready (machine : Machine γ) (state : State γ) : Prop where
  installed : Installed machine state
  sheltered : ∀ snap ∈ state.snapshots, Sheltered machine state snap

/-- The snapshot of an id holds a tree. -/
def Holds (state : State γ) (name : Bytes) (id : Nat)
    (tree : Loc → Option (Node γ)) : Prop :=
  ∃ snap kept, state.snapshot name id = some snap ∧
    state.disk.resolve snap.path = .ok kept ∧
    ∀ rel, state.disk.fs.node? (rel ++ kept) = tree rel

/-- What a step that meets the condition leaves as it is. -/
structure Effect (machine : Machine γ) (before after : State γ) : Prop where
  strata : after.strata = before.strata
  steady : Steady (before.tops machine) before.disk after.disk
  untouched : ∀ snap ∈ before.snapshots, ∀ kept,
    before.disk.resolve snap.path = .ok kept → ∀ rel,
      after.disk.fs.node? (rel ++ kept) = before.disk.fs.node? (rel ++ kept)
  rows : ∃ new, after.snapshots = before.snapshots ++ new ∧
    ∀ snap ∈ new, Sheltered machine after snap
  known : before.lastId ≤ after.lastId

theorem mem_tops {machine : Machine γ} {top : Loc} :
    top ∈ state.tops machine ↔ ∃ row ∈ state.strata,
      state.disk.resolve (machine.stratumTarget row.root) = .ok top := by
  unfold State.tops
  rw [List.mem_filterMap]
  constructor
  · rintro ⟨row, member, found⟩
    refine ⟨row, member, ?_⟩
    rcases resolved : state.disk.resolve (machine.stratumTarget row.root) with
      errno | loc
    · rw [resolved] at found
      cases found
    · rw [resolved] at found
      cases found
      rfl
  · rintro ⟨row, member, resolved⟩
    exact ⟨row, member, by rw [resolved]; rfl⟩

theorem Effect.tops_eq (effect : Effect machine before after)
    (installed : Installed machine before) :
    after.tops machine = before.tops machine := by
  unfold State.tops
  rw [effect.strata]
  apply List.filterMap_congr
  intro row member
  obtain ⟨top, aside⟩ := installed row member
  rw [aside.resolve, (aside.steady effect.steady).resolve]

theorem Effect.ready (effect : Effect machine before after)
    (ready : Ready machine before) : Ready machine after := by
  have tops := effect.tops_eq ready.installed
  obtain ⟨new, rows, fresh⟩ := effect.rows
  constructor
  · intro row member
    rw [effect.strata] at member
    obtain ⟨top, aside⟩ := ready.installed row member
    rw [tops]
    exact ⟨top, aside.steady effect.steady⟩
  · intro snap member
    rw [rows, List.mem_append] at member
    rcases member with old | isNew
    · obtain ⟨isCopy, unquoted, known, kept, aside, apart⟩ :=
        ready.sheltered snap old
      refine ⟨isCopy, unquoted, known.trans effect.known, kept, ?_, ?_⟩
      · rw [tops]
        exact aside.steady effect.steady
      · rwa [tops]
    · exact fresh snap isNew

theorem State.mem_of_snapshot {id : Int} {snap : SnapshotRow}
    (found : state.snapshot name id = some snap) :
    snap ∈ state.snapshots ∧ snap.stratum = name := by
  unfold State.snapshot at found
  split_ifs at found
  · have holds := List.find?_some found
    exact ⟨List.mem_of_find?_eq_some found, (of_decide_eq_true holds).1⟩
  · have holds := List.find?_some found
    exact ⟨List.mem_reverse.mp (List.mem_of_find?_eq_some found),
      of_decide_eq_true holds⟩

theorem Effect.holds {id : Nat} {tree : Loc → Option (Node γ)}
    (effect : Effect machine before after) (ready : Ready machine before)
    (positive : 0 < id) (holds : Holds before name id tree) :
    Holds after name id tree := by
  obtain ⟨snap, kept, found, resolved, same⟩ := holds
  obtain ⟨member, _⟩ := State.mem_of_snapshot found
  obtain ⟨_, _, _, there, aside, _⟩ := ready.sheltered snap member
  obtain ⟨new, rows, _⟩ := effect.rows
  refine ⟨snap, kept, ?_, ?_, fun rel => ?_⟩
  · have isId : (0 : Int) < id := by exact_mod_cast positive
    unfold State.snapshot at found ⊢
    rw [if_pos isId] at found ⊢
    rw [rows, List.find?_append, found]
    rfl
  · have isKept : there = kept := by
      rw [aside.resolve] at resolved
      exact Except.ok.inj resolved
    rw [← isKept]
    exact (aside.steady effect.steady).resolve
  · rw [effect.untouched snap member kept resolved, same]

/-! ## Taking a snapshot -/

/-- Only what was missing on the way of one of the paths was made. -/
structure Prepared (texts : List Bytes) (before after : Disk γ) : Prop where
  grown : Grown before after
  onWay : ∀ loc, before.fs.node? loc = none → after.fs.node? loc ≠ none →
    Missing before texts loc

namespace Prepared

variable {texts : List Bytes} {disk prepared final : Disk γ} {text : Bytes}
  {loc : Loc}

theorem refl (disk : Disk γ) : Prepared texts disk disk :=
  ⟨.refl disk, fun _ absent exists_ => absurd absent exists_⟩

theorem further (soFar : Prepared texts disk prepared)
    (member : text ∈ texts) (made : Made text prepared final) :
    Prepared texts disk final := by
  refine ⟨soFar.grown.trans made.grown, fun loc absent exists_ => ?_⟩
  by_cases already : prepared.fs.node? loc = none
  · obtain ⟨cut, isCut, leads⟩ := made.onWay loc already exists_
    exact ⟨absent, text, member, cut, isCut, soFar.grown.willLead_back leads⟩
  · exact soFar.onWay loc absent already

theorem same (prepared : Prepared texts disk final)
    (notMissing : ¬ Missing disk texts loc) :
    final.fs.node? loc = disk.fs.node? loc := by
  rcases prepared.grown.nodes loc with same | ⟨absent, isDir⟩
  · exact same
  · refine absurd (prepared.onWay loc absent ?_) notMissing
    obtain ⟨mode, found⟩ := isDirIn_iff.mp isDir
    simp [found]

end Prepared

/-- Either nothing is copied, or the copy goes onto a directory. -/
theorem copy_outcome (laws : ShellLaws machine.system) {options : Bytes}
    {target : Bytes} {texts : List Bytes} {disk prepared : Disk γ} {top : Loc}
    (isOption : options ∈ [ascii "-ax", ascii "-a"])
    (unquoted : 39 ∉ target ∧ 39 ∉ path) (member : path ∈ texts)
    (soFar : Prepared texts disk prepared)
    (resolved : prepared.resolve target = .ok top)
    (isDir : prepared.fs.IsDir top) :
    let copy := machine.system (copyCommand options target path)
    copy prepared = (false, prepared) ∨
      ∃ ground onto, Prepared texts disk ground ∧
        ground.resolve path = .ok onto ∧ ground.fs.IsDir onto ∧
        copy prepared = copy ground := by
  intro copy
  by_cases there : ∃ onto, prepared.resolve path = .ok onto ∧
      prepared.fs.IsDir onto
  · obtain ⟨onto, leads, onDir⟩ := there
    exact .inr ⟨prepared, onto, soFar, leads, onDir, rfl⟩
  · rcases planned : mkdirPlan path 493 prepared with errno | fs
    · refine .inl (laws.refuses options isOption target path prepared errno
        unquoted.1 unquoted.2 ?_ planned)
      intro onto leads onDir
      exact there ⟨onto, leads, onDir⟩
    · obtain ⟨made, onto, leads, onDir⟩ := made_of_mkdirPlan planned
      exact .inr ⟨{ prepared with fs := fs }, onto,
        soFar.further member made, leads, onDir,
        laws.makes options isOption target path prepared top fs unquoted.1
          unquoted.2 resolved isDir planned⟩

/-- The disk changed, but paths lead where they did and no snapshot is
touched. -/
structure Calm (machine : Machine γ) (state : State γ) (disk : Disk γ) :
    Prop where
  steady : Steady (state.tops machine) state.disk disk
  untouched : ∀ snap ∈ state.snapshots, ∀ kept,
    state.disk.resolve snap.path = .ok kept → ∀ rel,
      disk.fs.node? (rel ++ kept) = state.disk.fs.node? (rel ++ kept)

theorem Calm.effect {disk : Disk γ} (calm : Calm machine state disk) :
    Effect machine state { state with disk := disk } :=
  ⟨rfl, calm.steady, calm.untouched,
    ⟨[], (List.append_nil _).symm, fun _ member => nomatch member⟩,
    Nat.le_refl _⟩

/-- What a copy onto a fitting place does. -/
structure Copied (machine : Machine γ) (state : State γ) (path : Bytes)
    (top : Loc) (disk : Disk γ) : Prop where
  calm : Calm machine state disk
  away : ∃ kept, Aside (state.tops machine) disk path kept ∧
    (∀ other ∈ state.tops machine, Lib.Apart other kept) ∧
    ∀ rel, disk.fs.node? (rel ++ kept) = state.disk.fs.node? (rel ++ top)

section

variable {target : Bytes} {top onto : Loc} {ground : Disk γ}
  (fits : SnapshotFits machine state name path target)
  (prepared : Prepared [machine.snapshotDir name, path] state.disk ground)

include fits prepared

/-- Making directories leaves the strata alone. -/
theorem SnapshotFits.same_top (member : top ∈ state.tops machine) (rel : Loc) :
    ground.fs.node? (rel ++ top) = state.disk.fs.node? (rel ++ top) := by
  apply prepared.same
  intro missing
  exact (fits.making _ missing).1 top member (List.suffix_append rel top)

theorem SnapshotFits.same_kept {snap : SnapshotRow} {kept : Loc}
    (member : snap ∈ state.snapshots)
    (resolved : state.disk.resolve snap.path = .ok kept) (rel : Loc) :
    ground.fs.node? (rel ++ kept) = state.disk.fs.node? (rel ++ kept) := by
  apply prepared.same
  intro missing
  exact (fits.making _ missing).2 snap member kept resolved
    (List.suffix_append rel kept)

/-- Where the path leads now it was to lead before. -/
theorem SnapshotFits.lands (resolvedTop : state.disk.resolve target = .ok top)
    (resolved : ground.resolve path = .ok onto)
    (isDir : ground.fs.IsDir onto) :
    Lands machine state path [machine.snapshotDir name, path] top onto := by
  refine fits.landing top onto resolvedTop ?_ ?_
  · exact prepared.grown.willLead (resolve_eq_ok_iff.mp resolved).2
  · rcases prepared.grown.nodes onto with same | ⟨absent, _⟩
    · rw [FileSystem.IsDir, same] at isDir
      exact .inr isDir
    · exact .inl absent

end

/-- A place for the snapshot, as the copy finds it. -/
structure Placed (machine : Machine γ) (state : State γ) (name path : Bytes)
    (top onto : Loc) (ground : Disk γ) : Prop where
  prepared : Prepared [machine.snapshotDir name, path] state.disk ground
  lands : Lands machine state path [machine.snapshotDir name, path] top onto
  resolved : ground.resolve path = .ok onto
  ontoDir : ground.fs.IsDir onto
  topDir : state.disk.fs.IsDir top
  sameTop : ∀ rel, ground.fs.node? (rel ++ top) =
    state.disk.fs.node? (rel ++ top)

namespace Placed

variable {top onto rel : Loc} {ground : Disk γ}

/-- What lies strictly below the place was there before. -/
theorem sameInside (placed : Placed machine state name path top onto ground)
    (nonempty : rel ≠ []) :
    ground.fs.node? (rel ++ onto) = state.disk.fs.node? (rel ++ onto) := by
  apply placed.prepared.same
  intro missing
  refine placed.lands.shallow _ missing ⟨List.suffix_append rel onto, ?_⟩
  simpa using nonempty

/-- Where the place held the tree of the stratum, it still does. -/
theorem stillSame (placed : Placed machine state name path top onto ground)
    (same : ∀ rel, state.disk.fs.node? (rel ++ onto) =
      state.disk.fs.node? (rel ++ top)) (rel : Loc) :
    ground.fs.node? (rel ++ onto) = ground.fs.node? (rel ++ top) := by
  rw [placed.sameTop]
  by_cases isOnto : rel = []
  · obtain ⟨mode, found⟩ := FileSystem.isDir_iff.mp placed.topDir
    have there := same []
    simp only [List.nil_append] at there
    rw [isOnto, List.nil_append, List.nil_append, found]
    exact placed.prepared.grown.kept (there.trans found)
  · rw [placed.sameInside isOnto, same]

theorem graftable (placed : Placed machine state name path top onto ground) :
    ground.fs.Graftable top onto := by
  have sameTop := placed.sameTop []
  simp only [List.nil_append] at sameTop
  have topDir : ground.fs.IsDir top := by
    rw [FileSystem.IsDir, sameTop]
    exact placed.topDir
  refine ⟨topDir, placed.ontoDir, fun rel node there fromTop onOnto => ?_⟩
  rcases placed.lands.room with same | ⟨_, covered⟩
  · rw [placed.stillSame same, fromTop, Option.some.injEq] at onOnto
    subst onOnto
    cases node <;> simp [Node.Overlays]
  · by_cases isOnto : rel = []
    · subst isOnto
      obtain ⟨mode, isTop⟩ := FileSystem.isDir_iff.mp topDir
      obtain ⟨other, isOnto⟩ := FileSystem.isDir_iff.mp placed.ontoDir
      rw [List.nil_append] at fromTop onOnto
      rw [isTop, Option.some.injEq] at fromTop
      rw [isOnto, Option.some.injEq] at onOnto
      subst fromTop onOnto
      trivial
    · rw [placed.sameInside isOnto] at onOnto
      obtain ⟨other, found, overlays⟩ := covered rel there onOnto
      rw [placed.sameTop, found, Option.some.injEq] at fromTop
      rwa [← fromTop]

/-- The copy holds what the stratum does, and nothing else. -/
theorem copy_exact (placed : Placed machine state name path top onto ground)
    (rel : Loc) :
    (ground.fs.graft top onto).node? (rel ++ onto) =
      state.disk.fs.node? (rel ++ top) := by
  rw [FileSystem.node?_graft_below placed.graftable, placed.sameTop]
  rcases found : state.disk.fs.node? (rel ++ top) with _ | node
  · rw [Option.none_or]
    rcases placed.lands.room with same | ⟨_, covered⟩
    · rw [placed.stillSame same, placed.sameTop, found]
    · by_cases isOnto : rel = []
      · subst isOnto
        obtain ⟨mode, isTop⟩ := FileSystem.isDir_iff.mp placed.topDir
        rw [List.nil_append, isTop] at found
        cases found
      · rw [placed.sameInside isOnto]
        by_contra there
        obtain ⟨node, isNode⟩ := Option.ne_none_iff_exists'.mp there
        obtain ⟨other, onTop, _⟩ := covered rel node isNode
        rw [found] at onTop
        cases onTop
  · rfl

theorem copied (placed : Placed machine state name path top onto ground)
    (sameKept : ∀ snap ∈ state.snapshots, ∀ kept,
      state.disk.resolve snap.path = .ok kept → ∀ rel,
        ground.fs.node? (rel ++ kept) = state.disk.fs.node? (rel ++ kept)) :
    Copied machine state path top
      { ground with fs := ground.fs.graft top onto } := by
  have steady : Steady (state.tops machine) ground
      { ground with fs := ground.fs.graft top onto } :=
    .of_graft ground top onto
  refine ⟨⟨?_, ?_⟩, ?_⟩
  · exact (Steady.of_grown placed.prepared.grown).trans steady
  · intro snap member kept resolved rel
    rw [← sameKept snap member kept resolved rel]
    rcases placed.lands.room with same | ⟨apart, _⟩
    · exact FileSystem.node?_graft_same (placed.stillSame same) _
    · apply FileSystem.node?_graft_outside
      exact (apart snap member kept resolved).not_below
        (List.suffix_append rel kept)
  · refine ⟨onto, ?_, placed.lands.apart, placed.copy_exact⟩
    refine Aside.steady ?_ steady
    refine Aside.of_grown placed.prepared.grown placed.lands.aside
      placed.resolved placed.ontoDir ?_
    rintro other member ⟨below, _⟩
    exact (placed.lands.apart other member).1 below

end Placed

theorem SnapshotFits.calm {target : Bytes} {ground : Disk γ}
    (fits : SnapshotFits machine state name path target)
    (prepared : Prepared [machine.snapshotDir name, path] state.disk ground) :
    Calm machine state ground :=
  ⟨.of_grown prepared.grown, fun _ member _ resolved rel =>
    fits.same_kept prepared member resolved rel⟩

/-- The copy fails and disturbs nothing, or it is exact. -/
theorem SnapshotFits.copy {target : Bytes} {top : Loc}
    (fits : SnapshotFits machine state name path target)
    (laws : ShellLaws machine.system)
    (aside : Aside (state.tops machine) state.disk target top)
    (member : top ∈ state.tops machine) :
    let result := machine.system (copyCommand (ascii "-ax") target path)
      (made path (made (machine.snapshotDir name) state.disk))
    result.1 = false ∧ Calm machine state result.2 ∨
      result.1 = true ∧ Copied machine state path top result.2 := by
  intro result
  let texts := [machine.snapshotDir name, path]
  have first : Prepared texts state.disk
      (made (machine.snapshotDir name) state.disk) :=
    (Prepared.refl state.disk).further List.mem_cons_self
      (mkdirs_made _ 493 _)
  have both : Prepared texts state.disk
      (made path (made (machine.snapshotDir name) state.disk)) :=
    first.further (by simp [texts]) (mkdirs_made _ 493 _)
  have asideThen := aside.steady (.of_grown both.grown)
  rcases copy_outcome laws List.mem_cons_self fits.unquoted (by simp [texts])
      both asideThen.resolve asideThen.isDir with
    failed | ⟨ground, onto, prepared, resolved, ontoDir, isCopy⟩
  · refine .inl ⟨congrArg Prod.fst failed, ?_⟩
    rw [show result.2 = _ from congrArg Prod.snd failed]
    exact fits.calm both
  · have lands := fits.lands prepared aside.resolve resolved ontoDir
    have placed : Placed machine state name path top onto ground :=
      ⟨prepared, lands, resolved, ontoDir, aside.isDir,
        fits.same_top prepared member⟩
    have asideGround := aside.steady (.of_grown prepared.grown)
    have copied := laws.copies (ascii "-ax") List.mem_cons_self target path
      ground top onto fits.unquoted.1 fits.unquoted.2 asideGround.resolve
      resolved (lands.apart top member) placed.graftable
    have isResult : result = (true, { ground with
        fs := ground.fs.graft top onto }) := isCopy.trans copied
    refine .inr ⟨congrArg Prod.fst isResult, ?_⟩
    rw [isResult]
    exact placed.copied fun snap isSnap kept resolvedKept rel =>
      fits.same_kept prepared isSnap resolvedKept rel

theorem State.mem_of_stratum {row : StratumRow}
    (found : state.stratum name = some row) : row ∈ state.strata :=
  List.mem_of_find?_eq_some found

/-- The row of a new snapshot, in the state that it is added to. -/
def State.record (state : State γ) (name label path : Bytes) (disk : Disk γ) :
    State γ :=
  { state with
    disk := disk
    snapshots := state.snapshots ++
      [⟨state.lastId + 1, name, label, path, .copy⟩]
    lastId := state.lastId + 1 }

theorem Copied.record_effect {top : Loc} {disk : Disk γ}
    (copied : Copied machine state path top disk)
    (installed : Installed machine state) (unquoted : 39 ∉ path) :
    Effect machine state (state.record name label path disk) := by
  have tops : (state.record name label path disk).tops machine =
      state.tops machine := copied.calm.effect.tops_eq installed
  refine ⟨rfl, copied.calm.steady, copied.calm.untouched, ⟨_, rfl, ?_⟩,
    Nat.le_succ _⟩
  intro snap isNew
  obtain ⟨kept, aside, apart, _⟩ := copied.away
  rw [List.mem_singleton] at isNew
  subst isNew
  refine ⟨rfl, unquoted, Nat.le_refl _, kept, ?_, ?_⟩
  · rw [tops]
    exact aside
  · rwa [tops]

theorem Copied.record_holds {top : Loc} {disk : Disk γ}
    (copied : Copied machine state path top disk)
    (ready : Ready machine state) :
    Holds (state.record name label path disk) name (state.lastId + 1)
      fun rel => state.disk.fs.node? (rel ++ top) := by
  obtain ⟨kept, aside, _, exact_⟩ := copied.away
  let snap : SnapshotRow := ⟨state.lastId + 1, name, label, path, .copy⟩
  refine ⟨snap, kept, ?_, aside.resolve, exact_⟩
  have isId : (0 : Int) < ((state.lastId + 1 : Nat) : Int) := by omega
  unfold State.snapshot
  rw [if_pos isId]
  unfold State.record
  rw [List.find?_append]
  have older : state.snapshots.find? (fun row => decide (row.stratum = name ∧
      (row.id : Int) = ((state.lastId + 1 : Nat) : Int))) = none := by
    rw [List.find?_eq_none]
    intro row member
    have known := (ready.sheltered row member).known
    rw [decide_eq_true_eq]
    rintro ⟨_, isNew⟩
    omega
  rw [older, Option.none_or, List.find?_singleton, if_pos (by simp)]

/-- A fitting snapshot disturbs nothing, and holds the tree of the stratum if
it is recorded. -/
theorem snapshotCreate_effect (laws : ShellLaws machine.system)
    (noBtrfs : machine.useBtrfs = false) (ready : Ready machine state)
    (fits : Fits machine state (.create name label clock refusal)) :
    let result := snapshotCreate machine name label clock refusal state
    Effect machine state result.2 ∧ ∀ id, result.1 = .ok id →
      0 < id ∧ ∀ row top, state.stratum name = some row →
        state.disk.resolve (machine.stratumTarget row.root) = .ok top →
        Holds result.2 name id fun rel => state.disk.fs.node? (rel ++ top) := by
  have unchanged : Effect machine state state :=
    Calm.effect ⟨.refl _, fun _ _ _ _ _ => rfl⟩
  rcases found : state.stratum name with _ | row
  · simp only [snapshotCreate, found]
    exact ⟨unchanged, fun id isOk => nomatch isOk⟩
  · obtain ⟨top, aside⟩ := ready.installed row (State.mem_of_stratum found)
    have member : top ∈ state.tops machine :=
      mem_tops.mpr ⟨row, State.mem_of_stratum found, aside.resolve⟩
    have outcome := (fits row found).copy laws aside member
    simp only [snapshotCreate, found, takeCopy, noBtrfs]
    generalize machine.system _ _ = result at outcome
    obtain ⟨success, disk⟩ := result
    rcases outcome with ⟨failed, calm⟩ | ⟨isCopy, copied⟩
    · cases failed
      exact ⟨calm.effect, fun id isOk => nomatch isOk⟩
    · cases isCopy
      rcases refusal with _ | message
      · refine ⟨copied.record_effect ready.installed (fits row found).unquoted.2,
          fun id isOk => ?_⟩
        cases isOk
        refine ⟨Nat.succ_pos _, fun other place same resolved => ?_⟩
        cases same
        rw [aside.resolve] at resolved
        cases resolved
        exact copied.record_holds ready
      · exact ⟨copied.calm.effect, fun id isOk => nomatch isOk⟩

/-! ## Going back to a snapshot -/

/-- The tree of a snapshot has taken the place of what was in a directory. -/
structure Restored (before after : Disk γ) (kept top : Loc) : Prop where
  cwd : after.cwd = before.cwd
  outside : ∀ loc, ¬ top <:+ loc →
    after.fs.node? loc = before.fs.node? loc
  tree : ∀ rel, after.fs.node? (rel ++ top) = before.fs.node? (rel ++ kept)

theorem Restored.isDir {disk restored : Disk γ} {kept top : Loc}
    (done : Restored disk restored kept top) (isDir : disk.fs.IsDir kept) :
    restored.fs.IsDir top := by
  have tree := done.tree []
  simp only [List.nil_append] at tree
  rwa [FileSystem.IsDir, tree]

/-- A directory emptied, and then filled with the tree of a snapshot. -/
theorem restored_of_graft {disk emptied : Disk γ} {kept top : Loc}
    (cwd : emptied.cwd = disk.cwd)
    (nodes : ∀ loc, emptied.fs.node? loc = (disk.fs.emptied top).node? loc)
    (apart : Lib.Apart top kept) (topDir : disk.fs.IsDir top)
    (keptDir : disk.fs.IsDir kept) :
    emptied.fs.Graftable kept top ∧
      Restored disk { emptied with fs := emptied.fs.graft kept top } kept
        top := by
  have atTop : emptied.fs.node? top = disk.fs.node? top := by
    rw [nodes, FileSystem.node?_emptied, if_neg fun below => below.2 rfl]
  have inTop : ∀ rel, rel ≠ [] → emptied.fs.node? (rel ++ top) = none := by
    intro rel nonempty
    rw [nodes, FileSystem.node?_emptied, if_pos]
    exact ⟨List.suffix_append rel top, by simpa using nonempty⟩
  have outTop : ∀ loc, ¬ top <:+ loc →
      emptied.fs.node? loc = disk.fs.node? loc := by
    intro loc outside
    rw [nodes, FileSystem.node?_emptied, if_neg fun below => outside below.1]
  have inKept : ∀ rel, emptied.fs.node? (rel ++ kept) =
      disk.fs.node? (rel ++ kept) := by
    intro rel
    exact outTop _ (apart.symm.not_below (List.suffix_append rel kept))
  obtain ⟨mode, isKept⟩ := FileSystem.isDir_iff.mp keptDir
  obtain ⟨other, isTop⟩ := FileSystem.isDir_iff.mp topDir
  have rootKept := inKept []
  simp only [List.nil_append] at rootKept
  have able : emptied.fs.Graftable kept top := by
    refine ⟨?_, ?_, fun rel node there fromKept onTop => ?_⟩
    · rwa [FileSystem.IsDir, rootKept]
    · rwa [FileSystem.IsDir, atTop]
    · by_cases isRoot : rel = []
      · subst isRoot
        rw [List.nil_append] at fromKept onTop
        rw [rootKept, isKept, Option.some.injEq] at fromKept
        rw [atTop, isTop, Option.some.injEq] at onTop
        subst fromKept onTop
        trivial
      · rw [inTop rel isRoot] at onTop
        cases onTop
  refine ⟨able, cwd, fun loc outside => ?_, fun rel => ?_⟩
  · exact (FileSystem.node?_graft_outside outside).trans (outTop loc outside)
  · rw [FileSystem.node?_graft_below able, inKept]
    by_cases isRoot : rel = []
    · rw [isRoot, List.nil_append, isKept]
      rfl
    · rw [inTop rel isRoot, Option.or_none]

theorem restoreTree_restored (laws : ShellLaws machine.system)
    {snap : SnapshotRow} {target : Bytes} {top kept : Loc} {disk : Disk γ}
    {tops : List Loc} {mode : Nat} (isCopy : snap.kind = .copy)
    (unquoted : 39 ∉ target ∧ 39 ∉ snap.path) (member : top ∈ tops)
    (isEntry : disk.lstat target = .ok (.dir mode))
    (asideTarget : Aside tops disk target top)
    (asideKept : Aside tops disk snap.path kept) (apart : Lib.Apart top kept) :
    let result := restoreTree machine name snap target clock disk
    result.1 = true ∧ Restored disk result.2 kept top := by
  intro result
  have cleared := laws.clears target disk top mode unquoted.1 isEntry
    asideTarget.resolve
  let emptied : Disk γ := { disk with fs := disk.fs.emptied top }
  have emptySteady : Steady tops disk emptied := by
    refine .of_below member rfl asideTarget.isDir ?_ fun loc outside => ?_
    · have notBelow : ¬ StrictlyBelow top top := fun below => below.2 rfl
      rw [FileSystem.IsDir, FileSystem.node?_emptied, if_neg notBelow]
      exact asideTarget.isDir
    · exact (FileSystem.node?_emptied _ _ _).trans
        (if_neg fun below => outside below.1)
  have remade := mkdirs_made target 493 emptied
  have nothing := remade.nothing (asideTarget.steady emptySteady).resolve
  have steady := emptySteady.trans (.of_grown remade.grown)
  obtain ⟨able, restored⟩ := @restored_of_graft γ disk (made target emptied)
    kept top remade.grown.cwd nothing apart asideTarget.isDir asideKept.isDir
  have copied := laws.copies (ascii "-a") (by simp) snap.path target
    (made target emptied) kept top unquoted.2 unquoted.1
    (asideKept.steady steady).resolve (asideTarget.steady steady).resolve
    apart.symm able
  have isResult : result = (true, { made target emptied with
      fs := (made target emptied).fs.graft kept top }) := by
    simp only [result, restoreTree, isCopy]
    rw [cleared]
    exact copied
  rw [isResult]
  exact ⟨rfl, restored⟩

/-- A rollback changes nothing outside the stratum. -/
theorem Restored.calm {row : StratumRow} {restored : Disk γ} {kept top : Loc}
    (done : Restored state.disk restored kept top)
    (ready : Ready machine state) (member : row ∈ state.strata)
    (aside : Aside (state.tops machine) state.disk
      (machine.stratumTarget row.root) top)
    (keptDir : state.disk.fs.IsDir kept) :
    Calm machine state restored := by
  have isTop : top ∈ state.tops machine :=
    mem_tops.mpr ⟨row, member, aside.resolve⟩
  constructor
  · exact .of_below isTop done.cwd aside.isDir (done.isDir keptDir)
      done.outside
  · intro snap isSnap other resolved rel
    obtain ⟨_, _, _, there, asideThere, apart⟩ :=
      ready.sheltered snap isSnap
    have same : there = other := by
      rw [asideThere.resolve] at resolved
      exact Except.ok.inj resolved
    rw [← same]
    exact done.outside _ ((apart top isTop).symm.not_below
      (List.suffix_append rel there))

/-- A rollback that meets the condition disturbs nothing else, and puts the
tree of the snapshot in the place of the stratum's. -/
theorem rollback_effect (laws : ShellLaws machine.system) {id : Int}
    (ready : Ready machine state)
    (fits : Fits machine state (.rollback name id clock)) :
    let result := rollback machine name id clock state
    Effect machine state result.2 ∧ ∀ row snap top kept,
      state.stratum name = some row → state.snapshot name id = some snap →
      state.disk.resolve (machine.stratumTarget row.root) = .ok top →
      state.disk.resolve snap.path = .ok kept →
      result.1 = .ok () ∧
        result.2.disk.resolve (machine.stratumTarget row.root) = .ok top ∧
        ∀ rel, result.2.disk.fs.node? (rel ++ top) =
          state.disk.fs.node? (rel ++ kept) := by
  have unchanged : Effect machine state state :=
    Calm.effect ⟨.refl _, fun _ _ _ _ _ => rfl⟩
  rcases found : state.stratum name with _ | row
  · simp only [rollback, found]
    exact ⟨unchanged, fun _ _ _ _ none_ => nomatch none_⟩
  rcases selected : state.snapshot name id with _ | snap
  · simp only [rollback, found, selected]
    exact ⟨unchanged, fun _ _ _ _ _ none_ => nomatch none_⟩
  obtain ⟨top, aside⟩ := ready.installed row (State.mem_of_stratum found)
  have member : top ∈ state.tops machine :=
    mem_tops.mpr ⟨row, State.mem_of_stratum found, aside.resolve⟩
  obtain ⟨isCopy, unquoted, _, kept, asideKept, apart⟩ :=
    ready.sheltered snap (State.mem_of_snapshot selected).1
  obtain ⟨targetUnquoted, mode, isEntry⟩ := fits row snap found selected
  obtain ⟨success, restored⟩ := @restoreTree_restored γ machine name clock
    laws snap _ top kept state.disk _ mode isCopy
    ⟨targetUnquoted, unquoted⟩ member isEntry aside asideKept
    (apart top member)
  have calm := restored.calm ready (State.mem_of_stratum found) aside
    asideKept.isDir
  simp only [rollback, found, selected]
  generalize restoreTree machine name snap _ clock state.disk = result at *
  obtain ⟨isDone, disk⟩ := result
  cases success
  refine ⟨calm.effect, fun other same place there isRow isSnap resolved
    resolvedKept => ?_⟩
  cases isRow
  cases isSnap
  rw [aside.resolve] at resolved
  cases resolved
  rw [asideKept.resolve] at resolvedKept
  cases resolvedKept
  exact ⟨rfl, (aside.steady calm.steady).resolve, restored.tree⟩

end SaltOS.Strata
