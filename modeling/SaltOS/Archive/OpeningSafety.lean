import SaltOS.Archive.Opening

/-!
# Where reading and opening keep their promises

Reading stays in its buffer except for members that are consumed without being
files, and an archive that is accepted has a manifest that parses except when
its last one does not.
-/

namespace SaltOS.Archive

open Pkg Toml Tar

/-! ## The loop -/

/-- All members up to the first refused one can be read. -/
def Sound (buffer : Bytes) : List Member → Prop
  | [] => True
  | member :: rest =>
      SoundMember buffer member ∧ (Passes buffer member → Sound buffer rest)

/-- What the members collect, one after the other. -/
inductive CollectedAll (buffer : Bytes) :
    List Member → Opening → Opening → Prop where
  | nil (opening : Opening) : CollectedAll buffer [] opening opening
  | cons {member : Member} {rest : List Member}
      {before middle after : Opening}
      (first : Collected buffer member before middle)
      (others : CollectedAll buffer rest middle after) :
      CollectedAll buffer (member :: rest) before after

/-- How a reading with `open_cb` ends. -/
inductive LoopOutcome (buffer : Bytes) (items : List Member)
    (before : Opening) : Except OpenError Opening → Prop where
  | unsound {error : OpenError} (unsound : ¬ Sound buffer items)
      (bad : error = .crash ∨ error = .hang) :
      LoopOutcome buffer items before (.error error)
  | refused {message : Bytes} (sound : Sound buffer items)
      (refused : ¬ ∀ member ∈ items, Passes buffer member) :
      LoopOutcome buffer items before (.error (.format message))
  | passed {after : Opening} (sound : Sound buffer items)
      (passes : ∀ member ∈ items, Passes buffer member)
      (collected : CollectedAll buffer items before after) :
      LoopOutcome buffer items before (.ok after)

theorem openMembers_outcome {buffer : Bytes} {items : List Member}
    (placed : ∀ member ∈ items, member.Placed buffer) (opening : Opening) :
    ∃ result, Settles
        (fun fuel => items.foldlM (openMember buffer fuel) opening) result ∧
      LoopOutcome buffer items opening result := by
  induction items generalizing opening with
  | nil => exact ⟨_, .const _, .passed trivial (by simp) (.nil opening)⟩
  | cons member rest induction =>
      obtain ⟨first, settles, outcome⟩ :=
        openMember_outcome (placed member List.mem_cons_self) opening
      cases outcome with
      | unsound unsound bad =>
          exact ⟨_, settles.foldlM_error rest,
            .unsound (fun sound => unsound sound.1) bad⟩
      | refused sound refused =>
          refine ⟨_, settles.foldlM_error rest, .refused ⟨sound, ?_⟩ ?_⟩
          · exact fun passes => absurd passes refused
          · exact fun all => refused (all member List.mem_cons_self)
      | @passed middle sound passes collected =>
          obtain ⟨result, others, outcome⟩ := induction
            (fun other inside => placed other (List.mem_cons_of_mem _ inside))
            middle
          refine ⟨result, settles.foldlM_ok others, ?_⟩
          cases outcome with
          | unsound unsound bad =>
              exact .unsound (fun all => unsound (all.2 passes)) bad
          | refused soundRest refused =>
              refine .refused ⟨sound, fun _ => soundRest⟩ fun all => ?_
              exact refused fun other inside =>
                all other (List.mem_cons_of_mem _ inside)
          | passed soundRest passesRest collectedRest =>
              exact .passed ⟨sound, fun _ => soundRest⟩
                (List.forall_mem_cons.mpr ⟨passes, passesRest⟩)
                (.cons collected collectedRest)

/-- The last member of a name. -/
def lastNamed (name : String) (items : List Member) : Option Member :=
  items.reverse.find? fun member => member.path = ascii name

theorem lastNamed_cons (name : String) (member : Member)
    (rest : List Member) :
    lastNamed name (member :: rest) = (lastNamed name rest).or
      (if member.path = ascii name then some member else none) := by
  rw [lastNamed, List.reverse_cons, List.find?_append, lastNamed]
  congr 1
  by_cases isName : member.path = ascii name <;> simp [isName]

theorem CollectedAll.pkg {buffer : Bytes} {items : List Member}
    {before after : Opening}
    (collected : CollectedAll buffer items before after) :
    match lastNamed "metadata.toml" items with
    | none => after.pkg = before.pkg
    | some member => ∃ pkg, MetaOf buffer member pkg ∧
        after.pkg = some pkg := by
  induction collected with
  | nil opening => rfl
  | @cons member rest before middle after first others induction =>
      rw [lastNamed_cons]
      cases last : lastNamed "metadata.toml" rest with
      | some other =>
          rw [last] at induction
          exact induction
      | none =>
          rw [last] at induction
          by_cases isMeta : member.path = ascii "metadata.toml"
          · obtain ⟨pkg, isPkg, same⟩ := first.pkg isMeta
            simp only [if_pos isMeta, Option.none_or]
            exact ⟨pkg, isPkg, induction.trans same⟩
          · simp only [if_neg isMeta, Option.none_or]
            exact induction.trans (first.keepsPkg isMeta)

theorem CollectedAll.manifest {buffer : Bytes} {items : List Member}
    {before after : Opening}
    (collected : CollectedAll buffer items before after) :
    match lastNamed "manifest.toml" items with
    | none => after.manifest = before.manifest
    | some member => ∃ manifest, after.manifest = some manifest ∧
        ∀ other, ManifestOf buffer member other → other = manifest := by
  induction collected with
  | nil opening => rfl
  | @cons member rest before middle after first others induction =>
      rw [lastNamed_cons]
      cases last : lastNamed "manifest.toml" rest with
      | some other =>
          rw [last] at induction
          exact induction
      | none =>
          rw [last] at induction
          by_cases isManifest : member.path = ascii "manifest.toml"
          · obtain ⟨manifest, same, unique⟩ := first.manifest isManifest
            simp only [if_pos isManifest, Option.none_or]
            exact ⟨manifest, induction.trans same, unique⟩
          · simp only [if_neg isManifest, Option.none_or]
            exact induction.trans (first.keepsManifest isManifest)

/-! ## Opening -/

/-- What `salt_archive_open` makes of an opening. -/
def openEnd (path : Bytes) (ending : ReadEnd) (opening : Opening) :
    Except OpenError Archive :=
  match ending, opening.pkg, opening.manifest with
  | .complete, some pkg, some manifest =>
      .ok ⟨pkg, manifest, opening.payload, opening.scripts⟩
  | _, _, _ => .error (.format (ascii "invalid .grain: " ++ path))

/-- What `salt_archive_open` makes of the loop. -/
def openCall (path : Bytes) (ending : ReadEnd) :
    Except OpenError Opening → Except OpenError Archive
  | .error (.format _) => .error (.format (ascii "invalid .grain: " ++ path))
  | .error stop => .error stop
  | .ok opening => openEnd path ending opening

theorem openBuffer_eq (path buffer : Bytes) (fuel : Nat) :
    openBuffer path buffer fuel = openCall path (members buffer).ending
      ((members buffer).members.foldlM (openMember buffer fuel)
        ⟨none, none, [], []⟩) := by
  rw [openBuffer]
  cases (members buffer).members.foldlM (openMember buffer fuel)
      ⟨none, none, [], []⟩ with
  | ok opening => rfl
  | error error => cases error <;> rfl

/-- The loop with its outcome, and what opening makes of it. -/
theorem openBuffer_settles (path buffer : Bytes) : ∃ result,
    LoopOutcome buffer (members buffer).members ⟨none, none, [], []⟩ result ∧
      Settles (openBuffer path buffer)
        (openCall path (members buffer).ending result) := by
  obtain ⟨result, settles, outcome⟩ :=
    openMembers_outcome (members_placed buffer) ⟨none, none, [], []⟩
  exact ⟨result, outcome, (settles.map (openCall path
    (members buffer).ending)).congr (openBuffer_eq path buffer)⟩

/-- `extract_cb` reads the data of files only. -/
def extractConsumes (member : Member) : Bool :=
  member.typeflag ≠ typeDir ∧ member.typeflag ≠ typeSymlink ∧
    (member.typeflag = typeFile ∨ member.typeflag = 0)

/-- Reading ends, and what the callbacks consume lies in the buffer, exactly
when all members up to the first refused one are files or empty, as far as they
are consumed, and the TOML parser comes back from them. -/
theorem reading_safe_iff (path buffer : Bytes) :
    (Reads buffer none none 0 (members buffer) ∧
      (∀ member ∈ (members buffer).members, extractConsumes member = true →
        Inside buffer member.data member.size) ∧
      ∃ result, Settles (openBuffer path buffer) result ∧
        result ≠ .error .crash ∧ result ≠ .error .hang) ↔
      Sound buffer (members buffer).members := by
  obtain ⟨result, outcome, settles⟩ := openBuffer_settles path buffer
  constructor
  · rintro ⟨-, -, other, isOther, noCrash, noHang⟩
    obtain rfl := settles.unique isOther
    cases outcome with
    | unsound _ bad =>
        rcases bad with rfl | rfl
        · exact absurd rfl noCrash
        · exact absurd rfl noHang
    | refused sound _ => exact sound
    | passed sound _ _ => exact sound
  · intro sound
    refine ⟨members_reads buffer, ?_, _, settles, ?_⟩
    · intro member isMember consumes
      have placed := members_placed buffer member isMember
      rw [inside_iff placed]
      simp only [extractConsumes, decide_eq_true_eq] at consumes
      exact .inl consumes.2.2
    · cases outcome with
      | unsound unsound _ => exact absurd sound unsound
      | refused _ _ => exact ⟨nofun, nofun⟩
      | @passed after _ _ _ =>
          unfold openCall openEnd
          dsimp only
          split <;> exact ⟨nofun, nofun⟩

/-- A directory `metadata.toml` whose header has the size 1. -/
def dirMetadata : Bytes :=
  fillHeader (ascii "metadata.toml") typeDir 493 1 none ++ writerFinish

theorem dirMetadata_crashes :
    (∃ member ∈ (members dirMetadata).members, Consumed member ∧
      ¬ Inside dirMetadata member.data member.size) ∧
      Settles (openBuffer (ascii "app.grain") dirMetadata)
        (.error .crash) := by
  have isMembers : members dirMetadata =
      ⟨[⟨ascii "metadata.toml", typeDir, 493, 1, [], none⟩], .complete⟩ := by
    decide +kernel
  have outside : ¬ Inside dirMetadata none 1 := by
    simp [Inside]
  constructor
  · rw [isMembers]
    exact ⟨_, List.mem_cons_self, .inl rfl, outside⟩
  refine ⟨0, fun fuel _ => ?_⟩
  rw [openBuffer_eq, isMembers, List.foldlM_cons,
    openMember_crash fuel (.inl rfl) outside]
  rfl

/-! ## Accepted archives -/

/-- The values of an archive are what its last metadata and its last manifest
encode. -/
def Readable (buffer : Bytes) (archive : Archive) : Prop :=
  (∃ member, lastNamed "metadata.toml" (members buffer).members =
      some member ∧ MetaOf buffer member archive.pkg) ∧
    ∃ member, lastNamed "manifest.toml" (members buffer).members =
      some member ∧ ManifestOf buffer member archive.manifest

/-- What `salt_archive_open` asks of an archive. -/
structure Opens (buffer : Bytes) : Prop where
  complete : (members buffer).ending = .complete
  sound : ∀ member ∈ (members buffer).members, SoundMember buffer member
  passes : ∀ member ∈ (members buffer).members, Passes buffer member
  hasMeta : lastNamed "metadata.toml" (members buffer).members ≠ none
  hasManifest : lastNamed "manifest.toml" (members buffer).members ≠ none

theorem sound_of_all {buffer : Bytes} {items : List Member}
    (all : ∀ member ∈ items, SoundMember buffer member) :
    Sound buffer items := by
  induction items with
  | nil => trivial
  | cons member rest induction =>
      exact ⟨all member List.mem_cons_self, fun _ => induction
        fun other inside => all other (List.mem_cons_of_mem _ inside)⟩

theorem Sound.all {buffer : Bytes} {items : List Member}
    (sound : Sound buffer items)
    (passes : ∀ member ∈ items, Passes buffer member) :
    ∀ member ∈ items, SoundMember buffer member := by
  induction items with
  | nil => simp
  | cons member rest induction =>
      refine List.forall_mem_cons.mpr ⟨sound.1, ?_⟩
      exact induction (sound.2 (passes member List.mem_cons_self))
        fun other inside => passes other (List.mem_cons_of_mem _ inside)

/-- The last manifest of the archive parses. -/
def ManifestParses (buffer : Bytes) : Prop :=
  ∀ member, lastNamed "manifest.toml" (members buffer).members =
    some member → ∃ manifest, ManifestOf buffer member manifest

/-- What is opened has the metadata of its last member of that name. -/
theorem opened_of_settles {path buffer : Bytes} {archive : Archive}
    (settles : Settles (openBuffer path buffer) (.ok archive)) :
    Opens buffer ∧
      (∃ member, lastNamed "metadata.toml" (members buffer).members =
        some member ∧ MetaOf buffer member archive.pkg) ∧
      ∃ member, lastNamed "manifest.toml" (members buffer).members =
        some member ∧
          ∀ other, ManifestOf buffer member other →
            other = archive.manifest := by
  obtain ⟨result, outcome, isResult⟩ := openBuffer_settles path buffer
  have opened := isResult.unique settles
  cases outcome with
  | unsound _ bad => rcases bad with rfl | rfl <;> cases opened
  | refused _ _ => cases opened
  | @passed after sound passes collected =>
      have isMeta := collected.pkg
      have isManifest := collected.manifest
      unfold openCall openEnd at opened
      dsimp only at opened
      split at opened
      · rename_i pkg manifest complete samePkg sameManifest
        cases opened
        cases lastMeta : lastNamed "metadata.toml"
            (members buffer).members with
        | none =>
            rw [lastMeta] at isMeta
            exact absurd (isMeta.symm.trans samePkg) (by simp)
        | some metaMember =>
            cases lastManifest : lastNamed "manifest.toml"
                (members buffer).members with
            | none =>
                rw [lastManifest] at isManifest
                exact absurd (isManifest.symm.trans sameManifest) (by simp)
            | some manifestMember =>
                rw [lastMeta] at isMeta
                rw [lastManifest] at isManifest
                obtain ⟨pkg', metaOf, isPkg⟩ := isMeta
                obtain ⟨manifest', isIt, unique⟩ := isManifest
                rw [isPkg] at samePkg
                rw [isIt] at sameManifest
                cases samePkg
                cases sameManifest
                refine ⟨⟨complete, sound.all passes, passes, ?_, ?_⟩,
                  ⟨metaMember, rfl, metaOf⟩, manifestMember, rfl, unique⟩
                · simp [lastMeta]
                · simp [lastManifest]
      · cases opened

theorem settles_of_opens (path : Bytes) {buffer : Bytes} (opens : Opens buffer) :
    ∃ archive, Settles (openBuffer path buffer) (.ok archive) := by
  obtain ⟨result, outcome, settles⟩ := openBuffer_settles path buffer
  cases outcome with
  | unsound unsound _ => exact absurd (sound_of_all opens.sound) unsound
  | refused _ refused => exact absurd opens.passes refused
  | @passed after sound passes collected =>
      have isMeta := collected.pkg
      have isManifest := collected.manifest
      obtain ⟨metaMember, lastMeta⟩ :=
        Option.ne_none_iff_exists'.mp opens.hasMeta
      obtain ⟨manifestMember, lastManifest⟩ :=
        Option.ne_none_iff_exists'.mp opens.hasManifest
      rw [lastMeta] at isMeta
      rw [lastManifest] at isManifest
      obtain ⟨pkg, -, isPkg⟩ := isMeta
      obtain ⟨manifest, isIt, -⟩ := isManifest
      refine ⟨⟨pkg, manifest, after.payload, after.scripts⟩, ?_⟩
      unfold openCall openEnd at settles
      dsimp only at settles
      rw [opens.complete, isPkg, isIt] at settles
      exact settles

/-- What is accepted can be read back exactly when an archive that has all
that is asked of it has a last manifest that parses. -/
theorem opened_readable_iff (path buffer : Bytes) :
    (∀ archive, Settles (openBuffer path buffer) (.ok archive) →
      Readable buffer archive) ↔
      (Opens buffer → ManifestParses buffer) := by
  constructor
  · intro readable opens member isLast
    obtain ⟨archive, settles⟩ := settles_of_opens path opens
    obtain ⟨-, other, isOther, manifestOf⟩ := readable archive settles
    rw [isLast] at isOther
    cases isOther
    exact ⟨archive.manifest, manifestOf⟩
  · intro parses archive settles
    obtain ⟨opens, isMeta, member, isLast, unique⟩ := opened_of_settles settles
    refine ⟨isMeta, member, isLast, ?_⟩
    obtain ⟨manifest, manifestOf⟩ := parses opens member isLast
    rw [← unique manifest manifestOf]
    exact manifestOf

/-- An archive whose manifest is no TOML file. -/
def brokenManifest : Bytes :=
  writeAll [member "metadata.toml" (pkgMetaToToml smallPkg),
    member "manifest.toml" (ascii "file")]

def brokenMembers : Member × Member :=
  (⟨ascii "metadata.toml", typeFile, 420, (pkgMetaToToml smallPkg).length, [],
      some 512⟩,
    ⟨ascii "manifest.toml", typeFile, 420, 4, [], some 1536⟩)

theorem brokenManifest_members : members brokenManifest =
    ⟨[brokenMembers.1, brokenMembers.2], .complete⟩ := by
  decide +kernel

theorem brokenManifest_texts :
    textOf brokenManifest brokenMembers.1 = pkgMetaToToml smallPkg ∧
      textOf brokenManifest brokenMembers.2 = ascii "file" := by
  decide +kernel

theorem file_fails (next : UInt8) (fuel : Nat) :
    parse next fuel (ascii "file") =
      .error (.error (some (ascii "toml: expected = at line 1"))) := by
  have fails : parse next 0 (ascii "file") =
      .error (.error (some (ascii "toml: expected = at line 1"))) := by
    rfl
  rcases parse_extends next (Nat.zero_le fuel) (ascii "file") with empty | same
  · rw [fails] at empty
    cases empty
  · exact same.trans fails

theorem manifest_file_fails (next : UInt8) (fuel : Nat) :
    manifestFromToml next fuel (ascii "file") =
      .error (.error (some (ascii "toml: expected = at line 1"))) := by
  unfold manifestFromToml
  rw [file_fails]
  rfl

/-- It is accepted with an empty manifest. -/
theorem brokenManifest_accepted : ∃ archive,
    Settles (openBuffer (ascii "app.grain") brokenManifest) (.ok archive) ∧
      archive.manifest = [] ∧ ¬ Readable brokenManifest archive := by
  have placed := members_placed brokenManifest
  obtain ⟨metaText, manifestText⟩ := brokenManifest_texts
  have isMembers := brokenManifest_members
  -- Nothing below may unfold the archive.
  generalize brokenManifest = buffer at *
  rw [isMembers] at placed
  have metaPlaced := placed brokenMembers.1 List.mem_cons_self
  have manifestPlaced := placed brokenMembers.2
    (List.mem_cons_of_mem _ List.mem_cons_self)
  have metaInside := (inside_iff metaPlaced).mpr (.inl (.inl rfl))
  have manifestInside := (inside_iff manifestPlaced).mpr (.inl (.inl rfl))
  refine ⟨⟨smallPkg.readBack, [], [], []⟩, ⟨4, fun fuel enough => ?_⟩, rfl, ?_⟩
  · obtain ⟨rounds, rfl⟩ : ∃ rounds, fuel = rounds + 1 :=
      ⟨fuel - 1, by omega⟩
    have isPkg := pkgMetaFromToml_toToml (byteBehind buffer brokenMembers.1)
      smallPkg_wellFormed (by simp [smallPkg]; omega :
        smallPkg.deps.length + smallPkg.conflicts.length < rounds)
    rw [openBuffer_eq, isMembers, List.foldlM_cons,
      openMember_meta metaPlaced _ rfl metaInside, metaText, isPkg]
    change openCall _ _ ([brokenMembers.2].foldlM _ _) = _
    rw [List.foldlM_cons,
      openMember_manifest manifestPlaced _ rfl manifestInside, manifestText,
      manifest_file_fails]
    rfl
  · rintro ⟨-, member, isLast, manifestOf⟩
    rw [isMembers] at isLast
    obtain rfl : brokenMembers.2 = member := by
      have last : lastNamed "manifest.toml"
          [brokenMembers.1, brokenMembers.2] = some brokenMembers.2 := by
        decide +kernel
      rw [last] at isLast
      exact Option.some.inj isLast
    obtain ⟨bound, same⟩ := manifestOf
    have parsed := same bound le_rfl
    dsimp only at parsed
    rw [manifestText, manifest_file_fails] at parsed
    cases parsed

end SaltOS.Archive
