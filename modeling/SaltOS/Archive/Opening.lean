import SaltOS.Archive.Buffer
import SaltOS.Archive.Grain
import SaltOS.Toml.Termination

/-!
# Opening an archive in place

`open_cb` on the members of a buffer.  A pointer that is read outside of the
buffer is a crash, and a member whose text the TOML parser does not come back
from is a hang.
-/

namespace SaltOS.Archive

open Pkg Toml Tar

/-- The names that `open_cb` reads the data of. -/
def Consumed (member : Member) : Prop :=
  member.path = ascii "metadata.toml" ∨
    member.path = ascii "manifest.toml" ∨
    member.path = ascii "files.tar.zst"

instance (member : Member) : Decidable (Consumed member) :=
  inferInstanceAs (Decidable (_ ∨ _))

/-- What lies behind the pointer of a member. -/
def textOf (buffer : Bytes) (member : Member) : Bytes :=
  (member.entry buffer).data.getD []

/-- The byte after it; the buffer of a file ends with a zero byte. -/
def byteBehind (buffer : Bytes) (member : Member) : UInt8 :=
  match member.data with
  | none => 0
  | some offset => buffer.getD (offset + member.size) 0

/-- `open_cb` on a member of a buffer. -/
def openMember (buffer : Bytes) (fuel : Nat) (opening : Opening)
    (member : Member) : Except OpenError Opening :=
  if Consumed member ∧ ¬ Inside buffer member.data member.size then
    .error .crash
  else
    openCb (fun _ => byteBehind buffer member) fuel opening
      (member.entry buffer)

/-- `salt_archive_open` of a file that was read into a buffer. -/
def openBuffer (path buffer : Bytes) (fuel : Nat) :
    Except OpenError Archive :=
  let invalid := OpenError.format (ascii "invalid .grain: " ++ path)
  match (members buffer).members.foldlM (openMember buffer fuel)
      ⟨none, none, [], []⟩ with
  | .error (.format _) => .error invalid
  | .error stop => .error stop
  | .ok opening =>
      match (members buffer).ending, opening.pkg, opening.manifest with
      | .complete, some pkg, some manifest =>
          .ok ⟨pkg, manifest, opening.payload, opening.scripts⟩
      | _, _, _ => .error invalid

/-! ## Settling -/

/-- With enough fuel a run has one result. -/
def Settles {α : Type} (run : Nat → α) (result : α) : Prop :=
  ∃ bound, ∀ fuel ≥ bound, run fuel = result

namespace Settles

variable {α β : Type} {run : Nat → α} {result result' : α}

theorem const (value : α) : Settles (fun _ => value) value :=
  ⟨0, fun _ _ => rfl⟩

theorem unique (settles : Settles run result)
    (settles' : Settles run result') : result = result' := by
  obtain ⟨bound, same⟩ := settles
  obtain ⟨bound', same'⟩ := settles'
  rw [← same (max bound bound') (le_max_left _ _),
    ← same' (max bound bound') (le_max_right _ _)]

theorem map (settles : Settles run result) (change : α → β) :
    Settles (fun fuel => change (run fuel)) (change result) := by
  obtain ⟨bound, same⟩ := settles
  exact ⟨bound, fun fuel le => congrArg change (same fuel le)⟩

theorem congr {run' : Nat → α} (settles : Settles run result)
    (same : ∀ fuel, run' fuel = run fuel) : Settles run' result := by
  rwa [funext same]

/-- A loop goes on with what its first call settles on. -/
theorem foldlM_ok {σ ε : Type} {call : Nat → σ → β → Except ε σ}
    {state after : σ} {item : β} {items : List β} {result : Except ε σ}
    (settles : Settles (fun fuel => call fuel state item) (.ok after))
    (rest : Settles (fun fuel => items.foldlM (call fuel) after) result) :
    Settles (fun fuel => (item :: items).foldlM (call fuel) state)
      result := by
  obtain ⟨bound, same⟩ := settles
  obtain ⟨bound', same'⟩ := rest
  refine ⟨max bound bound', fun fuel le => ?_⟩
  have first := same fuel ((le_max_left _ _).trans le)
  dsimp only at first ⊢
  rw [List.foldlM_cons, first]
  exact same' fuel ((le_max_right _ _).trans le)

theorem foldlM_error {σ ε : Type} {call : Nat → σ → β → Except ε σ}
    {state : σ} {item : β} {error : ε}
    (settles : Settles (fun fuel => call fuel state item) (.error error))
    (items : List β) :
    Settles (fun fuel => (item :: items).foldlM (call fuel) state)
      (.error error) := by
  obtain ⟨bound, same⟩ := settles
  refine ⟨bound, fun fuel le => ?_⟩
  have first := same fuel le
  dsimp only at first ⊢
  rw [List.foldlM_cons, first]
  rfl

end Settles

/-- The TOML parser settles; on a tree or an error unless a brace stands in
place of an item. -/
theorem parse_settles (next : UInt8) (text : Bytes) :
    ∃ result, Settles (fun fuel => parse next fuel text) result ∧
      (result ≠ .error .outOfFuel ↔ NoBraceItem next text) := by
  by_cases noBrace : NoBraceItem next text
  · obtain ⟨bound, fueled⟩ :=
      ((terminates_iff_noBraceItem next text).mpr noBrace).returns
    refine ⟨parse next bound text, ⟨bound, fun fuel le => ?_⟩,
      iff_of_true fueled noBrace⟩
    rcases parse_extends next le text with empty | same
    · exact absurd empty fueled
    · exact same
  · refine ⟨.error .outOfFuel, ⟨0, fun fuel _ => ?_⟩, by simpa using noBrace⟩
    by_contra fueled
    unfold NoBraceItem at noBrace
    push Not at noBrace
    obtain ⟨cursor, comes, atBrace⟩ := noBrace
    exact fueled (diverges_of_comes comes atBrace.diverges fuel _)

/-! ## Members -/

def IsToml (member : Member) : Prop :=
  member.path = ascii "metadata.toml" ∨ member.path = ascii "manifest.toml"

/-- A member that can be read: what is consumed is a file or empty, and the
TOML parser comes back from it. -/
structure SoundMember (buffer : Bytes) (member : Member) : Prop where
  pointer : Consumed member → member.IsFile ∨ member.size = 0
  returns : IsToml member →
    NoBraceItem (byteBehind buffer member) (textOf buffer member)

/-- The metadata of a member, as it is loaded. -/
def MetaOf (buffer : Bytes) (member : Member) (pkg : PkgMeta) : Prop :=
  Returns (fun fuel => pkgMetaFromToml (byteBehind buffer member) fuel
    (textOf buffer member)) pkg

def ManifestOf (buffer : Bytes) (member : Member) (manifest : Manifest) :
    Prop :=
  Returns (fun fuel => manifestFromToml (byteBehind buffer member) fuel
    (textOf buffer member)) manifest

/-- A member that `open_cb` does not refuse. -/
def Passes (buffer : Bytes) (member : Member) : Prop :=
  member.path = ascii "metadata.toml" → ∃ pkg, MetaOf buffer member pkg

section

variable {buffer : Bytes} {member : Member} {opening : Opening}

theorem inside_iff (placed : member.Placed buffer) :
    Inside buffer member.data member.size ↔
      member.IsFile ∨ member.size = 0 := by
  rw [Inside]
  constructor
  · rintro (empty | ⟨offset, isOffset, -⟩)
    · exact .inr empty
    · left
      by_contra other
      rw [placed.other other] at isOffset
      cases isOffset
  · rintro (isFile | empty)
    · exact .inr (placed.file isFile)
    · exact .inl empty

theorem entryBytes_eq (placed : member.Placed buffer)
    (inside : Inside buffer member.data member.size) :
    entryBytes (member.entry buffer) = .ok (textOf buffer member) := by
  rw [entryBytes, textOf]
  rcases (inside_iff placed).mp inside with isFile | empty
  · obtain ⟨offset, isOffset, -⟩ := placed.file isFile
    simp [Member.entry, isOffset]
  · cases isData : member.data with
    | none => simp [Member.entry, isData, empty]
    | some offset => simp [Member.entry, isData]

theorem openMember_crash (fuel : Nat) (consumed : Consumed member)
    (outside : ¬ Inside buffer member.data member.size) :
    openMember buffer fuel opening member = .error .crash := by
  rw [openMember, if_pos ⟨consumed, outside⟩]

/-- What `open_cb` does with the metadata that it parsed. -/
def metaCall (opening : Opening) :
    Except Stop PkgMeta → Except OpenError Opening
  | .ok pkg => .ok { opening with pkg := some pkg }
  | .error stop => .error (ofStop stop)

/-- What `open_cb` does with the manifest that it parsed. -/
def manifestCall (opening : Opening) :
    Except Stop Manifest → Except OpenError Opening
  | .ok manifest => .ok { opening with manifest := some manifest }
  | .error (.error _) => .ok { opening with manifest := some [] }
  | .error .outOfFuel => .error .hang

theorem openMember_meta (placed : member.Placed buffer) (fuel : Nat)
    (isMeta : member.path = ascii "metadata.toml")
    (inside : Inside buffer member.data member.size) :
    openMember buffer fuel opening member = metaCall opening
      (pkgMetaFromToml (byteBehind buffer member) fuel
        (textOf buffer member)) := by
  have isPath : (member.entry buffer).path = ascii "metadata.toml" := isMeta
  rw [openMember, if_neg (fun both => both.2 inside), openCb, if_pos isPath,
    entryBytes_eq placed inside]
  change (match pkgMetaFromToml _ fuel (textOf buffer member) with
    | .ok pkg => _ | .error stop => _) = _
  cases pkgMetaFromToml (byteBehind buffer member) fuel
    (textOf buffer member) <;> rfl

theorem openMember_manifest (placed : member.Placed buffer) (fuel : Nat)
    (isManifest : member.path = ascii "manifest.toml")
    (inside : Inside buffer member.data member.size) :
    openMember buffer fuel opening member = manifestCall opening
      (manifestFromToml (byteBehind buffer member) fuel
        (textOf buffer member)) := by
  have isPath : (member.entry buffer).path = ascii "manifest.toml" :=
    isManifest
  have notMeta : ¬ (member.entry buffer).path = ascii "metadata.toml" := by
    rw [isPath]
    decide
  rw [openMember, if_neg (fun both => both.2 inside), openCb,
    if_neg notMeta, if_pos isPath, entryBytes_eq placed inside]
  change (match manifestFromToml _ fuel (textOf buffer member) with
    | .ok manifest => _ | .error (.error _) => _ | .error .outOfFuel => _) = _
  cases manifestFromToml (byteBehind buffer member) fuel
    (textOf buffer member) with
  | ok manifest => rfl
  | error stop => cases stop <;> rfl

/-- What `open_cb` keeps of a member that is no TOML file. -/
theorem openMember_other (opening : Opening)
    (placed : member.Placed buffer)
    (notToml : ¬ IsToml member)
    (inside : Consumed member → Inside buffer member.data member.size) :
    ∃ after : Opening, after.pkg = opening.pkg ∧
      after.manifest = opening.manifest ∧
      ∀ fuel, openMember buffer fuel opening member = .ok after := by
  have notMeta : ¬ (member.entry buffer).path = ascii "metadata.toml" :=
    fun isMeta => notToml (.inl isMeta)
  have notManifest : ¬ (member.entry buffer).path = ascii "manifest.toml" :=
    fun isManifest => notToml (.inr isManifest)
  simp only [openMember, if_neg (fun both : Consumed member ∧
    ¬ Inside buffer member.data member.size => both.2 (inside both.1)),
    openCb, if_neg notMeta, if_neg notManifest]
  by_cases isPayload : (member.entry buffer).path = ascii "files.tar.zst"
  · rw [if_pos isPayload, entryBytes_eq placed (inside (.inr (.inr isPayload)))]
    exact ⟨{ opening with
      payload := opening.payload ++ textOf buffer member }, rfl, rfl,
      fun _ => rfl⟩
  rw [if_neg isPayload]
  split
  · exact ⟨{ opening with
      scripts := opening.scripts ++ [(member.entry buffer).path.drop 8] },
      rfl, rfl, fun _ => rfl⟩
  · exact ⟨opening, rfl, rfl, fun _ => rfl⟩

end

/-! ## Parsed members -/

/-- What is loaded of a text settles: it is a value, an error, or the parser
hangs. -/
theorem load_settles {α : Type} {next : UInt8} {text : Bytes}
    {load : Nat → Except Stop α} {then' : Table → Except Stop α}
    (isLoad : ∀ fuel, load fuel = parse next fuel text >>= then')
    (decided : ∀ root, then' root ≠ .error .outOfFuel) :
    (NoBraceItem next text ∧ ((∃ value, Returns load value) ∨
        ∃ message, Settles load (.error (.error message)))) ∨
      ¬ NoBraceItem next text ∧ Settles load (.error .outOfFuel) := by
  obtain ⟨result, settles, fueled⟩ := parse_settles next text
  have loads : Settles load (result >>= then') :=
    (settles.map (· >>= then')).congr isLoad
  cases result with
  | ok root =>
      refine .inl ⟨fueled.mp (by simp), ?_⟩
      change Settles load (then' root) at loads
      have isDecided := decided root
      cases ends : then' root with
      | ok value =>
          rw [ends] at loads
          exact .inl ⟨value, loads⟩
      | error stop =>
          rw [ends] at loads isDecided
          cases stop with
          | error message => exact .inr ⟨message, loads⟩
          | outOfFuel => exact absurd rfl isDecided
  | error stop =>
      cases stop with
      | error message =>
          exact .inl ⟨fueled.mp (by simp), .inr ⟨message, loads⟩⟩
      | outOfFuel =>
          exact .inr ⟨fun noBrace => fueled.mpr noBrace rfl, loads⟩

theorem readHooks_decided (table : Table) (hooks : Hook → Option Bytes) :
    readHooks table hooks ≠ .error .outOfFuel := by
  induction table generalizing hooks with
  | nil => simp [readHooks]
  | cons field rest induction =>
      obtain ⟨key, node⟩ := field
      rw [readHooks]
      split
      · exact induction _
      · simp

theorem meta_settles (next : UInt8) (text : Bytes) :
    (NoBraceItem next text ∧
      ((∃ pkg, Returns (fun fuel => pkgMetaFromToml next fuel text) pkg) ∨
        ∃ message, Settles (fun fuel => pkgMetaFromToml next fuel text)
          (.error (.error message)))) ∨
      ¬ NoBraceItem next text ∧
        Settles (fun fuel => pkgMetaFromToml next fuel text)
          (.error .outOfFuel) := by
  refine load_settles (fun fuel => rfl) ?_
  intro root
  have decided := readHooks_decided (hooksTable root) fun _ => none
  cases isHooks : readHooks (hooksTable root) fun _ => none with
  | ok hooks => simp [bind, Except.bind, pure, Except.pure]
  | error stop =>
      rw [isHooks] at decided
      simpa [isHooks, bind, Except.bind] using decided

theorem manifest_settles (next : UInt8) (text : Bytes) :
    (NoBraceItem next text ∧
      ((∃ manifest,
        Returns (fun fuel => manifestFromToml next fuel text) manifest) ∨
        ∃ message, Settles (fun fuel => manifestFromToml next fuel text)
          (.error (.error message)))) ∨
      ¬ NoBraceItem next text ∧
        Settles (fun fuel => manifestFromToml next fuel text)
          (.error .outOfFuel) := by
  refine load_settles (fun fuel => rfl) ?_
  intro root
  split
  · simp [pure, Except.pure]
  · simp [pure, Except.pure]

/-! ## Outcomes -/

/-- What a member that is not refused adds to an opening. -/
structure Collected (buffer : Bytes) (member : Member)
    (before after : Opening) : Prop where
  pkg : member.path = ascii "metadata.toml" →
    ∃ pkg, MetaOf buffer member pkg ∧ after.pkg = some pkg
  keepsPkg : member.path ≠ ascii "metadata.toml" → after.pkg = before.pkg
  manifest : member.path = ascii "manifest.toml" →
    ∃ manifest, after.manifest = some manifest ∧
      ∀ other, ManifestOf buffer member other → other = manifest
  keepsManifest : member.path ≠ ascii "manifest.toml" →
    after.manifest = before.manifest

/-- How a call of `open_cb` ends. -/
inductive Outcome (buffer : Bytes) (member : Member) (before : Opening) :
    Except OpenError Opening → Prop where
  | unsound {error : OpenError} (unsound : ¬ SoundMember buffer member)
      (bad : error = .crash ∨ error = .hang) :
      Outcome buffer member before (.error error)
  | refused {message : Bytes} (sound : SoundMember buffer member)
      (refused : ¬ Passes buffer member) :
      Outcome buffer member before (.error (.format message))
  | passed {after : Opening} (sound : SoundMember buffer member)
      (passes : Passes buffer member)
      (collected : Collected buffer member before after) :
      Outcome buffer member before (.ok after)

theorem returns_unique {α : Type} {run : Nat → Except Stop α}
    {value other : α} (returns : Returns run value)
    (returns' : Returns run other) : value = other :=
  Except.ok.inj (Settles.unique returns returns')

theorem openMember_outcome {buffer : Bytes} {member : Member}
    (placed : member.Placed buffer) (opening : Opening) : ∃ result,
    Settles (fun fuel => openMember buffer fuel opening member) result ∧
      Outcome buffer member opening result := by
  have isInside := inside_iff placed
  by_cases outside : Consumed member ∧
      ¬ Inside buffer member.data member.size
  · have crash := fun fuel => @openMember_crash buffer member opening fuel
      outside.1 outside.2
    refine ⟨.error .crash, (Settles.const _).congr crash, ?_⟩
    refine .unsound (fun sound => outside.2 ?_) (.inl rfl)
    exact isInside.mpr (sound.pointer outside.1)
  have pointer : Consumed member → Inside buffer member.data member.size :=
    fun consumed => not_not.mp fun out => outside ⟨consumed, out⟩
  have isSound : (IsToml member →
      NoBraceItem (byteBehind buffer member) (textOf buffer member)) →
      SoundMember buffer member :=
    fun returns => ⟨fun consumed => isInside.mp (pointer consumed), returns⟩
  have differ : ascii "metadata.toml" ≠ ascii "manifest.toml" := by decide
  by_cases isMeta : member.path = ascii "metadata.toml"
  · have call := fun fuel => @openMember_meta buffer member opening placed
      fuel isMeta (pointer (.inl isMeta))
    rcases meta_settles (byteBehind buffer member) (textOf buffer member) with
      ⟨noBrace, ⟨pkg, returns⟩ | ⟨message, settles⟩⟩ | ⟨brace, settles⟩
    · refine ⟨_, (Settles.map returns (metaCall opening)).congr call, ?_⟩
      refine .passed (isSound fun _ => noBrace) (fun _ => ⟨pkg, returns⟩) ?_
      refine ⟨fun _ => ⟨pkg, returns, rfl⟩, fun other => absurd isMeta other,
        fun isManifest => ?_, fun _ => rfl⟩
      exact absurd (isMeta.symm.trans isManifest) differ
    · refine ⟨_, (settles.map (metaCall opening)).congr call, ?_⟩
      refine .refused (isSound fun _ => noBrace) fun passes => ?_
      obtain ⟨pkg, returns⟩ := passes isMeta
      cases Settles.unique settles returns
    · refine ⟨_, (settles.map (metaCall opening)).congr call, ?_⟩
      exact .unsound (fun sound => brace (sound.returns (.inl isMeta)))
        (.inr rfl)
  by_cases isManifest : member.path = ascii "manifest.toml"
  · have call := fun fuel => @openMember_manifest buffer member opening placed
      fuel isManifest (pointer (.inr (.inl isManifest)))
    have passes : Passes buffer member := fun isMeta' =>
      absurd isMeta' isMeta
    rcases manifest_settles (byteBehind buffer member)
        (textOf buffer member) with
      ⟨noBrace, ⟨manifest, returns⟩ | ⟨message, settles⟩⟩ | ⟨brace, settles⟩
    · refine ⟨_, (Settles.map returns (manifestCall opening)).congr call, ?_⟩
      refine .passed (isSound fun _ => noBrace) passes ?_
      exact ⟨fun isMeta' => absurd isMeta' isMeta, fun _ => rfl,
        fun _ => ⟨manifest, rfl, fun other isOther =>
          returns_unique isOther returns⟩,
        fun other => absurd isManifest other⟩
    · refine ⟨_, (settles.map (manifestCall opening)).congr call, ?_⟩
      refine .passed (isSound fun _ => noBrace) passes ?_
      refine ⟨fun isMeta' => absurd isMeta' isMeta, fun _ => rfl,
        fun _ => ⟨[], rfl, fun other isOther => ?_⟩,
        fun other => absurd isManifest other⟩
      cases Settles.unique settles isOther
    · refine ⟨_, (settles.map (manifestCall opening)).congr call, ?_⟩
      exact .unsound (fun sound => brace (sound.returns (.inr isManifest)))
        (.inr rfl)
  · have notToml : ¬ IsToml member := fun isToml =>
      isToml.elim isMeta isManifest
    obtain ⟨after, samePkg, sameManifest, call⟩ :=
      openMember_other opening placed notToml pointer
    refine ⟨.ok after, (Settles.const _).congr call, ?_⟩
    refine .passed (isSound fun isToml => absurd isToml notToml)
      (fun isMeta' => absurd isMeta' isMeta) ?_
    exact ⟨fun isMeta' => absurd isMeta' isMeta, fun _ => samePkg,
      fun isManifest' => absurd isManifest' isManifest, fun _ => sameManifest⟩

end SaltOS.Archive
