import SaltOS.Repo.Sync
import SaltOS.Toml.Fuel

/-!
# What a sync leaves

A sync that fails has only touched the files that it fetches to.  One that
succeeds has installed what was fetched and signed; its entries are what they
should be unless each problem is too long to be printed, for an entry is
refused only when there is a message about it.
-/

namespace SaltOS.Sync

open Lib Repo Toml

/-! ## Entries -/

/-- An entry that can be installed from. -/
structure Complete (entry : Entry) : Prop where
  name : entry.name ≠ []
  version : entry.version ≠ []
  filename : entry.filename ≠ []
  bare : 47 ∉ entry.filename ∧ entry.filename ≠ ascii ".."
  sha256 : IsHex entry.sha256

theorem entryProblem_eq_none_iff {position : Nat} {entry : Entry} :
    entryProblem position entry = none ↔ Complete entry := by
  have hash : sha256HexValid entry.sha256 = true → entry.sha256 ≠ [] := by
    intro valid empty
    rw [empty] at valid
    cases valid
  constructor
  · intro noProblem
    simp only [entryProblem, ite_eq_iff, reduceCtorEq, and_false, false_or,
      and_true, not_or, Bool.not_eq_true, Bool.not_eq_false] at noProblem
    obtain ⟨name, version, filename, -, valid, bare⟩ := noProblem
    exact ⟨name, version, filename, bare, sha256HexValid_iff.mp valid⟩
  · intro complete
    have valid := sha256HexValid_iff.mpr complete.sha256
    simp [entryProblem, complete.name, complete.version, complete.filename,
      complete.bare.1, complete.bare.2, hash valid, valid]

theorem entryProblem_ne_nil {position : Nat} {entry : Entry}
    {problem : Bytes} (isProblem : entryProblem position entry = some problem) :
    problem ≠ [] := by
  rintro rfl
  simp [entryProblem, ite_eq_iff, ascii] at isProblem

/-- An index passes when every problem is too long to be printed. -/
theorem indexVerify_eq_nil_iff {index : Index} :
    indexVerify index = [] ↔ ∀ position entry,
      index.items[position]? = some entry → ∀ problem,
        entryProblem position entry = some problem →
          2 ^ 31 ≤ problem.length := by
  have silent : ∀ position entry, bufPrintf
      ((entryProblem position entry).getD []) = [] ↔ ∀ problem,
        entryProblem position entry = some problem →
          2 ^ 31 ≤ problem.length := by
    intro position entry
    cases isProblem : entryProblem position entry with
    | none => simp [bufPrintf]
    | some problem =>
        have nonempty := entryProblem_ne_nil isProblem
        simp [bufPrintf, nonempty]
  rw [indexVerify, List.filter_eq_nil_iff]
  simp only [List.mem_mapIdx, decide_eq_true_eq, not_not]
  constructor
  · intro passes position entry isEntry
    obtain ⟨inside, rfl⟩ := List.getElem?_eq_some_iff.mp isEntry
    exact (silent position _).mp (passes _ ⟨position, inside, rfl⟩)
  · rintro long _ ⟨position, inside, rfl⟩
    exact (silent position _).mpr
      (long position _ (List.getElem?_eq_getElem inside))

/-- If an entry has a problem, then some problem can be printed. -/
def Reported (index : Index) : Prop :=
  (∃ entry ∈ index.items, ¬ Complete entry) →
    ∃ position entry problem, index.items[position]? = some entry ∧
      entryProblem position entry = some problem ∧ problem.length < 2 ^ 31

theorem complete_of_reported {index : Index} (reported : Reported index)
    (passes : indexVerify index = []) :
    ∀ entry ∈ index.items, Complete entry := by
  intro entry member
  by_contra incomplete
  obtain ⟨position, other, problem, isEntry, isProblem, short⟩ :=
    reported ⟨entry, member, incomplete⟩
  have long := indexVerify_eq_nil_iff.mp passes position other isEntry problem
    isProblem
  omega

theorem reported_of_complete {index : Index}
    (complete : indexVerify index = [] →
      ∀ entry ∈ index.items, Complete entry) : Reported index := by
  rintro ⟨entry, member, incomplete⟩
  by_contra unreported
  apply incomplete
  apply complete _ entry member
  rw [indexVerify_eq_nil_iff]
  intro position other isEntry problem isProblem
  by_contra short
  exact unreported ⟨position, other, problem, isEntry, isProblem, by omega⟩

/-! ## Steps -/

/-- Some files are as they were. -/
def Agree (touched : List Bytes) (before after : State) : Prop :=
  ∀ path, path ∉ touched → after.files path = before.files path

theorem Agree.trans {touched : List Bytes} {before middle after : State}
    (first : Agree touched before middle) (second : Agree touched middle after) :
    Agree touched before after :=
  fun path apart => (second path apart).trans (first path apart)

theorem Agree.of_files {touched : List Bytes} {before after : State}
    (same : after.files = before.files) : Agree touched before after :=
  fun path _ => congrFun same path

theorem agree_update {touched : List Bytes} {before : State} {path : Bytes}
    (member : path ∈ touched) (content : Option Bytes) :
    Agree touched before { before with
      files := Function.update before.files path content } := by
  intro other apart
  have differ : other ≠ path := by
    rintro rfl
    exact apart member
  exact Function.update_of_ne differ content before.files

section

variable {env : Env} {root : Bytes} {conf : RepoConf} {state : State}

/-- The files that are fetched to. -/
def newPaths (env : Env) (root : Bytes) : List Bytes :=
  [newPath env root, newSigPath env root]

theorem say_ends (line : Bytes) {bad : Stopped → State → Prop} :
    Ends (say line state) (fun _ after => after.files = state.files) bad :=
  Ends.modify rfl

theorem unlink_ends {path : Bytes} (member : path ∈ newPaths env root)
    {bad : Stopped → State → Prop} :
    Ends (unlink path state)
      (fun _ after => Agree (newPaths env root) state after) bad :=
  Ends.modify (agree_update member none)

theorem giveUp_ends {α : Type} (lines : List Bytes)
    {good : α → State → Prop} :
    Ends ((giveUp env root lines : SyncIo α) state) good
      (fun _ after => Agree (newPaths env root) state after) := by
  apply Ends.through (fun _ after => after.files = state.files)
  · refine Ends.forM_mem ?_ ?_
    · rfl
    · intro line _ before same
      exact (say_ends line).mono (fun _ _ files => files.trans same)
        fun _ _ agree => agree
  · intro _ printed same
    have start : Agree (newPaths env root) state printed := .of_files same
    apply Ends.through fun _ after => Agree (newPaths env root) state after
    · exact (unlink_ends (by simp [newPaths])).mono
        (fun _ _ more => start.trans more) fun _ _ agree => agree
    · intro _ between agree
      apply Ends.through fun _ after => Agree (newPaths env root) state after
      · exact (unlink_ends (by simp [newPaths])).mono
          (fun _ _ more => agree.trans more) fun _ _ agree => agree
      · intro _ last agree
        exact Ends.throw agree

theorem fetchIndex_ends : Ends (fetchIndex env root conf state)
    (fun _ after => ∃ body,
      env.fetch (repoUrl env conf (ascii "index.toml")) = .ok body ∧
      after.files = Function.update state.files (newPath env root) (some body))
    (fun _ after => after.files = state.files ∧ ∀ body,
      env.fetch (repoUrl env conf (ascii "index.toml")) ≠ .ok body) := by
  unfold fetchIndex
  cases fetched : env.fetch (repoUrl env conf (ascii "index.toml")) with
  | ok body => exact Ends.modify ⟨body, rfl, rfl⟩
  | error message =>
      apply Ends.bind (say_ends _)
      intro _ after same
      exact Ends.throw ⟨same, by simp⟩

theorem fetchSig_ends {bad : Stopped → State → Prop} :
    Ends (fetchSig env root conf state)
      (fun haveSig after => if haveSig then ∃ sig,
          env.fetch (repoUrl env conf (ascii "index.toml.sig")) = .ok sig ∧
          after.files = Function.update state.files (newSigPath env root)
            (some sig)
        else after.files = state.files ∧ ∀ sig,
          env.fetch (repoUrl env conf (ascii "index.toml.sig")) ≠ .ok sig)
      bad := by
  unfold fetchSig
  cases fetched : env.fetch (repoUrl env conf (ascii "index.toml.sig")) with
  | error message => exact Ends.pure ⟨rfl, by simp⟩
  | ok sig =>
      apply Ends.through fun _ after => after.files =
        Function.update state.files (newSigPath env root) (some sig)
      · exact Ends.modify rfl
      · intro _ after isAfter
        exact Ends.pure ⟨sig, rfl, isAfter⟩

section

variable {key body sig : Bytes} (hasKey : key ≠ [])

include hasKey

theorem checkSignature_unsigned :
    Ends (checkSignature env root key false state) (fun _ _ => False)
      (fun _ after => Agree (newPaths env root) state after) := by
  unfold checkSignature
  rw [if_neg hasKey, if_pos (by simp)]
  have isNew : newPath env root ∈ newPaths env root := List.mem_cons_self
  apply Ends.bind (say_ends _)
  intro _ printed same
  apply Ends.bind (unlink_ends isNew)
  intro _ after agree
  exact Ends.throw ((Agree.of_files same).trans agree)

theorem checkSignature_signed
    (isBody : state.files (newPath env root) = some body)
    (isSig : state.files (newSigPath env root) = some sig) :
    Ends (checkSignature env root key true state)
      (fun _ after => after.files = state.files ∧
        verifyBuf env body (cstr (trimSignature sig)) (cstr key) = .ok ())
      (fun _ after => Agree (newPaths env root) state after ∧
        verifyBuf env body (cstr (trimSignature sig)) (cstr key) ≠
          .ok ()) := by
  have isVerified : verifyFile env state.files (newPath env root)
      (cstr (trimSignature sig)) (cstr key) =
        verifyBuf env body (cstr (trimSignature sig)) (cstr key) := by
    rw [verifyFile, isBody]
  unfold checkSignature
  rw [if_neg hasKey, if_neg (by simp)]
  apply Ends.bindOk rfl
  rw [isSig]
  dsimp only
  rw [isVerified]
  cases verifyBuf env body (cstr (trimSignature sig)) (cstr key) with
  | ok checked =>
      apply Ends.mono (say_ends _)
      · intro _ after same
        exact ⟨same, rfl⟩
      · intro _ _ never
        exact never
  | error message =>
      apply Ends.mono (giveUp_ends _)
      · intro _ _ never
        exact never
      · intro _ after agree
        exact ⟨agree, by simp⟩

end

theorem loadIndex_ends {body : Bytes} (fuel : Nat)
    (isBody : state.files (newPath env root) = some body) :
    Ends (loadIndex env root fuel state)
      (fun index after => after = state ∧
        indexLoad 0 fuel body = .ok index)
      (fun _ after => Agree (newPaths env root) state after ∧
        ∀ index, indexLoad 0 fuel body ≠ .ok index) := by
  unfold loadIndex
  apply Ends.bindOk rfl
  extract_lets
  rw [isBody]
  dsimp only
  cases indexLoad 0 fuel body with
  | ok index => exact Ends.pure ⟨rfl, rfl⟩
  | error stop =>
      cases stop with
      | outOfFuel => exact Ends.throw ⟨.of_files rfl, by simp⟩
      | error message =>
          apply Ends.mono (giveUp_ends _)
          · intro _ _ never
            exact never
          · intro _ after agree
            exact ⟨agree, by simp⟩

theorem checkEntries_ends (index : Index) :
    Ends (checkEntries env root index state)
      (fun _ after => after = state ∧ indexVerify index = [])
      (fun _ after => Agree (newPaths env root) state after ∧
        indexVerify index ≠ []) := by
  unfold checkEntries
  apply Ends.ite
  · intro noProblem
    exact Ends.pure ⟨rfl, noProblem⟩
  · intro problem
    apply Ends.mono (giveUp_ends _)
    · intro _ _ never
      exact never
    · intro _ after agree
      exact ⟨agree, problem⟩

/-! ## Installing -/

/-- All files that a sync touches. -/
def syncPaths (env : Env) (root : Bytes) : List Bytes :=
  [indexPath env root, sigPath env root] ++ newPaths env root

theorem syncPaths_nodup (env : Env) (root : Bytes) :
    (syncPaths env root).Nodup := by
  have differ : ∀ first second : Bytes, first ≠ second →
      indexPath env root ++ first ≠ indexPath env root ++ second := by
    intro first second other same
    exact other (List.append_cancel_left same)
  have index : indexPath env root = indexPath env root ++ [] :=
    (List.append_nil _).symm
  have names : ([[], ascii ".sig", ascii ".new",
      ascii ".sig" ++ ascii ".new"] : List Bytes).Nodup := by decide
  have whole : syncPaths env root = ([[], ascii ".sig", ascii ".new",
      ascii ".sig" ++ ascii ".new"] : List Bytes).map
        (indexPath env root ++ ·) := by
    simp [syncPaths, newPaths, sigPath, newPath, newSigPath]
  rw [whole]
  exact names.map fun _ _ => List.append_cancel_left

theorem rename_ok {source target content : Bytes}
    (renames : env.renameFails target = false)
    (isSource : state.files source = some content) :
    rename env source target state = .ok true
      ⟨Function.update (Function.update state.files source none) target
        (some content), state.printed⟩ := by
  refine (bind_run rfl).trans ?_
  rw [isSource]
  dsimp only
  rw [if_neg (by simp [renames])]
  rfl

theorem installIndex_ends {body sig : Bytes} {index : Index}
    (renames : ∀ path, env.renameFails path = false)
    (isBody : state.files (newPath env root) = some body)
    (isSig : state.files (newSigPath env root) = some sig)
    {bad : Stopped → State → Prop} :
    Ends (installIndex env root conf true index state)
      (fun _ after => after.files (indexPath env root) = some body ∧
        after.files (sigPath env root) = some sig ∧
        Agree (syncPaths env root) state after) bad := by
  have distinct := syncPaths_nodup env root
  simp only [syncPaths, newPaths, List.cons_append, List.nil_append,
    List.nodup_cons, List.mem_cons, List.not_mem_nil, not_or, or_false]
    at distinct
  obtain ⟨⟨indexSig, indexNew, indexNewSig⟩, ⟨sigNew, sigNewSig⟩,
    newNewSig, -⟩ := distinct
  have isMoved := rename_ok (renames (indexPath env root)) isBody
  apply Ends.bindOk isMoved
  rw [if_neg (by simp), if_pos rfl]
  generalize isFiles : Function.update (Function.update state.files
    (newPath env root) none) (indexPath env root) (some body) = files
  have stillSig : files (newSigPath env root) = some sig := by
    rw [← isFiles, Function.update_of_ne (Ne.symm indexNewSig),
      Function.update_of_ne (Ne.symm newNewSig), isSig]
  have installed : files (indexPath env root) = some body := by
    rw [← isFiles, Function.update_self]
  have isBoth := @rename_ok env ⟨files, state.printed⟩ _ _ _
    (renames (sigPath env root)) stillSig
  have discarded : (discard (rename env (newSigPath env root)
      (sigPath env root)) : SyncIo Unit) ⟨files, state.printed⟩ = .ok ()
        ⟨Function.update (Function.update files (newSigPath env root) none)
          (sigPath env root) (some sig), state.printed⟩ := by
    exact bind_run isBoth
  apply Ends.bindOk discarded
  apply Ends.mono (say_ends _)
  · intro _ after same
    dsimp only at same
    rw [same]
    refine ⟨?_, ?_, ?_⟩
    · rw [Function.update_of_ne indexSig, Function.update_of_ne indexNewSig,
        installed]
    · rw [Function.update_self]
    · intro path apart
      simp only [syncPaths, newPaths, List.cons_append, List.nil_append,
        List.mem_cons, List.not_mem_nil, not_or, or_false] at apart
      rw [same, Function.update_of_ne apart.2.1, Function.update_of_ne
        apart.2.2.2, ← isFiles, Function.update_of_ne apart.1,
        Function.update_of_ne apart.2.2.1]
  · intro _ _ never
    exact never

/-! ## A whole sync -/

/-- The key is a key, and no file that a sync touches. -/
structure Trusted (env : Env) (root : Bytes) (conf : RepoConf)
    (before : State) : Prop where
  key : readKey before.files conf.key ≠ []
  apart : conf.key ∉ syncPaths env root

/-- The repository answers with an index and a signature of it. -/
structure Offers (env : Env) (conf : RepoConf) (key body sig : Bytes) :
    Prop where
  source : conf.source ≠ []
  isBody : env.fetch (repoUrl env conf (ascii "index.toml")) = .ok body
  isSig : env.fetch (repoUrl env conf (ascii "index.toml.sig")) = .ok sig
  signs : verifyBuf env body (cstr (trimSignature sig)) (cstr key) = .ok ()

theorem readKey_congr {files others : Bytes → Option Bytes} {key : Bytes}
    (same : files key = others key) : readKey files key = readKey others key := by
  rw [readKey, readKey, same]

/-- What a sync does behind the downloads. -/
theorem checked_ends {key body sig : Bytes} (fuel : Nat) (hasKey : key ≠ [])
    (renames : ∀ path, env.renameFails path = false)
    (isBody : state.files (newPath env root) = some body)
    (isSig : state.files (newSigPath env root) = some sig) :
    Ends ((do
        checkSignature env root key true
        let index ← loadIndex env root fuel
        checkEntries env root index
        installIndex env root conf true index) state)
      (fun _ after =>
        verifyBuf env body (cstr (trimSignature sig)) (cstr key) = .ok () ∧
        (∃ index, indexLoad 0 fuel body = .ok index ∧
          indexVerify index = []) ∧
        after.files (indexPath env root) = some body ∧
        after.files (sigPath env root) = some sig ∧
        Agree (syncPaths env root) state after)
      (fun _ after => Agree (newPaths env root) state after ∧
        (verifyBuf env body (cstr (trimSignature sig)) (cstr key) = .ok () →
          ∀ index, indexLoad 0 fuel body = .ok index →
            indexVerify index ≠ [])) := by
  apply Ends.bind ((checkSignature_signed hasKey isBody isSig).mono
    (fun _ _ checked => checked)
    fun _ _ failed => ⟨failed.1, fun signs => absurd signs failed.2⟩)
  rintro _ checked ⟨sameChecked, signs⟩
  have checkedBody : checked.files (newPath env root) = some body := by
    rw [sameChecked, isBody]
  have checkedSig : checked.files (newSigPath env root) = some sig := by
    rw [sameChecked, isSig]
  have fromStart : ∀ {touched after}, Agree touched checked after →
      Agree touched state after :=
    fun agree => (Agree.of_files sameChecked).trans agree
  apply Ends.bind ((loadIndex_ends fuel checkedBody).mono
    (fun _ _ loaded => loaded)
    fun _ _ failed => ⟨fromStart failed.1, fun _ index isIndex =>
      absurd isIndex (failed.2 index)⟩)
  rintro index _ ⟨rfl, loaded⟩
  have only : ∀ {other}, indexLoad 0 fuel body = .ok other →
      index = other := fun isOther => Except.ok.inj (loaded.symm.trans isOther)
  apply Ends.bind ((checkEntries_ends index).mono (fun _ _ passed => passed)
    fun _ _ failed => ⟨fromStart failed.1, fun _ other isOther =>
      only isOther ▸ failed.2⟩)
  rintro _ _ ⟨rfl, passes⟩
  apply (installIndex_ends renames checkedBody checkedSig).mono
  · rintro _ after ⟨installed, installedSig, agree⟩
    exact ⟨signs, ⟨index, loaded, passes⟩, installed, installedSig,
      fromStart agree⟩
  · intro _ _ never
    exact never

/-- A sync installs what is offered, or touches nothing but its own files and
has a reason to fail. -/
theorem cmdSync_ends (fuel : Nat)
    (renames : ∀ path, env.renameFails path = false)
    (trusted : Trusted env root conf state) :
    Ends (cmdSync env root conf fuel state)
      (fun _ after => ∃ body sig index,
        Offers env conf (readKey state.files conf.key) body sig ∧
        indexLoad 0 fuel body = .ok index ∧ indexVerify index = [] ∧
        after.files (indexPath env root) = some body ∧
        after.files (sigPath env root) = some sig ∧
        Agree (syncPaths env root) state after)
      (fun _ after => Agree (newPaths env root) state after ∧
        ∀ body sig index,
          Offers env conf (readKey state.files conf.key) body sig →
          indexLoad 0 fuel body = .ok index → indexVerify index ≠ []) := by
  have keyApart : conf.key ≠ newPath env root ∧
      conf.key ≠ newSigPath env root := by
    have apart := trusted.apart
    simp only [syncPaths, newPaths, List.cons_append, List.nil_append,
      List.mem_cons, List.not_mem_nil, not_or, or_false] at apart
    exact apart.2.2
  have newNewSig : newPath env root ≠ newSigPath env root := by
    have distinct := syncPaths_nodup env root
    simp only [syncPaths, newPaths, List.cons_append, List.nil_append,
      List.nodup_cons, List.mem_cons, List.not_mem_nil, not_or, or_false]
      at distinct
    exact distinct.2.2.1
  unfold cmdSync
  apply Ends.ite
  · intro noSource
    apply Ends.bind (say_ends _)
    intro _ after same
    exact Ends.throw ⟨.of_files same, fun _ _ _ offers =>
      absurd noSource offers.source⟩
  · intro hasSource
    apply Ends.bind (fetchIndex_ends.mono (fun _ _ fetched => fetched) ?_)
    · rintro _ fetched ⟨body, isBody, bodyFiles⟩
      have newAgree : Agree (newPaths env root) state fetched := by
        intro path apart
        rw [bodyFiles]
        exact agree_update List.mem_cons_self _ path apart
      apply Ends.bind fetchSig_ends
      intro haveSig signed isSigned
      have newSigned : Agree (newPaths env root) state signed := by
        refine newAgree.trans ?_
        cases haveSig with
        | false => exact .of_files isSigned.1
        | true =>
            obtain ⟨sig, -, sigFiles⟩ := isSigned
            intro path apart
            rw [sigFiles]
            exact agree_update (List.mem_cons_of_mem _ List.mem_cons_self) _
              path apart
      have sameKey : readKey signed.files conf.key =
          readKey state.files conf.key :=
        readKey_congr (newSigned conf.key (by simp [newPaths, keyApart]))
      apply Ends.bindOk rfl
      rw [sameKey]
      cases haveSig with
      | false =>
          apply Ends.bind ((checkSignature_unsigned trusted.key).mono
            (fun _ _ never => never) fun _ _ agree =>
              ⟨newSigned.trans agree, fun _ sig _ offers =>
                absurd offers.isSig (isSigned.2 sig)⟩)
          intro _ _ never
          exact never.elim
      | true =>
          obtain ⟨sig, isSig, sigFiles⟩ := isSigned
          have signedBody : signed.files (newPath env root) = some body := by
            rw [sigFiles, Function.update_of_ne newNewSig, bodyFiles,
              Function.update_self]
          have signedSig : signed.files (newSigPath env root) = some sig := by
            rw [sigFiles, Function.update_self]
          have only : ∀ {otherBody otherSig}, Offers env conf
              (readKey state.files conf.key) otherBody otherSig →
                otherBody = body ∧ otherSig = sig := fun offers =>
            ⟨Except.ok.inj (offers.isBody.symm.trans isBody),
              Except.ok.inj (offers.isSig.symm.trans isSig)⟩
          apply (checked_ends fuel trusted.key renames signedBody
            signedSig).mono
          · rintro _ after ⟨signs, ⟨index, loaded, passes⟩, installed,
              installedSig, agree⟩
            refine ⟨body, sig, index, ⟨hasSource, isBody, isSig, signs⟩,
              loaded, passes, installed, installedSig, ?_⟩
            intro path apart
            rw [agree path apart]
            exact newSigned path fun member => apart
              (List.mem_append_right _ member)
          · rintro _ after ⟨agree, refused⟩
            refine ⟨newSigned.trans agree, fun otherBody otherSig index
              offers loaded => ?_⟩
            obtain ⟨rfl, rfl⟩ := only offers
            exact refused offers.signs index loaded
    · intro _ after failed
      exact ⟨.of_files failed.1, fun body _ _ offers =>
        absurd offers.isBody (failed.2 body)⟩

/-! ## What a sync promises -/

/-- A printed signature of some data verifies under a printed key. -/
def Signs (env : Env) (key sig data : Bytes) : Prop :=
  ∃ publicKey signature, hexDecode 32 (cstr key) = some publicKey ∧
    hexDecode 64 (cstr (trimSignature sig)) = some signature ∧
    env.verifyDetached signature data publicKey = true

/-- A sync that returns zero has installed an index that was fetched, signed
and checked, together with its signature. -/
structure Synced (env : Env) (root : Bytes) (conf : RepoConf)
    (before after : State) (body sig : Bytes) (index : Index) : Prop where
  fetched : env.fetch (repoUrl env conf (ascii "index.toml")) = .ok body
  installed : after.files (indexPath env root) = some body
  fetchedSig : env.fetch (repoUrl env conf (ascii "index.toml.sig")) = .ok sig
  installedSig : after.files (sigPath env root) = some sig
  signs : Signs env (readKey before.files conf.key) sig body
  parses : Returns (fun fuel => indexLoad 0 fuel body) index
  complete : ∀ entry ∈ index.items, Complete entry
  signedOk : indexSignedOk env root conf after.files = true

/-- A sync that fails changes nothing, and one that succeeds installs only
verified data. -/
structure SyncSafe (env : Env) (root : Bytes) (conf : RepoConf)
    (before : State) : Prop where
  ends : ∀ fuel, Ends (cmdSync env root conf fuel before)
    (fun _ after => ∃ body sig index,
      Synced env root conf before after body sig index)
    (fun stopped after => stopped = .failed →
      after.files (indexPath env root) = before.files (indexPath env root) ∧
      after.files (sigPath env root) = before.files (sigPath env root))

theorem signs_of_verifyBuf {key sig data : Bytes}
    (verified : verifyBuf env data (cstr (trimSignature sig)) (cstr key) =
      .ok ()) : Signs env key sig data := by
  unfold verifyBuf at verified
  split at verified
  · cases verified
  · split at verified
    · cases verified
    · rename_i publicKey isKey
      split at verified
      · cases verified
      · rename_i signature isSignature
        split at verified
        · rename_i accepted
          exact ⟨publicKey, signature, isKey, isSignature, accepted⟩
        · cases verified

theorem indexLoad_extends {fuel more : Nat} (le : fuel ≤ more)
    (text : Bytes) :
    Extends (indexLoad 0 fuel text) (indexLoad 0 more text) :=
  .bind (parse_extends 0 le text) fun _ => .refl _

theorem indexLoad_returns {fuel : Nat} {text : Bytes} {index : Index}
    (loaded : indexLoad 0 fuel text = .ok index) :
    Returns (fun fuel => indexLoad 0 fuel text) index :=
  Returns.of_ok (fun _ le => indexLoad_extends le text) loaded

/-- What was installed is found signed. -/
theorem indexSignedOk_installed {after : State} {body sig : Bytes}
    (hasKey : readKey after.files conf.key ≠ [])
    (installed : after.files (indexPath env root) = some body)
    (installedSig : after.files (sigPath env root) = some sig)
    (signs : verifyBuf env body (cstr (trimSignature sig))
      (cstr (readKey after.files conf.key)) = .ok ()) :
    indexSignedOk env root conf after.files = true := by
  rw [indexSignedOk, if_neg hasKey, installedSig]
  simp only [verifyFile, installed, signs]

/-- A safe sync reports every index that must not be installed. -/
theorem reported_of_safe {body sig : Bytes} {index : Index}
    (renames : ∀ path, env.renameFails path = false)
    (trusted : Trusted env root conf state)
    (safe : SyncSafe env root conf state)
    (offers : Offers env conf (readKey state.files conf.key) body sig)
    (parses : Returns (fun fuel => indexLoad 0 fuel body) index) :
    Reported index := by
  obtain ⟨fuel, loads⟩ := parses
  have loaded := loads fuel (Nat.le_refl fuel)
  dsimp only at loaded
  apply reported_of_complete
  intro passes
  have ends := (safe.ends fuel).and (cmdSync_ends fuel renames trusted)
  cases outcome : cmdSync env root conf fuel state with
  | error stopped after =>
      rw [outcome] at ends
      exact absurd passes (ends.2.2 body sig index offers loaded)
  | ok done after =>
      rw [outcome] at ends
      obtain ⟨otherBody, otherSig, other, synced⟩ := ends.1
      obtain rfl : otherBody = body :=
        Except.ok.inj (synced.fetched.symm.trans offers.isBody)
      obtain rfl : other = index :=
        synced.parses.unique (indexLoad_returns loaded)
      exact synced.complete

theorem safe_of_reported
    (renames : ∀ path, env.renameFails path = false)
    (trusted : Trusted env root conf state)
    (reports : ∀ body sig index,
      Offers env conf (readKey state.files conf.key) body sig →
      Returns (fun fuel => indexLoad 0 fuel body) index → Reported index) :
    SyncSafe env root conf state := by
  constructor
  intro fuel
  apply (cmdSync_ends fuel renames trusted).mono
  · rintro _ after ⟨body, sig, index, offers, loaded, passes, installed,
      installedSig, agree⟩
    have parses := indexLoad_returns loaded
    have sameKey : readKey after.files conf.key =
        readKey state.files conf.key :=
      readKey_congr (agree conf.key trusted.apart)
    exact ⟨body, sig, index, {
      fetched := offers.isBody
      installed := installed
      fetchedSig := offers.isSig
      installedSig := installedSig
      signs := signs_of_verifyBuf offers.signs
      parses := parses
      complete := complete_of_reported
        (reports body sig index offers parses) passes
      signedOk := indexSignedOk_installed (sameKey ▸ trusted.key) installed
        installedSig (sameKey ▸ offers.signs) }⟩
  · rintro _ after ⟨agree, -⟩ _
    have distinct := syncPaths_nodup env root
    rw [syncPaths, List.nodup_append'] at distinct
    constructor
    · exact agree _ (distinct.2.2 List.mem_cons_self)
    · exact agree _ (distinct.2.2
        (List.mem_cons_of_mem _ List.mem_cons_self))

/-- A sync is safe as long as every signed index with an entry that must not
be installed from has a problem that can be printed. -/
theorem cmdSync_safe_iff (renames : ∀ path, env.renameFails path = false)
    (trusted : Trusted env root conf state) :
    SyncSafe env root conf state ↔ ∀ body sig index,
      Offers env conf (readKey state.files conf.key) body sig →
      Returns (fun fuel => indexLoad 0 fuel body) index → Reported index := by
  constructor
  · intro safe body sig index offers parses
    exact reported_of_safe renames trusted safe offers parses
  · intro reports
    exact safe_of_reported renames trusted reports

end

/-! ## One offered package -/

section

variable (hash : Bytes)

def offeredSlots : List Slot :=
  [.text "name" (some (ascii "tree")), .text "version" (some (ascii "1")),
    .text "filename" (some (ascii "tree.grain")), .text "sha256" (some hash)]

/-- An index of one package with a digest. -/
def offeredIndex : Bytes :=
  emitTables 0 0 (ascii "package") [slotLines (offeredSlots hash)]

def offeredSig : Bytes :=
  List.replicate 128 98

def offeredKey : Bytes :=
  List.replicate 64 97

/-- A repository that offers the index, signed under the key. -/
def offeringEnv : Env where
  arch := ascii "x86_64"
  fetch := fun url =>
    if (ascii ".sig").isSuffixOf url then .ok offeredSig
    else .ok (offeredIndex hash)
  renameFails := fun _ => false
  sodiumInit := true
  verifyDetached := fun signature data key =>
    signature = List.replicate 64 187 ∧ data = offeredIndex hash ∧
      key = List.replicate 32 170

def offeringConf : RepoConf where
  source := ascii "https://salt.example"
  key := offeredKey

def emptyState : State :=
  ⟨fun _ => none, []⟩

variable {hash} (plain : PlainText hash) (noNul : 0 ∉ hash)

include plain noNul

theorem indexLoad_offered : ∃ index entry,
    indexLoad 0 1 (offeredIndex hash) = .ok index ∧ index.items = [entry] ∧
      entry.name = ascii "tree" ∧ entry.version = ascii "1" ∧
      entry.filename = ascii "tree.grain" ∧ entry.sha256 = hash := by
  have keyed : WellKeyed (offeredSlots hash) := by
    constructor
    · have bare : ∀ key ∈ ["name", "version", "filename", "sha256"],
          BareKey (ascii key) := by decide
      intro slot member
      apply bare
      exact List.mem_map_of_mem member
    · intro key digits value member
      simp [offeredSlots] at member
  have lines : ∀ line ∈ slotLines (offeredSlots hash), line.Ok 0 1 := by
    apply slots_ok keyed
    · intro text member
      simp only [offeredSlots, List.flatMap_cons, List.flatMap_nil,
        Slot.texts, Option.toList_some, List.cons_append, List.nil_append,
        List.mem_cons, List.not_mem_nil, or_false] at member
      have known : ∀ text ∈ [ascii "tree", ascii "1", ascii "tree.grain"],
          PlainText text := by decide
      refine ⟨text, PlainText.spells ?_⟩
      rcases member with rfl | rfl | rfl | rfl
      · exact known _ (by simp)
      · exact known _ (by simp)
      · exact known _ (by simp)
      · exact plain
    · intro items member
      simp [offeredSlots, Slot.lists] at member
  have distinct : ((offeredSlots hash).map fun slot =>
      ascii slot.key).Nodup :=
    (by decide : (["name", "version", "filename", "sha256"].map ascii).Nodup)
  have found : ∀ key text, .text key (some text) ∈ offeredSlots hash →
      Segment (ascii key) →
        (stringAt (linesNode (slotLines (offeredSlots hash))) key).getD [] =
          spelled text := by
    intro key text member segment
    rw [stringAt_slots distinct member segment]
    rfl
  have parsed : parse 0 1 (offeredIndex hash) =
      .ok (withTables [] (ascii "package")
        [linesNode (slotLines (offeredSlots hash))]) := by
    apply @parse_tables (ascii "package") []
      [slotLines (offeredSlots hash)] 0 1 0 0
    · decide
    · simp
    · simp
    · intro group member
      rw [List.mem_singleton.mp member]
      exact lines
  refine ⟨_, entryFromNode (linesNode (slotLines (offeredSlots hash))),
    by rw [indexLoad, parsed]; rfl, ?_, ?_, ?_, ?_, ?_⟩
  · change (arrayItems (tableGet _ (ascii "package"))).map entryFromNode = _
    rw [arrayItems_withTables (by rfl)]
    rfl
  · exact (found "name" (ascii "tree") (by simp [offeredSlots])
      (by decide)).trans (by decide)
  · exact (found "version" (ascii "1") (by simp [offeredSlots])
      (by decide)).trans (by decide)
  · exact (found "filename" (ascii "tree.grain") (by simp [offeredSlots])
      (by decide)).trans (by decide)
  · exact (found "sha256" _ (by simp [offeredSlots]) (by decide)).trans
      (plain.spelled_eq noNul)

omit plain noNul in
theorem offering_trusted :
    Trusted (offeringEnv hash) [] offeringConf emptyState where
  key := by decide
  apart := by
    have paths : syncPaths (offeringEnv hash) [] =
        syncPaths (offeringEnv []) [] := rfl
    rw [paths]
    decide

omit plain noNul in
theorem offering_renames (path : Bytes) :
    (offeringEnv hash).renameFails path = false :=
  rfl

omit plain noNul in
theorem offering_fetch (url : Bytes) : (offeringEnv hash).fetch url =
    if (ascii ".sig").isSuffixOf url then .ok offeredSig
    else .ok (offeredIndex hash) :=
  rfl

omit plain noNul in
theorem offering_offers : Offers (offeringEnv hash) offeringConf
    (readKey emptyState.files offeringConf.key) (offeredIndex hash)
    offeredSig where
  source := by decide
  isBody := by
    have url : (ascii ".sig").isSuffixOf (repoUrl (offeringEnv [])
        offeringConf (ascii "index.toml")) = false := by decide
    exact (offering_fetch _).trans (if_neg (Bool.eq_false_iff.mp url))
  isSig := by
    have url : (ascii ".sig").isSuffixOf (repoUrl (offeringEnv [])
        offeringConf (ascii "index.toml.sig")) = true := by decide
    exact (offering_fetch _).trans (if_pos url)
  signs := by
    have isKey : hexDecode 32 (cstr (readKey emptyState.files
        offeringConf.key)) = some (List.replicate 32 170) := by
      decide +kernel
    have isSig : hexDecode 64 (cstr (trimSignature offeredSig)) =
        some (List.replicate 64 187) := by decide +kernel
    simp [verifyBuf, offeringEnv, isKey, isSig]

/-- A long digest that is none is not complained about. -/
theorem not_reported_offered (notHex : ¬ IsHex hash)
    (long : 2 ^ 31 ≤ hash.length) : ∃ index,
      Returns (fun fuel => indexLoad 0 fuel (offeredIndex hash)) index ∧
        ¬ Reported index := by
  obtain ⟨index, entry, loaded, isItems, name, version, filename, isHash⟩ :=
    indexLoad_offered plain noNul
  refine ⟨index, indexLoad_returns loaded, ?_⟩
  intro reported
  have member : entry ∈ index.items := by simp [isItems]
  obtain ⟨position, other, problem, isEntry, isProblem, short⟩ := reported
    ⟨entry, member, fun complete => notHex (isHash ▸ complete.sha256)⟩
  obtain rfl : other = entry := by
    have inItems := List.mem_of_getElem? isEntry
    rwa [isItems, List.mem_singleton] at inItems
  have nonempty : hash ≠ [] := by
    rintro rfl
    simp at long
  have invalid : ¬ sha256HexValid hash = true :=
    fun valid => notHex (sha256HexValid_iff.mp valid)
  rw [entryProblem, name, version, filename, isHash, if_neg (by decide),
    if_neg (by decide), if_neg (by decide), if_neg nonempty,
    if_pos invalid] at isProblem
  obtain rfl := Option.some.inj isProblem
  simp only [List.length_append] at short
  omega

end

theorem cmdSync_safe_tree :
    Trusted (offeringEnv (List.replicate 64 97)) [] offeringConf
      emptyState ∧
    SyncSafe (offeringEnv (List.replicate 64 97)) [] offeringConf
      emptyState := by
  refine ⟨offering_trusted, ?_⟩
  apply (cmdSync_safe_iff offering_renames offering_trusted).mpr
  intro body sig index offers parses
  obtain rfl : offeredIndex _ = body :=
    Except.ok.inj (offering_offers.isBody.symm.trans offers.isBody)
  obtain ⟨other, entry, loaded, isItems, name, version, filename, isHash⟩ :=
    @indexLoad_offered (List.replicate 64 97) (by decide) (by decide)
  obtain rfl : other = index := (indexLoad_returns loaded).unique parses
  rintro ⟨item, member, incomplete⟩
  obtain rfl : item = entry := by
    rwa [isItems, List.mem_singleton] at member
  refine absurd ?_ incomplete
  exact {
    name := by simp [name, ascii]
    version := by simp [version, ascii]
    filename := by simp [filename, ascii]
    bare := by rw [filename]; decide
    sha256 := by rw [isHash]; exact sha256HexValid_iff.mp (by decide) }

/-- A digest of 2^31 letters. -/
def longHash : Bytes :=
  List.replicate (2 ^ 31) 65

theorem long_digest_installed :
    Trusted (offeringEnv longHash) [] offeringConf emptyState ∧
    ¬ SyncSafe (offeringEnv longHash) [] offeringConf emptyState := by
  refine ⟨offering_trusted, ?_⟩
  intro safe
  have length : longHash.length = 2 ^ 31 := List.length_replicate
  have letters : ∀ byte ∈ longHash, byte = 65 :=
    fun byte member => List.eq_of_mem_replicate member
  have other : ∀ byte, byte ≠ 65 → byte ∉ longHash :=
    fun byte differs member => differs (letters byte member)
  have plain : PlainText longHash :=
    ⟨other 34 (by decide), other 92 (by decide), other 10 (by decide)⟩
  obtain ⟨index, parses, unreported⟩ := not_reported_offered plain
    (other 0 (by decide))
    (fun isHex => absurd (isHex.length.symm.trans length) (by norm_num))
    length.ge
  exact unreported (reported_of_safe offering_renames offering_trusted safe
    offering_offers parses)

end SaltOS.Sync
