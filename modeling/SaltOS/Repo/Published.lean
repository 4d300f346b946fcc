import Mathlib.Data.List.ReduceOption
import SaltOS.Archive.BuildRoundTrip
import SaltOS.Repo.Publish

/-!
# What is published

The index that `salt_repo_publish` writes has one entry for each archive of
the directory, and what it writes is its two files.
-/

namespace SaltOS.Util

open Lib Disk

variable {γ : Type} {disk : Disk γ} {root path : Bytes} {top : Loc}
  {comps : List Name}

/-! ## Writing a file below a root -/

/-- One file is written, and nothing else changes. -/
structure Wrote (top : Loc) (comps : List Name) (content : γ) (mode : Nat)
    (before after : Disk γ) : Prop where
  cwd : after.cwd = before.cwd
  nodes : ∀ loc, after.fs.node? loc =
    if loc = descend top comps then some (.file content mode)
    else before.fs.node? loc

theorem SameNodes.wrote {between after : Disk γ} {content : γ} {mode : Nat}
    (same : SameNodes disk between)
    (wrote : Wrote top comps content mode between after) :
    Wrote top comps content mode disk after := by
  refine ⟨wrote.cwd.trans same.cwd, fun loc => ?_⟩
  rw [wrote.nodes, same.nodes]

/-- `makeDirname` makes nothing where the directory of an entry is there. -/
theorem Stands.makeDirname (stands : Stands disk root top)
    (under : Under root path comps) (names : Names comps)
    (isDir : disk.fs.IsDir (descend top comps.dropLast)) :
    SameNodes disk (finalState (makeDirname path disk)) := by
  by_cases proper : dirname path ≠ ascii "." ∧ dirname path ≠ ascii "/"
  · obtain ⟨loc, resolved⟩ := stands.resolve_dirname under names isDir proper
    exact makeDirname_same resolved
  · unfold Util.makeDirname
    rw [if_neg proper]
    exact ⟨rfl, rfl⟩

/-- `salt_write_file` that returns well has written the one file, whatever
was there but a directory. -/
theorem Stands.writeFile (stands : Stands disk root top)
    (under : Under root path comps) (names : Names comps)
    (isDir : disk.fs.IsDir (descend top comps.dropLast)) (content : γ)
    (mode : Nat) :
    Ends (writeFile path content mode disk)
      (fun _ after => Wrote top comps content mode disk after)
      (fun _ _ => True) := by
  have isSlot := stands.slot under names isDir
  unfold Util.writeFile
  refine Ends.through (fun _ now => SameNodes disk now) ?_ ?_
  · have made := stands.makeDirname under names isDir
    exact (endsIn_iff.mpr made).mono (fun _ _ same => same)
      (fun _ _ _ => trivial)
  intro _ ready sameReady
  refine Ends.through (fun _ now => SameNodes disk now) ?_ ?_
  · have temporary : EndsIn (Disk.mkstemp path ready)
        (fun now => SameNodes disk now) := by
      apply call_ends.endsIn
      · intro _ _ done
        obtain ⟨fs, planned, rfl⟩ := done
        exact tick_same sameReady (mkstempPlan_ok planned)
      · intro _ _ failed
        obtain ⟨rfl, -⟩ := failed
        exact tick_same sameReady rfl
    exact (checked_ends temporary).mono (fun _ _ same => same)
      (fun _ _ _ => trivial)
  intro _ now sameNow
  apply checked_done
  apply call_ends.mono _ (fun _ _ _ => trivial)
  intro _ _ done
  obtain ⟨fs, planned, rfl⟩ := done
  obtain ⟨parent, last, replaces, -⟩ := renamePlan_ok planned
  have sameSlot := replaces.isSlot
  rw [sameNow.slot, isSlot] at sameSlot
  obtain ⟨rfl, rfl⟩ := Prod.mk.inj (Except.ok.inj sameSlot)
  apply sameNow.wrote
  refine ⟨rfl, fun loc => ?_⟩
  rw [tick, replaces.result, FileSystem.node?_replace replaces.replaceable,
    descend_dropLast names.nonempty]

theorem Wrote.rooted {name : Name} {content : γ} {mode : Nat}
    {after : Disk γ} (rooted : Rooted disk root top)
    (wrote : Wrote top [name] content mode disk after) :
    Rooted after root top := by
  apply rooted.of_outside wrote.cwd
  intro loc away
  rw [wrote.nodes, if_neg]
  rintro rfl
  exact away (strictlyBelow_descend (List.cons_ne_nil _ _))

theorem Names.single {name : Name} (valid : ValidName name) :
    Names [name] :=
  ⟨List.cons_ne_nil _ _, List.forall_mem_singleton.mpr valid⟩

theorem Under.name (nonempty : root ≠ []) {name : Name}
    (valid : ValidName name) :
    Under root (Util.joinPath root name) [name] := by
  have relative : name.head? ≠ some 47 :=
    fun slash => valid.2.2.2 (List.mem_of_mem_head? slash)
  have under := Under.joinPath nonempty valid.1 relative
  rw [components_of_valid valid] at under
  exact under

end SaltOS.Util

namespace SaltOS.Repo

open Lib Util Disk Pkg

/-! ## Digits -/

theorem hexPair (byte : UInt8) :
    Sync.hexDigit (hexChar (byte >>> 4)) = some (byte >>> 4) ∧
      Sync.hexDigit (hexChar (byte &&& 15)) = some (byte &&& 15) ∧
      (byte >>> 4) <<< 4 ||| (byte &&& 15) = byte := by
  apply forall_byte (fun byte =>
    Sync.hexDigit (hexChar (byte >>> 4)) = some (byte >>> 4) ∧
      Sync.hexDigit (hexChar (byte &&& 15)) = some (byte &&& 15) ∧
      (byte >>> 4) <<< 4 ||| (byte &&& 15) = byte)
  decide +kernel

theorem hexBytes_hexEncode (data : Bytes) :
    Sync.hexBytes (hexEncode data) = some data := by
  induction data with
  | nil => rfl
  | cons byte data induction =>
      obtain ⟨high, low, whole⟩ := hexPair byte
      have split : hexEncode (byte :: data) =
          hexChar (byte >>> 4) :: hexChar (byte &&& 15) :: hexEncode data :=
        rfl
      rw [split, Sync.hexBytes, high, low, induction]
      simp [whole]

theorem hexEncode_length (data : Bytes) :
    (hexEncode data).length = data.length * 2 := by
  induction data with
  | nil => rfl
  | cons byte data induction =>
      have split : hexEncode (byte :: data) =
          hexChar (byte >>> 4) :: hexChar (byte &&& 15) :: hexEncode data :=
        rfl
      rw [split, List.length_cons, List.length_cons, induction,
        List.length_cons]
      omega

/-- What is encoded is decoded. -/
theorem hexDecode_hexEncode {data : Bytes} {length : Nat}
    (isLength : data.length = length) :
    Sync.hexDecode length (hexEncode data) = some data := by
  rw [Sync.hexDecode, hexEncode_length, isLength, if_neg (by simp),
    hexBytes_hexEncode]

/-- A digit as `salt_sha256_hex_valid` takes it. -/
def LowerDigit (char : UInt8) : Prop :=
  (48 ≤ char ∧ char ≤ 57) ∨ (97 ≤ char ∧ char ≤ 102)

instance (char : UInt8) : Decidable (LowerDigit char) :=
  inferInstanceAs (Decidable (_ ∨ _))

theorem lowerDigit_hexChar (byte : UInt8) :
    LowerDigit (hexChar (byte >>> 4)) ∧ LowerDigit (hexChar (byte &&& 15)) := by
  apply forall_byte (fun byte =>
    LowerDigit (hexChar (byte >>> 4)) ∧ LowerDigit (hexChar (byte &&& 15)))
  decide +kernel

theorem mem_hexEncode {data : Bytes} {char : UInt8}
    (member : char ∈ hexEncode data) : LowerDigit char := by
  obtain ⟨byte, -, isChar⟩ := List.mem_flatMap.mp member
  obtain ⟨high, low⟩ := lowerDigit_hexChar byte
  rcases List.mem_pair.mp isChar with rfl | rfl
  · exact high
  · exact low

theorem isHex_hexEncode {data : Bytes} (isLength : data.length = 32) :
    IsHex (hexEncode data) where
  length := by rw [hexEncode_length, isLength]
  digits _ member := mem_hexEncode member

/-- A character that is no digit is not in what is encoded. -/
theorem not_mem_hexEncode {char : UInt8}
    (other : ¬ LowerDigit char) (data : Bytes) : char ∉ hexEncode data :=
  fun member => other (mem_hexEncode member)

/-- A signature has no line end that would be cut off. -/
theorem trimSignature_hexEncode (data : Bytes) :
    cstr (Sync.trimSignature (hexEncode data)) = hexEncode data := by
  have noEnd : ∀ hasEnd, ¬ ((hexEncode data).getLast hasEnd == 10 ||
      (hexEncode data).getLast hasEnd == 13) := by
    intro hasEnd isEnd
    have member := List.getLast_mem hasEnd
    rw [Bool.or_eq_true, beq_iff_eq, beq_iff_eq] at isEnd
    rcases isEnd with same | same
    · exact not_mem_hexEncode (by decide) data (same ▸ member)
    · exact not_mem_hexEncode (by decide) data (same ▸ member)
  rw [Sync.trimSignature, List.rdropWhile_eq_self_iff.mpr noEnd,
    cstr_eq_self (not_mem_hexEncode (by decide) data)]

/-- What libsodium promises about the two halves of a pair of keys: what is
signed with the secret one verifies under the public one. -/
structure KeyPair (publisher : Publisher) (env : Sync.Env)
    (secHex pubHex : Bytes) : Prop where
  init : env.sodiumInit = true
  length : ∀ data secret, (publisher.signDetached data secret).length = 64
  verifies : ∃ key, Sync.hexDecode 32 (cstr pubHex) = some key ∧
    ∀ secret, Sync.hexDecode 64 secHex = some secret →
      ∀ data, env.verifyDetached (publisher.signDetached data secret) data
        key = true

theorem KeyPair.verifyBuf_ok {publisher : Publisher} {env : Sync.Env}
    {secHex pubHex data sig : Bytes}
    (pair : KeyPair publisher env secHex pubHex)
    (signed : signBuf publisher data secHex = .ok sig) :
    Sync.verifyBuf env data (cstr (Sync.trimSignature sig)) (cstr pubHex) =
      .ok () := by
  obtain ⟨key, isKey, verifies⟩ := pair.verifies
  unfold signBuf at signed
  split at signed
  · cases signed
  cases isSecret : Sync.hexDecode 64 secHex with
  | none =>
      rw [isSecret] at signed
      cases signed
  | some secret =>
      rw [isSecret] at signed
      obtain rfl : hexEncode (publisher.signDetached data secret) = sig :=
        Except.ok.inj signed
      rw [trimSignature_hexEncode, Sync.verifyBuf, if_neg (by simp [pair.init]),
        isKey, hexDecode_hexEncode (pair.length data secret)]
      dsimp only
      rw [if_pos (verifies secret isSecret data)]

/-! ## The entries -/

section

variable {publisher : Publisher} {behind : Tar.Entry → UInt8} {fuel : Nat}
  {disk : Disk Bytes} {packagesDir : Bytes} {base : Loc}

/-- A file of the directory that `salt_repo_build_index` opens. -/
structure Holds (behind : Tar.Entry → UInt8) (fuel : Nat) (disk : Disk Bytes)
    (packagesDir : Bytes) (base : Loc) (name data : Bytes)
    (archive : Archive) : Prop where
  isGrain : isGrain name = true
  listed : disk.fs.node? (name :: base) ≠ none
  contents : disk.contents (joinPath packagesDir name) = .ok data
  opens : Archive.open behind fuel (joinPath packagesDir name) data =
    .ok archive

/-- There is one entry for each archive of the directory. -/
structure Lists (entryFor : Bytes → Bytes → PkgMeta → Entry)
    (behind : Tar.Entry → UInt8) (fuel : Nat) (disk : Disk Bytes)
    (packagesDir : Bytes) (base : Loc) (items : List Entry) : Prop where
  distinct : (items.map Entry.filename).Nodup
  entries : ∀ entry, entry ∈ items ↔ ∃ name data archive,
    Holds behind fuel disk packagesDir base name data archive ∧
      entry = entryFor name data archive.pkg

/-- What a loop that may skip its items collects. -/
theorem reduceOption_mapM {ε α β : Type} {run : α → Except ε (Option β)}
    {items : List α} {results : List (Option β)}
    (ran : items.mapM run = .ok results) :
    results.reduceOption =
      items.filterMap fun item => (run item).toOption.join := by
  induction items generalizing results with
  | nil =>
      cases ran
      rfl
  | cons item items induction =>
      rw [List.mapM_cons] at ran
      cases first : run item with
      | error error =>
          rw [first] at ran
          cases ran
      | ok one =>
          cases others : items.mapM run with
          | error error =>
              rw [first, others] at ran
              cases ran
          | ok rest =>
              rw [first, others] at ran
              cases ran
              have later := induction others
              cases one with
              | none =>
                  rw [List.filterMap_cons_none (by rw [first]; rfl), ← later]
                  exact List.reduceOption_cons_of_none rest
              | some result =>
                  rw [List.filterMap_cons_some (by rw [first]; rfl), ← later]
                  exact List.reduceOption_cons_of_some result rest

theorem indexFile_eq_some {name : Bytes} {entry : Entry} :
    (indexFile publisher behind fuel disk packagesDir name).toOption.join =
        some entry ↔
      ∃ data archive, disk.contents (joinPath packagesDir name) = .ok data ∧
        Archive.open behind fuel (joinPath packagesDir name) data =
          .ok archive ∧
        entry = entryOf publisher name data archive.pkg := by
  unfold indexFile
  dsimp only
  cases isData : disk.contents (joinPath packagesDir name) with
  | error errno => simp [Except.toOption]
  | ok data =>
      dsimp only
      cases opened : Archive.open behind fuel (joinPath packagesDir name)
        data with
      | ok archive =>
          simp only [Except.toOption, Option.join_some, Option.some.injEq,
            Except.ok.injEq]
          constructor
          · intro isEntry
            exact ⟨data, archive, rfl, opened, isEntry.symm⟩
          · intro given
            obtain ⟨other, otherArchive, same, isOpened, isEntry⟩ := given
            subst same
            rw [opened] at isOpened
            rw [isEntry, Except.ok.inj isOpened]
      | error stop =>
          cases stop <;> simp [Except.toOption, opened]

theorem buildIndex_lists {repoName arch : Bytes} {index : Index}
    (built : buildIndex publisher behind fuel disk packagesDir repoName arch =
      .ok index)
    (resolved : disk.resolve packagesDir = .ok base)
    (isDir : disk.fs.IsDir base) :
    index.repoName = some repoName ∧ index.arch = some arch ∧
      Lists (entryOf publisher) behind fuel disk packagesDir base
        index.items := by
  have isRead : disk.readdir packagesDir = .ok (disk.fs.children base) := by
    rw [Disk.readdir, resolved]
    dsimp only
    rw [if_pos isDir]
  unfold buildIndex at built
  rw [isRead] at built
  dsimp only at built
  split at built
  · cases built
  rename_i results ran
  obtain rfl := Except.ok.inj built
  refine ⟨rfl, rfl, ?_⟩
  dsimp only
  rw [reduceOption_mapM ran]
  have listed : ∀ name, name ∈ Archive.sortNames
      ((disk.fs.children base).filter isGrain) ↔
        disk.fs.node? (name :: base) ≠ none ∧ isGrain name = true := by
    intro name
    rw [(Archive.arranges_sortNames _).mem_iff, List.mem_filter,
      FileSystem.mem_children]
  have distinct : (Archive.sortNames
      ((disk.fs.children base).filter isGrain)).Nodup :=
    (Archive.arranges_sortNames _).nodup_iff.mpr
      ((FileSystem.nodup_children disk.fs base).filter _)
  constructor
  · rw [List.map_filterMap]
    apply distinct.filterMap
    intro first second filename isFirst isSecond
    obtain ⟨firstEntry, isFirstEntry, rfl⟩ :=
      Option.map_eq_some_iff.mp isFirst
    obtain ⟨secondEntry, isSecondEntry, same⟩ :=
      Option.map_eq_some_iff.mp isSecond
    obtain ⟨_, _, -, -, isFirst⟩ := indexFile_eq_some.mp isFirstEntry
    obtain ⟨_, _, -, -, isSecond⟩ := indexFile_eq_some.mp isSecondEntry
    rw [isFirst, isSecond] at same
    exact same.symm
  · intro entry
    rw [List.mem_filterMap]
    constructor
    · intro given
      obtain ⟨name, member, isEntry⟩ := given
      obtain ⟨data, archive, isData, opens, rfl⟩ :=
        indexFile_eq_some.mp isEntry
      obtain ⟨isListed, grain⟩ := (listed name).mp member
      exact ⟨name, data, archive, ⟨grain, isListed, isData, opens⟩, rfl⟩
    · intro given
      obtain ⟨name, data, archive, holds, isEntry⟩ := given
      exact ⟨name, (listed name).mpr ⟨holds.listed, holds.isGrain⟩,
        indexFile_eq_some.mpr
          ⟨data, archive, holds.contents, holds.opens, isEntry⟩⟩

end

end SaltOS.Repo
