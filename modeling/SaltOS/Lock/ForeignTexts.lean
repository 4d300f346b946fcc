import SaltOS.Lock.Foreign

/-!
# Texts of the packages of a stratum

The name, the version and the digest of a package of a stratum are C strings:
whatever the tools print, they hold no NUL.
-/

namespace SaltOS.Lock

open Repo

structure ForeignPkg.NoNul (pkg : ForeignPkg) : Prop where
  name : 0 ∉ pkg.name
  version : 0 ∉ pkg.version
  digest : ∀ digest ∈ pkg.digest, 0 ∉ digest

/-! ## Loops that may fail -/

/-- What a round keeps, a loop that may fail keeps. -/
theorem foldlM_invariant {ε σ α : Type} {step : σ → α → Except ε σ}
    {property : σ → Prop} {items : List α}
    (preserved : ∀ item ∈ items, ∀ before after, property before →
      step before item = .ok after → property after)
    {start final : σ} (initial : property start)
    (ran : items.foldlM step start = .ok final) : property final := by
  induction items generalizing start with
  | nil =>
      cases ran
      exact initial
  | cons item items induction =>
      rw [List.foldlM_cons] at ran
      cases first : step start item with
      | error error =>
          rw [first] at ran
          cases ran
      | ok middle =>
          rw [first] at ran
          exact induction
            (fun other member => preserved other
              (List.mem_cons_of_mem item member))
            (preserved item List.mem_cons_self start middle initial first) ran

/-- Every result comes from an item. -/
theorem mem_of_mapM {ε α β : Type} {run : α → Except ε β} {items : List α}
    {results : List β} (ran : items.mapM run = .ok results) :
    ∀ result ∈ results, ∃ item ∈ items, run item = .ok result := by
  induction items generalizing results with
  | nil =>
      cases ran
      simp
  | cons item items induction =>
      rw [List.mapM_cons] at ran
      cases first : run item with
      | error error =>
          rw [first] at ran
          cases ran
      | ok one =>
          cases others : items.mapM run with
          | error error =>
              rw [first, others] at ran
              cases ran
          | ok rest =>
              rw [first, others] at ran
              cases ran
              intro result member
              rcases List.mem_cons.mp member with rfl | inside
              · exact ⟨item, List.mem_cons_self, first⟩
              · obtain ⟨other, isOther, isResult⟩ :=
                  induction others result inside
                exact ⟨other, List.mem_cons_of_mem item isOther, isResult⟩

/-! ## Lines -/

theorem strchr_subset {byte : UInt8} {text : Bytes} {parts : Bytes × Bytes}
    (found : strchr byte text = some parts) :
    parts.1 ⊆ text ∧ parts.2 ⊆ text := by
  unfold strchr at found
  split at found
  · cases found
    constructor
    · exact (List.takeWhile_prefix _).subset
    · exact List.Subset.trans (List.drop_subset 1 _)
        (List.dropWhile_suffix _).subset
  · cases found

theorem strchr_twice_subset {byte : UInt8} {text first : Bytes}
    {rest : Bytes × Bytes}
    (found : ((strchr byte text).bind fun one =>
      (strchr byte one.2).map fun two => (one.1, two)) = some (first, rest)) :
    first ⊆ text ∧ rest.1 ⊆ text ∧ rest.2 ⊆ text := by
  obtain ⟨one, isOne, isRest⟩ := Option.bind_eq_some_iff.mp found
  obtain ⟨two, isTwo, same⟩ := Option.map_eq_some_iff.mp isRest
  cases same
  have outer := strchr_subset isOne
  have inner := strchr_subset isTwo
  exact ⟨outer.1, List.Subset.trans inner.1 outer.2,
    List.Subset.trans inner.2 outer.2⟩

theorem splitTrailing_subset {token : Bytes} {dashes : Nat}
    {parts : Bytes × Bytes} (found : splitTrailing token dashes = some parts) :
    parts.1 ⊆ token ∧ parts.2 ⊆ token := by
  obtain ⟨cut, -, rfl⟩ := Option.map_eq_some_iff.mp found
  exact ⟨List.take_subset cut token, List.drop_subset (cut + 1) token⟩

/-- The name and the version of a line are parts of it. -/
theorem parsePkgLine_subset {kind : PkgKind} {line : Bytes}
    {parts : Bytes × Bytes} (read : parsePkgLine kind line = .ok (some parts)) :
    parts.1 ⊆ line ∧ parts.2 ⊆ line := by
  unfold parsePkgLine at read
  split at read
  · split at read
    · cases read
    · rename_i found isFound
      cases read
      exact strchr_subset isFound
  · split at read
    · cases read
    · rename_i status found isFound
      obtain ⟨-, name, version⟩ := strchr_twice_subset isFound
      split at read
      · cases read
        exact ⟨name, version⟩
      · cases read
  · split at read
    · cases read
    · split at read
      · cases read
      · rename_i found isFound
        cases read
        exact splitTrailing_subset isFound
  · split at read
    · cases read
    · rename_i found isFound
      split at read
      · cases read
      · cases read
        exact strchr_subset isFound
  · split at read
    · cases read
    · rename_i found isFound
      split at read
      · cases read
      · cases read
        exact strchr_subset isFound
  · split at read
    · rename_i rest
      dsimp only at read
      split at read
      · cases read
      · rename_i found isFound
        cases read
        have inToken := splitTrailing_subset isFound
        have token : (rest.dropWhile (· == 32)).takeWhile (· != 32) ⊆ rest :=
          List.Subset.trans (List.takeWhile_prefix _).subset
            (List.dropWhile_suffix _).subset
        constructor
        · intro byte member
          simp [token (inToken.1 member)]
        · intro byte member
          simp [token (inToken.2 member)]
    · cases read

theorem foreignPkgParse_noNul {kind : PkgKind} {text : Bytes}
    {pkgs : List ForeignPkg} (parsed : foreignPkgParse kind text = .ok pkgs) :
    ∀ pkg ∈ pkgs, pkg.NoNul := by
  unfold foreignPkgParse at parsed
  cases read : ((toolLines text).filter (· ≠ [])).mapM fun line =>
      parsePkgLine kind (cstr line) with
  | error message =>
      rw [read] at parsed
      cases parsed
  | ok found =>
      rw [read] at parsed
      cases parsed
      intro pkg member
      rw [(List.perm_insertionSort _ _).mem_iff, List.mem_map] at member
      obtain ⟨parts, inFound, rfl⟩ := member
      obtain ⟨result, isResult, same⟩ := List.mem_filterMap.mp inFound
      obtain ⟨line, -, isRead⟩ := mem_of_mapM read result isResult
      obtain rfl : result = some parts := same
      have inLine := parsePkgLine_subset isRead
      exact {
        name := fun isNul => zero_not_mem_cstr line (inLine.1 isNul)
        version := fun isNul => zero_not_mem_cstr line (inLine.2 isNul)
        digest := by simp }

/-! ## Digests -/

theorem setDigest_noNul {name version : Bytes} {digest : Except Bytes Bytes}
    (noNul : ∀ text, digest = .ok text → 0 ∉ text)
    {pkgs after : List ForeignPkg} (before : ∀ pkg ∈ pkgs, pkg.NoNul)
    (set : setDigest name version digest pkgs = .ok after) :
    ∀ pkg ∈ after, pkg.NoNul := by
  induction pkgs generalizing after with
  | nil =>
      cases set
      simp
  | cons pkg pkgs induction =>
      obtain ⟨first, others⟩ := List.forall_mem_cons.mp before
      unfold setDigest at set
      split at set
      · split at set
        · cases digest with
          | error message => cases set
          | ok text =>
              cases set
              refine List.forall_mem_cons.mpr ⟨⟨first.name, first.version, ?_⟩,
                others⟩
              intro other isOther
              cases isOther
              exact noNul text rfl
        · cases set
          exact before
      · cases rest : setDigest name version digest pkgs with
        | error message =>
            rw [rest] at set
            cases set
        | ok changed =>
            rw [rest] at set
            cases set
            exact List.forall_mem_cons.mpr ⟨first, induction others rest⟩

theorem sha256HexValid_noNul {hex : Bytes} (valid : sha256HexValid hex = true) :
    0 ∉ hex := by
  intro isNul
  simp only [sha256HexValid, Bool.and_eq_true, List.all_eq_true] at valid
  have impossible := valid.1 0 isNul
  revert impossible
  decide

theorem reported_noNul {label value error text : Bytes} (noNul : 0 ∉ label)
    (isReported : reported label value error = .ok text) : 0 ∉ text := by
  unfold reported at isReported
  split at isReported
  · rename_i valid
    cases isReported
    simp [noNul, sha256HexValid_noNul valid]
  · cases isReported

theorem prefixed_eq {label value text : Bytes}
    (isPrefixed : prefixed label value = .ok text) : text = label ++ value := by
  unfold prefixed at isPrefixed
  split at isPrefixed
  · cases isPrefixed
    rfl
  · cases isPrefixed

theorem parseRpmDigest_noNul {line : Bytes} {pkgs after : List ForeignPkg}
    (before : ∀ pkg ∈ pkgs, pkg.NoNul)
    (parsed : parseRpmDigest pkgs line = .ok after) :
    ∀ pkg ∈ after, pkg.NoNul := by
  unfold parseRpmDigest at parsed
  split at parsed
  · cases parsed
  · exact setDigest_noNul (fun text => reported_noNul (by decide)) before
      parsed

theorem parseXbpsDigest_noNul {line : Bytes} {pkgs after : List ForeignPkg}
    (before : ∀ pkg ∈ pkgs, pkg.NoNul)
    (parsed : parseXbpsDigest pkgs line = .ok after) :
    ∀ pkg ∈ after, pkg.NoNul := by
  unfold parseXbpsDigest at parsed
  split at parsed
  · cases parsed
  · split at parsed
    · cases parsed
    · exact setDigest_noNul (fun text => reported_noNul (by decide)) before
        parsed

/-- What a reader of apk's database holds. -/
def ApkNoNul (state : List ForeignPkg × ApkRecord) : Prop :=
  (∀ pkg ∈ state.1, pkg.NoNul) ∧
    ∀ checksum ∈ state.2.checksum, 0 ∉ checksum

theorem parseApkLine_noNul {line : Bytes}
    {state after : List ForeignPkg × ApkRecord} (before : ApkNoNul state)
    (parsed : parseApkLine state line = .ok after) : ApkNoNul after := by
  obtain ⟨pkgs, record⟩ := state
  obtain ⟨noNul, checksumNoNul⟩ := before
  unfold parseApkLine at parsed
  dsimp only at parsed
  split at parsed
  · split at parsed
    · rename_i name version checksum
      cases set : setDigest name version
          (prefixed (ascii "apk-checksum:") checksum) pkgs with
      | error message =>
          rw [set] at parsed
          cases parsed
      | ok changed =>
          rw [set] at parsed
          cases parsed
          refine ⟨setDigest_noNul ?_ noNul set, by simp⟩
          intro text isText
          rw [prefixed_eq isText]
          have label : 0 ∉ ascii "apk-checksum:" := by decide
          simpa [label] using checksumNoNul checksum rfl
    · cases parsed
    · cases parsed
      exact ⟨noNul, by simp⟩
  · split at parsed
    · cases parsed
      exact ⟨noNul, checksumNoNul⟩
    · cases parsed
      exact ⟨noNul, checksumNoNul⟩
    · rename_i value isLine
      cases parsed
      refine ⟨noNul, ?_⟩
      intro checksum isChecksum
      cases isChecksum
      have noNul := zero_not_mem_cstr line
      rw [isLine] at noNul
      exact fun isNul => noNul (by simp [isNul])
    · cases parsed
      exact ⟨noNul, checksumNoNul⟩

theorem digestsComplete_eq {manager : String} {pkgs after : List ForeignPkg}
    (complete : digestsComplete manager pkgs = .ok after) : after = pkgs := by
  unfold digestsComplete at complete
  split at complete
  · cases complete
  · cases complete
    rfl

theorem parseDigests_noNul {kind : PkgKind} {text : Bytes}
    {pkgs after : List ForeignPkg} (before : ∀ pkg ∈ pkgs, pkg.NoNul)
    (parsed : parseDigests kind text pkgs = .ok after) :
    ∀ pkg ∈ after, pkg.NoNul := by
  -- All but one of the kinds go through the lines in the same way.
  have fromLines : ∀ {manager : String} {lines : List Bytes}
      {round : List ForeignPkg → Bytes → Except Bytes (List ForeignPkg)},
      (∀ line pkgs after, (∀ pkg ∈ pkgs, pkg.NoNul) →
        round pkgs line = .ok after → ∀ pkg ∈ after, pkg.NoNul) →
      (do digestsComplete manager (← lines.foldlM round pkgs)) = .ok after →
        ∀ pkg ∈ after, pkg.NoNul := by
    intro manager lines round kept ran
    cases loop : lines.foldlM round pkgs with
    | error message =>
        rw [loop] at ran
        cases ran
    | ok changed =>
        rw [loop] at ran
        rw [digestsComplete_eq ran]
        exact foldlM_invariant (fun line _ pkgs after => kept line pkgs after)
          before loop
  unfold parseDigests at parsed
  cases kind with
  | dnf =>
      exact fromLines (fun line pkgs after => parseRpmDigest_noNul) parsed
  | zypper =>
      exact fromLines (fun line pkgs after => parseRpmDigest_noNul) parsed
  | xbps =>
      exact fromLines (fun line pkgs after => parseXbpsDigest_noNul) parsed
  | apk =>
      dsimp only at parsed
      cases loop : (toolLines text).foldlM parseApkLine
          (pkgs, ⟨none, none, none⟩) with
      | error message =>
          rw [loop] at parsed
          cases parsed
      | ok state =>
          rw [loop] at parsed
          rw [digestsComplete_eq parsed]
          have initial : ApkNoNul (pkgs, ⟨none, none, none⟩) :=
            ⟨before, by simp⟩
          exact (foldlM_invariant
            (fun line _ state after => parseApkLine_noNul) initial loop).1
  | pacman => cases parsed
  | apt => cases parsed

theorem digestHostFile_noNul {tools : Tools} {label file : Bytes}
    (labelNoNul : 0 ∉ label) {pkg digested : ForeignPkg}
    (before : pkg.NoNul)
    (isDigested : digestHostFile tools label file pkg = some digested) :
    digested.NoNul := by
  obtain ⟨sha256, -, rfl⟩ := Option.map_eq_some_iff.mp isDigested
  refine ⟨before.name, before.version, ?_⟩
  intro digest isDigest
  cases isDigest
  simp [labelNoNul, sha256HexValid_noNul sha256.property]

theorem pacmanDigest_noNul {tools : Tools} {pkg digested : ForeignPkg}
    (before : pkg.NoNul) (isDigested : pacmanDigest tools pkg = .ok digested) :
    digested.NoNul := by
  unfold pacmanDigest at isDigested
  dsimp only at isDigested
  split at isDigested
  · rename_i found
    cases isDigested
    exact digestHostFile_noNul (by decide) before found
  · cases isDigested

theorem aptDigest_noNul {tools : Tools} {pkg digested : ForeignPkg}
    (before : pkg.NoNul) (isDigested : aptDigest tools pkg = .ok digested) :
    digested.NoNul := by
  unfold aptDigest at isDigested
  dsimp only at isDigested
  split at isDigested
  · rename_i found
    cases isDigested
    split at found
    · exact digestHostFile_noNul (by decide) before found
    · obtain ⟨file, -, inList⟩ := Option.bind_eq_some_iff.mp found
      exact digestHostFile_noNul (by decide) before inList
  · cases isDigested

theorem livePkgs_noNul {stratum : Stratum} {tools : Tools}
    {pkgs : List ForeignPkg} (live : livePkgs stratum tools = .ok pkgs) :
    ∀ pkg ∈ pkgs, pkg.NoNul := by
  unfold livePkgs pkgQuery pkgDigests at live
  cases isKind : pkgKind stratum with
  | none =>
      rw [isKind] at live
      cases live
  | some kind =>
      rw [isKind] at live
      dsimp only at live
      cases listed : tools.listing.bind (foreignPkgParse kind) with
      | error message =>
          rw [listed] at live
          cases live
      | ok found =>
          rw [listed] at live
          have before : ∀ pkg ∈ found, pkg.NoNul := by
            cases listing : tools.listing with
            | error message =>
                rw [listing] at listed
                cases listed
            | ok text =>
                rw [listing] at listed
                exact foreignPkgParse_noNul listed
          have fromTools : ∀ {kind},
              (do parseDigests kind (← tools.digests) found) = .ok pkgs →
                ∀ pkg ∈ pkgs, pkg.NoNul := by
            intro kind ran
            cases digests : tools.digests with
            | error message =>
                rw [digests] at ran
                cases ran
            | ok text =>
                rw [digests] at ran
                exact parseDigests_noNul before ran
          cases kind with
          | pacman =>
              intro pkg member
              obtain ⟨other, isOther, isDigested⟩ :=
                mem_of_mapM live pkg member
              exact pacmanDigest_noNul (before other isOther) isDigested
          | apt =>
              intro pkg member
              obtain ⟨other, isOther, isDigested⟩ :=
                mem_of_mapM live pkg member
              exact aptDigest_noNul (before other isOther) isDigested
          | xbps => exact fromTools live
          | apk => exact fromTools live
          | dnf => exact fromTools live
          | zypper => exact fromTools live

end SaltOS.Lock
