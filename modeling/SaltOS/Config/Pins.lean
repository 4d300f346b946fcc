import SaltOS.Config.Native
import SaltOS.Lib.Comparator

/-!
# What a pin selects

A pin is a version, or a version, a dash and a release.  `find_pinned` takes
the text behind the last dash for a release when it is made of digits, so a
version that ends like that is cut short.
-/

namespace SaltOS.Config

open Lib Repo

/-- The text ends in a dash and a number. -/
def EndsInRelease (text : Bytes) : Prop :=
  ∃ head digits : Bytes, text = head ++ 45 :: digits ∧ digits ≠ [] ∧
    ∀ byte ∈ digits, Bytes.isDigit byte = true

/-! ## Splitting -/

theorem not_dash_of_isDigit {byte : UInt8} (digit : Bytes.isDigit byte = true) :
    byte ≠ 45 := by
  rintro rfl
  revert digit
  decide

theorem rdropWhile_append_cons (stop : UInt8 → Bool) (head : Bytes)
    {tail : Bytes} {byte : UInt8} (stays : stop byte = false)
    (goes : ∀ other ∈ tail, stop other = true) :
    (head ++ byte :: tail).rdropWhile stop = head ++ [byte] ∧
      (head ++ byte :: tail).rtakeWhile stop = tail := by
  have goesBack : ∀ other ∈ tail.reverse, stop other = true := by
    simpa using goes
  constructor
  · simp [List.rdropWhile, List.dropWhile_append_of_pos goesBack, stays]
  · simp [List.rtakeWhile, List.takeWhile_append_of_pos goesBack, stays]

theorem splitPin_release (head : Bytes) {digits : Bytes} (nonempty : digits ≠ [])
    (areDigits : ∀ byte ∈ digits, Bytes.isDigit byte = true) :
    splitPin (head ++ 45 :: digits) = (head, atoi digits) := by
  have noDash : ∀ byte ∈ digits, decide (byte ≠ 45) = true := by
    intro byte member
    simpa using not_dash_of_isDigit (areDigits byte member)
  obtain ⟨front, back⟩ :=
    rdropWhile_append_cons (fun byte => byte ≠ 45) head
      (by decide : decide ((45 : UInt8) ≠ 45) = false) noDash
  unfold splitPin
  simp only [front, back]
  rw [if_pos ⟨by simp, nonempty, List.all_eq_true.mpr areDigits⟩,
    List.dropLast_concat]

theorem splitPin_version {text : Bytes} (notRelease : ¬EndsInRelease text) :
    splitPin text = (text, -1) := by
  unfold splitPin
  dsimp only
  rw [if_neg]
  rintro ⟨nonempty, digits, areDigits⟩
  have isDash : (text.rdropWhile fun byte => byte ≠ 45).getLast nonempty =
      45 := by
    simpa using List.rdropWhile_last_not _ _ nonempty
  refine notRelease ⟨(text.rdropWhile fun byte => byte ≠ 45).dropLast,
    text.rtakeWhile fun byte => byte ≠ 45, ?_, digits,
    List.all_eq_true.mp areDigits⟩
  have whole := List.dropLast_append_getLast nonempty
  rw [isDash] at whole
  calc text
      = text.rdropWhile (fun byte => byte ≠ 45) ++
          text.rtakeWhile fun byte => byte ≠ 45 :=
        (List.rdropWhile_append_rtakeWhile).symm
    _ = _ := by
        conv_lhs => rw [← whole]
        simp

theorem isDigit_of_mem_printBase {value : Nat} :
    ∀ byte ∈ printBase 10 value, Bytes.isDigit byte = true := by
  intro byte member
  obtain ⟨low, high⟩ :=
    printBase_bounds (by decide : 2 ≤ 10) (Nat.le_refl 10) byte member
  simp only [Bytes.isDigit, Bool.and_eq_true, decide_eq_true_eq,
    UInt8.le_iff_toNat_le]
  constructor
  · exact low
  · exact Nat.le_of_lt_succ high

theorem atoi_printBase {value : Nat} (small : value < 2 ^ 31) :
    atoi (printBase 10 value) = value := by
  have below : min value (2 ^ 63 - 1) = value := by omega
  rw [atoi, readBase_printBase (by decide) (Nat.le_refl 10), below,
    Pkg.toInt32_eq (by omega) (by omega)]

/-- The release of an entry, behind its version and a dash. -/
theorem splitPin_printed (version : Bytes) {release : Int}
    (positive : 0 ≤ release) (small : release < 2 ^ 31) :
    splitPin (version ++ 45 :: printInt release) = (version, release) := by
  obtain ⟨value, rfl⟩ := Int.eq_ofNat_of_zero_le positive
  apply (splitPin_release version (printBase_ne_nil 10 value)
    isDigit_of_mem_printBase).trans
  exact congrArg (Prod.mk version) (atoi_printBase (by omega))

/-! ## Choosing -/

/-- What the loop of `find_pinned` looks at. -/
def Offers (name version : Bytes) (release : Int) (entry : Entry) : Prop :=
  entry.name = name ∧ entry.version = version ∧
    (0 ≤ release → entry.release = release)

instance (name version : Bytes) (release : Int) (entry : Entry) :
    Decidable (Offers name version release entry) :=
  inferInstanceAs (Decidable (_ ∧ _ ∧ _))

/-- A round passes over an entry, or keeps the higher release. -/
theorem pinRound_eq (name version : Bytes) (release : Int)
    (best : Option Entry) (entry : Entry) :
    pinRound name version release best entry =
      if Offers name version release entry then
        keepNewer (fun entry known => entry.release > known.release) best
          entry
      else best := by
  by_cases offers : Offers name version release entry
  · have same : ¬(entry.name ≠ name ∨ entry.version ≠ version) :=
      not_or.mpr ⟨not_not.mpr offers.1, not_not.mpr offers.2.1⟩
    have sameRelease : ¬(0 ≤ release ∧ entry.release ≠ release) :=
      fun both => both.2 (offers.2.2 both.1)
    rw [pinRound.eq_def, if_neg same, if_neg sameRelease, if_pos offers]
    cases best with
    | none => rfl
    | some known => simp [keepNewer]
  · rw [pinRound.eq_def, if_neg offers]
    split
    · rfl
    · rename_i same
      have differs : 0 ≤ release ∧ entry.release ≠ release := by
        rw [not_or, not_not, not_not] at same
        by_contra sameRelease
        refine offers ⟨same.1, same.2, fun isRelease => ?_⟩
        by_contra differ
        exact sameRelease ⟨isRelease, differ⟩
      rw [if_pos differs]

/-- The loop keeps the highest release of what it looks at. -/
theorem foldl_pinRound (items : List Entry) (name version : Bytes)
    (release : Int) :
    items.foldl (pinRound name version release) none =
      (items.filter fun entry => Offers name version release entry).foldl
        (keepNewer fun entry known => entry.release > known.release)
        none := by
  rw [List.foldl_filter]
  congr 1
  funext best entry
  simp only [pinRound_eq, decide_eq_true_eq]

theorem foldl_highestRelease (items : List Entry) :
    (items.foldl (keepNewer fun entry known =>
        entry.release > known.release) none = none ↔ items = []) ∧
      ∀ best, items.foldl (keepNewer fun entry known =>
          entry.release > known.release) none = some best →
        best ∈ items ∧ ∀ item ∈ items, item.release ≤ best.release :=
  foldl_keepNewer (by simp) items

section

variable {index : Index} {pins : List (Bytes × Bytes)}
  {name pin version : Bytes} {release : Int}

/-- What is found for a pin is offered, in the highest release. -/
theorem findPinned_offered (isPin : pins.lookup name = some pin)
    (split : splitPin pin = (version, release)) {found : Entry}
    (isFound : findPinned index pins name = .ok found) :
    found ∈ index.items ∧ Offers name version release found ∧
      ∀ other ∈ index.items, Offers name version release other →
        other.release ≤ found.release := by
  unfold findPinned at isFound
  simp only [isPin, split, foldl_pinRound] at isFound
  have highest := (foldl_highestRelease
    (index.items.filter fun entry => Offers name version release entry)).2
  cases best : (index.items.filter fun entry =>
      Offers name version release entry).foldl
        (keepNewer fun entry known => entry.release > known.release)
        none with
  | none =>
      rw [best] at isFound
      cases isFound
  | some entry =>
      rw [best] at isFound
      cases isFound
      obtain ⟨member, above⟩ := highest found best
      obtain ⟨inIndex, offers⟩ := List.mem_filter.mp member
      refine ⟨inIndex, by simpa using offers, fun other isOther offered => ?_⟩
      exact above other (List.mem_filter.mpr ⟨isOther, by simpa using offered⟩)

/-- A pin that some entry offers is found. -/
theorem findPinned_finds (isPin : pins.lookup name = some pin)
    (split : splitPin pin = (version, release)) {entry : Entry}
    (member : entry ∈ index.items)
    (offers : Offers name version release entry) :
    ∃ found, findPinned index pins name = .ok found := by
  unfold findPinned
  simp only [isPin, split, foldl_pinRound]
  cases best : (index.items.filter fun entry =>
      Offers name version release entry).foldl
        (keepNewer fun entry known => entry.release > known.release)
        none with
  | none =>
      have empty := (foldl_highestRelease (index.items.filter fun entry =>
        Offers name version release entry)).1.mp best
      rw [List.filter_eq_nil_iff] at empty
      exact absurd (by simpa using offers) (empty entry member)
  | some found => exact ⟨found, rfl⟩

end

/-! ## Pins of an entry -/

/-- The entry that a pin to the version of an entry is to select: one of its
name and version with the highest release. -/
def SelectsVersion (index : Index) (pins : List (Bytes × Bytes))
    (entry : Entry) : Prop :=
  ∃ found, findPinned index pins entry.name = .ok found ∧
    found ∈ index.items ∧ found.name = entry.name ∧
    found.version = entry.version ∧
    ∀ other ∈ index.items, other.name = entry.name →
      other.version = entry.version → other.release ≤ found.release

/-- The entry that a pin to the version and release is to select. -/
def SelectsRelease (index : Index) (pins : List (Bytes × Bytes))
    (entry : Entry) : Prop :=
  ∃ found, findPinned index pins entry.name = .ok found ∧
    found ∈ index.items ∧ found.name = entry.name ∧
    found.version = entry.version ∧ found.release = entry.release

/-- A pin selects the entry that it names. -/
structure PinSelects (index : Index) (pins : List (Bytes × Bytes))
    (entry : Entry) : Prop where
  version : pins.lookup entry.name = some entry.version →
    SelectsVersion index pins entry
  release : 0 ≤ entry.release → pins.lookup entry.name =
      some (entry.version ++ 45 :: printInt entry.release) →
    SelectsRelease index pins entry

section

variable {index : Index} {pins : List (Bytes × Bytes)} {entry : Entry}

theorem selectsRelease (member : entry ∈ index.items)
    (positive : 0 ≤ entry.release) (small : entry.release < 2 ^ 31)
    (isPin : pins.lookup entry.name =
      some (entry.version ++ 45 :: printInt entry.release)) :
    SelectsRelease index pins entry := by
  have split := splitPin_printed entry.version positive small
  obtain ⟨found, isFound⟩ := findPinned_finds isPin split member
    ⟨rfl, rfl, fun _ => rfl⟩
  obtain ⟨inIndex, ⟨isName, isVersion, isRelease⟩, -⟩ :=
    findPinned_offered isPin split isFound
  exact ⟨found, isFound, inIndex, isName, isVersion, isRelease positive⟩

theorem selectsVersion_iff (member : entry ∈ index.items)
    (isPin : pins.lookup entry.name = some entry.version) :
    SelectsVersion index pins entry ↔ ¬EndsInRelease entry.version := by
  constructor
  · rintro ⟨found, isFound, -, -, isVersion, -⟩ ⟨head, digits, isText,
      nonempty, areDigits⟩
    have split := splitPin_release head nonempty areDigits
    rw [← isText] at split
    obtain ⟨-, ⟨-, isHead, -⟩, -⟩ := findPinned_offered isPin split isFound
    -- What is offered has the shorter version.
    have lengths := congrArg List.length
      (isHead.symm.trans (isVersion.trans isText))
    simp only [List.length_append, List.length_cons] at lengths
    omega
  · intro notRelease
    have split := splitPin_version notRelease
    obtain ⟨found, isFound⟩ := findPinned_finds isPin split member
      ⟨rfl, rfl, fun positive => by omega⟩
    obtain ⟨inIndex, ⟨isName, isVersion, -⟩, highest⟩ :=
      findPinned_offered isPin split isFound
    refine ⟨found, isFound, inIndex, isName, isVersion, ?_⟩
    intro other isOther otherName otherVersion
    apply highest other isOther
    exact ⟨otherName, otherVersion, fun positive => by omega⟩

/-- Pins select what they name, unless one is a bare version that ends in a
dash and a number. -/
theorem findPinned_selects_iff (member : entry ∈ index.items)
    (small : entry.release < 2 ^ 31) :
    PinSelects index pins entry ↔
      ¬(pins.lookup entry.name = some entry.version ∧
        EndsInRelease entry.version) := by
  constructor
  · rintro selects ⟨isPin, isRelease⟩
    exact (selectsVersion_iff member isPin).mp (selects.version isPin)
      isRelease
  · intro notBoth
    constructor
    · intro isPin
      apply (selectsVersion_iff member isPin).mpr
      exact fun isRelease => notBoth ⟨isPin, isRelease⟩
    · intro positive isPin
      exact selectsRelease member positive small isPin

end

/-! ## Two ways to read a pin -/

def pinnedEntry (version : String) (release : Int) : Entry where
  name := ascii "tool"
  version := ascii version
  release := release
  arch := []
  filename := []
  url := none
  sha256 := []
  size := 0
  summary := []
  deps := []
  conflicts := []

/-- A dated version, and an older one with a release of its own. -/
def pinnedIndex : Index where
  repoName := none
  arch := none
  items := [pinnedEntry "2024-01" 3, pinnedEntry "2024" 1]

/-- With its release the dated version is selected. -/
theorem findPinned_selects_release :
    PinSelects pinnedIndex [(ascii "tool", ascii "2024-01-3")]
      (pinnedEntry "2024-01" 3) := by
  apply (findPinned_selects_iff (by decide) (by decide)).mpr
  rintro ⟨isPin, -⟩
  revert isPin
  decide

/-- On its own it is taken for the release 1 of `2024`. -/
theorem findPinned_selects_other :
    pinnedEntry "2024-01" 3 ∈ pinnedIndex.items ∧
      findPinned pinnedIndex [(ascii "tool", ascii "2024-01")]
          (ascii "tool") = .ok (pinnedEntry "2024" 1) ∧
        ¬PinSelects pinnedIndex [(ascii "tool", ascii "2024-01")]
          (pinnedEntry "2024-01" 3) := by
  have isFound : findPinned pinnedIndex [(ascii "tool", ascii "2024-01")]
      (ascii "tool") = .ok (pinnedEntry "2024" 1) := by
    rfl
  refine ⟨by decide, isFound, fun selects => ?_⟩
  obtain ⟨found, isOther, -, -, isVersion, -⟩ :=
    selects.version (by decide)
  cases isFound.symm.trans isOther
  revert isVersion
  decide

end SaltOS.Config
