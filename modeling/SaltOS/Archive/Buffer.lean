import SaltOS.Archive.Tar

/-!
# Reading an archive in place

`salt_tar_read` on its buffer: what the callback gets is a pointer into the
buffer or a null pointer, together with the size of the header.  Rounds go
forward, so that the loop ends, and the pointers of files stay inside.
-/

namespace SaltOS.Tar

/-- An entry as the callback gets it; `data` is an offset into the buffer. -/
structure Member where
  path : Bytes
  typeflag : UInt8
  mode : Nat
  size : Nat
  linkname : Bytes
  data : Option Nat
  deriving DecidableEq, Repr

/-- What a round of `salt_tar_read` does. -/
inductive Round where
  | stop (ending : ReadEnd)
  | again (longname longlink : Option Bytes) (pos : Nat)
  | hand (member : Member) (pos : Nat)
  deriving DecidableEq, Repr

/-- Sizes are rounded up to whole blocks. -/
def blocks (size : Nat) : Nat :=
  (size + blockSize - 1) / blockSize * blockSize

/-- A round of `salt_tar_read` at a position, with the pending long names. -/
def round (buffer : Bytes) (longname longlink : Option Bytes) (pos : Nat) :
    Round :=
  if buffer.length < pos + blockSize then .stop .complete
  else
    let header := slice buffer pos blockSize
    let start := pos + blockSize
    if header.all (· == 0) then .stop .complete
    else
      let size := parseOctal (slice header 124 12)
      let typeflag := header.getD 156 0
      let isFile := typeflag = typeFile ∨ typeflag = 0
      if (typeflag = 76 ∨ typeflag = 75 ∨ isFile) ∧
          size > buffer.length - start then
        .stop .sizeExceedsArchive
      else if typeflag = 76 then
        .again (some (cstr (slice buffer start size))) longlink
          (start + blocks size)
      else if typeflag = 75 then
        .again longname (some (cstr (slice buffer start size)))
          (start + blocks size)
      else
        .hand
          { path := longname.getD (headerPath header)
            typeflag := typeflag
            mode := parseOctal (slice header 100 8)
            size := size
            linkname := longlink.getD (cstr (slice header 157 100))
            data := if isFile then some start else none }
          (if isFile then start + blocks size else start)

/-- What is handed to a callback that always succeeds. -/
structure Members where
  members : List Member
  ending : ReadEnd
  deriving DecidableEq, Repr

def Members.cons (member : Member) (rest : Members) : Members :=
  { rest with members := member :: rest.members }

/-- The loop of `salt_tar_read`, without a bound on its rounds. -/
inductive Reads (buffer : Bytes) :
    Option Bytes → Option Bytes → Nat → Members → Prop where
  | stop {longname longlink : Option Bytes} {pos : Nat} {ending : ReadEnd}
      (isRound : round buffer longname longlink pos = .stop ending) :
      Reads buffer longname longlink pos ⟨[], ending⟩
  | again {longname longlink longname' longlink' : Option Bytes}
      {pos pos' : Nat} {rest : Members}
      (isRound : round buffer longname longlink pos =
        .again longname' longlink' pos')
      (reads : Reads buffer longname' longlink' pos' rest) :
      Reads buffer longname longlink pos rest
  | hand {longname longlink : Option Bytes} {pos pos' : Nat}
      {member : Member} {rest : Members}
      (isRound : round buffer longname longlink pos = .hand member pos')
      (reads : Reads buffer none none pos' rest) :
      Reads buffer longname longlink pos (rest.cons member)

def memberLoop (buffer : Bytes) :
    Nat → Option Bytes → Option Bytes → Nat → Members
  | 0, _, _, _ => ⟨[], .complete⟩
  | fuel + 1, longname, longlink, pos =>
      match round buffer longname longlink pos with
      | .stop ending => ⟨[], ending⟩
      | .again longname longlink pos =>
          memberLoop buffer fuel longname longlink pos
      | .hand member pos =>
          (memberLoop buffer fuel none none pos).cons member

/-- `salt_tar_read`, with fuel for a round for every byte. -/
def members (buffer : Bytes) : Members :=
  memberLoop buffer (buffer.length + 1) none none 0

/-! ## Rounds -/

/-- A pointer with a size that lies inside the buffer; nothing is read
through a null pointer when the size is zero. -/
def Inside (buffer : Bytes) (data : Option Nat) (size : Nat) : Prop :=
  size = 0 ∨ ∃ offset, data = some offset ∧ offset + size ≤ buffer.length

instance (buffer : Bytes) (data : Option Nat) (size : Nat) :
    Decidable (Inside buffer data size) :=
  match data with
  | none => decidable_of_iff (size = 0) (by simp [Inside])
  | some offset =>
      decidable_of_iff (size = 0 ∨ offset + size ≤ buffer.length)
        (by simp [Inside])

def Member.IsFile (member : Member) : Prop :=
  member.typeflag = typeFile ∨ member.typeflag = 0

instance (member : Member) : Decidable member.IsFile :=
  inferInstanceAs (Decidable (_ ∨ _))

/-- Files lie in the buffer, other entries have a null pointer. -/
structure Member.Placed (buffer : Bytes) (member : Member) : Prop where
  file : member.IsFile → ∃ offset, member.data = some offset ∧
    offset + member.size ≤ buffer.length
  other : ¬ member.IsFile → member.data = none

section

variable {buffer : Bytes} {longname longlink : Option Bytes} {pos : Nat}

/-- A round that goes on has taken a header. -/
theorem round_forward :
    match round buffer longname longlink pos with
    | .stop _ => True
    | .again _ _ pos' => pos + blockSize ≤ pos' ∧
        pos + blockSize ≤ buffer.length
    | .hand member pos' => pos + blockSize ≤ pos' ∧
        pos + blockSize ≤ buffer.length ∧ member.Placed buffer := by
  rw [round]
  by_cases short : buffer.length < pos + blockSize
  · rw [if_pos short]
    trivial
  rw [if_neg short]
  dsimp only
  by_cases zero : (slice buffer pos blockSize).all (· == 0) = true
  · rw [if_pos zero]
    trivial
  rw [if_neg zero]
  generalize parseOctal (slice (slice buffer pos blockSize) 124 12) = size
  generalize (slice buffer pos blockSize).getD 156 0 = typeflag
  by_cases exceeds : (typeflag = 76 ∨ typeflag = 75 ∨
      typeflag = typeFile ∨ typeflag = 0) ∧
        size > buffer.length - (pos + blockSize)
  · rw [if_pos exceeds]
    trivial
  rw [if_neg exceeds]
  by_cases isName : typeflag = 76
  · rw [if_pos isName]
    exact ⟨by omega, by omega⟩
  rw [if_neg isName]
  by_cases isLink : typeflag = 75
  · rw [if_pos isLink]
    exact ⟨by omega, by omega⟩
  rw [if_neg isLink]
  refine ⟨by split <;> omega, by omega, ?_⟩
  constructor
  · intro isFile
    refine ⟨pos + blockSize, if_pos isFile, ?_⟩
    have fits : ¬ size > buffer.length - (pos + blockSize) :=
      fun large => exceeds ⟨.inr (.inr isFile), large⟩
    dsimp only
    omega
  · exact fun notFile => if_neg notFile

theorem memberLoop_reads (fuel : Nat) (longname longlink : Option Bytes)
    (pos : Nat) (enough : buffer.length < pos + fuel) :
    Reads buffer longname longlink pos
      (memberLoop buffer fuel longname longlink pos) := by
  induction fuel generalizing longname longlink pos with
  | zero =>
      apply Reads.stop
      rw [round, if_pos (by simp [blockSize]; omega)]
  | succ fuel induction =>
      have forward := @round_forward buffer longname longlink pos
      rw [memberLoop]
      cases isRound : round buffer longname longlink pos with
      | stop ending => exact .stop isRound
      | again longname' longlink' pos' =>
          rw [isRound] at forward
          simp only [blockSize] at forward
          exact .again isRound (induction _ _ _ (by omega))
      | hand member pos' =>
          rw [isRound] at forward
          simp only [blockSize] at forward
          exact .hand isRound (induction _ _ _ (by omega))

theorem Reads.placed {result : Members}
    (reads : Reads buffer longname longlink pos result) :
    ∀ member ∈ result.members, member.Placed buffer := by
  induction reads with
  | stop _ => simp
  | again _ _ induction => exact induction
  | @hand longname longlink pos pos' member rest isRound _ induction =>
      have forward := @round_forward buffer longname longlink pos
      rw [isRound] at forward
      intro other isMember
      rcases List.mem_cons.mp isMember with rfl | inside
      · exact forward.2.2
      · exact induction other inside

end

theorem members_reads (buffer : Bytes) :
    Reads buffer none none 0 (members buffer) :=
  memberLoop_reads _ none none 0 (by omega)

theorem members_placed (buffer : Bytes) :
    ∀ member ∈ (members buffer).members, member.Placed buffer :=
  (members_reads buffer).placed

/-! ## Entries -/

/-- The entry that a callback sees through its pointer. -/
def Member.entry (buffer : Bytes) (member : Member) : Entry where
  path := member.path
  typeflag := member.typeflag
  mode := member.mode
  size := member.size
  linkname := some member.linkname
  data := member.data.map (slice buffer · member.size)

def Members.reading (buffer : Bytes) (result : Members) : Reading where
  entries := result.members.map (Member.entry buffer)
  ending := result.ending

theorem readLoop_eq (buffer : Bytes) (fuel : Nat)
    (longname longlink : Option Bytes) (pos : Nat) :
    readLoop fuel longname longlink (buffer.drop pos) =
      (memberLoop buffer fuel longname longlink pos).reading buffer := by
  induction fuel generalizing longname longlink pos with
  | zero => rfl
  | succ fuel induction =>
      rw [readLoop, memberLoop, round]
      have header : (buffer.drop pos).take blockSize =
          slice buffer pos blockSize := rfl
      have positive : 0 < blockSize := by decide
      rw [header, List.drop_drop, List.length_drop]
      by_cases short : buffer.length < pos + blockSize
      · rw [if_pos short, if_pos (by omega)]
        rfl
      rw [if_neg short, if_neg (by omega)]
      dsimp only
      by_cases zero : (slice buffer pos blockSize).all (· == 0) = true
      · rw [if_pos zero, if_pos zero]
        rfl
      rw [if_neg zero, if_neg zero]
      generalize parseOctal (slice (slice buffer pos blockSize) 124 12) = size
      have skipped : (buffer.drop (pos + blockSize)).drop
          ((size + blockSize - 1) / blockSize * blockSize) =
          buffer.drop (pos + blockSize + blocks size) := by
        rw [List.drop_drop, blocks]
      have text : (buffer.drop (pos + blockSize)).take size =
          slice buffer (pos + blockSize) size := rfl
      rw [skipped, text, List.length_drop]
      generalize (slice buffer pos blockSize).getD 156 0 = typeflag
      by_cases exceeds : (typeflag = 76 ∨ typeflag = 75 ∨
          typeflag = typeFile ∨ typeflag = 0) ∧
            size > buffer.length - (pos + blockSize)
      · rw [if_pos exceeds, if_pos exceeds]
        rfl
      rw [if_neg exceeds, if_neg exceeds]
      by_cases isName : typeflag = 76
      · rw [if_pos isName, if_pos isName]
        exact induction _ _ _
      rw [if_neg isName, if_neg isName]
      by_cases isLink : typeflag = 75
      · rw [if_pos isLink, if_pos isLink]
        exact induction _ _ _
      rw [if_neg isLink, if_neg isLink]
      by_cases isFile : typeflag = typeFile ∨ typeflag = 0
      · simp only [if_pos isFile, induction]
        rfl
      · simp only [if_neg isFile, induction]
        rfl

/-- The entries of `read` are what lies behind the pointers. -/
theorem read_eq_members (buffer : Bytes) :
    read buffer = (members buffer).reading buffer := by
  have same := readLoop_eq buffer (buffer.length + 1) none none 0
  rwa [List.drop_zero] at same

end SaltOS.Tar
