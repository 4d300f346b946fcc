import SaltOS.Toml.Values

/-!
# The value of an integer token

`parse_scalar_token` copies a token without its underscores into a buffer for
63 characters before it converts it.  What is cut off matters only behind
leading zeros, since any other token of this length is out of range.
-/

namespace SaltOS

/-! ## Numerals that are cut off -/

section

variable {digits front rest : Bytes}

theorem readBase_append (base : Nat) (front rest : Bytes) :
    readBase base (front ++ rest) =
      readBase base front * base ^ rest.length + readBase base rest := by
  induction rest using List.reverseRecOn with
  | nil => simp [readBase]
  | append_singleton rest byte induction =>
      have step : ∀ digits : Bytes, readBase base (digits ++ [byte]) =
          readBase base digits * base + digitValue byte := by
        intro digits
        simp [readBase]
      rw [← List.append_assoc, step, step, induction, List.length_append,
        List.length_singleton]
      ring

theorem digitValue_eq_zero_iff {byte : UInt8}
    (digit : Bytes.isDigit byte = true) : digitValue byte = 0 ↔ byte = 48 := by
  refine forall_byte (fun byte => Bytes.isDigit byte = true →
    (digitValue byte = 0 ↔ byte = 48)) ?_ byte digit
  decide +kernel

theorem readBase_eq_zero_iff
    (areDigits : ∀ byte ∈ digits, Bytes.isDigit byte = true) :
    readBase 10 digits = 0 ↔ ∀ byte ∈ digits, byte = 48 := by
  induction digits with
  | nil => simp [readBase]
  | cons byte digits induction =>
      have later : ∀ other ∈ digits, Bytes.isDigit other = true :=
        fun other member => areDigits other (List.mem_cons_of_mem byte member)
      have first := digitValue_eq_zero_iff (areDigits byte List.mem_cons_self)
      have single : readBase 10 [byte] = digitValue byte := by
        simp [readBase]
      rw [← List.singleton_append, readBase_append, single,
        Nat.add_eq_zero_iff, induction later, Nat.mul_eq_zero, first]
      simp

/-- A numeral that lost its last digits has the same value in a range only if
it is beyond the range already, or zero. -/
theorem min_cut_iff {bound : Nat} (nonempty : rest ≠ []) :
    min (readBase 10 front) bound = min (readBase 10 (front ++ rest)) bound ↔
      bound ≤ readBase 10 front ∨ readBase 10 (front ++ rest) = 0 := by
  have longer : readBase 10 front * 10 ≤ readBase 10 (front ++ rest) := by
    rw [readBase_append]
    have positive := List.length_pos_of_ne_nil nonempty
    have power : 10 ^ 1 ≤ 10 ^ rest.length :=
      Nat.pow_le_pow_right (by decide) positive
    calc readBase 10 front * 10
        ≤ readBase 10 front * 10 ^ rest.length :=
          Nat.mul_le_mul_left _ (by simpa using power)
      _ ≤ _ := Nat.le_add_right _ _
  omega

end

namespace Toml

/-! ## Tokens -/

/-- A token of an optional sign, digits and underscores. -/
structure IntToken (sign body : Bytes) : Prop where
  isSign : sign = [] ∨ sign = [43] ∨ sign = [45]
  bytes : ∀ byte ∈ body, byte = 95 ∨ Bytes.isDigit byte = true
  digit : ∃ byte ∈ body, Bytes.isDigit byte = true

def tokenDigits (body : Bytes) : Bytes :=
  body.filter Bytes.isDigit

/-- The decimal value of digits behind a sign. -/
def signedValue (sign digits : Bytes) : Int :=
  if sign = [45] then -(readBase 10 digits : Int) else readBase 10 digits

/-- The decimal value of a token. -/
def tokenValue (sign body : Bytes) : Int :=
  signedValue sign (tokenDigits body)

/-- The range of a `long long`. -/
def clampLong (value : Int) : Int :=
  max (-2 ^ 63) (min (2 ^ 63 - 1) value)

/-- Where the range ends for the sign. -/
def signBound (sign : Bytes) : Nat :=
  if sign = [45] then 2 ^ 63 else 2 ^ 63 - 1

/-- The digits that the buffer has room for. -/
def keptDigits (sign body : Bytes) : Bytes :=
  (tokenDigits body).take (63 - sign.length)

/-- Nothing is cut off, or the kept digits are out of range already, or there
are zeros only. -/
def FitsBuffer (sign body : Bytes) : Prop :=
  (tokenDigits body).length ≤ 63 - sign.length ∨
    signBound sign ≤ readBase 10 (keptDigits sign body) ∨
    ∀ byte ∈ tokenDigits body, byte = 48

instance (sign body : Bytes) : Decidable (FitsBuffer sign body) :=
  inferInstanceAs (Decidable (_ ∨ _ ∨ _))

section

variable {sign body : Bytes}

theorem tokenDigits_isDigit :
    ∀ byte ∈ tokenDigits body, Bytes.isDigit byte = true :=
  fun _ member => (List.mem_filter.mp member).2

theorem IntToken.plain (token : IntToken sign body) :
    ∀ byte ∈ sign ++ body, isScalarEnd byte = false ∧
      byte ∉ [0, 102, 116] := by
  intro byte member
  rcases List.mem_append.mp member with inSign | inBody
  · rcases token.isSign with rfl | rfl | rfl
    · cases inSign
    · rw [List.mem_singleton.mp inSign]
      decide
    · rw [List.mem_singleton.mp inSign]
      decide
  · rcases token.bytes byte inBody with rfl | isDigit
    · decide
    · obtain ⟨noEnd, -, others⟩ := isDigit_plain isDigit
      exact ⟨noEnd, by simp_all⟩

/-- What the buffer holds. -/
theorem IntToken.buffer (token : IntToken sign body) :
    ((sign ++ body).filter (· != 95)).take 63 =
      sign ++ keptDigits sign body := by
  have noUnderscore : ∀ byte, Bytes.isDigit byte = true → byte ≠ 95 := by
    rintro byte digit rfl
    exact absurd digit (by decide)
  have sameBody : body.filter (· != 95) = tokenDigits body := by
    apply List.filter_congr
    intro byte member
    rcases token.bytes byte member with rfl | isDigit
    · decide
    · rw [isDigit]
      simpa using noUnderscore byte isDigit
  have sameSign : sign.filter (· != 95) = sign := by
    rcases token.isSign with rfl | rfl | rfl <;> decide
  have short : sign.length ≤ 63 := by
    rcases token.isSign with rfl | rfl | rfl <;> decide
  rw [List.filter_append, sameBody, sameSign, List.take_append,
    List.take_of_length_le short]
  rfl

/-- `strtoll` gives the value of what it reads, clamped. -/
theorem strtoll_digits (isSign : sign = [] ∨ sign = [43] ∨ sign = [45])
    {digits : Bytes}
    (areDigits : ∀ byte ∈ digits, Bytes.isDigit byte = true) :
    strtoll (sign ++ digits) = clampLong (signedValue sign digits) := by
  have same : digits.filter Bytes.isDigit = digits :=
    List.filter_eq_self.mpr areDigits
  have noSign : digits.head? ≠ some 45 := by
    intro isMinus
    exact absurd (areDigits 45 (List.mem_of_mem_head? isMinus)) (by decide)
  have digitsOnly : (sign ++ digits).filter Bytes.isDigit = digits := by
    rw [List.filter_append, same]
    rcases isSign with rfl | rfl | rfl <;> rfl
  rw [strtoll, digitsOnly, clampLong, signedValue]
  rcases isSign with rfl | rfl | rfl
  · simp only [List.nil_append, noSign, if_false, List.ne_cons_self]
    omega
  · rw [if_neg (by simp), if_neg (by decide)]
    omega
  · rw [if_pos (by simp), if_pos rfl]
    omega

/-- Clamped values are the same when the magnitudes are, up to the bound. -/
theorem clampLong_signedValue_iff {first second : Bytes} :
    clampLong (signedValue sign first) = clampLong (signedValue sign second) ↔
      min (readBase 10 first) (signBound sign) =
        min (readBase 10 second) (signBound sign) := by
  unfold clampLong signedValue signBound
  split <;> omega

theorem keptDigits_iff :
    min (readBase 10 (keptDigits sign body)) (signBound sign) =
        min (readBase 10 (tokenDigits body)) (signBound sign) ↔
      FitsBuffer sign body := by
  have split : keptDigits sign body ++
      (tokenDigits body).drop (63 - sign.length) = tokenDigits body :=
    List.take_append_drop _ _
  unfold FitsBuffer
  by_cases whole : (tokenDigits body).length ≤ 63 - sign.length
  · simp [whole, keptDigits, List.take_of_length_le whole]
  · have cut : (tokenDigits body).drop (63 - sign.length) ≠ [] := by
      rw [ne_eq, List.drop_eq_nil_iff]
      exact whole
    have lost := @min_cut_iff (keptDigits sign body) _ (signBound sign) cut
    rw [split] at lost
    rw [lost, readBase_eq_zero_iff tokenDigits_isDigit]
    simp [whole]

/-- The node of a token has the value of what the buffer holds. -/
theorem scalarNode_token (token : IntToken sign body) :
    scalarNode (sign ++ body) =
      .int (clampLong (signedValue sign (keptDigits sign body))) := by
  have plain := token.plain
  have noTrue : sign ++ body ≠ ascii "true" := by
    intro same
    have inside := plain 116 (by rw [same]; decide)
    simp at inside
  have noFalse : sign ++ body ≠ ascii "false" := by
    intro same
    have inside := plain 102 (by rw [same]; decide)
    simp at inside
  obtain ⟨digit, inBody, -⟩ := token.digit
  have nonempty : body ≠ [] := List.ne_nil_of_mem inBody
  have noSign : ∀ byte ∈ body, byte ≠ 43 ∧ byte ≠ 45 := by
    intro byte member
    rcases token.bytes byte member with rfl | isDigit
    · decide
    · have others := (isDigit_plain isDigit).2.2
      simp_all
  have stripped : (if (sign ++ body).head? = some 43 ∨
      (sign ++ body).head? = some 45 then (sign ++ body).drop 1
      else sign ++ body) = body := by
    rcases token.isSign with rfl | rfl | rfl
    · obtain ⟨first, more, rfl⟩ := List.exists_cons_of_ne_nil nonempty
      have first := noSign first List.mem_cons_self
      simp [first.1, first.2]
    · rfl
    · rfl
  have allDigits : body.all (fun byte => byte == 95 ||
      Bytes.isDigit byte) = true := by
    rw [List.all_eq_true]
    intro byte member
    simpa using token.bytes byte member
  have kept : ∀ byte ∈ keptDigits sign body, Bytes.isDigit byte = true :=
    fun byte member => tokenDigits_isDigit byte (List.mem_of_mem_take member)
  simp only [scalarNode, noTrue, noFalse, if_false, stripped, nonempty,
    allDigits, token.buffer, ne_eq, not_false_eq_true, and_self, if_true,
    strtoll_digits token.isSign kept]

/-- A token up to what ends it. -/
theorem parseScalarToken_token (token : IntToken sign body) {rest : Bytes}
    (ends : ∀ byte ∈ rest.head?, isScalarEnd byte = true)
    (past line : Nat) :
    (parseScalarToken ⟨sign ++ body ++ rest, past, line⟩).1 =
      scalarNode (sign ++ body) := by
  have whole : (sign ++ body ++ rest).takeWhile
      (fun byte => !isScalarEnd byte) = sign ++ body := by
    rw [List.takeWhile_append_of_pos fun byte member => by
      simp [(token.plain byte member).1]]
    cases rest with
    | nil => simp
    | cons first more => simp [ends first rfl]
  have noNul : 0 ∉ sign ++ body := by
    intro member
    have inside := (token.plain 0 member).2
    simp at inside
  simp only [parseScalarToken, whole, cstr_eq_self noNul]

end

/-- The node of an integer token has its value, clamped, exactly when the
buffer loses nothing that counts. -/
theorem parseScalarToken_int_iff {sign body rest : Bytes}
    (token : IntToken sign body)
    (ends : ∀ byte ∈ rest.head?, isScalarEnd byte = true)
    (past line : Nat) :
    (parseScalarToken ⟨sign ++ body ++ rest, past, line⟩).1 =
        .int (clampLong (tokenValue sign body)) ↔
      FitsBuffer sign body := by
  rw [parseScalarToken_token token ends, scalarNode_token token,
    Node.int.injEq, tokenValue, clampLong_signedValue_iff, keptDigits_iff]

/-! ## A token with many zeros -/

/-- The number one behind 63 zeros. -/
def paddedOne : Bytes :=
  List.replicate 63 48 ++ [49]

theorem paddedOne_token : IntToken [] paddedOne where
  isSign := .inl rfl
  bytes := by decide +kernel
  digit := ⟨49, by decide, by decide⟩

theorem grouped_token_value :
    (parseScalarToken ⟨ascii "-1_000\n", 0, 1⟩).1 =
      .int (clampLong (tokenValue [45] (ascii "1_000"))) := by
  have token : IntToken [45] (ascii "1_000") :=
    ⟨by decide, by decide +kernel, 49, by decide, by decide⟩
  exact (@parseScalarToken_int_iff [45] (ascii "1_000") [10] token
    (by decide +kernel) 0 1).mpr (by decide)

/-- The padded one is read as zero. -/
theorem paddedOne_lost :
    IntToken [] paddedOne ∧
      (parseScalarToken ⟨paddedOne, 0, 1⟩).1 ≠
        .int (clampLong (tokenValue [] paddedOne)) := by
  refine ⟨paddedOne_token, ?_⟩
  intro same
  have read := @parseScalarToken_token [] paddedOne paddedOne_token [] (by simp)
    0 1
  rw [List.append_nil, List.nil_append] at read
  have node := scalarNode_token paddedOne_token
  rw [List.nil_append] at node
  rw [read, node, Node.int.injEq] at same
  revert same
  decide +kernel

end Toml

end SaltOS
