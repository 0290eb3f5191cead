import AccountDirectory.Service

/-! The path gate over every string. The gate slices the path at byte 2 before
it has looked at the prefix, so a path with a character across that byte makes
the handlers panic; on every other path the gate decides the shape of an account
root exactly. -/
namespace AccountDirectory

variable {Route Signature σ : Type} [Store σ] (P : Platform Route Signature)

def LowerHexDigit (c : Char) : Prop := '0' ≤ c ∧ c ≤ '9' ∨ 'a' ≤ c ∧ c ≤ 'f'

instance : DecidablePred LowerHexDigit := fun _ => inferInstanceAs (Decidable (_ ∨ _))

/-- `02`, `03` or `04`, then 64 to 128 lowercase hex digits. -/
def RootShape (chars : List Char) : Prop :=
  ∃ version ∈ ['2', '3', '4'], ∃ point : List Char, chars = '0' :: version :: point ∧
    64 ≤ point.length ∧ point.length ≤ 128 ∧ ∀ c ∈ point, LowerHexDigit c

/-- No character lies across byte 2: the first fills both bytes, or the first
two fill one each, or the string ends there. -/
def SplitsAtTwo : List Char → Prop
  | [] => True
  | [c] => c.utf8Size ≤ 2
  | c :: d :: _ => c.utf8Size = 2 ∨ c.utf8Size = 1 ∧ d.utf8Size = 1

/-- The gate answers, lets exactly the account roots pass, and what it stops is
`404` from both handlers with nothing changed. -/
structure Gated (σ : Type) [Store σ] (root : String) : Prop where
  decides : ∃ passed, isAccountRoot root = .ok passed ∧ (passed = true ↔ RootShape root.toList)
  notFound : ¬ RootShape root.toList → ∀ (dir : BlindDirectory Route σ) (body : String),
    publish P dir root body = (.ok (text .notFound "not found"), dir) ∧
      fetch P dir root = .ok (text .notFound "not found")

section Bytes

variable {c : Char} {chars : List Char}

def isLowerHexByte (b : UInt8) : Bool := (48 ≤ b && b ≤ 57) || (97 ≤ b && b ≤ 102)

theorem utf8ByteSize_eq (s : String) : s.utf8ByteSize = utf8Len s.toList := by
  obtain ⟨chars, rfl⟩ : ∃ chars, s = String.ofList chars := ⟨s.toList, String.ofList_toList.symm⟩
  rw [← String.size_toByteArray, String.toByteArray_ofList, String.toList_ofList]
  simp [utf8Len, utf8Bytes, List.utf8Encode]

theorem utf8Bytes_cons (c : Char) (chars : List Char) :
    utf8Bytes (c :: chars) = String.utf8EncodeChar c ++ utf8Bytes chars := rfl

theorem utf8Len_cons (c : Char) (chars : List Char) :
    utf8Len (c :: chars) = c.utf8Size + utf8Len chars := by
  rw [utf8Len, utf8Bytes_cons, List.length_append, String.length_utf8EncodeChar]
  rfl

theorem lowerHexDigit_iff : LowerHexDigit c ↔
    48 ≤ c.val.toNat ∧ c.val.toNat ≤ 57 ∨ 97 ≤ c.val.toNat ∧ c.val.toNat ≤ 102 := by
  unfold LowerHexDigit
  simp only [Char.le_def, UInt32.le_iff_toNat_le]
  rfl

theorem isLowerHexByte_iff {n : Nat} (h : n < 256) : isLowerHexByte (UInt8.ofNat n) = true ↔
    48 ≤ n ∧ n ≤ 57 ∨ 97 ≤ n ∧ n ≤ 102 := by
  simp only [isLowerHexByte, Bool.or_eq_true, Bool.and_eq_true, decide_eq_true_eq,
    UInt8.le_iff_toNat_le, UInt8.toNat_ofNat_of_lt' h]
  rfl

/-- The lead byte of a wider character is no digit. -/
theorem isLowerHexByte_lead {n : Nat} (hlow : 192 ≤ n) (h : n < 256) :
    isLowerHexByte (UInt8.ofNat n) = false := by
  rw [← Bool.not_eq_true, isLowerHexByte_iff h]
  omega

theorem all_utf8EncodeChar (c : Char) :
    (String.utf8EncodeChar c).all isLowerHexByte = decide (LowerHexDigit c) := by
  rw [Bool.eq_iff_iff, decide_eq_true_iff, lowerHexDigit_iff]
  unfold String.utf8EncodeChar
  dsimp only
  split
  · rw [List.all_cons, List.all_nil, Bool.and_true, isLowerHexByte_iff (by omega)]
  · -- Two, three or four bytes: the lead byte alone fails.
    split
    · rw [List.all_cons, isLowerHexByte_lead (by omega) (by omega), Bool.false_and]
      simp only [Bool.false_eq_true, false_iff]
      omega
    · split
      · rw [List.all_cons, isLowerHexByte_lead (by omega) (by omega), Bool.false_and]
        simp only [Bool.false_eq_true, false_iff]
        omega
      · rw [List.all_cons, isLowerHexByte_lead (by omega) (by omega), Bool.false_and]
        simp only [Bool.false_eq_true, false_iff]
        omega

theorem all_utf8Bytes (chars : List Char) :
    (utf8Bytes chars).all isLowerHexByte = chars.all fun c => decide (LowerHexDigit c) := by
  induction chars with
  | nil => rfl
  | cons c rest ih => rw [utf8Bytes_cons, List.all_append, all_utf8EncodeChar, ih, List.all_cons]

theorem utf8Len_of_lowerHex (h : ∀ c ∈ chars, LowerHexDigit c) : utf8Len chars = chars.length := by
  induction chars with
  | nil => rfl
  | cons c rest ih =>
      have hdigit := lowerHexDigit_iff.mp (h c (by simp))
      have hsize : c.utf8Size = 1 := by
        rw [Char.utf8Size_eq_one_iff, UInt32.le_iff_toNat_le]
        change c.val.toNat ≤ 127
        omega
      rw [utf8Len_cons, hsize, ih fun d hd => h d (by simp [hd]), List.length_cons, Nat.add_comm]

end Bytes

section Slice

variable {chars : List Char}

/-- `if root.len() >= 2 { &root[2..] } else { "" }`. -/
def pointPart (chars : List Char) : Except Panic (List Char) :=
  if 2 ≤ utf8Len chars then sliceFrom chars 2 else .ok []

theorem pointPart_of_splits (h : SplitsAtTwo chars) :
    ∃ point, pointPart chars = .ok point ∧
      ∀ version rest, chars = '0' :: version :: rest → version.utf8Size = 1 → point = rest := by
  unfold pointPart
  match chars, h with
  | [], _ => exact ⟨[], rfl, nofun⟩
  | [c], h =>
      refine ⟨[], ?_, nofun⟩
      change c.utf8Size ≤ 2 at h
      have hlen : utf8Len [c] = c.utf8Size := utf8Len_cons c []
      split
      · have htwo : c.utf8Size = 2 := by omega
        simp [sliceFrom, htwo]
      · rfl
  | c :: d :: rest, h =>
      have hlen : utf8Len (c :: d :: rest) = c.utf8Size + (d.utf8Size + utf8Len rest) := by
        rw [utf8Len_cons, utf8Len_cons]
      have hpos := d.utf8Size_pos
      rcases h with htwo | ⟨hone, hone'⟩
      · refine ⟨d :: rest, ?_, ?_⟩
        · rw [if_pos (by omega)]
          simp [sliceFrom, htwo]
        · rintro version later heq -
          rw [(List.cons.inj heq).1] at htwo
          cases htwo
      · refine ⟨rest, ?_, ?_⟩
        · rw [if_pos (by omega)]
          simp [sliceFrom, hone, hone']
        · intro version later heq _
          exact (List.cons.inj (List.cons.inj heq).2).2

theorem pointPart_of_not_splits (h : ¬ SplitsAtTwo chars) :
    pointPart chars = .error .charBoundary := by
  unfold pointPart
  match chars, h with
  | [], h => exact absurd trivial h
  | [c], h =>
      change ¬ c.utf8Size ≤ 2 at h
      have hlen : utf8Len [c] = c.utf8Size := utf8Len_cons c []
      rw [if_pos (by omega)]
      simp [sliceFrom, h]
  | c :: d :: rest, h =>
      obtain ⟨htwo, hones⟩ := not_or.mp h
      have hlen : utf8Len (c :: d :: rest) = c.utf8Size + (d.utf8Size + utf8Len rest) := by
        rw [utf8Len_cons, utf8Len_cons]
      have hpos := c.utf8Size_pos
      have hpos' := d.utf8Size_pos
      rw [if_pos (by omega)]
      by_cases hone : c.utf8Size = 1
      · have hwide : ¬ d.utf8Size ≤ 1 := fun hle => hones ⟨hone, by omega⟩
        simp [sliceFrom, hone, hwide]
      · have hwide : ¬ c.utf8Size ≤ 2 := by omega
        simp [sliceFrom, hwide]

end Slice

variable {P} {root : String}

theorem isAccountRoot_eq (root : String) : isAccountRoot root =
    (pointPart root.toList).map fun point =>
      (['0', '2'].isPrefixOf root.toList || ['0', '3'].isPrefixOf root.toList
        || ['0', '4'].isPrefixOf root.toList)
      && (64 ≤ utf8Len point && utf8Len point ≤ 128) && (utf8Bytes point).all isLowerHexByte := by
  unfold isAccountRoot pointPart
  rw [utf8ByteSize_eq]
  dsimp only
  split
  · cases sliceFrom root.toList 2 <;> rfl
  · rfl

theorem isPrefixOf_two {version : Char} {chars : List Char} :
    ['0', version].isPrefixOf chars = true ↔ ∃ rest, chars = '0' :: version :: rest := by
  rw [List.isPrefixOf_iff_prefix]
  constructor
  · rintro ⟨rest, rfl⟩
    exact ⟨rest, rfl⟩
  · rintro ⟨rest, rfl⟩
    exact ⟨rest, rfl⟩

/-- On a path that can be cut at byte 2 the gate decides the shape. -/
theorem isAccountRoot_of_splits (h : SplitsAtTwo root.toList) :
    ∃ passed, isAccountRoot root = .ok passed ∧ (passed = true ↔ RootShape root.toList) := by
  obtain ⟨point, hpoint, hrest⟩ := pointPart_of_splits h
  rw [isAccountRoot_eq, hpoint]
  refine ⟨_, rfl, ?_⟩
  simp only [Bool.and_eq_true, Bool.or_eq_true, isPrefixOf_two, decide_eq_true_eq, all_utf8Bytes,
    List.all_eq_true]
  constructor
  · rintro ⟨⟨hversion, hlow, hhigh⟩, hhex⟩
    have hlen := utf8Len_of_lowerHex hhex
    have hshape : ∃ version ∈ ['2', '3', '4'], ∃ rest, root.toList = '0' :: version :: rest := by
      rcases hversion with (hversion | hversion) | hversion
      · exact ⟨'2', by simp, hversion⟩
      · exact ⟨'3', by simp, hversion⟩
      · exact ⟨'4', by simp, hversion⟩
    obtain ⟨version, hmem, rest, hchars⟩ := hshape
    have hsize : version.utf8Size = 1 := by
      simp only [List.mem_cons, List.not_mem_nil, or_false] at hmem
      rcases hmem with rfl | rfl | rfl <;> rfl
    have heq := hrest version rest hchars hsize
    subst heq
    exact ⟨version, hmem, point, hchars, by omega, by omega, hhex⟩
  · rintro ⟨version, hmem, rest, hchars, hlow, hhigh, hhex⟩
    simp only [List.mem_cons, List.not_mem_nil, or_false] at hmem
    have hsize : version.utf8Size = 1 := by rcases hmem with rfl | rfl | rfl <;> rfl
    obtain rfl := hrest version rest hchars hsize
    have hlen := utf8Len_of_lowerHex hhex
    refine ⟨⟨?_, by omega, by omega⟩, hhex⟩
    rcases hmem with rfl | rfl | rfl
    · exact .inl (.inl ⟨point, hchars⟩)
    · exact .inl (.inr ⟨point, hchars⟩)
    · exact .inr ⟨point, hchars⟩

theorem isAccountRoot_of_not_splits (h : ¬ SplitsAtTwo root.toList) :
    isAccountRoot root = .error .charBoundary := by
  rw [isAccountRoot_eq, pointPart_of_not_splits h]
  rfl

/-- A path that is stopped is `404` for both handlers, whatever the body and
whatever the state, a poisoned lock included. -/
theorem not_found_of_stopped (h : isAccountRoot root = .ok false) (dir : BlindDirectory Route σ)
    (body : String) : publish P dir root body = (.ok (text .notFound "not found"), dir) ∧
      fetch P dir root = .ok (text .notFound "not found") := by
  unfold publish validate fetch
  rw [h]
  exact ⟨rfl, rfl⟩

/-- The gate keeps its promise for exactly the paths that can be cut at byte 2. -/
theorem gated_iff (root : String) : Gated P σ root ↔ SplitsAtTwo root.toList := by
  constructor
  · rintro ⟨⟨passed, hpassed, -⟩, -⟩
    by_contra hsplits
    rw [isAccountRoot_of_not_splits hsplits] at hpassed
    cases hpassed
  · intro hsplits
    obtain ⟨passed, hpassed, hshape⟩ := isAccountRoot_of_splits hsplits
    refine ⟨⟨passed, hpassed, hshape⟩, fun hnot dir body => ?_⟩
    have hstopped : passed = false := by rwa [← Bool.not_eq_true, hshape]
    exact not_found_of_stopped (hstopped ▸ hpassed) dir body

/-- A path of one character of three bytes: neither handler answers. -/
theorem path_gate_panics :
    ¬ Gated Sample.platform ScriptedStore "€" ∧
      fetch Sample.platform (.new : BlindDirectory Unit ScriptedStore) "€" =
        .error .charBoundary := by
  have hpanics : isAccountRoot "€" = .error .charBoundary := by decide +kernel
  refine ⟨?_, by unfold fetch; rw [hpanics]⟩
  rintro ⟨⟨passed, hpassed, -⟩, -⟩
  rw [hpanics] at hpassed
  cases hpassed

end AccountDirectory
