import Mathlib.Data.List.Basic

/-! The parts of Rust's own semantics the service depends on: panics, `u64`
successor under either overflow profile, byte slicing of `str`, and a mutex
that a panicking holder poisons. -/
namespace AccountDirectory

inductive Panic where
  /-- A `str` slice that does not start on a character boundary. -/
  | charBoundary
  /-- An overflowing addition with overflow checks on. -/
  | overflow
  /-- `lock().unwrap()` on a poisoned mutex. -/
  | poisoned
deriving DecidableEq, Repr

/-- `n + 1` on `u64`: it wraps in a profile without overflow checks. -/
def addOne (overflowChecks : Bool) (n : UInt64) : Except Panic UInt64 :=
  if overflowChecks ∧ n.toNat + 1 = UInt64.size then .error .overflow else .ok (n + 1)

theorem toNat_add_one {n : UInt64} (h : n.toNat + 1 < UInt64.size) :
    (n + 1).toNat = n.toNat + 1 := by
  rw [UInt64.toNat_add]
  exact Nat.mod_eq_of_lt h

theorem addOne_of_lt {n : UInt64} (overflowChecks : Bool) (h : n.toNat + 1 < UInt64.size) :
    addOne overflowChecks n = .ok (n + 1) := by
  have hne : n.toNat + 1 ≠ UInt64.size := Nat.ne_of_lt h
  simp [addOne, hne]

/-- Only an addition past the last `u64` panics, and only in a checked profile. -/
theorem addOne_eq_error {overflowChecks : Bool} {n : UInt64} {panic : Panic}
    (h : addOne overflowChecks n = .error panic) :
    overflowChecks = true ∧ n.toNat + 1 = UInt64.size := by
  unfold addOne at h
  split at h
  · assumption
  · cases h

/-- A successful successor that is not zero did not wrap. -/
theorem toNat_of_addOne {overflowChecks : Bool} {n next : UInt64}
    (h : addOne overflowChecks n = .ok next) (hpos : 0 < next) : next.toNat = n.toNat + 1 := by
  unfold addOne at h
  split at h
  · cases h
  · cases Except.ok.inj h
    by_cases hlt : n.toNat + 1 < UInt64.size
    · exact toNat_add_one hlt
    · have hbound := n.toNat_lt
      have hsize : n.toNat + 1 = 2 ^ 64 := by
        have : UInt64.size = 2 ^ 64 := rfl
        omega
      have hzero : (n + 1).toNat = 0 := by
        rw [UInt64.toNat_add]
        change (n.toNat + 1) % 2 ^ 64 = 0
        rw [hsize, Nat.mod_self]
      have hpos' : 0 < (n + 1).toNat := hpos
      omega

def utf8Bytes (chars : List Char) : List UInt8 := chars.flatMap String.utf8EncodeChar

/-- The number of bytes of the UTF-8 encoding. -/
def utf8Len (chars : List Char) : Nat := (utf8Bytes chars).length

/-- `&s[n..]`: `n` counts bytes, and must fall between two characters. -/
def sliceFrom : List Char → Nat → Except Panic (List Char)
  | chars, 0 => .ok chars
  | [], _ + 1 => .error .charBoundary
  | char :: chars, n + 1 =>
      if char.utf8Size ≤ n + 1 then sliceFrom chars (n + 1 - char.utf8Size)
      else .error .charBoundary

/-- `Mutex<T>`: a panic while the lock is held poisons it. -/
structure Mutex (α : Type) where
  value : α
  poisoned : Bool

def Mutex.new (value : α) : Mutex α := ⟨value, false⟩

/-- `lock().unwrap()`. -/
def Mutex.lock (m : Mutex α) : Except Panic α :=
  if m.poisoned then .error .poisoned else .ok m.value

theorem Mutex.lock_eq_ok {m : Mutex α} {value : α} :
    m.lock = .ok value ↔ m.poisoned = false ∧ m.value = value := by
  unfold Mutex.lock
  cases m.poisoned <;> simp

end AccountDirectory
