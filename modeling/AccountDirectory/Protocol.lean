import AccountDirectory.Rust
import Mathlib.Data.List.Basic
import Mathlib.Logic.Function.Basic

/-! The wire types and what the service takes from outside the repository:
the JSON decoders, the verifier and the retraction test of the protocol
crate, SHA-256, and the overflow profile it was built with. -/
namespace AccountDirectory

structure DirectoryRecord (Route : Type) where
  rootPubkey : String
  devicePubkeys : List String
  placementPointers : List String
  homeRoutes : List Route
deriving DecidableEq, Repr

structure DirectoryEntry (Route : Type) where
  generation : UInt64
  directory : DirectoryRecord Route
  sealedBlob : String
  retracted : Bool
deriving DecidableEq, Repr

structure SignedDirectoryPut (Route Signature : Type) where
  entry : DirectoryEntry Route
  signature : Signature
deriving DecidableEq, Repr

/-- The code outside the repository, as fixed functions. The decoders are
`serde_json::from_str` at the two wire types, `none` being any error. -/
structure Platform (Route Signature : Type) where
  decodePut : String → Option (SignedDirectoryPut Route Signature)
  decodeEntry : String → Option (DirectoryEntry Route)
  putVerifies : SignedDirectoryPut Route Signature → Bool
  isRetraction : DirectoryEntry Route → Bool
  sha256 : ByteArray → Vector UInt8 32
  overflowChecks : Bool

variable {Route Signature : Type} (P : Platform Route Signature)

/-- `format!("{b:02x}")`. -/
def hexByte (b : UInt8) : List Char :=
  [Nat.digitChar (b.toNat / 16), Nat.digitChar (b.toNat % 16)]

def digest (body : String) : String :=
  String.ofList ((P.sha256 body.toUTF8).toList.flatMap hexByte)

/-- A platform whose decoders are tables, for runs on given bodies. Signatures
are their own verdict, and the hash keeps a body's first 32 bytes. -/
def Platform.ofTable (puts : List (String × SignedDirectoryPut Unit Bool))
    (entries : List (String × DirectoryEntry Unit)) : Platform Unit Bool where
  decodePut body := puts.lookup body
  decodeEntry body := entries.lookup body
  putVerifies put := put.signature
  isRetraction entry := entry.retracted
  sha256 bytes := Vector.ofFn fun i => bytes.data.getD i.val 0
  overflowChecks := true

theorem digitChar_inj : ∀ a < 16, ∀ b < 16, Nat.digitChar a = Nat.digitChar b → a = b := by
  decide

theorem hexByte_injective : Function.Injective hexByte := by
  intro a b h
  have ha := a.toNat_lt
  have hb := b.toNat_lt
  simp only [hexByte, List.cons.injEq, and_true] at h
  have hhigh := digitChar_inj _ (by omega) _ (by omega) h.1
  have hlow := digitChar_inj _ (by omega) _ (by omega) h.2
  apply UInt8.toNat_inj.mp
  omega

/-- Hexadecimal rendering of two hashes of one length loses nothing. -/
theorem flatMap_hexByte_inj {left right : List UInt8} (hlen : left.length = right.length)
    (h : left.flatMap hexByte = right.flatMap hexByte) : left = right := by
  have hwidths : (left.map hexByte).map List.length = (right.map hexByte).map List.length := by
    simp only [List.map_map, Function.comp_def, hexByte, List.length_cons, List.length_nil,
      List.map_const', hlen]
  have hchunks : left.map hexByte = right.map hexByte :=
    List.eq_iff_flatten_eq.mpr ⟨h, hwidths⟩
  exact List.map_injective_iff.mpr hexByte_injective hchunks

theorem digest_eq_iff {a b : String} :
    digest P a = digest P b ↔ P.sha256 a.toUTF8 = P.sha256 b.toUTF8 := by
  constructor
  · intro h
    have hchars := String.ofList_injective h
    exact Vector.toList_inj.mp (flatMap_hexByte_inj (by simp) hchars)
  · intro h
    rw [digest, digest, h]

/-- No SHA-256 collision among `bodies`. -/
def CollisionFree (bodies : List String) : Prop :=
  ∀ a ∈ bodies, ∀ b ∈ bodies, P.sha256 a.toUTF8 = P.sha256 b.toUTF8 → a = b

instance (bodies : List String) : Decidable (CollisionFree P bodies) :=
  inferInstanceAs (Decidable (∀ a ∈ bodies, ∀ b ∈ bodies, _ → _))

variable {P}

theorem CollisionFree.digest_inj {bodies : List String} (h : CollisionFree P bodies)
    {a b : String} (ha : a ∈ bodies) (hb : b ∈ bodies) (hd : digest P a = digest P b) : a = b :=
  h a ha b hb ((digest_eq_iff P).mp hd)

theorem CollisionFree.subset {bodies fewer : List String} (h : CollisionFree P bodies)
    (hsub : ∀ a ∈ fewer, a ∈ bodies) : CollisionFree P fewer :=
  fun a ha b hb => h a (hsub a ha) b (hsub b hb)

end AccountDirectory
