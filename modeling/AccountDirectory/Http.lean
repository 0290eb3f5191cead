import AccountDirectory.AccountRoot
import AccountDirectory.Directory

/-! The HTTP surface: `PUT /directory/:root` and `GET /directory/:root`, as
functions of the directory behind the handlers. A handler that panics sends
no response. -/
namespace AccountDirectory

variable {Route Signature σ : Type} (P : Platform Route Signature)

inductive StatusCode where
  | ok
  | noContent
  | unauthorized
  | notFound
  | conflict
  | gone
  | payloadTooLarge
  | unprocessableEntity
deriving DecidableEq, Repr

/-- The headers are the ones the handlers set themselves. -/
structure Response where
  status : StatusCode
  headers : List (String × String)
  body : String
deriving DecidableEq, Repr

/-- The largest publish body accepted, in bytes. -/
def maxPutBytes : Nat := 2 * 1024 * 1024

def text (status : StatusCode) (message : String) : Response := ⟨status, [], message⟩

def signedJson (status : StatusCode) (body : String) : Response :=
  ⟨status, [("content-type", "application/json; charset=utf-8"), ("cache-control", "no-store")],
    body⟩

def Disposition.response : Disposition → Response
  | .advanced | .idempotent => ⟨.noContent, [], ""⟩
  | .conflict => text .conflict "directory generation must advance exactly once"

/-- The checks of `publish` below the path gate: size, shape and root,
signature. They run without the lock. -/
def checkPut (root body : String) : Except Response (SignedDirectoryPut Route Signature) :=
  if maxPutBytes < body.utf8ByteSize then
    .error (text .payloadTooLarge "directory publish too large")
  else
    match P.decodePut body with
    | some put =>
        if 0 < put.entry.generation ∧ put.entry.directory.rootPubkey = root then
          if P.putVerifies put then .ok put
          else .error (text .unauthorized "invalid root signature")
        else .error (text .unprocessableEntity "directory root mismatch")
    | none => .error (text .unprocessableEntity "directory root mismatch")

def validate (root body : String) :
    Except Panic (Except Response (SignedDirectoryPut Route Signature)) :=
  match isAccountRoot root with
  | .error panic => .error panic
  | .ok false => .ok (.error (text .notFound "not found"))
  | .ok true => .ok (checkPut P root body)

def publish [Store σ] (dir : BlindDirectory Route σ) (root body : String) :
    Except Panic Response × BlindDirectory Route σ :=
  match validate P root body with
  | .error panic => (.error panic, dir)
  | .ok (.error refusal) => (.ok refusal, dir)
  | .ok (.ok put) =>
      let (admitted, dir) := dir.admitPut P put body
      (admitted.map Disposition.response, dir)

/-- What a reader is shown of the latest admitted publish. -/
def serve : Option (Stored Route) → Response
  | none => text .notFound "not found"
  | some stored =>
      if P.isRetraction stored.entry then signedJson .gone stored.body
      else signedJson .ok stored.body

def fetch (dir : BlindDirectory Route σ) (root : String) : Except Panic Response :=
  match isAccountRoot root with
  | .error panic => .error panic
  | .ok false => .ok (text .notFound "not found")
  | .ok true => (dir.get root).map (serve P)

/-- What `admitPut` made of a publish, for the publishes that reach it. -/
def publishDisposition [Store σ] (dir : BlindDirectory Route σ) (root body : String) :
    Option Disposition :=
  match validate P root body with
  | .ok (.ok put) => (dir.admitPut P put body).1.toOption
  | _ => none

/-- A body that passes every check of `publish` for `root`. -/
structure Acceptable (root body : String) (put : SignedDirectoryPut Route Signature) : Prop where
  path : isAccountRoot root = .ok true
  size : body.utf8ByteSize ≤ maxPutBytes
  decoded : P.decodePut body = some put
  positive : 0 < put.entry.generation
  root_eq : put.entry.directory.rootPubkey = root
  verified : P.putVerifies put = true

variable {P} {root body : String} {put : SignedDirectoryPut Route Signature}

theorem checkPut_eq_ok_iff :
    checkPut P root body = .ok put ↔
      body.utf8ByteSize ≤ maxPutBytes ∧ P.decodePut body = some put ∧
        0 < put.entry.generation ∧ put.entry.directory.rootPubkey = root ∧
        P.putVerifies put = true := by
  unfold checkPut
  split
  · simp only [reduceCtorEq, false_iff, not_and]
    omega
  · cases hdecode : P.decodePut body with
    | none => simp
    | some decoded =>
        dsimp only
        constructor
        · intro h
          split at h
          · split at h
            · cases Except.ok.inj h
              exact ⟨by omega, rfl, by simp_all⟩
            · cases h
          · cases h
        · rintro ⟨-, hput, hpos, hroot, hsig⟩
          cases Option.some.inj hput
          rw [if_pos ⟨hpos, hroot⟩, if_pos hsig]

theorem validate_eq_ok_iff : validate P root body = .ok (.ok put) ↔ Acceptable P root body put := by
  unfold validate
  cases hpath : isAccountRoot root with
  | error panic =>
      refine ⟨fun h => ?_, fun h => ?_⟩
      · cases h
      · rw [h.path] at hpath
        cases hpath
  | ok shaped =>
      cases shaped with
      | false =>
          refine ⟨fun h => ?_, fun h => ?_⟩
          · cases Except.ok.inj h
          · rw [h.path] at hpath
            cases hpath
      | true =>
          simp only [Except.ok.injEq, checkPut_eq_ok_iff]
          exact ⟨fun ⟨hs, hd, hg, hr, hv⟩ => ⟨hpath, hs, hd, hg, hr, hv⟩,
            fun h => ⟨h.size, h.decoded, h.positive, h.root_eq, h.verified⟩⟩

/-- A publish is refused before it reaches `admit` with a `4xx`, never a `204`. -/
theorem status_of_refusal {refusal : Response} (h : validate P root body = .ok (.error refusal)) :
    refusal.status ≠ .noContent := by
  unfold validate at h
  split at h
  · cases h
  · cases h
    decide
  · have hcheck := Except.ok.inj h
    unfold checkPut at hcheck
    split at hcheck
    · cases hcheck
      decide
    · split at hcheck
      · split at hcheck
        · split at hcheck
          · cases hcheck
          · cases hcheck
            decide
        · cases hcheck
          decide
      · cases hcheck
        decide

theorem Acceptable.parseRow (h : Acceptable P root body put) : parseRow P body = some put.entry := by
  simp [AccountDirectory.parseRow, h.decoded]

theorem Acceptable.unique {put' : SignedDirectoryPut Route Signature} {root' : String}
    (h : Acceptable P root body put) (h' : Acceptable P root' body put') : put = put' :=
  Option.some.inj (h.decoded.symm.trans h'.decoded)

end AccountDirectory
