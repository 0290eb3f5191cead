import AccountDirectory.Http
import AccountDirectory.Library.Machine

/-! The running service: requests to the two handlers, and restarts, in any
order. A restart drops the process and opens the directory again over the
store it had. -/
namespace AccountDirectory
open Library

variable {Route Signature σ : Type} [Store σ] (P : Platform Route Signature)

inductive Request where
  | put (root body : String)
  | get (root : String)
deriving DecidableEq, Repr

inductive Step where
  | request (request : Request)
  | restart
deriving DecidableEq, Repr

def Step.body : Step → Option String
  | .request (.put _ body) => some body
  | _ => none

def putBodies (steps : List Step) : List String := steps.filterMap Step.body

inductive Answer where
  | response (response : Response)
  | panicked (panic : Panic)
  | restarted
deriving DecidableEq, Repr

def Answer.ofResult : Except Panic Response → Answer
  | .ok reply => .response reply
  | .error panic => .panicked panic

namespace BlindDirectory

def handle (dir : BlindDirectory Route σ) :
    Request → Except Panic Response × BlindDirectory Route σ
  | .put root body => publish P dir root body
  | .get root => (fetch P dir root, dir)

/-- An in-memory directory loses everything with its process. -/
def restart (dir : BlindDirectory Route σ) : BlindDirectory Route σ :=
  match dir.store with
  | some store => openOver P store
  | none => new

/-- The rows of the durable log; an in-memory directory has none. -/
def log (dir : BlindDirectory Route σ) : List String := dir.store.elim [] durableLog

/-- The append of this step, if it makes one, succeeds. -/
def AppendSucceeds (dir : BlindDirectory Route σ) : Step → Prop
  | .request (.put root body) => publishDisposition P dir root body = some .advanced →
      ∀ store ∈ dir.store, (appendLog store body).1.isOk
  | _ => True

/-- The startup read of this step, if it makes one, succeeds. -/
def ReadSucceeds (dir : BlindDirectory Route σ) : Step → Prop
  | .restart => ∀ store ∈ dir.store, (readLog store).1.isOk
  | _ => True

instance (dir : BlindDirectory Route σ) : DecidablePred (dir.AppendSucceeds P)
  | .request (.put _ _) => inferInstanceAs (Decidable (_ → _))
  | .request (.get _) => inferInstanceAs (Decidable True)
  | .restart => inferInstanceAs (Decidable True)

instance (dir : BlindDirectory Route σ) : DecidablePred dir.ReadSucceeds
  | .restart => inferInstanceAs (Decidable (∀ store ∈ dir.store, _))
  | .request _ => inferInstanceAs (Decidable True)

def StoreSucceeds (dir : BlindDirectory Route σ) (step : Step) : Prop :=
  dir.ReadSucceeds step ∧ dir.AppendSucceeds P step

instance (dir : BlindDirectory Route σ) : DecidablePred (dir.StoreSucceeds P) :=
  fun _ => inferInstanceAs (Decidable (_ ∧ _))

end BlindDirectory

def service : Machine (BlindDirectory Route σ) Step Answer where
  step dir
    | .request request =>
        let (result, dir) := dir.handle P request
        (.ofResult result, dir)
    | .restart => (.restarted, dir.restart P)

section

variable (dir : BlindDirectory Route σ) (root body : String)

@[simp] theorem service_step_put : (service P).step dir (.request (.put root body)) =
    (.ofResult (publish P dir root body).1, (publish P dir root body).2) := rfl

@[simp] theorem service_step_get :
    (service P).step dir (.request (.get root)) = (.ofResult (fetch P dir root), dir) := rfl

@[simp] theorem service_step_restart :
    (service P).step dir .restart = (.restarted, dir.restart P) := rfl

end

/-- A run in which every store read and append succeeds. -/
def Undisturbed (dir : BlindDirectory Route σ) (steps : List Step) : Prop :=
  (service P).Along (BlindDirectory.StoreSucceeds P) dir steps

instance (dir : BlindDirectory Route σ) (steps : List Step) :
    Decidable (Undisturbed P dir steps) :=
  inferInstanceAs (Decidable ((service P).Along _ dir steps))

/-! One account root and a handful of bodies for it, for runs on given inputs. -/
namespace Sample

def root : String := String.ofList ('0' :: '2' :: List.replicate 64 'a')

def entry (generation : UInt64) (sealedBlob : String) (retracted : Bool) : DirectoryEntry Unit :=
  ⟨generation, ⟨root, [], [], []⟩, sealedBlob, retracted⟩

/-- `uno` and `dos` carry the generations of `first` and `second`. -/
def platform : Platform Unit Bool := .ofTable
  [("first", ⟨entry 1 "01" false, true⟩), ("second", ⟨entry 2 "02" false, true⟩),
    ("retraction", ⟨entry 2 "" true, true⟩), ("forged", ⟨entry 1 "66" false, false⟩),
    ("uno", ⟨entry 1 "0a" false, true⟩), ("dos", ⟨entry 2 "0b" false, true⟩)]
  [("bare", entry 0 "00" false)]

def store (rows : List String) (readFails appendFails : List Bool) : ScriptedStore :=
  ⟨rows.map fun row => (directoryScope, directoryEntryKind, row), readFails, appendFails⟩

def put (body : String) : Step := .request (.put root body)

end Sample
end AccountDirectory
