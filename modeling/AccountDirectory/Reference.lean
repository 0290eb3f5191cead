import AccountDirectory.Ledger

/-! The HTTP contract, as a machine that keeps for each root nothing but the
bodies admitted for it. Begun empty, the handlers answer every sequence of
requests as this machine does. -/
namespace AccountDirectory
open Library

variable {Route Signature σ : Type} (P : Platform Route Signature)

abbrev Bodies := String → List String

def Bodies.add (held : Bodies) (root body : String) : Bodies :=
  Function.update held root (held root ++ [body])

def referencePut (held : Bodies) (root body : String) : Response × Bodies :=
  if maxPutBytes < body.utf8ByteSize then
    (text .payloadTooLarge "directory publish too large", held)
  else
    match P.decodePut body with
    | none => (text .unprocessableEntity "directory root mismatch", held)
    | some put =>
        if put.entry.generation = 0 ∨ put.entry.directory.rootPubkey ≠ root then
          (text .unprocessableEntity "directory root mismatch", held)
        else if P.putVerifies put = false then
          (text .unauthorized "invalid root signature", held)
        else if body ∈ held root then (⟨.noContent, [], ""⟩, held)
        else if put.entry.generation.toNat = (held root).length + 1 then
          (⟨.noContent, [], ""⟩, held.add root body)
        else (text .conflict "directory generation must advance exactly once", held)

def referenceGet (held : Bodies) (root : String) : Response :=
  match (held root).getLast? with
  | none => text .notFound "not found"
  | some body =>
      if (P.decodePut body).any fun put => P.isRetraction put.entry then signedJson .gone body
      else signedJson .ok body

def reference : Machine Bodies Request Response where
  step held
    | .put root body => referencePut P held root body
    | .get root => (referenceGet P held root, held)

def Request.root : Request → String
  | .put root _ => root
  | .get root => root

/-- The empty directory: in memory, or opened over a store without rows. -/
def StartsEmpty [Store σ] (dir : BlindDirectory Route σ) : Prop :=
  dir = .new ∨ ∃ store, durableLog store = [] ∧ dir = .openOver P store

/-- A run of requests on the empty directory, fewer than 2^64 - 1 of them and
every append taken. -/
structure FreshRun [Store σ] (dir : BlindDirectory Route σ) (requests : List Request) : Prop where
  start : StartsEmpty P dir
  short : requests.length < 2 ^ 64 - 1
  undisturbed : Undisturbed P dir (requests.map .request)

variable {P}

theorem StartsEmpty.follows [Store σ] {dir : BlindDirectory Route σ} (h : StartsEmpty P dir) :
    Follows P dir [] := by
  rcases h with rfl | ⟨store, hempty, rfl⟩
  · exact .new
  · exact .openOver_empty hempty

theorem FreshRun.take [Store σ] {dir : BlindDirectory Route σ} {requests : List Request}
    (h : FreshRun P dir requests) (k : Nat) : FreshRun P dir (requests.take k) := by
  have hshort := h.short
  have hlength := List.length_take_le' k requests
  exact ⟨h.start, by omega, h.undisturbed.of_initial ((List.take_prefix k requests).map _)⟩

theorem FreshRun.run [Store σ] {dir : BlindDirectory Route σ} {requests : List Request}
    (h : FreshRun P dir requests) :
    (service P).outputs dir (requests.map .request) =
        (ledger P).outputs [] (requests.map .request) ∧
      Follows P ((service P).after dir (requests.map .request))
        (logAt P (requests.map .request)) := by
  have hshort := h.short
  have hsize : UInt64.size = 2 ^ 64 := rfl
  exact h.start.follows.run (by simp only [List.length_nil, List.length_map]; omega)
    (keepsStore_of_requests dir requests) h.undisturbed

variable {log held : List String} {root body : String} {put : SignedDirectoryPut Route Signature}

theorem verdict_eq {bodies : List String} (hfree : CollisionFree P bodies)
    (hheld : ∀ row ∈ held, row ∈ bodies) (hbody : body ∈ bodies)
    (hput : Acceptable P root body put) :
    (register P).verdict held body =
      if body ∈ held then .known
      else if put.entry.generation.toNat = held.length + 1 then .advanced
      else .conflict := by
  have hversion : (register P).version body = put.entry.generation.toNat := hput.rowGeneration
  simp only [Register.verdict, seen_eq_mem hfree hheld hbody, hversion, decide_eq_true_iff]

/-- Whatever `checkPut` refuses the reference refuses alike. -/
theorem referencePut_of_refused {bodies : Bodies} {refusal : Response}
    (h : checkPut P root body = .error refusal) :
    referencePut P bodies root body = (refusal, bodies) := by
  unfold checkPut at h
  unfold referencePut
  split at h
  · rename_i hsize
    rw [if_pos hsize, Except.error.inj h]
  · rename_i hsize
    rw [if_neg hsize]
    cases hdecode : P.decodePut body with
    | none =>
        rw [hdecode] at h
        rw [Except.error.inj h]
    | some put =>
        simp only [hdecode] at h ⊢
        split at h
        · rename_i hshape
          have hpos : put.entry.generation ≠ 0 := by
            rintro hzero
            rw [hzero] at hshape
            exact absurd hshape.1 (by decide)
          split at h
          · cases h
          · rename_i hforged
            rw [if_neg (by simp [hpos, hshape.2]), if_pos (by simpa using hforged),
              Except.error.inj h]
        · rename_i hshape
          have hbad : put.entry.generation = 0 ∨ put.entry.directory.rootPubkey ≠ root := by
            by_cases hzero : put.entry.generation = 0
            · exact .inl hzero
            · refine .inr fun hroot => hshape ⟨?_, hroot⟩
              exact UInt64.pos_iff_ne_zero.mpr hzero
          rw [if_pos hbad, Except.error.inj h]

theorem referencePut_of_acceptable {bodies : Bodies} (hput : Acceptable P root body put) :
    referencePut P bodies root body =
      if body ∈ bodies root then (Disposition.idempotent.response, bodies)
      else if put.entry.generation.toNat = (bodies root).length + 1 then
        (Disposition.advanced.response, bodies.add root body)
      else (Disposition.conflict.response, bodies) := by
  have hpos : put.entry.generation ≠ 0 := UInt64.pos_iff_ne_zero.mp hput.positive
  have hsize := hput.size
  unfold referencePut
  rw [if_neg (by omega), hput.decoded]
  simp only [hpos, hput.root_eq, hput.verified, ne_eq, not_true_eq_false, or_self, if_false,
    Bool.true_eq_false]
  rfl

/-- The reference's lists are the roots' rows of a log the service could have
written, all of them among `bodies`. -/
structure Holds (P : Platform Route Signature) (bodies log : List String) (held : Bodies) :
    Prop where
  rows : ∀ root, held root = rowsFor P log root
  sound : Sound P log
  among : ∀ row ∈ log, row ∈ bodies

namespace Holds

variable {bodies : List String} {lists : Bodies}

theorem start : Holds P bodies [] (fun _ => []) := ⟨fun _ => rfl, sound_nil, by simp⟩

theorem add (h : Holds P bodies log lists) (hput : Acceptable P root body put)
    (hbody : body ∈ bodies)
    (hverdict : (register P).verdict (rowsFor P log root) body = .advanced) :
    Holds P bodies (log ++ [body]) (lists.add root body) where
  rows := by
    intro other
    unfold Bodies.add
    by_cases hother : other = root
    · subst hother
      rw [Function.update_self, h.rows]
      exact (history_concat_self hput.rowRoot).symm
    · rw [Function.update_of_ne hother, h.rows]
      refine (history_concat_other ?_).symm
      rw [hput.rowRoot]
      exact fun heq => hother (Option.some.inj heq).symm
  sound := h.sound.of_advanced hput hverdict
  among := by
    intro row hrow
    rcases List.mem_append.mp hrow with hold | hnew
    · exact h.among row hold
    · rwa [List.mem_singleton.mp hnew]

theorem publish (h : Holds P bodies log lists) (hfree : CollisionFree P bodies)
    (hpath : isAccountRoot root = .ok true) (hbody : body ∈ bodies) :
    (publishLog P log root body).1 = .ok (referencePut P lists root body).1 ∧
      Holds P bodies (publishLog P log root body).2 (referencePut P lists root body).2 := by
  unfold publishLog validate
  rw [hpath]
  cases hcheck : checkPut P root body with
  | error refusal =>
      rw [referencePut_of_refused hcheck]
      exact ⟨rfl, h⟩
  | ok put =>
      have hput : Acceptable P root body put :=
        validate_eq_ok_iff.mp (by simp [validate, hpath, hcheck])
      have hrows := h.rows root
      have hamong : ∀ row ∈ rowsFor P log root, row ∈ bodies :=
        fun row hrow => h.among row (mem_history.mp hrow).1
      have hverdict := verdict_eq hfree hamong hbody hput
      rw [referencePut_of_acceptable hput, hrows]
      by_cases hknown : body ∈ rowsFor P log root
      · rw [if_pos hknown] at hverdict ⊢
        simp only [Register.offer_eq_of_verdict hverdict (by decide)]
        exact ⟨rfl, h⟩
      · rw [if_neg hknown] at hverdict ⊢
        by_cases hnext : put.entry.generation.toNat = (rowsFor P log root).length + 1
        · rw [if_pos hnext] at hverdict ⊢
          simp only [Register.offer_advanced hverdict]
          exact ⟨rfl, h.add hput hbody hverdict⟩
        · rw [if_neg hnext] at hverdict ⊢
          simp only [Register.offer_eq_of_verdict hverdict (by decide)]
          exact ⟨rfl, h⟩

theorem fetch (h : Holds P bodies log lists) (hpath : isAccountRoot root = .ok true) :
    fetchLog P log root = .ok (referenceGet P lists root) := by
  unfold fetchLog referenceGet
  rw [hpath, h.rows]
  cases hlast : (rowsFor P log root).getLast? with
  | none => rfl
  | some row =>
      obtain ⟨put, hput⟩ := h.sound.acceptable_of_mem (List.mem_of_getLast? hlast)
      simp only [Option.bind_some, storedRow, hput.parseRow, Option.map_some, serve, hput.decoded,
        Option.any_some]

end Holds

/-- The ledger answers as the reference does. -/
theorem ledger_outputs_eq_reference {requests : List Request}
    (hfree : CollisionFree P (putBodies (requests.map .request)))
    (hpaths : ∀ request ∈ requests, isAccountRoot request.root = .ok true) :
    (ledger P).outputs [] (requests.map .request) =
      ((reference P).outputs (fun _ => []) requests).map .response := by
  let bodies := putBodies (requests.map .request)
  have hinputs : List.Forall₂ (fun (step : Step) (request : Request) => step = .request request ∧
      isAccountRoot request.root = .ok true ∧ ∀ body ∈ step.body, body ∈ bodies)
      (requests.map .request) requests := by
    rw [List.forall₂_map_left_iff, List.forall₂_same]
    intro request hmem
    refine ⟨rfl, hpaths request hmem, fun body hbody => ?_⟩
    exact List.mem_filterMap.mpr ⟨_, List.mem_map_of_mem hmem, hbody⟩
  have hrun := Machine.simulation (M := ledger P) (N := reference P) (n := 0)
    (R := fun _ => Holds P bodies) (B := fun answer response => answer = .response response)
    (P := fun _ _ => True) (F := fun _ _ => True)
    (fun n log lists step request h hinput _ _ => by
      obtain ⟨rfl, hpath, hbody⟩ := hinput
      cases request with
      | get root => exact ⟨congrArg Answer.ofResult (h.fetch hpath), h⟩
      | put root body =>
          have hput := h.publish hfree hpath (hbody body rfl)
          exact ⟨congrArg Answer.ofResult hput.1, hput.2⟩)
    hinputs Holds.start (Machine.along_of_forall (fun _ _ => trivial) _ _)
    (Machine.along_of_forall (fun _ _ => trivial) _ _)
  have houtputs := hrun.1
  rwa [← List.forall₂_map_right_iff, List.forall₂_eq_eq_eq] at houtputs

/-- From the empty directory the handlers are the reference machine. -/
theorem http_contract [Store σ] {dir : BlindDirectory Route σ} {requests : List Request}
    (h : FreshRun P dir requests)
    (hpaths : ∀ request ∈ requests, isAccountRoot request.root = .ok true)
    (hfree : CollisionFree P (putBodies (requests.map .request))) :
    (service P).outputs dir (requests.map .request) =
      ((reference P).outputs (fun _ => []) requests).map .response := by
  rw [h.run.1]
  exact ledger_outputs_eq_reference hfree hpaths

theorem http_contract_over_empty_store :
    (service Sample.platform).outputs (.openOver Sample.platform ScriptedStore.empty)
        ([.put Sample.root "second", .put Sample.root "first", .get Sample.root].map .request) =
      ((reference Sample.platform).outputs (fun _ => [])
        [.put Sample.root "second", .put Sample.root "first", .get Sample.root]).map .response :=
  http_contract ⟨.inr ⟨_, rfl, rfl⟩, by decide, by decide +kernel⟩ (by decide +kernel)
    (by decide +kernel)

end AccountDirectory
