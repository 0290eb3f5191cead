import AccountDirectory.Ledger

/-! Roots do not interfere. All roots share one cache, one lock and one log, and
the path of a publish picks the root it is checked for while the body names the
root it is filed under. Seen from one root, the requests of the others might as
well not have been sent. -/
namespace AccountDirectory
open Library

variable {Route Signature σ τ : Type} [Store σ] [Store τ] (P : Platform Route Signature)

/-- A request to the path `root`, whatever root its body names. -/
def Step.addressedTo (root : String) : Step → Bool
  | .request (.put path _) => path = root
  | .request (.get path) => path = root
  | .restart => false

/-- The requests of a run that are addressed to `root`, in order. -/
def addressed (root : String) (steps : List Step) : List Step :=
  steps.filter (Step.addressedTo root)

/-- The answers those requests get. -/
def answersFor (root : String) (dir : BlindDirectory Route σ) (steps : List Step) : List Answer :=
  (service P).answersTo (Step.addressedTo root) dir steps

def Step.asRequest : Step → Option Request
  | .request sent => some sent
  | .restart => none

def requests (steps : List Step) : List Request := steps.filterMap Step.asRequest

/-- An undisturbed run over an empty store of fewer than 2^64 - 1 requests,
restarts aside. -/
structure RequestRun (store : σ) (steps : List Step) : Prop where
  empty : durableLog store = []
  short : (requests steps).length < 2 ^ 64 - 1
  undisturbed : Undisturbed P (.openOver P store) steps

variable {P} {log log' : List String} {root body : String} {step : Step} {steps : List Step}

theorem putBodies_length_le_requests (steps : List Step) :
    (putBodies steps).length ≤ (requests steps).length := by
  induction steps with
  | nil => exact Nat.le_refl _
  | cons step rest ih =>
      cases step with
      | restart => exact ih
      | request request =>
          cases request with
          | get root => exact Nat.le_succ_of_le ih
          | put root body => exact Nat.succ_le_succ ih

/-- A publish to another path leaves the root's rows alone, whatever it says. -/
theorem rowsFor_ledger_of_not_addressed (h : step.addressedTo root = false) :
    rowsFor P ((ledger P).step log step).2 root = rowsFor P log root := by
  by_contra hchanged
  obtain ⟨body, put, rfl, -⟩ := ledger_step_changes hchanged
  simp [Step.addressedTo] at h

theorem verdict_congr_rows (body : String) (hrows : rowsFor P log root = rowsFor P log' root) :
    (register P).verdict (history (register P).key log root) body =
      (register P).verdict (history (register P).key log' root) body :=
  congrArg (fun rows => (register P).verdict rows body) hrows

/-- A publish to the root sees and changes the root's own rows only. -/
theorem publishLog_congr_rows (body : String) (hrows : rowsFor P log root = rowsFor P log' root) :
    (publishLog P log root body).1 = (publishLog P log' root body).1 ∧
      rowsFor P (publishLog P log root body).2 root =
        rowsFor P (publishLog P log' root body).2 root := by
  unfold publishLog
  cases hcheck : validate P root body with
  | error panic => exact ⟨rfl, hrows⟩
  | ok checked =>
      cases checked with
      | error refusal => exact ⟨rfl, hrows⟩
      | ok put =>
          have hverdict := verdict_congr_rows body hrows
          by_cases hadvanced :
              (register P).verdict (history (register P).key log root) body = .advanced
          · have hadvanced' := hverdict.symm.trans hadvanced
            rw [Register.offer_advanced hadvanced, Register.offer_advanced hadvanced']
            refine ⟨rfl, ?_⟩
            simp only [rowsFor, history_append] at hrows ⊢
            rw [hrows]
          · have hunchanged := hverdict ▸ hadvanced
            rw [Register.offer_unchanged hadvanced, Register.offer_unchanged hunchanged, hverdict]
            exact ⟨rfl, hrows⟩

theorem ledger_congr_rows (h : step.addressedTo root = true)
    (hrows : rowsFor P log root = rowsFor P log' root) :
    ((ledger P).step log step).1 = ((ledger P).step log' step).1 ∧
      rowsFor P ((ledger P).step log step).2 root =
        rowsFor P ((ledger P).step log' step).2 root := by
  cases step with
  | restart => cases h
  | request request =>
      cases request with
      | get path =>
          obtain rfl : path = root := by simpa [Step.addressedTo] using h
          refine ⟨congrArg Answer.ofResult ?_, hrows⟩
          unfold fetchLog
          rw [hrows]
      | put path body =>
          obtain rfl : path = root := by simpa [Step.addressedTo] using h
          have hpublish := publishLog_congr_rows body hrows
          exact ⟨congrArg Answer.ofResult hpublish.1, hpublish.2⟩

/-- In the ledger the requests to a root run as if they were alone. -/
theorem ledger_alone (root : String) (log : List String) (steps : List Step) :
    (ledger P).answersTo (Step.addressedTo root) log steps =
        (ledger P).outputs log (addressed root steps) ∧
      rowsFor P ((ledger P).after log steps) root =
        rowsFor P ((ledger P).after log (addressed root steps)) root :=
  Machine.answersTo_eq_alone (fun log => rowsFor P log root)
    (fun _ _ h => rowsFor_ledger_of_not_addressed h) (fun _ _ _ h => ledger_congr_rows h) rfl steps

namespace RequestRun

variable {store : σ} {store' : τ} {steps' : List Step}

theorem run (h : RequestRun P store steps) :
    (service P).outputs (.openOver P store) steps = (ledger P).outputs [] steps ∧
      Follows P (dirAt P store steps) (logAt P steps) := by
  apply (Follows.openOver_empty h.empty).run_of_puts _ (keepsStore_of_durable rfl steps)
    h.undisturbed
  have hshort := h.short
  have hputs := putBodies_length_le_requests steps
  have hsize : UInt64.size = 2 ^ 64 := rfl
  simp only [List.length_nil]
  omega

/-- What a root is answered and what is kept for it, read off its own requests. -/
theorem alone (h : RequestRun P store steps) (root : String) :
    answersFor P root (.openOver P store) steps = (ledger P).outputs [] (addressed root steps) ∧
      (dirAt P store steps).get root =
        .ok ((rowsFor P (logAt P (addressed root steps)) root).getLast?.bind (storedRow P)) ∧
      rowsFor P (dirAt P store steps).log root = rowsFor P (logAt P (addressed root steps)) root := by
  obtain ⟨houtputs, hfollows⟩ := h.run
  obtain ⟨hanswers, hrows⟩ := ledger_alone (P := P) root [] steps
  have hdurable : (dirAt P store steps).store.isSome := isSome_store_after _ _
  refine ⟨?_, ?_, ?_⟩
  · rw [← hanswers, answersFor, Machine.answersTo, Machine.answersTo, houtputs]
  · rw [hfollows.get]
    exact congrArg (fun rows => Except.ok (rows.getLast?.bind (storedRow P))) hrows
  · rw [hfollows.log_eq hdurable]
    exact hrows

end RequestRun

/-- Two runs that agree on the requests addressed to a root, over any two
stores, agree on the answers to them, on the value held and on the durable
rows: no request to another path, no interleaving and no restart shows. -/
theorem roots_isolated {store : σ} {store' : τ} {steps steps' : List Step} {root : String}
    (h : RequestRun P store steps) (h' : RequestRun P store' steps')
    (hsame : addressed root steps = addressed root steps') :
    answersFor P root (.openOver P store) steps = answersFor P root (.openOver P store') steps' ∧
      (dirAt P store steps).get root = (dirAt P store' steps').get root ∧
      rowsFor P (dirAt P store steps).log root = rowsFor P (dirAt P store' steps').log root := by
  obtain ⟨hanswers, hget, hrows⟩ := h.alone root
  obtain ⟨hanswers', hget', hrows'⟩ := h'.alone root
  rw [hanswers, hanswers', hget, hget', hrows, hrows', hsame]
  exact ⟨rfl, rfl, rfl⟩

namespace Sample

/-- Another account root. -/
def neighbour : String := String.ofList ('0' :: '3' :: List.replicate 64 'b')

end Sample

/-- One run restarts and hears only from the root; in the other the root's own
bodies come to a neighbour's path as well. -/
theorem roots_isolated_from_neighbour :
    let alone := [Sample.put "first", .restart, Sample.put "dos"]
    let mixed := [.request (.put Sample.neighbour "first"), Sample.put "first",
      .request (.put Sample.neighbour "second"), Sample.put "dos", .restart]
    let store := ScriptedStore.empty
    (dirAt Sample.platform store alone).log = ["first", "dos"] ∧
      (dirAt Sample.platform store alone).get Sample.root =
        (dirAt Sample.platform store mixed).get Sample.root := by
  intro alone mixed store
  have halone : RequestRun Sample.platform store alone := ⟨rfl, by decide, by decide +kernel⟩
  have hmixed : RequestRun Sample.platform store mixed := ⟨rfl, by decide, by decide +kernel⟩
  have hsame : addressed Sample.root alone = addressed Sample.root mixed := by decide +kernel
  exact ⟨by decide +kernel, (roots_isolated halone hmixed hsame).2.1⟩

end AccountDirectory
