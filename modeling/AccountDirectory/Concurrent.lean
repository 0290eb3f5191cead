import AccountDirectory.Ledger

/-! Publishes in flight. A request checks its body without the lock, then waits
for the lock of the roots and, holding it, takes the steps of `admit` one at a
time, so that other requests and a crash may come between any two of them. All
clones of a directory share the one cache and the one store modelled here. -/
namespace AccountDirectory
open Library

variable {Route Signature σ : Type} (P : Platform Route Signature)

/-- Where a request stands. From `locked` to `appended` it holds the lock. -/
inductive Phase (Route Signature : Type) where
  | received
  | validated (put : SignedDirectoryPut Route Signature)
  | locked (put : SignedDirectoryPut Route Signature)
  /-- The digest is not among the root's. -/
  | fresh (put : SignedDirectoryPut Route Signature)
  /-- The generation is the next one. -/
  | cleared (put : SignedDirectoryPut Route Signature)
  /-- The append has been made, the cache not yet written. -/
  | appended (put : SignedDirectoryPut Route Signature)
  /-- The lock is released, the response not yet delivered. -/
  | decided (disposition : Disposition)
  | delivered (disposition : Disposition)
  | refused (refusal : Response)
  | panicked (panic : Panic)
  | lost
deriving DecidableEq

structure Publish (Route Signature : Type) where
  root : String
  body : String
  phase : Phase Route Signature
deriving DecidableEq

structure System (Route Signature σ : Type) where
  dir : BlindDirectory Route σ
  holder : Option Nat
  publishes : List (Publish Route Signature)

inductive Event where
  | arrive (root body : String)
  | advance (i : Nat)
  | crash
deriving DecidableEq, Repr

namespace Phase

/-- What `admit` made of the request, once it returned. -/
def disposition : Phase Route Signature → Option Disposition
  | .decided disposition => some disposition
  | .delivered disposition => some disposition
  | _ => none

/-- Requests that have ended stay as they ended; the others are lost. -/
def crash : Phase Route Signature → Phase Route Signature
  | .delivered disposition => .delivered disposition
  | .refused refusal => .refused refusal
  | .panicked panic => .panicked panic
  | _ => .lost

def ofAdmission : Except Panic Disposition → Phase Route Signature
  | .ok disposition => .decided disposition
  | .error panic => .panicked panic

end Phase

namespace System

def openOver [Store σ] (store : σ) : System Route Signature σ := ⟨.openOver P store, none, []⟩

def mark (s : System Route Signature σ) (i : Nat) (publish : Publish Route Signature)
    (phase : Phase Route Signature) : System Route Signature σ :=
  { s with publishes := s.publishes.set i { publish with phase } }

/-- The next step of one request. A request that needs the lock while another
holds it stays where it is. -/
def advance [Store σ] (s : System Route Signature σ) (i : Nat)
    (publish : Publish Route Signature) : System Route Signature σ :=
  match publish.phase with
  | .received =>
      match validate P publish.root publish.body with
      | .error panic => s.mark i publish (.panicked panic)
      | .ok (.error refusal) => s.mark i publish (.refused refusal)
      | .ok (.ok put) => s.mark i publish (.validated put)
  | .validated put =>
      match s.holder with
      | some _ => s
      | none =>
          match s.dir.roots.lock with
          | .error panic => s.mark i publish (.panicked panic)
          | .ok _ =>
              { s.mark i publish (.locked put) with dir := s.dir.touch put.root, holder := some i }
  | .locked put =>
      if digest P publish.body ∈ (s.dir.rootLog put.root).digests then
        { s.mark i publish (.decided .idempotent) with holder := none }
      else s.mark i publish (.fresh put)
  | .fresh put =>
      match addOne P.overflowChecks (s.dir.rootLog put.root).generation with
      | .error panic =>
          { s.mark i publish (.panicked panic) with dir := s.dir.poison, holder := none }
      | .ok next =>
          if put.entry.generation ≠ next then
            { s.mark i publish (.decided .conflict) with holder := none }
          else s.mark i publish (.cleared put)
  | .cleared put =>
      { s.mark i publish (.appended put) with dir := s.dir.appendBody publish.body }
  | .appended put =>
      { s.mark i publish (.decided .advanced) with
        dir := s.dir.foldBody P put publish.body, holder := none }
  | .decided disposition => s.mark i publish (.delivered disposition)
  | _ => s

def crash [Store σ] (s : System Route Signature σ) : System Route Signature σ where
  dir := s.dir.restart P
  holder := none
  publishes := s.publishes.map fun publish => { publish with phase := publish.phase.crash }

def handle [Store σ] (s : System Route Signature σ) : Event → System Route Signature σ
  | .arrive root body => { s with publishes := s.publishes ++ [⟨root, body, .received⟩] }
  | .advance i =>
      match s.publishes[i]? with
      | some publish => s.advance P i publish
      | none => s
  | .crash => s.crash P

/-- The store serves this event: a reopening reads, an append is taken. -/
def StoreServes [Store σ] (s : System Route Signature σ) : Event → Prop
  | .arrive _ _ => True
  | .advance i => ∀ publish ∈ s.publishes[i]?, (∃ put, publish.phase = .cleared put) →
      ∀ store ∈ s.dir.store, (appendLog store publish.body).1.isOk
  | .crash => ∀ store ∈ s.dir.store, (readLog store).1.isOk

instance (phase : Phase Route Signature) : Decidable (∃ put, phase = .cleared put) :=
  match phase with
  | .cleared put => isTrue ⟨put, rfl⟩
  | .received | .validated _ | .locked _ | .fresh _ | .appended _ | .decided _ | .delivered _
  | .refused _ | .panicked _ | .lost => isFalse nofun

instance [Store σ] (s : System Route Signature σ) : DecidablePred s.StoreServes
  | .arrive _ _ => inferInstanceAs (Decidable True)
  | .advance i => inferInstanceAs (Decidable (∀ publish ∈ s.publishes[i]?, _ → _))
  | .crash => inferInstanceAs (Decidable (∀ store ∈ s.dir.store, _))

end System

def concurrent [Store σ] : Machine (System Route Signature σ) Event Unit where
  step s event := ((), s.handle P event)

def sent (schedule : List Event) : List (String × String) :=
  schedule.filterMap fun
    | .arrive root body => some (root, body)
    | _ => none

variable [Store σ] {P}

@[simp] theorem concurrent_step (s : System Route Signature σ) (event : Event) :
    ((concurrent P).step s event).2 = s.handle P event := rfl

namespace System

variable {s : System Route Signature σ} {i : Nat} {publish : Publish Route Signature}

omit [Store σ] in
@[simp] theorem holder_mark (phase : Phase Route Signature) :
    (s.mark i publish phase).holder = s.holder := rfl

theorem handle_advance (h : s.publishes[i]? = some publish) :
    s.handle P (.advance i) = s.advance P i publish := by
  simp [handle, h]

theorem handle_advance_none (h : s.publishes[i]? = none) : s.handle P (.advance i) = s := by
  simp [handle, h]

omit [Store σ] in
theorem getElem?_mark {phase : Phase Route Signature} (h : s.publishes[i]? = some publish) (j : Nat) :
    (s.mark i publish phase).publishes[j]? =
      if j = i then some { publish with phase } else s.publishes[j]? := by
  obtain ⟨hlt, -⟩ := List.getElem?_eq_some_iff.mp h
  rw [mark, List.getElem?_set]
  by_cases hij : i = j
  · rw [if_pos hij, if_pos hlt, if_pos hij.symm]
  · rw [if_neg hij, if_neg (Ne.symm hij)]

end System

/-- The outcomes of `advance`, each with what held when it was reached. -/
inductive Move (P : Platform Route Signature) (s : System Route Signature σ) (i : Nat)
    (publish : Publish Route Signature) : System Route Signature σ → Prop where
  | stays (hphase : (∃ put, publish.phase = .validated put ∧ s.holder ≠ none) ∨
        publish.phase.crash = publish.phase) :
      Move P s i publish s
  | misread (hphase : publish.phase = .received) {panic : Panic}
      (hcheck : validate P publish.root publish.body = .error panic) :
      Move P s i publish (s.mark i publish (.panicked panic))
  | refused (hphase : publish.phase = .received) {refusal : Response}
      (hcheck : validate P publish.root publish.body = .ok (.error refusal)) :
      Move P s i publish (s.mark i publish (.refused refusal))
  | validated (hphase : publish.phase = .received) {put : SignedDirectoryPut Route Signature}
      (hput : Acceptable P publish.root publish.body put) :
      Move P s i publish (s.mark i publish (.validated put))
  | poisoned {put : SignedDirectoryPut Route Signature} (hphase : publish.phase = .validated put)
      (hholder : s.holder = none) (hlock : s.dir.roots.poisoned = true) :
      Move P s i publish (s.mark i publish (.panicked .poisoned))
  | locked {put : SignedDirectoryPut Route Signature} (hphase : publish.phase = .validated put)
      (hholder : s.holder = none) (hlock : s.dir.roots.poisoned = false) :
      Move P s i publish
        { s.mark i publish (.locked put) with dir := s.dir.touch put.root, holder := some i }
  | recognised {put : SignedDirectoryPut Route Signature} (hphase : publish.phase = .locked put)
      (hseen : digest P publish.body ∈ (s.dir.rootLog put.root).digests) :
      Move P s i publish { s.mark i publish (.decided .idempotent) with holder := none }
  | fresh {put : SignedDirectoryPut Route Signature} (hphase : publish.phase = .locked put)
      (hnew : digest P publish.body ∉ (s.dir.rootLog put.root).digests) :
      Move P s i publish (s.mark i publish (.fresh put))
  | overflowed {put : SignedDirectoryPut Route Signature} (hphase : publish.phase = .fresh put)
      {panic : Panic}
      (hnext : addOne P.overflowChecks (s.dir.rootLog put.root).generation = .error panic) :
      Move P s i publish
        { s.mark i publish (.panicked panic) with dir := s.dir.poison, holder := none }
  | conflicted {put : SignedDirectoryPut Route Signature} (hphase : publish.phase = .fresh put)
      {next : UInt64}
      (hnext : addOne P.overflowChecks (s.dir.rootLog put.root).generation = .ok next)
      (hgen : put.entry.generation ≠ next) :
      Move P s i publish { s.mark i publish (.decided .conflict) with holder := none }
  | cleared {put : SignedDirectoryPut Route Signature} (hphase : publish.phase = .fresh put)
      (hnext : addOne P.overflowChecks (s.dir.rootLog put.root).generation =
        .ok put.entry.generation) :
      Move P s i publish (s.mark i publish (.cleared put))
  | appended {put : SignedDirectoryPut Route Signature} (hphase : publish.phase = .cleared put) :
      Move P s i publish
        { s.mark i publish (.appended put) with dir := s.dir.appendBody publish.body }
  | advanced {put : SignedDirectoryPut Route Signature} (hphase : publish.phase = .appended put) :
      Move P s i publish
        { s.mark i publish (.decided .advanced) with
          dir := s.dir.foldBody P put publish.body, holder := none }
  | delivered {disposition : Disposition} (hphase : publish.phase = .decided disposition) :
      Move P s i publish (s.mark i publish (.delivered disposition))

theorem move (s : System Route Signature σ) (i : Nat) (publish : Publish Route Signature) :
    Move P s i publish (s.advance P i publish) := by
  unfold System.advance
  cases hphase : publish.phase with
  | received =>
      dsimp only
      cases hcheck : validate P publish.root publish.body with
      | error panic => exact .misread hphase hcheck
      | ok checked =>
          cases checked with
          | error refusal => exact .refused hphase hcheck
          | ok put => exact .validated hphase (validate_eq_ok_iff.mp hcheck)
  | validated put =>
      dsimp only
      cases hholder : s.holder with
      | some j => exact .stays (.inl ⟨put, hphase, by simp [hholder]⟩)
      | none =>
          cases hlock : s.dir.roots.poisoned with
          | true =>
              simp only [Mutex.lock, hlock, if_true]
              exact .poisoned hphase hholder hlock
          | false =>
              simp only [Mutex.lock, hlock, Bool.false_eq_true, if_false]
              exact .locked hphase hholder hlock
  | locked put =>
      dsimp only
      split
      · exact .recognised hphase ‹_›
      · exact .fresh hphase ‹_›
  | fresh put =>
      dsimp only
      split
      · exact .overflowed hphase ‹_›
      · rename_i next hnext
        split
        · exact .conflicted hphase hnext ‹_›
        · rename_i hgen
          rw [not_not] at hgen
          exact .cleared hphase (hgen ▸ hnext)
  | cleared put => exact .appended hphase
  | appended put => exact .advanced hphase
  | decided disposition => exact .delivered hphase
  | delivered disposition => exact .stays (.inr (by rw [hphase]; rfl))
  | refused refusal => exact .stays (.inr (by rw [hphase]; rfl))
  | panicked panic => exact .stays (.inr (by rw [hphase]; rfl))
  | lost => exact .stays (.inr (by rw [hphase]; rfl))

theorem Move.publishes {s next : System Route Signature σ} {i : Nat}
    {publish : Publish Route Signature} (h : Move P s i publish next) :
    next.publishes = s.publishes ∨ ∃ phase, next.publishes = (s.mark i publish phase).publishes := by
  cases h with
  | stays hphase => exact .inl rfl
  | _ => exact .inr ⟨_, rfl⟩

namespace System

variable {s : System Route Signature σ} {i : Nat} {publish : Publish Route Signature}

theorem getElem?_advance_ne (h : s.publishes[i]? = some publish) {j : Nat} (hne : j ≠ i) :
    (s.advance P i publish).publishes[j]? = s.publishes[j]? := by
  rcases (move (P := P) s i publish).publishes with hsame | ⟨phase, hmarked⟩
  · rw [hsame]
  · rw [hmarked, getElem?_mark h, if_neg hne]

theorem requests_handle (s : System Route Signature σ) (event : Event) :
    (s.handle P event).publishes.map (fun publish => (publish.root, publish.body)) =
      s.publishes.map (fun publish => (publish.root, publish.body)) ++ sent [event] := by
  cases event with
  | arrive root body => simp [handle, sent]
  | crash => simp [handle, crash, sent, Function.comp_def]
  | advance i =>
      simp only [sent, List.filterMap_cons, List.filterMap_nil, List.append_nil]
      cases hi : s.publishes[i]? with
      | none => rw [handle_advance_none hi]
      | some publish =>
          rw [handle_advance hi]
          rcases (move (P := P) s i publish).publishes with hsame | ⟨phase, hmarked⟩
          · rw [hsame]
          · rw [hmarked]
            apply List.ext_getElem?
            intro j
            rw [List.getElem?_map, List.getElem?_map, getElem?_mark hi]
            by_cases hj : j = i
            · rw [if_pos hj, hj, hi]
              rfl
            · rw [if_neg hj]

theorem requests_after (s : System Route Signature σ) (schedule : List Event) :
    ((concurrent P).after s schedule).publishes.map (fun publish => (publish.root, publish.body)) =
      s.publishes.map (fun publish => (publish.root, publish.body)) ++ sent schedule := by
  induction schedule generalizing s with
  | nil => simp [sent]
  | cons event rest ih =>
      rw [Machine.after_cons, concurrent_step, ih, requests_handle, List.append_assoc]
      simp only [sent, ← List.filterMap_append, List.singleton_append]

theorem length_after (s : System Route Signature σ) (schedule : List Event) :
    ((concurrent P).after s schedule).publishes.length =
      s.publishes.length + (sent schedule).length := by
  have hlengths := congrArg List.length (requests_after (P := P) s schedule)
  simpa using hlengths

theorem short_along {store : σ} {schedule : List Event}
    (h : (sent schedule).length < 2 ^ 64 - 1) :
    (concurrent P).Along (fun s _ => s.publishes.length < 2 ^ 64 - 1)
      (.openOver P store : System Route Signature σ) schedule := by
  rw [Machine.along_iff_forall_cut]
  rintro before event rest rfl
  rw [length_after]
  have hsent : (sent (before ++ event :: rest)).length =
      (sent before).length + (sent (event :: rest)).length := by
    simp [sent, List.filterMap_append]
  have hnone : (.openOver P store : System Route Signature σ).publishes.length = 0 := rfl
  omega

end System
end AccountDirectory
