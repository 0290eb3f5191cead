import AccountDirectory.Rehydration

/-! A restart is invisible. Directories agree when no request can tell them
apart: the same lock state, the same value under every root (an entered but
empty root is the same as none) and the same durable rows. Agreement is a
bisimulation for requests, and reopening the store a directory tracks gives a
directory that agrees with it. -/
namespace AccountDirectory
open Library

variable {Route Signature σ : Type} [Store σ] {P : Platform Route Signature}

namespace BlindDirectory

structure Agree (dir dir' : BlindDirectory Route σ) : Prop where
  poisoned : dir.roots.poisoned = dir'.roots.poisoned
  rootLog : ∀ root, dir.rootLog root = dir'.rootLog root
  durable : dir.store.isSome = dir'.store.isSome
  log : dir.log = dir'.log

variable {dir dir' : BlindDirectory Route σ} {put : SignedDirectoryPut Route Signature}
  {root body : String}

theorem Agree.touch (h : Agree dir dir') : Agree (dir.touch root) (dir'.touch root) where
  poisoned := rfl
  rootLog := by simpa using h.rootLog
  durable := h.durable
  log := by simpa using h.log

theorem Agree.poison (h : Agree dir dir') : Agree dir.poison dir'.poison where
  poisoned := rfl
  rootLog := by simpa using h.rootLog
  durable := h.durable
  log := by simpa using h.log

theorem Agree.advance (h : Agree dir dir')
    (hs : ∀ store ∈ dir.store, (appendLog store body).1.isOk)
    (hs' : ∀ store ∈ dir'.store, (appendLog store body).1.isOk) :
    Agree (dir.advance P put body) (dir'.advance P put body) where
  poisoned := rfl
  rootLog other := by rw [rootLog_advance, rootLog_advance, h.rootLog, h.rootLog]
  durable := by simpa using h.durable
  log := by rw [log_advance P hs, log_advance P hs', h.log, h.durable]

theorem Agree.get (h : Agree dir dir') (root : String) : dir.get root = dir'.get root := by
  cases hlock : dir.roots.poisoned with
  | true => rw [get_poisoned hlock, get_poisoned (h.poisoned ▸ hlock)]
  | false => rw [get_eq hlock, get_eq (h.poisoned ▸ hlock), h.rootLog]

/-- Agreeing directories reach the same outcome of `admitPut`. -/
theorem Agree.admitPut (h : Agree dir dir')
    (hs : (dir.admitPut P put body).1 = .ok .advanced →
      ∀ store ∈ dir.store, (appendLog store body).1.isOk)
    (hs' : (dir'.admitPut P put body).1 = .ok .advanced →
      ∀ store ∈ dir'.store, (appendLog store body).1.isOk) :
    (dir.admitPut P put body).1 = (dir'.admitPut P put body).1 ∧
      Agree (dir.admitPut P put body).2 (dir'.admitPut P put body).2 := by
  have hroot := h.rootLog put.root
  have hadmission := admission (P := P) dir put body
  generalize dir.admitPut P put body = result at hadmission hs
  cases hadmission with
  | poisoned hlock =>
      rw [(Admission.poisoned (h.poisoned ▸ hlock) : Admission P dir' put body _).eq]
      exact ⟨rfl, h⟩
  | recognised hlock hseen =>
      rw [hroot] at hseen
      rw [(Admission.recognised (h.poisoned ▸ hlock) hseen).eq]
      exact ⟨rfl, h.touch⟩
  | overflowed hlock hnew hnext =>
      rw [hroot] at hnew hnext
      rw [(Admission.overflowed (h.poisoned ▸ hlock) hnew hnext).eq]
      exact ⟨rfl, h.touch.poison⟩
  | refused hlock hnew hnext hgen =>
      rw [hroot] at hnew hnext
      rw [(Admission.refused (h.poisoned ▸ hlock) hnew hnext hgen).eq]
      exact ⟨rfl, h.touch⟩
  | advanced hlock hnew hnext =>
      rw [hroot] at hnew hnext
      rw [(Admission.advanced (h.poisoned ▸ hlock) hnew hnext).eq] at hs' ⊢
      exact ⟨rfl, h.advance (hs rfl) (hs' rfl)⟩

theorem Agree.publish (h : Agree dir dir')
    (hs : dir.AppendSucceeds P (.request (.put root body)))
    (hs' : dir'.AppendSucceeds P (.request (.put root body))) :
    (publish P dir root body).1 = (publish P dir' root body).1 ∧
      Agree (publish P dir root body).2 (publish P dir' root body).2 := by
  cases hcheck : validate P root body with
  | error panic => simpa [AccountDirectory.publish, hcheck] using h
  | ok checked =>
      cases checked with
      | error refusal => simpa [AccountDirectory.publish, hcheck] using h
      | ok put =>
          have hput := validate_eq_ok_iff.mp hcheck
          rw [appendSucceeds_iff hput] at hs hs'
          have hadmission := h.admitPut hs hs'
          rw [publish_of_acceptable hput, publish_of_acceptable hput, hadmission.1]
          exact ⟨rfl, hadmission.2⟩

theorem Agree.request (h : Agree dir dir') (request : Request)
    (hs : dir.AppendSucceeds P (.request request))
    (hs' : dir'.AppendSucceeds P (.request request)) :
    ((service P).step dir (.request request)).1 = ((service P).step dir' (.request request)).1 ∧
      Agree ((service P).step dir (.request request)).2
        ((service P).step dir' (.request request)).2 := by
  cases request with
  | put root body =>
      have hpublish := h.publish hs hs'
      exact ⟨congrArg Answer.ofResult hpublish.1, hpublish.2⟩
  | get root =>
      refine ⟨congrArg Answer.ofResult ?_, h⟩
      simp only [fetch, h.get]

/-- Reopening the store a directory tracks. -/
theorem Tracks.agree_restart (hlock : dir.roots.poisoned = false) (hdurable : dir.store.isSome)
    (htracks : dir.Tracks P dir.log) (hread : dir.ReadSucceeds .restart) :
    Agree dir (dir.restart P) := by
  obtain ⟨store, hstore⟩ := Option.isSome_iff_exists.mp hdurable
  have hrows := hread store hstore
  have hlog := log_of_store hstore
  have hrestart : dir.restart P = openOver P store := restart_of_store hstore
  rw [hrestart]
  exact {
    poisoned := hlock
    rootLog := fun root => by rw [htracks, rootLog_openOver hrows, hlog]
    durable := by simp [hstore]
    log := by rw [log_openOver, hlog] }

/-- A directory whose cache is the fold of its own log. -/
structure Faithful (P : Platform Route Signature) (dir : BlindDirectory Route σ) : Prop where
  durable : dir.store.isSome
  tracks : dir.Tracks P dir.log

theorem faithful_openOver {store : σ} (h : (readLog store).1.isOk) :
    (openOver P store).Faithful P := by
  refine ⟨rfl, ?_⟩
  rw [log_openOver]
  exact tracks_openOver h

theorem Faithful.admitPut (h : dir.Faithful P) (hput : Acceptable P root body put)
    (hs : (dir.admitPut P put body).1 = .ok .advanced →
      ∀ store ∈ dir.store, (appendLog store body).1.isOk) :
    (dir.admitPut P put body).2.Faithful P := by
  have hadmission := admission (P := P) dir put body
  generalize dir.admitPut P put body = result at hadmission hs
  cases hadmission with
  | poisoned hlock => exact h
  | recognised hlock hseen => exact ⟨h.durable, h.tracks.touch⟩
  | overflowed hlock hnew hnext => exact ⟨h.durable, h.tracks.touch.poison⟩
  | refused hlock hnew hnext hgen => exact ⟨h.durable, h.tracks.touch⟩
  | advanced hlock hnew hnext =>
      refine ⟨by simpa using h.durable, ?_⟩
      rw [log_advance P (hs rfl), if_pos h.durable]
      exact h.tracks.advance hput.parseRow

theorem Faithful.restart (h : dir.Faithful P) (hread : dir.ReadSucceeds .restart) :
    (dir.restart P).Faithful P := by
  obtain ⟨store, hstore⟩ := Option.isSome_iff_exists.mp h.durable
  have hrestart : dir.restart P = openOver P store := BlindDirectory.restart_of_store hstore
  rw [hrestart]
  exact faithful_openOver (hread store hstore)

/-- The values a faithful directory holds are those it is reopened with. -/
theorem Faithful.rootLog_restart (h : dir.Faithful P) (hread : dir.ReadSucceeds .restart)
    (root : String) : (dir.restart P).rootLog root = dir.rootLog root := by
  obtain ⟨store, hstore⟩ := Option.isSome_iff_exists.mp h.durable
  have hrestart : dir.restart P = openOver P store := BlindDirectory.restart_of_store hstore
  rw [hrestart, rootLog_openOver (hread store hstore), h.tracks, log_of_store hstore]

theorem Faithful.step (h : dir.Faithful P) {step : Step} (hs : dir.StoreSucceeds P step) :
    ((service P).step dir step).2.Faithful P := by
  cases step with
  | restart => exact h.restart hs.1
  | request request =>
      cases request with
      | get root => exact h
      | put root body =>
          change (AccountDirectory.publish P dir root body).2.Faithful P
          cases hcheck : validate P root body with
          | error panic => simpa [AccountDirectory.publish, hcheck] using h
          | ok checked =>
              cases checked with
              | error refusal => simpa [AccountDirectory.publish, hcheck] using h
              | ok put =>
                  have hput := validate_eq_ok_iff.mp hcheck
                  rw [publish_of_acceptable hput]
                  exact h.admitPut hput ((appendSucceeds_iff hput).mp hs.2)

/-- A faithful directory stays one for as long as its store serves it. -/
theorem faithful_after {store : σ} {steps : List Step} (hread : (readLog store).1.isOk)
    (hrun : Undisturbed P (.openOver P store) steps) :
    ((service P).after (.openOver P store) steps).Faithful P :=
  Machine.after_invariant (G := BlindDirectory.Faithful P) (fun _ _ hinv hs => hinv.step hs)
    (faithful_openOver hread) hrun

/-- Only a publish that overflows the fence poisons the lock. -/
theorem poisoned_step_cases (h : dir.roots.poisoned = false) (step : Step) :
    ((service P).step dir step).2.roots.poisoned = false ∨
      ∃ root body put panic, step = .request (.put root body) ∧ Acceptable P root body put ∧
        digest P body ∉ (dir.rootLog root).digests ∧
        addOne P.overflowChecks (dir.rootLog root).generation = .error panic ∧
        ((service P).step dir step).1 = .panicked panic := by
  cases step with
  | restart => exact .inl (poisoned_restart dir)
  | request request =>
      cases request with
      | get root => exact .inl h
      | put root body =>
          have hpublish := publication (P := P) dir root body
          change (AccountDirectory.publish P dir root body).2.roots.poisoned = false ∨
            ∃ root' body' put panic, Step.request (.put root body) = .request (.put root' body') ∧
              Acceptable P root' body' put ∧ digest P body' ∉ (dir.rootLog root').digests ∧
              addOne P.overflowChecks (dir.rootLog root').generation = .error panic ∧
              Answer.ofResult (AccountDirectory.publish P dir root body).1 = .panicked panic
          generalize AccountDirectory.publish P dir root body = result at hpublish
          generalize publishDisposition P dir root body = disposition at hpublish
          cases hpublish with
          | panicked hcheck => exact .inl h
          | refused hcheck => exact .inl h
          | @admitted put hput result dir' hadmission =>
              obtain rfl : root = put.root := hput.root_eq.symm
              cases hadmission with
              | poisoned hlock => rw [h] at hlock; cases hlock
              | overflowed hlock hnew hnext =>
                  exact .inr ⟨put.root, body, put, _, rfl, hput, hnew, hnext, rfl⟩
              | recognised hlock hseen => exact .inl rfl
              | refused hlock hnew hnext hgen => exact .inl rfl
              | advanced hlock hnew hnext => exact .inl rfl

/-- The lock survives every step that is answered. -/
theorem unpoisoned_step (h : dir.roots.poisoned = false) {step : Step}
    (hanswer : ∀ panic, ((service P).step dir step).1 ≠ .panicked panic) :
    ((service P).step dir step).2.roots.poisoned = false := by
  rcases poisoned_step_cases h step with hlock | ⟨root, body, put, panic, -, -, -, -, hpanicked⟩
  · exact hlock
  · exact absurd hpanicked (hanswer panic)

theorem Agree.restart (h : Agree dir dir') (hread : dir.ReadSucceeds .restart)
    (hread' : dir'.ReadSucceeds .restart) : Agree (dir.restart P) (dir'.restart P) := by
  have hdurable := h.durable
  have hlog := h.log
  unfold BlindDirectory.restart
  cases hstore : dir.store with
  | none =>
      rw [hstore, Option.isSome_none, eq_comm, Option.isSome_eq_false_iff,
        Option.isNone_iff_eq_none] at hdurable
      rw [hdurable]
      exact ⟨rfl, fun _ => rfl, rfl, rfl⟩
  | some store =>
      rw [hstore, Option.isSome_some] at hdurable
      obtain ⟨store', hstore'⟩ := Option.isSome_iff_exists.mp hdurable.symm
      rw [log_of_store hstore, log_of_store hstore'] at hlog
      rw [hstore']
      exact {
        poisoned := rfl
        rootLog := fun root => by
          rw [rootLog_openOver (hread store hstore), rootLog_openOver (hread' store' hstore'), hlog]
        durable := rfl
        log := by rw [log_openOver, log_openOver, hlog] }

theorem Agree.step (h : Agree dir dir') {step : Step} (hs : dir.StoreSucceeds P step)
    (hs' : dir'.StoreSucceeds P step) :
    ((service P).step dir step).1 = ((service P).step dir' step).1 ∧
      Agree ((service P).step dir step).2 ((service P).step dir' step).2 := by
  cases step with
  | restart => exact ⟨rfl, h.restart hs.1 hs'.1⟩
  | request request => exact h.request request hs.2 hs'.2

/-- Agreeing directories stay in step for as long as their stores serve them. -/
theorem Agree.run (h : Agree dir dir') {steps : List Step} (hs : Undisturbed P dir steps)
    (hs' : Undisturbed P dir' steps) :
    (service P).outputs dir steps = (service P).outputs dir' steps ∧
      Agree ((service P).after dir steps) ((service P).after dir' steps) :=
  Machine.outputs_eq_of_simulation (n := 0) (R := fun _ => Agree)
    (fun _ _ _ _ hrel hp hp' => hrel.step hp hp') h hs hs'

end BlindDirectory

/-- The directory reopened at any point of an undisturbed run, over any log the
store began with, is not told apart from the one that kept running. -/
theorem restart_invisible {store : σ} {steps : List Step} (hread : (readLog store).1.isOk)
    (hrun : Undisturbed P (.openOver P store) steps)
    (hpanic : ∀ panic, .panicked panic ∉ (service P).outputs (.openOver P store) steps)
    (hreopen : ((service P).after (.openOver P store) steps).ReadSucceeds .restart) :
    let running := (service P).after (.openOver P store) steps
    let restarted := running.restart P
    (∀ root, running.get root = restarted.get root) ∧
      ∀ further, Undisturbed P running further → Undisturbed P restarted further →
        (service P).outputs running further = (service P).outputs restarted further ∧
          ∃ appended, ((service P).after running further).log = running.log ++ appended ∧
            ((service P).after restarted further).log = restarted.log ++ appended := by
  intro running restarted
  have hfaithful : running.Faithful P := BlindDirectory.faithful_after hread hrun
  have hanswered := ((service P).along_outputs (fun answer => ∀ panic, answer ≠ .panicked panic)
    (.openOver P store) steps).mpr fun answer hmem panic heq => hpanic panic (heq ▸ hmem)
  have hlock : running.roots.poisoned = false :=
    Machine.after_invariant (G := fun dir : BlindDirectory Route σ => dir.roots.poisoned = false)
      (fun _ _ hinv hs => BlindDirectory.unpoisoned_step hinv hs)
      BlindDirectory.poisoned_openOver hanswered
  have hagree : BlindDirectory.Agree running restarted :=
    hfaithful.tracks.agree_restart hlock hfaithful.durable hreopen
  refine ⟨hagree.get, fun further hs hs' => ?_⟩
  obtain ⟨houtputs, hend⟩ := hagree.run hs hs'
  obtain ⟨appended, happended⟩ := log_after_extends (P := P) running further
  exact ⟨houtputs, appended, happended.symm, by rw [← hend.log, ← happended, hagree.log]⟩

theorem restart_invisible_over_mixed_log :
    let store := Sample.store ["bare", "junk"] [] []
    let running := (service Sample.platform).after (.openOver Sample.platform store)
      [Sample.put "second", Sample.put "first"]
    running.log = ["bare", "junk", "first"] ∧
      ∀ root, running.get root = (running.restart Sample.platform).get root :=
  ⟨by decide +kernel,
    (restart_invisible (by decide +kernel) (by decide +kernel)
      (fun panic => by cases panic <;> decide +kernel) (by decide +kernel)).1⟩

end AccountDirectory
