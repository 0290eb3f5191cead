import AccountDirectory.Service

/-! What `admitPut` and `publish` can do, said once. Every later argument about a
publish is a case analysis over `Admission`: the lock is poisoned, the body is
recognised, the fence overflows, the generation is refused, or the root
advances. -/
namespace AccountDirectory
open Library

variable {Route Signature σ : Type} (P : Platform Route Signature)

abbrev SignedDirectoryPut.root (put : SignedDirectoryPut Route Signature) : String :=
  put.entry.directory.rootPubkey

namespace BlindDirectory

def rootLog (dir : BlindDirectory Route σ) (root : String) : RootLog Route :=
  dir.roots.value.entry root

/-- Entering a root in the map without changing what it holds. -/
def touch (dir : BlindDirectory Route σ) (root : String) : BlindDirectory Route σ :=
  dir.withRoots (dir.roots.value.insert root (dir.rootLog root))

def poison (dir : BlindDirectory Route σ) : BlindDirectory Route σ :=
  { dir with roots := ⟨dir.roots.value, true⟩ }

def advance [Store σ] (dir : BlindDirectory Route σ) (put : SignedDirectoryPut Route Signature)
    (body : String) : BlindDirectory Route σ :=
  (dir.appendBody body).withRoots ((dir.touch put.root).roots.value.insert put.root
    ((dir.rootLog put.root).fold P body put.entry))

/-- The cache half of an advance: the fold into the root's entry. -/
def foldBody (dir : BlindDirectory Route σ) (put : SignedDirectoryPut Route Signature)
    (body : String) : BlindDirectory Route σ :=
  dir.withRoots (dir.roots.value.insert put.root
    ((dir.rootLog put.root).fold P body put.entry))

variable (dir : BlindDirectory Route σ) (root other body : String)
  (put : SignedDirectoryPut Route Signature)

@[simp] theorem poisoned_touch : (dir.touch root).roots.poisoned = false := rfl
@[simp] theorem store_touch : (dir.touch root).store = dir.store := rfl
@[simp] theorem store_poison : dir.poison.store = dir.store := rfl
@[simp] theorem rootLog_poison : dir.poison.rootLog root = dir.rootLog root := rfl

@[simp] theorem rootLog_touch : (dir.touch root).rootLog other = dir.rootLog other :=
  getD_lookup_insert_self dir.roots.value root other

theorem rootLog_foldBody :
    (dir.foldBody P put body).rootLog other =
      if other = put.root then (dir.rootLog put.root).fold P body put.entry
      else dir.rootLog other :=
  getD_lookup_insert dir.roots.value put.root other _

section Durable

variable [Store σ]

@[simp] theorem rootLog_appendBody : (dir.appendBody body).rootLog root = dir.rootLog root := rfl
@[simp] theorem log_touch : (dir.touch root).log = dir.log := rfl
@[simp] theorem log_poison : dir.poison.log = dir.log := rfl

@[simp] theorem store_advance :
    (dir.advance P put body).store = dir.store.map fun store => (appendLog store body).2 := rfl

/-- An advance enters the root, appends, and folds. -/
theorem advance_eq :
    dir.advance P put body = ((dir.touch put.root).appendBody body).foldBody P put body := by
  have hlog : ((dir.touch put.root).appendBody body).rootLog put.root = dir.rootLog put.root :=
    rootLog_touch dir put.root put.root
  rw [foldBody, hlog]
  rfl

theorem rootLog_advance :
    (dir.advance P put body).rootLog other =
      if other = put.root then (dir.rootLog put.root).fold P body put.entry
      else dir.rootLog other := by
  rw [advance_eq, rootLog_foldBody]
  simp only [rootLog_appendBody, rootLog_touch]

end Durable

variable {dir} {root body put}

theorem get_eq (h : dir.roots.poisoned = false) : dir.get root = .ok (dir.rootLog root).latest := by
  have hok : dir.roots.lock = .ok dir.roots.value := Mutex.lock_eq_ok.mpr ⟨h, rfl⟩
  unfold get rootLog Roots.entry
  rw [hok]
  cases hlookup : dir.roots.value.lookup root <;>
    simp [hlookup, bind, Except.bind, pure, Except.pure]

theorem get_poisoned (h : dir.roots.poisoned = true) : dir.get root = .error .poisoned := by
  simp [get, Mutex.lock, h, bind, Except.bind]

theorem log_of_store [Store σ] {store : σ} (h : dir.store = some store) :
    dir.log = durableLog store := by
  simp [log, h]

theorem log_appendBody [Store σ] (h : ∀ store ∈ dir.store, (appendLog store body).1.isOk) :
    (dir.appendBody body).log = dir.log ++ if dir.store.isSome then [body] else [] := by
  unfold log appendBody
  cases hstore : dir.store with
  | none => rfl
  | some store => simpa using durableLog_append_of_isOk (h store hstore)

theorem log_appendBody_cases [Store σ] (dir : BlindDirectory Route σ) (body : String) :
    (dir.appendBody body).log = dir.log ∨ (dir.appendBody body).log = dir.log ++ [body] := by
  unfold log appendBody
  cases dir.store with
  | none => exact .inl rfl
  | some store =>
      by_cases h : (appendLog store body).1.isOk
      · exact .inr (durableLog_append_of_isOk h)
      · exact .inl (durableLog_append_of_not_isOk h)

theorem log_advance [Store σ] (h : ∀ store ∈ dir.store, (appendLog store body).1.isOk) :
    (dir.advance P put body).log = dir.log ++ if dir.store.isSome then [body] else [] :=
  log_appendBody h

theorem log_advance_cases [Store σ] (dir : BlindDirectory Route σ)
    (put : SignedDirectoryPut Route Signature) (body : String) :
    (dir.advance P put body).log = dir.log ∨ (dir.advance P put body).log = dir.log ++ [body] :=
  log_appendBody_cases dir body

end BlindDirectory

variable [Store σ]

/-- The outcomes of `admitPut`, each with what held when it was reached. -/
inductive Admission (dir : BlindDirectory Route σ) (put : SignedDirectoryPut Route Signature)
    (body : String) : Except Panic Disposition × BlindDirectory Route σ → Prop where
  | poisoned (hlock : dir.roots.poisoned = true) :
      Admission dir put body (.error .poisoned, dir)
  | recognised (hlock : dir.roots.poisoned = false)
      (hseen : digest P body ∈ (dir.rootLog put.root).digests) :
      Admission dir put body (.ok .idempotent, dir.touch put.root)
  | overflowed (hlock : dir.roots.poisoned = false)
      (hnew : digest P body ∉ (dir.rootLog put.root).digests) {panic : Panic}
      (hnext : addOne P.overflowChecks (dir.rootLog put.root).generation = .error panic) :
      Admission dir put body (.error panic, (dir.touch put.root).poison)
  | refused (hlock : dir.roots.poisoned = false)
      (hnew : digest P body ∉ (dir.rootLog put.root).digests) {next : UInt64}
      (hnext : addOne P.overflowChecks (dir.rootLog put.root).generation = .ok next)
      (hgen : put.entry.generation ≠ next) :
      Admission dir put body (.ok .conflict, dir.touch put.root)
  | advanced (hlock : dir.roots.poisoned = false)
      (hnew : digest P body ∉ (dir.rootLog put.root).digests)
      (hnext : addOne P.overflowChecks (dir.rootLog put.root).generation =
        .ok put.entry.generation) :
      Admission dir put body (.ok .advanced, dir.advance P put body)

variable {P} {dir : BlindDirectory Route σ} {put : SignedDirectoryPut Route Signature}
  {root body : String}

theorem admission (dir : BlindDirectory Route σ) (put : SignedDirectoryPut Route Signature)
    (body : String) : Admission P dir put body (dir.admitPut P put body) := by
  cases hlock : dir.roots.poisoned with
  | true =>
      have heq : dir.admitPut P put body = (.error .poisoned, dir) := by
        simp [BlindDirectory.admitPut, Mutex.lock, hlock]
      rw [heq]
      exact .poisoned hlock
  | false =>
      have hok : dir.roots.lock = .ok dir.roots.value := Mutex.lock_eq_ok.mpr ⟨hlock, rfl⟩
      unfold BlindDirectory.admitPut
      simp only [hok]
      split
      · rename_i hseen
        exact .recognised hlock hseen
      · rename_i hnew
        split
        · rename_i panic hnext
          exact .overflowed hlock hnew hnext
        · rename_i next hnext
          split
          · rename_i hgen
            exact .refused hlock hnew hnext hgen
          · rename_i hgen
            rw [not_not] at hgen
            exact .advanced hlock hnew (hgen ▸ hnext)

theorem Admission.eq {result : Except Panic Disposition × BlindDirectory Route σ}
    (h : Admission P dir put body result) : dir.admitPut P put body = result := by
  have hadmission := admission (P := P) dir put body
  generalize dir.admitPut P put body = actual at hadmission
  cases h <;> cases hadmission <;> simp_all

/-- The outcomes of `publish`, each with the disposition `admitPut` gave it. -/
inductive Publication (P : Platform Route Signature) (dir : BlindDirectory Route σ)
    (root body : String) :
    Except Panic Response × BlindDirectory Route σ → Option Disposition → Prop where
  | panicked {panic : Panic} (hcheck : validate P root body = .error panic) :
      Publication P dir root body (.error panic, dir) none
  | refused {refusal : Response} (hcheck : validate P root body = .ok (.error refusal)) :
      Publication P dir root body (.ok refusal, dir) none
  | admitted {put : SignedDirectoryPut Route Signature} (hput : Acceptable P root body put)
      {result : Except Panic Disposition} {dir' : BlindDirectory Route σ}
      (hadmission : Admission P dir put body (result, dir')) :
      Publication P dir root body (result.map Disposition.response, dir') result.toOption

theorem publication (dir : BlindDirectory Route σ) (root body : String) :
    Publication P dir root body (publish P dir root body) (publishDisposition P dir root body) := by
  unfold publish publishDisposition
  cases hcheck : validate P root body with
  | error panic => exact .panicked hcheck
  | ok checked =>
      cases checked with
      | error refusal => exact .refused hcheck
      | ok put => exact .admitted (validate_eq_ok_iff.mp hcheck) (admission dir put body)

section Acceptable

variable (h : Acceptable P root body put)
include h

theorem publish_of_acceptable :
    publish P dir root body =
      ((dir.admitPut P put body).1.map Disposition.response, (dir.admitPut P put body).2) := by
  simp [publish, validate_eq_ok_iff.mpr h]

theorem publishDisposition_of_acceptable :
    publishDisposition P dir root body = (dir.admitPut P put body).1.toOption := by
  simp [publishDisposition, validate_eq_ok_iff.mpr h]

theorem appendSucceeds_iff :
    dir.AppendSucceeds P (.request (.put root body)) ↔
      ((dir.admitPut P put body).1 = .ok .advanced →
        ∀ store ∈ dir.store, (appendLog store body).1.isOk) := by
  change (publishDisposition P dir root body = some .advanced → _) ↔ _
  rw [publishDisposition_of_acceptable h]
  cases (dir.admitPut P put body).1 <;> simp [Except.toOption]

end Acceptable

/-- The body is the next publish of its root: new, and one generation on. -/
def NextPublish (P : Platform Route Signature) (dir : BlindDirectory Route σ)
    (root body : String) : Prop :=
  dir.roots.poisoned = false ∧ ∃ put, Acceptable P root body put ∧
    digest P body ∉ (dir.rootLog root).digests ∧
    addOne P.overflowChecks (dir.rootLog root).generation = .ok put.entry.generation

theorem publishDisposition_advanced_iff :
    publishDisposition P dir root body = some .advanced ↔ NextPublish P dir root body := by
  constructor
  · intro h
    have hpublish := publication (P := P) dir root body
    rw [h] at hpublish
    generalize publish P dir root body = result at hpublish
    generalize hd : some Disposition.advanced = disposition at hpublish
    cases hpublish with
    | panicked hcheck => cases hd
    | refused hcheck => cases hd
    | @admitted put hput result dir' hadmission =>
        obtain rfl := hput.root_eq
        cases hadmission with
        | advanced hlock hnew hnext => exact ⟨hlock, put, hput, hnew, hnext⟩
        | _ => cases hd
  · rintro ⟨hlock, put, hput, hnew, hnext⟩
    obtain rfl := hput.root_eq
    rw [publishDisposition_of_acceptable hput, (Admission.advanced hlock hnew hnext).eq]
    rfl

theorem publishDisposition_idempotent_iff :
    publishDisposition P dir root body = some .idempotent ↔ dir.roots.poisoned = false ∧
      ∃ put, Acceptable P root body put ∧ digest P body ∈ (dir.rootLog root).digests := by
  constructor
  · intro h
    have hpublish := publication (P := P) dir root body
    rw [h] at hpublish
    generalize publish P dir root body = result at hpublish
    generalize hd : some Disposition.idempotent = disposition at hpublish
    cases hpublish with
    | panicked hcheck => cases hd
    | refused hcheck => cases hd
    | @admitted put hput result dir' hadmission =>
        obtain rfl := hput.root_eq
        cases hadmission with
        | recognised hlock hseen => exact ⟨hlock, put, hput, hseen⟩
        | _ => cases hd
  · rintro ⟨hlock, put, hput, hseen⟩
    obtain rfl := hput.root_eq
    rw [publishDisposition_of_acceptable hput, (Admission.recognised hlock hseen).eq]
    rfl

/-- The publish is answered `204`. -/
def Acknowledged (P : Platform Route Signature) (dir : BlindDirectory Route σ)
    (root body : String) : Prop :=
  ∃ reply, (publish P dir root body).1 = .ok reply ∧ reply.status = .noContent

theorem acknowledged_iff :
    Acknowledged P dir root body ↔ publishDisposition P dir root body = some .advanced ∨
      publishDisposition P dir root body = some .idempotent := by
  unfold Acknowledged
  have hpublish := publication (P := P) dir root body
  generalize publish P dir root body = result at hpublish
  generalize publishDisposition P dir root body = disposition at hpublish
  cases hpublish with
  | panicked hcheck => simp
  | refused hcheck => simp [status_of_refusal hcheck]
  | @admitted put hput result dir' hadmission =>
      cases result with
      | error panic => simp [Except.map, Except.toOption]
      | ok disposition =>
          cases disposition <;> simp [Except.map, Except.toOption, Disposition.response, text]

theorem BlindDirectory.restart_of_store {store : σ} (h : dir.store = some store) :
    dir.restart P = .openOver P store := by
  simp [BlindDirectory.restart, h]

/-- A restart gives up the poisoned lock with the process that held it. -/
@[simp] theorem BlindDirectory.poisoned_restart (dir : BlindDirectory Route σ) :
    (dir.restart P).roots.poisoned = false := by
  unfold BlindDirectory.restart
  split <;> rfl

theorem BlindDirectory.log_restart (dir : BlindDirectory Route σ) :
    (dir.restart P).log = dir.log := by
  unfold BlindDirectory.restart
  cases hstore : dir.store with
  | none => simp [BlindDirectory.log, hstore, BlindDirectory.new]
  | some store => simp [BlindDirectory.log, hstore, BlindDirectory.openOver]

/-- What an admitted publish does: it advances its root. -/
theorem NextPublish.publish_eq (h : NextPublish P dir root body) :
    ∃ put, Acceptable P root body put ∧ digest P body ∉ (dir.rootLog root).digests ∧
      addOne P.overflowChecks (dir.rootLog root).generation = .ok put.entry.generation ∧
      (publish P dir root body).2 = dir.advance P put body := by
  obtain ⟨hlock, put, hput, hnew, hnext⟩ := h
  obtain rfl : root = put.root := hput.root_eq.symm
  refine ⟨put, hput, hnew, hnext, ?_⟩
  rw [publish_of_acceptable hput, (Admission.advanced hlock hnew hnext).eq]

/-- A publish that is not admitted changes no root's log and nothing durable. -/
theorem publish_frame (h : publishDisposition P dir root body ≠ some .advanced) :
    (publish P dir root body).2.store = dir.store ∧ (publish P dir root body).2.log = dir.log ∧
      ∀ other, (publish P dir root body).2.rootLog other = dir.rootLog other := by
  have hpublish := publication (P := P) dir root body
  generalize publish P dir root body = result at hpublish
  generalize publishDisposition P dir root body = disposition at hpublish h
  cases hpublish with
  | panicked hcheck => exact ⟨rfl, rfl, fun _ => rfl⟩
  | refused hcheck => exact ⟨rfl, rfl, fun _ => rfl⟩
  | admitted hput hadmission =>
      cases hadmission with
      | poisoned hlock => exact ⟨rfl, rfl, fun _ => rfl⟩
      | advanced hlock hnew hnext => exact absurd rfl h
      | overflowed hlock hnew hnext =>
          refine ⟨rfl, rfl, fun other => ?_⟩
          rw [BlindDirectory.rootLog_poison, BlindDirectory.rootLog_touch]
      | recognised hlock hseen => exact ⟨rfl, rfl, BlindDirectory.rootLog_touch dir _⟩
      | refused hlock hnew hnext hgen => exact ⟨rfl, rfl, BlindDirectory.rootLog_touch dir _⟩

/-- A step leaves the log as it was or adds the body it carries, whatever the
store does. -/
theorem log_step (dir : BlindDirectory Route σ) (step : Step) :
    ((service P).step dir step).2.log = dir.log ∨
      ∃ body ∈ step.body, ((service P).step dir step).2.log = dir.log ++ [body] := by
  cases step with
  | restart => exact .inl (BlindDirectory.log_restart dir)
  | request request =>
      cases request with
      | get root => exact .inl rfl
      | put root body =>
          change (publish P dir root body).2.log = _ ∨
            ∃ added ∈ some body, (publish P dir root body).2.log = dir.log ++ [added]
          by_cases hadvanced : publishDisposition P dir root body = some .advanced
          · obtain ⟨put, -, -, -, hpublish⟩ :=
              (publishDisposition_advanced_iff.mp hadvanced).publish_eq
            rw [hpublish]
            rcases BlindDirectory.log_advance_cases P dir put body with hsame | hgrown
            · exact .inl hsame
            · exact .inr ⟨body, rfl, hgrown⟩
          · exact .inl (publish_frame hadvanced).2.1

/-- Over a store that takes what it is given, the log grows by the body of an
admitted publish and stays as it is at every other step. -/
theorem log_step_cases {step : Step} (hdurable : dir.store.isSome) (hs : dir.StoreSucceeds P step) :
    (((service P).step dir step).2.log = dir.log ∧ ∀ root body,
        step = .request (.put root body) → publishDisposition P dir root body ≠ some .advanced) ∨
      ∃ root body, step = .request (.put root body) ∧ NextPublish P dir root body ∧
        ((service P).step dir step).2.log = dir.log ++ [body] := by
  cases step with
  | restart => exact .inl ⟨BlindDirectory.log_restart dir, nofun⟩
  | request request =>
      cases request with
      | get root => exact .inl ⟨rfl, nofun⟩
      | put root body =>
          by_cases hadvanced : publishDisposition P dir root body = some .advanced
          · have hnext := publishDisposition_advanced_iff.mp hadvanced
            obtain ⟨put, -, -, -, hpublish⟩ := hnext.publish_eq
            refine .inr ⟨root, body, rfl, hnext, ?_⟩
            change (publish P dir root body).2.log = _
            rw [hpublish, BlindDirectory.log_advance P (hs.2 hadvanced), if_pos hdurable]
          · exact .inl ⟨(publish_frame hadvanced).2.1, fun _ _ heq => by cases heq; exact hadvanced⟩

theorem log_step_extends (dir : BlindDirectory Route σ) (step : Step) :
    dir.log <+: ((service P).step dir step).2.log := by
  rcases log_step (P := P) dir step with hsame | ⟨body, -, hgrown⟩
  · rw [hsame]
  · rw [hgrown]
    exact List.prefix_append ..

theorem log_after_extends (dir : BlindDirectory Route σ) (steps : List Step) :
    dir.log <+: ((service P).after dir steps).log :=
  Machine.after_extends (M := service P) (f := BlindDirectory.log) log_step_extends dir steps

/-- Every row was there at the start or was sent in the run. -/
theorem mem_log_after {steps : List Step} {row : String}
    (h : row ∈ ((service P).after dir steps).log) : row ∈ dir.log ++ putBodies steps := by
  have hall : ∀ row ∈ ((service P).after dir steps).log, row ∈ dir.log ++ putBodies steps := by
    apply Machine.after_invariant (M := service P)
      (G := fun later : BlindDirectory Route σ => ∀ row ∈ later.log, row ∈ dir.log ++ putBodies steps)
      (P := fun _ step => ∀ body ∈ step.body, body ∈ putBodies steps)
    · intro later step hlater hbody row hrow
      rcases log_step (P := P) later step with hsame | ⟨body, hcarried, hgrown⟩
      · exact hlater row (hsame ▸ hrow)
      · rw [hgrown] at hrow
        rcases List.mem_append.mp hrow with hold | hnew
        · exact hlater row hold
        · rw [List.mem_singleton.mp hnew]
          exact List.mem_append_right _ (hbody body hcarried)
    · intro row hrow
      exact List.mem_append_left _ hrow
    · apply Machine.along_of_mem
      intro step hstep body hbody
      exact List.mem_filterMap.mpr ⟨step, hstep, hbody⟩
  exact hall row h

section AdmittedIn

/-- The run admits a publish of `root`. -/
def AdmittedIn (P : Platform Route Signature) (dir : BlindDirectory Route σ) (steps : List Step)
    (root : String) : Prop :=
  ∃ early body, early ++ [.request (.put root body)] <+: steps ∧
    publishDisposition P ((service P).after dir early) root body = some .advanced

theorem not_admittedIn_nil : ¬ AdmittedIn P dir [] root := by
  rintro ⟨early, body, hcut, -⟩
  have hnil := List.prefix_nil.mp hcut
  simp at hnil

theorem admittedIn_concat {steps : List Step} {step : Step} :
    AdmittedIn P dir (steps ++ [step]) root ↔ AdmittedIn P dir steps root ∨
      ∃ body, step = .request (.put root body) ∧
        publishDisposition P ((service P).after dir steps) root body = some .advanced := by
  constructor
  · rintro ⟨early, body, hcut, hadvanced⟩
    rcases List.prefix_concat_iff.mp hcut with hlast | hbefore
    · obtain ⟨rfl, hstep⟩ := List.append_inj' hlast rfl
      exact .inr ⟨body, (List.singleton_inj.mp hstep).symm, hadvanced⟩
    · exact .inl ⟨early, body, hbefore, hadvanced⟩
  · rintro (⟨early, body, hbefore, hadvanced⟩ | ⟨body, rfl, hadvanced⟩)
    · exact ⟨early, body, hbefore.trans (List.prefix_append _ _), hadvanced⟩
    · exact ⟨steps, body, List.prefix_refl _, hadvanced⟩

end AdmittedIn

end AccountDirectory
