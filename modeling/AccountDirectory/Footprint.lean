import AccountDirectory.Ledger

/-! What a request that is not admitted leaves behind. `admit` enters the root
in the map before it looks at the generation, so an accepted publish that is
refused for a root without an entry leaves an empty one, and `len` counts it.
Nothing else that is refused or read leaves a trace. -/
namespace AccountDirectory
open Library

variable {Route Signature σ : Type} [Store σ] (P : Platform Route Signature)

/-- Everything the directory can be asked for is as it was. -/
structure Unchanged (dir dir' : BlindDirectory Route σ) : Prop where
  get : ∀ root, dir'.get root = dir.get root
  len : dir'.len = dir.len
  isEmpty : dir'.isEmpty = dir.isEmpty
  log : dir'.log = dir.log

/-- Answered, and not with an advance. -/
def NotAdmitted (dir : BlindDirectory Route σ) : Request → Prop
  | .put root body => (∃ reply, (publish P dir root body).1 = .ok reply) ∧
      publishDisposition P dir root body ≠ some .advanced
  | .get _ => True

/-- An accepted publish that cannot be the first of a root without an entry. -/
def LeavesTrace (dir : BlindDirectory Route σ) : Request → Prop
  | .put root body => root ∉ dir.roots.value ∧
      ∃ put, Acceptable P root body put ∧ put.entry.generation ≠ 1
  | .get _ => False

def Tidy (dir : BlindDirectory Route σ) (step : Step) : Prop :=
  ∀ request, step = .request request → ¬ LeavesTrace P dir request

/-- A root with a row in the log the directory began with, or with an advance
in the run. -/
def Published (dir : BlindDirectory Route σ) (steps : List Step) (root : String) : Prop :=
  rowsFor P dir.log root ≠ [] ∨ AdmittedIn P dir steps root

variable {P} {dir : BlindDirectory Route σ} {root body : String}
  {put : SignedDirectoryPut Route Signature}

theorem Unchanged.refl (dir : BlindDirectory Route σ) : Unchanged dir dir :=
  ⟨fun _ => rfl, rfl, rfl, rfl⟩

namespace BlindDirectory

omit [Store σ] in
theorem rootLog_of_not_mem (h : root ∉ dir.roots.value) : dir.rootLog root = {} := by
  unfold rootLog Roots.entry
  rw [Finmap.lookup_eq_none.mpr h, Option.getD_none]

omit [Store σ] in
theorem touch_of_mem (hlock : dir.roots.poisoned = false) (h : root ∈ dir.roots.value) :
    dir.touch root = dir := by
  have hvalue : dir.roots.value.insert root (dir.rootLog root) = dir.roots.value :=
    insert_lookup_self h
  unfold touch withRoots Mutex.new
  rw [hvalue, ← hlock]

omit [Store σ] in
theorem mem_touch (h : root ∈ dir.roots.value) (other : String) :
    other ∈ (dir.touch root).roots.value ↔ other ∈ dir.roots.value := by
  have hvalue : (dir.touch root).roots.value = dir.roots.value := insert_lookup_self h
  rw [hvalue]

omit [Store σ] in
theorem len_eq (hlock : dir.roots.poisoned = false) :
    dir.len = .ok dir.roots.value.keys.card := by
  have hok : dir.roots.lock = .ok dir.roots.value := Mutex.lock_eq_ok.mpr ⟨hlock, rfl⟩
  simp [len, hok, bind, Except.bind, pure, Except.pure]

omit [Store σ] in
/-- Entering a root the map does not have makes `len` one more. -/
theorem len_touch_of_not_mem (h : root ∉ dir.roots.value) :
    (dir.touch root).len = .ok (dir.roots.value.keys.card + 1) := by
  rw [len_eq (poisoned_touch dir root)]
  change Except.ok (dir.roots.value.insert root (dir.rootLog root)).keys.card = _
  rw [keys_insert, Finset.card_insert_of_notMem (by rwa [Finmap.mem_keys])]

end BlindDirectory

omit [Store σ] in
/-- A root without an entry has no digest to recognise. -/
theorem not_recognised_of_not_mem (h : root ∉ dir.roots.value) :
    digest P body ∉ (dir.rootLog root).digests := by
  rw [BlindDirectory.rootLog_of_not_mem h]
  exact Finset.notMem_empty _

omit [Store σ] in
/-- A root without an entry stands at zero. -/
theorem addOne_of_not_mem (h : root ∉ dir.roots.value) (overflowChecks : Bool) :
    addOne overflowChecks (dir.rootLog root).generation = .ok 1 := by
  rw [BlindDirectory.rootLog_of_not_mem h]
  exact addOne_of_lt _ (show (0 : UInt64).toNat + 1 < UInt64.size by decide)

/-- An answered request that is not admitted leaves everything as it was,
exactly when it is not the one kind that leaves a trace. -/
theorem unchanged_iff {request : Request} (h : NotAdmitted P dir request) :
    Unchanged dir (dir.handle P request).2 ↔ ¬ LeavesTrace P dir request := by
  cases request with
  | get root => exact iff_of_true (Unchanged.refl dir) not_false
  | put root body =>
      obtain ⟨⟨reply, hreply⟩, hnot⟩ := h
      change Unchanged dir (publish P dir root body).2 ↔ _
      have hpublish := publication (P := P) dir root body
      generalize publish P dir root body = result at hpublish hreply
      generalize publishDisposition P dir root body = disposition at hpublish hnot
      cases hpublish with
      | panicked hcheck => cases hreply
      | refused hcheck =>
          refine iff_of_true (Unchanged.refl dir) ?_
          rintro ⟨-, put, hput, -⟩
          rw [validate_eq_ok_iff.mpr hput] at hcheck
          cases hcheck
      | @admitted put hput result dir' hadmission =>
          obtain rfl := hput.root_eq
          cases hadmission with
          | poisoned hlock => cases hreply
          | overflowed hlock hnew hnext => cases hreply
          | advanced hlock hnew hnext => exact absurd rfl hnot
          | recognised hlock hseen =>
              have hmem : put.root ∈ dir.roots.value := by
                by_contra hout
                exact not_recognised_of_not_mem hout hseen
              rw [BlindDirectory.touch_of_mem hlock hmem]
              exact iff_of_true (Unchanged.refl dir) fun htrace => htrace.1 hmem
          | refused hlock hnew hnext hgen =>
              by_cases hmem : put.root ∈ dir.roots.value
              · rw [BlindDirectory.touch_of_mem hlock hmem]
                exact iff_of_true (Unchanged.refl dir) fun htrace => htrace.1 hmem
              · refine iff_of_false (fun hsame => ?_) ?_
                · have hlen := hsame.len
                  rw [BlindDirectory.len_touch_of_not_mem hmem, BlindDirectory.len_eq hlock,
                    Except.ok.injEq] at hlen
                  omega
                · rw [not_not]
                  rw [addOne_of_not_mem hmem] at hnext
                  cases hnext
                  exact ⟨hmem, put, hput, hgen⟩

/-- The map has an entry for exactly the roots that hold a value. -/
def Counted (dir : BlindDirectory Route σ) : Prop :=
  ∀ root, root ∈ dir.roots.value ↔ (dir.rootLog root).latest.isSome

namespace Counted

omit [Store σ] in
theorem new : Counted (.new : BlindDirectory Route σ) := by
  intro root
  refine iff_of_false Finmap.notMem_empty ?_
  rw [BlindDirectory.rootLog_of_not_mem Finmap.notMem_empty]
  exact Bool.false_ne_true

theorem openOver (store : σ) : Counted (.openOver P store : BlindDirectory Route σ) := by
  intro root
  by_cases hread : (readLog store).1.isOk
  · rw [BlindDirectory.roots_openOver hread, mem_fileAll, BlindDirectory.rootLog_openOver hread,
      latest_rowsFor]
    cases hlast : (rowsFor P (durableLog store) root).getLast? with
    | none =>
        have hnil : history (rowRoot P) (durableLog store) root = [] :=
          List.getLast?_eq_none_iff.mp hlast
        simp [hnil, Finmap.notMem_empty]
    | some row =>
        have hparse := parseRow_isSome_of_mem (List.mem_of_getLast? hlast)
        have hrows : rowsFor P (durableLog store) root ≠ [] := by
          rintro hnil
          rw [hnil] at hlast
          cases hlast
        simpa [storedRow, hrows] using hparse
  · rw [BlindDirectory.rootLog_openOver_error hread]
    cases hresult : (readLog store).1 with
    | ok rows => simp [hresult, Except.isOk, Except.toBool] at hread
    | error error =>
        simp [BlindDirectory.openOver, hresult, Mutex.new, Finmap.notMem_empty]

theorem publish (h : Counted dir) (htrace : ¬ LeavesTrace P dir (.put root body)) :
    Counted (AccountDirectory.publish P dir root body).2 := by
  have hpublish := publication (P := P) dir root body
  generalize AccountDirectory.publish P dir root body = result at hpublish
  generalize publishDisposition P dir root body = disposition at hpublish
  cases hpublish with
  | panicked hcheck => exact h
  | refused hcheck => exact h
  | @admitted put hput result dir' hadmission =>
      obtain rfl := hput.root_eq
      have htouch : put.root ∈ dir.roots.value → Counted (dir.touch put.root) := by
        intro hmem other
        rw [BlindDirectory.mem_touch hmem, BlindDirectory.rootLog_touch]
        exact h other
      cases hadmission with
      | poisoned hlock => exact h
      | recognised hlock hseen =>
          apply htouch
          by_contra hout
          exact not_recognised_of_not_mem hout hseen
      | overflowed hlock hnew hnext =>
          apply htouch
          by_contra hout
          rw [addOne_of_not_mem hout] at hnext
          cases hnext
      | refused hlock hnew hnext hgen =>
          apply htouch
          by_contra hout
          rw [addOne_of_not_mem hout] at hnext
          cases hnext
          exact htrace ⟨hout, put, hput, hgen⟩
      | advanced hlock hnew hnext =>
          intro other
          rw [BlindDirectory.rootLog_advance]
          by_cases hother : other = put.root
          · rw [if_pos hother]
            subst hother
            simp [BlindDirectory.advance, BlindDirectory.withRoots, Mutex.new, RootLog.fold]
          · rw [if_neg hother, ← h other]
            simp [BlindDirectory.advance, BlindDirectory.withRoots, BlindDirectory.touch, Mutex.new,
              hother]

theorem step (h : Counted dir) {step : Step} (htidy : Tidy P dir step) :
    Counted ((service P).step dir step).2 := by
  cases step with
  | restart =>
      change Counted (dir.restart P)
      unfold BlindDirectory.restart
      split
      · exact openOver _
      · exact new
  | request request =>
      cases request with
      | get root => exact h
      | put root body => exact h.publish (htidy _ rfl)

theorem run (hstart : dir = .new ∨ ∃ store, dir = .openOver P store) {steps : List Step}
    (htidy : (service P).Along (Tidy P) dir steps) : Counted ((service P).after dir steps) := by
  apply Machine.after_invariant (G := Counted) (fun _ _ hinv hstep => hinv.step hstep) _ htidy
  rcases hstart with rfl | ⟨store, rfl⟩
  · exact new
  · exact openOver store

end Counted

/-- A publish gives a value to its own root when it advances, and to none otherwise. -/
theorem latest_publish (dir : BlindDirectory Route σ) (root body other : String) :
    ((publish P dir root body).2.rootLog other).latest.isSome ↔
      (dir.rootLog other).latest.isSome ∨
        other = root ∧ publishDisposition P dir root body = some .advanced := by
  by_cases hadvanced : publishDisposition P dir root body = some .advanced
  · obtain ⟨put, hput, -, -, hpublish⟩ :=
      (publishDisposition_advanced_iff.mp hadvanced).publish_eq
    obtain rfl : root = put.root := hput.root_eq.symm
    rw [hpublish, BlindDirectory.rootLog_advance]
    by_cases hother : other = put.root
    · simp [hother, hadvanced, RootLog.fold]
    · simp [hother]
  · rw [(publish_frame hadvanced).2.2]
    simp [hadvanced]

theorem published_nil : Published P dir [] root ↔ rowsFor P dir.log root ≠ [] :=
  or_iff_left not_admittedIn_nil

theorem published_concat {steps : List Step} {step : Step} :
    Published P dir (steps ++ [step]) root ↔ Published P dir steps root ∨
      ∃ body, step = .request (.put root body) ∧
        publishDisposition P ((service P).after dir steps) root body = some .advanced :=
  (or_congr Iff.rfl admittedIn_concat).trans or_assoc.symm

/-- While the store serves it, a directory holds a value for exactly the roots
that were published. -/
theorem latest_iff_published
    (hstart : dir = .new ∨ ∃ store, (readLog store).1.isOk ∧ dir = .openOver P store)
    {steps : List Step} (hkeep : (service P).Along KeepsStore dir steps)
    (hrun : Undisturbed P dir steps) (root : String) :
    (((service P).after dir steps).rootLog root).latest.isSome ↔ Published P dir steps root := by
  induction steps using List.reverseRecOn with
  | nil =>
      rw [published_nil]
      rcases hstart with rfl | ⟨store, hread, rfl⟩
      · refine iff_of_false ?_ fun hrows => hrows rfl
        simp [BlindDirectory.rootLog, Roots.entry, BlindDirectory.new, Mutex.new]
      · have hcounted := Counted.openOver (P := P) store root
        rw [BlindDirectory.roots_openOver hread, mem_fileAll] at hcounted
        rw [Machine.after_nil, ← hcounted, BlindDirectory.log_openOver]
        simp [Finmap.notMem_empty]
  | append_singleton steps step ih =>
      have hbefore := ih (hkeep.of_initial (List.prefix_append _ _))
        (hrun.of_initial (List.prefix_append _ _))
      have hlast := (((service P).along_append _ _ _ _).mp hrun).2.1
      have hstore := (((service P).along_append _ _ _ _).mp hkeep).2.1
      rw [Machine.after_append, published_concat, ← hbefore]
      cases step with
      | restart =>
          have hdurable : dir.store.isSome := by
            rw [← isSome_store_after (P := P) dir steps]
            exact hstore rfl
          rcases hstart with rfl | ⟨store, hread, rfl⟩
          · cases hdurable
          · have hfaithful :=
              BlindDirectory.faithful_after hread (hrun.of_initial (List.prefix_append _ _))
            simp [hfaithful.rootLog_restart hlast.1]
      | request request =>
          cases request with
          | get other => simp
          | put other body =>
              have hpublish := latest_publish (P := P) ((service P).after dir steps) other body root
              refine hpublish.trans (or_congr Iff.rfl ?_)
              constructor
              · rintro ⟨rfl, hadvanced⟩
                exact ⟨body, rfl, hadvanced⟩
              · rintro ⟨body', hsame, hadvanced⟩
                cases hsame
                exact ⟨rfl, hadvanced⟩

/-- What is not admitted: every answered request that is no advance leaves the
directory as it was, except an accepted publish of a generation other than 1 for
a root without an entry; and as long as a run has none of these, `len` counts
the roots that hold a value, which, while the store serves it, are the roots
ever published. -/
theorem no_trace (hstart : dir = .new ∨ ∃ store, dir = .openOver P store) (steps : List Step) :
    (∀ request, NotAdmitted P ((service P).after dir steps) request →
      (Unchanged ((service P).after dir steps)
          (((service P).after dir steps).handle P request).2 ↔
        ¬ LeavesTrace P ((service P).after dir steps) request)) ∧
    ((service P).Along (Tidy P) dir steps → ∀ count, ((service P).after dir steps).len = .ok count →
      ∃ published : Finset String, published.card = count ∧
        (∀ root, root ∈ published ↔
          ∃ stored, ((service P).after dir steps).get root = .ok (some stored)) ∧
        ((dir = .new ∨ ∃ store, (readLog store).1.isOk ∧ dir = .openOver P store) →
          (service P).Along KeepsStore dir steps → Undisturbed P dir steps →
            ∀ root, root ∈ published ↔ Published P dir steps root)) := by
  refine ⟨fun request h => unchanged_iff h, fun htidy count hlen => ?_⟩
  have hcounted := Counted.run hstart htidy
  have hlock : ((service P).after dir steps).roots.poisoned = false := by
    cases hpoisoned : ((service P).after dir steps).roots.poisoned with
    | false => rfl
    | true => simp [BlindDirectory.len, Mutex.lock, hpoisoned, bind, Except.bind] at hlen
  refine ⟨((service P).after dir steps).roots.value.keys, ?_, fun root => ?_,
    fun hserved hkeep hrun root => ?_⟩
  · rw [BlindDirectory.len_eq hlock] at hlen
    exact Except.ok.inj hlen
  · rw [Finmap.mem_keys, hcounted root, BlindDirectory.get_eq hlock, Option.isSome_iff_exists]
    simp
  · rw [Finmap.mem_keys, hcounted root]
    exact latest_iff_published hserved hkeep hrun root

theorem no_trace_at_start :
    Unchanged (.new : BlindDirectory Unit ScriptedStore)
      ((BlindDirectory.new : BlindDirectory Unit ScriptedStore).handle Sample.platform
        (.put Sample.root "forged")).2 := by
  have hrefused : NotAdmitted Sample.platform (.new : BlindDirectory Unit ScriptedStore)
      (.put Sample.root "forged") :=
    ⟨⟨text .unauthorized "invalid root signature", by decide +kernel⟩, by decide +kernel⟩
  refine ((no_trace (.inl rfl) []).1 _ hrefused).mpr ?_
  rintro ⟨-, put, hput, -⟩
  cases hput.decoded
  exact absurd hput.verified (by decide)

/-- A refused publish of generation 2 is counted as a published root. -/
theorem conflict_is_counted :
    NotAdmitted Sample.platform (.new : BlindDirectory Unit ScriptedStore)
        (.put Sample.root "second") ∧
      (publish Sample.platform (.new : BlindDirectory Unit ScriptedStore) Sample.root "second").1 =
        .ok Disposition.conflict.response ∧
      (BlindDirectory.new : BlindDirectory Unit ScriptedStore).len = .ok 0 ∧
      (publish Sample.platform (.new : BlindDirectory Unit ScriptedStore)
        Sample.root "second").2.len = .ok 1 ∧
      ¬ Unchanged (.new : BlindDirectory Unit ScriptedStore)
        ((BlindDirectory.new : BlindDirectory Unit ScriptedStore).handle Sample.platform
          (.put Sample.root "second")).2 := by
  have hafter : (publish Sample.platform (.new : BlindDirectory Unit ScriptedStore)
      Sample.root "second").2.len = .ok 1 := by decide +kernel
  have hrefused : (publish Sample.platform (.new : BlindDirectory Unit ScriptedStore)
      Sample.root "second").1 = .ok Disposition.conflict.response := by decide +kernel
  refine ⟨⟨⟨_, hrefused⟩, by decide +kernel⟩, hrefused, by decide +kernel, hafter, fun hsame => ?_⟩
  have hlen := hafter.symm.trans hsame.len
  exact absurd hlen (by decide +kernel)

end AccountDirectory
