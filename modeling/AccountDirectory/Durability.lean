import AccountDirectory.Restart
import AccountDirectory.Ledger

/-! When an acknowledged publish is durable. `admit` drops the result of its
append, so a publish the store refused is answered `204` all the same. The runs
on which every `204` is a row of the log, there to be recognised after any
reopening, are those in which the store takes every append it is asked for. -/
namespace AccountDirectory
open Library

variable {Route Signature σ : Type} [Store σ] (P : Platform Route Signature)

/-- The store takes the body of a publish that is its root's next. -/
def AppendTaken (dir : BlindDirectory Route σ) : Step → Prop
  | .request (.put root body) =>
      NextPublish P dir root body → ∀ store ∈ dir.store, (appendLog store body).1.isOk
  | _ => True

/-- Every `204` of the run is a row of the log from then on, and is recognised
by the directory reopened at any later point. -/
def AcknowledgedIsDurable (dir : BlindDirectory Route σ) (steps : List Step) : Prop :=
  ∀ early late root body, early ++ [.request (.put root body)] <+: late → late <+: steps →
    Acknowledged P ((service P).after dir early) root body →
      body ∈ ((service P).after dir late).log ∧
        (((service P).after dir late).ReadSucceeds .restart →
          body ∈ rowsFor P (((service P).after dir late).restart P).log root ∧
          publishDisposition P (((service P).after dir late).restart P) root body =
            some .idempotent)

variable {P} {dir : BlindDirectory Route σ} {root body : String}

theorem appendTaken_iff (dir : BlindDirectory Route σ) (step : Step) :
    AppendTaken P dir step ↔ dir.AppendSucceeds P step := by
  cases step with
  | restart => exact Iff.rfl
  | request request =>
      cases request with
      | get root => exact Iff.rfl
      | put root body =>
          unfold AppendTaken BlindDirectory.AppendSucceeds
          simp only [publishDisposition_advanced_iff]

/-- Every digest held under a root is that of one of the root's rows. -/
structure Backed (P : Platform Route Signature) (dir : BlindDirectory Route σ) : Prop where
  durable : dir.store.isSome
  digests : ∀ root, ∀ d ∈ (dir.rootLog root).digests,
    ∃ row ∈ rowsFor P dir.log root, digest P row = d

/-- Every row of a root is held by its digest. -/
structure Remembers (P : Platform Route Signature) (dir : BlindDirectory Route σ) : Prop where
  durable : dir.store.isSome
  rows : ∀ root, ∀ row ∈ rowsFor P dir.log root, digest P row ∈ (dir.rootLog root).digests

theorem rowsFor_of_openOver {store : σ} (hread : (readLog store).1.isOk) (root d : String) :
    d ∈ ((.openOver P store : BlindDirectory Route σ).rootLog root).digests ↔
      ∃ row ∈ rowsFor P (.openOver P store : BlindDirectory Route σ).log root, digest P row = d := by
  rw [BlindDirectory.rootLog_openOver hread, digests_rowsFor, List.mem_toFinset, List.mem_map,
    BlindDirectory.log_openOver]

theorem backed_openOver (store : σ) : Backed P (.openOver P store : BlindDirectory Route σ) := by
  refine ⟨rfl, fun root d hd => ?_⟩
  by_cases hread : (readLog store).1.isOk
  · exact (rowsFor_of_openOver hread root d).mp hd
  · rw [BlindDirectory.rootLog_openOver_error hread] at hd
    simp at hd

theorem remembers_openOver {store : σ} (hread : (readLog store).1.isOk) :
    Remembers P (.openOver P store : BlindDirectory Route σ) :=
  ⟨rfl, fun root row hrow => (rowsFor_of_openOver hread root _).mpr ⟨row, hrow, rfl⟩⟩

theorem Backed.publish (h : Backed P dir)
    (htaken : AppendTaken P dir (.request (.put root body))) :
    Backed P (AccountDirectory.publish P dir root body).2 := by
  by_cases hadvanced : publishDisposition P dir root body = some .advanced
  · have hnext := publishDisposition_advanced_iff.mp hadvanced
    have hok := htaken hnext
    obtain ⟨put, hput, -, -, hpublish⟩ := hnext.publish_eq
    obtain rfl := hput.root_eq
    rw [hpublish]
    refine ⟨by simpa using h.durable, fun other d hd => ?_⟩
    rw [BlindDirectory.log_advance P hok, if_pos h.durable]
    rw [BlindDirectory.rootLog_advance] at hd
    by_cases hother : other = put.root
    · subst hother
      rw [if_pos rfl, RootLog.fold, Finset.mem_insert] at hd
      rw [rowsFor, history_concat_self hput.rowRoot]
      rcases hd with hlast | hold
      · exact ⟨body, by simp, hlast.symm⟩
      · obtain ⟨row, hrow, hdigest⟩ := h.digests put.root d hold
        exact ⟨row, List.mem_append_left _ hrow, hdigest⟩
    · rw [if_neg hother] at hd
      obtain ⟨row, hrow, hdigest⟩ := h.digests other d hd
      exact ⟨row, (history_mono (List.prefix_append _ _)).subset hrow, hdigest⟩
  · obtain ⟨hstore, hlog, hroots⟩ := publish_frame hadvanced
    refine ⟨by rw [hstore]; exact h.durable, fun other => ?_⟩
    rw [hroots, hlog]
    exact h.digests other

theorem Remembers.publish (h : Remembers P dir) :
    Remembers P (AccountDirectory.publish P dir root body).2 := by
  by_cases hadvanced : publishDisposition P dir root body = some .advanced
  · obtain ⟨put, hput, -, -, hpublish⟩ :=
      (publishDisposition_advanced_iff.mp hadvanced).publish_eq
    obtain rfl := hput.root_eq
    rw [hpublish]
    refine ⟨by simpa using h.durable, fun other row hrow => ?_⟩
    have hkept : digest P row ∈ (dir.rootLog other).digests →
        digest P row ∈ ((dir.advance P put body).rootLog other).digests := by
      intro hold
      rw [BlindDirectory.rootLog_advance]
      split
      · rename_i hother
        subst hother
        exact Finset.mem_insert_of_mem hold
      · exact hold
    rcases BlindDirectory.log_advance_cases P dir put body with hsame | hgrown
    · rw [hsame] at hrow
      exact hkept (h.rows other row hrow)
    · rw [hgrown, rowsFor, history_concat, List.mem_append] at hrow
      rcases hrow with hold | hnew
      · exact hkept (h.rows other row hold)
      · split at hnew
        · rename_i hroot
          obtain rfl := List.mem_singleton.mp hnew
          obtain rfl : put.root = other := Option.some.inj (hput.rowRoot.symm.trans hroot)
          rw [BlindDirectory.rootLog_advance, if_pos rfl]
          exact Finset.mem_insert_self _ _
        · cases hnew
  · obtain ⟨hstore, hlog, hroots⟩ := publish_frame hadvanced
    refine ⟨by rw [hstore]; exact h.durable, fun other => ?_⟩
    rw [hroots, hlog]
    exact h.rows other

theorem Backed.step (h : Backed P dir) {step : Step} (htaken : AppendTaken P dir step) :
    Backed P ((service P).step dir step).2 := by
  cases step with
  | restart =>
      obtain ⟨store, hstore⟩ := Option.isSome_iff_exists.mp h.durable
      have hrestart : dir.restart P = .openOver P store := BlindDirectory.restart_of_store hstore
      rw [service_step_restart, hrestart]
      exact backed_openOver store
  | request request =>
      cases request with
      | get root => exact h
      | put root body => exact h.publish htaken

theorem Remembers.step (h : Remembers P dir) {step : Step} (hread : dir.ReadSucceeds step) :
    Remembers P ((service P).step dir step).2 := by
  cases step with
  | restart =>
      obtain ⟨store, hstore⟩ := Option.isSome_iff_exists.mp h.durable
      have hrestart : dir.restart P = .openOver P store := BlindDirectory.restart_of_store hstore
      rw [service_step_restart, hrestart]
      exact remembers_openOver (hread store hstore)
  | request request =>
      cases request with
      | get root => exact h
      | put root body => exact h.publish

/-- A row of the log is recognised by the directory reopened over it. -/
theorem recognised_after_restart {put : SignedDirectoryPut Route Signature}
    (hdurable : dir.store.isSome) (hread : dir.ReadSucceeds .restart)
    (hput : Acceptable P root body put) (hmem : body ∈ dir.log) :
    body ∈ rowsFor P (dir.restart P).log root ∧
      publishDisposition P (dir.restart P) root body = some .idempotent := by
  obtain ⟨store, hstore⟩ := Option.isSome_iff_exists.mp hdurable
  have hrestart : dir.restart P = .openOver P store := BlindDirectory.restart_of_store hstore
  rw [BlindDirectory.log_of_store hstore] at hmem
  have hrow : body ∈ rowsFor P (.openOver P store : BlindDirectory Route σ).log root := by
    rw [BlindDirectory.log_openOver]
    exact mem_history.mpr ⟨hmem, hput.rowRoot⟩
  rw [hrestart, publishDisposition_idempotent_iff]
  refine ⟨hrow, rfl, put, hput, ?_⟩
  exact (rowsFor_of_openOver (hread store hstore) root _).mpr ⟨body, hrow, rfl⟩

section Runs

variable {store : σ} {steps : List Step}

/-- Where the store takes every append, acknowledged is durable. -/
theorem durable_of_taken (hfree : CollisionFree P (durableLog store ++ putBodies steps))
    (htaken : (service P).Along (AppendTaken P) (.openOver P store) steps) :
    AcknowledgedIsDurable P (.openOver P store) steps := by
  intro early late root body hmid hlate hacknowledged
  have hcut := ((service P).along_append _ _ _ _).mp (htaken.of_initial (hmid.trans hlate))
  have hbacked : Backed P ((service P).after (.openOver P store) early) :=
    Machine.after_invariant (G := Backed P) (fun _ _ hinv hstep => hinv.step hstep)
      (backed_openOver store) hcut.1
  have hlate' : (service P).after (.openOver P store) (early ++ [.request (.put root body)]) =
      (publish P ((service P).after (.openOver P store) early) root body).2 := by
    rw [Machine.after_append]
    rfl
  have hextends : (publish P ((service P).after (.openOver P store) early) root body).2.log <+:
      ((service P).after (.openOver P store) late).log := by
    obtain ⟨rest, rfl⟩ := hmid
    rw [← hlate', Machine.after_append _ _ _ rest]
    exact log_after_extends _ rest
  have hfacts : ∃ put, Acceptable P root body put ∧
      body ∈ (publish P ((service P).after (.openOver P store) early) root body).2.log := by
    rcases acknowledged_iff.mp hacknowledged with hadvanced | hidempotent
    · have hnext := publishDisposition_advanced_iff.mp hadvanced
      have hok := hcut.2.1 hnext
      obtain ⟨hlock, put, hput, hnew, hgen⟩ := hnext
      obtain rfl := hput.root_eq
      refine ⟨put, hput, ?_⟩
      rw [publish_of_acceptable hput, (Admission.advanced hlock hnew hgen).eq]
      simp [BlindDirectory.log_advance P hok, hbacked.durable]
    · obtain ⟨hlock, put, hput, hseen⟩ := publishDisposition_idempotent_iff.mp hidempotent
      obtain rfl := hput.root_eq
      obtain ⟨row, hrow, hdigest⟩ := hbacked.digests put.root _ hseen
      have hmem := (mem_history.mp hrow).1
      have hknown : row ∈ durableLog store ++ putBodies steps := by
        have hsent := mem_log_after (P := P) hmem
        rw [BlindDirectory.log_openOver] at hsent
        rcases List.mem_append.mp hsent with hold | hnew
        · exact List.mem_append_left _ hold
        · refine List.mem_append_right _ ?_
          have hearly := ((List.prefix_append early [.request (.put put.root body)]).trans hmid).trans
            hlate
          exact (hearly.filterMap Step.body).subset hnew
      have hbody : body ∈ durableLog store ++ putBodies steps := by
        refine List.mem_append_right _ (List.mem_filterMap.mpr ⟨.request (.put put.root body), ?_, rfl⟩)
        exact (hmid.trans hlate).subset (by simp)
      obtain rfl := hfree.digest_inj hknown hbody hdigest
      refine ⟨put, hput, ?_⟩
      rw [publish_of_acceptable hput, (Admission.recognised hlock hseen).eq]
      exact hmem
  obtain ⟨put, hput, hmem⟩ := hfacts
  have hlog := hextends.subset hmem
  refine ⟨hlog, fun hread => ?_⟩
  refine recognised_after_restart ?_ hread hput hlog
  rw [isSome_store_after]
  rfl

/-- And only there, as long as the startup reads succeed. -/
theorem taken_of_durable (hread : (readLog store).1.isOk)
    (hreads : (service P).Along BlindDirectory.ReadSucceeds (.openOver P store) steps)
    (h : AcknowledgedIsDurable P (.openOver P store) steps) :
    (service P).Along (AppendTaken P) (.openOver P store) steps := by
  rw [Machine.along_iff_forall_cut]
  rintro pre step post rfl
  cases step with
  | restart => trivial
  | request request =>
      cases request with
      | get root => trivial
      | put root body =>
          intro hnext held hheld
          by_contra hfailed
          have hremembers : Remembers P ((service P).after (.openOver P store) pre) :=
            Machine.after_invariant (G := Remembers P) (fun _ _ hinv hstep => hinv.step hstep)
              (remembers_openOver hread) (hreads.of_initial (List.prefix_append _ _))
          have hrow := (h pre (pre ++ [.request (.put root body)]) root body (List.prefix_refl _)
            ⟨post, by simp⟩
            (acknowledged_iff.mpr (.inl (publishDisposition_advanced_iff.mpr hnext)))).1
          obtain ⟨hlock, put, hput, hnew, hgen⟩ := hnext
          obtain rfl := hput.root_eq
          rw [Machine.after_append, Machine.after_cons, Machine.after_nil, service_step_put,
            publish_of_acceptable hput, (Admission.advanced hlock hnew hgen).eq] at hrow
          have hsame : (((service P).after (.openOver P store) pre).advance P put body).log =
              ((service P).after (.openOver P store) pre).log := by
            rw [BlindDirectory.log_of_store hheld]
            have hstore : (((service P).after (.openOver P store) pre).advance P put body).store =
                some (appendLog held body).2 := by
              rw [BlindDirectory.store_advance, hheld, Option.map_some]
            rw [BlindDirectory.log_of_store hstore, durableLog_append_of_not_isOk hfailed]
          rw [hsame] at hrow
          exact hnew (hremembers.rows put.root body (mem_history.mpr ⟨hrow, hput.rowRoot⟩))

end Runs

/-- Acknowledged is durable on every run whose appends the store takes; where
the startup reads succeed, on no other. -/
theorem acknowledged_durable_iff {store : σ} {steps : List Step}
    (hfree : CollisionFree P (durableLog store ++ putBodies steps)) :
    ((service P).Along (AppendTaken P) (.openOver P store) steps →
      AcknowledgedIsDurable P (.openOver P store) steps) ∧
    ((readLog store).1.isOk →
      (service P).Along BlindDirectory.ReadSucceeds (.openOver P store) steps →
        (AcknowledgedIsDurable P (.openOver P store) steps ↔
          (service P).Along (AppendTaken P) (.openOver P store) steps)) :=
  ⟨durable_of_taken hfree,
    fun hread hreads => ⟨taken_of_durable hread hreads, durable_of_taken hfree⟩⟩

theorem acknowledged_durable_after_restart :
    AcknowledgedIsDurable Sample.platform (.openOver Sample.platform ScriptedStore.empty)
      [Sample.put "first", .restart, Sample.put "first"] := by
  have hsucceeds : (service Sample.platform).Along
      (BlindDirectory.AppendSucceeds Sample.platform)
      (.openOver Sample.platform ScriptedStore.empty)
      [Sample.put "first", .restart, Sample.put "first"] := by decide +kernel
  exact ((acknowledged_durable_iff (by decide +kernel)).2 (by decide) (by decide +kernel)).mpr
    (hsucceeds.mono fun dir step => (appendTaken_iff dir step).mpr)

/-- A publish whose append failed is answered `204` and is no row of the log. -/
theorem acknowledged_not_durable :
    ¬ AcknowledgedIsDurable Sample.platform
      (.openOver Sample.platform (Sample.store [] [] [true])) [Sample.put "first"] := by
  intro h
  have hrow := (h [] [Sample.put "first"] Sample.root "first" (List.prefix_refl _)
    (List.prefix_refl _) ⟨⟨.noContent, [], ""⟩, by decide +kernel, rfl⟩).1
  exact absurd hrow (by decide +kernel)

end AccountDirectory
