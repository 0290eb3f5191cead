import AccountDirectory.Ledger

/-! No rollback, across replays and restarts. A run is read at its prefixes:
what a `GET` serves after a longer prefix is at least as new as what it served
after a shorter one, and a retraction stands until something newer is
published. -/
namespace AccountDirectory
open Library

variable {Route Signature σ : Type} [Store σ] {P : Platform Route Signature}
  {store : σ} {steps early mid late : List Step} {root body : String}

theorem CleanRun.rows_mono (hearly : early <+: late) :
    rowsFor P (logAt P early) root <+: rowsFor P (logAt P late) root :=
  history_mono (logAt_mono hearly)

/-- What is served once stays served, at its generation or a higher one. -/
theorem CleanRun.generation_mono (h : CleanRun P store late) (hearly : early <+: late)
    {stored : Stored Route} (hget : (dirAt P store early).get root = .ok (some stored)) :
    ∃ stored', (dirAt P store late).get root = .ok (some stored') ∧
      stored.entry.generation ≤ stored'.entry.generation := by
  rw [(h.initial hearly).follows.get, Except.ok.injEq] at hget
  rw [h.follows.get]
  simpa using h.follows.sound.latest_mono (logAt_mono hearly) hget

theorem CleanRun.superseded (h : CleanRun P store late) (hearly : early <+: mid)
    (hmid : mid <+: late) {body body' : String} (hfirst : Serves P (dirAt P store early) root body)
    (hsecond : Serves P (dirAt P store mid) root body') (hne : body' ≠ body) :
    ¬ Serves P (dirAt P store late) root body := by
  have hrunMid := h.initial hmid
  have hlast := ((hrunMid.initial hearly).follows.serves_iff).mp hfirst
  have hlast' := (hrunMid.follows.serves_iff).mp hsecond
  rw [h.follows.serves_iff]
  exact (h.follows.sound.gapless root).getLast_ne_of_superseded
    (CleanRun.rows_mono hearly) (CleanRun.rows_mono hmid) hlast hlast' hne.symm

/-- The log right after an admitted publish ends, for its root, in that publish. -/
theorem CleanRun.logAt_of_advanced (h : CleanRun P store (early ++ [.request (.put root body)]))
    (hadv : publishDisposition P (dirAt P store early) root body = some .advanced) :
    ∃ put, Acceptable P root body put ∧
      logAt P (early ++ [.request (.put root body)]) = logAt P early ++ [body] ∧
      (register P).verdict (rowsFor P (logAt P early) root) body = .advanced := by
  have hearly := h.initial (List.prefix_append early _)
  have hpub := publication (P := P) (dirAt P store early) root body
  rw [hadv] at hpub
  generalize publish P (dirAt P store early) root body = result at hpub
  generalize hd : some Disposition.advanced = disposition at hpub
  cases hpub with
  | panicked hcheck => cases hd
  | refused hcheck => cases hd
  | @admitted put hput result dir' hadmission =>
      rw [hearly.follows.disposition hput hearly.bound, Option.some.injEq] at hadv
      have hverdict : (register P).verdict (rowsFor P (logAt P early) root) body = .advanced := by
        revert hadv
        cases (register P).verdict (rowsFor P (logAt P early) root) body <;>
          simp [Disposition.ofVerdict]
      refine ⟨put, hput, ?_, hverdict⟩
      rw [logAt_append]
      simp [ledger, publishLog, validate_eq_ok_iff.mpr hput, Register.offer_advanced hverdict]

/-- A retracted root reads `410` until a publish of a higher generation is
admitted for it. -/
theorem CleanRun.retraction_stands (h : CleanRun P store late)
    (hlate : early ++ [.request (.put root body)] <+: late)
    {put : SignedDirectoryPut Route Signature} (hdecode : P.decodePut body = some put)
    (hretracts : P.isRetraction put.entry = true)
    (hadv : publishDisposition P (dirAt P store early) root body = some .advanced) :
    fetch P (dirAt P store late) root = .ok (signedJson .gone body) ∨
      ∃ before body' put', early ++ [.request (.put root body)] <+: before ∧
        before ++ [.request (.put root body')] <+: late ∧ P.decodePut body' = some put' ∧
        put.entry.generation < put'.entry.generation ∧
        publishDisposition P (dirAt P store before) root body' = some .advanced := by
  have hmid := h.initial hlate
  obtain ⟨put₀, hput, hlog, hverdict⟩ := hmid.logAt_of_advanced hadv
  obtain rfl : put₀ = put := Option.some.inj (hput.decoded.symm.trans hdecode)
  have hrows : rowsFor P (logAt P (early ++ [.request (.put root body)])) root =
      rowsFor P (logAt P early) root ++ [body] := by
    rw [hlog]
    exact history_concat_self hput.rowRoot
  obtain ⟨rest, rfl⟩ := hlate
  by_cases hsame : rowsFor P (logAt P (early ++ [.request (.put root body)] ++ rest)) root =
      rowsFor P (logAt P (early ++ [.request (.put root body)])) root
  · left
    rw [h.follows.fetch, fetchLog_of_last hput (by rw [hsame, hrows, List.getLast?_concat]),
      if_pos hretracts]
  · right
    rw [logAt_append] at hsame
    obtain ⟨pre, step, post, rfl, hpre, hchange⟩ :=
      Machine.exists_cut_of_ne (f := fun log => rowsFor P log root) hsame
    obtain ⟨body', put', rfl, hput', hverdict', hlog'⟩ := ledger_step_changes hchange
    rw [← logAt_append] at hpre hverdict'
    have hcut : early ++ [.request (.put root body)] ++ pre ++ [.request (.put root body')] <+:
        early ++ [.request (.put root body)] ++ (pre ++ .request (.put root body') :: post) :=
      ⟨post, by simp⟩
    have hbefore := h.initial ((List.prefix_append _ _).trans hcut)
    refine ⟨_, body', put', List.prefix_append _ pre, hcut, hput'.decoded, ?_, ?_⟩
    · have hnext := (Register.verdict_advanced_iff.mp hverdict').2
      have hcurrent := (Register.verdict_advanced_iff.mp hverdict).2
      change rowGeneration P body' = _ at hnext
      change rowGeneration P body = _ at hcurrent
      rw [hput'.rowGeneration, hpre, hrows, List.length_append, List.length_singleton] at hnext
      rw [hput.rowGeneration] at hcurrent
      rw [UInt64.lt_iff_toNat_lt]
      omega
    · rw [hbefore.follows.disposition hput' hbefore.bound, hverdict']
      rfl

/-- Over a clean run: the generation served for a root never decreases, a body
that was replaced is never served again, and a retraction stands until a higher
generation is admitted. -/
theorem no_rollback {store : σ} {steps : List Step} (h : CleanRun P store steps) (root : String) :
    (∀ early late, early <+: late → late <+: steps → ∀ stored,
      (dirAt P store early).get root = .ok (some stored) →
        ∃ stored', (dirAt P store late).get root = .ok (some stored') ∧
          stored.entry.generation ≤ stored'.entry.generation) ∧
    (∀ early mid late, early <+: mid → mid <+: late → late <+: steps → ∀ body body',
      Serves P (dirAt P store early) root body → Serves P (dirAt P store mid) root body' →
        body' ≠ body → ¬ Serves P (dirAt P store late) root body) ∧
    (∀ early late body put, early ++ [.request (.put root body)] <+: late → late <+: steps →
      P.decodePut body = some put → P.isRetraction put.entry = true →
      publishDisposition P (dirAt P store early) root body = some .advanced →
        fetch P (dirAt P store late) root = .ok (signedJson .gone body) ∨
          ∃ before body' put', early ++ [.request (.put root body)] <+: before ∧
            before ++ [.request (.put root body')] <+: late ∧ P.decodePut body' = some put' ∧
            put.entry.generation < put'.entry.generation ∧
            publishDisposition P (dirAt P store before) root body' = some .advanced) := by
  refine ⟨?_, ?_, ?_⟩
  · intro early late hearly hlate stored hget
    exact (h.initial hlate).generation_mono hearly hget
  · intro early mid late hearly hmid hlate body body' hfirst hsecond hne
    exact (h.initial hlate).superseded hearly hmid hfirst hsecond hne
  · intro early late body put hmid hlate hdecode hretracts hadv
    exact (h.initial hlate).retraction_stands hmid hdecode hretracts hadv

theorem no_rollback_to_first :
    ¬ Serves Sample.platform (dirAt Sample.platform ScriptedStore.empty
      [Sample.put "first", Sample.put "retraction", .restart, Sample.put "first"])
      Sample.root "first" := by
  have hrun : CleanRun Sample.platform ScriptedStore.empty
      [Sample.put "first", Sample.put "retraction", .restart, Sample.put "first"] :=
    ⟨rfl, by decide, by decide +kernel⟩
  have hfirst : Serves Sample.platform
      (dirAt Sample.platform ScriptedStore.empty [Sample.put "first"]) Sample.root "first" :=
    .inl (by decide +kernel)
  have hretracted : Serves Sample.platform
      (dirAt Sample.platform ScriptedStore.empty [Sample.put "first", Sample.put "retraction"])
      Sample.root "retraction" :=
    .inr (by decide +kernel)
  exact (no_rollback hrun Sample.root).2.1 _ _ _ ⟨[Sample.put "retraction"], rfl⟩
    ⟨[.restart, Sample.put "first"], rfl⟩ (List.prefix_refl _) _ _ hfirst hretracted (by decide)

end AccountDirectory
