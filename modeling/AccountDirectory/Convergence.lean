import AccountDirectory.Ledger

/-! The order of delivery does not matter in the end. A set of publishes for
one root may reach the service in any order, any number of times and across
restarts; once nothing in the set would advance the root any more, the root
stands where the set alone says. -/
namespace AccountDirectory
open Library

variable {Route Signature σ : Type} [Store σ] (P : Platform Route Signature)

def deliver (root body : String) : Step := .request (.put root body)

/-- A delivery schedule over `bodies`. -/
def Schedule (root : String) (bodies : List String) (steps : List Step) : Prop :=
  ∀ step ∈ steps, step = .restart ∨ ∃ body ∈ bodies, step = deliver root body

/-- A finite set of publishes for `root`, each of which passes every check. -/
structure Deliverable (root : String) (bodies : List String) : Prop where
  few : bodies.length < 2 ^ 64 - 1
  acceptable : ∀ body ∈ bodies, ∃ put, Acceptable P root body put
  distinct : (bodies.map (rowGeneration P)).Nodup
  free : CollisionFree P bodies

/-- Delivering any of `bodies` once more would not be answered `Advanced`. -/
def Exhausted (dir : BlindDirectory Route σ) (root : String) (bodies : List String) : Prop :=
  ∀ body ∈ bodies, publishDisposition P dir root body ≠ some .advanced

def Advances (root : String) (dir : BlindDirectory Route σ) (step : Step) : Prop :=
  ∃ body, step = deliver root body ∧ publishDisposition P dir root body = some .advanced

/-- A service brought by any undisturbed run, over a store with any log, to a
state that answers and holds nothing of `root`. -/
structure Unpublished (store : σ) (early : List Step) (root : String) : Prop where
  readable : (readLog store).1.isOk
  undisturbed : Undisturbed P (.openOver P store) early
  unpoisoned : (dirAt P store early).roots.poisoned = false
  rows : rowsFor P (dirAt P store early).log root = []

/-- The root stands at the bodies of generations 1 to `m`, in that order. -/
structure StandsAt (root : String) (bodies : List String) (m : Nat)
    (dir : BlindDirectory Route σ) : Prop where
  rows : rowsFor P dir.log root =
    (List.range' 1 m).filterMap (ofVersion (rowGeneration P) bodies)
  generations : (rowsFor P dir.log root).map (rowGeneration P) = List.range' 1 m
  latest : dir.get root = .ok ((rowsFor P dir.log root).getLast?.bind (storedRow P))
  digests : (dir.rootLog root).digests = ((rowsFor P dir.log root).map (digest P)).toFinset

/-- The bodies of a generation the root has not reached. -/
def pending (dir : BlindDirectory Route σ) (root : String) (bodies : List String) : List String :=
  bodies.filter fun body => (dir.rootLog root).generation.toNat < rowGeneration P body

/-- What every partial schedule leaves: some of the bodies, of generations 1 to
n, in that order. -/
structure Gathered (root : String) (bodies : List String) (dir : BlindDirectory Route σ) :
    Prop extends dir.Faithful P where
  unpoisoned : dir.roots.poisoned = false
  drawn : ∀ row ∈ rowsFor P dir.log root, row ∈ bodies
  gapless : Gapless (rowGeneration P) (rowsFor P dir.log root)

variable {P} {root body : String} {bodies : List String} {dir : BlindDirectory Route σ}

theorem exhausted_iff :
    Exhausted P dir root bodies ↔ ∀ body ∈ bodies, ¬ NextPublish P dir root body := by
  simp only [Exhausted, ne_eq, publishDisposition_advanced_iff]

namespace Gathered

theorem generation (h : Gathered P root bodies dir) :
    (dir.rootLog root).generation.toNat = (rowsFor P dir.log root).length :=
  h.tracks.generation h.gapless

/-- The fence is short of overflow: there are no more rows than bodies. -/
theorem addOne_generation (h : Gathered P root bodies dir) (hset : Deliverable P root bodies) :
    addOne P.overflowChecks (dir.rootLog root).generation =
      .ok ((dir.rootLog root).generation + 1) := by
  apply addOne_of_lt
  rw [h.generation]
  have hfew := hset.few
  have hrows := h.gapless.length_le h.drawn
  have hsize : UInt64.size = 2 ^ 64 := rfl
  omega

theorem restart (h : Gathered P root bodies dir) (hread : dir.ReadSucceeds .restart) :
    Gathered P root bodies (dir.restart P) where
  toFaithful := h.toFaithful.restart hread
  unpoisoned := BlindDirectory.poisoned_restart dir
  drawn := by rw [BlindDirectory.log_restart]; exact h.drawn
  gapless := by rw [BlindDirectory.log_restart]; exact h.gapless

/-- A delivery is absorbed, refused without a trace, or the next row. -/
theorem publish (h : Gathered P root bodies dir) (hset : Deliverable P root bodies)
    (hbody : body ∈ bodies) (hs : dir.StoreSucceeds P (deliver root body)) :
    Gathered P root bodies (AccountDirectory.publish P dir root body).2 := by
  obtain ⟨put, hput⟩ := hset.acceptable body hbody
  obtain rfl : root = put.root := hput.root_eq.symm
  have hfaithful : (AccountDirectory.publish P dir put.root body).2.Faithful P :=
    h.toFaithful.step hs
  have happend := (appendSucceeds_iff hput).mp hs.2
  rw [publish_of_acceptable hput] at hfaithful ⊢
  have hadmission := admission (P := P) dir put body
  generalize dir.admitPut P put body = result at hadmission hfaithful happend
  cases hadmission with
  | poisoned hlock => rw [h.unpoisoned] at hlock; cases hlock
  | recognised hlock hseen => exact ⟨hfaithful, rfl, h.drawn, h.gapless⟩
  | refused hlock hnew hnext hgen => exact ⟨hfaithful, rfl, h.drawn, h.gapless⟩
  | overflowed hlock hnew hnext =>
      rw [h.addOne_generation hset] at hnext
      cases hnext
  | advanced hlock hnew hnext =>
      have hrows : rowsFor P (dir.advance P put body).log put.root =
          rowsFor P dir.log put.root ++ [body] := by
        rw [BlindDirectory.log_advance P (happend rfl), if_pos h.durable]
        exact history_concat_self hput.rowRoot
      refine ⟨hfaithful, rfl, ?_, ?_⟩
      · intro row hrow
        rw [hrows] at hrow
        rcases List.mem_append.mp hrow with hold | hadded
        · exact h.drawn row hold
        · rwa [List.mem_singleton.mp hadded]
      · rw [hrows, Gapless.concat_iff, hput.rowGeneration, toNat_of_addOne hnext hput.positive,
          h.generation]
        exact ⟨h.gapless, rfl⟩

theorem run (h : Gathered P root bodies dir) (hset : Deliverable P root bodies)
    {steps : List Step} (hschedule : Schedule root bodies steps) (hs : Undisturbed P dir steps) :
    Gathered P root bodies ((service P).after dir steps) := by
  apply Machine.after_invariant (M := service P) (G := Gathered P root bodies) _ h
    (hs.and (Machine.along_of_mem dir hschedule))
  intro dir step hinv hstep
  obtain ⟨hsucceeds, hstep⟩ := hstep
  rcases hstep with rfl | ⟨body, hbody, rfl⟩
  · exact hinv.restart hsucceeds.1
  · exact hinv.publish hset hbody hsucceeds

/-- A body one generation on would be the next publish. -/
theorem nextPublish (h : Gathered P root bodies dir) (hset : Deliverable P root bodies)
    (hbody : body ∈ bodies)
    (hgen : rowGeneration P body = (rowsFor P dir.log root).length + 1) :
    NextPublish P dir root body := by
  obtain ⟨put, hput⟩ := hset.acceptable body hbody
  refine ⟨h.unpoisoned, put, hput, ?_, ?_⟩
  · rw [h.tracks.mem_digests]
    rintro ⟨row, hrow, hdigest⟩
    have heq := hset.free.digest_inj (h.drawn row hrow) hbody hdigest
    have hbounds := h.gapless.version_bounds hrow
    rw [heq] at hbounds
    omega
  · have hnext := h.addOne_generation hset
    rw [hnext, Except.ok.injEq]
    apply UInt64.toNat_inj.mp
    have hgeneration := h.generation
    have hbound := put.entry.generation.toNat_lt
    have hsize : UInt64.size = 2 ^ 64 := rfl
    rw [hput.rowGeneration] at hgen
    rw [toNat_add_one (by omega), hgeneration, hgen]

/-- Every exhausted schedule stops at the same place. -/
theorem standsAt (h : Gathered P root bodies dir) (hset : Deliverable P root bodies)
    (hend : Exhausted P dir root bodies) :
    StandsAt P root bodies (reach (rowGeneration P) bodies) dir := by
  have hlength : (rowsFor P dir.log root).length = reach (rowGeneration P) bodies := by
    apply h.gapless.length_eq_reach h.drawn
    intro hmore
    obtain ⟨body, hbody, hgen⟩ := List.mem_map.mp hmore
    exact exhausted_iff.mp hend body hbody (h.nextPublish hset hbody hgen)
  refine ⟨?_, ?_, ?_, ?_⟩
  · rw [← hlength]
    exact h.gapless.eq_ofVersion h.drawn hset.distinct
  · rw [← hlength]
    exact h.gapless
  · rw [BlindDirectory.get_eq h.unpoisoned, h.tracks.latest]
  · rw [h.tracks, digests_rowsFor]

end Gathered

theorem Unpublished.gathered {store : σ} {early : List Step}
    (h : Unpublished P store early root) (bodies : List String) :
    Gathered P root bodies (dirAt P store early) where
  toFaithful := BlindDirectory.faithful_after h.readable h.undisturbed
  unpoisoned := h.unpoisoned
  drawn := by simp [h.rows]
  gapless := by rw [h.rows]; exact Gapless.nil

theorem StandsAt.same {dir' : BlindDirectory Route σ} {m : Nat} (h : StandsAt P root bodies m dir)
    (h' : StandsAt P root bodies m dir') :
    dir.get root = dir'.get root ∧ (dir.rootLog root).digests = (dir'.rootLog root).digests ∧
      rowsFor P dir.log root = rowsFor P dir'.log root := by
  have hrows := h.rows.trans h'.rows.symm
  rw [h.latest, h'.latest, h.digests, h'.digests, hrows]
  exact ⟨rfl, rfl, rfl⟩

/-- An advance uses up one pending body, whatever became of its append. -/
theorem pending_publish_lt (hbody : body ∈ bodies) (hnext : NextPublish P dir root body) :
    (pending P (publish P dir root body).2 root bodies).length <
      (pending P dir root bodies).length := by
  obtain ⟨hlock, put, hput, hnew, hgen⟩ := hnext
  obtain rfl : root = put.root := hput.root_eq.symm
  have hadvance : (publish P dir put.root body).2 = dir.advance P put body := by
    rw [publish_of_acceptable hput, (Admission.advanced hlock hnew hgen).eq]
  have hsucc := toNat_of_addOne hgen hput.positive
  have hgeneration : ((dir.advance P put body).rootLog put.root).generation =
      put.entry.generation := by
    rw [BlindDirectory.rootLog_advance, if_pos rfl]
    rfl
  have hfewer : pending P (publish P dir put.root body).2 put.root bodies =
      (pending P dir put.root bodies).filter fun other =>
        put.entry.generation.toNat < rowGeneration P other := by
    unfold pending
    rw [hadvance, hgeneration, List.filter_filter]
    apply List.filter_congr
    intro other _
    rw [Bool.eq_iff_iff]
    simp only [Bool.and_eq_true, decide_eq_true_eq]
    omega
  rw [hfewer, List.length_filter_lt_length_iff_exists]
  refine ⟨body, ?_, by simp [hput.rowGeneration]⟩
  simp only [pending, List.mem_filter, decide_eq_true_eq, hput.rowGeneration]
  exact ⟨hbody, by omega⟩

/-- Advances lead to exhaustion from any state, one for each pending body at most. -/
theorem exists_exhausting (dir : BlindDirectory Route σ) (root : String) (bodies : List String) :
    ∃ further : List String, further.length ≤ (pending P dir root bodies).length ∧
      (∀ body ∈ further, body ∈ bodies) ∧
      (service P).Along (Advances P root) dir (further.map (deliver root)) ∧
      Exhausted P ((service P).after dir (further.map (deliver root))) root bodies := by
  induction hpending : (pending P dir root bodies).length using Nat.strong_induction_on
    generalizing dir with
  | _ n ih =>
      by_cases hend : Exhausted P dir root bodies
      · exact ⟨[], Nat.zero_le _, by simp, trivial, hend⟩
      · rw [exhausted_iff] at hend
        push Not at hend
        obtain ⟨body, hbody, hnext⟩ := hend
        have hlt := pending_publish_lt hbody hnext
        rw [hpending] at hlt
        obtain ⟨further, hlength, hsub, halong, hend⟩ := ih _ hlt _ rfl
        refine ⟨body :: further, ?_, ?_, ⟨?_, halong⟩, hend⟩
        · rw [List.length_cons]
          omega
        · intro other hother
          rcases List.mem_cons.mp hother with rfl | hlater
          · exact hbody
          · exact hsub other hlater
        · exact ⟨body, rfl, publishDisposition_advanced_iff.mpr hnext⟩

/-- Confluence of deliveries. All exhausted schedules over one set leave the
root with its bodies of generations 1 to m, where m is as far as the set goes
without a gap; and every schedule can be completed by advances alone. -/
theorem deliveries_converge {store : σ} {early : List Step} (h : Unpublished P store early root)
    (hset : Deliverable P root bodies) :
    let dir := dirAt P store early
    ∃ m, IsGreatest {m | Covers (rowGeneration P) bodies m} m ∧
      (∀ steps, Schedule root bodies steps → Undisturbed P dir steps →
        Exhausted P ((service P).after dir steps) root bodies →
          StandsAt P root bodies m ((service P).after dir steps)) ∧
      (∀ steps steps', Schedule root bodies steps → Schedule root bodies steps' →
        Undisturbed P dir steps → Undisturbed P dir steps' →
        Exhausted P ((service P).after dir steps) root bodies →
        Exhausted P ((service P).after dir steps') root bodies →
          ((service P).after dir steps).get root = ((service P).after dir steps').get root ∧
          (((service P).after dir steps).rootLog root).digests =
            (((service P).after dir steps').rootLog root).digests ∧
          rowsFor P ((service P).after dir steps).log root =
            rowsFor P ((service P).after dir steps').log root) ∧
      ∀ steps, Schedule root bodies steps → ∃ further : List String,
        further.length ≤ bodies.length ∧ (∀ body ∈ further, body ∈ bodies) ∧
        (service P).Along (Advances P root) ((service P).after dir steps)
          (further.map (deliver root)) ∧
        Exhausted P ((service P).after dir (steps ++ further.map (deliver root))) root bodies := by
  intro dir
  have hstart := h.gathered bodies
  have hstands : ∀ steps, Schedule root bodies steps → Undisturbed P dir steps →
      Exhausted P ((service P).after dir steps) root bodies →
        StandsAt P root bodies (reach (rowGeneration P) bodies) ((service P).after dir steps) :=
    fun steps hschedule hs hend => (hstart.run hset hschedule hs).standsAt hset hend
  refine ⟨reach (rowGeneration P) bodies, isGreatest_reach, hstands, ?_, ?_⟩
  · intro steps steps' hschedule hschedule' hs hs' hend hend'
    exact (hstands steps hschedule hs hend).same (hstands steps' hschedule' hs' hend')
  · intro steps _
    obtain ⟨further, hlength, hsub, halong, hend⟩ :=
      exists_exhausting (P := P) ((service P).after dir steps) root bodies
    have hpending : (pending P ((service P).after dir steps) root bodies).length ≤ bodies.length :=
      List.length_filter_le ..
    refine ⟨further, by omega, hsub, halong, ?_⟩
    rw [Machine.after_append]
    exact hend

/-- The second publish comes first, and again after a restart. -/
theorem deliveries_converge_in_reverse :
    let steps := [deliver Sample.root "second", deliver Sample.root "first", .restart,
      deliver Sample.root "second"]
    ∃ m, IsGreatest {m | Covers (rowGeneration Sample.platform) ["second", "first"] m} m ∧
      StandsAt Sample.platform Sample.root ["second", "first"] m
        (dirAt Sample.platform (Sample.store ["junk"] [] []) steps) := by
  intro steps
  have hacceptable : ∀ body ∈ ["second", "first"],
      ∃ put, Acceptable Sample.platform Sample.root body put := by
    intro body hbody
    simp only [List.mem_cons, List.not_mem_nil, or_false] at hbody
    rcases hbody with rfl | rfl
    · exact ⟨_, by decide +kernel, by decide +kernel, rfl, by decide, rfl, rfl⟩
    · exact ⟨_, by decide +kernel, by decide +kernel, rfl, by decide, rfl, rfl⟩
  have hset : Deliverable Sample.platform Sample.root ["second", "first"] :=
    ⟨by decide, hacceptable, by decide +kernel, by decide +kernel⟩
  have hfresh : Unpublished Sample.platform (Sample.store ["junk"] [] []) [] Sample.root :=
    ⟨by decide +kernel, trivial, rfl, by decide +kernel⟩
  obtain ⟨m, hm, hstands, -⟩ := deliveries_converge hfresh hset
  have hschedule : Schedule Sample.root ["second", "first"] steps := by
    intro step hstep
    simp only [steps, List.mem_cons, List.not_mem_nil, or_false] at hstep
    rcases hstep with rfl | rfl | rfl | rfl
    · exact .inr ⟨"second", by simp, rfl⟩
    · exact .inr ⟨"first", by simp, rfl⟩
    · exact .inl rfl
    · exact .inr ⟨"second", by simp, rfl⟩
  exact ⟨m, hm, hstands steps hschedule (by decide +kernel) (by unfold Exhausted; decide +kernel)⟩

end AccountDirectory
