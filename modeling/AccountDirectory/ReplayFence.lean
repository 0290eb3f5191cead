import AccountDirectory.Ledger

/-! The replay fence across restarts whose startup read may fail. `open` passes
over a read error and starts from no roots, so the fence it starts with knows
nothing of the log. A run keeps the fence as long as every startup read that
fails would have found an empty log; after one that fails over any other log,
a first publish already in the log is admitted a second time. -/
namespace AccountDirectory
open Library

variable {Route Signature σ : Type} [Store σ] (P : Platform Route Signature)

/-- The largest generation among `rows`, 0 where there are none. -/
def topGeneration (rows : List String) : Nat := (rows.map (rowGeneration P)).foldr max 0

/-- Every advance of the run is one more than the largest generation the log
holds for its root, and adds a body the log does not have; and what a restart
that reads its log serves is at least as new as anything served before. -/
structure ReplayFenced (dir : BlindDirectory Route σ) (steps : List Step) : Prop where
  advances : ∀ early root body, early ++ [.request (.put root body)] <+: steps →
    publishDisposition P ((service P).after dir early) root body = some .advanced →
      (∃ put, P.decodePut body = some put ∧ put.entry.generation.toNat =
        topGeneration P (rowsFor P ((service P).after dir early).log root) + 1) ∧
      body ∉ ((service P).after dir early).log
  serves : ∀ early late root stored, early <+: late → late ++ [.restart] <+: steps →
    ((service P).after dir late).ReadSucceeds .restart →
    ((service P).after dir early).get root = .ok (some stored) →
      ∃ stored', ((service P).after dir (late ++ [.restart])).get root = .ok (some stored') ∧
        stored.entry.generation ≤ stored'.entry.generation

/-- A startup read of this step succeeds, or there is nothing to read. -/
def ReadsItsLog (dir : BlindDirectory Route σ) : Step → Prop
  | .restart => dir.ReadSucceeds .restart ∨ dir.log = []
  | _ => True

instance (dir : BlindDirectory Route σ) : DecidablePred (ReadsItsLog dir)
  | .restart => inferInstanceAs (Decidable (_ ∨ _))
  | .request _ => inferInstanceAs (Decidable True)

/-- A cache that is the fold of its own log, the log being gapless. -/
structure Fenced (dir : BlindDirectory Route σ) : Prop extends dir.Faithful P where
  sound : Sound P dir.log

variable {P} {dir : BlindDirectory Route σ} {root body : String}

namespace Fenced

theorem openOver_empty {store : σ} (h : durableLog store = []) :
    Fenced P (.openOver P store : BlindDirectory Route σ) := by
  have hlog : (.openOver P store : BlindDirectory Route σ).log = [] := by
    rw [BlindDirectory.log_openOver, h]
  refine ⟨⟨rfl, ?_⟩, ?_⟩
  · rw [hlog]
    exact (Follows.openOver_empty h).tracks
  · rw [hlog]
    exact sound_nil

/-- The next publish of a root is one more than the number of its rows. No
bound on the run is needed: the successor that wraps is 0, which is refused. -/
theorem next (h : Fenced P dir) (hnext : NextPublish P dir root body) :
    ∃ put, Acceptable P root body put ∧
      put.entry.generation.toNat = (rowsFor P dir.log root).length + 1 := by
  obtain ⟨-, put, hput, -, hgen⟩ := hnext
  refine ⟨put, hput, ?_⟩
  rw [toNat_of_addOne hgen hput.positive, h.sound.generation h.tracks]

theorem not_mem_log (h : Fenced P dir) (hnext : NextPublish P dir root body) :
    body ∉ dir.log := by
  intro hmem
  obtain ⟨put, hput, hgen⟩ := h.next hnext
  have hbounds := (h.sound.gapless root).version_bounds (mem_history.mpr ⟨hmem, hput.rowRoot⟩)
  rw [hput.rowGeneration] at hbounds
  omega

theorem restart (h : Fenced P dir) (hread : ReadsItsLog dir .restart) :
    Fenced P (dir.restart P) := by
  obtain ⟨store, hstore⟩ := Option.isSome_iff_exists.mp h.durable
  have hrestart : dir.restart P = .openOver P store := BlindDirectory.restart_of_store hstore
  have hlog : (dir.restart P).log = dir.log := by
    rw [hrestart, BlindDirectory.log_openOver, BlindDirectory.log_of_store hstore]
  rcases hread with hok | hempty
  · refine ⟨h.toFaithful.restart hok, ?_⟩
    rw [hlog]
    exact h.sound
  · rw [hrestart]
    rw [BlindDirectory.log_of_store hstore] at hempty
    exact openOver_empty hempty

theorem publish (h : Fenced P dir) (hs : dir.AppendSucceeds P (.request (.put root body))) :
    Fenced P (AccountDirectory.publish P dir root body).2 := by
  have hfaithful : ((service P).step dir (.request (.put root body))).2.Faithful P :=
    h.toFaithful.step ⟨trivial, hs⟩
  refine ⟨hfaithful, ?_⟩
  by_cases hadvanced : publishDisposition P dir root body = some .advanced
  · have hnext := publishDisposition_advanced_iff.mp hadvanced
    obtain ⟨put, hput, -, -, hpublish⟩ := hnext.publish_eq
    obtain ⟨put', hput', hlength⟩ := h.next hnext
    obtain rfl := hput.unique hput'
    rw [hpublish, BlindDirectory.log_advance P (hs hadvanced), if_pos h.durable]
    exact h.sound.concat hput hlength
  · rw [(publish_frame hadvanced).2.1]
    exact h.sound

theorem step (h : Fenced P dir) {step : Step} (hs : dir.AppendSucceeds P step)
    (hread : ReadsItsLog dir step) : Fenced P ((service P).step dir step).2 := by
  cases step with
  | restart => exact h.restart hread
  | request request =>
      cases request with
      | get root => exact h
      | put root body => exact h.publish hs

theorem run (h : Fenced P dir) {steps : List Step}
    (hs : (service P).Along (BlindDirectory.AppendSucceeds P) dir steps)
    (hread : (service P).Along ReadsItsLog dir steps) : Fenced P ((service P).after dir steps) :=
  Machine.after_invariant (G := Fenced P) (fun _ _ hinv hstep => hinv.step hstep.1 hstep.2) h
    (hs.and hread)

theorem get (h : Fenced P dir) (hlock : dir.roots.poisoned = false) (root : String) :
    dir.get root = .ok ((rowsFor P dir.log root).getLast?.bind (storedRow P)) := by
  rw [BlindDirectory.get_eq hlock, h.tracks.latest]

/-- The fence holds along every run whose failing startup reads had nothing to read. -/
theorem replayFenced (h : Fenced P dir) {steps : List Step}
    (hs : (service P).Along (BlindDirectory.AppendSucceeds P) dir steps)
    (hread : (service P).Along ReadsItsLog dir steps) : ReplayFenced P dir steps where
  advances := by
    intro early root body hcut hadvanced
    have hearly := (List.prefix_append early [.request (.put root body)]).trans hcut
    have hfenced := h.run (hs.of_initial hearly) (hread.of_initial hearly)
    have hnext := publishDisposition_advanced_iff.mp hadvanced
    obtain ⟨put, hput, hlength⟩ := hfenced.next hnext
    refine ⟨⟨put, hput.decoded, ?_⟩, hfenced.not_mem_log hnext⟩
    rw [topGeneration, (hfenced.sound.gapless root).foldr_max, hlength]
  serves := by
    intro early late root stored hearly hlate hreopen hget
    have hbefore := (List.prefix_append late [.restart]).trans hlate
    have hfirst := h.run (hs.of_initial (hearly.trans hbefore))
      (hread.of_initial (hearly.trans hbefore))
    have hfenced := h.run (hs.of_initial hlate) (hread.of_initial hlate)
    have hlock : ((service P).after dir early).roots.poisoned = false := by
      cases hpoisoned : ((service P).after dir early).roots.poisoned with
      | false => rfl
      | true => rw [BlindDirectory.get_poisoned hpoisoned] at hget; cases hget
    have hreopened : ((service P).after dir (late ++ [.restart])).roots.poisoned = false := by
      rw [Machine.after_append]
      exact BlindDirectory.poisoned_restart _
    have hlogs : ((service P).after dir early).log <+:
        ((service P).after dir (late ++ [.restart])).log := by
      obtain ⟨rest, hrest⟩ := hearly.trans (List.prefix_append late [.restart])
      rw [← hrest, Machine.after_append]
      exact log_after_extends _ rest
    rw [hfirst.get hlock, Except.ok.injEq] at hget
    rw [hfenced.get hreopened]
    simpa using hfenced.sound.latest_mono hlogs hget

/-- After a startup read that fails over a log with rows, a first publish that
is in the log is admitted again. -/
theorem replay_admitted (h : Fenced P dir) (hfailed : ¬ ReadsItsLog dir .restart) :
    ∃ root body, body ∈ dir.log ∧
      publishDisposition P (dir.restart P) root body = some .advanced := by
  obtain ⟨hnotRead, hrows⟩ := not_or.mp hfailed
  obtain ⟨row, hrow⟩ := List.exists_mem_of_ne_nil _ hrows
  obtain ⟨root, put, hput⟩ := h.sound.acceptable row hrow
  have hmem : row ∈ rowsFor P dir.log root := mem_history.mpr ⟨hrow, hput.rowRoot⟩
  have hlength := List.length_pos_of_mem hmem
  obtain ⟨first, hfirst, hversion⟩ := ((h.sound.gapless root).version_mem 1).mpr ⟨by omega, hlength⟩
  obtain ⟨put', hput'⟩ := h.sound.acceptable_of_mem hfirst
  refine ⟨root, first, (mem_history.mp hfirst).1, publishDisposition_advanced_iff.mpr ?_⟩
  obtain ⟨store, hstore⟩ := Option.isSome_iff_exists.mp h.durable
  have hrestart : dir.restart P = .openOver P store := BlindDirectory.restart_of_store hstore
  have hunread : ¬ (readLog store).1.isOk := by
    intro hok
    refine hnotRead fun store' hstore' => ?_
    rw [hstore] at hstore'
    cases hstore'
    exact hok
  have hone : put'.entry.generation = 1 := by
    apply UInt64.toNat_inj.mp
    rw [← hput'.rowGeneration, hversion]
    rfl
  rw [hrestart]
  refine ⟨rfl, put', hput', ?_⟩
  rw [BlindDirectory.rootLog_openOver_error hunread, hone]
  exact ⟨by simp, addOne_of_lt _ (show (0 : UInt64).toNat + 1 < UInt64.size by decide)⟩

end Fenced

/-- From an empty store whose appends succeed: the replay fence holds along
every run in which no startup read fails over a log with rows, and from any such
run, a restart whose read does fail lets a row of the log be admitted again. -/
theorem replay_fenced {store : σ} {steps : List Step} (hempty : durableLog store = [])
    (happends : (service P).Along (BlindDirectory.AppendSucceeds P) (.openOver P store) steps)
    (hreads : (service P).Along ReadsItsLog (.openOver P store) steps) :
    ReplayFenced P (.openOver P store) steps ∧
      (¬ ReadsItsLog ((service P).after (.openOver P store) steps) .restart →
        ∃ root body, ¬ ReplayFenced P (.openOver P store)
          (steps ++ [.restart, .request (.put root body)])) := by
  have hstart := Fenced.openOver_empty (P := P) hempty
  refine ⟨hstart.replayFenced happends hreads, fun hfailed => ?_⟩
  obtain ⟨root, body, hmem, hadvanced⟩ := (hstart.run happends hreads).replay_admitted hfailed
  refine ⟨root, body, fun hfenced => ?_⟩
  have hrestarted : (service P).after (.openOver P store) (steps ++ [.restart]) =
      ((service P).after (.openOver P store) steps).restart P := by
    rw [Machine.after_append]
    rfl
  have hnew := (hfenced.advances (steps ++ [.restart]) root body ⟨[], by simp⟩
    (by rw [hrestarted]; exact hadvanced)).2
  have hlogs := log_after_extends (P := P) ((service P).after (.openOver P store) steps) [.restart]
  rw [← Machine.after_append] at hlogs
  exact hnew (hlogs.subset hmem)

/-- The first startup read fails over an empty log, the second succeeds. -/
theorem replay_fenced_after_early_failure :
    ReplayFenced Sample.platform
      (.openOver Sample.platform (Sample.store [] [true] []))
      [Sample.put "first", .restart, Sample.put "first", Sample.put "second"] :=
  (replay_fenced rfl (by decide +kernel) (by decide +kernel)).1

/-- Generations 1 and 2 are published, a restart fails to read them, and the
first is admitted again. -/
theorem replay_not_fenced :
    ¬ ReplayFenced Sample.platform
      (.openOver Sample.platform (Sample.store [] [false, true] []))
      [Sample.put "first", Sample.put "second", .restart, Sample.put "first"] := by
  intro h
  have hnew := (h.advances [Sample.put "first", Sample.put "second", .restart] Sample.root "first"
    (List.prefix_refl _) (by decide +kernel)).2
  exact hnew (by decide +kernel)

end AccountDirectory
