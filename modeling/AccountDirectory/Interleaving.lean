import AccountDirectory.Concurrent

/-! What every interleaving keeps. While the lock is free the cache is the fold
of the log; the request that holds the lock knows what it has checked, and
between its append and its fold the cache is one row behind. -/
namespace AccountDirectory
open Library

variable {Route Signature σ : Type} {P : Platform Route Signature}

/-- A request that does not hold the lock. -/
def Publish.Outside (P : Platform Route Signature) (publish : Publish Route Signature) : Prop :=
  match publish.phase with
  | .validated put => Acceptable P publish.root publish.body put
  | .locked _ | .fresh _ | .cleared _ | .appended _ => False
  | _ => True

/-- The discipline of the lock: only its holder is in the section, and of the
holder `inside` is known. -/
structure Locked (P : Platform Route Signature)
    (inside : BlindDirectory Route σ → Publish Route Signature → Prop)
    (s : System Route Signature σ) : Prop where
  outside : ∀ i publish, s.publishes[i]? = some publish → s.holder ≠ some i → publish.Outside P
  held : ∀ i, s.holder = some i → ∃ publish, s.publishes[i]? = some publish ∧ inside s.dir publish

namespace Locked

variable {inside : BlindDirectory Route σ → Publish Route Signature → Prop}
  {s : System Route Signature σ} {i : Nat} {publish : Publish Route Signature}
  {phase : Phase Route Signature} {dir : BlindDirectory Route σ} {holder : Option Nat}

theorem inside_of_holder (h : Locked P inside s) (hpublish : s.publishes[i]? = some publish)
    (hholder : s.holder = some i) : inside s.dir publish := by
  obtain ⟨other, hother, hinside⟩ := h.held i hholder
  cases hpublish.symm.trans hother
  exact hinside

theorem holder_of_critical (h : Locked P inside s) (hpublish : s.publishes[i]? = some publish)
    (hcritical : ¬ publish.Outside P) : s.holder = some i := by
  by_contra hne
  exact hcritical (h.outside i publish hpublish hne)

theorem inside_of_critical (h : Locked P inside s) (hpublish : s.publishes[i]? = some publish)
    (hcritical : ¬ publish.Outside P) : inside s.dir publish :=
  h.inside_of_holder hpublish (h.holder_of_critical hpublish hcritical)

theorem acceptable_of_validated (h : Locked P inside s) (hpublish : s.publishes[i]? = some publish)
    (hholder : s.holder = none) {put : SignedDirectoryPut Route Signature}
    (hphase : publish.phase = .validated put) : Acceptable P publish.root publish.body put := by
  have houtside := h.outside i publish hpublish (by simp [hholder])
  simpa only [Publish.Outside, hphase] using houtside

/-- Marking a request keeps the others outside, where they do not come to hold the lock. -/
theorem outside_mark (h : Locked P inside s) (hpublish : s.publishes[i]? = some publish)
    (hothers : ∀ j ≠ i, holder ≠ some j → s.holder ≠ some j)
    (hself : holder ≠ some i → Publish.Outside P { publish with phase }) :
    ∀ j other, (s.mark i publish phase).publishes[j]? = some other → holder ≠ some j →
      other.Outside P := by
  intro j other hother hnot
  rw [System.getElem?_mark hpublish] at hother
  by_cases hj : j = i
  · rw [if_pos hj] at hother
    cases hother
    subst hj
    exact hself hnot
  · rw [if_neg hj] at hother
    exact h.outside j other hother (hothers j hj hnot)

/-- A request outside the section moves on its own. -/
theorem mark_outside (h : Locked P inside s) (hpublish : s.publishes[i]? = some publish)
    (hphase : ¬ inside s.dir publish) (hself : Publish.Outside P { publish with phase }) :
    Locked P inside (s.mark i publish phase) where
  outside := h.outside_mark hpublish (fun _ _ hne => hne) (fun _ => hself)
  held := by
    intro j hholder
    obtain ⟨other, hother, hinside⟩ := h.held j hholder
    refine ⟨other, ?_, hinside⟩
    rw [System.getElem?_mark hpublish, if_neg, hother]
    rintro rfl
    exact hphase (h.inside_of_holder hpublish hholder)

/-- A request takes the free lock, or moves within the section. -/
theorem mark_inside (h : Locked P inside s) (hpublish : s.publishes[i]? = some publish)
    (hothers : s.holder = none ∨ s.holder = some i) (hholder : holder = some i)
    (hself : inside dir { publish with phase }) :
    Locked P inside { s.mark i publish phase with dir, holder } where
  outside := by
    apply h.outside_mark hpublish
    · intro j hj _ heq
      rcases hothers with hnone | hsome
      · cases hnone.symm.trans heq
      · exact hj (Option.some.inj (heq.symm.trans hsome))
    · exact fun hnot => absurd hholder hnot
  held := by
    intro j hj
    obtain rfl := Option.some.inj (hholder.symm.trans hj)
    exact ⟨{ publish with phase }, (System.getElem?_mark hpublish i).trans (if_pos rfl), hself⟩

/-- The holder leaves the section. -/
theorem release (h : Locked P inside s) (hpublish : s.publishes[i]? = some publish)
    (hholder : s.holder = some i) (hself : Publish.Outside P { publish with phase }) :
    Locked P inside { s.mark i publish phase with dir, holder := none } where
  outside := h.outside_mark hpublish
    (fun _ hj _ heq => hj (Option.some.inj (heq.symm.trans hholder))) (fun _ => hself)
  held := nofun

variable [Store σ]

theorem openOver (store : σ) :
    Locked P inside (.openOver P store : System Route Signature σ) where
  outside := nofun
  held := nofun

theorem arrive (h : Locked P inside s) (root body : String) :
    Locked P inside (s.handle P (.arrive root body)) where
  outside := by
    intro i publish hpublish hnot
    change (s.publishes ++ [_])[i]? = some publish at hpublish
    rw [List.getElem?_append] at hpublish
    split at hpublish
    · exact h.outside i publish hpublish hnot
    · obtain rfl := List.mem_singleton.mp (List.mem_of_getElem? hpublish)
      trivial
  held := by
    intro i hholder
    obtain ⟨publish, hpublish, hinside⟩ := h.held i hholder
    have hlt := (List.getElem?_eq_some_iff.mp hpublish).1
    exact ⟨publish, (List.getElem?_append_left hlt).trans hpublish, hinside⟩

theorem crash (s : System Route Signature σ) : Locked P inside (s.handle P .crash) where
  outside := by
    intro i publish hpublish _
    obtain ⟨before, -, rfl⟩ := List.mem_map.mp (List.mem_of_getElem? hpublish)
    unfold Publish.Outside
    cases before.phase <;> trivial
  held := nofun

end Locked

variable [Store σ]

/-- The request that holds the lock: what it has found out so far. -/
def Publish.Inside (P : Platform Route Signature) (dir : BlindDirectory Route σ)
    (publish : Publish Route Signature) : Prop :=
  match publish.phase with
  | .locked put => Acceptable P publish.root publish.body put ∧ dir.Tracks P dir.log
  | .fresh put => Acceptable P publish.root publish.body put ∧ dir.Tracks P dir.log ∧
      (register P).seen publish.body (rowsFor P dir.log publish.root) = false
  | .cleared put => Acceptable P publish.root publish.body put ∧ dir.Tracks P dir.log ∧
      (register P).verdict (rowsFor P dir.log publish.root) publish.body = .advanced
  | .appended put => Acceptable P publish.root publish.body put ∧
      ∃ before, dir.log = before ++ [publish.body] ∧ dir.Tracks P before ∧
        (register P).verdict (rowsFor P before publish.root) publish.body = .advanced
  | _ => False

structure Coherent (P : Platform Route Signature) (s : System Route Signature σ) : Prop
    extends Locked P (Publish.Inside P) s where
  durable : s.dir.store.isSome
  unpoisoned : s.dir.roots.poisoned = false
  sound : Sound P s.dir.log
  sent : ∀ row ∈ s.dir.log, ∃ publish ∈ s.publishes, publish.body = row
  free : s.holder = none → s.dir.Tracks P s.dir.log

/-- No row is there twice: a root's generations are distinct. -/
theorem Sound.nodup {log : List String} (h : Sound P log) : log.Nodup := by
  rw [List.nodup_iff_count_le_one]
  intro row
  by_cases hmem : row ∈ log
  · obtain ⟨root, put, hput⟩ := h.acceptable row hmem
    exact h.orderly.count_le_one hput.rowRoot
  · rw [List.count_eq_zero_of_not_mem hmem]
    exact Nat.zero_le 1

namespace Coherent

variable {s : System Route Signature σ} {i : Nat} {publish : Publish Route Signature}
  {put : SignedDirectoryPut Route Signature} {phase : Phase Route Signature}

theorem openOver {store : σ} (h : durableLog store = []) :
    Coherent P (.openOver P store : System Route Signature σ) := by
  have hstart := Follows.openOver_empty (P := P) h
  have hlog : (.openOver P store : System Route Signature σ).dir.log = [] := hstart.log_eq rfl
  exact {
    toLocked := .openOver store
    durable := rfl
    unpoisoned := rfl
    sound := hlog ▸ sound_nil
    sent := by simp [hlog]
    free := fun _ => hlog ▸ hstart.tracks }

/-- Each row was sent by a request of its own. -/
theorem log_length_le (h : Coherent P s) : s.dir.log.length ≤ s.publishes.length := by
  have hsub : s.dir.log ⊆ s.publishes.map Publish.body := by
    intro row hrow
    obtain ⟨publish, hmem, rfl⟩ := h.sent row hrow
    exact List.mem_map_of_mem hmem
  have hle := (h.sound.nodup.subperm hsub).length_le
  rwa [List.length_map] at hle

omit [Store σ] in
theorem sent_mark {log : List String} (hpublish : s.publishes[i]? = some publish)
    (phase : Phase Route Signature)
    (h : ∀ row ∈ log, ∃ publish ∈ s.publishes, publish.body = row) :
    ∀ row ∈ log, ∃ other ∈ (s.mark i publish phase).publishes, other.body = row := by
  intro row hrow
  obtain ⟨other, hmem, hbody⟩ := h row hrow
  obtain ⟨j, hj⟩ := List.mem_iff_getElem?.mp hmem
  by_cases hij : j = i
  · subst hij
    rw [hpublish] at hj
    cases hj
    refine ⟨{ publish with phase }, List.mem_iff_getElem?.mpr ⟨j, ?_⟩, hbody⟩
    rw [System.getElem?_mark hpublish, if_pos rfl]
  · refine ⟨other, List.mem_iff_getElem?.mpr ⟨j, ?_⟩, hbody⟩
    rw [System.getElem?_mark hpublish, if_neg hij, hj]

theorem mark_outside (h : Coherent P s) (hpublish : s.publishes[i]? = some publish)
    (hphase : ¬ publish.Inside P s.dir) (hself : Publish.Outside P { publish with phase }) :
    Coherent P (s.mark i publish phase) where
  toLocked := h.toLocked.mark_outside hpublish hphase hself
  durable := h.durable
  unpoisoned := h.unpoisoned
  sound := h.sound
  sent := sent_mark hpublish phase h.sent
  free := h.free

theorem mark_inside (h : Coherent P s) (hpublish : s.publishes[i]? = some publish)
    (hholder : s.holder = some i) (hself : Publish.Inside P s.dir { publish with phase }) :
    Coherent P (s.mark i publish phase) where
  toLocked := h.toLocked.mark_inside hpublish (.inr hholder) hholder hself
  durable := h.durable
  unpoisoned := h.unpoisoned
  sound := h.sound
  sent := sent_mark hpublish phase h.sent
  free := fun hnone => by rw [System.holder_mark, hholder] at hnone; cases hnone

theorem release (h : Coherent P s) (hpublish : s.publishes[i]? = some publish)
    (hholder : s.holder = some i) {dir : BlindDirectory Route σ} (hstore : dir.store = s.dir.store)
    (hlock : dir.roots.poisoned = false) (htracks : dir.Tracks P s.dir.log)
    (hself : Publish.Outside P { publish with phase }) :
    Coherent P { s.mark i publish phase with dir, holder := none } := by
  have hlog : dir.log = s.dir.log := by simp [BlindDirectory.log, hstore]
  exact {
    toLocked := h.toLocked.release hpublish hholder hself
    durable := by simpa [hstore] using h.durable
    unpoisoned := hlock
    sound := by simpa [hlog] using h.sound
    sent := by simpa [hlog] using sent_mark hpublish phase h.sent
    free := fun _ => by simpa [hlog] using htracks }

/-- Fewer than 2^64 - 1 requests: the fence asks for the number of rows plus one. -/
theorem addOne_generation (h : Coherent P s) (hbound : s.publishes.length < 2 ^ 64 - 1)
    {log : List String} (hlog : log <+: s.dir.log) (htracks : s.dir.Tracks P log) (root : String) :
    ∃ next, addOne P.overflowChecks (s.dir.rootLog root).generation = .ok next ∧
      next.toNat = (rowsFor P log root).length + 1 := by
  have hsize : UInt64.size = 2 ^ 64 := rfl
  have hrows : (rowsFor P log root).length ≤ log.length := history_length_le
  have hle := hlog.length_le
  have hsent := h.log_length_le
  have hgeneration := (h.sound.of_initial hlog).generation htracks root
  have hlt : (s.dir.rootLog root).generation.toNat + 1 < UInt64.size := by omega
  exact ⟨_, addOne_of_lt _ hlt, by rw [toNat_add_one hlt, hgeneration]⟩

theorem arrive (h : Coherent P s) (root body : String) :
    Coherent P (s.handle P (.arrive root body)) where
  toLocked := h.toLocked.arrive root body
  durable := h.durable
  unpoisoned := h.unpoisoned
  sound := h.sound
  sent := by
    intro row hrow
    obtain ⟨publish, hmem, hbody⟩ := h.sent row hrow
    exact ⟨publish, List.mem_append_left _ hmem, hbody⟩
  free := h.free

theorem crash (h : Coherent P s) (hserves : s.StoreServes .crash) :
    Coherent P (s.handle P .crash) := by
  obtain ⟨store, hstore⟩ := Option.isSome_iff_exists.mp h.durable
  have hrestart : s.dir.restart P = .openOver P store := BlindDirectory.restart_of_store hstore
  have hlog : (s.handle P .crash).dir.log = s.dir.log := s.dir.log_restart
  exact {
    toLocked := .crash s
    durable := by
      change (s.dir.restart P).store.isSome
      rw [hrestart]
      rfl
    unpoisoned := by
      change (s.dir.restart P).roots.poisoned = false
      rw [hrestart]
      rfl
    sound := hlog ▸ h.sound
    sent := by
      intro row hrow
      obtain ⟨publish, hmem, hbody⟩ := h.sent row (hlog ▸ hrow)
      exact ⟨_, List.mem_map_of_mem hmem, hbody⟩
    free := by
      intro _
      rw [hlog, BlindDirectory.log_of_store hstore]
      change (s.dir.restart P).Tracks P _
      rw [hrestart]
      exact BlindDirectory.tracks_openOver (hserves store hstore) }

theorem advance (h : Coherent P s) (hpublish : s.publishes[i]? = some publish)
    (hbound : s.publishes.length < 2 ^ 64 - 1) (hserves : s.StoreServes (.advance i)) :
    Coherent P (s.advance P i publish) := by
  have hoccupied : ¬ publish.Outside P → s.holder = some i ∧ publish.Inside P s.dir := by
    intro hcritical
    exact ⟨h.holder_of_critical hpublish hcritical, h.inside_of_critical hpublish hcritical⟩
  have hmove := move (P := P) s i publish
  generalize s.advance P i publish = next at hmove
  cases hmove with
  | stays hphase => exact h
  | misread hphase hcheck =>
      exact h.mark_outside hpublish (by simp [Publish.Inside, hphase]) trivial
  | refused hphase hcheck =>
      exact h.mark_outside hpublish (by simp [Publish.Inside, hphase]) trivial
  | validated hphase hput =>
      exact h.mark_outside hpublish (by simp [Publish.Inside, hphase]) hput
  | delivered hphase =>
      exact h.mark_outside hpublish (by simp [Publish.Inside, hphase]) trivial
  | poisoned hphase hholder hlock =>
      rw [h.unpoisoned] at hlock
      cases hlock
  | @locked put hphase hholder hlock =>
      have hput := h.acceptable_of_validated hpublish hholder hphase
      have htracks := h.free hholder
      exact {
        toLocked := h.toLocked.mark_inside hpublish (.inl hholder) rfl ⟨hput, htracks.touch⟩
        durable := h.durable
        unpoisoned := rfl
        sound := h.sound
        sent := sent_mark hpublish _ h.sent
        free := nofun }
  | recognised hphase hseen =>
      obtain ⟨hholder, hinside⟩ := hoccupied (by simp [Publish.Outside, hphase])
      simp only [Publish.Inside, hphase] at hinside
      exact h.release hpublish hholder rfl h.unpoisoned hinside.2 trivial
  | @fresh put hphase hnew =>
      obtain ⟨hholder, hinside⟩ := hoccupied (by simp [Publish.Outside, hphase])
      simp only [Publish.Inside, hphase] at hinside
      obtain ⟨hput, htracks⟩ := hinside
      have hroot : put.root = publish.root := hput.root_eq
      refine h.mark_inside hpublish hholder ⟨hput, htracks, ?_⟩
      rw [hroot, htracks.mem_digests, ← seen_iff, Bool.not_eq_true] at hnew
      exact hnew
  | @overflowed put hphase panic hnext =>
      obtain ⟨hholder, hinside⟩ := hoccupied (by simp [Publish.Outside, hphase])
      simp only [Publish.Inside, hphase] at hinside
      obtain ⟨next, hok, -⟩ :=
        h.addOne_generation hbound (List.prefix_refl _) hinside.2.1 put.root
      rw [hok] at hnext
      cases hnext
  | conflicted hphase hnext hgen =>
      obtain ⟨hholder, hinside⟩ := hoccupied (by simp [Publish.Outside, hphase])
      simp only [Publish.Inside, hphase] at hinside
      exact h.release hpublish hholder rfl h.unpoisoned hinside.2.1 trivial
  | @cleared put hphase hnext =>
      obtain ⟨hholder, hinside⟩ := hoccupied (by simp [Publish.Outside, hphase])
      simp only [Publish.Inside, hphase] at hinside
      obtain ⟨hput, htracks, hnew⟩ := hinside
      obtain ⟨next, hok, hlength⟩ :=
        h.addOne_generation hbound (List.prefix_refl _) htracks put.root
      rw [hok] at hnext
      cases hnext
      have hroot : put.root = publish.root := hput.root_eq
      refine h.mark_inside hpublish hholder ⟨hput, htracks, ?_⟩
      refine Register.verdict_advanced_iff.mpr ⟨hnew, ?_⟩
      rw [hroot] at hlength
      exact hput.rowGeneration.trans hlength
  | @appended put hphase =>
      obtain ⟨hholder, hinside⟩ := hoccupied (by simp [Publish.Outside, hphase])
      simp only [Publish.Inside, hphase] at hinside
      obtain ⟨hput, htracks, hverdict⟩ := hinside
      have hlog : (s.dir.appendBody publish.body).log = s.dir.log ++ [publish.body] := by
        rw [BlindDirectory.log_appendBody (hserves publish hpublish ⟨put, hphase⟩),
          if_pos h.durable]
      exact {
        toLocked := h.toLocked.mark_inside hpublish (.inr hholder) hholder
          ⟨hput, s.dir.log, hlog, htracks, hverdict⟩
        durable := by simpa [BlindDirectory.appendBody] using h.durable
        unpoisoned := h.unpoisoned
        sound := hlog ▸ h.sound.of_advanced hput hverdict
        sent := by
          refine sent_mark hpublish _ fun row hrow => ?_
          rcases List.mem_append.mp (hlog ▸ hrow) with hold | hnew
          · exact h.sent row hold
          · exact ⟨publish, List.mem_of_getElem? hpublish, (List.mem_singleton.mp hnew).symm⟩
        free := fun hnone => by rw [System.holder_mark, hholder] at hnone; cases hnone }
  | advanced hphase =>
      obtain ⟨hholder, hinside⟩ := hoccupied (by simp [Publish.Outside, hphase])
      simp only [Publish.Inside, hphase] at hinside
      obtain ⟨hput, before, hlog, htracks, hverdict⟩ := hinside
      refine h.release hpublish hholder rfl rfl ?_ trivial
      rw [hlog]
      exact htracks.foldBody hput.parseRow

theorem step (h : Coherent P s) (event : Event) (hbound : s.publishes.length < 2 ^ 64 - 1)
    (hserves : s.StoreServes event) : Coherent P (s.handle P event) := by
  cases event with
  | arrive root body => exact h.arrive root body
  | crash => exact h.crash hserves
  | advance i =>
      cases hpublish : s.publishes[i]? with
      | none =>
          rw [System.handle_advance_none hpublish]
          exact h
      | some publish =>
          rw [System.handle_advance hpublish]
          exact h.advance hpublish hbound hserves

end Coherent
end AccountDirectory
