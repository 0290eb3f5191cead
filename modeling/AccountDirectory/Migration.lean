import AccountDirectory.Overflow

/-! Migration of unsigned history. A log of bare entries goes on being served
until a root's first signed publish is admitted, and from then on only signed
rows are, numbered from 1. The fence starts where the last bare row decodes to,
so all of this holds for the logs whose last rows decode to generation 0, and
for no others. -/
namespace AccountDirectory
open Library

variable {Route Signature σ : Type} [Store σ] (P : Platform Route Signature)

/-- Rows that decode as an entry, but not as a signed put. -/
def BareLog (log : List String) : Prop :=
  ∀ row ∈ log, P.decodePut row = none ∧ (P.decodeEntry row).isSome

instance : DecidablePred (BareLog P) :=
  fun log => inferInstanceAs (Decidable (∀ row ∈ log, _ ∧ _))

def signedRows (log : List String) (root : String) : List String :=
  (rowsFor P log root).filter fun row => (P.decodePut row).isSome

/-- No addition of the run panics. -/
def OverflowFree (store : σ) (steps : List Step) : Prop :=
  (service P).Along (fun dir step => P.overflowChecks = true → StaysInRange P dir step)
    (.openOver P store) steps

/-- What is promised of a log of bare entries, as the run `steps` leaves it. -/
structure Migrated (store : σ) (steps : List Step) : Prop where
  opened : ∀ root, rowsFor P (durableLog store) root ≠ [] →
    ((BlindDirectory.openOver P store).rootLog root).generation = 0
  served : ∀ root row, (rowsFor P (durableLog store) root).getLast? = some row →
    ¬ AdmittedIn P (.openOver P store) steps root →
      (∃ entry, (dirAt P store steps).get root = .ok (some ⟨row, entry⟩)) ∧
        (isAccountRoot root = .ok true → Serves P (dirAt P store steps) root row)
  first : ∀ early root body, early ++ [.request (.put root body)] <+: steps →
    ¬ AdmittedIn P (.openOver P store) early root →
    publishDisposition P (dirAt P store early) root body = some .advanced →
      ∃ put, P.decodePut body = some put ∧ put.entry.generation = 1
  numbered : ∀ root, (signedRows P (dirAt P store steps).log root).map (rowGeneration P) =
    List.range' 1 (signedRows P (dirAt P store steps).log root).length
  superseded : ∀ root row, AdmittedIn P (.openOver P store) steps root → P.decodePut row = none →
    ¬ Serves P (dirAt P store steps) root row ∧
      ∀ entry, (dirAt P store steps).get root ≠ .ok (some ⟨row, entry⟩)

/-- The rows of a root after a run: those of the opened log and a ladder of
admitted publishes. -/
structure Grown (store : σ) (steps : List Step) (root : String) (rungs : List String) :
    Prop where
  rows : rowsFor P (dirAt P store steps).log root = rowsFor P (durableLog store) root ++ rungs
  ladder : Ladder P root (rowsFor P (durableLog store) root) rungs
  admitted : AdmittedIn P (.openOver P store) steps root ↔ rungs ≠ []
  few : rungs.length ≤ (putBodies steps).length

variable {P} {store : σ} {steps : List Step} {root row : String} {rungs : List String}
  {dir : BlindDirectory Route σ}

theorem faithful_dirAt (hread : (readLog store).1.isOk)
    (hrun : Undisturbed P (.openOver P store) steps) : (dirAt P store steps).Faithful P :=
  BlindDirectory.faithful_after hread hrun

theorem dirAt_concat (store : σ) (steps : List Step) (step : Step) :
    dirAt P store (steps ++ [step]) = ((service P).step (dirAt P store steps) step).2 :=
  Machine.after_append ..

theorem putBodies_concat (steps : List Step) (step : Step) :
    putBodies (steps ++ [step]) = putBodies steps ++ step.body.toList := by
  cases step with
  | restart => simp [putBodies, Step.body]
  | request request => cases request <;> simp [putBodies, Step.body]

/-- A run grows every root by one ladder, from wherever the opened log left it. -/
theorem exists_grown (hread : (readLog store).1.isOk)
    (hrun : Undisturbed P (.openOver P store) steps) (root : String) :
    ∃ rungs, Grown P store steps root rungs := by
  induction steps using List.reverseRecOn with
  | nil =>
      refine ⟨[], ?_, .nil, ?_, Nat.le_refl _⟩
      · rw [List.append_nil]
        exact congrArg (fun log => rowsFor P log root) BlindDirectory.log_openOver
      · exact iff_of_false not_admittedIn_nil fun h => h rfl
  | append_singleton steps step ih =>
      have hbefore := hrun.of_initial (List.prefix_append _ _)
      have hs : (dirAt P store steps).StoreSucceeds P step :=
        (((service P).along_append _ _ _ _).mp hrun).2.1
      obtain ⟨rungs, h⟩ := ih hbefore
      have hfaithful := faithful_dirAt hread hbefore
      have hlog := log_step_cases hfaithful.durable hs
      rw [← dirAt_concat] at hlog
      rcases hlog with ⟨hlog, hnot⟩ | ⟨path, body, rfl, hnext, hlog⟩
      · -- Nothing is admitted: the ladder stays as it is.
        refine ⟨rungs, ?_, h.ladder, ?_, ?_⟩
        · rw [hlog, h.rows]
        · rw [admittedIn_concat, h.admitted]
          exact or_iff_left fun ⟨body, hstep, hadvanced⟩ => hnot root body hstep hadvanced
        · rw [putBodies_concat, List.length_append]
          exact Nat.le_add_right_of_le h.few
      · obtain ⟨put, hput, hnew, hgen, -⟩ := hnext.publish_eq
        by_cases hroot : path = root
        · subst hroot
          rw [hfaithful.tracks, h.rows] at hnew hgen
          refine ⟨rungs ++ [body], ?_, ?_, ?_, ?_⟩
          · rw [hlog, ← List.append_assoc, ← h.rows]
            exact history_concat_self hput.rowRoot
          · exact h.ladder.extend (fun _ => parseRow_isSome_of_mem) hput hnew hgen
          · refine iff_of_true (admittedIn_concat.mpr (.inr ⟨body, rfl, ?_⟩)) (by simp)
            exact publishDisposition_advanced_iff.mpr hnext
          · rw [putBodies_concat, List.length_append, List.length_append]
            exact Nat.add_le_add_right h.few 1
        · refine ⟨rungs, ?_, h.ladder, ?_, ?_⟩
          · rw [hlog, ← h.rows]
            apply history_concat_other
            rw [hput.rowRoot]
            exact fun heq => hroot (Option.some.inj heq)
          · rw [admittedIn_concat, h.admitted]
            exact or_iff_left fun ⟨body, hstep, _⟩ => hroot (by cases hstep; rfl)
          · rw [putBodies_concat, List.length_append]
            exact Nat.le_add_right_of_le h.few

namespace Grown

theorem signedRows_eq (h : Grown P store steps root rungs) (hbare : BareLog P (durableLog store)) :
    signedRows P (dirAt P store steps).log root = rungs := by
  have hold : (rowsFor P (durableLog store) root).filter
      (fun row => (P.decodePut row).isSome) = [] := by
    rw [List.filter_eq_nil_iff]
    intro row hrow
    rw [(hbare row (mem_history.mp hrow).1).1]
    exact Bool.false_ne_true
  have hnew : rungs.filter (fun row => (P.decodePut row).isSome) = rungs := by
    rw [List.filter_eq_self]
    intro row hrow
    obtain ⟨put, hput⟩ := h.ladder.acceptable row hrow
    rw [hput.decoded]
    rfl
  rw [signedRows, h.rows, List.filter_append, hold, hnew, List.nil_append]

/-- The fence reads the number of rungs over the generation of the opened log. -/
theorem generation (h : Grown P store steps root rungs)
    (hfaithful : (dirAt P store steps).Faithful P) :
    ((dirAt P store steps).rootLog root).generation.toNat =
      lastGeneration P (rowsFor P (durableLog store) root) + rungs.length := by
  rw [hfaithful.tracks.lastGeneration, h.rows, h.ladder.lastGeneration_eq]

end Grown

section Serving

variable {entry : DirectoryEntry Route}

omit [Store σ] in
theorem serves_of_get (hpath : isAccountRoot root = .ok true)
    (hget : dir.get root = .ok (some ⟨row, entry⟩)) : Serves P dir root row := by
  unfold Serves fetch
  rw [hpath, hget]
  cases hretracted : P.isRetraction entry with
  | true =>
      right
      simp [Except.map, serve, hretracted]
  | false =>
      left
      simp [Except.map, serve, hretracted]

omit [Store σ] in
theorem get_of_serves (h : Serves P dir root row) :
    ∃ entry, dir.get root = .ok (some ⟨row, entry⟩) := by
  unfold Serves fetch at h
  cases hpath : isAccountRoot root with
  | error panic => simp [hpath] at h
  | ok shaped =>
      cases shaped with
      | false => simp [hpath, text, signedJson] at h
      | true =>
          cases hget : dir.get root with
          | error panic => simp [hpath, hget, Except.map] at h
          | ok held =>
              cases held with
              | none => simp [hpath, hget, Except.map, serve, text, signedJson] at h
              | some stored =>
                  simp only [hpath, hget, Except.map, serve] at h
                  obtain rfl : stored.body = row := by
                    split at h <;> simp_all [signedJson]
                  exact ⟨stored.entry, rfl⟩

end Serving

/-- Short of an overflow the lock is never poisoned. -/
theorem unpoisoned_of_inRange {step : Step} (hlock : dir.roots.poisoned = false)
    (hrange : P.overflowChecks = true → StaysInRange P dir step) :
    ((service P).step dir step).2.roots.poisoned = false := by
  rcases BlindDirectory.poisoned_step_cases hlock step with
    hstays | ⟨root, body, put, panic, rfl, hput, hnew, hnext, -⟩
  · exact hstays
  · obtain ⟨hchecks, hlast⟩ := addOne_eq_error hnext
    have hlt := hrange hchecks root body rfl ⟨hlock, ⟨put, hput⟩, hnew⟩
    omega

theorem unpoisoned_dirAt (hfree : OverflowFree P store steps) :
    (dirAt P store steps).roots.poisoned = false :=
  Machine.after_invariant (G := fun dir : BlindDirectory Route σ => dir.roots.poisoned = false)
    (fun _ _ hlock hrange => unpoisoned_of_inRange hlock hrange)
    BlindDirectory.poisoned_openOver hfree

/-- Over 2^64 - 2 publishes are needed to overflow a fence that starts from 0. -/
theorem overflowFree_of_short (hread : (readLog store).1.isOk)
    (hzero : ∀ root, lastGeneration P (rowsFor P (durableLog store) root) = 0)
    (hrun : Undisturbed P (.openOver P store) steps)
    (hshort : (putBodies steps).length < 2 ^ 64 - 1) : OverflowFree P store steps := by
  unfold OverflowFree
  rw [Machine.along_iff_forall_cut]
  rintro early step late rfl - root body rfl -
  have hbefore := hrun.of_initial (List.prefix_append _ _)
  obtain ⟨rungs, h⟩ := exists_grown hread hbefore root
  have hgeneration := h.generation (faithful_dirAt hread hbefore)
  have hfew := h.few
  have hsent : (putBodies (early ++ .request (.put root body) :: late)).length =
      (putBodies early).length + ((putBodies late).length + 1) := by
    rw [putBodies, List.filterMap_append, List.length_append]
    rfl
  have hsize : UInt64.size = 2 ^ 64 := rfl
  change ((dirAt P store early).rootLog root).generation.toNat + 1 < _
  rw [hgeneration, hzero root]
  omega

/-- With every fence starting from 0, a run keeps the promise. -/
theorem migrated (hread : (readLog store).1.isOk) (hbare : BareLog P (durableLog store))
    (hzero : ∀ root, lastGeneration P (rowsFor P (durableLog store) root) = 0)
    (hrun : Undisturbed P (.openOver P store) steps) (hfree : OverflowFree P store steps) :
    Migrated P store steps where
  opened := by
    intro root _
    apply UInt64.toNat_inj.mp
    rw [(BlindDirectory.tracks_openOver hread).lastGeneration, hzero]
    rfl
  served := by
    intro root row hlast hnot
    obtain ⟨rungs, h⟩ := exists_grown hread hrun root
    have hempty : rungs = [] := not_not.mp (h.admitted.not.mp hnot)
    have hget : (dirAt P store steps).get root = .ok (storedRow P row) := by
      rw [BlindDirectory.get_eq (unpoisoned_dirAt hfree), (faithful_dirAt hread hrun).tracks.latest,
        h.rows, hempty, List.append_nil, hlast]
      rfl
    obtain ⟨entry, hentry⟩ :=
      Option.isSome_iff_exists.mp (parseRow_isSome_of_mem (List.mem_of_getLast? hlast))
    rw [storedRow, hentry] at hget
    exact ⟨⟨entry, hget⟩, fun hpath => serves_of_get hpath hget⟩
  first := by
    intro early root body hcut hnot hadvanced
    have hbefore := hrun.of_initial ((List.prefix_append _ _).trans hcut)
    obtain ⟨rungs, h⟩ := exists_grown hread hbefore root
    have hempty : rungs = [] := not_not.mp (h.admitted.not.mp hnot)
    have hgeneration := h.generation (faithful_dirAt hread hbefore)
    obtain ⟨put, hput, -, hnext, -⟩ :=
      (publishDisposition_advanced_iff.mp hadvanced).publish_eq
    have hsucc := toNat_of_addOne hnext hput.positive
    rw [hgeneration, hzero, hempty] at hsucc
    exact ⟨put, hput.decoded, UInt64.toNat_inj.mp hsucc⟩
  numbered := by
    intro root
    obtain ⟨rungs, h⟩ := exists_grown hread hrun root
    have hgenerations := h.ladder.generations
    rw [hzero] at hgenerations
    rw [h.signedRows_eq hbare]
    exact hgenerations
  superseded := by
    intro root row hadmitted hrow
    obtain ⟨rungs, h⟩ := exists_grown hread hrun root
    obtain ⟨front, last, rfl⟩ :=
      (List.eq_nil_or_concat' rungs).resolve_left (h.admitted.mp hadmitted)
    have hnotHeld : ∀ entry, (dirAt P store steps).get root ≠ .ok (some ⟨row, entry⟩) := by
      intro entry hget
      obtain ⟨put, hput⟩ := h.ladder.acceptable last (by simp)
      rw [BlindDirectory.get_eq (unpoisoned_dirAt hfree), (faithful_dirAt hread hrun).tracks.latest,
        h.rows, ← List.append_assoc, List.getLast?_concat, Option.bind_some, storedRow,
        hput.parseRow] at hget
      have hsame : last = row := congrArg Stored.body (Option.some.inj (Except.ok.inj hget))
      rw [← hsame, hput.decoded] at hrow
      cases hrow
    refine ⟨fun hserves => ?_, hnotHeld⟩
    obtain ⟨entry, hget⟩ := get_of_serves hserves
    exact hnotHeld entry hget

/-- Unsigned history migrates as promised from exactly the logs in which the
last bare row of every root decodes to generation 0; and from these, a run of
fewer than 2^64 - 1 publishes is free of overflow. -/
theorem migration_iff (hread : (readLog store).1.isOk) (hbare : BareLog P (durableLog store)) :
    ((∀ steps, Undisturbed P (.openOver P store) steps → OverflowFree P store steps →
        Migrated P store steps) ↔
      ∀ root, lastGeneration P (rowsFor P (durableLog store) root) = 0) ∧
    ((∀ root, lastGeneration P (rowsFor P (durableLog store) root) = 0) →
      ∀ steps, Undisturbed P (.openOver P store) steps →
        (putBodies steps).length < 2 ^ 64 - 1 → OverflowFree P store steps) := by
  refine ⟨⟨fun h root => ?_, fun hzero steps => migrated hread hbare hzero⟩,
    fun hzero steps => overflowFree_of_short hread hzero⟩
  by_cases hrows : rowsFor P (durableLog store) root = []
  · rw [hrows]
    rfl
  · have hopened := (h [] trivial trivial).opened root hrows
    rw [← (BlindDirectory.tracks_openOver hread).lastGeneration, hopened]
    rfl

/-- A log of one bare row without a generation: the first signed publish starts
the numbering, and a restart reads both kinds back. -/
theorem migration_of_first_publish :
    let steps := [Sample.put "second", Sample.put "first", .restart, Sample.put "second"]
    (dirAt Sample.legacy (Sample.store ["bare"] [] []) steps).log = ["bare", "first", "second"] ∧
      Migrated Sample.legacy (Sample.store ["bare"] [] []) steps := by
  intro steps
  have hread : (readLog (Sample.store ["bare"] [] [])).1.isOk := by decide +kernel
  have hbare : BareLog Sample.legacy (durableLog (Sample.store ["bare"] [] [])) := by
    decide +kernel
  have hlow : ∀ row ∈ durableLog (Sample.store ["bare"] [] []),
      rowGeneration Sample.legacy row ≤ 0 := by decide +kernel
  have hzero : ∀ root, lastGeneration Sample.legacy
      (rowsFor Sample.legacy (durableLog (Sample.store ["bare"] [] [])) root) = 0 :=
    fun root => Nat.le_zero.mp (lastGeneration_le hlow root)
  have hrun : Undisturbed Sample.legacy
      (.openOver Sample.legacy (Sample.store ["bare"] [] [])) steps := by decide +kernel
  obtain ⟨hiff, hfree⟩ := migration_iff hread hbare
  exact ⟨by decide +kernel, hiff.mpr hzero steps hrun (hfree hzero steps hrun (by decide))⟩

/-- A bare row that carries generation 3: its root opens at 3, the first signed
publish is refused, and the rows are never superseded by it. -/
theorem migration_keeps_bare_generation :
    let store := Sample.store ["third"] [] []
    BareLog Sample.legacy (durableLog store) ∧ ¬ Migrated Sample.legacy store [] ∧
      publishDisposition Sample.legacy (.openOver Sample.legacy store) Sample.root "first" =
        some .conflict := by
  intro store
  refine ⟨by decide +kernel, fun h => ?_, by decide +kernel⟩
  have hopened := h.opened Sample.root (by decide +kernel)
  revert hopened
  decide +kernel

end AccountDirectory
