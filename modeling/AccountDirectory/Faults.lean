import AccountDirectory.Linearization
import AccountDirectory.Library.Climbing

/-! Interleavings over a store that loses appends. `admit` drops the result of
its append, so a publish may be in the cache and not in the log. What is left
under the lock is that the cache is never behind the log, and so every row that
does become durable has a higher generation than the rows of its root before it. -/
namespace AccountDirectory
open Library

variable {Route Signature σ : Type} [Store σ] {P : Platform Route Signature}

/-- No root has a durable generation above the one in the cache. -/
def BlindDirectory.Ahead (P : Platform Route Signature) (dir : BlindDirectory Route σ)
    (log : List String) : Prop :=
  ∀ root, lastGeneration P (rowsFor P log root) ≤ (dir.rootLog root).generation.toNat

/-- The request that holds the lock, whatever its append did. -/
def Publish.Advancing (P : Platform Route Signature) (dir : BlindDirectory Route σ)
    (publish : Publish Route Signature) : Prop :=
  match publish.phase with
  | .locked put | .fresh put => Acceptable P publish.root publish.body put ∧ dir.Ahead P dir.log
  | .cleared put => Acceptable P publish.root publish.body put ∧ dir.Ahead P dir.log ∧
      put.entry.generation.toNat = (dir.rootLog publish.root).generation.toNat + 1
  | .appended put => Acceptable P publish.root publish.body put ∧
      put.entry.generation.toNat = (dir.rootLog publish.root).generation.toNat + 1 ∧
      ∃ before, dir.Ahead P before ∧ (dir.log = before ∨ dir.log = before ++ [publish.body])
  | _ => False

/-- What every interleaving keeps where appends may fail. -/
structure Lossy (P : Platform Route Signature) (s : System Route Signature σ) : Prop
    extends Locked P (Publish.Advancing P) s where
  climbs : (register P).Climbs s.dir.log
  free : s.holder = none → s.dir.Ahead P s.dir.log

/-- A reopening in this event, if there is one, reads. -/
def System.Reopens (s : System Route Signature σ) : Event → Prop
  | .crash => ∀ store ∈ s.dir.store, (readLog store).1.isOk
  | _ => True

instance (s : System Route Signature σ) : DecidablePred s.Reopens
  | .arrive _ _ | .advance _ => inferInstanceAs (Decidable True)
  | .crash => inferInstanceAs (Decidable (∀ store ∈ s.dir.store, _))

namespace BlindDirectory

variable {dir : BlindDirectory Route σ} {log : List String} {root body : String}
  {put : SignedDirectoryPut Route Signature}

omit [Store σ] in
theorem Tracks.ahead (h : dir.Tracks P log) : dir.Ahead P log :=
  fun root => (h.lastGeneration root).ge

omit [Store σ] in
theorem Ahead.touch (h : dir.Ahead P log) : (dir.touch root).Ahead P log := by
  intro other
  rw [rootLog_touch]
  exact h other

omit [Store σ] in
/-- The fold catches up with the row that was appended, or with none. -/
theorem Ahead.foldBody (h : dir.Ahead P log) (hput : Acceptable P root body put)
    (hnext : put.entry.generation.toNat = (dir.rootLog root).generation.toNat + 1)
    {longer : List String} (hlog : longer = log ∨ longer = log ++ [body]) :
    (dir.foldBody P put body).Ahead P longer := by
  intro other
  have hroot : put.root = root := hput.root_eq
  have hahead := h other
  rw [rootLog_foldBody, hroot]
  split
  · rename_i hother
    subst hother
    have hfolded : ((dir.rootLog other).fold P body put.entry).generation = put.entry.generation :=
      rfl
    rw [hfolded, hnext]
    rcases hlog with rfl | rfl
    · omega
    · rw [rowsFor, history_concat_self hput.rowRoot, lastGeneration, List.getLast?_concat,
        Option.elim_some, hput.rowGeneration, hnext]
  · rename_i hother
    have hne : rowRoot P body ≠ some other := by
      rw [hput.rowRoot]
      exact fun heq => hother (Option.some.inj heq).symm
    rcases hlog with rfl | rfl
    · exact hahead
    · rw [rowsFor, history_concat_other hne]
      exact hahead

end BlindDirectory

namespace Lossy

variable {s : System Route Signature σ} {i : Nat} {publish : Publish Route Signature}
  {phase : Phase Route Signature}

theorem openOver {store : σ} (hread : (readLog store).1.isOk)
    (hclimbs : (register P).Climbs (durableLog store)) :
    Lossy P (.openOver P store : System Route Signature σ) where
  toLocked := .openOver store
  climbs := by
    change (register P).Climbs (BlindDirectory.openOver P store).log
    rwa [BlindDirectory.log_openOver]
  free := by
    intro _
    change (BlindDirectory.openOver P store).Ahead P (BlindDirectory.openOver P store).log
    rw [BlindDirectory.log_openOver]
    exact (BlindDirectory.tracks_openOver hread).ahead

theorem mark_outside (h : Lossy P s) (hpublish : s.publishes[i]? = some publish)
    (hphase : ¬ publish.Advancing P s.dir) (hself : Publish.Outside P { publish with phase }) :
    Lossy P (s.mark i publish phase) where
  toLocked := h.toLocked.mark_outside hpublish hphase hself
  climbs := h.climbs
  free := h.free

theorem mark_inside (h : Lossy P s) (hpublish : s.publishes[i]? = some publish)
    (hothers : s.holder = none ∨ s.holder = some i) {dir : BlindDirectory Route σ}
    {holder : Option Nat} (hholder : holder = some i) (hclimbs : (register P).Climbs dir.log)
    (hself : Publish.Advancing P dir { publish with phase }) :
    Lossy P { s.mark i publish phase with dir, holder } where
  toLocked := h.toLocked.mark_inside hpublish hothers hholder hself
  climbs := hclimbs
  free := fun hnone => by cases hnone.symm.trans hholder

theorem release (h : Lossy P s) (hpublish : s.publishes[i]? = some publish)
    (hholder : s.holder = some i) {dir : BlindDirectory Route σ} (hlog : dir.log = s.dir.log)
    (hahead : dir.Ahead P s.dir.log) (hself : Publish.Outside P { publish with phase }) :
    Lossy P { s.mark i publish phase with dir, holder := none } where
  toLocked := h.toLocked.release hpublish hholder hself
  climbs := hlog ▸ h.climbs
  free := fun _ => hlog ▸ hahead

theorem arrive (h : Lossy P s) (root body : String) :
    Lossy P (s.handle P (.arrive root body)) where
  toLocked := h.toLocked.arrive root body
  climbs := h.climbs
  free := h.free

theorem crash (h : Lossy P s) (hread : s.Reopens .crash) : Lossy P (s.handle P .crash) := by
  have hlog : (s.handle P .crash).dir.log = s.dir.log := s.dir.log_restart
  exact {
    toLocked := .crash s
    climbs := hlog ▸ h.climbs
    free := by
      intro _
      rw [hlog]
      change (s.dir.restart P).Ahead P s.dir.log
      cases hstore : s.dir.store with
      | none =>
          intro root
          rw [BlindDirectory.log, hstore]
          exact Nat.zero_le _
      | some store =>
          rw [BlindDirectory.restart_of_store hstore, BlindDirectory.log_of_store hstore]
          exact (BlindDirectory.tracks_openOver (hread store hstore)).ahead }

theorem advance (h : Lossy P s) (hpublish : s.publishes[i]? = some publish) :
    Lossy P (s.advance P i publish) := by
  have hoccupied : ¬ publish.Outside P → s.holder = some i ∧ publish.Advancing P s.dir := by
    intro hcritical
    exact ⟨h.holder_of_critical hpublish hcritical, h.inside_of_critical hpublish hcritical⟩
  have hmove := move (P := P) s i publish
  generalize s.advance P i publish = next at hmove
  cases hmove with
  | stays hphase => exact h
  | misread hphase | refused hphase | delivered hphase | poisoned hphase =>
      exact h.mark_outside hpublish (by simp [Publish.Advancing, hphase]) trivial
  | validated hphase hput =>
      exact h.mark_outside hpublish (by simp [Publish.Advancing, hphase]) hput
  | @locked put hphase hholder hlock =>
      have hput := h.acceptable_of_validated hpublish hholder hphase
      exact h.mark_inside hpublish (.inl hholder) rfl h.climbs ⟨hput, (h.free hholder).touch⟩
  | @recognised put hphase hseen =>
      obtain ⟨hholder, hadvancing⟩ := hoccupied (by simp [Publish.Outside, hphase])
      simp only [Publish.Advancing, hphase] at hadvancing
      exact h.release hpublish hholder rfl hadvancing.2 trivial
  | @fresh put hphase hnew =>
      obtain ⟨hholder, hadvancing⟩ := hoccupied (by simp [Publish.Outside, hphase])
      simp only [Publish.Advancing, hphase] at hadvancing
      exact h.mark_inside hpublish (.inr hholder) hholder h.climbs hadvancing
  | @overflowed put hphase panic hnext =>
      obtain ⟨hholder, hadvancing⟩ := hoccupied (by simp [Publish.Outside, hphase])
      simp only [Publish.Advancing, hphase] at hadvancing
      exact h.release hpublish hholder rfl hadvancing.2 trivial
  | @conflicted put hphase next hnext hgen =>
      obtain ⟨hholder, hadvancing⟩ := hoccupied (by simp [Publish.Outside, hphase])
      simp only [Publish.Advancing, hphase] at hadvancing
      exact h.release hpublish hholder rfl hadvancing.2 trivial
  | @cleared put hphase hnext =>
      obtain ⟨hholder, hadvancing⟩ := hoccupied (by simp [Publish.Outside, hphase])
      simp only [Publish.Advancing, hphase] at hadvancing
      obtain ⟨hput, hahead⟩ := hadvancing
      have hroot : put.root = publish.root := hput.root_eq
      -- A successor that wrapped to zero would not have passed the shape check.
      have hgeneration := toNat_of_addOne hnext hput.positive
      rw [hroot] at hgeneration
      exact h.mark_inside hpublish (.inr hholder) hholder h.climbs ⟨hput, hahead, hgeneration⟩
  | @appended put hphase =>
      obtain ⟨hholder, hadvancing⟩ := hoccupied (by simp [Publish.Outside, hphase])
      simp only [Publish.Advancing, hphase] at hadvancing
      obtain ⟨hput, hahead, hgeneration⟩ := hadvancing
      have hcases := BlindDirectory.log_appendBody_cases s.dir publish.body
      have hclimbs : (register P).Climbs (s.dir.appendBody publish.body).log := by
        rcases hcases with hlost | htaken
        · rw [hlost]
          exact h.climbs
        · rw [htaken]
          apply h.climbs.concat hput.rowRoot
          have hnext : rowGeneration P publish.body =
              (s.dir.rootLog publish.root).generation.toNat + 1 :=
            hput.rowGeneration.trans hgeneration
          exact Nat.lt_of_le_of_lt (hahead publish.root)
            ((Nat.lt_succ_self _).trans_eq hnext.symm)
      exact h.mark_inside hpublish (.inr hholder) hholder hclimbs
        ⟨hput, hgeneration, s.dir.log, hahead, hcases⟩
  | @advanced put hphase =>
      obtain ⟨hholder, hadvancing⟩ := hoccupied (by simp [Publish.Outside, hphase])
      simp only [Publish.Advancing, hphase] at hadvancing
      obtain ⟨hput, hgeneration, before, hahead, hlog⟩ := hadvancing
      exact h.release hpublish hholder rfl (hahead.foldBody hput hgeneration hlog) trivial

theorem step (h : Lossy P s) (event : Event) (hreopens : s.Reopens event) :
    Lossy P (s.handle P event) := by
  cases event with
  | arrive root body => exact h.arrive root body
  | crash => exact h.crash hreopens
  | advance i =>
      cases hpublish : s.publishes[i]? with
      | none =>
          rw [System.handle_advance_none hpublish]
          exact h
      | some publish =>
          rw [System.handle_advance hpublish]
          exact h.advance hpublish

end Lossy

/-- The request has made its append, whatever came of it. -/
def Phase.pastAppend : Phase Route Signature → Bool
  | .appended _ => true
  | .decided disposition | .delivered disposition => disposition = .advanced
  | _ => false

/-- What the `i`-th request appended is in the log. -/
def System.Keeps (i : Nat) (s : System Route Signature σ) : Prop :=
  s.dir.store.isSome ∧ ∀ publish, s.publishes[i]? = some publish →
    publish.phase.pastAppend = true → publish.body ∈ s.dir.log

/-- The `i`-th request's append is lost in this event. -/
def System.Loses (i : Nat) (s : System Route Signature σ) (event : Event) : Prop :=
  event = .advance i ∧ ∃ root body put, s.publishes[i]? = some ⟨root, body, .cleared put⟩ ∧
    ∃ store ∈ s.dir.store, ¬ (appendLog store body).1.isOk

section Keeping

variable {s : System Route Signature σ} {i j : Nat} {publish : Publish Route Signature}

theorem System.store_handle (s : System Route Signature σ) (event : Event)
    (h : s.dir.store.isSome) : (s.handle P event).dir.store.isSome := by
  cases event with
  | arrive root body => exact h
  | crash =>
      obtain ⟨store, hstore⟩ := Option.isSome_iff_exists.mp h
      change (s.dir.restart P).store.isSome
      rw [BlindDirectory.restart_of_store hstore]
      rfl
  | advance j =>
      cases hpublish : s.publishes[j]? with
      | none => rwa [handle_advance_none hpublish]
      | some publish =>
          rw [handle_advance hpublish]
          have hmove := move (P := P) s j publish
          generalize s.advance P j publish = next at hmove
          cases hmove with
          | appended hphase =>
              change (s.dir.store.map _).isSome
              rwa [Option.isSome_map]
          | _ => exact h

theorem System.Keeps.advance (h : s.Keeps i) (hpublish : s.publishes[i]? = some publish)
    (hkept : ¬ s.Loses i (.advance i)) {next : Publish Route Signature}
    (hnext : (s.advance P i publish).publishes[i]? = some next)
    (hpast : next.phase.pastAppend = true) : next.body ∈ (s.advance P i publish).dir.log := by
  have hmark : ∀ phase : Phase Route Signature,
      (s.mark i publish phase).publishes[i]? = some { publish with phase } :=
    fun phase => (getElem?_mark hpublish i).trans (if_pos rfl)
  have hmove := move (P := P) s i publish
  generalize s.advance P i publish = after at hmove hnext
  cases hmove with
  | stays hphase => exact h.2 next hnext hpast
  | misread hphase | refused hphase | validated hphase | poisoned hphase | locked hphase
  | recognised hphase | fresh hphase | overflowed hphase | conflicted hphase | cleared hphase =>
      cases Option.some.inj ((hmark _).symm.trans hnext)
      cases hpast
  | @appended put hphase =>
      cases Option.some.inj ((hmark _).symm.trans hnext)
      have htaken : ∀ store ∈ s.dir.store, (appendLog store publish.body).1.isOk := by
        intro store hstore
        by_contra hlost
        refine hkept ⟨rfl, publish.root, publish.body, put, ?_, store, hstore, hlost⟩
        rw [hpublish, ← hphase]
      change publish.body ∈ (s.dir.appendBody publish.body).log
      rw [BlindDirectory.log_appendBody htaken, if_pos h.1]
      exact List.mem_append_right _ (List.mem_singleton_self _)
  | advanced hphase =>
      cases Option.some.inj ((hmark _).symm.trans hnext)
      exact h.2 publish hpublish (by rw [hphase]; rfl)
  | @delivered disposition hphase =>
      cases Option.some.inj ((hmark _).symm.trans hnext)
      exact h.2 publish hpublish (by rw [hphase]; exact hpast)

theorem System.Keeps.step (h : s.Keeps i) (event : Event) (hkept : ¬ s.Loses i event) :
    (s.handle P event).Keeps i := by
  refine ⟨s.store_handle event h.1, ?_⟩
  intro next hnext hpast
  have hgrown := System.log_handle (P := P) s event
  cases event with
  | arrive root body =>
      change (s.publishes ++ [_])[i]? = some next at hnext
      rw [List.getElem?_append] at hnext
      split at hnext
      · exact h.2 next hnext hpast
      · obtain rfl := List.mem_singleton.mp (List.mem_of_getElem? hnext)
        cases hpast
  | crash =>
      change (s.publishes.map _)[i]? = some next at hnext
      rw [List.getElem?_map, Option.map_eq_some_iff] at hnext
      obtain ⟨publish, hpublish, rfl⟩ := hnext
      apply hgrown.subset
      obtain ⟨root, body, phase⟩ := publish
      cases phase with
      | delivered disposition => exact h.2 _ hpublish hpast
      | _ => cases hpast
  | advance j =>
      cases hother : s.publishes[j]? with
      | none =>
          rw [handle_advance_none hother] at hnext ⊢
          exact h.2 next hnext hpast
      | some other =>
          rw [handle_advance hother] at hnext hgrown ⊢
          by_cases hij : i = j
          · subst hij
            exact h.advance hother hkept hnext hpast
          · rw [getElem?_advance_ne hother hij] at hnext
            exact hgrown.subset (h.2 next hnext hpast)

end Keeping

/-- `first` loses its append and is told it advanced; `second` follows it, and
the process dies before a third publish. -/
def Sample.lossy : List Event :=
  .arrive root "first" :: List.replicate 7 (.advance 0) ++
    .arrive root "second" :: List.replicate 7 (.advance 1) ++ [.crash, .arrive root "uno"]

section Runs

variable {store : σ} {schedule : List Event}

theorem fenced_systemAt (hread : (readLog store).1.isOk)
    (hclimbs : (register P).Climbs (durableLog store))
    (hreopens : (concurrent P).Along System.Reopens (.openOver P store) schedule) :
    Lossy P (systemAt P store schedule) := by
  apply Machine.after_invariant (M := concurrent P) (P := System.Reopens)
  · intro s event hs hevent
    exact hs.step event hevent
  · exact Lossy.openOver hread hclimbs
  · exact hreopens

/-- Whatever appends are lost, in any interleaving and across any crash after
which the log is read: of each root the rows that became durable strictly
increase in generation, none is taken back, and a free lock finds no durable
row above the generation in the cache. -/
theorem durable_generations_climb (hread : (readLog store).1.isOk)
    (hclimbs : (register P).Climbs (durableLog store))
    (hreopens : (concurrent P).Along System.Reopens (.openOver P store) schedule) :
    durableLog store <+: (systemAt P store schedule).dir.log ∧
    (register P).Climbs (systemAt P store schedule).dir.log ∧
    ((systemAt P store schedule).holder = none →
      ∀ root, ∀ row ∈ rowsFor P (systemAt P store schedule).dir.log root,
        rowGeneration P row ≤
          ((systemAt P store schedule).dir.rootLog root).generation.toNat) := by
  have hfenced := fenced_systemAt (P := P) hread hclimbs hreopens
  refine ⟨?_, hfenced.climbs, ?_⟩
  · have hgrown := System.log_after (P := P) (.openOver P store) schedule
    have hstart : (.openOver P store : System Route Signature σ).dir.log = durableLog store :=
      BlindDirectory.log_openOver
    rwa [hstart] at hgrown
  · intro hfree root row hrow
    exact ((hfenced.climbs root).le_last hrow).trans (hfenced.free hfree root)

theorem durable_generations_climb_when_first_is_lost :
    let s := systemAt Sample.platform (Sample.store [] [] [true]) Sample.lossy
    s.dir.log = ["second"] ∧ (register Sample.platform).Climbs s.dir.log ∧
      ∀ root, ∀ row ∈ rowsFor Sample.platform s.dir.log root,
        rowGeneration Sample.platform row ≤ (s.dir.rootLog root).generation.toNat := by
  have hread : (readLog (Sample.store [] [] [true])).1.isOk := by decide +kernel
  have hreopens : (concurrent Sample.platform).Along System.Reopens
      (.openOver Sample.platform (Sample.store [] [] [true])) Sample.lossy := by decide +kernel
  have hclimb := durable_generations_climb hread Register.climbs_nil hreopens
  exact ⟨by decide +kernel, hclimb.2.1, hclimb.2.2 (by decide +kernel)⟩

/-- A publish that was told it advanced is durable, unless its own append was
the one that failed: no other request's failure, and no crash, takes it away. -/
theorem lost_only_by_own_append {i : Nat} {publish : Publish Route Signature}
    (hpublish : (systemAt P store schedule).publishes[i]? = some publish)
    (hanswer : publish.phase.disposition = some .advanced) :
    publish.body ∈ (systemAt P store schedule).dir.log ∨
      ∃ early rest, schedule = early ++ .advance i :: rest ∧
        (systemAt P store early).Loses i (.advance i) := by
  by_contra hnot
  rw [not_or] at hnot
  obtain ⟨habsent, hnever⟩ := hnot
  have hkeeps : (systemAt P store schedule).Keeps i := by
    apply Machine.after_invariant (M := concurrent P) (P := fun s event => ¬ s.Loses i event)
      (G := System.Keeps i)
    · intro s event hs hevent
      exact hs.step event hevent
    · exact ⟨rfl, nofun⟩
    · rw [Machine.along_iff_forall_cut]
      rintro early event rest rfl hloses
      obtain rfl := hloses.1
      exact hnever ⟨early, rest, rfl, hloses⟩
  refine habsent (hkeeps.2 publish hpublish ?_)
  cases hphase : publish.phase with
  | decided disposition | delivered disposition =>
      rw [hphase] at hanswer
      exact decide_eq_true (Option.some.inj hanswer)
  | _ =>
      rw [hphase] at hanswer
      cases hanswer

theorem lost_only_by_own_append_of_first :
    "first" ∈ (systemAt Sample.platform (Sample.store [] [] [true]) Sample.lossy).dir.log ∨
      ∃ early rest, Sample.lossy = early ++ .advance 0 :: rest ∧
        (systemAt Sample.platform (Sample.store [] [] [true]) early).Loses 0 (.advance 0) :=
  have hpublish : (systemAt Sample.platform (Sample.store [] [] [true])
      Sample.lossy).publishes[0]? = some ⟨Sample.root, "first", .delivered .advanced⟩ := by
    decide +kernel
  lost_only_by_own_append hpublish rfl

end Runs
end AccountDirectory
