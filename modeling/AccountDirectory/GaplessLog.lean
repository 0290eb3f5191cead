import AccountDirectory.Library.Slots
import AccountDirectory.Linearization

/-! Concurrent publishing without a crash. The rows of the log are the bodies of
the advanced requests, one row for each, so no generation of a root is ever
given out twice; and the first request to take the lock with the next
generation is the one that gets it. -/
namespace AccountDirectory
open Library

variable {Route Signature σ : Type} [Store σ] {P : Platform Route Signature}

/-- The request has added its row to the log. -/
def Phase.credited : Phase Route Signature → Bool
  | .appended _ => true
  | .decided disposition | .delivered disposition => disposition = .advanced
  | _ => false

/-- Every row is the body of one advanced request, and no request was lost. -/
structure Accounted (s : System Route Signature σ) : Prop where
  credit : ((s.publishes.filter (·.phase.credited)).map (·.body)).Perm s.dir.log
  alive : ∀ publish ∈ s.publishes, publish.phase ≠ .lost

namespace Accounted

variable {s : System Route Signature σ} {i : Nat} {publish : Publish Route Signature}
  {phase : Phase Route Signature}

theorem openOver {store : σ} (h : durableLog store = []) :
    Accounted (.openOver P store : System Route Signature σ) where
  credit := by
    have hlog : (System.openOver P store : System Route Signature σ).dir.log = [] :=
      (BlindDirectory.log_openOver).trans h
    rw [hlog]
    rfl
  alive := by simp [System.openOver]

theorem alive_mark (h : Accounted s) (hphase : phase ≠ .lost) :
    ∀ other ∈ (s.mark i publish phase).publishes, other.phase ≠ .lost := by
  intro other hmem
  rcases List.mem_or_eq_of_mem_set hmem with hold | rfl
  · exact h.alive other hold
  · exact hphase

/-- A move that adds no row and ends in a phase of the same credit. -/
theorem mark (h : Accounted s) (hpublish : s.publishes[i]? = some publish)
    (hcredit : phase.credited = publish.phase.credited) (hphase : phase ≠ .lost)
    {dir : BlindDirectory Route σ} {holder : Option Nat} (hlog : dir.log = s.dir.log) :
    Accounted { s.mark i publish phase with dir, holder } where
  credit := by
    change ((List.filter _ (s.publishes.set i _)).map _).Perm dir.log
    rw [hlog, map_filter_set_of_eq (b := { publish with phase }) hpublish hcredit rfl]
    exact h.credit
  alive := h.alive_mark hphase

theorem advance (h : Accounted s) (hdurable : s.dir.store.isSome)
    (hpublish : s.publishes[i]? = some publish) (hserves : s.StoreServes (.advance i)) :
    Accounted (s.advance P i publish) := by
  have hmove := move (P := P) s i publish
  generalize s.advance P i publish = next at hmove
  cases hmove with
  | stays hphase => exact h
  | appended hphase =>
      have hlog : (s.dir.appendBody publish.body).log = s.dir.log ++ [publish.body] := by
        rw [BlindDirectory.log_appendBody (hserves publish hpublish ⟨_, hphase⟩), if_pos hdurable]
      refine ⟨?_, h.alive_mark (by simp)⟩
      change ((List.filter _ (s.publishes.set i _)).map _).Perm (s.dir.appendBody publish.body).log
      rw [hlog]
      have hold : publish.phase.credited = false := by rw [hphase]; rfl
      exact (map_filter_set_perm hpublish hold rfl).trans (h.credit.append_right _)
  | misread hphase | refused hphase | validated hphase | poisoned hphase | locked hphase
  | recognised hphase | fresh hphase | overflowed hphase | conflicted hphase | cleared hphase
  | advanced hphase | delivered hphase =>
      exact h.mark hpublish (by rw [hphase]; rfl) (by simp) rfl

theorem step (h : Accounted s) (hcoherent : Coherent P s) {event : Event}
    (hserves : s.StoreServes event) (hcrash : event ≠ .crash) :
    Accounted (s.handle P event) := by
  cases event with
  | crash => exact absurd rfl hcrash
  | arrive root body =>
      refine ⟨?_, ?_⟩
      · change ((List.filter _ (s.publishes ++ [_])).map _).Perm s.dir.log
        rw [List.filter_append, List.map_append]
        simpa [Phase.credited] using h.credit
      · intro publish hmem
        rcases List.mem_append.mp hmem with hold | hnew
        · exact h.alive publish hold
        · rw [List.mem_singleton.mp hnew]
          simp
  | advance i =>
      cases hpublish : s.publishes[i]? with
      | none =>
          rw [System.handle_advance_none hpublish]
          exact h
      | some publish =>
          rw [System.handle_advance hpublish]
          exact h.advance hcoherent.durable hpublish hserves

end Accounted

section Schedules

variable {store : σ} {schedule : List Event} {i j : Nat} {root : String}
  {publish other : Publish Route Signature}

theorem CleanSchedule.accounted (h : CleanSchedule P store schedule) (hcrash : .crash ∉ schedule) :
    Accounted (systemAt P store schedule) := by
  have hboth : Coherent P (systemAt P store schedule) ∧ Accounted (systemAt P store schedule) := by
    apply Machine.after_invariant (M := concurrent P)
      (G := fun s => Coherent P s ∧ Accounted s)
      (P := fun s event => s.Clean event ∧ event ≠ .crash)
    · intro s event hs hclean
      exact ⟨hs.1.step event hclean.1.1 hclean.1.2, hs.2.step hs.1 hclean.1.2 hclean.2⟩
    · exact ⟨Coherent.openOver h.empty, Accounted.openOver h.empty⟩
    · apply h.along.and
      apply Machine.along_of_mem (Q := (· ≠ Event.crash))
      intro event hmem heq
      exact hcrash (heq ▸ hmem)
  exact hboth.2

theorem Phase.credited_of_advanced {phase : Phase Route Signature}
    (h : phase.disposition = some .advanced) : phase.credited = true := by
  cases phase with
  | decided disposition | delivered disposition =>
      cases h
      rfl
  | _ => cases h

/-- With the lock free, the credited requests are the advanced ones. -/
theorem Coherent.credited_iff {s : System Route Signature σ} (h : Coherent P s)
    (hfree : s.holder = none) (hmem : publish ∈ s.publishes) :
    publish.phase.credited = true ↔ publish.phase.disposition = some .advanced := by
  refine ⟨fun hcredited => ?_, Phase.credited_of_advanced⟩
  obtain ⟨i, hi⟩ := List.mem_iff_getElem?.mp hmem
  have houtside := h.outside i publish hi (by simp [hfree])
  unfold Publish.Outside at houtside
  cases hphase : publish.phase with
  | appended put => simp [hphase] at houtside
  | decided disposition | delivered disposition =>
      rw [hphase] at hcredited
      simpa [Phase.credited, Phase.disposition] using hcredited
  | _ =>
      rw [hphase] at hcredited
      cases hcredited

/-- The rows of a root are as many as its advanced requests. -/
theorem CleanSchedule.length_rowsFor (h : CleanSchedule P store schedule)
    (hcrash : .crash ∉ schedule) (hfree : (systemAt P store schedule).holder = none) :
    (rowsFor P (systemAt P store schedule).dir.log root).length =
      (systemAt P store schedule).publishes.countP fun publish =>
        publish.root = root ∧ publish.phase.disposition = some .advanced := by
  have hcredit := (h.accounted hcrash).credit
  rw [rowsFor, history, ← List.countP_eq_length_filter, ← hcredit.countP_eq, List.countP_map,
    List.countP_filter]
  apply List.countP_congr
  intro publish hmem
  simp only [Function.comp_apply, Bool.and_eq_true, decide_eq_true_eq,
    h.coherent.credited_iff hfree hmem]
  apply and_congr_left
  intro hadvanced
  obtain ⟨i, hi⟩ := List.mem_iff_getElem?.mp hmem
  obtain ⟨-, ⟨put, hput⟩, -⟩ := h.judged hi hadvanced
  rw [hput.rowRoot, Option.some.injEq]

/-- No two requests are advanced with the same generation of a root. -/
theorem CleanSchedule.advanced_unique (h : CleanSchedule P store schedule)
    (hcrash : .crash ∉ schedule)
    (hi : (systemAt P store schedule).publishes[i]? = some publish)
    (hj : (systemAt P store schedule).publishes[j]? = some other)
    (hpublish : publish.phase.disposition = some .advanced)
    (hother : other.phase.disposition = some .advanced) (hroot : publish.root = other.root)
    (hgeneration : rowGeneration P publish.body = rowGeneration P other.body) : i = j := by
  have hcredit := (h.accounted hcrash).credit
  have hlog : ∀ {publish : Publish Route Signature},
      publish ∈ (systemAt P store schedule).publishes →
      publish.phase.disposition = some .advanced →
      publish.body ∈ (systemAt P store schedule).dir.log := by
    intro publish hmem hadvanced
    apply hcredit.subset
    exact List.mem_map_of_mem (List.mem_filter.mpr ⟨hmem, Phase.credited_of_advanced hadvanced⟩)
  obtain ⟨-, ⟨put, hput⟩, -⟩ := h.judged hi hpublish
  obtain ⟨-, ⟨put', hput'⟩, -⟩ := h.judged hj hother
  have hbody : publish.body = other.body :=
    h.coherent.sound.orderly.eq_of_version (hlog (List.mem_of_getElem? hi) hpublish)
      (hlog (List.mem_of_getElem? hj) hother) hput.rowRoot (hroot ▸ hput'.rowRoot) hgeneration
  exact eq_of_nodup_map_filter (hcredit.nodup_iff.mpr h.coherent.sound.nodup) hi hj
    (Phase.credited_of_advanced hpublish) (Phase.credited_of_advanced hother) hbody

end Schedules

/-- A body with the next generation of its root, first in line for the lock. -/
structure FirstInLine (P : Platform Route Signature) (s : System Route Signature σ) (i : Nat)
    (root body : String) : Prop where
  ready : s.Ready i root body
  next : rowGeneration P body = (s.dir.rootLog root).generation.toNat + 1

section Race

variable {store : σ} {early rest : List Event} {i j : Nat} {root body : String}
  {publish : Publish Route Signature} {disposition : Disposition}

/-- A row has one of the generations up to the root's, so the body is none of them. -/
theorem CleanSchedule.verdict_of_first (h : CleanSchedule P store early)
    (hcollision : CollisionFree P ((sent early).map Prod.snd))
    (hfirst : FirstInLine P (systemAt P store early) i root body) :
    (register P).verdict (rowsFor P (systemAt P store early).dir.log root) body = .advanced := by
  obtain ⟨put, hput⟩ := h.coherent.acceptable_of_ready hfirst.ready
  obtain ⟨_, hwaiting⟩ := hfirst.ready.2
  have hnext : (register P).version body = _ + 1 := hfirst.next
  rw [(h.coherent.follows hfirst.ready.1).generation] at hnext
  have hsent : body ∈ (sent early).map Prod.snd :=
    System.body_mem_sent early (List.mem_of_getElem? hwaiting)
  refine Register.verdict_advanced_iff.mpr ⟨?_, hnext⟩
  rw [← Bool.not_eq_true, seen_iff_mem hcollision h.mem_log_sent hsent hput]
  intro hmem
  have hbounds := (h.coherent.sound.gapless root).version_bounds
    (mem_history.mpr ⟨hmem, hput.rowRoot⟩)
  change rowGeneration P body = _ at hnext
  omega

/-- Whoever takes the lock after the winner finds the winner's row. -/
theorem CleanSchedule.row_of_winner (h : CleanSchedule P store (early ++ .advance i :: rest))
    (hcrash : .crash ∉ early ++ .advance i :: rest)
    (hready : (systemAt P store early).Ready i root body)
    (hverdict : (register P).verdict (rowsFor P (systemAt P store early).dir.log root) body =
      .advanced)
    (hfree : (systemAt P store (early ++ .advance i :: rest)).holder = none) :
    (systemAt P store early).dir.log ++ [body] <+:
      (systemAt P store (early ++ .advance i :: rest)).dir.log := by
  obtain ⟨phase, hpublish, hsettles⟩ := h.settled hready
  have houtside := h.coherent.outside i _ hpublish (by simp [hfree])
  have halive := (h.accounted hcrash).alive _ (List.mem_of_getElem? hpublish)
  cases phase with
  | decided _ | delivered _ =>
      have hrow := hsettles.2
      rwa [Register.offer_advanced hverdict] at hrow
  | lost => exact absurd rfl halive
  | locked _ | fresh _ | cleared _ | appended _ => exact houtside.elim
  | _ => exact hsettles.elim

/-- Once a body is in the log, another of its root and generation is too late:
it is that body, byte for byte, or in conflict with it. -/
theorem Sound.verdict_of_row {log : List String} {late : String}
    {put : SignedDirectoryPut Route Signature} (h : Sound P log)
    (hrow : body ∈ rowsFor P log root) (hput : Acceptable P root late put)
    (hseen : (register P).seen late (rowsFor P log root) = true ↔ late ∈ log)
    (hgeneration : rowGeneration P late = rowGeneration P body) :
    (register P).verdict (rowsFor P log root) late = if late = body then .known else .conflict := by
  obtain ⟨hmem, hroot⟩ := mem_history.mp hrow
  split
  · rename_i hsame
    exact Register.verdict_known_iff.mpr (hseen.mpr (hsame ▸ hmem))
  · rename_i hne
    have hbounds := (h.gapless root).version_bounds hrow
    refine (h.conflict_iff hput hseen (by omega)).mpr ⟨?_, body, hrow, Ne.symm hne, hgeneration.symm⟩
    intro hlate
    exact hne (h.orderly.eq_of_version hlate hmem hput.rowRoot hroot hgeneration)

/-- The others in the race are recognised, if they sent the winner's body, or
told of a conflict. -/
theorem CleanSchedule.overtaken (h : CleanSchedule P store (early ++ .advance i :: rest))
    (hcrash : .crash ∉ early ++ .advance i :: rest)
    (hcollision : CollisionFree P ((sent (early ++ .advance i :: rest)).map Prod.snd))
    (hfirst : FirstInLine P (systemAt P store early) i root body) (hne : j ≠ i)
    (hwaiting : (systemAt P store early).entered j = false)
    (hpublish : (systemAt P store (early ++ .advance i :: rest)).publishes[j]? = some publish)
    (hanswer : publish.phase.disposition = some disposition) (hroot : publish.root = root)
    (hgeneration : rowGeneration P publish.body = rowGeneration P body) :
    disposition = if publish.body = body then .idempotent else .conflict := by
  obtain ⟨middle, rest', hcut, hready, hjudged, -⟩ := h.linearized hwaiting hpublish hanswer
  subst hroot
  cases middle with
  | nil =>
      obtain ⟨hsame, -⟩ := List.cons.inj hcut
      cases hsame
      exact absurd rfl hne
  | cons event middle =>
      obtain ⟨rfl, hmiddle⟩ := List.cons.inj hcut
      have hinitial : early ++ .advance i :: middle <+: early ++ .advance i :: rest := by
        rw [hmiddle]
        exact ⟨.advance j :: rest', by simp⟩
      have hearly : CleanSchedule P store early := h.initial (List.prefix_append ..)
      have hlater := h.initial hinitial
      have hverdict := hearly.verdict_of_first (hcollision.initial (List.prefix_append ..)) hfirst
      have hwinner := hlater.row_of_winner (fun hmem => hcrash (hinitial.subset hmem)) hfirst.ready
        hverdict hready.1
      obtain ⟨put, hput⟩ := hearly.coherent.acceptable_of_ready hfirst.ready
      obtain ⟨put', hput'⟩ := hlater.coherent.acceptable_of_ready hready
      obtain ⟨_, hlate⟩ := hready.2
      have hseen := seen_iff_mem (hcollision.initial hinitial) hlater.mem_log_sent
        (System.body_mem_sent _ (List.mem_of_getElem? hlate)) hput'
      have hrow : body ∈ rowsFor P (systemAt P store (early ++ .advance i :: middle)).dir.log
          publish.root :=
        mem_history.mpr ⟨hwinner.subset (by simp), hput.rowRoot⟩
      rw [hjudged, hlater.coherent.sound.verdict_of_row hrow hput' hseen hgeneration]
      split <;> rfl

end Race

/-- The rows of `root`, its entry in the cache and its admissions tell the same story. -/
structure GaplessFor (P : Platform Route Signature) (s : System Route Signature σ)
    (root : String) : Prop where
  generations : (rowsFor P s.dir.log root).map (rowGeneration P) =
    List.range' 1 (s.dir.rootLog root).generation.toNat
  admissions : (s.dir.rootLog root).generation.toNat = s.publishes.countP fun publish =>
    publish.root = root ∧ publish.phase.disposition = some .advanced
  latest : (s.dir.rootLog root).latest = (rowsFor P s.dir.log root).getLast?.bind (storedRow P)
  digests : (s.dir.rootLog root).digests = ((rowsFor P s.dir.log root).map (digest P)).toFinset

/-- How a race that `i` entered first, in the system `early`, stands in the system `late`. -/
structure RaceWon (P : Platform Route Signature) (early late : System Route Signature σ) (i : Nat)
    (root body : String) : Prop where
  answered : ∃ n ≤ 6, ((concurrent P).after early (List.replicate n (.advance i))).publishes[i]? =
    some ⟨root, body, .delivered .advanced⟩
  winner : ∀ publish ∈ late.publishes[i]?, ∀ disposition ∈ publish.phase.disposition,
    disposition = .advanced
  others : ∀ j ≠ i, early.entered j = false → ∀ publish ∈ late.publishes[j]?,
    publish.root = root → rowGeneration P publish.body = rowGeneration P body →
    ∀ disposition ∈ publish.phase.disposition,
      disposition = if publish.body = body then .idempotent else .conflict

section Main

variable {store : σ} {schedule : List Event}

theorem CleanSchedule.gaplessFor (h : CleanSchedule P store schedule) (hcrash : .crash ∉ schedule)
    (hfree : (systemAt P store schedule).holder = none) (root : String) :
    GaplessFor P (systemAt P store schedule) root := by
  have hfollows := h.coherent.follows hfree
  have hgeneration := hfollows.generation root
  exact {
    generations := hgeneration ▸ h.coherent.sound.gapless root
    admissions := hgeneration.trans (h.length_rowsFor hcrash hfree)
    latest := hfollows.tracks.latest root
    digests := by rw [hfollows.tracks root, digests_rowsFor] }

theorem CleanSchedule.raceWon {early rest : List Event} {i : Nat} {root body : String}
    (h : CleanSchedule P store (early ++ .advance i :: rest))
    (hcrash : .crash ∉ early ++ .advance i :: rest)
    (hcollision : CollisionFree P ((sent (early ++ .advance i :: rest)).map Prod.snd))
    (hfirst : FirstInLine P (systemAt P store early) i root body) :
    RaceWon P (systemAt P store early) (systemAt P store (early ++ .advance i :: rest)) i
      root body := by
  have hearly : CleanSchedule P store early := h.initial (List.prefix_append ..)
  have hverdict := hearly.verdict_of_first (hcollision.initial (List.prefix_append ..)) hfirst
  have hanswered := hearly.coherent.answered h.along_rest.1.1 hfirst.ready
  rw [hverdict] at hanswered
  refine ⟨hanswered, ?_, ?_⟩
  · intro publish hpublish disposition hanswer
    rw [((h.settled hfirst.ready).answer hpublish hanswer).2.2.1, hverdict]
    rfl
  · intro j hne hwaiting publish hpublish hroot hgeneration disposition hanswer
    exact h.overtaken hcrash hcollision hfirst hne hwaiting hpublish hanswer hroot hgeneration

/-- Any number of publishes, interleaved in any way: with the lock free every
root's rows carry the generations 1, 2, ..., n, where n is its generation in the
cache and the number of its advanced publishes; no generation is advanced to
twice; and of those with the next generation the first in line is the one that
advances, the others being recognised as it or in conflict with it. -/
theorem gapless_log (h : CleanSchedule P store schedule) (hcrash : .crash ∉ schedule) :
    ((systemAt P store schedule).holder = none →
      ∀ root, GaplessFor P (systemAt P store schedule) root) ∧
    (∀ (i j : Nat) (publish other : Publish Route Signature),
      (systemAt P store schedule).publishes[i]? = some publish →
      (systemAt P store schedule).publishes[j]? = some other →
      publish.phase.disposition = some .advanced → other.phase.disposition = some .advanced →
      publish.root = other.root →
      rowGeneration P publish.body = rowGeneration P other.body → i = j) ∧
    (CollisionFree P ((sent schedule).map Prod.snd) →
      ∀ early rest i root body, schedule = early ++ .advance i :: rest →
      FirstInLine P (systemAt P store early) i root body →
      RaceWon P (systemAt P store early) (systemAt P store schedule) i root body) := by
  refine ⟨h.gaplessFor hcrash, ?_, ?_⟩
  · intro i j publish other hi hj hpublish hother hroot hgeneration
    exact h.advanced_unique hcrash hi hj hpublish hother hroot hgeneration
  · rintro hcollision early rest i root body rfl hfirst
    exact h.raceWon hcrash hcollision hfirst

end Main

/-- One generation published, and three publishes of the next one checked before
any has the lock; the last sends the body of the first again. -/
def Sample.checked : List Event :=
  .arrive root "first" :: List.replicate 7 (.advance 0) ++
    [.arrive root "second", .arrive root "dos", .arrive root "second", .advance 1, .advance 2,
      .advance 3]

/-- The first of them has taken the lock; the others wait for it. -/
def Sample.raced : List Event :=
  [.advance 2, .advance 3, .advance 1, .advance 1, .advance 2, .advance 1, .advance 1] ++
    List.replicate 4 (.advance 2) ++ List.replicate 3 (.advance 3)

theorem gapless_log_of_race :
    let early := systemAt Sample.platform (Sample.store [] [] []) Sample.checked
    let late := systemAt Sample.platform (Sample.store [] [] [])
      (Sample.checked ++ .advance 1 :: Sample.raced)
    late.dir.log = ["first", "second"] ∧ GaplessFor Sample.platform late Sample.root ∧
      RaceWon Sample.platform early late 1 Sample.root "second" ∧
      late.publishes.map (·.phase.disposition) =
        [some .advanced, some .advanced, some .conflict, some .idempotent] := by
  have hclean : CleanSchedule Sample.platform (Sample.store [] [] [])
      (Sample.checked ++ .advance 1 :: Sample.raced) :=
    ⟨rfl, by decide, by decide +kernel⟩
  have hcrash : Event.crash ∉ Sample.checked ++ .advance 1 :: Sample.raced := by decide
  have hlog := gapless_log hclean hcrash
  have hfirst : FirstInLine Sample.platform
      (systemAt Sample.platform (Sample.store [] [] []) Sample.checked) 1 Sample.root "second" :=
    ⟨⟨by decide +kernel, ⟨Sample.entry 2 "02" false, true⟩, by decide +kernel⟩, by decide +kernel⟩
  exact ⟨by decide +kernel, hlog.1 (by decide +kernel) _,
    hlog.2.2 (by decide +kernel) _ _ _ _ _ rfl hfirst, by decide +kernel⟩

end AccountDirectory
