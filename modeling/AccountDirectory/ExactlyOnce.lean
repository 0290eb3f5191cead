import AccountDirectory.Linearization

/-! Publishing across crashes. The process may die between any two steps of any
request and be opened again over its store; a client that missed its answer
sends the body again. No body enters the log twice, and what the second attempt
is told says whether the first one got there. -/
namespace AccountDirectory
open Library

variable {Route Signature σ : Type} [Store σ] {P : Platform Route Signature}

/-- The request has passed the generation check. -/
def Phase.pastFence : Phase Route Signature → Bool
  | .cleared _ | .appended _ => true
  | .decided disposition | .delivered disposition => disposition = .advanced
  | _ => false

/-- A body sent again, once its request `j` stands in `s` at the free lock: what
it is told, alone or among the others that lead to the system `late`. -/
structure Resent (P : Platform Route Signature) (s late : System Route Signature σ) (j : Nat)
    (root body : String) (disposition : Disposition) : Prop where
  answered : ∃ n ≤ 6, ((concurrent P).after s (List.replicate n (.advance j))).publishes[j]? =
    some ⟨root, body, .delivered disposition⟩
  kept : ∀ publish ∈ late.publishes[j]?, ∀ told ∈ publish.phase.disposition, told = disposition
  noContent_iff : disposition.response.status = .noContent ↔
    body ∈ s.dir.log ∨ rowGeneration P body = (s.dir.rootLog root).generation.toNat + 1
  conflict_iff : disposition.response.status = .conflict ↔
    body ∉ s.dir.log ∧ ∃ row ∈ rowsFor P s.dir.log root, row ≠ body ∧
      rowGeneration P row = rowGeneration P body

section Schedules

variable {store : σ} {schedule early : List Event} {i : Nat} {root body : String}
  {publish : Publish Route Signature} {disposition : Disposition} {phase : Phase Route Signature}

/-- A body past the fence asked for no more than the next generation of its
root, and never asks for more again. -/
theorem CleanSchedule.within_reach (h : CleanSchedule P store early)
    (hpublish : (systemAt P store early).publishes[i]? = some ⟨root, body, phase⟩)
    (hpast : phase.pastFence = true) :
    rowGeneration P body ≤ (rowsFor P (systemAt P store early).dir.log root).length + 1 := by
  have hreach : ∀ {log : List String}, log <+: (systemAt P store early).dir.log →
      (register P).verdict (rowsFor P log root) body = .advanced →
      rowGeneration P body ≤ (rowsFor P (systemAt P store early).dir.log root).length + 1 := by
    intro log hinitial hverdict
    have hrows : rowsFor P log root <+: rowsFor P (systemAt P store early).dir.log root :=
      history_mono hinitial
    have hlength := hrows.length_le
    have hnext : rowGeneration P body = _ := (Register.verdict_advanced_iff.mp hverdict).2
    omega
  have hinside := h.coherent.inside_of_critical hpublish
  have hjudged : phase.disposition = some .advanced →
      rowGeneration P body ≤ (rowsFor P (systemAt P store early).dir.log root).length + 1 := by
    intro hanswer
    obtain ⟨log, -, hverdict, hgrown⟩ := h.judged hpublish hanswer
    exact hreach (((register P).offer_extends _ root body).trans hgrown)
      (Disposition.ofVerdict_injective hverdict.symm)
  cases phase with
  | cleared put =>
      obtain ⟨-, -, hverdict⟩ := hinside id
      exact hreach (List.prefix_refl _) hverdict
  | appended put =>
      obtain ⟨-, before, hlog, -, hverdict⟩ := hinside id
      exact hreach ⟨[body], hlog.symm⟩ hverdict
  | decided disposition | delivered disposition =>
      simp only [Phase.pastFence, decide_eq_true_eq] at hpast
      exact hjudged (congrArg some hpast)
  | _ => cases hpast

/-- Whatever was answered `204` is in the log. -/
theorem CleanSchedule.mem_log_of_noContent (h : CleanSchedule P store schedule)
    (hcollision : CollisionFree P ((sent schedule).map Prod.snd))
    (hpublish : (systemAt P store schedule).publishes[i]? = some publish)
    (hanswer : publish.phase.disposition = some disposition)
    (hstatus : disposition.response.status = .noContent) :
    publish.body ∈ (systemAt P store schedule).dir.log := by
  obtain ⟨log, ⟨put, hput⟩, hverdict, hgrown⟩ := h.judged hpublish hanswer
  cases hjudged : (register P).verdict (rowsFor P log publish.root) publish.body with
  | advanced =>
      rw [Register.offer_advanced hjudged] at hgrown
      exact hgrown.subset (by simp)
  | known =>
      rw [Register.offer_eq_of_verdict hjudged (by decide)] at hgrown
      apply hgrown.subset
      rw [← seen_iff_mem hcollision (fun row hrow => h.mem_log_sent row (hgrown.subset hrow))
        (System.body_mem_sent schedule (List.mem_of_getElem? hpublish)) hput]
      exact Register.verdict_known_iff.mp hjudged
  | conflict =>
      rw [hjudged] at hverdict
      subst hverdict
      cases hstatus

theorem Disposition.noContent_iff :
    disposition.response.status = .noContent ↔ disposition ≠ .conflict := by
  cases disposition <;> simp [Disposition.response, text]

theorem Disposition.conflict_iff :
    disposition.response.status = .conflict ↔ disposition = .conflict := by
  cases disposition <;> simp [Disposition.response, text]

/-- A body once past the fence, sent again and at the lock again. -/
theorem CleanSchedule.resent {middle rest : List Event} {j : Nat}
    (h : CleanSchedule P store (early ++ middle ++ .advance j :: rest))
    (hcollision : CollisionFree P ((sent (early ++ middle ++ .advance j :: rest)).map Prod.snd))
    (hpublish : (systemAt P store early).publishes[i]? = some ⟨root, body, phase⟩)
    (hpast : phase.pastFence = true)
    (hready : (systemAt P store (early ++ middle)).Ready j root body) :
    Resent P (systemAt P store (early ++ middle))
      (systemAt P store (early ++ middle ++ .advance j :: rest)) j root body
      (.ofVerdict ((register P).verdict
        (rowsFor P (systemAt P store (early ++ middle)).dir.log root) body)) := by
  have hclean := h.initial (List.prefix_append ..)
  have hcoherent := hclean.coherent
  have hfollows := hcoherent.follows hready.1
  obtain ⟨put, hput⟩ := hcoherent.acceptable_of_ready hready
  obtain ⟨_, hwaiting⟩ := hready.2
  have hgrown : (systemAt P store early).dir.log <+:
      (systemAt P store (early ++ middle)).dir.log := by
    rw [systemAt_append]
    exact System.log_after _ middle
  have hrows : (rowsFor P (systemAt P store early).dir.log root).length ≤
      (rowsFor P (systemAt P store (early ++ middle)).dir.log root).length :=
    (history_mono hgrown).length_le
  have hreach := (hclean.initial (List.prefix_append ..)).within_reach hpublish hpast
  have hseen := seen_iff_mem (hcollision.initial (List.prefix_append ..)) hclean.mem_log_sent
    (System.body_mem_sent _ (List.mem_of_getElem? hwaiting)) hput
  have hconflict := hcoherent.sound.conflict_iff hput hseen (by omega)
  have hanswered := hcoherent.answered h.along_rest.1.1 hready
  have hsettled := h.settled hready
  have hgeneration := hfollows.generation root
  generalize systemAt P store (early ++ middle) = s at *
  have hadvances : (register P).verdict (rowsFor P s.dir.log root) body ≠ .conflict ↔
      body ∈ s.dir.log ∨ rowGeneration P body = (s.dir.rootLog root).generation.toNat + 1 := by
    have hversion : (register P).version body = rowGeneration P body := rfl
    rw [ne_eq, Register.verdict_conflict_iff, ← Bool.not_eq_true, hseen, hversion, hgeneration]
    tauto
  have hrefused : Disposition.ofVerdict ((register P).verdict (rowsFor P s.dir.log root) body) =
      .conflict ↔ (register P).verdict (rowsFor P s.dir.log root) body = .conflict :=
    Disposition.ofVerdict_injective.eq_iff (b := .conflict)
  exact {
    answered := hanswered
    kept := by
      intro publish hpublish told htold
      exact (hsettled.answer hpublish htold).2.2.1
    noContent_iff := by rw [Disposition.noContent_iff, ne_eq, hrefused, ← hadvances]
    conflict_iff := by rw [Disposition.conflict_iff, hrefused, hconflict] }

/-- Crashes and retries in any order: no body is in the log twice, a body once
answered `204` is there exactly once, and a body past the fence that is sent
again is answered `204` if it got there or is still next, and `409` exactly when
another body of its generation got there instead. -/
theorem exactly_once (h : CleanSchedule P store schedule)
    (hcollision : CollisionFree P ((sent schedule).map Prod.snd)) :
    (systemAt P store schedule).dir.log.Nodup ∧
    (∀ publish ∈ (systemAt P store schedule).publishes,
      ∀ disposition ∈ publish.phase.disposition, disposition.response.status = .noContent →
      (systemAt P store schedule).dir.log.count publish.body = 1) ∧
    ∀ (early middle rest : List Event) (i j : Nat) (root body : String)
      (phase : Phase Route Signature), schedule = early ++ middle ++ .advance j :: rest →
      (systemAt P store early).publishes[i]? = some ⟨root, body, phase⟩ →
      phase.pastFence = true → (systemAt P store (early ++ middle)).Ready j root body →
      ∃ disposition, Resent P (systemAt P store (early ++ middle)) (systemAt P store schedule) j
        root body disposition := by
  have hnodup := h.coherent.sound.nodup
  refine ⟨hnodup, ?_, ?_⟩
  · intro publish hmem disposition hanswer hstatus
    obtain ⟨i, hi⟩ := List.mem_iff_getElem?.mp hmem
    exact List.count_eq_one_of_mem hnodup (h.mem_log_of_noContent hcollision hi hanswer hstatus)
  · rintro early middle rest i j root body phase rfl hpublish hpast hready
    exact ⟨_, h.resent hcollision hpublish hpast hready⟩

end Schedules

/-- A publish that was appended when the process died, and was sent again. -/
def Sample.interrupted : List Event :=
  [.arrive root "first", .advance 0, .advance 0, .advance 0, .advance 0, .advance 0]

def Sample.resent : List Event := [.crash, .arrive root "first", .advance 1]

theorem exactly_once_after_crash :
    let s := systemAt Sample.platform (Sample.store [] [] []) (Sample.interrupted ++ Sample.resent)
    let late := systemAt Sample.platform (Sample.store [] [] [])
      (Sample.interrupted ++ Sample.resent ++ .advance 1 :: [.advance 1, .advance 1])
    late.dir.log.Nodup ∧ late.dir.log.count "first" = 1 ∧
      ∃ disposition, Resent Sample.platform s late 1 Sample.root "first" disposition := by
  have hclean : CleanSchedule Sample.platform (Sample.store [] [] [])
      (Sample.interrupted ++ Sample.resent ++ .advance 1 :: [.advance 1, .advance 1]) :=
    ⟨rfl, by decide, by decide +kernel⟩
  have honce := exactly_once hclean (by decide +kernel)
  have hready : (systemAt Sample.platform (Sample.store [] [] [])
      (Sample.interrupted ++ Sample.resent)).Ready 1 Sample.root "first" :=
    ⟨by decide +kernel, ⟨Sample.entry 1 "01" false, true⟩, by decide +kernel⟩
  refine ⟨honce.1, ?_, ?_⟩
  · exact honce.2.1 ⟨Sample.root, "first", .delivered .idempotent⟩ (by decide +kernel) .idempotent
      rfl rfl
  · exact honce.2.2 Sample.interrupted Sample.resent _ 0 1 Sample.root "first"
      (.appended ⟨Sample.entry 1 "01" false, true⟩) rfl (by decide +kernel) rfl hready

end AccountDirectory
