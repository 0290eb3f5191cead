import AccountDirectory.Interleaving

/-! Where a publish takes effect. Whatever runs between its steps, a request
that gets an answer gets the register's verdict on the log it found when it
took the lock; left to itself from there it does what `admitPut` does. -/
namespace AccountDirectory
open Library

variable {Route Signature σ : Type} [Store σ] {P : Platform Route Signature}

/-- The system after a schedule that began by opening `store`. -/
def systemAt (P : Platform Route Signature) (store : σ) (schedule : List Event) :
    System Route Signature σ :=
  (concurrent P).after (.openOver P store) schedule

/-- A schedule over an empty store that serves it, of fewer than 2^64 - 1 requests. -/
structure CleanSchedule (P : Platform Route Signature) (store : σ) (schedule : List Event) :
    Prop where
  empty : durableLog store = []
  short : (sent schedule).length < 2 ^ 64 - 1
  serves : (concurrent P).Along System.StoreServes (.openOver P store) schedule

/-- The lock is free, and the request stands before it with its body checked. -/
def System.Ready (s : System Route Signature σ) (i : Nat) (root body : String) : Prop :=
  s.holder = none ∧ ∃ put, s.publishes[i]? = some ⟨root, body, .validated put⟩

section Runs

variable {store : σ} {schedule early : List Event} {publish : Publish Route Signature}

theorem systemAt_append (schedule further : List Event) :
    systemAt P store (schedule ++ further) =
      (concurrent P).after (systemAt P store schedule) further :=
  Machine.after_append ..

theorem CleanSchedule.initial (h : CleanSchedule P store schedule) (hearly : early <+: schedule) :
    CleanSchedule P store early := by
  have hshort := h.short
  have hlength : (sent early).length ≤ (sent schedule).length :=
    (hearly.filterMap _).length_le
  exact ⟨h.empty, by omega, h.serves.of_initial hearly⟩

/-- What one event may rest on, and does rest on all along a clean schedule. -/
def System.Clean (s : System Route Signature σ) (event : Event) : Prop :=
  s.publishes.length < 2 ^ 64 - 1 ∧ s.StoreServes event

theorem CleanSchedule.along (h : CleanSchedule P store schedule) :
    (concurrent P).Along System.Clean (.openOver P store) schedule :=
  (System.short_along h.short).and h.serves

theorem CleanSchedule.along_rest {rest : List Event}
    (h : CleanSchedule P store (early ++ rest)) :
    (concurrent P).Along System.Clean (systemAt P store early) rest :=
  ((Machine.along_append _ _ _ early rest).mp h.along).2

theorem CleanSchedule.coherent (h : CleanSchedule P store schedule) :
    Coherent P (systemAt P store schedule) := by
  apply Machine.after_invariant (M := concurrent P) (P := System.Clean)
  · intro s event hs hclean
    exact hs.step event hclean.1 hclean.2
  · exact Coherent.openOver h.empty
  · exact h.along

theorem System.body_mem_sent (schedule : List Event)
    (hmem : publish ∈ (systemAt P store schedule).publishes) :
    publish.body ∈ (sent schedule).map Prod.snd := by
  have hrequests := System.requests_after (P := P) (.openOver P store) schedule
  have hsent : (publish.root, publish.body) ∈ sent schedule := by
    have hpair := List.mem_map_of_mem (f := fun publish => (publish.root, publish.body)) hmem
    rw [systemAt, hrequests] at hpair
    exact hpair
  exact List.mem_map_of_mem hsent

theorem CleanSchedule.mem_log_sent (h : CleanSchedule P store schedule) :
    ∀ row ∈ (systemAt P store schedule).dir.log, row ∈ (sent schedule).map Prod.snd := by
  intro row hrow
  obtain ⟨publish, hmem, rfl⟩ := h.coherent.sent row hrow
  exact System.body_mem_sent schedule hmem

theorem CollisionFree.initial (h : CollisionFree P ((sent schedule).map Prod.snd))
    (hearly : early <+: schedule) : CollisionFree P ((sent early).map Prod.snd) :=
  h.subset fun _ hrow => ((hearly.filterMap _).map _).subset hrow

end Runs

namespace System

variable {s : System Route Signature σ} {i : Nat} {publish : Publish Route Signature}

theorem log_handle (s : System Route Signature σ) (event : Event) :
    s.dir.log <+: (s.handle P event).dir.log := by
  cases event with
  | arrive root body => exact List.prefix_refl _
  | crash =>
      have hlog : (s.handle P .crash).dir.log = s.dir.log := s.dir.log_restart
      rw [hlog]
  | advance i =>
      cases hpublish : s.publishes[i]? with
      | none => rw [handle_advance_none hpublish]
      | some publish =>
          rw [handle_advance hpublish]
          have hmove := move (P := P) s i publish
          generalize s.advance P i publish = next at hmove
          cases hmove with
          | appended hphase =>
              have hgrown : s.dir.log <+: (s.dir.appendBody publish.body).log := by
                rcases BlindDirectory.log_appendBody_cases s.dir publish.body with hsame | hadded
                · rw [hsame]
                · rw [hadded]
                  exact List.prefix_append ..
              exact hgrown
          | _ => exact List.prefix_refl _

theorem log_after (s : System Route Signature σ) (schedule : List Event) :
    s.dir.log <+: ((concurrent P).after s schedule).dir.log :=
  Machine.after_extends (M := concurrent P) (f := fun s => s.dir.log) log_handle s schedule

end System

/-- The request took the lock over `start`: its outcome is that of an offer to
that log, which no other request touches before the lock is released. -/
def Phase.Settles (P : Platform Route Signature) (start log : List String) (root body : String) :
    Phase Route Signature → Prop
  | .locked _ | .fresh _ | .cleared _ => log = start
  | .appended _ => log = start ++ [body]
  | .decided disposition | .delivered disposition =>
      disposition = .ofVerdict ((register P).verdict (rowsFor P start root) body) ∧
        ((register P).offer start root body).2 <+: log
  | .lost => True
  | _ => False

def System.Settles (P : Platform Route Signature) (s : System Route Signature σ) (i : Nat)
    (root body : String) (start : List String) : Prop :=
  ∃ phase, s.publishes[i]? = some ⟨root, body, phase⟩ ∧ phase.Settles P start s.dir.log root body

section Settling

variable {s : System Route Signature σ} {i j : Nat} {root body : String} {start : List String}
  {phase : Phase Route Signature}

theorem Phase.settles_decided {verdict : Verdict} {log : List String}
    (hverdict : (register P).verdict (rowsFor P start root) body = verdict)
    (hlog : log = if verdict = .advanced then start ++ [body] else start) :
    (Phase.decided (.ofVerdict verdict) : Phase Route Signature).Settles P start log root body := by
  subst hverdict
  exact ⟨rfl, hlog ▸ List.prefix_refl _⟩

theorem System.settles_mark {dir : BlindDirectory Route σ} {holder : Option Nat}
    (hpublish : s.publishes[i]? = some ⟨root, body, phase⟩) {next : Phase Route Signature}
    (hnext : next.Settles P start dir.log root body) :
    System.Settles P { s.mark i ⟨root, body, phase⟩ next with dir, holder } i root body start :=
  ⟨next, (System.getElem?_mark hpublish i).trans (if_pos rfl), hnext⟩

/-- An answered request was judged on the log it took the lock over. -/
theorem System.Settles.answer (h : s.Settles P i root body start)
    {publish : Publish Route Signature} {disposition : Disposition}
    (hpublish : s.publishes[i]? = some publish)
    (hanswer : publish.phase.disposition = some disposition) :
    publish.root = root ∧ publish.body = body ∧
      disposition = .ofVerdict ((register P).verdict (rowsFor P start root) body) ∧
      ((register P).offer start root body).2 <+: s.dir.log := by
  obtain ⟨phase, hnow, hsettles⟩ := h
  obtain rfl := Option.some.inj (hpublish.symm.trans hnow)
  cases phase with
  | decided _ | delivered _ =>
      cases hanswer
      exact ⟨rfl, rfl, hsettles⟩
  | _ => cases hanswer

/-- A request that holds the lock or is done with it stays settled through its
own steps. -/
theorem Coherent.settles_advance (h : Coherent P s) (hbound : s.publishes.length < 2 ^ 64 - 1)
    (hserves : s.StoreServes (.advance i))
    (hpublish : s.publishes[i]? = some ⟨root, body, phase⟩)
    (hsettles : phase.Settles P start s.dir.log root body) :
    System.Settles P (s.advance P i ⟨root, body, phase⟩) i root body start := by
  have hinside := h.inside_of_critical hpublish
  have hmove := move (P := P) s i ⟨root, body, phase⟩
  generalize s.advance P i ⟨root, body, phase⟩ = next at hmove
  cases hmove with
  | stays hphase => exact ⟨phase, hpublish, hsettles⟩
  | misread hphase | refused hphase | validated hphase | poisoned hphase | locked hphase =>
      rw [show phase = _ from hphase] at hsettles
      exact hsettles.elim
  | @recognised put hphase hseen =>
      obtain rfl : phase = .locked put := hphase
      obtain ⟨hput, htracks⟩ := hinside id
      obtain rfl : s.dir.log = start := hsettles
      have hroot : put.root = root := hput.root_eq
      rw [hroot, htracks.mem_digests, ← seen_iff] at hseen
      exact System.settles_mark hpublish
        (Phase.settles_decided (Register.verdict_known_iff.mpr hseen) rfl)
  | @fresh put hphase hnew =>
      obtain rfl : phase = .locked put := hphase
      exact System.settles_mark hpublish hsettles
  | @overflowed put hphase panic hnext =>
      obtain rfl : phase = .fresh put := hphase
      obtain ⟨next, hok, -⟩ :=
        h.addOne_generation hbound (List.prefix_refl _) (hinside id).2.1 put.root
      rw [hok] at hnext
      cases hnext
  | @conflicted put hphase next hnext hgen =>
      obtain rfl : phase = .fresh put := hphase
      obtain ⟨hput, htracks, hnew⟩ := hinside id
      obtain rfl : s.dir.log = start := hsettles
      have hroot : put.root = root := hput.root_eq
      obtain ⟨wanted, hok, hlength⟩ :=
        h.addOne_generation hbound (List.prefix_refl _) htracks put.root
      rw [hok] at hnext
      cases hnext
      refine System.settles_mark hpublish
        (Phase.settles_decided (Register.verdict_conflict_iff.mpr ⟨hnew, ?_⟩) rfl)
      intro hversion
      rw [hroot] at hlength
      exact hgen (UInt64.toNat_inj.mp (hput.rowGeneration.symm.trans (hversion.trans hlength.symm)))
  | @cleared put hphase hnext =>
      obtain rfl : phase = .fresh put := hphase
      exact System.settles_mark hpublish hsettles
  | @appended put hphase =>
      obtain rfl : phase = .cleared put := hphase
      obtain rfl : s.dir.log = start := hsettles
      refine System.settles_mark hpublish ?_
      change (s.dir.appendBody body).log = s.dir.log ++ [body]
      rw [BlindDirectory.log_appendBody (hserves _ hpublish ⟨put, rfl⟩), if_pos h.durable]
  | @advanced put hphase =>
      obtain rfl : phase = .appended put := hphase
      obtain ⟨hput, before, hlog, htracks, hverdict⟩ := hinside id
      have hstart : before = start := by
        have heq := hlog.symm.trans hsettles
        exact (List.append_inj' heq rfl).1
      subst hstart
      exact System.settles_mark hpublish (Phase.settles_decided hverdict hsettles)
  | @delivered disposition hphase =>
      obtain rfl : phase = .decided disposition := hphase
      exact System.settles_mark hpublish hsettles

/-- While a request is in the section no other one moves the log. -/
theorem Coherent.log_advance_other (h : Coherent P s) {publish other : Publish Route Signature}
    (hpublish : s.publishes[i]? = some publish) (hother : s.publishes[j]? = some other)
    (hcritical : ¬ publish.Outside P) (hne : j ≠ i) :
    (s.advance P j other).dir.log = s.dir.log := by
  have hholder := h.holder_of_critical hpublish hcritical
  have hmove := move (P := P) s j other
  generalize s.advance P j other = next at hmove
  cases hmove with
  | appended hphase =>
      have hj := h.holder_of_critical hother (by simp [Publish.Outside, hphase])
      exact absurd (Option.some.inj (hj.symm.trans hholder)) hne
  | _ => rfl

theorem Coherent.settles_step (h : Coherent P s) (event : Event) (hclean : s.Clean event)
    (hsettles : s.Settles P i root body start) :
    (s.handle P event).Settles P i root body start := by
  obtain ⟨phase, hpublish, hphase⟩ := hsettles
  cases event with
  | arrive other sent =>
      have hlt := (List.getElem?_eq_some_iff.mp hpublish).1
      exact ⟨phase, (List.getElem?_append_left hlt).trans hpublish, hphase⟩
  | crash =>
      have hlog : (s.handle P .crash).dir.log = s.dir.log := s.dir.log_restart
      refine ⟨phase.crash, by simp [System.handle, System.crash, hpublish], ?_⟩
      rw [hlog]
      cases phase with
      | delivered _ | refused _ | panicked _ => exact hphase
      | _ => trivial
  | advance j =>
      cases hother : s.publishes[j]? with
      | none =>
          rw [System.handle_advance_none hother]
          exact ⟨phase, hpublish, hphase⟩
      | some other =>
          rw [System.handle_advance hother]
          by_cases hij : j = i
          · subst hij
            obtain rfl : other = ⟨root, body, phase⟩ := Option.some.inj (hother.symm.trans hpublish)
            exact h.settles_advance hclean.1 hclean.2 hpublish hphase
          · refine ⟨phase, ?_, ?_⟩
            · rw [System.getElem?_advance_ne hother (Ne.symm hij), hpublish]
            · have hgrown : s.dir.log <+: (s.advance P j other).dir.log := by
                rw [← System.handle_advance hother]
                exact System.log_handle s (.advance j)
              have hsame := h.log_advance_other (i := i) (j := j) hpublish hother
              cases phase with
              | decided disposition => exact ⟨hphase.1, hphase.2.trans hgrown⟩
              | delivered disposition => exact ⟨hphase.1, hphase.2.trans hgrown⟩
              | locked put | fresh put | cleared put | appended put =>
                  rw [hsame id hij]
                  exact hphase
              | _ => exact hphase

theorem Coherent.settles_run {schedule : List Event} (h : Coherent P s)
    (hclean : (concurrent P).Along System.Clean s schedule)
    (hsettles : s.Settles P i root body start) :
    ((concurrent P).after s schedule).Settles P i root body start := by
  have hboth : Coherent P ((concurrent P).after s schedule) ∧
      ((concurrent P).after s schedule).Settles P i root body start := by
    apply Machine.after_invariant (M := concurrent P) (P := System.Clean)
      (G := fun s => Coherent P s ∧ s.Settles P i root body start)
    · intro s event hs hevent
      exact ⟨hs.1.step event hevent.1 hevent.2, hs.1.settles_step event hevent hs.2⟩
    · exact ⟨h, hsettles⟩
    · exact hclean
  exact hboth.2

/-- Taking the lock fixes the log the request will be judged by. -/
theorem Coherent.settles_of_ready (h : Coherent P s) (hready : s.Ready i root body) :
    (s.handle P (.advance i)).Settles P i root body s.dir.log := by
  obtain ⟨hholder, put, hpublish⟩ := hready
  rw [System.handle_advance hpublish]
  have hmove := move (P := P) s i ⟨root, body, .validated put⟩
  generalize s.advance P i ⟨root, body, .validated put⟩ = next at hmove
  cases hmove with
  | stays hphase =>
      rcases hphase with ⟨_, -, hheld⟩ | hended
      · exact absurd hholder hheld
      · cases hended
  | poisoned hphase hholder hlock =>
      rw [h.unpoisoned] at hlock
      cases hlock
  | locked hphase => exact System.settles_mark hpublish rfl
  | misread hphase | refused hphase | validated hphase | recognised hphase | fresh hphase
  | overflowed hphase | conflicted hphase | cleared hphase | appended hphase | advanced hphase
  | delivered hphase => cases hphase

/-- The request has had the lock, and was not cut off. -/
def Phase.entered : Phase Route Signature → Bool
  | .locked _ | .fresh _ | .cleared _ | .appended _ | .decided _ | .delivered _ => true
  | _ => false

def System.entered (s : System Route Signature σ) (i : Nat) : Bool :=
  s.publishes[i]?.elim false fun publish => publish.phase.entered

theorem Phase.entered_of_disposition {disposition : Disposition}
    (h : phase.disposition = some disposition) : phase.entered = true := by
  cases phase <;> simp_all [Phase.disposition, Phase.entered]

/-- Entering the section is the request's own step, and finds the lock free. -/
theorem System.ready_of_advance {publish : Publish Route Signature}
    (hpublish : s.publishes[i]? = some publish) (hbefore : publish.phase.entered = false)
    (hafter : (s.advance P i publish).entered i = true) : s.Ready i publish.root publish.body := by
  have hmark : ∀ {phase : Phase Route Signature} {dir : BlindDirectory Route σ}
      {holder : Option Nat}, System.entered { s.mark i publish phase with dir, holder } i =
        phase.entered := by
    intro phase dir holder
    exact congrArg (Option.elim · false _) ((getElem?_mark hpublish i).trans (if_pos rfl))
  have hmove := move (P := P) s i publish
  generalize s.advance P i publish = next at hmove hafter
  cases hmove with
  | stays hphase =>
      rw [entered, hpublish, Option.elim_some, hbefore] at hafter
      cases hafter
  | misread hphase | refused hphase | validated hphase | poisoned hphase =>
      cases hmark.symm.trans hafter
  | @locked put hphase hholder hlock =>
      refine ⟨hholder, put, ?_⟩
      rw [hpublish, ← hphase]
  | recognised hphase | fresh hphase | overflowed hphase | conflicted hphase | cleared hphase
  | appended hphase | advanced hphase | delivered hphase =>
      rw [hphase] at hbefore
      cases hbefore

theorem System.ready_of_entered {event : Event} (hbefore : s.entered i = false)
    (hafter : (s.handle P event).entered i = true) :
    event = .advance i ∧ ∃ publish, s.publishes[i]? = some publish ∧
      s.Ready i publish.root publish.body := by
  cases event with
  | arrive root body =>
      change Option.elim (s.publishes ++ [_])[i]? false _ = true at hafter
      rw [List.getElem?_append] at hafter
      split at hafter
      · cases hbefore.symm.trans hafter
      · cases hlast : [(⟨root, body, .received⟩ : Publish Route Signature)][i - s.publishes.length]? with
        | none =>
            rw [hlast] at hafter
            cases hafter
        | some publish =>
            obtain rfl := List.mem_singleton.mp (List.mem_of_getElem? hlast)
            rw [hlast] at hafter
            cases hafter
  | crash =>
      change Option.elim (s.publishes.map _)[i]? false _ = true at hafter
      rw [List.getElem?_map] at hafter
      unfold entered at hbefore
      cases hpublish : s.publishes[i]? with
      | none =>
          rw [hpublish] at hafter
          cases hafter
      | some publish =>
          rw [hpublish] at hafter hbefore
          obtain ⟨root, body, phase⟩ := publish
          cases phase with
          | delivered disposition => cases hbefore
          | _ => cases hafter
  | advance j =>
      cases hother : s.publishes[j]? with
      | none =>
          rw [handle_advance_none hother, hbefore] at hafter
          cases hafter
      | some other =>
          rw [handle_advance hother] at hafter
          by_cases hij : j = i
          · subst hij
            rw [entered, hother] at hbefore
            exact ⟨rfl, other, hother, ready_of_advance hother hbefore hafter⟩
          · have hsame := getElem?_advance_ne (P := P) hother (Ne.symm hij)
            rw [entered, hsame] at hafter
            cases hbefore.symm.trans hafter

theorem Coherent.acceptable_of_ready (h : Coherent P s) (hready : s.Ready i root body) :
    ∃ put, Acceptable P root body put := by
  obtain ⟨hholder, put, hpublish⟩ := hready
  exact ⟨put, h.outside i _ hpublish (by simp [hholder])⟩

end Settling

section Alone

variable {s : System Route Signature σ} {i : Nat} {root body : String}
  {put : SignedDirectoryPut Route Signature}

/-- Undisturbed from its lock to its release, a request does what `admitPut` does. -/
theorem System.alone (hholder : s.holder = none)
    (hpublish : s.publishes[i]? = some ⟨root, body, .validated put⟩) :
    ∃ n ≤ 5, (concurrent P).after s (List.replicate n (.advance i)) =
      ⟨(s.dir.admitPut P put body).2, none,
        s.publishes.set i ⟨root, body, .ofAdmission (s.dir.admitPut P put body).1⟩⟩ := by
  obtain ⟨dir, holder, publishes⟩ := s
  obtain rfl : holder = none := hholder
  obtain ⟨hlt, -⟩ := List.getElem?_eq_some_iff.mp hpublish
  dsimp only at hpublish hlt ⊢
  have hstep : ∀ (dir : BlindDirectory Route σ) (holder : Option Nat)
      (phase : Phase Route Signature),
      System.handle P ⟨dir, holder, publishes.set i ⟨root, body, phase⟩⟩ (.advance i) =
        System.advance P ⟨dir, holder, publishes.set i ⟨root, body, phase⟩⟩ i
          ⟨root, body, phase⟩ :=
    fun dir holder phase => handle_advance (List.getElem?_set_self hlt)
  have hadmission := admission (P := P) dir put body
  generalize dir.admitPut P put body = result at hadmission
  have hfirst := handle_advance (P := P) (s := ⟨dir, none, publishes⟩) hpublish
  cases hadmission with
  | poisoned hlock =>
      refine ⟨1, by omega, ?_⟩
      simp only [List.replicate, Machine.after_cons, Machine.after_nil, concurrent_step, hfirst]
      simp [advance, Mutex.lock, hlock, mark, Phase.ofAdmission]
  | recognised hlock hseen =>
      refine ⟨2, by omega, ?_⟩
      simp only [List.replicate, Machine.after_cons, Machine.after_nil, concurrent_step, hfirst]
      simp [advance, Mutex.lock, hlock, mark, Phase.ofAdmission, hstep, hseen]
  | overflowed hlock hnew hnext =>
      refine ⟨3, by omega, ?_⟩
      simp only [List.replicate, Machine.after_cons, Machine.after_nil, concurrent_step, hfirst]
      simp [advance, Mutex.lock, hlock, mark, Phase.ofAdmission, hstep, hnew, hnext]
  | refused hlock hnew hnext hgen =>
      refine ⟨3, by omega, ?_⟩
      simp only [List.replicate, Machine.after_cons, Machine.after_nil, concurrent_step, hfirst]
      simp [advance, Mutex.lock, hlock, mark, Phase.ofAdmission, hstep, hnew, hnext, hgen]
  | advanced hlock hnew hnext =>
      refine ⟨5, by omega, ?_⟩
      simp only [List.replicate, Machine.after_cons, Machine.after_nil, concurrent_step, hfirst]
      simp [advance, Mutex.lock, hlock, mark, Phase.ofAdmission, hstep, hnew, hnext,
        BlindDirectory.advance_eq]

theorem Coherent.follows (h : Coherent P s) (hfree : s.holder = none) :
    Follows P s.dir s.dir.log where
  unpoisoned := h.unpoisoned
  tracks := h.free hfree
  durable := fun _ hstore => (BlindDirectory.log_of_store hstore).symm
  sound := h.sound

/-- A request at the free lock, left to itself, delivers the register's verdict. -/
theorem Coherent.answered (h : Coherent P s) (hbound : s.publishes.length < 2 ^ 64 - 1)
    (hready : s.Ready i root body) :
    ∃ n ≤ 6, ((concurrent P).after s (List.replicate n (.advance i))).publishes[i]? =
      some ⟨root, body,
        .delivered (.ofVerdict ((register P).verdict (rowsFor P s.dir.log root) body))⟩ := by
  obtain ⟨hholder, put, hpublish⟩ := hready
  obtain ⟨hlt, -⟩ := List.getElem?_eq_some_iff.mp hpublish
  have hput : Acceptable P root body put := h.outside i _ hpublish (by simp [hholder])
  have hrows : s.dir.log.length + 1 < UInt64.size := by
    have hsize : UInt64.size = 2 ^ 64 := rfl
    have hsent := h.log_length_le
    omega
  obtain ⟨n, hn, halone⟩ := System.alone (P := P) hholder hpublish
  rw [(h.follows hholder).admitPut_eq hput hrows] at halone
  refine ⟨n + 1, by omega, ?_⟩
  rw [List.replicate_succ', Machine.after_append, halone, Machine.after_cons, concurrent_step,
    Machine.after_nil, System.handle_advance (List.getElem?_set_self hlt)]
  exact (System.getElem?_mark (List.getElem?_set_self hlt) i).trans (if_pos rfl)

end Alone

section Linearized

variable {store : σ} {schedule early rest : List Event} {i : Nat} {root body : String}
  {publish : Publish Route Signature} {disposition : Disposition}

theorem systemAt_cons (early rest : List Event) (event : Event) :
    systemAt P store (early ++ event :: rest) =
      (concurrent P).after ((systemAt P store early).handle P event) rest :=
  systemAt_append early (event :: rest)

/-- What a request that took the lock gets, it gets from the log it found then. -/
theorem CleanSchedule.settled (h : CleanSchedule P store (early ++ .advance i :: rest))
    (hready : (systemAt P store early).Ready i root body) :
    (systemAt P store (early ++ .advance i :: rest)).Settles P i root body
      (systemAt P store early).dir.log := by
  have hcoherent := (h.initial (List.prefix_append ..)).coherent
  have hclean := h.along_rest
  rw [systemAt_cons]
  exact (hcoherent.step _ hclean.1.1 hclean.1.2).settles_run hclean.2
    (hcoherent.settles_of_ready hready)

/-- Every request with an answer took the lock at some point of the schedule,
was judged on the log of that moment, and what it was told is in the log. -/
theorem CleanSchedule.linearized {later : List Event}
    (h : CleanSchedule P store (early ++ later))
    (hbefore : (systemAt P store early).entered i = false)
    (hpublish : (systemAt P store (early ++ later)).publishes[i]? = some publish)
    (hanswer : publish.phase.disposition = some disposition) :
    ∃ middle rest, later = middle ++ .advance i :: rest ∧
      (systemAt P store (early ++ middle)).Ready i publish.root publish.body ∧
      disposition = .ofVerdict ((register P).verdict
        (rowsFor P (systemAt P store (early ++ middle)).dir.log publish.root) publish.body) ∧
      ((register P).offer (systemAt P store (early ++ middle)).dir.log publish.root
        publish.body).2 <+: (systemAt P store (early ++ later)).dir.log := by
  have hentered : (systemAt P store (early ++ later)).entered i = true := by
    rw [System.entered, hpublish]
    exact Phase.entered_of_disposition hanswer
  rw [systemAt_append] at hentered
  have hchanged : ((concurrent P).after (systemAt P store early) later).entered i ≠
      (systemAt P store early).entered i := by
    rw [hentered, hbefore]
    decide
  obtain ⟨middle, event, rest, rfl, hcut, hchange⟩ :=
    Machine.exists_cut_of_ne (M := concurrent P) (f := (System.entered · i)) hchanged
  rw [← systemAt_append] at hcut hchange
  have hafter : ((systemAt P store (early ++ middle)).handle P event).entered i = true := by
    rw [← Bool.not_eq_false]
    exact fun heq => hchange (heq.trans (hcut.trans hbefore).symm)
  obtain ⟨rfl, other, hother, hready⟩ := System.ready_of_entered (hcut.trans hbefore) hafter
  rw [← List.append_assoc] at h hpublish ⊢
  obtain ⟨hroot, hbody, hjudged⟩ := (h.settled hready).answer hpublish hanswer
  rw [hroot, hbody]
  exact ⟨middle, rest, rfl, hready, hjudged⟩

/-- Only an accepted body is ever answered by `admit`, and it is judged on some
log the directory had. -/
theorem CleanSchedule.judged (h : CleanSchedule P store schedule)
    (hpublish : (systemAt P store schedule).publishes[i]? = some publish)
    (hanswer : publish.phase.disposition = some disposition) :
    ∃ log, (∃ put, Acceptable P publish.root publish.body put) ∧
      disposition = .ofVerdict ((register P).verdict (rowsFor P log publish.root) publish.body) ∧
      ((register P).offer log publish.root publish.body).2 <+:
        (systemAt P store schedule).dir.log := by
  have hwhole : CleanSchedule P store ([] ++ schedule) := h
  obtain ⟨middle, rest, rfl, hready, hjudged⟩ := hwhole.linearized rfl hpublish hanswer
  have hcoherent := (h.initial (List.prefix_append ..)).coherent
  exact ⟨_, hcoherent.acceptable_of_ready hready, hjudged⟩

end Linearized
end AccountDirectory
