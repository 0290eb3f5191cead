import AccountDirectory.ExactlyOnce

/-! Reads among publishes in flight. A `GET` checks its path without the lock,
waits for the lock, clones the latest publish of the root while it holds it,
and answers from the clone afterwards, so that publishes, other reads and a
crash may come between any two of these steps. -/
namespace AccountDirectory
open Library

variable {Route Signature σ : Type} (P : Platform Route Signature)

/-- Where a read stands. -/
inductive ReadPhase (Route : Type) where
  | asked
  /-- The path names an account root: the read stands before the lock. -/
  | gated
  /-- The lock is released again, the response not yet delivered. -/
  | cloned (latest : Option (Stored Route))
  | served (response : Response)
  | panicked (panic : Panic)
  | lost
deriving DecidableEq

structure Read (Route : Type) where
  root : String
  phase : ReadPhase Route
deriving DecidableEq

structure Traffic (Route Signature σ : Type) where
  system : System Route Signature σ
  reads : List (Read Route)

inductive TrafficEvent where
  | arrive (root body : String)
  | advance (i : Nat)
  | ask (root : String)
  | progress (j : Nat)
  | crash
deriving DecidableEq, Repr

/-- What an event is to the publishes. -/
def TrafficEvent.publishing : TrafficEvent → Option Event
  | .arrive root body => some (.arrive root body)
  | .advance i => some (.advance i)
  | .crash => some .crash
  | .ask _ | .progress _ => none

def publishing (traffic : List TrafficEvent) : List Event :=
  traffic.filterMap TrafficEvent.publishing

namespace ReadPhase

/-- What the client is told, or will be unless the process dies first. -/
def answer : ReadPhase Route → Option Response
  | .cloned latest => some (serve P latest)
  | .served response => some response
  | _ => none

def crash : ReadPhase Route → ReadPhase Route
  | .served response => .served response
  | .panicked panic => .panicked panic
  | _ => .lost

/-- The next step of `fetch`. While a publish holds the lock a read that needs
it stays where it is. -/
def progress (s : System Route Signature σ) (root : String) : ReadPhase Route → ReadPhase Route
  | .asked =>
      match isAccountRoot root with
      | .error panic => .panicked panic
      | .ok false => .served (text .notFound "not found")
      | .ok true => .gated
  | .gated =>
      match s.holder with
      | some _ => .gated
      | none =>
          match s.dir.get root with
          | .error panic => .panicked panic
          | .ok latest => .cloned latest
  | .cloned latest => .served (serve P latest)
  | phase => phase

end ReadPhase

namespace Traffic

def openOver [Store σ] (store : σ) : Traffic Route Signature σ := ⟨.openOver P store, []⟩

def handleReads (t : Traffic Route Signature σ) : TrafficEvent → List (Read Route)
  | .ask root => t.reads ++ [⟨root, .asked⟩]
  | .progress j =>
      t.reads.modify j fun read => { read with phase := read.phase.progress P t.system read.root }
  | .crash => t.reads.map fun read => { read with phase := read.phase.crash }
  | .arrive _ _ | .advance _ => t.reads

def handle [Store σ] (t : Traffic Route Signature σ) (event : TrafficEvent) :
    Traffic Route Signature σ where
  system := event.publishing.elim t.system (t.system.handle P)
  reads := t.handleReads P event

def answer (t : Traffic Route Signature σ) (j : Nat) : Option Response :=
  t.reads[j]?.bind fun read => read.phase.answer P

end Traffic

def traffic [Store σ] : Machine (Traffic Route Signature σ) TrafficEvent Unit where
  step t event := ((), t.handle P event)

variable [Store σ] {P}

@[simp] theorem traffic_step (t : Traffic Route Signature σ) (event : TrafficEvent) :
    ((traffic P).step t event).2 = t.handle P event := rfl

/-- What a client makes of a response: the generation of the publish it shows. -/
def shownGeneration (P : Platform Route Signature) (response : Response) : Option Nat :=
  if response.status = .ok ∨ response.status = .gone then
    (parseRow P response.body).map fun entry => entry.generation.toNat
  else none

/-- The traffic up to a moment, begun by opening `store`. -/
def trafficAt (P : Platform Route Signature) (store : σ) (events : List TrafficEvent) :
    Traffic Route Signature σ :=
  (traffic P).after (.openOver P store) events

section Publishing

variable {store : σ} {events early later : List TrafficEvent}

@[simp] theorem publishing_append (early later : List TrafficEvent) :
    publishing (early ++ later) = publishing early ++ publishing later :=
  List.filterMap_append

theorem trafficAt_append (early later : List TrafficEvent) :
    trafficAt P store (early ++ later) = (traffic P).after (trafficAt P store early) later :=
  Machine.after_append ..

theorem system_after (t : Traffic Route Signature σ) (events : List TrafficEvent) :
    ((traffic P).after t events).system = (concurrent P).after t.system (publishing events) := by
  induction events generalizing t with
  | nil => rfl
  | cons event rest ih =>
      rw [Machine.after_cons, traffic_step, ih]
      cases event <;> rfl

theorem system_trafficAt (events : List TrafficEvent) :
    (trafficAt P store events).system = systemAt P store (publishing events) :=
  system_after (P := P) (.openOver P store) events

/-- The publishes of the traffic make a clean schedule. -/
def CleanTraffic (P : Platform Route Signature) (store : σ) (events : List TrafficEvent) : Prop :=
  CleanSchedule P store (publishing events)

theorem CleanTraffic.initial (h : CleanTraffic P store (early ++ later)) :
    CleanTraffic P store early :=
  CleanSchedule.initial h (by rw [publishing_append]; exact List.prefix_append ..)

theorem CleanTraffic.coherent (h : CleanTraffic P store events) :
    Coherent P (trafficAt P store events).system := by
  rw [system_trafficAt]
  exact CleanSchedule.coherent h

def logThen (P : Platform Route Signature) (store : σ) (events : List TrafficEvent) : List String :=
  (trafficAt P store events).system.dir.log

theorem logThen_mono (early later : List TrafficEvent) :
    logThen P store early <+: logThen P store (early ++ later) := by
  unfold logThen
  rw [trafficAt_append, system_after]
  exact System.log_after ..

end Publishing

section Progress

variable {t : Traffic Route Signature σ} {j : Nat} {root : String} {phase : ReadPhase Route}
  {response : Response}

omit [Store σ] in
theorem getElem?_progress (j k : Nat) :
    (t.handleReads P (.progress j))[k]? = t.reads[k]?.map fun read =>
      if j = k then { read with phase := read.phase.progress P t.system read.root } else read := by
  unfold Traffic.handleReads
  rw [List.getElem?_modify]
  by_cases hjk : j = k
  · simp [hjk]
  · simp [hjk]

/-- A read that has its answer keeps it, or loses it to a crash. -/
def ReadPhase.Settled (P : Platform Route Signature) (response : Response)
    (phase : ReadPhase Route) : Prop :=
  phase.answer P = some response ∨ phase = .lost

omit [Store σ] in
theorem ReadPhase.Settled.crash (h : phase.Settled P response) :
    phase.crash.Settled P response := by
  rcases h with hanswer | rfl
  · cases phase with
    | served _ => exact .inl hanswer
    | cloned _ => exact .inr rfl
    | _ => cases hanswer
  · exact .inr rfl

omit [Store σ] in
theorem ReadPhase.Settled.progress (h : phase.Settled P response)
    (s : System Route Signature σ) : (phase.progress P s root).Settled P response := by
  rcases h with hanswer | rfl
  · cases phase with
    | served _ | cloned _ => exact .inl hanswer
    | _ => cases hanswer
  · exact .inr rfl

def Traffic.Settled (P : Platform Route Signature) (t : Traffic Route Signature σ) (j : Nat)
    (root : String) (response : Response) : Prop :=
  ∃ phase, t.reads[j]? = some ⟨root, phase⟩ ∧ phase.Settled P response

theorem Traffic.Settled.step (h : t.Settled P j root response) (event : TrafficEvent) :
    (t.handle P event).Settled P j root response := by
  obtain ⟨phase, hread, hphase⟩ := h
  cases event with
  | arrive | advance => exact ⟨phase, hread, hphase⟩
  | ask other =>
      have hlt := (List.getElem?_eq_some_iff.mp hread).1
      exact ⟨phase, (List.getElem?_append_left hlt).trans hread, hphase⟩
  | crash =>
      refine ⟨phase.crash, ?_, hphase.crash⟩
      change (t.reads.map _)[j]? = _
      rw [List.getElem?_map, hread]
      rfl
  | progress k =>
      by_cases hjk : k = j
      · refine ⟨phase.progress P t.system root, ?_, hphase.progress t.system⟩
        exact (getElem?_progress k j).trans (by rw [hread, Option.map_some, if_pos hjk])
      · refine ⟨phase, ?_, hphase⟩
        exact (getElem?_progress k j).trans (by rw [hread, Option.map_some, if_neg hjk])

theorem Traffic.Settled.run (h : t.Settled P j root response) (events : List TrafficEvent) :
    ((traffic P).after t events).Settled P j root response := by
  apply Machine.after_invariant (M := traffic P) (P := fun _ _ => True)
    (G := fun t => t.Settled P j root response)
  · exact fun t event ht _ => ht.step event
  · exact h
  · exact Machine.along_of_forall (fun _ _ => trivial) t events

omit [Store σ] in
theorem Traffic.Settled.answer (h : t.Settled P j root response) {other : Response}
    (hanswer : t.answer P j = some other) : other = response := by
  obtain ⟨phase, hread, hphase⟩ := h
  rw [Traffic.answer, hread, Option.bind_some] at hanswer
  rcases hphase with hsame | rfl
  · exact Option.some.inj (hanswer.symm.trans hsame)
  · cases hanswer

/-- Only a read of an account root gets as far as the lock. -/
def Traffic.Gated (t : Traffic Route Signature σ) : Prop :=
  ∀ read ∈ t.reads, read.phase = .gated → isAccountRoot read.root = .ok true

theorem Traffic.Gated.step (h : t.Gated) (event : TrafficEvent) : (t.handle P event).Gated := by
  intro read hmem hphase
  cases event with
  | arrive | advance => exact h read hmem hphase
  | ask root =>
      rcases List.mem_append.mp hmem with hold | hnew
      · exact h read hold hphase
      · rw [List.mem_singleton.mp hnew] at hphase
        cases hphase
  | crash =>
      obtain ⟨before, hbefore, rfl⟩ := List.mem_map.mp hmem
      obtain ⟨root, phase⟩ := before
      cases phase <;> cases hphase
  | progress j =>
      obtain ⟨k, hk⟩ := List.mem_iff_getElem?.mp hmem
      rw [Traffic.handle, getElem?_progress, Option.map_eq_some_iff] at hk
      obtain ⟨⟨root, phase⟩, hread, rfl⟩ := hk
      have hold := h _ (List.mem_of_getElem? hread)
      split at hphase
      · dsimp only at hphase hold
        rw [if_pos ‹_›]
        cases phase with
        | asked =>
            unfold ReadPhase.progress at hphase
            cases hpath : isAccountRoot root with
            | error panic =>
                rw [hpath] at hphase
                cases hphase
            | ok shaped =>
                rw [hpath] at hphase
                cases shaped with
                | false => cases hphase
                | true => rfl
        | gated => exact hold rfl
        | cloned _ | served _ | panicked _ | lost => cases hphase
      · rw [if_neg ‹_›]
        exact hold hphase

theorem gated_trafficAt {store : σ} (events : List TrafficEvent) :
    (trafficAt P store events).Gated := by
  apply Machine.after_invariant (M := traffic P) (P := fun _ _ => True) (G := Traffic.Gated)
  · exact fun t event ht _ => ht.step event
  · intro read hmem
    cases hmem
  · exact Machine.along_of_forall (fun _ _ => trivial) _ events

/-- A read gets its answer by its own step, from the log it finds there. -/
theorem Coherent.answered_by (h : Coherent P t.system) (hgated : t.Gated) {event : TrafficEvent}
    (hbefore : t.answer P j = none) (hafter : (t.handle P event).answer P j ≠ none) :
    event = .progress j ∧ ∃ root response, (t.handle P event).Settled P j root response ∧
      fetchLog P t.system.dir.log root = .ok response := by
  cases event with
  | arrive | advance => exact absurd hbefore hafter
  | ask other =>
      refine absurd ?_ hafter
      change (t.reads ++ [_])[j]?.bind _ = none
      rw [List.getElem?_append]
      split
      · exact hbefore
      · cases hlast : [(⟨other, .asked⟩ : Read Route)][j - t.reads.length]? with
        | none => rfl
        | some read =>
            obtain rfl := List.mem_singleton.mp (List.mem_of_getElem? hlast)
            rfl
  | crash =>
      refine absurd ?_ hafter
      change (t.reads.map _)[j]?.bind _ = none
      rw [List.getElem?_map]
      cases hread : t.reads[j]? with
      | none => rfl
      | some read =>
          rw [Traffic.answer, hread] at hbefore
          obtain ⟨root, phase⟩ := read
          cases phase with
          | served _ => cases hbefore
          | _ => rfl
  | progress k =>
      have hread' := getElem?_progress (P := P) (t := t) k j
      cases hread : t.reads[j]? with
      | none =>
          rw [hread] at hread'
          exact absurd (by rw [Traffic.answer]; exact hread' ▸ rfl) hafter
      | some read =>
          obtain ⟨root, phase⟩ := read
          rw [Traffic.answer, hread, Option.bind_some] at hbefore
          rw [hread, Option.map_some] at hread'
          by_cases hkj : k = j
          · subst hkj
            rw [if_pos rfl] at hread'
            refine ⟨rfl, root, ?_⟩
            have hnext : phase.progress P t.system root |>.answer P |>.isSome := by
              rw [Option.isSome_iff_ne_none]
              intro hnone
              apply hafter
              rw [Traffic.answer]
              exact hread' ▸ hnone
            obtain ⟨response, hresponse⟩ := Option.isSome_iff_exists.mp hnext
            refine ⟨response, ⟨_, hread', .inl hresponse⟩, ?_⟩
            clear hread' hafter hnext
            unfold fetchLog
            cases phase with
            | asked =>
                unfold ReadPhase.progress at hresponse
                cases hpath : isAccountRoot root with
                | error panic =>
                    rw [hpath] at hresponse
                    cases hresponse
                | ok shaped =>
                    rw [hpath] at hresponse
                    cases shaped with
                    | false =>
                        cases hresponse
                        rfl
                    | true => cases hresponse
            | gated =>
                rw [hgated _ (List.mem_of_getElem? hread) rfl]
                unfold ReadPhase.progress at hresponse
                cases hholder : t.system.holder with
                | some i =>
                    rw [hholder] at hresponse
                    cases hresponse
                | none =>
                    rw [hholder, (h.follows hholder).get] at hresponse
                    cases hresponse
                    rfl
            | cloned _ | served _ => cases hbefore
            | panicked _ | lost => cases hresponse
          · rw [if_neg hkj] at hread'
            refine absurd ?_ hafter
            rw [Traffic.answer]
            exact hread' ▸ hbefore

end Progress

section Shown

variable {log longer : List String} {root : String} {response response' : Response}

/-- The generation shown counts the rows of the root. -/
theorem Sound.shownGeneration_eq (h : Sound P log)
    (hfetch : fetchLog P log root = .ok response) {generation : Nat} :
    shownGeneration P response = some generation ↔
      (rowsFor P log root).length = generation ∧ 0 < generation := by
  cases hlast : (rowsFor P log root).getLast? with
  | none =>
      have hstatus : response.status = .notFound := by
        unfold fetchLog at hfetch
        rw [hlast] at hfetch
        split at hfetch <;> cases hfetch <;> rfl
      rw [List.getLast?_eq_none_iff.mp hlast, shownGeneration, if_neg (by simp [hstatus])]
      refine ⟨nofun, fun ⟨hzero, hpos⟩ => ?_⟩
      rw [List.length_nil] at hzero
      omega
  | some row =>
      obtain ⟨put, hput⟩ := h.acceptable_of_mem (List.mem_of_getLast? hlast)
      rw [fetchLog_of_last hput hlast, Except.ok.injEq] at hfetch
      subst hfetch
      have hversion := (h.gapless root).version_getLast hlast
      rw [hput.rowGeneration] at hversion
      have hpos := hput.positive
      rw [UInt64.lt_iff_toNat_lt] at hpos
      have hshown : shownGeneration P
          (signedJson (if P.isRetraction put.entry then .gone else .ok) row) =
            some put.entry.generation.toNat := by
        unfold shownGeneration signedJson
        rw [hput.parseRow, if_pos (by split <;> simp)]
        rfl
      rw [hshown, Option.some.injEq, hversion]
      constructor
      · rintro rfl
        exact ⟨rfl, hversion ▸ hpos⟩
      · exact fun ⟨heq, _⟩ => heq

/-- What a longer log shows is no older, and no other publish of the same age. -/
theorem Sound.shown_mono (h : Sound P longer) (hpre : log <+: longer)
    (hfetch : fetchLog P log root = .ok response)
    (hfetch' : fetchLog P longer root = .ok response') {generation : Nat}
    (hshown : shownGeneration P response = some generation) :
    ∃ generation', shownGeneration P response' = some generation' ∧ generation ≤ generation' ∧
      (generation' = generation → response' = response) := by
  obtain ⟨hlength, hpos⟩ := ((h.of_initial hpre).shownGeneration_eq hfetch).mp hshown
  have hrows : rowsFor P log root <+: rowsFor P longer root := history_mono hpre
  have hle := hrows.length_le
  refine ⟨(rowsFor P longer root).length, ?_, by omega, ?_⟩
  · exact (h.shownGeneration_eq hfetch').mpr ⟨rfl, by omega⟩
  · intro hsame
    have heq : rowsFor P log root = rowsFor P longer root :=
      hrows.eq_of_length (hlength.trans hsame.symm)
    have hlogs : fetchLog P log root = fetchLog P longer root := by
      unfold fetchLog
      rw [heq]
    exact Except.ok.inj (hfetch'.symm.trans (hlogs.symm.trans hfetch))

end Shown

/-- A read asked while a publish holds the lock, and one asked after the crash
that cuts the publish off between its append and its answer. -/
def Sample.readTraffic : List TrafficEvent :=
  [.arrive root "first", .advance 0, .advance 0, .advance 0, .advance 0, .ask root, .progress 0,
    .advance 0, .progress 0, .crash, .ask root, .progress 1, .progress 1, .progress 1]

def Sample.laterTraffic : List TrafficEvent :=
  [.arrive root "second", .advance 1, .advance 1, .advance 1, .advance 1, .advance 1, .advance 1,
    .ask root, .progress 2, .progress 2, .progress 2]

theorem Sample.clean_traffic :
    CleanTraffic Sample.platform (Sample.store [] [] [])
      (Sample.readTraffic ++ Sample.laterTraffic) :=
  ⟨rfl, by decide, by decide +kernel⟩

section Moments

variable {store : σ} {early later events : List TrafficEvent} {i j k : Nat} {root body : String}
  {response response' : Response} {publish : Publish Route Signature}

omit [Store σ] in
theorem Traffic.answer_none {t : Traffic Route Signature σ} (h : t.reads.length ≤ j) :
    t.answer P j = none := by
  rw [Traffic.answer, List.getElem?_eq_none h]
  rfl

/-- A read is answered from the durable log of a moment after it was asked. -/
theorem CleanTraffic.answered (h : CleanTraffic P store (early ++ later))
    (hbefore : (trafficAt P store early).answer P j = none)
    (hserved : (trafficAt P store (early ++ later)).reads[j]? = some ⟨root, .served response⟩) :
    ∃ middle rest, later = middle ++ .progress j :: rest ∧
      fetchLog P (logThen P store (early ++ middle)) root = .ok response := by
  have hanswer : (trafficAt P store (early ++ later)).answer P j = some response := by
    rw [Traffic.answer, hserved]
    rfl
  have hchanged : ((traffic P).after (trafficAt P store early) later).answer P j ≠
      (trafficAt P store early).answer P j := by
    rw [← trafficAt_append, hanswer, hbefore]
    nofun
  obtain ⟨middle, event, rest, rfl, hcut, hchange⟩ :=
    Machine.exists_cut_of_ne (M := traffic P) (f := (Traffic.answer P · j)) hchanged
  rw [← trafficAt_append] at hcut hchange
  have hnone := hcut.trans hbefore
  rw [← List.append_assoc] at h hserved hanswer
  obtain ⟨rfl, root', response', hsettled, hfetch⟩ :=
    h.initial.coherent.answered_by (gated_trafficAt _) hnone (hnone ▸ hchange)
  have hend := hsettled.run rest
  rw [← traffic_step, ← Machine.after_cons, ← trafficAt_append] at hend
  obtain rfl := hend.answer hanswer
  obtain ⟨phase, hread, -⟩ := hend
  cases hserved.symm.trans hread
  exact ⟨middle, rest, rfl, hfetch⟩

/-- A read that was answered by now shows the log of some moment up to now. -/
theorem CleanTraffic.shows_past (h : CleanTraffic P store early)
    (hserved : (trafficAt P store early).reads[j]? = some ⟨root, .served response⟩) :
    ∃ log, log <+: logThen P store early ∧ fetchLog P log root = .ok response := by
  have hwhole : CleanTraffic P store ([] ++ early) := h
  obtain ⟨middle, rest, rfl, hfetch⟩ := hwhole.answered rfl hserved
  exact ⟨_, logThen_mono middle _, hfetch⟩

/-- A read that was asked after now shows the log of now, or a longer one. -/
theorem CleanTraffic.shows_later (h : CleanTraffic P store (early ++ later))
    (hasked : (trafficAt P store early).reads.length ≤ k)
    (hserved : (trafficAt P store (early ++ later)).reads[k]? = some ⟨root, .served response⟩) :
    ∃ log, logThen P store early <+: log ∧ Sound P log ∧ fetchLog P log root = .ok response := by
  obtain ⟨middle, rest, rfl, hfetch⟩ := h.answered (Traffic.answer_none hasked) hserved
  rw [← List.append_assoc] at h
  exact ⟨_, logThen_mono early middle, h.initial.coherent.sound, hfetch⟩

theorem CleanTraffic.sound (h : CleanTraffic P store events) : Sound P (logThen P store events) :=
  h.coherent.sound

/-- Every answered read is a read of the durable log at some moment between its
being asked and its answer: no read sees a publish that a crash could still undo. -/
theorem reads_linearizable (h : CleanTraffic P store events) :
    ∀ (early later : List TrafficEvent) (j : Nat) (root : String) (response : Response),
      events = early ++ later →
      (trafficAt P store early).reads.length ≤ j →
      (trafficAt P store events).reads[j]? = some ⟨root, .served response⟩ →
        ∃ middle rest, later = middle ++ .progress j :: rest ∧
          fetchLog P (logThen P store (early ++ middle)) root = .ok response := by
  rintro early later j root response rfl hasked hserved
  exact h.answered (Traffic.answer_none hasked) hserved

theorem reads_linearizable_after_crash :
    ∃ middle rest, [TrafficEvent.ask Sample.root, .progress 1, .progress 1, .progress 1] =
        middle ++ .progress 1 :: rest ∧
      fetchLog Sample.platform (logThen Sample.platform (Sample.store [] [] [])
        (Sample.readTraffic.take 10 ++ middle)) Sample.root = .ok (signedJson .ok "first") :=
  reads_linearizable Sample.clean_traffic.initial (Sample.readTraffic.take 10) _ 1 Sample.root
    (signedJson .ok "first") rfl (by decide +kernel) (by decide +kernel)

/-- Of two reads of a root, the second asked after the first was answered, the
second shows nothing older, and at the same generation the same response. -/
theorem reads_monotonic (h : CleanTraffic P store events) :
    ∀ (early later : List TrafficEvent) (j k : Nat) (root : String)
      (response response' : Response), events = early ++ later →
      (trafficAt P store early).reads[j]? = some ⟨root, .served response⟩ →
      (trafficAt P store early).reads.length ≤ k →
      (trafficAt P store events).reads[k]? = some ⟨root, .served response'⟩ →
        ∀ generation, shownGeneration P response = some generation →
          ∃ generation', shownGeneration P response' = some generation' ∧
            generation ≤ generation' ∧ (generation' = generation → response' = response) := by
  rintro early later j k root response response' rfl hfirst hasked hsecond generation hshown
  obtain ⟨past, hpast, hfetch⟩ := h.initial.shows_past hfirst
  obtain ⟨log, hlog, hsound, hfetch'⟩ := h.shows_later hasked hsecond
  exact hsound.shown_mono (hpast.trans hlog) hfetch hfetch' hshown

theorem reads_monotonic_across_crash :
    ∃ generation, shownGeneration Sample.platform (signedJson .ok "second") = some generation ∧
      1 ≤ generation ∧ (generation = 1 → signedJson .ok "second" = signedJson .ok "first") :=
  reads_monotonic Sample.clean_traffic Sample.readTraffic Sample.laterTraffic 1 2 Sample.root _ _
    rfl (by decide +kernel) (by decide +kernel) (by decide +kernel) 1 (by decide +kernel)

/-- A publish that was answered `204` is behind every later read of its root. -/
theorem CleanTraffic.reads_publish (h : CleanTraffic P store (early ++ later))
    (hcollision : CollisionFree P ((sent (publishing (early ++ later))).map Prod.snd))
    (hpublish : (trafficAt P store early).system.publishes[i]? = some publish)
    {disposition : Disposition} (hanswer : publish.phase.disposition = some disposition)
    (hstatus : disposition.response.status = .noContent)
    (hasked : (trafficAt P store early).reads.length ≤ k)
    (hserved : (trafficAt P store (early ++ later)).reads[k]? =
      some ⟨publish.root, .served response⟩) :
    ∃ generation, shownGeneration P response = some generation ∧
      rowGeneration P publish.body ≤ generation := by
  have hinitial : publishing early <+: publishing (early ++ later) := by
    rw [publishing_append]
    exact List.prefix_append ..
  obtain ⟨log, hlog, hsound, hfetch⟩ := h.shows_later hasked hserved
  rw [system_trafficAt] at hpublish
  have hmem := CleanSchedule.mem_log_of_noContent h.initial (hcollision.initial hinitial) hpublish
    hanswer hstatus
  obtain ⟨_, ⟨put, hput⟩, -, -⟩ := CleanSchedule.judged h.initial hpublish hanswer
  rw [← system_trafficAt] at hmem
  have hrow : publish.body ∈ rowsFor P log publish.root :=
    mem_history.mpr ⟨hlog.subset hmem, hput.rowRoot⟩
  have hbounds := (hsound.gapless publish.root).version_bounds hrow
  refine ⟨_, (hsound.shownGeneration_eq hfetch).mpr ⟨rfl, ?_⟩, hbounds.2⟩
  exact List.length_pos_of_mem hrow

/-- A publish that arrives after a read and advances, advances past what the
read showed. -/
theorem CleanTraffic.publishes_read (h : CleanTraffic P store (early ++ later))
    (hserved : (trafficAt P store early).reads[j]? = some ⟨publish.root, .served response⟩)
    {generation : Nat} (hshown : shownGeneration P response = some generation)
    (harrived : (trafficAt P store early).system.publishes.length ≤ i)
    (hpublish : (trafficAt P store (early ++ later)).system.publishes[i]? = some publish)
    (hanswer : publish.phase.disposition = some .advanced) :
    generation < rowGeneration P publish.body := by
  obtain ⟨past, hpast, hfetch⟩ := h.initial.shows_past hserved
  obtain ⟨hlength, -⟩ := ((h.initial.sound.of_initial hpast).shownGeneration_eq hfetch).mp hshown
  have hnone : (systemAt P store (publishing early)).entered i = false := by
    rw [← system_trafficAt, System.entered, List.getElem?_eq_none harrived]
    rfl
  unfold CleanTraffic at h
  rw [system_trafficAt, publishing_append] at hpublish
  rw [publishing_append] at h
  obtain ⟨middle, rest, -, -, hverdict, -⟩ := h.linearized hnone hpublish hanswer
  have hgrown : logThen P store early <+:
      (systemAt P store (publishing early ++ middle)).dir.log := by
    rw [logThen, system_trafficAt, systemAt_append]
    exact System.log_after ..
  have hnext := (Register.verdict_advanced_iff.mp
    (Disposition.ofVerdict_injective hverdict.symm)).2
  change rowGeneration P publish.body = _ at hnext
  have hrows : rowsFor P past publish.root <+: rowsFor P _ publish.root :=
    history_mono (hpast.trans hgrown)
  have hle := hrows.length_le
  omega

/-- Reads and publishes keep to the order in which a client sees them: after a
`204` no read of the root shows an older generation than the one published, and
after a read no publish that arrives advances to the generation shown or below. -/
theorem reads_ordered_with_publishes (h : CleanTraffic P store events)
    (hcollision : CollisionFree P ((sent (publishing events)).map Prod.snd)) :
    (∀ (early later : List TrafficEvent) (i k : Nat) (publish : Publish Route Signature)
      (disposition : Disposition) (response : Response), events = early ++ later →
      (trafficAt P store early).system.publishes[i]? = some publish →
      publish.phase.disposition = some disposition →
      disposition.response.status = .noContent →
      (trafficAt P store early).reads.length ≤ k →
      (trafficAt P store events).reads[k]? = some ⟨publish.root, .served response⟩ →
        ∃ generation, shownGeneration P response = some generation ∧
          rowGeneration P publish.body ≤ generation) ∧
    (∀ (early later : List TrafficEvent) (i j : Nat) (publish : Publish Route Signature)
      (response : Response) (generation : Nat), events = early ++ later →
      (trafficAt P store early).reads[j]? = some ⟨publish.root, .served response⟩ →
      shownGeneration P response = some generation →
      (trafficAt P store early).system.publishes.length ≤ i →
      (trafficAt P store events).system.publishes[i]? = some publish →
      publish.phase.disposition = some .advanced →
        generation < rowGeneration P publish.body) := by
  constructor
  · rintro early later i k publish disposition response rfl hpublish hanswer hstatus hasked
      hserved
    exact h.reads_publish hcollision hpublish hanswer hstatus hasked hserved
  · rintro early later i j publish response generation rfl hserved hshown harrived hpublish hanswer
    exact h.publishes_read hserved hshown harrived hpublish hanswer

theorem reads_ordered_with_second_publish :
    (∃ generation, shownGeneration Sample.platform (signedJson .ok "second") = some generation ∧
      rowGeneration Sample.platform "second" ≤ generation) ∧
    1 < rowGeneration Sample.platform "second" := by
  have hordered := reads_ordered_with_publishes Sample.clean_traffic (by decide +kernel)
  constructor
  · exact hordered.1 (Sample.readTraffic ++ Sample.laterTraffic.take 7)
      (Sample.laterTraffic.drop 7) 1 2 ⟨Sample.root, "second", .decided .advanced⟩ .advanced _ rfl
      (by decide +kernel) rfl rfl (by decide +kernel) (by decide +kernel)
  · exact hordered.2 Sample.readTraffic Sample.laterTraffic 1 1
      ⟨Sample.root, "second", .decided .advanced⟩ (signedJson .ok "first") 1 rfl
      (by decide +kernel) (by decide +kernel) (by decide +kernel) (by decide +kernel) rfl

end Moments
end AccountDirectory
