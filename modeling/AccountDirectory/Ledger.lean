import AccountDirectory.Restart
import AccountDirectory.Library.Register

/-! What the service is for, with nothing cached: one log of signed puts, read
through a register keyed by root and versioned by generation. While its store
serves it, a directory begun empty is this ledger, request by request and
across restarts. -/
namespace AccountDirectory
open Library

variable {Route Signature σ : Type} (P : Platform Route Signature)

def rowGeneration (row : String) : Nat :=
  (parseRow P row).elim 0 fun entry => entry.generation.toNat

/-- The generation of the last of `rows`, 0 where there are none. -/
def lastGeneration (rows : List String) : Nat := rows.getLast?.elim 0 (rowGeneration P)

/-- A body is recognised by its digest among the digests of its root's rows. -/
def register : Register String String where
  key := rowRoot P
  version := rowGeneration P
  seen body held := digest P body ∈ held.map (digest P)

def Disposition.ofVerdict : Verdict → Disposition
  | .advanced => .advanced
  | .known => .idempotent
  | .conflict => .conflict

/-- `fetch` on a log: the last row of the root. -/
def fetchLog (log : List String) (root : String) : Except Panic Response :=
  match isAccountRoot root with
  | .error panic => .error panic
  | .ok false => .ok (text .notFound "not found")
  | .ok true => .ok (serve P ((rowsFor P log root).getLast?.bind (storedRow P)))

/-- `publish` on a log: what is refused leaves no trace. -/
def publishLog (log : List String) (root body : String) : Except Panic Response × List String :=
  match validate P root body with
  | .error panic => (.error panic, log)
  | .ok (.error refusal) => (.ok refusal, log)
  | .ok (.ok _) =>
      let (verdict, log) := (register P).offer log root body
      (.ok (Disposition.ofVerdict verdict).response, log)

def ledger : Machine (List String) Step Answer where
  step log
    | .request (.put root body) =>
        let (result, log) := publishLog P log root body
        (.ofResult result, log)
    | .request (.get root) => (.ofResult (fetchLog P log root), log)
    | .restart => (.restarted, log)

/-- A log the service itself could have written: every row passes every check
of `publish`, and every root's generations are 1, 2, ..., n. -/
structure Sound (log : List String) : Prop where
  acceptable : ∀ row ∈ log, ∃ root put, Acceptable P root row put
  orderly : (register P).Orderly log

/-- `log` accounts for everything the directory holds. -/
structure Follows (dir : BlindDirectory Route σ) [Store σ] (log : List String) : Prop where
  unpoisoned : dir.roots.poisoned = false
  tracks : dir.Tracks P log
  durable : ∀ store ∈ dir.store, durableLog store = log
  sound : Sound P log

variable {P} {log : List String} {root body row : String}
  {put : SignedDirectoryPut Route Signature}

theorem Disposition.ofVerdict_injective : Function.Injective Disposition.ofVerdict := by
  intro left right h
  cases left <;> cases right <;> first | rfl | cases h

theorem Acceptable.rowRoot (h : Acceptable P root body put) : rowRoot P body = some root := by
  simp [AccountDirectory.rowRoot, h.parseRow, h.root_eq]

theorem Acceptable.rowGeneration (h : Acceptable P root body put) :
    rowGeneration P body = put.entry.generation.toNat := by
  simp [AccountDirectory.rowGeneration, h.parseRow]

theorem sound_nil : Sound P [] := ⟨by simp, Register.orderly_nil⟩

theorem Sound.concat (h : Sound P log) (hput : Acceptable P root body put)
    (hnext : put.entry.generation.toNat = (rowsFor P log root).length + 1) :
    Sound P (log ++ [body]) := by
  refine ⟨fun row hrow => ?_, h.orderly.concat hput.rowRoot (hput.rowGeneration.trans hnext)⟩
  rcases List.mem_append.mp hrow with hold | hnew
  · exact h.acceptable row hold
  · exact ⟨root, put, by rwa [List.mem_singleton.mp hnew]⟩

theorem Sound.of_advanced (h : Sound P log) (hput : Acceptable P root body put)
    (hverdict : (register P).verdict (rowsFor P log root) body = .advanced) :
    Sound P (log ++ [body]) :=
  h.concat hput (hput.rowGeneration.symm.trans (Register.verdict_advanced_iff.mp hverdict).2)

theorem Sound.of_initial {longer : List String} (h : Sound P longer) (hpre : log <+: longer) :
    Sound P log :=
  ⟨fun row hrow => h.acceptable row (hpre.subset hrow), h.orderly.of_initial hpre⟩

theorem Sound.gapless (h : Sound P log) (root : String) :
    Gapless (rowGeneration P) (rowsFor P log root) := h.orderly root

/-- A row is filed under the root of the put it decodes to. -/
theorem Sound.acceptable_of_mem (h : Sound P log) (hrow : row ∈ rowsFor P log root) :
    ∃ put, Acceptable P root row put := by
  obtain ⟨hmem, hkey⟩ := mem_history.mp hrow
  obtain ⟨other, put, hput⟩ := h.acceptable row hmem
  obtain rfl : other = root := Option.some.inj (hput.rowRoot.symm.trans hkey)
  exact ⟨put, hput⟩

/-- The fence reads the generation of the last row. -/
theorem generation_rootLogOf {rows : List String} (h : ∀ row ∈ rows, (parseRow P row).isSome) :
    (rootLogOf P rows).generation.toNat = lastGeneration P rows := by
  unfold RootLog.generation lastGeneration
  rw [latest_rootLogOf P rows h]
  cases hlast : rows.getLast? with
  | none => rfl
  | some row =>
      obtain ⟨entry, hentry⟩ := Option.isSome_iff_exists.mp (h row (List.mem_of_getLast? hlast))
      simp [storedRow, AccountDirectory.rowGeneration, hentry]

theorem BlindDirectory.Tracks.lastGeneration {dir : BlindDirectory Route σ}
    (h : dir.Tracks P log) (root : String) :
    (dir.rootLog root).generation.toNat = lastGeneration P (rowsFor P log root) := by
  rw [h, generation_rootLogOf fun _ => parseRow_isSome_of_mem]

/-- Where a root's rows are gapless, that is their number. -/
theorem BlindDirectory.Tracks.generation {dir : BlindDirectory Route σ} (htracks : dir.Tracks P log)
    (h : Gapless (rowGeneration P) (rowsFor P log root)) :
    (dir.rootLog root).generation.toNat = (rowsFor P log root).length := by
  rw [htracks.lastGeneration, AccountDirectory.lastGeneration]
  cases hlast : (rowsFor P log root).getLast? with
  | none => rw [List.getLast?_eq_none_iff.mp hlast]; rfl
  | some row => exact h.version_getLast hlast

theorem Sound.generation (h : Sound P log) {dir : BlindDirectory Route σ}
    (htracks : dir.Tracks P log) (root : String) :
    (dir.rootLog root).generation.toNat = (rowsFor P log root).length :=
  htracks.generation (h.gapless root)

theorem seen_iff {held : List String} :
    (register P).seen body held = true ↔ ∃ row ∈ held, digest P row = digest P body := by
  simp [register]

/-- Without a collision, recognising a body is finding it byte for byte. -/
theorem seen_eq_mem {bodies held : List String} (hfree : CollisionFree P bodies)
    (hheld : ∀ row ∈ held, row ∈ bodies) (hbody : body ∈ bodies) :
    (register P).seen body held = decide (body ∈ held) := by
  rw [Bool.eq_iff_iff, seen_iff, decide_eq_true_iff]
  constructor
  · rintro ⟨row, hrow, hdigest⟩
    rwa [← hfree.digest_inj (hheld row hrow) hbody hdigest]
  · intro hmem
    exact ⟨body, hmem, rfl⟩

/-- The digest set recognises a body exactly when the body is a row. -/
theorem seen_iff_mem {bodies : List String} (hcollision : CollisionFree P bodies)
    (hrows : ∀ row ∈ log, row ∈ bodies) (hbody : body ∈ bodies) (hput : Acceptable P root body put) :
    (register P).seen body (rowsFor P log root) = true ↔ body ∈ log := by
  rw [seen_eq_mem hcollision (fun row hrow => hrows row (mem_history.mp hrow).1) hbody,
    decide_eq_true_iff, mem_history]
  exact and_iff_left hput.rowRoot

/-- A body the fence let through once is recognised, or next, or too late: its
generation was taken by another row. -/
theorem Sound.conflict_iff (h : Sound P log) (hput : Acceptable P root body put)
    (hseen : (register P).seen body (rowsFor P log root) = true ↔ body ∈ log)
    (hreach : rowGeneration P body ≤ (rowsFor P log root).length + 1) :
    (register P).verdict (rowsFor P log root) body = .conflict ↔
      body ∉ log ∧ ∃ row ∈ rowsFor P log root, row ≠ body ∧
        rowGeneration P row = rowGeneration P body := by
  have hversion : (register P).version body = rowGeneration P body := rfl
  have htaken := (h.gapless root).version_mem (rowGeneration P body)
  have hpositive : 1 ≤ rowGeneration P body := by
    rw [hput.rowGeneration]
    exact hput.positive
  rw [Register.verdict_conflict_iff, ← Bool.not_eq_true, hseen, hversion]
  apply and_congr_right
  intro hnew
  constructor
  · intro hnext
    obtain ⟨row, hrow, hgeneration⟩ := htaken.mpr ⟨hpositive, by omega⟩
    refine ⟨row, hrow, ?_, hgeneration⟩
    rintro rfl
    exact hnew (mem_history.mp hrow).1
  · rintro ⟨row, hrow, -, hgeneration⟩
    have hle := (htaken.mp ⟨row, hrow, hgeneration⟩).2
    omega

namespace Follows

variable [Store σ] {dir : BlindDirectory Route σ}

theorem openOver_empty {store : σ} (h : durableLog store = []) :
    Follows P (.openOver P store) [] where
  unpoisoned := rfl
  tracks := by
    intro root
    by_cases hread : (readLog store).1.isOk
    · rw [BlindDirectory.rootLog_openOver hread, h]
    · rw [BlindDirectory.rootLog_openOver_error hread]
      rfl
  durable := by simp [h]
  sound := sound_nil

theorem new : Follows P (.new : BlindDirectory Route σ) [] where
  unpoisoned := rfl
  tracks := BlindDirectory.tracks_new
  durable := by simp [BlindDirectory.new]
  sound := sound_nil

theorem log_eq (h : Follows P dir log) (hdurable : dir.store.isSome) : dir.log = log := by
  obtain ⟨store, hstore⟩ := Option.isSome_iff_exists.mp hdurable
  rw [BlindDirectory.log_of_store hstore, h.durable store hstore]

theorem log_length (h : Follows P dir log) :
    dir.log.length = if dir.store.isSome then log.length else 0 := by
  split
  · rw [h.log_eq ‹_›]
  · rename_i hnone
    rw [Option.not_isSome_iff_eq_none] at hnone
    simp [BlindDirectory.log, hnone]

theorem generation (h : Follows P dir log) (root : String) :
    (dir.rootLog root).generation.toNat = (rowsFor P log root).length :=
  h.sound.generation h.tracks root

theorem mem_digests_iff (h : Follows P dir log) :
    digest P body ∈ (dir.rootLog root).digests ↔
      (register P).seen body (rowsFor P log root) = true := by
  rw [h.tracks.mem_digests, seen_iff]

theorem touch (h : Follows P dir log) : Follows P (dir.touch root) log :=
  ⟨rfl, h.tracks.touch, h.durable, h.sound⟩

theorem rows_bound (hbound : log.length + 1 < UInt64.size) (root : String) :
    (rowsFor P log root).length + 1 < UInt64.size := by
  have hle : (rowsFor P log root).length ≤ log.length := history_length_le
  omega

/-- Short of 2^64 - 1 rows the fence asks for the number of rows plus one. -/
theorem addOne_generation (h : Follows P dir log) (hbound : log.length + 1 < UInt64.size)
    (root : String) :
    ∃ next, addOne P.overflowChecks (dir.rootLog root).generation = .ok next ∧
      next.toNat = (rowsFor P log root).length + 1 := by
  have hrows := rows_bound (P := P) hbound root
  rw [← h.generation root] at hrows ⊢
  exact ⟨_, addOne_of_lt _ hrows, toNat_add_one hrows⟩

theorem advance (h : Follows P dir log) (hput : Acceptable P root body put)
    (hverdict : (register P).verdict (rowsFor P log root) body = .advanced)
    (hs : ∀ store ∈ dir.store, (appendLog store body).1.isOk) :
    Follows P (dir.advance P put body) (log ++ [body]) where
  unpoisoned := rfl
  tracks := h.tracks.advance hput.parseRow
  durable := by
    intro store hstore
    obtain ⟨before, hbefore, rfl⟩ := Option.mem_map.mp hstore
    rw [durableLog_append_of_isOk (hs before hbefore), h.durable before hbefore]
  sound := h.sound.of_advanced hput hverdict

/-- `admitPut` is the register's offer: its verdict is the disposition, and only
an advance touches more than the shape of the map. -/
theorem admitPut_eq (h : Follows P dir log) (hput : Acceptable P root body put)
    (hbound : log.length + 1 < UInt64.size) :
    dir.admitPut P put body =
      (.ok (.ofVerdict ((register P).verdict (rowsFor P log root) body)),
        if (register P).verdict (rowsFor P log root) body = .advanced
        then dir.advance P put body else dir.touch root) := by
  obtain rfl := hput.root_eq
  obtain ⟨next, hnext, hnextNat⟩ := h.addOne_generation hbound put.root
  have hversion : (register P).version body = put.entry.generation.toNat := hput.rowGeneration
  have hadmission := admission (P := P) dir put body
  generalize dir.admitPut P put body = result at hadmission
  cases hadmission with
  | poisoned hlock => rw [h.unpoisoned] at hlock; cases hlock
  | overflowed hlock hnew hpanic => rw [hnext] at hpanic; cases hpanic
  | recognised hlock hseen =>
      have hverdict : (register P).verdict (rowsFor P log put.root) body = .known :=
        Register.verdict_known_iff.mpr (h.mem_digests_iff.mp hseen)
      rw [hverdict]
      rfl
  | refused hlock hnew hnext' hgen =>
      rw [hnext] at hnext'
      cases Except.ok.inj hnext'
      have hverdict : (register P).verdict (rowsFor P log put.root) body = .conflict := by
        refine Register.verdict_conflict_iff.mpr ⟨?_, ?_⟩
        · rwa [h.mem_digests_iff, Bool.not_eq_true] at hnew
        · rw [hversion, ← hnextNat]
          exact fun heq => hgen (UInt64.toNat_inj.mp heq)
      rw [hverdict]
      rfl
  | advanced hlock hnew hnext' =>
      rw [hnext] at hnext'
      have hverdict : (register P).verdict (rowsFor P log put.root) body = .advanced := by
        refine Register.verdict_advanced_iff.mpr ⟨?_, ?_⟩
        · rwa [h.mem_digests_iff, Bool.not_eq_true] at hnew
        · rw [hversion, ← hnextNat, Except.ok.inj hnext']
      rw [hverdict]
      rfl

theorem admitPut (h : Follows P dir log) (hput : Acceptable P root body put)
    (hbound : log.length + 1 < UInt64.size)
    (hs : (dir.admitPut P put body).1 = .ok .advanced →
      ∀ store ∈ dir.store, (appendLog store body).1.isOk) :
    (dir.admitPut P put body).1 =
        .ok (.ofVerdict ((register P).verdict (rowsFor P log root) body)) ∧
      Follows P (dir.admitPut P put body).2 ((register P).offer log root body).2 := by
  rw [h.admitPut_eq hput hbound] at hs ⊢
  refine ⟨rfl, ?_⟩
  by_cases hverdict : (register P).verdict (rowsFor P log root) body = .advanced
  · rw [Register.offer_advanced hverdict, if_pos hverdict]
    exact h.advance hput hverdict (hs (by rw [hverdict]; rfl))
  · rw [Register.offer_unchanged hverdict, if_neg hverdict]
    exact h.touch

theorem disposition (h : Follows P dir log) (hput : Acceptable P root body put)
    (hbound : log.length + 1 < UInt64.size) :
    publishDisposition P dir root body =
      some (.ofVerdict ((register P).verdict (rowsFor P log root) body)) := by
  rw [publishDisposition_of_acceptable hput, h.admitPut_eq hput hbound]
  rfl

theorem publish (h : Follows P dir log) (hbound : log.length + 1 < UInt64.size)
    (hs : dir.AppendSucceeds P (.request (.put root body))) :
    (AccountDirectory.publish P dir root body).1 = (publishLog P log root body).1 ∧
      Follows P (AccountDirectory.publish P dir root body).2 (publishLog P log root body).2 := by
  cases hcheck : validate P root body with
  | error panic => simpa [AccountDirectory.publish, publishLog, hcheck] using h
  | ok checked =>
      cases checked with
      | error refusal => simpa [AccountDirectory.publish, publishLog, hcheck] using h
      | ok put =>
          have hput := validate_eq_ok_iff.mp hcheck
          have hadmission := h.admitPut hput hbound ((appendSucceeds_iff hput).mp hs)
          rw [publish_of_acceptable hput, hadmission.1]
          unfold publishLog
          rw [hcheck]
          exact ⟨rfl, hadmission.2⟩

theorem fetch (h : Follows P dir log) (root : String) :
    AccountDirectory.fetch P dir root = fetchLog P log root := by
  unfold AccountDirectory.fetch fetchLog
  rw [BlindDirectory.get_eq h.unpoisoned, h.tracks.latest]
  rfl

theorem restart (h : Follows P dir log) (hdurable : dir.store.isSome)
    (hread : dir.ReadSucceeds .restart) : Follows P (dir.restart P) log := by
  obtain ⟨store, hstore⟩ := Option.isSome_iff_exists.mp hdurable
  have hrestart : dir.restart P = .openOver P store := BlindDirectory.restart_of_store hstore
  have hlog := h.durable store hstore
  rw [hrestart]
  refine ⟨rfl, ?_, by simp [hlog], h.sound⟩
  rw [← hlog]
  exact BlindDirectory.tracks_openOver (hread store hstore)

theorem step (h : Follows P dir log) (hbound : log.length + 1 < UInt64.size) {step : Step}
    (hdurable : step = .restart → dir.store.isSome) (hs : dir.StoreSucceeds P step) :
    ((service P).step dir step).1 = ((ledger P).step log step).1 ∧
      Follows P ((service P).step dir step).2 ((ledger P).step log step).2 := by
  cases step with
  | restart => exact ⟨rfl, h.restart (hdurable rfl) hs.1⟩
  | request request =>
      cases request with
      | get root => exact ⟨congrArg Answer.ofResult (h.fetch root), h⟩
      | put root body =>
          have hpublish := h.publish hbound hs.2
          exact ⟨congrArg Answer.ofResult hpublish.1, hpublish.2⟩

end Follows

theorem publishLog_length_le (log : List String) (root body : String) :
    (publishLog P log root body).2.length ≤ log.length + 1 := by
  unfold publishLog
  split
  · exact Nat.le_succ _
  · exact Nat.le_succ _
  · rcases (register P).offer_snd log root body with h | h <;> simp [h]

theorem putBodies_cons (step : Step) (steps : List Step) :
    putBodies (step :: steps) = putBodies [step] ++ putBodies steps :=
  List.filterMap_append (l := [step])

theorem putBodies_length_le (steps : List Step) : (putBodies steps).length ≤ steps.length :=
  List.length_filterMap_le ..

theorem ledger_length_le (log : List String) (step : Step) :
    ((ledger P).step log step).2.length ≤ log.length + (putBodies [step]).length := by
  cases step with
  | restart => exact Nat.le_refl _
  | request request =>
      cases request with
      | get root => exact Nat.le_refl _
      | put root body => exact publishLog_length_le log root body

theorem isSome_store_step [Store σ] (dir : BlindDirectory Route σ) (step : Step) :
    ((service P).step dir step).2.store.isSome = dir.store.isSome := by
  cases step with
  | restart =>
      change (dir.restart P).store.isSome = _
      unfold BlindDirectory.restart
      cases hstore : dir.store <;> rfl
  | request request =>
      cases request with
      | get root => rfl
      | put root body =>
          change (publish P dir root body).2.store.isSome = _
          have hpublish := publication (P := P) dir root body
          generalize publish P dir root body = result at hpublish
          generalize publishDisposition P dir root body = disposition at hpublish
          cases hpublish with
          | admitted hput hadmission =>
              cases hadmission with
              | advanced hlock hnew hnext => simp
              | _ => rfl
          | _ => rfl

theorem isSome_store_after [Store σ] (dir : BlindDirectory Route σ) (steps : List Step) :
    ((service P).after dir steps).store.isSome = dir.store.isSome := by
  apply Machine.after_rel (M := service P)
    (R := fun before later => later.store.isSome = before.store.isSome)
  · exact fun _ => rfl
  · exact fun h h' => h'.trans h
  · exact isSome_store_step

/-- A restart meets a durable directory. -/
def KeepsStore (dir : BlindDirectory Route σ) (step : Step) : Prop :=
  step = .restart → dir.store.isSome

theorem keepsStore_of_durable [Store σ] {dir : BlindDirectory Route σ} (h : dir.store.isSome)
    (steps : List Step) : (service P).Along KeepsStore dir steps := by
  rw [Machine.along_iff_forall_cut]
  intro early step late hcut _
  rw [isSome_store_after]
  exact h

theorem keepsStore_of_requests [Store σ] (dir : BlindDirectory Route σ)
    (requests : List Request) : (service P).Along KeepsStore dir (requests.map .request) := by
  induction requests generalizing dir with
  | nil => trivial
  | cons request rest ih => exact ⟨nofun, ih _⟩

/-- The service refines the ledger: on an undisturbed run of fewer than
2^64 - 1 publishes it gives the ledger's answers and keeps following its log. -/
theorem Follows.run_of_puts [Store σ] {dir : BlindDirectory Route σ} {steps : List Step}
    (h : Follows P dir log) (hbound : log.length + (putBodies steps).length + 1 < UInt64.size)
    (hkeep : (service P).Along KeepsStore dir steps) (hs : Undisturbed P dir steps) :
    (service P).outputs dir steps = (ledger P).outputs log steps ∧
      Follows P ((service P).after dir steps) ((ledger P).after log steps) := by
  have hrun := Machine.outputs_eq_of_simulation_ahead (M := service P) (N := ledger P)
    (R := fun rest dir log =>
      Follows P dir log ∧ log.length + (putBodies rest).length + 1 < UInt64.size)
    (P := fun dir step => KeepsStore dir step ∧ dir.StoreSucceeds P step) (F := fun _ _ => True)
    (fun rest dir log step hrel hp _ => by
      obtain ⟨hfollows, hbound⟩ := hrel
      rw [putBodies_cons, List.length_append] at hbound
      have hstep := hfollows.step (by omega) hp.1 hp.2
      have hlength := ledger_length_le (P := P) log step
      exact ⟨hstep.1, hstep.2, by omega⟩)
    ⟨h, hbound⟩ (hkeep.and hs) (Machine.along_of_forall (fun _ _ => trivial) _ _)
  exact ⟨hrun.1, hrun.2.1⟩

theorem Follows.run [Store σ] {dir : BlindDirectory Route σ} {steps : List Step}
    (h : Follows P dir log) (hbound : log.length + steps.length + 1 < UInt64.size)
    (hkeep : (service P).Along KeepsStore dir steps) (hs : Undisturbed P dir steps) :
    (service P).outputs dir steps = (ledger P).outputs log steps ∧
      Follows P ((service P).after dir steps) ((ledger P).after log steps) := by
  have hputs := putBodies_length_le steps
  exact h.run_of_puts (by omega) hkeep hs

theorem ledger_extends (log : List String) (step : Step) :
    log <+: ((ledger P).step log step).2 := by
  cases step with
  | restart => exact List.prefix_refl _
  | request request =>
      cases request with
      | get root => exact List.prefix_refl _
      | put root body =>
          change log <+: (publishLog P log root body).2
          unfold publishLog
          split
          · exact List.prefix_refl _
          · exact List.prefix_refl _
          · exact (register P).offer_extends log root body

/-- Only an accepted publish for a root adds to the root's rows. -/
theorem ledger_step_changes {step : Step}
    (h : rowsFor P ((ledger P).step log step).2 root ≠ rowsFor P log root) :
    ∃ body put, step = .request (.put root body) ∧ Acceptable P root body put ∧
      (register P).verdict (rowsFor P log root) body = .advanced ∧
      ((ledger P).step log step).2 = log ++ [body] := by
  cases step with
  | restart => exact absurd rfl h
  | request request =>
      cases request with
      | get other => exact absurd rfl h
      | put other body =>
          change rowsFor P (publishLog P log other body).2 root ≠ _ at h
          change ∃ body' put, _ ∧ _ ∧ _ ∧ (publishLog P log other body).2 = _
          unfold publishLog at h ⊢
          split at h
          · exact absurd rfl h
          · exact absurd rfl h
          · rename_i put hcheck
            have hput := validate_eq_ok_iff.mp hcheck
            by_cases hverdict : (register P).verdict (rowsFor P log other) body = .advanced
            · simp only [Register.offer_advanced hverdict] at h ⊢
              have hroot : other = root := by
                by_contra hne
                refine h (history_concat_other ?_)
                rw [hput.rowRoot]
                exact fun heq => hne (Option.some.inj heq)
              subst hroot
              exact ⟨body, put, rfl, hput, hverdict, rfl⟩
            · simp only [Register.offer_unchanged hverdict] at h
              exact absurd rfl h

theorem ledger_after_extends (log : List String) (steps : List Step) :
    log <+: (ledger P).after log steps :=
  Machine.after_extends (M := ledger P) (f := id) ledger_extends log steps

theorem ledger_after_length_le (log : List String) (steps : List Step) :
    ((ledger P).after log steps).length ≤ log.length + (putBodies steps).length := by
  induction steps generalizing log with
  | nil => exact Nat.le_refl _
  | cons step rest ih =>
      have hstep := ledger_length_le (P := P) log step
      have hrest := ih ((ledger P).step log step).2
      rw [putBodies_cons, List.length_append]
      simp only [Machine.after_cons]
      omega

section Serving

variable [Store σ]

/-- A `GET` of `root` answers `200` or `410` with `body`. -/
def Serves (P : Platform Route Signature) (dir : BlindDirectory Route σ) (root body : String) :
    Prop :=
  fetch P dir root = .ok (signedJson .ok body) ∨ fetch P dir root = .ok (signedJson .gone body)

variable {dir : BlindDirectory Route σ}

theorem Follows.get (h : Follows P dir log) (root : String) :
    dir.get root = .ok ((rowsFor P log root).getLast?.bind (storedRow P)) := by
  rw [BlindDirectory.get_eq h.unpoisoned, h.tracks.latest]

theorem Sound.storedRow_of_last (h : Sound P log)
    (hlast : (rowsFor P log root).getLast? = some body) :
    ∃ put, Acceptable P root body put ∧ storedRow P body = some ⟨body, put.entry⟩ := by
  obtain ⟨put, hput⟩ := h.acceptable_of_mem (List.mem_of_getLast? hlast)
  exact ⟨put, hput, by simp [storedRow, hput.parseRow]⟩

/-- What a longer log holds for a root is at least as new. -/
theorem Sound.latest_mono {longer : List String} (h : Sound P longer) (hpre : log <+: longer)
    {stored : Stored Route} (hstored : (rowsFor P log root).getLast?.bind (storedRow P) = some stored) :
    ∃ stored', (rowsFor P longer root).getLast?.bind (storedRow P) = some stored' ∧
      stored.entry.generation ≤ stored'.entry.generation := by
  have hshort := h.of_initial hpre
  obtain ⟨row, hlast, hrow⟩ := Option.bind_eq_some_iff.mp hstored
  obtain ⟨put, hput, hfiled⟩ := hshort.storedRow_of_last hlast
  cases Option.some.inj (hrow.symm.trans hfiled)
  have hrows : rowsFor P log root <+: rowsFor P longer root := history_mono hpre
  have hle := hrows.length_le
  have hversion := (hshort.gapless root).version_getLast hlast
  rw [hput.rowGeneration] at hversion
  have hpos := hput.positive
  rw [UInt64.lt_iff_toNat_lt] at hpos
  cases hlast' : (rowsFor P longer root).getLast? with
  | none =>
      rw [List.getLast?_eq_none_iff.mp hlast', List.length_nil] at hle
      have hzero : (0 : UInt64).toNat = 0 := rfl
      omega
  | some row' =>
      obtain ⟨put', hput', hfiled'⟩ := h.storedRow_of_last hlast'
      refine ⟨⟨row', put'.entry⟩, hfiled', ?_⟩
      have hversion' := (h.gapless root).version_getLast hlast'
      rw [hput'.rowGeneration] at hversion'
      rw [UInt64.le_iff_toNat_le]
      change put.entry.generation.toNat ≤ put'.entry.generation.toNat
      omega

theorem fetchLog_of_last {put : SignedDirectoryPut Route Signature}
    (hput : Acceptable P root body put) (hlast : (rowsFor P log root).getLast? = some body) :
    fetchLog P log root =
      .ok (signedJson (if P.isRetraction put.entry then .gone else .ok) body) := by
  unfold fetchLog
  rw [hput.path, hlast]
  simp only [Option.bind_some, storedRow, hput.parseRow, Option.map_some, serve]
  split <;> rfl

/-- A directory that follows a log serves the last row of the root. -/
theorem Follows.serves_iff (h : Follows P dir log) :
    Serves P dir root body ↔ (rowsFor P log root).getLast? = some body := by
  unfold Serves
  rw [h.fetch]
  constructor
  · intro hserved
    unfold fetchLog at hserved
    cases hpath : isAccountRoot root with
    | error panic => simp [hpath] at hserved
    | ok shaped =>
        cases shaped with
        | false => simp [hpath, text, signedJson] at hserved
        | true =>
            cases hlast : (rowsFor P log root).getLast? with
            | none => simp [hpath, hlast, serve, text, signedJson] at hserved
            | some row =>
                obtain ⟨put, -, hstored⟩ := h.sound.storedRow_of_last hlast
                simp only [hpath, hlast, Option.bind_some, hstored, serve] at hserved
                split at hserved <;> simp_all [signedJson]
  · intro hlast
    obtain ⟨put, hput, -⟩ := h.sound.storedRow_of_last hlast
    rw [fetchLog_of_last hput hlast]
    split
    · exact .inr rfl
    · exact .inl rfl

end Serving

section CleanRun

variable [Store σ]

/-- The directory after a run that began by opening `store`. -/
def dirAt (P : Platform Route Signature) (store : σ) (steps : List Step) :
    BlindDirectory Route σ :=
  (service P).after (.openOver P store) steps

def logAt (P : Platform Route Signature) (steps : List Step) : List String :=
  (ledger P).after [] steps

theorem logAt_length_le (P : Platform Route Signature) (steps : List Step) :
    (logAt P steps).length ≤ steps.length := by
  have h := ledger_after_length_le (P := P) [] steps
  have hputs := putBodies_length_le steps
  rw [List.length_nil, Nat.zero_add] at h
  exact Nat.le_trans h hputs

/-- An undisturbed run over an empty store, of fewer than 2^64 - 1 steps. -/
structure CleanRun (P : Platform Route Signature) (store : σ) (steps : List Step) : Prop where
  empty : durableLog store = []
  short : steps.length < 2 ^ 64 - 1
  undisturbed : Undisturbed P (.openOver P store) steps

variable {store : σ} {steps early : List Step}

theorem logAt_append (steps further : List Step) :
    logAt P (steps ++ further) = (ledger P).after (logAt P steps) further :=
  Machine.after_append ..

theorem CleanRun.initial (h : CleanRun P store steps) (hearly : early <+: steps) :
    CleanRun P store early := by
  have hshort := h.short
  have hlength := hearly.length_le
  exact ⟨h.empty, by omega, Machine.Along.of_initial h.undisturbed hearly⟩

theorem CleanRun.run (h : CleanRun P store steps) :
    (service P).outputs (.openOver P store) steps = (ledger P).outputs [] steps ∧
      Follows P (dirAt P store steps) (logAt P steps) := by
  refine (Follows.openOver_empty h.empty).run ?_ (keepsStore_of_durable rfl steps) h.undisturbed
  have hshort := h.short
  have hsize : UInt64.size = 2 ^ 64 := rfl
  simp only [List.length_nil]
  omega

theorem CleanRun.follows (h : CleanRun P store steps) :
    Follows P (dirAt P store steps) (logAt P steps) := h.run.2

theorem CleanRun.durable (_ : CleanRun P store steps) : (dirAt P store steps).store.isSome :=
  isSome_store_after _ _

theorem CleanRun.bound (h : CleanRun P store steps) :
    (logAt P steps).length + 1 < UInt64.size := by
  have hlength := logAt_length_le P steps
  have hshort := h.short
  have hsize : UInt64.size = 2 ^ 64 := rfl
  omega

/-- On a clean run the durable log is the ledger's log. -/
theorem CleanRun.log_eq (h : CleanRun P store steps) :
    (dirAt P store steps).log = logAt P steps := h.follows.log_eq h.durable

theorem logAt_mono (hearly : early <+: steps) : logAt P early <+: logAt P steps := by
  obtain ⟨rest, rfl⟩ := hearly
  rw [logAt_append]
  exact ledger_after_extends _ _

end CleanRun

end AccountDirectory
