import AccountDirectory.Ledger

/-! Custody of a root. Only `publish` checks path, shape and signature, while
`admit` writes and `open` files rows from their own content; what the two make
of a log is nevertheless the rows that carry the root, and every one verifies. -/
namespace AccountDirectory
open Library

variable {Route Signature σ : Type} (P : Platform Route Signature)

/-- `row` is a signed put whose record names `root`. -/
def carries (root row : String) : Bool :=
  (P.decodePut row).any fun put => put.root = root

/-- What a directory holds under a root is made of the log rows that carry the
root and of no others. -/
structure Filed [Store σ] (dir : BlindDirectory Route σ) : Prop where
  latest : ∀ root, (dir.rootLog root).latest =
    (dir.log.filter (carries P root)).getLast?.bind fun row =>
      (P.decodePut row).map fun put => ⟨row, put.entry⟩
  digests : ∀ root, (dir.rootLog root).digests =
    ((dir.log.filter (carries P root)).map (digest P)).toFinset

variable {P} {log : List String} {root body row : String}
  {put : SignedDirectoryPut Route Signature}

theorem Sound.carries_iff (h : Sound P log) (hrow : row ∈ log) :
    carries P root row = true ↔ rowRoot P row = some root := by
  obtain ⟨other, put, hput⟩ := h.acceptable row hrow
  simp [carries, hput.decoded, hput.rowRoot, hput.root_eq]

theorem Sound.filter_carries (h : Sound P log) (root : String) :
    log.filter (carries P root) = rowsFor P log root := by
  apply List.filter_congr
  intro row hrow
  rw [Bool.eq_iff_iff, h.carries_iff hrow, decide_eq_true_iff]

theorem filed_of_tracks [Store σ] {dir : BlindDirectory Route σ} (hsound : Sound P dir.log)
    (htracks : dir.Tracks P dir.log) : Filed P dir where
  latest := by
    intro root
    rw [htracks.latest, hsound.filter_carries]
    cases hlast : (rowsFor P dir.log root).getLast? with
    | none => rfl
    | some row =>
        obtain ⟨put, hput⟩ := hsound.acceptable_of_mem (List.mem_of_getLast? hlast)
        simp [storedRow, hput.parseRow, hput.decoded]
  digests := by
    intro root
    rw [htracks, hsound.filter_carries, digests_rowsFor]

section Runs

variable [Store σ] {store : σ} {steps early : List Step}

theorem CleanRun.sound (h : CleanRun P store steps) : Sound P (dirAt P store steps).log := by
  rw [h.log_eq]
  exact h.follows.sound

theorem CleanRun.filed (h : CleanRun P store steps) : Filed P (dirAt P store steps) := by
  have htracks := h.follows.tracks
  rw [← h.log_eq] at htracks
  exact filed_of_tracks h.sound htracks

theorem CleanRun.filed_restart (h : CleanRun P store steps)
    (hread : (dirAt P store steps).ReadSucceeds .restart) :
    Filed P ((dirAt P store steps).restart P) := by
  have hreopened := h.follows.restart h.durable hread
  have hdurable : ((dirAt P store steps).restart P).store.isSome :=
    (isSome_store_step (P := P) (dirAt P store steps) .restart).trans h.durable
  have htracks := hreopened.tracks
  have hsound := hreopened.sound
  rw [← hreopened.log_eq hdurable] at htracks hsound
  exact filed_of_tracks hsound htracks

/-- Nothing but an accepted put for the root changes what the root serves. -/
theorem CleanRun.fetch_unchanged {further : List Step} (h : CleanRun P store (early ++ further))
    (hothers : ∀ body ∈ putBodies further, ∀ put, P.decodePut body = some put →
      put.root = root → P.putVerifies put = false) :
    fetch P (dirAt P store (early ++ further)) root = fetch P (dirAt P store early) root := by
  rw [h.follows.fetch, (h.initial (List.prefix_append early further)).follows.fetch]
  suffices hrows : rowsFor P (logAt P (early ++ further)) root = rowsFor P (logAt P early) root by
    simp only [fetchLog, hrows]
  rw [logAt_append]
  by_contra hne
  obtain ⟨pre, step, post, rfl, -, hchange⟩ :=
    Machine.exists_cut_of_ne (f := fun log => rowsFor P log root) hne
  obtain ⟨body, put, rfl, hput, -, -⟩ := ledger_step_changes hchange
  have hbody : body ∈ putBodies (pre ++ .request (.put root body) :: post) := by
    simp [putBodies, Step.body]
  have hforged := hothers body hbody put hput.decoded hput.root_eq
  rw [hput.verified] at hforged
  cases hforged

end Runs

/-- In every state a clean run reaches: every row is a verified put of positive
generation, filed under the root it carries and no other, live and reopened;
what is served verifies under its root; and requests without a verified put for
a root leave what the root serves alone. -/
theorem custody [Store σ] {store : σ} {steps : List Step} (h : CleanRun P store steps) :
    (∀ row ∈ (dirAt P store steps).log, ∃ put, P.decodePut row = some put ∧
      0 < put.entry.generation ∧ P.putVerifies put = true) ∧
    Filed P (dirAt P store steps) ∧
    ((dirAt P store steps).ReadSucceeds .restart → Filed P ((dirAt P store steps).restart P)) ∧
    (∀ root stored, (dirAt P store steps).get root = .ok (some stored) →
      ((dirAt P store steps).log.filter (carries P root)).getLast? = some stored.body ∧
        ∃ put, P.decodePut stored.body = some put ∧ put.entry = stored.entry) ∧
    (∀ root body, Serves P (dirAt P store steps) root body →
      ∃ put, P.decodePut body = some put ∧ put.root = root ∧ P.putVerifies put = true) ∧
    (∀ early further root, steps = early ++ further →
      (∀ body ∈ putBodies further, ∀ put, P.decodePut body = some put → put.root = root →
        P.putVerifies put = false) →
      fetch P (dirAt P store steps) root = fetch P (dirAt P store early) root) := by
  refine ⟨?_, h.filed, h.filed_restart, ?_, ?_, ?_⟩
  · intro row hrow
    obtain ⟨root, put, hput⟩ := h.sound.acceptable row hrow
    exact ⟨put, hput.decoded, hput.positive, hput.verified⟩
  · intro root stored hget
    rw [BlindDirectory.get_eq h.follows.unpoisoned, h.filed.latest, Except.ok.injEq] at hget
    obtain ⟨row, hlast, hdecode⟩ := Option.bind_eq_some_iff.mp hget
    obtain ⟨put, hput, rfl⟩ := Option.map_eq_some_iff.mp hdecode
    exact ⟨hlast, put, hput, rfl⟩
  · intro root body hserved
    have hlast := h.follows.serves_iff.mp hserved
    obtain ⟨put, hput⟩ := h.follows.sound.acceptable_of_mem (List.mem_of_getLast? hlast)
    exact ⟨put, hput.decoded, hput.root_eq, hput.verified⟩
  · intro early further root hsplit hothers
    subst hsplit
    exact h.fetch_unchanged hothers

/-- The root serves the put that was filed, and the forged one leaves that alone. -/
theorem custody_of_served_first :
    let dir := dirAt Sample.platform ScriptedStore.empty
      [Sample.put "first", Sample.put "forged", .restart]
    dir.log = ["first"] ∧ Filed Sample.platform dir ∧
      Serves Sample.platform dir Sample.root "first" ∧
      (∃ put, Sample.platform.decodePut "first" = some put ∧ put.root = Sample.root ∧
        Sample.platform.putVerifies put = true) ∧
      fetch Sample.platform dir Sample.root = fetch Sample.platform
        (dirAt Sample.platform ScriptedStore.empty [Sample.put "first"]) Sample.root := by
  have hrun : CleanRun Sample.platform ScriptedStore.empty
      [Sample.put "first", Sample.put "forged", .restart] :=
    ⟨rfl, by decide, by decide +kernel⟩
  obtain ⟨-, hfiled, -, -, hverified, hothers⟩ := custody hrun
  have hserved : Serves Sample.platform (dirAt Sample.platform ScriptedStore.empty
      [Sample.put "first", Sample.put "forged", .restart]) Sample.root "first" :=
    .inl (by decide +kernel)
  refine ⟨by decide +kernel, hfiled, hserved, hverified _ _ hserved, ?_⟩
  apply hothers [Sample.put "first"] [Sample.put "forged", .restart] _ rfl
  intro body hbody put hdecode _
  obtain rfl : body = "forged" := List.mem_singleton.mp hbody
  cases hdecode
  rfl

end AccountDirectory
