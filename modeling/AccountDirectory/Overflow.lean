import AccountDirectory.Ledger

/-! When the fence overflows. `open` takes each row at the generation it decodes
to, bare entries too, so a log can put a root anywhere in `u64`; from there only
accepted publishes move it, one generation at a time. The addition overflows
when a root can be led up to the last generation and is then offered one body
more. -/
namespace AccountDirectory
open Library

variable {Route Signature σ : Type} (P : Platform Route Signature)

/-- `admit` gets to evaluate `generation() + 1` for this request. -/
def EvaluatesSuccessor (dir : BlindDirectory Route σ) (root body : String) : Prop :=
  dir.roots.poisoned = false ∧ (∃ put, Acceptable P root body put) ∧
    digest P body ∉ (dir.rootLog root).digests

/-- If this step evaluates `generation() + 1`, the sum is a `u64`. -/
def StaysInRange (dir : BlindDirectory Route σ) (step : Step) : Prop :=
  ∀ root body, step = .request (.put root body) → EvaluatesSuccessor P dir root body →
    (dir.rootLog root).generation.toNat + 1 < UInt64.size

/-- Bodies that lead a root up from its rows: each passes the checks, is new,
and is one generation on. -/
inductive Ladder (root : String) (rows : List String) : List String → Prop
  | nil : Ladder root rows []
  | concat {rungs : List String} {body : String} {put : SignedDirectoryPut Route Signature}
      (h : Ladder root rows rungs) (hput : Acceptable P root body put)
      (hnew : digest P body ∉ (rows ++ rungs).map (digest P))
      (hnext : put.entry.generation.toNat = lastGeneration P (rows ++ rungs) + 1) :
      Ladder root rows (rungs ++ [body])

/-- A ladder from the rows of `root` reaches the last generation, and there is
one more body to offer. From generation 0 or 1 it would be too long. -/
def Climbs (root : String) (rows : List String) : Prop :=
  2 ≤ lastGeneration P rows ∧ ∃ rungs top, Ladder P root rows rungs ∧
    lastGeneration P (rows ++ rungs) = 2 ^ 64 - 1 ∧ (∃ put, Acceptable P root top put) ∧
    digest P top ∉ (rows ++ rungs).map (digest P)

variable {P} {root body : String} {rows rungs : List String}
  {put : SignedDirectoryPut Route Signature}

theorem lastGeneration_concat (rows : List String) (row : String) :
    lastGeneration P (rows ++ [row]) = rowGeneration P row := by
  simp [lastGeneration]

theorem lastGeneration_le {log : List String} {n : Nat}
    (h : ∀ row ∈ log, rowGeneration P row ≤ n) (root : String) :
    lastGeneration P (rowsFor P log root) ≤ n := by
  unfold lastGeneration
  cases hlast : (rowsFor P log root).getLast? with
  | none => exact Nat.zero_le n
  | some row => exact h row (mem_history.mp (List.mem_of_getLast? hlast)).1

namespace Ladder

theorem acceptable (h : Ladder P root rows rungs) :
    ∀ body ∈ rungs, ∃ put, Acceptable P root body put := by
  induction h with
  | nil => simp
  | concat h hput hnew hnext ih =>
      intro body hbody
      rcases List.mem_append.mp hbody with hold | hadded
      · exact ih body hold
      · exact ⟨_, List.mem_singleton.mp hadded ▸ hput⟩

theorem lastGeneration_eq (h : Ladder P root rows rungs) :
    lastGeneration P (rows ++ rungs) = lastGeneration P rows + rungs.length := by
  induction h with
  | nil => simp
  | concat h hput hnew hnext ih =>
      rw [← List.append_assoc, lastGeneration_concat, hput.rowGeneration, hnext, ih,
        List.length_append, List.length_singleton]
      omega

theorem generations (h : Ladder P root rows rungs) :
    rungs.map (rowGeneration P) = List.range' (lastGeneration P rows + 1) rungs.length := by
  induction h with
  | nil => rfl
  | concat h hput hnew hnext ih =>
      rw [List.map_append, ih, List.length_append, List.length_singleton, List.range'_concat,
        List.map_singleton, hput.rowGeneration, hnext, h.lastGeneration_eq]
      congr 2
      omega

theorem readable (h : Ladder P root rows rungs) (hrows : ∀ row ∈ rows, (parseRow P row).isSome) :
    ∀ row ∈ rows ++ rungs, (parseRow P row).isSome := by
  intro row hrow
  rcases List.mem_append.mp hrow with hold | hrung
  · exact hrows row hold
  · obtain ⟨put, hput⟩ := h.acceptable row hrung
    rw [hput.parseRow]
    rfl

/-- What the fence lets through is the next rung. -/
theorem extend (h : Ladder P root rows rungs) (hrows : ∀ row ∈ rows, (parseRow P row).isSome)
    (hput : Acceptable P root body put)
    (hnew : digest P body ∉ (rootLogOf P (rows ++ rungs)).digests)
    (hnext : addOne P.overflowChecks (rootLogOf P (rows ++ rungs)).generation =
      .ok put.entry.generation) : Ladder P root rows (rungs ++ [body]) := by
  have hreadable := h.readable hrows
  apply h.concat hput
  · rwa [digests_rootLogOf P _ hreadable, List.mem_toFinset] at hnew
  · rw [toNat_of_addOne hnext hput.positive, generation_rootLogOf hreadable]

end Ladder

variable {dir : BlindDirectory Route σ}

/-- The cache holds the root at the top of a ladder from its rows. -/
structure Climbing (P : Platform Route Signature) (root : String) (rows rungs : List String)
    (dir : BlindDirectory Route σ) : Prop where
  readable : ∀ row ∈ rows, (parseRow P row).isSome
  ladder : Ladder P root rows rungs
  cache : dir.rootLog root = rootLogOf P (rows ++ rungs)

namespace Climbing

theorem generation (h : Climbing P root rows rungs dir) :
    (dir.rootLog root).generation.toNat = lastGeneration P (rows ++ rungs) := by
  rw [h.cache, generation_rootLogOf (h.ladder.readable h.readable)]

theorem mem_digests (h : Climbing P root rows rungs dir) :
    digest P body ∈ (dir.rootLog root).digests ↔
      digest P body ∈ (rows ++ rungs).map (digest P) := by
  rw [h.cache, digests_rootLogOf P _ (h.ladder.readable h.readable), List.mem_toFinset]

variable [Store σ]

theorem advance (h : Climbing P root rows rungs dir) (hput : Acceptable P root body put)
    (hnew : digest P body ∉ (dir.rootLog root).digests)
    (hnext : addOne P.overflowChecks (dir.rootLog root).generation = .ok put.entry.generation) :
    Climbing P root rows (rungs ++ [body]) (dir.advance P put body) := by
  obtain rfl : root = put.root := hput.root_eq.symm
  rw [h.cache] at hnew hnext
  refine ⟨h.readable, h.ladder.extend h.readable hput hnew hnext, ?_⟩
  rw [BlindDirectory.rootLog_advance, if_pos rfl, h.cache, ← List.append_assoc,
    rootLogOf_concat_parsed P hput.parseRow]

theorem publish_next (h : Climbing P root rows rungs dir) (hlock : dir.roots.poisoned = false)
    (hput : Acceptable P root body put) (hnew : digest P body ∉ (rows ++ rungs).map (digest P))
    (hnext : put.entry.generation.toNat = lastGeneration P (rows ++ rungs) + 1) :
    (publish P dir root body).2.roots.poisoned = false ∧
      Climbing P root rows (rungs ++ [body]) (publish P dir root body).2 := by
  rw [← h.mem_digests] at hnew
  rw [← h.generation] at hnext
  have hlt : (dir.rootLog root).generation.toNat + 1 < UInt64.size := by
    rw [← hnext]
    exact put.entry.generation.toNat_lt
  have hok := addOne_of_lt P.overflowChecks hlt
  rw [UInt64.toNat_inj.mp ((toNat_add_one hlt).trans hnext.symm)] at hok
  obtain rfl : root = put.root := hput.root_eq.symm
  rw [publish_of_acceptable hput, (Admission.advanced hlock hnew hok).eq]
  exact ⟨rfl, h.advance hput hnew hok⟩

/-- Whatever the store does with the append, a request adds one rung at most. -/
theorem request (h : Climbing P root rows rungs dir) (request : Request) :
    ∃ more : List String, more.length ≤ 1 ∧
      Climbing P root rows (rungs ++ more) ((service P).step dir (.request request)).2 := by
  have hsame : ∀ dir' : BlindDirectory Route σ, dir'.rootLog root = dir.rootLog root →
      ∃ more : List String, more.length ≤ 1 ∧ Climbing P root rows (rungs ++ more) dir' := by
    intro dir' heq
    refine ⟨[], Nat.zero_le _, h.readable, ?_, ?_⟩
    · rw [List.append_nil]
      exact h.ladder
    · rw [List.append_nil, heq, h.cache]
  cases request with
  | get path => exact hsame dir rfl
  | put path body =>
      change ∃ more : List String, more.length ≤ 1 ∧
        Climbing P root rows (rungs ++ more) (publish P dir path body).2
      by_cases hadvanced : publishDisposition P dir path body = some .advanced
      · obtain ⟨put, hput, hnew, hnext, hpublish⟩ :=
          (publishDisposition_advanced_iff.mp hadvanced).publish_eq
        rw [hpublish]
        by_cases hroot : path = root
        · subst hroot
          exact ⟨[body], Nat.le_refl _, h.advance hput hnew hnext⟩
        · apply hsame
          obtain rfl : path = put.root := hput.root_eq.symm
          rw [BlindDirectory.rootLog_advance, if_neg (Ne.symm hroot)]
      · exact hsame _ ((publish_frame hadvanced).2.2 root)

/-- A run of requests leads a root up one ladder, no longer than the run. -/
theorem run (h : Climbing P root rows rungs dir) (requests : List Request) :
    ∃ more : List String, more.length ≤ requests.length ∧ Climbing P root rows (rungs ++ more)
      ((service P).after dir (requests.map .request)) := by
  induction requests generalizing dir rungs with
  | nil => exact ⟨[], Nat.le_refl _, by rwa [List.append_nil]⟩
  | cons request rest ih =>
      obtain ⟨rung, hrung, hstep⟩ := h.request request
      obtain ⟨more, hmore, hrest⟩ := ih hstep
      refine ⟨rung ++ more, ?_, ?_⟩
      · rw [List.length_append, List.length_cons]
        omega
      · rwa [← List.append_assoc]

end Climbing

variable [Store σ] {store : σ}

theorem climbing_openOver (hread : (readLog store).1.isOk) (root : String) :
    Climbing P root (rowsFor P (durableLog store) root) [] (.openOver P store) where
  readable _ := parseRow_isSome_of_mem
  ladder := .nil
  cache := by rw [List.append_nil, BlindDirectory.rootLog_openOver hread]

/-- Offered in order, the rungs of a ladder are all admitted. -/
theorem Ladder.climb (h : Ladder P root rows rungs) (hstart : Climbing P root rows [] dir)
    (hlock : dir.roots.poisoned = false) :
    let last := (service P).after dir ((rungs.map (Request.put root)).map .request)
    last.roots.poisoned = false ∧ Climbing P root rows rungs last := by
  intro last
  induction h with
  | nil => exact ⟨hlock, hstart⟩
  | @concat rungs body put h hput hnew hnext ih =>
      obtain ⟨hunpoisoned, hclimbing⟩ := ih
      have hlast : last = (publish P ((service P).after dir
          ((rungs.map (Request.put root)).map .request)) root body).2 := by
        change (service P).after dir _ = _
        rw [List.map_append, List.map_append, Machine.after_append]
        rfl
      rw [hlast]
      exact hclimbing.publish_next hunpoisoned hput hnew hnext

/-- No evaluation of `generation() + 1` leaves `u64`, in any run of fewer than
2^64 - 1 requests on the opened log. -/
def FenceInRange (P : Platform Route Signature) (store : σ) : Prop :=
  ∀ requests : List Request, requests.length < 2 ^ 64 - 1 →
    (service P).Along (StaysInRange P) (.openOver P store) (requests.map .request)

/-- The fence stays in range on exactly the logs that leave no root a ladder to
the last generation. Appends may fail at will. -/
theorem fence_in_range_iff (hread : (readLog store).1.isOk) :
    FenceInRange P store ↔ ∀ root, ¬ Climbs P root (rowsFor P (durableLog store) root) := by
  have hsize : UInt64.size = 2 ^ 64 := rfl
  constructor
  · rintro h root ⟨hlow, rungs, top, hladder, htop, hput, hnew⟩
    have hlength := hladder.lastGeneration_eq
    have hrun := h (rungs.map (Request.put root) ++ [.put root top])
      (by rw [List.length_append, List.length_map, List.length_singleton]; omega)
    rw [List.map_append, Machine.along_append] at hrun
    obtain ⟨hlock, hclimbing⟩ := hladder.climb (climbing_openOver hread root) rfl
    have hrange := hrun.2.1 root top rfl ⟨hlock, hput, hclimbing.mem_digests.not.mpr hnew⟩
    rw [hclimbing.generation] at hrange
    omega
  · intro h requests hshort
    rw [Machine.along_iff_forall_cut]
    rintro early step late hcut root body rfl ⟨hlock, hput, hnew⟩
    obtain ⟨before, after, rfl, rfl, hafter⟩ := List.map_eq_append_iff.mp hcut
    have hafterLength := congrArg List.length hafter
    obtain ⟨rungs, hrungs, hclimbing⟩ := (climbing_openOver (P := P) hread root).run before
    rw [List.nil_append] at hclimbing
    rw [hclimbing.mem_digests] at hnew
    rw [hclimbing.generation]
    by_contra hover
    have hbound := (((service P).after (.openOver P store)
      (before.map .request)).rootLog root).generation.toNat_lt
    rw [hclimbing.generation] at hbound
    have hlength := hclimbing.ladder.lastGeneration_eq
    simp only [List.length_append, List.length_map, List.length_cons] at hshort hafterLength
    exact h root ⟨by omega, rungs, body, hclimbing.ladder, by omega, hput, hnew⟩

/-- Where no row is of a generation above 1, there is no ladder. -/
theorem not_climbs_of_low {log : List String} (hlow : ∀ row ∈ log, rowGeneration P row ≤ 1)
    (root : String) : ¬ Climbs P root (rowsFor P log root) := by
  rintro ⟨htwo, -⟩
  have hone := lastGeneration_le hlow root
  omega

theorem fence_in_range_of_first : FenceInRange Sample.platform
    (Sample.store ["bare", "first", "junk"] [] []) :=
  (fence_in_range_iff (by decide +kernel)).mpr (not_climbs_of_low (by decide +kernel))

namespace Sample

/-- Bare entries that carry a generation: `top` the last one there is. -/
def legacy : Platform Unit Bool := .ofTable
  [("first", ⟨entry 1 "01" false, true⟩), ("second", ⟨entry 2 "02" false, true⟩)]
  [("bare", entry 0 "00" false), ("third", entry 3 "03" false),
    ("top", entry 18446744073709551615 "ff" false)]

end Sample

/-- The first publish after such an entry overflows the fence, and nothing is
read or written any more under any root. -/
theorem fence_overflows :
    let dir : BlindDirectory Unit ScriptedStore :=
      .openOver Sample.legacy (Sample.store ["top"] [] [])
    ¬ FenceInRange Sample.legacy (Sample.store ["top"] [] []) ∧
      (publish Sample.legacy dir Sample.root "first").1 = .error .overflow ∧
      ∀ root, (publish Sample.legacy dir Sample.root "first").2.get root = .error .poisoned := by
  intro dir
  refine ⟨fun h => ?_, by decide +kernel, fun root => ?_⟩
  · have hrun := h [.put Sample.root "first"] (by decide)
    have hput : Acceptable Sample.legacy Sample.root "first" ⟨Sample.entry 1 "01" false, true⟩ :=
      ⟨by decide +kernel, by decide +kernel, rfl, by decide, rfl, rfl⟩
    have hrange := hrun.1 Sample.root "first" rfl ⟨rfl, ⟨_, hput⟩, by decide +kernel⟩
    revert hrange
    decide +kernel
  · exact BlindDirectory.get_poisoned (by decide +kernel)

end AccountDirectory
