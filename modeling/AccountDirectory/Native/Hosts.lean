import AccountDirectory.Native.CargoTree

/-! Dependencies that differ by host: the resolutions of all hosts merged, a
per-host set split into what every host has and what each has besides, several
of them joined, and the `select()` that is rendered of the result. -/
namespace AccountDirectory.Native
open Library

/-- A dict keyed by host, in insertion order. -/
abbrev PerHost (α : Type) := List (Text × α)

abbrev PerHost.IsDict {α : Type} (perHost : PerHost α) : Prop := (perHost.map Prod.fst).Nodup

/-- What every host has, and what each has besides. -/
structure Deps where
  common : Finset Text
  extra : PerHost (Finset Text)
deriving DecidableEq

/-- `{o: v - common for o, v in per_host.items() if v - common}` -/
def besides (common : Finset Text) (perHost : PerHost (Finset Text)) : PerHost (Finset Text) :=
  perHost.filterMap fun (host, set) =>
    if set \ common = ∅ then none else some (host, set \ common)

def splitHosts (perHost : PerHost (Finset Text)) : Deps :=
  let common := match perHost with
    | [] => ∅
    | (_, first) :: rest => rest.foldl (fun common (_, set) => common ∩ set) first
  ⟨common, besides common perHost⟩

/-- `extra.setdefault(host, set()).update(more)` -/
def update (host : Text) (more : Finset Text) : PerHost (Finset Text) → PerHost (Finset Text)
  | [] => [(host, more)]
  | (other, set) :: rest =>
      if other = host then (other, set ∪ more) :: rest else (other, set) :: update host more rest

/-- Every host's set of `more`, added to what the host has. -/
def join (extra more : PerHost (Finset Text)) : PerHost (Finset Text) :=
  more.foldl (fun extra entry => update entry.1 entry.2 extra) extra

/-- The union of several dependency sets. -/
def plus (parts : List Deps) : Deps :=
  let common := parts.foldl (fun common part => common ∪ part.common) ∅
  ⟨common, besides common (parts.foldl (fun extra part => join extra part.extra) [])⟩

/-- A deps expression: a list, and the arms of a `select()` if there is one. -/
structure DepsExpr where
  listed : List Text
  arms : Option (List (Text × List Text))
deriving DecidableEq, Repr

def osConstraint (host : Text) : Text :=
  ['p', 'r', 'e', 'l', 'u', 'd', 'e', '/', '/', 'o', 's', ':'] ++ host

def defaultArm : Text := ['D', 'E', 'F', 'A', 'U', 'L', 'T']

def arm (entry : Text × Finset Text) : Text × List Text :=
  (osConstraint entry.1, sorted entry.2)

def selectDeps (deps : Deps) : DepsExpr where
  listed := sorted deps.common
  arms :=
    if deps.extra = [] then none
    else some ((deps.extra.insertionSort fun a b => a.1 ≤ b.1).map arm ++ [(defaultArm, [])])

/-- What the build makes of the expression on a host. -/
def DepsExpr.on (expr : DepsExpr) (host : Text) : List Text :=
  match expr.arms with
  | none => expr.listed
  | some arms =>
      expr.listed ++ ((arms.lookup (osConstraint host)).orElse
        fun _ => arms.lookup defaultArm).getD []

def Deps.on (deps : Deps) (host : Text) : Finset Text :=
  deps.common ∪ (deps.extra.lookup host).getD ∅

section Dicts

variable {α : Type} {perHost : PerHost α} {host : Text} {a : α}

theorem lookup_eq_some_iff_mem (h : perHost.IsDict) :
    perHost.lookup host = some a ↔ (host, a) ∈ perHost := by
  induction perHost with
  | nil => simp
  | cons entry rest ih =>
      obtain ⟨other, b⟩ := entry
      obtain ⟨hnot, hrest⟩ := List.nodup_cons.mp h
      rw [List.lookup_cons, List.mem_cons, Prod.mk.injEq]
      by_cases hsame : host = other
      · subst hsame
        have habsent : (host, a) ∉ rest :=
          fun hmem => hnot (List.mem_map.mpr ⟨_, hmem, rfl⟩)
        simp [habsent, eq_comm]
      · rw [beq_eq_false_iff_ne.mpr hsame]
        simp [ih hrest, hsame]

theorem lookup_eq_none_iff_not_mem :
    perHost.lookup host = none ↔ host ∉ perHost.map Prod.fst := by
  induction perHost with
  | nil => simp
  | cons entry rest ih =>
      obtain ⟨other, b⟩ := entry
      rw [List.lookup_cons, List.map_cons, List.mem_cons, not_or]
      by_cases hsame : host = other
      · simp [hsame]
      · rw [beq_eq_false_iff_ne.mpr hsame]
        simp [ih, hsame]

end Dicts

section Splitting

variable {perHost extra : PerHost (Finset Text)} {common set more : Finset Text}
  {host other dep : Text}

theorem besides_isDict (h : perHost.IsDict) : (besides common perHost).IsDict := by
  have hsub : ((besides common perHost).map Prod.fst).Sublist (perHost.map Prod.fst) := by
    unfold besides
    rw [List.map_filterMap]
    induction perHost with
    | nil => exact List.Sublist.refl _
    | cons entry rest ih =>
        have hrest := ih (List.nodup_cons.mp h).2
        rw [List.filterMap_cons, List.map_cons]
        split
        · exact hrest.cons _
        · rename_i kept hkept
          dsimp only at hkept
          split at hkept
          · cases hkept
          · cases hkept
            exact hrest.cons_cons _
  exact h.sublist hsub

theorem getD_besides (common : Finset Text) (host : Text) (h : perHost.IsDict) :
    ((besides common perHost).lookup host).getD ∅ = (perHost.lookup host).getD ∅ \ common := by
  cases hkept : (besides common perHost).lookup host with
  | some set =>
      rw [lookup_eq_some_iff_mem (besides_isDict h)] at hkept
      obtain ⟨⟨other, whole⟩, hmem, hset⟩ := List.mem_filterMap.mp hkept
      dsimp only at hset
      split at hset
      · cases hset
      · cases hset
        rw [(lookup_eq_some_iff_mem h).mpr hmem]
        rfl
  | none =>
      rw [lookup_eq_none_iff_not_mem] at hkept
      cases hwhole : perHost.lookup host with
      | none => simp
      | some whole =>
          rw [lookup_eq_some_iff_mem h] at hwhole
          rw [Option.getD_none, Option.getD_some, eq_comm]
          by_contra hne
          refine hkept (List.mem_map_of_mem (f := Prod.fst) (a := (host, whole \ common)) ?_)
          exact List.mem_filterMap.mpr ⟨_, hwhole, if_neg hne⟩

theorem mem_foldl_inter (first : Finset Text) (rest : PerHost (Finset Text)) :
    dep ∈ rest.foldl (fun common (_, set) => common ∩ set) first ↔
      dep ∈ first ∧ ∀ entry ∈ rest, dep ∈ entry.2 := by
  induction rest generalizing first with
  | nil => simp
  | cons entry rest ih =>
      rw [List.foldl_cons, ih, Finset.mem_inter, List.forall_mem_cons, and_assoc]

/-- A split loses nothing and adds nothing, on each of the hosts. -/
theorem on_splitHosts (h : perHost.IsDict) (hset : (host, set) ∈ perHost) :
    (splitHosts perHost).on host = set := by
  have hcommon : (splitHosts perHost).common ⊆ set := by
    intro dep hdep
    cases perHost with
    | nil => cases hset
    | cons entry rest =>
        obtain ⟨hfirst, hrest⟩ := (mem_foldl_inter entry.2 rest).mp hdep
        rcases List.mem_cons.mp hset with heq | hmem
        · rw [← heq] at hfirst
          exact hfirst
        · exact hrest _ hmem
  have hextra := getD_besides (splitHosts perHost).common host h
  rw [(lookup_eq_some_iff_mem h).mpr hset, Option.getD_some] at hextra
  have hon : (splitHosts perHost).on host =
      (splitHosts perHost).common ∪ ((besides (splitHosts perHost).common perHost).lookup host).getD ∅ :=
    rfl
  rw [hon, hextra]
  exact Finset.union_sdiff_of_subset hcommon

theorem keys_update : ∀ key, key ∈ (update host more extra).map Prod.fst ↔
    key = host ∨ key ∈ extra.map Prod.fst := by
  intro key
  induction extra with
  | nil => simp [update]
  | cons entry rest ih =>
      rw [update]
      split
      · rename_i hsame
        rw [List.map_cons, List.map_cons, hsame, List.mem_cons, or_self_left]
      · rw [List.map_cons, List.map_cons, List.mem_cons, ih, List.mem_cons, or_left_comm]

theorem update_isDict (host : Text) (more : Finset Text) (h : extra.IsDict) : (update host more extra).IsDict := by
  induction extra with
  | nil => exact List.nodup_singleton host
  | cons entry rest ih =>
      obtain ⟨hnot, hrest⟩ := List.nodup_cons.mp h
      rw [update]
      split
      · exact h
      · rename_i hne
        refine List.nodup_cons.mpr ⟨?_, ih hrest⟩
        rw [keys_update, not_or]
        exact ⟨hne, hnot⟩

theorem getD_update : ((update host more extra).lookup other).getD ∅ =
    (extra.lookup other).getD ∅ ∪ if other = host then more else ∅ := by
  induction extra with
  | nil =>
      rw [update, List.lookup_cons]
      by_cases hsame : other = host
      · simp [hsame]
      · rw [beq_eq_false_iff_ne.mpr hsame]
        simp [hsame]
  | cons entry rest ih =>
      obtain ⟨key, set⟩ := entry
      rw [update]
      by_cases hkey : key = host
      · rw [if_pos hkey, List.lookup_cons, List.lookup_cons]
        by_cases hsame : other = key
        · simp [hsame, hkey]
        · rw [beq_eq_false_iff_ne.mpr hsame, if_neg (hkey ▸ hsame), Finset.union_empty]
      · rw [if_neg hkey, List.lookup_cons, List.lookup_cons]
        by_cases hsame : other = key
        · subst hsame
          simp [hkey]
        · rw [beq_eq_false_iff_ne.mpr hsame]
          exact ih

theorem join_spec (host : Text) (h : extra.IsDict) {more : PerHost (Finset Text)}
    (hmore : more.IsDict) : (join extra more).IsDict ∧
      ((join extra more).lookup host).getD ∅ =
        (extra.lookup host).getD ∅ ∪ (more.lookup host).getD ∅ := by
  unfold join
  induction more generalizing extra with
  | nil => exact ⟨h, (Finset.union_empty _).symm⟩
  | cons entry rest ih =>
      obtain ⟨key, set⟩ := entry
      obtain ⟨hnot, hrest⟩ := List.nodup_cons.mp hmore
      obtain ⟨hdict, hlookup⟩ := ih (update_isDict key set h) hrest
      refine ⟨hdict, ?_⟩
      rw [List.foldl_cons, hlookup, getD_update, List.lookup_cons, Finset.union_assoc]
      by_cases hsame : host = key
      · subst hsame
        have habsent : rest.lookup host = none := lookup_eq_none_iff_not_mem.mpr hnot
        simp [habsent]
      · rw [beq_eq_false_iff_ne.mpr hsame, if_neg hsame, Finset.empty_union]

end Splitting

section Joining

variable {parts : List Deps} {host dep : Text}

theorem mem_foldl_common (parts : List Deps) (common : Finset Text) :
    dep ∈ parts.foldl (fun common part => common ∪ part.common) common ↔
      dep ∈ common ∨ ∃ part ∈ parts, dep ∈ part.common := by
  induction parts generalizing common with
  | nil => simp
  | cons part parts ih =>
      rw [List.foldl_cons, ih, Finset.mem_union, or_assoc]
      simp only [List.mem_cons, exists_eq_or_imp]

theorem joined_spec (dep host : Text) (hdict : ∀ part ∈ parts, part.extra.IsDict)
    (extra : PerHost (Finset Text)) (h : extra.IsDict) :
    (parts.foldl (fun extra part => join extra part.extra) extra).IsDict ∧
      (dep ∈ ((parts.foldl (fun extra part => join extra part.extra) extra).lookup host).getD ∅ ↔
        dep ∈ (extra.lookup host).getD ∅ ∨
          ∃ part ∈ parts, dep ∈ (part.extra.lookup host).getD ∅) := by
  induction parts generalizing extra with
  | nil => simpa using h
  | cons part parts ih =>
      obtain ⟨hfirst, hrest⟩ := List.forall_mem_cons.mp hdict
      obtain ⟨hnext, hlookup⟩ := join_spec host h hfirst
      obtain ⟨hlast, hmem⟩ := ih hrest _ hnext
      refine ⟨hlast, ?_⟩
      rw [List.foldl_cons, hmem, hlookup, Finset.mem_union, or_assoc]
      simp only [List.mem_cons, exists_eq_or_imp]

/-- A union of parts is on each host the union of what the parts are there. -/
theorem mem_on_plus (hdict : ∀ part ∈ parts, part.extra.IsDict) :
    dep ∈ (plus parts).on host ↔ ∃ part ∈ parts, dep ∈ part.on host := by
  obtain ⟨hjoined, hmem⟩ := joined_spec dep host hdict [] List.nodup_nil
  have hkept := getD_besides (plus parts).common host hjoined
  have hon : (plus parts).on host = (plus parts).common ∪ ((besides (plus parts).common
      (parts.foldl (fun extra part => join extra part.extra) [])).lookup host).getD ∅ := rfl
  have hcommon : dep ∈ (plus parts).common ↔ ∃ part ∈ parts, dep ∈ part.common :=
    (mem_foldl_common parts ∅).trans (by simp)
  rw [hon, hkept, Finset.union_sdiff_self_eq_union, Finset.mem_union, hcommon, hmem]
  simp only [List.lookup_nil, Option.getD_none, Finset.notMem_empty, false_or]
  rw [← exists_or]
  simp only [← and_or_left, Deps.on, Finset.mem_union]

/-- No host has a dependency twice. -/
def Deps.Apart (deps : Deps) : Prop :=
  deps.extra.IsDict ∧ ∀ host, Disjoint deps.common ((deps.extra.lookup host).getD ∅)

theorem apart_plus (hdict : ∀ part ∈ parts, part.extra.IsDict) : (plus parts).Apart := by
  obtain ⟨hjoined, -⟩ := joined_spec [] [] hdict [] List.nodup_nil
  refine ⟨besides_isDict hjoined, fun host => ?_⟩
  have hkept := getD_besides (plus parts).common host hjoined
  have hextra : ((plus parts).extra.lookup host).getD ∅ = _ := hkept
  rw [hextra]
  exact Finset.disjoint_sdiff

theorem apart_splitHosts {perHost : PerHost (Finset Text)} (h : perHost.IsDict) :
    (splitHosts perHost).Apart := by
  refine ⟨besides_isDict h, fun host => ?_⟩
  have hextra : ((splitHosts perHost).extra.lookup host).getD ∅ = _ :=
    getD_besides (splitHosts perHost).common host h
  rw [hextra]
  exact Finset.disjoint_sdiff

end Joining

section Rendering

variable {deps : Deps} {host : Text}

theorem osConstraint_ne_defaultArm (host : Text) : (osConstraint host == defaultArm) = false := by
  have hhead : ('p' == 'D') = false := by decide
  rw [osConstraint, defaultArm, List.cons_append, List.cons_beq_cons, hhead, Bool.false_and]

theorem osConstraint_injective : Function.Injective osConstraint :=
  List.append_right_injective _

theorem lookup_arms (extra : PerHost (Finset Text)) (host : Text) :
    (extra.map arm ++ [(defaultArm, [])]).lookup (osConstraint host) =
        (extra.lookup host).map sorted := by
  induction extra with
  | nil =>
      rw [List.map_nil, List.nil_append, List.lookup_cons, osConstraint_ne_defaultArm]
      rfl
  | cons entry rest ih =>
      obtain ⟨other, set⟩ := entry
      rw [List.map_cons, List.cons_append, arm, List.lookup_cons, List.lookup_cons]
      by_cases hsame : host = other
      · simp [hsame]
      · have hother := osConstraint_injective.ne hsame
        rw [beq_eq_false_iff_ne.mpr hsame, beq_eq_false_iff_ne.mpr hother]
        exact ih

theorem lookup_default (extra : PerHost (Finset Text)) :
    (extra.map arm ++ [(defaultArm, [])]).lookup defaultArm = some [] := by
  induction extra with
  | nil => rfl
  | cons entry rest ih =>
      have hother := beq_eq_false_iff_ne.mp (osConstraint_ne_defaultArm entry.1)
      rw [List.map_cons, List.cons_append, arm, List.lookup_cons,
        beq_eq_false_iff_ne.mpr hother.symm]
      exact ih

theorem lookup_insertionSort {extra : PerHost (Finset Text)} (h : extra.IsDict) (host : Text) :
    (extra.insertionSort fun a b => a.1 ≤ b.1).lookup host = extra.lookup host := by
  have hperm : (extra.insertionSort fun a b => a.1 ≤ b.1).Perm extra := List.perm_insertionSort ..
  have hsorted : PerHost.IsDict (extra.insertionSort fun a b => a.1 ≤ b.1) :=
    (hperm.map Prod.fst).nodup_iff.mpr h
  apply Option.ext
  intro set
  rw [lookup_eq_some_iff_mem hsorted, lookup_eq_some_iff_mem h, hperm.mem_iff]

/-- On a host the expression is the common list and what the host adds, sorted. -/
theorem on_selectDeps (h : deps.extra.IsDict) (host : Text) :
    (selectDeps deps).on host =
      sorted deps.common ++ sorted ((deps.extra.lookup host).getD ∅) := by
  unfold DepsExpr.on selectDeps
  by_cases hnone : deps.extra = []
  · simp [hnone]
  · rw [if_neg hnone]
    dsimp only
    rw [lookup_arms, lookup_default, lookup_insertionSort h]
    cases deps.extra.lookup host with
    | none => simp
    | some set => rfl

/-- The target takes on each host exactly what the parts come to there, each
dependency once. -/
theorem rendered_on_host (h : deps.Apart) (host : Text) :
    ((selectDeps deps).on host).Nodup ∧
      ∀ dep, dep ∈ (selectDeps deps).on host ↔ dep ∈ deps.on host := by
  rw [on_selectDeps h.1]
  constructor
  · rw [List.nodup_append]
    refine ⟨sorted_nodup _, sorted_nodup _, ?_⟩
    rintro dep hcommon other hextra rfl
    rw [mem_sorted] at hcommon hextra
    exact Finset.disjoint_left.mp (h.2 host) hcommon hextra
  · intro dep
    rw [List.mem_append, mem_sorted, mem_sorted, Deps.on, Finset.mem_union]

end Rendering

/-- What a target is given of several per-host sets and its own library: on each
of the hosts the rendered `deps` is exactly their union there, with nothing
listed twice and nothing of another host. -/
theorem target_deps_on_host {perHosts : List (PerHost (Finset Text))}
    (hdict : ∀ perHost ∈ perHosts, perHost.IsDict) (own : Finset Text) {host : Text}
    (hhost : ∀ perHost ∈ perHosts, host ∈ perHost.map Prod.fst) :
    let deps := (selectDeps (plus (perHosts.map splitHosts ++ [⟨own, []⟩]))).on host
    deps.Nodup ∧ ∀ dep, dep ∈ deps ↔
      dep ∈ own ∨ ∃ perHost ∈ perHosts, ∃ set, (host, set) ∈ perHost ∧ dep ∈ set := by
  have hparts : ∀ part ∈ perHosts.map splitHosts ++ [⟨own, []⟩], part.extra.IsDict := by
    rw [List.forall_mem_append, List.forall_mem_map]
    refine ⟨fun perHost hmem => besides_isDict (hdict perHost hmem), ?_⟩
    rw [List.forall_mem_singleton]
    exact List.nodup_nil
  obtain ⟨hnodup, hmem⟩ := rendered_on_host (apart_plus hparts) host
  refine ⟨hnodup, fun dep => ?_⟩
  rw [hmem, mem_on_plus hparts]
  constructor
  · rintro ⟨part, hpart, hdep⟩
    rcases List.mem_append.mp hpart with hsplit | hown
    · obtain ⟨perHost, hper, rfl⟩ := List.mem_map.mp hsplit
      obtain ⟨⟨other, set⟩, hset, hother⟩ := List.mem_map.mp (hhost perHost hper)
      obtain rfl : other = host := hother
      rw [on_splitHosts (hdict perHost hper) hset] at hdep
      exact .inr ⟨perHost, hper, set, hset, hdep⟩
    · rw [List.mem_singleton.mp hown, Deps.on, List.lookup_nil, Option.getD_none,
        Finset.union_empty] at hdep
      exact .inl hdep
  · rintro (hdep | ⟨perHost, hper, set, hset, hdep⟩)
    · refine ⟨⟨own, []⟩, by simp, ?_⟩
      rw [Deps.on, List.lookup_nil, Option.getD_none, Finset.union_empty]
      exact hdep
    · refine ⟨splitHosts perHost, List.mem_append_left _ (List.mem_map_of_mem hper), ?_⟩
      rwa [on_splitHosts (hdict perHost hper) hset]

def Sample.normal : PerHost (Finset Text) :=
  [("linux".toList, {":rust-core".toList, "//third-party:libc".toList}),
    ("macos".toList, {":rust-core".toList})]

theorem target_deps_on_host_of_linux :
    "//third-party:libc".toList ∈ (selectDeps (plus
      ([Sample.normal].map splitHosts ++ [⟨{":rust-app".toList}, []⟩]))).on "linux".toList := by
  have hdict : ∀ perHost ∈ [Sample.normal], perHost.IsDict := by
    rw [List.forall_mem_singleton]
    decide +kernel
  have hhost : ∀ perHost ∈ [Sample.normal], "linux".toList ∈ perHost.map Prod.fst := by
    rw [List.forall_mem_singleton]
    decide +kernel
  have hdeps := target_deps_on_host hdict {":rust-app".toList} hhost
  refine (hdeps.2 _).mpr (.inr ⟨Sample.normal, List.mem_singleton_self _,
    {":rust-core".toList, "//third-party:libc".toList}, ?_, ?_⟩)
  · exact List.mem_cons_self ..
  · decide +kernel

end AccountDirectory.Native
