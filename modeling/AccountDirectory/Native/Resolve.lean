import AccountDirectory.Native.CargoTree
import AccountDirectory.Native.Hosts

/-! `resolve` of the native renderer: what a configuration resolves to on every
host, merged. A package has one feature set, so hosts that disagree are refused;
what it depends on may differ, and is kept apart. -/
namespace AccountDirectory.Native

structure Merged where
  features : Finset Text
  firstParty : PerHost (Finset Text)
  thirdParty : PerHost (Finset (Text × Text))
deriving DecidableEq

/-- `{package} resolves with different features on {hosts}: {features}` -/
structure FeaturesDiffer where
  package : Text
  features : PerHost (Finset Text)
deriving DecidableEq

def featuresOn (perHost : PerHost Resolved) (package : Text) : PerHost (Finset Text) :=
  perHost.filterMap fun (host, resolved) =>
    if package ∈ resolved then some (host, (resolved.entry package).features.getD ∅) else none

/-- What each host resolves the package to depend on, nothing where it does not resolve it. -/
def merge (perHost : PerHost Resolved) (package : Text) : Except FeaturesDiffer Merged :=
  let feats := featuresOn perHost package
  if 1 < (feats.map Prod.snd).dedup.length then .error ⟨package, feats⟩
  else .ok {
    features := (feats.head?.map Prod.snd).getD ∅
    firstParty := perHost.map fun (host, resolved) => (host, (resolved.entry package).firstParty)
    thirdParty := perHost.map fun (host, resolved) => (host, (resolved.entry package).thirdParty) }

def packages (perHost : PerHost Resolved) : Finset Text :=
  perHost.foldr (fun (_, resolved) names => resolved.keys ∪ names) ∅

/-- `resolve`, for a configuration that is not a wasm build. -/
def resolve (perHost : PerHost Resolved) : Except FeaturesDiffer (List (Text × Merged)) :=
  (sorted (packages perHost)).mapM fun package =>
    (merge perHost package).map fun merged => (package, merged)

section Merging

variable {perHost : PerHost Resolved} {package : Text} {entry : Text × Merged}

theorem mem_packages : package ∈ packages perHost ↔ ∃ host ∈ perHost, package ∈ host.2 := by
  induction perHost with
  | nil => simp [packages]
  | cons host rest ih =>
      have hunion : packages (host :: rest) = host.2.keys ∪ packages rest := rfl
      rw [hunion, Finset.mem_union, Finmap.mem_keys, ih]
      simp only [List.mem_cons, exists_eq_or_imp]

theorem mem_featuresOn {feats : Finset Text} :
    feats ∈ (featuresOn perHost package).map Prod.snd ↔
      ∃ host ∈ perHost, package ∈ host.2 ∧ (host.2.entry package).features.getD ∅ = feats := by
  unfold featuresOn
  simp only [List.mem_map, List.mem_filterMap]
  constructor
  · rintro ⟨_, ⟨host, hmem, hkept⟩, rfl⟩
    split at hkept
    · rename_i hin
      cases hkept
      exact ⟨host, hmem, hin, rfl⟩
    · cases hkept
  · rintro ⟨host, hmem, hin, rfl⟩
    exact ⟨_, ⟨host, hmem, if_pos hin⟩, rfl⟩

/-- More than one distinct value: two of them differ. -/
theorem one_lt_dedup_iff {α : Type} [DecidableEq α] {values : List α} :
    1 < values.dedup.length ↔ ∃ a ∈ values, ∃ b ∈ values, a ≠ b := by
  have hcard : values.dedup.length = values.toFinset.card := (List.card_toFinset values).symm
  rw [hcard, Finset.one_lt_card]
  simp only [List.mem_toFinset]

theorem merge_error_iff : (∃ refused, merge perHost package = .error refused) ↔
    ∃ one ∈ perHost, ∃ other ∈ perHost, package ∈ one.2 ∧ package ∈ other.2 ∧
      (one.2.entry package).features.getD ∅ ≠ (other.2.entry package).features.getD ∅ := by
  have hrefused : (∃ refused, merge perHost package = .error refused) ↔
      1 < ((featuresOn perHost package).map Prod.snd).dedup.length := by
    unfold merge
    dsimp only
    split
    · rename_i hmany
      exact iff_of_true ⟨_, rfl⟩ hmany
    · rename_i hone
      exact iff_of_false (fun ⟨_, herror⟩ => nomatch herror) hone
  rw [hrefused, one_lt_dedup_iff]
  constructor
  · rintro ⟨a, ha, b, hb, hne⟩
    obtain ⟨one, hone, hin, rfl⟩ := mem_featuresOn.mp ha
    obtain ⟨other, hother, hin', rfl⟩ := mem_featuresOn.mp hb
    exact ⟨one, hone, other, hother, hin, hin', hne⟩
  · rintro ⟨one, hone, other, hother, hin, hin', hne⟩
    exact ⟨_, mem_featuresOn.mpr ⟨one, hone, hin, rfl⟩, _,
      mem_featuresOn.mpr ⟨other, hother, hin', rfl⟩, hne⟩

theorem merge_ok {merged : Merged} (h : merge perHost package = .ok merged) :
    (∀ host ∈ perHost, package ∈ host.2 →
      (host.2.entry package).features.getD ∅ = merged.features) ∧
    merged.firstParty = perHost.map (fun host => (host.1, (host.2.entry package).firstParty)) ∧
    merged.thirdParty = perHost.map fun host => (host.1, (host.2.entry package).thirdParty) := by
  have hagree : ¬ 1 < ((featuresOn perHost package).map Prod.snd).dedup.length := by
    intro hmany
    rw [merge, if_pos hmany] at h
    cases h
  rw [merge, if_neg hagree] at h
  cases h
  refine ⟨?_, rfl, rfl⟩
  intro host hmem hin
  have hhost := mem_featuresOn.mpr ⟨host, hmem, hin, rfl⟩
  cases hfeats : featuresOn perHost package with
  | nil =>
      rw [hfeats] at hhost
      cases hhost
  | cons first rest =>
      by_contra hne
      have hfirst : first.2 ∈ (featuresOn perHost package).map Prod.snd := by simp [hfeats]
      exact hagree (one_lt_dedup_iff.mpr ⟨_, hhost, _, hfirst, hne⟩)

theorem mapM_cons_eq_ok {ε α β : Type} {f : α → Except ε β} {x : α} {xs : List α} {ys : List β} :
    (x :: xs).mapM f = .ok ys ↔
      ∃ y rest, f x = .ok y ∧ xs.mapM f = .ok rest ∧ ys = y :: rest := by
  rw [List.mapM_cons]
  rcases f x with e | y
  · exact iff_of_false nofun nofun
  · rcases xs.mapM f with e | rest
    · exact iff_of_false nofun nofun
    · constructor
      · intro h
        exact ⟨y, rest, rfl, rfl, (Except.ok.inj h).symm⟩
      · rintro ⟨_, _, ⟨⟩, ⟨⟩, rfl⟩
        rfl

theorem mapM_eq_error_iff {ε α β : Type} {f : α → Except ε β} {xs : List α} :
    (∃ e, xs.mapM f = .error e) ↔ ∃ x ∈ xs, ∃ e, f x = .error e := by
  induction xs with
  | nil =>
      refine iff_of_false ?_ ?_
      · rintro ⟨_, h⟩
        cases h
      · rintro ⟨_, hmem, -⟩
        cases hmem
  | cons x xs ih =>
      rw [List.mapM_cons]
      simp only [List.mem_cons, exists_eq_or_imp, ← ih]
      rcases f x with e | y
      · exact iff_of_true ⟨e, rfl⟩ (.inl ⟨e, rfl⟩)
      · rcases xs.mapM f with e | rest
        · exact iff_of_true ⟨e, rfl⟩ (.inr ⟨e, rfl⟩)
        · refine iff_of_false ?_ ?_
          · rintro ⟨_, h⟩
            cases h
          · rintro (⟨_, h⟩ | ⟨_, h⟩) <;> cases h

theorem resolve_error_iff : (∃ refused, resolve perHost = .error refused) ↔
    ∃ package, ∃ refused, merge perHost package = .error refused := by
  unfold resolve
  rw [mapM_eq_error_iff]
  constructor
  · rintro ⟨package, -, refused, herror⟩
    cases hmerge : merge perHost package with
    | error refused => exact ⟨package, refused, hmerge⟩
    | ok merged =>
        rw [hmerge] at herror
        cases herror
  · rintro ⟨package, refused, hmerge⟩
    obtain ⟨host, hmem, -, -, hin, -⟩ := merge_error_iff.mp ⟨refused, hmerge⟩
    refine ⟨package, ?_, refused, ?_⟩
    · exact mem_sorted.mpr (mem_packages.mpr ⟨host, hmem, hin⟩)
    · rw [hmerge]
      rfl

/-- A configuration that is resolved has its packages once each, in the order of their names. -/
theorem resolve_ok {merged : List (Text × Merged)} (h : resolve perHost = .ok merged) :
    merged.map Prod.fst = sorted (packages perHost) ∧
      ∀ entry ∈ merged, merge perHost entry.1 = .ok entry.2 := by
  unfold resolve at h
  generalize sorted (packages perHost) = names at h ⊢
  induction names generalizing merged with
  | nil =>
      cases h
      exact ⟨rfl, List.forall_mem_nil _⟩
  | cons package names ih =>
      obtain ⟨entry, rest, hentry, hrest, rfl⟩ := mapM_cons_eq_ok.mp h
      obtain ⟨hnames, hall⟩ := ih hrest
      cases hmerge : merge perHost package with
      | error refused =>
          rw [hmerge] at hentry
          cases hentry
      | ok merged =>
          rw [hmerge] at hentry
          cases hentry
          rw [List.map_cons, hnames]
          exact ⟨rfl, List.forall_mem_cons.mpr ⟨hmerge, hall⟩⟩

end Merging

/-- What `cargo tree` printed for one host, blank lines and all. -/
structure HostTree where
  host : Text
  forest : Forest
  out : List Text
  plain : ∀ visit ∈ forest.visits none, visit.2.Plain
  printed : out.filter (· ≠ []) = forest.lines 0

def HostTree.resolved (members : Finset Text) (tree : HostTree) : Text × Resolved :=
  (tree.host, resolveFor members tree.out)

def Forest.Has (forest : Forest) (package : Text) : Prop :=
  ∃ printed, forest.Prints printed ∧ printed.name = package

/-- The feature stands on one of the package's lines. -/
def Forest.Enables (forest : Forest) (package feature : Text) : Prop :=
  ∃ printed, forest.Prints printed ∧ printed.name = package ∧ feature ∈ printed.features

/-- The two trees have the package with different features. -/
def Forest.Disagree (package : Text) (one other : Forest) : Prop :=
  one.Has package ∧ other.Has package ∧
    ∃ feature, ¬ (one.Enables package feature ↔ other.Enables package feature)

section Trees

variable {members : Finset Text} {trees : List HostTree} {package : Text}

theorem HostTree.mem_resolved (tree : HostTree) : package ∈ (tree.resolved members).2 ↔
    package ∈ members ∧ tree.forest.Has package :=
  mem_resolveFor tree.plain tree.printed

theorem HostTree.mem_features (tree : HostTree) {feature : Text} (hmember : package ∈ members) :
    feature ∈ ((tree.resolved members).2.entry package).features.getD ∅ ↔
      tree.forest.Enables package feature := by
  exact (mem_features_resolveFor tree.plain tree.printed).trans (and_iff_right hmember)

theorem merge_trees_error_iff :
    (∃ refused, merge (trees.map (HostTree.resolved members)) package = .error refused) ↔
      package ∈ members ∧ ∃ one ∈ trees, ∃ other ∈ trees,
        one.forest.Disagree package other.forest := by
  have hdiffer : ∀ one other : HostTree, package ∈ members →
      (((one.resolved members).2.entry package).features.getD ∅ ≠
          ((other.resolved members).2.entry package).features.getD ∅ ↔
        ∃ feature, ¬ (one.forest.Enables package feature ↔
          other.forest.Enables package feature)) := by
    intro one other hmember
    rw [Ne, Finset.ext_iff, not_forall]
    simp only [HostTree.mem_features _ hmember]
  rw [merge_error_iff]
  constructor
  · rintro ⟨_, hone, _, hother, hin, hin', hne⟩
    obtain ⟨one, hone', rfl⟩ := List.mem_map.mp hone
    obtain ⟨other, hother', rfl⟩ := List.mem_map.mp hother
    obtain ⟨hmember, hhas⟩ := one.mem_resolved.mp hin
    exact ⟨hmember, one, hone', other, hother', hhas, (other.mem_resolved.mp hin').2,
      (hdiffer one other hmember).mp hne⟩
  · rintro ⟨hmember, one, hone, other, hother, hhas, hhas', hne⟩
    exact ⟨_, List.mem_map_of_mem hone, _, List.mem_map_of_mem hother,
      one.mem_resolved.mpr ⟨hmember, hhas⟩, other.mem_resolved.mpr ⟨hmember, hhas'⟩,
      (hdiffer one other hmember).mpr hne⟩

end Trees

end AccountDirectory.Native
