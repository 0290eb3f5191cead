import AccountDirectory.Library.Worklist
import AccountDirectory.Native.Identity

/-! What a library's doctests are compiled against: its dev-dependencies, less
those that depend on it, since rustdoc is given them on the library itself. -/
namespace AccountDirectory.Native
open Library

variable {W : Workspace} {cfg pkg dep label host name : Text} {state s' : Rendering} {fuel : Nat}
  {cfgs labels : List Text}

section Definitions

variable (W : Workspace)

/-- Every first-party package the package depends on, on any host and of any kind. -/
def Workspace.takes (cfg q : Text) : List Text :=
  (((W.resolved cfg).lookup q).map fun merged =>
    sorted (merged.firstParty.foldr (fun entry deps => entry.2 ∪ deps) ∅)).getD []

/-- Whether `start` depends, however far down, on `goal`. -/
def Workspace.reaches (cfg start goal : Text) : Bool :=
  (search ((W.resolved cfg).map Prod.fst).toFinset (W.takes cfg) (fun q => q = goal) ∅
    [start]).isNone

/-- A label is kept that is not a first-party package's, or whose package is
another and does not depend on this one. -/
def Workspace.keep (state : Rendering) (pkg label : Text) : Bool :=
  match state.labelPkg.lookup label with
  | none => true
  | some dep => dep ≠ pkg && !W.reaches testConfig dep pkg

def Workspace.docDeps (state : Rendering) (pkg : Text) (dev : Deps) : Deps where
  common := dev.common.filter fun label => W.keep state pkg label
  extra := dev.extra.map fun entry => (entry.1, entry.2.filter fun label => W.keep state pkg label)

end Definitions

def Workspace.Depends (W : Workspace) (cfg one other : Text) : Prop :=
  ∃ merged, (one, merged) ∈ W.resolved cfg ∧ ∃ entry ∈ merged.firstParty, other ∈ entry.2

section Reaching

theorem mem_union_hosts {perHost : PerHost (Finset Text)} :
    dep ∈ perHost.foldr (fun entry deps => entry.2 ∪ deps) ∅ ↔
      ∃ entry ∈ perHost, dep ∈ entry.2 := by
  induction perHost with
  | nil => simp
  | cons entry rest ih =>
      rw [List.foldr_cons, Finset.mem_union, ih]
      simp only [List.mem_cons, exists_eq_or_imp]

theorem steps_iff (hdicts : W.Dicts) {one other : Text} :
    Steps ((W.resolved cfg).map Prod.fst).toFinset (W.takes cfg) one other ↔
      W.Depends cfg one other := by
  unfold Steps Workspace.takes Workspace.Depends
  rw [List.mem_toFinset]
  cases hlookup : (W.resolved cfg).lookup one with
  | none =>
      refine iff_of_false (fun h => by cases h.2) ?_
      rintro ⟨merged, hmem, -⟩
      rw [← lookup_eq_some_iff_mem (hdicts.resolved cfg), hlookup] at hmem
      cases hmem
  | some merged =>
      have hentry := (lookup_eq_some_iff_mem (hdicts.resolved cfg)).mp hlookup
      rw [Option.map_some, Option.getD_some, mem_sorted, mem_union_hosts]
      constructor
      · exact fun h => ⟨merged, hentry, h.2⟩
      · rintro ⟨merged', hmem, hdep⟩
        rw [← lookup_eq_some_iff_mem (hdicts.resolved cfg), hlookup] at hmem
        cases hmem
        exact ⟨List.mem_map_of_mem hentry, hdep⟩

theorem reaches_iff (hdicts : W.Dicts) {start goal : Text} :
    W.reaches cfg start goal = true ↔ Relation.ReflTransGen (W.Depends cfg) start goal := by
  have hsteps : Steps ((W.resolved cfg).map Prod.fst).toFinset (W.takes cfg) = W.Depends cfg := by
    ext one other
    exact steps_iff hdicts
  rw [Workspace.reaches, Option.isNone_iff_eq_none, search_eq_none_iff, Reaches, hsteps]
  constructor
  · rintro ⟨_, hstart, _, hgoal, hreach⟩
    obtain rfl := List.mem_singleton.mp hstart
    obtain rfl := of_decide_eq_true hgoal
    exact hreach
  · exact fun hreach => ⟨start, List.mem_singleton_self _, goal, decide_eq_true rfl, hreach⟩

end Reaching

section Tagging

/-- Every label that is given to a known package leads back to a package, and
to none but one whose key has the name in the label; and every name is some known
package's of the configurations. -/
structure Workspace.Tagged (W : Workspace) (cfgs : List Text) (state : Rendering) : Prop where
  named : ∀ {label pkg}, state.labelPkg.lookup label = some pkg →
    ∃ key name, (key, name) ∈ state.names ∧ key.package = pkg ∧ label = W.edgeLabel pkg name
  known : ∀ {cfg pkg known}, state.keys.lookup (cfg, pkg) = some known → cfg ∈ cfgs ∧
    ∃ dep, state.labelPkg.lookup (W.edgeLabel pkg known.name) = some dep
  owned : ∀ entry ∈ state.names, ∃ unit known, state.keys.lookup unit = some known ∧
    known.name = entry.2

/-- Names and labels that are there stay. -/
structure Rendering.Adds (state state' : Rendering) : Prop where
  names : state.names ⊆ state'.names
  labels : ∀ {label dep}, state.labelPkg.lookup label = some dep →
    ∃ dep', state'.labelPkg.lookup label = some dep'

theorem Rendering.Adds.refl (state : Rendering) : state.Adds state :=
  ⟨List.Subset.refl _, fun h => ⟨_, h⟩⟩

theorem Rendering.Adds.trans {a b c : Rendering} (hab : a.Adds b) (hbc : b.Adds c) : a.Adds c := by
  refine ⟨List.Subset.trans hab.names hbc.names, fun h => ?_⟩
  obtain ⟨dep, hdep⟩ := hab.labels h
  exact hbc.labels hdep

variable {crate : Crate} {links : PerHost Links} {features : Finset Text} {dev : List (List Text)}

@[simp] theorem intern_labelPkg :
    (W.intern cfg pkg features links state).1.labelPkg = state.labelPkg := by
  unfold Workspace.intern
  dsimp only
  split
  · rfl
  · exact emitLib_labelPkg

theorem remember_labelPkg : (W.remember cfg pkg crate links state).1.labelPkg =
    state.labelPkg.insert (W.edgeLabel pkg (W.remember cfg pkg crate links state).2) pkg := by
  unfold Workspace.remember
  dsimp only
  rw [take_labelPkg, intern_labelPkg]

theorem Workspace.Tagged.remember (h : W.Tagged cfgs state) (hcfg : cfg ∈ cfgs)
    (hgrows : state.Grows (W.remember cfg pkg crate links state).1) :
    W.Tagged cfgs (W.remember cfg pkg crate links state).1 ∧
      state.Adds (W.remember cfg pkg crate links state).1 := by
  obtain ⟨hsub, hmem, hnew⟩ := intern_names W cfg pkg crate.features links state
  have hnames : (W.remember cfg pkg crate links state).1.names =
      (W.intern cfg pkg crate.features links state).1.names := take_names
  have hlabels : ∀ {label dep}, state.labelPkg.lookup label = some dep →
      ∃ dep', (W.remember cfg pkg crate links state).1.labelPkg.lookup label = some dep' := by
    intro label dep hdep
    rw [remember_labelPkg]
    by_cases hsame : label = W.edgeLabel pkg (W.remember cfg pkg crate links state).2
    · exact ⟨pkg, by rw [hsame, Finmap.lookup_insert]⟩
    · exact ⟨dep, by rw [Finmap.lookup_insert_of_ne _ hsame, hdep]⟩
  refine ⟨⟨?_, ?_, ?_⟩, ⟨hnames ▸ hsub, hlabels⟩⟩
  · intro label dep hdep
    rw [hnames]
    rw [remember_labelPkg] at hdep
    by_cases hsame : label = W.edgeLabel pkg (W.remember cfg pkg crate links state).2
    · rw [hsame, Finmap.lookup_insert] at hdep
      cases hdep
      exact ⟨_, _, hmem, keyOf_package, hsame⟩
    · rw [Finmap.lookup_insert_of_ne _ hsame] at hdep
      obtain ⟨key, name, hold, hpkg, hlabel⟩ := h.named hdep
      exact ⟨key, name, hsub hold, hpkg, hlabel⟩
  · intro cfg' pkg' known hknown
    rw [remember_keys] at hknown
    by_cases hsame : (cfg', pkg') = (cfg, pkg)
    · rw [hsame, Finmap.lookup_insert] at hknown
      cases hknown
      obtain ⟨rfl, rfl⟩ := Prod.mk.inj hsame
      exact ⟨hcfg, pkg', by rw [remember_labelPkg, Finmap.lookup_insert]⟩
    · rw [Finmap.lookup_insert_of_ne _ hsame] at hknown
      obtain ⟨hin, dep, hdep⟩ := h.known hknown
      exact ⟨hin, hlabels hdep⟩
  · intro entry hentry
    rw [hnames] at hentry
    rcases hnew entry hentry with hold | hname
    · obtain ⟨unit, known, hknown, hname⟩ := h.owned entry hold
      obtain ⟨later, hlater, hsame⟩ := hgrows.keys hknown
      exact ⟨unit, later, hlater, hsame.trans hname⟩
    · exact ⟨(cfg, pkg), _, by rw [remember_keys, Finmap.lookup_insert], hname.symm⟩

theorem Workspace.Tagged.finish (h : W.Tagged cfgs state) (hcfg : cfg ∈ cfgs)
    (hgrows : state.Grows (W.finish cfg pkg crate links name dev state))
    (hlabel : ∃ dep, state.labelPkg.lookup (W.edgeLabel pkg name) = some dep) :
    W.Tagged cfgs (W.finish cfg pkg crate links name dev state) ∧
      state.Adds (W.finish cfg pkg crate links name dev state) := by
  have hnames : (W.finish cfg pkg crate links name dev state).names = state.names := take_names
  have hlabels : (W.finish cfg pkg crate links name dev state).labelPkg = state.labelPkg :=
    take_labelPkg
  refine ⟨⟨?_, ?_, ?_⟩, ⟨hnames ▸ List.Subset.refl _, fun hdep => ⟨_, hlabels ▸ hdep⟩⟩⟩
  · rw [hnames, hlabels]
    exact h.named
  · intro cfg' pkg' known hknown
    rw [hlabels]
    rw [finish_keys] at hknown
    by_cases hsame : (cfg', pkg') = (cfg, pkg)
    · rw [hsame, Finmap.lookup_insert] at hknown
      cases hknown
      obtain ⟨rfl, rfl⟩ := Prod.mk.inj hsame
      exact ⟨hcfg, hlabel⟩
    · rw [Finmap.lookup_insert_of_ne _ hsame] at hknown
      exact h.known hknown
  · intro entry hentry
    obtain ⟨unit, known, hknown, hname⟩ := h.owned entry (hnames ▸ hentry)
    obtain ⟨later, hlater, hsame⟩ := hgrows.keys hknown
    exact ⟨unit, later, hlater, hsame.trans hname⟩

theorem Workspace.Tagged.take (h : W.Tagged cfgs state) (pkg name : Text) :
    W.Tagged cfgs (W.take pkg name state) ∧ state.Adds (W.take pkg name state) := by
  refine ⟨⟨?_, ?_, ?_⟩, ⟨?_, ?_⟩⟩
  · rw [take_names, take_labelPkg]
    exact h.named
  · rw [take_keys, take_labelPkg]
    exact h.known
  · rw [take_names, take_keys]
    exact h.owned
  · rw [take_names]
    exact List.Subset.refl _
  · rw [take_labelPkg]
    exact fun h => ⟨_, h⟩

theorem variant_tags (hcfg : cfg ∈ cfgs) (fuel : Nat) :
    Visits (fun state => W.Sound state ∧ W.Tagged cfgs state) Rendering.Adds (fun _ _ _ => True)
      (W.variant cfg fuel) := by
  induction fuel with
  | zero => exact ⟨fun _ hok => nomatch hok⟩
  | succ fuel ih =>
      have hhosts : ∀ {parts : Parts} {state s' : Rendering} {hosts : List Text}
          {labels : List (List Text)}, W.Sound state ∧ W.Tagged cfgs state →
          visitHosts (W.variant cfg fuel) parts state hosts = .ok (s', labels) →
            (W.Sound s' ∧ W.Tagged cfgs s') ∧ state.Adds s' := by
        intro parts state s' hosts labels hinv hok
        have hhost : Visits (fun state => W.Sound state ∧ W.Tagged cfgs state) Rendering.Adds
            (fun _ _ _ => True)
            fun state host => traverse (W.variant cfg fuel) state (parts.firstOn host) := by
          refine ⟨fun hinv hok => ?_⟩
          obtain ⟨hmid, hadds, -⟩ := ih.traverse Rendering.Adds.refl Rendering.Adds.trans
            (fun _ _ => trivial) hinv hok
          exact ⟨hmid, hadds, trivial⟩
        obtain ⟨hlast, hadds, -⟩ := hhost.traverse Rendering.Adds.refl Rendering.Adds.trans
          (fun _ _ => trivial) hinv hok
        exact ⟨hlast, hadds⟩
      constructor
      rintro state pkg s' label ⟨hsound, htagged⟩ hok
      obtain ⟨hsound', -, -⟩ := (variant_visits (fuel + 1)).keeps hsound hok
      rcases variant_cases hok with ⟨known, -, rfl, -⟩ |
        ⟨-, crate, s₁, normal, s₂, build, s₃, dev, hcrate, hnormal, hbuild, hdev, rfl, -⟩
      · obtain ⟨htaken, hadds⟩ := htagged.take pkg known.name
        exact ⟨⟨hsound', htaken⟩, hadds, trivial⟩
      · obtain ⟨-, hgrows₁, hvisited₁⟩ := (variant_visits fuel).hosts hsound hnormal
        obtain ⟨hinv₁, hadds₁⟩ := hhosts ⟨hsound, htagged⟩ hnormal
        obtain ⟨-, hgrows₂, hvisited₂⟩ := (variant_visits fuel).hosts hinv₁.1 hbuild
        obtain ⟨hinv₂, hadds₂⟩ := hhosts hinv₁ hbuild
        obtain ⟨hsoundᵣ, hgrows, hknown⟩ := hinv₂.1.remember hcrate
          ⟨normal, build, hvisited₁.grows hgrows₂, hvisited₂, rfl⟩
        obtain ⟨hremembered, hadds⟩ := hinv₂.2.remember hcfg hgrows
        obtain ⟨-, hgrows₃, hvisited₃⟩ := (variant_visits fuel).hosts hsoundᵣ hdev
        obtain ⟨hinv₃, hadds₃⟩ := hhosts ⟨hsoundᵣ, hremembered⟩ hdev
        obtain ⟨-, hgrows'⟩ := hinv₃.1.finish (hknown.grows hgrows₃) hvisited₃
        obtain ⟨hfinished, hadds'⟩ := hinv₃.2.finish hcfg hgrows'
          (hadds₃.labels (by rw [remember_labelPkg, Finmap.lookup_insert]))
        exact ⟨⟨hsound', hfinished⟩, hadds₁.trans (hadds₂.trans (hadds.trans
          (hadds₃.trans hadds'))), trivial⟩

theorem variants_tagged (hok : W.variants fuel cfgs = .ok (state, labels)) :
    W.Tagged cfgs state := by
  have hempty : W.Tagged cfgs {} := by
    refine ⟨fun h => ?_, fun h => ?_, List.forall_mem_nil _⟩
    · rw [Finmap.lookup_empty] at h
      cases h
    · rw [Finmap.lookup_empty] at h
      cases h
  have hvisit : ∀ unit ∈ W.units cfgs, ∀ s s' label, W.Sound s ∧ W.Tagged cfgs s →
      W.variant unit.1 fuel s unit.2 = .ok (s', label) → W.Sound s' ∧ W.Tagged cfgs s' :=
    fun unit hunit s s' label hinv hok =>
      ((variant_tags (mem_units.mp hunit).1 fuel).keeps hinv hok).1
  exact (traverse_keeps hvisit ⟨sound_empty, hempty⟩ hok).2

end Tagging

section Graph

/-- Third-party labels are in another package than the aliases of closed crates. -/
structure Workspace.Places (W : Workspace) : Prop where
  tpDir : ':' ∉ W.tpDir
  closedPkg : ':' ∉ W.closedPkg
  apart : W.tpDir ≠ W.closedPkg

/-- Library `name` is compiled against library `other` on the host, or its build script is. -/
def Rendering.Compiled (W : Workspace) (state : Rendering) (host name other : Text) : Prop :=
  ∃ rule ∈ state.rules, (rule.kind = .library ∧ rule.name = name ∨
      rule.kind = .buildScript ∧ rule.name = scriptName name) ∧
    ∃ pkg, W.edgeLabel pkg other ∈ (selectDeps rule.deps).on host

/-- `other` is among the `doc_deps` of library `name` on the host. -/
def Rendering.Documented (W : Workspace) (state : Rendering) (host name other : Text) : Prop :=
  ∃ pkg known dev, state.keys.lookup (testConfig, pkg) = some known ∧ known.name = name ∧
    known.dev = some dev ∧
    ∃ dep, W.edgeLabel dep other ∈ (selectDeps (W.docDeps state pkg dev)).on host

variable {merged : Merged} {hosts : List Text} {known : Variant} {crate : Crate}
  {links : PerHost Links} {other : Text}

theorem Workspace.Places.tpLabel_ne (h : W.Places) {dep : Text × Text} :
    W.tpLabel dep ≠ some (W.edgeLabel pkg name) := by
  intro heq
  obtain ⟨key, -, hlabel⟩ := Option.map_eq_some_iff.mp heq
  unfold Workspace.edgeLabel at hlabel
  split at hlabel
  · rw [List.append_assoc, List.append_assoc, List.append_cancel_left_eq] at hlabel
    exact h.apart (split_first h.tpDir h.closedPkg hlabel).1
  · have hne : ('/' : Char) ≠ ':' := by decide
    exact hne (List.cons.inj hlabel).1

theorem Workspace.Needs.labelled (hplaces : W.Places) {want : Finset Kind → Bool}
    (h : W.Needs cfg state pkg merged want host (W.edgeLabel dep other)) :
    ∃ deps next known, (host, deps) ∈ merged.firstParty ∧ next ∈ deps ∧
      want (W.declaredKinds pkg next) = true ∧ state.keys.lookup (cfg, next) = some known ∧
      known.name = other ∧ W.edgeLabel dep other = W.edgeLabel next known.name := by
  rcases h with ⟨deps, next, hmem, hin, hwant, known, hknown, hlabel⟩ | ⟨_, dep, _, _, _, hlabel⟩
  · exact ⟨deps, next, known, hmem, hin, hwant, hknown, (edgeLabel_injective hlabel).symm, hlabel⟩
  · exact absurd hlabel hplaces.tpLabel_ne

theorem pkg_eq_of_name_eq (hsound : W.Sound state) (hnames : (state.names.map Prod.snd).Nodup)
    {cfg' pkg' : Text} {known' : Variant} (h : state.keys.lookup (cfg, pkg) = some known)
    (h' : state.keys.lookup (cfg', pkg') = some known') (hname : known.name = known'.name) :
    pkg = pkg' := by
  obtain ⟨crate, links, hknown⟩ := hsound.known h
  obtain ⟨crate', links', hknown'⟩ := hsound.known h'
  have hkey := eq_of_nodup_snd hnames (hname ▸ mem_of_lookup hknown.named)
    (mem_of_lookup hknown'.named)
  have hpackage := congrArg Key.package hkey
  rwa [keyOf_package, keyOf_package] at hpackage

/-- What is compiled against is compiled against in every configuration that has the library. -/
theorem Rendering.Compiled.lift (hdicts : W.Dicts) (hplaces : W.Places) (hsound : W.Sound state)
    (hhosts : ∀ cfg, ∀ entry ∈ W.resolved cfg, entry.2.firstParty.map Prod.fst = hosts)
    (hnames : (state.names.map Prod.snd).Nodup) (hhost : host ∈ hosts)
    (h : state.Compiled W host name other)
    (hlookup : state.keys.lookup (cfg, pkg) = some known) (hname : known.name = name) :
    ∃ next known', W.Compiles cfg pkg next ∧ state.keys.lookup (cfg, next) = some known' ∧
      known'.name = other := by
  obtain ⟨crate, links, hknown⟩ := hsound.known hlookup
  obtain ⟨merged, hmerged, -, -⟩ := crate_ok hknown.resolves
  rw [lookup_eq_some_iff_mem (hdicts.resolved cfg)] at hmerged
  have hfirst := (hdicts.hosts cfg _ hmerged).1
  have hhost' : host ∈ merged.firstParty.map Prod.fst := by
    rw [hhosts cfg _ hmerged]
    exact hhost
  obtain ⟨rule, hrule, hkind, dep, hdep⟩ := h
  obtain ⟨hlibrary, hscript⟩ := hknown.renders hdicts hsound hnames hmerged hrule
  rcases hkind with ⟨hkind, hrname⟩ | ⟨hkind, hrname⟩
  · have hneeds := (((hlibrary hkind (hrname.trans hname.symm)).deps host hhost').2 _).mp hdep
    obtain ⟨deps, next, known', hmem, hin, hwant, hknown', hother, -⟩ := hneeds.labelled hplaces
    exact ⟨next, known', ⟨merged, hmerged, host, .inl ((mem_firstOn hfirst).mpr
      ⟨deps, hmem, hin, hwant⟩)⟩, hknown', hother⟩
  · have hneeds := (((hscript hkind (by rw [hrname, hname])).deps host hhost').2 _).mp hdep
    obtain ⟨deps, next, known', hmem, hin, hwant, hknown', hother, -⟩ := hneeds.labelled hplaces
    exact ⟨next, known', ⟨merged, hmerged, host, .inr ((mem_firstOn hfirst).mpr
      ⟨deps, hmem, hin, hwant⟩)⟩, hknown', hother⟩

theorem Workspace.Compiles.depends (hdicts : W.Dicts) (h : W.Compiles cfg pkg dep) :
    W.Depends cfg pkg dep := by
  obtain ⟨merged, hmerged, host, hdep⟩ := h
  have hfirst := (hdicts.hosts cfg _ hmerged).1
  rcases hdep with hdep | hdep <;>
  · obtain ⟨deps, hmem, hin, -⟩ := (mem_firstOn hfirst).mp hdep
    exact ⟨merged, hmerged, _, hmem, hin⟩

theorem Workspace.Tagged.lookup (h : W.Tagged cfgs state) (hsound : W.Sound state)
    (hnames : (state.names.map Prod.snd).Nodup)
    (hknown : state.keys.lookup (cfg, pkg) = some known) :
    state.labelPkg.lookup (W.edgeLabel pkg known.name) = some pkg := by
  obtain ⟨-, owner, howner⟩ := h.known hknown
  obtain ⟨key, name, hmem, hpackage, hlabel⟩ := h.named howner
  obtain rfl : known.name = name := edgeLabel_injective hlabel
  obtain ⟨crate, links, hrefined⟩ := hsound.known hknown
  have hkey := eq_of_nodup_snd hnames hmem (mem_of_lookup hrefined.named)
  rw [hkey, keyOf_package] at hpackage
  rw [howner, hpackage]

theorem keep_third (h : W.Tagged cfgs state) (hplaces : W.Places) {third : Text × Text}
    (hlabel : W.tpLabel third = some label) : W.keep state pkg label = true := by
  unfold Workspace.keep
  cases howner : state.labelPkg.lookup label with
  | none => rfl
  | some owner =>
      obtain ⟨_, _, _, _, rfl⟩ := h.named howner
      exact absurd hlabel hplaces.tpLabel_ne

theorem keep_iff (h : W.Tagged cfgs state) (hdicts : W.Dicts) (hsound : W.Sound state)
    (hnames : (state.names.map Prod.snd).Nodup)
    (hknown : state.keys.lookup (cfg, dep) = some known) :
    W.keep state pkg (W.edgeLabel dep known.name) = true ↔
      ¬ Relation.ReflTransGen (W.Depends testConfig) dep pkg := by
  unfold Workspace.keep
  rw [h.lookup hsound hnames hknown]
  dsimp only
  rw [Bool.and_eq_true, decide_eq_true_eq, Bool.not_eq_true', ← Bool.not_eq_true,
    reaches_iff hdicts]
  refine and_iff_right_of_imp ?_
  rintro hfar rfl
  exact hfar .refl

theorem mem_docDeps {dev : Deps} (hdict : dev.extra.IsDict) :
    label ∈ (selectDeps (W.docDeps state pkg dev)).on host ↔
      label ∈ dev.on host ∧ W.keep state pkg label = true := by
  have hkept : (W.docDeps state pkg dev).extra.lookup host =
      (dev.extra.lookup host).map fun set => set.filter fun label => W.keep state pkg label :=
    lookup_map_snd _
  have hdict' : (W.docDeps state pkg dev).extra.IsDict := by
    rw [PerHost.IsDict, Workspace.docDeps, List.map_map]
    exact hdict
  rw [on_selectDeps hdict', List.mem_append, mem_sorted, mem_sorted, hkept, Deps.on,
    Finset.mem_union]
  cases dev.extra.lookup host with
  | none => simp [Workspace.docDeps]
  | some set => simp [Workspace.docDeps, or_and_right]

/-- The doctests of a package are compiled against its dev-dependencies in the
tests' configuration, without those that depend on the package. -/
def Workspace.Doctested (W : Workspace) (state : Rendering) (pkg : Text) (merged : Merged)
    (host label : Text) : Prop :=
  (∃ deps dep, (host, deps) ∈ merged.firstParty ∧ dep ∈ deps ∧
      devOnly (W.declaredKinds pkg dep) = true ∧
      ¬ Relation.ReflTransGen (W.Depends testConfig) dep pkg ∧
      W.Labelled testConfig state dep label) ∨
    ∃ deps dep, (host, deps) ∈ merged.thirdParty ∧ dep ∈ deps ∧
      devOnly (W.declaredKinds pkg dep.1) = true ∧ W.tpLabel dep = some label

theorem mem_doc_deps (hdicts : W.Dicts) (hplaces : W.Places) (hsound : W.Sound state)
    (htagged : W.Tagged cfgs state) (hnames : (state.names.map Prod.snd).Nodup)
    (hmerged : (pkg, merged) ∈ W.resolved testConfig)
    (hlookup : state.keys.lookup (testConfig, pkg) = some known) {dev : Deps}
    (hdev : known.dev = some dev) (hhost : host ∈ merged.firstParty.map Prod.fst) :
    label ∈ (selectDeps (W.docDeps state pkg dev)).on host ↔
      W.Doctested state pkg merged host label := by
  obtain ⟨crate, links, hknown⟩ := hsound.known hlookup
  rw [mem_docDeps (hknown.dev_isDict hdicts hmerged hdev),
    hknown.dev_needs hdicts hmerged hdev hhost]
  constructor
  · rintro ⟨⟨deps, dep, hmem, hin, hwant, next, hnext, rfl⟩ | hthird, hkeep⟩
    · rw [keep_iff htagged hdicts hsound hnames hnext] at hkeep
      exact .inl ⟨deps, dep, hmem, hin, hwant, hkeep, next, hnext, rfl⟩
    · exact .inr hthird
  · rintro (⟨deps, dep, hmem, hin, hwant, hfar, next, hnext, rfl⟩ |
      ⟨deps, dep, hmem, hin, hwant, hlabel⟩)
    · refine ⟨.inl ⟨deps, dep, hmem, hin, hwant, next, hnext, rfl⟩, ?_⟩
      exact (keep_iff htagged hdicts hsound hnames hnext).mpr hfar
    · exact ⟨.inr ⟨deps, dep, hmem, hin, hwant, hlabel⟩, keep_third htagged hplaces hlabel⟩

/-- A library takes for its doctests what does not lead back to it. -/
theorem Rendering.Documented.lift (hdicts : W.Dicts) (hplaces : W.Places) (hsound : W.Sound state)
    (htagged : W.Tagged cfgs state)
    (hhosts : ∀ cfg, ∀ entry ∈ W.resolved cfg, entry.2.firstParty.map Prod.fst = hosts)
    (hnames : (state.names.map Prod.snd).Nodup) (hhost : host ∈ hosts)
    (h : state.Documented W host name other)
    (hlookup : state.keys.lookup (testConfig, pkg) = some known) (hname : known.name = name) :
    ∃ next known', W.Depends testConfig pkg next ∧
      ¬ Relation.ReflTransGen (W.Depends testConfig) next pkg ∧
      state.keys.lookup (testConfig, next) = some known' ∧ known'.name = other := by
  obtain ⟨pkg', known₂, dev, hlookup', hname', hdev, dep, hdep⟩ := h
  obtain rfl := pkg_eq_of_name_eq hsound hnames hlookup' hlookup (hname'.trans hname.symm)
  obtain ⟨crate, links, hknown⟩ := hsound.known hlookup'
  obtain ⟨merged, hmerged, -, -⟩ := crate_ok hknown.resolves
  rw [lookup_eq_some_iff_mem (hdicts.resolved _)] at hmerged
  have hhost' : host ∈ merged.firstParty.map Prod.fst := by
    rw [hhosts _ _ hmerged]
    exact hhost
  rw [mem_doc_deps hdicts hplaces hsound htagged hnames hmerged hlookup' hdev hhost'] at hdep
  rcases hdep with ⟨deps, next, hmem, hin, -, hfar, known', hnext, hlabel⟩ |
    ⟨_, third, _, _, _, hlabel⟩
  · exact ⟨next, known', ⟨merged, hmerged, _, hmem, hin⟩, hfar, hnext,
      (edgeLabel_injective hlabel).symm⟩
  · exact absurd hlabel hplaces.tpLabel_ne

end Graph

section Rendered

variable {hosts : List Text} {merged : Merged}

theorem Sample.places : Sample.workspace.Places := by
  constructor <;> decide +kernel

theorem Sample.tested : testConfig ∈ Sample.configs := by
  decide +kernel

/-- However doctests are compiled against dev-dependencies, no library depends
on itself: with the `doc_deps` added the libraries have no cycle on any host, where
in no configuration what is compiled has one. -/
theorem docs_acyclic (hdicts : W.Dicts) (hplaces : W.Places)
    (hhosts : ∀ cfg, ∀ entry ∈ W.resolved cfg, entry.2.firstParty.map Prod.fst = hosts)
    (hacyclic : ∀ cfg ∈ cfgs, Acyclic (W.Compiles cfg))
    (hok : W.variants fuel cfgs = .ok (state, labels)) (hnames : (state.names.map Prod.snd).Nodup)
    (hhost : host ∈ hosts) : Acyclic fun name other =>
      state.Compiled W host name other ∨ state.Documented W host name other := by
  have hsound := (variants_spec hok).1
  have htagged := variants_tagged hok
  have hone : ∀ cfg pkg pkg' name,
      (∃ known, state.keys.lookup (cfg, pkg) = some known ∧ known.name = name) →
      (∃ known, state.keys.lookup (cfg, pkg') = some known ∧ known.name = name) → pkg = pkg' := by
    rintro cfg pkg pkg' name ⟨known, hknown, rfl⟩ ⟨known', hknown', hname⟩
    exact pkg_eq_of_name_eq hsound hnames hknown hknown' hname.symm
  intro name hcycle
  rcases transGen_or (fun _ _ => Or.inl) (fun _ _ => Or.inr) hcycle with
    hcompiled | ⟨one, other, hdoc, hto, hback⟩
  · -- the libraries of the cycle are all compiled in one configuration
    obtain ⟨next, ⟨rule, hrule, hkind, -⟩, -⟩ := Relation.TransGen.head'_iff.mp hcompiled
    obtain ⟨known, cfg, pkg, hcfg, hknown, hname⟩ : ∃ known cfg pkg, cfg ∈ cfgs ∧
        state.keys.lookup (cfg, pkg) = some known ∧ known.name = name := by
      obtain ⟨name', _, _, _, hmem, hmade⟩ := hsound.made rule hrule
      have hsame : name' = name := by
        rcases hmade with rfl | rfl <;> rcases hkind with ⟨hkind, hname⟩ | ⟨hkind, hname⟩
        · exact hname
        · cases hkind
        · cases hkind
        · exact scriptName_injective hname
      obtain ⟨⟨cfg, pkg⟩, known, hknown, hname⟩ := htagged.owned _ hmem
      exact ⟨known, cfg, pkg, (htagged.known hknown).1, hknown, hname.trans hsame⟩
    refine (hacyclic cfg hcfg).lift ?_ (hone cfg) ⟨known, hknown, hname⟩ hcompiled
    rintro pkg name other ⟨known, hknown, hname⟩ hedge
    obtain ⟨next, known', hnext, hknown', hother⟩ :=
      hedge.lift hdicts hplaces hsound hhosts hnames hhost hknown hname
    exact ⟨next, hnext, known', hknown', hother⟩
  · -- from a doctest on, all is in the tests' configuration
    have htest : testConfig ∈ cfgs := by
      obtain ⟨pkg, known, _, hknown, -⟩ := hdoc
      exact (htagged.known hknown).1
    have hrelated : Acyclic fun pkg next => W.Compiles testConfig pkg next ∨
        (W.Depends testConfig pkg next ∧
          ¬ Relation.ReflTransGen (W.Depends testConfig) next pkg) :=
      (hacyclic testConfig htest).add (fun _ _ h => h.depends hdicts) (fun _ _ h => h.1)
        fun _ _ h => h.2
    obtain ⟨pkg, known, _, hknown, hname, -⟩ := id hdoc
    refine hrelated.lift ?_ (hone testConfig) ⟨known, hknown, hname⟩
      (.head' (.inr hdoc) (hback.trans hto))
    rintro pkg name other ⟨known, hknown, hname⟩ (hedge | hedge)
    · obtain ⟨next, known', hnext, hknown', hother⟩ :=
        hedge.lift hdicts hplaces hsound hhosts hnames hhost hknown hname
      exact ⟨next, .inl hnext, known', hknown', hother⟩
    · obtain ⟨next, known', hnext, hfar, hknown', hother⟩ :=
        hedge.lift hdicts hplaces hsound htagged hhosts hnames hhost hknown hname
      exact ⟨next, .inr ⟨hnext, hfar⟩, known', hknown', hother⟩

theorem docs_acyclic_of_two_crates : ∃ state labels,
    Sample.workspace.variants 4 Sample.configs = .ok (state, labels) ∧
      Acyclic fun name other => state.Compiled Sample.workspace "linux".toList name other ∨
        state.Documented Sample.workspace "linux".toList name other := by
  obtain ⟨state, labels, hok, hnames⟩ := Sample.run
  exact ⟨state, labels, hok, docs_acyclic Sample.dicts Sample.places Sample.onHosts
    (fun cfg _ => Sample.acyclic cfg) hok hnames (List.mem_cons_self ..)⟩

end Rendered

end AccountDirectory.Native
