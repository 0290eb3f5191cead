import AccountDirectory.Native.Sharing

/-! The rendered targets mean what was resolved: on every host, the target a
package gets in a configuration is compiled from exactly what the configuration
resolves the package to there. -/
namespace AccountDirectory.Native
open Library

variable {W : Workspace} {cfg pkg name label host : Text} {crate : Crate} {known : Variant}
  {state s' : Rendering} {links others : PerHost Links} {features : Finset Text} {fuel : Nat}

section Keys

def Alike (links : PerHost Links) (first : Links) : Prop :=
  links ≠ [] ∧ ∀ entry ∈ links, entry.2 = first

theorem keyOf_cases (pkg : Text) (features : Finset Text) (links : PerHost Links) :
    (∃ first, Alike links first ∧
      keyOf pkg features links = .everywhere pkg (sorted features) first) ∨
    keyOf pkg features links = .byHost pkg (sorted features) links := by
  unfold keyOf
  split
  · exact .inr rfl
  · rename_i host first rest
    split
    · rename_i hall
      refine .inl ⟨first, ⟨List.cons_ne_nil _ _, ?_⟩, rfl⟩
      rw [List.forall_mem_cons]
      exact ⟨rfl, fun entry hmem => of_decide_eq_true (List.all_eq_true.mp hall entry hmem)⟩
    · exact .inr rfl

theorem on_depsOf (hdict : links.IsDict) {link : Links} (hmem : (host, link) ∈ links)
    (pick : Links → List Text) : (depsOf links pick).on host = (pick link).toFinset := by
  have hsets : PerHost.IsDict (links.map fun entry => (entry.1, (pick entry.2).toFinset)) := by
    rw [PerHost.IsDict, List.map_map]
    exact hdict
  exact on_splitHosts hsets (List.mem_map_of_mem hmem)

theorem common_depsOf_alike {first : Links} (h : Alike links first) (pick : Links → List Text) :
    (depsOf links pick).common = (pick first).toFinset := by
  obtain ⟨hne, hall⟩ := h
  cases links with
  | nil => exact absurd rfl hne
  | cons entry rest =>
      ext dep
      refine (mem_foldl_inter (pick entry.2).toFinset _).trans ?_
      rw [hall entry List.mem_cons_self]
      refine and_iff_left_of_imp fun hdep other hother => ?_
      obtain ⟨link, hlink, rfl⟩ := List.mem_map.mp hother
      dsimp only
      rw [hall link (List.mem_cons_of_mem _ hlink)]
      exact hdep

theorem extra_depsOf_alike {first : Links} (h : Alike links first) (pick : Links → List Text) :
    (depsOf links pick).extra = [] := by
  refine List.filterMap_eq_nil_iff.mpr fun entry hmem => ?_
  obtain ⟨link, hlink, rfl⟩ := List.mem_map.mp hmem
  refine if_pos (Finset.sdiff_eq_empty_iff_subset.mpr ?_)
  rw [h.2 link hlink]
  exact (common_depsOf_alike h pick).ge

/-- Where all hosts link alike, so does a host that is none of them. -/
theorem on_depsOf_alike {first : Links} (h : Alike links first) (pick : Links → List Text)
    (host : Text) : (depsOf links pick).on host = (pick first).toFinset := by
  rw [Deps.on, common_depsOf_alike h, extra_depsOf_alike h]
  exact Finset.union_empty _

theorem apart_depsOf_alike {first : Links} (h : Alike links first) (pick : Links → List Text) :
    (depsOf links pick).Apart := by
  have hextra : (depsOf links pick).extra = [] := extra_depsOf_alike h pick
  rw [Deps.Apart, hextra]
  exact ⟨List.nodup_nil, fun host => Finset.disjoint_empty_right _⟩

theorem apart_depsOf (hdict : links.IsDict) (pick : Links → List Text) :
    (depsOf links pick).Apart := by
  refine apart_splitHosts ?_
  rw [PerHost.IsDict, List.map_map]
  exact hdict

/-- A key says what its target is compiled against on every host. -/
theorem on_depsOf_of_keyOf {pkg' : Text} {features' : Finset Text}
    (h : keyOf pkg' features' others = keyOf pkg features links) (hdict : links.IsDict) :
    pkg' = pkg ∧ features' = features ∧ ∀ pick, (depsOf others pick).Apart ∧
      ∀ host link, (host, link) ∈ links →
        (depsOf others pick).on host = (pick link).toFinset := by
  rcases keyOf_cases pkg' features' others with ⟨first, halike, hkey⟩ | hkey <;>
    rcases keyOf_cases pkg features links with ⟨first', halike', hkey'⟩ | hkey' <;>
      rw [hkey, hkey'] at h
  · obtain ⟨rfl, hsort, rfl⟩ := Key.everywhere.inj h
    refine ⟨rfl, sorted_injective hsort, fun pick => ⟨apart_depsOf_alike halike pick, ?_⟩⟩
    intro host link hmem
    obtain rfl : link = first := halike'.2 _ hmem
    exact on_depsOf_alike halike pick host
  · cases h
  · cases h
  · obtain ⟨rfl, hsort, rfl⟩ := Key.byHost.inj h
    exact ⟨rfl, sorted_injective hsort, fun pick =>
      ⟨apart_depsOf hdict pick, fun host link hmem => on_depsOf hdict hmem pick⟩⟩

end Keys

section Linking

theorem zip_forall₂ {α β : Type} {R : α → β → Prop} {hosts : List α} {xs : List β}
    (h : List.Forall₂ R hosts xs) : (hosts.zip xs).map Prod.fst = hosts ∧
      ∀ entry ∈ hosts.zip xs, R entry.1 entry.2 := by
  refine ⟨List.map_fst_zip h.length_eq.le, ?_⟩
  rintro ⟨host, x⟩ hmem
  exact (List.forall₂_iff_zip.mp h).2 hmem

theorem forall₂_and_zip {α β γ : Type} {R : α → β → Prop} {S : α → γ → Prop} {hosts : List α}
    {xs : List β} {ys : List γ} (hxs : List.Forall₂ R hosts xs) (hys : List.Forall₂ S hosts ys) :
    List.Forall₂ (fun host pair => R host pair.1 ∧ S host pair.2) hosts (xs.zip ys) := by
  induction hxs generalizing ys with
  | nil => exact .nil
  | cons hx _ ih =>
      cases hys with
      | cons hy hys => exact .cons ⟨hx, hy⟩ (ih hys)

/-- What a linked package is linked with, host by host. -/
theorem Workspace.Linked.spec (h : W.Linked cfg state crate links) :
    links.map Prod.fst = crate.hosts ∧ ∀ entry ∈ links,
      List.Forall₂ (W.Labelled cfg state) (crate.normal.firstOn entry.1) entry.2.normal ∧
      entry.2.normalThird = crate.normal.thirdOn entry.1 ∧
      List.Forall₂ (W.Labelled cfg state) (crate.build.firstOn entry.1) entry.2.build ∧
      entry.2.buildThird = crate.build.thirdOn entry.1 := by
  obtain ⟨normal, build, hnormal, hbuild, rfl⟩ := h
  obtain ⟨hhosts, hall⟩ := zip_forall₂ (forall₂_and_zip hnormal hbuild)
  refine ⟨?_, ?_⟩
  · rw [Crate.links, List.map_map]
    exact hhosts
  · rw [Crate.links, List.forall_mem_map]
    exact fun entry hmem => ⟨(hall entry hmem).1, rfl, (hall entry hmem).2, rfl⟩

theorem mem_of_forall₂ {α β : Type} {R : α → β → Prop} {xs : List α} {ys : List β}
    (h : List.Forall₂ R xs ys) (hunique : Relator.RightUnique R) {y : β} :
    y ∈ ys ↔ ∃ x ∈ xs, R x y := by
  induction h with
  | nil => simp
  | cons hxy _ ih =>
      rw [List.mem_cons, ih]
      simp only [List.mem_cons, exists_eq_or_imp]
      exact or_congr_left ⟨fun heq => heq ▸ hxy, fun hother => hunique hother hxy⟩

end Linking

section Crates

/-- The dicts of a workspace have each key once. -/
structure Workspace.Dicts (W : Workspace) : Prop where
  resolved : ∀ cfg, (W.resolved cfg).IsDict
  hosts : ∀ cfg, ∀ entry ∈ W.resolved cfg,
    entry.2.firstParty.IsDict ∧ entry.2.thirdParty.IsDict

/-- What a package is resolved to need of a kind on a host: first-party
packages by their labels in the configuration, third-party ones by their own. -/
def Workspace.Needs (W : Workspace) (cfg : Text) (state : Rendering) (pkg : Text) (merged : Merged)
    (want : Finset Kind → Bool) (host label : Text) : Prop :=
  (∃ deps dep, (host, deps) ∈ merged.firstParty ∧ dep ∈ deps ∧
      want (W.declaredKinds pkg dep) = true ∧ W.Labelled cfg state dep label) ∨
    ∃ deps dep, (host, deps) ∈ merged.thirdParty ∧ dep ∈ deps ∧
      want (W.declaredKinds pkg dep.1) = true ∧ W.tpLabel dep = some label

variable {merged : Merged} {want : Finset Kind → Bool}

theorem crate_ok (h : W.crate cfg pkg = .ok crate) :
    ∃ merged, (W.resolved cfg).lookup pkg = some merged ∧
      (W.Pinned pkg merged Native.normal ∧ W.Pinned pkg merged Native.build ∧
        W.Pinned pkg merged devOnly) ∧ crate = W.crateOf pkg merged := by
  unfold Workspace.crate at h
  split at h
  · cases h
  · rename_i merged hmerged
    split at h
    · rename_i hpinned
      cases h
      exact ⟨merged, hmerged, hpinned, rfl⟩
    · cases h

theorem lookup_map_snd {α β : Type} {perHost : PerHost α} (f : α → β) :
    (perHost.map fun entry => (entry.1, f entry.2)).lookup host = (perHost.lookup host).map f := by
  induction perHost with
  | nil => rfl
  | cons entry rest ih =>
      rw [List.map_cons, List.lookup_cons, List.lookup_cons, ih]
      cases host == entry.1 <;> rfl

theorem mem_firstOn (hdict : merged.firstParty.IsDict) {dep : Text} :
    dep ∈ (W.parts pkg merged want).firstOn host ↔ ∃ deps, (host, deps) ∈ merged.firstParty ∧
      dep ∈ deps ∧ want (W.declaredKinds pkg dep) = true := by
  have hlookup : (W.parts pkg merged want).firstParty.lookup host =
      (merged.firstParty.lookup host).map (W.firstNames pkg want) := lookup_map_snd _
  rw [Parts.firstOn, hlookup]
  simp only [← lookup_eq_some_iff_mem hdict]
  cases merged.firstParty.lookup host with
  | none => simp
  | some deps => simp [Workspace.firstNames]

theorem mem_thirdOn (hdict : merged.thirdParty.IsDict) (hpinned : W.Pinned pkg merged want) :
    label ∈ (W.parts pkg merged want).thirdOn host ↔
      ∃ deps dep, (host, deps) ∈ merged.thirdParty ∧ dep ∈ deps ∧
        want (W.declaredKinds pkg dep.1) = true ∧ W.tpLabel dep = some label := by
  have hlookup : (W.parts pkg merged want).thirdParty.lookup host =
      (merged.thirdParty.lookup host).map (W.thirdLabels pkg want) := lookup_map_snd _
  rw [Parts.thirdOn, hlookup]
  cases hdeps : merged.thirdParty.lookup host with
  | none =>
      refine iff_of_false (by simp) ?_
      rintro ⟨deps, dep, hmem, -⟩
      rw [← lookup_eq_some_iff_mem hdict, hdeps] at hmem
      cases hmem
  | some deps =>
      rw [Option.map_some, Option.getD_some, Workspace.thirdLabels, mem_sortedBag,
        Multiset.mem_map]
      constructor
      · rintro ⟨dep, hdep, rfl⟩
        obtain ⟨hin, hwant⟩ := Finset.mem_filter.mp hdep
        have hentry := (lookup_eq_some_iff_mem hdict).mp hdeps
        obtain ⟨label, hlabel⟩ := Option.isSome_iff_exists.mp (hpinned _ hentry dep hin hwant)
        exact ⟨deps, dep, hentry, hin, hwant, by rw [hlabel, Option.getD_some]⟩
      · rintro ⟨deps', dep, hmem, hin, hwant, hlabel⟩
        rw [← lookup_eq_some_iff_mem hdict, hdeps] at hmem
        cases hmem
        exact ⟨dep, Finset.mem_filter.mpr ⟨hin, hwant⟩, by rw [hlabel, Option.getD_some]⟩

theorem labelled_rightUnique : Relator.RightUnique (W.Labelled cfg state) :=
  fun _ _ _ h h' => h.unique h'

theorem mem_needs (hfirst : merged.firstParty.IsDict) (hthird : merged.thirdParty.IsDict)
    (hpinned : W.Pinned pkg merged want) {labels : List Text}
    (hlabels : List.Forall₂ (W.Labelled cfg state) ((W.parts pkg merged want).firstOn host) labels) :
    label ∈ (labels ++ (W.parts pkg merged want).thirdOn host).toFinset ↔
      W.Needs cfg state pkg merged want host label := by
  rw [List.mem_toFinset, List.mem_append, mem_of_forall₂ hlabels labelled_rightUnique,
    mem_thirdOn hthird hpinned, Workspace.Needs]
  refine or_congr_left ?_
  simp only [mem_firstOn hfirst]
  constructor
  · rintro ⟨dep, ⟨deps, hmem, hin, hwant⟩, hlabel⟩
    exact ⟨deps, dep, hmem, hin, hwant, hlabel⟩
  · rintro ⟨deps, dep, hmem, hin, hwant, hlabel⟩
    exact ⟨dep, ⟨deps, hmem, hin, hwant⟩, hlabel⟩

end Crates

section Settling

/-- No package is left without its dev-dependencies that was not before. -/
def Rendering.Settles (state state' : Rendering) : Prop :=
  ∀ unit known, state'.keys.lookup unit = some known → known.dev = none →
    ∃ before, state.keys.lookup unit = some before ∧ before.dev = none

theorem Rendering.Settles.refl (state : Rendering) : state.Settles state :=
  fun _ _ h hdev => ⟨_, h, hdev⟩

theorem Rendering.Settles.trans {a b c : Rendering} (hab : a.Settles b) (hbc : b.Settles c) :
    a.Settles c := by
  intro unit known h hdev
  obtain ⟨before, hbefore, hdev'⟩ := hbc unit known h hdev
  exact hab unit before hbefore hdev'

theorem variant_settles (fuel : Nat) :
    Visits (fun _ => True) Rendering.Settles (fun _ _ _ => True) (W.variant cfg fuel) := by
  induction fuel with
  | zero => exact ⟨fun _ hok => nomatch hok⟩
  | succ fuel ih =>
      have hhosts : ∀ {parts : Parts} {state s' : Rendering} {hosts : List Text}
          {labels : List (List Text)},
          visitHosts (W.variant cfg fuel) parts state hosts = .ok (s', labels) →
            state.Settles s' := by
        intro parts state s' hosts labels hok
        have hhost : Visits (fun _ => True) Rendering.Settles (fun _ _ _ => True)
            fun state host => traverse (W.variant cfg fuel) state (parts.firstOn host) :=
          ⟨fun _ hok => ⟨trivial, (ih.traverse Rendering.Settles.refl Rendering.Settles.trans
            (fun _ _ => trivial) trivial hok).2.1, trivial⟩⟩
        exact (hhost.traverse Rendering.Settles.refl Rendering.Settles.trans
          (fun _ _ => trivial) trivial hok).2.1
      constructor
      intro state pkg s' label _ hok
      refine ⟨trivial, ?_, trivial⟩
      rcases variant_cases hok with ⟨known, -, rfl, -⟩ |
        ⟨-, crate, s₁, normal, s₂, build, s₃, dev, -, hnormal, hbuild, hdev, rfl, -⟩
      · intro unit known h hpending
        rw [take_keys] at h
        exact ⟨known, h, hpending⟩
      · intro unit known h hpending
        by_cases hsame : unit = (cfg, pkg)
        · rw [finish_keys, hsame, Finmap.lookup_insert] at h
          cases h
          cases hpending
        · rw [finish_keys, Finmap.lookup_insert_of_ne _ hsame] at h
          obtain ⟨before, hbefore, hpending'⟩ := hhosts hdev unit known h hpending
          rw [remember_keys, Finmap.lookup_insert_of_ne _ hsame] at hbefore
          exact (hhosts hnormal).trans (hhosts hbuild) unit before hbefore hpending'

end Settling

section Rendered

variable {cfgs : List Text} {labels : List Text} {merged : Merged}

theorem mem_units : (cfg, pkg) ∈ W.units cfgs ↔
    cfg ∈ cfgs ∧ pkg ∈ (W.resolved cfg).map Prod.fst := by
  unfold Workspace.units
  rw [List.mem_flatMap]
  simp only [List.mem_map, mem_sortedList, Prod.mk.injEq]
  constructor
  · rintro ⟨cfg', hcfg, pkg', hpkg, rfl, rfl⟩
    exact ⟨hcfg, hpkg⟩
  · rintro ⟨hcfg, hpkg⟩
    exact ⟨cfg, hcfg, pkg, hpkg, rfl, rfl⟩

theorem variants_finished (hok : W.variants fuel cfgs = .ok (state, labels)) {unit : Text × Text}
    {known : Variant} (h : state.keys.lookup unit = some known) : ∃ dev, known.dev = some dev := by
  have hsettles : Visits (fun _ => True) Rendering.Settles (fun _ _ _ => True)
      fun state (unit : Text × Text) => W.variant unit.1 fuel state unit.2 :=
    ⟨fun _ hok => (variant_settles fuel).keeps trivial hok⟩
  obtain ⟨-, hsettled, -⟩ := hsettles.traverse Rendering.Settles.refl Rendering.Settles.trans
    (fun _ _ => trivial) trivial hok
  cases hdev : known.dev with
  | some dev => exact ⟨dev, rfl⟩
  | none =>
      obtain ⟨before, hbefore, -⟩ := hsettled _ known h hdev
      rw [Finmap.lookup_empty] at hbefore
      cases hbefore

/-- After `main`'s visits every package of the configurations is known, with
its dev-dependencies. -/
theorem variants_spec (hok : W.variants fuel cfgs = .ok (state, labels)) :
    W.Sound state ∧ ∀ cfg ∈ cfgs, ∀ pkg ∈ (W.resolved cfg).map Prod.fst,
      ∃ known dev, state.keys.lookup (cfg, pkg) = some known ∧ known.dev = some dev := by
  have hvisits : Visits W.Sound Rendering.Grows
      (fun state unit label => W.Labelled unit.1 state unit.2 label)
      fun state (unit : Text × Text) => W.variant unit.1 fuel state unit.2 :=
    ⟨fun hsound hok => (variant_visits fuel).keeps hsound hok⟩
  obtain ⟨hsound, -, hlabels⟩ := hvisits.traverse Rendering.Grows.refl Rendering.Grows.trans
    (fun hle hlabel => hlabel.grows hle) sound_empty hok
  refine ⟨hsound, fun cfg hcfg pkg hpkg => ?_⟩
  obtain ⟨i, hi, hunit⟩ := List.getElem_of_mem (mem_units.mpr ⟨hcfg, hpkg⟩)
  have hlabel := List.forall₂_iff_get.mp hlabels |>.2 i hi (hlabels.length_eq ▸ hi)
  rw [List.get_eq_getElem, hunit] at hlabel
  obtain ⟨known, hknown, -⟩ := hlabel
  obtain ⟨dev, hdev⟩ := variants_finished hok hknown
  exact ⟨known, dev, hknown, hdev⟩

theorem eq_of_nodup_snd {α β : Type} {entries : List (α × β)} (h : (entries.map Prod.snd).Nodup)
    {a a' : α} {b : β} (hmem : (a, b) ∈ entries) (hmem' : (a', b) ∈ entries) : a = a' := by
  have heq := List.inj_on_of_nodup_map h hmem hmem' rfl
  exact congrArg Prod.fst heq

/-- A rule is of the package with its features, and takes what it needs on each host. -/
structure Rule.Renders (rule : Rule) (pkg : Text) (merged : Merged)
    (needs : Text → Text → Prop) : Prop where
  package : rule.package = pkg
  features : rule.features = sorted merged.features
  deps : ∀ host ∈ merged.firstParty.map Prod.fst, ((selectDeps rule.deps).on host).Nodup ∧
    ∀ label, label ∈ (selectDeps rule.deps).on host ↔ needs host label

/-- The rule of a key that a package has in a configuration. -/
theorem renders_of_keyOf {pick : Links → List Text} {want : Finset Kind → Bool} {rule : Rule}
    {pkg' : Text} {features' : Finset Text} (hdict : links.IsDict)
    (hkey : keyOf pkg' features' others = keyOf pkg features links)
    (hfeatures : features = merged.features)
    (hhosts : ∀ host ∈ merged.firstParty.map Prod.fst, ∃ link, (host, link) ∈ links ∧
      ∀ label, label ∈ (pick link).toFinset ↔ W.Needs cfg state pkg merged want host label)
    (hpackage : rule.package = pkg') (hrule : rule.features = sorted features')
    (hdeps : rule.deps = depsOf others pick) :
    rule.Renders pkg merged (W.Needs cfg state pkg merged want) := by
  obtain ⟨rfl, rfl, hon⟩ := on_depsOf_of_keyOf hkey hdict
  obtain ⟨hapart, hon⟩ := hon pick
  refine ⟨hpackage, hfeatures ▸ hrule, fun host hhost => ?_⟩
  obtain ⟨link, hlink, hneeds⟩ := hhosts host hhost
  obtain ⟨hnodup, hmem⟩ := rendered_on_host hapart host
  rw [hdeps]
  refine ⟨hnodup, fun label => ?_⟩
  rw [hmem, hon host link hlink, hneeds]

theorem crateOf_of_ok (hdicts : W.Dicts) (hmerged : (pkg, merged) ∈ W.resolved cfg)
    (hcrate : W.crate cfg pkg = .ok crate) :
    (W.Pinned pkg merged Native.normal ∧ W.Pinned pkg merged Native.build ∧
      W.Pinned pkg merged devOnly) ∧ crate = W.crateOf pkg merged := by
  obtain ⟨merged', hlookup, hpinned, rfl⟩ := crate_ok hcrate
  rw [(lookup_eq_some_iff_mem (hdicts.resolved cfg)).mpr hmerged] at hlookup
  cases hlookup
  exact ⟨hpinned, rfl⟩

theorem Workspace.Known.crateOf (hdicts : W.Dicts) (hmerged : (pkg, merged) ∈ W.resolved cfg)
    (h : W.Known state cfg pkg crate links known) :
    (W.Pinned pkg merged Native.normal ∧ W.Pinned pkg merged Native.build ∧
      W.Pinned pkg merged devOnly) ∧ crate = W.crateOf pkg merged :=
  crateOf_of_ok hdicts hmerged h.resolves

theorem needs_of_linked (hdicts : W.Dicts) (hmerged : (pkg, merged) ∈ W.resolved cfg)
    (hcrate : W.crate cfg pkg = .ok crate) (hlinked : W.Linked cfg state crate links) :
    links.IsDict ∧ ∀ host ∈ merged.firstParty.map Prod.fst, ∃ link, (host, link) ∈ links ∧
      (∀ label, label ∈ link.deps.toFinset ↔
        W.Needs cfg state pkg merged Native.normal host label) ∧
      ∀ label, label ∈ link.buildDeps.toFinset ↔
        W.Needs cfg state pkg merged Native.build host label := by
  obtain ⟨hfirst, hthird⟩ := hdicts.hosts cfg _ hmerged
  obtain ⟨⟨hnormal, hbuild, -⟩, rfl⟩ := crateOf_of_ok hdicts hmerged hcrate
  obtain ⟨hkeys, hall⟩ := hlinked.spec
  refine ⟨?_, fun host hhost => ?_⟩
  · rw [PerHost.IsDict, hkeys]
    exact (sortedList_perm _).nodup_iff.mpr hfirst
  · have hin : host ∈ links.map Prod.fst := by
      rw [hkeys]
      exact mem_sortedList.mpr hhost
    obtain ⟨⟨other, link⟩, hlink, hother⟩ := List.mem_map.mp hin
    obtain rfl : other = host := hother
    obtain ⟨hfirst₁, hthird₁, hfirst₂, hthird₂⟩ := hall _ hlink
    refine ⟨link, hlink, fun label => ?_, fun label => ?_⟩
    · rw [Links.deps, hthird₁]
      exact mem_needs hfirst hthird hnormal hfirst₁
    · rw [Links.buildDeps, hthird₂]
      exact mem_needs hfirst hthird hbuild hfirst₂

theorem Workspace.Known.needs (hdicts : W.Dicts) (hmerged : (pkg, merged) ∈ W.resolved cfg)
    (h : W.Known state cfg pkg crate links known) :
    links.IsDict ∧ ∀ host ∈ merged.firstParty.map Prod.fst, ∃ link, (host, link) ∈ links ∧
      (∀ label, label ∈ link.deps.toFinset ↔
        W.Needs cfg state pkg merged Native.normal host label) ∧
      ∀ label, label ∈ link.buildDeps.toFinset ↔
        W.Needs cfg state pkg merged Native.build host label :=
  needs_of_linked hdicts hmerged h.resolves h.linked

theorem Workspace.Known.dev_needs (hdicts : W.Dicts) (hmerged : (pkg, merged) ∈ W.resolved cfg)
    (h : W.Known state cfg pkg crate links known) {dev : Deps} (hdev : known.dev = some dev)
    (hhost : host ∈ merged.firstParty.map Prod.fst) :
    label ∈ dev.on host ↔ W.Needs cfg state pkg merged devOnly host label := by
  obtain ⟨hfirst, hthird⟩ := hdicts.hosts cfg _ hmerged
  obtain ⟨⟨-, -, hpinned⟩, rfl⟩ := h.crateOf hdicts hmerged
  obtain ⟨visited, hvisited, rfl⟩ := h.dev dev hdev
  obtain ⟨hkeys, hall⟩ := zip_forall₂ hvisited
  have hin : host ∈ ((W.crateOf pkg merged).hosts.zip visited).map Prod.fst := by
    rw [hkeys]
    exact mem_sortedList.mpr hhost
  obtain ⟨⟨other, labels⟩, hlabels, hother⟩ := List.mem_map.mp hin
  obtain rfl : other = host := hother
  have hdict : PerHost.IsDict (((W.crateOf pkg merged).hosts.zip visited).map fun entry =>
      (entry.1, (entry.2 ++ (W.crateOf pkg merged).dev.thirdOn entry.1).toFinset)) := by
    rw [PerHost.IsDict, List.map_map]
    exact hkeys.symm ▸ (sortedList_perm _).nodup_iff.mpr hfirst
  rw [Crate.devDeps, on_splitHosts hdict (List.mem_map_of_mem hlabels)]
  exact mem_needs hfirst hthird hpinned (hall _ hlabels)

theorem Workspace.Known.dev_isDict (hdicts : W.Dicts) (hmerged : (pkg, merged) ∈ W.resolved cfg)
    (h : W.Known state cfg pkg crate links known) {dev : Deps} (hdev : known.dev = some dev) :
    dev.extra.IsDict := by
  obtain ⟨-, rfl⟩ := h.crateOf hdicts hmerged
  obtain ⟨visited, hvisited, rfl⟩ := h.dev dev hdev
  refine besides_isDict ?_
  rw [PerHost.IsDict, List.map_map]
  exact (zip_forall₂ hvisited).1.symm ▸
    (sortedList_perm _).nodup_iff.mpr (hdicts.hosts cfg _ hmerged).1

theorem Workspace.Known.renders (hdicts : W.Dicts) (hsound : W.Sound state)
    (hnames : (state.names.map Prod.snd).Nodup) (hmerged : (pkg, merged) ∈ W.resolved cfg)
    (h : W.Known state cfg pkg crate links known) {rule : Rule} (hrule : rule ∈ state.rules) :
    (rule.kind = .library → rule.name = known.name →
      rule.Renders pkg merged (W.Needs cfg state pkg merged Native.normal)) ∧
    (rule.kind = .buildScript → rule.name = scriptName known.name →
      rule.Renders pkg merged (W.Needs cfg state pkg merged Native.build)) := by
  obtain ⟨hdict, hneeds⟩ := h.needs hdicts hmerged
  have hfeatures : crate.features = merged.features := by
    rw [(h.crateOf hdicts hmerged).2]
    rfl
  have hentry := mem_of_lookup h.named
  obtain ⟨name, pkg', features', others, hmem, hmade⟩ := hsound.made rule hrule
  refine ⟨?_, ?_⟩
  · intro hkind hname
    rcases hmade with rfl | rfl
    · obtain rfl : name = known.name := hname
      have hkey := eq_of_nodup_snd hnames hmem hentry
      exact renders_of_keyOf hdict hkey hfeatures
        (fun host hhost => (hneeds host hhost).imp fun _ h => ⟨h.1, h.2.1⟩) rfl rfl rfl
    · cases hkind
  · intro hkind hname
    rcases hmade with rfl | rfl
    · cases hkind
    · obtain rfl : name = known.name := scriptName_injective hname
      have hkey := eq_of_nodup_snd hnames hmem hentry
      exact renders_of_keyOf hdict hkey hfeatures
        (fun host hhost => (hneeds host hhost).imp fun _ h => ⟨h.1, h.2.2⟩) rfl rfl rfl

theorem Workspace.Known.library_mem (hsound : W.Sound state)
    (h : W.Known state cfg pkg crate links known) (hlib : (W.pkgs pkg).hasLib = true) :
    ∃ rule ∈ state.rules, rule.kind = .library ∧ rule.name = known.name := by
  have hname : known.name ∈ state.libraries.map Rule.name := by
    rw [hsound.libraries]
    refine List.mem_map_of_mem (f := Prod.snd)
      (List.mem_filter.mpr ⟨mem_of_lookup h.named, ?_⟩)
    rw [keyOf_package]
    exact hlib
  obtain ⟨rule, hrule, hname⟩ := List.mem_map.mp hname
  obtain ⟨hmem, hkind⟩ := List.mem_filter.mp hrule
  exact ⟨rule, hmem, of_decide_eq_true hkind, hname⟩

theorem Workspace.Known.script_mem (hsound : W.Sound state)
    (h : W.Known state cfg pkg crate links known) (hscript : (W.pkgs pkg).hasBuildScript = true) :
    ∃ rule ∈ state.rules, rule.kind = .buildScript ∧ rule.name = scriptName known.name := by
  have hentry := mem_of_lookup h.named
  exact hsound.emitted _ (hsound.scripts _ hentry (by rw [keyOf_package]; exact hscript))

end Rendered

def Sample.merged (features firstParty : Finset Text) (thirdOnLinux : Finset (Text × Text)) :
    Merged :=
  ⟨features, [("linux".toList, firstParty), ("macos".toList, firstParty)],
    [("linux".toList, thirdOnLinux), ("macos".toList, ∅)]⟩

/-- An app over a core whose tests use the app. -/
def Sample.workspace : Workspace where
  pkgs pkg :=
    if pkg = "app".toList then ⟨[⟨"core".toList, none⟩], true, false⟩
    else ⟨[⟨"libc".toList, none⟩, ⟨"app".toList, some .dev⟩], true, true⟩
  resolved cfg :=
    [("app".toList, Sample.merged ∅ {"core".toList} ∅),
      ("core".toList, Sample.merged {"std".toList}
        (if cfg = "test".toList then {"app".toList} else ∅) {("libc".toList, "0.2".toList)})]
  thirdParty := [(("libc".toList, "0.2".toList), "libc".toList)]
  tpDir := "third-party".toList
  closed := ∅
  closedPkg := "native-closed".toList
  digest key := if key.package = "app".toList then "a0000000".toList else "c0000000".toList

def Sample.configs : List Text := ["build".toList, "test".toList]

theorem Sample.dicts : Sample.workspace.Dicts := by
  constructor
  · intro cfg
    have hkeys : (Sample.workspace.resolved cfg).map Prod.fst = ["app".toList, "core".toList] := rfl
    rw [PerHost.IsDict, hkeys]
    decide
  · intro cfg entry hentry
    have hhosts : entry.2.firstParty.map Prod.fst = ["linux".toList, "macos".toList] ∧
        entry.2.thirdParty.map Prod.fst = ["linux".toList, "macos".toList] := by
      rcases List.mem_pair.mp hentry with rfl | rfl <;> exact ⟨rfl, rfl⟩
    rw [PerHost.IsDict, PerHost.IsDict, hhosts.1, hhosts.2]
    decide

theorem Sample.run : ∃ state labels,
    Sample.workspace.variants 4 Sample.configs = .ok (state, labels) ∧
      (state.names.map Prod.snd).Nodup := by
  have hrun : ((Sample.workspace.variants 4 Sample.configs).toOption.map fun r =>
      decide (r.1.names.map Prod.snd).Nodup) = some true := by decide +kernel
  cases hresult : Sample.workspace.variants 4 Sample.configs with
  | error refusal =>
      rw [hresult] at hrun
      cases hrun
  | ok r =>
      rw [hresult] at hrun
      exact ⟨r.1, r.2, rfl, of_decide_eq_true (Option.some.inj hrun)⟩

end AccountDirectory.Native
