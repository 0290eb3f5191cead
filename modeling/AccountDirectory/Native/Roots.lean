import AccountDirectory.Native.Main

/-! The binaries, tests and examples of the bar: each target of a root that is
not skipped is there, and takes on each host what its package does. -/
namespace AccountDirectory.Native
open Library

variable {B : Bar} {W : Workspace} {cfg pkg name label host : Text} {state : Rendering} {fuel : Nat}
  {configs : List Configuration} {config : Configuration} {root : Root} {rule : Rule}
  {merged : Merged} {crate : Crate} {links : PerHost Links} {known : Variant} {t : Target}
  {emission : Rule × Option Text} {outs : List Unit}

/-- A root of the bar, as the rendering knows it. -/
structure Bar.IsRoot (B : Bar) (configs : List Configuration) (state : Rendering) (root : Root) :
    Prop where
  config : root.config ∈ configs
  pkg : root.pkg ∈ B.roots root.config
  known : state.keys.lookup (root.config.name, root.pkg) = some root.known
  dev : root.known.dev = some root.dev
  hasLib : root.hasLib = (B.pkgs root.pkg).hasLib

/-- What a target of the root takes on a host: the package's dependencies, with
its dev-dependencies or not, and its own library or not. -/
def Bar.Takes (B : Bar) (state : Rendering) (root : Root) (merged : Merged) (dev own : Bool)
    (host label : Text) : Prop :=
  B.Needs root.config.name state root.pkg merged Native.normal host label ∨
    dev = true ∧ B.Needs root.config.name state root.pkg merged devOnly host label ∨
    own = true ∧ root.hasLib = true ∧ label = ':' :: root.known.name

/-- The tests of the library itself do not take it. -/
def Root.takesOwn (root : Root) (t : Target) : Bool := ¬ (t.isTestedLib ∧ t.test ∧ root.hasLib)

section Parts

theorem mem_rootUnits : (config, pkg) ∈ B.rootUnits configs ↔
    config ∈ configs ∧ pkg ∈ B.roots config := by
  unfold Bar.rootUnits
  simp only [List.mem_flatMap, List.mem_map, Prod.mk.injEq]
  constructor
  · rintro ⟨config', hconfig, pkg', hpkg, rfl, rfl⟩
    exact ⟨hconfig, hpkg⟩
  · rintro ⟨hconfig, hpkg⟩
    exact ⟨config, hconfig, pkg, hpkg, rfl, rfl⟩

/-- The dependencies a known package is remembered with, on each host. -/
theorem Workspace.Known.deps_needs (hdicts : W.Dicts) (hmerged : (pkg, merged) ∈ W.resolved cfg)
    (h : W.Known state cfg pkg crate links known) :
    known.deps.extra.IsDict ∧ ∀ host ∈ merged.firstParty.map Prod.fst, ∀ label,
      label ∈ known.deps.on host ↔ W.Needs cfg state pkg merged Native.normal host label := by
  obtain ⟨hdict, hneeds⟩ := h.needs hdicts hmerged
  rw [h.deps]
  refine ⟨(apart_depsOf hdict Links.deps).1, fun host hhost label => ?_⟩
  obtain ⟨link, hlink, hmem, -⟩ := hneeds host hhost
  rw [on_depsOf hdict hlink, hmem]

theorem mem_own : label ∈ root.own.on host ↔
    root.hasLib = true ∧ label = ':' :: root.known.name := by
  unfold Root.own Deps.on
  cases root.hasLib <;> simp

theorem root_of_rooted (hrooted : B.Rooted state (B.rootUnits configs) root)
    (hsound : B.Sound (B.libraryPart state))
    (hnames : (state.names.map Prod.snd).Nodup) : B.IsRoot configs state root := by
  obtain ⟨hconfig, hpkg⟩ := mem_rootUnits.mp hrooted.unit
  refine ⟨hconfig, hpkg, hrooted.known, hrooted.dev, ?_⟩
  cases hlib : root.hasLib with
  | false =>
      obtain ⟨key, hkey, hnone⟩ := hrooted.withLib hlib
      obtain ⟨crate, links, hknown⟩ := hsound.known hrooted.known
      have hsame := eq_of_nodup_snd hnames hkey (mem_of_lookup hknown.named)
      rw [hsame, keyOf_package] at hnone
      exact hnone.symm
  | true =>
      cases hhas : (B.pkgs root.pkg).hasLib with
      | true => rfl
      | false => rw [← hlib, hrooted.withoutLib hhas]

/-- A root is told by its configuration and its package. -/
theorem Bar.IsRoot.unique {other : Root} (h : B.IsRoot configs state root)
    (h' : B.IsRoot configs state other) (hconfig : root.config = other.config)
    (hpkg : root.pkg = other.pkg) : root = other := by
  have hknown := h.known
  rw [hconfig, hpkg, h'.known] at hknown
  have hdev := h.dev
  rw [← Option.some.inj hknown, h'.dev] at hdev
  have hlib := h.hasLib.trans (hpkg ▸ h'.hasLib.symm)
  cases root
  cases other
  simp_all

theorem renders_of_parts (hdicts : B.Dicts) (hsound : B.Sound (B.libraryPart state))
    (h : B.IsRoot configs state root) (hmerged : (root.pkg, merged) ∈ B.resolved root.config.name)
    {kind : RuleKind} (dev own : Bool) {parts : List Deps}
    (hparts : ∀ part, part ∈ parts ↔ part = root.known.deps ∨ dev = true ∧ part = root.dev ∨
      own = true ∧ part = root.own) :
    (root.rule kind name parts).Renders root.pkg merged (B.Takes state root merged dev own) := by
  obtain ⟨crate, links, hknown⟩ := hsound.known h.known
  obtain ⟨hdict, hnormal⟩ := hknown.deps_needs hdicts hmerged
  have hdev : ∀ host ∈ merged.firstParty.map Prod.fst, ∀ label, label ∈ root.dev.on host ↔
      B.Needs root.config.name state root.pkg merged devOnly host label :=
    fun host hhost label => hknown.dev_needs hdicts hmerged h.dev hhost
  have hfeatures : root.known.features = merged.features := by
    rw [hknown.features, (hknown.crateOf hdicts hmerged).2]
    rfl
  have hall : ∀ part ∈ parts, part.extra.IsDict := by
    intro part hpart
    rcases (hparts part).mp hpart with rfl | ⟨-, rfl⟩ | ⟨-, rfl⟩
    · exact hdict
    · exact hknown.dev_isDict hdicts hmerged h.dev
    · exact List.nodup_nil
  refine ⟨rfl, congrArg sorted hfeatures, fun host hhost => ?_⟩
  obtain ⟨hnodup, hmem⟩ := rendered_on_host (apart_plus hall) host
  refine ⟨hnodup, fun label => ?_⟩
  change label ∈ (selectDeps (plus parts)).on host ↔ _
  rw [hmem, mem_on_plus hall]
  unfold Bar.Takes
  constructor
  · rintro ⟨part, hpart, hlabel⟩
    rcases (hparts part).mp hpart with rfl | ⟨hwith, rfl⟩ | ⟨hwith, rfl⟩
    · exact .inl ((hnormal host hhost label).mp hlabel)
    · exact .inr (.inl ⟨hwith, (hdev host hhost label).mp hlabel⟩)
    · exact .inr (.inr ⟨hwith, mem_own.mp hlabel⟩)
  · rintro (hneeds | ⟨hwith, hneeds⟩ | ⟨hwith, hown⟩)
    · exact ⟨_, (hparts _).mpr (.inl rfl), (hnormal host hhost label).mpr hneeds⟩
    · exact ⟨_, (hparts _).mpr (.inr (.inl ⟨hwith, rfl⟩)), (hdev host hhost label).mpr hneeds⟩
    · exact ⟨_, (hparts _).mpr (.inr (.inr ⟨hwith, rfl⟩)), mem_own.mpr hown⟩

theorem emission_not_stable (hplain : B.Plain configs) (h : B.Stands configs root)
    (hmem : emission ∈ root.emissions (B.targets root.pkg)) (pkg : Text) :
    emission.1.name ≠ "rust-test-".toList ++ pkg ++ "-lib".toList := by
  intro hname
  obtain ⟨t, -, ⟨hbinary, -⟩ | ⟨htested, -⟩⟩ := emission_cases hmem
  · obtain ⟨-, -, hrule⟩ := binary_cases hbinary
    rw [hrule] at hname
    have hfront := congrArg (List.take 6) hname
    rw [Root.rule, List.append_assoc, List.append_assoc, List.take_append_of_le_length (by decide),
      List.take_append_of_le_length (by decide)] at hfront
    exact absurd hfront (by decide)
  · obtain ⟨-, kind, front, -, hrule⟩ := tested_cases htested
    obtain ⟨hdash, -⟩ := tag_plain hplain h
    have htag : root.tag ≠ "lib".toList := by
      unfold Root.tag
      rcases tag_cases hplain h with hnone | ⟨key, hsome⟩
      · rw [hnone]
        decide
      · rw [hsome, Option.getD_some]
        intro hlib
        have hlength := (hplain.digest key).1
        rw [hlib] at hlength
        exact absurd hlength (by decide)
    rw [hrule] at hname
    have hsplit : (front ++ ['-']) ++ '-' :: root.tag =
        ("rust-test-".toList ++ pkg) ++ '-' :: "lib".toList := by
      rw [List.append_assoc]
      rw [Root.rule, List.append_assoc] at hname
      exact hname
    exact htag (split_last hdash (by decide) hsplit).2

end Parts

section Rendered

theorem Bar.Reached.isRoot {cfgs : List Text} (h : B.Reached fuel cfgs (B.rootUnits configs) state)
    (hnames : (state.names.map Prod.snd).Nodup) (hrooted : B.Rooted state (B.rootUnits configs) root) :
    B.IsRoot configs state root :=
  root_of_rooted hrooted h.sound.1 hnames

theorem target_of_rule (hdicts : B.Dicts) (hplain : B.Plain configs)
    (hok : B.render fuel configs = .ok (state, outs)) (hnames : (state.names.map Prod.snd).Nodup)
    (hrule : rule ∈ state.rules) (hother : rule.isLibrary = false) :
    ∃ root merged, B.IsRoot configs state root ∧
      (root.pkg, merged) ∈ B.resolved root.config.name ∧
        ∃ t ∈ B.targets root.pkg, root.enabled t = true ∧
          (root.binary t = some rule ∧
              rule.Renders root.pkg merged (B.Takes state root merged false true) ∨
            root.tested t = some rule ∧
              rule.Renders root.pkg merged (B.Takes state root merged true (root.takesOwn t))) := by
  have hreached := render_reached hplain hok
  have hsound := hreached.sound.1
  obtain ⟨root, hrooted, stable, hemission⟩ := hreached.others rule hrule hother
  have hroot := hreached.isRoot hnames hrooted
  obtain ⟨crate, links, hknown⟩ := hsound.known hroot.known
  obtain ⟨merged, hmerged, -, -⟩ := crate_ok hknown.resolves
  rw [lookup_eq_some_iff_mem (hdicts.resolved _)] at hmerged
  refine ⟨root, merged, hroot, hmerged, ?_⟩
  obtain ⟨t, ht, ⟨hbinary, -⟩ | ⟨htested, -⟩⟩ := emission_cases hemission
  · obtain ⟨-, henabled, hmade⟩ := binary_cases hbinary
    refine ⟨t, ht, henabled, .inl ⟨hbinary, ?_⟩⟩
    rw [show rule = _ from hmade]
    refine renders_of_parts hdicts hsound hroot hmerged false true fun part => ?_
    simp
  · obtain ⟨henabled, kind, front, -, hmade⟩ := tested_cases htested
    refine ⟨t, ht, henabled, .inr ⟨htested, ?_⟩⟩
    rw [show rule = _ from hmade]
    refine renders_of_parts hdicts hsound hroot hmerged true (root.takesOwn t) fun part => ?_
    unfold Root.takesOwn
    split
    · rename_i hlib
      simp [hlib]
    · rename_i hlib
      simp [hlib]

end Rendered

end AccountDirectory.Native
