import AccountDirectory.Native.Doctests
import AccountDirectory.Native.Published
import AccountDirectory.Native.Roots

/-! Open and closed crates. Every edge into a closed crate is an alias of the
closed package, which only closed targets may see: the build refuses a rendering
in which an open target takes a closed crate. -/
namespace AccountDirectory.Native
open Library

variable {B : Bar} {W : Workspace} {cfg pkg dep name label host : Text} {state s s' : Rendering}
  {fuel : Nat} {configs : List Configuration} {rule : Rule} {merged : Merged} {known : Variant}
  {outs : List Unit} {hosts : List Text} {cfgs labels : List Text}

/-- An `alias` of the closed package's BUCK file. -/
structure Alias where
  name : Text
  actual : Text
  visibility : List Text
deriving DecidableEq

def localLabel (name : Text) : Text := ['/', '/', ':'] ++ name

/-- An alias of each closed library something takes, visible only to the closed targets. -/
def closedPackage (aliases consumers : Finset Text) : List Alias :=
  (sorted aliases).map fun name =>
    ⟨name, localLabel name, sorted (consumers.image localLabel)⟩

def Workspace.closedLabel (W : Workspace) (name : Text) : Text :=
  ['/', '/'] ++ W.closedPkg ++ ':' :: name

/-- A rule may take a label: an alias that is there and that the rule sees, or
anything else, which is public or of the root package itself. -/
def Workspace.Visible (W : Workspace) (state : Rendering) (rule : Rule) (label : Text) : Prop :=
  ∀ name, label = W.closedLabel name →
    ∃ entry ∈ closedPackage state.closedAliases state.closedTargets,
      entry.name = name ∧ localLabel rule.name ∈ entry.visibility

/-- The build's analysis accepts the rendering on the hosts. -/
def Workspace.Accepts (W : Workspace) (hosts : List Text) (state : Rendering) : Prop :=
  ∀ rule ∈ state.rules, ∀ host ∈ hosts, ∀ label ∈ (selectDeps rule.deps).on host,
    W.Visible state rule label

/-- A rule takes a package's library, on one of the hosts. -/
def Workspace.TakesPackage (W : Workspace) (hosts : List Text) (state : Rendering)
    (rule : Rule) (dep : Text) : Prop :=
  ∃ cfg known, state.keys.lookup (cfg, dep) = some known ∧
    ∃ host ∈ hosts, W.edgeLabel dep known.name ∈ (selectDeps rule.deps).on host

section Aliases

def Workspace.Aliased (W : Workspace) (state : Rendering) : Prop :=
  ∀ cfg pkg known, state.keys.lookup (cfg, pkg) = some known → pkg ∈ W.closed →
    known.name ∈ state.closedAliases

theorem take_closedAliases : state.closedAliases ⊆ (W.take pkg name state).closedAliases ∧
    (pkg ∈ W.closed → name ∈ (W.take pkg name state).closedAliases) := by
  unfold Workspace.take
  split
  · exact ⟨Finset.subset_insert _ _, fun _ => Finset.mem_insert_self _ _⟩
  · rename_i hopen
    exact ⟨Finset.Subset.refl _, fun hclosed => absurd hclosed hopen⟩

theorem emitLib_closedAliases {features : Finset Text} {deps buildDeps : Deps} :
    (W.emitLib name pkg features deps buildDeps state).closedAliases = state.closedAliases := by
  unfold Workspace.emitLib Workspace.buildscript Workspace.rule
  dsimp only
  split <;> split <;> rfl

theorem intern_closedAliases {features : Finset Text} {links : PerHost Links} :
    (W.intern cfg pkg features links state).1.closedAliases = state.closedAliases := by
  unfold Workspace.intern
  dsimp only
  split
  · rfl
  · exact emitLib_closedAliases

theorem Workspace.Aliased.insert (h : W.Aliased s)
    (hkeys : s'.keys = s.keys.insert (cfg, pkg) known) (haliases : s.closedAliases ⊆ s'.closedAliases)
    (htaken : pkg ∈ W.closed → known.name ∈ s'.closedAliases) : W.Aliased s' := by
  intro cfg' pkg' known' hknown hclosed
  rw [hkeys] at hknown
  by_cases hsame : (cfg', pkg') = (cfg, pkg)
  · rw [hsame, Finmap.lookup_insert] at hknown
    cases hknown
    obtain ⟨-, rfl⟩ := Prod.mk.inj hsame
    exact htaken hclosed
  · rw [Finmap.lookup_insert_of_ne _ hsame] at hknown
    exact haliases (h cfg' pkg' known' hknown hclosed)

theorem remember_closedAliases {crate : Crate} {links : PerHost Links} :
    s.closedAliases ⊆ (W.remember cfg pkg crate links s).1.closedAliases ∧
      (pkg ∈ W.closed → (W.remember cfg pkg crate links s).2 ∈
        (W.remember cfg pkg crate links s).1.closedAliases) := by
  unfold Workspace.remember
  dsimp only
  refine ⟨Finset.Subset.trans ?_ take_closedAliases.1, take_closedAliases.2⟩
  exact intern_closedAliases.symm.subset

theorem finish_closedAliases {crate : Crate} {links : PerHost Links} {dev : List (List Text)} :
    s.closedAliases ⊆ (W.finish cfg pkg crate links name dev s).closedAliases ∧
      (pkg ∈ W.closed → name ∈ (W.finish cfg pkg crate links name dev s).closedAliases) := by
  unfold Workspace.finish
  refine ⟨Finset.Subset.trans ?_ take_closedAliases.1, take_closedAliases.2⟩
  exact Finset.Subset.refl _

theorem variants_aliased (hok : W.variants fuel cfgs = .ok (state, labels)) : W.Aliased state := by
  have hvisit : ∀ cfg s s' pkg label, W.Aliased s → W.variant cfg fuel s pkg = .ok (s', label) →
      W.Aliased s' := by
    intro cfg
    refine variant_keeps ?_ ?_ ?_ fuel
    · intro s pkg name h cfg' pkg' known hknown hclosed
      rw [take_keys] at hknown
      exact take_closedAliases.1 (h cfg' pkg' known hknown hclosed)
    · intro s pkg crate links h
      exact h.insert remember_keys remember_closedAliases.1 remember_closedAliases.2
    · intro s pkg crate links name dev h
      exact h.insert finish_keys finish_closedAliases.1 finish_closedAliases.2
  refine traverse_keeps (fun unit _ s s' label => hvisit unit.1 s s' unit.2 label) ?_ hok
  intro cfg pkg known hknown
  rw [Finmap.lookup_empty] at hknown
  cases hknown

end Aliases

section Labels

/-- A library or build script takes what its package does in some configuration. -/
theorem Workspace.Sound.renders (hdicts : W.Dicts) (h : W.Sound state) (hrule : rule ∈ state.rules) :
    ∃ cfg merged want, (rule.package, merged) ∈ W.resolved cfg ∧
      rule.Renders rule.package merged (W.Needs cfg state rule.package merged want) := by
  obtain ⟨name, pkg, features, links, hmem, hmade⟩ := h.made rule hrule
  obtain ⟨cfg, pkg', crate, links', hcrate, hlinked, hkey, -⟩ := h.origin _ hmem
  obtain ⟨merged, hmerged, -, hcrateOf⟩ := crate_ok hcrate
  rw [lookup_eq_some_iff_mem (hdicts.resolved cfg)] at hmerged
  obtain ⟨hdict, hneeds⟩ := needs_of_linked hdicts hmerged hcrate hlinked
  have hfeatures : crate.features = merged.features := by
    rw [hcrateOf]
    rfl
  obtain ⟨rfl, -, -⟩ := on_depsOf_of_keyOf hkey hdict
  rcases hmade with rfl | rfl
  · exact ⟨cfg, merged, Native.normal, hmerged, renders_of_keyOf hdict hkey hfeatures
      (fun host hhost => (hneeds host hhost).imp fun _ h => ⟨h.1, h.2.1⟩) rfl rfl rfl⟩
  · exact ⟨cfg, merged, Native.build, hmerged, renders_of_keyOf hdict hkey hfeatures
      (fun host hhost => (hneeds host hhost).imp fun _ h => ⟨h.1, h.2.2⟩) rfl rfl rfl⟩

/-- What a rule takes is a package's library, a third-party target, or a target of
its own package. -/
theorem label_cases (hdicts : B.Dicts) (hplain : B.Plain configs)
    (hhosts : ∀ cfg, ∀ entry ∈ B.resolved cfg, entry.2.firstParty.map Prod.fst = hosts)
    (hok : B.render fuel configs = .ok (state, outs)) (hnames : (state.names.map Prod.snd).Nodup)
    (hrule : rule ∈ state.rules) (hhost : host ∈ hosts)
    (hlabel : label ∈ (selectDeps rule.deps).on host) :
    (∃ cfg dep known, state.keys.lookup (cfg, dep) = some known ∧
        label = B.edgeLabel dep known.name) ∨
      (∃ third, B.tpLabel third = some label) ∨ ∃ name, label = ':' :: name := by
  have hneeded : ∀ {cfg pkg merged want}, B.Needs cfg state pkg merged want host label →
      (∃ cfg dep known, state.keys.lookup (cfg, dep) = some known ∧
        label = B.edgeLabel dep known.name) ∨ ∃ third, B.tpLabel third = some label := by
    rintro cfg pkg merged want (⟨_, dep, -, -, -, known, hknown, hlabel⟩ | ⟨_, third, -, -, -, h⟩)
    · exact .inl ⟨cfg, dep, known, hknown, hlabel⟩
    · exact .inr ⟨third, h⟩
  have hon : ∀ {cfg pkg merged}, (pkg, merged) ∈ B.resolved cfg →
      host ∈ merged.firstParty.map Prod.fst := by
    intro cfg pkg merged hmerged
    rw [hhosts cfg _ hmerged]
    exact hhost
  cases hkind : rule.isLibrary with
  | true =>
      have hsound := (render_reached hplain hok).sound.1
      obtain ⟨cfg, merged, want, hmerged, hrenders⟩ :=
        hsound.renders hdicts (List.mem_filter.mpr ⟨hrule, hkind⟩)
      exact or_assoc.mp (.inl (hneeded (((hrenders.deps host (hon hmerged)).2 label).mp hlabel)))
  | false =>
      obtain ⟨root, merged, -, hmerged, t, -, -, hrenders⟩ :=
        target_of_rule hdicts hplain hok hnames hrule hkind
      have htakes : ∃ dev own, B.Takes state root merged dev own host label := by
        rcases hrenders with ⟨-, hrenders⟩ | ⟨-, hrenders⟩
        · exact ⟨_, _, ((hrenders.deps host (hon hmerged)).2 label).mp hlabel⟩
        · exact ⟨_, _, ((hrenders.deps host (hon hmerged)).2 label).mp hlabel⟩
      obtain ⟨dev, own, hneeds | ⟨-, hneeds⟩ | ⟨-, -, rfl⟩⟩ := htakes
      · exact or_assoc.mp (.inl (hneeded hneeds))
      · exact or_assoc.mp (.inl (hneeded hneeds))
      · exact .inr (.inr ⟨_, rfl⟩)

theorem Workspace.Places.tpLabel_ne_closedLabel (h : W.Places) {third : Text × Text} :
    W.tpLabel third ≠ some (W.closedLabel name) := by
  intro heq
  obtain ⟨key, -, hlabel⟩ := Option.map_eq_some_iff.mp heq
  unfold Workspace.closedLabel at hlabel
  rw [List.append_assoc, List.append_assoc, List.append_cancel_left_eq] at hlabel
  exact h.apart (split_first h.tpDir h.closedPkg hlabel).1

theorem closedLabel_ne_own : W.closedLabel name ≠ ':' :: label := by
  have hne : ('/' : Char) ≠ ':' := by decide
  exact fun heq => hne (List.cons.inj heq).1

theorem edgeLabel_closed (h : pkg ∈ W.closed) : W.edgeLabel pkg name = W.closedLabel name :=
  if_pos h

theorem closed_of_edgeLabel {other : Text} (h : W.edgeLabel pkg name = W.closedLabel other) :
    pkg ∈ W.closed := by
  by_contra hopen
  unfold Workspace.edgeLabel at h
  rw [if_neg hopen] at h
  exact closedLabel_ne_own h.symm

end Labels

section Analysis

theorem localLabel_injective : Function.Injective localLabel :=
  fun _ _ h => (List.append_right_inj _).mp h

theorem mem_closedNames {rules : List Rule} (hrules : (rules.map Rule.name).Nodup)
    (hrule : rule ∈ rules) : rule.name ∈ W.closedNames rules ↔ rule.package ∈ W.closed := by
  unfold Workspace.closedNames
  rw [List.mem_toFinset, List.mem_map]
  constructor
  · rintro ⟨other, hother, hname⟩
    obtain ⟨hmem, hclosed⟩ := List.mem_filter.mp hother
    rw [← List.inj_on_of_nodup_map hrules hmem hrule hname]
    exact of_decide_eq_true hclosed
  · intro hclosed
    exact ⟨rule, List.mem_filter.mpr ⟨hrule, decide_eq_true hclosed⟩, rfl⟩

theorem sees_alias {aliases consumers : Finset Text} (hname : name ∈ aliases) :
    (∃ entry ∈ closedPackage aliases consumers,
      entry.name = name ∧ localLabel rule.name ∈ entry.visibility) ↔ rule.name ∈ consumers := by
  have hvisible : localLabel rule.name ∈ sorted (consumers.image localLabel) ↔
      rule.name ∈ consumers := by
    rw [mem_sorted, localLabel_injective.mem_finset_image]
  unfold closedPackage
  simp only [List.mem_map, mem_sorted]
  constructor
  · rintro ⟨entry, ⟨other, -, rfl⟩, -, hmem⟩
    exact hvisible.mp hmem
  · intro hmem
    exact ⟨_, ⟨name, hname, rfl⟩, rfl, hvisible.mpr hmem⟩

theorem render_aliased (hplain : B.Plain configs)
    (hok : B.render fuel configs = .ok (state, outs)) : B.Aliased state := by
  obtain ⟨labels, hlibraries⟩ := (render_reached hplain hok).libraries
  have haliased := variants_aliased hlibraries
  exact haliased

/-- A rule sees the library of a closed package exactly when it is of one. -/
theorem visible_closed (hplain : B.Plain configs)
    (hok : B.render fuel configs = .ok (state, outs)) (hrules : (state.rules.map Rule.name).Nodup)
    (hrule : rule ∈ state.rules) (hclosed : dep ∈ B.closed)
    (hknown : state.keys.lookup (cfg, dep) = some known) :
    B.Visible state rule (B.edgeLabel dep known.name) ↔ rule.package ∈ B.closed := by
  have halias := render_aliased hplain hok cfg dep known hknown hclosed
  have hsees : (∃ entry ∈ closedPackage state.closedAliases (B.closedNames state.rules),
      entry.name = known.name ∧ localLabel rule.name ∈ entry.visibility) ↔
        rule.package ∈ B.closed := by
    rw [sees_alias halias, mem_closedNames hrules hrule]
  unfold Workspace.Visible
  rw [edgeLabel_closed hclosed, (render_reached hplain hok).closed]
  constructor
  · exact fun hvisible => hsees.mp (hvisible _ rfl)
  · intro hmem other hother
    unfold Workspace.closedLabel at hother
    rw [List.append_cancel_left_eq] at hother
    obtain rfl := (List.cons.inj hother).2
    exact hsees.mpr hmem

theorem accepts_of_open (hdicts : B.Dicts) (hplaces : B.Places) (hplain : B.Plain configs)
    (hhosts : ∀ cfg, ∀ entry ∈ B.resolved cfg, entry.2.firstParty.map Prod.fst = hosts)
    (hok : B.render fuel configs = .ok (state, outs)) (hnames : (state.names.map Prod.snd).Nodup)
    (hrules : (state.rules.map Rule.name).Nodup) (hall : ∀ rule ∈ state.rules, ∀ dep ∈ B.closed,
      B.TakesPackage hosts state rule dep → rule.package ∈ B.closed) : B.Accepts hosts state := by
  intro rule hrule host hhost label hlabel name hname
  subst hname
  rcases label_cases hdicts hplain hhosts hok hnames hrule hhost hlabel with
    ⟨cfg, dep, known, hknown, hedge⟩ | ⟨third, hthird⟩ | ⟨other, hother⟩
  · have hclosed : dep ∈ B.closed := closed_of_edgeLabel hedge.symm
    have hpackage := hall rule hrule dep hclosed ⟨cfg, known, hknown, host, hhost, hedge ▸ hlabel⟩
    exact (visible_closed hplain hok hrules hrule hclosed hknown).mpr hpackage name hedge.symm
  · exact absurd hthird hplaces.tpLabel_ne_closedLabel
  · exact absurd hother closedLabel_ne_own

theorem open_of_accepts (hplain : B.Plain configs)
    (hok : B.render fuel configs = .ok (state, outs)) (hrules : (state.rules.map Rule.name).Nodup)
    (haccepts : B.Accepts hosts state) (hrule : rule ∈ state.rules) (hclosed : dep ∈ B.closed)
    (htakes : B.TakesPackage hosts state rule dep) : rule.package ∈ B.closed := by
  obtain ⟨cfg, known, hknown, host, hhost, hlabel⟩ := htakes
  exact (visible_closed hplain hok hrules hrule hclosed hknown).mp
    (haccepts rule hrule host hhost _ hlabel)

/-- An app over a core, and a lab over the app that is not published. -/
def Sample.mirrored : Bar where
  pkgs pkg :=
    if pkg = "lab".toList then ⟨[⟨"app".toList, none⟩], true, false⟩
    else if pkg = "app".toList then ⟨[⟨"core".toList, none⟩], true, false⟩
    else ⟨[], true, false⟩
  resolved _ :=
    [("app".toList, ⟨∅, [("linux".toList, {"core".toList})], []⟩),
      ("core".toList, ⟨∅, [("linux".toList, ∅)], []⟩),
      ("lab".toList, ⟨∅, [("linux".toList, {"app".toList})], []⟩)]
  thirdParty := []
  tpDir := "third-party".toList
  closed := {"lab".toList}
  closedPkg := "native-closed".toList
  digest key :=
    if key.package = "lab".toList then "e0000000".toList
    else if key.package = "app".toList then "a0000000".toList
    else "c0000000".toList
  targets pkg := [⟨pkg, {.lib}, true, ∅⟩]
  members := {"app".toList, "core".toList, "lab".toList}
  hasLib pkg := by
    split
    · rfl
    · split <;> rfl
  hasBuildScript pkg := by
    split
    · rfl
    · split <;> rfl

def Sample.published : Text := "crates/core crates/app # not the lab".toList

def Sample.crateDirs : List (Text × Text) :=
  [("app".toList, "crates/app".toList), ("core".toList, "crates/core".toList),
    ("lab".toList, "crates/lab".toList)]

theorem Sample.mirrored_closed :
    Sample.mirrored.closed = closedCrates Sample.published Sample.crateDirs := by
  decide +kernel

theorem Sample.mirrored_hosts (cfg : Text) : ∀ entry ∈ Sample.mirrored.resolved cfg,
    entry.2.firstParty.map Prod.fst = ["linux".toList] := by
  have hresolved : Sample.mirrored.resolved cfg = Sample.mirrored.resolved [] := rfl
  rw [hresolved]
  decide +kernel

theorem Sample.mirrored_dicts : Sample.mirrored.Dicts := by
  constructor
  · intro cfg
    have hresolved : Sample.mirrored.resolved cfg = Sample.mirrored.resolved [] := rfl
    rw [hresolved]
    decide +kernel
  · intro cfg
    have hresolved : Sample.mirrored.resolved cfg = Sample.mirrored.resolved [] := rfl
    rw [hresolved]
    decide +kernel

theorem Sample.mirrored_places : Sample.mirrored.Places := by
  constructor <;> decide +kernel

theorem Sample.mirrored_plain : Sample.mirrored.Plain Sample.configurations := by
  constructor
  · intro key
    unfold Sample.mirrored
    dsimp only
    split
    · decide
    · split <;> decide
  · decide +kernel
  · unfold scriptSuffix
    decide +kernel

theorem Sample.mirrored_run : ∃ state outs,
    Sample.mirrored.render 4 Sample.configurations = .ok (state, outs) ∧
      (state.names.map Prod.snd).Nodup ∧ (state.rules.map Rule.name).Nodup ∧
      ∀ rule ∈ state.rules, rule.package ∉ Sample.mirrored.closed →
        ∀ label ∈ (selectDeps rule.deps).on "linux".toList,
          ¬ "//native-closed:".toList <+: label := by
  have hrun : ((Sample.mirrored.render 4 Sample.configurations).toOption.map fun r =>
      decide ((r.1.names.map Prod.snd).Nodup ∧ (r.1.rules.map Rule.name).Nodup ∧
        ∀ rule ∈ r.1.rules, rule.package ∉ Sample.mirrored.closed →
          ∀ label ∈ (selectDeps rule.deps).on "linux".toList,
            ¬ "//native-closed:".toList <+: label)) = some true := by
    decide +kernel
  cases hresult : Sample.mirrored.render 4 Sample.configurations with
  | error refusal =>
      rw [hresult] at hrun
      cases hrun
  | ok r =>
      rw [hresult] at hrun
      exact ⟨r.1, r.2, rfl, of_decide_eq_true (Option.some.inj hrun)⟩

theorem Sample.mirrored_takes {state : Rendering} (hall : ∀ rule ∈ state.rules,
    rule.package ∉ Sample.mirrored.closed → ∀ label ∈ (selectDeps rule.deps).on "linux".toList,
      ¬ "//native-closed:".toList <+: label) :
    ∀ rule ∈ state.rules, ∀ dep ∈ Sample.mirrored.closed,
      Sample.mirrored.TakesPackage ["linux".toList] state rule dep →
        rule.package ∈ Sample.mirrored.closed := by
  rintro rule hrule dep hdep ⟨cfg, known, -, host, hhost, hlabel⟩
  by_contra hopen
  rw [List.mem_singleton.mp hhost, edgeLabel_closed hdep] at hlabel
  exact hall rule hrule hopen _ hlabel ⟨known.name, rfl⟩

end Analysis

section Closure

/-- A package's library is compiled against another's, or its build script is. -/
def Workspace.Builds (W : Workspace) (cfg pkg dep : Text) : Prop :=
  ∃ merged, (pkg, merged) ∈ W.resolved cfg ∧ ∃ host,
    dep ∈ (W.parts pkg merged Native.normal).firstOn host ∨
      (W.pkgs pkg).hasBuildScript = true ∧ dep ∈ (W.parts pkg merged Native.build).firstOn host

theorem Workspace.Linked.labelled {crate : Crate} {links : PerHost Links}
    (hdicts : W.Dicts) (hmerged : (pkg, merged) ∈ W.resolved cfg)
    (hcrate : W.crate cfg pkg = .ok crate) (h : W.Linked cfg state crate links) :
    ∀ host ∈ merged.firstParty.map Prod.fst,
      (∀ dep ∈ (W.parts pkg merged Native.normal).firstOn host, ∃ label,
        W.Labelled cfg state dep label) ∧
      ∀ dep ∈ (W.parts pkg merged Native.build).firstOn host, ∃ label,
        W.Labelled cfg state dep label := by
  intro host hhost
  obtain ⟨-, hneeds⟩ := needs_of_linked hdicts hmerged hcrate h
  obtain ⟨link, hlink, -⟩ := hneeds host hhost
  obtain ⟨-, rfl⟩ := crateOf_of_ok hdicts hmerged hcrate
  obtain ⟨hnormal, -, hbuild, -⟩ := h.spec.2 _ hlink
  have hlabelled : ∀ {deps labels : List Text},
      List.Forall₂ (W.Labelled cfg state) deps labels → ∀ dep ∈ deps, ∃ label,
        W.Labelled cfg state dep label := by
    intro deps labels hall dep hdep
    obtain ⟨i, hi, rfl⟩ := List.getElem_of_mem hdep
    exact ⟨_, (List.forall₂_iff_get.mp hall).2 i hi (hall.length_eq ▸ hi)⟩
  exact ⟨hlabelled hnormal, hlabelled hbuild⟩

theorem Workspace.Builds.taken (hdicts : W.Dicts) (hsound : W.Sound s) (hkeys : s.keys = state.keys)
    (hnames : (s.names.map Prod.snd).Nodup)
    (hhosts : ∀ cfg, ∀ entry ∈ W.resolved cfg, entry.2.firstParty.map Prod.fst = hosts)
    (hlookup : state.keys.lookup (cfg, pkg) = some known) (hlib : (W.pkgs pkg).hasLib = true)
    (h : W.Builds cfg pkg dep) :
    ∃ rule ∈ s.rules, rule.package = pkg ∧ W.TakesPackage hosts state rule dep := by
  rw [← hkeys] at hlookup
  obtain ⟨crate, links, hknown⟩ := hsound.known hlookup
  obtain ⟨merged, hmerged, host, hdep⟩ := h
  have hfirst := (hdicts.hosts cfg _ hmerged).1
  have hlabels := hknown.linked.labelled hdicts hmerged hknown.resolves
  have htaken : ∀ {rule : Rule} {want : Finset Kind → Bool},
      rule.Renders pkg merged (W.Needs cfg s pkg merged want) →
      dep ∈ (W.parts pkg merged want).firstOn host →
      (host ∈ merged.firstParty.map Prod.fst → ∃ label, W.Labelled cfg s dep label) →
        rule.package = pkg ∧ W.TakesPackage hosts state rule dep := by
    intro rule want hrenders hmem hlabelled
    obtain ⟨deps, hon, hin, hwant⟩ := (mem_firstOn hfirst).mp hmem
    have hhost : host ∈ merged.firstParty.map Prod.fst := List.mem_map_of_mem hon
    obtain ⟨label, known', hknown', rfl⟩ := hlabelled hhost
    refine ⟨hrenders.package, cfg, known', hkeys ▸ hknown', host, ?_, ?_⟩
    · rw [← hhosts cfg _ hmerged]
      exact hhost
    · exact ((hrenders.deps host hhost).2 _).mpr
        (.inl ⟨deps, dep, hon, hin, hwant, known', hknown', rfl⟩)
  rcases hdep with hnormal | ⟨hscript, hbuild⟩
  · obtain ⟨rule, hrule, hkind, hname⟩ := hknown.library_mem hsound hlib
    have hrenders := (hknown.renders hdicts hsound hnames hmerged hrule).1 hkind hname
    exact ⟨rule, hrule, htaken hrenders hnormal fun hhost => (hlabels host hhost).1 dep hnormal⟩
  · obtain ⟨rule, hrule, hkind, hname⟩ := hknown.script_mem hsound hscript
    have hrenders := (hknown.renders hdicts hsound hnames hmerged hrule).2 hkind hname
    exact ⟨rule, hrule, htaken hrenders hbuild fun hhost => (hlabels host hhost).2 dep hbuild⟩

theorem open_of_builds (hdicts : B.Dicts) (hplain : B.Plain configs)
    (hhosts : ∀ cfg, ∀ entry ∈ B.resolved cfg, entry.2.firstParty.map Prod.fst = hosts)
    (hok : B.render fuel configs = .ok (state, outs)) (hnames : (state.names.map Prod.snd).Nodup)
    (hrules : (state.rules.map Rule.name).Nodup) (haccepts : B.Accepts hosts state)
    (hcfg : cfg ∈ configs.map Configuration.name) (hlib : (B.pkgs pkg).hasLib = true)
    (hopen : pkg ∉ B.closed) (hbuilds : B.Builds cfg pkg dep) : dep ∉ B.closed := by
  intro hclosed
  obtain ⟨labels, hlibraries⟩ := (render_reached hplain hok).libraries
  obtain ⟨hsound, hall⟩ := variants_spec hlibraries
  obtain ⟨merged, hmerged, -⟩ := id hbuilds
  obtain ⟨known, -, hknown, -⟩ := hall cfg hcfg pkg (List.mem_map_of_mem hmerged)
  obtain ⟨rule, hrule, hpackage, htakes⟩ :=
    hbuilds.taken hdicts hsound rfl hnames hhosts hknown hlib
  have hmem := open_of_accepts hplain hok hrules haccepts (List.mem_filter.mp hrule).1 hclosed htakes
  exact hopen (hpackage ▸ hmem)

/-- Where the build accepts the rendering, the library of a published crate is
built from published crates only, all the way down. -/
theorem mirror_builds (hdicts : B.Dicts) (hplain : B.Plain configs)
    (hhosts : ∀ cfg, ∀ entry ∈ B.resolved cfg, entry.2.firstParty.map Prod.fst = hosts)
    (hlibs : ∀ pkg dep, B.Builds cfg pkg dep → (B.pkgs dep).hasLib = true)
    {listing : Text} {dirs : List (Text × Text)} (hdirs : (dirs.map Prod.fst).Nodup)
    (hclosed : B.closed = closedCrates listing dirs)
    (hok : B.render fuel configs = .ok (state, outs)) (hnames : (state.names.map Prod.snd).Nodup)
    (hrules : (state.rules.map Rule.name).Nodup) (haccepts : B.Accepts hosts state)
    (hcfg : cfg ∈ configs.map Configuration.name) (hlib : (B.pkgs pkg).hasLib = true)
    {rel rel' : Text} (hdir : (pkg, rel) ∈ dirs)
    (hopen : isOpen (manifestOf rel) (openPaths listing) = true)
    (hreach : Relation.ReflTransGen (B.Builds cfg) pkg dep) (hdir' : (dep, rel') ∈ dirs) :
    isOpen (manifestOf rel') (openPaths listing) = true := by
  have hall : dep ∉ B.closed ∧ (B.pkgs dep).hasLib = true := by
    clear hdir'
    induction hreach with
    | refl =>
        refine ⟨fun hmem => ?_, hlib⟩
        rw [hclosed, mem_closedCrates hdirs hdir] at hmem
        exact hmem hopen
    | tail _ hbuilds ih =>
        obtain ⟨hfar, hfarLib⟩ := ih
        exact ⟨open_of_builds hdicts hplain hhosts hok hnames hrules haccepts hcfg hfarLib hfar
          hbuilds, hlibs _ _ hbuilds⟩
  have hopen' := hall.1
  rw [hclosed, mem_closedCrates hdirs hdir', not_not] at hopen'
  exact hopen'

theorem mirror_builds_of_app :
    isOpen (manifestOf "crates/core".toList) (openPaths Sample.published) = true := by
  obtain ⟨state, outs, hok, hnames, hrules, hall⟩ := Sample.mirrored_run
  have haccepts := accepts_of_open Sample.mirrored_dicts Sample.mirrored_places
    Sample.mirrored_plain Sample.mirrored_hosts hok hnames hrules (Sample.mirrored_takes hall)
  have hlib : ∀ pkg, (Sample.mirrored.pkgs pkg).hasLib = true := by
    intro pkg
    unfold Sample.mirrored
    dsimp only
    split
    · rfl
    · split <;> rfl
  have hbuilds : Sample.mirrored.Builds "build".toList "app".toList "core".toList :=
    ⟨_, List.mem_cons_self .., "linux".toList, .inl (by decide +kernel)⟩
  exact mirror_builds Sample.mirrored_dicts Sample.mirrored_plain Sample.mirrored_hosts
    (fun _ dep _ => hlib dep) (by decide) Sample.mirrored_closed hok hnames hrules haccepts
    (List.mem_cons_self ..) (hlib _) (List.mem_cons_self ..) (by decide +kernel) (.single hbuilds)
    (List.mem_cons_of_mem _ (List.mem_cons_self ..))

end Closure

end AccountDirectory.Native
