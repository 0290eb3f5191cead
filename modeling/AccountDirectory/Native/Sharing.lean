import AccountDirectory.Native.Variant
import Mathlib.Logic.Relator

/-! What a rendering of variants keeps: a package once remembered keeps its
name, a key once named keeps its name, and every name stands for one target,
compiled from what its key says. -/
namespace AccountDirectory.Native
open Library

variable {W : Workspace} {cfg pkg name label : Text} {crate : Crate} {known : Variant}
  {state s s' : Rendering} {links : PerHost Links} {features : Finset Text} {fuel : Nat}

/-- The label under which the package is taken in the configuration. -/
def Workspace.Labelled (W : Workspace) (cfg : Text) (state : Rendering) (pkg label : Text) : Prop :=
  ∃ known, state.keys.lookup (cfg, pkg) = some known ∧ label = W.edgeLabel pkg known.name

/-- The labels of a kind's first-party packages, host by host. -/
def Workspace.Visited (W : Workspace) (cfg : Text) (state : Rendering) (parts : Parts)
    (hosts : List Text) (labels : List (List Text)) : Prop :=
  List.Forall₂ (fun host labels => List.Forall₂ (W.Labelled cfg state) (parts.firstOn host) labels)
    hosts labels

/-- What a package is linked with, as far as it is remembered. -/
def Workspace.Linked (W : Workspace) (cfg : Text) (state : Rendering) (crate : Crate)
    (links : PerHost Links) : Prop :=
  ∃ normal build, W.Visited cfg state crate.normal crate.hosts normal ∧
    W.Visited cfg state crate.build crate.hosts build ∧ links = crate.links normal build

theorem Workspace.Labelled.unique {other : Text} (h : W.Labelled cfg state pkg label)
    (h' : W.Labelled cfg state pkg other) : label = other := by
  obtain ⟨known, hknown, rfl⟩ := h
  obtain ⟨again, hagain, rfl⟩ := h'
  rw [hknown] at hagain
  cases hagain
  rfl

theorem Workspace.Visited.unique {parts : Parts} {hosts : List Text} {labels others : List (List Text)}
    (h : W.Visited cfg state parts hosts labels) (h' : W.Visited cfg state parts hosts others) :
    labels = others := by
  have hlabel : Relator.RightUnique (W.Labelled cfg state) := fun _ _ _ => Labelled.unique
  have hhost : Relator.RightUnique fun host labels =>
      List.Forall₂ (W.Labelled cfg state) (parts.firstOn host) labels :=
    fun _ _ _ hone hother => List.right_unique_forall₂' hlabel hone hother
  exact List.right_unique_forall₂' hhost h h'

theorem Workspace.Linked.unique {others : PerHost Links} (h : W.Linked cfg state crate links)
    (h' : W.Linked cfg state crate others) : links = others := by
  obtain ⟨normal, build, hnormal, hbuild, rfl⟩ := h
  obtain ⟨normal', build', hnormal', hbuild', rfl⟩ := h'
  rw [hnormal.unique hnormal', hbuild.unique hbuild']

section Frames

variable {rule : Rule} {deps buildDeps : Deps}

@[simp] theorem take_keys : (W.take pkg name state).keys = state.keys := by
  unfold Workspace.take
  split <;> rfl

@[simp] theorem take_names : (W.take pkg name state).names = state.names := by
  unfold Workspace.take
  split <;> rfl

@[simp] theorem take_rules : (W.take pkg name state).rules = state.rules := by
  unfold Workspace.take
  split <;> rfl

@[simp] theorem take_emitted : (W.take pkg name state).emitted = state.emitted := by
  unfold Workspace.take
  split <;> rfl

@[simp] theorem take_labelPkg : (W.take pkg name state).labelPkg = state.labelPkg := by
  unfold Workspace.take
  split <;> rfl

@[simp] theorem emitLib_keys :
    (W.emitLib name pkg features deps buildDeps state).keys = state.keys := by
  unfold Workspace.emitLib Workspace.buildscript Workspace.rule
  dsimp only
  split <;> split <;> rfl

@[simp] theorem emitLib_names :
    (W.emitLib name pkg features deps buildDeps state).names = state.names := by
  unfold Workspace.emitLib Workspace.buildscript Workspace.rule
  dsimp only
  split <;> split <;> rfl

@[simp] theorem emitLib_labelPkg :
    (W.emitLib name pkg features deps buildDeps state).labelPkg = state.labelPkg := by
  unfold Workspace.emitLib Workspace.buildscript Workspace.rule
  dsimp only
  split <;> split <;> rfl

@[simp] theorem intern_keys :
    (W.intern cfg pkg features links state).1.keys = state.keys := by
  unfold Workspace.intern
  dsimp only
  split
  · rfl
  · exact emitLib_keys

theorem remember_keys : (W.remember cfg pkg crate links state).1.keys =
    state.keys.insert (cfg, pkg) ⟨(W.remember cfg pkg crate links state).2, crate.features, none,
      depsOf links Links.deps⟩ := by
  unfold Workspace.remember
  dsimp only
  rw [take_keys, intern_keys]

theorem finish_keys {dev : List (List Text)} : (W.finish cfg pkg crate links name dev state).keys =
    state.keys.insert (cfg, pkg) ⟨name, crate.features, some (crate.devDeps dev),
      depsOf links Links.deps⟩ :=
  take_keys

end Frames

/-- A package keeps its name, and a key keeps its. -/
structure Rendering.Grows (state state' : Rendering) : Prop where
  keys : ∀ {unit known}, state.keys.lookup unit = some known →
    ∃ later, state'.keys.lookup unit = some later ∧ later.name = known.name
  names : ∀ {key name}, state.names.lookup key = some name → state'.names.lookup key = some name

theorem Rendering.Grows.refl (state : Rendering) : state.Grows state where
  keys h := ⟨_, h, rfl⟩
  names h := h

theorem Rendering.Grows.trans {a b c : Rendering} (hab : a.Grows b) (hbc : b.Grows c) :
    a.Grows c where
  keys h := by
    obtain ⟨later, hlater, hname⟩ := hab.keys h
    obtain ⟨last, hlast, hname'⟩ := hbc.keys hlater
    exact ⟨last, hlast, hname'.trans hname⟩
  names h := hbc.names (hab.names h)

theorem Workspace.Labelled.grows (h : W.Labelled cfg state pkg label) (hle : state.Grows s') :
    W.Labelled cfg s' pkg label := by
  obtain ⟨known, hknown, rfl⟩ := h
  obtain ⟨later, hlater, hname⟩ := hle.keys hknown
  exact ⟨later, hlater, by rw [hname]⟩

theorem Workspace.Visited.grows {parts : Parts} {hosts : List Text} {labels : List (List Text)}
    (h : W.Visited cfg state parts hosts labels) (hle : state.Grows s') :
    W.Visited cfg s' parts hosts labels :=
  h.imp fun _ _ hhost => hhost.imp fun _ _ hlabel => hlabel.grows hle

theorem Workspace.Linked.grows (h : W.Linked cfg state crate links) (hle : state.Grows s') :
    W.Linked cfg s' crate links := by
  obtain ⟨normal, build, hnormal, hbuild, rfl⟩ := h
  exact ⟨normal, build, hnormal.grows hle, hbuild.grows hle, rfl⟩

/-- A package is remembered as what it is compiled from. -/
structure Workspace.Known (W : Workspace) (state : Rendering) (cfg pkg : Text) (crate : Crate)
    (links : PerHost Links) (known : Variant) : Prop where
  resolves : W.crate cfg pkg = .ok crate
  linked : W.Linked cfg state crate links
  named : state.names.lookup (keyOf pkg crate.features links) = some known.name
  features : known.features = crate.features
  deps : known.deps = depsOf links Links.deps
  dev : ∀ dev, known.dev = some dev →
    ∃ labels, W.Visited cfg state crate.dev crate.hosts labels ∧ dev = crate.devDeps labels

theorem Workspace.Known.grows (h : W.Known state cfg pkg crate links known)
    (hle : state.Grows s') : W.Known s' cfg pkg crate links known where
  resolves := h.resolves
  linked := h.linked.grows hle
  named := hle.names h.named
  features := h.features
  deps := h.deps
  dev dev hdev := by
    obtain ⟨labels, hlabels, hdeps⟩ := h.dev dev hdev
    exact ⟨labels, hlabels.grows hle, hdeps⟩

def Key.package : Key → Text
  | .everywhere package _ _ => package
  | .byHost package _ _ => package

def libraryOf (name pkg : Text) (features : Finset Text) (links : PerHost Links) : Rule :=
  ⟨.library, name, pkg, sorted features, depsOf links Links.deps⟩

def scriptOf (name pkg : Text) (features : Finset Text) (links : PerHost Links) : Rule :=
  ⟨.buildScript, scriptName name, pkg, sorted features, depsOf links Links.buildDeps⟩

/-- A target that some named key stands for. -/
def Workspace.Made (state : Rendering) (rule : Rule) : Prop :=
  ∃ name pkg features links, (keyOf pkg features links, name) ∈ state.names ∧
    (rule = libraryOf name pkg features links ∨ rule = scriptOf name pkg features links)

def Rendering.libraries (state : Rendering) : List Rule :=
  state.rules.filter fun rule => rule.kind = .library

/-- The state between two visits. -/
structure Workspace.Sound (W : Workspace) (state : Rendering) : Prop where
  known : ∀ {cfg pkg known}, state.keys.lookup (cfg, pkg) = some known →
    ∃ crate links, W.Known state cfg pkg crate links known
  dict : (state.names.map Prod.fst).Nodup
  origin : ∀ entry ∈ state.names, ∃ cfg pkg crate links, W.crate cfg pkg = .ok crate ∧
    W.Linked cfg state crate links ∧ entry.1 = keyOf pkg crate.features links ∧
      entry.2 = W.nameOf cfg pkg entry.1
  made : ∀ rule ∈ state.rules, Workspace.Made state rule
  libraries : state.libraries.map Rule.name =
    (state.names.filter fun entry => (W.pkgs entry.1.package).hasLib).map Prod.snd
  scripts : ∀ entry ∈ state.names, (W.pkgs entry.1.package).hasBuildScript = true →
    entry.2 ++ scriptSuffix ∈ state.emitted
  emitted : ∀ bs ∈ state.emitted, ∃ rule ∈ state.rules, rule.kind = .buildScript ∧
    rule.name = bs ++ ['-', 'b', 'u', 'i', 'l', 'd']

theorem sound_empty : W.Sound {} where
  known h := by
    rw [Finmap.lookup_empty] at h
    cases h
  dict := List.nodup_nil
  origin := List.forall_mem_nil _
  made := List.forall_mem_nil _
  libraries := rfl
  scripts := List.forall_mem_nil _
  emitted _ h := absurd h (Finset.notMem_empty _)

@[simp] theorem keyOf_package : (keyOf pkg features links).package = pkg := by
  unfold keyOf
  split
  · rfl
  · split <;> rfl

theorem Workspace.Made.mono {rule : Rule} (h : Workspace.Made state rule)
    (hsub : ∀ entry ∈ state.names, entry ∈ s'.names) : Workspace.Made s' rule := by
  obtain ⟨name, pkg, features, links, hmem, hrule⟩ := h
  exact ⟨name, pkg, features, links, hsub _ hmem, hrule⟩

/-- Remembering a package as what it is compiled from. -/
theorem Workspace.Sound.keep (h : W.Sound state) (hknown : W.Known state cfg pkg crate links known)
    (hkeys : s'.keys = state.keys.insert (cfg, pkg) known) (hnames : s'.names = state.names)
    (hrules : s'.rules = state.rules) (hemitted : s'.emitted = state.emitted) :
    W.Sound s' ∧ state.Grows s' := by
  have hgrows : state.Grows s' := by
    constructor
    · rintro ⟨cfg', pkg'⟩ before hbefore
      by_cases hsame : (cfg', pkg') = (cfg, pkg)
      · obtain ⟨rfl, rfl⟩ := Prod.mk.inj hsame
        obtain ⟨crate', links', hold⟩ := h.known hbefore
        obtain rfl : crate' = crate := Except.ok.inj (hold.resolves.symm.trans hknown.resolves)
        obtain rfl := hold.linked.unique hknown.linked
        refine ⟨known, by rw [hkeys, Finmap.lookup_insert], ?_⟩
        exact Option.some.inj (hknown.named.symm.trans hold.named)
      · exact ⟨before, by rw [hkeys, Finmap.lookup_insert_of_ne _ hsame, hbefore], rfl⟩
    · intro key name hname
      rw [hnames, hname]
  refine ⟨?_, hgrows⟩
  constructor
  · intro cfg' pkg' later hlater
    by_cases hsame : (cfg', pkg') = (cfg, pkg)
    · obtain ⟨rfl, rfl⟩ := Prod.mk.inj hsame
      rw [hkeys, Finmap.lookup_insert] at hlater
      cases hlater
      exact ⟨crate, links, hknown.grows hgrows⟩
    · rw [hkeys, Finmap.lookup_insert_of_ne _ hsame] at hlater
      obtain ⟨crate', links', hold⟩ := h.known hlater
      exact ⟨crate', links', hold.grows hgrows⟩
  · rw [hnames]
    exact h.dict
  · intro entry hentry
    rw [hnames] at hentry
    obtain ⟨cfg', pkg', crate', links', hcrate, hlinked, hrest⟩ := h.origin entry hentry
    exact ⟨cfg', pkg', crate', links', hcrate, hlinked.grows hgrows, hrest⟩
  · intro rule hrule
    rw [hrules] at hrule
    exact (h.made rule hrule).mono fun entry hentry => hnames ▸ hentry
  · rw [Rendering.libraries, hrules, hnames]
    exact h.libraries
  · rw [hnames, hemitted]
    exact h.scripts
  · rw [hemitted, hrules]
    exact h.emitted

section Interning

/-- What a library's target adds: its build script unless that is there, and itself. -/
theorem emitLib_spec (W : Workspace) (name pkg : Text) (features : Finset Text)
    (deps buildDeps : Deps) (state : Rendering) :
    ∃ script : List Rule,
      (W.emitLib name pkg features deps buildDeps state).rules = state.rules ++ script ++
        (if (W.pkgs pkg).hasLib = true then
          [⟨.library, name, pkg, sorted features, deps⟩] else []) ∧
      (script = [] ∧ (W.emitLib name pkg features deps buildDeps state).emitted = state.emitted ∧
          ((W.pkgs pkg).hasBuildScript = true → name ++ scriptSuffix ∈ state.emitted) ∨
        script = [⟨.buildScript, scriptName name, pkg, sorted features, buildDeps⟩] ∧
          (W.emitLib name pkg features deps buildDeps state).emitted =
            insert (name ++ scriptSuffix) state.emitted) := by
  unfold Workspace.emitLib Workspace.buildscript Workspace.rule
  dsimp only
  by_cases hscript : (W.pkgs pkg).hasBuildScript = true ∧ name ++ scriptSuffix ∉ state.emitted
  · rw [if_pos hscript]
    refine ⟨_, ?_, .inr ⟨rfl, ?_⟩⟩
    · split
      · rfl
      · exact (List.append_nil _).symm
    · split <;> rfl
  · rw [if_neg hscript]
    have hthere : (W.pkgs pkg).hasBuildScript = true → name ++ scriptSuffix ∈ state.emitted := by
      intro hhas
      by_contra habsent
      exact hscript ⟨hhas, habsent⟩
    refine ⟨[], ?_, .inl ⟨rfl, ?_, hthere⟩⟩
    · rw [List.append_nil]
      split
      · rfl
      · exact (List.append_nil _).symm
    · split <;> rfl

theorem mem_of_lookup {key : Key} (h : state.names.lookup key = some name) :
    (key, name) ∈ state.names := by
  obtain ⟨before, after, hsplit, -⟩ := List.lookup_eq_some_iff.mp h
  rw [hsplit]
  simp

theorem intern_names (W : Workspace) (cfg pkg : Text) (features : Finset Text)
    (links : PerHost Links) (state : Rendering) :
    state.names ⊆ (W.intern cfg pkg features links state).1.names ∧
    (keyOf pkg features links, (W.intern cfg pkg features links state).2) ∈
      (W.intern cfg pkg features links state).1.names ∧
    ∀ entry ∈ (W.intern cfg pkg features links state).1.names,
      entry ∈ state.names ∨ entry.2 = (W.intern cfg pkg features links state).2 := by
  unfold Workspace.intern
  dsimp only
  cases hname : state.names.lookup (keyOf pkg features links) with
  | some name => exact ⟨List.Subset.refl _, mem_of_lookup hname, fun _ h => .inl h⟩
  | none =>
      dsimp only
      rw [emitLib_names]
      refine ⟨List.subset_append_left _ _, List.mem_append_right _ (List.mem_singleton_self _), ?_⟩
      intro entry hentry
      exact (List.mem_append.mp hentry).imp id fun hnew => congrArg Prod.snd (List.mem_singleton.mp hnew)

theorem Workspace.Sound.named (h : W.Sound state) (hknown : state.keys.lookup (cfg, pkg) = some known) :
    ∃ cfg key, known.name = W.nameOf cfg pkg key := by
  obtain ⟨crate, links, hwhole⟩ := h.known hknown
  obtain ⟨cfg', pkg', _, _, -, -, hkey, hname⟩ := h.origin _ (mem_of_lookup hwhole.named)
  have hpackage := congrArg Key.package hkey
  rw [keyOf_package, keyOf_package] at hpackage
  obtain rfl := hpackage
  exact ⟨cfg', _, hname⟩

theorem Workspace.Sound.emit (h : W.Sound state) (hcrate : W.crate cfg pkg = .ok crate)
    (hlinked : W.Linked cfg state crate links)
    (hnew : state.names.lookup (keyOf pkg crate.features links) = none) :
    let key := keyOf pkg crate.features links
    let next := W.emitLib (W.nameOf cfg pkg key) pkg crate.features (depsOf links Links.deps)
      (depsOf links Links.buildDeps)
      { state with names := state.names ++ [(key, W.nameOf cfg pkg key)] }
    W.Sound next ∧ state.Grows next := by
  intro key next
  obtain ⟨script, hrules, hscript⟩ := emitLib_spec W (W.nameOf cfg pkg key) pkg crate.features
    (depsOf links Links.deps) (depsOf links Links.buildDeps)
    { state with names := state.names ++ [(key, W.nameOf cfg pkg key)] }
  have hkeys : next.keys = state.keys := emitLib_keys
  have hnames : next.names = state.names ++ [(key, W.nameOf cfg pkg key)] := emitLib_names
  have hgrows : state.Grows next := by
    constructor
    · intro unit known hknown
      exact ⟨known, hkeys ▸ hknown, rfl⟩
    · intro key name hname
      rw [hnames, List.lookup_append, hname]
      rfl
  have hentries : ∀ entry ∈ state.names, entry ∈ next.names := by
    intro entry hentry
    rw [hnames]
    exact List.mem_append_left _ hentry
  have hentry : (key, W.nameOf cfg pkg key) ∈ next.names := by
    rw [hnames]
    exact List.mem_append_right _ (List.mem_singleton_self _)
  have hmade : ∀ rule, rule = libraryOf (W.nameOf cfg pkg key) pkg crate.features links ∨
      rule = scriptOf (W.nameOf cfg pkg key) pkg crate.features links →
        Workspace.Made next rule :=
    fun rule hrule => ⟨_, pkg, crate.features, links, hentry, hrule⟩
  refine ⟨?_, hgrows⟩
  constructor
  · intro cfg' pkg' known hknown
    rw [hkeys] at hknown
    obtain ⟨crate', links', hold⟩ := h.known hknown
    exact ⟨crate', links', hold.grows hgrows⟩
  · rw [hnames, List.map_append, List.nodup_append]
    refine ⟨h.dict, List.nodup_singleton _, ?_⟩
    rintro old hold new hmem rfl
    obtain rfl : old = key := List.mem_singleton.mp hmem
    obtain ⟨entry, hmem, hsame⟩ := List.mem_map.mp hold
    exact bne_iff_ne.mp (List.lookup_eq_none_iff.mp hnew entry hmem) hsame.symm
  · intro entry hmem
    rw [hnames, List.mem_append, List.mem_singleton] at hmem
    rcases hmem with hold | rfl
    · obtain ⟨cfg', pkg', crate', links', hcrate', hlinked', hrest⟩ := h.origin entry hold
      exact ⟨cfg', pkg', crate', links', hcrate', hlinked'.grows hgrows, hrest⟩
    · exact ⟨cfg, pkg, crate, links, hcrate, hlinked.grows hgrows, rfl, rfl⟩
  · intro rule hrule
    rw [hrules, List.mem_append, List.mem_append] at hrule
    rcases hrule with (hold | hrule) | hrule
    · exact (h.made rule hold).mono hentries
    · rcases hscript with ⟨rfl, -, -⟩ | ⟨rfl, -⟩
      · cases hrule
      · exact hmade rule (.inr (List.mem_singleton.mp hrule))
    · split at hrule
      · exact hmade rule (.inl (List.mem_singleton.mp hrule))
      · cases hrule
  · have hscripts : script.filter (fun rule => rule.kind = .library) = [] := by
      rcases hscript with ⟨rfl, -⟩ | ⟨rfl, -⟩ <;> rfl
    have hlibraries : next.libraries = state.libraries ++
        if (W.pkgs pkg).hasLib = true then
          [libraryOf (W.nameOf cfg pkg key) pkg crate.features links] else [] := by
      unfold Rendering.libraries
      rw [hrules, List.filter_append, List.filter_append, hscripts, List.append_nil]
      split <;> rfl
    rw [hlibraries, hnames, List.map_append, List.filter_append, List.map_append, h.libraries]
    congr 1
    rw [List.filter_singleton, keyOf_package]
    cases (W.pkgs pkg).hasLib <;> rfl
  · intro entry hmem hhas
    rw [hnames, List.mem_append, List.mem_singleton] at hmem
    rcases hmem with hold | rfl
    · have hthere := h.scripts entry hold hhas
      rcases hscript with ⟨-, hsame, -⟩ | ⟨-, hmore⟩
      · exact hsame ▸ hthere
      · exact hmore ▸ Finset.mem_insert_of_mem hthere
    · rw [keyOf_package] at hhas
      rcases hscript with ⟨-, hsame, hthere⟩ | ⟨-, hmore⟩
      · exact hsame ▸ hthere hhas
      · exact hmore ▸ Finset.mem_insert_self _ _
  · intro bs hbs
    have hstays : (∃ rule ∈ state.rules, rule.kind = .buildScript ∧
        rule.name = bs ++ ['-', 'b', 'u', 'i', 'l', 'd']) →
        ∃ rule ∈ next.rules, rule.kind = .buildScript ∧
          rule.name = bs ++ ['-', 'b', 'u', 'i', 'l', 'd'] := by
      rintro ⟨rule, hrule, hkind⟩
      refine ⟨rule, ?_, hkind⟩
      rw [hrules, List.append_assoc]
      exact List.mem_append_left _ hrule
    rcases hscript with ⟨-, hsame, -⟩ | ⟨rfl, hmore⟩
    · exact hstays (h.emitted bs (hsame ▸ hbs))
    · rcases Finset.mem_insert.mp (hmore ▸ hbs) with rfl | hold
      · refine ⟨scriptOf (W.nameOf cfg pkg key) pkg crate.features links, ?_, rfl, rfl⟩
        rw [hrules]
        exact List.mem_append_left _ (List.mem_append_right _ (List.mem_singleton_self _))
      · exact hstays (h.emitted bs hold)

theorem Workspace.Sound.remember (h : W.Sound state) (hcrate : W.crate cfg pkg = .ok crate)
    (hlinked : W.Linked cfg state crate links) :
    W.Sound (W.remember cfg pkg crate links state).1 ∧
      state.Grows (W.remember cfg pkg crate links state).1 ∧
      W.Known (W.remember cfg pkg crate links state).1 cfg pkg crate links
        ⟨(W.remember cfg pkg crate links state).2, crate.features, none,
          depsOf links Links.deps⟩ := by
  have hinterned : W.Sound (W.intern cfg pkg crate.features links state).1 ∧
      state.Grows (W.intern cfg pkg crate.features links state).1 ∧
      (W.intern cfg pkg crate.features links state).1.names.lookup
          (keyOf pkg crate.features links) =
        some (W.intern cfg pkg crate.features links state).2 := by
    unfold Workspace.intern
    dsimp only
    cases hname : state.names.lookup (keyOf pkg crate.features links) with
    | some name => exact ⟨h, .refl state, hname⟩
    | none =>
        obtain ⟨hsound, hgrows⟩ := h.emit hcrate hlinked hname
        refine ⟨hsound, hgrows, ?_⟩
        rw [emitLib_names, List.lookup_append, hname]
        exact List.lookup_cons_self
  obtain ⟨hsound, hgrows, hname⟩ := hinterned
  have hknown : W.Known (W.intern cfg pkg crate.features links state).1 cfg pkg crate links
      ⟨(W.intern cfg pkg crate.features links state).2, crate.features, none,
        depsOf links Links.deps⟩ :=
    ⟨hcrate, hlinked.grows hgrows, hname, rfl, rfl, nofun⟩
  obtain ⟨hkept, hgrows'⟩ : W.Sound (W.remember cfg pkg crate links state).1 ∧
      (W.intern cfg pkg crate.features links state).1.Grows
        (W.remember cfg pkg crate links state).1 :=
    hsound.keep hknown take_keys take_names take_rules take_emitted
  exact ⟨hkept, hgrows.trans hgrows', hknown.grows hgrows'⟩

/-- And again with its dev-dependencies. -/
theorem Workspace.Sound.finish (h : W.Sound state) {dev : List (List Text)}
    (hknown : W.Known state cfg pkg crate links
      ⟨name, crate.features, none, depsOf links Links.deps⟩)
    (hdev : W.Visited cfg state crate.dev crate.hosts dev) :
    W.Sound (W.finish cfg pkg crate links name dev state) ∧
      state.Grows (W.finish cfg pkg crate links name dev state) := by
  have hlater : W.Known state cfg pkg crate links
      ⟨name, crate.features, some (crate.devDeps dev), depsOf links Links.deps⟩ :=
    ⟨hknown.resolves, hknown.linked, hknown.named, rfl, rfl, fun _ hsome =>
      ⟨dev, hdev, (Option.some.inj hsome).symm⟩⟩
  exact h.keep hlater take_keys take_names take_rules take_emitted

end Interning

section Visiting

theorem bind_eq_ok {ε α β : Type} {x : Except ε α} {f : α → Except ε β} {b : β} :
    x >>= f = .ok b ↔ ∃ a, x = .ok a ∧ f a = .ok b := by
  cases x with
  | error e => exact iff_of_false nofun nofun
  | ok a =>
      constructor
      · exact fun h => ⟨a, rfl, h⟩
      · rintro ⟨_, ⟨⟩, h⟩
        exact h

/-- What a visit of `variant` does: it recalls a package, or resolves it, visits
what it is compiled from, remembers it, visits its dev-dependencies and finishes it. -/
theorem variant_cases (h : W.variant cfg (fuel + 1) state pkg = .ok (s', label)) :
    (∃ known, state.keys.lookup (cfg, pkg) = some known ∧ s' = W.take pkg known.name state ∧
      label = W.edgeLabel pkg known.name) ∨
    (state.keys.lookup (cfg, pkg) = none ∧ ∃ crate s₁ normal s₂ build s₃ dev,
      W.crate cfg pkg = .ok crate ∧
      visitHosts (W.variant cfg fuel) crate.normal state crate.hosts = .ok (s₁, normal) ∧
      visitHosts (W.variant cfg fuel) crate.build s₁ crate.hosts = .ok (s₂, build) ∧
      visitHosts (W.variant cfg fuel) crate.dev
        (W.remember cfg pkg crate (crate.links normal build) s₂).1 crate.hosts = .ok (s₃, dev) ∧
      s' = W.finish cfg pkg crate (crate.links normal build)
        (W.remember cfg pkg crate (crate.links normal build) s₂).2 dev s₃ ∧
      label = W.edgeLabel pkg (W.remember cfg pkg crate (crate.links normal build) s₂).2) := by
  rw [Workspace.variant] at h
  cases hknown : state.keys.lookup (cfg, pkg) with
  | some known =>
      rw [hknown] at h
      cases h
      exact .inl ⟨known, rfl, rfl, rfl⟩
  | none =>
      rw [hknown] at h
      obtain ⟨crate, hcrate, h⟩ := bind_eq_ok.mp h
      obtain ⟨⟨s₁, normal⟩, hnormal, h⟩ := bind_eq_ok.mp h
      obtain ⟨⟨s₂, build⟩, hbuild, h⟩ := bind_eq_ok.mp h
      obtain ⟨⟨s₃, dev⟩, hdev, h⟩ := bind_eq_ok.mp h
      cases h
      exact .inr ⟨rfl, crate, s₁, normal, s₂, build, s₃, dev, hcrate, hnormal, hbuild, hdev,
        rfl, rfl⟩

theorem variant_of_visits {s₁ s₂ s₃ : Rendering} {normal build dev : List (List Text)}
    (hnew : state.keys.lookup (cfg, pkg) = none) (hcrate : W.crate cfg pkg = .ok crate)
    (hnormal : visitHosts (W.variant cfg fuel) crate.normal state crate.hosts = .ok (s₁, normal))
    (hbuild : visitHosts (W.variant cfg fuel) crate.build s₁ crate.hosts = .ok (s₂, build))
    (hdev : visitHosts (W.variant cfg fuel) crate.dev
      (W.remember cfg pkg crate (crate.links normal build) s₂).1 crate.hosts = .ok (s₃, dev)) :
    W.variant cfg (fuel + 1) state pkg =
      .ok (W.finish cfg pkg crate (crate.links normal build)
        (W.remember cfg pkg crate (crate.links normal build) s₂).2 dev s₃,
        W.edgeLabel pkg (W.remember cfg pkg crate (crate.links normal build) s₂).2) := by
  rw [Workspace.variant, hnew]
  exact bind_eq_ok.mpr ⟨crate, hcrate, bind_eq_ok.mpr ⟨_, hnormal, bind_eq_ok.mpr
    ⟨_, hbuild, bind_eq_ok.mpr ⟨_, hdev, rfl⟩⟩⟩⟩

/-- What the steps of a visit keep, whatever they are taken with, a visit keeps. -/
theorem variant_keeps {inv : Rendering → Prop}
    (htake : ∀ s pkg name, inv s → inv (W.take pkg name s))
    (hremember : ∀ s pkg crate links, inv s → inv (W.remember cfg pkg crate links s).1)
    (hfinish : ∀ s pkg crate links name dev, inv s →
      inv (W.finish cfg pkg crate links name dev s)) :
    ∀ fuel s s' pkg label, inv s → W.variant cfg fuel s pkg = .ok (s', label) → inv s' := by
  intro fuel
  induction fuel with
  | zero => exact fun _ _ _ _ _ hok => nomatch hok
  | succ fuel ih =>
      intro s s' pkg label hinv hok
      have hhosts : ∀ {parts : Parts} {s s' : Rendering} {hosts : List Text}
          {labels : List (List Text)}, inv s →
          visitHosts (W.variant cfg fuel) parts s hosts = .ok (s', labels) → inv s' :=
        fun hinv hok => traverse_keeps (fun _ _ _ _ _ hinv hok =>
          traverse_keeps (fun _ _ s s' label hinv hok => ih s s' _ label hinv hok) hinv hok) hinv hok
      rcases variant_cases hok with ⟨known, -, rfl, -⟩ |
        ⟨-, crate, s₁, normal, s₂, build, s₃, dev, -, hnormal, hbuild, hdev, rfl, -⟩
      · exact htake s pkg known.name hinv
      · exact hfinish _ _ _ _ _ _ (hhosts (hremember _ _ _ _
          (hhosts (hhosts hinv hnormal) hbuild)) hdev)

/-- A visit keeps the state sound, forgets nothing, and returns the package's label. -/
abbrev Workspace.VisitsPackages (W : Workspace) (cfg : Text)
    (visit : Rendering → Text → Except Refusal (Rendering × Text)) : Prop :=
  Visits W.Sound Rendering.Grows (W.Labelled cfg) visit

theorem Workspace.VisitsPackages.hosts
    {visit : Rendering → Text → Except Refusal (Rendering × Text)} (h : W.VisitsPackages cfg visit)
    {parts : Parts} {hosts : List Text} {labels : List (List Text)} (hsound : W.Sound state)
    (hok : visitHosts visit parts state hosts = .ok (s', labels)) :
    W.Sound s' ∧ state.Grows s' ∧ W.Visited cfg s' parts hosts labels := by
  have hhost : Visits W.Sound Rendering.Grows
      (fun state host labels => List.Forall₂ (W.Labelled cfg state) (parts.firstOn host) labels)
      fun state host => traverse visit state (parts.firstOn host) := by
    constructor
    intro state host s' labels hsound hok
    exact h.traverse Rendering.Grows.refl Rendering.Grows.trans
      (fun hle hlabel => hlabel.grows hle) hsound hok
  exact hhost.traverse Rendering.Grows.refl Rendering.Grows.trans
    (fun hle hlabels => hlabels.imp fun _ _ hlabel => hlabel.grows hle) hsound hok

theorem variant_visits (fuel : Nat) : W.VisitsPackages cfg (W.variant cfg fuel) := by
  induction fuel with
  | zero => exact ⟨fun _ hok => nomatch hok⟩
  | succ fuel ih =>
      constructor
      intro state pkg s' label hsound hok
      rcases variant_cases hok with ⟨known, hknown, rfl, rfl⟩ |
        ⟨-, crate, s₁, normal, s₂, build, s₃, dev, hcrate, hnormal, hbuild, hdev, rfl, rfl⟩
      · obtain ⟨crate, links, hwhole⟩ := hsound.known hknown
        have hsame : state.keys.insert (cfg, pkg) known = state.keys := by
          apply Finmap.ext_lookup
          intro unit
          by_cases heq : unit = (cfg, pkg)
          · rw [heq, Finmap.lookup_insert, hknown]
          · rw [Finmap.lookup_insert_of_ne _ heq]
        obtain ⟨hkept, hgrows⟩ : W.Sound (W.take pkg known.name state) ∧
            state.Grows (W.take pkg known.name state) :=
          hsound.keep hwhole (take_keys.trans hsame.symm) take_names take_rules take_emitted
        exact ⟨hkept, hgrows, known, by rw [take_keys, hknown], rfl⟩
      · obtain ⟨hsound₁, hgrows₁, hvisited₁⟩ := ih.hosts hsound hnormal
        obtain ⟨hsound₂, hgrows₂, hvisited₂⟩ := ih.hosts hsound₁ hbuild
        have hlinked : W.Linked cfg s₂ crate (crate.links normal build) :=
          ⟨normal, build, hvisited₁.grows hgrows₂, hvisited₂, rfl⟩
        obtain ⟨hsound, hgrows, hknown⟩ := hsound₂.remember hcrate hlinked
        obtain ⟨hsound₃, hgrows₃, hvisited₃⟩ := ih.hosts hsound hdev
        obtain ⟨hfinished, hgrows'⟩ := hsound₃.finish (hknown.grows hgrows₃) hvisited₃
        have hlabel : W.Labelled cfg (W.finish cfg pkg crate (crate.links normal build)
            (W.remember cfg pkg crate (crate.links normal build) s₂).2 dev s₃) pkg
            (W.edgeLabel pkg (W.remember cfg pkg crate (crate.links normal build) s₂).2) := by
          refine ⟨⟨_, crate.features, some (crate.devDeps dev),
            depsOf (crate.links normal build) Links.deps⟩, ?_, rfl⟩
          rw [Workspace.finish, take_keys]
          exact Finmap.lookup_insert _
        exact ⟨hfinished, hgrows₁.trans (hgrows₂.trans (hgrows.trans (hgrows₃.trans hgrows'))),
          hlabel⟩

end Visiting

end AccountDirectory.Native
