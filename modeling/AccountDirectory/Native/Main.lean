import AccountDirectory.Native.Targets

/-! What `main` renders: its libraries are those of `variant` alone, and every
other target is of a root of the bar, compiled against what its package takes
in a configuration. -/
namespace AccountDirectory.Native
open Library

variable {B : Bar} {cfg pkg name label host : Text} {state s s' : Rendering} {fuel : Nat}
  {configs done : List Configuration} {config : Configuration} {root : Root} {rule : Rule}
  {labels : List Text} {emission : Rule × Option Text} {t : Target}

section Names

theorem afterDashes_eq_none {text : Text} (h : '-' ∉ text) : afterDashes text = none := by
  induction text with
  | nil => rfl
  | cons c rest ih =>
      rw [List.mem_cons, not_or] at h
      have hprefix : ['-', '-'].isPrefixOf (c :: rest) = false := by
        rw [List.isPrefixOf_cons_cons]
        simp [h.1]
      rw [afterDashes, ih h.2, hprefix]
      rfl

theorem afterDashes_append {tail : Text} (h : '-' ∉ tail) (front : Text) :
    afterDashes (front ++ '-' :: '-' :: tail) = some tail := by
  induction front with
  | nil =>
      have hprefix : ['-', '-'].isPrefixOf ('-' :: tail) = false := by
        cases tail with
        | nil => rfl
        | cons c rest =>
            rw [List.mem_cons, not_or] at h
            simp [List.isPrefixOf_cons_cons, h.1]
      rw [List.nil_append, afterDashes, afterDashes, afterDashes_eq_none h, hprefix]
      rfl
  | cons c front ih =>
      rw [List.cons_append, afterDashes, ih]
      rfl

/-- The digests are hexadecimal, no root has two dashes in a row in its name, and
no binary is named like a build script. -/
structure Bar.Plain (B : Bar) (configs : List Configuration) : Prop where
  digest : ∀ key, (B.digest key).length = 8 ∧ '-' ∉ B.digest key
  packages : ∀ config ∈ configs, ∀ pkg ∈ B.roots config, afterDashes ("rust-".toList ++ pkg) = none
  binaries : ∀ config ∈ configs, ∀ pkg ∈ B.roots config, ∀ t ∈ B.targets pkg, .bin ∈ t.kind →
    ¬ scriptSuffix <:+ "rust-bin-".toList ++ t.name

/-- A root of the configurations, its library named as `variant` names it. -/
structure Bar.Stands (B : Bar) (configs : List Configuration) (root : Root) : Prop where
  config : root.config ∈ configs
  pkg : root.pkg ∈ B.roots root.config
  named : ∃ cfg key, root.known.name = B.nameOf cfg root.pkg key

theorem tag_cases (hplain : B.Plain configs) (h : B.Stands configs root) :
    afterDashes root.known.name = none ∨
      ∃ key, afterDashes root.known.name = some (B.digest key) := by
  obtain ⟨cfg, key, hname⟩ := h.named
  rw [hname, Workspace.nameOf]
  split
  · exact .inl (hplain.packages _ h.config _ h.pkg)
  · rw [List.append_assoc]
    exact .inr ⟨key, afterDashes_append (hplain.digest key).2 _⟩

/-- What stands behind the last dash of a script's name is in no tag. -/
theorem not_suffix_of_dashes {tail : Text} (hdash : '-' ∉ tail) (hlength : tail.length ≠ 6)
    (front : Text) : ¬ scriptSuffix <:+ front ++ '-' :: '-' :: tail := by
  rintro ⟨before, h⟩
  have hscript : before ++ scriptSuffix =
      (before ++ "-build".toList) ++ '-' :: "script".toList := by
    rw [List.append_assoc]
    rfl
  have htail : front ++ '-' :: '-' :: tail = (front ++ ['-']) ++ '-' :: tail := by
    rw [List.append_assoc]
    rfl
  rw [hscript, htail] at h
  obtain ⟨-, rfl⟩ := split_last (by decide) hdash h
  exact hlength rfl

theorem tag_plain (hplain : B.Plain configs) (h : B.Stands configs root) :
    '-' ∉ root.tag ∧ root.tag.length ≠ 6 := by
  unfold Root.tag
  rcases tag_cases hplain h with hnone | ⟨key, hsome⟩
  · rw [hnone]
    exact ⟨by decide, by decide⟩
  · rw [hsome, Option.getD_some]
    obtain ⟨hlength, hdash⟩ := hplain.digest key
    exact ⟨hdash, by rw [hlength]; decide⟩

theorem emission_cases (h : emission ∈ root.emissions (B.targets root.pkg)) :
    ∃ t ∈ B.targets root.pkg, (root.binary t = some emission.1 ∧ emission.2 = none) ∨
      (root.tested t = some emission.1 ∧ emission.2 = root.stable t emission.1) := by
  unfold Root.emissions at h
  rw [List.mem_append] at h
  rcases h with h | h
  · obtain ⟨t, ht, hemit⟩ := List.mem_filterMap.mp h
    obtain ⟨rule, hrule, rfl⟩ := Option.map_eq_some_iff.mp hemit
    exact ⟨t, ht, .inl ⟨hrule, rfl⟩⟩
  · split at h
    · obtain ⟨t, ht, hemit⟩ := List.mem_filterMap.mp h
      obtain ⟨rule, hrule, rfl⟩ := Option.map_eq_some_iff.mp hemit
      exact ⟨t, ht, .inr ⟨hrule, rfl⟩⟩
    · cases h

theorem binary_cases (h : root.binary t = some rule) : .bin ∈ t.kind ∧ root.enabled t = true ∧
    rule = root.rule .binary ("rust-bin-".toList ++ t.name ++ root.suffix)
      [root.known.deps, root.own] := by
  unfold Root.binary at h
  split at h
  · rename_i hbin
    cases h
    exact ⟨hbin.1, hbin.2.2, rfl⟩
  · cases h

/-- A test or an example has its name end in the tag, and takes the
dev-dependencies; the library's own tests alone do not take the library. -/
theorem tested_cases (h : root.tested t = some rule) : root.enabled t = true ∧
    ∃ kind front, (kind = .test ∨ kind = .binary) ∧
      rule = root.rule kind (front ++ "--".toList ++ root.tag)
        (if t.isTestedLib ∧ t.test ∧ root.hasLib then [root.known.deps, root.dev]
          else [root.known.deps, root.dev, root.own]) := by
  unfold Root.tested at h
  split at h
  · rename_i henabled
    refine ⟨henabled, ?_⟩
    split at h
    · rename_i hlib
      cases h
      refine ⟨.test, root.testPrefix ++ "-lib".toList, .inl rfl, ?_⟩
      have hjoined : "-lib--".toList = "-lib".toList ++ "--".toList := by decide
      rw [if_pos hlib, hjoined]
      simp only [List.append_assoc]
    · rename_i hlib
      rw [if_neg hlib]
      split at h
      · cases h
        exact ⟨.test, _, .inl rfl, rfl⟩
      · split at h
        · cases h
          exact ⟨.test, _, .inl rfl, rfl⟩
        · split at h
          · cases h
            exact ⟨.binary, _, .inr rfl, rfl⟩
          · cases h
  · cases h

theorem not_isLibrary_of_emission (h : emission ∈ root.emissions (B.targets root.pkg)) :
    emission.1.isLibrary = false ∧ emission.1.package = root.pkg := by
  obtain ⟨t, -, ⟨hbinary, -⟩ | ⟨htested, -⟩⟩ := emission_cases h
  · obtain ⟨-, -, hrule⟩ := binary_cases hbinary
    rw [hrule]
    exact ⟨rfl, rfl⟩
  · obtain ⟨-, kind, front, hkind, hrule⟩ := tested_cases htested
    rw [hrule]
    rcases hkind with rfl | rfl <;> exact ⟨rfl, rfl⟩

theorem stable_eq_some {stable : Text} (h : root.stable t rule = some stable) :
    stable = root.testPrefix ++ "-lib".toList := by
  unfold Root.stable at h
  split at h
  · exact (Option.some.inj h).symm
  · cases h

/-- No name that is emitted for a root is a build script's. -/
theorem emission_plain (hplain : B.Plain configs) (h : B.Stands configs root)
    (hmem : emission ∈ root.emissions (B.targets root.pkg)) :
    ¬ scriptSuffix <:+ emission.1.name ∧ ∀ stable ∈ emission.2, ¬ scriptSuffix <:+ stable := by
  obtain ⟨t, ht, ⟨hbinary, hnone⟩ | ⟨htested, hstable⟩⟩ := emission_cases hmem
  · obtain ⟨hbin, -, hrule⟩ := binary_cases hbinary
    rw [hrule, hnone]
    refine ⟨?_, fun _ hin => by cases hin⟩
    change ¬ scriptSuffix <:+ "rust-bin-".toList ++ t.name ++ root.suffix
    have hname := hplain.binaries _ h.config _ h.pkg t ht hbin
    unfold Root.suffix
    split
    · rwa [List.append_nil]
    · rcases tag_cases hplain h with hnone | ⟨key, hsome⟩
      · rw [hnone]
        dsimp only
        rwa [List.append_nil]
      · rw [hsome]
        obtain ⟨hlength, hdash⟩ := hplain.digest key
        exact not_suffix_of_dashes hdash (by rw [hlength]; decide) _
  · obtain ⟨-, kind, front, -, hrule⟩ := tested_cases htested
    obtain ⟨hdash, hlength⟩ := tag_plain hplain h
    constructor
    · rw [hrule]
      change ¬ scriptSuffix <:+ front ++ "--".toList ++ root.tag
      rw [List.append_assoc]
      exact not_suffix_of_dashes hdash hlength front
    · rintro stable hin ⟨before, hsuffix⟩
      have hlib := stable_eq_some (hstable ▸ hin)
      have hscript : before ++ scriptSuffix =
          (before ++ "-build".toList) ++ '-' :: "script".toList := by
        rw [List.append_assoc]
        rfl
      have htail : stable = root.testPrefix ++ '-' :: "lib".toList := hlib
      rw [hscript, htail] at hsuffix
      exact absurd (split_last (by decide) (by decide) hsuffix).2 (by decide)

end Names

section Libless

variable {W : Workspace} {features : Finset Text} {links : PerHost Links} {cfgs : List Text}

/-- The names without a library are those of packages that have none. -/
def Workspace.Libless (W : Workspace) (state : Rendering) : Prop :=
  ∀ name, name ∈ state.namesWithoutLib ↔
    ∃ key, (key, name) ∈ state.names ∧ (W.pkgs key.package).hasLib = false

theorem emitLib_namesWithoutLib {deps buildDeps : Deps} :
    (W.emitLib name pkg features deps buildDeps state).namesWithoutLib =
      if (W.pkgs pkg).hasLib = true then state.namesWithoutLib
      else insert name state.namesWithoutLib := by
  unfold Workspace.emitLib Workspace.buildscript Workspace.rule
  dsimp only
  split <;> split <;> rfl

theorem take_namesWithoutLib :
    (W.take pkg name state).namesWithoutLib = state.namesWithoutLib := by
  unfold Workspace.take
  split <;> rfl

theorem Workspace.Libless.intern (h : W.Libless state) :
    W.Libless (W.intern cfg pkg features links state).1 := by
  unfold Workspace.intern
  dsimp only
  split
  · exact h
  · intro other
    rw [emitLib_namesWithoutLib, emitLib_names]
    simp only [List.mem_append, List.mem_singleton, Prod.mk.injEq, or_and_right, exists_or]
    by_cases hlib : (W.pkgs pkg).hasLib = true
    · rw [if_pos hlib, h other]
      refine ⟨.inl, ?_⟩
      rintro (hold | ⟨key, ⟨rfl, rfl⟩, hnone⟩)
      · exact hold
      · rw [keyOf_package, hlib] at hnone
        cases hnone
    · rw [if_neg hlib, Finset.mem_insert, h other]
      constructor
      · rintro (rfl | hold)
        · exact .inr ⟨_, ⟨rfl, rfl⟩, by rw [keyOf_package]; exact Bool.eq_false_iff.mpr hlib⟩
        · exact .inl hold
      · rintro (hold | ⟨key, ⟨rfl, rfl⟩, -⟩)
        · exact .inr hold
        · exact .inl rfl

theorem Workspace.Libless.congr (h : W.Libless state) (hnames : s'.names = state.names)
    (hwithout : s'.namesWithoutLib = state.namesWithoutLib) : W.Libless s' := by
  unfold Workspace.Libless
  rw [hnames, hwithout]
  exact h

theorem variants_libless (hok : W.variants fuel cfgs = .ok (state, labels)) : W.Libless state := by
  have hvisit : ∀ cfg s s' pkg label, W.Libless s → W.variant cfg fuel s pkg = .ok (s', label) →
      W.Libless s' := by
    intro cfg
    refine variant_keeps ?_ ?_ ?_ fuel
    · exact fun s pkg name h => h.congr take_names take_namesWithoutLib
    · exact fun s pkg crate links h =>
        (Workspace.Libless.intern h).congr take_names take_namesWithoutLib
    · exact fun s pkg crate links name dev h => h.congr take_names take_namesWithoutLib
  refine traverse_keeps (fun unit _ s s' label => hvisit unit.1 s s' unit.2 label) ?_ hok
  intro name
  exact iff_of_false (Finset.notMem_empty name) fun ⟨_, hmem, _⟩ => by cases hmem

end Libless

section Once

variable {W : Workspace}

theorem once_keys : (W.once state emission).keys = state.keys := by
  unfold Workspace.once
  split <;> rfl

theorem once_namesWithoutLib :
    (W.once state emission).namesWithoutLib = state.namesWithoutLib := by
  unfold Workspace.once
  split <;> rfl

theorem once_rules : (W.once state emission).rules = state.rules ∧ emission.1.name ∈ state.emitted ∨
    (W.once state emission).rules = state.rules ++ [emission.1] := by
  unfold Workspace.once
  split
  · rename_i hold
    exact .inl ⟨rfl, hold⟩
  · exact .inr rfl

theorem libraryPart_once (hkind : emission.1.isLibrary = false)
    (hname : ¬ scriptSuffix <:+ emission.1.name) (hstable : ∀ stable ∈ emission.2,
      ¬ scriptSuffix <:+ stable) :
    W.libraryPart (W.once state emission) = W.libraryPart state := by
  unfold Workspace.once
  split
  · rfl
  · unfold Workspace.libraryPart Workspace.rule
    have hdropped : ¬ emission.1.isLibrary = true := by
      rw [hkind]
      exact Bool.false_ne_true
    have hrules : (state.rules ++ [emission.1]).filter Rule.isLibrary =
        state.rules.filter Rule.isLibrary := by
      rw [List.filter_append, List.filter_cons_of_neg hdropped, List.filter_nil, List.append_nil]
    have hemitted : (insert emission.1.name (emission.2.toFinset ∪ state.emitted)).filter
        (fun name => scriptSuffix.isSuffixOf name = true) =
          state.emitted.filter fun name => scriptSuffix.isSuffixOf name = true := by
      ext name
      rw [Finset.mem_filter, Finset.mem_filter, Finset.mem_insert, Finset.mem_union,
        List.isSuffixOf_iff_suffix]
      constructor
      · rintro ⟨rfl | hstab | hold, hsuffix⟩
        · exact absurd hsuffix hname
        · exact absurd hsuffix (hstable name (Option.mem_toFinset.mp hstab))
        · exact ⟨hold, hsuffix⟩
      · exact fun ⟨hold, hsuffix⟩ => ⟨.inr (.inr hold), hsuffix⟩
    dsimp only
    rw [hrules, hemitted]

theorem once_closed (h : state.closedTargets = W.closedNames state.rules) :
    (W.once state emission).closedTargets = W.closedNames (W.once state emission).rules := by
  unfold Workspace.once
  split
  · exact h
  · unfold Workspace.rule
    dsimp only
    rw [closedNames_append, h]

end Once

section Visits

variable {W : Workspace} {features : Finset Text} {links : PerHost Links} {crate : Crate}
  {deps buildDeps : Deps} {known : Variant}

/-- What visits add to a rendering: libraries and build scripts only. -/
structure Workspace.Adds (W : Workspace) (s s' : Rendering) : Prop where
  closed : s'.closedTargets = W.closedNames s'.rules
  others : s'.rules.filter (fun rule => !rule.isLibrary) =
    s.rules.filter fun rule => !rule.isLibrary
  rules : s.rules ⊆ s'.rules
  emitted : s.emitted ⊆ s'.emitted
  scripts : ∀ name ∈ s'.emitted, name ∈ s.emitted ∨ scriptSuffix <:+ name

theorem Workspace.Adds.refl (h : s.closedTargets = W.closedNames s.rules) : W.Adds s s :=
  ⟨h, rfl, List.Subset.refl _, Finset.Subset.refl _, fun _ => .inl⟩

theorem Workspace.Adds.library (h : W.Adds s s') (hkind : rule.isLibrary = true) :
    W.Adds s (W.rule rule s') := by
  have hdropped : [rule].filter (fun rule => !rule.isLibrary) = [] := by
    simp [hkind]
  refine ⟨?_, ?_, List.subset_append_of_subset_left _ h.rules, h.emitted, h.scripts⟩
  · unfold Workspace.rule
    dsimp only
    rw [closedNames_append, h.closed]
  · unfold Workspace.rule
    dsimp only
    rw [List.filter_append, hdropped, List.append_nil, h.others]

theorem Workspace.Adds.script (h : W.Adds s s') : W.Adds s { s' with
    emitted := insert (name ++ scriptSuffix) s'.emitted } := by
  refine ⟨h.closed, h.others, h.rules, h.emitted.trans (Finset.subset_insert _ _), ?_⟩
  intro other hother
  rcases Finset.mem_insert.mp hother with rfl | hold
  · exact .inr (List.suffix_append _ _)
  · exact h.scripts other hold

theorem Workspace.Adds.congr {s'' : Rendering} (h : W.Adds s s') (hrules : s''.rules = s'.rules)
    (hemitted : s''.emitted = s'.emitted) (hclosed : s''.closedTargets = s'.closedTargets) :
    W.Adds s s'' := by
  constructor
  · rw [hclosed, hrules]
    exact h.closed
  · rw [hrules]
    exact h.others
  · rw [hrules]
    exact h.rules
  · rw [hemitted]
    exact h.emitted
  · rw [hemitted]
    exact h.scripts

theorem Workspace.Adds.buildscript (h : W.Adds s s') :
    W.Adds s (W.buildscript name pkg features buildDeps s') := by
  unfold Workspace.buildscript
  dsimp only
  split
  · exact h.script.library rfl
  · exact h

theorem Workspace.Adds.emitLib (h : W.Adds s s') :
    W.Adds s (W.emitLib name pkg features deps buildDeps s') := by
  unfold Workspace.emitLib
  dsimp only
  split
  · exact h.buildscript.library rfl
  · exact h.buildscript.congr rfl rfl rfl

theorem take_closedTargets :
    (W.take pkg name state).closedTargets = state.closedTargets := by
  unfold Workspace.take
  split <;> rfl

theorem Workspace.Adds.remember (h : W.Adds s s') :
    W.Adds s (W.remember cfg pkg crate links s').1 := by
  have hinterned : W.Adds s (W.intern cfg pkg crate.features links s').1 := by
    unfold Workspace.intern
    dsimp only
    split
    · exact h
    · exact Workspace.Adds.emitLib (h.congr rfl rfl rfl)
  exact hinterned.congr take_rules take_emitted take_closedTargets

theorem visits_add (h : s.closedTargets = W.closedNames s.rules) {pkgs : List Text}
    (hok : traverse (W.variant cfg fuel) s pkgs = .ok (s', labels)) : W.Adds s s' := by
  have hvisit : ∀ mid mid' pkg label, W.Adds s mid →
      W.variant cfg fuel mid pkg = .ok (mid', label) → W.Adds s mid' := by
    refine variant_keeps ?_ ?_ ?_ fuel
    · exact fun mid pkg name h => h.congr take_rules take_emitted take_closedTargets
    · exact fun mid pkg crate links h => h.remember
    · exact fun mid pkg crate links name dev h => h.congr take_rules take_emitted take_closedTargets
  exact traverse_keeps (fun pkg _ mid mid' label => hvisit mid mid' pkg label) (.refl h) hok

theorem visits_names {pkgs : List Text}
    (hok : traverse (W.variant cfg fuel) s pkgs = .ok (s', labels)) : s.names ⊆ s'.names := by
  have hvisit : ∀ (mid mid' : Rendering) pkg label, s.names ⊆ mid.names →
      W.variant cfg fuel mid pkg = .ok (mid', label) → s.names ⊆ mid'.names := by
    refine variant_keeps ?_ ?_ ?_ fuel
    · intro mid pkg name h
      rw [take_names]
      exact h
    · intro mid pkg crate links h
      have hnames : (W.remember cfg pkg crate links mid).1.names =
          (W.intern cfg pkg crate.features links mid).1.names := take_names
      rw [hnames]
      exact List.Subset.trans h (intern_names W cfg pkg crate.features links mid).1
    · intro mid pkg crate links name dev h
      have hnames : (W.finish cfg pkg crate links name dev mid).names = mid.names := take_names
      rw [hnames]
      exact h
  have hkeeps : ∀ pkg ∈ pkgs, ∀ (mid mid' : Rendering) label, s.names ⊆ mid.names →
      W.variant cfg fuel mid pkg = .ok (mid', label) → s.names ⊆ mid'.names :=
    fun pkg _ mid mid' label => hvisit mid mid' pkg label
  have hlast := traverse_keeps hkeeps (List.Subset.refl _) hok
  exact hlast

/-- A package that is known with its dev-dependencies stays known as it is. -/
theorem lookup_stays (hsound : W.Sound s) (hsound' : W.Sound s') (hgrows : s.Grows s')
    {unit : Text × Text} (h : s.keys.lookup unit = some known) {dev : Deps}
    (hdev : known.dev = some dev)
    (hfinished : ∀ later, s'.keys.lookup unit = some later → ∃ dev, later.dev = some dev) :
    s'.keys.lookup unit = some known := by
  obtain ⟨cfg, pkg⟩ := unit
  obtain ⟨later, hlater, hname⟩ := hgrows.keys h
  obtain ⟨dev', hdev'⟩ := hfinished later hlater
  obtain ⟨crate, links, hknown⟩ := hsound.known h
  obtain ⟨crate', links', hknown'⟩ := hsound'.known hlater
  obtain rfl : crate = crate' := Except.ok.inj (hknown.resolves.symm.trans hknown'.resolves)
  obtain rfl := (hknown.linked.grows hgrows).unique hknown'.linked
  obtain ⟨visited, hvisited, rfl⟩ := hknown.dev dev hdev
  obtain ⟨visited', hvisited', rfl⟩ := hknown'.dev dev' hdev'
  obtain rfl := (hvisited.grows hgrows).unique hvisited'
  have hsame : known = later := by
    have hfeatures := hknown.features.trans hknown'.features.symm
    have hdeps := hknown.deps.trans hknown'.deps.symm
    have hsameDev := hdev.trans hdev'.symm
    cases known
    cases later
    simp_all
  rw [hsame, hlater]

end Visits

section Emissions

variable {W : Workspace} {emissions : List (Rule × Option Text)}

/-- What a root's targets add: each is emitted unless its name is taken, and
nothing else changes. -/
structure Workspace.Emits (W : Workspace) (emissions : List (Rule × Option Text))
    (s s' : Rendering) : Prop where
  keys : s'.keys = s.keys
  namesWithoutLib : s'.namesWithoutLib = s.namesWithoutLib
  closed : s.closedTargets = W.closedNames s.rules → s'.closedTargets = W.closedNames s'.rules
  rules : s.rules ⊆ s'.rules
  added : ∀ rule ∈ s'.rules, rule ∈ s.rules ∨ ∃ emission ∈ emissions, emission.1 = rule
  emitted : s.emitted ⊆ s'.emitted
  named : ∀ emission ∈ emissions, emission.1.name ∈ s'.emitted
  origin : ∀ name ∈ s'.emitted, name ∈ s.emitted ∨ (∃ rule ∈ s'.rules, rule.name = name) ∨
    ∃ emission ∈ emissions, name ∈ emission.2

theorem emits_once (emission : Rule × Option Text) : W.Emits [emission] s (W.once s emission) := by
  refine ⟨once_keys, once_namesWithoutLib, once_closed, ?_, ?_, ?_, ?_, ?_⟩
  · rcases once_rules with ⟨hrules, -⟩ | hrules
    · rw [hrules]
      exact List.Subset.refl _
    · rw [hrules]
      exact List.subset_append_left _ _
  · intro rule hrule
    rcases once_rules with ⟨hrules, -⟩ | hrules
    · exact .inl (hrules ▸ hrule)
    · rw [hrules, List.mem_append, List.mem_singleton] at hrule
      exact hrule.imp_right fun heq => ⟨emission, List.mem_singleton_self _, heq.symm⟩
  · unfold Workspace.once
    split
    · exact Finset.Subset.refl _
    · exact (Finset.subset_union_right).trans (Finset.subset_insert _ _)
  · rw [List.forall_mem_singleton]
    unfold Workspace.once
    split
    · assumption
    · exact Finset.mem_insert_self _ _
  · intro name hname
    unfold Workspace.once at hname ⊢
    split at hname
    · exact .inl hname
    · rename_i hnew
      rw [if_neg hnew]
      rcases Finset.mem_insert.mp hname with rfl | hname
      · exact .inr (.inl ⟨emission.1, List.mem_append_right _ (List.mem_singleton_self _), rfl⟩)
      · rcases Finset.mem_union.mp hname with hstable | hold
        · exact .inr (.inr ⟨emission, List.mem_singleton_self _, Option.mem_toFinset.mp hstable⟩)
        · exact .inl hold

theorem emits_foldl (emissions : List (Rule × Option Text)) :
    W.Emits emissions s (emissions.foldl W.once s) := by
  induction emissions generalizing s with
  | nil =>
      exact ⟨rfl, rfl, id, List.Subset.refl _, fun _ => .inl, Finset.Subset.refl _,
        List.forall_mem_nil _, fun _ => .inl⟩
  | cons emission rest ih =>
      have hone := emits_once (W := W) (s := s) emission
      have hrest := ih (s := W.once s emission)
      rw [List.foldl_cons]
      refine ⟨hrest.keys.trans hone.keys, hrest.namesWithoutLib.trans hone.namesWithoutLib,
        fun h => hrest.closed (hone.closed h), List.Subset.trans hone.rules hrest.rules, ?_,
        hone.emitted.trans hrest.emitted, ?_, ?_⟩
      · intro rule hrule
        rcases hrest.added rule hrule with hmid | ⟨later, hlater, heq⟩
        · rcases hone.added rule hmid with hold | ⟨first, hfirst, heq⟩
          · exact .inl hold
          · exact .inr ⟨first, List.mem_singleton.mp hfirst ▸ List.mem_cons_self .., heq⟩
        · exact .inr ⟨later, List.mem_cons_of_mem _ hlater, heq⟩
      · rw [List.forall_mem_cons]
        exact ⟨hrest.emitted (hone.named emission (List.mem_singleton_self _)), hrest.named⟩
      · intro name hname
        rcases hrest.origin name hname with hmid | hrule | ⟨later, hlater, hstable⟩
        · rcases hone.origin name hmid with hold | ⟨rule, hrule, hrname⟩ | ⟨first, hfirst, hstable⟩
          · exact .inl hold
          · exact .inr (.inl ⟨rule, hrest.rules hrule, hrname⟩)
          · exact .inr (.inr ⟨first, List.mem_singleton.mp hfirst ▸ List.mem_cons_self ..,
              hstable⟩)
        · exact .inr (.inl hrule)
        · exact .inr (.inr ⟨later, List.mem_cons_of_mem _ hlater, hstable⟩)

theorem libraryPart_foldl (h : ∀ emission ∈ emissions, emission.1.isLibrary = false ∧
    ¬ scriptSuffix <:+ emission.1.name ∧ ∀ stable ∈ emission.2, ¬ scriptSuffix <:+ stable) :
    W.libraryPart (emissions.foldl W.once s) = W.libraryPart s := by
  induction emissions generalizing s with
  | nil => rfl
  | cons emission rest ih =>
      rw [List.forall_mem_cons] at h
      obtain ⟨⟨hkind, hname, hstable⟩, hrest⟩ := h
      rw [List.foldl_cons, ih hrest, libraryPart_once hkind hname hstable]

end Emissions

section Runs

/-- A root that was visited, as its package is known. -/
structure Bar.Rooted (B : Bar) (s : Rendering) (units : List (Configuration × Text))
    (root : Root) : Prop where
  unit : (root.config, root.pkg) ∈ units
  known : s.keys.lookup (root.config.name, root.pkg) = some root.known
  dev : root.known.dev = some root.dev
  withoutLib : (B.pkgs root.pkg).hasLib = false → root.hasLib = false
  withLib : root.hasLib = false →
    ∃ key, (key, root.known.name) ∈ s.names ∧ (B.pkgs key.package).hasLib = false

/-- The rendering after the libraries of some configurations and some roots. -/
structure Bar.Reached (B : Bar) (fuel : Nat) (cfgs : List Text)
    (units : List (Configuration × Text)) (s : Rendering) : Prop where
  libraries : ∃ labels, B.variants fuel cfgs = .ok (B.libraryPart s, labels)
  closed : s.closedTargets = B.closedNames s.rules
  others : ∀ rule ∈ s.rules, rule.isLibrary = false →
    ∃ root, B.Rooted s units root ∧ ∃ stable, (rule, stable) ∈ root.emissions (B.targets root.pkg)
  emitted : ∀ name ∈ s.emitted, scriptSuffix <:+ name ∨ (∃ rule ∈ s.rules, rule.name = name) ∨
    ∃ unit ∈ units, name = "rust-test-".toList ++ unit.2 ++ "-lib".toList
  targets : ∀ unit ∈ units, ∃ root, B.Rooted s units root ∧ root.config = unit.1 ∧
    root.pkg = unit.2 ∧ ∀ emission ∈ root.emissions (B.targets root.pkg),
      emission.1.name ∈ s.emitted

variable {cfgs : List Text} {units : List (Configuration × Text)}

theorem reached_empty (B : Bar) (fuel : Nat) : B.Reached fuel [] [] {} where
  libraries := ⟨[], rfl⟩
  closed := rfl
  others := List.forall_mem_nil _
  emitted _ h := absurd h (Finset.notMem_empty _)
  targets := List.forall_mem_nil _

theorem Bar.Reached.sound (h : B.Reached fuel cfgs units s) :
    B.Sound (B.libraryPart s) ∧ B.Libless s ∧ ∀ unit known, s.keys.lookup unit = some known →
      ∃ dev, known.dev = some dev := by
  obtain ⟨labels, hok⟩ := h.libraries
  have hlibless : B.Libless (B.libraryPart s) := variants_libless hok
  have hfinished : ∀ unit known, (B.libraryPart s).keys.lookup unit = some known →
      ∃ dev, known.dev = some dev := fun unit known hknown => variants_finished hok hknown
  exact ⟨(variants_spec hok).1, hlibless, hfinished⟩

theorem Bar.Reached.visit (h : B.Reached fuel cfgs units s)
    (hok : traverse (B.variant cfg fuel) s (sortedList ((B.resolved cfg).map Prod.fst)) =
      .ok (s', labels)) : B.Reached fuel (cfgs ++ [cfg]) units s' := by
  obtain ⟨before, hbefore⟩ := h.libraries
  have hadds := visits_add h.closed hok
  have hmore : traverse (fun s (unit : Text × Text) => B.variant unit.1 fuel s unit.2)
      (B.libraryPart s) (B.units [cfg]) = .ok (B.libraryPart s', labels) := by
    have hunits : B.units [cfg] =
        (sortedList ((B.resolved cfg).map Prod.fst)).map fun pkg => (cfg, pkg) :=
      List.flatMap_singleton ..
    rw [hunits, traverse_map]
    exact traverse_along libraryPart_variant hok
  have hlibraries : B.variants fuel (cfgs ++ [cfg]) = .ok (B.libraryPart s', before ++ labels) := by
    have hunits : B.units (cfgs ++ [cfg]) = B.units cfgs ++ B.units [cfg] := List.flatMap_append
    rw [Workspace.variants, hunits]
    exact traverse_append_eq_ok.mpr ⟨_, _, _, hbefore, hmore, rfl⟩
  have hvisits : Visits B.Sound Rendering.Grows
      (fun state unit label => B.Labelled unit.1 state unit.2 label)
      fun state (unit : Text × Text) => B.variant unit.1 fuel state unit.2 :=
    ⟨fun hsound hok => (variant_visits fuel).keeps hsound hok⟩
  obtain ⟨hsound', hgrows, -⟩ := hvisits.traverse Rendering.Grows.refl Rendering.Grows.trans
    (fun hle hlabel => hlabel.grows hle) h.sound.1 hmore
  have hrooted : ∀ root, B.Rooted s units root → B.Rooted s' units root := by
    intro root hroot
    refine ⟨hroot.unit, ?_, hroot.dev, hroot.withoutLib, fun hlib => ?_⟩
    · have hstays : (B.libraryPart s').keys.lookup (root.config.name, root.pkg) = some root.known :=
        lookup_stays h.sound.1 hsound' hgrows hroot.known hroot.dev
          fun later hlater => variants_finished hlibraries hlater
      exact hstays
    · obtain ⟨key, hkey, hnone⟩ := hroot.withLib hlib
      exact ⟨key, visits_names hok hkey, hnone⟩
  refine ⟨⟨_, hlibraries⟩, hadds.closed, ?_, ?_, ?_⟩
  · intro rule hrule hother
    have hmem : rule ∈ s'.rules.filter fun rule => !rule.isLibrary :=
      List.mem_filter.mpr ⟨hrule, by rw [hother]; rfl⟩
    rw [hadds.others] at hmem
    obtain ⟨root, hroot, hemission⟩ := h.others rule (List.mem_filter.mp hmem).1 hother
    exact ⟨root, hrooted root hroot, hemission⟩
  · intro name hname
    rcases hadds.scripts name hname with hold | hscript
    · rcases h.emitted name hold with hscript | ⟨rule, hrule, hrname⟩ | hstable
      · exact .inl hscript
      · exact .inr (.inl ⟨rule, hadds.rules hrule, hrname⟩)
      · exact .inr (.inr hstable)
    · exact .inl hscript
  · intro unit hunit
    obtain ⟨root, hroot, hconfig, hpkg, hemissions⟩ := h.targets unit hunit
    exact ⟨root, hrooted root hroot, hconfig, hpkg,
      fun emission hemission => hadds.emitted (hemissions emission hemission)⟩

theorem buildscript_there {W : Workspace} {features : Finset Text} {buildDeps : Deps}
    (h : (W.pkgs pkg).hasBuildScript = true → name ++ scriptSuffix ∈ s.emitted) :
    W.buildscript name pkg features buildDeps s = s := by
  unfold Workspace.buildscript
  dsimp only
  rw [if_neg]
  rintro ⟨hscript, hnew⟩
  exact hnew (h hscript)

theorem Bar.Reached.emit (h : B.Reached fuel cfgs units s) (hplain : B.Plain configs)
    (hconfig : config ∈ configs) (hpkg : pkg ∈ B.roots config)
    (hok : B.root config s pkg = .ok (s', ())) :
    B.Reached fuel cfgs (units ++ [(config, pkg)]) s' := by
  obtain ⟨hsound, hlibless, -⟩ := h.sound
  unfold Bar.root at hok
  split at hok
  case h_2 => cases hok
  case h_1 name features dev deps hlookup =>
    obtain ⟨crate, links, hknown⟩ := hsound.known hlookup
    have hentry : (keyOf pkg crate.features links, name) ∈ s.names := mem_of_lookup hknown.named
    have hscript : (B.pkgs pkg).hasBuildScript = true → name ++ scriptSuffix ∈ s.emitted := by
      intro hhas
      have hpart := hsound.scripts _ hentry (by rw [keyOf_package]; exact hhas)
      exact (Finset.mem_filter.mp hpart).1
    rw [buildscript_there hscript] at hok
    dsimp only at hok
    set root : Root := ⟨config, pkg, ⟨name, features, some dev, deps⟩, dev,
      name ∉ s.namesWithoutLib⟩ with hroot
    have hs' : (root.emissions (B.targets pkg)).foldl B.once s = s' :=
      (Prod.mk.inj (Except.ok.inj hok)).1
    have hstands : B.Stands configs root := ⟨hconfig, hpkg, hsound.named hlookup⟩
    have hplainly : ∀ emission ∈ root.emissions (B.targets pkg), emission.1.isLibrary = false ∧
        ¬ scriptSuffix <:+ emission.1.name ∧ ∀ stable ∈ emission.2, ¬ scriptSuffix <:+ stable :=
      fun emission hmem => ⟨(@not_isLibrary_of_emission B root emission hmem).1,
        emission_plain hplain hstands hmem⟩
    have hemits := emits_foldl (W := B.toWorkspace) (s := s) (root.emissions (B.targets pkg))
    have hpart := libraryPart_foldl (s := s) (W := B.toWorkspace) hplainly
    rw [hs'] at hemits hpart
    have hnames : s'.names = s.names := by
      change (B.libraryPart s').names = (B.libraryPart s).names
      rw [hpart]
    have hrooted : ∀ other, B.Rooted s units other →
        B.Rooted s' (units ++ [(config, pkg)]) other := by
      intro other hother
      refine ⟨List.mem_append_left _ hother.unit, ?_, hother.dev, hother.withoutLib, ?_⟩
      · rw [hemits.keys]
        exact hother.known
      · rw [hnames]
        exact hother.withLib
    have hnew : B.Rooted s' (units ++ [(config, pkg)]) root := by
      refine ⟨List.mem_append_right _ (List.mem_singleton_self _), ?_, rfl, ?_, ?_⟩
      · rw [hemits.keys]
        exact hlookup
      · intro hnone
        exact decide_eq_false (not_not.mpr ((hlibless name).mpr
          ⟨_, hentry, by rw [keyOf_package]; exact hnone⟩))
      · intro hnone
        rw [hnames]
        exact (hlibless name).mp (not_not.mp (of_decide_eq_false hnone))
    refine ⟨hpart ▸ h.libraries, hemits.closed h.closed, ?_, ?_, ?_⟩
    · intro rule hrule hother
      rcases hemits.added rule hrule with hold | ⟨emission, hemission, rfl⟩
      · obtain ⟨other, hroot', hstable⟩ := h.others rule hold hother
        exact ⟨other, hrooted other hroot', hstable⟩
      · exact ⟨root, hnew, emission.2, hemission⟩
    · intro other hother
      rcases hemits.origin other hother with hold | hrule | ⟨emission, hemission, hstable⟩
      · rcases h.emitted other hold with hscript | ⟨rule, hrule, hname⟩ | ⟨unit, hunit, hname⟩
        · exact .inl hscript
        · exact .inr (.inl ⟨rule, hemits.rules hrule, hname⟩)
        · exact .inr (.inr ⟨unit, List.mem_append_left _ hunit, hname⟩)
      · exact .inr (.inl hrule)
      · obtain ⟨t, -, ⟨-, hnone⟩ | ⟨-, hsome⟩⟩ := @emission_cases B root emission hemission
        · rw [hnone] at hstable
          cases hstable
        · exact .inr (.inr ⟨(config, pkg), List.mem_append_right _ (List.mem_singleton_self _),
            stable_eq_some (hsome ▸ hstable)⟩)
    · intro unit hunit
      rcases List.mem_append.mp hunit with hold | hlast
      · obtain ⟨other, hroot', hconfig', hpkg', hemissions⟩ := h.targets unit hold
        exact ⟨other, hrooted other hroot', hconfig', hpkg',
          fun emission hemission => hemits.emitted (hemissions emission hemission)⟩
      · obtain rfl := List.mem_singleton.mp hlast
        exact ⟨root, hnew, rfl, rfl, hemits.named⟩

theorem Bar.Reached.roots (h : B.Reached fuel cfgs units s) (hplain : B.Plain configs)
    (hconfig : config ∈ configs) {pkgs : List Text} (hpkgs : ∀ pkg ∈ pkgs, pkg ∈ B.roots config)
    {outs : List Unit} (hok : traverse (B.root config) s pkgs = .ok (s', outs)) :
    B.Reached fuel cfgs (units ++ pkgs.map fun pkg => (config, pkg)) s' := by
  induction pkgs generalizing s units outs with
  | nil =>
      cases hok
      rw [List.map_nil, List.append_nil]
      exact h
  | cons pkg rest ih =>
      rw [List.forall_mem_cons] at hpkgs
      obtain ⟨mid, ⟨⟩, tail, hvisit, hrest, rfl⟩ := traverse_cons_eq_ok.mp hok
      have hlast := ih (h.emit hplain hconfig hpkgs.1 hvisit) hpkgs.2 hrest
      rwa [List.append_assoc] at hlast

def Bar.rootUnits (B : Bar) (configs : List Configuration) : List (Configuration × Text) :=
  configs.flatMap fun config => (B.roots config).map fun pkg => (config, pkg)

theorem Bar.Reached.configurations (h : B.Reached fuel cfgs units s) (hplain : B.Plain configs)
    (hdone : ∀ config ∈ done, config ∈ configs) {outs : List Unit}
    (hok : traverse (B.configuration fuel) s done = .ok (s', outs)) :
    B.Reached fuel (cfgs ++ done.map Configuration.name) (units ++ Bar.rootUnits B done) s' := by
  induction done generalizing s cfgs units outs with
  | nil =>
      cases hok
      rw [List.map_nil, List.append_nil, Bar.rootUnits, List.flatMap_nil, List.append_nil]
      exact h
  | cons config rest ih =>
      rw [List.forall_mem_cons] at hdone
      obtain ⟨mid, ⟨⟩, tail, hvisit, hrest, rfl⟩ := traverse_cons_eq_ok.mp hok
      obtain ⟨⟨s₁, labels⟩, hlibraries, hvisit⟩ := bind_eq_ok.mp hvisit
      obtain ⟨⟨s₂, outs⟩, hroots, hvisit⟩ := bind_eq_ok.mp hvisit
      cases hvisit
      have hmid := (h.visit hlibraries).roots hplain hdone.1 (fun _ hpkg => hpkg) hroots
      have hlast := ih hmid hdone.2 hrest
      rw [List.append_assoc, List.append_assoc] at hlast
      exact hlast

theorem render_reached (hplain : B.Plain configs) {outs : List Unit}
    (hok : B.render fuel configs = .ok (state, outs)) :
    B.Reached fuel (configs.map Configuration.name) (Bar.rootUnits B configs) state :=
  (reached_empty B fuel).configurations hplain (fun _ h => h) hok

/-- Binaries, tests and examples do not touch the libraries: without them the
rendering is what `variant` renders of the same configurations. -/
theorem render_libraries (hplain : B.Plain configs) {outs : List Unit}
    (hok : B.render fuel configs = .ok (state, outs)) :
    ∃ labels, B.variants fuel (configs.map Configuration.name) =
      .ok (B.libraryPart state, labels) :=
  (render_reached hplain hok).libraries

end Runs

/-- The app has a binary and an end-to-end test. -/
def Sample.bar : Bar where
  toWorkspace := Sample.workspace
  targets pkg :=
    if pkg = "app".toList then
      [⟨"app".toList, {.lib}, true, ∅⟩, ⟨"cli".toList, {.bin}, true, ∅⟩,
        ⟨"e2e".toList, {.test}, true, ∅⟩]
    else [⟨"core".toList, {.lib}, true, ∅⟩, ⟨"build".toList, {.customBuild}, false, ∅⟩]
  members := {"app".toList, "core".toList}
  hasLib pkg := by
    unfold Sample.workspace
    dsimp only
    split <;> rfl
  hasBuildScript pkg := by
    unfold Sample.workspace
    dsimp only
    split <;> rfl

def Sample.configurations : List Configuration :=
  [⟨"build".toList, some ∅, []⟩, ⟨"test".toList, none, []⟩]

theorem Sample.plain : Sample.bar.Plain Sample.configurations := by
  constructor
  · intro key
    unfold Sample.bar Sample.workspace
    dsimp only
    split <;> decide
  · decide +kernel
  · unfold scriptSuffix
    decide +kernel

theorem Sample.rendered : ∃ state outs,
    Sample.bar.render 4 Sample.configurations = .ok (state, outs) ∧
      (state.names.map Prod.snd).Nodup ∧
      (∃ rule ∈ state.rules, rule.kind = .test ∧ rule.package = "app".toList) := by
  have hrun : ((Sample.bar.render 4 Sample.configurations).toOption.map fun r =>
      decide ((r.1.names.map Prod.snd).Nodup ∧
        ∃ rule ∈ r.1.rules, rule.kind = .test ∧ rule.package = "app".toList)) = some true := by
    decide +kernel
  cases hresult : Sample.bar.render 4 Sample.configurations with
  | error refusal =>
      rw [hresult] at hrun
      cases hrun
  | ok r =>
      rw [hresult] at hrun
      obtain ⟨hnames, hrule⟩ := of_decide_eq_true (Option.some.inj hrun)
      exact ⟨r.1, r.2, rfl, hnames, hrule⟩

theorem render_libraries_of_two_crates : ∃ state outs labels,
    Sample.bar.render 4 Sample.configurations = .ok (state, outs) ∧
      Sample.bar.variants 4 Sample.configs = .ok (Sample.bar.libraryPart state, labels) := by
  obtain ⟨state, outs, hok, -⟩ := Sample.rendered
  obtain ⟨labels, hlibraries⟩ := render_libraries Sample.plain hok
  exact ⟨state, outs, labels, hok, hlibraries⟩

end AccountDirectory.Native
