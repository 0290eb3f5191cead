import AccountDirectory.Native.Faithful

/-! The rest of `main`: per configuration the libraries, then the binaries,
tests and examples of its roots. Two configurations with one library may name a
target alike; it is emitted once. -/
namespace AccountDirectory.Native
open Library

inductive TargetKind where
  | lib
  | rlib
  | dylib
  | cdylib
  | staticlib
  | procMacro
  | bin
  | test
  | example
  | bench
  | customBuild
deriving DecidableEq, Repr

/-- An entry of a package's `targets`. -/
structure Target where
  name : Text
  kind : Finset TargetKind
  test : Bool
  requiredFeatures : Finset Text
deriving DecidableEq

def Target.isLib (t : Target) : Bool :=
  .lib ∈ t.kind ∨ .rlib ∈ t.kind ∨ .cdylib ∈ t.kind ∨ .procMacro ∈ t.kind

def Target.isTestedLib (t : Target) : Bool :=
  .lib ∈ t.kind ∨ .rlib ∈ t.kind ∨ .procMacro ∈ t.kind

/-- A workspace with all its targets. -/
structure Bar extends Workspace where
  targets : Text → List Target
  members : Finset Text
  hasLib : ∀ pkg, (pkgs pkg).hasLib = (targets pkg).any Target.isLib
  hasBuildScript : ∀ pkg,
    (pkgs pkg).hasBuildScript = (targets pkg).any fun t => .customBuild ∈ t.kind

/-- What the bar compiles; `allTargets` is `none` for `"*"`, `checkRoot` the
package a feature check names. -/
structure Configuration where
  name : Text
  allTargets : Option (Finset Text)
  checkRoot : Text
deriving DecidableEq

/-- `build` and `test`, which are of the whole workspace. -/
def Configuration.whole (config : Configuration) : Bool :=
  config.name = buildConfig ∨ config.name = testConfig

def Configuration.hasAll (config : Configuration) (pkg : Text) : Bool :=
  match config.allTargets with
  | none => true
  | some pkgs => pkg ∈ pkgs

def Bar.roots (B : Bar) (config : Configuration) : List Text :=
  if config.whole then
    (sortedList ((B.resolved config.name).map Prod.fst)).filter fun pkg => pkg ∈ B.members
  else [config.checkRoot]

/-- `name.rsplit("--", 1)[-1]`, where the name has a `--`. -/
def afterDashes : Text → Option Text
  | [] => none
  | c :: rest =>
      (afterDashes rest).orElse fun _ =>
        if ['-', '-'].isPrefixOf (c :: rest) then some (rest.drop 1) else none

/-- A package a configuration has the targets of, with its library there. -/
structure Root where
  config : Configuration
  pkg : Text
  known : Variant
  dev : Deps
  hasLib : Bool

namespace Root

variable (root : Root)

def own : Deps := ⟨if root.hasLib then {':' :: root.known.name} else ∅, []⟩

/-- cargo skips a target whose required features are not all on. -/
def enabled (t : Target) : Bool := t.requiredFeatures ⊆ root.known.features

def suffix : Text :=
  if root.config.name = buildConfig then []
  else match afterDashes root.known.name with
    | some last => ['-', '-'] ++ last
    | none => []

def tag : Text := (afterDashes root.known.name).getD buildConfig

def rule (kind : RuleKind) (name : Text) (parts : List Deps) : Rule :=
  ⟨kind, name, root.pkg, sorted root.known.features, plus parts⟩

/-- The first pass over the targets: binaries. -/
def binary (t : Target) : Option Rule :=
  if .bin ∈ t.kind ∧ (root.config.whole ∨ root.config.hasAll root.pkg) ∧ root.enabled t then
    some (root.rule .binary ("rust-bin-".toList ++ t.name ++ root.suffix) [root.known.deps, root.own])
  else none

def testPrefix : Text := "rust-test-".toList ++ root.pkg

/-- The second pass: tests and examples. -/
def tested (t : Target) : Option Rule :=
  if root.enabled t then
    if t.isTestedLib ∧ t.test ∧ root.hasLib then
      some (root.rule .test (root.testPrefix ++ "-lib--".toList ++ root.tag)
        [root.known.deps, root.dev])
    else if .bin ∈ t.kind ∧ t.test then
      some (root.rule .test (root.testPrefix ++ "-bin-".toList ++ t.name ++ "--".toList ++ root.tag)
        [root.known.deps, root.dev, root.own])
    else if .test ∈ t.kind then
      some (root.rule .test (root.testPrefix ++ "-".toList ++ t.name ++ "--".toList ++ root.tag)
        [root.known.deps, root.dev, root.own])
    else if .example ∈ t.kind then
      some (root.rule .binary
        ("rust-example-".toList ++ root.pkg ++ "-".toList ++ t.name ++ "--".toList ++ root.tag)
        [root.known.deps, root.dev, root.own])
    else none
  else none

/-- The name a library's tests keep from version to version. -/
def stable (t : Target) (rule : Rule) : Option Text :=
  if rule.kind = .test ∧ root.config.name = testConfig ∧ t.isTestedLib then
    some (root.testPrefix ++ "-lib".toList)
  else none

/-- The targets of the root, in the order they are emitted. -/
def emissions (targets : List Target) : List (Rule × Option Text) :=
  (targets.filterMap fun t => (root.binary t).map fun rule => (rule, none)) ++
    if root.config.name ≠ buildConfig ∧ root.config.hasAll root.pkg then
      targets.filterMap fun t => (root.tested t).map fun rule => (rule, root.stable t rule)
    else []

end Root

/-- A target is emitted, and its alias, unless one of its name was. -/
def Workspace.once (W : Workspace) (state : Rendering) (emission : Rule × Option Text) :
    Rendering :=
  if emission.1.name ∈ state.emitted then state
  else W.rule emission.1 { state with
    emitted := insert emission.1.name (emission.2.toFinset ∪ state.emitted) }

namespace Bar

variable (B : Bar)

def root (config : Configuration) (state : Rendering) (pkg : Text) :
    Except Refusal (Rendering × Unit) :=
  match state.keys.lookup (config.name, pkg) with
  | some ⟨name, features, some dev, deps⟩ =>
      let root : Root :=
        ⟨config, pkg, ⟨name, features, some dev, deps⟩, dev, name ∉ state.namesWithoutLib⟩
      let state := B.buildscript name pkg features ⟨∅, []⟩ state
      .ok ((root.emissions (B.targets pkg)).foldl B.once state, ())
  | _ => .error (.unresolved pkg)

def configuration (fuel : Nat) (state : Rendering) (config : Configuration) :
    Except Refusal (Rendering × Unit) := do
  let (state, _) ← traverse (B.variant config.name fuel) state
    (sortedList ((B.resolved config.name).map Prod.fst))
  let (state, _) ← traverse (B.root config) state (B.roots config)
  return (state, ())

/-- All targets of the rendering. -/
def render (fuel : Nat) (configs : List Configuration) : Except Refusal (Rendering × List Unit) :=
  traverse (B.configuration fuel) {} configs

end Bar

variable {W : Workspace} {cfg pkg name label host : Text} {state s' : Rendering} {fuel : Nat}
  {crate : Crate} {links : PerHost Links} {features : Finset Text} {rule : Rule}

section Libraries

def Rule.isLibrary (rule : Rule) : Bool := rule.kind = .library ∨ rule.kind = .buildScript

def Workspace.closedNames (W : Workspace) (rules : List Rule) : Finset Text :=
  ((rules.filter fun rule => rule.package ∈ W.closed).map Rule.name).toFinset

/-- A rendering as `variant` alone would have it: without binaries, tests and examples. -/
def Workspace.libraryPart (W : Workspace) (state : Rendering) : Rendering :=
  { state with
    rules := state.rules.filter Rule.isLibrary
    emitted := state.emitted.filter fun name => scriptSuffix.isSuffixOf name
    closedTargets := W.closedNames (state.rules.filter Rule.isLibrary) }

theorem closedNames_append (rules : List Rule) (rule : Rule) :
    W.closedNames (rules ++ [rule]) =
      if rule.package ∈ W.closed then insert rule.name (W.closedNames rules)
      else W.closedNames rules := by
  unfold Workspace.closedNames
  rw [List.filter_append, List.map_append, List.toFinset_append]
  by_cases hclosed : rule.package ∈ W.closed
  · simp [hclosed, Finset.union_comm]
  · simp [hclosed]

theorem libraryPart_rule (h : rule.isLibrary = true) :
    W.libraryPart (W.rule rule state) = W.rule rule (W.libraryPart state) := by
  unfold Workspace.libraryPart Workspace.rule
  dsimp only
  rw [List.filter_append, List.filter_cons_of_pos h, List.filter_nil, closedNames_append]

theorem libraryPart_take :
    W.libraryPart (W.take pkg name state) = W.take pkg name (W.libraryPart state) := by
  unfold Workspace.libraryPart Workspace.take
  split <;> rfl

theorem libraryPart_buildscript {buildDeps : Deps} :
    W.libraryPart (W.buildscript name pkg features buildDeps state) =
      W.buildscript name pkg features buildDeps (W.libraryPart state) := by
  have hsuffix : scriptSuffix.isSuffixOf (name ++ scriptSuffix) = true :=
    List.isSuffixOf_iff_suffix.mpr (List.suffix_append _ _)
  have hmem : name ++ scriptSuffix ∈ (W.libraryPart state).emitted ↔
      name ++ scriptSuffix ∈ state.emitted := by
    rw [Workspace.libraryPart, Finset.mem_filter, and_iff_left hsuffix]
  unfold Workspace.buildscript
  dsimp only
  by_cases hnew : (W.pkgs pkg).hasBuildScript = true ∧ name ++ scriptSuffix ∉ state.emitted
  · rw [if_pos hnew, if_pos ⟨hnew.1, fun hold => hnew.2 (hmem.mp hold)⟩, libraryPart_rule rfl]
    congr 1
    unfold Workspace.libraryPart
    dsimp only
    rw [Finset.filter_insert, if_pos hsuffix]
  · rw [if_neg hnew, if_neg fun hpart => hnew ⟨hpart.1, fun hold => hpart.2 (hmem.mpr hold)⟩]

theorem libraryPart_emitLib {deps buildDeps : Deps} :
    W.libraryPart (W.emitLib name pkg features deps buildDeps state) =
      W.emitLib name pkg features deps buildDeps (W.libraryPart state) := by
  unfold Workspace.emitLib
  dsimp only
  rw [← libraryPart_buildscript]
  split
  · rw [libraryPart_rule rfl]
  · rfl

theorem libraryPart_intern :
    (W.libraryPart (W.intern cfg pkg features links state).1,
      (W.intern cfg pkg features links state).2) =
        W.intern cfg pkg features links (W.libraryPart state) := by
  unfold Workspace.intern
  dsimp only
  have hnames : (W.libraryPart state).names = state.names := rfl
  rw [hnames]
  split
  · rfl
  · dsimp only
    rw [libraryPart_emitLib]
    rfl

theorem libraryPart_remember (W : Workspace) (cfg pkg : Text) (crate : Crate)
    (links : PerHost Links) (state : Rendering) :
    W.libraryPart (W.remember cfg pkg crate links state).1 =
        (W.remember cfg pkg crate links (W.libraryPart state)).1 ∧
      (W.remember cfg pkg crate links state).2 =
        (W.remember cfg pkg crate links (W.libraryPart state)).2 := by
  unfold Workspace.remember
  rw [← libraryPart_intern]
  dsimp only
  rw [libraryPart_take]
  exact ⟨rfl, rfl⟩

theorem libraryPart_finish {dev : List (List Text)} :
    W.libraryPart (W.finish cfg pkg crate links name dev state) =
      W.finish cfg pkg crate links name dev (W.libraryPart state) := by
  unfold Workspace.finish
  rw [libraryPart_take]
  rfl

theorem libraryPart_hosts (h : ∀ {s pkg s' label}, W.variant cfg fuel s pkg = .ok (s', label) →
    W.variant cfg fuel (W.libraryPart s) pkg = .ok (W.libraryPart s', label)) {parts : Parts}
    {hosts : List Text} {labels : List (List Text)}
    (hok : visitHosts (W.variant cfg fuel) parts state hosts = .ok (s', labels)) :
    visitHosts (W.variant cfg fuel) parts (W.libraryPart state) hosts =
      .ok (W.libraryPart s', labels) :=
  traverse_along (fun hhost => traverse_along h hhost) hok

/-- What `variant` does to a rendering it does to its libraries alone. -/
theorem libraryPart_variant (h : W.variant cfg fuel state pkg = .ok (s', label)) :
    W.variant cfg fuel (W.libraryPart state) pkg = .ok (W.libraryPart s', label) := by
  induction fuel generalizing state pkg s' label with
  | zero => cases h
  | succ fuel ih =>
      rcases variant_cases h with ⟨known, hknown, rfl, rfl⟩ |
        ⟨hnew, crate, s₁, normal, s₂, build, s₃, dev, hcrate, hnormal, hbuild, hdev, rfl, rfl⟩
      · have hsame : (W.libraryPart state).keys.lookup (cfg, pkg) = some known := hknown
        rw [Workspace.variant, hsame, libraryPart_take]
      · obtain ⟨hstate, hname⟩ := libraryPart_remember W cfg pkg crate (crate.links normal build) s₂
        have hdev' := libraryPart_hosts ih hdev
        rw [hstate] at hdev'
        rw [libraryPart_finish, hname]
        exact variant_of_visits hnew hcrate (libraryPart_hosts ih hnormal)
          (libraryPart_hosts ih hbuild) hdev'

end Libraries

end AccountDirectory.Native
