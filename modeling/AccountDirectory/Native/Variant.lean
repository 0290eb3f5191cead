import AccountDirectory.Library.Traverse
import AccountDirectory.Native.Resolve

/-! `variant` of the native renderer: the library target of a package in a
configuration. Configurations that compile a package alike share its target, so
a target is named by what it is compiled from; a package is remembered before
its dev-dependencies are visited, which may depend on it. -/
namespace AccountDirectory.Native
open Library

inductive Kind where
  | normal
  | build
  | dev
deriving DecidableEq, Repr

/-- One entry of a package's `dependencies`; cargo leaves a normal one's kind out. -/
structure Dependency where
  name : Text
  kind : Option Kind
deriving DecidableEq, Repr

structure Manifest where
  dependencies : List Dependency
  hasLib : Bool
  hasBuildScript : Bool
deriving Repr

/-- What a target is compiled against on one host: labels of first-party
targets, in the order of their packages, and of third-party ones. -/
structure Links where
  normal : List Text
  normalThird : List Text
  build : List Text
  buildThird : List Text
deriving DecidableEq, Repr

/-- The JSON text two variants are told apart by. -/
inductive Key where
  | everywhere (package : Text) (features : List Text) (links : Links)
  | byHost (package : Text) (features : List Text) (links : PerHost Links)
deriving DecidableEq, Repr

/-- What the rendering is made from. `resolved` is by configuration, `digest`
the first eight hex digits of the SHA-1 of a key. -/
structure Workspace where
  pkgs : Text → Manifest
  resolved : Text → PerHost Merged
  thirdParty : List ((Text × Text) × Text)
  tpDir : Text
  closed : Finset Text
  closedPkg : Text
  digest : Key → Text

inductive Refusal where
  | unresolved (package : Text)
  | notPinned (package : Text)
  | tooDeep
deriving DecidableEq, Repr

section Declared

variable (W : Workspace)

def Workspace.declaredKinds (pkg dep : Text) : Finset Kind :=
  (((W.pkgs pkg).dependencies.filter (·.name = dep)).map fun d => d.kind.getD .normal).toFinset

def normal (kinds : Finset Kind) : Bool := .normal ∈ kinds

def build (kinds : Finset Kind) : Bool := .build ∈ kinds

def devOnly (kinds : Finset Kind) : Bool := .dev ∈ kinds ∧ .normal ∉ kinds

/-- `//{TP_DIR}:{key}` -/
def Workspace.tpLabel (dep : Text × Text) : Option Text :=
  (W.thirdParty.lookup dep).map fun key => ['/', '/'] ++ W.tpDir ++ ':' :: key

/-- The first-party packages and the third-party labels of one kind, by host. -/
structure Parts where
  firstParty : PerHost (List Text)
  thirdParty : PerHost (List Text)
deriving DecidableEq, Repr

/-- Every third-party dependency of the kind has a label. -/
def Workspace.Pinned (pkg : Text) (merged : Merged) (want : Finset Kind → Bool) : Prop :=
  ∀ entry ∈ merged.thirdParty, ∀ dep ∈ entry.2,
    want (W.declaredKinds pkg dep.1) = true → (W.tpLabel dep).isSome = true

instance (pkg : Text) (merged : Merged) (want : Finset Kind → Bool) :
    Decidable (W.Pinned pkg merged want) :=
  inferInstanceAs (Decidable (∀ entry ∈ merged.thirdParty, ∀ dep ∈ entry.2, _ → _))

def Workspace.firstNames (pkg : Text) (want : Finset Kind → Bool) (deps : Finset Text) :
    List Text :=
  sorted (deps.filter fun dep => want (W.declaredKinds pkg dep))

def Workspace.thirdLabels (pkg : Text) (want : Finset Kind → Bool) (deps : Finset (Text × Text)) :
    List Text :=
  sortedBag ((deps.filter fun dep => want (W.declaredKinds pkg dep.1)).val.map fun dep =>
    (W.tpLabel dep).getD [])

def Workspace.parts (pkg : Text) (merged : Merged) (want : Finset Kind → Bool) : Parts where
  firstParty := merged.firstParty.map fun entry => (entry.1, W.firstNames pkg want entry.2)
  thirdParty := merged.thirdParty.map fun entry => (entry.1, W.thirdLabels pkg want entry.2)

/-- A package as a configuration compiles it. -/
structure Crate where
  features : Finset Text
  hosts : List Text
  normal : Parts
  build : Parts
  dev : Parts
deriving DecidableEq

def Workspace.crateOf (pkg : Text) (merged : Merged) : Crate where
  features := merged.features
  hosts := sortedList (merged.firstParty.map Prod.fst)
  normal := W.parts pkg merged Native.normal
  build := W.parts pkg merged Native.build
  dev := W.parts pkg merged devOnly

def Workspace.crate (cfg pkg : Text) : Except Refusal Crate :=
  match (W.resolved cfg).lookup pkg with
  | none => .error (.unresolved pkg)
  | some merged =>
      if W.Pinned pkg merged Native.normal ∧ W.Pinned pkg merged Native.build ∧
          W.Pinned pkg merged devOnly then
        .ok (W.crateOf pkg merged)
      else .error (.notPinned pkg)

end Declared

def Parts.firstOn (parts : Parts) (host : Text) : List Text := (parts.firstParty.lookup host).getD []

def Parts.thirdOn (parts : Parts) (host : Text) : List Text := (parts.thirdParty.lookup host).getD []

def depsOf (links : PerHost Links) (pick : Links → List Text) : Deps :=
  splitHosts (links.map fun entry => (entry.1, (pick entry.2).toFinset))

def Links.deps (links : Links) : List Text := links.normal ++ links.normalThird

def Links.buildDeps (links : Links) : List Text := links.build ++ links.buildThird

/-- One key for all hosts where they link alike. -/
def keyOf (pkg : Text) (features : Finset Text) (links : PerHost Links) : Key :=
  match links with
  | [] => .byHost pkg (sorted features) []
  | (host, first) :: rest =>
      if rest.all fun entry => entry.2 = first then
        .everywhere pkg (sorted features) first
      else .byHost pkg (sorted features) ((host, first) :: rest)

inductive RuleKind where
  | library
  | buildScript
  | binary
  | test
deriving DecidableEq, Repr

/-- A target of the rendering, as far as its dependencies go. -/
structure Rule where
  kind : RuleKind
  name : Text
  package : Text
  features : List Text
  deps : Deps
deriving DecidableEq

/-- What is remembered of a package in a configuration; its dev-dependencies
only once they are visited. -/
structure Variant where
  name : Text
  features : Finset Text
  dev : Option Deps
  deps : Deps
deriving DecidableEq

structure Rendering where
  names : List (Key × Text) := []
  keys : Finmap fun _ : Text × Text => Variant := ∅
  rules : List Rule := []
  emitted : Finset Text := ∅
  labelPkg : Finmap fun _ : Text => Text := ∅
  namesWithoutLib : Finset Text := ∅
  closedAliases : Finset Text := ∅
  closedTargets : Finset Text := ∅

def buildConfig : Text := ['b', 'u', 'i', 'l', 'd']

def testConfig : Text := ['t', 'e', 's', 't']

def scriptSuffix : Text := ['-', 'b', 'u', 'i', 'l', 'd', '-', 's', 'c', 'r', 'i', 'p', 't']

/-- `{name}-build-script-build`, for a library of that name. -/
def scriptName (name : Text) : Text := name ++ scriptSuffix ++ ['-', 'b', 'u', 'i', 'l', 'd']

theorem scriptName_injective : Function.Injective scriptName := by
  intro name other h
  unfold scriptName at h
  rwa [List.append_left_inj, List.append_left_inj] at h

section Rendering

variable (W : Workspace)

def Workspace.edgeLabel (pkg name : Text) : Text :=
  if pkg ∈ W.closed then ['/', '/'] ++ W.closedPkg ++ ':' :: name else ':' :: name

/-- A closed library that is taken is given an alias. -/
def Workspace.take (pkg name : Text) (state : Rendering) : Rendering :=
  if pkg ∈ W.closed then { state with closedAliases := insert name state.closedAliases } else state

def Workspace.nameOf (cfg pkg : Text) (key : Key) : Text :=
  if cfg = buildConfig then ['r', 'u', 's', 't', '-'] ++ pkg
  else ['r', 'u', 's', 't', '-'] ++ pkg ++ ['-', '-'] ++ W.digest key

/-- `rule`: one target more, noted where its package is closed. -/
def Workspace.rule (rule : Rule) (state : Rendering) : Rendering :=
  { state with
    rules := state.rules ++ [rule]
    closedTargets :=
      if rule.package ∈ W.closed then insert rule.name state.closedTargets
      else state.closedTargets }

def Workspace.buildscript (name pkg : Text) (features : Finset Text) (buildDeps : Deps)
    (state : Rendering) : Rendering :=
  let bs := name ++ scriptSuffix
  if (W.pkgs pkg).hasBuildScript = true ∧ bs ∉ state.emitted then
    W.rule ⟨.buildScript, scriptName name, pkg, sorted features, buildDeps⟩
      { state with emitted := insert bs state.emitted }
  else state

def Workspace.emitLib (name pkg : Text) (features : Finset Text) (deps buildDeps : Deps)
    (state : Rendering) : Rendering :=
  let state := W.buildscript name pkg features buildDeps state
  if (W.pkgs pkg).hasLib then
    W.rule ⟨.library, name, pkg, sorted features, deps⟩ state
  else { state with namesWithoutLib := insert name state.namesWithoutLib }

/-- The name of a key, given and its target emitted where it has none. -/
def Workspace.intern (cfg pkg : Text) (features : Finset Text) (links : PerHost Links)
    (state : Rendering) : Rendering × Text :=
  let key := keyOf pkg features links
  match state.names.lookup key with
  | some name => (state, name)
  | none =>
      let name := W.nameOf cfg pkg key
      (W.emitLib name pkg features (depsOf links Links.deps) (depsOf links Links.buildDeps)
        { state with names := state.names ++ [(key, name)] }, name)

/-- The first-party variants of every host, visited in order. -/
def visitHosts (visit : Rendering → Text → Except Refusal (Rendering × Text)) (parts : Parts)
    (state : Rendering) (hosts : List Text) : Except Refusal (Rendering × List (List Text)) :=
  traverse (fun state host => traverse visit state (parts.firstOn host)) state hosts

def Crate.links (crate : Crate) (normal build : List (List Text)) : PerHost Links :=
  (crate.hosts.zip (normal.zip build)).map fun (host, normal, build) =>
    (host, ⟨normal, crate.normal.thirdOn host, build, crate.build.thirdOn host⟩)

def Crate.devDeps (crate : Crate) (dev : List (List Text)) : Deps :=
  splitHosts ((crate.hosts.zip dev).map fun (host, dev) =>
    (host, (dev ++ crate.dev.thirdOn host).toFinset))

/-- The package in the configuration, remembered under the name of its key. -/
def Workspace.remember (cfg pkg : Text) (crate : Crate) (links : PerHost Links)
    (state : Rendering) : Rendering × Text :=
  let (state, name) := W.intern cfg pkg crate.features links state
  (W.take pkg name { state with
    labelPkg := state.labelPkg.insert (W.edgeLabel pkg name) pkg
    keys := state.keys.insert (cfg, pkg) ⟨name, crate.features, none, depsOf links Links.deps⟩ },
    name)

/-- The same with the dev-dependencies. -/
def Workspace.finish (cfg pkg : Text) (crate : Crate) (links : PerHost Links) (name : Text)
    (dev : List (List Text)) (state : Rendering) : Rendering :=
  W.take pkg name { state with
    keys := state.keys.insert (cfg, pkg)
      ⟨name, crate.features, some (crate.devDeps dev), depsOf links Links.deps⟩ }

end Rendering

/-- `variant`, for a configuration that is not a wasm build. -/
def Workspace.variant (W : Workspace) (cfg : Text) :
    Nat → Rendering → Text → Except Refusal (Rendering × Text)
  | 0, _, _ => .error .tooDeep
  | fuel + 1, state, pkg =>
      match state.keys.lookup (cfg, pkg) with
      | some known => .ok (W.take pkg known.name state, W.edgeLabel pkg known.name)
      | none => do
          let crate ← W.crate cfg pkg
          let (state, normal) ← visitHosts (W.variant cfg fuel) crate.normal state crate.hosts
          let (state, build) ← visitHosts (W.variant cfg fuel) crate.build state crate.hosts
          let links := crate.links normal build
          let (state, name) := W.remember cfg pkg crate links state
          let (state, dev) ← visitHosts (W.variant cfg fuel) crate.dev state crate.hosts
          return (W.finish cfg pkg crate links name dev state, W.edgeLabel pkg name)

/-- Every package of the configurations, in the order they are visited. -/
def Workspace.units (W : Workspace) (cfgs : List Text) : List (Text × Text) :=
  cfgs.flatMap fun cfg =>
    (sortedList ((W.resolved cfg).map Prod.fst)).map fun pkg => (cfg, pkg)

/-- The libraries `main` renders. -/
def Workspace.variants (W : Workspace) (fuel : Nat) (cfgs : List Text) :
    Except Refusal (Rendering × List Text) :=
  traverse (fun state unit => W.variant unit.1 fuel state unit.2) {} (W.units cfgs)

end AccountDirectory.Native
