import AccountDirectory.Native.Faithful

/-! `render_third_party`: the external crates the first-party packages ask for,
each version listed once under a name of its own, and the names read back. A
crate wanted at two versions keeps its name at the newest. -/
namespace AccountDirectory.Native
open Library

/-- One entry of a package's `dependencies` in the metadata of all features. -/
structure Declared where
  name : Text
  req : Text
  path : Bool
  features : Finset Text
  usesDefaultFeatures : Bool
  target : Option Text
deriving DecidableEq

structure Package where
  name : Text
  version : Text
  dependencies : List Declared

/-- `cargo metadata --all-features`; a node has the ids its package resolved to. -/
structure Metadata where
  packages : Text → Package
  nodes : List (Text × List Text)
  locals : Finset Text

structure Want where
  features : Finset Text := ∅
  default : Bool := false
  targets : Finset (Option Text) := ∅
deriving DecidableEq

/-- The dict of dicts, by name and version. -/
abbrev Wanted := Finmap fun _ : Text × Text => Want

/-- `want.setdefault(name, {}).setdefault(version, ...)` -/
def Wanted.entry (want : Wanted) (crate : Text × Text) : Want := (want.lookup crate).getD {}

def Want.add (w : Want) (d : Declared) : Want :=
  ⟨w.features ∪ d.features, w.default || d.usesDefaultFeatures, insert d.target w.targets⟩

def Wanted.ask (d : Declared) (want : Wanted) (version : Text) : Wanted :=
  want.insert (d.name, version) ((want.entry (d.name, version)).add d)

/-- The leading components the requirement names. -/
def Declared.leading (d : Declared) : List Text :=
  ((d.req.dropWhile fun c => c = '^' ∨ c = '=' ∨ c = '~' ∨ c = ' ').splitOn '.').take 2

/-- The versions a declaration is taken to mean, of those its crate resolved to. -/
def Declared.takes (d : Declared) (versions : Finset Text) : Finset Text :=
  let meant := versions.filter fun v => (v.splitOn '.').take d.leading.length = d.leading
  if meant = ∅ then versions else meant

namespace Metadata

variable (m : Metadata)

/-- `resolved[name]`, of a node. -/
def versions (deps : List Text) (name : Text) : Finset Text :=
  ((deps.filter fun id => (m.packages id).name = name).map fun id =>
    (m.packages id).version).toFinset

def askDeclared (deps : List Text) (want : Wanted) (d : Declared) : Wanted :=
  if d.path then want
  else (sorted (d.takes (m.versions deps d.name))).foldl (Wanted.ask d) want

def askPackage (want : Wanted) (pid : Text) : Wanted :=
  match m.nodes.lookup pid with
  | none => want
  | some deps => (m.packages pid).dependencies.foldl (m.askDeclared deps) want

def want : Wanted :=
  ((sorted m.locals).insertionSort fun i j => (m.packages i).name ≤ (m.packages j).name).foldl
    m.askPackage ∅

end Metadata

/-- `int`, of a text of digits. -/
def int (text : Text) : Option Nat :=
  if text ≠ [] ∧ text.all Char.isDigit = true then some (Nat.ofDigitChars 10 text 0) else none

/-- `key`: `[int(x) for x in v.split("-")[0].split(".")]` -/
def versionKey (v : Text) : Option (List Nat) :=
  ((v.takeWhile (· ≠ '-')).splitOn '.').mapM int

def notOlder (v w : Text) : Bool := (versionKey v).getD [] ≤ (versionKey w).getD []

/-- `{name}-{major}_{minor}` -/
def olderName (name v : Text) : Text :=
  let parts := v.splitOn '.'
  name ++ '-' :: (parts.getD 0 [] ++ '_' :: parts.getD 1 [])

structure Listed where
  rename : Option Text
  name : Text
  version : Text
  default : Bool
  features : List Text
deriving DecidableEq, Repr

def Listed.key (entry : Listed) : Text := entry.rename.getD entry.name

/-- The dependency tables of the manifest: every host's, and those under a `cfg`. -/
structure Tables where
  lines : List Listed := []
  byTarget : Finmap fun _ : Text => List Listed := ∅

namespace Wanted

variable (want : Wanted)

def names : Finset Text := want.keys.image Prod.fst

def versions (name : Text) : Finset Text :=
  (want.keys.filter fun crate => crate.1 = name).image Prod.snd

/-- The versions of a crate from the oldest on. Those of one key come in no order
in Python, here in that of their texts. -/
def sortedVersions (name : Text) : List Text :=
  (sorted (want.versions name)).insertionSort fun v w => notOlder v w

def isNewest (name v : Text) : Bool := (want.sortedVersions name).getLast? = some v

def renamed (name v : Text) : Option Text :=
  if want.isNewest name v then none else some (olderName name v)

def spec (name v : Text) : Listed :=
  let w := want.entry (name, v)
  ⟨want.renamed name v, name, v, w.default, sorted w.features⟩

/-- The newest version, then the others from the oldest on. -/
def out (name : Text) : List Listed :=
  let vs := want.sortedVersions name
  (vs.drop (vs.length - 1) ++ vs.take (vs.length - 1)).map (want.spec name)

def targets (name : Text) : Finset (Option Text) :=
  (want.versions name).biUnion fun v => (want.entry (name, v)).targets

/-- A crate any version of which is taken on every host is a plain dependency. -/
def list (tables : Tables) (name : Text) : Tables :=
  if none ∈ want.targets name then { tables with lines := tables.lines ++ want.out name }
  else { tables with
    byTarget := (sorted ((want.targets name).biUnion Option.toFinset)).foldl
      (fun byTarget t => byTarget.insert t ((byTarget.lookup t).getD [] ++ want.out name))
      tables.byTarget }

/-- Every key is a list of numbers, and every older version has a minor one. -/
def Keyed : Prop :=
  ∀ crate ∈ want.keys, (versionKey crate.2).isSome = true ∧
    (want.isNewest crate.1 crate.2 = true ∨ 2 ≤ (crate.2.splitOn '.').length)

instance : Decidable want.Keyed := inferInstanceAs (Decidable (∀ crate ∈ want.keys, _))

end Wanted

/-- `render_third_party`, without a wasm build. -/
def Metadata.render (m : Metadata) : Option Tables :=
  if m.want.Keyed then some ((sorted m.want.names).foldl m.want.list {}) else none

def Tables.table (tables : Tables) : Option Text → List Listed
  | none => tables.lines
  | some t => (tables.byTarget.lookup t).getD []

/-- `third_party_names`, of the manifest's dependencies in some order. -/
def thirdPartyNames (entries : List Listed) : List ((Text × Text) × Text) :=
  entries.reverse.map fun entry => ((entry.name, entry.version), entry.key)

/-- A first-party package declares the crate `d` with features, and its declaration
is taken to mean this version. -/
def Metadata.Asks (m : Metadata) (crate : Text × Text) (d : Declared) : Prop :=
  ∃ pid ∈ m.locals, ∃ deps, m.nodes.lookup pid = some deps ∧
    d ∈ (m.packages pid).dependencies ∧ d.path = false ∧ d.name = crate.1 ∧
    crate.2 ∈ d.takes (m.versions deps d.name)

variable {m : Metadata} {want : Wanted} {tables : Tables} {crate other : Text × Text}
  {name v f : Text} {d : Declared} {t : Option Text}

section Asking

def Metadata.asked (m : Metadata) (pid : Text) : List (Declared × Text) :=
  ((m.nodes.lookup pid).toList.flatMap fun deps =>
    (m.packages pid).dependencies.flatMap fun d =>
      if d.path then [] else (sorted (d.takes (m.versions deps d.name))).map fun v => (d, v))

theorem askPackage_eq (want : Wanted) (pid : Text) :
    m.askPackage want pid = (m.asked pid).foldl (fun want ask => want.ask ask.1 ask.2) want := by
  unfold Metadata.askPackage Metadata.asked
  cases m.nodes.lookup pid with
  | none => rfl
  | some deps =>
      rw [Option.toList_some, List.flatMap_singleton, List.foldl_flatMap]
      dsimp only
      congr 1
      funext want d
      unfold Metadata.askDeclared
      split
      · rfl
      · rw [List.foldl_map]

theorem mem_asked {pid : Text} : (d, v) ∈ m.asked pid ↔ ∃ deps, m.nodes.lookup pid = some deps ∧
    d ∈ (m.packages pid).dependencies ∧ d.path = false ∧
      v ∈ d.takes (m.versions deps d.name) := by
  unfold Metadata.asked
  cases m.nodes.lookup pid with
  | none => simp
  | some deps =>
      rw [Option.toList_some, List.flatMap_singleton, List.mem_flatMap]
      constructor
      · rintro ⟨d', hd', hmem⟩
        split at hmem
        · cases hmem
        · rename_i hpath
          obtain ⟨v', hv, heq⟩ := List.mem_map.mp hmem
          cases heq
          exact ⟨deps, rfl, hd', Bool.eq_false_of_not_eq_true hpath, mem_sorted.mp hv⟩
      · rintro ⟨_, ⟨⟩, hd, hpath, hv⟩
        refine ⟨d, hd, ?_⟩
        rw [hpath]
        exact List.mem_map_of_mem (mem_sorted.mpr hv)

theorem want_gathers {α : Type} (read : Wanted → α → Prop) (adds : Declared → α → Prop)
    (hempty : ∀ a, ¬ read ∅ a) (hstep : ∀ (want : Wanted) d v a, read (want.ask d v) a ↔
      read want a ∨ crate = (d.name, v) ∧ adds d a) (a : α) :
    read m.want a ↔ ∃ d, m.Asks crate d ∧ adds d a := by
  have hpackage : ∀ want pid a, read (m.askPackage want pid) a ↔
      read want a ∨ ∃ ask ∈ m.asked pid, crate = (ask.1.name, ask.2) ∧ adds ask.1 a := by
    intro want pid a
    rw [askPackage_eq]
    exact foldl_gathers (fun (want : Wanted) (ask : Declared × Text) => want.ask ask.1 ask.2) read
      (fun want ask a => hstep want ask.1 ask.2 a) (m.asked pid) want a
  unfold Metadata.want
  rw [foldl_gathers _ read hpackage]
  constructor
  · rintro (h | ⟨pid, hpid, ⟨d, v⟩, hask, rfl, hadds⟩)
    · exact absurd h (hempty a)
    · rw [(List.perm_insertionSort ..).mem_iff, mem_sorted] at hpid
      obtain ⟨deps, hdeps, hd, hpath, hv⟩ := mem_asked.mp hask
      exact ⟨d, ⟨pid, hpid, deps, hdeps, hd, hpath, rfl, hv⟩, hadds⟩
  · rintro ⟨d, ⟨pid, hpid, deps, hdeps, hd, hpath, hname, hv⟩, hadds⟩
    refine .inr ⟨pid, ?_, (d, crate.2), mem_asked.mpr ⟨deps, hdeps, hd, hpath, hv⟩,
      Prod.ext hname.symm rfl, hadds⟩
    rw [(List.perm_insertionSort ..).mem_iff, mem_sorted]
    exact hpid

theorem entry_ask (want : Wanted) (d : Declared) (v : Text) (crate : Text × Text) :
    Wanted.entry (want.ask d v) crate =
      if crate = (d.name, v) then (want.entry crate).add d else want.entry crate := by
  unfold Wanted.ask
  by_cases hsame : crate = (d.name, v)
  · rw [if_pos hsame, hsame, Wanted.entry, Finmap.lookup_insert]
    rfl
  · rw [if_neg hsame, Wanted.entry, Finmap.lookup_insert_of_ne _ hsame]
    rfl

theorem entry_gathers {α : Type} (read : Want → α → Prop) (adds : Declared → α → Prop)
    (hempty : ∀ a, ¬ read {} a) (hadd : ∀ (w : Want) d a, read (w.add d) a ↔ read w a ∨ adds d a)
    (a : α) : read (m.want.entry crate) a ↔ ∃ d, m.Asks crate d ∧ adds d a := by
  refine want_gathers (fun want a => read (Wanted.entry want crate) a) adds hempty ?_ a
  intro want d v a
  rw [entry_ask]
  split
  · rename_i hsame
    rw [hadd, and_iff_right hsame]
  · rename_i hother
    exact (or_iff_left fun h => hother h.1).symm

theorem mem_want : crate ∈ m.want.keys ↔ ∃ d, m.Asks crate d := by
  have hgathers : crate ∈ m.want.keys ↔ ∃ d, m.Asks crate d ∧ True := by
    refine want_gathers (fun want _ => crate ∈ want.keys) (fun _ _ => True) (fun _ h => ?_) ?_ ()
    · cases h
    · intro want d v _
      rw [Finmap.mem_keys, Finmap.mem_keys, Wanted.ask, Finmap.mem_insert, or_comm, and_true]
  simpa only [and_true] using hgathers

theorem mem_targets_want :
    t ∈ (m.want.entry crate).targets ↔ ∃ d, m.Asks crate d ∧ d.target = t := by
  refine entry_gathers (fun w t => t ∈ w.targets) (fun d t => d.target = t) Finset.notMem_empty ?_ t
  intro w d t
  rw [Want.add, Finset.mem_insert, or_comm, eq_comm]

theorem mem_features_want :
    f ∈ (m.want.entry crate).features ↔ ∃ d, m.Asks crate d ∧ f ∈ d.features :=
  entry_gathers (fun w f => f ∈ w.features) (fun d f => f ∈ d.features) Finset.notMem_empty
    (fun _ _ _ => Finset.mem_union) f

theorem default_want : (m.want.entry crate).default = true ↔
    ∃ d, m.Asks crate d ∧ d.usesDefaultFeatures = true :=
  entry_gathers (fun w _ => w.default = true) (fun d _ => d.usesDefaultFeatures = true)
    (fun _ => Bool.false_ne_true) (fun _ _ _ => Bool.or_eq_true_iff) ()

end Asking

section Listing

/-- The table a crate is listed in: every host's where any version is taken on
every host, else one under each of the `cfg`s. -/
def Wanted.Under (want : Wanted) (name : Text) (t : Option Text) : Prop :=
  t ∈ want.targets name ∧ (t ≠ none → none ∉ want.targets name)

instance (want : Wanted) (name : Text) (t : Option Text) : Decidable (want.Under name t) :=
  inferInstanceAs (Decidable (_ ∧ _))

theorem lookup_extend {ts : List Text} (h : ts.Nodup) (out : List Listed)
    (byTarget : Finmap fun _ : Text => List Listed) (t : Text) :
    ((ts.foldl (fun byTarget t => byTarget.insert t ((byTarget.lookup t).getD [] ++ out))
      byTarget).lookup t).getD [] =
      (byTarget.lookup t).getD [] ++ if t ∈ ts then out else [] := by
  induction ts generalizing byTarget with
  | nil => simp
  | cons other rest ih =>
      obtain ⟨hnot, hrest⟩ := List.nodup_cons.mp h
      rw [List.foldl_cons, ih hrest, getD_lookup_insert]
      by_cases hsame : t = other
      · subst hsame
        simp [hnot]
      · simp [hsame]

theorem table_list (want : Wanted) (tables : Tables) (name : Text) (t : Option Text) :
    (want.list tables name).table t =
      tables.table t ++ if want.Under name t then want.out name else [] := by
  unfold Wanted.list Wanted.Under
  by_cases hnone : none ∈ want.targets name
  · rw [if_pos hnone]
    cases t with
    | none => simp [Tables.table, hnone]
    | some t => simp [Tables.table, hnone]
  · rw [if_neg hnone]
    cases t with
    | none => simp [Tables.table, hnone]
    | some t =>
        rw [Tables.table, lookup_extend (sorted_nodup _)]
        simp [Tables.table, hnone]

theorem table_render (h : m.render = some tables) (t : Option Text) :
    tables.table t = (sorted m.want.names).flatMap fun name =>
      if m.want.Under name t then m.want.out name else [] := by
  have hfold : ∀ (names : List Text) (start : Tables),
      (names.foldl m.want.list start).table t = start.table t ++ names.flatMap fun name =>
        if m.want.Under name t then m.want.out name else [] := by
    intro names
    induction names with
    | nil => simp
    | cons name rest ih =>
        intro start
        rw [List.foldl_cons, ih, table_list, List.append_assoc, List.flatMap_cons]
  unfold Metadata.render at h
  split at h
  · rw [← Option.some.inj h, hfold]
    cases t <;> rfl
  · cases h

theorem out_perm (want : Wanted) (name : Text) :
    (want.out name).Perm ((sorted (want.versions name)).map (want.spec name)) := by
  unfold Wanted.out
  refine List.Perm.map _ (List.perm_append_comm.trans ?_)
  rw [List.take_append_drop]
  exact List.perm_insertionSort ..

theorem mem_versions {want : Wanted} : v ∈ want.versions name ↔ (name, v) ∈ want.keys := by
  unfold Wanted.versions
  rw [Finset.mem_image]
  constructor
  · rintro ⟨⟨name', v'⟩, hmem, rfl⟩
    obtain ⟨hin, rfl⟩ := Finset.mem_filter.mp hmem
    exact hin
  · exact fun hmem => ⟨_, Finset.mem_filter.mpr ⟨hmem, rfl⟩, rfl⟩

theorem mem_out {want : Wanted} {entry : Listed} : entry ∈ want.out name ↔
    ∃ v, (name, v) ∈ want.keys ∧ entry = want.spec name v := by
  rw [(out_perm want name).mem_iff, List.mem_map]
  simp only [mem_sorted, mem_versions, eq_comm]

theorem mem_names {want : Wanted} : name ∈ want.names ↔ ∃ v, (name, v) ∈ want.keys := by
  unfold Wanted.names
  rw [Finset.mem_image]
  constructor
  · rintro ⟨⟨name, v⟩, hmem, rfl⟩
    exact ⟨v, hmem⟩
  · exact fun ⟨v, hmem⟩ => ⟨(name, v), hmem, rfl⟩

theorem mem_table (h : m.render = some tables) {entry : Listed} : entry ∈ tables.table t ↔
    ∃ name v, (name, v) ∈ m.want.keys ∧ m.want.Under name t ∧ entry = m.want.spec name v := by
  rw [table_render h, List.mem_flatMap]
  constructor
  · rintro ⟨name, -, hmem⟩
    split at hmem
    · rename_i hunder
      obtain ⟨v, hv, rfl⟩ := mem_out.mp hmem
      exact ⟨name, v, hv, hunder, rfl⟩
    · cases hmem
  · rintro ⟨name, v, hv, hunder, rfl⟩
    refine ⟨name, mem_sorted.mpr (mem_names.mpr ⟨v, hv⟩), ?_⟩
    rw [if_pos hunder]
    exact mem_out.mpr ⟨v, hv, rfl⟩

/-- Every host's table, where some version is asked for on every host; else those
of the `cfg`s some version is asked for under. -/
def Metadata.Placed (m : Metadata) (name : Text) (t : Option Text) : Prop :=
  (∃ v d, m.Asks (name, v) d ∧ d.target = t) ∧
    (t ≠ none → ¬ ∃ v d, m.Asks (name, v) d ∧ d.target = none)

theorem mem_targets_iff : t ∈ m.want.targets name ↔ ∃ v d, m.Asks (name, v) d ∧ d.target = t := by
  unfold Wanted.targets
  rw [Finset.mem_biUnion]
  constructor
  · rintro ⟨v, -, ht⟩
    exact ⟨v, mem_targets_want.mp ht⟩
  · rintro ⟨v, d, hasks, ht⟩
    exact ⟨v, mem_versions.mpr (mem_want.mpr ⟨d, hasks⟩), mem_targets_want.mpr ⟨d, hasks, ht⟩⟩

theorem under_iff : m.want.Under name t ↔ m.Placed name t := by
  unfold Wanted.Under Metadata.Placed
  rw [mem_targets_iff, mem_targets_iff]

theorem nodup_of_perm_map {α β : Type} {xs ys : List α} {f : α → β} (h : xs.Perm ys)
    (hys : (ys.map f).Nodup) : (xs.map f).Nodup :=
  (h.map f).nodup_iff.mpr hys

/-- No table lists a version of a crate twice. -/
theorem table_nodup (h : m.render = some tables) (t : Option Text) :
    ((tables.table t).map fun entry => (entry.name, entry.version)).Nodup := by
  rw [table_render h, List.map_flatMap, List.nodup_flatMap]
  have hmem : ∀ {name : Text} {crate : Text × Text}, crate ∈ (if m.want.Under name t then
      m.want.out name else []).map (fun entry => (entry.name, entry.version)) → crate.1 = name := by
    intro name crate hcrate
    obtain ⟨entry, hentry, rfl⟩ := List.mem_map.mp hcrate
    split at hentry
    · obtain ⟨v, -, rfl⟩ := mem_out.mp hentry
      rfl
    · cases hentry
  constructor
  · intro name _
    split
    · refine nodup_of_perm_map (out_perm m.want name) ?_
      rw [List.map_map]
      exact (sorted_nodup _).map fun _ _ heq => (Prod.mk.inj heq).2
    · exact List.nodup_nil
  · refine (sorted_nodup _).imp fun hne => ?_
    exact fun crate hleft hright => hne ((hmem hleft).symm.trans (hmem hright))

def Sample.metadata : Metadata where
  packages id :=
    if id = "app".toList then
      ⟨id, "0.1.0".toList, [⟨"axum".toList, "^0.8".toList, false, {"macros".toList}, true, none⟩,
        ⟨"core".toList, "*".toList, true, ∅, true, none⟩]⟩
    else if id = "core".toList then
      ⟨id, "0.1.0".toList, [⟨"axum".toList, "^0.7".toList, false, ∅, true, none⟩]⟩
    else if id = "axum-8".toList then ⟨"axum".toList, "0.8.9".toList, []⟩
    else ⟨"axum".toList, "0.7.9".toList, []⟩
  nodes :=
    [("app".toList, ["axum-8".toList, "core".toList]), ("core".toList, ["axum-7".toList])]
  locals := {"app".toList, "core".toList}

theorem Sample.wanted : Sample.metadata.want.keys =
    {("axum".toList, "0.7.9".toList), ("axum".toList, "0.8.9".toList)} := by
  decide +kernel

end Listing

section Names

/-- The versions cargo resolves to have three numbers, which tell those of one
crate apart. -/
structure Metadata.Semver (m : Metadata) : Prop where
  key : ∀ crate d, m.Asks crate d → ∃ key, versionKey crate.2 = some key ∧ key.length = 3
  apart : ∀ name v w d d', m.Asks (name, v) d → m.Asks (name, w) d' →
    versionKey v = versionKey w → v = w

/-- No other version asked for is newer. -/
def Metadata.Newest (m : Metadata) (crate : Text × Text) : Prop :=
  ∀ v d, m.Asks (crate.1, v) d → notOlder v crate.2 = true

instance : Std.Total fun v w => notOlder v w = true :=
  ⟨fun v w => by simpa only [notOlder, decide_eq_true_eq] using le_total _ _⟩

instance : IsTrans Text fun v w => notOlder v w = true :=
  ⟨fun v w x => by simpa only [notOlder, decide_eq_true_eq] using le_trans⟩

theorem mapM_int {xs : List Text} {ns : List Nat} (h : xs.mapM int = some ns) :
    xs.length = ns.length ∧ ∀ x ∈ xs, x.all Char.isDigit = true := by
  induction xs generalizing ns with
  | nil =>
      cases h
      exact ⟨rfl, List.forall_mem_nil _⟩
  | cons x xs ih =>
      rw [List.mapM_cons] at h
      obtain ⟨n, hn, h⟩ := Option.bind_eq_some_iff.mp h
      obtain ⟨rest, hrest, h⟩ := Option.bind_eq_some_iff.mp h
      cases h
      obtain ⟨hlength, hall⟩ := ih hrest
      unfold int at hn
      split at hn
      · rename_i hdigits
        exact ⟨congrArg (· + 1) hlength, List.forall_mem_cons.mpr ⟨hdigits.2, hall⟩⟩
      · cases hn

theorem not_mem_of_digits {text : Text} (h : text.all Char.isDigit = true) {c : Char}
    (hc : c.isDigit = false) : c ∉ text := by
  intro hmem
  rw [List.all_eq_true.mp h c hmem] at hc
  cases hc

theorem parts_of_key {key : List Nat} (h : versionKey v = some key) (hlength : key.length = 3) :
    ∃ major minor rest, v.splitOn '.' = major :: minor :: rest ∧
      major.all Char.isDigit = true ∧ minor.all Char.isDigit = true := by
  obtain ⟨hcount, hdigits⟩ := mapM_int h
  rw [hlength] at hcount
  obtain ⟨major, minor, patch, hparts⟩ := List.length_eq_three.mp hcount
  rw [hparts] at hdigits
  have hmajor := hdigits major (by simp)
  have hminor := hdigits minor (by simp)
  have hdot : Char.isDigit '.' = false := by decide
  have hcore : v.takeWhile (· ≠ '-') = major ++ '.' :: (minor ++ '.' :: patch) := by
    have hjoined : ['.'].intercalate ((v.takeWhile (· ≠ '-')).splitOn '.') =
        v.takeWhile (· ≠ '-') := List.intercalate_splitOn '.'
    rw [← hjoined, hparts, List.intercalate_cons_cons, List.intercalate_cons_cons,
      List.intercalate_singleton]
    simp only [List.append_assoc, List.singleton_append]
  have hv : v = major ++ '.' :: (minor ++ '.' :: (patch ++ v.dropWhile (· ≠ '-'))) := by
    conv_lhs => rw [← List.takeWhile_append_dropWhile (p := (· ≠ '-')) (l := v), hcore]
    simp only [List.append_assoc, List.cons_append]
  refine ⟨major, minor, (patch ++ v.dropWhile (· ≠ '-')).splitOn '.', ?_, hmajor, hminor⟩
  rw [hv, List.splitOn_append_cons_self, List.splitOn_append_cons_self,
    List.splitOn_eq_singleton (not_mem_of_digits hmajor hdot),
    List.splitOn_eq_singleton (not_mem_of_digits hminor hdot), ← hv]
  rfl

theorem mem_sortedVersions {want : Wanted} :
    v ∈ want.sortedVersions name ↔ (name, v) ∈ want.keys := by
  unfold Wanted.sortedVersions
  rw [(List.perm_insertionSort ..).mem_iff, mem_sorted, mem_versions]

theorem eq_of_notOlder (hsemver : m.Semver) {w : Text} {d' : Declared} (h : m.Asks (name, v) d)
    (h' : m.Asks (name, w) d') (hle : notOlder v w = true) (hge : notOlder w v = true) : v = w := by
  obtain ⟨key, hkey, -⟩ := hsemver.key _ d h
  obtain ⟨key', hkey', -⟩ := hsemver.key _ d' h'
  dsimp only at hkey hkey'
  unfold notOlder at hle hge
  rw [hkey, hkey', decide_eq_true_eq] at hle hge
  refine hsemver.apart name v w d d' h h' ?_
  rw [hkey, hkey']
  exact congrArg some (le_antisymm hle hge)

theorem isNewest_iff (hsemver : m.Semver) (h : m.Asks (name, v) d) :
    m.want.isNewest name v = true ↔ m.Newest (name, v) := by
  have hsorted : (m.want.sortedVersions name).Pairwise fun v w => notOlder v w = true :=
    List.pairwise_insertionSort ..
  have hmem : v ∈ m.want.sortedVersions name := mem_sortedVersions.mpr (mem_want.mpr ⟨d, h⟩)
  have hlast : ∀ w d, m.Asks (name, w) d → notOlder w
      ((m.want.sortedVersions name).getLast (List.ne_nil_of_mem hmem)) = true := by
    intro w d hw
    refine hsorted.rel_getLast_of_rel_getLast_getLast
      (mem_sortedVersions.mpr (mem_want.mpr ⟨d, hw⟩)) ?_
    unfold notOlder
    exact decide_eq_true le_rfl
  unfold Wanted.isNewest Metadata.Newest
  rw [decide_eq_true_eq, List.getLast?_eq_some_getLast (List.ne_nil_of_mem hmem), Option.some.injEq]
  constructor
  · intro heq w d hw
    have hnewer := hlast w d hw
    rwa [heq] at hnewer
  · intro hnewest
    obtain ⟨d', hd'⟩ := mem_want.mp (mem_sortedVersions.mp
      (List.getLast_mem (List.ne_nil_of_mem hmem)))
    have hle := hnewest _ d' hd'
    have hge := hlast v d h
    exact eq_of_notOlder hsemver hd' h hle hge

/-- What cannot be told apart: an older version named as another crate is, or two
older versions with one major and minor number. -/
def Metadata.Clash (m : Metadata) (crate other : Text × Text) : Prop :=
  ¬ m.Newest other ∧ (m.Newest crate ∧ crate.1 = olderName other.1 other.2 ∨
    ¬ m.Newest crate ∧ crate.1 = other.1 ∧
      (crate.2.splitOn '.').take 2 = (other.2.splitOn '.').take 2)

theorem olderName_inj (hsemver : m.Semver) {d' : Declared} (h : m.Asks crate d)
    (h' : m.Asks other d') : olderName crate.1 crate.2 = olderName other.1 other.2 ↔
      crate.1 = other.1 ∧ (crate.2.splitOn '.').take 2 = (other.2.splitOn '.').take 2 := by
  obtain ⟨key, hkey, hlength⟩ := hsemver.key _ d h
  obtain ⟨key', hkey', hlength'⟩ := hsemver.key _ d' h'
  obtain ⟨major, minor, rest, hparts, hmajor, hminor⟩ := parts_of_key hkey hlength
  obtain ⟨major', minor', rest', hparts', hmajor', hminor'⟩ := parts_of_key hkey' hlength'
  have hdash : Char.isDigit '-' = false := by decide
  have hline : Char.isDigit '_' = false := by decide
  have hnodash : ∀ {major minor : Text}, major.all Char.isDigit = true →
      minor.all Char.isDigit = true → '-' ∉ major ++ '_' :: minor := by
    intro major minor hmajor hminor hmem
    rcases List.mem_append.mp hmem with hmem | hmem
    · exact not_mem_of_digits hmajor hdash hmem
    · rcases List.mem_cons.mp hmem with heq | hmem
      · exact absurd heq (by decide)
      · exact not_mem_of_digits hminor hdash hmem
  unfold olderName
  rw [hparts, hparts']
  simp only [List.getD_cons_zero, List.getD_cons_succ, List.take_succ_cons, List.take_zero,
    List.cons.injEq, and_true]
  constructor
  · intro heq
    obtain ⟨hname, hnumbers⟩ := split_last (hnodash hmajor hminor) (hnodash hmajor' hminor') heq
    exact ⟨hname, split_first (not_mem_of_digits hmajor hline) (not_mem_of_digits hmajor' hline)
      hnumbers⟩
  · rintro ⟨hname, rfl, rfl⟩
    rw [hname]

theorem spec_key (hsemver : m.Semver) (h : m.Asks crate d) :
    (m.Newest crate → (m.want.spec crate.1 crate.2).key = crate.1) ∧
      (¬ m.Newest crate → (m.want.spec crate.1 crate.2).key = olderName crate.1 crate.2) := by
  have hnewest := isNewest_iff hsemver h
  unfold Wanted.spec Listed.key Wanted.renamed
  constructor
  · intro hnew
    rw [if_pos (hnewest.mpr hnew)]
    rfl
  · intro hold
    rw [if_neg fun hnew => hold (hnewest.mp hnew)]
    rfl

theorem spec_key_eq_iff (hsemver : m.Semver) {d' : Declared} (h : m.Asks crate d)
    (h' : m.Asks other d') :
    (m.want.spec crate.1 crate.2).key = (m.want.spec other.1 other.2).key ↔
      crate = other ∨ m.Clash crate other ∨ m.Clash other crate := by
  obtain ⟨hnew, hold⟩ := spec_key hsemver h
  obtain ⟨hnew', hold'⟩ := spec_key hsemver h'
  have hinj := olderName_inj hsemver h h'
  unfold Metadata.Clash
  by_cases hn : m.Newest crate <;> by_cases hn' : m.Newest other
  · rw [hnew hn, hnew' hn']
    simp only [hn, hn', not_true, false_and, or_false]
    constructor
    · intro hname
      have hcrate : m.Asks (other.1, crate.2) d := hname ▸ h
      exact Prod.ext hname (eq_of_notOlder hsemver hcrate h' (hn' _ d hcrate)
        (hn _ d' (hname.symm ▸ h')))
    · exact fun heq => congrArg Prod.fst heq
  · rw [hnew hn, hold' hn']
    simp only [hn, hn', not_true, not_false_eq_true, true_and, false_and, or_false]
    exact (or_iff_right fun heq : crate = other => hn' (heq ▸ hn)).symm
  · rw [hold hn, hnew' hn', eq_comm]
    simp only [hn, hn', not_true, not_false_eq_true, true_and, false_and, or_false, false_or]
    exact (or_iff_right fun heq : crate = other => hn (heq ▸ hn')).symm
  · rw [hold hn, hold' hn', hinj]
    simp only [hn, hn', not_false_eq_true, true_and, false_and, false_or]
    constructor
    · exact fun hsame => .inr (.inl hsame)
    · rintro (rfl | hsame | hsame)
      · exact ⟨rfl, rfl⟩
      · exact hsame
      · exact ⟨hsame.1.symm, hsame.2.symm⟩

theorem render_of_semver (hsemver : m.Semver) : ∃ tables, m.render = some tables := by
  have hkeyed : m.want.Keyed := by
    intro crate hcrate
    obtain ⟨d, hasks⟩ := mem_want.mp hcrate
    obtain ⟨key, hkey, hlength⟩ := hsemver.key crate d hasks
    obtain ⟨major, minor, rest, hparts, -⟩ := parts_of_key hkey hlength
    refine ⟨Option.isSome_of_eq_some hkey, .inr ?_⟩
    rw [hparts]
    simp
  exact ⟨_, if_pos hkeyed⟩

theorem exists_placed (h : m.Asks crate d) : ∃ t, m.Placed crate.1 t := by
  by_cases hnone : ∃ v d, m.Asks (crate.1, v) d ∧ d.target = none
  · exact ⟨none, hnone, fun hne => absurd rfl hne⟩
  · exact ⟨d.target, ⟨crate.2, d, h, rfl⟩, fun _ => hnone⟩

theorem lookup_of_forall {α β : Type} [BEq α] [LawfulBEq α] {entries : List (α × β)}
    (f : α → β) (h : ∀ entry ∈ entries, entry.2 = f entry.1) (a : α) (b : β) :
    entries.lookup a = some b ↔ a ∈ entries.map Prod.fst ∧ f a = b := by
  induction entries with
  | nil => simp
  | cons entry rest ih =>
      rw [List.forall_mem_cons] at h
      rw [List.lookup_cons, List.map_cons, List.mem_cons]
      by_cases hsame : a = entry.1
      · simp [hsame, h.1]
      · rw [beq_eq_false_iff_ne.mpr hsame]
        simp only [ih h.2, hsame, false_or]

theorem of_mem_table (h : m.render = some tables) {entry : Listed} (hmem : entry ∈ tables.table t) :
    ∃ d, m.Asks (entry.name, entry.version) d ∧
      (m.want.spec entry.name entry.version).key = entry.key := by
  obtain ⟨name, v, hv, -, heq⟩ := (mem_table h).mp hmem
  obtain ⟨d, hasks⟩ := mem_want.mp hv
  have hname : entry.name = name := congrArg Listed.name heq
  have hversion : entry.version = v := congrArg Listed.version heq
  rw [hname, hversion, heq]
  exact ⟨d, hasks, rfl⟩

/-- The names the manifest gives are read back of every table at once. -/
theorem lookup_thirdPartyNames (h : m.render = some tables) {entries : List Listed}
    (hentries : ∀ entry, entry ∈ entries ↔ ∃ t, entry ∈ tables.table t) (crate : Text × Text)
    (key : Text) :
    (thirdPartyNames entries).lookup crate = some key ↔
      (∃ d, m.Asks crate d) ∧ (m.want.spec crate.1 crate.2).key = key := by
  have hspec : ∀ entry ∈ entries, ∃ d, m.Asks (entry.name, entry.version) d ∧
      (m.want.spec entry.name entry.version).key = entry.key := by
    intro entry hentry
    obtain ⟨t, hmem⟩ := (hentries entry).mp hentry
    exact of_mem_table h hmem
  have hvalues : ∀ named ∈ thirdPartyNames entries,
      named.2 = (m.want.spec named.1.1 named.1.2).key := by
    intro named hnamed
    obtain ⟨entry, hentry, rfl⟩ := List.mem_map.mp hnamed
    dsimp only
    exact (hspec entry (List.mem_reverse.mp hentry)).choose_spec.2.symm
  have hkeys : crate ∈ (thirdPartyNames entries).map Prod.fst ↔ ∃ d, m.Asks crate d := by
    unfold thirdPartyNames
    rw [List.map_map, List.mem_map]
    constructor
    · rintro ⟨entry, hentry, rfl⟩
      exact (hspec entry (List.mem_reverse.mp hentry)).imp fun _ h => h.1
    · rintro ⟨d, hasks⟩
      obtain ⟨t, hplaced⟩ := exists_placed hasks
      have hmem : m.want.spec crate.1 crate.2 ∈ tables.table t :=
        (mem_table h).mpr ⟨crate.1, crate.2, mem_want.mpr ⟨d, hasks⟩, under_iff.mpr hplaced, rfl⟩
      exact ⟨_, List.mem_reverse.mpr ((hentries _).mpr ⟨t, hmem⟩), rfl⟩
  have hlookup := lookup_of_forall (fun crate : Text × Text => (m.want.spec crate.1 crate.2).key)
    hvalues crate key
  exact hlookup.trans (and_congr_left fun _ => hkeys)

theorem Sample.semver : Sample.metadata.Semver where
  key crate d h := by
    have hall : ∀ crate ∈ Sample.metadata.want.keys,
        (versionKey crate.2).map List.length = some 3 := by
      decide +kernel
    exact Option.map_eq_some_iff.mp (hall crate (mem_want.mpr ⟨d, h⟩))
  apart name v w d d' h h' heq := by
    have hall : ∀ crate ∈ Sample.metadata.want.keys, ∀ other ∈ Sample.metadata.want.keys,
        versionKey crate.2 = versionKey other.2 → crate = other := by
      decide +kernel
    exact congrArg Prod.snd (hall _ (mem_want.mpr ⟨d, h⟩) _ (mem_want.mpr ⟨d', h'⟩) heq)

end Names

end AccountDirectory.Native
