import AccountDirectory.Library.Acyclic
import AccountDirectory.Native.Faithful

/-! Which packages get one target: those that are compiled alike all the way
down, and no others; and when two targets could get one name. -/
namespace AccountDirectory.Native
open Library

variable {W : Workspace} {cfg pkg name label host : Text} {crate : Crate} {known : Variant}
  {state : Rendering} {links others : PerHost Links} {features : Finset Text} {fuel : Nat}
  {cfgs labels hosts : List Text} {merged : Merged}

/-- A package is compiled against another, on some host. -/
def Workspace.Compiles (W : Workspace) (cfg pkg dep : Text) : Prop :=
  ∃ merged, (pkg, merged) ∈ W.resolved cfg ∧ ∃ host,
    dep ∈ (W.parts pkg merged Native.normal).firstOn host ∨
      dep ∈ (W.parts pkg merged Native.build).firstOn host

/-- Packages of configurations that are related have the same name, features and
third-party dependencies, and take related packages on every host. -/
def Workspace.Matches (W : Workspace) (hosts : List Text)
    (alike : Text × Text → Text × Text → Prop) : Prop :=
  ∀ one other, alike one other → one.2 = other.2 ∧ ∃ merged merged',
    (one.2, merged) ∈ W.resolved one.1 ∧ (other.2, merged') ∈ W.resolved other.1 ∧
    merged.features = merged'.features ∧
    ∀ host ∈ hosts, ∀ want ∈ [Native.normal, Native.build],
      (W.parts one.2 merged want).thirdOn host = (W.parts other.2 merged' want).thirdOn host ∧
      List.Forall₂ (fun dep dep' => alike (one.1, dep) (other.1, dep'))
        ((W.parts one.2 merged want).firstOn host) ((W.parts other.2 merged' want).firstOn host)

section Matching

theorem edgeLabel_injective {pkg' name' : Text}
    (h : W.edgeLabel pkg name = W.edgeLabel pkg' name') : name = name' := by
  have hne : (':' : Char) ≠ '/' := by decide
  unfold Workspace.edgeLabel at h
  split at h <;> split at h
  · rw [List.append_assoc, List.append_assoc, List.append_cancel_left_eq,
      List.append_cancel_left_eq] at h
    exact (List.cons.inj h).2
  · exact absurd (List.cons.inj h).1.symm hne
  · exact absurd (List.cons.inj h).1 hne
  · exact (List.cons.inj h).2

theorem eq_of_forall₂ {α β γ : Type} {R : α → β → Prop} {S : α → γ → Prop} {T : β → γ → Prop}
    {xs : List α} {ys : List β} {as bs : List γ} (hR : List.Forall₂ R xs ys)
    (hS : List.Forall₂ S xs as) (hT : List.Forall₂ T ys bs)
    (h : ∀ x ∈ xs, ∀ y a b, R x y → S x a → T y b → a = b) : as = bs := by
  induction hR generalizing as bs with
  | nil =>
      cases hS
      cases hT
      rfl
  | cons hxy _ ih =>
      cases hS with
      | cons ha hS =>
          cases hT with
          | cons hb hT =>
              rw [List.forall_mem_cons] at h
              rw [h.1 _ _ _ hxy ha hb, ih hS hT h.2]

theorem forall₂_of_common {α β γ : Type} {S : α → γ → Prop} {T : β → γ → Prop} {xs : List α}
    {ys : List β} {as : List γ} (hS : List.Forall₂ S xs as) (hT : List.Forall₂ T ys as) :
    List.Forall₂ (fun x y => ∃ a, S x a ∧ T y a) xs ys := by
  induction hS generalizing ys with
  | nil =>
      cases hT
      exact .nil
  | cons hx _ ih =>
      cases hT with
      | cons hy hT => exact .cons ⟨_, hx, hy⟩ (ih hT)

/-- One key, one way of linking on every host. -/
theorem link_of_keyOf {pkg' : Text} {features' : Finset Text}
    (h : keyOf pkg features links = keyOf pkg' features' others) (hdict : links.IsDict)
    {link link' : Links} (hmem : (host, link) ∈ links) (hmem' : (host, link') ∈ others) :
    link = link' := by
  rcases keyOf_cases pkg features links with ⟨first, halike, hkey⟩ | hkey <;>
    rcases keyOf_cases pkg' features' others with ⟨first', halike', hkey'⟩ | hkey' <;>
      rw [hkey, hkey'] at h
  · obtain ⟨-, -, rfl⟩ := Key.everywhere.inj h
    exact (halike.2 _ hmem).trans (halike'.2 _ hmem').symm
  · cases h
  · cases h
  · obtain ⟨-, -, rfl⟩ := Key.byHost.inj h
    rw [← lookup_eq_some_iff_mem hdict] at hmem hmem'
    exact Option.some.inj (hmem.symm.trans hmem')

theorem mem_of_mem_firstOn {parts : Parts} {dep : Text} (h : dep ∈ parts.firstOn host) :
    dep ∈ parts.firstParty.flatMap Prod.snd := by
  unfold Parts.firstOn at h
  cases hlookup : parts.firstParty.lookup host with
  | none =>
      rw [hlookup] at h
      cases h
  | some deps =>
      rw [hlookup, Option.getD_some] at h
      obtain ⟨before, after, hsplit, -⟩ := List.lookup_eq_some_iff.mp hlookup
      rw [List.mem_flatMap]
      exact ⟨(host, deps), by rw [hsplit]; simp, h⟩

/-- The edges of a configuration lead into a finite set. -/
theorem Workspace.compiles_finite (W : Workspace) (cfg : Text) :
    ∃ nodes : Finset Text, ∀ pkg dep, W.Compiles cfg pkg dep → dep ∈ nodes := by
  refine ⟨((W.resolved cfg).flatMap fun entry =>
    (W.parts entry.1 entry.2 Native.normal).firstParty.flatMap Prod.snd ++
      (W.parts entry.1 entry.2 Native.build).firstParty.flatMap Prod.snd).toFinset, ?_⟩
  rintro pkg dep ⟨merged, hmem, host, hdep⟩
  rw [List.mem_toFinset, List.mem_flatMap]
  refine ⟨(pkg, merged), hmem, ?_⟩
  rw [List.mem_append]
  exact hdep.imp mem_of_mem_firstOn mem_of_mem_firstOn

end Matching

section Sharing

variable {cfg' : Text} {crate' : Crate} {known' : Variant}

/-- Packages that match have one name: by induction along what they are compiled
against, they are linked alike, so they have one key. -/
theorem name_eq_of_matches (hdicts : W.Dicts) {alike : Text × Text → Text × Text → Prop}
    (hhosts : ∀ cfg, ∀ entry ∈ W.resolved cfg, entry.2.firstParty.map Prod.fst = hosts)
    (halike : W.Matches hosts alike) {rank : Text → Nat}
    (hrank : ∀ pkg dep, W.Compiles cfg pkg dep → rank dep < rank pkg) (hsound : W.Sound state) :
    ∀ pkg pkg' known known', alike (cfg, pkg) (cfg', pkg') →
      state.keys.lookup (cfg, pkg) = some known → state.keys.lookup (cfg', pkg') = some known' →
        known.name = known'.name := by
  intro pkg
  induction hn : rank pkg using Nat.strongRecOn generalizing pkg with
  | ind n ih =>
    intro pkg' known known' hrelated hlookup hlookup'
    obtain ⟨hpkg, merged, merged', hmerged, hmerged', hfeatures, hmatch⟩ :=
      halike _ _ hrelated
    obtain rfl : pkg = pkg' := hpkg
    obtain ⟨crate, links, hknown⟩ := hsound.known hlookup
    obtain ⟨crate', links', hknown'⟩ := hsound.known hlookup'
    obtain ⟨-, rfl⟩ := hknown.crateOf hdicts hmerged
    obtain ⟨-, rfl⟩ := hknown'.crateOf hdicts hmerged'
    have hsame : (W.crateOf pkg merged').hosts = (W.crateOf pkg merged).hosts := by
      rw [Workspace.crateOf, Workspace.crateOf, hhosts cfg _ hmerged, hhosts cfg' _ hmerged']
    have hin : ∀ host ∈ (W.crateOf pkg merged).hosts, host ∈ hosts := by
      intro host hhost
      rw [← hhosts cfg _ hmerged]
      exact mem_sortedList.mp hhost
    -- what is visited of one kind has the same labels in both configurations
    have hvisited : ∀ want ∈ [Native.normal, Native.build], ∀ labels labels',
        (∀ host dep, dep ∈ (W.parts pkg merged want).firstOn host → W.Compiles cfg pkg dep) →
        W.Visited cfg state (W.parts pkg merged want) (W.crateOf pkg merged).hosts labels →
        W.Visited cfg' state (W.parts pkg merged' want) (W.crateOf pkg merged).hosts labels' →
          labels = labels' := by
      intro want hwant labels labels' hedge hvisited hvisited'
      refine eq_of_forall₂ (R := fun host host' => host = host')
        (List.forall₂_same.mpr fun _ _ => rfl) hvisited hvisited' ?_
      rintro host hhost _ ones others rfl hones hothers
      refine eq_of_forall₂ (hmatch host (hin host hhost) want hwant).2 hones hothers ?_
      rintro dep hdep dep' label label' hdeps ⟨knownDep, hlookupDep, rfl⟩
        ⟨knownDep', hlookupDep', rfl⟩
      have hname := ih _ (hn ▸ hrank pkg dep (hedge host dep hdep)) dep rfl dep' _ _ hdeps
        hlookupDep hlookupDep'
      obtain rfl : dep = dep' := (halike _ _ hdeps).1
      rw [hname]
    obtain ⟨normal, build, hnormal, hbuild, rfl⟩ := hknown.linked
    obtain ⟨normal', build', hnormal', hbuild', rfl⟩ := hknown'.linked
    rw [hsame] at hnormal' hbuild'
    obtain rfl := hvisited Native.normal (by simp) normal normal'
      (fun host dep hdep => ⟨merged, hmerged, host, .inl hdep⟩) hnormal hnormal'
    obtain rfl := hvisited Native.build (by simp) build build'
      (fun host dep hdep => ⟨merged, hmerged, host, .inr hdep⟩) hbuild hbuild'
    have hlinks : (W.crateOf pkg merged).links normal build =
        (W.crateOf pkg merged').links normal build := by
      unfold Crate.links
      rw [hsame]
      refine List.map_congr_left fun entry hentry => ?_
      have hhost := hin entry.1 (List.of_mem_zip hentry).1
      have hthird := (hmatch entry.1 hhost Native.normal (by simp)).1
      have hthird' := (hmatch entry.1 hhost Native.build (by simp)).1
      dsimp only [Workspace.crateOf]
      rw [hthird, hthird']
    have hname := hknown.named
    have hname' := hknown'.named
    rw [← hlinks, show (W.crateOf pkg merged').features = (W.crateOf pkg merged).features from
      hfeatures.symm, hname] at hname'
    exact Option.some.inj hname'

def Rendering.SameName (state : Rendering) (one other : Text × Text) : Prop :=
  ∃ known known', state.keys.lookup one = some known ∧ state.keys.lookup other = some known' ∧
    known.name = known'.name

/-- Packages of one name match: their key says all that is compared. -/
theorem sameName_matches (hdicts : W.Dicts) (hsound : W.Sound state)
    (hhosts : ∀ cfg, ∀ entry ∈ W.resolved cfg, entry.2.firstParty.map Prod.fst = hosts)
    (hnames : (state.names.map Prod.snd).Nodup) : W.Matches hosts state.SameName := by
  rintro ⟨cfg, pkg⟩ ⟨cfg', pkg'⟩ ⟨known, known', hlookup, hlookup', hname⟩
  obtain ⟨crate, links, hknown⟩ := hsound.known hlookup
  obtain ⟨crate', links', hknown'⟩ := hsound.known hlookup'
  obtain ⟨merged, hmerged, -, rfl⟩ := crate_ok hknown.resolves
  obtain ⟨merged', hmerged', -, rfl⟩ := crate_ok hknown'.resolves
  rw [lookup_eq_some_iff_mem (hdicts.resolved _)] at hmerged hmerged'
  have hkey := eq_of_nodup_snd hnames (hname ▸ mem_of_lookup hknown.named)
    (mem_of_lookup hknown'.named)
  have hdict := (hknown.needs hdicts hmerged).1
  obtain ⟨rfl, hfeatures, -⟩ := on_depsOf_of_keyOf hkey (hknown'.needs hdicts hmerged').1
  refine ⟨rfl, merged, merged', hmerged, hmerged', hfeatures, ?_⟩
  obtain ⟨hkeys, hall⟩ := hknown.linked.spec
  obtain ⟨hkeys', hall'⟩ := hknown'.linked.spec
  have hfind : ∀ {links : PerHost Links} {merged : Merged},
      links.map Prod.fst = (W.crateOf pkg merged).hosts →
      merged.firstParty.map Prod.fst = hosts → ∀ host ∈ hosts, ∃ link, (host, link) ∈ links := by
    intro links merged hkeys hmine host hhost
    have hin : host ∈ links.map Prod.fst := by
      rw [hkeys]
      exact mem_sortedList.mpr (hmine ▸ hhost)
    obtain ⟨⟨other, link⟩, hlink, hother⟩ := List.mem_map.mp hin
    obtain rfl : other = host := hother
    exact ⟨link, hlink⟩
  have hdeps : ∀ {deps deps' labels : List Text},
      List.Forall₂ (W.Labelled cfg state) deps labels →
      List.Forall₂ (W.Labelled cfg' state) deps' labels →
        List.Forall₂ (fun dep dep' => state.SameName (cfg, dep) (cfg', dep')) deps deps' := by
    intro deps deps' labels hones hothers
    refine (forall₂_of_common hones hothers).imp ?_
    rintro dep dep' ⟨label, ⟨known, hknown, rfl⟩, ⟨known', hknown', hlabel⟩⟩
    exact ⟨known, known', hknown, hknown', edgeLabel_injective hlabel⟩
  intro host hhost want hwant
  obtain ⟨link, hlink⟩ := hfind hkeys (hhosts _ _ hmerged) host hhost
  obtain ⟨link', hlink'⟩ := hfind hkeys' (hhosts _ _ hmerged') host hhost
  obtain rfl := link_of_keyOf hkey hdict hlink hlink'
  obtain ⟨hnormal, hthird, hbuild, hthird'⟩ := hall _ hlink
  obtain ⟨hnormal', hthird₂, hbuild', hthird₂'⟩ := hall' _ hlink'
  rcases List.mem_pair.mp hwant with rfl | rfl
  · exact ⟨hthird.symm.trans hthird₂, hdeps hnormal hnormal'⟩
  · exact ⟨hthird'.symm.trans hthird₂', hdeps hbuild hbuild'⟩

end Sharing

section Rendered

variable {cfg' pkg' : Text} {state : Rendering}

/-- Two packages of configurations get one target exactly when they are compiled
alike: with the same features and third-party crates on every host, and against
packages of which the same is true, all the way down. -/
theorem variants_share_iff (hdicts : W.Dicts)
    (hhosts : ∀ cfg, ∀ entry ∈ W.resolved cfg, entry.2.firstParty.map Prod.fst = hosts)
    (hacyclic : Acyclic (W.Compiles cfg)) (hok : W.variants fuel cfgs = .ok (state, labels))
    (hnames : (state.names.map Prod.snd).Nodup) (hcfg : cfg ∈ cfgs) (hcfg' : cfg' ∈ cfgs)
    (hpkg : pkg ∈ (W.resolved cfg).map Prod.fst) (hpkg' : pkg' ∈ (W.resolved cfg').map Prod.fst) :
    state.SameName (cfg, pkg) (cfg', pkg') ↔
      ∃ alike, W.Matches hosts alike ∧ alike (cfg, pkg) (cfg', pkg') := by
  obtain ⟨hsound, hall⟩ := variants_spec hok
  constructor
  · exact fun hsame => ⟨state.SameName, sameName_matches hdicts hsound hhosts hnames, hsame⟩
  · rintro ⟨alike, halike, hrelated⟩
    obtain ⟨nodes, hnodes⟩ := W.compiles_finite cfg
    obtain ⟨rank, -, hrank⟩ := hacyclic.exists_rank nodes hnodes
    obtain ⟨known, -, hlookup, -⟩ := hall cfg hcfg pkg hpkg
    obtain ⟨known', -, hlookup', -⟩ := hall cfg' hcfg' pkg' hpkg'
    exact ⟨known, known', hlookup, hlookup', name_eq_of_matches hdicts hhosts halike hrank hsound
      pkg pkg' known known' hrelated hlookup hlookup'⟩

theorem Sample.onHosts (cfg : Text) : ∀ entry ∈ Sample.workspace.resolved cfg,
    entry.2.firstParty.map Prod.fst = ["linux".toList, "macos".toList] := by
  intro entry hentry
  rcases List.mem_pair.mp hentry with rfl | rfl <;> rfl

theorem Sample.acyclic (cfg : Text) : Acyclic (Sample.workspace.Compiles cfg) := by
  refine .of_rank (fun pkg => if pkg = "app".toList then 1 else 0) ?_
  rintro pkg dep ⟨merged, hmem, host, hdep⟩
  have hin := hdep.imp mem_of_mem_firstOn mem_of_mem_firstOn
  rcases List.mem_pair.mp hmem with heq | heq
  · obtain ⟨rfl, rfl⟩ := Prod.mk.inj heq
    have hall : ∀ dep ∈ (Sample.workspace.parts "app".toList (Sample.merged ∅ {"core".toList} ∅)
        Native.normal).firstParty.flatMap Prod.snd ++ (Sample.workspace.parts "app".toList
          (Sample.merged ∅ {"core".toList} ∅) Native.build).firstParty.flatMap Prod.snd,
        dep = "core".toList := by decide +kernel
    rw [hall dep (List.mem_append.mpr hin)]
    decide
  · obtain ⟨rfl, rfl⟩ := Prod.mk.inj heq
    have hnone : ∀ firstParty ∈ [∅, {"app".toList}], ∀ want ∈ [Native.normal, Native.build],
        (Sample.workspace.parts "core".toList (Sample.merged {"std".toList} firstParty
          {("libc".toList, "0.2".toList)}) want).firstParty.flatMap Prod.snd = [] := by
      decide +kernel
    have hfirst : (if cfg = "test".toList then {"app".toList} else (∅ : Finset Text)) ∈
        [∅, {"app".toList}] := by
      split <;> simp
    rw [hnone _ hfirst Native.normal (by simp), hnone _ hfirst Native.build (by simp)] at hin
    exact absurd hin (by simp)

theorem variants_share_iff_of_two_crates : ∃ state labels,
    Sample.workspace.variants 4 Sample.configs = .ok (state, labels) ∧
      (state.SameName ("build".toList, "core".toList) ("test".toList, "core".toList) ↔
        ∃ alike, Sample.workspace.Matches ["linux".toList, "macos".toList] alike ∧
          alike ("build".toList, "core".toList) ("test".toList, "core".toList)) := by
  obtain ⟨state, labels, hok, hnames⟩ := Sample.run
  have hcore : ∀ cfg, "core".toList ∈ (Sample.workspace.resolved cfg).map Prod.fst :=
    fun _ => List.mem_cons_of_mem _ (List.mem_cons_self ..)
  exact ⟨state, labels, hok, variants_share_iff Sample.dicts Sample.onHosts (Sample.acyclic _) hok
    hnames (List.mem_cons_self ..) (List.mem_cons_of_mem _ (List.mem_cons_self ..)) (hcore _)
      (hcore _)⟩

/-- The name of the second target ends in the digest of its key, and the first
is either named so too, for the same package and with the same digest, or is the
plain name of a package that is called so. -/
def Workspace.Clash (W : Workspace) (one other : Key × Text) : Prop :=
  (one.1.package = other.1.package ∧ W.digest one.1 = W.digest other.1) ∨
    one.1.package = other.1.package ++ ['-', '-'] ++ W.digest other.1

/-- Two keys get one name only where digests of one package collide, or a
package is called like another with a digest. -/
theorem variants_names (hdigest : ∀ key, (W.digest key).length = 8)
    (hok : W.variants fuel cfgs = .ok (state, labels)) :
    ∀ one ∈ state.names, ∀ other ∈ state.names, one.2 = other.2 →
      one = other ∨ W.Clash one other ∨ W.Clash other one := by
  obtain ⟨hsound, -⟩ := variants_spec hok
  intro one hone other hother hname
  obtain ⟨cfg, pkg, crate, links, hcrate, hlinked, hkey, hnamed⟩ := hsound.origin one hone
  obtain ⟨cfg', pkg', crate', links', hcrate', hlinked', hkey', hnamed'⟩ :=
    hsound.origin other hother
  have hpkg : one.1.package = pkg := by rw [hkey, keyOf_package]
  have hpkg' : other.1.package = pkg' := by rw [hkey', keyOf_package]
  rw [hnamed, hnamed', Workspace.nameOf, Workspace.nameOf] at hname
  unfold Workspace.Clash
  rw [hpkg, hpkg']
  split at hname <;> split at hname
  · rename_i hbuild hbuild'
    obtain rfl := hbuild
    obtain rfl := hbuild'
    obtain rfl : pkg = pkg' := List.append_cancel_left hname
    obtain rfl : crate = crate' := Except.ok.inj (hcrate.symm.trans hcrate')
    obtain rfl := hlinked.unique hlinked'
    left
    have hsame : one.1 = other.1 := hkey.trans hkey'.symm
    exact Prod.ext hsame (by rw [hnamed, hnamed', hsame])
  · rw [List.append_assoc, List.append_assoc] at hname
    exact .inr (.inl (.inr ((List.append_cancel_left hname).trans (List.append_assoc ..).symm)))
  · rw [List.append_assoc, List.append_assoc] at hname
    exact .inr (.inr (.inr ((List.append_cancel_left hname).symm.trans
      (List.append_assoc ..).symm)))
  · have hlength : (W.digest one.1).length = (W.digest other.1).length := by
      rw [hdigest, hdigest]
    obtain ⟨hhead, hdigests⟩ := List.append_inj' hname hlength
    obtain rfl : pkg = pkg' := List.append_cancel_left (List.append_cancel_right hhead)
    exact .inr (.inl (.inl ⟨rfl, hdigests⟩))

theorem variants_names_of_two_crates : ∃ state labels,
    Sample.workspace.variants 4 Sample.configs = .ok (state, labels) ∧
      ∀ one ∈ state.names, ∀ other ∈ state.names, one.2 = other.2 →
        one = other ∨ Sample.workspace.Clash one other ∨ Sample.workspace.Clash other one := by
  obtain ⟨state, labels, hok, -⟩ := Sample.run
  refine ⟨state, labels, hok, variants_names (fun key => ?_) hok⟩
  unfold Sample.workspace
  dsimp only
  split <;> decide

end Rendered

end AccountDirectory.Native
