import AccountDirectory.Native.Identity

/-! The visits of `variant` end. What a package is compiled against has no
cycles, but its dev-dependencies may lead back to it; a visit that goes through
them leaves one package fewer to remember. -/
namespace AccountDirectory.Native
open Library

variable {W : Workspace} {cfg pkg : Text} {crate : Crate} {state : Rendering} {fuel bound m : Nat}
  {merged : Merged}

/-- What is resolved of a configuration is resolved for all it depends on. -/
def Workspace.Complete (W : Workspace) (cfg : Text) : Prop :=
  ∀ entry ∈ W.resolved cfg, ∀ perHost ∈ entry.2.firstParty, ∀ dep ∈ perHost.2,
    dep ∈ (W.resolved cfg).map Prod.fst

/-- All third-party crates a package takes are pinned. -/
def Workspace.AllPinned (W : Workspace) (pkg : Text) (merged : Merged) : Prop :=
  W.Pinned pkg merged normal ∧ W.Pinned pkg merged build ∧ W.Pinned pkg merged devOnly

/-- The packages of a configuration that are not remembered yet. -/
def Workspace.unknown (W : Workspace) (cfg : Text) (state : Rendering) : Finset Text :=
  ((W.resolved cfg).map Prod.fst).toFinset.filter fun pkg => state.keys.lookup (cfg, pkg) = none

theorem unknown_grows {s' : Rendering} (h : state.Grows s') :
    W.unknown cfg s' ⊆ W.unknown cfg state := by
  intro pkg hpkg
  obtain ⟨hin, hnone⟩ := Finset.mem_filter.mp hpkg
  refine Finset.mem_filter.mpr ⟨hin, ?_⟩
  cases hknown : state.keys.lookup (cfg, pkg) with
  | none => rfl
  | some known =>
      obtain ⟨later, hlater, -⟩ := h.keys hknown
      rw [hnone] at hlater
      cases hlater

theorem unknown_remember {s' : Rendering} {known : Variant} (h : state.Grows s')
    (hpkg : pkg ∈ W.unknown cfg state) (hknown : s'.keys.lookup (cfg, pkg) = some known) :
    (W.unknown cfg s').card < (W.unknown cfg state).card := by
  refine Finset.card_lt_card ((Finset.ssubset_iff_of_subset (unknown_grows h)).mpr
    ⟨pkg, hpkg, fun hstill => ?_⟩)
  rw [(Finset.mem_filter.mp hstill).2] at hknown
  cases hknown

theorem crate_of_pinned (hmerged : (W.resolved cfg).lookup pkg = some merged)
    (hpinned : W.AllPinned pkg merged) : W.crate cfg pkg = .ok (W.crateOf pkg merged) := by
  unfold Workspace.crate
  rw [hmerged]
  exact if_pos hpinned

theorem mem_of_firstOn (hcomplete : W.Complete cfg) (hmerged : (pkg, merged) ∈ W.resolved cfg)
    {want : Finset Kind → Bool} {host dep : Text}
    (hdep : dep ∈ (W.parts pkg merged want).firstOn host) :
    dep ∈ (W.resolved cfg).map Prod.fst := by
  have hlookup : (W.parts pkg merged want).firstParty.lookup host =
      (merged.firstParty.lookup host).map (W.firstNames pkg want) := lookup_map_snd _
  rw [Parts.firstOn, hlookup] at hdep
  cases hdeps : merged.firstParty.lookup host with
  | none =>
      rw [hdeps] at hdep
      cases hdep
  | some deps =>
      rw [hdeps] at hdep
      obtain ⟨before, after, hsplit, -⟩ := List.lookup_eq_some_iff.mp hdeps
      have hentry : (host, deps) ∈ merged.firstParty := by rw [hsplit]; simp
      have hin := (Finset.mem_filter.mp (mem_sorted.mp hdep)).1
      exact hcomplete _ hmerged _ hentry dep hin

theorem visitHosts_returns {visit : Rendering → Text → Except Refusal (Rendering × Text)}
    {inv : Rendering → Prop} (parts : Parts) (hosts : List Text)
    (h : ∀ host, ∀ dep ∈ parts.firstOn host, ∀ s, inv s →
      ∃ s' label, visit s dep = .ok (s', label) ∧ inv s') (hinv : inv state) :
    ∃ s' labels, visitHosts visit parts state hosts = .ok (s', labels) ∧ inv s' :=
  traverse_returns (fun host _ _ hs => traverse_returns (h host) hs) hinv

/-- Fuel for as many packages as are unknown, each as deep as the rank goes. -/
theorem variant_returns (hcomplete : W.Complete cfg)
    (hpinned : ∀ pkg merged, (W.resolved cfg).lookup pkg = some merged → W.AllPinned pkg merged)
    {rank : Text → Nat} (hbound : ∀ pkg, rank pkg ≤ bound)
    (hrank : ∀ pkg dep, W.Compiles cfg pkg dep → rank dep < rank pkg) :
    ∀ fuel m state pkg, W.Sound state → pkg ∈ (W.resolved cfg).map Prod.fst →
      (W.unknown cfg state).card ≤ m → m * (bound + 2) + rank pkg < fuel →
        ∃ s' label, W.variant cfg fuel state pkg = .ok (s', label) := by
  intro fuel
  induction fuel with
  | zero => exact fun _ _ _ _ _ _ hfuel => absurd hfuel (Nat.not_lt_zero _)
  | succ fuel ih =>
      intro m state pkg hsound hpkg hcard hfuel
      cases hknown : state.keys.lookup (cfg, pkg) with
      | some known =>
          rw [Workspace.variant, hknown]
          exact ⟨_, _, rfl⟩
      | none =>
          obtain ⟨merged, hmerged⟩ : ∃ merged, (W.resolved cfg).lookup pkg = some merged := by
            cases hlookup : (W.resolved cfg).lookup pkg with
            | some merged => exact ⟨merged, rfl⟩
            | none => exact absurd hpkg (lookup_eq_none_iff_not_mem.mp hlookup)
          have hentry : (pkg, merged) ∈ W.resolved cfg := by
            obtain ⟨before, after, hsplit, -⟩ := List.lookup_eq_some_iff.mp hmerged
            rw [hsplit]
            simp
          have hcrate := crate_of_pinned hmerged (hpinned pkg merged hmerged)
          -- a visit from a sound state with few enough unknown leaves such a state
          have hvisit : ∀ m dep, dep ∈ (W.resolved cfg).map Prod.fst →
              m * (bound + 2) + rank dep < fuel →
              ∀ s, W.Sound s ∧ (W.unknown cfg s).card ≤ m → ∃ s' label,
                W.variant cfg fuel s dep = .ok (s', label) ∧
                  W.Sound s' ∧ (W.unknown cfg s').card ≤ m := by
            intro m dep hdep hfuel s hs
            obtain ⟨s', label, hok⟩ := ih m s dep hs.1 hdep hs.2 hfuel
            obtain ⟨hsound', hgrows, -⟩ := (variant_visits fuel).keeps hs.1 hok
            exact ⟨s', label, hok, hsound',
              (Finset.card_le_card (unknown_grows hgrows)).trans hs.2⟩
          have hcompiled : ∀ dep, W.Compiles cfg pkg dep →
              m * (bound + 2) + rank dep < fuel := by
            intro dep hdep
            have := hrank pkg dep hdep
            omega
          obtain ⟨s₁, normal, hnormal, hs₁⟩ := visitHosts_returns
            (W.crateOf pkg merged).normal (W.crateOf pkg merged).hosts
            (fun host dep hdep => hvisit m dep (mem_of_firstOn hcomplete hentry hdep)
              (hcompiled dep ⟨merged, hentry, host, .inl hdep⟩)) ⟨hsound, hcard⟩
          obtain ⟨s₂, build, hbuild, hs₂⟩ := visitHosts_returns
            (W.crateOf pkg merged).build (W.crateOf pkg merged).hosts
            (fun host dep hdep => hvisit m dep (mem_of_firstOn hcomplete hentry hdep)
              (hcompiled dep ⟨merged, hentry, host, .inr hdep⟩)) hs₁
          obtain ⟨-, hgrows₁, hvisited₁⟩ := (variant_visits fuel).hosts hsound hnormal
          obtain ⟨-, hgrows₂, hvisited₂⟩ := (variant_visits fuel).hosts hs₁.1 hbuild
          obtain ⟨hsound₃, hgrows₃, -⟩ := hs₂.1.remember hcrate
            ⟨normal, build, hvisited₁.grows hgrows₂, hvisited₂, rfl⟩
          have hunknown : pkg ∈ W.unknown cfg state :=
            Finset.mem_filter.mpr ⟨List.mem_toFinset.mpr hpkg, hknown⟩
          have hfewer := unknown_remember (hgrows₁.trans (hgrows₂.trans hgrows₃)) hunknown
            (by rw [remember_keys, Finmap.lookup_insert])
          obtain ⟨k, rfl⟩ : ∃ k, m = k + 1 := Nat.exists_eq_succ_of_ne_zero (by omega)
          obtain ⟨s₃, dev, hdev, -⟩ := visitHosts_returns
            (W.crateOf pkg merged).dev (W.crateOf pkg merged).hosts
            (fun host dep hdep => hvisit k dep (mem_of_firstOn hcomplete hentry hdep) (by
              have := hbound dep
              rw [Nat.succ_mul] at hfuel
              omega)) ⟨hsound₃, by omega⟩
          exact ⟨_, _, variant_of_visits hknown hcrate hnormal hbuild hdev⟩

section Rendered

variable {cfgs : List Text}

theorem exists_enough {α : Type} {P : α → Nat → Prop} {xs : List α}
    (h : ∀ x ∈ xs, ∃ enough, ∀ n ≥ enough, P x n) : ∃ enough, ∀ n ≥ enough, ∀ x ∈ xs, P x n := by
  induction xs with
  | nil => exact ⟨0, fun _ _ => List.forall_mem_nil _⟩
  | cons x xs ih =>
      rw [List.forall_mem_cons] at h
      obtain ⟨⟨one, hone⟩, hxs⟩ := h
      obtain ⟨rest, hrest⟩ := ih hxs
      refine ⟨max one rest, fun n hn => List.forall_mem_cons.mpr ⟨hone n ?_, hrest n ?_⟩⟩
      · exact (le_max_left one rest).trans hn
      · exact (le_max_right one rest).trans hn

/-- In a configuration that is acyclic and complete every package is visited to
the end, from every sound state. -/
theorem visits_return (hcomplete : W.Complete cfg) (hacyclic : Acyclic (W.Compiles cfg)) :
    ∃ enough, ∀ fuel ≥ enough,
      (∀ pkg merged, (W.resolved cfg).lookup pkg = some merged → W.AllPinned pkg merged) →
        ∀ state pkg, W.Sound state → pkg ∈ (W.resolved cfg).map Prod.fst →
          ∃ s' label, W.variant cfg fuel state pkg = .ok (s', label) := by
  obtain ⟨nodes, hnodes⟩ := W.compiles_finite cfg
  obtain ⟨rank, hbound, hrank⟩ := hacyclic.exists_rank nodes hnodes
  have hcard : ∀ state, (W.unknown cfg state).card ≤ (W.resolved cfg).length := by
    intro state
    refine (Finset.card_filter_le ..).trans ((List.toFinset_card_le _).trans ?_)
    rw [List.length_map]
  refine ⟨(W.resolved cfg).length * (nodes.card + 2) + nodes.card + 1, ?_⟩
  intro fuel hfuel hpinned state pkg hsound hpkg
  refine variant_returns hcomplete hpinned hbound hrank fuel _ state pkg hsound hpkg
    (hcard state) ?_
  have := hbound pkg
  omega

end Rendered

end AccountDirectory.Native
