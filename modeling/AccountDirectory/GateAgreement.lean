import AccountDirectory.GateScan

/-! When the contract gate agrees with the router. The scan reports a path with
both of `PUT` and `GET` or not at all, so a router it reads in full registers
those two on each path it reports, and nothing else. -/
namespace AccountDirectory

/-- Every operation is a `PUT` or a `GET` on a path the scan reports, and both
are registered on each of these. -/
structure Legible (router : List RouteCall) : Prop where
  reported : ∀ route ∈ router, ∀ method ∈ route.methods,
    (method = .put ∨ method = .get) ∧ route.path.val ∈ seen none router
  registered : ∀ path ∈ seen none router, ∀ method, method = Method.put ∨ method = .get →
    ∃ route ∈ router, route.path.val = path ∧ method ∈ route.methods

section Operations

variable {router : List RouteCall} {value : String}

/-- No space in a verb: an operation is read back from its text. -/
theorem operation_inj {m n : Method} {path other : List Char} :
    operation m.verb (String.ofList path) = operation n.verb (String.ofList other) ↔
      m = n ∧ path = other := by
  constructor
  · intro h
    have htext : m.verb.toList ++ ' ' :: path = n.verb.toList ++ ' ' :: other := by
      have hlist := congrArg String.toList h
      simpa [operation] using hlist
    have hverb (method : Method) (rest : List Char) :
        (method.verb.toList ++ ' ' :: rest).takeWhile (fun c => c ≠ ' ') = method.verb.toList := by
      have hletters : ∀ c ∈ method.verb.toList, decide (c ≠ ' ') = true := by
        apply List.all_eq_true.mp
        cases method <;> decide
      rw [List.takeWhile_append_of_pos hletters, List.takeWhile_cons_of_neg (by simp),
        List.append_nil]
    have hsame : m.verb.toList = n.verb.toList := by
      rw [← hverb m path, htext, hverb]
    have hmethod : m = n := by
      revert hsame
      cases m <;> cases n <;> decide
    rw [hsame] at htext
    exact ⟨hmethod, (List.cons.inj (List.append_cancel_left htext)).2⟩
  · rintro ⟨rfl, rfl⟩
    rfl

theorem mem_registers : value ∈ registers router ↔ ∃ route ∈ router, ∃ method ∈ route.methods,
    operation method.verb (String.ofList route.path.val) = value := by
  rw [registers, List.mem_toFinset, List.mem_flatMap]
  simp only [RouteCall.operations, List.mem_map]

theorem mem_visible : value ∈ visible router ↔ ∃ path ∈ seen none router, ∃ method,
    (method = Method.put ∨ method = .get) ∧ operation method.verb (String.ofList path) = value := by
  rw [visible, List.mem_toFinset, List.mem_flatMap]
  constructor
  · rintro ⟨path, hpath, hvalue⟩
    rcases List.mem_cons.mp hvalue with rfl | hget
    · exact ⟨path, hpath, .put, .inl rfl, rfl⟩
    · exact ⟨path, hpath, .get, .inr rfl, (List.mem_singleton.mp hget).symm⟩
  · rintro ⟨path, hpath, method, hput | hget, rfl⟩
    · subst hput
      exact ⟨path, hpath, List.mem_cons_self⟩
    · subst hget
      exact ⟨path, hpath, List.mem_cons_of_mem _ (List.mem_singleton_self _)⟩

theorem legible_iff : Legible router ↔ visible router = registers router := by
  constructor
  · intro h
    ext value
    rw [mem_visible, mem_registers]
    constructor
    · rintro ⟨path, hpath, method, hmethod, rfl⟩
      obtain ⟨route, hroute, rfl, hmem⟩ := h.registered path hpath method hmethod
      exact ⟨route, hroute, method, hmem, rfl⟩
    · rintro ⟨route, hroute, method, hmem, rfl⟩
      obtain ⟨hmethod, hpath⟩ := h.reported route hroute method hmem
      exact ⟨_, hpath, method, hmethod, rfl⟩
  · intro h
    constructor
    · intro route hroute method hmem
      have hvalue := mem_registers.mpr ⟨route, hroute, method, hmem, rfl⟩
      rw [← h, mem_visible] at hvalue
      obtain ⟨path, hpath, other, hother, heq⟩ := hvalue
      obtain ⟨rfl, rfl⟩ := operation_inj.mp heq
      exact ⟨hother, hpath⟩
    · intro path hpath method hmethod
      have hvalue := mem_visible.mpr ⟨path, hpath, method, hmethod, rfl⟩
      rw [h, mem_registers] at hvalue
      obtain ⟨route, hroute, other, hmem, heq⟩ := hvalue
      obtain ⟨rfl, rfl⟩ := operation_inj.mp heq
      exact ⟨route, hroute, rfl, hmem⟩

end Operations

section Plain

variable {router : List RouteCall}

/-- Where no path ends like the head of a call, the scan reads the plain calls. -/
theorem seen_of_no_opening (h : ∀ route ∈ router, opensCall route.path.val = false) :
    seen none router = (router.filter RouteCall.isPlain).map fun route => route.path.val := by
  have hinside (router : List RouteCall) (left : List Char) (before : RouteCall)
      (hleft : opensCall left = false) : seen (some (left, before)) router = seen none router := by
    cases router with
    | nil => rfl
    | cons route rest =>
        rw [seen_inside, hleft]
        rfl
  induction router with
  | nil => rfl
  | cons route rest ih =>
      have hrest := ih fun other hother => h other (List.mem_cons_of_mem _ hother)
      rw [seen, hinside _ _ _ (h route List.mem_cons_self), hrest, List.filter_cons]
      split
      · rfl
      · rfl

theorem RouteCall.methods_of_isPlain {route : RouteCall} (h : route.isPlain = true) :
    route.methods = [.put, .get] := by
  simp only [isPlain, argumentsArePlain, endsInGet, Bool.and_eq_true] at h
  obtain ⟨-, ⟨-, hput⟩, hget⟩ := h
  unfold methods
  split at hget
  · rename_i chained hchain
    simp only [MethodCall.isPlain, Bool.and_eq_true, decide_eq_true_eq] at hput hget
    rw [hchain, hput.1, List.map_singleton, hget.1.2.1]
  · cases hget

/-- For such paths: nothing but `PUT` and `GET`, each on a path of a plain call. -/
theorem legible_iff_of_no_opening (h : ∀ route ∈ router, opensCall route.path.val = false) :
    Legible router ↔ ∀ route ∈ router, ∀ method ∈ route.methods,
      (method = .put ∨ method = .get) ∧
        ∃ plain ∈ router, plain.isPlain = true ∧ plain.path.val = route.path.val := by
  have hseen (path : List Char) : path ∈ seen none router ↔
      ∃ plain ∈ router, plain.isPlain = true ∧ plain.path.val = path := by
    rw [seen_of_no_opening h, List.mem_map]
    simp only [List.mem_filter, and_assoc]
  constructor
  · intro hlegible route hroute method hmethod
    rw [← hseen]
    exact hlegible.reported route hroute method hmethod
  · intro hplain
    constructor
    · intro route hroute method hmethod
      rw [hseen]
      exact hplain route hroute method hmethod
    · intro path hpath method hmethod
      obtain ⟨plain, hmem, hisPlain, rfl⟩ := (hseen path).mp hpath
      refine ⟨plain, hmem, rfl, ?_⟩
      rw [RouteCall.methods_of_isPlain hisPlain]
      simpa using hmethod

end Plain

section Manifest

variable {router : List RouteCall} {contract : Contract}

def contractOf (path : List Char) (method : Method) : Contract where
  id := operation method.verb (String.ofList path)
  method := method.verb
  path := String.ofList path

/-- A manifest of everything the router registers. -/
def manifestOf (router : List RouteCall) : List Contract :=
  (router.flatMap fun route => route.methods.map (contractOf route.path.val)).dedup

theorem mem_manifestOf : contract ∈ manifestOf router ↔ ∃ route ∈ router, ∃ method ∈ route.methods,
    contractOf route.path.val method = contract := by
  rw [manifestOf, List.mem_dedup, List.mem_flatMap]
  simp only [List.mem_map]

theorem manifestOf_ids (router : List RouteCall) : ((manifestOf router).map Contract.id).Nodup := by
  apply List.Nodup.map_on _ (List.nodup_dedup _)
  intro contract hcontract other hother heq
  obtain ⟨route, -, method, -, rfl⟩ := mem_manifestOf.mp hcontract
  obtain ⟨otherRoute, -, otherMethod, -, rfl⟩ := mem_manifestOf.mp hother
  obtain ⟨hmethod, hpath⟩ := operation_inj.mp heq
  rw [hmethod, hpath]

theorem manifestOf_operations (router : List RouteCall) :
    ((manifestOf router).map fun contract => operation contract.method contract.path) =
      (manifestOf router).map Contract.id := by
  apply List.map_congr_left
  intro contract hcontract
  obtain ⟨route, -, method, -, rfl⟩ := mem_manifestOf.mp hcontract
  rfl

theorem declares_manifestOf (router : List RouteCall) :
    declares (manifestOf router) = registers router := by
  ext value
  rw [declares, manifestOf_operations, List.mem_toFinset, List.mem_map, mem_registers]
  constructor
  · rintro ⟨contract, hcontract, rfl⟩
    obtain ⟨route, hroute, method, hmethod, rfl⟩ := mem_manifestOf.mp hcontract
    exact ⟨route, hroute, method, hmethod, rfl⟩
  · rintro ⟨route, hroute, method, hmethod, rfl⟩
    exact ⟨_, mem_manifestOf.mpr ⟨route, hroute, method, hmethod, rfl⟩, rfl⟩

/-- A router that is not read in full has a manifest the gate is wrong about. -/
theorem legible_iff_exact : Legible router ↔ ∀ contracts : List Contract,
    (contracts.map Contract.id).Nodup →
    (contracts.map fun contract => operation contract.method contract.path).Nodup →
    (checkProductContracts contracts (routerSource router) = [] ↔
      registers router = declares contracts) := by
  constructor
  · intro h contracts hids hoperations
    rw [checkProductContracts_eq_nil_iff hids hoperations, agrees_routerSource_iff,
      legible_iff.mp h]
  · intro h
    have hids := manifestOf_ids router
    have hoperations := manifestOf_operations router ▸ hids
    have hexact := h (manifestOf router) hids hoperations
    rw [checkProductContracts_eq_nil_iff hids hoperations, agrees_routerSource_iff,
      declares_manifestOf] at hexact
    rw [legible_iff]
    exact hexact.mpr rfl

end Manifest

section Agreement

variable {router : List RouteCall} {contracts : List Contract}

/-- The gate is exact where the scan reads the router in full, and where the
manifest declares neither what is registered nor what is seen of it. -/
theorem gate_agrees_iff (router : List RouteCall) (contracts : List Contract) :
    (Agrees contracts (routerSource router) ↔ registers router = declares contracts) ↔
      Legible router ∨ (declares contracts ≠ visible router ∧
        declares contracts ≠ registers router) := by
  rw [agrees_routerSource_iff, legible_iff]
  constructor
  · intro h
    by_cases hvisible : visible router = declares contracts
    · exact .inl (hvisible.trans (h.mp hvisible).symm)
    · exact .inr ⟨Ne.symm hvisible, fun heq => hvisible (h.mpr heq.symm)⟩
  · rintro (hlegible | ⟨hvisible, hregisters⟩)
    · rw [hlegible]
    · exact ⟨fun heq => absurd heq.symm hvisible, fun heq => absurd heq.symm hregisters⟩

end Agreement

def noGap : Gap := ⟨[], List.forall_mem_nil _⟩

/-- `"/directory/:root", put(publish).get(fetch)` -/
def directoryRoute : RouteCall where
  before := ⟨['\n', ' ', ' ', ' ', ' ', ' ', ' ', ' ', ' '], List.all_eq_true.mp (by decide)⟩
  beforePath := noGap
  path := ⟨"/directory/:root".toList, by decide +kernel⟩
  afterPath := noGap
  afterComma := ⟨[' '], List.all_eq_true.mp (by decide)⟩
  first :=
    { method := .put
      beforeParen := noGap
      afterParen := noGap
      handler := ⟨"publish".toList, by decide +kernel⟩
      beforeClose := noGap }
  chain :=
    [{ beforeDot := noGap
       afterDot := noGap
       call :=
        { method := .get
          beforeParen := noGap
          afterParen := noGap
          handler := ⟨"fetch".toList, by decide +kernel⟩
          beforeClose := noGap } }]
  beforeEnd := noGap

/-- `"/directory/:root", delete(purge)` -/
def purgeRoute : RouteCall :=
  { directoryRoute with
    first :=
      { directoryRoute.first with
        method := .delete
        handler := ⟨"purge".toList, by decide +kernel⟩ }
    chain := [] }

def productRoutes : List Contract :=
  [{ id := "directory.entry.read", method := "GET", path := "/directory/:root" },
   { id := "directory.entry.publish", method := "PUT", path := "/directory/:root" }]

example : checkProductContracts productRoutes (routerSource [directoryRoute]) = [] := by
  decide +kernel

/-- A registered and undeclared `DELETE` that the gate lets pass. -/
theorem gate_misses_delete :
    (productRoutes.map Contract.id).Nodup ∧
    (productRoutes.map fun contract => operation contract.method contract.path).Nodup ∧
    checkProductContracts productRoutes (routerSource [directoryRoute, purgeRoute]) = [] ∧
    ¬ (Agrees productRoutes (routerSource [directoryRoute, purgeRoute]) ↔
      registers [directoryRoute, purgeRoute] = declares productRoutes) := by
  have hids : (productRoutes.map Contract.id).Nodup := by
    decide +kernel
  have hoperations :
      (productRoutes.map fun contract => operation contract.method contract.path).Nodup := by
    decide +kernel
  have hsilent :
      checkProductContracts productRoutes (routerSource [directoryRoute, purgeRoute]) = [] := by
    decide +kernel
  refine ⟨hids, hoperations, hsilent, fun h => ?_⟩
  have hequal := h.mp ((checkProductContracts_eq_nil_iff hids hoperations).mp hsilent)
  revert hequal
  decide +kernel

end AccountDirectory
