import AccountDirectory.Library.Pattern
import Mathlib.Data.Finset.Basic

/-! The contract gate. `check-product-contracts.mjs` holds the route manifest
against the source of the router: it scans the text of `src/lib.rs` with one
regular expression and compares the operations it finds with those declared. -/
namespace AccountDirectory
open Library

/-- The fields of a manifest contract that the comparison reads. -/
structure Contract where
  id : String
  method : String
  path : String
deriving DecidableEq, Repr

inductive Failure where
  | duplicateId (id : String)
  | duplicateOperation (operation : String)
  | undeclared (operation : String)
  | notRegistered (operation : String)
deriving DecidableEq, Repr

def Failure.text : Failure → String
  | .duplicateId id => s!"duplicate contract id {id}"
  | .duplicateOperation operation => s!"duplicate operation {operation}"
  | .undeclared operation => s!"source operation {operation} is undeclared"
  | .notRegistered operation => s!"declared operation {operation} is not registered"

def operation (method path : String) : String := method ++ " " ++ path

/-- `set.add(value)`: a `Set` iterates in the order of insertion. -/
def setAdd (set : List String) (value : String) : List String :=
  if value ∈ set then set else set ++ [value]

/-- What the loop over the manifest's contracts collects. -/
structure Declared where
  ids : List String := []
  operations : List String := []
  failures : List Failure := []

def Declared.add (declared : Declared) (contract : Contract) : Declared :=
  let declares := operation contract.method contract.path
  { ids := setAdd declared.ids contract.id
    operations := setAdd declared.operations declares
    failures := declared.failures
      ++ (if contract.id ∈ declared.ids then [.duplicateId contract.id] else [])
      ++ (if declares ∈ declared.operations then [.duplicateOperation declares] else []) }

def declared (contracts : List Contract) : Declared := contracts.foldl Declared.add {}

/-- `\s` in a regular expression of the script's language. -/
def isJsSpace (c : Char) : Bool :=
  [0x09, 0x0a, 0x0b, 0x0c, 0x0d, 0x20, 0xa0, 0x1680, 0x2028, 0x2029, 0x202f, 0x205f, 0x3000,
    0xfeff].contains c.toNat || (0x2000 ≤ c.toNat && c.toNat ≤ 0x200a)

def notQuote (c : Char) : Bool := c ≠ '"'

def notParen (c : Char) : Bool := c ≠ ')'

def routeWord : List Char := ['.', 'r', 'o', 'u', 't', 'e', '(']

/-- `\s*\)` -/
def closing : List (Piece Char) := [.many isJsSpace, .lit [')']]

/-- `\.get\([^)]*\)\s*\)` -/
def getThenClosing : List (Piece Char) :=
  .lit ['.', 'g', 'e', 't', '('] :: .many notParen :: .lit [')'] :: closing

/-- `\s*,\s*put\([^)]*\)\.get\([^)]*\)\s*\)` -/
def afterPath : List (Piece Char) :=
  .many isJsSpace :: .lit [','] :: .many isJsSpace :: .lit ['p', 'u', 't', '('] ::
    .many notParen :: .lit [')'] :: getThenClosing

/-- The expression of the script: `\.route\(\s*"([^"]+)"`, then `afterPath`. -/
def routePattern : List (Piece Char) :=
  .lit routeWord :: .many isJsSpace :: .lit ['"'] :: .capture notQuote :: .lit ['"'] :: afterPath

/-- `match[1]` of each match. -/
def routePaths (source : String) : List String :=
  (findAll routePattern 0 source.toList).filterMap fun groups => groups.head?.map String.ofList

def registered (source : String) : List String :=
  (routePaths source).foldl
    (fun set path => setAdd (setAdd set (operation "PUT" path)) (operation "GET" path)) []

/-- The failures of the script that compare contracts with each other and with
the source, in the order it reports them. -/
def checkProductContracts (contracts : List Contract) (source : String) : List Failure :=
  let operations := (declared contracts).operations
  (declared contracts).failures
    ++ ((registered source).filter (· ∉ operations)).map .undeclared
    ++ (operations.filter (· ∉ registered source)).map .notRegistered

/-! The source of a router: a list of calls `.route("<path>", <m>(<h>).<m>(<h>)...)`
with whitespace between the tokens inside the call's parentheses. -/

/-- The whitespace of the language the router is written in. -/
def isRustSpace (c : Char) : Bool :=
  [0x09, 0x0a, 0x0b, 0x0c, 0x0d, 0x20, 0x85, 0x200e, 0x200f, 0x2028, 0x2029].contains c.toNat

abbrev Gap := { gap : List Char // ∀ c ∈ gap, isRustSpace c = true }

def isIdentifier : List Char → Bool
  | [] => false
  | c :: rest => (c.isAlpha || c = '_') && rest.all fun d => d.isAlphanum || d = '_'

abbrev Identifier := { name : List Char // isIdentifier name = true }

/-- The text of a path literal, taken as it is written. -/
abbrev PathText := { path : List Char // path ≠ [] ∧ '"' ∉ path }

inductive Method where
  | get
  | put
  | post
  | patch
  | delete
  | head
  | options
deriving DecidableEq, Repr

def Method.name : Method → List Char
  | .get => ['g', 'e', 't']
  | .put => ['p', 'u', 't']
  | .post => ['p', 'o', 's', 't']
  | .patch => ['p', 'a', 't', 'c', 'h']
  | .delete => ['d', 'e', 'l', 'e', 't', 'e']
  | .head => ['h', 'e', 'a', 'd']
  | .options => ['o', 'p', 't', 'i', 'o', 'n', 's']

def Method.verb : Method → String
  | .get => "GET"
  | .put => "PUT"
  | .post => "POST"
  | .patch => "PATCH"
  | .delete => "DELETE"
  | .head => "HEAD"
  | .options => "OPTIONS"

/-- `put(publish)` -/
structure MethodCall where
  method : Method
  beforeParen : Gap
  afterParen : Gap
  handler : Identifier
  beforeClose : Gap

/-- `.get(fetch)` behind another method. -/
structure Chained where
  beforeDot : Gap
  afterDot : Gap
  call : MethodCall

/-- One `.route(...)` call, and the whitespace ahead of it. -/
structure RouteCall where
  before : Gap
  beforePath : Gap
  path : PathText
  afterPath : Gap
  afterComma : Gap
  first : MethodCall
  chain : List Chained
  beforeEnd : Gap

def MethodCall.opening (call : MethodCall) : List Char :=
  call.method.name ++ call.beforeParen.val ++ '(' :: (call.afterParen.val ++ call.handler.val ++
    call.beforeClose.val)

def Chained.text (chained : Chained) : List Char :=
  chained.beforeDot.val ++ '.' :: (chained.afterDot.val ++ chained.call.opening ++ [')'])

namespace RouteCall

variable (route : RouteCall)

/-- From the parenthesis that closes the first method to the end of the call. -/
def ending : List Char :=
  ')' :: (route.chain.flatMap Chained.text ++ route.beforeEnd.val ++ [')'])

/-- From behind the path literal to the end of the call. -/
def arguments : List Char :=
  route.afterPath.val ++ ',' :: (route.afterComma.val ++ route.first.opening ++ route.ending)

def head : List Char := route.before.val ++ routeWord ++ route.beforePath.val

def text : List Char := route.head ++ '"' :: (route.path.val ++ '"' :: route.arguments)

def methods : List Method := route.first.method :: route.chain.map fun chained => chained.call.method

def operations : List String :=
  route.methods.map fun method => operation method.verb (String.ofList route.path.val)

end RouteCall

def routerSource (router : List RouteCall) : String := String.ofList (router.flatMap RouteCall.text)

def registers (router : List RouteCall) : Finset String :=
  (router.flatMap RouteCall.operations).toFinset

def declares (contracts : List Contract) : Finset String :=
  (contracts.map fun contract => operation contract.method contract.path).toFinset

/-- The gate finds nothing undeclared and nothing unregistered. -/
def Agrees (contracts : List Contract) (source : String) : Prop :=
  ∀ operation, Failure.undeclared operation ∉ checkProductContracts contracts source ∧
    Failure.notRegistered operation ∉ checkProductContracts contracts source

section Script

variable {contracts : List Contract} {source : String} {set : List String} {value other : String}

@[simp] theorem mem_setAdd : other ∈ setAdd set value ↔ other ∈ set ∨ other = value := by
  unfold setAdd
  split
  · rename_i hmem
    constructor
    · exact .inl
    · rintro (hold | rfl)
      · exact hold
      · exact hmem
  · simp

theorem declared_concat (contracts : List Contract) (contract : Contract) :
    declared (contracts ++ [contract]) = (declared contracts).add contract := by
  rw [declared, List.foldl_append]
  rfl

theorem mem_declared_ids :
    value ∈ (declared contracts).ids ↔ value ∈ contracts.map Contract.id := by
  induction contracts using List.reverseRecOn with
  | nil => exact Iff.rfl
  | append_singleton contracts contract ih =>
      rw [declared_concat, Declared.add, mem_setAdd, ih, List.map_append, List.mem_append,
        List.map_singleton, List.mem_singleton]

theorem mem_declared_operations :
    value ∈ (declared contracts).operations ↔ value ∈ declares contracts := by
  unfold declares
  rw [List.mem_toFinset]
  induction contracts using List.reverseRecOn with
  | nil => exact Iff.rfl
  | append_singleton contracts contract ih =>
      rw [declared_concat, Declared.add, mem_setAdd, ih, List.map_append, List.mem_append,
        List.map_singleton, List.mem_singleton]

theorem declared_failures (hids : (contracts.map Contract.id).Nodup)
    (hoperations : (contracts.map fun contract =>
      operation contract.method contract.path).Nodup) :
    (declared contracts).failures = [] := by
  induction contracts using List.reverseRecOn with
  | nil => rfl
  | append_singleton contracts contract ih =>
      rw [List.map_append, List.nodup_append] at hids hoperations
      have hid : contract.id ∉ (declared contracts).ids := by
        rw [mem_declared_ids]
        exact fun hmem => hids.2.2 _ hmem _ (List.mem_singleton_self _) rfl
      have hoperation : operation contract.method contract.path ∉
          (declared contracts).operations := by
        rw [mem_declared_operations, declares, List.mem_toFinset]
        exact fun hmem => hoperations.2.2 _ hmem _ (List.mem_singleton_self _) rfl
      rw [declared_concat, Declared.add, if_neg hid, if_neg hoperation,
        ih hids.1 hoperations.1]
      rfl

theorem duplicate_of_mem_failures {failure : Failure} (h : failure ∈ (declared contracts).failures) :
    (∃ id, failure = .duplicateId id) ∨ ∃ operation, failure = .duplicateOperation operation := by
  induction contracts using List.reverseRecOn with
  | nil => cases h
  | append_singleton contracts contract ih =>
      rw [declared_concat, Declared.add] at h
      rcases List.mem_append.mp h with hbefore | hoperation
      · rcases List.mem_append.mp hbefore with hearlier | hid
        · exact ih hearlier
        · split at hid
          · exact .inl ⟨_, List.mem_singleton.mp hid⟩
          · cases hid
      · split at hoperation
        · exact .inr ⟨_, List.mem_singleton.mp hoperation⟩
        · cases hoperation

theorem mem_checkProductContracts {failure : Failure} :
    failure ∈ checkProductContracts contracts source ↔ failure ∈ (declared contracts).failures ∨
      (∃ operation, (operation ∈ registered source ∧ operation ∉ declares contracts) ∧
        .undeclared operation = failure) ∨
      ∃ operation, (operation ∈ declares contracts ∧ operation ∉ registered source) ∧
        .notRegistered operation = failure := by
  simp only [checkProductContracts, List.mem_append, List.mem_map, List.mem_filter,
    decide_eq_true_iff, mem_declared_operations, or_assoc]

theorem undeclared_mem_iff : Failure.undeclared value ∈ checkProductContracts contracts source ↔
    value ∈ registered source ∧ value ∉ declares contracts := by
  rw [mem_checkProductContracts]
  constructor
  · rintro (hduplicate | ⟨operation, hmem, heq⟩ | ⟨operation, -, heq⟩)
    · rcases duplicate_of_mem_failures hduplicate with ⟨id, heq⟩ | ⟨operation, heq⟩
      · cases heq
      · cases heq
    · cases heq
      exact hmem
    · cases heq
  · intro h
    exact .inr (.inl ⟨value, h, rfl⟩)

theorem notRegistered_mem_iff :
    Failure.notRegistered value ∈ checkProductContracts contracts source ↔
      value ∈ declares contracts ∧ value ∉ registered source := by
  rw [mem_checkProductContracts]
  constructor
  · rintro (hduplicate | ⟨operation, -, heq⟩ | ⟨operation, hmem, heq⟩)
    · rcases duplicate_of_mem_failures hduplicate with ⟨id, heq⟩ | ⟨operation, heq⟩
      · cases heq
      · cases heq
    · cases heq
    · cases heq
      exact hmem
  · intro h
    exact .inr (.inr ⟨value, h, rfl⟩)

theorem agrees_iff : Agrees contracts source ↔ (registered source).toFinset = declares contracts := by
  unfold Agrees
  simp only [undeclared_mem_iff, notRegistered_mem_iff, Finset.ext_iff, List.mem_toFinset]
  constructor
  · intro h value
    obtain ⟨hundeclared, hnotRegistered⟩ := h value
    exact ⟨fun hmem => not_not.mp fun hnot => hundeclared ⟨hmem, hnot⟩,
      fun hmem => not_not.mp fun hnot => hnotRegistered ⟨hmem, hnot⟩⟩
  · intro h value
    exact ⟨fun hmem => hmem.2 ((h value).mp hmem.1), fun hmem => hmem.2 ((h value).mpr hmem.1)⟩

/-- For a manifest that repeats nothing, the gate's silence is agreement. -/
theorem checkProductContracts_eq_nil_iff (hids : (contracts.map Contract.id).Nodup)
    (hoperations : (contracts.map fun contract =>
      operation contract.method contract.path).Nodup) :
    checkProductContracts contracts source = [] ↔ Agrees contracts source := by
  constructor
  · intro h operation
    rw [h]
    exact ⟨List.not_mem_nil, List.not_mem_nil⟩
  · intro h
    apply List.eq_nil_iff_forall_not_mem.mpr
    intro failure hfailure
    have hsource := mem_checkProductContracts.mp hfailure
    rw [declared_failures hids hoperations] at hsource
    rcases hsource with hduplicate | ⟨operation, -, rfl⟩ | ⟨operation, -, rfl⟩
    · cases hduplicate
    · exact (h operation).1 hfailure
    · exact (h operation).2 hfailure

end Script
end AccountDirectory
