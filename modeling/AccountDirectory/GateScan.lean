import AccountDirectory.ContractGate

/-! What the gate's scan sees of a router, read off the calls themselves. The
expression matches a call that chains exactly `put` and `get`, in that order and
with nothing between their parentheses and the dot. A path that ends like the
head of a call starts a match of its own, which closes in the next call if that
call's path reads like arguments. -/
namespace AccountDirectory
open Library

/-- Written `put(`, `get(`. -/
def MethodCall.isPlain (call : MethodCall) (method : Method) : Bool :=
  call.method = method && call.beforeParen.val.isEmpty

namespace RouteCall

variable (route : RouteCall)

def endsInGet : Bool :=
  match route.chain with
  | [chained] => chained.beforeDot.val.isEmpty && chained.afterDot.val.isEmpty &&
      chained.call.isPlain .get && route.beforeEnd.val.all isJsSpace
  | _ => false

def endsInFirst : Bool := route.chain.isEmpty && route.beforeEnd.val.all isJsSpace

/-- `put(...).get(...)` behind the path. -/
def argumentsArePlain : Bool :=
  route.afterPath.val.all isJsSpace && route.afterComma.val.all isJsSpace &&
    route.first.isPlain .put && route.endsInGet

def isPlain : Bool := route.beforePath.val.all isJsSpace && route.argumentsArePlain

end RouteCall

/-- Up to its end, the path reads `.route(`. -/
def opensCall : List Char → Bool
  | [] => false
  | c :: rest => (match behind routeWord (c :: rest) with
      | some gap => gap.all isJsSpace
      | none => false) || opensCall rest

/-- Where a match ends that started in the path of the call before. -/
inductive Swallowed where
  | nowhere
  | atEnd
  /-- In the path, with `left` of it to go. -/
  | inPath (left : List Char)
deriving DecidableEq, Repr

/-- The path has to begin `, put(`, and each parenthesis it does not close the
call's own methods may close. -/
def RouteCall.swallowed (route : RouteCall) : Swallowed :=
  match behind [','] (route.path.val.dropWhile isJsSpace) with
  | none => .nowhere
  | some path =>
      match behind ['p', 'u', 't', '('] (path.dropWhile isJsSpace) with
      | none => .nowhere
      | some path =>
          match path.dropWhile notParen with
          | [] => if route.endsInGet then .atEnd else .nowhere
          | _ :: path =>
              match behind ['.', 'g', 'e', 't', '('] path with
              | none => .nowhere
              | some path =>
                  match path.dropWhile notParen with
                  | [] => if route.endsInFirst then .atEnd else .nowhere
                  | _ :: path =>
                      match behind [')'] (path.dropWhile isJsSpace) with
                      | none => .nowhere
                      | some left => .inPath left

/-- The paths the scan reports. It stands ahead of the calls, or, with `some`,
in the path of the call before them. -/
def seen : Option (List Char × RouteCall) → List RouteCall → List (List Char)
  | _, [] => []
  | none, route :: rest =>
      if route.isPlain then route.path.val :: seen none rest
      else seen (some (route.path.val, route)) rest
  | some (left, before), route :: rest =>
      match if opensCall left then route.swallowed else .nowhere with
      | .nowhere =>
          if route.isPlain then route.path.val :: seen none rest
          else seen (some (route.path.val, route)) rest
      | .atEnd => (before.arguments ++ route.head) :: seen none rest
      | .inPath left => (before.arguments ++ route.head) :: seen (some (left, route)) rest

theorem seen_inside (left : List Char) (before route : RouteCall) (rest : List RouteCall) :
    seen (some (left, before)) (route :: rest) =
      match if opensCall left then route.swallowed else .nowhere with
      | .nowhere => seen none (route :: rest)
      | .atEnd => (before.arguments ++ route.head) :: seen none rest
      | .inPath left => (before.arguments ++ route.head) :: seen (some (left, route)) rest := rfl

/-- The operations the gate takes the router to register. -/
def visible (router : List RouteCall) : Finset String :=
  ((seen none router).flatMap fun path =>
    [operation "PUT" (String.ofList path), operation "GET" (String.ofList path)]).toFinset

section Characters

variable {c : Char} {gap : Gap} {a : Char} {rest : List Char}

theorem ne_of_isRustSpace (h : isRustSpace c = true) (ha : isRustSpace a = false) : c ≠ a := by
  rintro rfl
  rw [h] at ha
  cases ha

theorem not_mem_gap (gap : Gap) (ha : isRustSpace a = false) : a ∉ gap.val :=
  fun hmem => ne_of_isRustSpace (gap.property a hmem) ha rfl

theorem not_mem_identifier (name : Identifier) (ha : (a.isAlphanum || a = '_') = false) :
    a ∉ name.val := by
  obtain ⟨name, hname⟩ := name
  intro hmem
  cases name with
  | nil => cases hmem
  | cons c rest =>
      simp only [isIdentifier, Bool.and_eq_true, List.all_eq_true] at hname
      rcases List.mem_cons.mp hmem with rfl | hrest
      · have hfirst := hname.1
        simp only [Char.isAlphanum, Bool.or_eq_false_iff] at ha
        rw [ha.1.1, ha.2] at hfirst
        cases hfirst
      · have hlater := hname.2 a hrest
        rw [ha] at hlater
        cases hlater

theorem notQuote_of_not_mem {run : List Char} (h : '"' ∉ run) : ∀ c ∈ run, notQuote c = true := by
  intro c hc
  rw [notQuote, decide_eq_true_iff]
  rintro rfl
  exact h hc

theorem notParen_of_not_mem {run : List Char} (h : ')' ∉ run) : ∀ c ∈ run, notParen c = true := by
  intro c hc
  rw [notParen, decide_eq_true_iff]
  rintro rfl
  exact h hc

end Characters

section Matching

variable {p : List (Piece Char)} {a : Char} {w : List Char}

theorem matchAt_lit_gap (gap : Gap) (ha : isRustSpace a = false) (text : List Char) :
    matchAt (.lit (a :: w) :: p) (gap.val ++ text) =
      if gap.val.isEmpty then matchAt (.lit (a :: w) :: p) text else none := by
  obtain ⟨gap, hgap⟩ := gap
  cases gap with
  | nil => rfl
  | cons c rest => exact matchAt_lit_of_ne (Ne.symm (ne_of_isRustSpace (hgap c (by simp)) ha))

theorem matchAt_many_space_gap (gap : Gap) (hspace : isJsSpace a = false)
    (ha : isRustSpace a = false) (text : List Char) :
    matchAt (.many isJsSpace :: .lit (a :: w) :: p) (gap.val ++ text) =
      if gap.val.all isJsSpace then matchAt (.many isJsSpace :: .lit (a :: w) :: p) text
      else none :=
  matchAt_many_gap hspace (not_mem_gap gap ha)

theorem matchAt_many_space_lit (gap : Gap) (hspace : isJsSpace a = false)
    (ha : isRustSpace a = false) (text : List Char) :
    matchAt (.many isJsSpace :: .lit (a :: w) :: p) (gap.val ++ a :: text) =
      if gap.val.all isJsSpace then matchAt (.lit w :: p) text else none := by
  rw [matchAt_many_space_gap gap hspace ha, matchAt_many_of_stop hspace hspace, matchAt_lit_self]

namespace MethodCall

variable (call : MethodCall)

theorem opening_eq : ∃ c rest, call.opening = c :: rest ∧ isJsSpace c = false ∧ c ≠ 'r' := by
  unfold opening
  cases call.method <;> exact ⟨_, _, rfl, by decide, by decide⟩

theorem not_mem_opening (hspace : isRustSpace a = false) (hname : (a.isAlphanum || a = '_') = false)
    (hparen : a ≠ '(') : a ∉ call.opening := by
  intro hmem
  simp only [opening, List.mem_append, List.mem_cons] at hmem
  have hmethod : isIdentifier call.method.name = true := by
    cases call.method <;> decide
  rcases hmem with (hmem | hmem) | heq | (hmem | hmem) | hmem
  · exact not_mem_identifier ⟨_, hmethod⟩ hname hmem
  · exact not_mem_gap _ hspace hmem
  · exact hparen heq
  · exact not_mem_gap _ hspace hmem
  · exact not_mem_identifier _ hname hmem
  · exact not_mem_gap _ hspace hmem

theorem notParen_inner : ∀ c ∈ call.afterParen.val ++ call.handler.val ++ call.beforeClose.val,
    notParen c = true := by
  apply notParen_of_not_mem
  intro hmem
  have hopening : ')' ∉ call.opening := call.not_mem_opening (by decide) (by decide) (by decide)
  apply hopening
  apply List.mem_append_right
  exact List.mem_cons_of_mem _ hmem

theorem matchAt_opening {method : Method} (hmethod : method = .put ∨ method = .get)
    (text : List Char) :
    matchAt (.lit (method.name ++ ['(']) :: .many notParen :: .lit (')' :: w) :: p)
        (call.opening ++ ')' :: text) =
      if call.isPlain method then matchAt (.lit w :: p) text else none := by
  have hinner : matchAt (.many notParen :: .lit (')' :: w) :: p)
      (call.afterParen.val ++ call.handler.val ++ call.beforeClose.val ++ ')' :: text) =
        matchAt (.lit w :: p) text := by
    rw [matchAt_many_run rfl call.notParen_inner, matchAt_many_of_stop rfl rfl, matchAt_lit_self]
  have hgap : matchAt (.lit ['('] :: .many notParen :: .lit (')' :: w) :: p)
      (call.beforeParen.val ++ '(' :: (call.afterParen.val ++ call.handler.val ++
        call.beforeClose.val ++ ')' :: text)) =
      if call.beforeParen.val.isEmpty then matchAt (.lit w :: p) text else none := by
    rw [matchAt_lit_gap _ (by decide), matchAt_lit_self, matchAt_lit_nil, hinner]
  have htext : call.opening ++ ')' :: text = call.method.name ++ (call.beforeParen.val ++ '(' ::
      (call.afterParen.val ++ call.handler.val ++ call.beforeClose.val ++ ')' :: text)) := by
    simp [opening]
  rw [htext, isPlain]
  rcases hmethod with rfl | rfl
  · cases call.method with
    | put => exact hgap
    | get | post | patch | delete | head | options =>
        simp [Method.name, matchAt_lit_cons]
  · cases call.method with
    | get => exact hgap
    | put | post | patch | delete | head | options =>
        simp [Method.name, matchAt_lit_cons]

end MethodCall

theorem matchAt_closing (chain : List Chained) (gap : Gap) (more : List Char) :
    matchAt closing (chain.flatMap Chained.text ++ gap.val ++ ')' :: more) =
      if chain.isEmpty && gap.val.all isJsSpace then some ([], more) else none := by
  unfold closing
  cases chain with
  | nil =>
      rw [List.flatMap_nil, List.nil_append, matchAt_many_space_lit _ (by decide) (by decide)]
      rfl
  | cons chained rest =>
      have htext : (chained :: rest).flatMap Chained.text ++ gap.val ++ ')' :: more =
          chained.beforeDot.val ++ '.' :: (chained.afterDot.val ++ chained.call.opening ++ [')'] ++
            (rest.flatMap Chained.text ++ gap.val ++ ')' :: more)) := by
        simp [Chained.text]
      rw [htext, matchAt_many_space_gap _ (by decide) (by decide),
        matchAt_many_of_stop (by decide) (by decide), matchAt_lit_of_ne (by decide), ite_self]
      rfl

theorem matchAt_getThenClosing (route : RouteCall) (more : List Char) :
    matchAt getThenClosing (route.chain.flatMap Chained.text ++ route.beforeEnd.val ++ ')' :: more) =
      if route.endsInGet then some ([], more) else none := by
  unfold getThenClosing RouteCall.endsInGet
  cases route.chain with
  | nil =>
      rw [List.flatMap_nil, List.nil_append, matchAt_lit_gap _ (by decide),
        matchAt_lit_of_ne (by decide), ite_self]
      rfl
  | cons chained rest =>
      have htext : (chained :: rest).flatMap Chained.text ++ route.beforeEnd.val ++ ')' :: more =
          chained.beforeDot.val ++ '.' :: (chained.afterDot.val ++ (chained.call.opening ++ ')' ::
            (rest.flatMap Chained.text ++ route.beforeEnd.val ++ ')' :: more))) := by
        simp [Chained.text]
      have hget := chained.call.matchAt_opening (w := []) (p := closing) (.inr rfl)
        (rest.flatMap Chained.text ++ route.beforeEnd.val ++ ')' :: more)
      rw [htext, matchAt_lit_gap _ (by decide), matchAt_lit_self, matchAt_lit_gap _ (by decide)]
      change (if _ then (if _ then matchAt (.lit (Method.get.name ++ ['(']) :: .many notParen ::
        .lit [')'] :: closing) _ else none) else none) = _
      rw [hget, matchAt_lit_nil, matchAt_closing]
      cases rest with
      | nil =>
          simp only [List.isEmpty_nil, Bool.true_and, Bool.and_eq_true, ite_and]
      | cons other rest =>
          simp only [List.isEmpty_cons, Bool.false_and, Bool.false_eq_true, if_false, ite_self]

theorem RouteCall.matchAt_arguments (route : RouteCall) (text : List Char) :
    matchAt (.many notParen :: .lit (')' :: w) :: p) (route.arguments ++ text) =
      matchAt (.lit w :: p) (route.chain.flatMap Chained.text ++ route.beforeEnd.val ++
        ')' :: text) := by
  have hgap (gap : Gap) : ')' ∉ gap.val := not_mem_gap gap (by decide)
  have hrun : ∀ c ∈ route.afterPath.val ++ ',' :: (route.afterComma.val ++ route.first.opening),
      notParen c = true := by
    have hfirst : ')' ∉ route.first.opening :=
      route.first.not_mem_opening (by decide) (by decide) (by decide)
    apply notParen_of_not_mem
    simp [hgap, hfirst]
  have htext : route.arguments ++ text = route.afterPath.val ++ ',' :: (route.afterComma.val ++
      route.first.opening) ++ ')' :: (route.chain.flatMap Chained.text ++ route.beforeEnd.val ++
        ')' :: text) := by
    simp [arguments, ending]
  rw [htext, matchAt_many_run rfl hrun, matchAt_many_of_stop rfl rfl, matchAt_lit_self]

theorem matchAt_afterPath (route : RouteCall) (more : List Char) :
    matchAt afterPath (route.arguments ++ more) =
      if route.argumentsArePlain then some ([], more) else none := by
  obtain ⟨c, rest, hopening, hspace, -⟩ := route.first.opening_eq
  have htext : route.arguments ++ more = route.afterPath.val ++ ',' :: (route.afterComma.val ++
      (route.first.opening ++ ')' :: (route.chain.flatMap Chained.text ++ route.beforeEnd.val ++
        ')' :: more))) := by
    simp [RouteCall.arguments, RouteCall.ending]
  have hput := route.first.matchAt_opening (w := []) (p := getThenClosing) (.inl rfl)
    (route.chain.flatMap Chained.text ++ route.beforeEnd.val ++ ')' :: more)
  rw [matchAt_lit_nil, matchAt_getThenClosing] at hput
  unfold afterPath RouteCall.argumentsArePlain
  rw [htext, matchAt_many_space_lit _ (by decide) (by decide), matchAt_lit_nil,
    matchAt_many_space_gap _ (by decide) (by decide)]
  rw [hopening, List.cons_append] at hput ⊢
  rw [matchAt_many_of_stop (by decide) hspace]
  change (if _ then (if _ then matchAt (.lit (Method.put.name ++ ['(']) :: .many notParen ::
    .lit [')'] :: getThenClosing) _ else none) else none) = _
  rw [hput]
  simp only [Bool.and_eq_true, ite_and]

end Matching

section Quotes

variable {a : Char}

theorem Chained.not_mem_text (chained : Chained) (hspace : isRustSpace a = false)
    (hname : (a.isAlphanum || a = '_') = false) (hmark : a ∉ ['.', '(', ')']) :
    a ∉ chained.text := by
  simp only [List.mem_cons, List.not_mem_nil, or_false, not_or] at hmark
  simp only [text, List.mem_append, List.mem_cons, List.not_mem_nil, or_false, not_or]
  exact ⟨not_mem_gap _ hspace, hmark.1,
    ⟨not_mem_gap _ hspace, chained.call.not_mem_opening hspace hname hmark.2.1⟩, hmark.2.2⟩

theorem RouteCall.quote_not_mem_arguments (route : RouteCall) : '"' ∉ route.arguments := by
  have hfirst : '"' ∉ route.first.opening :=
    route.first.not_mem_opening (by decide) (by decide) (by decide)
  have hchain : '"' ∉ route.chain.flatMap Chained.text := by
    rw [List.mem_flatMap]
    rintro ⟨chained, -, hmem⟩
    exact chained.not_mem_text (by decide) (by decide) (by decide) hmem
  have hgap (gap : Gap) : '"' ∉ gap.val := not_mem_gap gap (by decide)
  simp [arguments, ending, hfirst, hchain, hgap]

theorem RouteCall.quote_not_mem_head (route : RouteCall) : '"' ∉ route.head := by
  have hgap (gap : Gap) : '"' ∉ gap.val := not_mem_gap gap (by decide)
  simp [head, routeWord, hgap]

end Quotes

section Scan

theorem findAll_of_no_dot {run : List Char} (h : '.' ∉ run) (text : List Char) :
    findAll routePattern 0 (run ++ text) = findAll routePattern 0 text :=
  findAll_append_of_not_mem h

theorem findAll_dot {c : Char} (h : c ≠ 'r') (text : List Char) :
    findAll routePattern 0 ('.' :: c :: text) = findAll routePattern 0 (c :: text) := by
  apply findAll_of_none
  unfold routePattern routeWord
  rw [matchAt_lit_self]
  exact matchAt_lit_of_ne (Ne.symm h)

theorem findAll_chained (chained : Chained) (text : List Char) :
    findAll routePattern 0 (chained.text ++ text) = findAll routePattern 0 text := by
  have hopening : '.' ∉ chained.call.opening :=
    chained.call.not_mem_opening (by decide) (by decide) (by decide)
  have hrun : '.' ∉ chained.afterDot.val ++ chained.call.opening ++ [')'] := by
    simp [hopening, not_mem_gap chained.afterDot (a := '.') (by decide)]
  have hhead : ∃ c rest, chained.afterDot.val ++ chained.call.opening ++ [')'] = c :: rest ∧
      c ≠ 'r' := by
    cases hgap : chained.afterDot.val with
    | nil =>
        obtain ⟨c, rest, heq, -, hne⟩ := chained.call.opening_eq
        exact ⟨c, rest ++ [')'], by rw [heq]; rfl, hne⟩
    | cons c rest =>
        refine ⟨c, _, rfl, ?_⟩
        rintro rfl
        exact not_mem_gap chained.afterDot (a := 'r') (by decide) (by rw [hgap]; simp)
  have htext : chained.text ++ text = chained.beforeDot.val ++ '.' :: (chained.afterDot.val ++
      chained.call.opening ++ [')'] ++ text) := by
    simp [Chained.text]
  rw [htext, findAll_of_no_dot (not_mem_gap _ (by decide))]
  obtain ⟨c, rest, heq, hne⟩ := hhead
  rw [← findAll_of_no_dot hrun text, heq, List.cons_append, findAll_dot hne]

/-- The scan passes over what stands behind a path literal. -/
theorem findAll_arguments (route : RouteCall) (text : List Char) :
    findAll routePattern 0 (route.arguments ++ text) = findAll routePattern 0 text := by
  have hfirst : '.' ∉ route.first.opening :=
    route.first.not_mem_opening (by decide) (by decide) (by decide)
  have hgap (gap : Gap) : '.' ∉ gap.val := not_mem_gap gap (by decide)
  have hfront : '.' ∉ route.afterPath.val ++ ',' :: (route.afterComma.val ++ route.first.opening ++
      [')']) := by
    simp [hfirst, hgap]
  have hchain (chain : List Chained) (text : List Char) :
      findAll routePattern 0 (chain.flatMap Chained.text ++ text) = findAll routePattern 0 text := by
    induction chain with
    | nil => rfl
    | cons chained rest ih =>
        rw [List.flatMap_cons, List.append_assoc, findAll_chained, ih]
  have hback : '.' ∉ route.beforeEnd.val ++ [')'] := by
    simp [hgap]
  have htext : route.arguments ++ text = route.afterPath.val ++ ',' :: (route.afterComma.val ++
      route.first.opening ++ [')']) ++ (route.chain.flatMap Chained.text ++
        (route.beforeEnd.val ++ [')'] ++ text)) := by
    simp [RouteCall.arguments, RouteCall.ending]
  rw [htext, findAll_of_no_dot hfront, hchain, findAll_of_no_dot hback]

theorem matchAt_route (route : RouteCall) (text : List Char) :
    matchAt routePattern (routeWord ++ (route.beforePath.val ++ '"' :: (route.path.val ++ '"' ::
      (route.arguments ++ text)))) = if route.isPlain then some ([route.path.val], text) else none := by
  have hpath := notQuote_of_not_mem route.path.property.2
  unfold routePattern
  rw [matchAt_lit_append, matchAt_many_space_lit _ (by decide) (by decide), matchAt_lit_nil,
    matchAt_capture_run rfl hpath route.path.property.1, matchAt_lit_self, matchAt_lit_nil,
    matchAt_afterPath]
  unfold RouteCall.isPlain
  cases route.beforePath.val.all isJsSpace with
  | false => rfl
  | true =>
      rw [if_pos rfl, Bool.true_and]
      split
      · rfl
      · rfl

theorem findAll_route (route : RouteCall) (text : List Char) :
    findAll routePattern 0 (route.text ++ text) =
      if route.isPlain then [route.path.val] :: findAll routePattern 0 text
      else findAll routePattern 0 (route.path.val ++ '"' :: (route.arguments ++ text)) := by
  have hmatch := matchAt_route route text
  have htext : route.text ++ text = route.before.val ++ (routeWord ++ (route.beforePath.val ++ '"' ::
      (route.path.val ++ '"' :: (route.arguments ++ text)))) := by
    simp [RouteCall.text, RouteCall.head]
  rw [htext, findAll_of_no_dot (not_mem_gap _ (by decide))]
  split
  · rename_i hplain
    rw [if_pos hplain] at hmatch
    have hcall : routeWord ++ (route.beforePath.val ++ '"' :: (route.path.val ++ '"' ::
        (route.arguments ++ text))) = '.' :: (['r', 'o', 'u', 't', 'e', '('] ++
          route.beforePath.val ++ '"' :: (route.path.val ++ '"' :: route.arguments)) ++ text := by
      simp [routeWord]
    rw [hcall] at hmatch ⊢
    exact findAll_of_match hmatch
  · rename_i hplain
    rw [if_neg hplain] at hmatch
    have hrun : '.' ∉ ['r', 'o', 'u', 't', 'e', '('] ++ route.beforePath.val ++ ['"'] := by
      simp [not_mem_gap route.beforePath (a := '.') (by decide)]
    have hcall : ['r', 'o', 'u', 't', 'e', '('] ++ (route.beforePath.val ++ '"' ::
        (route.path.val ++ '"' :: (route.arguments ++ text))) = ['r', 'o', 'u', 't', 'e', '('] ++
          route.beforePath.val ++ ['"'] ++ (route.path.val ++ '"' :: (route.arguments ++ text)) := by
      simp
    rw [routeWord, List.cons_append] at hmatch ⊢
    rw [findAll_of_none hmatch, hcall, findAll_of_no_dot hrun]

/-- From inside a path: a match that starts there has its quote from behind it. -/
theorem findAll_left {left : List Char} (hquote : '"' ∉ left) (text : List Char) :
    findAll routePattern 0 (left ++ '"' :: text) =
      match if opensCall left then matchAt (.capture notQuote :: .lit ['"'] :: afterPath) text
        else none with
      | some (captured, rest) => captured :: findAll routePattern 0 rest
      | none => findAll routePattern 0 text := by
  induction left with
  | nil =>
      have hquoteOnly : '.' ∉ ['"'] := by decide
      exact findAll_of_no_dot hquoteOnly text
  | cons c left ih =>
      have hhere : matchAt routePattern (c :: left ++ '"' :: text) =
          if (match behind routeWord (c :: left) with
            | some gap => gap.all isJsSpace
            | none => false) then matchAt (.capture notQuote :: .lit ['"'] :: afterPath) text
          else none := by
        unfold routePattern
        rw [matchAt_lit_delimited (by decide)]
        cases hbehind : behind routeWord (c :: left) with
        | none => rfl
        | some gap =>
            rw [behind_eq_some] at hbehind
            have hgap : '"' ∉ gap := by
              intro hmem
              rw [hbehind] at hquote
              exact hquote (List.mem_append_right _ hmem)
            dsimp only
            rw [matchAt_many_gap (by decide) hgap, matchAt_many_of_stop (by decide) (by decide),
              matchAt_lit_self, matchAt_lit_nil]
      have hlater := ih fun hmem => hquote (List.mem_cons_of_mem _ hmem)
      rw [opensCall]
      generalize hopens : (match behind routeWord (c :: left) with
        | some gap => gap.all isJsSpace
        | none => false) = opens at hhere ⊢
      cases opens with
      | false =>
          rw [List.cons_append] at hhere ⊢
          rw [findAll_of_none hhere, hlater, Bool.false_or]
      | true =>
          rw [if_pos rfl] at hhere
          rw [Bool.true_or, if_pos rfl]
          cases hfound : matchAt (.capture notQuote :: .lit ['"'] :: afterPath) text with
          | none =>
              rw [hfound, List.cons_append] at hhere
              rw [hfound, ite_self] at hlater
              rw [List.cons_append, findAll_of_none hhere, hlater]
          | some found =>
              obtain ⟨captured, rest⟩ := found
              obtain ⟨taken, rfl⟩ := matchAt_suffix hfound
              rw [hfound] at hhere
              have htext : c :: left ++ '"' :: (taken ++ rest) =
                  c :: (left ++ '"' :: taken) ++ rest := by
                simp
              rw [htext] at hhere ⊢
              exact findAll_of_match hhere

theorem matchAt_put_arguments (route : RouteCall) (text : List Char) :
    matchAt (.many notParen :: .lit [')'] :: getThenClosing) (route.arguments ++ text) =
      if route.endsInGet then some ([], text) else none := by
  rw [route.matchAt_arguments, matchAt_lit_nil, matchAt_getThenClosing]

theorem matchAt_get_arguments (route : RouteCall) (text : List Char) :
    matchAt (.many notParen :: .lit [')'] :: closing) (route.arguments ++ text) =
      if route.endsInFirst then some ([], text) else none := by
  rw [route.matchAt_arguments, matchAt_lit_nil, matchAt_closing]
  rfl

theorem matchAt_path (route : RouteCall) (text : List Char) :
    matchAt afterPath (route.path.val ++ '"' :: (route.arguments ++ text)) =
      match route.swallowed with
      | .nowhere => none
      | .atEnd => some ([], text)
      | .inPath left => some ([], left ++ '"' :: (route.arguments ++ text)) := by
  have hparen : ∀ c, notParen c = false → c = ')' := fun c hc => by simpa [notParen] using hc
  unfold afterPath RouteCall.swallowed
  rw [matchAt_many_delimited (by decide) (by decide) (by decide)]
  cases behind [','] (route.path.val.dropWhile isJsSpace) with
  | none => rfl
  | some path =>
      dsimp only
      rw [matchAt_many_delimited (by decide) (by decide) (by decide)]
      cases behind ['p', 'u', 't', '('] (path.dropWhile isJsSpace) with
      | none => rfl
      | some path =>
          dsimp only
          rw [matchAt_many_past rfl rfl hparen]
          cases path.dropWhile notParen with
          | nil =>
              dsimp only
              rw [matchAt_put_arguments]
              cases route.endsInGet with
              | false => rfl
              | true => rfl
          | cons _ path =>
              dsimp only
              unfold getThenClosing
              rw [matchAt_lit_nil, matchAt_lit_delimited (by decide)]
              cases behind ['.', 'g', 'e', 't', '('] path with
              | none => rfl
              | some path =>
                  dsimp only
                  rw [matchAt_many_past rfl rfl hparen]
                  cases path.dropWhile notParen with
                  | nil =>
                      dsimp only
                      rw [matchAt_get_arguments]
                      cases route.endsInFirst with
                      | false => rfl
                      | true => rfl
                  | cons _ path =>
                      dsimp only
                      unfold closing
                      rw [matchAt_lit_nil, matchAt_many_delimited (by decide) (by decide)
                        (by decide)]
                      cases behind [')'] (path.dropWhile isJsSpace) with
                      | none => rfl
                      | some left => rfl

theorem quote_not_mem_of_swallowed {route : RouteCall} {left : List Char}
    (h : route.swallowed = .inPath left) : '"' ∉ left := by
  have hmatch := matchAt_path route []
  rw [h] at hmatch
  obtain ⟨taken, htaken⟩ := matchAt_suffix hmatch
  rw [← List.append_assoc, List.append_left_inj] at htaken
  intro hmem
  apply route.path.property.2
  rw [← htaken]
  exact List.mem_append_right _ hmem

theorem matchAt_from_quote (before route : RouteCall) (text : List Char) :
    matchAt (.capture notQuote :: .lit ['"'] :: afterPath)
        (before.arguments ++ (route.text ++ text)) =
      match route.swallowed with
      | .nowhere => none
      | .atEnd => some ([before.arguments ++ route.head], text)
      | .inPath left => some ([before.arguments ++ route.head],
          left ++ '"' :: (route.arguments ++ text)) := by
  have hrun : ∀ c ∈ before.arguments ++ route.head, notQuote c = true := by
    apply notQuote_of_not_mem
    rw [List.mem_append, not_or]
    exact ⟨before.quote_not_mem_arguments, route.quote_not_mem_head⟩
  have hne : before.arguments ++ route.head ≠ [] := by
    simp [RouteCall.arguments]
  have htext : before.arguments ++ (route.text ++ text) = before.arguments ++ route.head ++ '"' ::
      (route.path.val ++ '"' :: (route.arguments ++ text)) := by
    simp [RouteCall.text]
  rw [htext, matchAt_capture_run rfl hrun hne, matchAt_lit_self, matchAt_lit_nil, matchAt_path]
  cases route.swallowed with
  | nowhere => rfl
  | atEnd => rfl
  | inPath left => rfl

/-- The scan of a router's text, from ahead of its calls and from inside a path. -/
theorem findAll_router (router : List RouteCall) :
    findAll routePattern 0 (router.flatMap RouteCall.text) = (seen none router).map ([·]) ∧
    ∀ left before, '"' ∉ left → findAll routePattern 0 (left ++ '"' :: (before.arguments ++
      router.flatMap RouteCall.text)) = (seen (some (left, before)) router).map ([·]) := by
  induction router with
  | nil =>
      refine ⟨rfl, fun left before hquote => ?_⟩
      have hnone : matchAt (.capture notQuote :: .lit ['"'] :: afterPath) before.arguments = none :=
        matchAt_capture_all rfl (notQuote_of_not_mem before.quote_not_mem_arguments)
      have hpassed := findAll_arguments before []
      rw [List.append_nil] at hpassed
      rw [List.flatMap_nil, List.append_nil, findAll_left hquote, hnone, ite_self, seen]
      exact hpassed
  | cons route rest ih =>
      have hahead : findAll routePattern 0 ((route :: rest).flatMap RouteCall.text) =
          (seen none (route :: rest)).map ([·]) := by
        rw [List.flatMap_cons, findAll_route, ih.1, ih.2 _ _ route.path.property.2, seen]
        split
        · rfl
        · rfl
      refine ⟨hahead, fun left before hquote => ?_⟩
      rw [findAll_left hquote, List.flatMap_cons, matchAt_from_quote, findAll_arguments,
        ← List.flatMap_cons, hahead, seen_inside]
      cases opensCall left with
      | false => rfl
      | true =>
          rw [if_pos rfl, if_pos rfl]
          cases hswallowed : route.swallowed with
          | nowhere => rfl
          | atEnd =>
              dsimp only
              rw [ih.1]
              rfl
          | inPath left =>
              dsimp only
              rw [ih.2 _ _ (quote_not_mem_of_swallowed hswallowed)]
              rfl

end Scan

section Gate

variable {router : List RouteCall} {contracts : List Contract} {value : String}

theorem routePaths_routerSource (router : List RouteCall) :
    routePaths (routerSource router) = (seen none router).map String.ofList := by
  unfold routePaths routerSource
  rw [String.toList_ofList, (findAll_router router).1, List.filterMap_map]
  exact congrFun List.filterMap_eq_map _

theorem mem_registered {source : String} : value ∈ registered source ↔
    ∃ path ∈ routePaths source, value = operation "PUT" path ∨ value = operation "GET" path := by
  unfold registered
  induction routePaths source using List.reverseRecOn with
  | nil => simp
  | append_singleton paths path ih =>
      rw [List.foldl_append, List.foldl_cons, List.foldl_nil, mem_setAdd, mem_setAdd, ih]
      simp only [List.mem_append, List.mem_singleton, or_and_right, exists_or, exists_eq_left,
        or_assoc]

/-- What the scan finds in a router's text is what it sees of the calls. -/
theorem registered_routerSource (router : List RouteCall) :
    (registered (routerSource router)).toFinset = visible router := by
  ext value
  rw [visible, List.mem_toFinset, List.mem_toFinset, mem_registered, routePaths_routerSource,
    List.mem_flatMap]
  simp only [List.mem_map, exists_exists_and_eq_and, List.mem_cons, List.not_mem_nil, or_false]

/-- The gate accepts exactly the manifests that declare what the scan sees. -/
theorem agrees_routerSource_iff : Agrees contracts (routerSource router) ↔
    visible router = declares contracts := by
  rw [agrees_iff, registered_routerSource]

end Gate

end AccountDirectory
