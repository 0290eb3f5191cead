import Mathlib.Data.List.Forall2

/-! A list visited in order by a step that may fail and that carries a state. -/
namespace AccountDirectory.Library

variable {ε σ α β : Type*}

def traverse (visit : σ → α → Except ε (σ × β)) (s : σ) : List α → Except ε (σ × List β)
  | [] => .ok (s, [])
  | a :: rest =>
      match visit s a with
      | .error e => .error e
      | .ok (s, b) =>
          match traverse visit s rest with
          | .error e => .error e
          | .ok (s, bs) => .ok (s, b :: bs)

variable {visit : σ → α → Except ε (σ × β)} {s s' : σ} {a : α} {rest xs : List α} {bs : List β}

theorem traverse_cons_eq_ok : traverse visit s (a :: rest) = .ok (s', bs) ↔
    ∃ mid b tail, visit s a = .ok (mid, b) ∧ traverse visit mid rest = .ok (s', tail) ∧
      bs = b :: tail := by
  rw [traverse]
  cases hvisit : visit s a with
  | error e => exact iff_of_false nofun nofun
  | ok found =>
      obtain ⟨mid, b⟩ := found
      dsimp only
      cases htail : traverse visit mid rest with
      | error e =>
          refine iff_of_false nofun ?_
          rintro ⟨_, _, tail, ⟨⟩, hrest, -⟩
          rw [htail] at hrest
          cases hrest
      | ok tail =>
          constructor
          · rintro ⟨⟩
            exact ⟨mid, b, _, rfl, htail, rfl⟩
          · rintro ⟨_, _, tail, ⟨⟩, hrest, rfl⟩
            rw [htail] at hrest
            cases hrest
            rfl

/-- A visit keeps `inv`, moves the state along `le`, and leaves each result in
relation to its element; the relation lasts as the state moves on. -/
structure Visits (inv : σ → Prop) (le : σ → σ → Prop) (rel : σ → α → β → Prop)
    (visit : σ → α → Except ε (σ × β)) : Prop where
  keeps : ∀ {s a s' b}, inv s → visit s a = .ok (s', b) → inv s' ∧ le s s' ∧ rel s' a b

theorem Visits.traverse {inv : σ → Prop} {le : σ → σ → Prop} {rel : σ → α → β → Prop}
    (h : Visits inv le rel visit) (hrefl : ∀ s, le s s)
    (htrans : ∀ {a b c}, le a b → le b c → le a c)
    (hlasts : ∀ {s s' a b}, le s s' → rel s a b → rel s' a b) (hinv : inv s)
    (hok : traverse visit s xs = .ok (s', bs)) :
    inv s' ∧ le s s' ∧ List.Forall₂ (rel s') xs bs := by
  induction xs generalizing s bs with
  | nil =>
      cases hok
      exact ⟨hinv, hrefl _, .nil⟩
  | cons a rest ih =>
      obtain ⟨mid, b, tail, hvisit, hrest, rfl⟩ := traverse_cons_eq_ok.mp hok
      obtain ⟨hmid, hle, hrel⟩ := h.keeps hinv hvisit
      obtain ⟨hlast, hle', htail⟩ := ih hmid hrest
      exact ⟨hlast, htrans hle hle', .cons (hlasts hle' hrel) htail⟩

/-- What each visit of the list keeps, the traversal keeps. -/
theorem traverse_keeps {inv : σ → Prop}
    (h : ∀ a ∈ xs, ∀ s s' b, inv s → visit s a = .ok (s', b) → inv s') (hinv : inv s)
    (hok : traverse visit s xs = .ok (s', bs)) : inv s' := by
  induction xs generalizing s bs with
  | nil =>
      cases hok
      exact hinv
  | cons a rest ih =>
      rw [List.forall_mem_cons] at h
      obtain ⟨mid, b, tail, hvisit, hrest, rfl⟩ := traverse_cons_eq_ok.mp hok
      exact ih h.2 (h.1 s mid b hinv hvisit) hrest

/-- A traversal returns where each of its visits does, from every state the
visits before it can leave. -/
theorem traverse_returns {inv : σ → Prop}
    (h : ∀ a ∈ xs, ∀ s, inv s → ∃ s' b, visit s a = .ok (s', b) ∧ inv s') (hinv : inv s) :
    ∃ s' bs, traverse visit s xs = .ok (s', bs) ∧ inv s' := by
  induction xs generalizing s with
  | nil => exact ⟨s, [], rfl, hinv⟩
  | cons a rest ih =>
      rw [List.forall_mem_cons] at h
      obtain ⟨mid, b, hvisit, hmid⟩ := h.1 s hinv
      obtain ⟨last, tail, hrest, hlast⟩ := ih h.2 hmid
      exact ⟨last, b :: tail, traverse_cons_eq_ok.mpr ⟨mid, b, tail, hvisit, hrest, rfl⟩, hlast⟩

theorem traverse_append_eq_ok {ys : List α} : traverse visit s (xs ++ ys) = .ok (s', bs) ↔
    ∃ mid front back, traverse visit s xs = .ok (mid, front) ∧
      traverse visit mid ys = .ok (s', back) ∧ bs = front ++ back := by
  induction xs generalizing s bs with
  | nil =>
      constructor
      · exact fun hok => ⟨s, [], bs, rfl, hok, rfl⟩
      · rintro ⟨_, _, _, ⟨⟩, hok, rfl⟩
        exact hok
  | cons a rest ih =>
      rw [List.cons_append, traverse_cons_eq_ok]
      constructor
      · rintro ⟨next, b, tail, hvisit, hrest, rfl⟩
        obtain ⟨mid, front, back, hfront, hback, rfl⟩ := ih.mp hrest
        exact ⟨mid, b :: front, back, traverse_cons_eq_ok.mpr ⟨next, b, front, hvisit, hfront, rfl⟩,
          hback, rfl⟩
      · rintro ⟨mid, _, back, hfront, hback, rfl⟩
        obtain ⟨next, b, front, hvisit, hrest, rfl⟩ := traverse_cons_eq_ok.mp hfront
        exact ⟨next, b, front ++ back, hvisit, ih.mpr ⟨mid, front, back, hrest, hback, rfl⟩, rfl⟩

/-- A visit that is followed by another along a map of states is followed so over a list. -/
theorem traverse_along {τ : Type*} {visit' : τ → α → Except ε (τ × β)} {f : σ → τ}
    (h : ∀ {s a s' b}, visit s a = .ok (s', b) → visit' (f s) a = .ok (f s', b))
    (hok : traverse visit s xs = .ok (s', bs)) : traverse visit' (f s) xs = .ok (f s', bs) := by
  induction xs generalizing s bs with
  | nil =>
      cases hok
      rfl
  | cons a rest ih =>
      obtain ⟨mid, b, tail, hvisit, hrest, rfl⟩ := traverse_cons_eq_ok.mp hok
      exact traverse_cons_eq_ok.mpr ⟨f mid, b, tail, h hvisit, ih hrest, rfl⟩

theorem traverse_map {γ : Type*} (g : γ → α) (xs : List γ) :
    traverse visit s (xs.map g) = traverse (fun s c => visit s (g c)) s xs := by
  induction xs generalizing s with
  | nil => rfl
  | cons c rest ih =>
      rw [List.map_cons, traverse, traverse]
      cases visit s (g c) with
      | error e => rfl
      | ok found =>
          dsimp only
          rw [ih]

/-- What a fold gathers, where each of its steps adds to what is read of the
state what `adds` says. -/
theorem foldl_gathers {τ γ δ : Type*} (step : τ → γ → τ) (read : τ → δ → Prop)
    {adds : γ → δ → Prop} (hstep : ∀ t c d, read (step t c) d ↔ read t d ∨ adds c d)
    (cs : List γ) (t : τ) (d : δ) :
    read (cs.foldl step t) d ↔ read t d ∨ ∃ c ∈ cs, adds c d := by
  induction cs generalizing t with
  | nil => simp
  | cons c cs ih =>
      rw [List.foldl_cons, ih, hstep, or_assoc]
      simp only [List.mem_cons, exists_eq_or_imp]

end AccountDirectory.Library
