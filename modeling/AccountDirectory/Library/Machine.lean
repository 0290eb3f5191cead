import Mathlib.Data.List.Basic
import Mathlib.Data.List.Forall2

/-! Deterministic input/output machines and what holds along their runs. The
rules below carry the inductions over runs: an invariant, a budget that each
input may spend one unit of, a relation to all later states, the first change
in a run, a simulation between two machines, and the inputs that are answered
as if they were alone. -/
namespace AccountDirectory.Library

/-- Every input is answered and moves the state; a refused input is one that
leaves the state where it was. -/
structure Machine (S I O : Type*) where
  step : S → I → O × S

namespace Machine

variable {S I O T J Q : Type*}

def after (M : Machine S I O) : S → List I → S
  | s, [] => s
  | s, i :: is => M.after (M.step s i).2 is

def outputs (M : Machine S I O) : S → List I → List O
  | _, [] => []
  | s, i :: is => (M.step s i).1 :: M.outputs (M.step s i).2 is

/-- `P` holds of every input of the run and the state it meets. -/
def Along (M : Machine S I O) (P : S → I → Prop) : S → List I → Prop
  | _, [] => True
  | s, i :: is => P s i ∧ M.Along P (M.step s i).2 is

instance decidableAlong (M : Machine S I O) (P : S → I → Prop) [∀ s i, Decidable (P s i)] :
    (s : S) → (is : List I) → Decidable (M.Along P s is)
  | _, [] => isTrue trivial
  | s, i :: is =>
      have := decidableAlong M P (M.step s i).2 is
      inferInstanceAs (Decidable (P s i ∧ M.Along P (M.step s i).2 is))

variable (M : Machine S I O) (N : Machine T J Q)

@[simp] theorem after_nil (s : S) : M.after s [] = s := rfl

@[simp] theorem after_cons (s : S) (i : I) (is : List I) :
    M.after s (i :: is) = M.after (M.step s i).2 is := rfl

@[simp] theorem outputs_nil (s : S) : M.outputs s [] = [] := rfl

@[simp] theorem outputs_cons (s : S) (i : I) (is : List I) :
    M.outputs s (i :: is) = (M.step s i).1 :: M.outputs (M.step s i).2 is := rfl

@[simp] theorem along_nil (P : S → I → Prop) (s : S) : M.Along P s [] := trivial

@[simp] theorem along_cons (P : S → I → Prop) (s : S) (i : I) (is : List I) :
    M.Along P s (i :: is) ↔ P s i ∧ M.Along P (M.step s i).2 is := Iff.rfl

@[simp] theorem after_append (s : S) (xs ys : List I) :
    M.after s (xs ++ ys) = M.after (M.after s xs) ys := by
  induction xs generalizing s with
  | nil => rfl
  | cons i is ih => exact ih _

theorem getElem?_outputs (s : S) (is : List I) (n : Nat) :
    (M.outputs s is)[n]? = is[n]?.map fun i => (M.step (M.after s (is.take n)) i).1 := by
  induction is generalizing s n with
  | nil => rfl
  | cons i is ih =>
      cases n with
      | zero => rfl
      | succ n => simpa using ih _ n

theorem along_append (P : S → I → Prop) (s : S) (xs ys : List I) :
    M.Along P s (xs ++ ys) ↔ M.Along P s xs ∧ M.Along P (M.after s xs) ys := by
  induction xs generalizing s with
  | nil => simp
  | cons i is ih => simp only [List.cons_append, along_cons, after_cons, ih, and_assoc]

/-- A run statement read at one input: `P` holds along the run exactly when it
holds wherever the run can be cut. -/
theorem along_iff_forall_cut (P : S → I → Prop) (s : S) (is : List I) :
    M.Along P s is ↔ ∀ pre i post, is = pre ++ i :: post → P (M.after s pre) i := by
  constructor
  · rintro h pre i post rfl
    exact ((M.along_append P s pre _).mp h).2.1
  · intro h
    induction is generalizing s with
    | nil => trivial
    | cons i is ih =>
        refine ⟨h [] i is rfl, ih _ fun pre j post heq => ?_⟩
        exact h (i :: pre) j post (by rw [heq, List.cons_append])

/-- What holds of all answers holds along the run, of each answer where it is given. -/
theorem along_outputs (R : O → Prop) (s : S) (is : List I) :
    M.Along (fun s i => R (M.step s i).1) s is ↔ ∀ o ∈ M.outputs s is, R o := by
  induction is generalizing s with
  | nil => simp
  | cons i is ih => simp [ih]

variable {M}

theorem Along.mono {P R : S → I → Prop} (himp : ∀ s i, P s i → R s i) {s : S} {is : List I}
    (h : M.Along P s is) : M.Along R s is := by
  induction is generalizing s with
  | nil => trivial
  | cons i is ih => exact ⟨himp _ _ h.1, ih h.2⟩

theorem Along.of_initial {P : S → I → Prop} {s : S} {xs ys : List I} (h : M.Along P s ys)
    (hpre : xs <+: ys) : M.Along P s xs := by
  obtain ⟨rest, rfl⟩ := hpre
  exact ((M.along_append P s xs rest).mp h).1

theorem Along.and {P R : S → I → Prop} {s : S} {is : List I}
    (hp : M.Along P s is) (hr : M.Along R s is) : M.Along (fun s i => P s i ∧ R s i) s is := by
  induction is generalizing s with
  | nil => trivial
  | cons i is ih => exact ⟨⟨hp.1, hr.1⟩, ih hp.2 hr.2⟩

theorem along_of_forall {P : S → I → Prop} (h : ∀ s i, P s i) (s : S) (is : List I) :
    M.Along P s is := by
  induction is generalizing s with
  | nil => trivial
  | cons i is ih => exact ⟨h _ _, ih _⟩

theorem along_of_mem {Q : I → Prop} (s : S) {is : List I} (h : ∀ i ∈ is, Q i) :
    M.Along (fun _ i => Q i) s is := by
  induction is generalizing s with
  | nil => trivial
  | cons i is ih => exact ⟨h i (by simp), ih _ fun j hj => h j (by simp [hj])⟩

/-- The budget rule: `G n` describes the states from which `n` inputs are
still to come. -/
theorem after_budget {G : Nat → S → Prop} {P : S → I → Prop}
    (hstep : ∀ n s i, G (n + 1) s → P s i → G n (M.step s i).2)
    {s : S} {is : List I} {n : Nat} (hs : G (is.length + n) s) (hp : M.Along P s is) :
    G n (M.after s is) := by
  induction is generalizing s with
  | nil => simpa using hs
  | cons i is ih =>
      apply ih _ hp.2
      apply hstep _ _ _ _ hp.1
      rwa [List.length_cons, Nat.add_right_comm] at hs

theorem after_invariant {G : S → Prop} {P : S → I → Prop}
    (hstep : ∀ s i, G s → P s i → G (M.step s i).2)
    {s : S} {is : List I} (hs : G s) (hp : M.Along P s is) : G (M.after s is) :=
  @after_budget S I O M (fun _ => G) P (fun _ => hstep) s is 0 hs hp

/-- A relation between states that every step can only extend relates a state
to all later ones. -/
theorem after_rel {R : S → S → Prop} (hrefl : ∀ s, R s s)
    (htrans : ∀ {s t u}, R s t → R t u → R s u) (hstep : ∀ s i, R s (M.step s i).2)
    (s : S) (is : List I) : R s (M.after s is) := by
  induction is generalizing s with
  | nil => exact hrefl s
  | cons i is ih =>
      apply htrans (hstep s i)
      exact ih (M.step s i).2

theorem after_extends {f : S → List T} (hstep : ∀ s i, f s <+: f (M.step s i).2)
    (s : S) (is : List I) : f s <+: f (M.after s is) :=
  after_rel (R := fun s t => f s <+: f t) (fun s => List.prefix_refl (f s))
    (fun h h' => h.trans h') hstep s is

/-- What a run changed, one of its inputs changed. -/
theorem exists_cut_of_ne {f : S → T} {s : S} {is : List I} (h : f (M.after s is) ≠ f s) :
    ∃ pre i post, is = pre ++ i :: post ∧ f (M.after s pre) = f s ∧
      f (M.step (M.after s pre) i).2 ≠ f (M.after s pre) := by
  induction is generalizing s with
  | nil => exact absurd rfl h
  | cons i is ih =>
      by_cases hfirst : f (M.step s i).2 = f s
      · obtain ⟨pre, j, post, rfl, hsame, hchange⟩ := ih (hfirst.symm ▸ h)
        exact ⟨i :: pre, j, post, rfl, hsame.trans hfirst, hchange⟩
      · exact ⟨[], i, is, rfl, rfl, hfirst⟩

variable {N}

/-- The simulation rule: related inputs met in related states get related
answers and leave related states. `R is` relates the states from which the
inputs `is` are still to come. -/
theorem simulation_ahead {R : List I → S → T → Prop} {A : I → J → Prop} {B : O → Q → Prop}
    {P : S → I → Prop} {F : T → J → Prop}
    (hstep : ∀ is s t i j, R (i :: is) s t → A i j → P s i → F t j →
      B (M.step s i).1 (N.step t j).1 ∧ R is (M.step s i).2 (N.step t j).2)
    {s : S} {t : T} {is : List I} {js : List J} (hin : List.Forall₂ A is js)
    (hs : R is s t) (hp : M.Along P s is) (hp' : N.Along F t js) :
    List.Forall₂ B (M.outputs s is) (N.outputs t js) ∧ R [] (M.after s is) (N.after t js) := by
  induction hin generalizing s t with
  | nil => exact ⟨.nil, hs⟩
  | @cons i j is js hij _ ih =>
      obtain ⟨hout, hrel⟩ := hstep _ _ _ _ _ hs hij hp.1 hp'.1
      obtain ⟨houts, hend⟩ := ih hrel hp.2 hp'.2
      exact ⟨.cons hout houts, hend⟩

/-- The same with only the number of inputs to come in view. -/
theorem simulation {R : Nat → S → T → Prop} {A : I → J → Prop} {B : O → Q → Prop}
    {P : S → I → Prop} {F : T → J → Prop}
    (hstep : ∀ n s t i j, R (n + 1) s t → A i j → P s i → F t j →
      B (M.step s i).1 (N.step t j).1 ∧ R n (M.step s i).2 (N.step t j).2)
    {s : S} {t : T} {is : List I} {js : List J} {n : Nat} (hin : List.Forall₂ A is js)
    (hs : R (is.length + n) s t) (hp : M.Along P s is) (hp' : N.Along F t js) :
    List.Forall₂ B (M.outputs s is) (N.outputs t js) ∧ R n (M.after s is) (N.after t js) := by
  have h := simulation_ahead (R := fun is => R (is.length + n))
    (fun is s t i j hrel => hstep _ s t i j (by rwa [List.length_cons, Nat.add_right_comm] at hrel))
    hin hs hp hp'
  simpa using h

/-- Two machines answering the same inputs alike. -/
theorem outputs_eq_of_simulation_ahead {N : Machine T I O} {R : List I → S → T → Prop}
    {P : S → I → Prop} {F : T → I → Prop}
    (hstep : ∀ is s t i, R (i :: is) s t → P s i → F t i →
      (M.step s i).1 = (N.step t i).1 ∧ R is (M.step s i).2 (N.step t i).2)
    {s : S} {t : T} {is : List I} (hs : R is s t)
    (hp : M.Along P s is) (hp' : N.Along F t is) :
    M.outputs s is = N.outputs t is ∧ R [] (M.after s is) (N.after t is) := by
  have hsame : List.Forall₂ Eq is is := List.forall₂_eq_eq_eq ▸ rfl
  have h := simulation_ahead (A := Eq) (B := Eq) (R := R)
    (fun is s t i j hrel hij hpi hpj => by subst hij; exact hstep is s t i hrel hpi hpj)
    hsame hs hp hp'
  exact ⟨List.forall₂_eq_eq_eq ▸ h.1, h.2⟩

theorem outputs_eq_of_simulation {N : Machine T I O} {R : Nat → S → T → Prop}
    {P : S → I → Prop} {F : T → I → Prop}
    (hstep : ∀ n s t i, R (n + 1) s t → P s i → F t i →
      (M.step s i).1 = (N.step t i).1 ∧ R n (M.step s i).2 (N.step t i).2)
    {s : S} {t : T} {is : List I} {n : Nat} (hs : R (is.length + n) s t)
    (hp : M.Along P s is) (hp' : N.Along F t is) :
    M.outputs s is = N.outputs t is ∧ R n (M.after s is) (N.after t is) := by
  have h := outputs_eq_of_simulation_ahead (R := fun is => R (is.length + n))
    (fun is s t i hrel => hstep _ s t i (by rwa [List.length_cons, Nat.add_right_comm] at hrel))
    hs hp hp'
  simpa using h

section Isolation

/-- The answers given to the inputs that `sel` picks out. -/
def answersTo (M : Machine S I O) (sel : I → Bool) (s : S) (is : List I) : List O :=
  ((is.zip (M.outputs s is)).filter fun answered => sel answered.1).map Prod.snd

variable {sel : I → Bool} {i : I} {is : List I}

theorem answersTo_cons_of_sel (h : sel i = true) (s : S) :
    M.answersTo sel s (i :: is) = (M.step s i).1 :: M.answersTo sel (M.step s i).2 is := by
  simp [answersTo, h]

theorem answersTo_cons_of_not_sel (h : sel i = false) (s : S) :
    M.answersTo sel s (i :: is) = M.answersTo sel (M.step s i).2 is := by
  simp [answersTo, h]

/-- The isolation rule: where the other inputs leave a view of the state alone,
and what `sel` picks out acts on the view alone, the picked inputs are answered
as if they were the only ones. -/
theorem answersTo_eq_alone {V : Type*} (view : S → V)
    (hothers : ∀ s i, sel i = false → view (M.step s i).2 = view s)
    (hsel : ∀ s t i, sel i = true → view s = view t →
      (M.step s i).1 = (M.step t i).1 ∧ view (M.step s i).2 = view (M.step t i).2)
    {s t : S} (h : view s = view t) (is : List I) :
    M.answersTo sel s is = M.outputs t (is.filter sel) ∧
      view (M.after s is) = view (M.after t (is.filter sel)) := by
  induction is generalizing s t with
  | nil => exact ⟨rfl, h⟩
  | cons i is ih =>
      cases hi : sel i with
      | true =>
          obtain ⟨hanswer, hview⟩ := hsel s t i hi h
          obtain ⟨hanswers, hend⟩ := ih hview
          rw [answersTo_cons_of_sel hi, List.filter_cons_of_pos hi, hanswers, hanswer]
          exact ⟨rfl, hend⟩
      | false =>
          rw [answersTo_cons_of_not_sel hi, List.filter_cons_of_neg (by simp [hi])]
          exact ih ((hothers s i hi).trans h)

end Isolation

end Machine
end AccountDirectory.Library
