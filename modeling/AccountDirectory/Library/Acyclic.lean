import Mathlib.Data.Finset.Card
import Mathlib.Data.Finset.Filter
import Mathlib.Logic.Relation

/-! Relations without cycles: a rank that falls along every edge, and edges
that may be added. -/
namespace AccountDirectory.Library

variable {α : Type*} {r s t : α → α → Prop}

def Acyclic (r : α → α → Prop) : Prop := ∀ a, ¬ Relation.TransGen r a a

theorem Acyclic.of_rank (rank : α → Nat) (h : ∀ a b, r a b → rank b < rank a) : Acyclic r := by
  have hfalls : ∀ a b, Relation.TransGen r a b → rank b < rank a := by
    intro a b hpath
    induction hpath with
    | single hab => exact h _ _ hab
    | tail _ hbc ih => exact (h _ _ hbc).trans ih
  exact fun a hcycle => (hfalls a a hcycle).false

open Classical in
/-- Where all edges lead into a finite set, how much of it follows from an
element is a rank. -/
theorem Acyclic.exists_rank (h : Acyclic r) (nodes : Finset α) (hin : ∀ a b, r a b → b ∈ nodes) :
    ∃ rank : α → Nat, (∀ a, rank a ≤ nodes.card) ∧ ∀ a b, r a b → rank b < rank a := by
  refine ⟨fun a => (nodes.filter (Relation.TransGen r a)).card,
    fun a => Finset.card_filter_le .., ?_⟩
  intro a b hab
  have hsub : nodes.filter (Relation.TransGen r b) ⊆ nodes.filter (Relation.TransGen r a) := by
    intro c hc
    obtain ⟨hmem, hbc⟩ := Finset.mem_filter.mp hc
    exact Finset.mem_filter.mpr ⟨hmem, .head hab hbc⟩
  refine Finset.card_lt_card ((Finset.ssubset_iff_of_subset hsub).mpr ⟨b, ?_, ?_⟩)
  · exact Finset.mem_filter.mpr ⟨hin a b hab, .single hab⟩
  · exact fun hb => h b (Finset.mem_filter.mp hb).2

/-- A path above two kinds of edges uses none of the second kind, or one of them
between two paths of a relation that has both kinds. -/
theorem transGen_or (hr : ∀ a b, r a b → t a b) (hs : ∀ a b, s a b → t a b) {a b : α}
    (h : Relation.TransGen (fun a b => r a b ∨ s a b) a b) :
    Relation.TransGen r a b ∨
      ∃ u v, s u v ∧ Relation.ReflTransGen t a u ∧ Relation.ReflTransGen t v b := by
  induction h with
  | single hedge =>
      rcases hedge with hedge | hedge
      · exact .inl (.single hedge)
      · exact .inr ⟨_, _, hedge, .refl, .refl⟩
  | tail hpath hedge ih =>
      have hlong := Relation.TransGen.to_reflTransGen
        (Relation.TransGen.mono (fun a b hab => hab.elim (hr a b) (hs a b)) _ _ hpath)
      rcases ih with hold | ⟨u, v, huv, hau, hvb⟩
      · rcases hedge with hedge | hedge
        · exact .inl (hold.tail hedge)
        · exact .inr ⟨_, _, hedge, hlong, .refl⟩
      · exact .inr ⟨u, v, huv, hau, hvb.tail (hedge.elim (hr _ _) (hs _ _))⟩

/-- Edges may be added that no path leads back along. -/
theorem Acyclic.add (h : Acyclic r) (hr : ∀ a b, r a b → t a b) (hs : ∀ a b, s a b → t a b)
    (hopen : ∀ a b, s a b → ¬ Relation.ReflTransGen t b a) :
    Acyclic fun a b => r a b ∨ s a b := by
  intro a hcycle
  rcases transGen_or hr hs hcycle with hold | ⟨u, v, huv, hau, hva⟩
  · exact h a hold
  · exact hopen u v huv (hva.trans hau)

/-- Steps below that are steps above lead back to nothing that has one element above it. -/
theorem Acyclic.lift {β : Type*} {below : β → β → Prop} {above : α → β → Prop} (h : Acyclic r)
    (hstep : ∀ a b b', above a b → below b b' → ∃ a', r a a' ∧ above a' b')
    (hone : ∀ a a' b, above a b → above a' b → a = a') {a : α} {b : β} (hab : above a b) :
    ¬ Relation.TransGen below b b := by
  have hpath : ∀ b', Relation.TransGen below b b' →
      ∃ a', Relation.TransGen r a a' ∧ above a' b' := by
    intro b' hbelow
    induction hbelow with
    | single hedge =>
        obtain ⟨a', hedge', habove⟩ := hstep a b _ hab hedge
        exact ⟨a', .single hedge', habove⟩
    | tail _ hedge ih =>
        obtain ⟨c, hlong, habove⟩ := ih
        obtain ⟨a', hedge', habove'⟩ := hstep c _ _ habove hedge
        exact ⟨a', hlong.tail hedge', habove'⟩
  intro hcycle
  obtain ⟨a', hlong, habove⟩ := hpath b hcycle
  obtain rfl := hone a a' b hab habove
  exact h a hlong

end AccountDirectory.Library
