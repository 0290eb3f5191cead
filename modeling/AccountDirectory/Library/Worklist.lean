import Mathlib.Data.Finset.Card
import Mathlib.Data.Finset.Insert
import Mathlib.Logic.Relation

/-! A search over a finite part of a graph, with a stack of what is still to be
looked at. A node is asked for its successors once; one outside the part has
none. The search may stop early at a node it was looking for. -/
namespace AccountDirectory.Library

section Search

variable {α : Type*} [DecidableEq α]

/-- What was seen, or `none` where the search came to a node to stop at. -/
def search (graph : Finset α) (next : α → List α) (stop : α → Bool) (seen : Finset α)
    (todo : List α) : Option (Finset α) :=
  match todo with
  | [] => some seen
  | q :: todo =>
      if stop q then none
      else if q ∈ seen ∨ q ∉ graph then search graph next stop seen todo
      else search graph next stop (insert q seen) ((next q).reverse ++ todo)
termination_by ((graph \ seen).card, todo.length)
decreasing_by
  · exact Prod.Lex.right _ (by simp)
  · rename_i hnew
    rw [not_or, not_not] at hnew
    apply Prod.Lex.left
    apply Finset.card_lt_card
    refine Finset.ssubset_iff_of_subset (Finset.sdiff_subset_sdiff le_rfl
      (Finset.subset_insert q seen)) |>.mpr ⟨q, ?_, ?_⟩
    · exact Finset.mem_sdiff.mpr ⟨hnew.2, hnew.1⟩
    · exact fun hq => (Finset.mem_sdiff.mp hq).2 (Finset.mem_insert_self q seen)

variable {graph seen found : Finset α} {next : α → List α} {stop : α → Bool} {todo : List α}

/-- One step of the graph, out of a node that has successors. -/
def Steps (graph : Finset α) (next : α → List α) (a b : α) : Prop :=
  a ∈ graph ∧ b ∈ next a

abbrev Reaches (graph : Finset α) (next : α → List α) : α → α → Prop :=
  Relation.ReflTransGen (Steps graph next)

/-- Nothing is left to do about the node. -/
def Settled (graph : Finset α) (stop : α → Bool) (seen : Finset α) (a : α) : Prop :=
  stop a = false ∧ (a ∈ graph → a ∈ seen)

/-- Every successor of what was seen is settled or still to be looked at. -/
def Frontier (graph : Finset α) (next : α → List α) (stop : α → Bool) (seen : Finset α)
    (todo : List α) : Prop :=
  ∀ a ∈ seen, ∀ b ∈ next a, Settled graph stop seen b ∨ b ∈ todo

omit [DecidableEq α] in
theorem Settled.mono {a : α} (h : Settled graph stop seen a) (hsub : seen ⊆ found) :
    Settled graph stop found a :=
  ⟨h.1, fun hin => hsub (h.2 hin)⟩

theorem search_finds (h : search graph next stop seen todo = none) :
    ∃ start ∈ todo, ∃ goal, stop goal = true ∧ Reaches graph next start goal := by
  fun_induction search graph next stop seen todo with
  | case1 => cases h
  | case2 seen q todo hstop => exact ⟨q, List.mem_cons_self .., q, hstop, .refl⟩
  | case3 seen q todo _ _ ih =>
      obtain ⟨start, hmem, hgoal⟩ := ih h
      exact ⟨start, List.mem_cons_of_mem _ hmem, hgoal⟩
  | case4 seen q todo _ hnew ih =>
      obtain ⟨start, hmem, goal, hstop, hreach⟩ := ih h
      rw [List.mem_append, List.mem_reverse] at hmem
      rcases hmem with hnext | hmem
      · have hstep : Steps graph next q start := ⟨(not_or.mp hnew).2 |> not_not.mp, hnext⟩
        exact ⟨q, List.mem_cons_self .., goal, hstop, .head hstep hreach⟩
      · exact ⟨start, List.mem_cons_of_mem _ hmem, goal, hstop, hreach⟩

/-- A search that ends has settled what it started from and all that follows from it. -/
theorem search_settles (h : search graph next stop seen todo = some found)
    (hfront : Frontier graph next stop seen todo) :
    seen ⊆ found ∧ Frontier graph next stop found [] ∧
      ∀ a ∈ todo, Settled graph stop found a := by
  fun_induction search graph next stop seen todo with
  | case1 seen =>
      cases h
      exact ⟨subset_rfl, hfront, List.forall_mem_nil _⟩
  | case2 => cases h
  | case3 seen q todo hstop hskip ih =>
      have hq : Settled graph stop seen q :=
        ⟨Bool.eq_false_iff.mpr hstop, fun hin => hskip.resolve_right (not_not.mpr hin)⟩
      have hfront' : Frontier graph next stop seen todo := by
        intro a ha b hb
        rcases hfront a ha b hb with hsettled | hmem
        · exact .inl hsettled
        · rcases List.mem_cons.mp hmem with rfl | hmem
          · exact .inl hq
          · exact .inr hmem
      obtain ⟨hsub, hend, htodo⟩ := ih h hfront'
      exact ⟨hsub, hend, List.forall_mem_cons.mpr ⟨hq.mono hsub, htodo⟩⟩
  | case4 seen q todo hstop hnew ih =>
      have hq : Settled graph stop (insert q seen) q :=
        ⟨Bool.eq_false_iff.mpr hstop, fun _ => Finset.mem_insert_self q seen⟩
      have hfront' : Frontier graph next stop (insert q seen) ((next q).reverse ++ todo) := by
        intro a ha b hb
        rw [List.mem_append, List.mem_reverse]
        rcases Finset.mem_insert.mp ha with rfl | ha
        · exact .inr (.inl hb)
        · rcases hfront a ha b hb with hsettled | hmem
          · exact .inl (hsettled.mono (Finset.subset_insert q seen))
          · rcases List.mem_cons.mp hmem with rfl | hmem
            · exact .inl hq
            · exact .inr (.inr hmem)
      obtain ⟨hsub, hend, htodo⟩ := ih h hfront'
      refine ⟨(Finset.subset_insert q seen).trans hsub, hend, ?_⟩
      rw [List.forall_mem_append] at htodo
      exact List.forall_mem_cons.mpr ⟨hq.mono hsub, htodo.2⟩

omit [DecidableEq α] in
theorem Frontier.settled (h : Frontier graph next stop found []) {a b : α}
    (ha : Settled graph stop found a) (hreach : Reaches graph next a b) :
    Settled graph stop found b := by
  induction hreach with
  | refl => exact ha
  | tail _ hstep ih =>
      rcases h _ (ih.2 hstep.1) _ hstep.2 with hsettled | hmem
      · exact hsettled
      · cases hmem

omit [DecidableEq α] in
theorem frontier_empty : Frontier graph next stop ∅ todo :=
  fun _ ha => absurd ha (Finset.notMem_empty _)

/-- The search stops exactly where a node to stop at follows from the start. -/
theorem search_eq_none_iff : search graph next stop ∅ todo = none ↔
    ∃ start ∈ todo, ∃ goal, stop goal = true ∧ Reaches graph next start goal := by
  constructor
  · exact search_finds
  · rintro ⟨start, hmem, goal, hstop, hreach⟩
    cases hsearch : search graph next stop ∅ todo with
    | none => rfl
    | some found =>
        obtain ⟨-, hend, htodo⟩ := search_settles hsearch frontier_empty
        have hgoal := (hend.settled (htodo start hmem) hreach).1
        rw [hstop] at hgoal
        cases hgoal

end Search

end AccountDirectory.Library
