import Mathlib.Data.Char
import Mathlib.Data.Finset.Basic
import Mathlib.Data.List.Lex
import Mathlib.Data.List.Sort

/-! The parts of Python's own text handling and sorting the native renderer
depends on, on texts as lists of code points. -/
namespace AccountDirectory.Native

abbrev Text := List Char

/-- `str.isspace`, which is also what `\s` matches. -/
def isSpace (char : Char) : Bool :=
  let n := char.toNat
  (9 ≤ n && n ≤ 13) || (28 ≤ n && n ≤ 32) || n = 0x85 || n = 0xa0 || n = 0x1680 ||
    (0x2000 ≤ n && n ≤ 0x200a) || n = 0x2028 || n = 0x2029 || n = 0x202f || n = 0x205f || n = 0x3000

/-- `sorted` of a list. -/
def sortedList (xs : List Text) : List Text := xs.insertionSort (· ≤ ·)

/-- `sorted` of what comes in no order, perhaps more than once. -/
def sortedBag (bag : Multiset Text) : List Text :=
  Quot.liftOn bag sortedList fun _ _ h =>
    ((List.perm_insertionSort _ _).trans (h.trans (List.perm_insertionSort _ _).symm)).eq_of_pairwise'
      (List.pairwise_insertionSort _ _) (List.pairwise_insertionSort _ _)

/-- `sorted` of a set. -/
def sorted (set : Finset Text) : List Text := sortedBag set.val

variable {set other : Finset Text} {bag : Multiset Text} {xs : List Text} {x : Text}

theorem sortedList_perm (xs : List Text) : (sortedList xs).Perm xs := List.perm_insertionSort _ _

@[simp] theorem mem_sortedList : x ∈ sortedList xs ↔ x ∈ xs := (sortedList_perm xs).mem_iff

theorem coe_sortedBag (bag : Multiset Text) : (sortedBag bag : Multiset Text) = bag :=
  Quot.inductionOn bag fun xs => Quot.sound (sortedList_perm xs)

@[simp] theorem mem_sortedBag : x ∈ sortedBag bag ↔ x ∈ bag := by
  rw [← Multiset.mem_coe, coe_sortedBag]

@[simp] theorem mem_sorted : x ∈ sorted set ↔ x ∈ set := mem_sortedBag

@[simp] theorem sorted_empty : sorted ∅ = [] := rfl

theorem sorted_nodup (set : Finset Text) : (sorted set).Nodup := by
  rw [← Multiset.coe_nodup, sorted, coe_sortedBag]
  exact set.nodup

theorem sorted_injective (h : sorted set = sorted other) : set = other := by
  ext x
  rw [← mem_sorted, h, mem_sorted]

section Separators

variable {c : Char} {a b x y : Text}

/-- A text is split at its first separator in one way. -/
theorem split_first (ha : c ∉ a) (hb : c ∉ b) (h : a ++ c :: x = b ++ c :: y) : a = b ∧ x = y := by
  have hbefore : ∀ {front back : Text}, c ∉ front →
      (front ++ c :: back).takeWhile (fun d => d ≠ c) = front := by
    intro front back hfront
    rw [List.takeWhile_append_of_pos, List.takeWhile_cons_of_neg, List.append_nil]
    · simp
    · intro d hd
      have hne : d ≠ c := fun heq => hfront (heq ▸ hd)
      exact decide_eq_true hne
  have hfront : a = b := by rw [← hbefore ha, h, hbefore hb]
  subst hfront
  exact ⟨rfl, (List.cons.inj (List.append_cancel_left h)).2⟩

/-- And at its last. -/
theorem split_last (ha : c ∉ a) (hb : c ∉ b) (h : x ++ c :: a = y ++ c :: b) : x = y ∧ a = b := by
  have hreversed := congrArg List.reverse h
  rw [List.reverse_append, List.reverse_append, List.reverse_cons, List.reverse_cons,
    List.append_assoc, List.append_assoc] at hreversed
  obtain ⟨htail, hrest⟩ := split_first (List.mem_reverse.not.mpr ha) (List.mem_reverse.not.mpr hb)
    hreversed
  exact ⟨List.reverse_injective hrest, List.reverse_injective htail⟩

end Separators

section Joining

variable {sep : Text} {front back parts : List Text}

theorem mem_intercalate {c : Char}
    (h : c ∈ List.intercalate sep parts) : c ∈ sep ∨ ∃ part ∈ parts, c ∈ part := by
  induction parts with
  | nil => cases h
  | cons part parts ih =>
      cases parts with
      | nil =>
          rw [List.intercalate_singleton] at h
          exact .inr ⟨part, by simp, h⟩
      | cons next parts =>
          rw [List.intercalate_cons_cons, List.mem_append, List.mem_append] at h
          rcases h with (hpart | hsep) | hrest
          · exact .inr ⟨part, by simp, hpart⟩
          · exact .inl hsep
          · rcases ih hrest with hsep | ⟨other, hmem, hc⟩
            · exact .inl hsep
            · exact .inr ⟨other, List.mem_cons_of_mem _ hmem, hc⟩

theorem intercalate_append (hfront : front ≠ [])
    (hback : back ≠ []) :
    sep.intercalate (front ++ back) = sep.intercalate front ++ sep ++ sep.intercalate back := by
  induction front with
  | nil => exact absurd rfl hfront
  | cons name rest ih =>
      cases rest with
      | nil =>
          rw [List.singleton_append, List.intercalate_cons_of_ne_nil hback,
            List.intercalate_singleton]
      | cons next rest =>
          rw [List.cons_append, List.intercalate_cons_of_ne_nil (List.append_ne_nil_of_right_ne_nil _ hback),
            ih (List.cons_ne_nil _ _), List.intercalate_cons_of_ne_nil (List.cons_ne_nil _ _)]
          simp only [List.append_assoc]

theorem splitOnP_intercalate {p : Char → Bool} {sep : Char} (hsep : p sep = true)
    (hne : parts ≠ []) (h : ∀ part ∈ parts, ∀ c ∈ part, p c = false) :
    ([sep].intercalate parts).splitOnP p = parts := by
  induction parts with
  | nil => exact absurd rfl hne
  | cons part rest ih =>
      rw [List.forall_mem_cons] at h
      by_cases hrest : rest = []
      · rw [hrest, List.intercalate_singleton, List.splitOnP_eq_singleton h.1]
      · rw [List.intercalate_cons_of_ne_nil hrest, List.append_assoc, List.singleton_append,
          List.splitOnP_append_cons_of_forall_mem h.1 sep hsep, ih hrest h.2]

end Joining

end AccountDirectory.Native
