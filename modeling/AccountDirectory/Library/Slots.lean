import Mathlib.Data.List.Basic
import Mathlib.Data.List.Perm.Basic

/-! A list of slots written one at a time. What counts are the values `f` of the
slots that pass `p`, in no particular order. -/
namespace AccountDirectory.Library

variable {α β : Type*} {p : α → Bool} {f : α → β} {slots : List α} {i j : Nat} {a b : α}

/-- A write that changes neither whether the slot counts nor its value. -/
theorem map_filter_set_of_eq (h : slots[i]? = some a) (hp : p b = p a) (hf : f b = f a) :
    ((slots.set i b).filter p).map f = (slots.filter p).map f := by
  induction slots generalizing i with
  | nil => rfl
  | cons first rest ih =>
      cases i with
      | zero =>
          cases h
          rw [List.set_cons_zero, List.filter_cons, List.filter_cons, hp]
          split
          · rw [List.map_cons, List.map_cons, hf]
          · rfl
      | succ i =>
          rw [List.set_cons_succ, List.filter_cons, List.filter_cons]
          split
          · rw [List.map_cons, List.map_cons, ih h]
          · exact ih h

/-- A slot that comes to count adds its value to the others'. -/
theorem map_filter_set_perm (h : slots[i]? = some a) (ha : p a = false) (hb : p b = true) :
    (((slots.set i b).filter p).map f).Perm ((slots.filter p).map f ++ [f b]) := by
  induction slots generalizing i with
  | nil => cases h
  | cons first rest ih =>
      cases i with
      | zero =>
          cases h
          rw [List.set_cons_zero, List.filter_cons_of_pos hb,
            List.filter_cons_of_neg (by simp [ha]), List.map_cons]
          exact (List.perm_append_singleton _ _).symm
      | succ i =>
          rw [List.set_cons_succ, List.filter_cons, List.filter_cons]
          split
          · exact (ih h).cons _
          · exact ih h

/-- Where no two slots count the same value, the value tells the slot. -/
theorem eq_of_nodup_map_filter (h : ((slots.filter p).map f).Nodup) (hi : slots[i]? = some a)
    (hj : slots[j]? = some b) (ha : p a = true) (hb : p b = true) (hf : f a = f b) : i = j := by
  induction slots generalizing i j with
  | nil => cases hi
  | cons first rest ih =>
      have hrest : ((rest.filter p).map f).Nodup := by
        rw [List.filter_cons] at h
        split at h
        · exact (List.nodup_cons.mp h).2
        · exact h
      have hfirst : p first = true → ∀ c, c ∈ rest → p c = true → f first ≠ f c := by
        intro hcounts c hmem hc heq
        rw [List.filter_cons_of_pos hcounts, List.map_cons, List.nodup_cons, heq] at h
        exact h.1 (List.mem_map_of_mem (List.mem_filter.mpr ⟨hmem, hc⟩))
      cases i with
      | zero =>
          cases hi
          cases j with
          | zero => rfl
          | succ j => exact absurd hf (hfirst ha b (List.mem_of_getElem? hj) hb)
      | succ i =>
          cases j with
          | zero =>
              cases hj
              exact absurd hf.symm (hfirst hb a (List.mem_of_getElem? hi) ha)
          | succ j => rw [ih hrest hi hj]

end AccountDirectory.Library
