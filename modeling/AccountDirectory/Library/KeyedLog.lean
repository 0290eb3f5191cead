import Mathlib.Data.Finmap
import Mathlib.Data.List.Forall2

/-! One log shared by many keys. `history` is the part of a log that belongs
to a key; a finite map filled by folding the log holds, under each key, the
fold of that key's history alone. -/
namespace AccountDirectory.Library

variable {κ α β : Type*} [DecidableEq κ]

/-- The records of `log` filed under `k`, in log order. A record without a key
belongs to no history. -/
def history (key : α → Option κ) (log : List α) (k : κ) : List α :=
  log.filter fun a => key a = some k

section History

variable {key : α → Option κ} {log : List α} {k : κ} {a : α}

@[simp] theorem history_nil : history key [] k = [] := rfl

@[simp] theorem mem_history : a ∈ history key log k ↔ a ∈ log ∧ key a = some k := by
  simp [history]

theorem history_append (left right : List α) :
    history key (left ++ right) k = history key left k ++ history key right k :=
  List.filter_append ..

theorem history_concat_self (h : key a = some k) :
    history key (log ++ [a]) k = history key log k ++ [a] := by
  rw [history_append]
  simp [history, h]

theorem history_concat_other (h : key a ≠ some k) :
    history key (log ++ [a]) k = history key log k := by
  rw [history_append]
  simp [history, h]

theorem history_concat (a : α) (k : κ) :
    history key (log ++ [a]) k =
      history key log k ++ if key a = some k then [a] else [] := by
  split
  · exact history_concat_self ‹_›
  · rw [history_concat_other ‹_›, List.append_nil]

theorem history_length_le : (history key log k).length ≤ log.length :=
  List.length_filter_le ..

theorem history_mono {log' : List α} (h : log <+: log') :
    history key log k <+: history key log' k :=
  h.filter _

/-- Logs that agree record by record, keys included, agree on every history. -/
theorem history_rel {R : α → α → Prop} {log' : List α} (hkey : ∀ a b, R a b → key a = key b)
    (h : List.Forall₂ R log log') : List.Forall₂ R (history key log k) (history key log' k) := by
  refine List.rel_filter (fun a b hab => ?_) h
  simp only [hkey a b hab]

theorem count_history [BEq α] [LawfulBEq α] (h : key a = some k) :
    (history key log k).count a = log.count a :=
  List.count_filter (by simpa using h)

theorem forall₂_getElem? {R : α → β → Prop} {left : List α} {right : List β}
    (h : List.Forall₂ R left right) (n : Nat) : Option.Rel R left[n]? right[n]? := by
  induction h generalizing n with
  | nil => exact .none
  | cons hab _ ih =>
      cases n with
      | zero => exact .some hab
      | succ n => simpa using ih n

theorem forall₂_getLast? {R : α → β → Prop} {left : List α} {right : List β}
    (h : List.Forall₂ R left right) : Option.Rel R left.getLast? right.getLast? := by
  rw [List.getLast?_eq_head?_reverse, List.getLast?_eq_head?_reverse]
  have hreverse := List.forall₂_reverse_iff.mpr h
  generalize left.reverse = front at hreverse
  generalize right.reverse = front' at hreverse
  cases hreverse with
  | nil => exact .none
  | cons hab _ => exact .some hab

end History

section Filing

variable (key : α → Option κ) (f : β → α → β) (b₀ : β)

def fileOne (m : Finmap fun _ : κ => β) (a : α) : Finmap fun _ : κ => β :=
  match key a with
  | some k => m.insert k (f ((m.lookup k).getD b₀) a)
  | none => m

def fileAll (m : Finmap fun _ : κ => β) (log : List α) : Finmap fun _ : κ => β :=
  log.foldl (fileOne key f b₀) m

variable {key f b₀}

theorem getD_lookup_insert (m : Finmap fun _ : κ => β) (k k' : κ) (b : β) :
    ((m.insert k b).lookup k').getD b₀ = if k' = k then b else (m.lookup k').getD b₀ := by
  split
  · rename_i h
    subst h
    rw [Finmap.lookup_insert, Option.getD_some]
  · rw [Finmap.lookup_insert_of_ne _ ‹_›]

/-- Writing back what a lookup found changes no later lookup. -/
theorem getD_lookup_insert_self (m : Finmap fun _ : κ => β) (k k' : κ) :
    ((m.insert k ((m.lookup k).getD b₀)).lookup k').getD b₀ = (m.lookup k').getD b₀ := by
  rw [getD_lookup_insert]
  split
  · rename_i h
    rw [h]
  · rfl

theorem insert_lookup_self {m : Finmap fun _ : κ => β} {k : κ} (h : k ∈ m) :
    m.insert k ((m.lookup k).getD b₀) = m := by
  obtain ⟨b, hb⟩ := Finmap.mem_iff.mp h
  apply Finmap.ext_lookup
  intro k'
  by_cases hk : k' = k
  · subst hk
    rw [Finmap.lookup_insert, hb, Option.getD_some]
  · rw [Finmap.lookup_insert_of_ne _ hk]

theorem keys_insert (m : Finmap fun _ : κ => β) (k : κ) (b : β) :
    (m.insert k b).keys = Insert.insert k m.keys := by
  ext k'
  simp [Finmap.mem_keys]

theorem lookup_fileOne (m : Finmap fun _ : κ => β) (a : α) (k : κ) :
    ((fileOne key f b₀ m a).lookup k).getD b₀ =
      (history key [a] k).foldl f ((m.lookup k).getD b₀) := by
  unfold fileOne
  cases hkey : key a with
  | none => simp [history, hkey]
  | some k' =>
      dsimp only
      rw [getD_lookup_insert]
      by_cases hk : k = k'
      · subst hk
        simp [history, hkey]
      · simp [history, hkey, hk, Ne.symm hk]

/-- The map holds each key's own fold, whatever order the keys' records were
interleaved in. -/
theorem lookup_fileAll (m : Finmap fun _ : κ => β) (log : List α) (k : κ) :
    ((fileAll key f b₀ m log).lookup k).getD b₀ =
      (history key log k).foldl f ((m.lookup k).getD b₀) := by
  induction log generalizing m with
  | nil => rfl
  | cons a rest ih =>
      have hcons : history key (a :: rest) k = history key [a] k ++ history key rest k :=
        history_append [a] rest
      rw [hcons, List.foldl_append, ← lookup_fileOne]
      exact ih _

theorem mem_fileAll (m : Finmap fun _ : κ => β) (log : List α) (k : κ) :
    k ∈ fileAll key f b₀ m log ↔ k ∈ m ∨ history key log k ≠ [] := by
  induction log generalizing m with
  | nil => simp [fileAll]
  | cons a rest ih =>
      have hstep : fileAll key f b₀ m (a :: rest) =
          fileAll key f b₀ (fileOne key f b₀ m a) rest := rfl
      rw [hstep, ih]
      unfold fileOne
      cases hkey : key a with
      | none => simp [history, hkey]
      | some k' =>
          by_cases hk : k = k'
          · subst hk
            simp [history, hkey]
          · simp [history, hkey, hk, Ne.symm hk]

end Filing
end AccountDirectory.Library
