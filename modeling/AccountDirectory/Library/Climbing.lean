import AccountDirectory.Library.Register
import Mathlib.Data.List.Pairwise

/-! Logs in which versions only go up. Where a register may skip versions a
log is no longer gapless; what is left is that for every key each record has a
higher version than the ones before it. -/
namespace AccountDirectory.Library

variable {κ α : Type*}

def Climbing (version : α → Nat) (records : List α) : Prop :=
  (records.map version).Pairwise (· < ·)

/-- The version of the last record, 0 where there is none. -/
def lastVersion (version : α → Nat) (records : List α) : Nat := records.getLast?.elim 0 version

namespace Climbing

variable {version : α → Nat} {records : List α} {a b : α}

@[simp] protected theorem nil : Climbing version [] := List.Pairwise.nil

theorem le_last (h : Climbing version records) (ha : a ∈ records) :
    version a ≤ lastVersion version records := by
  induction records using List.reverseRecOn with
  | nil => cases ha
  | append_singleton front last _ =>
      rw [lastVersion, List.getLast?_concat, Option.elim_some]
      rcases List.mem_append.mp ha with hfront | hlast
      · unfold Climbing at h
        rw [List.map_append, List.pairwise_append] at h
        exact (h.2.2 _ (List.mem_map_of_mem hfront) _ (by simp)).le
      · rw [List.mem_singleton.mp hlast]

theorem concat (h : Climbing version records) (hlast : lastVersion version records < version b) :
    Climbing version (records ++ [b]) := by
  unfold Climbing
  rw [List.map_append, List.pairwise_append]
  refine ⟨h, List.pairwise_singleton _ _, ?_⟩
  intro v hv w hw
  obtain ⟨a, ha, rfl⟩ := List.mem_map.mp hv
  rw [List.map_singleton, List.mem_singleton] at hw
  have hle := h.le_last ha
  omega

/-- Two records of one version are one record. -/
theorem eq_of_version (h : Climbing version records) (ha : a ∈ records) (hb : b ∈ records)
    (hv : version a = version b) : a = b :=
  List.inj_on_of_nodup_map (h.imp fun hlt => Nat.ne_of_lt hlt) ha hb hv

end Climbing

namespace Register

variable [DecidableEq κ] {R : Register κ α} {log : List α} {k : κ} {a : α}

def Climbs (R : Register κ α) (log : List α) : Prop :=
  ∀ k, Climbing R.version (history R.key log k)

theorem climbs_nil : R.Climbs [] := fun _ => Climbing.nil

theorem Climbs.concat (h : R.Climbs log) (hkey : R.key a = some k)
    (hlast : lastVersion R.version (history R.key log k) < R.version a) : R.Climbs (log ++ [a]) := by
  intro k'
  by_cases hk : R.key a = some k'
  · obtain rfl : k = k' := Option.some.inj (hkey.symm.trans hk)
    rw [history_concat_self hk]
    exact (h k).concat hlast
  · rw [history_concat_other hk]
    exact h k'

end Register
end AccountDirectory.Library
