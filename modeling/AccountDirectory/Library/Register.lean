import AccountDirectory.Library.KeyedLog
import Mathlib.Data.List.Range
import Mathlib.Data.Nat.Find
import Mathlib.Order.Bounds.Basic

/-! Registers that advance one version at a time. A log is gapless for a key
when the versions of that key's records are 1, 2, ..., n in log order; a
register appends a record exactly when it extends its key's sequence by one. -/
namespace AccountDirectory.Library

variable {κ α : Type*}

def Gapless (version : α → Nat) (records : List α) : Prop :=
  records.map version = List.range' 1 records.length

namespace Gapless

variable {version : α → Nat} {records longer : List α} {a b c : α}

@[simp] protected theorem nil : Gapless version [] := rfl

theorem concat_iff :
    Gapless version (records ++ [a]) ↔
      Gapless version records ∧ version a = records.length + 1 := by
  unfold Gapless
  rw [List.map_append, List.length_append, List.length_singleton, List.range'_concat,
    List.map_singleton, List.append_singleton_inj, Nat.one_mul, Nat.add_comm 1]

theorem of_initial (h : Gapless version longer) (hpre : records <+: longer) :
    Gapless version records := by
  obtain ⟨rest, rfl⟩ := hpre
  unfold Gapless at h ⊢
  rw [List.map_append, List.length_append, ← List.range'_append_1] at h
  exact (List.append_inj h (by simp)).1

theorem version_mem (h : Gapless version records) (n : Nat) :
    (∃ a ∈ records, version a = n) ↔ 1 ≤ n ∧ n ≤ records.length := by
  rw [← List.mem_map, h, List.mem_range'_1]
  omega

theorem version_bounds (h : Gapless version records) (ha : a ∈ records) :
    1 ≤ version a ∧ version a ≤ records.length :=
  (h.version_mem _).mp ⟨a, ha, rfl⟩

theorem eq_of_version (h : Gapless version records) (ha : a ∈ records) (hb : b ∈ records)
    (hv : version a = version b) : a = b := by
  have hnodup : (records.map version).Nodup := by
    rw [h]
    exact List.nodup_range'
  exact List.inj_on_of_nodup_map hnodup ha hb hv

protected theorem nodup (h : Gapless version records) : records.Nodup := by
  apply List.Nodup.of_map version
  rw [h]
  exact List.nodup_range'

theorem version_getLast (h : Gapless version records) (ha : records.getLast? = some a) :
    version a = records.length := by
  obtain ⟨front, rfl⟩ := List.getLast?_eq_some_iff.mp ha
  simpa using (concat_iff.mp h).2

theorem foldr_max_range' (s n : Nat) : (List.range' s (n + 1)).foldr max 0 = s + n := by
  induction n generalizing s with
  | zero => simp
  | succ n ih =>
      rw [List.range'_succ, List.foldr_cons, ih]
      omega

/-- The highest version is the number of records. -/
theorem foldr_max (h : Gapless version records) :
    (records.map version).foldr max 0 = records.length := by
  rw [h]
  cases records.length with
  | zero => rfl
  | succ n => rw [foldr_max_range', Nat.add_comm]

/-- No rollback: a record that stopped being the last one is never the last
one of any longer sequence. -/
theorem getLast_ne_of_superseded (h : Gapless version longer) {middle : List α}
    (hleft : records <+: middle) (hright : middle <+: longer)
    (hb : records.getLast? = some b) (hc : middle.getLast? = some c) (hbc : b ≠ c) :
    longer.getLast? ≠ some b := by
  intro hlast
  have hlengths : records.length = longer.length := by
    rw [← (h.of_initial (hleft.trans hright)).version_getLast hb, h.version_getLast hlast]
  have hmiddle : records = middle :=
    hleft.eq_of_length (by have := hleft.length_le; have := hright.length_le; omega)
  rw [hmiddle, hc] at hb
  exact hbc (Option.some.inj hb).symm

end Gapless

section Supply

/-! What a gapless sequence can be drawn from: a supply of records, no two of
one version. -/

variable (version : α → Nat) (supply : List α)

/-- The supply has a record of every version from 1 to `m`. -/
def Covers (m : Nat) : Prop := ∀ v ∈ List.range' 1 m, v ∈ supply.map version

instance : DecidablePred (Covers version supply) :=
  fun m => inferInstanceAs (Decidable (∀ v ∈ List.range' 1 m, _))

/-- How far the supply goes without a gap. -/
def reach : Nat := Nat.findGreatest (Covers version supply) supply.length

def ofVersion (v : Nat) : Option α := supply.find? fun a => version a = v

variable {version supply} {records : List α} {a : α} {m n : Nat}

theorem Covers.le_length (h : Covers version supply m) : m ≤ supply.length := by
  have hsub : List.range' 1 m ⊆ supply.map version := fun v hv => h v hv
  have hle := List.Nodup.length_le_of_subset List.nodup_range' hsub
  rwa [List.length_range', List.length_map] at hle

theorem isGreatest_reach : IsGreatest {m | Covers version supply m} (reach version supply) := by
  constructor
  · exact Nat.findGreatest_spec (P := Covers version supply) (Nat.zero_le _) (by simp [Covers])
  · intro m hm
    exact Nat.le_findGreatest hm.le_length hm

theorem ofVersion_of_mem (hdistinct : (supply.map version).Nodup) (ha : a ∈ supply) :
    ofVersion version supply (version a) = some a := by
  cases hfind : ofVersion version supply (version a) with
  | none =>
      have hnone := List.find?_eq_none.mp hfind a ha
      simp at hnone
  | some b =>
      have hb : version b = version a := by simpa using List.find?_some hfind
      have hmem := List.mem_of_find?_eq_some hfind
      rw [List.inj_on_of_nodup_map hdistinct hmem ha hb]

/-- A gapless sequence drawn from a supply is decided by its length. -/
theorem Gapless.eq_ofVersion (h : Gapless version records) (hsub : ∀ a ∈ records, a ∈ supply)
    (hdistinct : (supply.map version).Nodup) :
    records = (List.range' 1 records.length).filterMap (ofVersion version supply) := by
  have hself : ∀ a ∈ records, (ofVersion version supply ∘ version) a = some a :=
    fun a ha => ofVersion_of_mem hdistinct (hsub a ha)
  rw [← h, List.filterMap_map, List.filterMap_congr hself, List.filterMap_some]

theorem Gapless.covers (h : Gapless version records) (hsub : ∀ a ∈ records, a ∈ supply) :
    Covers version supply records.length := by
  intro v hv
  rw [← h] at hv
  obtain ⟨a, ha, rfl⟩ := List.mem_map.mp hv
  exact List.mem_map_of_mem (hsub a ha)

theorem Gapless.length_le (h : Gapless version records) (hsub : ∀ a ∈ records, a ∈ supply) :
    records.length ≤ supply.length := (h.covers hsub).le_length

/-- A gapless sequence that no record of the supply continues has reached the
end of what the supply covers. -/
theorem Gapless.length_eq_reach (h : Gapless version records) (hsub : ∀ a ∈ records, a ∈ supply)
    (hend : records.length + 1 ∉ supply.map version) : records.length = reach version supply := by
  apply Nat.le_antisymm
  · exact isGreatest_reach.2 (h.covers hsub)
  · by_contra hlt
    apply hend
    apply isGreatest_reach.1
    rw [List.mem_range'_1]
    omega

end Supply

inductive Verdict where
  | advanced
  | known
  | conflict
deriving DecidableEq, Repr

/-- `seen` is the register's own test for a record it already holds. -/
structure Register (κ α : Type*) where
  key : α → Option κ
  version : α → Nat
  seen : α → List α → Bool

namespace Register

def verdict (R : Register κ α) (held : List α) (a : α) : Verdict :=
  if R.seen a held then .known
  else if R.version a = held.length + 1 then .advanced
  else .conflict

variable [DecidableEq κ] (R : Register κ α)

/-- Offer `a` under the key `k`: the log grows by `a` or stays as it was. -/
def offer (log : List α) (k : κ) (a : α) : Verdict × List α :=
  let v := R.verdict (history R.key log k) a
  (v, if v = .advanced then log ++ [a] else log)

def Orderly (log : List α) : Prop := ∀ k, Gapless R.version (history R.key log k)

variable {R} {log longer : List α} {held : List α} {k : κ} {a b c : α}

omit [DecidableEq κ] in
theorem verdict_advanced_iff :
    R.verdict held a = .advanced ↔ R.seen a held = false ∧ R.version a = held.length + 1 := by
  unfold verdict
  cases R.seen a held <;> simp

omit [DecidableEq κ] in
theorem verdict_known_iff : R.verdict held a = .known ↔ R.seen a held = true := by
  unfold verdict
  cases R.seen a held with
  | true => simp
  | false =>
      by_cases hv : R.version a = held.length + 1
      · simp [hv]
      · simp [hv]

omit [DecidableEq κ] in
theorem verdict_conflict_iff :
    R.verdict held a = .conflict ↔ R.seen a held = false ∧ R.version a ≠ held.length + 1 := by
  unfold verdict
  cases R.seen a held <;> simp

omit [DecidableEq κ] in
/-- A verdict rests on recognition, the version and the number of records held. -/
theorem verdict_congr {held' : List α} (hseen : R.seen a held = R.seen b held')
    (hversion : R.version a = R.version b) (hlength : held.length = held'.length) :
    R.verdict held a = R.verdict held' b := by
  unfold verdict
  rw [hseen, hversion, hlength]

theorem offer_advanced (h : R.verdict (history R.key log k) a = .advanced) :
    R.offer log k a = (.advanced, log ++ [a]) := by
  simp [offer, h]

theorem offer_unchanged (h : R.verdict (history R.key log k) a ≠ .advanced) :
    R.offer log k a = (R.verdict (history R.key log k) a, log) := by
  simp [offer, h]

theorem offer_eq_of_verdict {v : Verdict} (h : R.verdict (history R.key log k) a = v)
    (hv : v ≠ .advanced) : R.offer log k a = (v, log) := by
  subst h
  exact offer_unchanged hv

theorem offer_snd (log : List α) (k : κ) (a : α) :
    (R.offer log k a).2 = log ++ [a] ∨ (R.offer log k a).2 = log := by
  unfold offer
  dsimp only
  split
  · exact .inl rfl
  · exact .inr rfl

theorem offer_extends (log : List α) (k : κ) (a : α) : log <+: (R.offer log k a).2 := by
  rcases R.offer_snd log k a with h | h <;> rw [h]
  exact List.prefix_append ..

theorem orderly_nil : R.Orderly [] := fun _ => Gapless.nil

theorem Orderly.of_initial (h : R.Orderly longer) (hpre : log <+: longer) : R.Orderly log :=
  fun k => (h k).of_initial (history_mono hpre)

theorem Orderly.concat (h : R.Orderly log) (hkey : R.key a = some k)
    (hv : R.version a = (history R.key log k).length + 1) : R.Orderly (log ++ [a]) := by
  intro k'
  by_cases hk : R.key a = some k'
  · obtain rfl : k = k' := Option.some.inj (hkey.symm.trans hk)
    rw [history_concat_self hk, Gapless.concat_iff]
    exact ⟨h k, hv⟩
  · rw [history_concat_other hk]
    exact h k'

theorem Orderly.count_le_one [BEq α] [LawfulBEq α] (h : R.Orderly log) (hkey : R.key a = some k) :
    log.count a ≤ 1 := by
  rw [← count_history hkey]
  exact List.nodup_iff_count_le_one.mp (h k).nodup a

theorem Orderly.eq_of_version (h : R.Orderly log) (ha : a ∈ log) (hb : b ∈ log)
    (hka : R.key a = some k) (hkb : R.key b = some k) (hv : R.version a = R.version b) : a = b :=
  (h k).eq_of_version (mem_history.mpr ⟨ha, hka⟩) (mem_history.mpr ⟨hb, hkb⟩) hv

end Register
end AccountDirectory.Library
