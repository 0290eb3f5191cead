import AccountDirectory.Admission

/-! The startup fold and the live cache build the same state. A directory
tracks a log when every root holds the fold of that root's rows; opening
establishes it, and every admission keeps it with the row it appends. -/
namespace AccountDirectory
open Library

variable {Route Signature σ : Type} (P : Platform Route Signature)

/-- The root a row is filed under, if the row can be read at all. -/
def rowRoot (row : String) : Option String :=
  (parseRow P row).map fun entry => entry.directory.rootPubkey

abbrev rowsFor (log : List String) (root : String) : List String := history (rowRoot P) log root

def foldRow (log : RootLog Route) (row : String) : RootLog Route :=
  (parseRow P row).elim log (log.fold P row)

def rootLogOf (rows : List String) : RootLog Route := rows.foldl (foldRow P) {}

def storedRow (row : String) : Option (Stored Route) := (parseRow P row).map (Stored.mk row)

theorem rootLogOf_concat (rows : List String) (row : String) :
    rootLogOf P (rows ++ [row]) = foldRow P (rootLogOf P rows) row := by
  simp [rootLogOf]

theorem rootLogOf_concat_parsed {rows : List String} {row : String} {entry : DirectoryEntry Route}
    (h : parseRow P row = some entry) :
    rootLogOf P (rows ++ [row]) = (rootLogOf P rows).fold P row entry := by
  rw [rootLogOf_concat, foldRow, h, Option.elim_some]

theorem latest_rootLogOf (rows : List String) (h : ∀ row ∈ rows, (parseRow P row).isSome) :
    (rootLogOf P rows).latest = rows.getLast?.bind (storedRow P) := by
  induction rows using List.reverseRecOn with
  | nil => rfl
  | append_singleton front row ih =>
      obtain ⟨entry, hentry⟩ := Option.isSome_iff_exists.mp (h row (by simp))
      rw [rootLogOf_concat_parsed P hentry]
      simp [RootLog.fold, storedRow, hentry]

theorem digests_rootLogOf (rows : List String) (h : ∀ row ∈ rows, (parseRow P row).isSome) :
    (rootLogOf P rows).digests = (rows.map (digest P)).toFinset := by
  induction rows using List.reverseRecOn with
  | nil => rfl
  | append_singleton front row ih =>
      obtain ⟨entry, hentry⟩ := Option.isSome_iff_exists.mp (h row (by simp))
      have hfront := ih fun row hrow => h row (by simp [hrow])
      rw [rootLogOf_concat_parsed P hentry]
      ext d
      simp [RootLog.fold, hfront]

variable {P}

theorem parseRow_isSome_of_mem {log : List String} {root row : String}
    (h : row ∈ rowsFor P log root) : (parseRow P row).isSome := by
  have hroot := (mem_history.mp h).2
  cases hparse : parseRow P row with
  | none => simp [rowRoot, hparse] at hroot
  | some entry => rfl

theorem latest_rowsFor (log : List String) (root : String) :
    (rootLogOf P (rowsFor P log root)).latest =
      (rowsFor P log root).getLast?.bind (storedRow P) :=
  latest_rootLogOf P _ fun _ => parseRow_isSome_of_mem

theorem digests_rowsFor (log : List String) (root : String) :
    (rootLogOf P (rowsFor P log root)).digests =
      ((rowsFor P log root).map (digest P)).toFinset :=
  digests_rootLogOf P _ fun _ => parseRow_isSome_of_mem

theorem mem_digests_rowsFor {log : List String} {root body : String} :
    digest P body ∈ (rootLogOf P (rowsFor P log root)).digests ↔
      ∃ row ∈ rowsFor P log root, digest P row = digest P body := by
  rw [digests_rowsFor, List.mem_toFinset, List.mem_map]

theorem rehydrateRow_eq :
    BlindDirectory.rehydrateRow P = fileOne (rowRoot P) (foldRow P) {} := by
  funext roots row
  unfold BlindDirectory.rehydrateRow fileOne rowRoot foldRow
  cases parseRow P row <;> rfl

namespace BlindDirectory

section Open

variable [Store σ] {store : σ}

@[simp] theorem poisoned_openOver : (openOver P store).roots.poisoned = false := rfl
@[simp] theorem store_openOver : (openOver P store).store = some (readLog store).2 := rfl

@[simp] theorem log_openOver : (openOver P store).log = durableLog store :=
  durableLog_readLog store

theorem roots_openOver (h : (readLog store).1.isOk) :
    (openOver P store).roots.value =
      fileAll (rowRoot P) (foldRow P) {} ∅ (durableLog store) := by
  unfold openOver fileAll
  rw [← rehydrateRow_eq]
  simp [readLog_of_isOk h, Mutex.new]

theorem rootLog_openOver (h : (readLog store).1.isOk) (root : String) :
    (openOver P store).rootLog root = rootLogOf P (rowsFor P (durableLog store) root) := by
  unfold rootLog Roots.entry
  rw [roots_openOver h, lookup_fileAll]
  rfl

/-- After a failed read every root starts afresh. -/
theorem rootLog_openOver_error (h : ¬ (readLog store).1.isOk) (root : String) :
    (openOver P store : BlindDirectory Route σ).rootLog root = {} := by
  cases hread : (readLog store).1 with
  | ok rows => simp [hread, Except.isOk, Except.toBool] at h
  | error error => simp [openOver, rootLog, Roots.entry, hread, Mutex.new]

end Open

/-- Every root holds the fold of its own rows of `log`. -/
def Tracks (P : Platform Route Signature) (dir : BlindDirectory Route σ)
    (log : List String) : Prop :=
  ∀ root, dir.rootLog root = rootLogOf P (rowsFor P log root)

variable {dir : BlindDirectory Route σ} {log : List String}
  {put : SignedDirectoryPut Route Signature} {root body : String}

theorem tracks_new : (new : BlindDirectory Route σ).Tracks P [] := fun _ => rfl

theorem tracks_openOver [Store σ] {store : σ} (h : (readLog store).1.isOk) :
    (openOver P store).Tracks P (durableLog store) :=
  rootLog_openOver h

theorem Tracks.touch (h : dir.Tracks P log) : (dir.touch root).Tracks P log :=
  fun other => (rootLog_touch dir root other).trans (h other)

theorem Tracks.poison (h : dir.Tracks P log) : dir.poison.Tracks P log :=
  fun other => (rootLog_poison dir other).trans (h other)

theorem Tracks.appendBody [Store σ] (h : dir.Tracks P log) : (dir.appendBody body).Tracks P log :=
  h

theorem Tracks.foldBody (h : dir.Tracks P log) (hparse : parseRow P body = some put.entry) :
    (dir.foldBody P put body).Tracks P (log ++ [body]) := by
  have hroot : rowRoot P body = some put.root := by simp [rowRoot, hparse]
  intro other
  rw [rootLog_foldBody]
  split
  · rename_i heq
    subst heq
    rw [rowsFor, history_concat_self hroot, rootLogOf_concat_parsed P hparse, h]
  · rename_i hne
    have hother : rowRoot P body ≠ some other := by
      rw [hroot]
      exact fun heq => hne (Option.some.inj heq).symm
    rw [rowsFor, history_concat_other hother, h]

theorem Tracks.advance [Store σ] (h : dir.Tracks P log)
    (hparse : parseRow P body = some put.entry) :
    (dir.advance P put body).Tracks P (log ++ [body]) := by
  rw [advance_eq]
  exact (Tracks.appendBody h.touch).foldBody hparse

theorem Tracks.latest (h : dir.Tracks P log) (root : String) :
    (dir.rootLog root).latest = (rowsFor P log root).getLast?.bind (storedRow P) := by
  rw [h, latest_rowsFor]

theorem Tracks.mem_digests (h : dir.Tracks P log) :
    digest P body ∈ (dir.rootLog root).digests ↔
      ∃ row ∈ rowsFor P log root, digest P row = digest P body := by
  rw [h, mem_digests_rowsFor]

end BlindDirectory
end AccountDirectory
