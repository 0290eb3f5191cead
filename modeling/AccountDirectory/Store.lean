import Mathlib.Data.List.Basic

/-! The durable record store under the directory. It is not part of this
repository, so the service is modelled over any store whose two calls behave
as documented: rows come back in append order, and an append adds exactly one
row or reports an error and adds none. Which calls fail is the store's own
affair; a store may fail one call and serve the next. -/
namespace AccountDirectory

class Store (σ : Type) where
  Error : Type
  records : σ → String → String → Except Error (List String) × σ
  appendRecord : σ → String → String → String → Except Error Unit × σ
  rows : σ → String → String → List String
  records_ok : ∀ {s scope kind read}, (records s scope kind).1 = .ok read → read = rows s scope kind
  records_rows : ∀ s scope kind, rows (records s scope kind).2 = rows s
  append_ok : ∀ {s scope kind body}, (appendRecord s scope kind body).1 = .ok () →
    rows (appendRecord s scope kind body).2 scope kind = rows s scope kind ++ [body]
  append_error : ∀ {s scope kind body e}, (appendRecord s scope kind body).1 = .error e →
    rows (appendRecord s scope kind body).2 = rows s

/-- The reserved scope the durable directory log lives in. -/
def directoryScope : String := "directory"

/-- The record kind each admitted publish appends. -/
def directoryEntryKind : String := "directory_entry"

section DirectoryLog

variable {σ : Type} [Store σ]

/-- The durable directory log. -/
def durableLog (s : σ) : List String := Store.rows s directoryScope directoryEntryKind

def readLog (s : σ) : Except (Store.Error σ) (List String) × σ :=
  Store.records s directoryScope directoryEntryKind

def appendLog (s : σ) (body : String) : Except (Store.Error σ) Unit × σ :=
  Store.appendRecord s directoryScope directoryEntryKind body

theorem readLog_of_isOk {s : σ} (h : (readLog s).1.isOk) :
    (readLog s).1 = .ok (durableLog s) := by
  cases hread : (readLog s).1 with
  | error e => simp [hread, Except.isOk, Except.toBool] at h
  | ok rows => exact congrArg Except.ok (Store.records_ok hread)

@[simp] theorem durableLog_readLog (s : σ) : durableLog (readLog s).2 = durableLog s :=
  congrFun₂ (Store.records_rows s _ _) _ _

theorem durableLog_append_of_isOk {s : σ} {body : String} (h : (appendLog s body).1.isOk) :
    durableLog (appendLog s body).2 = durableLog s ++ [body] := by
  cases happend : (appendLog s body).1 with
  | error e => simp [happend, Except.isOk, Except.toBool] at h
  | ok u => exact Store.append_ok happend

theorem durableLog_append_of_not_isOk {s : σ} {body : String} (h : ¬ (appendLog s body).1.isOk) :
    durableLog (appendLog s body).2 = durableLog s := by
  cases happend : (appendLog s body).1 with
  | error e => exact congrFun₂ (Store.append_error happend) _ _
  | ok u => simp [happend, Except.isOk, Except.toBool] at h

end DirectoryLog

/-- A store in memory that fails the calls it is told to: the next read or
append takes the head of its schedule, `true` being a failure, and calls past
the schedule's end succeed. -/
structure ScriptedStore where
  log : List (String × String × String)
  readFails : List Bool
  appendFails : List Bool

namespace ScriptedStore

def rows (s : ScriptedStore) (scope kind : String) : List String :=
  s.log.filterMap fun (rowScope, rowKind, body) =>
    if rowScope = scope ∧ rowKind = kind then some body else none

def records (s : ScriptedStore) (scope kind : String) :
    Except Unit (List String) × ScriptedStore :=
  (if s.readFails.headD false then .error () else .ok (s.rows scope kind),
    { s with readFails := s.readFails.tail })

def appendRecord (s : ScriptedStore) (scope kind body : String) :
    Except Unit Unit × ScriptedStore :=
  if s.appendFails.headD false then
    (.error (), { s with appendFails := s.appendFails.tail })
  else
    (.ok (), { s with log := s.log ++ [(scope, kind, body)], appendFails := s.appendFails.tail })

instance : Store ScriptedStore where
  Error := Unit
  records := records
  appendRecord := appendRecord
  rows := rows
  records_ok := by
    intro s scope kind read h
    unfold records at h
    split at h
    · cases h
    · exact (Except.ok.inj h).symm
  records_rows := by intro s scope kind; rfl
  append_ok := by
    intro s scope kind body h
    unfold appendRecord at h ⊢
    split
    · rename_i hfail
      rw [if_pos hfail] at h
      cases h
    · simp [rows]
  append_error := by
    intro s scope kind body e h
    unfold appendRecord at h ⊢
    split
    · rfl
    · rename_i hfail
      rw [if_neg hfail] at h
      cases h

/-- An empty store without failures. -/
def empty : ScriptedStore := ⟨[], [], []⟩

end ScriptedStore
end AccountDirectory
