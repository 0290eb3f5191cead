import AccountDirectory.Protocol
import AccountDirectory.Store
import AccountDirectory.Library.KeyedLog
import Mathlib.Data.Finset.Basic

/-! The blind directory: an in-memory cache of per-root logs over an optional
durable, append-only store. Clones share one cache and one store, so a
directory is the value behind the two locks. -/
namespace AccountDirectory
open Library

variable {Route Signature σ : Type} (P : Platform Route Signature)

structure Stored (Route : Type) where
  body : String
  entry : DirectoryEntry Route
deriving DecidableEq, Repr

/-- What a publish did to a root's log. -/
inductive Disposition where
  | advanced
  | idempotent
  | conflict
deriving DecidableEq, Repr

structure RootLog (Route : Type) where
  latest : Option (Stored Route) := none
  digests : Finset String := ∅
deriving DecidableEq

namespace RootLog

def generation (log : RootLog Route) : UInt64 :=
  log.latest.elim 0 fun stored => stored.entry.generation

def fold (log : RootLog Route) (body : String) (entry : DirectoryEntry Route) : RootLog Route :=
  { latest := some ⟨body, entry⟩, digests := insert (digest P body) log.digests }

end RootLog

/-- A stored log row: a signed put, or a bare entry written before puts were
stored whole. -/
def parseRow (row : String) : Option (DirectoryEntry Route) :=
  match P.decodePut row with
  | some put => some put.entry
  | none => P.decodeEntry row

abbrev Roots (Route : Type) := Finmap fun _ : String => RootLog Route

/-- `roots.entry(root).or_default()`. -/
def Roots.entry (roots : Roots Route) (root : String) : RootLog Route :=
  (roots.lookup root).getD {}

structure BlindDirectory (Route σ : Type) where
  roots : Mutex (Roots Route)
  store : Option σ

namespace BlindDirectory

/-- The pure in-memory directory. -/
def new : BlindDirectory Route σ := ⟨.new ∅, none⟩

/-- One row of the startup fold. -/
def rehydrateRow (roots : Roots Route) (row : String) : Roots Route :=
  match parseRow P row with
  | some entry =>
      let root := entry.directory.rootPubkey
      roots.insert root ((roots.entry root).fold P row entry)
  | none => roots

/-- `BlindDirectory::open`. A read that fails is passed over in silence: the
directory then starts from no roots at all. -/
def openOver [Store σ] (store : σ) : BlindDirectory Route σ :=
  let (read, store) := readLog store
  let roots := match read with
    | .ok rows => rows.foldl (rehydrateRow P) ∅
    | .error _ => ∅
  ⟨.new roots, some store⟩

def get (dir : BlindDirectory Route σ) (root : String) : Except Panic (Option (Stored Route)) := do
  let roots ← dir.roots.lock
  return (roots.lookup root).bind RootLog.latest

/-- The cache with `roots` written back, the lock released unpoisoned. -/
def withRoots (dir : BlindDirectory Route σ) (roots : Roots Route) : BlindDirectory Route σ :=
  { dir with roots := .new roots }

/-- The durable append of a publish. Its result is dropped. -/
def appendBody [Store σ] (dir : BlindDirectory Route σ) (body : String) : BlindDirectory Route σ :=
  { dir with store := dir.store.map fun store => (appendLog store body).2 }

/-- `admit`: admit a publish whose exact body is `body`. The generation is
compared under the lock, and an overflow there unwinds with the lock held. -/
def admitPut [Store σ] (dir : BlindDirectory Route σ) (put : SignedDirectoryPut Route Signature)
    (body : String) : Except Panic Disposition × BlindDirectory Route σ :=
  let root := put.entry.directory.rootPubkey
  match dir.roots.lock with
  | .error panic => (.error panic, dir)
  | .ok roots =>
      let log := roots.entry root
      let roots := roots.insert root log
      if digest P body ∈ log.digests then
        (.ok .idempotent, dir.withRoots roots)
      else
        match addOne P.overflowChecks log.generation with
        | .error panic => (.error panic, { dir with roots := ⟨roots, true⟩ })
        | .ok next =>
            if put.entry.generation ≠ next then
              (.ok .conflict, dir.withRoots roots)
            else
              (.ok .advanced,
                (dir.appendBody body).withRoots (roots.insert root (log.fold P body put.entry)))

/-- How many roots have an entry in the map. -/
def len (dir : BlindDirectory Route σ) : Except Panic Nat := do
  let roots ← dir.roots.lock
  return roots.keys.card

def isEmpty (dir : BlindDirectory Route σ) : Except Panic Bool := do
  return (← dir.len) == 0

end BlindDirectory
end AccountDirectory
