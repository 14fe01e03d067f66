import WinBlaze.Index.Incremental
import WinBlaze.Index.Storage

/-!
# The index repository

An in-memory index state and the storage directory it is saved to.
-/

namespace WinBlaze

open Storage

structure SqliteIndexRepository where
  state : BufferedIndexTransaction
  storage : StorageFiles BufferedIndexTransaction

namespace SqliteIndexRepository

/-- `open` of the source. -/
def openStorage (storage : StorageFiles BufferedIndexTransaction) : SqliteIndexRepository :=
  ⟨openState storage, storage⟩

def openEmpty (storage : StorageFiles BufferedIndexTransaction) : SqliteIndexRepository :=
  ⟨{}, storage⟩

/-- Save `transaction` without adopting it; the result tells whether the save
returned `Ok`. -/
def persistTransaction (repository : SqliteIndexRepository) (outcomes : List Bool)
    (transaction : BufferedIndexTransaction) : Bool × SqliteIndexRepository :=
  let saved := persistSnapshotWith transaction outcomes repository.storage
  (saved.1, { repository with storage := saved.2 })

/-- The merged state is adopted even when saving it fails. -/
def applyIncrementalTransaction (repository : SqliteIndexRepository) (outcomes : List Bool)
    (transaction : BufferedIndexTransaction) : Option FileChangeSet × SqliteIndexRepository :=
  let merged := repository.state.mergeIncremental transaction
  let saved := persistSnapshotWith merged.2 outcomes repository.storage
  (if saved.1 then some merged.1 else none, ⟨merged.2, saved.2⟩)

def applyPathMatchedIncrementalTransaction (repository : SqliteIndexRepository)
    (outcomes : List Bool) (transaction : BufferedIndexTransaction) :
    Option FileChangeSet × SqliteIndexRepository :=
  repository.applyIncrementalTransaction outcomes (repository.state.remapByPath transaction)

end SqliteIndexRepository

end WinBlaze
