import Mathlib.Data.Finset.Basic

/-!
# The follower's rollback data

The values `handle_rollback_updates` reads and returns. Identifiers of the store are plain
numbers; their widths play no part in the loop. Document-id sets are the three bitmaps of a
`MergedChanges`, kept as finite sets: the loop only clears them, tests them for emptiness and
hands them to the store or to `serialize`.

The types of the `store` crate and of `cluster::log` are not under src/. They are written here
with only the variants and fields the loop reaches.
-/
namespace JmapServer

abbrev AccountId := ℕ
abbrev DocumentId := ℕ

/-- Modelled from the spec: `store::core::collection::Collection` is not under src/. The loop
asks only whether a collection is `Thread`, the change-tracking-only collection; `Mail` is the
collection of the spec's scenarios and `Other n` stands for each remaining variant. -/
inductive Collection where
  | Mail
  | Thread
  | Other (discriminant : ℕ)
  deriving DecidableEq, Repr

/-- Modelled from the spec: the three disjoint-by-convention id sets of a change-set. -/
structure MergedChanges where
  inserts : Finset DocumentId
  updates : Finset DocumentId
  deletes : Finset DocumentId
  deriving DecidableEq

namespace MergedChanges

def cleared : MergedChanges := ⟨∅, ∅, ∅⟩

def takeInserts (c : MergedChanges) : MergedChanges := { c with inserts := ∅ }

def clearUpdates (c : MergedChanges) : MergedChanges := { c with updates := ∅, deletes := ∅ }

/-- The guard of the checkpoint branch: `!deletes.is_empty() || !updates.is_empty()`. -/
def Remaining (c : MergedChanges) : Prop := c.deletes ≠ ∅ ∨ c.updates ≠ ∅

instance (c : MergedChanges) : Decidable c.Remaining := inferInstanceAs (Decidable (_ ∨ _))

@[simp] theorem takeInserts_inserts (c : MergedChanges) : c.takeInserts.inserts = ∅ := rfl
@[simp] theorem takeInserts_updates (c : MergedChanges) : c.takeInserts.updates = c.updates := rfl
@[simp] theorem takeInserts_deletes (c : MergedChanges) : c.takeInserts.deletes = c.deletes := rfl
@[simp] theorem clearUpdates_inserts (c : MergedChanges) : c.clearUpdates.inserts = c.inserts := rfl
@[simp] theorem clearUpdates_updates (c : MergedChanges) : c.clearUpdates.updates = ∅ := rfl
@[simp] theorem clearUpdates_deletes (c : MergedChanges) : c.clearUpdates.deletes = ∅ := rfl
@[simp] theorem cleared_inserts : cleared.inserts = ∅ := rfl
@[simp] theorem cleared_updates : cleared.updates = ∅ := rfl
@[simp] theorem cleared_deletes : cleared.deletes = ∅ := rfl

end MergedChanges

structure Target where
  account_id : AccountId
  collection : Collection
  changes : MergedChanges
  deriving DecidableEq

/-- Modelled from the spec: the node's most recent applied log position. -/
structure RaftId where
  term : ℕ
  index : ℕ
  deriving DecidableEq, Repr

/-- The variants of the follower `State` this loop produces; `State::default()` is
`Synchronized`. -/
inductive State where
  | Synchronized
  | Rollback (account_id : AccountId) (collection : Collection) (changes : MergedChanges)
  deriving DecidableEq

instance : Inhabited State := ⟨.Synchronized⟩

inductive AppendEntriesResponse where
  | Continue
  | Update (account_id : AccountId) (collection : Collection) (changes : List UInt8)
      (is_rollback : Bool)
  | Match (match_log : RaftId)
  deriving DecidableEq

inductive Response where
  | None
  | AppendEntries (response : AppendEntriesResponse)
  deriving DecidableEq

end JmapServer
