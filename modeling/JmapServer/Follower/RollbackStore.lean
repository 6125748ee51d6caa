import JmapServer.Follower.RollbackPass
import Mathlib.Data.List.AList

/-!
# The store of the spec, with failures

The spec's store: a set of documents keyed by account, collection and id, a map of pending
rollback markers keyed by account and collection, and the last applied log position. Its
calls never fail by themselves; `inject` makes any of them fail, as a list of flags says, and a
failed call changes nothing, since every write of the store is one atomic batch.

`replay` reads the store off the recorded calls of a run, and `Consistent` says that each
answer the loop got is what the store held at that call. `steps_replay` proves both of every
run of the faulty store, so the theorems about the store reason over lists of calls.
-/
namespace JmapServer.RollbackStore
open RollbackLoop RollbackPass

abbrev DocumentKey := AccountId × Collection × DocumentId

/-- The pending rollback markers; `AList` keeps at most one marker per target. -/
abbrev Pending := AList (fun _ : AccountId × Collection => MergedChanges)

structure Store where
  documents : Finset DocumentKey
  pending : Pending
  lastLog : Option RaftId

namespace Store

def deleteDocuments (st : Store) (a : AccountId) (c : Collection) (ids : Finset DocumentId) :
    Store :=
  { st with documents := st.documents.filter fun d => ¬ (d.1 = a ∧ d.2.1 = c ∧ d.2.2 ∈ ids) }

def removeRollbackChange (st : Store) (a : AccountId) (c : Collection) : Store :=
  { st with pending := st.pending.erase (a, c) }

@[simp] theorem deleteDocuments_pending (st : Store) (a : AccountId) (c : Collection)
    (ids : Finset DocumentId) : (st.deleteDocuments a c ids).pending = st.pending := rfl

@[simp] theorem deleteDocuments_lastLog (st : Store) (a : AccountId) (c : Collection)
    (ids : Finset DocumentId) : (st.deleteDocuments a c ids).lastLog = st.lastLog := rfl

@[simp] theorem removeRollbackChange_documents (st : Store) (a : AccountId) (c : Collection) :
    (st.removeRollbackChange a c).documents = st.documents := rfl

@[simp] theorem removeRollbackChange_pending (st : Store) (a : AccountId) (c : Collection) :
    (st.removeRollbackChange a c).pending = st.pending.erase (a, c) := rfl

@[simp] theorem removeRollbackChange_lastLog (st : Store) (a : AccountId) (c : Collection) :
    (st.removeRollbackChange a c).lastLog = st.lastLog := rfl

end Store

variable {Update : Type}

/-- Modelled from the spec: the five calls over the store. `apply` stands for
`apply_rollback_updates`, which is not under src/: it undoes update records against the
documents and reports whether it finished, in one atomic batch. `pick` is the choice
`next_rollback_change` makes among the pending markers. -/
def storeOps (pick : Pending → Option Target)
    (apply : List Update → Finset DocumentKey → StoreResult (Bool × Finset DocumentKey)) :
    Storage Store Update where
  deleteDocuments a c ids st := (.ok (), st.deleteDocuments a c ids)
  applyRollbackUpdates us st :=
    match apply us st.documents with
    | .ok (done, d) => (.ok done, { st with documents := d })
    | .error e => (.error e, st)
  removeRollbackChange a c st := (.ok (), st.removeRollbackChange a c)
  nextRollbackChange st := (.ok (pick st.pending), st)
  getLastLog st := (.ok st.lastLog, st)

/-- `next_rollback_change` answers with an entry of the pending map, and with none only when
the map is empty. -/
def Picks (pick : Pending → Option Target) : Prop :=
  ∀ m : Pending, (pick m = none → m.keys = []) ∧
    ∀ t, pick m = some t → m.lookup (t.account_id, t.collection) = some t.changes

/-- One call that fails, leaving the store as it was, when the next flag is raised. -/
def faulty {σ α : Type} (call : σ → StoreResult α × σ) : σ × List Bool → StoreResult α × (σ × List Bool)
  | (x, true :: flags) => (.error "injected", (x, flags))
  | (x, flags) => ((call x).1, ((call x).2, flags.tail))

/-- The storage `S`, each of whose calls fails when its flag is raised. -/
def inject {σ : Type} (S : Storage σ Update) : Storage (σ × List Bool) Update where
  deleteDocuments a c ids := faulty (S.deleteDocuments a c ids)
  applyRollbackUpdates us := faulty (S.applyRollbackUpdates us)
  removeRollbackChange a c := faulty (S.removeRollbackChange a c)
  nextRollbackChange := faulty S.nextRollbackChange
  getLastLog := faulty S.getLastLog

theorem faulty_cases {σ α : Type} {call : σ → StoreResult α × σ} {x y : σ × List Bool}
    {r : StoreResult α} (h : faulty call x = (r, y)) :
    y.2 = x.2.tail ∧ ((∃ e, r = .error e ∧ y.1 = x.1) ∨ call x.1 = (r, y.1)) := by
  obtain ⟨x, _ | ⟨_ | _, flags⟩⟩ := x <;> simp only [faulty, Prod.mk.injEq] at h <;>
    obtain ⟨rfl, rfl⟩ := h <;> simp

section
variable (pick : Pending → Option Target)
variable (apply : List Update → Finset DocumentKey → StoreResult (Bool × Finset DocumentKey))

def appliedDocuments (us : List Update) (d : Finset DocumentKey) : Finset DocumentKey :=
  match apply us d with
  | .ok (_, d') => d'
  | .error _ => d

/-- The store after a recorded call; a call that failed changed nothing. -/
def replay (st : Store) : Call Update → Store
  | .deleteDocuments a c ids (.ok _) => st.deleteDocuments a c ids
  | .applyRollbackUpdates us (.ok _) =>
    { st with documents := appliedDocuments apply us st.documents }
  | .removeRollbackChange a c (.ok _) => st.removeRollbackChange a c
  | _ => st

/-- The answer of a successful call is what the store `st` held. -/
def Answered (st : Store) : Call Update → Prop
  | .applyRollbackUpdates us (.ok b) => ∃ d, apply us st.documents = .ok (b, d)
  | .nextRollbackChange (.ok r) => r = pick st.pending
  | .getLastLog (.ok r) => r = st.lastLog
  | _ => True

/-- Each call was answered by the store as replayed up to it. -/
def Consistent : Store → List (Call Update) → Prop
  | _, [] => True
  | st, κ :: cs => Answered pick apply st κ ∧ Consistent (replay apply st κ) cs

theorem consistent_append (st : Store) (cs ds : List (Call Update)) :
    Consistent pick apply st (cs ++ ds) ↔
      Consistent pick apply st cs ∧ Consistent pick apply (cs.foldl (replay apply) st) ds := by
  induction cs generalizing st with
  | nil => simp [Consistent]
  | cons κ cs ih => simp [Consistent, ih, and_assoc]

theorem steps_replay {x y : Store × List Bool} {cs : List (Call Update)}
    (h : Steps (inject (storeOps pick apply)) x cs y) :
    y.1 = cs.foldl (replay apply) x.1 ∧ Consistent pick apply x.1 cs := by
  induction h with
  | nil => exact ⟨rfl, trivial⟩
  | @applyRollbackUpdates x y z cs us r hc _ ih =>
    obtain ⟨-, ⟨e, rfl, he⟩ | hc⟩ := faulty_cases hc
    · simpa [replay, Consistent, Answered, he] using ih
    · simp only [storeOps] at hc
      rcases ha : apply us x.1.documents with e | ⟨b, d⟩ <;>
        simp only [ha, Prod.mk.injEq] at hc <;> obtain ⟨rfl, he⟩ := hc
      · simpa [replay, Consistent, Answered, ← he] using ih
      · simpa [replay, Consistent, Answered, appliedDocuments, ha, ← he] using ih
  | deleteDocuments _ _ _ _ hc _ ih | removeRollbackChange _ _ _ hc _ ih
  | nextRollbackChange _ hc _ ih | getLastLog _ hc _ ih =>
    obtain ⟨-, ⟨e, rfl, he⟩ | hc⟩ := faulty_cases hc
    · simpa [replay, Consistent, Answered, he] using ih
    · simp only [storeOps, Prod.mk.injEq] at hc
      obtain ⟨rfl, he⟩ := hc
      simpa [replay, Consistent, Answered, ← he] using ih

end

/-- The documents once the speculative inserts of target `t` are deleted: exactly the ids it
arrived with, in its account and collection, and nothing for a `Thread` target. -/
def rolledBackDocuments (t : Target) (d : Finset DocumentKey) : Finset DocumentKey :=
  if t.collection = .Thread then d
  else d.filter fun x => ¬ (x.1 = t.account_id ∧ x.2.1 = t.collection ∧ x.2.2 ∈ t.changes.inserts)

section
variable (apply : List Update → Finset DocumentKey → StoreResult (Bool × Finset DocumentKey))

def updatedDocuments (us : List Update) (d : Finset DocumentKey) : Finset DocumentKey :=
  if us.isEmpty then d else appliedDocuments apply us d

@[simp] theorem updatedDocuments_nil (d : Finset DocumentKey) :
    updatedDocuments apply ([] : List Update) d = d := rfl

theorem replay_deletePrelude (st : Store) (a : AccountId) (c : Collection) (ch : MergedChanges) :
    (deletePrelude a c (clearThread c ch)).foldl (replay apply) st =
      { st with documents := rolledBackDocuments ⟨a, c, ch⟩ st.documents } := by
  by_cases hc : c = .Thread
  · simp [deletePrelude, clearThread, rolledBackDocuments, hc]
  by_cases hi : ch.inserts = ∅
  · simp [deletePrelude, clearThread, rolledBackDocuments, hc, hi]
  · simp [deletePrelude, clearThread, rolledBackDocuments, hc, hi, replay, Store.deleteDocuments]

theorem replay_applyPrelude (st : Store) (us : List Update) :
    (applyPrelude us).foldl (replay apply) st =
      { st with documents := updatedDocuments apply us st.documents } := by
  unfold applyPrelude updatedDocuments; split_ifs <;> simp [replay]

end

def firstPending (m : Pending) : Option Target :=
  m.entries.head?.map fun e => ⟨e.1.1, e.1.2, e.2⟩

theorem firstPending_picks : Picks firstPending := by
  intro m
  obtain ⟨entries, nodup⟩ := m
  cases entries with
  | nil => simp [firstPending, AList.keys]
  | cons e rest =>
    refine ⟨by simp [firstPending], fun t ht => ?_⟩
    simp only [firstPending, List.head?_cons, Option.map_some', Option.some.injEq] at ht
    subst ht
    exact List.dlookup_cons_eq rest e.1 e.2

end JmapServer.RollbackStore
