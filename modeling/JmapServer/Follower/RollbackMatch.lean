import JmapServer.Follower.RollbackTrace

/-!
# What a `Match` leaves in the store

A run that answers `Match` has gone through every target without a checkpoint: each pass
deleted its target's speculative inserts, undid the update records of the call on the first
pass only, and removed the target's marker. Over the spec's store this fixes the documents
afterwards, as the deletions of the targets in the order they arrived applied after the one
apply, and it leaves no marker pending, since the last `next_rollback_change` found none.
-/
namespace JmapServer.RollbackMatch
open RollbackLoop RollbackPass RollbackStore RollbackTrace

variable {Update : Type}

/-- A pass that answers `Match` removed its target's marker, found no other, and read the last
log. -/
theorem body_match {σ : Type} (S : Storage σ Update)
    (serialize : MergedChanges → Option (List UInt8)) {a : AccountId} {c : Collection}
    {ch : MergedChanges} {us : List Update} {s : σ} {l : RaftId}
    (h : (body S serialize a c ch us s).step =
      .ret (some (.Synchronized, .AppendEntries (.Match l)))) :
    (body S serialize a c ch us s).calls =
      (deletePrelude a c (clearThread c ch) ++ applyPrelude us ++
        [.removeRollbackChange a c (.ok ())]) ++
        [.nextRollbackChange (.ok none), .getLastLog (.ok (some l))] := by
  have hs := body_shape S serialize a c ch us s
  generalize (body S serialize a c ch us s).step = st at hs h
  generalize (body S serialize a c ch us s).calls = cs at hs
  cases hs with
  | deleteFailed | applyFailed | incomplete | removeFailed | nextFailed | next => cases h
  | checkpoint =>
    simp only [checkpointAnswer, Step.ret.injEq, Option.map_eq_some'] at h
    obtain ⟨_, _, h⟩ := h
    cases h
  | finished last =>
    rcases last with _ | _ | l'
    · cases h
    · cases h
    · cases h; simp

section
variable (pick : Pending → Option Target)
variable (apply : List Update → Finset DocumentKey → StoreResult (Bool × Finset DocumentKey))
variable (serialize : MergedChanges → Option (List UInt8))

/-- The store after a pass that went as far as removing its target's marker. -/
theorem replay_removed (st : Store) (a : AccountId) (c : Collection) (ch : MergedChanges)
    (us : List Update) :
    (deletePrelude a c (clearThread c ch) ++ applyPrelude us ++
      [(.removeRollbackChange a c (.ok ()) : Call Update)]).foldl (replay apply) st =
      ⟨updatedDocuments apply us (rolledBackDocuments ⟨a, c, ch⟩ st.documents),
        st.pending.erase (a, c), st.lastLog⟩ := by
  simp [List.foldl_append, replay_deletePrelude, replay_applyPrelude, replay,
    Store.removeRollbackChange]

theorem arrival_removed (a : AccountId) (c : Collection) (ch : MergedChanges) (us : List Update) :
    (deletePrelude a c (clearThread c ch) ++ applyPrelude us ++
      [(.removeRollbackChange a c (.ok ()) : Call Update)]).filterMap Call.arrival = [] := by
  have := prelude_arrival a c (clearThread c ch) us
  simp_all [Call.arrival]

/-- The apply a pass made, on the documents its delete left, is the one the store answered. -/
theorem pass_applied {st : Store} {a : AccountId} {c : Collection} {ch : MergedChanges}
    {us : List Update} {rest : List (Call Update)}
    (hc : Consistent pick apply st ((deletePrelude a c (clearThread c ch) ++ applyPrelude us ++
      [.removeRollbackChange a c (.ok ())]) ++ rest))
    (hu : us ≠ []) :
    ∃ d, apply us (rolledBackDocuments ⟨a, c, ch⟩ st.documents) = .ok (true, d) := by
  rw [consistent_append, consistent_append, consistent_append, replay_deletePrelude] at hc
  simpa [applyPrelude, hu, Consistent, Answered] using hc.1.1.2

/-- A run of the spec's store that answers `Match` leaves no marker pending. Its documents are
those it found, with the inserts of the first target deleted, the update records of the call
applied by the one apply that finished, and then the inserts of each target that arrived
deleted in turn; a `Thread` target deletes nothing. -/
theorem handleRollbackUpdates_match_store (hpick : Picks pick) (fuel : ℕ) (a : AccountId)
    (c : Collection) (ch : MergedChanges) (us : List Update) (st : Store) (flags : List Bool)
    {l : RaftId}
    (h : (handleRollbackUpdates (inject (storeOps pick apply)) serialize fuel a c ch us
      (st, flags)).result = some (some (.Synchronized, .AppendEntries (.Match l)))) :
    (handleRollbackUpdates (inject (storeOps pick apply)) serialize fuel a c ch us
        (st, flags)).store.1.pending.keys = [] ∧
      (us ≠ [] → ∃ d, apply us (rolledBackDocuments ⟨a, c, ch⟩ st.documents) = .ok (true, d)) ∧
      (handleRollbackUpdates (inject (storeOps pick apply)) serialize fuel a c ch us
        (st, flags)).store.1.documents =
        ((handleRollbackUpdates (inject (storeOps pick apply)) serialize fuel a c ch us
          (st, flags)).calls.filterMap Call.arrival).foldl (fun d t => rolledBackDocuments t d)
          (updatedDocuments apply us (rolledBackDocuments ⟨a, c, ch⟩ st.documents)) := by
  induction fuel generalizing a c ch us st flags with
  | zero => simp [handleRollbackUpdates] at h
  | succ fuel ih =>
    obtain ⟨hy, hc⟩ := steps_replay pick apply (body_steps _ serialize a c ch us (st, flags))
    simp only [handleRollbackUpdates] at h ⊢
    split at h <;> rename_i hst <;> simp only [hst]
    · cases h
      rw [body_match _ serialize hst] at hy hc ⊢
      refine ⟨?_, pass_applied pick apply hc, ?_⟩
      · rw [consistent_append, replay_removed] at hc
        rw [hy, List.foldl_append, replay_removed]
        exact (hpick _).1 hc.2.1.symm
      · rw [hy, List.foldl_append, replay_removed, List.filterMap_append, arrival_removed]
        rfl
    · rename_i t us'
      obtain ⟨rfl, hcalls⟩ := body_next _ serialize hst
      rw [hcalls] at hy hc
      rw [List.foldl_append, replay_removed] at hy
      obtain ⟨ih₁, -, ih₂⟩ := ih t.account_id t.collection t.changes [] _ _ h
      rw [Prod.mk.eta] at ih₁ ih₂
      refine ⟨ih₁, pass_applied pick apply hc, ?_⟩
      rw [ih₂, hcalls, hy, List.filterMap_append, List.filterMap_append, arrival_removed]
      rfl

theorem match_store_two_targets :
    let run := handleRollbackUpdates (inject (storeOps firstPending fun (_ : List Unit) d =>
      .ok (true, d))) (fun _ => none) 2 0 .Mail ⟨{7}, ∅, ∅⟩ []
      (⟨{(0, .Mail, 7), (1, .Mail, 8), (0, .Mail, 8)}, AList.singleton (1, .Mail) ⟨{8}, ∅, ∅⟩,
        some ⟨1, 2⟩⟩, [])
    Picks firstPending ∧
    run.result = some (some (.Synchronized, .AppendEntries (.Match ⟨1, 2⟩))) ∧
    run.store.1.pending.keys = [] ∧
    (([] : List Unit) ≠ [] → ∃ d, (Except.ok (true, rolledBackDocuments ⟨0, .Mail, ⟨{7}, ∅, ∅⟩⟩
      {(0, .Mail, 7), (1, .Mail, 8), (0, .Mail, 8)}) : StoreResult (Bool × Finset DocumentKey)) =
        .ok (true, d)) ∧
    run.store.1.documents = (run.calls.filterMap Call.arrival).foldl (fun d t => rolledBackDocuments t d)
      (updatedDocuments (fun (_ : List Unit) d => .ok (true, d)) []
        (rolledBackDocuments ⟨0, .Mail, ⟨{7}, ∅, ∅⟩⟩ {(0, .Mail, 7), (1, .Mail, 8), (0, .Mail, 8)})) :=
  have h : (handleRollbackUpdates (inject (storeOps firstPending fun (_ : List Unit) d =>
      .ok (true, d))) (fun _ => none) 2 0 .Mail ⟨{7}, ∅, ∅⟩ []
      (⟨{(0, .Mail, 7), (1, .Mail, 8), (0, .Mail, 8)}, AList.singleton (1, .Mail) ⟨{8}, ∅, ∅⟩,
        some ⟨1, 2⟩⟩, [])).result = some (some (.Synchronized, .AppendEntries (.Match ⟨1, 2⟩))) := rfl
  ⟨firstPending_picks, h, handleRollbackUpdates_match_store _ _ _ firstPending_picks 2 0 .Mail
    ⟨{7}, ∅, ∅⟩ [] _ [] h⟩

end

end JmapServer.RollbackMatch
