import JmapServer.Follower.RollbackLoop

/-!
# The exits of one pass

A pass of the loop body makes at most five storage calls and leaves by one of eight exits:
the four early `return None`s, the `Continue` of a partial apply, the checkpoint, the `Match`,
and the `continue` with a new target. `PassShape` lists them with the calls each one made,
and `body_shape` proves that every pass, over every storage, is one of them. The properties of
the loop below are read off this one lemma rather than off the definitions.
-/
namespace JmapServer.RollbackPass
open RollbackLoop

variable {Update : Type}

/-- The batch a pass wrote at line 59, if it had inserts to delete. -/
def deletePrelude (a : AccountId) (c : Collection) (ch : MergedChanges) : List (Call Update) :=
  if ch.inserts = ∅ then [] else [.deleteDocuments a c ch.inserts (.ok ())]

/-- The apply a pass made at line 76 and that finished, if it had update records. -/
def applyPrelude (us : List Update) : List (Call Update) :=
  if us.isEmpty then [] else [.applyRollbackUpdates us (.ok true)]

theorem mem_deletePrelude {a : AccountId} {c : Collection} {ch : MergedChanges}
    {κ : Call Update} (h : κ ∈ deletePrelude a c ch) :
    κ = .deleteDocuments a c ch.inserts (.ok ()) := by
  unfold deletePrelude at h
  split_ifs at h
  exacts [absurd h (List.not_mem_nil _), List.mem_singleton.1 h]

theorem mem_applyPrelude {us : List Update} {κ : Call Update} (h : κ ∈ applyPrelude us) :
    κ = .applyRollbackUpdates us (.ok true) := by
  unfold applyPrelude at h
  split_ifs at h
  exacts [absurd h (List.not_mem_nil _), List.mem_singleton.1 h]

/-- What holds of the batch delete and of the calls `Q` holds of every call of the batch
delete followed by `Q`. -/
theorem forall_mem_deletePrelude_append {p : Call Update → Prop} {a : AccountId} {c : Collection}
    {ch : MergedChanges} {Q : List (Call Update)}
    (hd : p (.deleteDocuments a c ch.inserts (.ok ()))) (hQ : ∀ κ ∈ Q, p κ) :
    ∀ κ ∈ deletePrelude a c ch ++ Q, p κ := by
  intro κ hκ
  rcases List.mem_append.1 hκ with h | h
  · exact mem_deletePrelude h ▸ hd
  · exact hQ κ h

/-- What holds of the batch delete and of the finished apply holds of every call of the
preludes. -/
theorem forall_mem_prelude {p : Call Update → Prop} {a : AccountId} {c : Collection}
    {ch : MergedChanges} {us : List Update} (hd : p (.deleteDocuments a c ch.inserts (.ok ())))
    (ha : p (.applyRollbackUpdates us (.ok true))) :
    ∀ κ ∈ deletePrelude a c ch ++ applyPrelude us, p κ :=
  forall_mem_deletePrelude_append hd fun _ h => mem_applyPrelude h ▸ ha

/-- The change-set a pass holds at line 101. -/
def settled (ch : MergedChanges) (us : List Update) : MergedChanges :=
  if us.isEmpty then ch.takeInserts else ch.takeInserts.clearUpdates

@[simp] theorem settled_inserts (ch : MergedChanges) (us : List Update) :
    (settled ch us).inserts = ∅ := by
  unfold settled; split <;> rfl

/-- The exits of a pass from the change-set `ch` (already cleared for `Thread`) and the update
records `us`, each with the calls made on the way. -/
inductive PassShape (serialize : MergedChanges → Option (List UInt8)) (a : AccountId)
    (c : Collection) (ch : MergedChanges) (us : List Update) :
    Step Update → List (Call Update) → Prop
  | deleteFailed (e : String) : ch.inserts ≠ ∅ →
      PassShape serialize a c ch us (.ret none) [.deleteDocuments a c ch.inserts (.error e)]
  | applyFailed (e : String) : us ≠ [] →
      PassShape serialize a c ch us (.ret none)
        (deletePrelude a c ch ++ [.applyRollbackUpdates us (.error e)])
  | incomplete : us ≠ [] →
      PassShape serialize a c ch us
        (.ret (some (.Rollback a c ch.takeInserts, .AppendEntries .Continue)))
        (deletePrelude a c ch ++ [.applyRollbackUpdates us (.ok false)])
  | checkpoint : (settled ch us).Remaining →
      PassShape serialize a c ch us (.ret (checkpointAnswer serialize a c (settled ch us)))
        (deletePrelude a c ch ++ applyPrelude us)
  | removeFailed (e : String) : ¬ (settled ch us).Remaining →
      PassShape serialize a c ch us (.ret none)
        (deletePrelude a c ch ++ applyPrelude us ++ [.removeRollbackChange a c (.error e)])
  | nextFailed (e : String) : ¬ (settled ch us).Remaining →
      PassShape serialize a c ch us (.ret none)
        (deletePrelude a c ch ++ applyPrelude us ++
          [.removeRollbackChange a c (.ok ()), .nextRollbackChange (.error e)])
  | next (t : Target) : ¬ (settled ch us).Remaining →
      PassShape serialize a c ch us (.next t [])
        (deletePrelude a c ch ++ applyPrelude us ++
          [.removeRollbackChange a c (.ok ()), .nextRollbackChange (.ok (some t))])
  | finished (last : StoreResult (Option RaftId)) : ¬ (settled ch us).Remaining →
      PassShape serialize a c ch us (.ret (lastLogAnswer last))
        (deletePrelude a c ch ++ applyPrelude us ++
          [.removeRollbackChange a c (.ok ()), .nextRollbackChange (.ok none), .getLastLog last])

section
variable {σ : Type} (S : Storage σ Update) (serialize : MergedChanges → Option (List UInt8))

theorem checkpoint_shape (a : AccountId) (c : Collection) (ch : MergedChanges)
    (us : List Update) (s : σ) :
    PassShape serialize a c ch us
      (checkpoint S serialize a c (settled ch us) [] s).step
      (deletePrelude a c ch ++ applyPrelude us ++
        (checkpoint S serialize a c (settled ch us) [] s).calls) := by
  rcases checkpoint_cases S serialize a c (settled ch us) [] s with ⟨hr, hp⟩ | ⟨hr, hp⟩
  · simpa [hp] using @PassShape.checkpoint _ serialize a c ch us hr
  rcases advance_cases S a c [] s with ⟨e, _, _, ha⟩ | ⟨_, e, _, _, _, ha⟩ |
    ⟨_, t, _, _, _, ha⟩ | ⟨_, _, last, _, _, _, _, ha⟩ <;> rw [hp, ha]
  · exact .removeFailed e hr
  · exact .nextFailed e hr
  · exact .next t hr
  · exact .finished last hr

theorem applyUpdates_shape (a : AccountId) (c : Collection) (ch : MergedChanges)
    (us : List Update) (s : σ) :
    PassShape serialize a c ch us
      (applyUpdates S serialize a c ch.takeInserts us s).step
      (deletePrelude a c ch ++ (applyUpdates S serialize a c ch.takeInserts us s).calls) := by
  rcases applyUpdates_cases S serialize a c ch.takeInserts us s with ⟨rfl, hp⟩ |
    ⟨hu, e, _, _, hp⟩ | ⟨hu, _, _, hp⟩ | ⟨hu, s', _, hp⟩ <;> rw [hp]
  · simpa [applyPrelude, settled] using checkpoint_shape S serialize a c ch [] s
  · exact .applyFailed e hu
  · exact .incomplete hu
  · simpa [applyPrelude, settled, hu] using checkpoint_shape S serialize a c ch us s'

/-- Every pass of the loop body leaves by one of the exits of `PassShape`. -/
theorem body_shape (a : AccountId) (c : Collection) (ch : MergedChanges) (us : List Update)
    (s : σ) :
    PassShape serialize a c (clearThread c ch) us (body S serialize a c ch us s).step
      (body S serialize a c ch us s).calls := by
  rcases deleteInserts_cases S serialize a c (clearThread c ch) us s with ⟨hi, hp⟩ |
    ⟨hi, e, _, _, hp⟩ | ⟨hi, s', _, hp⟩ <;> rw [body, hp]
  · simpa [deletePrelude, hi] using applyUpdates_shape S serialize a c (clearThread c ch) us s
  · exact .deleteFailed e hi
  · simpa [deletePrelude, hi] using applyUpdates_shape S serialize a c (clearThread c ch) us s'

end

end JmapServer.RollbackPass
