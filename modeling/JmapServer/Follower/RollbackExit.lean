import JmapServer.Follower.RollbackTrace

/-!
# Where a run stops

A run returns `None` only right after a storage call that failed, or after `get_last_log`
found no entry: the checkpoint whose change-set cannot be serialized is out of reach as long
as `serialize` fails only on an empty change-set. A run that returns `State::Rollback` stops at
the target current at its end, and over the spec's store that target's marker is left as it
was at entry.
-/
namespace JmapServer.RollbackExit
open RollbackLoop RollbackPass RollbackStore RollbackTrace

variable {Update : Type}

/-- The pass that returned `None` ended with a failed call or a missing last log, unless it was
a checkpoint with work left whose change-set `serialize` rejected. -/
theorem handleRollbackUpdates_none_cause {σ : Type} (S : Storage σ Update)
    (serialize : MergedChanges → Option (List UInt8))
    (hser : ∀ ch, serialize ch = none → ¬ ch.Remaining) (fuel : ℕ) (a : AccountId)
    (c : Collection) (ch : MergedChanges) (us : List Update) (s : σ)
    (h : (handleRollbackUpdates S serialize fuel a c ch us s).result = some none) :
    ∃ pre κ, (handleRollbackUpdates S serialize fuel a c ch us s).calls = pre ++ [κ] ∧
      (κ.failed ∨ κ = .getLastLog (.ok none)) := by
  obtain ⟨pre, t, us', x, hcalls, -, hstep, -⟩ :=
    handleRollbackUpdates_last_pass S serialize fuel a c ch us s h
  rw [hcalls]
  have hs := body_shape S serialize t.account_id t.collection t.changes us' x
  generalize (body S serialize t.account_id t.collection t.changes us' x).step = st at hs hstep
  generalize (body S serialize t.account_id t.collection t.changes us' x).calls = cs at hs
  cases hs with
  | deleteFailed e => exact ⟨pre, _, rfl, .inl rfl⟩
  | applyFailed e | removeFailed e =>
    exact ⟨pre ++ _, _, (List.append_assoc _ _ _).symm, .inl rfl⟩
  | nextFailed e =>
    exact ⟨pre ++ (deletePrelude t.account_id t.collection (clearThread t.collection t.changes) ++
      applyPrelude us' ++ [.removeRollbackChange t.account_id t.collection (.ok ())]),
      .nextRollbackChange (.error e), by simp, .inl rfl⟩
  | incomplete | next => cases hstep
  | checkpoint hr =>
    simp only [checkpointAnswer, Step.ret.injEq, Option.map_eq_none'] at hstep
    exact absurd hr (hser _ hstep)
  | finished last =>
    refine ⟨pre ++ (deletePrelude t.account_id t.collection (clearThread t.collection t.changes) ++
      applyPrelude us' ++ [.removeRollbackChange t.account_id t.collection (.ok ()),
        .nextRollbackChange (.ok none)]), .getLastLog last, by simp, ?_⟩
    rcases last with e | _ | l
    · exact .inl rfl
    · exact .inr rfl
    · simp [lastLogAnswer] at hstep

theorem none_after_failed_delete :
    let run := handleRollbackUpdates (inject (storeOps firstPending fun (_ : List Unit) d =>
      .ok (true, d))) (fun _ => some []) 1 0 .Mail ⟨{7}, ∅, ∅⟩ [] (⟨{(0, .Mail, 7)}, ∅, none⟩, [true])
    (∀ ch : MergedChanges, (some [] : Option (List UInt8)) = none → ¬ ch.Remaining) ∧
      run.result = some none ∧
      ∃ pre κ, run.calls = pre ++ [κ] ∧ (κ.failed ∨ κ = .getLastLog (.ok none)) :=
  have hser : ∀ ch : MergedChanges, (some [] : Option (List UInt8)) = none → ¬ ch.Remaining :=
    fun _ h => by cases h
  ⟨hser, rfl, handleRollbackUpdates_none_cause _ _ hser 1 0 .Mail ⟨{7}, ∅, ∅⟩ [] _ rfl⟩

theorem eq_of_arrival {κ : Call Update} {t : Target} (h : κ.arrival = some t) :
    κ = .nextRollbackChange (.ok (some t)) := by
  unfold Call.arrival at h
  split at h <;> simp_all

/-- The target current after `cs` is the first one, and then `cs` was all made for it, or it
arrived by an answer of `next_rollback_change` in `cs`, followed by the calls made since. -/
theorem current_cases {t₀ t : Target} {cs seg : List (Call Update)}
    (h : current t₀ cs = (t, seg)) :
    (t = t₀ ∧ cs = seg) ∨ ∃ pre, cs = pre ++ .nextRollbackChange (.ok (some t)) :: seg := by
  induction cs using List.reverseRecOn generalizing t seg with
  | nil =>
    obtain ⟨rfl, rfl⟩ := Prod.mk.inj h
    exact .inl ⟨rfl, rfl⟩
  | append_singleton cs κ ih =>
    rw [current, List.foldl_append, ← current] at h
    rcases hcur : current t₀ cs with ⟨t', seg'⟩
    simp only [hcur, List.foldl_cons, List.foldl_nil, track] at h
    split at h
    · rename_i ht
      obtain ⟨rfl, rfl⟩ := Prod.mk.inj h
      exact .inr ⟨cs, by rw [eq_of_arrival ht]⟩
    · obtain ⟨rfl, rfl⟩ := Prod.mk.inj h
      rcases ih hcur with ⟨rfl, rfl⟩ | ⟨pre, rfl⟩
      · exact .inl ⟨rfl, rfl⟩
      · exact .inr ⟨pre, by simp⟩

/-- Replayed calls change the pending markers only by removing those they name. -/
theorem lookup_replay
    (apply : List Update → Finset DocumentKey → StoreResult (Bool × Finset DocumentKey))
    (cs : List (Call Update)) (st : Store) (k : AccountId × Collection) :
    (cs.foldl (replay apply) st).pending.lookup k =
      if k ∈ cs.filterMap Call.removal then none else st.pending.lookup k := by
  induction cs generalizing st with
  | nil => simp
  | cons κ cs ih =>
    rw [List.foldl_cons, ih]
    rcases κ with ⟨_, _, _, _ | _⟩ | ⟨_, _ | _⟩ | ⟨a, c, _ | _⟩ | _ | _ <;>
      simp only [replay, Call.removal, List.filterMap_cons, Store.deleteDocuments_pending,
        Store.removeRollbackChange_pending]
    by_cases hk : k = (a, c)
    · subst hk; simp
    · simp [hk, AList.lookup_erase_ne hk]

theorem isRemoval_of_removal {κ : Call Update} {k : AccountId × Collection}
    (h : κ.removal = some k) : IsRemoval κ := by
  unfold Call.removal at h
  split at h
  · exact ⟨_, _, _, rfl⟩
  · cases h

/-- A list each of whose `f`-values is new where it appears has distinct `f`-values. -/
theorem nodup_filterMap_of_fresh {α β : Type} (f : α → Option β) (L : List α)
    (h : ∀ pre κ post k, L = pre ++ κ :: post → f κ = some k → k ∉ pre.filterMap f) :
    (L.filterMap f).Nodup := by
  induction L using List.reverseRecOn with
  | nil => simp
  | append_singleton L κ ih =>
    have ih' := ih fun pre κ' post k hL => h pre κ' (post ++ [κ]) k (by simp [hL])
    cases hk : f κ with
    | none => simpa [hk] using ih'
    | some k =>
      rw [List.filterMap_append, List.nodup_append]
      exact ⟨ih', by simp [hk], by simpa [hk] using h L κ [] k rfl hk⟩

section
variable (pick : Pending → Option Target)
variable (apply : List Update → Finset DocumentKey → StoreResult (Bool × Finset DocumentKey))
variable (serialize : MergedChanges → Option (List UInt8))

/-- A target the store handed over was pending then, so no call before it removed its marker. -/
theorem arrival_not_removed (hpick : Picks pick) {st : Store} {pre seg : List (Call Update)}
    {t : Target} (hc : Consistent pick apply st (pre ++ .nextRollbackChange (.ok (some t)) :: seg)) :
    (t.account_id, t.collection) ∉ pre.filterMap Call.removal := by
  rw [consistent_append] at hc
  have hl := (hpick _).2 t hc.2.1.symm
  rw [lookup_replay] at hl
  intro hk
  simp [hk] at hl

/-- A run of the spec's store that returns `State::Rollback` stops at the target current at its
end, whose marker it leaves as it found it. The state holds that target's updates and deletes
as they arrived; the leader is asked only about a non-`Thread` target with work left, with what
`serialize` made of it, and `Continue` comes only from the first target. -/
theorem handleRollbackUpdates_rollback_state (hpick : Picks pick) (fuel : ℕ) (a : AccountId)
    (c : Collection) (ch : MergedChanges) (us : List Update) (st : Store) (flags : List Bool)
    {a' : AccountId} {c' : Collection} {ch' : MergedChanges} {resp : Response}
    (h : (handleRollbackUpdates (inject (storeOps pick apply)) serialize fuel a c ch us
      (st, flags)).result = some (some (.Rollback a' c' ch', resp))) :
    ∃ t seg, current ⟨a, c, ch⟩ (handleRollbackUpdates (inject (storeOps pick apply)) serialize
        fuel a c ch us (st, flags)).calls = (t, seg) ∧ a' = t.account_id ∧ c' = t.collection ∧
      (handleRollbackUpdates (inject (storeOps pick apply)) serialize fuel a c ch us
        (st, flags)).store.1.pending.lookup (a', c') = st.pending.lookup (a', c') ∧
      ch'.inserts = ∅ ∧
      ch'.updates = (if c' = .Thread then ∅ else t.changes.updates) ∧
      ch'.deletes = (if c' = .Thread then ∅ else t.changes.deletes) ∧
      ((resp = .AppendEntries .Continue ∧ t = ⟨a, c, ch⟩ ∧
          .applyRollbackUpdates us (.ok false) ∈ (handleRollbackUpdates
            (inject (storeOps pick apply)) serialize fuel a c ch us (st, flags)).calls) ∨
        (∃ bytes, resp = .AppendEntries (.Update a' c' bytes true) ∧ c' ≠ .Thread ∧
          ch'.Remaining ∧ serialize ch' = some bytes)) := by
  obtain ⟨t, seg, hcur, rfl, rfl, hseg, hi, hu, hd, hresp⟩ :=
    rollback_exit _ serialize fuel a c ch us _ h
  refine ⟨t, seg, hcur, rfl, rfl, ?_, hi, hu, hd,
    hresp.imp (fun ⟨h₁, h₂, _, h₃⟩ => ⟨h₁, h₂, h₃⟩) id⟩
  obtain ⟨hy, hc⟩ :=
    steps_replay pick apply (handleRollbackUpdates_steps _ serialize fuel a c ch us (st, flags))
  have hseg' : (t.account_id, t.collection) ∉ seg.filterMap Call.removal := fun hk => by
    obtain ⟨κ, hκ, hr⟩ := List.mem_filterMap.mp hk
    exact hseg κ hκ (isRemoval_of_removal hr)
  rw [hy, lookup_replay, if_neg]
  rcases current_cases hcur with ⟨-, hcs⟩ | ⟨pre, hcs⟩ <;> rw [hcs] at hc ⊢
  · exact hseg'
  · have hpre := arrival_not_removed pick apply hpick hc
    simp only [List.filterMap_append, List.filterMap_cons, Call.removal, List.mem_append]
    tauto

theorem rollback_state_at_checkpoint :
    let run := handleRollbackUpdates (inject (storeOps firstPending fun (_ : List Unit) d =>
      .ok (true, d))) (fun _ => some []) 1 0 .Mail ⟨∅, {1}, ∅⟩ []
      (⟨∅, AList.singleton (0, .Mail) ⟨∅, {1}, ∅⟩, none⟩, [])
    Picks firstPending ∧
    run.result =
      some (some (State.Rollback 0 .Mail ⟨∅, {1}, ∅⟩, .AppendEntries (.Update 0 .Mail [] true))) ∧
    ∃ t seg, current ⟨0, .Mail, ⟨∅, {1}, ∅⟩⟩ run.calls = (t, seg) ∧ 0 = t.account_id ∧
      Collection.Mail = t.collection ∧
      run.store.1.pending.lookup (0, .Mail) =
        (AList.singleton (0, .Mail) ⟨∅, {1}, ∅⟩ : Pending).lookup (0, .Mail) ∧
      (⟨∅, {1}, ∅⟩ : MergedChanges).inserts = ∅ ∧
      (⟨∅, {1}, ∅⟩ : MergedChanges).updates =
        (if Collection.Mail = .Thread then ∅ else t.changes.updates) ∧
      (⟨∅, {1}, ∅⟩ : MergedChanges).deletes =
        (if Collection.Mail = .Thread then ∅ else t.changes.deletes) ∧
      ((Response.AppendEntries (.Update 0 .Mail [] true) = .AppendEntries .Continue ∧
          t = ⟨0, .Mail, ⟨∅, {1}, ∅⟩⟩ ∧ .applyRollbackUpdates [] (.ok false) ∈ run.calls) ∨
        (∃ bytes, Response.AppendEntries (.Update 0 .Mail [] true) =
            .AppendEntries (.Update 0 .Mail bytes true) ∧ Collection.Mail ≠ .Thread ∧
          (⟨∅, {1}, ∅⟩ : MergedChanges).Remaining ∧ (some [] : Option (List UInt8)) = some bytes)) :=
  ⟨firstPending_picks, rfl, handleRollbackUpdates_rollback_state _ _ _ firstPending_picks 1 0 .Mail
    ⟨∅, {1}, ∅⟩ [] _ [] rfl⟩

/-- Over the spec's store, a run removes each pending-rollback marker at most once: its
successful `remove_rollback_change` calls are for distinct accounts and collections. A target
arrives only while its marker is pending, and the loop never adds one. -/
theorem handleRollbackUpdates_removals_nodup (hpick : Picks pick) (fuel : ℕ) (a : AccountId)
    (c : Collection) (ch : MergedChanges) (us : List Update) (st : Store) (flags : List Bool) :
    ((handleRollbackUpdates (inject (storeOps pick apply)) serialize fuel a c ch us
      (st, flags)).calls.filterMap Call.removal).Nodup := by
  obtain ⟨-, hc⟩ :=
    steps_replay pick apply (handleRollbackUpdates_steps _ serialize fuel a c ch us (st, flags))
  apply nodup_filterMap_of_fresh
  intro pre κ post k hcalls hk
  obtain ⟨a', c', r, rfl⟩ := isRemoval_of_removal hk
  obtain ⟨P, Q, post', t, us', x, rfl, hcur, hb⟩ :=
    handleRollbackUpdates_removal_pass _ serialize fuel a c ch us _ hcalls
  obtain ⟨rfl, rfl, rfl, -⟩ := body_removal _ serialize hb
  have hk' : k = (t.account_id, t.collection) := by
    cases r <;> simp_all [Call.removal]
  have hQnil : (deletePrelude t.account_id t.collection (clearThread t.collection t.changes) ++
      applyPrelude us').filterMap Call.removal = [] :=
    List.filterMap_eq_nil_iff.2 (forall_mem_prelude rfl rfl)
  rw [List.filterMap_append, hQnil, List.append_nil, hk']
  rcases current_cases hcur with ⟨-, rfl⟩ | ⟨pre', rfl⟩
  · simp
  · rw [hcalls] at hc
    have := arrival_not_removed pick apply hpick (by simpa using hc)
    rwa [List.filterMap_append, List.filterMap_cons_none rfl, List.filterMap_nil, List.append_nil]

theorem removals_distinct_two_targets :
    Picks firstPending ∧
    ((handleRollbackUpdates (inject (storeOps firstPending fun (_ : List Unit) d =>
      .ok (true, d))) (fun _ => none) 2 0 .Mail ⟨{7}, ∅, ∅⟩ []
      (⟨{(0, .Mail, 7), (1, .Mail, 8)}, AList.singleton (1, .Mail) ⟨{8}, ∅, ∅⟩, some ⟨1, 2⟩⟩,
        [])).calls.filterMap Call.removal).Nodup :=
  ⟨firstPending_picks, handleRollbackUpdates_removals_nodup _ _ _ firstPending_picks 2 0 .Mail
    ⟨{7}, ∅, ∅⟩ [] _ []⟩

end

end JmapServer.RollbackExit
