import JmapServer.Follower.RollbackStore

/-!
# The calls of a run, target by target

A target arrives with the arguments of the call and then with each `Ok(Some(..))` of
`next_rollback_change`. `current` reads, from the calls a run made so far, the target the loop
holds and the calls made since it arrived. Both are computed from the recorded calls alone, so
the statements below are about what the function asks the store, not about its locals.
-/
namespace JmapServer.RollbackTrace
open RollbackLoop RollbackPass RollbackStore

variable {Update : Type}

def track (m : Target × List (Call Update)) (κ : Call Update) : Target × List (Call Update) :=
  match κ.arrival with
  | some t => (t, [])
  | none => (m.1, m.2 ++ [κ])

/-- The target current after the calls `cs` of a run from `t₀`, and the calls made since it
arrived. -/
def current (t₀ : Target) (cs : List (Call Update)) : Target × List (Call Update) :=
  cs.foldl track (t₀, [])

theorem foldl_track_of_arrival_none {cs : List (Call Update)} (h : ∀ κ ∈ cs, κ.arrival = none)
    (t : Target) (seg : List (Call Update)) : cs.foldl track (t, seg) = (t, seg ++ cs) := by
  induction cs generalizing seg with
  | nil => simp
  | cons κ cs ih =>
    simp only [List.foldl_cons, track, h κ (by simp)]
    simpa using ih (fun κ' hκ => h κ' (by simp [hκ])) (seg ++ [κ])

theorem current_arrival {t₀ t : Target} (cs : List (Call Update)) :
    current t₀ (cs ++ [.nextRollbackChange (.ok (some t))]) = (t, []) := by
  simp [current, track, Call.arrival]

theorem prelude_arrival (a : AccountId) (c : Collection) (ch : MergedChanges)
    (us : List Update) : ∀ κ ∈ deletePrelude a c ch ++ applyPrelude us, κ.arrival = none :=
  forall_mem_prelude rfl rfl

/-- A list with exactly one element satisfying `p` is split at that element only. -/
theorem eq_of_append_cons_unique {α : Type} (p : α → Prop) {P Q pre post : List α} {x y : α}
    (hP : ∀ z ∈ P, ¬ p z) (hQ : ∀ z ∈ Q, ¬ p z) (hy : p y)
    (h : P ++ x :: Q = pre ++ y :: post) : pre = P ∧ y = x := by
  induction P generalizing pre with
  | nil =>
    cases pre with
    | nil => simp_all
    | cons z pre => simp only [List.nil_append, List.cons_append, List.cons.injEq] at h
                    exact absurd hy (hQ y (h.2 ▸ by simp))
  | cons z P ih =>
    cases pre with
    | nil => simp only [List.nil_append, List.cons_append, List.cons.injEq] at h
             exact absurd (h.1 ▸ hy) (hP z (by simp))
    | cons w pre =>
      simp only [List.cons_append, List.cons.injEq] at h
      obtain ⟨rfl, h⟩ := h
      have := ih (fun z hz => hP z (by simp [hz])) h
      exact ⟨by rw [this.1], this.2⟩

/-- The call removes some marker. -/
def IsRemoval (κ : Call Update) : Prop := ∃ a c r, κ = .removeRollbackChange a c r

theorem prelude_not_removal (a : AccountId) (c : Collection) (ch : MergedChanges)
    (us : List Update) : ∀ κ ∈ deletePrelude a c ch ++ applyPrelude us, ¬ IsRemoval κ :=
  forall_mem_prelude (by rintro ⟨_, _, _, ⟨⟩⟩) (by rintro ⟨_, _, _, ⟨⟩⟩)

/-- The calls of one pass that precede its removal: the prelude, and only when nothing is left
to send to the leader. -/
theorem body_removal {σ : Type} (S : Storage σ Update)
    (serialize : MergedChanges → Option (List UInt8)) {a a' : AccountId} {c c' : Collection}
    {ch : MergedChanges} {us : List Update} {s : σ} {pre post : List (Call Update)}
    {r : StoreResult Unit}
    (h : (body S serialize a c ch us s).calls = pre ++ .removeRollbackChange a' c' r :: post) :
    a' = a ∧ c' = c ∧ pre = deletePrelude a c (clearThread c ch) ++ applyPrelude us ∧
      ¬ (settled (clearThread c ch) us).Remaining := by
  have hP := prelude_not_removal a c (clearThread c ch) us
  have split {Q : List (Call Update)} {r₀ : StoreResult Unit} (hQ : ∀ κ ∈ Q, ¬ IsRemoval κ)
      (he : (deletePrelude a c (clearThread c ch) ++ applyPrelude us) ++
        .removeRollbackChange a c r₀ :: Q = pre ++ .removeRollbackChange a' c' r :: post) :
      a' = a ∧ c' = c ∧ pre = deletePrelude a c (clearThread c ch) ++ applyPrelude us := by
    obtain ⟨hpre, he⟩ := eq_of_append_cons_unique IsRemoval hP hQ ⟨_, _, _, rfl⟩ he
    obtain ⟨rfl, rfl, -⟩ := Call.removeRollbackChange.inj he
    exact ⟨rfl, rfl, hpre⟩
  have hs := body_shape S serialize a c ch us s
  generalize (body S serialize a c ch us s).step = st at hs
  generalize (body S serialize a c ch us s).calls = cs at hs h
  have hmem := h ▸ List.mem_append_right pre (List.mem_cons_self _ post)
  cases hs with
  | deleteFailed e _ => cases List.mem_singleton.1 hmem
  | applyFailed e _ | incomplete _ =>
    rcases List.mem_append.1 hmem with h | h
    · cases mem_deletePrelude h
    · cases List.mem_singleton.1 h
  | checkpoint _ => exact absurd ⟨_, _, _, rfl⟩ (hP _ hmem)
  | removeFailed _ hn | nextFailed _ hn | next _ hn | finished _ hn =>
    obtain ⟨h₁, h₂, h₃⟩ := split (fun κ hκ ⟨_, _, _, he⟩ => by subst he; simp at hκ) h
    exact ⟨h₁, h₂, h₃, hn⟩

/-- A pass that continues removed its target's marker, then received the next target; it
hands the loop an empty list of update records. -/
theorem body_next {σ : Type} (S : Storage σ Update)
    (serialize : MergedChanges → Option (List UInt8)) {a : AccountId} {c : Collection}
    {ch : MergedChanges} {us us' : List Update} {s : σ} {t : Target}
    (h : (body S serialize a c ch us s).step = .next t us') :
    us' = [] ∧ (body S serialize a c ch us s).calls =
      (deletePrelude a c (clearThread c ch) ++ applyPrelude us ++
        [.removeRollbackChange a c (.ok ())]) ++ [.nextRollbackChange (.ok (some t))] := by
  have hs := body_shape S serialize a c ch us s
  generalize (body S serialize a c ch us s).step = st at hs h
  generalize (body S serialize a c ch us s).calls = cs at hs
  cases hs <;> cases h
  exact ⟨rfl, by simp⟩

/-- Every call of a run was made by one pass of the body, run for the target current when the
pass began. -/
theorem handleRollbackUpdates_pass_of_call {σ : Type} (S : Storage σ Update)
    (serialize : MergedChanges → Option (List UInt8)) (fuel : ℕ) (a : AccountId)
    (c : Collection) (ch : MergedChanges) (us : List Update) (s : σ)
    {pre post : List (Call Update)} {κ : Call Update}
    (h : (handleRollbackUpdates S serialize fuel a c ch us s).calls = pre ++ κ :: post) :
    ∃ P Q post' t us' x, pre = P ++ Q ∧ current ⟨a, c, ch⟩ P = (t, []) ∧
      (body S serialize t.account_id t.collection t.changes us' x).calls = Q ++ κ :: post' := by
  induction fuel generalizing a c ch us s pre with
  | zero => simp [handleRollbackUpdates] at h
  | succ fuel ih =>
    simp only [handleRollbackUpdates] at h
    split at h
    · exact ⟨[], pre, post, ⟨a, c, ch⟩, us, s, rfl, rfl, h⟩
    rename_i t us' hst
    obtain ⟨rfl, hP⟩ := body_next S serialize hst
    have hcur : current ⟨a, c, ch⟩ (body S serialize a c ch us s).calls = (t, []) := by
      rw [hP, current_arrival]
    rcases List.append_eq_append_iff.mp h with ⟨pre', rfl, hrest⟩ | ⟨c'', hpass, hrest⟩
    · obtain ⟨P, Q, post', t', us'', x, rfl, hcur', hb⟩ := ih _ _ _ _ _ hrest
      refine ⟨_ ++ P, Q, post', t', us'', x, (List.append_assoc _ _ _).symm, ?_, hb⟩
      rw [current, List.foldl_append, ← current, hcur]
      exact hcur'
    · cases c'' with
      | nil =>
        simp only [List.append_nil] at hpass
        obtain ⟨P, Q, post', t', us'', x, hPQ, hcur', hb⟩ :=
          ih _ _ _ _ _ (show _ = [] ++ _ :: _ by simpa using hrest.symm)
        obtain ⟨rfl, rfl⟩ := List.append_eq_nil.mp hPQ.symm
        refine ⟨pre, [], post', t', us'', x, by simp, ?_, hb⟩
        rw [← hpass, hcur]
        exact hcur'
      | cons κ c'' =>
        simp only [List.cons_append, List.cons.injEq] at hrest
        exact ⟨[], pre, c'', ⟨a, c, ch⟩, us, s, rfl, rfl, by rw [hpass, hrest.1]⟩

/-- Every `remove_rollback_change` of a run was made by one pass of the body, run for the target
current when the pass began. -/
theorem handleRollbackUpdates_removal_pass {σ : Type} (S : Storage σ Update)
    (serialize : MergedChanges → Option (List UInt8)) (fuel : ℕ) (a : AccountId)
    (c : Collection) (ch : MergedChanges) (us : List Update) (s : σ)
    {pre post : List (Call Update)} {a' : AccountId} {c' : Collection} {r : StoreResult Unit}
    (h : (handleRollbackUpdates S serialize fuel a c ch us s).calls =
      pre ++ .removeRollbackChange a' c' r :: post) :
    ∃ P Q post' t us' x, pre = P ++ Q ∧ current ⟨a, c, ch⟩ P = (t, []) ∧
      (body S serialize t.account_id t.collection t.changes us' x).calls =
        Q ++ .removeRollbackChange a' c' r :: post' :=
  handleRollbackUpdates_pass_of_call S serialize fuel a c ch us s h

/-- A run that returned did so in one pass of the body, from the target current after the
calls before it; only the first pass holds the update records of the call. -/
theorem handleRollbackUpdates_last_pass {σ : Type} (S : Storage σ Update)
    (serialize : MergedChanges → Option (List UInt8)) (fuel : ℕ) (a : AccountId)
    (c : Collection) (ch : MergedChanges) (us : List Update) (s : σ)
    {v : Option (State × Response)}
    (h : (handleRollbackUpdates S serialize fuel a c ch us s).result = some v) :
    ∃ pre t us' x,
      (handleRollbackUpdates S serialize fuel a c ch us s).calls =
        pre ++ (body S serialize t.account_id t.collection t.changes us' x).calls ∧
      (handleRollbackUpdates S serialize fuel a c ch us s).store =
        (body S serialize t.account_id t.collection t.changes us' x).store ∧
      (body S serialize t.account_id t.collection t.changes us' x).step = .ret v ∧
      current ⟨a, c, ch⟩ pre = (t, []) ∧ ((pre = [] ∧ us' = us) ∨ us' = []) := by
  induction fuel generalizing a c ch us s with
  | zero => simp [handleRollbackUpdates] at h
  | succ fuel ih =>
    simp only [handleRollbackUpdates] at h ⊢
    split at h <;> rename_i hst <;> simp only [hst]
    · cases h
      exact ⟨[], ⟨a, c, ch⟩, us, s, rfl, rfl, hst, rfl, .inl ⟨rfl, rfl⟩⟩
    rename_i t us'
    obtain ⟨rfl, hP⟩ := body_next S serialize hst
    obtain ⟨pre, t', us'', x, h₁, h₂, h₃, h₄, h₅⟩ := ih _ _ _ _ _ h
    refine ⟨_ ++ pre, t', us'', x, by rw [h₁, List.append_assoc], h₂, h₃, ?_, ?_⟩
    · rw [current, List.foldl_append, ← current, hP, current_arrival, ← h₄]; rfl
    · rcases h₅ with ⟨-, rfl⟩ | rfl <;> exact .inr rfl

/-- Only a non-`Thread` target without update records can still have work for the leader. -/
theorem settled_remaining {c : Collection} {ch : MergedChanges} {us : List Update}
    (h : (settled (clearThread c ch) us).Remaining) :
    c ≠ .Thread ∧ us = [] ∧ settled (clearThread c ch) us = ch.takeInserts := by
  by_cases hc : c = .Thread
  · simp [settled, clearThread, hc, MergedChanges.Remaining] at h; split_ifs at h <;> simp at h
  by_cases hu : us = []
  · simp [settled, clearThread, hc, hu]
  · simp [settled, clearThread, hc, hu, MergedChanges.Remaining] at h

/-- A run that stops at a checkpoint or after a partial apply stops at the target current at
its end, which it has not removed, and keeps that target's updates and deletes as they arrived
(none for `Thread`). The leader is only asked about a non-`Thread` target with work left, with
exactly what `serialize` made of it; `Continue` comes only from the first target. -/
theorem rollback_exit {σ : Type} (S : Storage σ Update)
    (serialize : MergedChanges → Option (List UInt8)) (fuel : ℕ) (a : AccountId)
    (c : Collection) (ch : MergedChanges) (us : List Update) (s : σ) {a' : AccountId}
    {c' : Collection} {ch' : MergedChanges} {resp : Response}
    (h : (handleRollbackUpdates S serialize fuel a c ch us s).result =
      some (some (.Rollback a' c' ch', resp))) :
    ∃ t seg, current ⟨a, c, ch⟩ (handleRollbackUpdates S serialize fuel a c ch us s).calls =
        (t, seg) ∧ a' = t.account_id ∧ c' = t.collection ∧ (∀ κ ∈ seg, ¬ IsRemoval κ) ∧
      ch'.inserts = ∅ ∧
      ch'.updates = (if c' = .Thread then ∅ else t.changes.updates) ∧
      ch'.deletes = (if c' = .Thread then ∅ else t.changes.deletes) ∧
      ((resp = .AppendEntries .Continue ∧ t = ⟨a, c, ch⟩ ∧
          (∀ κ ∈ (handleRollbackUpdates S serialize fuel a c ch us s).calls, κ.arrival = none) ∧
          .applyRollbackUpdates us (.ok false) ∈
            (handleRollbackUpdates S serialize fuel a c ch us s).calls) ∨
        (∃ bytes, resp = .AppendEntries (.Update a' c' bytes true) ∧ c' ≠ .Thread ∧
          ch'.Remaining ∧ serialize ch' = some bytes)) := by
  obtain ⟨pre, t, us', x, hcalls, -, hstep, hcur, hus⟩ :=
    handleRollbackUpdates_last_pass S serialize fuel a c ch us s h
  rw [hcalls]
  have hs := body_shape S serialize t.account_id t.collection t.changes us' x
  generalize (body S serialize t.account_id t.collection t.changes us' x).step = st at hs hstep
  generalize (body S serialize t.account_id t.collection t.changes us' x).calls = cs at hs
  have hcs (hc : ∀ κ ∈ cs, κ.arrival = none) : current ⟨a, c, ch⟩ (pre ++ cs) = (t, cs) := by
    rw [current, List.foldl_append, ← current, hcur, foldl_track_of_arrival_none hc]; rfl
  cases hs with
  | incomplete hu =>
    obtain ⟨rfl, rfl⟩ := hus.resolve_right hu
    simp only [Step.ret.injEq, Option.some.injEq, Prod.mk.injEq, State.Rollback.injEq] at hstep
    obtain ⟨⟨rfl, rfl, rfl⟩, rfl⟩ := hstep
    have ht : t = ⟨a, c, ch⟩ := by simpa [current] using hcur.symm
    have harr : ∀ κ ∈ deletePrelude t.account_id t.collection (clearThread t.collection t.changes) ++
        [.applyRollbackUpdates us' (.ok false)], κ.arrival = none :=
      forall_mem_deletePrelude_append rfl (List.forall_mem_singleton.2 rfl)
    refine ⟨t, _, hcs harr, rfl, rfl, ?_, rfl, ?_, ?_, .inl ⟨rfl, ht, harr, ?_⟩⟩
    · exact forall_mem_deletePrelude_append (by rintro ⟨_, _, _, ⟨⟩⟩)
        (List.forall_mem_singleton.2 (by rintro ⟨_, _, _, ⟨⟩⟩))
    · unfold clearThread; split_ifs <;> rfl
    · unfold clearThread; split_ifs <;> rfl
    · exact List.mem_append_right [] (List.mem_append_right _ (List.mem_singleton_self _))
  | checkpoint hr =>
    obtain ⟨hc, rfl, he⟩ := settled_remaining hr
    simp only [checkpointAnswer, Step.ret.injEq, Option.map_eq_some'] at hstep
    obtain ⟨bytes, hb, hv⟩ := hstep
    simp only [Option.some.injEq, Prod.mk.injEq, State.Rollback.injEq, he] at hv
    obtain ⟨⟨rfl, rfl, rfl⟩, rfl⟩ := hv
    refine ⟨t, _, hcs (prelude_arrival _ _ _ _), rfl, rfl, prelude_not_removal _ _ _ _, rfl,
      by simp [hc], by simp [hc], .inr ⟨bytes, rfl, hc, he ▸ hr, he ▸ hb⟩⟩
  | deleteFailed | applyFailed | removeFailed | nextFailed | next => cases hstep
  | finished last =>
    unfold lastLogAnswer at hstep; split at hstep <;> simp at hstep

end JmapServer.RollbackTrace
