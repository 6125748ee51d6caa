import JmapServer.Follower.RollbackExit

/-!
# The writes of a run

Besides removing markers, the loop writes to the store in two ways only: the batch that deletes
a target's speculative inserts (line 59), and the apply that undoes the update records it was
called with (line 76). Both are bounded over every run and every storage.

Each delete batch is the first call made for the target current at that point. It is in that
target's account and collection and deletes exactly the inserts the target arrived with; none
is empty, and none is for `Thread`. The update records are applied at most once, only when
there are any, and never once a new target has arrived, since the loop empties `updates` when
the apply finished (line 99) and hands no records to the targets that follow.
-/
namespace JmapServer.RollbackWrites
open RollbackLoop RollbackPass RollbackStore RollbackTrace RollbackExit

variable {Update : Type}

/-- The call is a delete batch. -/
def IsDelete (κ : Call Update) : Prop := ∃ a c ids r, κ = .deleteDocuments a c ids r

@[simp] theorem filterMap_applied_deletePrelude (a : AccountId) (c : Collection)
    (ch : MergedChanges) : (deletePrelude a c ch : List (Call Update)).filterMap Call.applied = [] :=
  List.filterMap_eq_nil_iff.2 fun _ h => mem_deletePrelude h ▸ rfl

@[simp] theorem filterMap_applied_applyPrelude (us : List Update) :
    (applyPrelude us).filterMap Call.applied = if us.isEmpty then [] else [us] := by
  unfold applyPrelude
  split_ifs <;> simp_all [Call.applied]

/-- A delete batch among calls that start with a delete prelude is that prelude. -/
theorem deletePrelude_append_delete {a a' : AccountId} {c c' : Collection} {ch : MergedChanges}
    {ids : Finset DocumentId} {r : StoreResult Unit} {R Q post : List (Call Update)}
    (hR : ∀ κ ∈ R, ¬ IsDelete κ)
    (h : deletePrelude a c ch ++ R = Q ++ .deleteDocuments a' c' ids r :: post) :
    Q = [] ∧ a' = a ∧ c' = c ∧ ids = ch.inserts ∧ ids ≠ ∅ := by
  unfold deletePrelude at h
  split_ifs at h with hi
  · exact absurd ⟨_, _, _, _, rfl⟩ (hR _ (h ▸ List.mem_append_right Q (List.mem_cons_self _ _)))
  · have h' : [] ++ .deleteDocuments a c ch.inserts (.ok ()) :: R = Q ++ _ :: post := h
    obtain ⟨rfl, he⟩ := eq_of_append_cons_unique IsDelete (by simp) hR ⟨_, _, _, _, rfl⟩ h'
    obtain ⟨rfl, rfl, rfl, -⟩ := Call.deleteDocuments.inj he
    exact ⟨rfl, rfl, rfl, rfl, hi⟩

section
variable {σ : Type} (S : Storage σ Update) (serialize : MergedChanges → Option (List UInt8))

/-- A pass deletes at most once, as its first call: the inserts its target holds once a
`Thread` target is cleared, in the target's account and collection, and never none. -/
theorem body_delete {a a' : AccountId} {c c' : Collection} {ch : MergedChanges}
    {us : List Update} {s : σ} {ids : Finset DocumentId} {r : StoreResult Unit}
    {Q post : List (Call Update)}
    (h : (body S serialize a c ch us s).calls = Q ++ .deleteDocuments a' c' ids r :: post) :
    Q = [] ∧ a' = a ∧ c' = c ∧ ids = (clearThread c ch).inserts ∧ ids ≠ ∅ := by
  have hA : ∀ κ ∈ applyPrelude us, ¬ IsDelete κ := fun _ hκ ⟨_, _, _, _, he⟩ => by
    rw [mem_applyPrelude hκ] at he
    cases he
  have hs := body_shape S serialize a c ch us s
  generalize (body S serialize a c ch us s).step = st at hs
  generalize (body S serialize a c ch us s).calls = cs at hs h
  cases hs with
  | deleteFailed e hi =>
    rcases Q with _ | ⟨q, Q⟩
    · simp only [List.nil_append, List.cons.injEq, Call.deleteDocuments.injEq] at h
      obtain ⟨⟨rfl, rfl, rfl, -⟩, -⟩ := h
      exact ⟨rfl, rfl, rfl, rfl, hi⟩
    · cases Q <;> cases (List.cons.inj h).2
  | applyFailed _ _ | incomplete _ =>
    exact deletePrelude_append_delete
      (fun _ hκ ⟨_, _, _, _, he⟩ => by cases (List.mem_singleton.1 hκ).symm.trans he) h
  | checkpoint _ => exact deletePrelude_append_delete hA h
  | removeFailed _ _ | nextFailed _ _ | next _ _ | finished _ _ =>
    rw [List.append_assoc] at h
    refine deletePrelude_append_delete (fun κ hκ => ?_) h
    rcases List.mem_append.1 hκ with hκ | hκ
    · exact hA κ hκ
    · rintro ⟨_, _, _, _, rfl⟩
      simp only [List.mem_cons, List.mem_singleton, List.not_mem_nil, reduceCtorEq, or_self] at hκ

/-- A pass applies the update records it was given, once, if there are any, and nothing else. -/
theorem body_applied (a : AccountId) (c : Collection) (ch : MergedChanges) (us : List Update)
    (s : σ) :
    (body S serialize a c ch us s).calls.filterMap Call.applied = [] ∨
      (us ≠ [] ∧ (body S serialize a c ch us s).calls.filterMap Call.applied = [us]) := by
  have hA (R : List (Call Update)) (hR : R.filterMap Call.applied = []) :
      (deletePrelude a c (clearThread c ch) ++ applyPrelude us ++ R).filterMap Call.applied = [] ∨
        (us ≠ [] ∧ (deletePrelude a c (clearThread c ch) ++ applyPrelude us ++ R).filterMap
          Call.applied = [us]) := by
    rw [List.filterMap_append, List.filterMap_append, hR, filterMap_applied_deletePrelude,
      filterMap_applied_applyPrelude]
    cases us <;> simp
  have hs := body_shape S serialize a c ch us s
  generalize (body S serialize a c ch us s).step = st at hs
  generalize (body S serialize a c ch us s).calls = cs at hs
  cases hs with
  | deleteFailed => exact .inl rfl
  | applyFailed _ hu | incomplete hu => exact .inr ⟨hu, by simp [Call.applied]⟩
  | checkpoint _ => simpa only [List.append_nil] using hA [] rfl
  | removeFailed _ _ | nextFailed _ _ | next _ _ | finished _ _ => exact hA _ rfl

/-- A pass that hands over a target does so by its last call, after its preludes and the
removal of its own target's marker; no other pass hands one over. -/
theorem body_arrival {a : AccountId} {c : Collection} {ch : MergedChanges} {us : List Update}
    {s : σ} {t : Target} {pre post : List (Call Update)}
    (h : (body S serialize a c ch us s).calls = pre ++ .nextRollbackChange (.ok (some t)) :: post) :
    (body S serialize a c ch us s).step = .next t [] ∧
      pre = deletePrelude a c (clearThread c ch) ++ applyPrelude us ++
        [.removeRollbackChange a c (.ok ())] ∧ post = [] := by
  have hP := prelude_arrival a c (clearThread c ch) us
  have hs := body_shape S serialize a c ch us s
  generalize (body S serialize a c ch us s).step = st at hs ⊢
  generalize (body S serialize a c ch us s).calls = cs at hs h
  have hmem := h ▸ List.mem_append_right pre (List.mem_cons_self _ post)
  cases hs with
  | deleteFailed => simp at hmem
  | applyFailed _ _ | incomplete _ =>
    rcases List.mem_append.1 hmem with hκ | hκ
    · cases mem_deletePrelude hκ
    · simp at hκ
  | checkpoint _ => exact absurd (hP _ hmem) (Option.some_ne_none t)
  | removeFailed _ _ | nextFailed _ _ | finished _ _ =>
    rcases List.mem_append.1 hmem with hκ | hκ
    · exact absurd (hP _ hκ) (Option.some_ne_none t)
    · simp at hκ
  | next t' _ =>
    have h' : (deletePrelude a c (clearThread c ch) ++ applyPrelude us ++
        [.removeRollbackChange a c (.ok ())]) ++ .nextRollbackChange (.ok (some t')) :: [] =
        pre ++ .nextRollbackChange (.ok (some t)) :: post := by simpa using h
    obtain ⟨rfl, he⟩ := eq_of_append_cons_unique (fun κ : Call Update => κ.arrival ≠ none)
      (fun κ hκ => by
        rcases List.mem_append.1 hκ with hκ | hκ
        · exact not_not.2 (hP κ hκ)
        · simp only [List.mem_singleton] at hκ
          simp [hκ, Call.arrival])
      (by simp) (by simp [Call.arrival]) h'
    cases he
    exact ⟨rfl, rfl, (List.cons.inj (List.append_cancel_left h')).2.symm⟩

/-- A run given no update records applies none. -/
theorem applied_run_nil (fuel : ℕ) (a : AccountId) (c : Collection) (ch : MergedChanges)
    (s : σ) :
    (handleRollbackUpdates S serialize fuel a c ch ([] : List Update) s).calls.filterMap
      Call.applied = [] := by
  induction fuel generalizing a c ch s with
  | zero => rfl
  | succ fuel ih =>
    have hb : (body S serialize a c ch [] s).calls.filterMap Call.applied = [] := by
      simpa using body_applied S serialize a c ch [] s
    simp only [handleRollbackUpdates]
    split
    · exact hb
    · rename_i t us' hst
      obtain ⟨rfl, -⟩ := body_next S serialize hst
      rw [List.filterMap_append, hb, ih]
      rfl

/-- Once a target has arrived, the first target's marker has been removed, and the run applies
no update records any more. -/
theorem handleRollbackUpdates_arrival (fuel : ℕ) (a : AccountId) (c : Collection)
    (ch : MergedChanges) (us : List Update) (s : σ) {pre post : List (Call Update)} {t : Target}
    (h : (handleRollbackUpdates S serialize fuel a c ch us s).calls =
      pre ++ .nextRollbackChange (.ok (some t)) :: post) :
    (a, c) ∈ pre.filterMap Call.removal ∧ post.filterMap Call.applied = [] := by
  cases fuel with
  | zero => simp [handleRollbackUpdates] at h
  | succ fuel =>
    simp only [handleRollbackUpdates] at h
    split at h
    · rename_i v hst
      cases hst.symm.trans (body_arrival S serialize h).1
    rename_i t₁ us' hst
    obtain ⟨rfl, hP⟩ := body_next S serialize hst
    have hR := applied_run_nil S serialize fuel t₁.account_id t₁.collection t₁.changes
      (body S serialize a c ch us s).store
    have hrem : (a, c) ∈ (body S serialize a c ch us s).calls.filterMap Call.removal := by
      rw [hP, List.filterMap_append, List.filterMap_append]
      exact List.mem_append_left _ (List.mem_append_right _ (List.mem_singleton_self _))
    rcases List.append_eq_append_iff.mp h with ⟨m, rfl, hm⟩ | ⟨m, hpass, hm⟩
    · rw [hm, List.filterMap_append, List.filterMap_cons_none rfl] at hR
      refine ⟨?_, (List.append_eq_nil.1 hR).2⟩
      rw [List.filterMap_append]
      exact List.mem_append_left _ hrem
    cases m with
    | nil =>
      rw [List.append_nil] at hpass
      rw [List.nil_append] at hm
      rw [← hm, List.filterMap_cons_none rfl] at hR
      exact ⟨hpass ▸ hrem, hR⟩
    | cons κ m =>
      simp only [List.cons_append, List.cons.injEq] at hm
      obtain ⟨rfl, rfl⟩ := hm
      obtain ⟨-, rfl, rfl⟩ := body_arrival S serialize hpass
      rw [List.filterMap_append]
      exact ⟨List.mem_append_right _ (List.mem_singleton_self _), hR⟩

/-- Over every storage, a run undoes the update records it was called with at most once, and
only when there are some; it never applies any other records, and it applies none once the
store has handed over a new target. -/
theorem handleRollbackUpdates_applied_once (fuel : ℕ) (a : AccountId) (c : Collection)
    (ch : MergedChanges) (us : List Update) (s : σ) :
    ((handleRollbackUpdates S serialize fuel a c ch us s).calls.filterMap Call.applied = [] ∨
      (us ≠ [] ∧
        (handleRollbackUpdates S serialize fuel a c ch us s).calls.filterMap Call.applied =
          [us])) ∧
    ∀ pre t post, (handleRollbackUpdates S serialize fuel a c ch us s).calls =
      pre ++ .nextRollbackChange (.ok (some t)) :: post → post.filterMap Call.applied = [] := by
  refine ⟨?_, fun pre t post h => (handleRollbackUpdates_arrival S serialize fuel a c ch us s h).2⟩
  cases fuel with
  | zero => exact .inl rfl
  | succ fuel =>
    simp only [handleRollbackUpdates]
    split
    · exact body_applied S serialize a c ch us s
    · rename_i t us' hst
      obtain ⟨rfl, -⟩ := body_next S serialize hst
      rw [List.filterMap_append, applied_run_nil, List.append_nil]
      exact body_applied S serialize a c ch us s

/-- Over every storage, each delete batch of a run is the first call made for the target
current at that point: it is in that target's account and collection, deletes exactly the
inserts the target arrived with, is never empty, and is never for `Thread`. -/
theorem handleRollbackUpdates_delete_scoped (fuel : ℕ) (a : AccountId) (c : Collection)
    (ch : MergedChanges) (us : List Update) (s : σ) {pre post : List (Call Update)}
    {a' : AccountId} {c' : Collection} {ids : Finset DocumentId} {r : StoreResult Unit}
    (h : (handleRollbackUpdates S serialize fuel a c ch us s).calls =
      pre ++ .deleteDocuments a' c' ids r :: post) :
    ∃ t, current ⟨a, c, ch⟩ pre = (t, []) ∧ a' = t.account_id ∧ c' = t.collection ∧
      c' ≠ .Thread ∧ ids = t.changes.inserts ∧ ids ≠ ∅ := by
  obtain ⟨P, Q, post', t, us', x, rfl, hcur, hb⟩ :=
    handleRollbackUpdates_pass_of_call S serialize fuel a c ch us s h
  obtain ⟨rfl, rfl, rfl, rfl, hne⟩ := body_delete S serialize hb
  have hc : t.collection ≠ .Thread := fun hc => hne (by simp [clearThread, hc])
  exact ⟨t, by rwa [List.append_nil], rfl, rfl, hc, by simp [clearThread, hc], hne⟩

end

theorem delete_scoped_second_target :
    (handleRollbackUpdates (storeOps firstPending fun (_ : List Unit) d => .ok (true, d))
      (fun _ => none) 2 0 .Mail ⟨{7}, ∅, ∅⟩ []
      ⟨{(0, .Mail, 7), (1, .Mail, 8)}, AList.singleton (1, .Mail) ⟨{8}, ∅, ∅⟩, some ⟨1, 2⟩⟩).calls =
      [.deleteDocuments 0 .Mail {7} (.ok ()), .removeRollbackChange 0 .Mail (.ok ()),
        .nextRollbackChange (.ok (some ⟨1, .Mail, ⟨{8}, ∅, ∅⟩⟩))] ++
      .deleteDocuments 1 .Mail {8} (.ok ()) :: [.removeRollbackChange 1 .Mail (.ok ()),
        .nextRollbackChange (.ok none), .getLastLog (.ok (some ⟨1, 2⟩))] ∧
    ∃ t, current ⟨0, .Mail, ⟨{7}, ∅, ∅⟩⟩ [(.deleteDocuments 0 .Mail {7} (.ok ()) : Call Unit),
        .removeRollbackChange 0 .Mail (.ok ()),
        .nextRollbackChange (.ok (some ⟨1, .Mail, ⟨{8}, ∅, ∅⟩⟩))] = (t, []) ∧
      1 = t.account_id ∧ Collection.Mail = t.collection ∧ Collection.Mail ≠ .Thread ∧
      ({8} : Finset DocumentId) = t.changes.inserts ∧ ({8} : Finset DocumentId) ≠ ∅ :=
  have h : (handleRollbackUpdates (storeOps firstPending fun (_ : List Unit) d => .ok (true, d))
      (fun _ => none) 2 0 .Mail ⟨{7}, ∅, ∅⟩ []
      ⟨{(0, .Mail, 7), (1, .Mail, 8)}, AList.singleton (1, .Mail) ⟨{8}, ∅, ∅⟩, some ⟨1, 2⟩⟩).calls =
      [.deleteDocuments 0 .Mail {7} (.ok ()), .removeRollbackChange 0 .Mail (.ok ()),
        .nextRollbackChange (.ok (some ⟨1, .Mail, ⟨{8}, ∅, ∅⟩⟩))] ++
      .deleteDocuments 1 .Mail {8} (.ok ()) :: [.removeRollbackChange 1 .Mail (.ok ()),
        .nextRollbackChange (.ok none), .getLastLog (.ok (some ⟨1, 2⟩))] := rfl
  ⟨h, handleRollbackUpdates_delete_scoped _ _ 2 0 .Mail ⟨{7}, ∅, ∅⟩ [] _ h⟩

end JmapServer.RollbackWrites
