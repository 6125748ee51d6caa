import JmapServer.Follower.RollbackRetry
import JmapServer.Follower.RollbackWrites

/-!
# The order of the markers does not matter

`next_rollback_change` hands the pending markers over in whatever order the store keeps its
keys. Over the spec's store that order leaves no trace once a rollback completes. Take two runs
from the same store and the same call that both answer `Match`. They leave the same store and
report the same last log, whatever order each was handed the markers in, and whichever of its
calls each was set to fail.

A `Match` run visits exactly the markers it found, other than the first target's own key, each
with the change-set stored for it (`mem_arrivals_of_match`). The deletions of different targets
are filters of the documents, so what a `Match` run keeps depends only on that set of targets
(`match_run`).

Nor does the store keep a trace of a rollback that completed being asked for again: the same
call, with no update records, from the store a `Match` run left, takes one pass, answers the
same `Match` and leaves the store as it found it.
-/
namespace JmapServer.RollbackOrder
open RollbackLoop RollbackPass RollbackStore RollbackTrace RollbackExit RollbackMatch
  RollbackWrites RollbackRetry

variable {Update : Type}

/-- Deleting the speculative inserts of `t` removes the document `d`. -/
def Hits (t : Target) (d : DocumentKey) : Prop :=
  t.collection ≠ .Thread ∧ d.1 = t.account_id ∧ d.2.1 = t.collection ∧ d.2.2 ∈ t.changes.inserts

theorem mem_rolledBackDocuments {t : Target} {D : Finset DocumentKey} {d : DocumentKey} :
    d ∈ rolledBackDocuments t D ↔ d ∈ D ∧ ¬ Hits t d := by
  unfold rolledBackDocuments Hits
  split_ifs with h <;> simp [h]

theorem store_eq {x y : Store} (hd : x.documents = y.documents) (hp : x.pending = y.pending)
    (hl : x.lastLog = y.lastLog) : x = y := by
  obtain ⟨_, _, _⟩ := x
  obtain ⟨_, _, _⟩ := y
  simp only [Store.mk.injEq]
  exact ⟨hd, hp, hl⟩

theorem pending_eq_of_keys {m₁ m₂ : Pending} (h₁ : m₁.keys = []) (h₂ : m₂.keys = []) :
    m₁ = m₂ :=
  AList.ext ((List.map_eq_nil_iff.1 h₁).trans (List.map_eq_nil_iff.1 h₂).symm)

/-- A store that hands over its last marker first. -/
def lastPending (m : Pending) : Option Target :=
  m.entries.getLast?.map fun e => ⟨e.1.1, e.1.2, e.2⟩

theorem lastPending_picks : Picks lastPending := by
  intro m
  refine ⟨fun h => ?_, fun t ht => ?_⟩
  · simp only [lastPending, Option.map_eq_none', List.getLast?_eq_none_iff] at h
    simp [AList.keys, List.keys, h]
  · simp only [lastPending, Option.map_eq_some'] at ht
    obtain ⟨e, he, rfl⟩ := ht
    exact List.mem_dlookup m.nodupKeys (List.mem_of_getLast?_eq_some he)

section
variable (pick : Pending → Option Target)
variable (apply : List Update → Finset DocumentKey → StoreResult (Bool × Finset DocumentKey))
variable (serialize : MergedChanges → Option (List UInt8))

/-- A run that answers `Match` leaves no marker pending and the last log as it found it, which is
the log it reports. It keeps exactly the documents the first pass left that no target handed
over since deletes. -/
theorem match_run (hpick : Picks pick) (fuel : ℕ) (a : AccountId) (c : Collection)
    (ch : MergedChanges) (us : List Update) (st : Store) (flags : List Bool) {l : RaftId}
    (h : (handleRollbackUpdates (inject (storeOps pick apply)) serialize fuel a c ch us
      (st, flags)).result = some (some (.Synchronized, .AppendEntries (.Match l)))) :
    (handleRollbackUpdates (inject (storeOps pick apply)) serialize fuel a c ch us
        (st, flags)).store.1.pending.keys = [] ∧
      (handleRollbackUpdates (inject (storeOps pick apply)) serialize fuel a c ch us
        (st, flags)).store.1.lastLog = st.lastLog ∧ some l = st.lastLog ∧
      ∀ d, d ∈ (handleRollbackUpdates (inject (storeOps pick apply)) serialize fuel a c ch us
          (st, flags)).store.1.documents ↔
        d ∈ updatedDocuments apply us (rolledBackDocuments ⟨a, c, ch⟩ st.documents) ∧
          ∀ t ∈ (handleRollbackUpdates (inject (storeOps pick apply)) serialize fuel a c ch us
            (st, flags)).calls.filterMap Call.arrival, ¬ Hits t d := by
  induction fuel generalizing a c ch us st flags with
  | zero => simp [handleRollbackUpdates] at h
  | succ fuel ih =>
    obtain ⟨hy, hc⟩ := steps_replay pick apply (body_steps _ serialize a c ch us (st, flags))
    simp only [handleRollbackUpdates] at h ⊢
    split at h <;> rename_i hst <;> simp only [hst]
    · cases h
      rw [body_match _ serialize hst] at hy hc ⊢
      rw [consistent_append, replay_removed] at hc
      rw [hy, List.foldl_append, replay_removed]
      refine ⟨(hpick _).1 hc.2.1.symm, rfl, hc.2.2.1, fun d => ?_⟩
      rw [List.filterMap_append, arrival_removed]
      simp only [List.foldl_cons, List.foldl_nil, replay, Call.arrival, List.filterMap_cons_none,
        List.filterMap_nil, List.append_nil, List.not_mem_nil, IsEmpty.forall_iff, implies_true,
        and_true]
    · rename_i t us'
      obtain ⟨rfl, hcalls⟩ := body_next _ serialize hst
      rw [hcalls, List.foldl_append, replay_removed] at hy
      obtain ⟨ih₁, ih₂, ih₃, ih₄⟩ := ih t.account_id t.collection t.changes [] _ _ h
      rw [Prod.mk.eta] at ih₁ ih₂ ih₄
      refine ⟨ih₁, ih₂.trans (by rw [hy]; rfl), ih₃.trans (by rw [hy]; rfl), fun d => ?_⟩
      rw [ih₄, hcalls, hy, List.filterMap_append, List.filterMap_append, arrival_removed]
      simp only [List.foldl_cons, List.foldl_nil, replay, updatedDocuments_nil,
        mem_rolledBackDocuments, List.mem_filterMap, Call.arrival, forall_exists_index, and_imp,
        and_assoc, Option.some.injEq, List.filterMap_cons_some, List.filterMap_nil,
        List.nil_append, List.singleton_append, List.mem_cons, forall_eq_or_imp]

/-- A run that answers `Match` is handed over exactly the markers it found, other than the one
of the first target's key, each with the change-set stored for it. -/
theorem mem_arrivals_of_match (hpick : Picks pick) (fuel : ℕ) (a : AccountId) (c : Collection)
    (ch : MergedChanges) (us : List Update) (st : Store) (flags : List Bool) {l : RaftId}
    (h : (handleRollbackUpdates (inject (storeOps pick apply)) serialize fuel a c ch us
      (st, flags)).result = some (some (.Synchronized, .AppendEntries (.Match l)))) (t : Target) :
    t ∈ (handleRollbackUpdates (inject (storeOps pick apply)) serialize fuel a c ch us
        (st, flags)).calls.filterMap Call.arrival ↔
      (t.account_id, t.collection) ≠ (a, c) ∧
        st.pending.lookup (t.account_id, t.collection) = some t.changes := by
  obtain ⟨hy, hc⟩ := steps_replay pick apply
    (handleRollbackUpdates_steps _ serialize fuel a c ch us (st, flags))
  have hkeys := (match_run pick apply serialize hpick fuel a c ch us st flags h).1
  have arrived : ∀ t ∈ (handleRollbackUpdates (inject (storeOps pick apply)) serialize fuel a c
      ch us (st, flags)).calls.filterMap Call.arrival, (t.account_id, t.collection) ≠ (a, c) ∧
        st.pending.lookup (t.account_id, t.collection) = some t.changes := by
    intro t ht
    obtain ⟨κ, hκ, hk⟩ := List.mem_filterMap.1 ht
    obtain ⟨pre, post, hcalls⟩ := List.append_of_mem hκ
    rw [eq_of_arrival hk] at hcalls
    rw [hcalls] at hc
    have hnot := arrival_not_removed pick apply hpick hc
    rw [consistent_append] at hc
    have hl := (hpick _).2 t hc.2.1.symm
    rw [lookup_replay, if_neg hnot] at hl
    exact ⟨fun he => hnot (he ▸ (handleRollbackUpdates_arrival _ serialize _ _ _ _ _ _ hcalls).1),
      hl⟩
  refine ⟨arrived t, fun ⟨hne, hl⟩ => ?_⟩
  have hgone : (t.account_id, t.collection) ∈ (handleRollbackUpdates (inject (storeOps pick apply))
      serialize fuel a c ch us (st, flags)).calls.filterMap Call.removal := by
    by_contra hk
    have hl' : (handleRollbackUpdates (inject (storeOps pick apply)) serialize fuel a c ch us
        (st, flags)).store.1.pending.lookup (t.account_id, t.collection) = some t.changes := by
      rw [hy, lookup_replay, if_neg hk]
      exact hl
    have hmem : (t.account_id, t.collection) ∈ (handleRollbackUpdates (inject (storeOps pick apply))
        serialize fuel a c ch us (st, flags)).store.1.pending.keys :=
      AList.mem_keys.2 (AList.lookup_isSome.1 (by rw [hl']; rfl))
    rw [hkeys] at hmem
    exact List.not_mem_nil _ hmem
  obtain ⟨κ, hκ, hk⟩ := List.mem_filterMap.1 hgone
  obtain ⟨a', c', r, rfl⟩ := isRemoval_of_removal hk
  obtain ⟨pre, post, hcalls⟩ := List.append_of_mem hκ
  obtain ⟨P, Q, post', t', us', x, rfl, hcur, hb⟩ :=
    handleRollbackUpdates_removal_pass _ serialize fuel a c ch us _ hcalls
  obtain ⟨rfl, rfl, -, -⟩ := body_removal _ serialize hb
  have hk' : (t.account_id, t.collection) = (t'.account_id, t'.collection) := by
    rcases r with _ | ⟨⟨⟩⟩
    · cases hk
    · exact (Option.some.inj hk).symm
  rcases current_cases hcur with ⟨rfl, -⟩ | ⟨pre', rfl⟩
  · exact absurd hk' hne
  have ht' : t' ∈ (handleRollbackUpdates (inject (storeOps pick apply)) serialize fuel a c ch us
      (st, flags)).calls.filterMap Call.arrival :=
    List.mem_filterMap.2 ⟨.nextRollbackChange (.ok (some t')), by rw [hcalls]; simp, rfl⟩
  have hch := (arrived t' ht').2
  rw [← hk', hl, Option.some.injEq] at hch
  obtain ⟨ta, tc, tch⟩ := t
  obtain ⟨ta', tc', tch'⟩ := t'
  simp only [Prod.mk.injEq] at hk'
  obtain ⟨rfl, rfl⟩ := hk'
  obtain rfl : tch = tch' := hch
  exact ht'

/-- Over the spec's store, whatever order `next_rollback_change` hands the markers over in and
whichever calls fail, two runs of the same call from the same store that both answer `Match`
leave the same store and report the same last log. -/
theorem handleRollbackUpdates_match_order {pick₁ pick₂ : Pending → Option Target}
    (hpick₁ : Picks pick₁) (hpick₂ : Picks pick₂) (fuel₁ fuel₂ : ℕ) (a : AccountId)
    (c : Collection) (ch : MergedChanges) (us : List Update) (st : Store)
    (flags₁ flags₂ : List Bool) {l₁ l₂ : RaftId}
    (h₁ : (handleRollbackUpdates (inject (storeOps pick₁ apply)) serialize fuel₁ a c ch us
      (st, flags₁)).result = some (some (.Synchronized, .AppendEntries (.Match l₁))))
    (h₂ : (handleRollbackUpdates (inject (storeOps pick₂ apply)) serialize fuel₂ a c ch us
      (st, flags₂)).result = some (some (.Synchronized, .AppendEntries (.Match l₂)))) :
    (handleRollbackUpdates (inject (storeOps pick₁ apply)) serialize fuel₁ a c ch us
        (st, flags₁)).store.1 =
      (handleRollbackUpdates (inject (storeOps pick₂ apply)) serialize fuel₂ a c ch us
        (st, flags₂)).store.1 ∧ l₁ = l₂ := by
  obtain ⟨k₁, g₁, m₁, d₁⟩ := match_run pick₁ apply serialize hpick₁ fuel₁ a c ch us st flags₁ h₁
  obtain ⟨k₂, g₂, m₂, d₂⟩ := match_run pick₂ apply serialize hpick₂ fuel₂ a c ch us st flags₂ h₂
  refine ⟨store_eq (Finset.ext fun d => ?_) (pending_eq_of_keys k₁ k₂) (g₁.trans g₂.symm),
    Option.some.inj (m₁.trans m₂.symm)⟩
  rw [d₁, d₂]
  refine and_congr_right fun _ => forall_congr' fun t => ?_
  rw [mem_arrivals_of_match pick₁ apply serialize hpick₁ fuel₁ a c ch us st flags₁ h₁,
    mem_arrivals_of_match pick₂ apply serialize hpick₂ fuel₂ a c ch us st flags₂ h₂]

theorem match_store_either_order :
    Picks firstPending ∧ Picks lastPending ∧
    (handleRollbackUpdates (inject (storeOps firstPending fun (_ : List Unit) d => .ok (true, d)))
      (fun _ => none) 3 0 .Mail ⟨{7}, ∅, ∅⟩ []
      (⟨{(0, .Mail, 7), (1, .Mail, 8), (2, .Mail, 9), (1, .Mail, 5)},
        (AList.singleton (1, .Mail) ⟨{8}, ∅, ∅⟩).insert (2, .Mail) ⟨{9}, ∅, ∅⟩, some ⟨1, 2⟩⟩,
        [])).result = some (some (.Synchronized, .AppendEntries (.Match ⟨1, 2⟩))) ∧
    (handleRollbackUpdates (inject (storeOps lastPending fun (_ : List Unit) d => .ok (true, d)))
      (fun _ => none) 3 0 .Mail ⟨{7}, ∅, ∅⟩ []
      (⟨{(0, .Mail, 7), (1, .Mail, 8), (2, .Mail, 9), (1, .Mail, 5)},
        (AList.singleton (1, .Mail) ⟨{8}, ∅, ∅⟩).insert (2, .Mail) ⟨{9}, ∅, ∅⟩, some ⟨1, 2⟩⟩,
        [])).result = some (some (.Synchronized, .AppendEntries (.Match ⟨1, 2⟩))) ∧
    ((handleRollbackUpdates (inject (storeOps firstPending fun (_ : List Unit) d => .ok (true, d)))
      (fun _ => none) 3 0 .Mail ⟨{7}, ∅, ∅⟩ []
      (⟨{(0, .Mail, 7), (1, .Mail, 8), (2, .Mail, 9), (1, .Mail, 5)},
        (AList.singleton (1, .Mail) ⟨{8}, ∅, ∅⟩).insert (2, .Mail) ⟨{9}, ∅, ∅⟩, some ⟨1, 2⟩⟩,
        [])).store.1 =
      (handleRollbackUpdates (inject (storeOps lastPending fun (_ : List Unit) d => .ok (true, d)))
        (fun _ => none) 3 0 .Mail ⟨{7}, ∅, ∅⟩ []
        (⟨{(0, .Mail, 7), (1, .Mail, 8), (2, .Mail, 9), (1, .Mail, 5)},
          (AList.singleton (1, .Mail) ⟨{8}, ∅, ∅⟩).insert (2, .Mail) ⟨{9}, ∅, ∅⟩, some ⟨1, 2⟩⟩,
          [])).store.1 ∧ (⟨1, 2⟩ : RaftId) = ⟨1, 2⟩) :=
  ⟨firstPending_picks, lastPending_picks, rfl, rfl,
    handleRollbackUpdates_match_order _ _ firstPending_picks lastPending_picks 3 3 0 .Mail
      ⟨{7}, ∅, ∅⟩ [] _ [] [] rfl rfl⟩

/-- The first pass of a run that answers `Match` left nothing of its target to roll back. -/
theorem match_settled {σ : Type} (S : Storage σ Update) (fuel : ℕ) (a : AccountId)
    (c : Collection) (ch : MergedChanges) (us : List Update) (s : σ) {l : RaftId}
    (h : (handleRollbackUpdates S serialize fuel a c ch us s).result =
      some (some (.Synchronized, .AppendEntries (.Match l)))) :
    ¬ (settled (clearThread c ch) us).Remaining := by
  cases fuel with
  | zero => simp [handleRollbackUpdates] at h
  | succ fuel =>
    simp only [handleRollbackUpdates] at h
    have hs := body_shape S serialize a c ch us s
    generalize (body S serialize a c ch us s).step = st at hs h
    generalize (body S serialize a c ch us s).calls = cs at hs
    cases hs with
    | next _ hn | finished _ hn => exact hn
    | checkpoint => simp [checkpointAnswer] at h
    | deleteFailed | applyFailed | incomplete | removeFailed | nextFailed => simp at h

/-- A store with no marker pending has nothing for `next_rollback_change` to hand over. -/
theorem pick_of_keys (hpick : Picks pick) {m : Pending} (hm : m.keys = []) : pick m = none := by
  cases hp : pick m with
  | none => rfl
  | some t =>
    have hk : (t.account_id, t.collection) ∈ m.keys :=
      AList.mem_keys.2 (AList.lookup_isSome.1 (by rw [(hpick m).2 t hp]; rfl))
    rw [hm] at hk
    exact absurd hk (List.not_mem_nil _)

/-- Asked again for a rollback it completed, with no update records and no call failing, the
function takes one pass from the store the first run left: it answers the same `Match` and
leaves that store unchanged. -/
theorem handleRollbackUpdates_match_rerun (hpick : Picks pick) (fuel fuel' : ℕ) (a : AccountId)
    (c : Collection) (ch : MergedChanges) (st : Store) (flags : List Bool) {l : RaftId}
    (h : (handleRollbackUpdates (inject (storeOps pick apply)) serialize fuel a c ch []
      (st, flags)).result = some (some (.Synchronized, .AppendEntries (.Match l)))) :
    (handleRollbackUpdates (inject (storeOps pick apply)) serialize (fuel' + 1) a c ch []
        ((handleRollbackUpdates (inject (storeOps pick apply)) serialize fuel a c ch []
          (st, flags)).store.1, [])).result =
        some (some (.Synchronized, .AppendEntries (.Match l))) ∧
      (handleRollbackUpdates (inject (storeOps pick apply)) serialize (fuel' + 1) a c ch []
        ((handleRollbackUpdates (inject (storeOps pick apply)) serialize fuel a c ch []
          (st, flags)).store.1, [])).store.1 =
        (handleRollbackUpdates (inject (storeOps pick apply)) serialize fuel a c ch []
          (st, flags)).store.1 := by
  obtain ⟨hkeys, hlog, hl, hdocs⟩ := match_run pick apply serialize hpick fuel a c ch [] st flags h
  have hn : ¬ (clearThread c ch).takeInserts.Remaining := by
    simpa [settled] using match_settled serialize _ fuel a c ch [] _ h
  generalize (handleRollbackUpdates (inject (storeOps pick apply)) serialize fuel a c ch []
    (st, flags)).store.1 = w at hkeys hlog hdocs
  have hback : rolledBack ⟨a, c, ch⟩ w = w := by
    refine store_eq (Finset.ext fun d => ?_) (pending_eq_of_keys ?_ hkeys) rfl
    · simp only [rolledBack, mem_rolledBackDocuments, and_iff_left_iff_imp]
      exact fun hd => (mem_rolledBackDocuments.1 ((hdocs d).1 hd).1).2
    · simp [rolledBack, AList.keys_erase, hkeys]
  have hstep : (body (inject (storeOps pick apply)) serialize a c ch [] (w, [])).step =
      .ret (some (.Synchronized, .AppendEntries (.Match l))) := by
    rw [(body_faultless pick apply serialize ⟨a, c, ch⟩ w).1]
    simp only [passStep, if_neg hn, hback, pick_of_keys pick hpick hkeys, hlog, ← hl]
    rfl
  have hstore : (body (inject (storeOps pick apply)) serialize a c ch [] (w, [])).store.1 = w := by
    rw [(body_faultless pick apply serialize ⟨a, c, ch⟩ w).2]
    simpa only [passStore, if_neg hn] using hback
  simp only [handleRollbackUpdates, hstep, hstore, and_self]

end

theorem rerun_after_match :
    Picks firstPending ∧
    (handleRollbackUpdates (inject (storeOps firstPending fun (_ : List Unit) d => .ok (true, d)))
      (fun _ => none) 3 0 .Mail ⟨{7}, ∅, ∅⟩ []
      (⟨{(0, .Mail, 7), (1, .Mail, 8), (1, .Mail, 5)}, AList.singleton (1, .Mail) ⟨{8}, ∅, ∅⟩,
        some ⟨1, 2⟩⟩, [])).result = some (some (.Synchronized, .AppendEntries (.Match ⟨1, 2⟩))) ∧
    (handleRollbackUpdates (inject (storeOps firstPending fun (_ : List Unit) d => .ok (true, d)))
        (fun _ => none) 1 0 .Mail ⟨{7}, ∅, ∅⟩ []
        ((handleRollbackUpdates
          (inject (storeOps firstPending fun (_ : List Unit) d => .ok (true, d)))
          (fun _ => none) 3 0 .Mail ⟨{7}, ∅, ∅⟩ []
          (⟨{(0, .Mail, 7), (1, .Mail, 8), (1, .Mail, 5)}, AList.singleton (1, .Mail) ⟨{8}, ∅, ∅⟩,
            some ⟨1, 2⟩⟩, [])).store.1, [])).result =
        some (some (.Synchronized, .AppendEntries (.Match ⟨1, 2⟩))) ∧
      (handleRollbackUpdates (inject (storeOps firstPending fun (_ : List Unit) d => .ok (true, d)))
        (fun _ => none) 1 0 .Mail ⟨{7}, ∅, ∅⟩ []
        ((handleRollbackUpdates
          (inject (storeOps firstPending fun (_ : List Unit) d => .ok (true, d)))
          (fun _ => none) 3 0 .Mail ⟨{7}, ∅, ∅⟩ []
          (⟨{(0, .Mail, 7), (1, .Mail, 8), (1, .Mail, 5)}, AList.singleton (1, .Mail) ⟨{8}, ∅, ∅⟩,
            some ⟨1, 2⟩⟩, [])).store.1, [])).store.1 =
        (handleRollbackUpdates
          (inject (storeOps firstPending fun (_ : List Unit) d => .ok (true, d)))
          (fun _ => none) 3 0 .Mail ⟨{7}, ∅, ∅⟩ []
          (⟨{(0, .Mail, 7), (1, .Mail, 8), (1, .Mail, 5)}, AList.singleton (1, .Mail) ⟨{8}, ∅, ∅⟩,
            some ⟨1, 2⟩⟩, [])).store.1 :=
  ⟨firstPending_picks, rfl,
    handleRollbackUpdates_match_rerun _ _ _ firstPending_picks 3 0 0 .Mail ⟨{7}, ∅, ∅⟩ _ [] rfl⟩

end JmapServer.RollbackOrder
