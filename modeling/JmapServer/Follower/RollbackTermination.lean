import JmapServer.Follower.RollbackTrace

/-!
# The loop ends

The loop has no bound of its own: it runs until `next_rollback_change` answers `None`. Over
the spec's store it ends all the same. A pass that continues has removed its target's marker,
and the next target is a marker still pending, so from the second pass on each pass removes a
pending marker. The count of pending markers, plus one while the current target is not among
them, bounds the passes left, whatever the store answers and whichever calls fail.
-/
namespace JmapServer.RollbackTermination
open RollbackLoop RollbackPass RollbackTrace RollbackStore

variable {Update : Type} (pick : Pending → Option Target)
variable (apply : List Update → Finset DocumentKey → StoreResult (Bool × Finset DocumentKey))
variable (serialize : MergedChanges → Option (List UInt8))

/-- A pass that continues leaves the pending markers without its own target's, and the next
target is one of them. -/
theorem body_next_pending (hpick : Picks pick) {a : AccountId} {c : Collection}
    {ch : MergedChanges} {us us' : List Update} {x : Store × List Bool} {t : Target}
    (h : (body (inject (storeOps pick apply)) serialize a c ch us x).step = .next t us') :
    (body (inject (storeOps pick apply)) serialize a c ch us x).store.1.pending =
        x.1.pending.erase (a, c) ∧
      (x.1.pending.erase (a, c)).lookup (t.account_id, t.collection) = some t.changes := by
  obtain ⟨-, hcalls⟩ := body_next _ serialize h
  obtain ⟨hy, hc⟩ := steps_replay pick apply (body_steps _ serialize a c ch us x)
  rw [hcalls] at hy hc
  rw [consistent_append] at hc
  simp only [List.foldl_append, replay_deletePrelude, replay_applyPrelude] at hy hc
  simp only [List.foldl_cons, List.foldl_nil, replay, Store.removeRollbackChange_pending] at hy hc
  simp only [Consistent, Answered] at hc
  exact ⟨by rw [hy]; rfl, (hpick _).2 t hc.2.1.symm⟩

theorem length_erase_of_mem {p : Pending} {k : AccountId × Collection} (h : k ∈ p) :
    (p.erase k).entries.length + 1 = p.entries.length := by
  obtain ⟨b, l₁, l₂, -, he, hk⟩ := List.exists_of_kerase (AList.mem_keys.mp h)
  show (p.entries.kerase k).length + 1 = _
  rw [hk, he]; simp; omega

theorem length_erase_of_not_mem {p : Pending} {k : AccountId × Collection} (h : k ∉ p) :
    (p.erase k).entries.length = p.entries.length := by
  show (p.entries.kerase k).length = _
  rw [List.kerase_of_not_mem_keys (fun h' => h (AList.mem_keys.mpr h'))]

/-- The passes a run may still need from target `(a, c)`: one per pending marker, and one
more while `(a, c)` itself is not pending. -/
def passesLeft (a : AccountId) (c : Collection) (p : Pending) : ℕ :=
  p.entries.length + if (a, c) ∈ p then 0 else 1

theorem passesLeft_erase {a : AccountId} {c : Collection} {p : Pending} {t : Target}
    (ht : (p.erase (a, c)).lookup (t.account_id, t.collection) = some t.changes) :
    passesLeft t.account_id t.collection (p.erase (a, c)) + 1 ≤ passesLeft a c p := by
  have hmem : (t.account_id, t.collection) ∈ p.erase (a, c) :=
    AList.lookup_isSome.mp (by simp [ht])
  unfold passesLeft
  simp only [hmem, if_true, add_zero]
  split_ifs with h
  · have := length_erase_of_mem h; omega
  · rw [length_erase_of_not_mem h]

theorem handleRollbackUpdates_returns_of_passesLeft (hpick : Picks pick) (fuel : ℕ)
    (a : AccountId) (c : Collection) (ch : MergedChanges) (us : List Update)
    (x : Store × List Bool) (hfuel : passesLeft a c x.1.pending ≤ fuel) :
    (handleRollbackUpdates (inject (storeOps pick apply)) serialize fuel a c ch us x).result.isSome := by
  induction fuel generalizing a c ch us x with
  | zero =>
    have : (a, c) ∉ x.1.pending := fun h => by
      have := length_erase_of_mem h
      simp only [passesLeft, h, if_true] at hfuel; omega
    simp [passesLeft, this] at hfuel
  | succ fuel ih =>
    simp only [handleRollbackUpdates]
    split
    · rfl
    · rename_i t us' hst
      obtain ⟨hp, ht⟩ := body_next_pending pick apply serialize hpick hst
      exact ih _ _ _ _ _ (by rw [hp]; have := passesLeft_erase ht; omega)

/-- With `n` markers pending, the loop returns within `n + 1` passes, from any target, over any
store whose `next_rollback_change` answers with a pending marker, and whichever calls fail. -/
theorem handleRollbackUpdates_returns_within (hpick : Picks pick) (st : Store) (flags : List Bool)
    (a : AccountId) (c : Collection) (ch : MergedChanges) (us : List Update) :
    (handleRollbackUpdates (inject (storeOps pick apply)) serialize
      (st.pending.entries.length + 1) a c ch us (st, flags)).result.isSome :=
  handleRollbackUpdates_returns_of_passesLeft pick apply serialize hpick _ a c ch us _
    (by unfold passesLeft; split_ifs <;> simp)

theorem returns_within_two_passes : Picks firstPending ∧
    (handleRollbackUpdates (inject (storeOps firstPending fun (_ : List Unit) d => .ok (true, d)))
      (fun _ => none) 3 0 .Mail ⟨{7}, ∅, ∅⟩ []
      (⟨{(0, .Mail, 7), (1, .Mail, 8)},
        (AList.singleton (0, .Mail) ⟨{7}, ∅, ∅⟩).insert (1, .Mail) ⟨{8}, ∅, ∅⟩, some ⟨1, 2⟩⟩,
        [])).calls.filterMap Call.arrival = [⟨1, .Mail, ⟨{8}, ∅, ∅⟩⟩] ∧
    (handleRollbackUpdates (inject (storeOps firstPending fun (_ : List Unit) d => .ok (true, d)))
      (fun _ => none) 3 0 .Mail ⟨{7}, ∅, ∅⟩ []
      (⟨{(0, .Mail, 7), (1, .Mail, 8)},
        (AList.singleton (0, .Mail) ⟨{7}, ∅, ∅⟩).insert (1, .Mail) ⟨{8}, ∅, ∅⟩, some ⟨1, 2⟩⟩,
        [])).result.isSome :=
  ⟨firstPending_picks, rfl, handleRollbackUpdates_returns_within _ _ _ firstPending_picks
    ⟨{(0, .Mail, 7), (1, .Mail, 8)},
      (AList.singleton (0, .Mail) ⟨{7}, ∅, ∅⟩).insert (1, .Mail) ⟨{8}, ∅, ∅⟩, some ⟨1, 2⟩⟩
    [] 0 .Mail ⟨{7}, ∅, ∅⟩ []⟩

end JmapServer.RollbackTermination
