import JmapServer.Follower.RollbackMatch

/-!
# Retrying a failed round

Every storage error makes the function return `None`, and the caller retries the whole round
with the same arguments. Over the spec's store, and with no update records, the retry ends as a
run that never failed would have. The calls that succeeded before the error deleted documents
and removed markers that the retry deletes and removes again to no effect, and
`next_rollback_change` answers from the pending markers alone, so the retry takes up the
targets where the failed run left them.

`passStep` and `passStore` say what one pass does when no call fails; `body_nil_cases` proves
that a pass with failures either does that or returns `None` having done less of it.
-/
namespace JmapServer.RollbackRetry
open RollbackLoop RollbackPass RollbackStore RollbackTrace RollbackMatch

variable {Update : Type}

/-- The store once the inserts of `t` are deleted. -/
def insertsDeleted (t : Target) (st : Store) : Store :=
  { st with documents := rolledBackDocuments t st.documents }

/-- The store once the inserts of `t` are deleted and its marker removed. -/
def rolledBack (t : Target) (st : Store) : Store :=
  { st with documents := rolledBackDocuments t st.documents,
            pending := st.pending.erase (t.account_id, t.collection) }

theorem rolledBackDocuments_idem (t : Target) (d : Finset DocumentKey) :
    rolledBackDocuments t (rolledBackDocuments t d) = rolledBackDocuments t d := by
  unfold rolledBackDocuments; split_ifs <;> simp [Finset.filter_filter]

theorem erase_of_not_mem {p : Pending} {k : AccountId × Collection} (h : k ∉ p) :
    p.erase k = p :=
  AList.ext (List.kerase_of_not_mem_keys (fun h' => h (AList.mem_keys.mpr h')))

@[simp] theorem insertsDeleted_pending (t : Target) (st : Store) :
    (insertsDeleted t st).pending = st.pending := rfl

@[simp] theorem insertsDeleted_lastLog (t : Target) (st : Store) :
    (insertsDeleted t st).lastLog = st.lastLog := rfl

@[simp] theorem rolledBack_lastLog (t : Target) (st : Store) :
    (rolledBack t st).lastLog = st.lastLog := rfl

@[simp] theorem insertsDeleted_idem (t : Target) (st : Store) :
    insertsDeleted t (insertsDeleted t st) = insertsDeleted t st := by
  simp [insertsDeleted, rolledBackDocuments_idem]

@[simp] theorem rolledBack_insertsDeleted (t : Target) (st : Store) :
    rolledBack t (insertsDeleted t st) = rolledBack t st := by
  simp [rolledBack, insertsDeleted, rolledBackDocuments_idem]

@[simp] theorem rolledBack_idem (t : Target) (st : Store) :
    rolledBack t (rolledBack t st) = rolledBack t st := by
  simp [rolledBack, rolledBackDocuments_idem, erase_of_not_mem, AList.mem_erase]

/-- `z` holds no document and no marker that `y` does not. -/
def Within (z y : Store) : Prop :=
  z.documents ⊆ y.documents ∧ ∀ k, k ∈ z.pending → k ∈ y.pending

theorem Within.refl (y : Store) : Within y y := ⟨subset_rfl, fun _ => id⟩

theorem Within.trans {x y z : Store} (h₁ : Within x y) (h₂ : Within y z) : Within x z :=
  ⟨h₁.1.trans h₂.1, fun k hk => h₂.2 k (h₁.2 k hk)⟩

theorem within_insertsDeleted (t : Target) (y : Store) : Within (insertsDeleted t y) y := by
  refine ⟨?_, fun _ => id⟩
  unfold insertsDeleted rolledBackDocuments; split_ifs <;> simp [Finset.filter_subset]

theorem within_rolledBack (t : Target) (y : Store) : Within (rolledBack t y) y :=
  ⟨(within_insertsDeleted t y).1, fun _ hk => (AList.mem_erase.mp hk).2⟩

/-- A target whose work a store already shows has nothing left to do in a store within it. -/
theorem rolledBack_of_within {t : Target} {y z : Store} (hz : Within z y)
    (hy : rolledBack t y = y) : rolledBack t z = z := by
  have hd := congrArg Store.documents hy
  have hk : (t.account_id, t.collection) ∉ y.pending := by
    rw [← congrArg Store.pending hy]; simp [rolledBack, AList.mem_erase]
  obtain ⟨docs, pend, last⟩ := z
  simp only [rolledBack, Store.mk.injEq, and_true] at hd ⊢
  refine ⟨?_, erase_of_not_mem fun h => hk (hz.2 _ h)⟩
  unfold rolledBackDocuments at hd ⊢
  split_ifs at hd ⊢
  · rfl
  · rw [Finset.filter_eq_self] at hd ⊢
    exact fun x hx => hd x (hz.1 hx)

/-- What a pass from target `t` at store `y` may leave when it returns `None`: nothing done,
the inserts of `t` deleted, or its marker removed as well when it has no checkpoint to make. -/
def Unfinished (t : Target) (y s : Store) : Prop :=
  s = y ∨ s = insertsDeleted t y ∨
    (¬ (clearThread t.collection t.changes).takeInserts.Remaining ∧ s = rolledBack t y)

theorem Unfinished.within {t : Target} {y s : Store} (h : Unfinished t y s) : Within s y := by
  rcases h with rfl | rfl | ⟨-, rfl⟩
  exacts [Within.refl _, within_insertsDeleted t _, within_rolledBack t _]

section
variable (pick : Pending → Option Target)
variable (apply : List Update → Finset DocumentKey → StoreResult (Bool × Finset DocumentKey))
variable (serialize : MergedChanges → Option (List UInt8))

/-- What a pass from target `t` with no update records returns, or the target it goes on
with, when no call fails. -/
def passStep (t : Target) (y : Store) : Step Update :=
  if (clearThread t.collection t.changes).takeInserts.Remaining then
    .ret (checkpointAnswer serialize t.account_id t.collection
      (clearThread t.collection t.changes).takeInserts)
  else
    match pick (rolledBack t y).pending with
    | none => .ret (lastLogAnswer (.ok y.lastLog))
    | some t' => .next t' []

/-- The store a pass from target `t` with no update records leaves, when no call fails. -/
def passStore (t : Target) (y : Store) : Store :=
  if (clearThread t.collection t.changes).takeInserts.Remaining then insertsDeleted t y
  else rolledBack t y

theorem faulty_nil {σ α : Type} {call : σ → StoreResult α × σ} {x y : σ × List Bool}
    {r : StoreResult α} (hx : x.2 = []) (h : faulty call x = (r, y)) :
    r = (call x.1).1 ∧ y = ((call x.1).2, []) := by
  obtain ⟨x, flags⟩ := x
  subst hx
  exact ⟨(congrArg Prod.fst h).symm, (congrArg Prod.snd h).symm⟩

/-- With no flag raised, only an apply can answer `Err`. -/
theorem steps_faultless {x y : Store × List Bool} {cs : List (Call Update)}
    (h : Steps (inject (storeOps pick apply)) x cs y) (hx : x.2 = []) :
    y.2 = [] ∧ ∀ κ ∈ cs, κ.failed → ∃ us e, κ = .applyRollbackUpdates us (.error e) := by
  induction h with
  | nil => exact ⟨hx, by simp⟩
  | applyRollbackUpdates us r hc _ ih =>
    obtain ⟨-, rfl⟩ := faulty_nil hx hc
    obtain ⟨h₁, h₂⟩ := ih rfl
    refine ⟨h₁, List.forall_mem_cons.mpr ⟨fun hf => ?_, h₂⟩⟩
    rcases r with e | b
    · exact ⟨us, e, rfl⟩
    · cases hf
  | deleteDocuments _ _ _ _ hc _ ih | removeRollbackChange _ _ _ hc _ ih
  | nextRollbackChange _ hc _ ih | getLastLog _ hc _ ih =>
    obtain ⟨rfl, rfl⟩ := faulty_nil hx hc
    obtain ⟨h₁, h₂⟩ := ih rfl
    exact ⟨h₁, List.forall_mem_cons.mpr ⟨fun hf => absurd hf Bool.false_ne_true, h₂⟩⟩

theorem foldl_after_removal (y : Store) (a : AccountId) (c : Collection) (ch : MergedChanges)
    (us : List Update) (rest : List (Call Update)) :
    (deletePrelude a c (clearThread c ch) ++ applyPrelude us ++
      (.removeRollbackChange a c (.ok ()) : Call Update) :: rest).foldl (replay apply) y =
      rest.foldl (replay apply) ⟨updatedDocuments apply us (rolledBackDocuments ⟨a, c, ch⟩
        y.documents), y.pending.erase (a, c), y.lastLog⟩ := by
  rw [← List.singleton_append, ← List.append_assoc, List.foldl_append, replay_removed]

theorem consistent_after_removal {y : Store} {a : AccountId} {c : Collection}
    {ch : MergedChanges} {us : List Update} {rest : List (Call Update)}
    (hc : Consistent pick apply y (deletePrelude a c (clearThread c ch) ++ applyPrelude us ++
      .removeRollbackChange a c (.ok ()) :: rest)) :
    Consistent pick apply ⟨updatedDocuments apply us (rolledBackDocuments ⟨a, c, ch⟩
      y.documents), y.pending.erase (a, c), y.lastLog⟩ rest := by
  rw [← List.singleton_append, ← List.append_assoc, consistent_append, replay_removed] at hc
  exact hc.2

/-- A pass with no update records does what `passStep` and `passStore` say, or it returns
`None` after a call other than an apply failed, having at most deleted its target's inserts, or
also removed its marker when it had no checkpoint to make. -/
theorem body_nil_cases (t : Target) (y : Store) (flags : List Bool) :
    ((body (inject (storeOps pick apply)) serialize t.account_id t.collection t.changes []
        (y, flags)).step = passStep pick serialize t y ∧
      (body (inject (storeOps pick apply)) serialize t.account_id t.collection t.changes []
        (y, flags)).store.1 = passStore t y) ∨
    ((body (inject (storeOps pick apply)) serialize t.account_id t.collection t.changes []
        (y, flags)).step = .ret none ∧
      Unfinished t y (body (inject (storeOps pick apply)) serialize t.account_id t.collection
        t.changes [] (y, flags)).store.1 ∧
      ∃ κ ∈ (body (inject (storeOps pick apply)) serialize t.account_id t.collection t.changes []
          (y, flags)).calls, κ.failed ∧ ∀ us e, κ ≠ .applyRollbackUpdates us (.error e)) := by
  have hs := body_shape (inject (storeOps pick apply)) serialize t.account_id t.collection
    t.changes [] (y, flags)
  obtain ⟨hy, hc⟩ := steps_replay pick apply
    (body_steps _ serialize t.account_id t.collection t.changes [] (y, flags))
  generalize body (inject (storeOps pick apply)) serialize t.account_id t.collection t.changes []
    (y, flags) = p at hs hy hc ⊢
  obtain ⟨st, z, cs⟩ := p
  dsimp only at hs hy hc ⊢
  cases hs with
  | deleteFailed e =>
    exact .inr ⟨rfl, Or.inl (by simpa [replay] using hy), _, List.mem_singleton_self _, rfl,
      by simp⟩
  | applyFailed _ hu | incomplete hu => exact absurd rfl hu
  | checkpoint hr =>
    simp only [settled, List.isEmpty_nil, if_true] at hr ⊢
    refine .inl ⟨by simp [passStep, hr], ?_⟩
    rw [hy, List.foldl_append, replay_deletePrelude]
    simp [passStore, hr, applyPrelude, insertsDeleted]
  | removeFailed e hn =>
    refine .inr ⟨rfl, Or.inr (.inl ?_),
      .removeRollbackChange t.account_id t.collection (.error e), by simp, rfl, by simp⟩
    rw [hy, List.foldl_append, List.foldl_append, replay_deletePrelude]
    simp [applyPrelude, replay, insertsDeleted]
  | nextFailed e hn =>
    simp only [settled, List.isEmpty_nil, if_true] at hn
    refine .inr ⟨rfl, Or.inr (.inr ⟨hn, ?_⟩), .nextRollbackChange (.error e), by simp, rfl, by simp⟩
    rw [hy, foldl_after_removal]
    simp [replay, rolledBack]
  | next t' hn =>
    simp only [settled, List.isEmpty_nil, if_true] at hn
    have ht := (consistent_after_removal pick apply hc).1
    simp only [Answered] at ht
    refine .inl ⟨?_, ?_⟩
    · simp [passStep, hn, rolledBack, ← ht]
    · rw [hy, foldl_after_removal]
      simp [replay, passStore, hn, rolledBack]
  | finished last hn =>
    simp only [settled, List.isEmpty_nil, if_true] at hn
    have hc' := consistent_after_removal pick apply hc
    simp only [Consistent, Answered] at hc'
    rcases last with e | l
    · refine .inr ⟨rfl, Or.inr (.inr ⟨hn, ?_⟩), .getLastLog (.error e), by simp, rfl, by simp⟩
      rw [hy, foldl_after_removal]
      simp [replay, rolledBack]
    · obtain ⟨hnone, hl, -⟩ := hc'
      have hl : l = y.lastLog := hl
      refine .inl ⟨?_, ?_⟩
      · simp [passStep, hn, rolledBack, ← hnone, hl]
      · rw [hy, foldl_after_removal]
        simp [replay, passStore, hn, rolledBack]

/-- The run from `st` with target `t`, no update records and no call failing, returns `v` and
leaves `w` when given enough passes. -/
def Returns (st : Store) (t : Target) (v : Option (State × Response)) (w : Store) : Prop :=
  ∃ fuel, (handleRollbackUpdates (inject (storeOps pick apply)) serialize fuel t.account_id
      t.collection t.changes [] (st, [])).result = some v ∧
    (handleRollbackUpdates (inject (storeOps pick apply)) serialize fuel t.account_id
      t.collection t.changes [] (st, [])).store.1 = w

/-- What the run from `z` returns and leaves, given that `next_rollback_change` is asked next. -/
def NextReturns (z : Store) (v : Option (State × Response)) (w : Store) : Prop :=
  match pick z.pending with
  | none => v = lastLogAnswer (.ok z.lastLog) ∧ w = z
  | some t => Returns pick apply serialize z t v w

theorem passStep_eq_next {t t' : Target} {y : Store} {us : List Update}
    (h : passStep pick serialize t y = .next t' us) :
    us = [] ∧ ¬ (clearThread t.collection t.changes).takeInserts.Remaining ∧
      pick (rolledBack t y).pending = some t' := by
  unfold passStep at h
  split_ifs at h with hr
  split at h
  · cases h
  · cases h; exact ⟨rfl, hr, ‹_›⟩

theorem body_faultless (t : Target) (y : Store) :
    (body (inject (storeOps pick apply)) serialize t.account_id t.collection t.changes []
        (y, [])).step = passStep pick serialize t y ∧
      (body (inject (storeOps pick apply)) serialize t.account_id t.collection t.changes []
        (y, [])).store = (passStore t y, []) := by
  have hf := steps_faultless pick apply
    (body_steps _ serialize t.account_id t.collection t.changes [] (y, [])) rfl
  rcases body_nil_cases pick apply serialize t y [] with ⟨h₁, h₂⟩ | ⟨-, -, κ, hκ, hk, hne⟩
  · exact ⟨h₁, Prod.ext h₂ hf.1⟩
  · obtain ⟨us, e, rfl⟩ := hf.2 κ hκ hk
    exact absurd rfl (hne us e)

/-- A run with no failure is its first pass followed by the run from the target that pass
goes on with. -/
theorem returns_iff (y : Store) (t : Target) (v : Option (State × Response)) (w : Store) :
    Returns pick apply serialize y t v w ↔
      match (passStep pick serialize t y : Step Update) with
      | .ret v' => v = v' ∧ w = passStore t y
      | .next t' _ => Returns pick apply serialize (passStore t y) t' v w := by
  obtain ⟨hstep, hstore⟩ := body_faultless pick apply serialize t y
  cases hp : passStep pick serialize t y with
  | ret v' =>
    constructor
    · rintro ⟨_ | fuel, hr, hw⟩
      · cases hr
      · simp only [handleRollbackUpdates, hstep, hp, hstore, Option.some.injEq] at hr hw
        exact ⟨hr.symm, hw.symm⟩
    · rintro ⟨rfl, rfl⟩
      exact ⟨1, by simp [handleRollbackUpdates, hstep, hp], by simp [handleRollbackUpdates, hstep, hp, hstore]⟩
  | next t' us =>
    obtain ⟨rfl, -⟩ := passStep_eq_next pick serialize hp
    constructor
    · rintro ⟨_ | fuel, hr, hw⟩
      · cases hr
      · simp only [handleRollbackUpdates, hstep, hp, hstore] at hr hw
        exact ⟨fuel, hr, hw⟩
    · rintro ⟨fuel, hr, hw⟩
      exact ⟨fuel + 1, by simpa [handleRollbackUpdates, hstep, hp, hstore] using hr,
        by simpa [handleRollbackUpdates, hstep, hp, hstore] using hw⟩

/-- A target with no checkpoint to make hands over to the next one the store names. -/
theorem returns_iff_next {t : Target} (y : Store) (v : Option (State × Response)) (w : Store)
    (hn : ¬ (clearThread t.collection t.changes).takeInserts.Remaining) :
    Returns pick apply serialize y t v w ↔ NextReturns pick apply serialize (rolledBack t y) v w := by
  rw [returns_iff]
  unfold passStep passStore NextReturns
  simp only [hn, if_false]
  cases pick (rolledBack t y).pending <;> rfl

theorem pass_congr {t : Target} {y s : Store} (h : Unfinished t y s) :
    passStep pick serialize t s = (passStep pick serialize t y : Step Update) ∧
      passStore t s = passStore t y := by
  rcases h with rfl | rfl | ⟨hn, rfl⟩
  · exact ⟨rfl, rfl⟩
  · unfold passStep passStore; split_ifs <;> simp
  · simp [passStep, passStore, hn]

/-- The run from what a pass left when it returned `None` is the run from where it began. -/
theorem returns_congr {t : Target} {y s : Store} (h : Unfinished t y s)
    (v : Option (State × Response)) (w : Store) :
    Returns pick apply serialize s t v w ↔ Returns pick apply serialize y t v w := by
  obtain ⟨hstep, hstore⟩ := @pass_congr Update pick serialize _ _ _ h
  rw [returns_iff, returns_iff, hstep, hstore]

theorem unfinished_passStore (t : Target) (y : Store) : Unfinished t y (passStore t y) := by
  unfold passStore
  split_ifs with hr
  exacts [Or.inr (.inl rfl), Or.inr (.inr ⟨hr, rfl⟩)]

/-- Whatever a pass with no update records does, it leaves what `Unfinished` allows. -/
theorem body_nil_unfinished (t : Target) (y : Store) (flags : List Bool) :
    Unfinished t y (body (inject (storeOps pick apply)) serialize t.account_id t.collection
      t.changes [] (y, flags)).store.1 := by
  rcases body_nil_cases pick apply serialize t y flags with ⟨-, hstore⟩ | ⟨-, hpart, -⟩
  · rw [hstore]; exact unfinished_passStore t y
  · exact hpart

/-- A pass with no update records that goes on had nothing to send, removed its target's marker
and was handed the next target by the store. -/
theorem body_nil_next {t t' : Target} {y : Store} {flags : List Bool} {us : List Update}
    (h : (body (inject (storeOps pick apply)) serialize t.account_id t.collection t.changes []
      (y, flags)).step = .next t' us) :
    us = [] ∧ ¬ (clearThread t.collection t.changes).takeInserts.Remaining ∧
      pick (rolledBack t y).pending = some t' ∧
      (body (inject (storeOps pick apply)) serialize t.account_id t.collection t.changes []
        (y, flags)).store.1 = rolledBack t y := by
  rcases body_nil_cases pick apply serialize t y flags with ⟨hstep, hstore⟩ | ⟨hstep, -, -⟩
  · obtain ⟨rfl, hn, ht⟩ := passStep_eq_next pick serialize (hstep.symm.trans h)
    exact ⟨rfl, hn, ht, by rw [hstore]; simp [passStore, hn]⟩
  · cases hstep.symm.trans h

/-- A run with no update records only deletes documents and removes markers, whichever calls
fail. -/
theorem handleRollbackUpdates_within (fuel : ℕ) (t : Target) (y : Store) (flags : List Bool) :
    Within (handleRollbackUpdates (inject (storeOps pick apply)) serialize fuel t.account_id
      t.collection t.changes [] (y, flags)).store.1 y := by
  induction fuel generalizing t y flags with
  | zero => exact Within.refl y
  | succ fuel ih =>
    simp only [handleRollbackUpdates]
    split
    · exact (body_nil_unfinished pick apply serialize t y flags).within
    · rename_i t' us hst
      obtain ⟨rfl, -⟩ := body_nil_next pick apply serialize hst
      exact (ih t' _ _).trans (body_nil_unfinished pick apply serialize t y flags).within

/-- From what a pass left when it returned `None`, the store names the same continuation as
from where the pass began, if the store had named its target. -/
theorem nextReturns_unfinished {t : Target} {y s : Store} (ht : pick y.pending = some t)
    (h : Unfinished t y s) (v : Option (State × Response)) (w : Store) :
    NextReturns pick apply serialize s v w ↔ NextReturns pick apply serialize y v w := by
  rcases h with rfl | rfl | ⟨hn, rfl⟩
  · rfl
  · simp only [NextReturns, insertsDeleted_pending, ht]
    exact returns_congr pick apply serialize (Or.inr (.inl rfl)) v w
  · simp only [NextReturns, ht]
    exact (returns_iff_next pick apply serialize y v w hn).symm

/-- A run that returned `None` from a target the store had named leaves a store from which the
store names the same continuation. -/
theorem nextReturns_of_failed (fuel : ℕ) (t : Target) (y : Store) (flags : List Bool)
    (ht : pick y.pending = some t)
    (h : (handleRollbackUpdates (inject (storeOps pick apply)) serialize fuel t.account_id
      t.collection t.changes [] (y, flags)).result = some none)
    (v : Option (State × Response)) (w : Store) :
    NextReturns pick apply serialize (handleRollbackUpdates (inject (storeOps pick apply))
        serialize fuel t.account_id t.collection t.changes [] (y, flags)).store.1 v w ↔
      NextReturns pick apply serialize y v w := by
  induction fuel generalizing t y flags with
  | zero => cases h
  | succ fuel ih =>
    simp only [handleRollbackUpdates] at h ⊢
    split at h <;> rename_i hst <;> simp only [hst]
    · exact nextReturns_unfinished pick apply serialize ht
        (body_nil_unfinished pick apply serialize t y flags) v w
    · rename_i t' us
      obtain ⟨rfl, hn, ht', hy⟩ := body_nil_next pick apply serialize hst
      rw [ih t' _ _ (by rw [hy]; exact ht') h, hy]
      simp only [NextReturns, ht]
      exact (returns_iff_next pick apply serialize y v w hn).symm

/-- A round with no update records that returned `None`, whichever calls failed, leaves a store
from which the same round, with no call failing, returns what it returns from the store the
failed round began with, and leaves the same store. -/
theorem handleRollbackUpdates_retry (fuel : ℕ) (a : AccountId) (c : Collection)
    (ch : MergedChanges) (st : Store) (flags : List Bool)
    (h : (handleRollbackUpdates (inject (storeOps pick apply)) serialize fuel a c ch []
      (st, flags)).result = some none)
    (v : Option (State × Response)) (w : Store) :
    Returns pick apply serialize (handleRollbackUpdates (inject (storeOps pick apply)) serialize
        fuel a c ch [] (st, flags)).store.1 ⟨a, c, ch⟩ v w ↔
      Returns pick apply serialize st ⟨a, c, ch⟩ v w := by
  cases fuel with
  | zero => cases h
  | succ fuel =>
    simp only [handleRollbackUpdates] at h ⊢
    split at h <;> rename_i hst <;> simp only [hst]
    · exact returns_congr pick apply serialize
        (body_nil_unfinished pick apply serialize ⟨a, c, ch⟩ st flags) v w
    · rename_i t' us
      obtain ⟨rfl, hn, ht', hy⟩ := @body_nil_next Update pick apply serialize ⟨a, c, ch⟩ t' st flags
        _ hst
      rw [returns_iff_next pick apply serialize _ v w hn,
        returns_iff_next pick apply serialize _ v w hn,
        rolledBack_of_within (handleRollbackUpdates_within pick apply serialize fuel t' _ _)
          (by rw [hy, rolledBack_idem]),
        nextReturns_of_failed pick apply serialize fuel t' _ _ (by rw [hy]; exact ht') h, hy]

theorem retry_after_failed_second_delete :
    let run := handleRollbackUpdates (inject (storeOps firstPending fun (_ : List Unit) d =>
      .ok (true, d))) (fun _ => none) 2 0 .Mail ⟨{7}, ∅, ∅⟩ []
      (⟨{(0, .Mail, 7), (1, .Mail, 8)}, AList.singleton (1, .Mail) ⟨{8}, ∅, ∅⟩, some ⟨1, 2⟩⟩,
        [false, false, false, true])
    run.result = some none ∧ ∀ v w,
      Returns firstPending (fun (_ : List Unit) d => .ok (true, d)) (fun _ => none) run.store.1
          ⟨0, .Mail, ⟨{7}, ∅, ∅⟩⟩ v w ↔
        Returns firstPending (fun (_ : List Unit) d => .ok (true, d)) (fun _ => none)
          ⟨{(0, .Mail, 7), (1, .Mail, 8)}, AList.singleton (1, .Mail) ⟨{8}, ∅, ∅⟩, some ⟨1, 2⟩⟩
          ⟨0, .Mail, ⟨{7}, ∅, ∅⟩⟩ v w :=
  have h : (handleRollbackUpdates (inject (storeOps firstPending fun (_ : List Unit) d =>
      .ok (true, d))) (fun _ => none) 2 0 .Mail ⟨{7}, ∅, ∅⟩ []
      (⟨{(0, .Mail, 7), (1, .Mail, 8)}, AList.singleton (1, .Mail) ⟨{8}, ∅, ∅⟩, some ⟨1, 2⟩⟩,
        [false, false, false, true])).result = some none := rfl
  ⟨h, handleRollbackUpdates_retry _ _ _ 2 0 .Mail ⟨{7}, ∅, ∅⟩ _ _ h⟩

end

end JmapServer.RollbackRetry
