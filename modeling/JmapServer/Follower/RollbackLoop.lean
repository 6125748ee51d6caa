import JmapServer.Follower.Types

/-!
# `JMAPServer::handle_rollback_updates`

The loop of `cluster/follower/updates_rollback.rs`, over a store `σ` reached only through the
five storage calls the loop makes. Nothing is assumed about those calls here: each may answer
anything, fail, or change the store, so the theorems stated over `Storage` hold for every store
and every interleaving of answers. Every call is recorded with its answer, in order.

The body of the loop is split at its four blocks (lines 56, 75, 101 and 125), each a
definition that ends by calling the next one. The loop itself is run with fuel: one unit per
pass of the body, and `result = none` when the fuel runs out before a `return`.
-/
namespace JmapServer.RollbackLoop

abbrev StoreResult (α : Type) := Except String α

/-- The storage calls of the loop. -/
structure Storage (σ Update : Type) where
  /-- The worker spawned at line 59: one `WriteBatch` of `account_id` deleting each id in
  `collection`, then `store.write(batch)`. -/
  deleteDocuments : AccountId → Collection → Finset DocumentId → σ → StoreResult Unit × σ
  applyRollbackUpdates : List Update → σ → StoreResult Bool × σ
  removeRollbackChange : AccountId → Collection → σ → StoreResult Unit × σ
  nextRollbackChange : σ → StoreResult (Option Target) × σ
  getLastLog : σ → StoreResult (Option RaftId) × σ

/-- One storage call as the loop made it, with the answer it got. -/
inductive Call (Update : Type) where
  | deleteDocuments (account_id : AccountId) (collection : Collection)
      (ids : Finset DocumentId) (result : StoreResult Unit)
  | applyRollbackUpdates (updates : List Update) (result : StoreResult Bool)
  | removeRollbackChange (account_id : AccountId) (collection : Collection)
      (result : StoreResult Unit)
  | nextRollbackChange (result : StoreResult (Option Target))
  | getLastLog (result : StoreResult (Option RaftId))

def Call.failed {Update : Type} : Call Update → Bool
  | .deleteDocuments _ _ _ (.error _) | .applyRollbackUpdates _ (.error _) => true
  | .removeRollbackChange _ _ (.error _) => true
  | .nextRollbackChange (.error _) | .getLastLog (.error _) => true
  | _ => false

/-- The target a call hands to the loop, if it is an answer of `next_rollback_change`. -/
def Call.arrival {Update : Type} : Call Update → Option Target
  | .nextRollbackChange (.ok (some t)) => some t
  | _ => none

def Call.removal {Update : Type} : Call Update → Option (AccountId × Collection)
  | .removeRollbackChange a c (.ok _) => some (a, c)
  | _ => none

def Call.applied {Update : Type} : Call Update → Option (List Update)
  | .applyRollbackUpdates us _ => some us
  | _ => none

/-- How one pass of the loop body ends: a `return` of the function, or `continue` with the
next target and the loop's `updates` variable. -/
inductive Step (Update : Type) where
  | ret (value : Option (State × Response))
  | next (target : Target) (updates : List Update)

structure Pass (σ Update : Type) where
  step : Step Update
  store : σ
  calls : List (Call Update)

def Pass.after {σ Update : Type} (c : Call Update) (p : Pass σ Update) : Pass σ Update :=
  { p with calls := c :: p.calls }

@[simp] theorem Pass.after_step {σ Update : Type} (c : Call Update) (p : Pass σ Update) :
    (p.after c).step = p.step := rfl

@[simp] theorem Pass.after_store {σ Update : Type} (c : Call Update) (p : Pass σ Update) :
    (p.after c).store = p.store := rfl

@[simp] theorem Pass.after_calls {σ Update : Type} (c : Call Update) (p : Pass σ Update) :
    (p.after c).calls = c :: p.calls := rfl

/-- Lines 50-54: a `Thread` target has nothing stored to undo. -/
def clearThread (collection : Collection) (changes : MergedChanges) : MergedChanges :=
  if collection = .Thread then MergedChanges.cleared else changes

section
variable {σ Update : Type} (S : Storage σ Update)
variable (serialize : MergedChanges → Option (List UInt8))

/-- The answer built from `get_last_log` (lines 138-154): `Match` with the last log, or
`None` when it is missing or could not be read. -/
def lastLogAnswer : StoreResult (Option RaftId) → Option (State × Response)
  | .ok (some l) => some (default, .AppendEntries (.Match l))
  | _ => none

/-- The answer of the checkpoint (lines 102-123): `None` when `serialize` fails. -/
def checkpointAnswer (account_id : AccountId) (collection : Collection)
    (changes : MergedChanges) : Option (State × Response) :=
  (serialize changes).map fun bytes =>
    (.Rollback account_id collection changes,
      .AppendEntries (.Update account_id collection bytes true))

/-- Lines 125-160: remove the marker, ask for the next target, and with none left answer
`Match` with the last log. -/
def advance (account_id : AccountId) (collection : Collection) (updates : List Update)
    (s : σ) : Pass σ Update :=
  let (removed, s) := S.removeRollbackChange account_id collection s
  let c₁ := Call.removeRollbackChange account_id collection removed
  match removed with
  | .error _ => ⟨.ret none, s, [c₁]⟩
  | .ok () =>
    let (next, s) := S.nextRollbackChange s
    let c₂ := Call.nextRollbackChange next
    match next with
    | .error _ => ⟨.ret none, s, [c₁, c₂]⟩
    | .ok (some t) => ⟨.next t updates, s, [c₁, c₂]⟩
    | .ok none =>
      let (last, s) := S.getLastLog s
      ⟨.ret (lastLogAnswer last), s, [c₁, c₂, .getLastLog last]⟩

/-- Lines 101-124: a target with updates or deletes left is checkpointed and sent to the
leader; otherwise it is finished. -/
def checkpoint (account_id : AccountId) (collection : Collection) (changes : MergedChanges)
    (updates : List Update) (s : σ) : Pass σ Update :=
  if changes.Remaining then
    ⟨.ret (checkpointAnswer serialize account_id collection changes), s, []⟩
  else advance S account_id collection updates s

/-- Lines 75-99: undo the applied update records. -/
def applyUpdates (account_id : AccountId) (collection : Collection) (changes : MergedChanges)
    (updates : List Update) (s : σ) : Pass σ Update :=
  if updates.isEmpty then checkpoint S serialize account_id collection changes updates s
  else
    let (applied, s) := S.applyRollbackUpdates updates s
    let c := Call.applyRollbackUpdates updates applied
    match applied with
    | .error _ => ⟨.ret none, s, [c]⟩
    | .ok false =>
      ⟨.ret (some (.Rollback account_id collection changes, .AppendEntries .Continue)), s, [c]⟩
    | .ok true => (checkpoint S serialize account_id collection changes.clearUpdates [] s).after c

/-- Lines 56-73: delete the speculative inserts in one batch. -/
def deleteInserts (account_id : AccountId) (collection : Collection) (changes : MergedChanges)
    (updates : List Update) (s : σ) : Pass σ Update :=
  if changes.inserts = ∅ then applyUpdates S serialize account_id collection changes updates s
  else
    let (deleted, s) := S.deleteDocuments account_id collection changes.inserts s
    let c := Call.deleteDocuments account_id collection changes.inserts deleted
    match deleted with
    | .error _ => ⟨.ret none, s, [c]⟩
    | .ok () => (applyUpdates S serialize account_id collection changes.takeInserts updates s).after c

/-- One pass of the `loop` body. -/
def body (account_id : AccountId) (collection : Collection) (changes : MergedChanges)
    (updates : List Update) (s : σ) : Pass σ Update :=
  deleteInserts S serialize account_id collection (clearThread collection changes) updates s

structure Run (σ Update : Type) where
  /-- `none` when the fuel ran out before the function returned. -/
  result : Option (Option (State × Response))
  store : σ
  calls : List (Call Update)

/-- The function, allowed `fuel` passes of its loop. -/
def handleRollbackUpdates : ℕ → AccountId → Collection → MergedChanges → List Update → σ →
    Run σ Update
  | 0, _, _, _, _, s => ⟨none, s, []⟩
  | fuel + 1, account_id, collection, changes, updates, s =>
    let p := body S serialize account_id collection changes updates s
    match p.step with
    | .ret value => ⟨some value, p.store, p.calls⟩
    | .next t updates =>
      let r := handleRollbackUpdates fuel t.account_id t.collection t.changes updates p.store
      ⟨r.result, r.store, p.calls ++ r.calls⟩

/-! ## What each block can do -/

theorem advance_cases (a : AccountId) (c : Collection) (us : List Update) (s : σ) :
    (∃ e s', S.removeRollbackChange a c s = (.error e, s') ∧
      advance S a c us s = ⟨.ret none, s', [.removeRollbackChange a c (.error e)]⟩) ∨
    (∃ s₁ e s', S.removeRollbackChange a c s = (.ok (), s₁) ∧
      S.nextRollbackChange s₁ = (.error e, s') ∧ advance S a c us s =
        ⟨.ret none, s', [.removeRollbackChange a c (.ok ()), .nextRollbackChange (.error e)]⟩) ∨
    (∃ s₁ t s', S.removeRollbackChange a c s = (.ok (), s₁) ∧
      S.nextRollbackChange s₁ = (.ok (some t), s') ∧ advance S a c us s =
        ⟨.next t us, s', [.removeRollbackChange a c (.ok ()), .nextRollbackChange (.ok (some t))]⟩) ∨
    (∃ s₁ s₂ last s', S.removeRollbackChange a c s = (.ok (), s₁) ∧
      S.nextRollbackChange s₁ = (.ok none, s₂) ∧ S.getLastLog s₂ = (last, s') ∧
      advance S a c us s = ⟨.ret (lastLogAnswer last), s', [.removeRollbackChange a c (.ok ()),
        .nextRollbackChange (.ok none), .getLastLog last]⟩) := by
  rcases h₁ : S.removeRollbackChange a c s with ⟨_ | ⟨⟨⟩⟩, s₁⟩
  · exact .inl ⟨_, _, rfl, by simp [advance, h₁]⟩
  rcases h₂ : S.nextRollbackChange s₁ with ⟨_ | _ | t, s₂⟩
  · exact .inr (.inl ⟨_, _, _, rfl, h₂, by simp [advance, h₁, h₂]⟩)
  · rcases h₃ : S.getLastLog s₂ with ⟨last, s₃⟩
    exact .inr (.inr (.inr ⟨_, _, _, _, rfl, h₂, h₃, by simp [advance, h₁, h₂, h₃]⟩))
  · exact .inr (.inr (.inl ⟨_, _, _, rfl, h₂, by simp [advance, h₁, h₂]⟩))

theorem checkpoint_cases (a : AccountId) (c : Collection) (ch : MergedChanges)
    (us : List Update) (s : σ) :
    (ch.Remaining ∧ checkpoint S serialize a c ch us s =
      ⟨.ret (checkpointAnswer serialize a c ch), s, []⟩) ∨
    (¬ ch.Remaining ∧ checkpoint S serialize a c ch us s = advance S a c us s) := by
  by_cases h : ch.Remaining <;> simp [checkpoint, h]

theorem applyUpdates_cases (a : AccountId) (c : Collection) (ch : MergedChanges)
    (us : List Update) (s : σ) :
    (us = [] ∧ applyUpdates S serialize a c ch us s = checkpoint S serialize a c ch [] s) ∨
    (us ≠ [] ∧ ∃ e s', S.applyRollbackUpdates us s = (.error e, s') ∧
      applyUpdates S serialize a c ch us s = ⟨.ret none, s', [.applyRollbackUpdates us (.error e)]⟩) ∨
    (us ≠ [] ∧ ∃ s', S.applyRollbackUpdates us s = (.ok false, s') ∧
      applyUpdates S serialize a c ch us s = ⟨.ret (some (.Rollback a c ch,
        .AppendEntries .Continue)), s', [.applyRollbackUpdates us (.ok false)]⟩) ∨
    (us ≠ [] ∧ ∃ s', S.applyRollbackUpdates us s = (.ok true, s') ∧
      applyUpdates S serialize a c ch us s =
        (checkpoint S serialize a c ch.clearUpdates [] s').after
          (.applyRollbackUpdates us (.ok true))) := by
  by_cases hu : us = []
  · simp [applyUpdates, hu]
  rcases h : S.applyRollbackUpdates us s with ⟨_ | _ | _, s'⟩
  · exact .inr (.inl ⟨hu, _, _, rfl, by simp [applyUpdates, h, hu]⟩)
  · exact .inr (.inr (.inl ⟨hu, _, rfl, by simp [applyUpdates, h, hu]⟩))
  · exact .inr (.inr (.inr ⟨hu, _, rfl, by simp [applyUpdates, h, hu]⟩))

theorem deleteInserts_cases (a : AccountId) (c : Collection) (ch : MergedChanges)
    (us : List Update) (s : σ) :
    (ch.inserts = ∅ ∧ deleteInserts S serialize a c ch us s =
      applyUpdates S serialize a c ch.takeInserts us s) ∨
    (ch.inserts ≠ ∅ ∧ ∃ e s', S.deleteDocuments a c ch.inserts s = (.error e, s') ∧
      deleteInserts S serialize a c ch us s =
        ⟨.ret none, s', [.deleteDocuments a c ch.inserts (.error e)]⟩) ∨
    (ch.inserts ≠ ∅ ∧ ∃ s', S.deleteDocuments a c ch.inserts s = (.ok (), s') ∧
      deleteInserts S serialize a c ch us s = (applyUpdates S serialize a c ch.takeInserts us s').after
        (.deleteDocuments a c ch.inserts (.ok ()))) := by
  by_cases hi : ch.inserts = ∅
  · have : ch.takeInserts = ch := by cases ch; simp_all [MergedChanges.takeInserts]
    simp [deleteInserts, hi, this]
  rcases h : S.deleteDocuments a c ch.inserts s with ⟨_ | ⟨⟨⟩⟩, s'⟩
  · exact .inr (.inl ⟨hi, _, _, rfl, by simp [deleteInserts, h, hi]⟩)
  · exact .inr (.inr ⟨hi, _, rfl, by simp [deleteInserts, h, hi]⟩)

/-! ## Recorded calls are the store's answers -/

/-- From store `x`, the calls `cs` are the answers of `S` in turn, and they leave store `y`. -/
inductive Steps (S : Storage σ Update) : σ → List (Call Update) → σ → Prop
  | nil (x : σ) : Steps S x [] x
  | deleteDocuments {x y z : σ} {cs : List (Call Update)} (a : AccountId) (c : Collection)
      (ids : Finset DocumentId) (r : StoreResult Unit) :
      S.deleteDocuments a c ids x = (r, y) → Steps S y cs z →
      Steps S x (.deleteDocuments a c ids r :: cs) z
  | applyRollbackUpdates {x y z : σ} {cs : List (Call Update)} (us : List Update)
      (r : StoreResult Bool) :
      S.applyRollbackUpdates us x = (r, y) → Steps S y cs z →
      Steps S x (.applyRollbackUpdates us r :: cs) z
  | removeRollbackChange {x y z : σ} {cs : List (Call Update)} (a : AccountId) (c : Collection)
      (r : StoreResult Unit) :
      S.removeRollbackChange a c x = (r, y) → Steps S y cs z →
      Steps S x (.removeRollbackChange a c r :: cs) z
  | nextRollbackChange {x y z : σ} {cs : List (Call Update)} (r : StoreResult (Option Target)) :
      S.nextRollbackChange x = (r, y) → Steps S y cs z → Steps S x (.nextRollbackChange r :: cs) z
  | getLastLog {x y z : σ} {cs : List (Call Update)} (r : StoreResult (Option RaftId)) :
      S.getLastLog x = (r, y) → Steps S y cs z → Steps S x (.getLastLog r :: cs) z

variable {S} in
theorem Steps.append {x y z : σ} {cs ds : List (Call Update)} (h₁ : Steps S x cs y)
    (h₂ : Steps S y ds z) : Steps S x (cs ++ ds) z := by
  induction h₁ with
  | nil => exact h₂
  | deleteDocuments a c ids r h _ ih => exact .deleteDocuments a c ids r h (ih h₂)
  | applyRollbackUpdates us r h _ ih => exact .applyRollbackUpdates us r h (ih h₂)
  | removeRollbackChange a c r h _ ih => exact .removeRollbackChange a c r h (ih h₂)
  | nextRollbackChange r h _ ih => exact .nextRollbackChange r h (ih h₂)
  | getLastLog r h _ ih => exact .getLastLog r h (ih h₂)

theorem advance_steps (a : AccountId) (c : Collection) (us : List Update) (s : σ) :
    Steps S s (advance S a c us s).calls (advance S a c us s).store := by
  rcases advance_cases S a c us s with ⟨e, s', h₁, hp⟩ | ⟨s₁, e, s', h₁, h₂, hp⟩ |
    ⟨s₁, t, s', h₁, h₂, hp⟩ | ⟨s₁, s₂, last, s', h₁, h₂, h₃, hp⟩ <;> rw [hp]
  · exact .removeRollbackChange a c _ h₁ (.nil _)
  · exact .removeRollbackChange a c _ h₁ (.nextRollbackChange _ h₂ (.nil _))
  · exact .removeRollbackChange a c _ h₁ (.nextRollbackChange _ h₂ (.nil _))
  · exact .removeRollbackChange a c _ h₁ (.nextRollbackChange _ h₂ (.getLastLog _ h₃ (.nil _)))

theorem checkpoint_steps (a : AccountId) (c : Collection) (ch : MergedChanges)
    (us : List Update) (s : σ) :
    Steps S s (checkpoint S serialize a c ch us s).calls
      (checkpoint S serialize a c ch us s).store := by
  rcases checkpoint_cases S serialize a c ch us s with ⟨-, hp⟩ | ⟨-, hp⟩ <;> rw [hp]
  · exact .nil s
  · exact advance_steps S a c us s

theorem applyUpdates_steps (a : AccountId) (c : Collection) (ch : MergedChanges)
    (us : List Update) (s : σ) :
    Steps S s (applyUpdates S serialize a c ch us s).calls
      (applyUpdates S serialize a c ch us s).store := by
  rcases applyUpdates_cases S serialize a c ch us s with ⟨-, hp⟩ | ⟨-, e, s', h, hp⟩ |
    ⟨-, s', h, hp⟩ | ⟨-, s', h, hp⟩ <;> rw [hp]
  · exact checkpoint_steps S serialize a c ch [] s
  · exact .applyRollbackUpdates us _ h (.nil _)
  · exact .applyRollbackUpdates us _ h (.nil _)
  · exact .applyRollbackUpdates us _ h (checkpoint_steps S serialize a c _ [] s')

theorem body_steps (a : AccountId) (c : Collection) (ch : MergedChanges) (us : List Update)
    (s : σ) : Steps S s (body S serialize a c ch us s).calls (body S serialize a c ch us s).store := by
  rcases deleteInserts_cases S serialize a c (clearThread c ch) us s with ⟨-, hp⟩ |
    ⟨-, e, s', h, hp⟩ | ⟨-, s', h, hp⟩ <;> rw [body, hp]
  · exact applyUpdates_steps S serialize a c _ us s
  · exact .deleteDocuments a c _ _ h (.nil _)
  · exact .deleteDocuments a c _ _ h (applyUpdates_steps S serialize a c _ us s')

theorem handleRollbackUpdates_steps (fuel : ℕ) (a : AccountId) (c : Collection)
    (ch : MergedChanges) (us : List Update) (s : σ) :
    Steps S s (handleRollbackUpdates S serialize fuel a c ch us s).calls
      (handleRollbackUpdates S serialize fuel a c ch us s).store := by
  induction fuel generalizing a c ch us s with
  | zero => exact .nil s
  | succ fuel ih =>
    have hb := body_steps S serialize a c ch us s
    simp only [handleRollbackUpdates]
    split
    · exact hb
    · exact hb.append (ih ..)

end

end JmapServer.RollbackLoop
