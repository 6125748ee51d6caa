import JmapServer.Follower.Types

/-!
# Request correlation on one peer's channel

`cluster/rpc/request.rs` is how a node asks a peer something. `Peer::send_request` makes a
`oneshot` reply slot, sends the request with the slot's sending half as
`RpcEvent::NeedResponse` on the peer's channel, and waits on the receiving half.
`dispatch_request` sends `FireAndForget` and waits for nothing. `Request::send` is
`send_request` on a channel it is given, and returns an `Option`. `unwrap_request` and
`unwrap_response` read a wire message as one kind, with `None` on a mismatch.

The channel, the slots and the worker that reads the channel are `tokio`'s and the transport's,
not src/'s. Here they are the environment of the calls. The worker receives events in the order
they were sent, then answers, drops or holds each one, in any order. It may also stop, which
drops every event still queued or held. `answer` is the peer's answer to a request.

Over every schedule of calls and worker actions, each call that returned holds the answer to its
own request. It holds `Response::None` only when its send met a closed channel or its slot was
dropped. A call still waiting has its request on the channel or in the worker's hands
(`run_correlated`). The invariant behind this is `Inv`: a request in flight carries the slot of
the one call that sent it, which is still waiting and still empty. Nor is a call ever stuck while
the worker receives: unless its slot was dropped, some continuation of the schedule brings it the
answer to its own request (`run_answered`).
-/
namespace JmapServer.Rpc

/-- Modelled from the spec: `cluster::rpc::Request` is not under src/. `None` is the fallback of
`unwrap_request`, and `Other n` stands for each message variant. -/
inductive Request where
  | None
  | Other (payload : ℕ)
  deriving DecidableEq

/-- Modelled from the spec: a message on the wire is a request or a response. -/
inductive Protocol where
  | Request (request : Request)
  | Response (response : Response)
  deriving DecidableEq

/-- `Protocol::unwrap_request`. -/
def Protocol.unwrapRequest : Protocol → Rpc.Request
  | .Request req => req
  | _ => .None

/-- `Protocol::unwrap_response`. -/
def Protocol.unwrapResponse : Protocol → JmapServer.Response
  | .Response res => res
  | _ => .None

theorem Protocol.eq_request_or_response (p : Protocol) :
    p = .Request p.unwrapRequest ∨ p = .Response p.unwrapResponse := by
  cases p <;> simp [unwrapRequest, unwrapResponse]

/-- Modelled from the spec: an instruction to the peer's worker. A `NeedResponse` carries the
sending half of its call's reply slot, named by the index of the call that made it. -/
inductive RpcEvent where
  | NeedResponse (request : Request) (response_tx : ℕ)
  | FireAndForget (request : Request)
  deriving DecidableEq

def RpcEvent.responseTx : RpcEvent → Option ℕ
  | .NeedResponse _ tx => some tx
  | .FireAndForget _ => none

/-- A `oneshot` reply slot: empty, filled by the worker, or dropped without a reply. -/
inductive Slot where
  | pending
  | sent (response : Response)
  | dropped
  deriving DecidableEq

/-- `rx.await`: nothing yet while the slot is empty, then `Ok(response)`, or `Err` once the
sending half is dropped. -/
def Slot.recv : Slot → Option (Option Response)
  | .pending => none
  | .sent response => some (some response)
  | .dropped => some none

inductive CallState where
  | calling
  | awaiting
  | returned (outcome : Option (Option Response))
  deriving DecidableEq

/-- A call of `send_request`: the request it was made with, where its body is, and its reply
slot. -/
structure Caller where
  request : Request
  state : CallState
  slot : Slot
  deriving DecidableEq

/-- One peer's channel: whether its worker still receives, the events sent and not yet received,
the events the worker received and has not finished with, and the calls made on it. -/
structure Transport where
  receiving : Bool
  queue : List RpcEvent
  held : List RpcEvent
  callers : List Caller
  deriving DecidableEq

inductive Action where
  | call (i : ℕ)
  | wake (i : ℕ)
  | dispatch (request : Request)
  | recv
  | reply (event : RpcEvent)
  | drop (event : RpcEvent)
  | close

def setState (s : CallState) (i : ℕ) (cs : List Caller) : List Caller :=
  cs.modify (fun c => { c with state := s }) i

/-- The worker is done with event `e`: the slot a `NeedResponse` carries is left as `slot` of its
request. -/
def release (slot : Request → Slot) (cs : List Caller) : RpcEvent → List Caller
  | .NeedResponse request tx => cs.modify (fun c => { c with slot := slot request }) tx
  | .FireAndForget _ => cs

namespace Transport

def start (requests : List Request) : Transport :=
  ⟨true, [], [], requests.map fun r => ⟨r, .calling, .pending⟩⟩

def flight (t : Transport) : List RpcEvent := t.queue ++ t.held

/-- Lines 32-43: call `i` sends `NeedResponse` with its slot, or returns at once on a closed
channel. -/
def call (t : Transport) (i : ℕ) : Option Transport :=
  match t.callers[i]? with
  | some ⟨request, .calling, _⟩ =>
    if t.receiving then
      some { t with queue := t.queue ++ [.NeedResponse request i],
                    callers := setState .awaiting i t.callers }
    else some { t with callers := setState (.returned none) i t.callers }
  | _ => none

/-- Line 44: call `i`'s `rx.await` completes once its slot is filled or dropped. -/
def wake (t : Transport) (i : ℕ) : Option Transport :=
  match t.callers[i]? with
  | some ⟨_, .awaiting, slot⟩ =>
    slot.recv.map fun reply => { t with callers := setState (.returned (some reply)) i t.callers }
  | _ => none

/-- Lines 48-53, `dispatch_request`: a failed send is only logged. -/
def dispatch (t : Transport) (request : Request) : Transport :=
  if t.receiving then { t with queue := t.queue ++ [.FireAndForget request] } else t

/-- The worker receives the oldest event on the channel. -/
def recv (t : Transport) : Option Transport :=
  match t.queue with
  | [] => none
  | e :: q => some { t with queue := q, held := t.held ++ [e] }

/-- The worker finishes with an event it holds, leaving its slot as `slot` of its request. -/
def finish (t : Transport) (slot : Request → Slot) (e : RpcEvent) : Option Transport :=
  if e ∈ t.held then
    some { t with held := t.held.erase e, callers := release slot t.callers e }
  else none

/-- The worker stops: the channel closes and every event queued or held is dropped. -/
def close (t : Transport) : Transport :=
  ⟨false, [], [], t.flight.foldl (release fun _ => .dropped) t.callers⟩

variable (answer : Request → Response)

/-- One action; `none` when it cannot happen now. -/
def step (t : Transport) : Action → Option Transport
  | .call i => t.call i
  | .wake i => t.wake i
  | .dispatch request => some (t.dispatch request)
  | .recv => t.recv
  | .reply e => t.finish (fun request => .sent (answer request)) e
  | .drop e => t.finish (fun _ => .dropped) e
  | .close => some t.close

def run (t : Transport) : List Action → Transport
  | [] => t
  | a :: as => run ((t.step answer a).getD t) as

end Transport

open Transport

section
variable (answer : Request → Response)

/-- How a call that returned came out: its send met a closed channel, its slot was dropped, or
it got the answer to its own request. -/
def Settled (receiving : Bool) (c : Caller) : Option (Option Response) → Prop
  | none => receiving = false
  | some none => c.slot = .dropped
  | some (some r) => r = answer c.request

/-- What holds of call `i` on `t`. -/
structure CallerInv (t : Transport) (i : ℕ) (c : Caller) : Prop where
  calling : c.state = .calling → c.slot = .pending
  sent : ∀ r, c.slot = .sent r → r = answer c.request
  returned : ∀ o, c.state = .returned o → Settled answer t.receiving c o
  awaited : c.state = .awaiting → c.slot = .pending → .NeedResponse c.request i ∈ t.flight

/-- The invariant of a channel on which the calls `requests` were made. -/
structure Inv (requests : List Request) (t : Transport) : Prop where
  requests : t.callers.map Caller.request = requests
  callers : ∀ i c, t.callers[i]? = some c → CallerInv answer t i c
  inFlight : ∀ request tx, .NeedResponse request tx ∈ t.flight →
    ∃ c, t.callers[tx]? = some c ∧ c.request = request ∧ c.state = .awaiting ∧ c.slot = .pending
  nodup : (t.flight.filterMap RpcEvent.responseTx).Nodup

theorem Settled.mono {r r' : Bool} (hr : r = false → r' = false) {c : Caller}
    {o : Option (Option Response)} (h : Settled answer r c o) : Settled answer r' c o := by
  rcases o with _ | _ | _
  · exact hr h
  · exact h
  · exact h

theorem CallerInv.mono {t t' : Transport} {i : ℕ} {c : Caller} (h : CallerInv answer t i c)
    (hr : t.receiving = false → t'.receiving = false)
    (hf : .NeedResponse c.request i ∈ t.flight → .NeedResponse c.request i ∈ t'.flight) :
    CallerInv answer t' i c :=
  ⟨h.calling, h.sent, fun o ho => (h.returned o ho).mono answer hr,
    fun ha hp => hf (h.awaited ha hp)⟩

end

theorem getElem?_modify_cases {f : Caller → Caller} {cs : List Caller} {i j : ℕ} {c' : Caller}
    (h : (cs.modify f i)[j]? = some c') :
    (j = i ∧ ∃ c, cs[i]? = some c ∧ c' = f c) ∨ (j ≠ i ∧ cs[j]? = some c') := by
  by_cases hj : j = i
  · subst hj
    rw [List.getElem?_modify_eq, Option.map_eq_map, Option.map_eq_some'] at h
    obtain ⟨c, hc, rfl⟩ := h
    exact .inl ⟨rfl, c, hc, rfl⟩
  · rw [List.getElem?_modify_ne _ _ (Ne.symm hj)] at h
    exact .inr ⟨hj, h⟩

theorem map_request_modify {f : Caller → Caller} (hf : ∀ c, (f c).request = c.request)
    (cs : List Caller) (i : ℕ) : (cs.modify f i).map Caller.request = cs.map Caller.request := by
  refine List.ext_getElem? fun j => ?_
  simp only [List.getElem?_map, List.getElem?_modify]
  cases cs[j]? with
  | none => rfl
  | some c => by_cases h : i = j <;> simp [h, hf]

theorem map_request_release (slot : Request → Slot) (cs : List Caller) (e : RpcEvent) :
    (release slot cs e).map Caller.request = cs.map Caller.request := by
  cases e
  · simp only [release]
    exact map_request_modify (fun _ => by rfl) cs _
  · rfl

theorem getElem?_foldl_release (events : List RpcEvent) (cs : List Caller) (j : ℕ) :
    (events.foldl (release fun _ => .dropped) cs)[j]? =
      if j ∈ events.filterMap RpcEvent.responseTx then
        cs[j]?.map fun c => { c with slot := .dropped }
      else cs[j]? := by
  induction events generalizing cs with
  | nil => simp
  | cons e es ih =>
    rw [List.foldl_cons, ih]
    cases e with
    | FireAndForget r => simp [release, RpcEvent.responseTx]
    | NeedResponse r tx =>
      have htx : (RpcEvent.NeedResponse r tx :: es).filterMap RpcEvent.responseTx =
          tx :: es.filterMap RpcEvent.responseTx := rfl
      rw [htx]
      by_cases hj : j = tx
      · subst hj
        rw [if_pos (List.mem_cons_self _ _)]
        simp only [release, List.getElem?_modify_eq]
        split <;> cases cs[j]? <;> rfl
      · simp only [release, List.getElem?_modify_ne _ _ (Ne.symm hj), List.mem_cons, hj, false_or]

theorem map_request_foldl_release (events : List RpcEvent) (cs : List Caller) :
    (events.foldl (release fun _ => .dropped) cs).map Caller.request = cs.map Caller.request := by
  induction events generalizing cs with
  | nil => rfl
  | cons e es ih => rw [List.foldl_cons, ih, map_request_release]

section
variable {answer : Request → Response} {requests : List Request} {t t' : Transport}

theorem inv_start (answer : Request → Response) (requests : List Request) :
    Inv answer requests (start requests) where
  requests := by simp [start, Function.comp_def]
  callers i c hc := by
    simp only [start, List.getElem?_map, Option.map_eq_some'] at hc
    obtain ⟨r, -, rfl⟩ := hc
    exact ⟨fun _ => rfl, fun _ h => (by cases h), fun _ h => (by cases h), fun h => (by cases h)⟩
  inFlight _ _ h := by simp [flight, start] at h
  nodup := by simp [flight, start]

/-- A step that keeps the calls and the channel's state, and the events in flight up to order
and to `FireAndForget`, keeps the invariant. -/
theorem Inv.frame (h : Inv answer requests t) (hc : t'.callers = t.callers)
    (hr : t'.receiving = t.receiving)
    (hm : ∀ request tx, .NeedResponse request tx ∈ t'.flight ↔ .NeedResponse request tx ∈ t.flight)
    (hp : (t'.flight.filterMap RpcEvent.responseTx).Perm (t.flight.filterMap RpcEvent.responseTx)) :
    Inv answer requests t' where
  requests := hc ▸ h.requests
  callers i c hi := (h.callers i c (hc ▸ hi)).mono answer (fun h' => hr ▸ h') (hm _ _).2
  inFlight request tx hf := hc ▸ h.inFlight request tx ((hm _ _).1 hf)
  nodup := hp.nodup_iff.2 h.nodup

theorem Inv.not_mem_txs (h : Inv answer requests t) {i : ℕ} {c : Caller}
    (hc : t.callers[i]? = some c) (hw : c.state = .awaiting → c.slot ≠ .pending) :
    i ∉ t.flight.filterMap RpcEvent.responseTx := by
  intro hi
  obtain ⟨e, he, hei⟩ := List.mem_filterMap.1 hi
  cases e with
  | FireAndForget _ => cases hei
  | NeedResponse r tx =>
    cases hei
    obtain ⟨c', hc', -, hs, hp⟩ := h.inFlight r i he
    rw [hc] at hc'
    cases hc'
    exact hw hs hp

/-- A call's body moving on while the channel is untouched keeps the invariant, when no event in
flight carries the call's slot and the call's new state keeps its own part. -/
theorem Inv.of_setState (h : Inv answer requests t) {i : ℕ} {c : Caller} {s : CallState}
    (hc : t.callers[i]? = some c) (hi : i ∉ t.flight.filterMap RpcEvent.responseTx)
    (hnew : CallerInv answer t i { c with state := s }) :
    Inv answer requests { t with callers := setState s i t.callers } := by
  refine ⟨(map_request_modify (fun _ => by rfl) _ _).trans h.requests, fun j c' hj => ?_,
    fun r tx hf => ?_, h.nodup⟩
  · rcases getElem?_modify_cases hj with ⟨rfl, c₀, hc', rfl⟩ | ⟨-, hj⟩
    · rw [hc] at hc'
      cases hc'
      exact hnew.mono answer id id
    · exact (h.callers j c' hj).mono answer id id
  · have htx : tx ≠ i := fun hti => hi (List.mem_filterMap.2 ⟨_, hf, by rw [hti]; rfl⟩)
    rw [setState, List.getElem?_modify_ne _ _ htx.symm]
    exact h.inFlight r tx hf

theorem Inv.call (h : Inv answer requests t) {i : ℕ} (hs : t.call i = some t') :
    Inv answer requests t' := by
  unfold Transport.call at hs
  split at hs
  case h_2 => cases hs
  rename_i request slot hc
  have hcall := h.callers i _ hc
  have hpend : slot = .pending := hcall.calling rfl
  have hi := h.not_mem_txs hc (fun h => (by cases h))
  have hne : ∀ r tx, .NeedResponse r tx ∈ t.flight → tx ≠ i := fun r tx hf hti =>
    hi (List.mem_filterMap.2 ⟨_, hf, by rw [hti]; rfl⟩)
  split at hs <;> cases hs
  · rename_i hrec
    have hperm : ((t.queue ++ [RpcEvent.NeedResponse request i]) ++ t.held).Perm
        (.NeedResponse request i :: t.flight) := by
      rw [List.append_assoc, List.singleton_append]
      exact List.perm_middle
    have hmem (e : RpcEvent) : e ∈ (t.queue ++ [RpcEvent.NeedResponse request i]) ++ t.held ↔
        e = .NeedResponse request i ∨ e ∈ t.flight := by
      rw [hperm.mem_iff, List.mem_cons]
    refine ⟨(map_request_modify (fun _ => by rfl) _ _).trans h.requests, fun j c' hj => ?_,
      fun r tx hf => ?_, ?_⟩
    · rcases getElem?_modify_cases hj with ⟨rfl, c, hc', rfl⟩ | ⟨hji, hj⟩
      · rw [hc] at hc'
        cases hc'
        exact ⟨fun h => (by cases h), fun _ h => (by rw [hpend] at h; cases h),
          fun _ h => (by cases h), fun _ _ => (hmem _).2 (.inl rfl)⟩
      · exact (h.callers j c' hj).mono answer (fun h => h) fun hf => (hmem _).2 (.inr hf)
    · rcases (hmem _).1 hf with he | hf
      · cases he
        simp [setState, List.getElem?_modify_eq, hc, hpend]
      · rw [setState, List.getElem?_modify_ne _ _ (hne r tx hf).symm]
        exact h.inFlight r tx hf
    · refine (hperm.filterMap _).nodup_iff.2 ?_
      exact List.nodup_cons.2 ⟨hi, h.nodup⟩
  · rename_i hrec
    exact h.of_setState hc hi ⟨fun h => (by cases h), fun _ h => (by rw [hpend] at h; cases h),
      fun o ho => (by cases ho; simpa using hrec), fun h => (by cases h)⟩

theorem Inv.wake (h : Inv answer requests t) {i : ℕ} (hs : t.wake i = some t') :
    Inv answer requests t' := by
  unfold Transport.wake at hs
  split at hs
  case h_2 => cases hs
  rename_i request slot hc
  obtain ⟨reply, hreply, rfl⟩ := Option.map_eq_some'.1 hs
  have hcall := h.callers i _ hc
  have hi := h.not_mem_txs hc fun _ (hp : slot = .pending) => by rw [hp] at hreply; cases hreply
  refine h.of_setState hc hi ⟨fun h => (by cases h), hcall.sent, fun o ho => ?_, fun h => (by cases h)⟩
  cases ho
  rcases slot with _ | r | _ <;> cases hreply
  · exact hcall.sent r rfl
  · rfl

theorem Inv.dispatch (h : Inv answer requests t) (request : Request) :
    Inv answer requests (t.dispatch request) := by
  unfold Transport.dispatch
  split
  · refine h.frame rfl rfl (fun r tx => ?_) ?_ <;>
      simp [flight, List.filterMap_append, RpcEvent.responseTx]
  · exact h

theorem Inv.recv (h : Inv answer requests t) (hs : t.recv = some t') : Inv answer requests t' := by
  unfold Transport.recv at hs
  split at hs
  · cases hs
  rename_i e q hq
  cases hs
  have hp : (q ++ (t.held ++ [e])).Perm t.flight := by
    rw [flight, hq, ← List.append_assoc]
    exact List.perm_append_singleton e (q ++ t.held)
  exact h.frame rfl rfl (fun _ _ => hp.mem_iff) (hp.filterMap _)

/-- The worker finishing with an event it holds, by a reply or by dropping it, keeps the
invariant, whatever it leaves in the slot, as long as a filled slot holds the answer. -/
theorem Inv.finish (h : Inv answer requests t) {slot : Request → Slot}
    (hne : ∀ r, slot r ≠ .pending) (hsent : ∀ r x, slot r = .sent x → x = answer r)
    {e : RpcEvent} (hs : t.finish slot e = some t') : Inv answer requests t' := by
  unfold Transport.finish at hs
  split at hs
  case isFalse => cases hs
  rename_i he
  cases hs
  have hp : t.flight.Perm (e :: (t.queue ++ t.held.erase e)) :=
    ((List.perm_cons_erase he).append_left t.queue).trans List.perm_middle
  have hmem (e' : RpcEvent) : e' ∈ t.flight ↔ e' = e ∨ e' ∈ t.queue ++ t.held.erase e := by
    rw [hp.mem_iff, List.mem_cons]
  cases e with
  | FireAndForget r =>
    have hp' := (hp.filterMap RpcEvent.responseTx).symm
    rw [List.filterMap_cons_none rfl] at hp'
    exact h.frame rfl rfl (fun r' tx => ⟨fun hf => (hmem _).2 (.inr hf),
      fun hf => ((hmem _).1 hf).resolve_left fun h => (by cases h)⟩) hp'
  | NeedResponse r tx =>
    have hnd : (tx :: (t.queue ++ t.held.erase (.NeedResponse r tx)).filterMap
        RpcEvent.responseTx).Nodup := (hp.filterMap RpcEvent.responseTx).nodup_iff.1 h.nodup
    rw [List.nodup_cons] at hnd
    obtain ⟨c, hc, rfl, haw, hpend⟩ := h.inFlight r tx ((hmem _).2 (.inl rfl))
    have hother : ∀ r' tx', .NeedResponse r' tx' ∈ t.queue ++ t.held.erase (.NeedResponse c.request tx) →
        tx' ≠ tx := fun r' tx' hf htx => hnd.1 (List.mem_filterMap.2 ⟨_, hf, by rw [htx]; rfl⟩)
    refine ⟨(map_request_release slot t.callers (.NeedResponse c.request tx)).trans h.requests,
      fun j c' hj => ?_,
      fun r' tx' hf => ?_, hnd.2⟩
    · rcases getElem?_modify_cases hj with ⟨rfl, c₀, hc', rfl⟩ | ⟨hji, hj⟩
      · rw [hc] at hc'
        cases hc'
        refine ⟨fun h => (by rw [haw] at h; cases h), hsent _, fun o ho => ?_,
          fun _ hp' => absurd hp' (hne _)⟩
        rw [haw] at ho
        cases ho
      · exact (h.callers j c' hj).mono answer id fun hf =>
          ((hmem _).1 hf).resolve_left fun he' => hji (RpcEvent.NeedResponse.inj he').2
    · rw [release, List.getElem?_modify_ne _ _ (hother r' tx' hf).symm]
      exact h.inFlight r' tx' ((hmem _).2 (.inr hf))

theorem Inv.close (h : Inv answer requests t) : Inv answer requests t.close where
  requests := (map_request_foldl_release _ _).trans h.requests
  callers j c' hj := by
    rw [Transport.close, getElem?_foldl_release] at hj
    split at hj
    · rename_i hjm
      obtain ⟨e, he, hej⟩ := List.mem_filterMap.1 hjm
      cases e with
      | FireAndForget _ => cases hej
      | NeedResponse r tx =>
        cases hej
        obtain ⟨c, hc, -, haw, -⟩ := h.inFlight r j he
        rw [hc] at hj
        cases hj
        exact ⟨fun h => (by rw [haw] at h; cases h), fun _ h => (by cases h),
          fun _ h => (by rw [haw] at h; cases h), fun _ h => (by cases h)⟩
    · rename_i hjm
      refine ⟨(h.callers j c' hj).calling, (h.callers j c' hj).sent,
        fun o ho => ((h.callers j c' hj).returned o ho).mono answer fun _ => rfl,
        fun ha hp => absurd ?_ hjm⟩
      exact List.mem_filterMap.2 ⟨_, (h.callers j c' hj).awaited ha hp, rfl⟩
  inFlight _ _ hf := by simp [flight, Transport.close] at hf
  nodup := by simp [flight, Transport.close]

theorem Inv.getD (h : Inv answer requests t) {x : Option Transport}
    (hx : ∀ t', x = some t' → Inv answer requests t') : Inv answer requests (x.getD t) := by
  cases x with
  | none => exact h
  | some t' => exact hx t' rfl

theorem Inv.step (h : Inv answer requests t) (a : Action) :
    Inv answer requests ((t.step answer a).getD t) := by
  cases a with
  | call i => exact h.getD fun _ => h.call
  | wake i => exact h.getD fun _ => h.wake
  | dispatch r => exact h.dispatch r
  | recv => exact h.getD fun _ => h.recv
  | reply e => exact h.getD fun _ => h.finish (fun _ h => by cases h) fun _ _ hx => by cases hx; rfl
  | drop e => exact h.getD fun _ => h.finish (fun _ h => by cases h) fun _ _ hx => by cases hx
  | close => exact h.close

theorem Inv.run (h : Inv answer requests t) (sched : List Action) :
    Inv answer requests (t.run answer sched) := by
  induction sched generalizing t with
  | nil => exact h
  | cons a as ih => exact ih (h.step a)

end

namespace Transport
variable (answer : Request → Response)

theorem run_append (t : Transport) (s₁ s₂ : List Action) :
    t.run answer (s₁ ++ s₂) = (t.run answer s₁).run answer s₂ := by
  induction s₁ generalizing t with
  | nil => rfl
  | cons a as ih => exact ih _

theorem run_recv (t : Transport) {n : ℕ} (hn : n ≤ t.queue.length) :
    t.run answer (List.replicate n .recv) =
      { t with queue := t.queue.drop n, held := t.held ++ t.queue.take n } := by
  induction n generalizing t with
  | zero => simp [run]
  | succ n ih =>
    obtain ⟨e, q, hq⟩ := List.exists_cons_of_length_pos (Nat.lt_of_lt_of_le n.succ_pos hn)
    rw [hq] at hn
    rw [List.replicate_succ, run, step, recv, hq, Option.getD_some,
      ih { t with queue := q, held := t.held ++ [e] } (by simpa using hn)]
    simp [hq]

end Transport

section
variable {answer : Request → Response} {requests : List Request} {t : Transport}

theorem Inv.answered_of_held (h : Inv answer requests t) {i : ℕ} {c : Caller}
    (hc : t.callers[i]? = some c) (hheld : .NeedResponse c.request i ∈ t.held) :
    (t.run answer [.reply (.NeedResponse c.request i), .wake i]).callers[i]? =
      some ⟨c.request, .returned (some (some (answer c.request))), .sent (answer c.request)⟩ := by
  obtain ⟨c', hc', -, haw, hpend⟩ := h.inFlight _ i (List.mem_append_right _ hheld)
  rw [hc] at hc'
  cases hc'
  obtain ⟨request, state, slot⟩ := c
  cases haw
  cases hpend
  simp only at hheld
  simp only [Transport.run, Transport.step, Transport.finish, if_pos hheld, Option.getD_some,
    release, Transport.wake, List.getElem?_modify_eq, hc, Option.map_eq_map, Option.map_some',
    Slot.recv, setState]

theorem Inv.answered_of_waiting (h : Inv answer requests t) {i : ℕ} {c : Caller}
    (hc : t.callers[i]? = some c) (haw : c.state = .awaiting) (hpend : c.slot = .pending) :
    ∃ more, (t.run answer more).callers[i]? =
      some ⟨c.request, .returned (some (some (answer c.request))), .sent (answer c.request)⟩ := by
  rcases List.mem_append.1 ((h.callers i c hc).awaited haw hpend) with hq | hheld
  · obtain ⟨pre, post, hq⟩ := List.append_of_mem hq
    have hlen : pre.length + 1 ≤ t.queue.length := by simp [hq]
    have h₂ := h.run (List.replicate (pre.length + 1) .recv)
    rw [Transport.run_recv answer t hlen] at h₂
    refine ⟨List.replicate (pre.length + 1) .recv ++ [.reply (.NeedResponse c.request i), .wake i],
      ?_⟩
    rw [Transport.run_append, Transport.run_recv answer t hlen]
    exact h₂.answered_of_held hc (by simp [hq, List.take_append_eq_append_take])
  · exact ⟨_, h.answered_of_held hc hheld⟩

/-- While the worker still receives, a call that has not returned and whose slot was not dropped
can still get the answer to its own request: some continuation of the schedule brings it. -/
theorem Inv.answered (h : Inv answer requests t) (hopen : t.receiving = true) {i : ℕ}
    {c : Caller} (hc : t.callers[i]? = some c) (hnot : ∀ o, c.state ≠ .returned o)
    (hdrop : c.slot ≠ .dropped) :
    ∃ more, (t.run answer more).callers[i]? =
      some ⟨c.request, .returned (some (some (answer c.request))), .sent (answer c.request)⟩ := by
  obtain ⟨request, state, slot⟩ := c
  cases state with
  | returned o => exact absurd rfl (hnot o)
  | calling =>
    obtain rfl : slot = .pending := (h.callers i _ hc).calling rfl
    have hs : t.call i = some ⟨t.receiving, t.queue ++ [.NeedResponse request i], t.held,
        setState .awaiting i t.callers⟩ := by
      simp [Transport.call, hc, hopen]
    have hc₁ : (setState .awaiting i t.callers)[i]? = some ⟨request, .awaiting, .pending⟩ := by
      simp [setState, List.getElem?_modify_eq, hc]
    obtain ⟨more, hm⟩ := (h.call hs).answered_of_waiting hc₁ rfl rfl
    exact ⟨.call i :: more, by rw [Transport.run, Transport.step, hs]; exact hm⟩
  | awaiting =>
    cases slot with
    | pending => exact h.answered_of_waiting hc rfl rfl
    | sent r =>
      have hr : r = answer request := (h.callers i _ hc).sent r rfl
      subst hr
      exact ⟨[.wake i], by
        simp [Transport.run, Transport.step, Transport.wake, hc, Slot.recv, setState,
          List.getElem?_modify_eq]⟩
    | dropped => exact absurd rfl hdrop

end

/-- Over every schedule, while the peer's worker still receives, a call of `send_request` that
has not returned and whose slot was not dropped can still return the answer to its own request:
some continuation of the schedule brings it. -/
theorem run_answered (answer : Request → Response) (requests : List Request)
    (sched : List Action) {i : ℕ} {c : Caller}
    (hc : ((start requests).run answer sched).callers[i]? = some c)
    (hopen : ((start requests).run answer sched).receiving = true)
    (hnot : ∀ o, c.state ≠ .returned o) (hdrop : c.slot ≠ .dropped) :
    ∃ more, (((start requests).run answer sched).run answer more).callers[i]? =
      some ⟨c.request, .returned (some (some (answer c.request))), .sent (answer c.request)⟩ :=
  ((inv_start answer requests).run sched).answered hopen hc hnot hdrop

theorem waiting_call_answered :
    ((start [.Other 1, .Other 2]).run
        (fun | .None => .None | .Other n => .AppendEntries (.Match ⟨0, n⟩))
        [.call 0, .call 1, .recv]).callers[1]? = some ⟨.Other 2, .awaiting, .pending⟩ ∧
    ((start [.Other 1, .Other 2]).run
        (fun | .None => .None | .Other n => .AppendEntries (.Match ⟨0, n⟩))
        [.call 0, .call 1, .recv]).receiving = true ∧
    (∀ o, CallState.awaiting ≠ .returned o) ∧ Slot.pending ≠ .dropped ∧
    ∃ more, (((start [.Other 1, .Other 2]).run
        (fun | .None => .None | .Other n => .AppendEntries (.Match ⟨0, n⟩))
        [.call 0, .call 1, .recv]).run
        (fun | .None => .None | .Other n => .AppendEntries (.Match ⟨0, n⟩)) more).callers[1]? =
      some ⟨.Other 2, .returned (some (some (.AppendEntries (.Match ⟨0, 2⟩)))),
        .sent (.AppendEntries (.Match ⟨0, 2⟩))⟩ :=
  have h : ((start [.Other 1, .Other 2]).run
      (fun | .None => .None | .Other n => .AppendEntries (.Match ⟨0, n⟩))
      [.call 0, .call 1, .recv]).callers[1]? = some ⟨.Other 2, .awaiting, .pending⟩ := rfl
  ⟨h, rfl, fun _ h => (by cases h), fun h => (by cases h),
    run_answered _ _ _ h rfl (fun _ h => (by cases h)) fun h => (by cases h)⟩

end JmapServer.Rpc
