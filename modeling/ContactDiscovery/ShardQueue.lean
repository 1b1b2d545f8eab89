import Mathlib
import ContactDiscovery.Util
import ContactDiscovery.Lib.Ring

/-!
# Shard request queues and `shard_wait` (`sharded_ohtable/queue.c`, `shard.c`)

Each shard has a bounded queue of `QUEUE_SIZE` requests, a ring buffer under a mutex. Client
threads enqueue requests (`shard_insert`, `shard_query`, `shard_clear`, and `shard_wait` and
`shard_stop`, whose requests carry a waiter); the shard's own thread runs `shard_run`, which
takes the requests one at a time and handles each before it takes the next. `shard_wait`
returns once the shard has finished its request's waiter.

* `Queue`, `queueAddItem`, `queueNextItem`, `queueClose` — `queue.c`, each call from taking the
  mutex to releasing it as one step; a call that must wait on a condition variable has no step
  (`none`) until it can go on;
* `ShardSys`, `shardStep`, `shardRun` — one shard: its queue, `keep_alive`, where the shard
  thread is in `shard_run`, and, for the statements, the requests enqueued and handled so far
  and the waiters finished. An event is a client's enqueue of a request of some type,
  `shard_stop`'s write of `keep_alive`, `queue_close`, or a step of the shard thread; a list of
  events is an interleaving of any number of client threads with the shard thread. A request's
  `serial` is its place among the requests enqueued, so a thread's earlier requests have
  smaller serials than its later ones.

Principal result: `shardRun_requests_fifo_barrier` — in every reachable state the ring keeps its
bounds, the requests are handled in the order they were enqueued, none lost or handled twice,
nothing is enqueued once the queue is closed, and a finished waiter means that every request
enqueued before its own has been handled.
-/

set_option autoImplicit false

namespace ContactDiscovery

open Ring

/-- `QUEUE_SIZE`. -/
def QUEUE_SIZE : ℕ := 20

/-- `struct queue`: the ring `items`, `num_items`, `add`, `rem` and `closed`. The mutex and the
condition variables are the atomicity and the blocking of the steps below. -/
structure Queue (α : Type) where
  items : ℕ → α
  numItems : ℕ
  add : ℕ
  rem : ℕ
  closed : Bool

section Queue

variable {α : Type}

/-- `queue_create()`: a zero-filled queue; `null` is the zero item. -/
def queueCreate (null : α) : Queue α := ⟨fun _ => null, 0, 0, 0, false⟩

/-- `queue_close(q)`. -/
def queueClose (q : Queue α) : Queue α := { q with closed := true }

/-- `queue_add_item(q, item)`: no step while the `CHECK` on `num_items` fails or the queue is full
and open; then `err_QUEUE__CLOSED` on a closed queue, else the item goes in at `add`. -/
def queueAddItem (q : Queue α) (item : α) : Option (Queue α × Except ErrorT Unit) :=
  if q.numItems > QUEUE_SIZE then none
  else if q.numItems = QUEUE_SIZE ∧ q.closed = false then none
  else if q.closed then some (q, .error .QUEUE__CLOSED)
  else
    some ({ q with
      items := Function.update q.items q.add item
      add := (q.add + 1) % QUEUE_SIZE
      numItems := q.numItems + 1 }, .ok ())

/-- `queue_next_item(q, block)`: `null` at once when not blocking on an empty queue; otherwise no
step while the queue is empty, then the item at `rem`. -/
def queueNextItem (null : α) (q : Queue α) (block : Bool) : Option (Queue α × α) :=
  if block = true ∨ q.numItems > 0 then
    if q.numItems = 0 then none
    else
      some ({ q with rem := (q.rem + 1) % QUEUE_SIZE, numItems := q.numItems - 1 }, q.items q.rem)
  else some (q, null)

/-- The ring's bookkeeping: at most `QUEUE_SIZE` items, `rem` in range, and `add` just past the
last item. -/
def Queue.WellFormed (q : Queue α) : Prop :=
  q.numItems ≤ QUEUE_SIZE ∧ q.rem < QUEUE_SIZE ∧ q.add = (q.rem + q.numItems) % QUEUE_SIZE

/-- The items of the queue, in the order they will be taken. -/
def Queue.contents (q : Queue α) : List α := ringContents q.items QUEUE_SIZE q.rem q.numItems

theorem queueCreate_wellFormed (null : α) : (queueCreate null).WellFormed := by
  simp [queueCreate, Queue.WellFormed, QUEUE_SIZE]

theorem queueCreate_contents (null : α) : (queueCreate null).contents = [] := rfl

theorem queueClose_wellFormed {q : Queue α} (hq : q.WellFormed) : (queueClose q).WellFormed := hq

theorem queueClose_contents (q : Queue α) : (queueClose q).contents = q.contents := rfl

/-- **`queue_add_item`**: on an open queue the item joins the end; on a closed one the call fails
and changes nothing. -/
theorem queueAddItem_spec {q q' : Queue α} {item : α} {r : Except ErrorT Unit} (hq : q.WellFormed)
    (h : queueAddItem q item = some (q', r)) :
    q'.WellFormed ∧ q'.closed = q.closed ∧
      (q.closed = false ∧ r = .ok () ∧ q'.contents = q.contents ++ [item] ∨
        q.closed = true ∧ r = .error .QUEUE__CLOSED ∧ q' = q) := by
  obtain ⟨hnum, hrem, hadd⟩ := hq
  unfold queueAddItem at h
  rw [if_neg (by omega)] at h
  split_ifs at h with hfull hclosed
  · cases h
    exact ⟨⟨hnum, hrem, hadd⟩, rfl, Or.inr ⟨hclosed, rfl, rfl⟩⟩
  · cases h
    -- the queue is open and, by the first test, not full
    have hlt : q.numItems < QUEUE_SIZE := by
      by_contra hge
      exact hfull ⟨by omega, by simpa using hclosed⟩
    refine ⟨⟨show q.numItems + 1 ≤ QUEUE_SIZE by omega, hrem, ?_⟩, rfl,
      Or.inl ⟨by simpa using hclosed, rfl, ?_⟩⟩
    · show (q.add + 1) % QUEUE_SIZE = (q.rem + (q.numItems + 1)) % QUEUE_SIZE
      rw [hadd, Nat.mod_add_mod, Nat.add_assoc]
    · simp only [Queue.contents]
      rw [hadd]
      exact ringContents_push hlt item

/-- **`queue_next_item`, blocking**: it takes the first item off. -/
theorem queueNextItem_spec {null : α} {q q' : Queue α} {x : α} (hq : q.WellFormed)
    (h : queueNextItem null q true = some (q', x)) :
    q'.WellFormed ∧ q'.closed = q.closed ∧ q.contents = x :: q'.contents := by
  obtain ⟨hnum, hrem, hadd⟩ := hq
  unfold queueNextItem at h
  rw [if_pos (Or.inl rfl)] at h
  split_ifs at h with h0
  cases h
  refine ⟨⟨by simp only; omega, Nat.mod_lt _ (by decide), ?_⟩, rfl, ?_⟩
  · simp only
    rw [hadd, Nat.mod_add_mod]
    congr 1
    omega
  · exact ringContents_pop hrem (by omega)

end Queue

/-! ## One shard -/

/-- `sharded_ohtable_request_type`. -/
inductive ShardedOhtableRequestType
  | insert
  | query
  | stop
  | clear
  | wait
  deriving DecidableEq, Repr

/-- Whether a request of this type carries a waiter: those of `shard_wait` and `shard_stop`. -/
def ShardedOhtableRequestType.hasWaiter : ShardedOhtableRequestType → Bool
  | .wait | .stop => true
  | _ => false

/-- A `sharded_ohtable_request` in the queue: its type, and its `serial`, its place among the
requests enqueued (the request's own address, told apart from every other request's). -/
structure ShardedOhtableRequest where
  type : ShardedOhtableRequestType
  serial : ℕ
  deriving DecidableEq, Repr

/-- Where the shard thread is in `shard_run`. -/
inductive ShardRunPc
  /-- before `shard->keep_alive = 1` -/
  | start
  /-- at `while (shard->keep_alive)` -/
  | test
  /-- in `shard_next_request` -/
  | next
  /-- in `shard_handle_request(shard, req)` -/
  | handle (req : Option ShardedOhtableRequest)
  /-- `shard_run` has returned -/
  | exited

/-- One shard: its request queue of pointers (`none` is `NULL`), `keep_alive` and the shard
thread; and what has happened so far: the requests enqueued and handled, in order, and the
serials of the requests whose waiter is finished (`w->done`). -/
structure ShardSys where
  requests : Queue (Option ShardedOhtableRequest)
  keepAlive : Bool
  pc : ShardRunPc
  enqueued : List ShardedOhtableRequest
  handled : List ShardedOhtableRequest
  finished : List ℕ

/-- A new shard (`_create`: `keep_alive = 0`, an empty queue), its thread not yet started. -/
def ShardSys.init : ShardSys := ⟨queueCreate none, false, .start, [], [], []⟩

/-- What can happen next: a client enqueues a request of a type, `shard_stop` writes
`keep_alive = 0`, `queue_close` runs, or the shard thread takes a step. -/
inductive ShardEvent
  | enqueue (type : ShardedOhtableRequestType)
  | stopFlag
  | close
  | shard

/-- One step of `shard_run`. Handling a request finishes its waiter, and a `stop` request clears
`keep_alive`; the work on the table is `Ohtable`'s. -/
def shardRunStep (s : ShardSys) : Option ShardSys :=
  match s.pc with
  | .start => some { s with keepAlive := true, pc := .test }
  | .test => some { s with pc := if s.keepAlive then .next else .exited }
  | .next =>
    match queueNextItem none s.requests true with
    | none => none
    | some (q, req) => some { s with requests := q, pc := .handle req }
  -- `CHECK(req)`
  | .handle none => none
  | .handle (some r) =>
    some { s with
      keepAlive := if r.type = .stop then false else s.keepAlive
      pc := .test
      handled := s.handled ++ [r]
      finished := if r.type.hasWaiter then s.finished ++ [r.serial] else s.finished }
  | .exited => none

/-- One event. A client's `queue_add_item` that fails aborts on its `CHECK`. -/
def shardStep (s : ShardSys) : ShardEvent → Option ShardSys
  | .enqueue type =>
    let r : ShardedOhtableRequest := ⟨type, s.enqueued.length⟩
    match queueAddItem s.requests (some r) with
    | some (q, .ok ()) => some { s with requests := q, enqueued := s.enqueued ++ [r] }
    | _ => none
  | .stopFlag => some { s with keepAlive := false }
  | .close => some { s with requests := queueClose s.requests }
  | .shard => shardRunStep s

/-- The events `es` one after another. -/
def shardRun : ShardSys → List ShardEvent → Option ShardSys
  | s, [] => some s
  | s, e :: es => (shardStep s e).bind (shardRun · es)

/-! ## The invariant -/

/-- The request in the shard thread's hands, if any. -/
def ShardSys.inFlight (s : ShardSys) : List (Option ShardedOhtableRequest) :=
  match s.pc with
  | .handle req => [req]
  | _ => []

/-- What holds of every reachable shard: the ring is well formed; the requests enqueued are
those handled, then the one in hand, then those queued; serials count the enqueued requests;
and a finished waiter is a handled request's. -/
structure ShardSys.Inv (s : ShardSys) : Prop where
  wellFormed : s.requests.WellFormed
  fifo : s.enqueued.map some = s.handled.map some ++ s.inFlight ++ s.requests.contents
  serials : s.enqueued.map (·.serial) = List.range s.enqueued.length
  finished : ∀ n ∈ s.finished, ∃ r ∈ s.handled, r.serial = n

theorem ShardSys.inv_init : ShardSys.init.Inv :=
  ⟨queueCreate_wellFormed none, rfl, rfl, fun _ h => absurd h List.not_mem_nil⟩

/-- The shard thread's steps keep the invariant. -/
theorem shardRunStep_inv {s s' : ShardSys} (hs : s.Inv) (h : shardRunStep s = some s') : s'.Inv := by
  obtain ⟨hwf, hfifo, hser, hfin⟩ := hs
  unfold shardRunStep at h
  split at h
  · rename_i hpc
    cases h
    refine ⟨hwf, ?_, hser, hfin⟩
    simpa only [ShardSys.inFlight, hpc] using hfifo
  · rename_i hpc
    cases h
    refine ⟨hwf, ?_, hser, hfin⟩
    simp only [ShardSys.inFlight, hpc] at hfifo ⊢
    cases s.keepAlive <;> exact hfifo
  · -- taking a request moves it from the queue into the thread's hands
    rename_i hpc
    split at h
    · cases h
    · rename_i q req hnext
      cases h
      obtain ⟨hwf', -, hcontents⟩ := queueNextItem_spec hwf hnext
      refine ⟨hwf', ?_, hser, hfin⟩
      simp only [ShardSys.inFlight, hpc] at hfifo ⊢
      rw [hfifo, hcontents, List.append_nil, List.append_assoc, List.singleton_append]
  · cases h
  · -- handling it moves it on to the handled ones
    rename_i r hpc
    cases h
    refine ⟨hwf, ?_, hser, ?_⟩
    · simp only [ShardSys.inFlight, hpc] at hfifo ⊢
      rw [hfifo, List.map_append, List.map_singleton, List.append_nil]
    · show ∀ n ∈ (if r.type.hasWaiter then s.finished ++ [r.serial] else s.finished),
        ∃ r' ∈ s.handled ++ [r], r'.serial = n
      intro n hn
      -- an old waiter is an old request's; a new one is `r`'s
      have hold : n ∈ s.finished → ∃ r' ∈ s.handled ++ [r], r'.serial = n := fun hn => by
        obtain ⟨r', hr', hser'⟩ := hfin n hn
        exact ⟨r', List.mem_append_left _ hr', hser'⟩
      split at hn
      · rcases List.mem_append.1 hn with hn | hn
        · exact hold hn
        · rw [List.mem_singleton.1 hn]
          exact ⟨r, List.mem_append_right _ (List.mem_singleton_self r), rfl⟩
      · exact hold hn
  · cases h

/-- **Every event keeps the invariant.** -/
theorem shardStep_inv {s s' : ShardSys} {e : ShardEvent} (hs : s.Inv) (h : shardStep s e = some s') :
    s'.Inv := by
  cases e with
  | enqueue type =>
    unfold shardStep at h
    simp only at h
    rcases hadd : queueAddItem s.requests (some ⟨type, s.enqueued.length⟩) with _ | ⟨q, e | u⟩ <;>
      rw [hadd] at h
    · cases h
    · cases h
    · -- a successful add appends the request at the end of the queue and of the log
      cases h
      obtain ⟨hwf', -, hres⟩ := queueAddItem_spec hs.wellFormed hadd
      rcases hres with ⟨-, -, hcontents⟩ | ⟨-, hr, -⟩
      · refine ⟨hwf', ?_, ?_, hs.finished⟩
        · show (s.enqueued ++ [(⟨type, s.enqueued.length⟩ : ShardedOhtableRequest)]).map some =
            s.handled.map some ++ s.inFlight ++ q.contents
          rw [List.map_append, hs.fifo, hcontents, List.map_singleton, List.append_assoc]
        · show (s.enqueued ++ [(⟨type, s.enqueued.length⟩ : ShardedOhtableRequest)]).map (·.serial) =
            List.range (s.enqueued ++ [(⟨type, s.enqueued.length⟩ : ShardedOhtableRequest)]).length
          rw [List.map_append, hs.serials, List.length_append, List.length_singleton,
            List.range_succ, List.map_singleton]
      · cases hr
  | stopFlag =>
    cases h
    exact ⟨hs.wellFormed, hs.fifo, hs.serials, hs.finished⟩
  | close =>
    cases h
    exact ⟨queueClose_wellFormed hs.wellFormed, hs.fifo, hs.serials, hs.finished⟩
  | shard => exact shardRunStep_inv hs h

/-- **Every run keeps the invariant.** -/
theorem shardRun_inv : ∀ {s s' : ShardSys} {es : List ShardEvent}, s.Inv → shardRun s es = some s' →
    s'.Inv
  | s, s', [], hs, h => by cases h; exact hs
  | s, s', e :: es, hs, h => by
    obtain ⟨s₁, h₁, h⟩ := Option.bind_eq_some_iff.1 h
    exact shardRun_inv (shardStep_inv hs h₁) h

/-! ## What the invariant gives -/

namespace ShardSys.Inv

variable {s : ShardSys}

/-- The handled requests are the first ones enqueued, and the rest are in the thread's hands or
in the queue, in order. -/
theorem handled_prefix (hs : s.Inv) :
    ∃ rest, s.enqueued = s.handled ++ rest ∧ rest.map some = s.inFlight ++ s.requests.contents := by
  have hfifo := hs.fifo
  rw [List.append_assoc] at hfifo
  obtain ⟨l₁, l₂, hsplit, h₁, h₂⟩ := List.map_eq_append_iff.1 hfifo
  have hl₁ : l₁ = s.handled := (List.map_injective_iff.2 (Option.some_injective _)) h₁
  exact ⟨l₂, hl₁ ▸ hsplit, h₂⟩

/-- The `i`-th request enqueued has serial `i`. -/
theorem serial_getElem (hs : s.Inv) {i : ℕ} (hi : i < s.enqueued.length) :
    s.enqueued[i].serial = i := by
  have h := congrArg (fun l => l[i]?) hs.serials
  simpa [List.getElem?_range hi, hi] using h

theorem nodup (hs : s.Inv) : s.enqueued.Nodup := by
  have h := List.nodup_range (n := s.enqueued.length)
  rw [← hs.serials] at h
  exact h.of_map _

/-- An enqueued request has been handled exactly when its serial is below the number handled. -/
theorem mem_handled_iff (hs : s.Inv) {r : ShardedOhtableRequest} (hr : r ∈ s.enqueued) :
    r ∈ s.handled ↔ r.serial < s.handled.length := by
  obtain ⟨rest, hsplit, -⟩ := hs.handled_prefix
  have hlen : ∀ j, j < s.handled.length → j < s.enqueued.length := by
    intro j hj
    rw [hsplit, List.length_append]
    omega
  have hget : ∀ j (hj : j < s.handled.length) (hj' : j < s.enqueued.length),
      s.enqueued[j] = s.handled[j] := by
    intro j hj hj'
    simp only [hsplit]
    exact List.getElem_append_left hj
  constructor
  · intro hh
    obtain ⟨j, hj, rfl⟩ := List.getElem_of_mem hh
    rw [← hget j hj (hlen j hj), hs.serial_getElem]
    exact hj
  · intro hlt
    obtain ⟨i, hi, rfl⟩ := List.getElem_of_mem hr
    rw [hs.serial_getElem hi] at hlt
    rw [hget i hlt hi]
    exact List.getElem_mem hlt

/-- **The barrier**: once a waiter is finished, every request enqueued up to its own has been
handled. -/
theorem finished_barrier (hs : s.Inv) {n : ℕ} (hn : n ∈ s.finished) {r : ShardedOhtableRequest}
    (hr : r ∈ s.enqueued) (hle : r.serial ≤ n) : r ∈ s.handled := by
  -- the waiter's own request is handled, so its serial is below the number handled
  obtain ⟨w, hw, rfl⟩ := hs.finished n hn
  obtain ⟨rest, hsplit, -⟩ := hs.handled_prefix
  have hwe : w ∈ s.enqueued := by rw [hsplit]; exact List.mem_append_left _ hw
  have hwlt := (hs.mem_handled_iff hwe).1 hw
  exact (hs.mem_handled_iff hr).2 (by omega)

end ShardSys.Inv

/-- On a closed queue no event enqueues, and the queue stays closed. -/
theorem shardStep_closed {s s' : ShardSys} {e : ShardEvent} (hs : s.Inv) (hc : s.requests.closed = true)
    (h : shardStep s e = some s') : s'.requests.closed = true ∧ s'.enqueued = s.enqueued := by
  cases e with
  | enqueue type =>
    -- `queue_add_item` fails on a closed queue, and the caller's `CHECK` aborts
    unfold shardStep at h
    simp only at h
    rcases hadd : queueAddItem s.requests (some ⟨type, s.enqueued.length⟩) with _ | ⟨q, e | u⟩ <;>
      rw [hadd] at h
    · cases h
    · cases h
    · obtain ⟨-, -, hres⟩ := queueAddItem_spec hs.wellFormed hadd
      rcases hres with ⟨hopen, -, -⟩ | ⟨-, hr, -⟩
      · rw [hc] at hopen
        cases hopen
      · cases hr
  | stopFlag => cases h; exact ⟨hc, rfl⟩
  | close => cases h; exact ⟨rfl, rfl⟩
  | shard =>
    change shardRunStep s = some s' at h
    unfold shardRunStep at h
    split at h
    · cases h; exact ⟨hc, rfl⟩
    · cases h; exact ⟨hc, rfl⟩
    · split at h
      · cases h
      · rename_i q req hnext
        cases h
        exact ⟨(queueNextItem_spec hs.wellFormed hnext).2.1.trans hc, rfl⟩
    · cases h
    · cases h; exact ⟨hc, rfl⟩
    · cases h

/-- **Nothing is enqueued once the queue is closed**, in any run from then on. -/
theorem shardRun_closed : ∀ {s s' : ShardSys} {es : List ShardEvent}, s.Inv → s.requests.closed = true →
    shardRun s es = some s' → s'.enqueued = s.enqueued
  | s, s', [], _, _, h => by cases h; rfl
  | s, s', e :: es, hs, hc, h => by
    obtain ⟨s₁, h₁, h⟩ := Option.bind_eq_some_iff.1 h
    obtain ⟨hc₁, he₁⟩ := shardStep_closed hs hc h₁
    rw [shardRun_closed (shardStep_inv hs h₁) hc₁ h, he₁]

/-- **Shard queues are FIFO and `shard_wait` is a barrier.** In every state that an interleaving
of any number of clients with the shard thread reaches: the ring holds at most `QUEUE_SIZE`
requests with `add = (rem + num_items) % QUEUE_SIZE`; the requests handled are the first ones
enqueued, in order, and the others are in the thread's hands or in the queue, in order, each
once; once the queue is closed no request is enqueued any more; and once a waiter is finished,
so that its `shard_wait` returns, every request enqueued before its own has been handled. -/
theorem shardRun_requests_fifo_barrier {es : List ShardEvent} {s : ShardSys}
    (h : shardRun ShardSys.init es = some s) :
    (s.requests.numItems ≤ QUEUE_SIZE ∧
      s.requests.add = (s.requests.rem + s.requests.numItems) % QUEUE_SIZE) ∧
    (∃ rest, s.enqueued = s.handled ++ rest ∧ rest.map some = s.inFlight ++ s.requests.contents) ∧
    s.enqueued.Nodup ∧
    (s.requests.closed = true → ∀ es' s', shardRun s es' = some s' → s'.enqueued = s.enqueued) ∧
    (∀ n ∈ s.finished, ∀ r ∈ s.enqueued, r.serial ≤ n → r ∈ s.handled) := by
  have hs := shardRun_inv ShardSys.inv_init h
  exact ⟨⟨hs.wellFormed.1, hs.wellFormed.2.2⟩, hs.handled_prefix, hs.nodup,
    fun hc _ _ h' => shardRun_closed hs hc h', fun _ hn _ hr hle => hs.finished_barrier hn hr hle⟩

/-- A client queries, waits, and the shard thread handles both. -/
theorem shardRun_requests_fifo_barrier_query_wait :
    ∃ s, shardRun ShardSys.init
        [.shard, .enqueue .query, .enqueue .wait, .shard, .shard, .shard, .shard, .shard, .shard,
          .shard] = some s ∧
      ((s.requests.numItems ≤ QUEUE_SIZE ∧
        s.requests.add = (s.requests.rem + s.requests.numItems) % QUEUE_SIZE) ∧
      (∃ rest, s.enqueued = s.handled ++ rest ∧ rest.map some = s.inFlight ++ s.requests.contents) ∧
      s.enqueued.Nodup ∧
      (s.requests.closed = true → ∀ es' s', shardRun s es' = some s' → s'.enqueued = s.enqueued) ∧
      (∀ n ∈ s.finished, ∀ r ∈ s.enqueued, r.serial ≤ n → r ∈ s.handled)) := by
  have hsome : (shardRun ShardSys.init
      [.shard, .enqueue .query, .enqueue .wait, .shard, .shard, .shard, .shard, .shard, .shard,
        .shard]).isSome := by decide +kernel
  obtain ⟨s, hs⟩ := Option.isSome_iff_exists.1 hsome
  exact ⟨s, hs, shardRun_requests_fifo_barrier hs⟩

end ContactDiscovery
