import ContactDiscovery.Enclave

/-!
# A client's life: the lock and the rate-limit gate

Runs of client ECALLs on one client object, from the object `enclave_new_client` creates.

* The lock is not always released. `enclave_rate_limit` returns without `client_unlock` when the
  token check fails (and on its other bare `return`s): the client then stays `CLIENT_INUSE`,
  every later ECALL on it fails `client_get`, and `enclave_close_client` is refused with
  `err_ENCLAVE__GENERAL__CLIENT_LOCK_FAILED`, so the client is never freed
  (`enclaveRateLimit_bad_token_keeps_lock`).
* That same missing unlock is what keeps the rate-limit gate closed: the request is stored before
  the token is checked, but a client whose check failed stays locked, so `enclave_run` succeeds
  only on a request an earlier `enclave_rate_limit` call stored and accepted, and it looks up
  exactly that request's previous and new e164s (`enclaveRun_ok_after_accepted_rateLimit`).

The run-level result is carried by `ReqInvariant`, preserved by every ECALL
(`reqInvariant_step`, from `ecall_req_cases`) and so by every sequence (`reqInvariant_exec`).
-/

set_option autoImplicit false

namespace ContactDiscovery

/-- The request stored in the client memory. -/
def reqOf (m : Option Client) : Option ClientRequest := m.bind Client.req

@[simp] theorem reqOf_some (c : Client) : reqOf (some c) = c.req := rfl

/-- Running one more call. -/
theorem execCalls_append (m₀ : Option Client) (calls : List (Enclave × Ecall)) (g : Enclave)
    (e : Ecall) : execCalls m₀ (calls ++ [(g, e)]) =
      (execCalls m₀ calls).bind fun m => (ecall g e m).map Prod.fst := by
  induction calls generalizing m₀ with
  | nil =>
    simp only [List.nil_append, execCalls, Option.bind_some]
    cases ecall g e m₀ <;> rfl
  | cons x calls ih =>
    obtain ⟨g', e'⟩ := x
    simp only [List.cons_append, execCalls]
    cases ecall g' e' m₀ with
    | none => rfl
    | some r => exact ih r.1

/-! ## The lock is not released on a bad token -/

/-- An enclave for the runs below. -/
def demoEnclave : Enclave :=
  { initDone := true, clientSecret := 7, sharedSecret := [],
    getBatch := fun keys => .ok (keys.map fun k => ⟨k, 1, 0, 2, 0, 0, 0⟩),
    sha256 := fun _ => Vector.replicate 32 0 }

/-- A handshake whose noise calls all succeed. -/
def demoHandshake : HandshakeOutcome :=
  { start := .ok (), readAction := true, read := .ok (), writeAction := true, write := .ok [1],
    splitAction := true, split := .ok () }

/-- A request for one new e164 carrying a one-byte token. -/
def badTokenRequest : ClientRequest :=
  { aciUakPairs := [], prevE164s := [], newE164s := [1, 0, 0, 0, 0, 0, 0, 0], discardE164s := [],
    token := [1], tokenAck := false }

/-- An `enclave_rate_limit` whose external calls all succeed, decoding `req`. -/
def demoRateLimit (req : ClientRequest) : RateLimitOutcome :=
  { decrypt := .ok [], workspaceAlloc := true, requestNew := true, decode := fun _ => some req,
    validateAlloc := true, entropy := none, tokenAlloc := true, responseNew := true,
    plaintextAlloc := true, encode := fun _ => some [], encrypt := fun p => .ok p }

/-- The client after a successful handshake. -/
def shookClient : Client := { (Client.fresh 7) with handshake := false, send := true, recv := true }

/-- The client after `enclave_rate_limit` stored request `req`, with the lock word `state`. -/
def storedClient (req : ClientRequest) (state : ClientState) : Client :=
  { shookClient with state := state, workspace := true, req := some req }

/-- **`enclave_rate_limit` can return holding the lock** (`enc.c`, the bare
`RETURN_IF_ERROR(ratelimit_validate_received_rate_limit_token(c->req))`): on a new client that
completed its handshake, a request with a one-byte token passes `client_get`, is refused with
`INVALID_TOKEN_FORMAT`, and leaves the client `CLIENT_INUSE`; `enclave_close_client` on it is then
refused with `CLIENT_LOCK_FAILED` and the client is not freed. -/
theorem enclaveRateLimit_bad_token_keeps_lock :
    enclaveNewClient demoEnclave ⟨true, .ok (), true, true, .ok ()⟩ = (some (Client.fresh 7), .ok ()) ∧
    enclaveHandshake demoEnclave demoHandshake (some (Client.fresh 7)) =
      some (some shookClient, .ok [1]) ∧
    enclaveRateLimit demoEnclave (demoRateLimit badTokenRequest) 32 32 (some shookClient) =
      some (some (storedClient badTokenRequest .CLIENT_INUSE),
        .error .ENCLAVE__RATELIMIT__INVALID_TOKEN_FORMAT) ∧
    enclaveCloseClient demoEnclave (some (storedClient badTokenRequest .CLIENT_INUSE)) =
      (some (storedClient badTokenRequest .CLIENT_INUSE),
        .error .ENCLAVE__GENERAL__CLIENT_LOCK_FAILED) := by
  decide

/-! ## The rate-limit gate -/

section Gate

variable (m₀ : Option Client)

/-- An `enclave_rate_limit` call of `calls` found no stored request, stored `r`, and its token
check accepted `r`. -/
def StoredByAcceptedRateLimit (calls : List (Enclave × Ecall)) (r : ClientRequest) : Prop :=
  ∃ pre g o a b post m₁ m₂ res,
    calls = pre ++ (g, .rateLimit o a b) :: post ∧ execCalls m₀ pre = some m₁ ∧ reqOf m₁ = none ∧
    ecall g (.rateLimit o a b) m₁ = some (m₂, res) ∧ reqOf m₂ = some r ∧
    ratelimitValidateReceivedRateLimitToken g.sha256 g.sharedSecret o.validateAlloc r = .ok ()

/-- A stored request has valid sizes, and the request of an unlocked client was stored and
accepted by an earlier `enclave_rate_limit`. -/
def ReqInvariant (calls : List (Enclave × Ecall)) (m : Option Client) : Prop :=
  ∀ c r, m = some c → c.req = some r →
    requestSizesInvalid r = false ∧ (c.state = .CLIENT_UNUSED → StoredByAcceptedRateLimit m₀ calls r)

variable {m₀}

theorem StoredByAcceptedRateLimit.snoc {calls : List (Enclave × Ecall)} {r : ClientRequest}
    (h : StoredByAcceptedRateLimit m₀ calls r) (x : Enclave × Ecall) :
    StoredByAcceptedRateLimit m₀ (calls ++ [x]) r := by
  obtain ⟨pre, g, o, a, b, post, m₁, m₂, res, rfl, h₁⟩ := h
  exact ⟨pre, g, o, a, b, post ++ [x], m₁, m₂, res, by simp, h₁⟩

/-- **One ECALL keeps the invariant.** -/
theorem reqInvariant_step {calls : List (Enclave × Ecall)} {m m' : Option Client} {g : Enclave}
    {e : Ecall} {res : Except ErrorT EcallOutput} (hm : execCalls m₀ calls = some m)
    (hinv : ReqInvariant m₀ calls m) (he : ecall g e m = some (m', res)) :
    ReqInvariant m₀ (calls ++ [(g, e)]) m' := by
  intro c' r hc' hr
  rcases ecall_req_cases he with rfl | rfl | ⟨c, c', rfl, hst, hm', hcase⟩
  · -- the memory is unchanged
    obtain ⟨hsz, hacc⟩ := hinv c' r hc' hr
    exact ⟨hsz, fun hu => (hacc hu).snoc _⟩
  · cases hc'
  · cases hm'
    cases hc'
    rcases hcase with hkeep | ⟨o, a, b, rfl, hnone, req, hreq, hsz, hv⟩
    · -- the request is the one the client had
      obtain ⟨hsz, hacc⟩ := hinv c r rfl (hkeep ▸ hr)
      exact ⟨hsz, fun _ => (hacc hst).snoc _⟩
    · -- this call stored the request; unless the client is left locked, it was accepted
      rw [hreq] at hr
      cases hr
      refine ⟨hsz, fun hu => ?_⟩
      have hv' := hv.resolve_right (by rw [hu]; decide)
      exact ⟨calls, g, o, a, b, [], some c, some c', res, rfl, hm, by simpa using hnone, he,
        by simpa using hreq, hv'⟩

/-- **Every sequence of ECALLs on a new client keeps the invariant.** -/
theorem reqInvariant_exec (h₀ : reqOf m₀ = none) :
    ∀ (calls : List (Enclave × Ecall)) (m : Option Client),
      execCalls m₀ calls = some m → ReqInvariant m₀ calls m := by
  intro calls
  induction calls using List.reverseRecOn with
  | nil =>
    intro m hm c r hc hr
    cases hm
    cases hc
    simp [hr] at h₀
  | append_singleton calls x ih =>
    intro m' hm'
    obtain ⟨g, e⟩ := x
    rw [execCalls_append] at hm'
    obtain ⟨m, hm, he⟩ := Option.bind_eq_some_iff.1 hm'
    obtain ⟨⟨m'', res⟩, he', rfl⟩ := Option.map_eq_some_iff.1 he
    exact reqInvariant_step hm (ih m hm) he'

end Gate

/-- **`enclave_run` is gated by the rate limit**: after any sequence of client ECALLs on a client
created by `enclave_new_client` (with any external outcomes, globals and failures), an
`enclave_run` that returns success ran after an `enclave_rate_limit` call that stored a request
and whose token check (`ratelimit_validate_received_rate_limit_token`) accepted it, and the
e164s it looked up are that request's `prev_e164s` followed by its `new_e164s`. -/
theorem enclaveRun_ok_after_accepted_rateLimit {g₀ : Enclave} {o₀ : NewClientOutcome}
    {m₀ : Option Client} (hnew : enclaveNewClient g₀ o₀ = (m₀, .ok ()))
    {calls : List (Enclave × Ecall)} {m : Option Client} (hm : execCalls m₀ calls = some m)
    {g : Enclave} {o : RunOutcome} {permits : UInt32} {m' : Option Client} {out : RunOutput}
    (hrun : enclaveRun g o permits m = some (m', .ok out)) :
    ∃ pre g' o' a b post m₁ m₂ res r,
      calls = pre ++ (g', .rateLimit o' a b) :: post ∧ execCalls m₀ pre = some m₁ ∧
      reqOf m₁ = none ∧ ecall g' (.rateLimit o' a b) m₁ = some (m₂, res) ∧ reqOf m₂ = some r ∧
      ratelimitValidateReceivedRateLimitToken g'.sha256 g'.sharedSecret o'.validateAlloc r = .ok () ∧
      out.e164s = u64sOfBytes r.prevE164s ++ u64sOfBytes r.newE164s := by
  -- a new client has no request
  have h₀ : reqOf m₀ = none := by
    unfold enclaveNewClient at hnew
    repeat' split at hnew
    all_goals simp only [Prod.mk.injEq, reduceCtorEq, and_false] at hnew
    obtain ⟨rfl, -⟩ := hnew
    rfl
  have hinv := reqInvariant_exec h₀ calls m hm
  rcases withClient_cases hrun with ⟨-, e, he⟩ | ⟨c₀, c₁, rfl, hst, hb, -⟩
  · cases he
  · obtain ⟨r, hr, hout⟩ := enclaveRunBody_ok hb
    obtain ⟨hsz, hacc⟩ := hinv c₀ r rfl hr
    obtain ⟨pre, g', o', a, b, post, m₁, m₂, res, h₁, h₂, h₃, h₄, h₅, h₆⟩ := hacc hst
    -- the stored request has whole-word e164 buffers
    have hsizes : r.prevE164s.length % 8 = 0 ∧ r.newE164s.length % 8 = 0 := by
      simp only [requestSizesInvalid, Bool.or_eq_false_iff, decide_eq_false_iff_not,
        not_not] at hsz
      exact ⟨hsz.1.1.2, hsz.1.2⟩
    exact ⟨pre, g', o', a, b, post, m₁, m₂, res, r, h₁, h₂, h₃, h₄, h₅, h₆,
      hout.trans (enclaveRunE164s_eq hsizes.1 hsizes.2)⟩

/-- An `enclave_rate_limit` whose token check accepts `goodRequest` (no token, no previous
e164s) but whose entropy call fails: the request stays stored and the client is released. -/
def goodRequest : ClientRequest :=
  { aciUakPairs := [], prevE164s := [], newE164s := [1, 0, 0, 0, 0, 0, 0, 0], discardE164s := [],
    token := [], tokenAck := true }

/-- An `enclave_run` whose external calls all succeed. -/
def demoRun : RunOutcome :=
  { decrypt := .ok [], requestNew := true, decode := fun _ => some goodRequest,
    sipHash := fun _ => 0, fixedsetAlloc := true, upserts := fun _ => ⟨true, 0⟩, e164sAlloc := true,
    userRecordsAlloc := true, triplesAlloc := true, responseWorkspaceAlloc := true,
    responseNew := true, plaintextAlloc := true, encode := fun _ => some [], encrypt := fun p => .ok p }

/-- The run of the gate theorem on a handshake, a rate-limit call and a run. -/
theorem enclaveRun_ok_after_accepted_rateLimit_demo :
    ∃ pre g' o' a b post m₁ m₂ res r,
      [(demoEnclave, Ecall.handshake demoHandshake),
          (demoEnclave, Ecall.rateLimit (demoRateLimit goodRequest) 32 32)] =
        pre ++ (g', .rateLimit o' a b) :: post ∧
      execCalls (some (Client.fresh 7)) pre = some m₁ ∧ reqOf m₁ = none ∧
      ecall g' (.rateLimit o' a b) m₁ = some (m₂, res) ∧ reqOf m₂ = some r ∧
      ratelimitValidateReceivedRateLimitToken g'.sha256 g'.sharedSecret o'.validateAlloc r = .ok () ∧
      [(1 : UInt64)] = u64sOfBytes r.prevE164s ++ u64sOfBytes r.newE164s := by
  have hrun : enclaveRun demoEnclave demoRun 0 (some (storedClient goodRequest .CLIENT_UNUSED)) =
      some (some (storedClient goodRequest .CLIENT_UNUSED),
        .ok ⟨[], [1], ⟨[⟨1, 2, 0, 0, 0⟩], 0, [], 0⟩⟩) := by decide
  exact enclaveRun_ok_after_accepted_rateLimit
    (show enclaveNewClient demoEnclave ⟨true, .ok (), true, true, .ok ()⟩ =
      (some (Client.fresh 7), .ok ()) by decide)
    (show execCalls (some (Client.fresh 7)) [(demoEnclave, Ecall.handshake demoHandshake),
      (demoEnclave, Ecall.rateLimit (demoRateLimit goodRequest) 32 32)] =
      some (some (storedClient goodRequest .CLIENT_UNUSED)) by decide) hrun

end ContactDiscovery
