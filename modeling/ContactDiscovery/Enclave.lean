import ContactDiscovery.Ratelimit
import ContactDiscovery.AciPniUakHelpers

/-!
# `enclave/enc.c`: the per-client ECALLs

A client is a heap object `client_t` whose `state` word (`CLIENT_UNUSED`, `CLIENT_INUSE`,
`CLIENT_DELETE`) is a lock taken by compare-and-swap: every client ECALL starts with
`client_get`, which moves `UNUSED → INUSE`, and is meant to end at `client_unlock`, which moves
it back. `enclave_close_client` moves `UNUSED → DELETE` and frees the object.

The model follows one client object: `Option Client` is the memory at the client's id (`none`
once freed). Each ECALL is a function of the enclave globals (`Enclave`), of the outcomes of
the external calls it makes (noise-c, pbtools, `oe_random`, `calloc`: one `…Outcome` record per
call) and of the client memory, and returns the new memory and the result. Noise cipher and
handshake states are external: the model keeps whether each pointer is set. `enclave_run` reads
the table through `Enclave.getBatch`, the call `sharded_ohtable_get_batch(g_table, …)`.

* `clientSetstate`, `clientGet`, `clientRelease`, `clientRemove`;
* `enclaveHandshake`, `enclaveRateLimit`, `enclaveRun`, `enclaveRetryResponse`,
  `enclaveCloseClient`, `enclaveNewClient`;
* `ecall`, `execCalls` — a sequence of ECALLs on the client.

Principal results:

* `enclaveRunE164s_eq` — the branch-free merge loop of `enclave_run` is `prev ++ new`;
* `ecall_req_cases` — what one ECALL can do to the stored request: keep it, or (only in
  `enclave_rate_limit`, on a client without one) set it, in which case the token check accepted
  it or the client stays locked.
-/

set_option autoImplicit false

namespace ContactDiscovery

/-- `CLIENT_UNUSED`, `CLIENT_INUSE`, `CLIENT_DELETE`. -/
inductive ClientState where
  | CLIENT_UNUSED
  | CLIENT_INUSE
  | CLIENT_DELETE
  deriving DecidableEq, Repr

/-- `client_t`: the canary, the lock word, whether `workspace`, `handshake`, `send` and `recv`
are set, and the request `req` stored by `enclave_rate_limit`. -/
structure Client where
  canary : UInt64
  state : ClientState
  workspace : Bool
  req : Option ClientRequest
  handshake : Bool
  send : Bool
  recv : Bool
  deriving DecidableEq, Repr

/-- `struct org_signal_cdsi_client_response_t`: the `ClientResponse` message. -/
structure ClientResponse where
  e164PniAciTriples : List E164PniAciTriple
  retryAfterSecs : UInt32
  token : List UInt8
  debugPermitsUsed : UInt32
  deriving DecidableEq, Repr

/-- The enclave globals the client ECALLs read: `g_init_done == ENCLAVE_INIT_INITIALIZED`,
`g_client_secret`, the rate-limit shared secret, `sharded_ohtable_get_batch` on `g_table`, and
SHA-256. -/
structure Enclave where
  initDone : Bool
  clientSecret : UInt64
  sharedSecret : List UInt8
  getBatch : List UInt64 → Except ErrorT (List SignalUserRecord)
  sha256 : List UInt8 → Vector UInt8 32

/-! ## The client lock -/

/-- `client_setstate(c, from, to)`: the compare-and-swap of the lock word. -/
def clientSetstate (c : Client) (fromState toState : ClientState) : Except ErrorT Client :=
  if c.state = fromState then .ok { c with state := toState }
  else .error .ENCLAVE__GENERAL__CLIENT_LOCK_FAILED

/-- `client_get(id, &c)`: the id must name a live client with the right canary, which is then
locked. -/
def clientGet (g : Enclave) : Option Client → Except ErrorT Client
  | none => .error .ENCLAVE__GENERAL__CLIENT_GET_FAILED
  | some c =>
    if c.canary ≠ g.clientSecret then .error .ENCLAVE__GENERAL__CLIENT_GET_FAILED
    else clientSetstate c .CLIENT_UNUSED .CLIENT_INUSE

/-- `client_unlock: client_setstate(c, CLIENT_INUSE, CLIENT_UNUSED)`, whose result the ECALLs
ignore. -/
def clientRelease (c : Client) : Client :=
  match clientSetstate c .CLIENT_INUSE .CLIENT_UNUSED with
  | .ok c' => c'
  | .error _ => c

/-- The prologue shared by the client ECALLs: `RETURN_IF_ERROR(check_init_complete())` and
`RETURN_IF_ERROR(client_get(cli, &c))`, then the body on the locked client; the body returns
the client as it leaves it (released or not) and the result. -/
def withClient {α : Type} (g : Enclave) (m : Option Client)
    (body : Client → Option (Client × Except ErrorT α)) : Option (Option Client × Except ErrorT α) :=
  if !g.initDone then some (m, .error .ENCLAVE__GENERAL__NOINIT)
  else match clientGet g m with
    | .error e => some (m, .error e)
    | .ok c => (body c).map fun r => (some r.1, r.2)

/-- A fresh client, as `enclave_new_client` leaves it: unlocked, with a handshake state and
nothing else. -/
def Client.fresh (secret : UInt64) : Client :=
  { canary := secret, state := .CLIENT_UNUSED, workspace := false, req := none,
    handshake := true, send := false, recv := false }

/-! ## The ECALLs -/

/-- The outcomes of the noise calls of `enclave_handshake`: `noise_handshakestate_start`, the
three `get_action` checks, `read_message`, `write_message` (the reply) and `split`. -/
structure HandshakeOutcome where
  start : Except ErrorT Unit
  readAction : Bool
  read : Except ErrorT Unit
  writeAction : Bool
  write : Except ErrorT (List UInt8)
  splitAction : Bool
  split : Except ErrorT Unit

/-- The body of `enclave_handshake`: every exit goes through `client_unlock`. -/
def enclaveHandshakeBody (o : HandshakeOutcome) (c : Client) : Client × Except ErrorT (List UInt8) :=
  if !c.handshake then (clientRelease c, .error .ENCLAVE__GENERAL__CLIENT_STATE)
  else match o.start with
  | .error e => (clientRelease c, .error e)
  | .ok () =>
    if !o.readAction then (clientRelease c, .error .ENCLAVE__HANDSHAKE__INVALID_STATE)
    else match o.read with
    | .error e => (clientRelease c, .error e)
    | .ok () =>
      if !o.writeAction then (clientRelease c, .error .ENCLAVE__HANDSHAKE__INVALID_STATE)
      else match o.write with
      | .error e => (clientRelease c, .error e)
      | .ok msg =>
        if !o.splitAction then (clientRelease c, .error .ENCLAVE__HANDSHAKE__INVALID_STATE)
        else match o.split with
        | .error e => (clientRelease c, .error e)
        | .ok () =>
          -- `split` sets `send` and `recv`; the handshake state is freed
          (clientRelease { c with send := true, recv := true, handshake := false }, .ok msg)

/-- `enclave_handshake(cli, …)`: the reply message. -/
def enclaveHandshake (g : Enclave) (o : HandshakeOutcome) (m : Option Client) :
    Option (Option Client × Except ErrorT (List UInt8)) :=
  withClient g m fun c => some (enclaveHandshakeBody o c)

/-- The outcomes of the external calls of `enclave_retry_response`. -/
structure RetryOutcome where
  responseNew : Bool
  plaintextAlloc : Bool
  encode : ClientResponse → Option (List UInt8)
  encrypt : List UInt8 → Except ErrorT (List UInt8)

/-- The body of `enclave_retry_response`: every exit goes through `client_unlock`. -/
def enclaveRetryResponseBody (o : RetryOutcome) (retryAfterSecs : UInt32) (c : Client) :
    Client × Except ErrorT (List UInt8) :=
  if !c.send || !c.recv then (clientRelease c, .error .ENCLAVE__GENERAL__CLIENT_STATE)
  else if !o.responseNew then
    (clientRelease c, .error .ENCLAVE__RETRYRESPONSE__RESPONSE_PB_NEW)
  else if !o.plaintextAlloc then (clientRelease c, .error .OOM)
  else match o.encode ⟨[], retryAfterSecs, [], 0⟩ with
  | none => (clientRelease c, .error .ENCLAVE__RETRYRESPONSE__RESPONSE_PB_ENCODE)
  | some plaintext => (clientRelease c, o.encrypt plaintext)

/-- `enclave_retry_response(cli, retry_after_secs, …)`. -/
def enclaveRetryResponse (g : Enclave) (o : RetryOutcome) (retryAfterSecs : UInt32)
    (m : Option Client) : Option (Option Client × Except ErrorT (List UInt8)) :=
  withClient g m fun c => some (enclaveRetryResponseBody o retryAfterSecs c)

/-- The outcomes of the external calls of `enclave_rate_limit`: decryption, the workspace
`calloc`, `client_request_new`, the decoding of the plaintext, the `calloc` of
`ratelimit_merge_e164s` during validation and during the new token, `oe_random` for the new
token's entropy, `client_response_new`, the plaintext `calloc`, encoding and encryption. -/
structure RateLimitOutcome where
  decrypt : Except ErrorT (List UInt8)
  workspaceAlloc : Bool
  requestNew : Bool
  decode : List UInt8 → Option ClientRequest
  validateAlloc : Bool
  entropy : Option (Vector UInt8 32)
  tokenAlloc : Bool
  responseNew : Bool
  plaintextAlloc : Bool
  encode : ClientResponse → Option (List UInt8)
  encrypt : List UInt8 → Except ErrorT (List UInt8)

/-- What `enclave_rate_limit` returns: the encrypted response, the two token hashes and
`computed_request_size`. -/
structure RateLimitOutput where
  out : List UInt8
  oldTokenHash : List UInt8
  newTokenHash : List UInt8
  computedRequestSize : ℕ
  deriving DecidableEq, Repr

/-- The array-size preconditions `enclave_rate_limit` checks on a decoded request. -/
def requestSizesInvalid (req : ClientRequest) : Bool :=
  req.aciUakPairs.length % 32 ≠ 0 || req.prevE164s.length % 8 ≠ 0 ||
    req.newE164s.length % 8 ≠ 0 || req.newE164s.length + req.prevE164s.length = 0

/-- The body of `enclave_rate_limit`. The early exits after the workspace is allocated (request
creation, decoding, the size check) and the token check use a bare `return`, which leaves the
client locked; the others go through `client_unlock`. -/
def enclaveRateLimitBody (g : Enclave) (o : RateLimitOutcome) (oldTokenHashSize newTokenHashSize : ℕ)
    (c : Client) : Client × Except ErrorT RateLimitOutput :=
  if c.req.isSome || !c.send || !c.recv || c.workspace then
    (clientRelease c, .error .ENCLAVE__GENERAL__CLIENT_STATE)
  else if oldTokenHashSize < RATELIMIT_TOKENHASH_SIZE then
    (clientRelease c, .error .ENCLAVE__RATELIMIT__BAD_OUTPUT)
  else if newTokenHashSize < RATELIMIT_TOKENHASH_SIZE then
    (clientRelease c, .error .ENCLAVE__RATELIMIT__BAD_OUTPUT)
  else match o.decrypt with
  | .error e => (clientRelease c, .error e)
  | .ok plaintext =>
    if !o.workspaceAlloc then (clientRelease c, .error .OOM)
    else
    let c := { c with workspace := true }
    if !o.requestNew then (c, .error .ENCLAVE__RATELIMIT__REQUEST_PB_NEW)
    else match o.decode plaintext with
    | none => (c, .error .ENCLAVE__RATELIMIT__REQUEST_PB_DECODE)
    | some req =>
      if requestSizesInvalid req then (c, .error .ENCLAVE__RATELIMIT__REQUEST_PB_INVALID)
      else
      -- `c->req = req` is stored before the token is checked
      let c := { c with req := some req }
      match ratelimitValidateReceivedRateLimitToken g.sha256 g.sharedSecret o.validateAlloc req with
      | .error e => (c, .error e)
      | .ok () =>
        let computedRequestSize := req.newE164s.length >>> 3
        match o.entropy with
        | none => (clientRelease c, .error .ENCLAVE__GENERAL__ENTROPY)
        | some entropy =>
          let newToken := RATELIMIT_VERSION :: entropy.toList ++ List.replicate RATELIMIT_HASH_SIZE 0
          match ratelimitComputeToken g.sha256 g.sharedSecret o.tokenAlloc req.prevE164s
              req.newE164s newToken with
          | .error e => (clientRelease c, .error e)
          | .ok newToken =>
            let oldTokenHash :=
              if req.token.length = 0 then [] else ratelimitTokenHash g.sha256 req.token
            let newTokenHash := ratelimitTokenHash g.sha256 newToken
            if !o.responseNew then (clientRelease c, .error .ENCLAVE__RATELIMIT__RESPONSE_PB_NEW)
            else if !o.plaintextAlloc then (clientRelease c, .error .OOM)
            else match o.encode ⟨[], 0, newToken, 0⟩ with
            | none => (clientRelease c, .error .ENCLAVE__RATELIMIT__RESPONSE_PB_ENCODE)
            | some rsp =>
              (clientRelease c, (o.encrypt rsp).map fun out =>
                ⟨out, oldTokenHash, newTokenHash, computedRequestSize⟩)

/-- `enclave_rate_limit(cli, …)`. -/
def enclaveRateLimit (g : Enclave) (o : RateLimitOutcome) (oldTokenHashSize newTokenHashSize : ℕ)
    (m : Option Client) : Option (Option Client × Except ErrorT RateLimitOutput) :=
  withClient g m fun c => some (enclaveRateLimitBody g o oldTokenHashSize newTokenHashSize c)

/-- The merge loop of `enclave_run`: `e164s[i] = U64_TERNARY(i < prev_e164s_size, prev[i],
new[i - prev_e164s_size])` for `i < num_e164s`. Both reads are made whatever `i` is; the one
not selected may lie past its buffer, and its value is irrelevant. -/
def enclaveRunE164s (prevE164s newE164s : List UInt8) : List UInt64 :=
  let numE164s := (prevE164s.length + newE164s.length) >>> 3
  let prevE164sSize := prevE164s.length / 8
  let prev := u64sOfBytes prevE164s
  let new := u64sOfBytes newE164s
  (List.range numE164s).map fun i =>
    u64Ternary (decide (i < prevE164sSize)) (prev.getD i 0) (new.getD (i - prevE164sSize) 0)

/-- The outcomes of the external calls of `enclave_run`: decryption, request creation and
decoding, `halfsiphash` under the set's random key, the `calloc`s of `fixedset_new`, each
upsert of `load_aci_uak_pairs`, the `calloc`s of the e164s, user records, triples, response
workspace and plaintext, `client_response_new`, encoding and encryption. -/
structure RunOutcome where
  decrypt : Except ErrorT (List UInt8)
  requestNew : Bool
  decode : List UInt8 → Option ClientRequest
  sipHash : AciUakPair → UInt64
  fixedsetAlloc : Bool
  upserts : ℕ → UpsertOutcome
  e164sAlloc : Bool
  userRecordsAlloc : Bool
  triplesAlloc : Bool
  responseWorkspaceAlloc : Bool
  responseNew : Bool
  plaintextAlloc : Bool
  encode : ClientResponse → Option (List UInt8)
  encrypt : List UInt8 → Except ErrorT (List UInt8)

/-- What `enclave_run` produces: the encrypted response, and (for the specification) the e164s
it passed to `sharded_ohtable_get_batch` and the response message it encoded. -/
structure RunOutput where
  out : List UInt8
  e164s : List UInt64
  response : ClientResponse
  deriving DecidableEq, Repr

/-- The body of `enclave_run`. The state check returns without `client_unlock`; every other exit
goes through it. `none`: `load_aci_uak_pairs` did not return within the model's bounds. -/
def enclaveRunBody (g : Enclave) (o : RunOutcome) (permits : UInt32) (c : Client) :
    Option (Client × Except ErrorT RunOutput) :=
  match c.req with
  | none => some (c, .error .ENCLAVE__GENERAL__CLIENT_STATE)
  | some req =>
    if !c.send || !c.recv then some (c, .error .ENCLAVE__GENERAL__CLIENT_STATE)
    else
    let unlock (r : Except ErrorT RunOutput) := some (clientRelease c, r)
    match o.decrypt with
    | .error e => unlock (.error e)
    | .ok plaintext =>
      if !o.requestNew then unlock (.error .ENCLAVE__RUN__REQUEST_PB_NEW)
      else match o.decode plaintext with
      | none => unlock (.error .ENCLAVE__RUN__REQUEST_PB_DECODE)
      | some runReq =>
        if !runReq.tokenAck then unlock (.error .ENCLAVE__RUN__NO_TOKEN_ACK)
        else
        -- sizes come from the request stored by `enclave_rate_limit`
        let numE164s := (req.prevE164s.length + req.newE164s.length) >>> 3
        let numAciUakPairs := req.aciUakPairs.length >>> 5
        match fixedsetNew o.fixedsetAlloc with
        | .error e => unlock (.error e)
        | .ok index =>
          match loadAciUakPairs o.sipHash o.upserts index numAciUakPairs
              (aciUakPairsOfWords (u64sOfBytes req.aciUakPairs)) with
          | none => none
          | some (.error e) => unlock (.error e)
          | some (.ok index) =>
            if !o.e164sAlloc then unlock (.error .OOM)
            else
            let e164s := enclaveRunE164s req.prevE164s req.newE164s
            if !o.userRecordsAlloc then unlock (.error .OOM)
            else match g.getBatch e164s with
            | .error e => unlock (.error e)
            | .ok userRecords =>
              if !o.triplesAlloc then unlock (.error .OOM)
              else
              let triples := createE164PniAciTriples o.sipHash index numE164s userRecords
              if !o.responseWorkspaceAlloc then unlock (.error .OOM)
              else if !o.responseNew then unlock (.error .ENCLAVE__RUN__RESPONSE_PB_NEW)
              else if !o.plaintextAlloc then unlock (.error .OOM)
              else
              let rsp : ClientResponse := ⟨triples, 0, [], permits⟩
              match o.encode rsp with
              | none => unlock (.error .ENCLAVE__RUN__RESPONSE_PB_ENCODE)
              | some plaintext => unlock ((o.encrypt plaintext).map fun out => ⟨out, e164s, rsp⟩)

/-- `enclave_run(cli, permits, …)`. -/
def enclaveRun (g : Enclave) (o : RunOutcome) (permits : UInt32) (m : Option Client) :
    Option (Option Client × Except ErrorT RunOutput) :=
  withClient g m (enclaveRunBody g o permits)

/-- `client_remove(id, &c)` followed by `client_free(c)`, as `enclave_close_client` runs them:
the canary is swapped to zero, the lock moved `UNUSED → DELETE` (on failure the canary is
restored and the error returned), and the object freed. -/
def enclaveCloseClient (g : Enclave) (m : Option Client) : Option Client × Except ErrorT Unit :=
  if !g.initDone then (m, .error .ENCLAVE__GENERAL__NOINIT)
  else match m with
  | none => (none, .error .ENCLAVE__GENERAL__CLIENT_REMOVE_FAILED)
  | some c =>
    if c.canary ≠ g.clientSecret then (m, .error .ENCLAVE__GENERAL__CLIENT_REMOVE_FAILED)
    else match clientSetstate { c with canary := 0 } .CLIENT_UNUSED .CLIENT_DELETE with
    | .error e => (m, .error e)
    | .ok _ => (none, .ok ())

/-- The outcomes of the external calls of `enclave_new_client`: the client `calloc`,
`noise_handshakestate_new_by_name`, `validate_privkey(g_privkey)`, whether `out_size` holds the
handshake start, and `noise_dhstate_set_keypair_private`. -/
structure NewClientOutcome where
  mallocOk : Bool
  handshakeNew : Except ErrorT Unit
  privkeyValid : Bool
  outSizeOk : Bool
  setKeypair : Except ErrorT Unit

/-- `enclave_new_client(…)`: a fresh client, locked by `client_add` and unlocked again; on
failure it is freed. -/
def enclaveNewClient (g : Enclave) (o : NewClientOutcome) : Option Client × Except ErrorT Unit :=
  if !g.initDone then (none, .error .ENCLAVE__GENERAL__NOINIT)
  else if !o.mallocOk then (none, .error .OOM)
  else match o.handshakeNew with
  | .error e => (none, .error e)
  | .ok () =>
    if !o.privkeyValid then (none, .error .ENCLAVE__GENERAL__INVALID_PRIVATE_KEY)
    else if !o.outSizeOk then (none, .error .ENCLAVE__NEWCLIENT__EREPORT_TOO_LARGE)
    else match o.setKeypair with
    | .error e => (none, .error e)
    | .ok () => (some (Client.fresh g.clientSecret), .ok ())

/-! ## Sequences of ECALLs -/

/-- A client ECALL with its external outcomes and inputs. -/
inductive Ecall where
  | handshake (o : HandshakeOutcome)
  | rateLimit (o : RateLimitOutcome) (oldTokenHashSize newTokenHashSize : ℕ)
  | run (o : RunOutcome) (permits : UInt32)
  | retryResponse (o : RetryOutcome) (retryAfterSecs : UInt32)
  | close

/-- What a client ECALL returns. -/
inductive EcallOutput where
  | handshake (msg : List UInt8)
  | rateLimit (out : RateLimitOutput)
  | run (out : RunOutput)
  | retryResponse (out : List UInt8)
  | close
  deriving DecidableEq, Repr

/-- One ECALL on the client memory `m`; `none` if it does not return. -/
def ecall (g : Enclave) : Ecall → Option Client → Option (Option Client × Except ErrorT EcallOutput)
  | .handshake o, m => (enclaveHandshake g o m).map fun r => (r.1, r.2.map .handshake)
  | .rateLimit o a b, m => (enclaveRateLimit g o a b m).map fun r => (r.1, r.2.map .rateLimit)
  | .run o p, m => (enclaveRun g o p m).map fun r => (r.1, r.2.map .run)
  | .retryResponse o s, m => (enclaveRetryResponse g o s m).map fun r => (r.1, r.2.map .retryResponse)
  | .close, m => some ((enclaveCloseClient g m).1, (enclaveCloseClient g m).2.map fun _ => .close)

/-- The client memory after a sequence of ECALLs (each with the globals it ran under); `none`
if one of them does not return. -/
def execCalls : Option Client → List (Enclave × Ecall) → Option (Option Client)
  | m, [] => some m
  | m, (g, e) :: calls =>
    match ecall g e m with
    | none => none
    | some (m', _) => execCalls m' calls

/-! ## The merged e164s -/

/-- **The merge loop of `enclave_run` concatenates**: for buffers of whole words, the branch-free
loop gives the previous e164s followed by the new ones. -/
theorem enclaveRunE164s_eq {prevE164s newE164s : List UInt8} (hp : prevE164s.length % 8 = 0)
    (hn : newE164s.length % 8 = 0) :
    enclaveRunE164s prevE164s newE164s = u64sOfBytes prevE164s ++ u64sOfBytes newE164s := by
  have hnum : (prevE164s.length + newE164s.length) >>> 3 =
      prevE164s.length / 8 + newE164s.length / 8 := by
    rw [Nat.shiftRight_eq_div_pow]
    omega
  apply List.ext_getElem
  · simp [enclaveRunE164s, hnum]
  · intro i h₁ h₂
    simp only [enclaveRunE164s, hnum, List.getElem_map, List.getElem_range, u64Ternary_eq,
      decide_eq_true_eq]
    by_cases hi : i < prevE164s.length / 8
    · -- a previous e164
      have hi' : i < (u64sOfBytes prevE164s).length := by rw [u64sOfBytes_length]; exact hi
      rw [List.getElem_append_left hi', if_pos hi, List.getD_eq_getElem _ _ hi']
    · -- a new e164, at `i - prev_e164s_size`
      have hle : (u64sOfBytes prevE164s).length ≤ i := by rw [u64sOfBytes_length]; omega
      have hi' : i - prevE164s.length / 8 < (u64sOfBytes newE164s).length := by
        simp only [List.length_append, u64sOfBytes_length] at h₂ ⊢
        omega
      rw [List.getElem_append_right hle, if_neg hi, List.getD_eq_getElem _ _ hi']
      simp only [u64sOfBytes_length]

/-! ## What one ECALL does to the client -/

@[simp] theorem clientRelease_req (c : Client) : (clientRelease c).req = c.req := by
  by_cases h : c.state = .CLIENT_INUSE <;> simp [clientRelease, clientSetstate, h]

theorem clientRelease_state {c : Client} (h : c.state = .CLIENT_INUSE) :
    (clientRelease c).state = .CLIENT_UNUSED := by
  simp [clientRelease, clientSetstate, h]

/-- `client_get` succeeds only on a live, unlocked client with the right canary, and locks it. -/
theorem clientGet_ok {g : Enclave} {m : Option Client} {c : Client} (h : clientGet g m = .ok c) :
    ∃ c₀, m = some c₀ ∧ c₀.state = .CLIENT_UNUSED ∧ c = { c₀ with state := .CLIENT_INUSE } := by
  cases m with
  | none => cases h
  | some c₀ =>
    by_cases hcan : c₀.canary = g.clientSecret
    · by_cases hs : c₀.state = .CLIENT_UNUSED
      · simp only [clientGet, clientSetstate, hcan, hs, ne_eq, not_true_eq_false, ↓reduceIte,
          Except.ok.injEq] at h
        exact ⟨c₀, rfl, hs, by rw [← h, hcan]⟩
      · simp [clientGet, clientSetstate, hcan, hs] at h
    · simp [clientGet, hcan] at h

/-- The prologue either refuses the call with an error and leaves the memory alone, or runs the
body on the client it locked. -/
theorem withClient_cases {α : Type} {g : Enclave} {m m' : Option Client}
    {body : Client → Option (Client × Except ErrorT α)} {r : Except ErrorT α}
    (h : withClient g m body = some (m', r)) :
    (m' = m ∧ ∃ e, r = .error e) ∨ ∃ c₀ c₁, m = some c₀ ∧ c₀.state = .CLIENT_UNUSED ∧
      body { c₀ with state := .CLIENT_INUSE } = some (c₁, r) ∧ m' = some c₁ := by
  unfold withClient at h
  split at h
  · cases h; exact Or.inl ⟨rfl, _, rfl⟩
  · split at h
    · cases h; exact Or.inl ⟨rfl, _, rfl⟩
    · rename_i c hc
      obtain ⟨c₀, rfl, h₀, rfl⟩ := clientGet_ok hc
      obtain ⟨⟨c₁, r'⟩, hb, he⟩ := Option.map_eq_some_iff.1 h
      cases he
      exact Or.inr ⟨c₀, c₁, rfl, h₀, hb, rfl⟩

theorem enclaveHandshakeBody_req (o : HandshakeOutcome) (c : Client) :
    (enclaveHandshakeBody o c).1.req = c.req := by
  unfold enclaveHandshakeBody
  repeat' split
  all_goals simp

theorem enclaveRetryResponseBody_req (o : RetryOutcome) (s : UInt32) (c : Client) :
    (enclaveRetryResponseBody o s c).1.req = c.req := by
  unfold enclaveRetryResponseBody
  repeat' split
  all_goals simp

/-- Every exit of `enclave_run` leaves the client as it found it (the state check) or released. -/
theorem enclaveRunBody_exit {g : Enclave} {o : RunOutcome} {p : UInt32} {c c' : Client}
    {r : Except ErrorT RunOutput} (h : enclaveRunBody g o p c = some (c', r)) :
    c' = c ∨ c' = clientRelease c := by
  unfold enclaveRunBody at h
  simp only at h
  repeat' split at h
  all_goals simp only [Option.some.injEq, Prod.mk.injEq, reduceCtorEq] at h
  all_goals first | exact Or.inl h.1.symm | exact Or.inr h.1.symm

theorem enclaveRunBody_req {g : Enclave} {o : RunOutcome} {p : UInt32} {c c' : Client}
    {r : Except ErrorT RunOutput} (h : enclaveRunBody g o p c = some (c', r)) : c'.req = c.req := by
  rcases enclaveRunBody_exit h with rfl | rfl
  · rfl
  · exact clientRelease_req c

/-- A successful `enclave_run` ran on a stored request and looked up the e164s its merge loop
built from it. -/
theorem enclaveRunBody_ok {g : Enclave} {o : RunOutcome} {p : UInt32} {c c' : Client}
    {out : RunOutput} (h : enclaveRunBody g o p c = some (c', .ok out)) :
    ∃ req, c.req = some req ∧ out.e164s = enclaveRunE164s req.prevE164s req.newE164s := by
  unfold enclaveRunBody at h
  simp only at h
  split at h
  · simp at h
  · rename_i req hreq
    refine ⟨req, hreq, ?_⟩
    repeat' split at h
    all_goals simp only [Option.some.injEq, Prod.mk.injEq, reduceCtorEq, and_false] at h
    -- the one successful exit: the encryption succeeded
    obtain ⟨-, h⟩ := h
    obtain ⟨y, -, hy⟩ := except_map_eq_ok h
    rw [← hy]

/-- **What a successful `enclave_run` responds**: the triples `create_e164_pni_aci_triples` makes
from the set that `load_aci_uak_pairs` filled with the request's pairs and from the records the
lookup of the merged e164s returned. -/
theorem enclaveRunBody_response {g : Enclave} {o : RunOutcome} {p : UInt32} {c c' : Client}
    {out : RunOutput} (h : enclaveRunBody g o p c = some (c', .ok out)) :
    ∃ req index recs, c.req = some req ∧
      loadAciUakPairs o.sipHash o.upserts (Fixedset.empty 32) (req.aciUakPairs.length >>> 5)
        (aciUakPairsOfWords (u64sOfBytes req.aciUakPairs)) = some (.ok index) ∧
      out.e164s = enclaveRunE164s req.prevE164s req.newE164s ∧
      g.getBatch out.e164s = .ok recs ∧
      out.response.e164PniAciTriples = createE164PniAciTriples o.sipHash index
        ((req.prevE164s.length + req.newE164s.length) >>> 3) recs := by
  unfold enclaveRunBody at h
  simp only at h
  split at h
  · simp at h
  · rename_i req hreq
    repeat' split at h
    all_goals simp only [Option.some.injEq, Prod.mk.injEq, reduceCtorEq, and_false] at h
    -- the one successful exit, through every allocation and the encryption
    rename_i index₀ hnew _ index hload _ _ _ recs hget _ _ _ _ _ _ _
    obtain ⟨-, henc⟩ := h
    obtain ⟨y, -, rfl⟩ := except_map_eq_ok henc
    have h₀ : index₀ = Fixedset.empty 32 := by
      unfold fixedsetNew at hnew
      split at hnew <;> cases hnew
      rfl
    subst h₀
    exact ⟨req, index, recs, hreq, hload, rfl, hget, rfl⟩

/-- **What `enclave_rate_limit` does to the stored request**: it keeps it, or, on a client
without one, stores a request of valid sizes, after which either the token check accepted it
or the client is left in the state the call found it in (locked). -/
theorem enclaveRateLimitBody_req (g : Enclave) (o : RateLimitOutcome) (a b : ℕ) (c : Client) :
    (enclaveRateLimitBody g o a b c).1.req = c.req ∨
      (c.req = none ∧ ∃ req, (enclaveRateLimitBody g o a b c).1.req = some req ∧
        requestSizesInvalid req = false ∧
        (ratelimitValidateReceivedRateLimitToken g.sha256 g.sharedSecret o.validateAlloc req = .ok () ∨
          (enclaveRateLimitBody g o a b c).1.state = c.state)) := by
  unfold enclaveRateLimitBody
  split
  · exact Or.inl (by simp)
  · rename_i hst
    have hreq : c.req = none := by
      simp only [Bool.or_eq_true, Option.isSome_iff_ne_none, not_or] at hst
      exact not_not.1 hst.1.1.1
    split
    · exact Or.inl (by simp)
    split
    · exact Or.inl (by simp)
    split
    · exact Or.inl (by simp)
    split
    · exact Or.inl (by simp)
    split
    · exact Or.inl rfl
    split
    · exact Or.inl rfl
    rename_i req _
    split
    · exact Or.inl rfl
    rename_i hsizes
    -- from here on `req` is stored
    refine Or.inr ⟨hreq, req, ?_⟩
    split
    · exact ⟨rfl, by simpa using hsizes, Or.inr rfl⟩
    · rename_i hv
      refine ⟨?_, by simpa using hsizes, Or.inl hv⟩
      simp only
      repeat' split
      all_goals simp

/-- **What an ECALL can do to the stored request**: the memory is unchanged or freed, or the call
locked an unlocked client and left it with the same request, or it is `enclave_rate_limit` on a
client without a request, which stored one of valid sizes that the token check accepted unless
the client is left locked. -/
theorem ecall_req_cases {g : Enclave} {e : Ecall} {m m' : Option Client}
    {r : Except ErrorT EcallOutput} (h : ecall g e m = some (m', r)) :
    m' = m ∨ m' = none ∨
      ∃ c c', m = some c ∧ c.state = .CLIENT_UNUSED ∧ m' = some c' ∧
        (c'.req = c.req ∨ ∃ o a b, e = .rateLimit o a b ∧ c.req = none ∧ ∃ req,
          c'.req = some req ∧ requestSizesInvalid req = false ∧
          (ratelimitValidateReceivedRateLimitToken g.sha256 g.sharedSecret o.validateAlloc req = .ok () ∨
            c'.state = .CLIENT_INUSE)) := by
  cases e with
  | handshake o =>
    obtain ⟨⟨m'', r'⟩, hr, he⟩ := Option.map_eq_some_iff.1 h
    cases he
    rcases withClient_cases hr with ⟨h', -⟩ | ⟨c₀, c₁, rfl, hst, hb, rfl⟩
    · exact Or.inl h'
    · simp only [Option.some.injEq] at hb
      refine Or.inr (Or.inr ⟨c₀, c₁, rfl, hst, rfl, Or.inl ?_⟩)
      have hc₁ : c₁ = (enclaveHandshakeBody o { c₀ with state := .CLIENT_INUSE }).1 := by rw [hb]
      rw [hc₁, enclaveHandshakeBody_req]
  | retryResponse o s =>
    obtain ⟨⟨m'', r'⟩, hr, he⟩ := Option.map_eq_some_iff.1 h
    cases he
    rcases withClient_cases hr with ⟨h', -⟩ | ⟨c₀, c₁, rfl, hst, hb, rfl⟩
    · exact Or.inl h'
    · simp only [Option.some.injEq] at hb
      refine Or.inr (Or.inr ⟨c₀, c₁, rfl, hst, rfl, Or.inl ?_⟩)
      have hc₁ : c₁ = (enclaveRetryResponseBody o s { c₀ with state := .CLIENT_INUSE }).1 := by
        rw [hb]
      rw [hc₁, enclaveRetryResponseBody_req]
  | run o p =>
    obtain ⟨⟨m'', r'⟩, hr, he⟩ := Option.map_eq_some_iff.1 h
    cases he
    rcases withClient_cases hr with ⟨h', -⟩ | ⟨c₀, c₁, rfl, hst, hb, rfl⟩
    · exact Or.inl h'
    · exact Or.inr (Or.inr ⟨c₀, c₁, rfl, hst, rfl, Or.inl (by rw [enclaveRunBody_req hb])⟩)
  | rateLimit o a b =>
    obtain ⟨⟨m'', r'⟩, hr, he⟩ := Option.map_eq_some_iff.1 h
    cases he
    rcases withClient_cases hr with ⟨h', -⟩ | ⟨c₀, c₁, rfl, hst, hb, rfl⟩
    · exact Or.inl h'
    · simp only [Option.some.injEq] at hb
      have hc₁ : c₁ = (enclaveRateLimitBody g o a b { c₀ with state := .CLIENT_INUSE }).1 := by
        rw [hb]
      subst hc₁
      refine Or.inr (Or.inr ⟨c₀, _, rfl, hst, rfl, ?_⟩)
      rcases enclaveRateLimitBody_req g o a b { c₀ with state := .CLIENT_INUSE } with
        hkeep | ⟨hnone, req, hreq, hsz, hv⟩
      · exact Or.inl hkeep
      · exact Or.inr ⟨o, a, b, rfl, hnone, req, hreq, hsz, hv⟩
  | close =>
    simp only [ecall, Option.some.injEq, Prod.mk.injEq] at h
    obtain ⟨rfl, -⟩ := h
    unfold enclaveCloseClient
    repeat' split
    all_goals simp

end ContactDiscovery
