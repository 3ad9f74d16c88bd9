import HttpUtils.Client.Answers

/-!
# The connect phase

The resolver finds one endpoint or more. `http_client` connects its socket to the first of them, and `https_client`
leaves the whole list to `asio::async_connect`.
-/

namespace HttpUtils
set_option autoImplicit false

/-- `resolver::results_type` without an error. -/
structure Resolved (ε : Type) where
  first : ε
  rest : List ε

variable {ε : Type}

def Resolved.toList (results : Resolved ε) : List ε := results.first :: results.rest

abbrev Attempt (ε : Type) := ε → Option ErrorCode

variable (attempt : Attempt ε)

/-- `m_socket.async_connect(endpoint)`. -/
def socketConnect (endpoint : ε) : IoResult :=
  match attempt endpoint with
  | none => .ok []
  | some ec => .error ec

/-- `asio::async_connect`: the endpoints in their order until one accepts. The error is that of the last attempt. -/
def rangeConnect (first : ε) : List ε → IoResult
  | [] => socketConnect attempt first
  | next :: rest =>
    match attempt first with
    | none => .ok []
    | some _ => rangeConnect next rest

/-- The end of the operation that `handle_resolve` starts. -/
def connectResult (kind : ClientKind) (results : Resolved ε) : IoResult :=
  match kind with
  | .http => socketConnect attempt results.first
  | .https => rangeConnect attempt results.first results.rest

theorem socketConnect_ok_iff (endpoint : ε) : socketConnect attempt endpoint = .ok [] ↔ attempt endpoint = none := by
  unfold socketConnect
  cases attempt endpoint <;> simp

theorem rangeConnect_ok_iff (first : ε) (rest : List ε) :
    rangeConnect attempt first rest = .ok [] ↔ ∃ e ∈ first :: rest, attempt e = none := by
  induction rest generalizing first with
  | nil => simp [rangeConnect, socketConnect_ok_iff]
  | cons next rest ih =>
    rw [rangeConnect]
    cases hFirst : attempt first with
    | none => exact iff_of_true rfl ⟨first, List.mem_cons_self, hFirst⟩
    | some ec =>
      rw [ih, List.exists_mem_cons_iff (a := first)]
      simp [hFirst]

theorem socketConnect_cases (endpoint : ε) :
    socketConnect attempt endpoint = .ok [] ∨ ∃ ec, socketConnect attempt endpoint = .error ec := by
  unfold socketConnect
  cases attempt endpoint with
  | none => exact .inl rfl
  | some ec => exact .inr ⟨ec, rfl⟩

theorem rangeConnect_cases (first : ε) (rest : List ε) :
    rangeConnect attempt first rest = .ok [] ∨ ∃ ec, rangeConnect attempt first rest = .error ec := by
  induction rest generalizing first with
  | nil => exact socketConnect_cases attempt first
  | cons next rest ih =>
    rw [rangeConnect]
    cases attempt first with
    | none => exact .inl rfl
    | some _ => exact ih next

theorem connectResult_cases (kind : ClientKind) (results : Resolved ε) :
    connectResult attempt kind results = .ok [] ∨ ∃ ec, connectResult attempt kind results = .error ec := by
  cases kind with
  | http => exact socketConnect_cases attempt results.first
  | https => exact rangeConnect_cases attempt results.first results.rest

namespace Client

def Connected (s : Client) : Prop :=
  match s.kind with
  | .http => s.chain = .pending (.write s.mReqStr)
  | .https => s.chain = .pending .handshake

variable (message : Messages)

/-- The name is resolved, and the operation that `handle_resolve` starts comes to its end. -/
def connectPhase (s : Client) (results : Resolved ε) : Option Client :=
  PartialRun.run (step message) s
    [.ready (.ok []), .deliver, .ready (connectResult attempt s.kind results), .deliver]

def resolved (s : Client) : Client := { start { s with isOpen := true } .connect with chain := .idle }

theorem connectPhase_eq (kind : ClientKind) (serverUrl serverPort : Bytes) (req : Request) (statusCode : ℕ)
    (results : Resolved ε) :
    (httpClient kind serverUrl serverPort req statusCode).connectPhase attempt message results =
      some (handleConnect message (httpClient kind serverUrl serverPort req statusCode).resolved
        (connectResult attempt kind results)) := by
  have hKind : (httpClient kind serverUrl serverPort req statusCode).kind = kind := rfl
  rw [connectPhase, hKind]
  rcases connectResult_cases attempt kind results with hResult | ⟨ec, hResult⟩
  · rw [hResult]
    rfl
  · rw [hResult]
    rfl

theorem handleConnect_spec (kind : ClientKind) (serverUrl serverPort : Bytes) (req : Request) (statusCode : ℕ)
    (results : Resolved ε) {s : Client}
    (hPhase : (httpClient kind serverUrl serverPort req statusCode).connectPhase attempt message results = some s) :
    (s.Connected ↔ connectResult attempt kind results = .ok []) ∧
      (s.callbacks ≠ 0 ↔ connectResult attempt kind results ≠ .ok []) := by
  rw [connectPhase_eq] at hPhase
  obtain rfl := Option.some.inj hPhase
  rcases connectResult_cases attempt kind results with hResult | ⟨ec, hResult⟩
  · rw [hResult]
    constructor
    · cases kind <;> exact iff_of_true rfl rfl
    · cases kind <;> exact iff_of_false (fun h => h rfl) (fun h => h rfl)
  · rw [hResult]
    constructor
    · cases kind <;> exact iff_of_false nofun nofun
    · cases kind <;> exact iff_of_true nofun nofun

end Client

variable (message : Messages)

/-- The two clients agree when the first endpoint accepts or none does, and `http_client` fails with one that accepts
behind it in every other case. -/
theorem connectPhase_agrees (serverUrl serverPort : Bytes) (req : Request) (statusCode : ℕ) (results : Resolved ε) :
    ∃ http https,
      (httpClient .http serverUrl serverPort req statusCode).connectPhase attempt message results = some http ∧
      (httpClient .https serverUrl serverPort req statusCode).connectPhase attempt message results = some https ∧
      (((http.callbacks ≠ 0 → ∀ e ∈ results.toList, attempt e ≠ none) ∧ (http.Connected ↔ https.Connected)) ↔
        attempt results.first = none ∨ ∀ e ∈ results.toList, attempt e ≠ none) := by
  have hHttp := Client.connectPhase_eq attempt message .http serverUrl serverPort req statusCode results
  have hHttps := Client.connectPhase_eq attempt message .https serverUrl serverPort req statusCode results
  refine ⟨_, _, hHttp, hHttps, ?_⟩
  obtain ⟨hOne, hReports⟩ := Client.handleConnect_spec attempt message .http serverUrl serverPort req statusCode
    results hHttp
  obtain ⟨hEach, -⟩ := Client.handleConnect_spec attempt message .https serverUrl serverPort req statusCode
    results hHttps
  have hFirst : connectResult attempt .http results = .ok [] ↔ attempt results.first = none :=
    socketConnect_ok_iff attempt results.first
  have hSome : connectResult attempt .https results = .ok [] ↔ ∃ e ∈ results.toList, attempt e = none :=
    rangeConnect_ok_iff attempt results.first results.rest
  rw [hReports, hOne, hEach, hSome, ne_eq, hFirst]
  have hMem : results.first ∈ results.toList := List.mem_cons_self
  constructor
  · rintro ⟨hNone, -⟩
    exact (Classical.em (attempt results.first = none)).imp_right hNone
  · intro hCond
    rcases hCond with hAccepts | hNone
    · exact ⟨fun h => absurd hAccepts h, iff_of_true hAccepts ⟨_, hMem, hAccepts⟩⟩
    · refine ⟨fun _ => hNone, iff_of_false (hNone _ hMem) ?_⟩
      rintro ⟨e, he, hAccepts⟩
      exact hNone e he hAccepts

def indexRequest : Request := ⟨ascii "GET", ascii "/", 1, 0, [], []⟩

/-- The endpoint 1 accepts, and is not tried behind one that refuses. -/
theorem secondEndpoint_untried :
    ∃ (attempt : Attempt ℕ) (http https : Client),
      (httpClient .http [] [] indexRequest 0).connectPhase attempt (fun _ => []) ⟨0, [1]⟩ = some http ∧
      (httpClient .https [] [] indexRequest 0).connectPhase attempt (fun _ => []) ⟨0, [1]⟩ = some https ∧
      attempt 1 = none ∧ http.callbacks ≠ 0 ∧ ¬http.Connected ∧ https.Connected := by
  refine ⟨fun e => if e = 0 then some (.other 111) else none, _, _, rfl, rfl, rfl, ?_⟩
  exact ⟨by decide +kernel, nofun, rfl⟩

end HttpUtils
