import HttpUtils.Exchange.Exchange
import HttpUtils.Exchange.Serving
import HttpUtils.Exchange.Asking

/-!
# What an exchange can lead to

Whatever fails and whichever time limit is reached, the request handler sees the request that the client was made
with, once at most, and the client tells its caller nothing but a beginning of the handler's reply.
-/

namespace HttpUtils
set_option autoImplicit false

open ByteStream

/-- The bytes of the request that the session has read, as long as it reads. -/
def Stage.got : Option Stage → Option Bytes
  | none | some (.handshake _) => some []
  | some (.read _ got) => some got
  | _ => none

def Stage.handedOver : Option Stage → List Request
  | none => []
  | some stage => stage.handed

namespace Exchange

variable (app : Request → Reply) (r : Request) (serverUrl serverPort : Bytes)

def At (x : Exchange) : Option Stage → Prop
  | none => x.session = none
  | some stage => ∃ s, x.session = some s ∧ s.At r stage

/-- What the client has written. -/
def written (x : Exchange) : Bytes := if x.client.chain.beforeWrite then [] else r.toBytes serverUrl serverPort

def Listening (x : Exchange) : Prop := ∀ s, x.session = some s → s.mStopped = false

/-- The session has read `sent` more than its stage says, and the client has read `got`. -/
structure Sound (x : Exchange) (stage : Option Stage) (sent got : Bytes) : Prop where
  atStage : x.At r stage
  reqStr : x.client.mReqStr = r.toBytes serverUrl serverPort
  has : x.client.mRepParser.Has x.client.received.flatten
  reads : ∀ data, x.client.chain = .queued .read (.ok data) → data ≠ []
  request : ∀ g, Stage.got stage = some g → x.request.Carries (g ++ sent) (x.written r serverUrl serverPort)
  silent : Stage.handedOver stage = [] → x.reply.rest = [] ∧ got = []
  reply : ∀ q ∈ Stage.handedOver stage, x.reply.Carries got (app q).toBytes
  due : ∀ rep, x.due = some rep → ∃ id q, stage = some (.handle id q) ∧ rep = app q ∧ x.reply.rest = [] ∧ got = []
  told : ∀ err rep, .calledBack err rep ∈ x.client.history →
    rep.content = [] ∨ ∃ q ∈ Stage.handedOver stage, rep.content <+: (app q).content

variable {app r serverUrl serverPort} {message : Messages} {x y : Exchange} {stage : Option Stage} {sent got : Bytes}

theorem At.handedOver (h : x.At r stage) : (Stage.handedOver stage).length ≤ 1 ∧
    ∀ q ∈ Stage.handedOver stage, q.Agrees r := by
  cases stage with
  | none => exact ⟨Nat.zero_le _, by simp [Stage.handedOver]⟩
  | some stage =>
    obtain ⟨s, -, hAt⟩ := h
    exact hAt.handedOver.2

theorem clientStep_eq_some {e : Client.Event} : x.clientStep message e = some y ↔
    ∃ t, x.client.step message e = some t ∧
      y = { x with
        client := t
        request := (t.history.drop x.client.history.length).foldl (hearRequest x.client) x.request } := by
  rw [clientStep, Option.map_eq_some_iff]
  simp only [eq_comm]

theorem sessionStep_eq_some {e : Session.Event} {s : Session} (hSession : x.session = some s) :
    x.sessionStep app e = some y ↔ ∃ t, s.step e = some t ∧
      y = { x with
        session := some t
        reply := (t.history.drop s.history.length).foldl (hearReply t.mReplyStr) x.reply
        due := (t.history.drop s.history.length).foldl (hearRequestHandler app) x.due } := by
  rw [sessionStep, hSession, Option.bind_some, Option.map_eq_some_iff]
  simp only [eq_comm]

/-! ### Steps of the client -/

theorem Sound.partial (h : x.Sound app r serverUrl serverPort stage sent got)
    (hApp : ∀ q, q.Agrees r → (app q).Encodable)
    {t : HttpReplyParser} {read : Bytes} (hHas : t.Has read) (hRead : read <+: got) :
    t.mReply.content = [] ∨ ∃ q ∈ Stage.handedOver stage, t.mReply.content <+: (app q).content := by
  obtain ⟨-, hAgrees⟩ := h.atStage.handedOver
  cases hHanded : Stage.handedOver stage with
  | nil =>
    obtain ⟨-, rfl⟩ := h.silent hHanded
    obtain rfl := List.prefix_nil.mp hRead
    exact .inl hHas.empty
  | cons q qs =>
    have hMem : q ∈ Stage.handedOver stage := by simp [hHanded]
    have hPrefix := hRead.trans (h.reply q hMem).received
    exact .inr ⟨q, by simp, ((hApp q (hAgrees q hMem)).holds hHas hPrefix).1⟩

theorem Sound.has_next (h : x.Sound app r serverUrl serverPort stage sent got)
    (hApp : ∀ q, q.Agrees r → (app q).Encodable)
    {data : Bytes} (hData : data ≠ []) (hRead : x.client.received.flatten ++ data <+: got) :
    (x.client.mRepParser.parse data).2.Has (x.client.received.flatten ++ data) ∧
      (x.client.mRepParser.parse data).1 ≠ .bad := by
  obtain ⟨-, hAgrees⟩ := h.atStage.handedOver
  cases hHanded : Stage.handedOver stage with
  | nil =>
    obtain ⟨-, rfl⟩ := h.silent hHanded
    exact absurd (List.append_eq_nil_iff.mp (List.prefix_nil.mp hRead)).2 hData
  | cons q qs =>
    have hMem : q ∈ Stage.handedOver stage := by simp [hHanded]
    exact (hApp q (hAgrees q hMem)).arrives h.has hData (hRead.trans (h.reply q hMem).received)

theorem hearRequest_heard (s : Client) (op : ClientOperation) (result : IoResult) (c : Stream UInt8) :
    (s.heard op result).foldl (hearRequest s) c = c := by
  unfold Client.heard
  split
  · rfl
  · rfl

theorem carries_calledBack (s : Client) (err : Bytes) (rep : Reply) {c : Stream UInt8} {g w : Bytes}
    (h : c.Carries g w) :
    (hearRequest s c (.calledBack err rep)).Carries g w := by
  simp only [hearRequest]
  split
  · exact h
  · exact h.shut

theorem beforeWrite_sameOperation {c d : Chain} (h : Client.SameOperation c d) : d.beforeWrite = c.beforeWrite := by
  cases c with
  | idle =>
    obtain rfl : d = .idle := h
    rfl
  | pending op =>
    rcases h with rfl | ⟨ec, rfl⟩
    · rfl
    · cases op <;> rfl
  | queued op result =>
    obtain rfl : d = .queued op result := h
    rfl

theorem Sound.request_next (h : x.Sound app r serverUrl serverPort stage sent got) {e : Client.Event} {t : Client}
    (hStep : x.client.step message e = some t) {g : Bytes} (hGot : Stage.got stage = some g) :
    ((t.history.drop x.client.history.length).foldl (hearRequest x.client) x.request).Carries (g ++ sent)
      (if t.chain.beforeWrite then [] else r.toBytes serverUrl serverPort) := by
  have hNow := h.request g hGot
  rw [written] at hNow
  cases Client.step_took hStep with
  | @continues op result after _ hChain hAnswer chain timer parser history =>
    obtain ⟨hNext, hHistory, -⟩ := Client.deliver_goes hChain hAnswer hStep
    rw [hHistory, List.drop_left, List.foldl_append, hearRequest_heard, hNext]
    rw [hChain] at hNow
    have hWrite : x.client.after op = .write x.client.mReqStr → (Chain.queued op result).beforeWrite = true →
        ([.started (x.client.after op)].foldl (hearRequest x.client) x.request).Carries (g ++ sent)
          (if (Chain.pending (x.client.after op)).beforeWrite then [] else r.toBytes serverUrl serverPort) := by
      intro hAfter hBefore
      rw [hBefore, if_pos rfl] at hNow
      rw [hAfter, h.reqStr]
      exact hNow.write _
    cases op with
    | resolve => exact hNow.renew
    | handshake => exact hWrite rfl rfl
    | connect =>
      cases hKind : x.client.kind with
      | http =>
        refine hWrite ?_ rfl
        simp [Client.after, hKind]
      | https =>
        have hAfter : x.client.after .connect = .handshake := by simp [Client.after, hKind]
        rw [hAfter]
        exact hNow
    | write bytes => exact hNow
    | read => exact hNow
  | @ends op result err _ hChain hAnswer chain timer parser history =>
    rw [history, List.drop_left, List.foldl_append, hearRequest_heard, chain]
    have hShut := carries_calledBack x.client err t.mRepParser.mReply hNow
    refine hShut.mono ?_
    split
    · exact List.nil_prefix
    · exact List.prefix_rfl
  | timesOut hTake chain timer parser history =>
    rw [history, List.drop_left, beforeWrite_sameOperation chain]
    exact carries_calledBack x.client (ascii "timeout") x.client.mRepParser.mReply hNow
  | expires hPending chain timer parser history =>
    rw [history, List.drop_left, chain]
    exact hNow
  | aborts hTake chain parser history =>
    rw [history, List.drop_length, chain]
    exact hNow
  | @completes op result _ hChain hPossible chain timer parser history =>
    rw [history, List.drop_length, chain]
    rw [hChain] at hNow
    cases op <;> exact hNow

theorem Sound.reads_next (h : x.Sound app r serverUrl serverPort stage sent got) {e : Client.Event} {t : Client}
    (hStep : x.client.step message e = some t) {data : Bytes} (hChain : t.chain = .queued .read (.ok data)) :
      data ≠ [] := by
  cases Client.step_took hStep with
  | continues _ _ chain _ _ _ =>
    rw [chain] at hChain
    cases hChain
  | ends _ _ chain _ _ _ =>
    rw [chain] at hChain
    cases hChain
  | timesOut _ chain _ _ _ =>
    cases hBefore : x.client.chain with
    | idle =>
      rw [hBefore] at chain
      rw [show t.chain = .idle from chain] at hChain
      cases hChain
    | pending op =>
      rw [hBefore] at chain
      rcases chain with hSame | ⟨ec, hFailed⟩
      · rw [hSame] at hChain
        cases hChain
      · rw [hFailed] at hChain
        cases hChain
    | queued op result =>
      rw [hBefore] at chain
      exact h.reads data (hBefore.trans (chain.symm.trans hChain))
  | expires _ chain _ _ _ => exact h.reads data (chain ▸ hChain)
  | aborts _ chain _ _ => exact h.reads data (chain ▸ hChain)
  | completes hBefore hPossible chain _ _ _ =>
    rw [chain] at hChain
    cases hChain
    simp [Client.Possible] at hPossible
    exact hPossible.2.1

theorem Sound.clientStep {e : Client.Event}
    (h : x.Sound app r serverUrl serverPort stage sent (x.client.got ++ x.client.gains e))
    (hApp : ∀ q, q.Agrees r → (app q).Encodable) (hStep : x.clientStep message e = some y) :
    y.Sound app r serverUrl serverPort stage sent y.client.got := by
  obtain ⟨t, ht, rfl⟩ := clientStep_eq_some.mp hStep
  have hGot := Client.got_step ht
  rw [← hGot] at h
  have hPart : t.received.flatten <+: t.got := List.prefix_append _ _
  have hHas : t.mRepParser.Has t.received.flatten := by
    rcases Client.read_step ht with ⟨hParser, hReceived⟩ | ⟨data, hChain, hParser, hReceived⟩
    · rw [hParser, hReceived]
      exact h.has
    · rw [hReceived, List.flatten_append, List.flatten_singleton] at hPart ⊢
      rw [hParser]
      exact (h.has_next hApp (h.reads data hChain) hPart).1
  refine { h with
    reqStr := (Client.same_step ht).1.trans h.reqStr
    has := hHas
    reads := fun data => h.reads_next ht
    request := fun g => h.request_next ht
    told := fun err rep hMem => ?_ }
  rcases Client.calledBack_step ht hMem with hBefore | rfl
  · exact h.told err rep hBefore
  · exact h.partial hApp hHas hPart

/-! ### Steps of the session -/

theorem foldl_hearReply {xs : List Effect} (hQuiet : ∀ x ∈ xs, x.starts = false) (mReplyStr : Bytes)
    {c : Stream UInt8} {g w : Bytes} :
    (xs.foldl (hearReply mReplyStr) c).rest <+: c.rest ∧
      (c.Carries g w → (xs.foldl (hearReply mReplyStr) c).Carries g w) := by
  induction xs generalizing c with
  | nil => exact ⟨List.prefix_rfl, id⟩
  | cons x xs ih =>
    have hx := hQuiet x List.mem_cons_self
    obtain ⟨hRest, hCarries⟩ := ih (fun y hy => hQuiet y (List.mem_cons_of_mem x hy)) (c := hearReply mReplyStr c x)
    cases x with
    | stopped => exact ⟨hRest.trans c.rest_shut, fun h => hCarries h.shut⟩
    | finished id => exact ⟨hRest, hCarries⟩
    | timedOut phase => exact ⟨hRest, hCarries⟩
    | started id op => cases hx
    | invokedHandler req => cases hx
    | assignedReplyStr => cases hx

theorem foldl_hearRequestHandler {xs : List Effect} (hQuiet : ∀ x ∈ xs, x.starts = false) (due : Option Reply) :
    xs.foldl (hearRequestHandler app) due = due := by
  induction xs with
  | nil => rfl
  | cons x xs ih =>
    have hx := hQuiet x List.mem_cons_self
    have hSame : hearRequestHandler app due x = due := by
      cases x <;> first | rfl | cases hx
    rw [List.foldl_cons, hSame, ih fun y hy => hQuiet y (List.mem_cons_of_mem x hy)]

theorem Listening.next (h : x.Listening) {s t : Session} (hSession : x.session = some s)
    (hStopped : t.mStopped = s.mStopped) (hNext : y.session = some t) : y.Listening := by
  intro u hu
  obtain rfl := Option.some.inj (hNext.symm.trans hu)
  rw [hStopped]
  exact h s hSession

theorem exists_session {e : Session.Event} (hAt : x.At r stage) (hStep : x.sessionStep app e = some y) :
    ∃ s t st, x.session = some s ∧ stage = some st ∧ s.At r st ∧ s.step e = some t ∧
      y = { x with
        session := some t
        reply := (t.history.drop s.history.length).foldl (hearReply t.mReplyStr) x.reply
        due := (t.history.drop s.history.length).foldl (hearRequestHandler app) x.due } := by
  cases stage with
  | none =>
    rw [sessionStep, show x.session = none from hAt] at hStep
    cases hStep
  | some st =>
    obtain ⟨s, hSession, hAt⟩ := hAt
    obtain ⟨t, ht, rfl⟩ := (sessionStep_eq_some hSession).mp hStep
    exact ⟨s, t, st, hSession, rfl, hAt, ht, rfl⟩

theorem sessionStep_frame {e : Session.Event} (hStep : x.sessionStep app e = some y) :
    y.client = x.client ∧ y.request = x.request ∧ y.connected = x.connected ∧ y.scheme = x.scheme := by
  obtain ⟨s, -, hMap⟩ := Option.bind_eq_some_iff.mp hStep
  obtain ⟨t, -, rfl⟩ := Option.map_eq_some_iff.mp hMap
  exact ⟨rfl, rfl, rfl, rfl⟩

theorem Sound.outside (h : x.Sound app r serverUrl serverPort stage [] got) {e : Session.Event}
    (hOutside : e.isOutside = true) (hStep : x.sessionStep app e = some y) :
    y.Sound app r serverUrl serverPort stage [] got := by
  obtain ⟨s, t, st, -, rfl, hAt, ht, rfl⟩ := exists_session h.atStage hStep
  obtain ⟨hAt', xs, hHistory, hQuiet⟩ := hAt.outside hOutside ht
  obtain ⟨hRest, hCarries⟩ := foldl_hearReply hQuiet t.mReplyStr (c := x.reply) (g := got) (w := [])
  have hEmpty (hNone : x.reply.rest = []) : (xs.foldl (hearReply t.mReplyStr) x.reply).rest = [] := by
    rw [hNone] at hRest
    exact List.prefix_nil.mp hRest
  rw [hHistory, List.drop_left, foldl_hearRequestHandler hQuiet]
  refine { h with atStage := ⟨t, rfl, hAt'⟩, silent := ?_, reply := ?_, due := ?_ }
  · intro hNone
    exact ⟨hEmpty (h.silent hNone).1, (h.silent hNone).2⟩
  · intro q hq
    exact (foldl_hearReply hQuiet t.mReplyStr).2 (h.reply q hq)
  · intro rep hRep
    obtain ⟨id, q, hStage, hApp, hNone, hGot⟩ := h.due rep hRep
    exact ⟨id, q, hStage, hApp, hEmpty hNone, hGot⟩

theorem Sound.fails (h : x.Sound app r serverUrl serverPort stage [] got) {id : ℕ} {ec : ErrorCode}
    (hStep : x.sessionStep app (.complete id (.error ec)) = some y) :
    y.Sound app r serverUrl serverPort (some (.ended (Stage.handedOver stage))) [] got := by
  obtain ⟨s, t, st, -, rfl, hAt, ht, rfl⟩ := exists_session h.atStage hStep
  obtain ⟨hAt', hOther, xs, hHistory, hQuiet⟩ := hAt.fails ht
  rw [hHistory, List.drop_left, foldl_hearRequestHandler hQuiet]
  refine { h with atStage := ⟨t, rfl, hAt'⟩, request := ?_, silent := ?_, reply := ?_, due := ?_ }
  · intro g hg
    cases hg
  · intro hNone
    obtain ⟨hRest, hGot⟩ := h.silent hNone
    have hLess := (foldl_hearReply hQuiet t.mReplyStr (c := x.reply) (g := got) (w := [])).1
    rw [hRest] at hLess
    exact ⟨List.prefix_nil.mp hLess, hGot⟩
  · intro q hq
    exact (foldl_hearReply hQuiet t.mReplyStr).2 (h.reply q hq)
  · intro rep hRep
    obtain ⟨id', q, hStage, -⟩ := h.due rep hRep
    exact absurd (Option.some.inj hStage) (hOther id' q)

theorem awaits_eq {s : Session} (hSession : x.session = some s) {id : ℕ} {op : Operation}
    (h : x.awaits id op = true) :
    s.outstanding.lookup id = some op := by
  rw [awaits, hSession] at h
  exact of_decide_eq_true h

theorem Sound.handshake (h : x.Sound app r serverUrl serverPort stage [] got) {id : ℕ} {data : Bytes}
    (hAwaits : x.awaits id .handshake = true) (hStep : x.sessionStep app (.complete id (.ok data)) = some y) :
    ∃ id', y.Sound app r serverUrl serverPort (some (.read id' [])) [] got ∧ stage = some (.handshake id) ∧
      y.reply = x.reply ∧ (x.Listening → y.Listening) := by
  obtain ⟨s, t, st, hSession, rfl, hAt, ht, rfl⟩ := exists_session h.atStage hStep
  obtain ⟨rfl, hAt', hHistory, hStopped⟩ := hAt.shakes (awaits_eq hSession hAwaits) ht
  rw [hHistory, List.drop_left]
  refine ⟨_, { h with atStage := ⟨t, rfl, hAt'⟩, due := ?_ }, rfl, rfl,
    fun hListening => hListening.next hSession hStopped rfl⟩
  intro rep hRep
  obtain ⟨id', q, hStage, -⟩ := h.due rep hRep
  cases hStage

theorem written_prefix (x : Exchange) : x.written r serverUrl serverPort <+: r.toBytes serverUrl serverPort := by
  unfold written
  split
  · exact List.nil_prefix
  · exact List.prefix_rfl

theorem Sound.readSome {data : Bytes} (h : x.Sound app r serverUrl serverPort stage data got)
    (hReq : r.Encodable serverUrl serverPort) {id : ℕ} (hAwaits : x.awaits id .readSome = true)
    (hStep : x.sessionStep app (.complete id (.ok data)) = some y) :
    (x.Listening → y.Listening) ∧ y.reply = x.reply ∧ ∃ g id', stage = some (.read id g) ∧
      ((∃ q, y.Sound app r serverUrl serverPort (some (.handle id' q)) [] got ∧ y.due = some (app q)) ∨
        y.Sound app r serverUrl serverPort (some (.read id' (g ++ data))) [] got ∧
          g ++ data ≠ r.toBytes serverUrl serverPort) := by
  obtain ⟨s, t, st, hSession, rfl, hAt, ht, rfl⟩ := exists_session h.atStage hStep
  obtain ⟨g, rfl, hRead⟩ := hAt.reads hReq (awaits_eq hSession hAwaits) ht
  obtain ⟨hRest, rfl⟩ := h.silent rfl
  have hCarries := h.request g rfl
  obtain ⟨hStopped, hNext⟩ := hRead (hCarries.received.trans x.written_prefix)
  rcases hNext with ⟨-, q, hAt', hHistory⟩ | ⟨hMore, hAt', hHistory⟩
  · rw [hHistory, List.drop_left]
    refine ⟨fun hListening => hListening.next hSession hStopped rfl, rfl, g, _, rfl,
      .inl ⟨q, { h with
        atStage := ⟨t, rfl, hAt'⟩, request := ?_, silent := ?_, reply := ?_, due := ?_, told := ?_ }, rfl⟩⟩
    · intro g' hg'
      cases hg'
    · intro hNone
      cases hNone
    · intro q' hq'
      show [] ++ x.reply.rest <+: _
      rw [hRest]
      exact List.nil_prefix
    · intro rep hRep
      exact ⟨_, q, rfl, (Option.some.inj hRep).symm, hRest, rfl⟩
    · intro err rep hMem
      rcases h.told err rep hMem with hEmpty | ⟨q', hq', -⟩
      · exact .inl hEmpty
      · cases hq'
  · rw [hHistory, List.drop_left]
    refine ⟨fun hListening => hListening.next hSession hStopped rfl, rfl, g, _, rfl,
      .inr ⟨{ h with atStage := ⟨t, rfl, hAt'⟩, request := ?_, silent := fun _ => ⟨hRest, rfl⟩, due := ?_ },
        hMore⟩⟩
    · intro g' hg'
      obtain rfl := Option.some.inj hg'
      rw [List.append_nil]
      exact hCarries
    · intro rep hRep
      obtain ⟨id', q, hStage, -⟩ := h.due rep hRep
      cases hStage

/-- The request handler replies: a session that was stopped by its timer does not listen. -/
theorem Sound.answer (h : x.Sound app r serverUrl serverPort stage [] got) {rep : Reply} (hDue : x.due = some rep)
    (hStep : sessionStep app { x with due := none } (.reply rep) = some y) :
    ∃ id q, stage = some (.handle id q) ∧
      (¬ x.Listening ∧ y.Sound app r serverUrl serverPort stage [] got ∨
        ∃ id', y.Sound app r serverUrl serverPort (some (.write id' q)) [] got ∧ y.Listening ∧ got = [] ∧
          x.reply.rest = [] ∧ y.reply = x.reply.write (app q).toBytes) := by
  obtain ⟨s, t, st, hSession, rfl, hAt, ht, rfl⟩ := exists_session (x := { x with due := none }) h.atStage hStep
  obtain ⟨id, q, hStage, rfl, hRest, rfl⟩ := h.due rep hDue
  obtain rfl := Option.some.inj hStage
  have hEmpty : x.reply.Carries [] [] := by
    show [] ++ x.reply.rest <+: []
    rw [hRest]
    exact List.prefix_rfl
  refine ⟨id, q, rfl, ?_⟩
  rcases hAt.replies ht with ⟨hStopped, rfl⟩ | ⟨-, hAt', hReplyStr, hOpen, hHistory⟩
  · rw [List.drop_length]
    have hDeaf (hListening : x.Listening) : False := by
      have hNot := hListening t hSession
      rw [hStopped] at hNot
      cases hNot
    refine .inl ⟨hDeaf, { h with atStage := ⟨t, rfl, hAt⟩, due := ?_ }⟩
    intro rep' hRep'
    cases hRep'
  · rw [hHistory, List.drop_left, hReplyStr]
    refine .inr ⟨_, { h with atStage := ⟨t, rfl, hAt'⟩, request := ?_, silent := ?_, reply := ?_, due := ?_ },
      fun u hu => Option.some.inj hu ▸ hOpen, rfl, hRest, rfl⟩
    · intro g hg
      cases hg
    · intro hNone
      cases hNone
    · intro q' hq'
      obtain rfl := List.mem_singleton.mp hq'
      exact hEmpty.write _
    · intro rep' hRep'
      cases hRep'

theorem Sound.replySent (h : x.Sound app r serverUrl serverPort stage [] got) {id : ℕ} {data : Bytes}
    (hAwaits : x.awaits id .write = true) (hStep : x.sessionStep app (.complete id (.ok data)) = some y) :
    ∃ q, stage = some (.write id q) ∧ y.Sound app r serverUrl serverPort (some (.ended [q])) [] got ∧
      y.reply = x.reply.shut ∧ (x.Listening → y.Listening) := by
  obtain ⟨s, t, st, hSession, rfl, hAt, ht, rfl⟩ := exists_session h.atStage hStep
  obtain ⟨⟨q, rfl, hAt'⟩, hHistory, hStopped⟩ := hAt.writes (awaits_eq hSession hAwaits) ht
  rw [hHistory, List.drop_left]
  refine ⟨q, rfl, { h with atStage := ⟨t, rfl, hAt'⟩, request := ?_, silent := ?_, reply := ?_, due := ?_ }, rfl,
    fun hListening => hListening.next hSession hStopped rfl⟩
  · intro g hg
    cases hg
  · intro hNone
    cases hNone
  · intro q' hq'
    exact (h.reply q' hq').shut
  · intro rep hRep
    obtain ⟨id', q', hStage, -⟩ := h.due rep hRep
    cases hStage

/-! ### Every run -/

theorem at_serverSession (kind : ServerKind) (mRequest : Request) (major minor : Int) (mReply : Reply) :
    ∃ stage, (serverSession kind mRequest major minor mReply).At r stage ∧ Stage.got (some stage) = some [] ∧
      (kind = .http → stage = .read 0 []) ∧ (kind = .https → stage = .handshake 0) := by
  cases kind with
  | http =>
    exact ⟨.read 0 [], .read rfl (has_httpRequestParser major minor) rfl, rfl, fun _ => rfl, fun hKind =>
      (by cases hKind)⟩
  | https =>
    exact ⟨.handshake 0, .handshake rfl (has_httpRequestParser major minor) rfl, rfl, fun hKind => (by cases hKind),
      fun _ => rfl⟩

theorem Sound.accept (h : x.Sound app r serverUrl serverPort none [] got) {s : Session} {st : Stage} (hAt : s.At r st)
    (hGot : Stage.got (some st) = some []) :
    Sound app r serverUrl serverPort { x with session := some s } (some st) [] got := by
  have hNone : st.handed = [] := by
    cases st with
    | handshake id => rfl
    | read id g => rfl
    | handle id q => cases hGot
    | write id q => cases hGot
    | ended qs => cases hGot
  obtain ⟨hRest, rfl⟩ := h.silent rfl
  refine { h with
    atStage := ⟨s, rfl, hAt⟩, request := ?_, silent := fun _ => ⟨hRest, rfl⟩, reply := ?_, due := ?_, told := ?_ }
  · intro g hg
    obtain rfl := Option.some.inj (hGot.symm.trans hg)
    exact h.request [] rfl
  · intro q hq
    rw [Stage.handedOver, hNone] at hq
    cases hq
  · intro rep hRep
    obtain ⟨id, q, hStage, -⟩ := h.due rep hRep
    cases hStage
  · intro err rep hMem
    rcases h.told err rep hMem with hEmpty | ⟨q, hq, -⟩
    · exact .inl hEmpty
    · cases hq

theorem Sound.sendRequest (h : x.Sound app r serverUrl serverPort stage sent got) {n : ℕ} {c : Stream UInt8}
    (hSend : x.request.send n = some c) : Sound app r serverUrl serverPort { x with request := c } stage sent got :=
  { h with request := fun g hg => (h.request g hg).send hSend }

theorem Sound.receiveRequest (h : x.Sound app r serverUrl serverPort stage [] got) {n : ℕ} {data : Bytes}
    {c : Stream UInt8} (hReceive : x.request.receive n = some (data, c)) :
    Sound app r serverUrl serverPort { x with request := c } stage data got :=
  { h with request := fun g hg => (List.append_nil g ▸ h.request g hg).receive hReceive }

theorem Sound.sendReply (h : x.Sound app r serverUrl serverPort stage sent got) {n : ℕ} {c : Stream UInt8}
    (hSend : x.reply.send n = some c) : Sound app r serverUrl serverPort { x with reply := c } stage sent got := by
  have hRest : c.rest = x.reply.rest := (Stream.send_spec hSend).1
  refine { h with silent := ?_, reply := fun q hq => (h.reply q hq).send hSend, due := ?_ }
  · rw [hRest]
    exact h.silent
  · rw [hRest]
    exact h.due

theorem Sound.receive (h : x.Sound app r serverUrl serverPort stage sent got) {n : ℕ} {data : Bytes}
    {c : Stream UInt8} (hReceive : x.reply.receive n = some (data, c)) :
    Sound app r serverUrl serverPort { x with reply := c } stage sent (got ++ data) := by
  obtain ⟨hRest, -, -, hSome⟩ := Stream.receive_spec hReceive
  have hNotEmpty (hNone : x.reply.rest = []) : False := by
    rw [hNone] at hRest
    exact hSome (List.append_eq_nil_iff.mp hRest).1
  refine { h with silent := ?_, reply := fun q hq => (h.reply q hq).receive hReceive, due := ?_ }
  · intro hNone
    exact (hNotEmpty (h.silent hNone).1).elim
  · intro rep hRep
    obtain ⟨id, q, -, -, hNone, -⟩ := h.due rep hRep
    exact (hNotEmpty hNone).elim

theorem Sound.connected (h : x.Sound app r serverUrl serverPort stage sent got) (connected : Bool) :
    Sound app r serverUrl serverPort { x with connected } stage sent got :=
  { h with }

theorem Sound.client (h : x.Sound app r serverUrl serverPort stage [] x.client.got)
    (hApp : ∀ q, q.Agrees r → (app q).Encodable) {e : Client.Event} (hGains : x.client.gains e = [])
    (hStep : x.clientStep message e = some y) : ∃ stage', y.Sound app r serverUrl serverPort stage' []
      y.client.got := by
  refine ⟨stage, clientStep (e := e) ?_ hApp hStep⟩
  rwa [hGains, List.append_nil]

theorem gains_ready_nil (s : Client) : s.gains (.ready (.ok [])) = [] := by
  simp [Client.gains]

theorem sound_step (hReq : r.Encodable serverUrl serverPort) (hApp : ∀ q, q.Agrees r → (app q).Encodable) {e : Event}
    (h : x.Sound app r serverUrl serverPort stage [] x.client.got) (hStep : x.step app message e = some y) :
    ∃ stage', y.Sound app r serverUrl serverPort stage' [] y.client.got := by
  have hOutside {e : Session.Event} (hOut : e.isOutside = true) (hStep : x.sessionStep app e = some y) :
      ∃ stage', y.Sound app r serverUrl serverPort stage' [] y.client.got :=
    ⟨stage, (sessionStep_frame hStep).1.symm ▸ h.outside hOut hStep⟩
  cases e with
  | resolve =>
    obtain ⟨-, hStep⟩ := Option.ite_none_right_eq_some.mp hStep
    exact h.client hApp (gains_ready_nil _) hStep
  | connect =>
    obtain ⟨-, hStep⟩ := Option.ite_none_right_eq_some.mp hStep
    obtain ⟨z, hz, rfl⟩ := Option.map_eq_some_iff.mp hStep
    obtain ⟨stage', h'⟩ := h.client hApp (gains_ready_nil _) hz
    exact ⟨stage', h'.connected true⟩
  | accept mRequest major minor mReply =>
    obtain ⟨⟨-, hNone⟩, hStep⟩ := Option.ite_none_right_eq_some.mp hStep
    obtain rfl := Option.some.inj hStep
    cases stage with
    | some st =>
      obtain ⟨s, hSession, -⟩ := h.atStage
      rw [hSession] at hNone
      cases hNone
    | none =>
      obtain ⟨st, hAt, hGot, -⟩ := at_serverSession (r := r) x.scheme.server mRequest major minor mReply
      exact ⟨some st, h.accept hAt hGot⟩
  | clientHandshake =>
    obtain ⟨-, hStep⟩ := Option.ite_none_right_eq_some.mp hStep
    exact h.client hApp (gains_ready_nil _) hStep
  | serverHandshake id =>
    obtain ⟨⟨hAwaits, -⟩, hStep⟩ := Option.ite_none_right_eq_some.mp hStep
    obtain ⟨id', h', -⟩ := h.handshake hAwaits hStep
    exact ⟨_, (sessionStep_frame hStep).1.symm ▸ h'⟩
  | sendRequest n =>
    obtain ⟨c, hSend, rfl⟩ := Option.map_eq_some_iff.mp hStep
    exact ⟨stage, h.sendRequest hSend⟩
  | requestSent =>
    obtain ⟨-, hStep⟩ := Option.ite_none_right_eq_some.mp hStep
    exact h.client hApp (gains_ready_nil _) hStep
  | receiveRequest id n =>
    obtain ⟨hAwaits, hStep⟩ := Option.ite_none_right_eq_some.mp hStep
    obtain ⟨⟨data, c⟩, hReceive, hStep⟩ := Option.bind_eq_some_iff.mp hStep
    obtain ⟨-, -, g, id', -, ⟨q, h', -⟩ | ⟨h', -⟩⟩ := (h.receiveRequest hReceive).readSome hReq hAwaits hStep
    · exact ⟨_, (sessionStep_frame hStep).1.symm ▸ h'⟩
    · exact ⟨_, (sessionStep_frame hStep).1.symm ▸ h'⟩
  | answer =>
    obtain ⟨rep, hDue, hStep⟩ := Option.bind_eq_some_iff.mp hStep
    obtain ⟨id, q, -, ⟨-, h'⟩ | ⟨id', h', -⟩⟩ := h.answer hDue hStep
    · exact ⟨_, (sessionStep_frame hStep).1.symm ▸ h'⟩
    · exact ⟨_, (sessionStep_frame hStep).1.symm ▸ h'⟩
  | sendReply n =>
    obtain ⟨c, hSend, rfl⟩ := Option.map_eq_some_iff.mp hStep
    exact ⟨stage, h.sendReply hSend⟩
  | replySent id =>
    obtain ⟨⟨hAwaits, -⟩, hStep⟩ := Option.ite_none_right_eq_some.mp hStep
    obtain ⟨q, -, h', -⟩ := h.replySent hAwaits hStep
    exact ⟨_, (sessionStep_frame hStep).1.symm ▸ h'⟩
  | receiveReply n =>
    obtain ⟨hChain, hStep⟩ := Option.ite_none_right_eq_some.mp hStep
    obtain ⟨⟨data, c⟩, hReceive, hStep⟩ := Option.bind_eq_some_iff.mp hStep
    have hGains : x.client.gains (.ready (.ok data)) = data := if_pos hChain
    have hRead := h.receive hReceive
    rw [← hGains] at hRead
    exact ⟨stage, Sound.clientStep hRead hApp hStep⟩
  | replyEnds =>
    obtain ⟨-, hStep⟩ := Option.ite_none_right_eq_some.mp hStep
    exact h.client hApp rfl hStep
  | deliver => exact h.client hApp rfl hStep
  | clientWait i => exact h.client hApp rfl hStep
  | serverWait i => exact hOutside rfl hStep
  | clientExpires => exact h.client hApp rfl hStep
  | serverExpires => exact hOutside rfl hStep
  | clientFails ec => exact h.client hApp rfl hStep
  | serverFails id ec => exact ⟨_, (sessionStep_frame hStep).1.symm ▸ h.fails hStep⟩
  | serverStops => exact hOutside rfl hStep

theorem sound_exchange (scheme : Scheme) (statusCode : ℕ) :
    (exchange scheme serverUrl serverPort r statusCode).Sound app r serverUrl serverPort none [] [] where
  atStage := rfl
  reqStr := rfl
  has := has_httpReplyParser statusCode
  reads data hChain := nomatch hChain
  request g hg := by
    obtain rfl := Option.some.inj hg
    exact List.nil_prefix
  silent _ := ⟨rfl, rfl⟩
  reply q hq := nomatch hq
  due rep hRep := nomatch hRep
  told err rep hMem := by simp [exchange, httpClient, Client.run, Client.start, Client.emit] at hMem

def handedOver (x : Exchange) : List Request :=
  match x.session with
  | some s => s.handedOver
  | none => []

theorem At.handedOver_eq (h : x.At r stage) : x.handedOver = Stage.handedOver stage := by
  cases stage with
  | none => rw [Exchange.handedOver, show x.session = none from h]; rfl
  | some st =>
    obtain ⟨s, hSession, hAt⟩ := h
    rw [Exchange.handedOver, hSession]
    exact hAt.handedOver.1

theorem exists_sound {scheme : Scheme} {statusCode : ℕ} {events : List Event}
    (hReq : r.Encodable serverUrl serverPort)
    (hApp : ∀ q, q.Agrees r → (app q).Encodable)
    (hRun : PartialRun.run (step app message) (exchange scheme serverUrl serverPort r statusCode) events = some x) :
    ∃ stage, x.Sound app r serverUrl serverPort stage [] x.client.got := by
  have hSteps : PartialRun.Preserves (step app message) fun x : Exchange =>
      ∃ stage, x.Sound app r serverUrl serverPort stage [] x.client.got := by
    rintro x e y ⟨stage, h⟩ hStep
    exact sound_step hReq hApp h hStep
  exact hSteps.run ⟨none, sound_exchange scheme statusCode⟩ hRun

/-- What the client reads and tells is from the reply to its request. -/
theorem Sound.tells (h : x.Sound app r serverUrl serverPort stage [] x.client.got) :
    (x.handedOver.length ≤ 1 ∧ ∀ q ∈ x.handedOver, q.Agrees r) ∧
      (x.client.got = [] ∨ ∃ q ∈ x.handedOver, x.client.got <+: (app q).toBytes) ∧
      ∀ err rep, .calledBack err rep ∈ x.client.history →
        rep.content = [] ∨ ∃ q ∈ x.handedOver, rep.content <+: (app q).content := by
  rw [h.atStage.handedOver_eq]
  refine ⟨h.atStage.handedOver, ?_, h.told⟩
  cases hHanded : Stage.handedOver stage with
  | nil => exact .inl (h.silent hHanded).2
  | cons q qs => exact .inr ⟨q, by simp, (h.reply q (by simp [hHanded])).received⟩

end Exchange

open Exchange

/-- In every run, whatever fails: the handler gets one request at most, the one that the client was made with; the
client reads a beginning of the handler's reply and nothing else, and tells its caller a beginning of its content. -/
theorem exchange_sound {scheme : Scheme} {serverUrl serverPort : Bytes} {r : Request} {statusCode : ℕ}
    {app : Request → Reply} {message : Messages} {events : List Event} {x : Exchange}
    (hReq : r.Encodable serverUrl serverPort) (hApp : ∀ q, q.Agrees r → (app q).Encodable)
    (hRun : PartialRun.run (step app message) (exchange scheme serverUrl serverPort r statusCode) events = some x) :
    (x.handedOver.length ≤ 1 ∧ ∀ q ∈ x.handedOver, q.Agrees r) ∧
      (x.client.got = [] ∨ ∃ q ∈ x.handedOver, x.client.got <+: (app q).toBytes) ∧
      ∀ err rep, .calledBack err rep ∈ x.client.history →
        rep.content = [] ∨ ∃ q ∈ x.handedOver, rep.content <+: (app q).content := by
  obtain ⟨stage, h⟩ := exists_sound hReq hApp hRun
  exact h.tells

/-! ### The echo server -/

def echo (req : Request) : Reply :=
  ⟨200, [⟨ascii "Content-Type", ascii "text"⟩],
    ascii "echo request uri: " ++ req.uri ++ ascii " body: " ++ req.body⟩

theorem echo_encodable (q : Request) (h : q.Agrees putRequest) : (echo q).Encodable := by
  have hSame : echo q = echo putRequest := by rw [echo, h.uri, h.body]; rfl
  rw [hSame]
  refine ⟨⟨.ok, rfl⟩, ?_, by decide +kernel, by decide +kernel⟩
  intro x hx
  obtain rfl : x = ⟨ascii "Content-Type", ascii "text"⟩ := by simpa [echo] using hx
  exact plain_of_name (by decide +kernel) ⟨by decide +kernel, by decide +kernel⟩

/-- The time limit is reached while the host is resolved: the client connects all the same, and its last read fails
when it has most of the reply. -/
def lateExchange : List Event :=
  [.resolve, .clientExpires, .clientWait 0, .deliver, .connect, .deliver,
    .accept ⟨[], [], 0, 0, [], []⟩ 0 0 ⟨0, [], []⟩, .sendRequest 125, .requestSent, .deliver, .receiveRequest 0 50,
    .serverWait 0, .receiveRequest 1 75, .answer, .sendReply 94, .receiveReply 80, .deliver,
    .clientFails .operationAborted, .deliver]

def lateReply : Reply :=
  ⟨200, [⟨ascii "Content-Type", ascii "text"⟩, ⟨ascii "Content-Length", ascii "35"⟩],
    (echo putRequest).content.take 21⟩

theorem lateExchange_sound :
    ∃ x rep, PartialRun.run (step echo fun _ => ascii "aborted")
        (exchange .http (ascii "localhost") (ascii "80") putRequest 0) lateExchange = some x ∧
      .calledBack (ascii "timeout") ⟨0, [], []⟩ ∈ x.client.history ∧
        .calledBack (ascii "aborted") rep ∈ x.client.history ∧ rep.content.length = 21 ∧
          ∃ q ∈ x.handedOver, rep.content <+: (echo q).content := by
  have hRuns : ((PartialRun.run (step echo fun _ => ascii "aborted")
      (exchange .http (ascii "localhost") (ascii "80") putRequest 0) lateExchange).map fun x =>
        x.client.history.filterMap ClientEffect.answer) =
        some [(ascii "timeout", ⟨0, [], []⟩), (ascii "aborted", lateReply)] := by decide +kernel
  obtain ⟨x, hRun, hTold⟩ := Option.map_eq_some_iff.mp hRuns
  have hAnswer {a : Bytes × Reply} (h : a ∈ x.client.history.filterMap ClientEffect.answer) :
      .calledBack a.1 a.2 ∈ x.client.history := by
    obtain ⟨effect, hMem, hSome⟩ := List.mem_filterMap.mp h
    cases effect with
    | calledBack err rep =>
      obtain rfl := Option.some.inj hSome
      exact hMem
    | _ => cases hSome
  have hMem : .calledBack (ascii "aborted") lateReply ∈ x.client.history :=
    hAnswer (a := (ascii "aborted", lateReply)) (by rw [hTold]; simp)
  refine ⟨x, lateReply, hRun, hAnswer (a := (ascii "timeout", ⟨0, [], []⟩)) (by rw [hTold]; simp), hMem,
    by decide +kernel, ?_⟩
  exact ((exchange_sound putRequest_encodable echo_encodable hRun).2.2 _ lateReply hMem).resolve_left
    (by decide +kernel)

end HttpUtils
