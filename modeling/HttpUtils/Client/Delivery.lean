import HttpUtils.Client.Answers
import HttpUtils.HeaderDivision

/-!
# The reply that the caller gets

An end of the stream is a success, whatever the parser has seen, and a reply that is complete is not handed over
until the stream ends. What `http_parser` makes of the end of the stream is never asked.
-/

namespace HttpUtils
set_option autoImplicit false

open WaitableTimer

namespace ClientEffect

def data : ClientEffect → Option Bytes
  | .received bytes => some bytes
  | _ => none

def good : ClientEffect → Option Reply
  | .parsed .good reply => some reply
  | _ => none

def answer : ClientEffect → Option (Bytes × Reply)
  | .calledBack err reply => some (err, reply)
  | _ => none

end ClientEffect

/-- The reads that the parser `t` was given are one response when the stream ends here, and `reply` has its
body. -/
structure FormsReply (t : HttpReplyParser) (reads : List Bytes) (reply : Reply) : Prop where
  errno : (t.parseAll reads).2.mParser.httpErrno = .ok
  eof : (httpParserExecute (t.parseAll reads).2.mParser []).2.2 = 0
  one : (replyMessages.calls t reads ++ (httpParserExecute (t.parseAll reads).2.mParser []).2.1).count
    .onMessageComplete = 1
  content : reply.content = (Message.spell {} (replyMessages.calls t reads)).body

namespace Client

def received (s : Client) : List Bytes := s.history.filterMap ClientEffect.data

/-- Every success is a response. -/
def SuccessWhole (t : HttpReplyParser) (s : Client) : Prop :=
  ∀ a b reply, s.history = a ++ .calledBack [] reply :: b → FormsReply t (a.filterMap ClientEffect.data) reply

/-- The parser has seen one response that ends here. -/
def Whole (t : HttpReplyParser) (s : Client) : Prop :=
  s.mRepParser.mParser.state = .sBodyIdentityEof ∧ (replyMessages.calls t s.received).count .onMessageComplete = 0 ∨
    s.mRepParser.mParser.state ∈ [.sDead, .sStartRes, .sStartReq] ∧
      (replyMessages.calls t s.received).count .onMessageComplete = 1

variable (message : Messages)

/-- The stream ends, and no response does. -/
def Truncates (t : HttpReplyParser) (s : Client) (e : Event) : Prop :=
  e = .deliver ∧ (∃ op result, s.chain = .queued op result ∧ s.answer message op result = some []) ∧ ¬ s.Whole t

def Alive (p : HttpReplyParser) : Prop :=
  (∃ calls, replyMessages.Holds p calls) ∨
    p.mParser.httpErrno ≠ .ok ∧ (p.mParser.state = .sHeaderField ∨ p.mParser.state = .sHeaderValue)

structure Fed (t : HttpReplyParser) (s : Client) : Prop where
  parser : s.mRepParser = (t.parseAll s.received).2
  shows' : s.mRepParser.Shows (Message.spell {} (replyMessages.calls t s.received))
  alive : s.chain ≠ .idle → Alive s.mRepParser
  reads : ∀ data, s.chain = .queued .read (.ok data) → data ≠ []

variable {message}

theorem Alive.parse {p : HttpReplyParser} {m : Message} {b : Bytes} (h : Alive p) (hShows : p.Shows m) (hb : b ≠ [])
    (hGoes : (p.parse b).1 ≠ .bad) : Alive (p.parse b).2 := by
  rcases h with ⟨calls, hHolds⟩ | ⟨hErrno, -⟩
  · cases hRun : PartialRun.run Scan.next (Scan.resume p.mParser calls) b with
    | none => exact absurd (hHolds.parse_none hb hRun) hGoes
    | some s =>
      cases hCut : s.cut with
      | some u => exact .inl ⟨u.calls, (hHolds.parse_cut hb hRun hCut).2.2.2⟩
      | none =>
        obtain ⟨hReads, hErrno, -⟩ := hHolds.parse_overflow hb hRun hCut
        have hErrno' : (p.parse b).2.mParser.httpErrno = .headerOverflow := hErrno
        have hState : (p.parse b).2.mParser.state = s.parser.state := hReads.state
        refine .inr ⟨by simp [hErrno'], ?_⟩
        rw [hState]
        have hFits := (hHolds.sound.run hRun).between.fits
        cases hCtl : s.ctl with
        | outer =>
          obtain ⟨u, hSome, -⟩ := Scan.cut_outer hCtl
          rw [hCut] at hSome
          cases hSome
        | field n =>
          rw [hCtl] at hFits
          exact .inl hFits
        | value n g jump =>
          rw [hCtl] at hFits
          exact .inr hFits.1
  · exact absurd (MessageParser.parse_after_error (M := replyMessages) hErrno hb hShows) hGoes

theorem Fed.read {t : HttpReplyParser} {s u : Client} {op : ClientOperation} {result : IoResult} {x : ClientEffect}
    (h : s.Fed t) (hx : x.data = none) (parser : u.mRepParser = s.parserAfter op result)
    (history : u.history = s.history ++ (s.heard op result ++ [x])) :
    u.mRepParser = (t.parseAll u.received).2 ∧
      u.mRepParser.Shows (Message.spell {} (replyMessages.calls t u.received)) := by
  have hSame (hHeard : s.heard op result = []) (hParser : s.parserAfter op result = s.mRepParser) :
      u.mRepParser = (t.parseAll u.received).2 ∧
        u.mRepParser.Shows (Message.spell {} (replyMessages.calls t u.received)) := by
    have hReceived : u.received = s.received := by
      rw [received, received, history, hHeard]
      simp [hx]
    rw [hReceived, parser, hParser]
    exact ⟨h.parser, h.shows'⟩
  cases result with
  | error ec => cases op <;> exact hSame rfl rfl
  | ok data =>
    cases op with
    | read =>
      have hReceived : u.received = s.received ++ [data] := by
        have hHeard : (s.heard .read (.ok data)).filterMap ClientEffect.data = [data] := rfl
        rw [received, received, history, List.filterMap_append, List.filterMap_append, hHeard]
        simp [hx]
      have hParser : (replyMessages.parseAll t s.received).2 = s.mRepParser := by
        rw [replyMessages_parseAll]
        exact h.parser.symm
      rw [hReceived, parser]
      constructor
      · rw [← replyMessages_parseAll, MessageParser.parseAll_append, hParser]
        rfl
      · rw [MessageParser.calls_append, hParser, Message.spell_append]
        have hShows := replyMessages.shows_parse data h.shows'
        rw [MessageParser.calls, MessageParser.calls, List.append_nil]
        exact hShows
    | _ => exact hSame rfl rfl

theorem received_append {s u : Client} {xs : List ClientEffect} (history : u.history = s.history ++ xs)
    (h : xs.filterMap ClientEffect.data = []) : u.received = s.received := by
  rw [received, received, history, List.filterMap_append, h, List.append_nil]

theorem Fed.frame {t : HttpReplyParser} {s u : Client} (h : s.Fed t) (received : u.received = s.received)
    (parser : u.mRepParser = s.mRepParser) (chain : SameOperation s.chain u.chain) : u.Fed t := by
  refine ⟨?_, ?_, ?_, ?_⟩
  · rw [received, parser]
    exact h.parser
  · rw [received, parser]
    exact h.shows'
  · intro hRuns
    rw [parser]
    exact h.alive fun hIdle => hRuns (chain.idle_iff.mpr hIdle)
  · intro data hChain
    apply h.reads
    cases hSame : s.chain with
    | idle =>
      rw [hSame] at chain
      rw [show u.chain = .idle from chain] at hChain
      cases hChain
    | pending op =>
      rw [hSame] at chain
      rcases chain with hPending | ⟨ec, hFailed⟩
      · rw [hPending] at hChain
        cases hChain
      · rw [hFailed] at hChain
        cases hChain
    | queued op result =>
      rw [hSame] at chain
      exact (show u.chain = .queued op result from chain) ▸ hChain

theorem fed_step (t : HttpReplyParser) : PartialRun.Preserves (step message) (Fed t) := by
  intro s e u hs hStep
  cases step_took hStep with
  | @continues op result after _ hChain hAnswer chain timer parser history =>
    obtain ⟨hParser, hShows⟩ := hs.read rfl parser history
    refine ⟨hParser, hShows, fun _ => ?_, fun data hQueued => ?_⟩
    · have hAlive := hs.alive (by simp [hChain])
      rw [parser]
      cases result with
      | error ec => cases op <;> cases hAnswer
      | ok data =>
        cases op with
        | read =>
          apply hAlive.parse hs.shows' (hs.reads data hChain)
          intro hBad
          simp [answer, hBad] at hAnswer
        | _ => exact hAlive
    · rw [chain] at hQueued
      cases hQueued
  | @ends op result err _ hChain hAnswer chain timer parser history =>
    obtain ⟨hParser, hShows⟩ := hs.read rfl parser history
    refine ⟨hParser, hShows, fun hRuns => absurd chain hRuns, fun data hQueued => ?_⟩
    rw [chain] at hQueued
    cases hQueued
  | timesOut hTake chain timer parser history => exact hs.frame (received_append history rfl) parser chain
  | expires hPending chain timer parser history =>
    exact hs.frame (received_append history rfl) parser (chain ▸ sameOperation_refl _)
  | aborts hTake chain parser history =>
    exact hs.frame (congrArg (List.filterMap _) history) parser (chain ▸ sameOperation_refl _)
  | @completes op result _ hChain hPossible chain timer parser history =>
    have hReceived : u.received = s.received := congrArg (List.filterMap _) history
    refine ⟨?_, ?_, ?_, ?_⟩
    · rw [hReceived, parser]
      exact hs.parser
    · rw [hReceived, parser]
      exact hs.shows'
    · intro _
      rw [parser]
      exact hs.alive (by simp [hChain])
    · intro data hQueued
      obtain ⟨rfl, rfl⟩ := Chain.queued.inj (chain.symm.trans hQueued)
      simp only [Possible, decide_eq_true_eq] at hPossible
      exact (hPossible.2 trivial).1

/-! ### Successes -/

theorem eof_iff {P : HttpParser} (hErrno : P.httpErrno = .ok) (n : ℕ) :
    ((httpParserExecute P []).2.2 = 0 ∧ n + (httpParserExecute P []).2.1.count .onMessageComplete = 1) ↔
      P.state = .sBodyIdentityEof ∧ n = 0 ∨ P.state ∈ [.sDead, .sStartRes, .sStartReq] ∧ n = 1 := by
  have hExecute : httpParserExecute P [] = executeEof P := by simp [httpParserExecute, hErrno]
  rw [hExecute]
  unfold executeEof
  split <;> simp_all

/-- A reply is a response exactly where the parser says so. -/
theorem Fed.formsReply_iff {t : HttpReplyParser} {s : Client} (h : s.Fed t) (hRuns : s.chain ≠ .idle) :
    FormsReply t s.received s.mRepParser.mReply ↔ s.Whole t := by
  have hParser := h.parser
  constructor
  · rintro ⟨hErrno, hEof, hOne, -⟩
    rw [← hParser] at hErrno hEof hOne
    rw [List.count_append] at hOne
    exact (eof_iff hErrno _).mp ⟨hEof, hOne⟩
  · intro hWhole
    have hErrno : s.mRepParser.mParser.httpErrno = .ok := by
      rcases h.alive hRuns with ⟨calls, hHolds⟩ | ⟨-, hState⟩
      · exact hHolds.errno
      · rcases hWhole with ⟨hEof, -⟩ | ⟨hBetween, -⟩
        · rcases hState with hs | hs <;>
            · rw [hs] at hEof
              cases hEof
        · rcases hState with hs | hs <;>
            · rw [hs] at hBetween
              simp at hBetween
    obtain ⟨hEof, hOne⟩ := (eof_iff hErrno _).mpr hWhole
    refine ⟨?_, ?_, ?_, h.shows'.content⟩
    · rw [← hParser]
      exact hErrno
    · rw [← hParser]
      exact hEof
    · rw [← hParser, List.count_append]
      exact hOne

theorem successWhole_append {t : HttpReplyParser} {s u : Client} {xs : List ClientEffect}
    (history : u.history = s.history ++ xs) (hs : s.SuccessWhole t) (hQuiet : ∀ reply, .calledBack [] reply ∉ xs) :
    u.SuccessWhole t := by
  intro a b reply hSplit
  rw [history] at hSplit
  rcases List.append_eq_append_iff.mp hSplit with ⟨c, -, hTail⟩ | ⟨c, hFront, hTail⟩
  · exact absurd (by rw [hTail]; simp) (hQuiet reply)
  · cases c with
    | nil => exact absurd (by rw [← List.nil_append xs, ← hTail]; simp) (hQuiet reply)
    | cons x c =>
      obtain ⟨rfl, rfl⟩ := List.cons_eq_cons.mp hTail
      exact hs a c reply hFront

theorem successWhole_concat {t : HttpReplyParser} {s u : Client} {reply : Reply}
    (history : u.history = s.history ++ [.calledBack [] reply]) (hs : s.SuccessWhole t) :
    u.SuccessWhole t ↔ FormsReply t s.received reply := by
  constructor
  · intro hu
    exact hu s.history [] reply history
  · intro hForms a b reply' hSplit
    rw [history] at hSplit
    rcases List.append_eq_append_iff.mp hSplit with ⟨c, hFront, hTail⟩ | ⟨c, hFront, hTail⟩
    · cases c with
      | nil =>
        obtain ⟨hCall, -⟩ := List.cons_eq_cons.mp hTail
        cases hCall
        rw [hFront, List.append_nil]
        exact hForms
      | cons x c =>
        have hLength := congrArg List.length hTail
        simp at hLength
    · cases c with
      | nil =>
        obtain ⟨hCall, -⟩ := List.cons_eq_cons.mp hTail
        cases hCall
        rw [List.append_nil] at hFront
        rw [← hFront]
        exact hForms
      | cons x c =>
        obtain ⟨rfl, -⟩ := List.cons_eq_cons.mp hTail
        exact hs a c reply' hFront

/-- A success is the answer to an error, and nothing was read with it. -/
theorem answer_nil {s : Client} {op : ClientOperation} {result : IoResult}
    (h : s.answer message op result = some []) :
    s.heard op result = [] ∧ s.parserAfter op result = s.mRepParser := by
  cases result with
  | error ec => cases op <;> exact ⟨rfl, rfl⟩
  | ok data =>
    cases op with
    | read =>
      simp only [answer] at h
      split at h
      · have hText := Option.some.inj h
        exact absurd hText (by decide)
      · cases h
    | _ => cases h

theorem heard_no_answer (s : Client) (op : ClientOperation) (result : IoResult) (err : Bytes) (reply : Reply) :
    .calledBack err reply ∉ s.heard op result := by
  unfold heard
  split <;> simp

theorem successWhole_step {t : HttpReplyParser} {s u : Client} {e : Event} (hs : s.Fed t) (hWhole : s.SuccessWhole t)
    (hStep : s.step message e = some u) : u.SuccessWhole t ↔ ¬ s.Truncates message t e := by
  cases step_took hStep with
  | @continues op result after _ hChain hAnswer chain timer parser history =>
    refine iff_of_true (successWhole_append history hWhole ?_) ?_
    · intro reply
      simp [s.heard_no_answer op result]
    · rintro ⟨-, ⟨op', result', hChain', hNil⟩, -⟩
      obtain ⟨rfl, rfl⟩ := Chain.queued.inj (hChain.symm.trans hChain')
      rw [hAnswer] at hNil
      cases hNil
  | @ends op result err _ hChain hAnswer chain timer parser history =>
    by_cases hErr : err = []
    · subst hErr
      obtain ⟨hHeard, hSame⟩ := answer_nil hAnswer
      rw [hHeard, List.nil_append, parser, hSame] at history
      rw [successWhole_concat history hWhole, hs.formsReply_iff (by simp [hChain]), ← not_iff_not, not_not]
      constructor
      · intro hNot
        exact ⟨rfl, ⟨op, result, hChain, hAnswer⟩, hNot⟩
      · exact fun h => h.2.2
    · refine iff_of_true (successWhole_append history hWhole ?_) ?_
      · intro reply
        simp [s.heard_no_answer op result, Ne.symm hErr]
      · rintro ⟨-, ⟨op', result', hChain', hNil⟩, -⟩
        obtain ⟨rfl, rfl⟩ := Chain.queued.inj (hChain.symm.trans hChain')
        exact hErr (Option.some.inj (hAnswer.symm.trans hNil))
  | timesOut hTake chain timer parser history =>
    refine iff_of_true (successWhole_append history hWhole ?_) ?_
    · intro reply
      simp [show ascii "timeout" ≠ [] by decide, eq_comm]
    · rintro ⟨hEvent, -⟩
      cases hEvent
  | expires hPending chain timer parser history =>
    refine iff_of_true (successWhole_append history hWhole (by simp)) ?_
    rintro ⟨hEvent, -⟩
    cases hEvent
  | aborts hTake chain parser history =>
    refine iff_of_true (successWhole_append (history.trans (List.append_nil _).symm) hWhole (by simp)) ?_
    rintro ⟨hEvent, -⟩
    cases hEvent
  | completes hChain hPossible chain timer parser history =>
    refine iff_of_true (successWhole_append (history.trans (List.append_nil _).symm) hWhole (by simp)) ?_
    rintro ⟨hEvent, -⟩
    cases hEvent

theorem fed_httpClient (kind : ClientKind) (serverUrl serverPort : Bytes) (req : Request) (statusCode : ℕ) :
    (httpClient kind serverUrl serverPort req statusCode).Fed (httpReplyParser statusCode) where
  parser := rfl
  shows' := (holds_httpReplyParser statusCode).shows'
  alive _ := .inl ⟨[], holds_httpReplyParser statusCode⟩
  reads data hChain := by cases hChain

end Client

open Client

/-- Every success is a response, with its whole body, exactly while the stream does not end elsewhere. -/
theorem success_whole_iff (message : Messages) (kind : ClientKind) (serverUrl serverPort : Bytes) (req : Request)
    (statusCode : ℕ) (events : List Event) :
    PartialRun.Always (step message) (SuccessWhole (httpReplyParser statusCode))
        (httpClient kind serverUrl serverPort req statusCode) events ↔
      PartialRun.Along (step message)
        (fun s e => ∀ t, s.step message e = some t → ¬ s.Truncates message (httpReplyParser statusCode) e)
        (httpClient kind serverUrl serverPort req statusCode) events := by
  apply PartialRun.always_iff_along (fed_step _) (fun s e t hs hWhole hStep => successWhole_step hs hWhole hStep)
    (fed_httpClient kind serverUrl serverPort req statusCode)
  intro a b reply hSplit
  have hMem : ClientEffect.calledBack [] reply ∈ [ClientEffect.started .resolve] := by
    rw [show [ClientEffect.started .resolve] = _ from hSplit]
    simp
  simp at hMem

def cutBody : Bytes := ascii "HTTP/1.1 200 OK\r\nContent-Length: 10\r\n\r\nabc"

/-- The stream ends inside the body. -/
theorem cutBody_succeeds :
    ¬ PartialRun.Always (step posixMessage) (SuccessWhole (httpReplyParser 0)) (getClient .http)
        (connected .http ++ [.ready (.ok cutBody), .deliver, .ready (.error .eof), .deliver]) ∧
      (PartialRun.run (step posixMessage) (getClient .http)
          (connected .http ++ [.ready (.ok cutBody), .deliver, .ready (.error .eof), .deliver])).map
            (fun s => s.history.filter ClientEffect.isCallback) =
        some [.calledBack [] ⟨200, [⟨ascii "Content-Length", ascii "10"⟩], ascii "abc"⟩] := by
  refine ⟨?_, by decide +kernel⟩
  intro h
  have hRun : (PartialRun.run (step posixMessage) (getClient .http)
      (connected .http ++ [.ready (.ok cutBody), .deliver, .ready (.error .eof), .deliver])).map
        (fun s => (s.history.dropLast, s.history.getLast?, s.received)) =
      some ([.started .resolve, .started .connect, .started (.write (getClient .http).mReqStr), .started .read,
          .received cutBody, .parsed .indeterminate ⟨200, [⟨ascii "Content-Length", ascii "10"⟩], ascii "abc"⟩,
            .started .read],
        some (.calledBack [] ⟨200, [⟨ascii "Content-Length", ascii "10"⟩], ascii "abc"⟩),
          [cutBody]) := by decide +kernel
  obtain ⟨t, ht, hState⟩ := Option.map_eq_some_iff.mp hRun
  obtain ⟨hInit, hState⟩ := Prod.mk.inj hState
  obtain ⟨hLast, -⟩ := Prod.mk.inj hState
  have hHistory := List.dropLast_append_getLast? _ (Option.mem_def.mpr hLast)
  rw [hInit] at hHistory
  have hForms := h _ [] t (List.append_nil _).symm ht _ [] _ hHistory.symm
  have hEof := hForms.eof
  revert hEof
  decide +kernel

end HttpUtils
