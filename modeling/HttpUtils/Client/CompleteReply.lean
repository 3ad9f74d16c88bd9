import HttpUtils.BehindReply
import HttpUtils.Client.Delivery

/-!
# After the complete reply

When `parse` has returned good the client reads on. What comes next decides what the caller is told.
-/

namespace HttpUtils
set_option autoImplicit false

open WaitableTimer

/-- `parse` has returned good before the timer expired. -/
def goodInTime (h : List ClientEffect) : Bool := (h.takeWhile (· ≠ .expired)).any (·.good.isSome)

/-- What the caller is told first. -/
def firstAnswer (h : List ClientEffect) : Option (Bytes × Reply) := h.findSome? ClientEffect.answer

theorem goodInTime_append (h xs : List ClientEffect) :
    goodInTime (h ++ xs) = true ↔ goodInTime h = true ∨ .expired ∉ h ∧ goodInTime xs = true := by
  rw [goodInTime, goodInTime, List.takeWhile_append]
  split
  · rename_i hAll
    have hSame : h.takeWhile (· ≠ .expired) = h := (List.takeWhile_prefix _).eq_of_length hAll
    have hNever : .expired ∉ h := by
      intro hExpired
      rw [← hSame] at hExpired
      simpa using List.mem_takeWhile_imp hExpired
    rw [List.any_append, hSame, Bool.or_eq_true, goodInTime]
    simp [hNever]
  · rename_i hSome
    have hExpired : .expired ∈ h := by
      by_contra hNever
      have hSame : h.takeWhile (· ≠ .expired) = h := by
        rw [List.takeWhile_eq_self_iff]
        intro x hx
        rw [decide_eq_true_iff]
        rintro rfl
        exact hNever hx
      exact hSome (congrArg _ hSame)
    simp [hExpired]

theorem goodInTime_append_quiet {h xs : List ClientEffect} (hQuiet : ∀ x ∈ xs, x.good = none) :
    goodInTime (h ++ xs) = true ↔ goodInTime h = true := by
  have hNone : goodInTime xs = false := by
    rw [goodInTime, List.any_eq_false]
    intro x hx
    simp [hQuiet x ((List.takeWhile_sublist _).subset hx)]
  rw [goodInTime_append, hNone]
  simp

theorem firstAnswer_append (h xs : List ClientEffect) : firstAnswer (h ++ xs) = (firstAnswer h).or (firstAnswer xs) :=
  List.findSome?_append

namespace Client

/-- A reply that was complete in time is what the caller is told first. -/
def DeliversComplete (t : HttpReplyParser) (s : Client) : Prop :=
  goodInTime s.history = true → ∀ x, firstAnswer s.history = some x → x = ([], t.firstReply s.received)

variable (message : Messages)

/-- The handler loses a reply that is complete in time: it has an error with a text to tell, or it reads what `parse`
refuses, or what tells something behind the reply. -/
def loses (s : Client) (op : ClientOperation) : IoResult → Bool
  | .error ec => goodInTime s.history && !(op = .read && ec = .eof) && message ec ≠ []
  | .ok data =>
    op = .read &&
      if (s.mRepParser.parse data).1 = .bad then goodInTime s.history
      else (goodInTime s.history || !s.history.contains .expired) && s.mRepParser.overruns data

/-- The caller has been told nothing, and the event loses the reply. -/
def spoils (s : Client) (e : Event) : Bool :=
  (firstAnswer s.history).isNone &&
    match e with
    | .runWait i => goodInTime s.history && s.mTimer.queued[i]? = some ((), .expired)
    | .deliver =>
      match s.chain with
      | .queued op result => s.loses message op result
      | _ => false
    | _ => false

/-- A timeout is preceded by the expiry. -/
structure Timed (s : Client) : Prop where
  counted : s.Counted
  queued : ∀ w, (w, .expired) ∈ s.mTimer.queued → .expired ∈ s.history
  timeouts : s.timeouts ≠ 0 → .expired ∈ s.history

structure Undisturbed (t : HttpReplyParser) (s : Client) : Prop where
  rests : s.chain ≠ .idle → firstAnswer s.history = none → (goodInTime s.history = true ∨ .expired ∉ s.history) →
    s.mRepParser.mParser.httpErrno ≠ .ok ∧ .onMessageComplete ∉ replyMessages.calls t s.received ∨
      s.mRepParser.AtRest (replyMessages.calls t s.received)
  complete : goodInTime s.history = true → .onMessageComplete ∈ replyMessages.calls t s.received

variable {message}

theorem timed_step : PartialRun.Preserves (step message) Timed := by
  intro s e t hs hStep
  have hCounted := counted_step s e t hs.counted hStep
  have hGrows {xs : List ClientEffect} (history : t.history = s.history ++ xs) (h : .expired ∈ s.history) :
      .expired ∈ t.history := by
    rw [history]
    exact List.mem_append_left _ h
  cases step_took hStep with
  | @continues op result after _ hChain hAnswer chain timer parser history =>
    have hTimes : t.timeouts = s.timeouts := by
      rw [timeouts_append history, List.countP_append, (s.heard_quiet op result).2.1]
      rfl
    refine ⟨hCounted, ?_, ?_⟩
    · rw [timer]
      exact fun w hw => hGrows history (hs.queued w hw)
    · rw [hTimes]
      exact fun hSome => hGrows history (hs.timeouts hSome)
  | @ends op result err _ hChain hAnswer chain timer parser history =>
    have hTimes : t.timeouts = s.timeouts := by
      rw [timeouts_append history, List.countP_append, (s.heard_quiet op result).2.1]
      rfl
    refine ⟨hCounted, ?_, ?_⟩
    · intro w hw
      rw [timer, Timer.expired_cancel] at hw
      exact hGrows history (hs.queued w hw)
    · rw [hTimes]
      exact fun hSome => hGrows history (hs.timeouts hSome)
  | timesOut hTake chain timer parser history =>
    have hExpired := hGrows history (hs.queued _ (Timer.mem_of_take hTake))
    exact ⟨hCounted, fun _ _ => hExpired, fun _ => hExpired⟩
  | expires hPending chain timer parser history =>
    have hExpired : .expired ∈ t.history := by
      rw [history]
      simp
    exact ⟨hCounted, fun _ _ => hExpired, fun _ => hExpired⟩
  | aborts hTake chain parser history =>
    refine ⟨hCounted, ?_, ?_⟩
    · intro w hw
      rw [history]
      obtain ⟨-, hTimer⟩ := Timer.take_eq_some.mp hTake
      rw [hTimer] at hw
      exact hs.queued w (List.mem_of_mem_eraseIdx hw)
    · rw [show t.timeouts = s.timeouts from congrArg (List.countP _) history, history]
      exact hs.timeouts
  | completes hChain hPossible chain timer parser history =>
    refine ⟨hCounted, ?_, ?_⟩
    · rw [timer, history]
      exact hs.queued
    · rw [show t.timeouts = s.timeouts from congrArg (List.countP _) history, history]
      exact hs.timeouts

theorem Timed.expired {s : Client} (h : s.Timed) (hRuns : s.chain ≠ .idle) {x : Bytes × Reply}
    (hAnswer : firstAnswer s.history = some x) : .expired ∈ s.history := by
  apply h.timeouts
  rw [← h.counted.going hRuns, callbacks]
  intro hNone
  have hNo := List.countP_eq_zero.mp hNone
  obtain ⟨y, hy, hx⟩ := List.exists_of_findSome?_eq_some hAnswer
  cases y with
  | calledBack err reply => exact hNo _ hy rfl
  | _ => cases hx

theorem heard_no_firstAnswer (s : Client) (op : ClientOperation) (result : IoResult) :
    firstAnswer (s.heard op result) = none := by
  unfold heard
  split <;> rfl

theorem heard_no_good {s : Client} {op : ClientOperation} {result : IoResult} {err : Bytes}
    (h : s.answer message op result = some err) : ∀ x ∈ s.heard op result, x.good = none := by
  cases result with
  | error ec => cases op <;> simp [heard]
  | ok data =>
    cases op with
    | read =>
      simp only [answer] at h
      split at h
      · rename_i hBad
        simp [heard, hBad, ClientEffect.good]
      · cases h
    | _ => simp [heard]

theorem spoils_deliver {s : Client} {op : ClientOperation} {result : IoResult} (hChain : s.chain = .queued op result)
    (hNone : firstAnswer s.history = none) (hNot : s.spoils message .deliver = false) :
      s.loses message op result = false := by
  simpa [spoils, hNone, hChain] using hNot

theorem Undisturbed.frame {t : HttpReplyParser} {s u : Client} {xs : List ClientEffect} (h : s.Undisturbed t)
    (parser : u.mRepParser = s.mRepParser) (received : u.received = s.received)
    (history : u.history = s.history ++ xs)
    (hQuiet : ∀ x ∈ xs, x.good = none) (hRuns : u.chain ≠ .idle → s.chain ≠ .idle) : u.Undisturbed t := by
  have hGood : goodInTime u.history = true ↔ goodInTime s.history = true := by
    rw [history]
    exact goodInTime_append_quiet hQuiet
  refine ⟨?_, ?_⟩
  · intro hGoes hNone hTime
    rw [parser, received]
    refine h.rests (hRuns hGoes) ?_ ?_
    · rw [history, firstAnswer_append] at hNone
      exact (Option.or_eq_none_iff.mp hNone).1
    · refine hTime.imp hGood.mp fun hNever hExpired => hNever ?_
      rw [history]
      exact List.mem_append_left _ hExpired
  · intro hIn
    rw [received]
    exact h.complete (hGood.mp hIn)

theorem received_read {s u : Client} {data : Bytes} {x : ClientEffect} (hx : x.data = none)
    (history : u.history = s.history ++ (s.heard .read (.ok data) ++ [x])) : u.received = s.received ++ [data] := by
  have hHeard : (s.heard .read (.ok data)).filterMap ClientEffect.data = [data] := rfl
  rw [received, received, history, List.filterMap_append, List.filterMap_append, hHeard]
  simp [hx]

theorem calls_read {t : HttpReplyParser} {s : Client} (h : s.Fed t) (data : Bytes) :
    replyMessages.calls t (s.received ++ [data]) =
      replyMessages.calls t s.received ++ (httpParserExecute s.mRepParser.mParser data).2.1 := by
  rw [MessageParser.calls_append, replyMessages_parseAll, ← h.parser, MessageParser.calls, MessageParser.calls,
    List.append_nil]
  rfl

theorem Undisturbed.read {t : HttpReplyParser} {s u : Client} {data : Bytes} {after : ClientOperation}
    (h : s.Undisturbed t) (hFed : s.Fed t) (hFed' : u.Fed t) (hChain : s.chain = .queued .read (.ok data))
    (hAnswer : s.answer message .read (.ok data) = none) (hNot : s.spoils message .deliver = false)
    (parser : u.mRepParser = (s.mRepParser.parse data).2)
    (history : u.history = s.history ++ (s.heard .read (.ok data) ++ [.started after])) : u.Undisturbed t := by
  have hGoes : (s.mRepParser.parse data).1 ≠ .bad := by
    intro hBad
    simp [answer, hBad] at hAnswer
  have hReceived := received_read rfl history
  have hTime (hIn : goodInTime u.history = true ∨ .expired ∉ u.history) :
      goodInTime s.history = true ∨ .expired ∉ s.history := by
    rw [history, goodInTime_append] at hIn
    rcases hIn with (hHad | ⟨hNever, -⟩) | hNever
    · exact .inl hHad
    · exact .inr hNever
    · exact .inr fun hExpired => hNever (List.mem_append_left _ hExpired)
  refine ⟨?_, ?_⟩
  · intro _ hNone hIn
    have hBefore : firstAnswer s.history = none := by
      rw [history, firstAnswer_append] at hNone
      exact (Option.or_eq_none_iff.mp hNone).1
    have hOver : s.mRepParser.overruns data = false := by
      have hKept := spoils_deliver hChain hBefore hNot
      simp only [loses, hGoes, if_false, decide_true, Bool.true_and, Bool.and_eq_false_iff] at hKept
      refine hKept.resolve_left ?_
      simpa [or_iff_not_imp_left] using hTime hIn
    rw [parser, hReceived, calls_read hFed]
    rcases h.rests (by simp [hChain]) hBefore (hTime hIn) with ⟨hErrno, -⟩ | hRests
    · exact absurd (MessageParser.parse_after_error (M := replyMessages) hErrno (hFed.reads data hChain)
        hFed.shows') hGoes
    · exact hRests.parse (hFed.reads data hChain) hGoes hOver
  · intro hIn
    rw [history, goodInTime_append] at hIn
    rcases hIn with hHad | ⟨-, hNow⟩
    · rw [hReceived, calls_read hFed]
      exact List.mem_append_left _ (h.complete hHad)
    · have hGood : (s.mRepParser.parse data).1 = .good := by
        cases hResult : (s.mRepParser.parse data).1 <;>
          simp [heard, goodInTime, hResult, ClientEffect.good] at hNow ⊢
      have hShows := hFed'.shows'
      rw [parser] at hShows
      have hDone := complete_of_good hGood hShows
      rw [Message.complete_spell] at hDone
      exact hDone.resolve_left (by simp)

theorem received_mono {s u : Client} {xs : List ClientEffect} (history : u.history = s.history ++ xs) :
    u.received = s.received ++ xs.filterMap ClientEffect.data := by
  rw [received, received, history, List.filterMap_append]

theorem Undisturbed.stays_complete {t : HttpReplyParser} {s u : Client} {xs : List ClientEffect} (h : s.Undisturbed t)
    (history : u.history = s.history ++ xs) (hGood : goodInTime s.history = true) :
    .onMessageComplete ∈ replyMessages.calls t u.received ∧ t.firstReply u.received = t.firstReply s.received := by
  have hDone := h.complete hGood
  rw [received_mono history]
  refine ⟨?_, HttpReplyParser.firstReply_append hDone _⟩
  rw [MessageParser.calls_append]
  exact List.mem_append_left _ hDone

theorem heard_ends_quiet {s : Client} {op : ClientOperation} {result : IoResult} {err : Bytes} {reply : Reply}
    (h : s.answer message op result = some err) : ∀ x ∈ s.heard op result ++ [.calledBack err reply],
      x.good = none := by
  intro x hx
  rcases List.mem_append.mp hx with hx | hx
  · exact heard_no_good h x hx
  · obtain rfl := List.mem_singleton.mp hx
    rfl

theorem undisturbed_step {t : HttpReplyParser} {s u : Client} {e : Event} (hs : s.Undisturbed t) (hFed : s.Fed t)
    (hNot : s.spoils message e = false) (hStep : s.step message e = some u) : u.Undisturbed t := by
  have hFed' := fed_step t s e u hFed hStep
  cases step_took hStep with
  | @continues op result after _ hChain hAnswer chain timer parser history =>
    cases result with
    | error ec => cases op <;> cases hAnswer
    | ok data =>
      cases op with
      | read => exact hs.read hFed hFed' hChain hAnswer hNot parser history
      | _ =>
        exact hs.frame parser (received_append history rfl) history (by simp [heard, ClientEffect.good])
          (by simp [hChain])
  | @ends op result err _ hChain hAnswer chain timer parser history =>
    refine ⟨fun hRuns => absurd chain hRuns, fun hGood => ?_⟩
    rw [history, goodInTime_append_quiet (heard_ends_quiet hAnswer)] at hGood
    exact (hs.stays_complete history hGood).1
  | timesOut hTake chain timer parser history =>
    exact hs.frame parser (received_append history rfl) history (by simp [ClientEffect.good])
      fun hRuns hIdle => hRuns (chain.idle_iff.mpr hIdle)
  | expires hPending chain timer parser history =>
    exact hs.frame parser (received_append history rfl) history (by simp [ClientEffect.good]) (by simp [chain])
  | aborts hTake chain parser history =>
    exact hs.frame parser (congrArg (List.filterMap _) history) (history.trans (List.append_nil _).symm) (by simp)
      (by simp [chain])
  | completes hChain hPossible chain timer parser history =>
    exact hs.frame parser (congrArg (List.filterMap _) history) (history.trans (List.append_nil _).symm) (by simp)
      (by simp [hChain])

/-! ### The first answer -/

theorem deliversComplete_same {t : HttpReplyParser} {s u : Client} {xs : List ClientEffect} (h : s.DeliversComplete t)
    (hs : s.Undisturbed t) (history : u.history = s.history ++ xs)
    (hGood : goodInTime u.history = true → goodInTime s.history = true)
    (hAnswer : firstAnswer u.history = firstAnswer s.history) : u.DeliversComplete t := by
  intro hIn x hx
  rw [(hs.stays_complete history (hGood hIn)).2]
  exact h (hGood hIn) x (hAnswer.symm.trans hx)

theorem deliversComplete_of_none {t : HttpReplyParser} {u : Client} (h : firstAnswer u.history = none) :
    u.DeliversComplete t := by
  intro _ x hx
  rw [h] at hx
  cases hx

theorem deliversComplete_ends {t : HttpReplyParser} {s u : Client} {op : ClientOperation} {result : IoResult}
    {err : Bytes} (hs : s.Undisturbed t) (hFed : s.Fed t) (hNot : s.spoils message .deliver = false)
    (hNone : firstAnswer s.history = none)
    (hChain : s.chain = .queued op result) (hAnswer : s.answer message op result = some err)
    (parser : u.mRepParser = s.parserAfter op result)
    (history : u.history = s.history ++ (s.heard op result ++ [.calledBack err u.mRepParser.mReply])) :
    u.DeliversComplete t := by
  intro hIn x hx
  rw [history, goodInTime_append_quiet (heard_ends_quiet hAnswer)] at hIn
  have hFirst : x = (err, u.mRepParser.mReply) := by
    rw [history, firstAnswer_append, hNone, firstAnswer_append, heard_no_firstAnswer] at hx
    exact (Option.some.inj hx).symm
  have hKept := spoils_deliver hChain hNone hNot
  cases result with
  | ok data =>
    cases op with
    | read =>
      have hBad : (s.mRepParser.parse data).1 = .bad := by
        by_contra hGoes
        simp [answer, hGoes] at hAnswer
      simp [loses, hBad, hIn] at hKept
    | _ => cases hAnswer
  | error ec =>
    have hErr : err = [] := by
      by_cases hEof : op = .read ∧ ec = .eof
      · obtain ⟨rfl, rfl⟩ := hEof
        exact (Option.some.inj hAnswer).symm
      · have hText : message ec = [] := by
          by_contra hText
          simp [loses, hIn, hText] at hKept
          exact hEof hKept
        cases op with
        | read =>
          have hOther : ec ≠ .eof := fun hSame => hEof ⟨rfl, hSame⟩
          simpa [answer, hOther, hText] using hAnswer.symm
        | _ => simpa [answer, hText] using hAnswer.symm
    have hParser : u.mRepParser = s.mRepParser := by
      rw [parser]
      cases op <;> rfl
    obtain ⟨-, hSame⟩ := hs.stays_complete history hIn
    rw [hFirst, hErr, hSame, hParser]
    rcases hs.rests (by simp [hChain]) hNone (.inl hIn) with ⟨-, hOpen⟩ | hRests
    · exact absurd (hs.complete hIn) hOpen
    · rw [hFed.parser] at hRests ⊢
      rw [hRests.mReply (hs.complete hIn)]

theorem deliversComplete_step {t : HttpReplyParser} {s u : Client} {e : Event} (hTimed : s.Timed) (hFed : s.Fed t)
    (hs : s.Undisturbed t) (hDelivers : s.DeliversComplete t) (hNot : s.spoils message e = false)
    (hStep : s.step message e = some u) : u.DeliversComplete t := by
  cases step_took hStep with
  | @continues op result after _ hChain hAnswer chain timer parser history =>
    have hSame : firstAnswer u.history = firstAnswer s.history := by
      rw [history, firstAnswer_append, firstAnswer_append, heard_no_firstAnswer]
      exact Option.or_none
    cases hFirst : firstAnswer s.history with
    | none => exact deliversComplete_of_none (hSame.trans hFirst)
    | some x =>
      refine deliversComplete_same hDelivers hs history ?_ hSame
      intro hIn
      rw [history, goodInTime_append] at hIn
      exact hIn.resolve_right fun hLate => hLate.1 (hTimed.expired (by simp [hChain]) hFirst)
  | @ends op result err _ hChain hAnswer chain timer parser history =>
    cases hFirst : firstAnswer s.history with
    | none => exact deliversComplete_ends hs hFed hNot hFirst hChain hAnswer parser history
    | some x =>
      refine deliversComplete_same hDelivers hs history ?_ ?_
      · rw [history]
        exact (goodInTime_append_quiet (heard_ends_quiet hAnswer)).mp
      · rw [history, firstAnswer_append, hFirst]
        rfl
  | @timesOut i timer' _ hTake chain timer parser history =>
    have hGood : goodInTime u.history = true → goodInTime s.history = true := by
      rw [history]
      exact (goodInTime_append_quiet (by simp [ClientEffect.good])).mp
    cases hFirst : firstAnswer s.history with
    | none =>
      intro hIn
      simp [spoils, hFirst, hGood hIn, (Timer.take_eq_some.mp hTake).1] at hNot
    | some x =>
      refine deliversComplete_same hDelivers hs history hGood ?_
      rw [history, firstAnswer_append, hFirst]
      rfl
  | expires hPending chain timer parser history =>
    refine deliversComplete_same hDelivers hs history ?_ ?_
    · rw [history]
      exact (goodInTime_append_quiet (by simp [ClientEffect.good])).mp
    · rw [history, firstAnswer_append]
      exact Option.or_none
  | aborts hTake chain parser history =>
    exact deliversComplete_same hDelivers hs (history.trans (List.append_nil _).symm) (by rw [history]; exact id)
      (by rw [history])
  | completes hChain hPossible chain timer parser history =>
    exact deliversComplete_same hDelivers hs (history.trans (List.append_nil _).symm) (by rw [history]; exact id)
      (by rw [history])

end Client

open Client

/-- A reply that is complete in time is delivered in every run in which nothing spoils it. -/
theorem complete_reply_delivered (message : Messages) (kind : ClientKind) (serverUrl serverPort : Bytes)
    (req : Request) (statusCode : ℕ) (events : List Event)
    (h : PartialRun.Along (step message) (fun s e => s.spoils message e = false)
      (httpClient kind serverUrl serverPort req statusCode) events) :
    PartialRun.Always (step message) (DeliversComplete (httpReplyParser statusCode))
      (httpClient kind serverUrl serverPort req statusCode) events := by
  have hTimed : (httpClient kind serverUrl serverPort req statusCode).Timed := by
    refine ⟨⟨fun hIdle => (by cases hIdle), fun _ => rfl, Nat.le_refl 1⟩, fun w hw => ?_, fun hSome =>
      absurd rfl hSome⟩
    cases hw
  have hAll : PartialRun.Always (step message)
      (fun s => s.Timed ∧ s.Fed (httpReplyParser statusCode) ∧ s.Undisturbed (httpReplyParser statusCode) ∧
        s.DeliversComplete (httpReplyParser statusCode))
      (httpClient kind serverUrl serverPort req statusCode) events := by
    refine h.always ?_ ⟨hTimed, fed_httpClient kind serverUrl serverPort req statusCode, ⟨?_, ?_⟩, ?_⟩
    · rintro s e u ⟨hTimed, hFed, hs, hDelivers⟩ hNot hStep
      exact ⟨timed_step s e u hTimed hStep, fed_step _ s e u hFed hStep, undisturbed_step hs hFed hNot hStep,
        deliversComplete_step hTimed hFed hs hDelivers hNot hStep⟩
    · exact fun _ _ _ => .inr (atRest_fresh statusCode)
    · intro hGood
      cases hGood
    · exact deliversComplete_of_none rfl
  intro bs cs s hSplit hRun
  exact (hAll bs cs s hSplit hRun).2.2.2

def wholeResponse : Bytes := ascii "HTTP/1.1 200 OK\r\nContent-Length: 2\r\n\r\nhi"

def wholeReply : Reply := ⟨200, [⟨ascii "Content-Length", ascii "2"⟩], ascii "hi"⟩

def beginsNext (kind : ClientKind) : List Event :=
  connected kind ++
    [.ready (.ok (wholeResponse ++ ascii "\r\nHTTP/1.1 404 ")), .deliver, .ready (.error .eof), .deliver]

theorem beginsNext_delivered :
    PartialRun.Always (step posixMessage) (DeliversComplete (httpReplyParser 0)) (getClient .https)
    (beginsNext .https) ∧
      (PartialRun.run (step posixMessage) (getClient .https) (beginsNext .https)).map
          (fun s => (goodInTime s.history, firstAnswer s.history)) = some (true, some ([], wholeReply)) :=
  ⟨complete_reply_delivered _ _ _ _ _ _ _ (by decide +kernel), by decide +kernel⟩

def staysOpen (kind : ClientKind) : List Event :=
  connected kind ++ [.ready (.ok wholeResponse), .deliver, .expire, .runWait 0]

/-- The peer keeps the connection open, and the caller is told of a timeout. -/
theorem openConnection_timesOut :
    ¬ PartialRun.Always (step posixMessage) (DeliversComplete (httpReplyParser 0)) (getClient .https)
    (staysOpen .https) ∧
      (PartialRun.run (step posixMessage) (getClient .https) (staysOpen .https)).map
          (fun s => (goodInTime s.history, firstAnswer s.history)) =
        some (true, some (ascii "timeout", wholeReply)) := by
  have hRun : (PartialRun.run (step posixMessage) (getClient .https) (staysOpen .https)).map
      (fun s => (goodInTime s.history, firstAnswer s.history)) = some (true, some (ascii "timeout", wholeReply)) := by
    decide +kernel
  refine ⟨?_, hRun⟩
  intro h
  obtain ⟨t, ht, hState⟩ := Option.map_eq_some_iff.mp hRun
  obtain ⟨hGood, hFirst⟩ := Prod.mk.inj hState
  have hSame := h _ [] t (List.append_nil _).symm ht hGood _ hFirst
  exact absurd (Prod.mk.inj hSame).1 (by decide)

end HttpUtils
