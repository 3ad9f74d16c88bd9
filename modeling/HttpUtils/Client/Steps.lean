import HttpUtils.Client.HttpClient

/-!
# What an event does to a client

A handler of the chain starts the next operation or ends the request with an error string, which may be empty.
The handler of the wait, when it has expired, ends the request too, and leaves the chain to itself.
-/

namespace HttpUtils
set_option autoImplicit false

open WaitableTimer

namespace Client

variable (message : Messages)

/-- The error string with which the handler ends the request. -/
def answer (s : Client) : ClientOperation → IoResult → Option Bytes
  | .read, .error ec => some (if ec = .eof then [] else message ec)
  | _, .error ec => some (message ec)
  | .read, .ok data => if (s.mRepParser.parse data).1 = .bad then some (ascii "invalid reply") else none
  | _, .ok _ => none

def heard (s : Client) : ClientOperation → IoResult → List ClientEffect
  | .read, .ok data => [.received data, .parsed (s.mRepParser.parse data).1 (s.mRepParser.parse data).2.mReply]
  | _, _ => []

def parserAfter (s : Client) : ClientOperation → IoResult → HttpReplyParser
  | .read, .ok data => (s.mRepParser.parse data).2
  | _, _ => s.mRepParser

/-- The operation of the chain, if there is one, is the same, and has failed if it has ended. -/
def SameOperation : Chain → Chain → Prop
  | .idle, c => c = .idle
  | .pending op, c => c = .pending op ∨ ∃ ec, c = .queued op (.error ec)
  | .queued op result, c => c = .queued op result

inductive Took (s : Client) : Event → Client → Prop where
  | continues {op : ClientOperation} {result : IoResult} {after : ClientOperation} {t : Client}
      (hChain : s.chain = .queued op result) (hAnswer : s.answer message op result = none)
        (chain : t.chain = .pending after)
      (timer : t.mTimer = s.mTimer) (parser : t.mRepParser = s.parserAfter op result)
      (history : t.history = s.history ++ (s.heard op result ++ [.started after])) : s.Took .deliver t
  | ends {op : ClientOperation} {result : IoResult} {err : Bytes} {t : Client} (hChain : s.chain = .queued op result)
      (hAnswer : s.answer message op result = some err) (chain : t.chain = .idle) (timer : t.mTimer = s.mTimer.cancel)
      (parser : t.mRepParser = s.parserAfter op result)
      (history : t.history = s.history ++ (s.heard op result ++ [.calledBack err t.mRepParser.mReply])) :
        s.Took .deliver t
  | timesOut {i : ℕ} {timer : Timer Unit} {t : Client} (hTake : s.mTimer.take i = some (((), .expired), timer))
      (chain : SameOperation s.chain t.chain) (timer : t.mTimer = timer.cancel) (parser : t.mRepParser = s.mRepParser)
      (history : t.history = s.history ++ [.timedOut, .calledBack (ascii "timeout") s.mRepParser.mReply]) :
      s.Took (.runWait i) t
  | expires {t : Client} (hPending : s.mTimer.pending ≠ []) (chain : t.chain = s.chain)
    (timer : t.mTimer = s.mTimer.expire)
      (parser : t.mRepParser = s.mRepParser) (history : t.history = s.history ++ [.expired]) : s.Took .expire t
  | aborts {i : ℕ} {t : Client} (hTake : s.mTimer.take i = some (((), .aborted), t.mTimer))
    (chain : t.chain = s.chain)
      (parser : t.mRepParser = s.mRepParser) (history : t.history = s.history) : s.Took (.runWait i) t
  | completes {op : ClientOperation} {result : IoResult} {t : Client} (hChain : s.chain = .pending op)
      (hPossible : s.Possible op result = true) (chain : t.chain = .queued op result) (timer : t.mTimer = s.mTimer)
      (parser : t.mRepParser = s.mRepParser) (history : t.history = s.history) : s.Took (.ready result) t

theorem sameOperation_refl (c : Chain) : SameOperation c c := by
  cases c with
  | idle => exact rfl
  | pending op => exact .inl rfl
  | queued op result => exact rfl

theorem sameOperation_close (s : Client) : SameOperation s.chain s.close.chain := by
  unfold close
  cases s.chain with
  | idle => exact rfl
  | queued op result => exact rfl
  | pending op =>
    cases op with
    | resolve => exact .inl rfl
    | _ => exact .inr ⟨_, rfl⟩

theorem invokeCallback_spec (s : Client) (err : Bytes) :
    SameOperation s.chain (s.invokeCallback err).chain ∧ (s.invokeCallback err).mTimer = s.mTimer.cancel ∧
      (s.invokeCallback err).mRepParser = s.mRepParser ∧
      (s.invokeCallback err).history = s.history ++ [.calledBack err s.mRepParser.mReply] := by
  unfold invokeCallback
  dsimp only
  split
  · exact ⟨sameOperation_close _, rfl, rfl, rfl⟩
  · exact ⟨sameOperation_refl _, rfl, rfl, rfl⟩

variable {message}

theorem ends_of_invokeCallback {s u : Client} {op : ClientOperation} {result : IoResult} {err : Bytes}
    (hChain : s.chain = .queued op result) (hAnswer : s.answer message op result = some err) (chain : u.chain = .idle)
    (timer : u.mTimer = s.mTimer) (parser : u.mRepParser = s.parserAfter op result)
    (history : u.history = s.history ++ s.heard op result) : s.Took message .deliver (u.invokeCallback err) := by
  obtain ⟨hSame, hTimer, hParser, hHistory⟩ := u.invokeCallback_spec err
  rw [chain] at hSame
  refine .ends hChain hAnswer hSame ?_ ?_ ?_
  · rw [hTimer, timer]
  · rw [hParser, parser]
  · rw [hHistory, history, hParser, List.append_assoc]

theorem handleReadContent_took {s : Client} {result : IoResult} (hChain : s.chain = .queued .read result) :
    s.Took message .deliver (handleReadContent message { s with chain := .idle } result) := by
  cases result with
  | error ec =>
    simp only [handleReadContent]
    split
    · rename_i hEof
      exact ends_of_invokeCallback hChain (by simp [answer, hEof]) rfl rfl rfl (List.append_nil _).symm
    · rename_i hEof
      exact ends_of_invokeCallback hChain (by simp [answer, hEof]) rfl rfl rfl (List.append_nil _).symm
  | ok data =>
    simp only [handleReadContent]
    split
    · rename_i hBad
      refine ends_of_invokeCallback hChain ?_ rfl rfl rfl ?_
      · simp only [answer, hBad, if_true]
      · simp [emit, heard]
    · rename_i hGoes
      refine .continues hChain ?_ (rfl : _ = Chain.pending .read) rfl rfl ?_
      · simp only [answer, hGoes, if_false]
      · simp [start, emit, heard]

theorem handler_took {s : Client} {op : ClientOperation} {result : IoResult} (hChain : s.chain = .queued op result) :
    s.Took message .deliver (handler message { s with chain := .idle } op result) := by
  cases op with
  | read => exact handleReadContent_took hChain
  | resolve =>
    cases result with
    | error ec => exact ends_of_invokeCallback hChain rfl rfl rfl rfl (List.append_nil _).symm
    | ok data => exact .continues hChain rfl rfl rfl rfl rfl
  | connect =>
    cases result with
    | error ec => exact ends_of_invokeCallback hChain rfl rfl rfl rfl (List.append_nil _).symm
    | ok data =>
      simp only [handler, handleConnect]
      split
      · exact .continues hChain rfl rfl rfl rfl rfl
      · exact .continues hChain rfl rfl rfl rfl rfl
  | handshake =>
    cases result with
    | error ec => exact ends_of_invokeCallback hChain rfl rfl rfl rfl (List.append_nil _).symm
    | ok data => exact .continues hChain rfl rfl rfl rfl rfl
  | write bytes =>
    cases result with
    | error ec => exact ends_of_invokeCallback hChain rfl rfl rfl rfl (List.append_nil _).symm
    | ok data => exact .continues hChain rfl rfl rfl rfl rfl

theorem step_took {s t : Client} {e : Event} (h : s.step message e = some t) : s.Took message e t := by
  cases e with
  | expire =>
    simp only [step] at h
    split at h
    · cases h
    · rename_i hPending
      obtain rfl := Option.some.inj h
      exact .expires hPending rfl rfl rfl rfl
  | runWait i =>
    obtain ⟨⟨⟨⟨⟩, c⟩, timer⟩, hTake, rfl⟩ := Option.map_eq_some_iff.mp h
    cases c with
    | aborted => exact .aborts hTake rfl rfl rfl
    | expired =>
      obtain ⟨hSame, hTimer, hParser, hHistory⟩ :=
        (emit { s with mTimer := timer } .timedOut).invokeCallback_spec (ascii "timeout")
      refine .timesOut hTake hSame hTimer hParser ?_
      rw [onTimeout, hHistory]
      simp [emit]
  | ready result =>
    simp only [step] at h
    split at h
    · rename_i hChain
      split at h
      · rename_i hPossible
        obtain rfl := Option.some.inj h
        exact .completes hChain hPossible rfl rfl rfl rfl
      · cases h
    · cases h
  | deliver =>
    simp only [step] at h
    split at h
    · rename_i hChain
      obtain rfl := Option.some.inj h
      exact handler_took hChain
    · cases h

end Client

end HttpUtils
