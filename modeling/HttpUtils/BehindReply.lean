import HttpUtils.HeaderDivision
import Mathlib.Data.List.TakeWhile

/-!
# Behind a complete reply

Once a response is complete, line breaks and the beginning of a status line tell a reply parser nothing. A reason
phrase, a header line and a body do: their callbacks write into the reply that is there.
-/

namespace HttpUtils
set_option autoImplicit false

/-- The byte begins a reason phrase or a header line, or a body does with it. -/
def State.tells : State → UInt8 → Bool
  | .sResStatusStart, ch | .sHeaderFieldStart, ch => ch ≠ CR && ch ≠ LF
  | .sChunkSizeStart, _ | .sBodyIdentity, _ | .sBodyIdentityEof, _ => true
  | _, _ => false

/-- A byte behind the end of the first message tells something. -/
def Scan.overruns (done : Bool) : Scan → Bytes → Bool
  | _, [] => false
  | s, ch :: b =>
    (done || s.calls.contains .onMessageComplete) && s.parser.state.tells ch ||
      match s.next ch with
      | none => false
      | some t => t.overruns done b

/-- The read has a byte behind the first complete response that tells something. -/
def HttpReplyParser.overruns (p : HttpReplyParser) (data : Bytes) : Bool :=
  (Scan.start p.mParser).overruns p.mReplyComplete data

/-- The reply under the callbacks of the class. -/
def replyCb (reply : Reply) : Callback → Reply
  | .onStatus _ statusCode => { reply with statusCode }
  | .onBody run => { reply with content := reply.content ++ run }
  | c => { reply with headers := headerCb reply.headers c }

/-- The reply when `on_message_complete_cb` is called for the first time. -/
def HttpReplyParser.firstReply (t : HttpReplyParser) (reads : List Bytes) : Reply :=
  ((replyMessages.calls t reads).takeWhile (· ≠ .onMessageComplete)).foldl replyCb t.mReply

/-- The states behind a response in which the next one has told nothing yet. -/
def State.bare : State → Bool
  | .sDead | .sStartRes | .sResH | .sResHT | .sResHTT | .sResHTTP
  | .sResFirstHttpMajor | .sResHttpMajor | .sResFirstHttpMinor | .sResHttpMinor
  | .sResFirstStatusCode | .sResStatusCode | .sResStatusStart | .sResLineAlmostDone
  | .sHeaderFieldStart | .sHeadersAlmostDone
  | .sChunkSizeStart | .sBodyIdentity | .sBodyIdentityEof => true
  | _ => false

def Callback.isNotice : Callback → Bool
  | .onMessageBegin | .onHeadersComplete _ _ | .onMessageComplete | .onChunkHeader | .onChunkComplete => true
  | _ => false

/-! ### The cases of a bare state -/

def Outcome.StaysBare (o : Outcome) : Prop :=
  o.flow = .next → o.parser.state.bare = true ∧ ∀ a ∈ o.acts, ∃ k, a = .notify k

theorem bare_newMessage {P : HttpParser} (hType : P.type = .httpResponse) : (newMessage P).bare = true := by
  unfold newMessage
  split
  · rw [hType]
    rfl
  · rfl

theorem staysBare_fail (P : HttpParser) (e : HttpErrno) : (fail P e).StaysBare := fun h => by cases h

theorem staysBare_next {P : HttpParser} {acts : List Act} (hState : P.state.bare = true)
    (hActs : ∀ a ∈ acts, ∃ k, a = .notify k) : (next P acts).StaysBare := fun _ => ⟨hState, hActs⟩

theorem staysBare_after {o : Outcome} {k : NotifyCb} (h : o.StaysBare) : (o.after [.notify k]).StaysBare := by
  intro hFlow
  obtain ⟨hState, hActs⟩ := h hFlow
  refine ⟨hState, ?_⟩
  rintro a (_ | ⟨_, ha⟩)
  · exact ⟨k, rfl⟩
  · exact hActs a ha

theorem staysBare_messageDone {P : HttpParser} (hType : P.type = .httpResponse) : (messageDoneCase P).StaysBare :=
  fun _ => ⟨bare_newMessage hType, by simp [messageDoneCase]⟩

theorem staysBare_headersDone {P : HttpParser} {ch : UInt8} (hType : P.type = .httpResponse) :
    (headersDoneCase P ch).StaysBare := by
  have hNew (Q : HttpParser) (hSame : Q.type = P.type) :
      (next { Q with state := newMessage Q } [.notify .messageComplete]).StaysBare :=
    staysBare_next (bare_newMessage (hSame.trans hType)) (by simp)
  unfold headersDoneCase
  split
  · exact staysBare_fail _ _
  dsimp only
  split
  · intro hFlow
    cases hFlow
  split
  · exact hNew { P with nread := 0 } rfl
  split
  · exact staysBare_next rfl (by simp)
  split
  · exact hNew { P with nread := 0 } rfl
  split
  · exact staysBare_next rfl (by simp)
  split
  · exact hNew { P with nread := 0 } rfl
  · exact staysBare_next rfl (by simp)

theorem staysBare_headersAlmostDone {P : HttpParser} {ch : UInt8} (hType : P.type = .httpResponse) :
    (headersAlmostDoneCase P ch).StaysBare := by
  unfold headersAlmostDoneCase
  split
  · exact staysBare_fail _ _
  split
  · exact staysBare_after (staysBare_messageDone hType)
  split
  · exact staysBare_fail _ _
  · exact staysBare_after (staysBare_headersDone hType)

theorem staysBare_switch {P : HttpParser} {ch : UInt8} (hType : P.type = .httpResponse) (hState : P.state.bare = true)
    (hTells : P.state.tells ch = false) : (switch P ch 1).StaysBare := by
  cases hs : P.state <;> rw [hs] at hState hTells <;> try cases hState
  case sHeadersAlmostDone =>
    simp only [switch, hs]
    exact staysBare_headersAlmostDone hType
  case sHeaderFieldStart =>
    simp only [switch, hs, headerFieldStartCase]
    split
    · exact staysBare_next rfl (by simp)
    split
    · exact staysBare_headersAlmostDone hType
    · simp_all [State.tells]
  case sResStatusStart =>
    simp only [switch, hs]
    split
    · exact staysBare_next rfl (by simp)
    split
    · exact staysBare_next rfl (by simp)
    · simp_all [State.tells]
  case sChunkSizeStart | sBodyIdentity | sBodyIdentityEof => cases hTells
  all_goals
    simp only [switch, hs, startResCase, expect, majorDigit, minorDigit, firstMinorDigit, resStatusCodeCase]
    repeat' split
    all_goals
      first
      | exact staysBare_fail _ _
      | exact staysBare_next (by simp [hs, State.bare]) (by simp)

/-! ### The end of the message is the last that is told of a byte -/

def EndsLast (acts : List Act) : Prop := .notify .messageComplete ∉ acts.dropLast

theorem EndsLast.after {a : Act} {acts : List Act} (h : EndsLast acts) (ha : a ≠ .notify .messageComplete) :
    EndsLast (a :: acts) := by
  cases acts with
  | nil => simp [EndsLast]
  | cons b acts =>
    intro hMem
    rw [List.dropLast_cons_cons, List.mem_cons] at hMem
    exact hMem.elim (fun hHere => ha hHere.symm) h

theorem endsLast_messageDone (P : HttpParser) : EndsLast (messageDoneCase P).acts := by
  simp [EndsLast, messageDoneCase]

theorem endsLast_headersDone (P : HttpParser) (ch : UInt8) : EndsLast (headersDoneCase P ch).acts := by
  unfold headersDoneCase
  dsimp only
  repeat' split
  all_goals simp [EndsLast, fail, next]

theorem endsLast_headersAlmostDone (P : HttpParser) (ch : UInt8) : EndsLast (headersAlmostDoneCase P ch).acts := by
  unfold headersAlmostDoneCase
  split
  · simp [EndsLast, fail]
  split
  · exact (endsLast_messageDone _).after (by simp)
  split
  · simp [EndsLast, fail]
  · exact (endsLast_headersDone _ ch).after (by simp)

theorem endsLast_headerFieldStart (P : HttpParser) (ch : UInt8) : EndsLast (headerFieldStartCase P ch).acts := by
  unfold headerFieldStartCase
  split
  · simp [EndsLast, next]
  split
  · exact endsLast_headersAlmostDone _ ch
  split <;> simp [EndsLast, fail, next]

theorem endsLast_headerValueStart (P : HttpParser) (ch : UInt8) : EndsLast (headerValueStartCase P ch).acts := by
  unfold headerValueStartCase
  dsimp only
  repeat' split
  all_goals simp [EndsLast, fail, next]

theorem endsLast_urlStep (P : HttpParser) (ch : UInt8) {acts : List Act} (h : EndsLast acts) :
    EndsLast (urlStep P ch acts).acts := by
  unfold urlStep
  dsimp only
  split <;> exact h

theorem endsLast_switch (P : HttpParser) (ch : UInt8) : EndsLast (switch P ch 1).acts := by
  have hNone : EndsLast [] := by simp [EndsLast]
  cases hs : P.state <;> simp only [switch, hs]
  case sMessageDone => exact endsLast_messageDone P
  case sHeadersDone => exact endsLast_headersDone P ch
  case sHeadersAlmostDone => exact endsLast_headersAlmostDone P ch
  case sHeaderFieldStart => exact endsLast_headerFieldStart P ch
  case sHeaderValueStart => exact endsLast_headerValueStart P ch
  case sHeaderValueDiscardWs =>
    unfold headerValueDiscardWsCase
    repeat' split
    any_goals exact hNone
    exact endsLast_headerValueStart P ch
  case sHeaderValueDiscardLws =>
    unfold headerValueDiscardLwsCase
    split
    · exact hNone
    · exact ((endsLast_headerFieldStart _ ch).after (by simp)).after (by simp)
  case sHeaderValueLws =>
    unfold headerValueLwsCase
    split
    · exact endsLast_headerValueStart _ ch
    · exact endsLast_headerFieldStart _ ch
  case sBodyIdentity =>
    unfold bodyIdentityCase
    dsimp only
    split
    · exact (((endsLast_messageDone _).after (by simp)).after (by simp)).after (by simp)
    · simp [EndsLast, next]
  case sReqSpacesBeforeUrl =>
    unfold reqSpacesBeforeUrlCase
    split
    · exact hNone
    · split <;> exact endsLast_urlStep _ ch (by simp [EndsLast])
  case sReqSchema | sReqSchemaSlash | sReqSchemaSlashSlash | sReqServerStart =>
    unfold reqSchemaCase
    split
    · exact hNone
    · exact endsLast_urlStep P ch hNone
  case sReqServer | sReqServerWithAt | sReqPath | sReqQueryStringStart | sReqQueryString | sReqFragmentStart
    | sReqFragment =>
    unfold reqUrlCase
    repeat' split
    any_goals simp [EndsLast, next]
    exact endsLast_urlStep P ch hNone
  all_goals
    try simp only [startResCase, startReqCase, reqMethodCase, expect, majorDigit, minorDigit, firstMinorDigit,
      resStatusCodeCase, headerAlmostDoneCase, chunkSizeStartCase, chunkSizeCase, chunkSizeAlmostDoneCase,
      chunkDataCase, bodyIdentityEofCase]
    repeat' split
    all_goals simp [EndsLast, fail, next]

theorem endsLast_move {P : HttpParser} {c : Ctl} {ch : UInt8} {v : Move} (hMove : move P c ch = some v) :
    EndsLast v.acts := by
  have hField {n : ℕ} {Q : HttpParser} (h : fieldMove Q n ch = some v) : EndsLast v.acts := by
    unfold fieldMove at h
    split at h
    · obtain ⟨R, -, hv⟩ := Option.bind_eq_some_iff.mp h
      split at hv
      · obtain rfl := Option.some.inj hv
        simp [EndsLast]
      · cases hv
    · dsimp only at h
      split at h
      · cases h
      · obtain rfl := Option.some.inj h
        simp [EndsLast]
  have hStop {n : ℕ} {g : HeaderStates} {Q : HttpParser} (h : stopMove Q n g ch = some v) : EndsLast v.acts := by
    obtain ⟨R, -, rfl⟩ := Option.map_eq_some_iff.mp h
    simp [EndsLast]
  have hValue {n : ℕ} {g : HeaderStates} {jump : Option ℕ} {Q : HttpParser} (h : valueMove Q n g jump ch = some v) :
      EndsLast v.acts := by
    unfold valueMove at h
    dsimp only at h
    repeat' split at h
    any_goals exact hStop h
    any_goals cases h
    all_goals simp [EndsLast]
  have hSwitch {Q : HttpParser} (h : switchMove Q ch = some v) : EndsLast v.acts := by
    unfold switchMove at h
    split at h
    · exact hField h
    · exact hValue h
    · obtain ⟨-, rfl⟩ := Outcome.move_eq_some h
      exact endsLast_switch Q ch
  cases c with
  | field n => exact hField hMove
  | value n g jump => exact hValue hMove
  | outer =>
    simp only [move] at hMove
    split at hMove
    · obtain ⟨Q, -, hv⟩ := Option.bind_eq_some_iff.mp hMove
      exact hSwitch hv
    · exact hSwitch hMove

/-! ### A scan behind the message -/

theorem Message.complete_spell (m : Message) (calls : List Callback) :
    (m.spell calls).complete = true ↔ m.complete = true ∨ .onMessageComplete ∈ calls := by
  induction calls generalizing m with
  | nil => simp [spell]
  | cons c calls ih =>
    have hSee : (m.see c).complete = true ↔ m.complete = true ∨ c = .onMessageComplete := by
      cases c <;> simp only [see] <;> (try split) <;> simp
    rw [spell, List.foldl_cons, ← spell, ih, hSee, List.mem_cons, or_assoc, eq_comm (a := c)]

/-- Only notice is given behind the end of the first message. -/
def SilentBehind (calls : List Callback) : Prop :=
  ∃ before later, calls = before ++ .onMessageComplete :: later ∧ .onMessageComplete ∉ before ∧
    ∀ c ∈ later, c.isNotice = true

theorem SilentBehind.append {calls more : List Callback} (h : SilentBehind calls)
    (hMore : ∀ c ∈ more, c.isNotice = true) :
    SilentBehind (calls ++ more) := by
  obtain ⟨before, later, rfl, hBefore, hLater⟩ := h
  refine ⟨before, later ++ more, by simp, hBefore, ?_⟩
  intro c hc
  exact (List.mem_append.mp hc).elim (hLater c) (hMore c)

theorem foldl_notices {calls : List Callback} (h : ∀ c ∈ calls, c.isNotice = true) (reply : Reply) :
    calls.foldl replyCb reply = reply := by
  induction calls with
  | nil => rfl
  | cons c calls ih =>
    have hSame : replyCb reply c = reply := by
      have hc := h c List.mem_cons_self
      cases c <;> first | rfl | cases hc
    rw [List.foldl_cons, hSame]
    exact ih fun d hd => h d (List.mem_cons_of_mem _ hd)

theorem SilentBehind.reply {calls : List Callback} (h : SilentBehind calls) (reply : Reply) :
    calls.foldl replyCb reply = (calls.takeWhile (· ≠ .onMessageComplete)).foldl replyCb reply := by
  obtain ⟨before, later, rfl, hBefore, hLater⟩ := h
  have hTake : (before ++ .onMessageComplete :: later).takeWhile (· ≠ .onMessageComplete) = before := by
    have hAll : ∀ c ∈ before, decide (c ≠ .onMessageComplete) = true := by
      intro c hc
      rw [decide_eq_true_iff]
      rintro rfl
      exact hBefore hc
    rw [List.takeWhile_append_of_pos hAll]
    simp
  rw [hTake, List.foldl_append, List.foldl_cons, foldl_notices hLater]
  rfl

namespace Scan

structure Rests (s : Scan) : Prop where
  ctl : s.ctl = .outer
  type : s.parser.type = .httpResponse
  state : s.parser.state.bare = true
  marks : s.marks = holding none
  silent : SilentBehind s.calls

theorem acts_notices (ch : UInt8) (s : Scan) {acts : List Act} (h : ∀ a ∈ acts, ∃ k, a = .notify k) :
    (acts.foldl (act ch) s).marks = s.marks ∧
      ∃ more, (acts.foldl (act ch) s).calls = s.calls ++ more ∧ ∀ c ∈ more, c.isNotice = true := by
  induction acts generalizing s with
  | nil => exact ⟨rfl, [], by simp, by simp⟩
  | cons a acts ih =>
    obtain ⟨k, rfl⟩ := h _ List.mem_cons_self
    obtain ⟨hMarks, more, hCalls, hMore⟩ := ih (s.act ch (.notify k)) fun b hb => h b (List.mem_cons_of_mem _ hb)
    refine ⟨hMarks, k.call s.parser :: more, ?_, ?_⟩
    · rw [List.foldl_cons, hCalls]
      simp [act]
    · rintro c (_ | ⟨_, hc⟩)
      · cases k <;> rfl
      · exact hMore c hc

theorem acts_open (ch : UInt8) (s : Scan) {acts : List Act} (h : .notify .messageComplete ∉ acts) :
    .onMessageComplete ∈ (acts.foldl (act ch) s).calls ↔ .onMessageComplete ∈ s.calls := by
  induction acts generalizing s with
  | nil => rfl
  | cons a acts ih =>
    rw [List.mem_cons, not_or] at h
    rw [List.foldl_cons, ih _ h.2]
    cases a with
    | mark k | advance n => rfl
    | notify k => cases k <;> simp [act, NotifyCb.call] at h ⊢
    | data k | dataThrough k =>
      simp only [act, callbackData]
      split
      · rfl
      · cases k <;> simp [DataCb.call]

end Scan

theorem bare_move {P : HttpParser} {ch : UInt8} {v : Move} (hType : P.type = .httpResponse)
    (hState : P.state.bare = true) (hTells : P.state.tells ch = false) (hMove : move P .outer ch = some v) :
    v.ctl = .outer ∧ v.parser.state.bare = true ∧ ∀ a ∈ v.acts, ∃ k, a = .notify k := by
  have hSwitch {Q : HttpParser} (hSame : Q.type = P.type ∧ Q.state = P.state) (h : switchMove Q ch = some v) :
      v.ctl = .outer ∧ v.parser.state.bare = true ∧ ∀ a ∈ v.acts, ∃ k, a = .notify k := by
    rw [← hSame.2] at hState hTells
    unfold switchMove at h
    split at h
    · rename_i hs
      rw [hs] at hState
      cases hState
    · rename_i hs
      rw [hs] at hState
      cases hState
    · obtain ⟨hFlow, rfl⟩ := Outcome.move_eq_some h
      exact ⟨rfl, staysBare_switch (hSame.1.trans hType) hState hTells hFlow⟩
  simp only [move] at hMove
  split at hMove
  · obtain ⟨Q, hQ, hv⟩ := Option.bind_eq_some_iff.mp hMove
    have hSame : Q.type = P.type ∧ Q.state = P.state := by
      obtain rfl := (counted_eq_some.mp hQ).2
      exact ⟨rfl, rfl⟩
    exact hSwitch hSame hv
  · exact hSwitch ⟨rfl, rfl⟩ hMove

namespace Scan

theorem Rests.next {s t : Scan} {ch : UInt8} (h : s.Rests) (hTells : s.parser.state.tells ch = false)
    (hNext : s.next ch = some t) : t.Rests := by
  obtain ⟨v, hMove, rfl⟩ := next_eq_some.mp hNext
  rw [h.ctl] at hMove
  obtain ⟨hCtl, hState, hActs⟩ := bare_move h.type h.state hTells hMove
  obtain ⟨hMarks, more, hCalls, hMore⟩ := acts_notices ch { s with parser := v.parser, ctl := v.ctl } hActs
  refine ⟨?_, ?_, ?_, ?_, ?_⟩
  · rw [take_ctl, hCtl]
  · rw [parser_of_take, (move_keeps hMove).type, h.type]
  · rw [parser_of_take, hState]
  · rw [take, consume, hMarks, h.marks]
    rfl
  · have hAll : (s.take ch v).calls = s.calls ++ more := hCalls
    rw [hAll]
    exact h.silent.append hMore

theorem openMark_of_bare {x : State} (h : x.bare = true) : openMark x = none := by
  cases x <;> first | rfl | cases h

theorem Rests.cut {s t : Scan} (h : s.Rests) (hCut : s.cut = some t) : t.Rests := by
  obtain ⟨Q, hQ, rfl⟩ := Option.map_eq_some_iff.mp hCut
  rw [h.ctl] at hQ
  obtain rfl := Option.some.inj hQ
  refine ⟨rfl, h.type, h.state, ?_, ?_⟩
  · rw [start_marks, openMark_of_bare h.state]
    rfl
  · have hCalls : (flush s).calls = s.calls := by simp [flush_of_holding h.marks, openCall]
    rw [show { s with parser := s.parser } = s from rfl, hCalls]
    exact h.silent

theorem Sound.complete_iff {s : Scan} (h : s.Sound) : s.message.complete = true ↔ .onMessageComplete ∈ s.calls := by
  rw [← h.between.complete_calls, Message.complete_spell]
  simp

theorem Sound.ends_at_rest {s t : Scan} {ch : UInt8} (h : s.Sound) (hType : s.parser.type = .httpResponse)
    (hOpen : .onMessageComplete ∉ s.calls) (hNext : s.next ch = some t) (hDone : .onMessageComplete ∈ t.calls) :
    t.Rests := by
  have hAccepts := h.next hNext
  have hType' := hAccepts.type.trans hType
  have hComplete := hAccepts.sound.complete_iff.mpr hDone
  obtain ⟨hState, hUpgrade, hCtl⟩ := hAccepts.ends (by simpa using mt h.complete_iff.mp hOpen) hComplete
  refine ⟨hCtl, hType', ?_, AtEnd.marks ⟨hComplete, hState, hUpgrade, hCtl⟩ hAccepts.sound, ?_⟩
  · rw [hState]
    exact bare_newMessage hType'
  obtain ⟨v, hMove, rfl⟩ := next_eq_some.mp hNext
  have hLast := endsLast_move hMove
  have hCalls : (s.take ch v).calls = (v.acts.foldl (act ch) { s with parser := v.parser, ctl := v.ctl }).calls := rfl
  rw [hCalls] at hDone ⊢
  rcases List.eq_nil_or_concat' v.acts with hNone | ⟨acts, a, hActs⟩
  · rw [hNone] at hDone
    exact absurd hDone hOpen
  · rw [EndsLast, hActs, List.dropLast_concat] at hLast
    rw [hActs, List.foldl_append] at hDone ⊢
    have hBefore := mt (acts_open ch { s with parser := v.parser, ctl := v.ctl } hLast).mp hOpen
    obtain rfl : a = .notify .messageComplete := by
      by_contra hOther
      exact hBefore ((acts_open ch _ (by simpa using Ne.symm hOther)).mp hDone)
    exact ⟨_, [], rfl, hBefore, by simp⟩

theorem overruns_cons {done : Bool} {s : Scan} {ch : UInt8} {b : Bytes} (h : s.overruns done (ch :: b) = false) :
    ((done = true ∨ .onMessageComplete ∈ s.calls) → s.parser.state.tells ch = false) ∧
      ∀ t, s.next ch = some t → t.overruns done b = false := by
  rw [overruns, Bool.or_eq_false_iff] at h
  refine ⟨?_, ?_⟩
  · intro hDone
    have hSome : (done || s.calls.contains .onMessageComplete) = true := by simpa using hDone
    rw [hSome, Bool.true_and] at h
    exact h.1
  · intro t ht
    simpa [ht] using h.2

theorem Sound.rests_run {s t : Scan} {b : Bytes} (h : s.Sound) (hType : s.parser.type = .httpResponse)
    (hRests : .onMessageComplete ∈ s.calls → s.Rests) (hOver : s.overruns false b = false)
    (hRun : PartialRun.run Scan.next s b = some t) : .onMessageComplete ∈ t.calls → t.Rests := by
  induction b generalizing s with
  | nil =>
    obtain rfl := Option.some.inj hRun
    exact hRests
  | cons ch b ih =>
    obtain ⟨q, hNext, hRest⟩ := PartialRun.run_cons_eq_some.mp hRun
    obtain ⟨hTells, hGoes⟩ := overruns_cons hOver
    have hAccepts := h.next hNext
    refine ih hAccepts.sound (hAccepts.type.trans hType) ?_ (hGoes q hNext) hRest
    intro hDone
    by_cases hHad : .onMessageComplete ∈ s.calls
    · exact (hRests hHad).next (hTells (.inr hHad)) hNext
    · exact h.ends_at_rest hType hHad hNext hDone

theorem overruns_after (calls : List Callback) (done : Bool) (s : Scan) (b : Bytes) :
    (s.after calls).overruns done b = s.overruns (done || calls.contains .onMessageComplete) b := by
  induction b generalizing s with
  | nil => rfl
  | cons ch b ih =>
    have hNext : (s.after calls).next ch = (s.next ch).map (after calls) := by
      simpa only [PartialRun.run_singleton] using run_after calls s [ch]
    have hCalls : (s.after calls).calls.contains .onMessageComplete =
        (calls.contains .onMessageComplete || s.calls.contains .onMessageComplete) := by
      simp [after]
    rw [overruns, overruns, hNext, hCalls, Bool.or_assoc]
    cases s.next ch with
    | none => rfl
    | some t => exact congrArg _ (ih t)

end Scan

/-! ### `parse` behind a complete reply -/

/-- Between two reads: nothing is told behind the first response, if it is complete. -/
structure HttpReplyParser.AtRest (p : HttpReplyParser) (calls : List Callback) : Prop where
  holds : replyMessages.Holds p calls
  type : p.mParser.type = .httpResponse
  rests : .onMessageComplete ∈ calls → (Scan.resume p.mParser calls).Rests

theorem HttpReplyParser.AtRest.parse {p : HttpReplyParser} {calls : List Callback} {data : Bytes} (h : p.AtRest calls)
    (hData : data ≠ []) (hGoes : (p.parse data).1 ≠ .bad) (hOver : p.overruns data = false) :
    (p.parse data).2.mParser.httpErrno ≠ .ok ∧
        .onMessageComplete ∉ calls ++ (httpParserExecute p.mParser data).2.1 ∨
      (p.parse data).2.AtRest (calls ++ (httpParserExecute p.mParser data).2.1) := by
  have hDone : p.mReplyComplete = calls.contains .onMessageComplete := by
    rw [h.holds.shows'.complete, Bool.eq_iff_iff, Message.complete_spell]
    simp
  have hOver' : (Scan.resume p.mParser calls).overruns false data = false := by
    rw [Scan.resume_eq, Scan.overruns_after, Bool.false_or, ← hDone]
    exact hOver
  cases hRun : PartialRun.run Scan.next (Scan.resume p.mParser calls) data with
  | none => exact absurd (h.holds.parse_none hData hRun) hGoes
  | some s =>
    have hSound := h.holds.sound.run hRun
    have hRests := h.holds.sound.rests_run h.type h.rests hOver' hRun
    have hType := (Scan.run_type h.holds.sound hRun).trans h.type
    cases hCut : s.cut with
    | none =>
      obtain ⟨-, hErrno, hCalls⟩ := h.holds.parse_overflow hData hRun hCut
      have hErrno' : (p.parse data).2.mParser.httpErrno = .headerOverflow := hErrno
      refine .inl ⟨by simp [hErrno'], fun hMem => ?_⟩
      obtain ⟨u, hSome, -⟩ := Scan.cut_outer (hRests (hCalls.symm ▸ hMem)).ctl
      rw [hCut] at hSome
      cases hSome
    | some u =>
      obtain ⟨-, hParser, hCalls, hHolds⟩ := h.holds.parse_cut hData hRun hCut
      rw [hCalls] at hHolds
      have hParser' : (p.parse data).2.mParser = u.parser := hParser
      have hCalls' : u.calls = calls ++ (httpParserExecute p.mParser data).2.1 := hCalls
      refine .inr ⟨hHolds, ?_, ?_⟩
      · rw [hParser', Scan.cut_type hCut, hType]
      · intro hMem
        rw [hParser', ← hCalls', ← Scan.resume_cut hCut]
        refine (hRests (hSound.complete_iff.mp ?_)).cut hCut
        rw [(hSound.cut hCut).2.2.1, Message.complete_spell, hCalls']
        exact .inr hMem

theorem HttpReplyParser.mReply_foldl (t : HttpReplyParser) (calls : List Callback) :
    (calls.foldl callback t).mReply = calls.foldl replyCb t.mReply := by
  induction calls generalizing t with
  | nil => rfl
  | cons c calls ih =>
    rw [List.foldl_cons, ih, List.foldl_cons]
    cases c <;> rfl

theorem HttpReplyParser.mReply_parseAll (t : HttpReplyParser) (reads : List Bytes) :
    (t.parseAll reads).2.mReply = (replyMessages.calls t reads).foldl replyCb t.mReply := by
  induction reads generalizing t with
  | nil => rfl
  | cons data reads ih =>
    have hRead : (t.parse data).2.mReply = (httpParserExecute t.mParser data).2.1.foldl replyCb t.mReply := by
      rw [parse_eq, take]
      exact mReply_foldl _ _
    rw [MessageParser.calls, List.foldl_append]
    have hRest := ih (t.parse data).2
    rw [hRead] at hRest
    exact hRest

theorem HttpReplyParser.AtRest.mReply {t : HttpReplyParser} {reads : List Bytes}
    (h : (t.parseAll reads).2.AtRest (replyMessages.calls t reads))
    (hDone : .onMessageComplete ∈ replyMessages.calls t reads) : (t.parseAll reads).2.mReply = t.firstReply reads :=
  (t.mReply_parseAll reads).trans ((h.rests hDone).silent.reply _)

theorem HttpReplyParser.firstReply_append {t : HttpReplyParser} {reads : List Bytes}
    (hDone : .onMessageComplete ∈ replyMessages.calls t reads) (more : List Bytes) :
    t.firstReply (reads ++ more) = t.firstReply reads := by
  rw [firstReply, firstReply, MessageParser.calls_append, List.takeWhile_append, if_neg]
  intro hAll
  have hSame := (List.takeWhile_prefix _).eq_of_length hAll
  rw [← hSame] at hDone
  simpa using List.mem_takeWhile_imp hDone

theorem atRest_fresh (statusCode : ℕ) : (httpReplyParser statusCode).AtRest [] :=
  ⟨holds_httpReplyParser statusCode, rfl, fun hMem => by cases hMem⟩

end HttpUtils
