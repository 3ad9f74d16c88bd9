import HttpUtils.ParseDivision

/-!
# A header for every value

A value is reported only behind the colon of a header line, and the colon reports the name. So the list of headers
is not empty there, whatever the buffers hold and wherever they end.
-/

namespace HttpUtils
set_option autoImplicit false

def State.behindName : State → Bool
  | .sHeaderValueDiscardWs | .sHeaderValueDiscardWsAlmostDone | .sHeaderValueDiscardLws | .sHeaderValueStart
  | .sHeaderValue | .sHeaderValueLws | .sHeaderAlmostDone => true
  | _ => false

/-! ### The list that the callbacks find -/

/-- Every value finds a header to attach to, the first call finding `headers`. -/
def Attached (headers : List Header) : List Callback → Prop
  | [] => True
  | c :: calls => (∀ run, c = .onHeaderValue run → headers ≠ []) ∧ Attached (headerCb headers c) calls

theorem attached_append (headers : List Header) (a b : List Callback) :
    Attached headers (a ++ b) ↔ Attached headers a ∧ Attached (a.foldl headerCb headers) b := by
  induction a generalizing headers with
  | nil => simp [Attached]
  | cons c a ih => simp only [List.cons_append, Attached, ih, List.foldl_cons, and_assoc]

theorem headerCb_ne_nil {headers : List Header} (h : headers ≠ []) (c : Callback) : headerCb headers c ≠ [] := by
  cases c with
  | onHeaderField run => simp [headerCb]
  | onHeaderValue run =>
    obtain ⟨front, x, rfl⟩ := (List.eq_nil_or_concat' headers).resolve_left h
    simp [headerCb, setBackValue_concat]
  | _ => exact h

namespace Scan

variable (headers : List Header)

def found (s : Scan) : List Header := s.calls.foldl headerCb headers

structure Holds (s : Scan) : Prop where
  calls : Attached headers s.calls
  mark : s.marks .headerValue ≠ none → s.found headers ≠ []

variable {headers}

theorem Holds.call {s : Scan} (h : s.Holds headers) (c : Callback)
    (hc : ∀ run, c = .onHeaderValue run → s.found headers ≠ []) {marks : DataCb → Option Bytes}
    (hMarks : marks .headerValue ≠ none → s.marks .headerValue ≠ none) :
    Holds headers { s with marks, calls := s.calls ++ [c] } ∧
      (s.found headers ≠ [] → found headers { s with marks, calls := s.calls ++ [c] } ≠ []) := by
  have hFound : found headers { s with marks, calls := s.calls ++ [c] } = headerCb (s.found headers) c := by
    simp [found]
  constructor
  · constructor
    · exact (attached_append headers s.calls [c]).mpr ⟨h.calls, hc, trivial⟩
    · intro hMark
      rw [hFound]
      exact headerCb_ne_nil (h.mark (hMarks hMark)) c
  · intro hSome
    rw [hFound]
    exact headerCb_ne_nil hSome c

theorem Holds.callbackData {s : Scan} (h : s.Holds headers) (k : DataCb) (last : Bytes) :
    (s.callbackData k last).Holds headers ∧ (s.found headers ≠ [] → (s.callbackData k last).found headers ≠ []) := by
  unfold Scan.callbackData
  cases hMark : s.marks k with
  | none => exact ⟨h, id⟩
  | some run =>
    apply h.call
    · intro run' hCall
      have hk : k = .headerValue := by
        cases k <;> simp [DataCb.call] at hCall
        rfl
      apply h.mark
      rw [← hk, hMark]
      simp
    · intro hOther
      by_cases hk : DataCb.headerValue = k
      · rw [hk, Function.update_self] at hOther
        exact absurd rfl hOther
      · rwa [Function.update_of_ne hk] at hOther

theorem Holds.act {s : Scan} (h : s.Holds headers) (ch : UInt8) {a : Act}
    (ha : a = .mark .headerValue → s.found headers ≠ []) :
    (s.act ch a).Holds headers ∧ (s.found headers ≠ [] → (s.act ch a).found headers ≠ []) := by
  cases a with
  | data k => exact h.callbackData k []
  | dataThrough k => exact h.callbackData k [ch]
  | notify k =>
    apply h.call
    · intro run hCall
      cases k <;> simp [NotifyCb.call] at hCall
    · exact id
  | advance n => exact ⟨h, id⟩
  | mark k =>
    refine ⟨⟨h.calls, ?_⟩, id⟩
    intro hMark
    by_cases hk : k = .headerValue
    · exact ha (congrArg Act.mark hk)
    · apply h.mark
      simpa [Scan.act, Function.update_of_ne (Ne.symm hk)] using hMark

theorem Holds.acts {s : Scan} (h : s.Holds headers) (ch : UInt8) {l : List Act}
    (hActs : .mark .headerValue ∈ l → s.found headers ≠ []) :
    (l.foldl (Scan.act ch) s).Holds headers ∧
      (s.found headers ≠ [] → (l.foldl (Scan.act ch) s).found headers ≠ []) := by
  induction l generalizing s with
  | nil => exact ⟨h, id⟩
  | cons a l ih =>
    obtain ⟨hHead, hFound⟩ := h.act ch fun ha => hActs (ha ▸ List.mem_cons_self)
    obtain ⟨hTail, hFound'⟩ := ih hHead fun hMem => hFound (hActs (List.mem_cons_of_mem _ hMem))
    exact ⟨hTail, fun hSome => hFound' (hFound hSome)⟩

end Scan

/-! ### The cases of the switch -/

structure Outcome.Ties (s : State) (o : Outcome) : Prop where
  behind : o.parser.state.behindName = true → s.behindName = true
  mark : .mark .headerValue ∈ o.acts → s.behindName = true
  name : o.parser.state = .sHeaderField → o.flow = .next → ∃ acts, o.acts = acts ++ [.mark .headerField]

theorem Outcome.Ties.after {s : State} {o : Outcome} (h : o.Ties s) {acts : List Act}
    (hActs : .mark .headerValue ∈ acts → s.behindName = true) : (o.after acts).Ties s := by
  constructor
  · exact h.behind
  · intro hMem
    exact (List.mem_append.mp hMem).elim hActs h.mark
  · intro hState hFlow
    obtain ⟨rest, hRest⟩ := h.name hState hFlow
    exact ⟨acts ++ rest, by rw [Outcome.after, hRest, List.append_assoc]⟩

theorem ties_plain {s : State} {o : Outcome} (hBehind : o.parser.state.behindName = true → s.behindName = true)
    (hName : o.flow = .next → o.parser.state ≠ .sHeaderField)
    (hActs : .mark .headerValue ∈ o.acts → s.behindName = true) : o.Ties s :=
  ⟨hBehind, hActs, fun hState hFlow => absurd hState (hName hFlow)⟩

theorem ties_fail {s : State} (P : HttpParser) (e : HttpErrno)
    (h : P.state.behindName = true → s.behindName = true) : (fail P e).Ties s :=
  ties_plain h (fun hFlow => by cases hFlow) (fun hMem => by cases hMem)

theorem newMessage_cases (P : HttpParser) : newMessage P = .sDead ∨ newMessage P = .sStartReq ∨
    newMessage P = .sStartRes := by
  unfold newMessage
  split
  · cases P.type <;> simp [startState]
  · exact .inl rfl

@[simp] theorem newMessage_behindName (P : HttpParser) : (newMessage P).behindName = false := by
  rcases newMessage_cases P with h | h | h <;> rw [h] <;> rfl

@[simp] theorem newMessage_ne_sHeaderField (P : HttpParser) : newMessage P ≠ .sHeaderField := by
  rcases newMessage_cases P with h | h | h <;> rw [h] <;> simp

theorem ties_messageDone (s : State) (P : HttpParser) : (messageDoneCase P).Ties s := by
  apply ties_plain <;> simp [messageDoneCase]

theorem ties_headersDone {s : State} (P : HttpParser) (ch : UInt8)
    (h : P.state.behindName = true → s.behindName = true) :
    (headersDoneCase P ch).Ties s := by
  simp only [headersDoneCase]
  repeat' split
  all_goals first
    | exact ties_fail _ _ h
    | (apply ties_plain <;> simp [next] <;> done)
    | (apply ties_plain <;> simp [next, State.behindName])

theorem ties_headersAlmostDone {s : State} (P : HttpParser) (ch : UInt8)
    (h : P.state.behindName = true → s.behindName = true) : (headersAlmostDoneCase P ch).Ties s := by
  unfold headersAlmostDoneCase
  split
  · exact ties_fail _ _ h
  split
  · exact (ties_messageDone _ _).after (by simp)
  split
  · exact ties_fail _ _ h
  · exact (ties_headersDone _ _ (by simp [State.behindName])).after (by simp)

theorem ties_headerFieldStart {s : State} (P : HttpParser) (ch : UInt8)
    (h : P.state.behindName = true → s.behindName = true) : (headerFieldStartCase P ch).Ties s := by
  unfold headerFieldStartCase
  split
  · apply ties_plain <;> simp [next, State.behindName]
  split
  · exact ties_headersAlmostDone _ _ (by simp [State.behindName])
  split
  · exact ties_fail _ _ h
  · constructor
    · simp [next, State.behindName]
    · simp [next]
    · intro _ _
      exact ⟨[], rfl⟩

theorem ties_headerValueStart {s : State} (P : HttpParser) (ch : UInt8) (h : s.behindName = true) :
    (headerValueStartCase P ch).Ties s := by
  simp only [headerValueStartCase]
  repeat' split
  all_goals apply ties_plain <;> simp [fail, next, h]

theorem parseUrlChar_plain (s : State) (ch : UInt8) :
    (parseUrlChar s ch).behindName = false ∧ parseUrlChar s ch ≠ .sHeaderField := by
  by_cases hDead : parseUrlChar s ch = .sDead
  · rw [hDead]
    exact ⟨rfl, by simp⟩
  · have hOpen := openMark_parseUrlChar hDead
    generalize parseUrlChar s ch = t at hOpen
    constructor
    · cases t <;> first | rfl | cases hOpen
    · rintro rfl
      cases hOpen

theorem ties_urlStep (s : State) (P : HttpParser) (ch : UInt8) {acts : List Act}
    (hActs : acts = [.mark .url] ∨ acts = []) : (urlStep P ch acts).Ties s := by
  obtain ⟨hBehind, hName⟩ := parseUrlChar_plain P.state ch
  unfold urlStep
  dsimp only
  split
  · apply ties_plain <;> rcases hActs with rfl | rfl <;> simp [State.behindName]
  · apply ties_plain <;> rcases hActs with rfl | rfl <;> simp [next, hBehind, hName]

theorem switch_ties (P : HttpParser) (ch : UInt8) (hField : P.state ≠ .sHeaderField) :
    (switch P ch 1).Ties P.state := by
  cases hs : P.state <;> simp only [switch, hs]
  case sHeaderField => exact absurd hs hField
  case sHeaderFieldStart => exact ties_headerFieldStart _ _ (by simp [hs])
  case sHeaderValueStart => exact ties_headerValueStart _ _ rfl
  case sHeadersAlmostDone => exact ties_headersAlmostDone _ _ (by simp [hs])
  case sHeadersDone => exact ties_headersDone _ _ (by simp [hs])
  case sMessageDone => exact ties_messageDone _ _
  case sHeaderValueLws =>
    unfold headerValueLwsCase
    split
    · exact ties_headerValueStart _ _ rfl
    · exact ties_headerFieldStart _ _ fun _ => rfl
  case sHeaderValueDiscardWs =>
    unfold headerValueDiscardWsCase
    repeat' split
    all_goals first
      | exact ties_headerValueStart _ _ rfl
      | (apply ties_plain <;> simp [next, State.behindName, hs])
  case sHeaderValueDiscardLws =>
    unfold headerValueDiscardLwsCase
    split
    · apply ties_plain <;> simp [next, State.behindName]
    · exact (ties_headerFieldStart _ _ fun _ => rfl).after fun _ => rfl
  case sReqSpacesBeforeUrl =>
    unfold reqSpacesBeforeUrlCase
    split
    · apply ties_plain <;> simp [next, hs, State.behindName]
    split <;> exact ties_urlStep _ _ _ (.inl rfl)
  case sReqSchema | sReqSchemaSlash | sReqSchemaSlashSlash | sReqServerStart =>
    unfold reqSchemaCase
    split
    · exact ties_fail _ _ (by simp [hs])
    · exact ties_urlStep _ _ _ (.inr rfl)
  case sReqServer | sReqServerWithAt | sReqPath | sReqQueryStringStart | sReqQueryString
    | sReqFragmentStart | sReqFragment =>
    unfold reqUrlCase
    repeat' split
    all_goals first
      | exact ties_urlStep _ _ _ (.inr rfl)
      | (apply ties_plain <;> simp [next, State.behindName])
  case sBodyIdentity =>
    simp only [bodyIdentityCase]
    split
    · exact (ties_messageDone _ _).after (by simp)
    · apply ties_plain <;> simp [next, hs]
  all_goals
    try simp only [startResCase, expect, majorDigit, minorDigit, firstMinorDigit, resStatusCodeCase,
      startReqCase, reqMethodCase, headerAlmostDoneCase, chunkSizeStartCase, chunkSizeCase,
      chunkSizeAlmostDoneCase, chunkDataCase, bodyIdentityEofCase]
    repeat' split
    all_goals apply ties_plain <;> simp [fail, next, State.behindName, *]

/-! ### One byte -/

def Ctl.Inside (s : State) : Ctl → Prop
  | .outer => True
  | .field _ => s = .sHeaderField
  | .value _ _ _ => s = .sHeaderValue

structure Scan.Tied (headers : List Header) (s : Scan) : Prop where
  holds : s.Holds headers
  behind : s.parser.state.behindName = true → s.found headers ≠ []
  name : s.stopped = none → s.parser.state = .sHeaderField → s.marks .headerField ≠ none
  inside : s.stopped = none → s.ctl.Inside s.parser.state

namespace Scan

variable {headers : List Header}

theorem Holds.tied_stopped {s : Scan} (h : s.Holds headers) {n : ℕ} (hStopped : s.stopped = some n)
    (hBehind : s.parser.state.behindName = true → s.found headers ≠ []) : s.Tied headers :=
  have hOver : s.stopped ≠ none := by simp [hStopped]
  ⟨h, hBehind, fun hRun => absurd hRun hOver, fun hRun => absurd hRun hOver⟩

theorem Tied.consume {s : Scan} (h : s.Tied headers) (hRun : s.stopped = none) (ch : UInt8) {P : HttpParser} {c : Ctl}
    (hState : P.state = s.parser.state) (hInside : c.Inside s.parser.state) :
    (Scan.consume { s with parser := P, ctl := c } ch).Tied headers := by
  refine ⟨⟨h.holds.calls, ?_⟩, ?_, ?_, ?_⟩
  · intro hMark
    apply h.holds.mark
    simpa [Scan.consume] using hMark
  · intro hBehind
    exact h.behind (by rwa [← hState])
  · intro _ hName
    simpa [Scan.consume] using h.name hRun (hState.symm.trans hName)
  · intro _
    show c.Inside P.state
    rwa [hState]

theorem Holds.apply {s : Scan} (h : s.Holds headers) {q : State} (hFound : q.behindName = true → s.found headers ≠ [])
    (hRun : s.stopped = none) (ch : UInt8) {o : Outcome} (ho : o.Ties q) : (s.apply ch o).Tied headers := by
  obtain ⟨hHolds, hMore⟩ := Holds.acts (s := { s with parser := o.parser, ctl := .outer }) ⟨h.calls, h.mark⟩ ch
    fun hMem => hFound (ho.mark hMem)
  obtain ⟨hParser, hCtl, hStopped, -⟩ := acts_frame ch { s with parser := o.parser, ctl := .outer } o.acts
  unfold Scan.apply
  generalize hFold : o.acts.foldl (Scan.act ch) { s with parser := o.parser, ctl := .outer } = t at *
  have hBehind : t.parser.state.behindName = true → t.found headers ≠ [] := by
    intro hBehind
    rw [hParser] at hBehind
    exact hMore (hFound (ho.behind hBehind))
  cases hFlow : o.flow with
  | error => exact Holds.tied_stopped (s := { t with stopped := some t.p }) ⟨hHolds.calls, hHolds.mark⟩ rfl hBehind
  | ret =>
    exact Holds.tied_stopped (s := { t with stopped := some (t.p + 1) }) ⟨hHolds.calls, hHolds.mark⟩ rfl hBehind
  | next =>
    refine Tied.consume (P := t.parser) (c := t.ctl) ⟨hHolds, hBehind, ?_, ?_⟩ (hStopped.trans hRun) ch rfl ?_
    · intro _ hName
      rw [hParser] at hName
      obtain ⟨acts, hActs⟩ := ho.name hName hFlow
      rw [← hFold, hActs, List.foldl_append]
      simp [Scan.act]
    · intro _
      rw [hCtl]
      trivial
    · rw [hCtl]
      trivial

theorem Holds.count {s : Scan} (h : s.Holds headers) (hBehind : s.parser.state.behindName = true →
    s.found headers ≠ [])
    (v : ℕ) {k : Scan → Scan} (hk : ∀ P : HttpParser, P.state = s.parser.state →
    (k { s with parser := P }).Tied headers) :
    (s.countHeaderSize v k).Tied headers := by
  unfold Scan.countHeaderSize
  dsimp only
  split
  · exact Holds.tied_stopped ⟨h.calls, h.mark⟩ rfl hBehind
  · exact hk _ rfl

theorem Tied.fieldByte {s : Scan} (h : s.Tied headers) (hRun : s.stopped = none)
    (hState : s.parser.state = .sHeaderField)
    (n : ℕ) (ch : UInt8) : (s.fieldByte n ch).Tied headers := by
  have hOther : ¬ s.parser.state.behindName = true := by simp [hState, State.behindName]
  unfold Scan.fieldByte
  split
  · apply h.holds.count h.behind
    intro P hP
    split
    · -- the colon reports the name, and there is a header from here on
      obtain ⟨run, hMark⟩ := Option.ne_none_iff_exists'.mp (h.name hRun hState)
      let t : Scan := { s with parser := { P with state := .sHeaderValueDiscardWs }, ctl := .outer }
      have hAct : t.act ch (.data .headerField) =
          { t with
            marks := Function.update t.marks .headerField none
            calls := t.calls ++ [.onHeaderField run] } := by
        simp [t, Scan.act, Scan.callbackData, hMark, DataCb.call]
      obtain ⟨hHolds, -⟩ := Holds.act (s := t) ⟨h.holds.calls, h.holds.mark⟩ ch (a := .data .headerField) (by simp)
      have hFound : (t.act ch (.data .headerField)).found headers ≠ [] := by
        rw [hAct]
        simp [found, headerCb]
      show (Scan.consume (t.act ch (.data .headerField)) ch).Tied headers
      rw [hAct] at hHolds hFound ⊢
      exact Tied.consume ⟨hHolds, fun _ => hFound, by simp, fun _ => trivial⟩ hRun ch rfl trivial
    · apply Holds.apply (q := .sHeaderField) ⟨h.holds.calls, h.holds.mark⟩ (by simp [State.behindName]) hRun
      exact ties_fail _ _ (by simp [hP, hState])
  · dsimp only
    split
    · refine Holds.tied_stopped ⟨h.holds.calls, h.holds.mark⟩ rfl ?_
      intro hBehind
      rw [headerFieldChar_state] at hBehind
      exact absurd hBehind hOther
    · exact h.consume hRun ch (headerFieldChar_state _ _ _) hState

theorem Holds.valueStop {s : Scan} (h : s.Holds headers) (hRun : s.stopped = none) (hFound : s.found headers ≠ [])
    (n : ℕ) (g : HeaderStates) (ch : UInt8) : (s.valueStop n g ch).Tied headers := by
  unfold Scan.valueStop
  split
  · let t : Scan := { s with parser := { s.parser with state := .sHeaderAlmostDone, headerState := g }, ctl :=
    .outer }
    obtain ⟨hHolds, hMore⟩ := Holds.callbackData (s := t) ⟨h.calls, h.mark⟩ .headerValue []
    obtain ⟨hParser, hCtl, hStopped, -⟩ := act_frame ch t (.data .headerValue)
    have hParser : (t.callbackData .headerValue []).parser = t.parser := hParser
    have hCtl : (t.callbackData .headerValue []).ctl = .outer := hCtl
    have hTied : (t.callbackData .headerValue []).Tied headers := by
      refine ⟨hHolds, fun _ => hMore hFound, ?_, ?_⟩
      · intro _ hName
        rw [hParser] at hName
        cases hName
      · intro _
        rw [hCtl]
        trivial
    apply hTied.holds.count hTied.behind
    intro P hP
    refine hTied.consume (hStopped.trans hRun) ch hP ?_
    rw [hCtl]
    trivial
  · refine Holds.count (s := { s with parser := { s.parser with state := .sHeaderAlmostDone } }) ⟨h.calls, h.mark⟩
      (fun _ => hFound) n fun P hP => ?_
    refine Holds.apply (q := .sHeaderValue) ⟨h.calls, h.mark⟩ (fun _ => hFound) hRun ch ?_
    unfold headerAlmostDoneCase
    split
    · exact (ties_fail _ _ fun _ => rfl).after fun _ => rfl
    · apply ties_plain <;> simp [HttpUtils.next, Outcome.after, State.behindName]

theorem Tied.valueByte {s : Scan} (h : s.Tied headers) (hRun : s.stopped = none)
    (hState : s.parser.state = .sHeaderValue)
    (n : ℕ) (g : HeaderStates) (jump : Option ℕ) (ch : UInt8) : (s.valueByte n g jump ch).Tied headers := by
  have hFound : s.found headers ≠ [] := h.behind (by rw [hState]; rfl)
  have hStop := h.holds.valueStop hRun hFound n g ch
  cases jump with
  | some i =>
    simp only [Scan.valueByte]
    split
    · exact hStop
    · exact h.consume hRun ch rfl hState
  | none =>
    simp only [Scan.valueByte]
    split
    · exact hStop
    split
    · exact Holds.tied_stopped ⟨h.holds.calls, h.holds.mark⟩ rfl fun _ => hFound
    split
    · exact h.consume hRun ch rfl hState
    split
    · exact Holds.tied_stopped ⟨h.holds.calls, h.holds.mark⟩ rfl fun _ => hFound
    · exact h.consume hRun ch (headerValueChar_state _ _ _) hState

theorem Tied.switchByte {s : Scan} (h : s.Tied headers) (hRun : s.stopped = none) (ch : UInt8) :
    (s.switchByte ch).Tied headers := by
  have hLoop (c : Ctl) (hInside : c.Inside s.parser.state) : Scan.Tied headers { s with ctl := c } :=
    ⟨⟨h.holds.calls, h.holds.mark⟩, h.behind, h.name, fun _ => hInside⟩
  unfold Scan.switchByte
  split
  · exact (hLoop (.field 0) ‹_›).fieldByte hRun ‹_› 0 ch
  · exact (hLoop (.value 0 s.parser.headerState none) ‹_›).valueByte hRun ‹_› 0 _ none ch
  · exact h.holds.apply h.behind hRun ch (switch_ties _ _ ‹_›)

theorem Tied.step {s : Scan} (h : s.Tied headers) (ch : UInt8) : (s.step ch).Tied headers := by
  unfold Scan.step
  cases hStopped : s.stopped with
  | some n => exact h
  | none =>
    have hInside := h.inside hStopped
    cases hCtl : s.ctl with
    | field n =>
      rw [hCtl] at hInside
      exact h.fieldByte hStopped hInside n ch
    | value n g jump =>
      rw [hCtl] at hInside
      exact h.valueByte hStopped hInside n g jump ch
    | outer =>
      dsimp only
      split
      · apply h.holds.count h.behind
        intro P hP
        refine Tied.switchByte (s := { s with parser := P }) ⟨⟨h.holds.calls, h.holds.mark⟩, ?_, ?_, ?_⟩ hStopped ch
        · rw [hP]
          exact h.behind
        · rw [hP]
          exact h.name
        · rw [hP]
          exact h.inside
      · exact h.switchByte hStopped ch

theorem Tied.run {s : Scan} (h : s.Tied headers) (data : Bytes) : (s.run data).Tied headers := by
  induction data generalizing s with
  | nil => exact h
  | cons ch data ih => exact ih (h.step ch)

/-! ### One buffer -/

def Left (headers : List Header) (s : Scan) : Prop :=
  Attached headers s.calls ∧ (s.parser.state.behindName = true → s.found headers ≠ [])

theorem Tied.flush {s : Scan} (h : s.Tied headers) : s.flush.Left headers := by
  obtain ⟨hHolds, hMore⟩ := Holds.acts (s := { s with ctl := .outer }) ⟨h.holds.calls, h.holds.mark⟩ 0
    (l := leftover) (by simp [leftover])
  refine ⟨hHolds.calls, fun hBehind => hMore (h.behind ?_)⟩
  have hParser : s.flush.parser = s.parser := (acts_frame 0 { s with ctl := .outer } leftover).1
  rwa [← hParser]

theorem Tied.endBuffer {s : Scan} (h : s.Tied headers) : s.endBuffer.Left headers := by
  have hCount (t : Scan) (ht : t.Tied headers) (n : ℕ) : (t.countHeaderSize n Scan.flush).Left headers := by
    unfold countHeaderSize
    dsimp only
    split
    · exact ⟨ht.holds.calls, ht.behind⟩
    · exact Tied.flush (s := { t with parser := addNread t.parser n }) ⟨⟨ht.holds.calls, ht.holds.mark⟩, ht.behind,
        ht.name, ht.inside⟩
  unfold Scan.endBuffer
  split
  · exact ⟨h.holds.calls, h.behind⟩
  split
  · exact h.flush
  · exact hCount s h _
  · refine hCount _ ?_ _
    exact ⟨⟨h.holds.calls, h.holds.mark⟩, h.behind, h.name, h.inside⟩

theorem tied_start {P : HttpParser} (h : P.state.behindName = true → headers ≠ []) : (start P).Tied headers := by
  refine ⟨⟨trivial, ?_⟩, h, ?_, fun _ => trivial⟩
  · intro hMark
    apply h
    by_contra hOther
    apply hMark
    cases hs : P.state <;> simp [start, openMark, hs, State.behindName] at hOther ⊢
  · intro _ hName
    have hName : P.state = .sHeaderField := hName
    simp [start, openMark, hName]

end Scan

/-- Every value of a buffer is attached, and behind a name there is a header for the next buffer. -/
theorem execute_attached {P : HttpParser} {headers : List Header} (h : P.state.behindName = true → headers ≠ [])
    (data : Bytes) :
    Attached headers (httpParserExecute P data).2.1 ∧
      ((httpParserExecute P data).1.state.behindName = true →
        (httpParserExecute P data).2.1.foldl headerCb headers ≠ []) := by
  by_cases hErrno : P.httpErrno = .ok
  · by_cases hData : data = []
    · subst hData
      simp only [httpParserExecute, hErrno, ne_eq, not_true_eq_false, if_false, if_true]
      unfold executeEof
      split
      · refine ⟨⟨by simp, trivial⟩, ?_⟩
        simpa [headerCb] using h
      all_goals exact ⟨trivial, h⟩
    · rw [httpParserExecute_eq hErrno hData]
      exact ((Scan.tied_start h).run data).endBuffer
  · have hSame : httpParserExecute P data = (P, [], 0) := by simp [httpParserExecute, hErrno]
    rw [hSame]
    exact ⟨trivial, h⟩

theorem attached_iff (headers : List Header) (calls : List Callback) :
    Attached headers calls ↔
      ∀ before run behind, calls = before ++ .onHeaderValue run :: behind → before.foldl headerCb headers ≠ [] := by
  induction calls generalizing headers with
  | nil => simp [Attached]
  | cons c calls ih =>
    rw [Attached, ih]
    constructor
    · rintro ⟨hFirst, hRest⟩ before run behind hCalls
      cases before with
      | nil => exact hFirst run (List.cons.inj hCalls).1
      | cons c' before =>
        obtain ⟨rfl, hTail⟩ := List.cons.inj hCalls
        exact hRest before run behind hTail
    · intro hAll
      refine ⟨?_, ?_⟩
      · rintro run rfl
        exact hAll [] run calls rfl
      · intro before run behind hCalls
        exact hAll (c :: before) run behind (by rw [hCalls, List.cons_append])

/-! ### One buffer after another -/

/-- While `parse` is called on one buffer after another, the vector of headers is not empty at any call of
`on_header_value_cb`. -/
def MessageParser.BackDefined {T : Type} (M : MessageParser T) : T → List Bytes → Prop
  | _, [] => True
  | t, b :: bs =>
    (∀ before run behind, (httpParserExecute (M.parser t) b).2.1 = before ++ .onHeaderValue run :: behind →
        before.foldl headerCb (M.headers t) ≠ []) ∧
      M.BackDefined (M.parse t b).2 bs

theorem MessageParser.backDefined {T : Type} (M : MessageParser T) {t : T}
    (h : (M.parser t).state.behindName = true → M.headers t ≠ []) (bs : List Bytes) : M.BackDefined t bs := by
  induction bs generalizing t with
  | nil => trivial
  | cons b bs ih =>
    obtain ⟨hAttached, hLeft⟩ := execute_attached h b
    refine ⟨(attached_iff _ _).mp hAttached, ih ?_⟩
    rw [M.parser_parse, M.headers_parse]
    exact hLeft

/-- In both classes `headers.back()` is defined whenever `on_header_value_cb` is called. -/
theorem value_finds_header (major minor : Int) (statusCode : ℕ) (inputs : List Bytes) :
    requestMessages.BackDefined (httpRequestParser major minor) inputs ∧
      replyMessages.BackDefined (httpReplyParser statusCode) inputs := by
  constructor
  · have hStart : (requestMessages.parser (httpRequestParser major minor)).state.behindName = false := rfl
    exact requestMessages.backDefined (by simp [hStart]) inputs
  · have hStart : (replyMessages.parser (httpReplyParser statusCode)).state.behindName = false := rfl
    exact replyMessages.backDefined (by simp [hStart]) inputs

end HttpUtils
