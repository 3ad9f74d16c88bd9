import HttpUtils.HttpParser.Losses

/-!
# Where in a header line the parser is

The state says which pieces of the present line have been reported. So a move loses something exactly when it
continues a value on the next line.
-/

namespace HttpUtils
set_option autoImplicit false

/-- The present line as far as it was reported, by the state. No byte is read in `s_header_value_start`. -/
def HeaderFits (s : State) (m : Message) : Prop :=
  match s with
  | .sHeaderField | .sHeaderValueDiscardWs | .sHeaderValueDiscardWsAlmostDone | .sHeaderValueDiscardLws =>
    m.inName = true ∧ ∃ h, m.last = some h ∧ h.value = []
  | .sHeaderValue | .sHeaderAlmostDone | .sHeaderValueLws =>
    m.inName = false ∧ ∃ h, m.last = some h ∧ h.value ≠ []
  | .sHeaderValueStart => False
  | _ => m.inName = false

/-- After the case `out` for the byte `ch`, from a state with the mark `o` and the message `m`. -/
structure Outcome.Places (out : Outcome) (o : Option DataCb) (ch : UInt8) (m : Message) (folds : Prop) : Prop where
  fits : out.flow = .next →
    HeaderFits out.parser.state ((out.acts.foldl (Live.act out.parser ch) ⟨o, m⟩).consume out.parser ch)
  loses : ActsLose out.parser ch ⟨o, m⟩ out.acts ↔ folds

theorem places_fail (P : HttpParser) (e : HttpErrno) (o : Option DataCb) (ch : UInt8) (m : Message) :
    (fail P e).Places o ch m False :=
  ⟨(fun h => by cases h), Iff.rfl⟩

theorem Outcome.Places.after_notify {out : Outcome} {k : NotifyCb} {ch : UInt8} {m : Message} {folds : Prop}
    (h : out.Places none ch (m.see (k.call out.parser)) folds) : (out.after [.notify k]).Places none ch m folds where
  fits := h.fits
  loses := by
    simp only [Outcome.after, List.singleton_append, ActsLose, Act.Loses, false_or]
    exact h.loses

theorem headerFits_newMessage (P : HttpParser) {m : Message} (h : m.inName = false) :
    HeaderFits (newMessage P) m := by
  unfold newMessage
  split
  · cases P.type <;> exact h
  · exact h

theorem places_messageDone (P : HttpParser) (ch : UInt8) {m : Message} (h : m.inName = false) :
    (messageDoneCase P).Places none ch m False := by
  refine ⟨fun _ => headerFits_newMessage P ?_, ?_⟩
  · simpa [messageDoneCase, Live.act, Live.consume, NotifyCb.call, Message.see] using h
  · simp [messageDoneCase, ActsLose, Act.Loses]

theorem places_headersDone (P : HttpParser) (ch : UInt8) {m : Message} (h : m.inName = false) :
    (headersDoneCase P ch).Places none ch m False := by
  have hNew (Q : HttpParser) : HeaderFits (newMessage Q) (m.see .onMessageComplete) := headerFits_newMessage Q h
  simp only [headersDoneCase]
  repeat' split
  all_goals first | exact places_fail _ _ _ _ _ | skip
  all_goals refine ⟨fun _ => ?_, by simp [next, ActsLose, Act.Loses]⟩
  all_goals first | exact hNew _ | exact h

theorem places_headersAlmostDone (P : HttpParser) (ch : UInt8) {m : Message} (h : m.inName = false) :
    (headersAlmostDoneCase P ch).Places none ch m False := by
  unfold headersAlmostDoneCase
  split
  · exact places_fail _ _ _ _ _
  split
  · exact (places_messageDone _ ch h).after_notify
  split
  · exact places_fail _ _ _ _ _
  · exact (places_headersDone { P with
      state := .sHeadersDone
      upgrade := (P.flags.fUpgrade && P.flags.fConnectionUpgrade) || P.method == .connect } ch
      (by exact h)).after_notify

theorem places_headerFieldStart (P : HttpParser) (ch : UInt8) {m : Message} (h : m.inName = false) :
    (headerFieldStartCase P ch).Places none ch m False := by
  unfold headerFieldStartCase
  split
  · exact ⟨fun _ => h, by simp [next, ActsLose]⟩
  split
  · exact places_headersAlmostDone _ ch h
  split
  · exact places_fail _ _ _ _ _
  · refine ⟨fun _ => ?_, by simp [next, ActsLose, Act.Loses, Message.LosesAt, h]⟩
    simp [next, HeaderFits, Live.act, Live.consume, DataCb.call, Message.see, h]

theorem places_headerValueStart (P : HttpParser) (ch : UInt8) {m : Message} (h : ∃ x, m.last = some x) :
    (headerValueStartCase P ch).Places none ch m
      ((headerValueStartCase P ch).flow = .next ∧ m.LosesAt .headerValue) := by
  obtain ⟨x, hx⟩ := h
  have hNext (Q : HttpParser) (hQ : Q.state = .sHeaderValue) :
      (next Q [.mark .headerValue]).Places none ch m
        ((next Q [.mark .headerValue]).flow = .next ∧ m.LosesAt .headerValue) := by
    refine ⟨fun _ => ?_, by simp [next, ActsLose, Act.Loses]⟩
    simp [next, hQ, HeaderFits, Live.act, Live.consume, DataCb.call, Message.see, hx]
  cases hs : P.headerState <;> simp only [headerValueStartCase, hs]
  case hContentLength =>
    split
    · exact ⟨(fun h => by cases h), by simp [fail, ActsLose]⟩
    · exact hNext _ rfl
  all_goals exact hNext _ rfl

theorem headerFits_parseUrlChar {s : State} {ch : UInt8} {m : Message} (h : m.inName = false) :
    HeaderFits (parseUrlChar s ch) m := by
  cases s <;> simp only [parseUrlChar, parseUrlServer] <;> repeat' split
  all_goals exact h

theorem places_urlStep (P : HttpParser) (ch : UInt8) {acts : List Act} {o : Option DataCb} {m : Message}
    (h : m.inName = false) (hMark : o = none ∧ acts = [.mark .url] ∨ o = some .url ∧ acts = []) :
    (urlStep P ch acts).Places o ch m False := by
  unfold urlStep
  dsimp only
  split
  · refine ⟨(fun h => by cases h), ?_⟩
    rcases hMark with ⟨rfl, rfl⟩ | ⟨rfl, rfl⟩ <;> simp [ActsLose, Act.Loses, Message.LosesAt]
  · refine ⟨fun _ => headerFits_parseUrlChar ?_, ?_⟩ <;> rcases hMark with ⟨rfl, rfl⟩ | ⟨rfl, rfl⟩
    · simpa [next, Live.act, Live.consume, DataCb.call, Message.see] using h
    · simpa [next, Live.act, Live.consume, DataCb.call, Message.see] using h
    · simp [next, ActsLose, Act.Loses, Message.LosesAt]
    · simp [next, ActsLose]

theorem places_bodyIdentity (P : HttpParser) (ch : UInt8) {m : Message} (hs : P.state = .sBodyIdentity)
    (h : m.inName = false) : (bodyIdentityCase P 1).Places none ch m False := by
  simp only [bodyIdentityCase]
  split
  · refine ⟨fun _ => headerFits_newMessage _ ?_, ?_⟩
    · simpa [messageDoneCase, Outcome.after, Live.act, Live.consume, DataCb.call, NotifyCb.call, Message.see] using h
    · simp [messageDoneCase, Outcome.after, ActsLose, Act.Loses, Message.LosesAt]
  · refine ⟨fun _ => ?_, by simp [next, ActsLose, Act.Loses, Message.LosesAt]⟩
    simpa [next, hs, HeaderFits, Live.act, Live.consume, DataCb.call, Message.see] using h

/-- Only a folded value is lost. -/
theorem places_switch {P : HttpParser} {c : UInt8} {m : Message} (hField : P.state ≠ .sHeaderField)
    (hValue : P.state ≠ .sHeaderValue) (h : HeaderFits P.state m) :
    (switch P c 1).Places (openMark P.state) c m
      (P.state = .sHeaderValueLws ∧ (c = SP ∨ c = HT) ∧ (switch P c 1).flow = .next) := by
  cases hs : P.state <;> rw [hs] at h <;>
    simp only [switch, hs, openMark, reduceCtorEq, false_and]
  case sHeaderField => exact absurd hs hField
  case sHeaderValue => exact absurd hs hValue
  case sHeaderValueStart => exact h.elim
  case sHeaderFieldStart => exact places_headerFieldStart _ _ h
  case sHeadersAlmostDone => exact places_headersAlmostDone _ _ h
  case sHeadersDone => exact places_headersDone _ _ h
  case sMessageDone => exact places_messageDone _ _ h
  case sBodyIdentity => exact places_bodyIdentity _ _ hs h
  case sHeaderValueLws =>
    obtain ⟨hName, x, hx, hNe⟩ := h
    unfold headerValueLwsCase
    by_cases hBlank : c = SP ∨ c = HT
    · rw [if_pos hBlank]
      obtain ⟨hFits, hLoses⟩ := places_headerValueStart { P with state := .sHeaderValueStart } c (m := m) ⟨x, hx⟩
      have hAt : m.LosesAt .headerValue := ⟨x, hx, hNe⟩
      exact ⟨hFits, by simpa [hAt, hBlank] using hLoses⟩
    · rw [if_neg hBlank]
      simp only [hBlank, false_and, and_false]
      exact places_headerFieldStart _ _ hName
  case sHeaderValueDiscardWs =>
    obtain ⟨hName, x, hx, hNil⟩ := h
    unfold headerValueDiscardWsCase
    have hSame : m.inName = true ∧ ∃ h, m.last = some h ∧ h.value = [] := ⟨hName, x, hx, hNil⟩
    split
    · exact ⟨fun _ => by rw [next, hs]; exact hSame, by simp [next, ActsLose]⟩
    split
    · exact ⟨fun _ => hSame, by simp [next, ActsLose]⟩
    split
    · exact ⟨fun _ => hSame, by simp [next, ActsLose]⟩
    · obtain ⟨hFits, hLoses⟩ := places_headerValueStart P c (m := m) ⟨x, hx⟩
      have hAt : ¬ m.LosesAt .headerValue := by simp [Message.LosesAt, hx, hNil]
      exact ⟨hFits, by simpa [hAt] using hLoses⟩
  case sHeaderValueDiscardLws =>
    obtain ⟨hName, x, hx, hNil⟩ := h
    unfold headerValueDiscardLwsCase
    split
    · exact ⟨fun _ => ⟨hName, x, hx, hNil⟩, by simp [next, ActsLose]⟩
    · obtain ⟨hFits, hLoses⟩ := places_headerFieldStart
        { P with flags := finishHeaderFlags P.headerState P.flags, state := .sHeaderFieldStart } c
        (m := m.see (.onHeaderValue [])) rfl
      have hAt : ¬ m.LosesAt .headerValue := by simp [Message.LosesAt, hx, hNil]
      refine ⟨hFits, ?_⟩
      simpa [Outcome.after, ActsLose, Act.Loses, hAt, Live.act, DataCb.call] using hLoses
  case sHeaderValueDiscardWsAlmostDone =>
    obtain ⟨hName, x, hx, hNil⟩ := h
    unfold expect
    split
    · exact places_fail _ _ _ _ _
    · exact ⟨fun _ => ⟨hName, x, hx, hNil⟩, by simp [next, ActsLose]⟩
  case sHeaderAlmostDone =>
    unfold headerAlmostDoneCase
    split
    · exact places_fail _ _ _ _ _
    · exact ⟨fun _ => h, by simp [next, ActsLose]⟩
  case sReqSpacesBeforeUrl =>
    unfold reqSpacesBeforeUrlCase
    split
    · exact ⟨fun _ => by rw [next, hs]; exact h, by simp [next, ActsLose]⟩
    split <;> exact places_urlStep _ _ h (.inl ⟨rfl, rfl⟩)
  case sReqSchema | sReqSchemaSlash | sReqSchemaSlashSlash | sReqServerStart =>
    unfold reqSchemaCase
    split
    · exact places_fail _ _ _ _ _
    · exact places_urlStep _ _ h (.inr ⟨rfl, rfl⟩)
  case sReqServer | sReqServerWithAt | sReqPath | sReqQueryStringStart | sReqQueryString
    | sReqFragmentStart | sReqFragment =>
    unfold reqUrlCase
    split
    · exact ⟨fun _ => h, by simp [next, ActsLose, Act.Loses]⟩
    split
    · exact ⟨fun _ => h, by simp [next, ActsLose, Act.Loses]⟩
    split
    · exact ⟨fun _ => h, by simp [next, ActsLose, Act.Loses]⟩
    · exact places_urlStep _ _ h (.inr ⟨rfl, rfl⟩)
  all_goals
    simp only [HeaderFits] at h
    try simp only [startResCase, expect, majorDigit, minorDigit, firstMinorDigit, resStatusCodeCase,
      startReqCase, reqMethodCase, chunkSizeStartCase, chunkSizeCase, chunkSizeAlmostDoneCase, chunkDataCase,
      bodyIdentityEofCase]
    repeat' split
    all_goals
      constructor <;>
      simp [fail, next, HeaderFits, ActsLose, Act.Loses, Message.LosesAt, Live.act, Live.consume, DataCb.call,
        NotifyCb.call, Message.see, *]

/-! ### One byte -/

structure Move.Places (P : HttpParser) (ch : UInt8) (v : Move) (m : Message) : Prop where
  fits : HeaderFits v.parser.state (v.spell P ch m)
  loses : v.Loses P ch m ↔ P.state = .sHeaderValueLws ∧ (ch = SP ∨ ch = HT)

theorem places_fieldMove {P : HttpParser} {n : ℕ} {ch : UInt8} {m : Message} {v : Move}
    (hState : P.state = .sHeaderField) (h : HeaderFits P.state m) (hMove : fieldMove P n ch = some v) :
    v.Places P ch m := by
  rw [hState] at h
  obtain ⟨hName, x, hx, hNil⟩ := h
  have hNoFold : ¬ (P.state = .sHeaderValueLws ∧ (ch = SP ∨ ch = HT)) := by simp [hState]
  have hOpen : openMark P.state = some .headerField := by
    rw [hState]
    rfl
  unfold fieldMove at hMove
  split at hMove
  · obtain ⟨Q, hQ, hv⟩ := Option.bind_eq_some_iff.mp hMove
    split at hv
    · obtain rfl := Option.some.inj hv
      refine ⟨?_, iff_of_false (by simp [Move.Loses, ActsLose, Act.Loses]) hNoFold⟩
      simp only [Move.spell, List.foldl_cons, List.foldl_nil, Live.act, hOpen, if_true, Live.consume]
      exact ⟨hName, x, hx, hNil⟩
    · cases hv
  · dsimp only at hMove
    split at hMove
    · cases hMove
    · obtain rfl := Option.some.inj hMove
      refine ⟨?_, iff_of_false id hNoFold⟩
      dsimp only
      rw [headerFieldChar_state, hState]
      simp [Move.spell, hOpen, Live.consume, DataCb.call, Message.see, HeaderFits, hName, hx, hNil]

theorem places_inValue {P : HttpParser} {ch : UInt8} {m : Message} (hState : P.state = .sHeaderValue)
    (h : HeaderFits P.state m) (Q : HttpParser) (hQ : Q.state = .sHeaderValue) (c : Ctl) :
    Move.Places P ch ⟨[], Q, c⟩ m := by
  rw [hState] at h
  obtain ⟨hName, x, hx, hNe⟩ := h
  have hOpen : openMark P.state = some .headerValue := by
    rw [hState]
    rfl
  refine ⟨?_, iff_of_false id (by simp [hState])⟩
  dsimp only
  rw [hQ]
  simp [Move.spell, hOpen, Live.consume, DataCb.call, Message.see, HeaderFits, hx]

theorem places_stopMove {P : HttpParser} {n : ℕ} {g : HeaderStates} {ch : UInt8} {m : Message} {v : Move}
    (hState : P.state = .sHeaderValue) (h : HeaderFits P.state m) (hMove : stopMove P n g ch = some v) :
    v.Places P ch m := by
  obtain ⟨Q, -, rfl⟩ := Option.map_eq_some_iff.mp hMove
  have hOpen : openMark P.state = some .headerValue := by
    rw [hState]
    rfl
  rw [hState] at h
  refine ⟨?_, iff_of_false (by simp [Move.Loses, ActsLose, Act.Loses]) (by simp [hState])⟩
  simp only [Move.spell, List.foldl_cons, List.foldl_nil, Live.act, hOpen, if_true, Live.consume]
  split <;> exact h

theorem places_valueMove {P : HttpParser} {n : ℕ} {g : HeaderStates} {jump : Option ℕ} {ch : UInt8} {m : Message}
    {v : Move} (hState : P.state = .sHeaderValue) (h : HeaderFits P.state m)
    (hMove : valueMove P n g jump ch = some v) : v.Places P ch m := by
  cases jump with
  | some i =>
    simp only [valueMove] at hMove
    split at hMove
    · exact places_stopMove hState h hMove
    · obtain rfl := Option.some.inj hMove
      exact places_inValue hState h P hState _
  | none =>
    simp only [valueMove] at hMove
    split at hMove
    · exact places_stopMove hState h hMove
    split at hMove
    · cases hMove
    split at hMove
    · obtain rfl := Option.some.inj hMove
      exact places_inValue hState h P hState _
    · split at hMove
      · cases hMove
      · obtain rfl := Option.some.inj hMove
        exact places_inValue hState h _ ((headerValueChar_state P g ch).trans hState) _

theorem places_switchMove {P : HttpParser} {ch : UInt8} {m : Message} {v : Move} (h : HeaderFits P.state m)
    (hMove : switchMove P ch = some v) : v.Places P ch m := by
  by_cases hField : P.state = .sHeaderField
  · exact places_fieldMove hField h (by simpa only [switchMove, hField] using hMove)
  by_cases hValue : P.state = .sHeaderValue
  · exact places_valueMove hValue h (by simpa only [switchMove, hValue] using hMove)
  have hSwitch : (switch P ch 1).move = some v := by
    unfold switchMove at hMove
    split at hMove
    · exact absurd ‹_› hField
    · exact absurd ‹_› hValue
    · exact hMove
  obtain ⟨hFlow, rfl⟩ := Outcome.move_eq_some hSwitch
  obtain ⟨hFits, hLoses⟩ := places_switch (c := ch) hField hValue h
  simp only [hFlow, and_true] at hLoses
  exact ⟨hFits hFlow, hLoses⟩

/-- A byte keeps the present line reported as its state says, and loses only a folded value. -/
theorem move_places {P : HttpParser} {c : Ctl} {ch : UInt8} {m : Message} {v : Move} (hFits : c.Fits P)
    (h : HeaderFits P.state m) (hMove : move P c ch = some v) : v.Places P ch m := by
  cases c with
  | field n => exact places_fieldMove hFits h hMove
  | value n g jump => exact places_valueMove hFits.1 h hMove
  | outer =>
    simp only [move] at hMove
    split at hMove
    · obtain ⟨Q, hQ, hv⟩ := Option.bind_eq_some_iff.mp hMove
      obtain rfl := (counted_eq_some.mp hQ).2
      exact ⟨(places_switchMove (P := addNread P 1) h hv).fits, (places_switchMove (P := addNread P 1) h hv).loses⟩
    · exact places_switchMove h hMove

/-- At the end of a buffer a name or a value is lost that has not ended. -/
theorem losesAt_openMark {s : State} {m : Message} (h : HeaderFits s m) :
    (∃ k, openMark s = some k ∧ m.LosesAt k) ↔ s = .sHeaderField ∨ s = .sHeaderValue := by
  cases s <;> simp only [openMark, reduceCtorEq, Option.some.injEq, exists_eq_left', false_and, exists_false,
    or_self, or_true, true_or, iff_true, Message.LosesAt]
  case sHeaderField => exact h.1
  case sHeaderValue => exact h.2

end HttpUtils
