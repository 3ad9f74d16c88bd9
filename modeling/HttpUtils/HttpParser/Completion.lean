import HttpUtils.HttpParser.Marks

/-!
# The end of a message

The callback for the end of a message comes with the state for the next one. An upgraded connection is
noticed in between: the parser returns behind the message, so no byte is ever accepted there.
-/

namespace HttpUtils
set_option autoImplicit false

/-- A part of the message behind its first header section is being read. -/
def HttpParser.pastHead (P : HttpParser) : Bool :=
  match P.state with
  | .sChunkSizeStart | .sChunkSize | .sChunkParameters | .sChunkSizeAlmostDone
  | .sChunkData | .sChunkDataAlmostDone | .sChunkDataDone | .sBodyIdentity | .sBodyIdentityEof | .sMessageDone => true
  | .sHeaderFieldStart | .sHeaderField | .sHeaderValueDiscardWs | .sHeaderValueDiscardWsAlmostDone
  | .sHeaderValueDiscardLws | .sHeaderValueStart | .sHeaderValue | .sHeaderValueLws | .sHeaderAlmostDone
  | .sHeadersAlmostDone => P.flags.fTrailing
  | _ => false

def HttpParser.UpgradeFits (P : HttpParser) : Prop := P.upgrade = true → P.pastHead = true

structure Outcome.Ends (P : HttpParser) (o : Outcome) : Prop where
  complete : o.flow = .next → .notify .messageComplete ∈ o.acts →
    o.parser.state = newMessage o.parser ∧ o.parser.upgrade = false
  upgrade : P.UpgradeFits → o.flow = .next → o.parser.UpgradeFits ∧ (P.upgrade = true → o.parser.upgrade = true)

theorem ends_fail (P Q : HttpParser) (e : HttpErrno) : (fail Q e).Ends P :=
  ⟨(fun h => by cases h), fun _ h => by cases h⟩

theorem ends_messageDone (P Q : HttpParser) (h : Q.upgrade = P.upgrade) : (messageDoneCase Q).Ends P := by
  have hUp (hFlow : (messageDoneCase Q).flow = .next) : Q.upgrade = false := by
    by_contra hUp
    simp [messageDoneCase, hUp] at hFlow
  refine ⟨fun hFlow _ => ⟨rfl, hUp hFlow⟩, fun _ hFlow => ⟨fun hOn => ?_, fun hOn => ?_⟩⟩
  · exact absurd ((hUp hFlow).symm.trans hOn) (by decide)
  · exact absurd ((hUp hFlow).symm.trans (h.trans hOn)) (by decide)

theorem ends_same {P Q : HttpParser} {acts : List Act} (hComplete : .notify .messageComplete ∉ acts)
    (hUpgrade : Q.upgrade = P.upgrade) (hPast : P.pastHead = true → Q.pastHead = true) : (next Q acts).Ends P :=
  ⟨fun _ h => absurd h hComplete, fun hFits _ =>
    ⟨fun hOn => hPast (hFits (hUpgrade.symm.trans hOn)), fun hOn => hUpgrade.trans hOn⟩⟩

theorem ends_headersDone (P Q : HttpParser) (ch : UInt8) (h : P.upgrade = true → P.pastHead = true → False) :
    (headersDoneCase Q ch).Ends P := by
  have hOff : P.UpgradeFits → P.upgrade = true → False := fun hFits hOn => h hOn (hFits hOn)
  simp only [headersDoneCase]
  split
  · exact ends_fail _ _ _
  split
  · exact ⟨(fun hFlow => by cases hFlow), fun _ hFlow => by cases hFlow⟩
  rename_i hNoReturn
  have hEnd {R : HttpParser} (hR : R.state = newMessage R) (hNo : R.upgrade = false) :
      (next R [.notify .messageComplete]).Ends P :=
    ⟨fun _ _ => ⟨hR, hNo⟩, fun hFits _ =>
      ⟨fun hOn => absurd (hNo.symm.trans hOn) (by decide), fun hOn => (hOff hFits hOn).elim⟩⟩
  have hBody (R : HttpParser) (hPast : R.pastHead = true) : (next R).Ends P :=
    ⟨fun _ hMem => by simp [next] at hMem, fun hFits _ => ⟨fun _ => hPast, fun hOn => (hOff hFits hOn).elim⟩⟩
  cases hUp : Q.upgrade with
  | false =>
    repeat' split
    all_goals first | exact hEnd rfl rfl | exact hBody _ rfl
  | true =>
    simp only [hUp, Bool.true_and, hasBody] at hNoReturn
    simp only [Bool.or_eq_true, not_or, Bool.not_eq_true, Bool.not_eq_false', Bool.and_eq_true,
      decide_eq_true_eq, bne_iff_ne] at hNoReturn
    obtain ⟨⟨-, hSkip⟩, hSome⟩ := hNoReturn
    rw [if_neg (by simp [hSkip])]
    split
    · exact hBody _ rfl
    · rename_i hChunked
      obtain ⟨hPos, hMax⟩ := hSome.resolve_left hChunked
      rw [if_neg (by omega), if_pos hMax]
      exact hBody _ rfl

theorem ends_headersAlmostDone (P Q : HttpParser) (ch : UInt8) (hUpgrade : Q.upgrade = P.upgrade)
    (hPast : P.pastHead = true → Q.flags.fTrailing = true) : (headersAlmostDoneCase Q ch).Ends P := by
  unfold headersAlmostDoneCase
  split
  · exact ends_fail _ _ _
  split
  · obtain ⟨hComplete, hUp⟩ := ends_messageDone P { Q with state := .sMessageDone } hUpgrade
    refine ⟨fun hFlow _ => hComplete hFlow ?_, hUp⟩
    simp [messageDoneCase]
  rename_i hTrailing
  split
  · exact ends_fail _ _ _
  · obtain ⟨hComplete, hUp⟩ := ends_headersDone P { Q with
      state := .sHeadersDone
      upgrade := (Q.flags.fUpgrade && Q.flags.fConnectionUpgrade) || Q.method == .connect } ch
      fun _ hOn => hTrailing (hPast hOn)
    refine ⟨fun hFlow hMem => hComplete hFlow ?_, hUp⟩
    simpa [Outcome.after] using hMem

theorem ends_headerFieldStart (P Q : HttpParser) (ch : UInt8)
    (hUpgrade : Q.upgrade = P.upgrade) (hPast : P.pastHead = true → Q.flags.fTrailing = true) :
    (headerFieldStartCase Q ch).Ends P := by
  unfold headerFieldStartCase
  split
  · exact ends_same (by simp) hUpgrade hPast
  split
  · exact ends_headersAlmostDone _ _ _ hUpgrade hPast
  split
  · exact ends_fail _ _ _
  · exact ends_same (by simp) hUpgrade hPast

theorem ends_headerValueStart (P Q : HttpParser) (ch : UInt8) (hUpgrade : Q.upgrade = P.upgrade)
    (hPast : P.pastHead = true → Q.flags.fTrailing = true) : (headerValueStartCase Q ch).Ends P := by
  cases hs : Q.headerState <;> simp only [headerValueStartCase, hs]
  case hContentLength =>
    split
    · exact ends_fail _ _ _
    · exact ends_same (by simp) hUpgrade hPast
  all_goals exact ends_same (by simp) hUpgrade hPast

theorem finishHeaderFlags_trailing (h : HeaderStates) (F : Flags) :
    (finishHeaderFlags h F).fTrailing = F.fTrailing := by
  cases h <;> rfl

theorem ends_urlStep {P Q : HttpParser} {ch : UInt8} {acts : List Act} (hActs : .notify .messageComplete ∉ acts)
    (hUpgrade : Q.upgrade = P.upgrade) (hPast : P.pastHead ≠ true) : (urlStep Q ch acts).Ends P := by
  unfold urlStep
  dsimp only
  split
  · exact ⟨(fun h => by cases h), fun _ h => by cases h⟩
  · exact ends_same hActs hUpgrade fun h => absurd h hPast

theorem switch_ends (P : HttpParser) (ch : UInt8) (hField : P.state ≠ .sHeaderField)
    (hValue : P.state ≠ .sHeaderValue) : (switch P ch 1).Ends P := by
  cases hs : P.state <;> simp only [switch, hs]
  case sHeaderField => exact absurd hs hField
  case sHeaderValue => exact absurd hs hValue
  case sHeaderFieldStart => exact ends_headerFieldStart _ _ _ rfl (by simp [HttpParser.pastHead, hs])
  case sHeaderValueStart => exact ends_headerValueStart _ _ _ rfl (by simp [HttpParser.pastHead, hs])
  case sHeadersAlmostDone => exact ends_headersAlmostDone _ _ _ rfl (by simp [HttpParser.pastHead, hs])
  case sHeadersDone => exact ends_headersDone _ _ _ (by simp [HttpParser.pastHead, hs])
  case sMessageDone => exact ends_messageDone _ _ rfl
  case sHeaderValueLws =>
    have hPast : P.pastHead = true → (finishHeaderFlags P.headerState P.flags).fTrailing = true := by
      simp [HttpParser.pastHead, hs, finishHeaderFlags_trailing]
    unfold headerValueLwsCase
    split
    · exact ends_headerValueStart _ _ _ rfl (by simp [HttpParser.pastHead, hs])
    · exact ends_headerFieldStart _ _ _ rfl hPast
  case sHeaderValueDiscardWs =>
    unfold headerValueDiscardWsCase
    repeat' split
    any_goals exact ends_same (by simp) rfl (by simp [HttpParser.pastHead, hs])
    exact ends_headerValueStart _ _ _ rfl (by simp [HttpParser.pastHead, hs])
  case sHeaderValueDiscardLws =>
    have hPast : P.pastHead = true → (finishHeaderFlags P.headerState P.flags).fTrailing = true := by
      simp [HttpParser.pastHead, hs, finishHeaderFlags_trailing]
    unfold headerValueDiscardLwsCase
    split
    · exact ends_same (by simp) rfl (by simp [HttpParser.pastHead, hs])
    · obtain ⟨hComplete, hUp⟩ := ends_headerFieldStart P
        { P with flags := finishHeaderFlags P.headerState P.flags, state := .sHeaderFieldStart } ch rfl hPast
      exact ⟨fun hFlow hMem => hComplete hFlow (by simpa [Outcome.after] using hMem), hUp⟩
  case sBodyIdentity =>
    simp only [bodyIdentityCase]
    split
    · obtain ⟨hComplete, hUp⟩ := ends_messageDone P
        { P with contentLength := P.contentLength - min P.contentLength 1, state := .sMessageDone } rfl
      exact ⟨fun hFlow _ => hComplete hFlow (by simp [messageDoneCase]), hUp⟩
    · exact ends_same (by simp) rfl (by simp [HttpParser.pastHead, hs])
  case sReqSpacesBeforeUrl =>
    unfold reqSpacesBeforeUrlCase
    split
    · exact ends_same (by simp) rfl id
    split <;> exact ends_urlStep (by simp) rfl (by simp [HttpParser.pastHead, hs])
  case sReqSchema | sReqSchemaSlash | sReqSchemaSlashSlash | sReqServerStart =>
    unfold reqSchemaCase
    split
    · exact ends_fail _ _ _
    · exact ends_urlStep (by simp) rfl (by simp [HttpParser.pastHead, hs])
  case sReqServer | sReqServerWithAt | sReqPath | sReqQueryStringStart | sReqQueryString
    | sReqFragmentStart | sReqFragment =>
    have hPast : P.pastHead ≠ true := by simp [HttpParser.pastHead, hs]
    unfold reqUrlCase
    split
    · exact ends_same (by simp) rfl fun h => absurd h hPast
    split
    · exact ends_same (by simp) rfl fun h => absurd h hPast
    split
    · exact ends_same (by simp) rfl fun h => absurd h hPast
    · exact ends_urlStep (by simp) rfl hPast
  all_goals
    try simp only [startResCase, expect, majorDigit, minorDigit, firstMinorDigit, resStatusCodeCase,
      startReqCase, reqMethodCase, headerAlmostDoneCase, chunkSizeStartCase, chunkSizeCase, chunkSizeAlmostDoneCase,
      chunkDataCase, bodyIdentityEofCase]
    repeat' split
    all_goals
      first
      | exact ends_fail _ _ _
      | exact ends_same (by simp) rfl (by simp [HttpParser.pastHead, hs])

/-! ### One byte -/

structure Move.Ends (P : HttpParser) (v : Move) : Prop where
  complete : .notify .messageComplete ∈ v.acts →
    v.parser.state = newMessage v.parser ∧ v.parser.upgrade = false ∧ v.ctl = .outer
  upgrade : P.UpgradeFits → v.parser.UpgradeFits ∧ (P.upgrade = true → v.parser.upgrade = true)

theorem ends_loop {P : HttpParser} {v : Move} (hActs : .notify .messageComplete ∉ v.acts)
    (hUpgrade : v.parser.upgrade = P.upgrade) (hPast : P.pastHead = true → v.parser.pastHead = true) : v.Ends P :=
  ⟨fun h => absurd h hActs, fun hFits =>
    ⟨fun hOn => hPast (hFits (hUpgrade.symm.trans hOn)), fun hOn => hUpgrade.trans hOn⟩⟩

theorem headerFieldChar_ends (P : HttpParser) (ch c : UInt8) :
    (headerFieldChar P ch c).upgrade = P.upgrade ∧ (headerFieldChar P ch c).flags.fTrailing = P.flags.fTrailing := by
  have hKeyword (keyword : Bytes) (done : HttpParser → HttpParser)
      (h : ∀ P, (done P).upgrade = P.upgrade ∧ (done P).flags.fTrailing = P.flags.fTrailing) :
      (matchKeyword keyword P c done).upgrade = P.upgrade ∧
        (matchKeyword keyword P c done).flags.fTrailing = P.flags.fTrailing := by
    simp only [matchKeyword]
    split
    · exact ⟨rfl, rfl⟩
    split
    · exact h _
    · exact ⟨rfl, rfl⟩
  cases hs : P.headerState <;> simp only [headerFieldChar, hs]
  case hMatchingContentLength =>
    refine hKeyword _ _ fun P => ?_
    split <;> exact ⟨rfl, rfl⟩
  case hMatchingConnection | hMatchingProxyConnection | hMatchingTransferEncoding | hMatchingUpgrade =>
    exact hKeyword _ _ fun _ => ⟨rfl, rfl⟩
  all_goals (try split) <;> trivial

theorem headerValueChar_ends (P : HttpParser) (h : HeaderStates) (ch : UInt8) :
    (headerValueChar P h ch).1.upgrade = P.upgrade ∧ (headerValueChar P h ch).1.flags.fTrailing =
      P.flags.fTrailing := by
  have hMatch (keyword : Bytes) (g done miss : HeaderStates) :
      (matchValue keyword P (lower ch) g done miss).1.upgrade = P.upgrade ∧
        (matchValue keyword P (lower ch) g done miss).1.flags.fTrailing = P.flags.fTrailing := by
    simp only [matchValue]
    repeat' split
    all_goals exact ⟨rfl, rfl⟩
  cases h
  case hMatchingTransferEncodingChunked | hMatchingConnectionKeepAlive | hMatchingConnectionClose
    | hMatchingConnectionUpgrade => exact hMatch _ _ _ _
  all_goals
    unfold headerValueChar
    dsimp only
    repeat' split
    all_goals trivial

theorem pastHead_loop {P Q : HttpParser} (hState : P.state = .sHeaderField ∨ P.state = .sHeaderValue)
    (hQ : Q.state = .sHeaderField ∨ Q.state = .sHeaderValue ∨ Q.state = .sHeaderValueDiscardWs ∨
      Q.state = .sHeaderAlmostDone ∨ Q.state = .sHeaderValueLws)
    (hTrailing : Q.flags.fTrailing = P.flags.fTrailing) : P.pastHead = true → Q.pastHead = true := by
  have hP : P.pastHead = P.flags.fTrailing := by
    rcases hState with hs | hs <;> simp [HttpParser.pastHead, hs]
  have hPast : Q.pastHead = Q.flags.fTrailing := by
    rcases hQ with hs | hs | hs | hs | hs <;> simp [HttpParser.pastHead, hs]
  rw [hP, hPast, hTrailing]
  exact id

theorem fieldMove_ends {P : HttpParser} {n : ℕ} {ch : UInt8} {v : Move} (hState : P.state = .sHeaderField)
    (hMove : fieldMove P n ch = some v) : v.Ends P := by
  unfold fieldMove at hMove
  split at hMove
  · obtain ⟨Q, hQ, hv⟩ := Option.bind_eq_some_iff.mp hMove
    obtain rfl := (counted_eq_some.mp hQ).2
    split at hv
    · obtain rfl := Option.some.inj hv
      exact ends_loop (by simp) rfl (pastHead_loop (.inl hState) (by simp) rfl)
    · cases hv
  · dsimp only at hMove
    split at hMove
    · cases hMove
    · obtain rfl := Option.some.inj hMove
      obtain ⟨hUpgrade, hTrailing⟩ := headerFieldChar_ends P ch (token ch)
      exact ends_loop (by simp) hUpgrade
        (pastHead_loop (.inl hState) (.inl ((headerFieldChar_state P ch _).trans hState)) hTrailing)

theorem stopMove_ends {P : HttpParser} {n : ℕ} {h : HeaderStates} {ch : UInt8} {v : Move}
    (hState : P.state = .sHeaderValue) (hMove : stopMove P n h ch = some v) : v.Ends P := by
  obtain ⟨Q, hQ, rfl⟩ := Option.map_eq_some_iff.mp hMove
  obtain rfl := (counted_eq_some.mp hQ).2
  refine ends_loop (by simp) rfl (pastHead_loop (.inr hState) ?_ rfl)
  dsimp only
  split <;> simp

theorem valueMove_ends {P : HttpParser} {n : ℕ} {h : HeaderStates} {jump : Option ℕ} {ch : UInt8} {v : Move}
    (hState : P.state = .sHeaderValue) (hMove : valueMove P n h jump ch = some v) : v.Ends P := by
  have hStay (c : Ctl) : Move.Ends P ⟨[], P, c⟩ := ends_loop (by simp) rfl id
  cases jump with
  | some i =>
    simp only [valueMove] at hMove
    split at hMove
    · exact stopMove_ends hState hMove
    · obtain rfl := Option.some.inj hMove
      exact hStay _
  | none =>
    simp only [valueMove] at hMove
    split at hMove
    · exact stopMove_ends hState hMove
    split at hMove
    · cases hMove
    split at hMove
    · obtain rfl := Option.some.inj hMove
      exact hStay _
    · split at hMove
      · cases hMove
      · obtain rfl := Option.some.inj hMove
        obtain ⟨hUpgrade, hTrailing⟩ := headerValueChar_ends P h ch
        exact ends_loop (by simp) hUpgrade
          (pastHead_loop (.inr hState) (.inr (.inl ((headerValueChar_state P h ch).trans hState))) hTrailing)

theorem switchMove_ends {P : HttpParser} {ch : UInt8} {v : Move} (hMove : switchMove P ch = some v) : v.Ends P := by
  by_cases hField : P.state = .sHeaderField
  · exact fieldMove_ends hField (by simpa only [switchMove, hField] using hMove)
  by_cases hValue : P.state = .sHeaderValue
  · exact valueMove_ends hValue (by simpa only [switchMove, hValue] using hMove)
  have hSwitch : (switch P ch 1).move = some v := by
    unfold switchMove at hMove
    split at hMove
    · exact absurd ‹_› hField
    · exact absurd ‹_› hValue
    · exact hMove
  obtain ⟨hFlow, rfl⟩ := Outcome.move_eq_some hSwitch
  obtain ⟨hComplete, hUpgrade⟩ := switch_ends P ch hField hValue
  exact ⟨fun hMem => ⟨(hComplete hFlow hMem).1, (hComplete hFlow hMem).2, rfl⟩, fun hFits => hUpgrade hFits hFlow⟩

theorem move_ends {P : HttpParser} {c : Ctl} {ch : UInt8} {v : Move} (hFits : c.Fits P)
    (hMove : move P c ch = some v) : v.Ends P := by
  cases c with
  | field n => exact fieldMove_ends hFits hMove
  | value n g jump => exact valueMove_ends hFits.1 hMove
  | outer =>
    simp only [move] at hMove
    split at hMove
    · obtain ⟨Q, hQ, hv⟩ := Option.bind_eq_some_iff.mp hMove
      obtain rfl := (counted_eq_some.mp hQ).2
      exact ⟨(switchMove_ends hv).complete, (switchMove_ends hv).upgrade⟩
    · exact switchMove_ends hMove

/-! ### The message -/

theorem Live.act_complete (P : HttpParser) (ch : UInt8) (l : Live) (a : Act) :
    (l.act P ch a).message.complete = true ↔ l.message.complete = true ∨ a = .notify .messageComplete := by
  cases a with
  | mark k => simp [Live.act, Message.complete_see_data]
  | data k =>
    simp only [Live.act]
    split <;> simp
  | dataThrough k =>
    simp only [Live.act]
    split <;> simp [Message.complete_see_data]
  | notify k => cases k <;> simp [Live.act, NotifyCb.call, Message.see]
  | advance n => simp [Live.act]

theorem Move.spell_complete (P : HttpParser) (ch : UInt8) (v : Move) (m : Message) :
    (v.spell P ch m).complete = true ↔ m.complete = true ∨ .notify .messageComplete ∈ v.acts := by
  have hActs (l : Live) (acts : List Act) : (acts.foldl (Live.act v.parser ch) l).message.complete = true ↔
      l.message.complete = true ∨ .notify .messageComplete ∈ acts := by
    induction acts generalizing l with
    | nil => simp
    | cons a acts ih =>
      rw [List.foldl_cons, ih, Live.act_complete, List.mem_cons, or_assoc, eq_comm (a := a)]
  rw [← hActs ⟨openMark P.state, m⟩ v.acts, Move.spell]
  generalize v.acts.foldl (Live.act v.parser ch) ⟨openMark P.state, m⟩ = l
  unfold Live.consume
  cases l.mark with
  | none => exact Iff.rfl
  | some k => rw [Message.complete_see_data]

end HttpUtils
