import HttpUtils.HttpParser.Sound
import HttpUtils.Decimal

/-!
# The status line of a response

The status code and the reason phrase as they stand in the text, and as the parser tells them: the code is told by
the callback for the reason phrase, so with an empty one it is not told at all.
-/

namespace HttpUtils
set_option autoImplicit false

/-! ### The text -/

def behindVersion (w : Bytes) : Bytes := (w.dropWhile fun c => c ≠ SP).dropWhile fun c => c = SP

def wireStatus (w : Bytes) : ℕ := digitsValue 0 ((behindVersion w).takeWhile isNum)

/-- The reason phrase, which has a blank in front of it. -/
def wireReason (w : Bytes) : Bytes :=
  match (behindVersion w).dropWhile isNum with
  | [] => []
  | c :: s => if c = SP then s.takeWhile fun c => c ≠ CR ∧ c ≠ LF else []

structure Coded (w ds rest : Bytes) : Prop where
  split : ∃ version blanks, w = version ++ (blanks ++ (ds ++ rest)) ∧ SP ∉ version ∧ blanks ≠ [] ∧
    ∀ c ∈ blanks, c = SP
  some : ds ≠ []
  digits : ∀ c ∈ ds, isNum c = true

theorem Coded.append {w ds rest : Bytes} (h : Coded w ds rest) (more : Bytes) :
    Coded (w ++ more) ds (rest ++ more) := by
  obtain ⟨version, blanks, rfl, hVersion⟩ := h.split
  exact ⟨⟨version, blanks, by simp only [List.append_assoc], hVersion⟩, h.some, h.digits⟩

theorem Coded.digit {w ds : Bytes} {ch : UInt8} (h : Coded w ds []) (hNum : isNum ch = true) :
    Coded (w ++ [ch]) (ds ++ [ch]) [] := by
  obtain ⟨version, blanks, rfl, hVersion⟩ := h.split
  refine ⟨⟨version, blanks, by simp, hVersion⟩, by simp, ?_⟩
  intro c hc
  rcases List.mem_append.mp hc with hc | hc
  · exact h.digits c hc
  · rwa [List.mem_singleton.mp hc]

theorem dropWhile_append_of_all {p : UInt8 → Bool} {a b : Bytes} (ha : ∀ c ∈ a, p c = true)
    (hb : ∀ c ∈ b.head?, p c = false) :
    (a ++ b).dropWhile p = b ∧ (a ++ b).takeWhile p = a := by
  rw [List.dropWhile_append_of_pos ha, List.takeWhile_append_of_pos ha]
  cases b with
  | nil => simp
  | cons c b =>
    have hc := hb c rfl
    simp [hc]

theorem Coded.behindVersion {w ds rest : Bytes} (h : Coded w ds rest) : behindVersion w = ds ++ rest := by
  obtain ⟨version, blanks, rfl, hVersion, hSome, hBlanks⟩ := h.split
  obtain ⟨b, blanks, rfl⟩ := List.exists_cons_of_ne_nil hSome
  obtain ⟨d, ds, rfl⟩ := List.exists_cons_of_ne_nil h.some
  have hFirst : (version ++ (b :: blanks ++ (d :: ds ++ rest))).dropWhile (fun c => c ≠ SP) =
      b :: blanks ++ (d :: ds ++ rest) := by
    refine (dropWhile_append_of_all (fun c hc => ?_) fun c hc => ?_).1
    · simpa using fun hEq : c = SP => hVersion (hEq ▸ hc)
    · obtain rfl : b = c := Option.some.inj hc
      simpa using hBlanks b List.mem_cons_self
  have hNum : isNum d = true := h.digits d List.mem_cons_self
  rw [HttpUtils.behindVersion, hFirst]
  refine (dropWhile_append_of_all (fun c hc => by simpa using hBlanks c hc) fun c hc => ?_).1
  obtain rfl : d = c := Option.some.inj hc
  have hNot : d ≠ SP := by
    rintro rfl
    exact absurd hNum (by decide)
  simpa using hNot

/-- What stands between the digits and the end of the line: nothing, or a blank and the reason phrase. -/
inductive Reasoned : Bytes → Bytes → Prop
  | absent (e : UInt8) (more : Bytes) (hEnd : e = CR ∨ e = LF) : Reasoned [] (e :: more)
  | present (reason : Bytes) (e : UInt8) (more : Bytes) (hLine : CR ∉ reason ∧ LF ∉ reason) (hEnd : e = CR ∨ e = LF) :
      Reasoned reason (SP :: (reason ++ e :: more))

theorem Reasoned.append {reason rest : Bytes} (h : Reasoned reason rest) (more : Bytes) :
    Reasoned reason (rest ++ more) := by
  cases h with
  | absent e more' hEnd => exact .absent e (more' ++ more) hEnd
  | present _ e more' hLine hEnd =>
    have hSplit : SP :: (reason ++ e :: more') ++ more = SP :: (reason ++ e :: (more' ++ more)) := by simp
    rw [hSplit]
    exact .present reason e (more' ++ more) hLine hEnd

theorem Coded.wire {w ds rest reason : Bytes} (h : Coded w ds rest) (hReason : Reasoned reason rest) :
    wireStatus w = digitsValue 0 ds ∧ wireReason w = reason := by
  have hHead : ∀ c ∈ rest.head?, isNum c = false := by
    intro c hc
    cases hReason with
    | absent e more hEnd =>
      obtain rfl : e = c := Option.some.inj hc
      rcases hEnd with rfl | rfl <;> rfl
    | present _ e more hLine hEnd =>
      obtain rfl : SP = c := Option.some.inj hc
      rfl
  obtain ⟨hDrop, hTake⟩ := dropWhile_append_of_all h.digits hHead
  rw [wireStatus, wireReason, h.behindVersion, hTake, hDrop]
  refine ⟨rfl, ?_⟩
  cases hReason with
  | absent e more hEnd =>
    have hNot : e ≠ SP := by rcases hEnd with rfl | rfl <;> decide
    simp [hNot]
  | present _ e more hLine hEnd =>
    simp only [if_true]
    refine (dropWhile_append_of_all (fun c hc => ?_) fun c hc => ?_).2
    · have hCr : c ≠ CR := fun hEq => hLine.1 (hEq ▸ hc)
      have hLf : c ≠ LF := fun hEq => hLine.2 (hEq ▸ hc)
      simp [hCr, hLf]
    · obtain rfl : e = c := Option.some.inj hc
      rcases hEnd with rfl | rfl <;> simp

/-! ### The parser on the status line -/

inductive StatusPart where
  | version | blanks | code | behindCode | reason | past
  deriving DecidableEq, Repr

def State.statusPart : State → StatusPart
  | .sStartRes | .sResH | .sResHT | .sResHTT | .sResHTTP | .sResFirstHttpMajor | .sResHttpMajor | .sResFirstHttpMinor
  | .sResHttpMinor => .version
  | .sResFirstStatusCode => .blanks
  | .sResStatusCode => .code
  | .sResStatusStart => .behindCode
  | .sResStatus => .reason
  | _ => .past

def Told (w : Bytes) (m : Message) : Prop :=
  ∃ ds rest reason, Coded w ds rest ∧ Reasoned reason rest ∧
    m.status = if reason = [] then none else some (digitsValue 0 ds)

/-- The parser behind the bytes `w` of a response. -/
def LineAt (w : Bytes) (P : HttpParser) (m : Message) : Prop :=
  match P.state.statusPart with
  | .version => SP ∉ w ∧ m.status = none
  | .blanks =>
    (∃ version blanks, w = version ++ blanks ∧ SP ∉ version ∧ blanks ≠ [] ∧ ∀ c ∈ blanks, c = SP) ∧ m.status = none
  | .code => ∃ ds, Coded w ds [] ∧ P.statusCode = digitsValue 0 ds ∧ m.status = none
  | .behindCode => ∃ ds, Coded w ds [SP] ∧ P.statusCode = digitsValue 0 ds ∧ m.status = none
  | .reason =>
    ∃ ds reason, Coded w ds (SP :: reason) ∧ reason ≠ [] ∧ CR ∉ reason ∧ LF ∉ reason ∧
      P.statusCode = digitsValue 0 ds ∧ m.status = some (digitsValue 0 ds)
  | .past => Told w m

theorem Told.status {w : Bytes} {m : Message} (h : Told w m) :
    m.status = if wireReason w = [] then none else some (wireStatus w) := by
  obtain ⟨ds, rest, reason, hCoded, hReason, hStatus⟩ := h
  obtain ⟨hWire, hText⟩ := hCoded.wire hReason
  rw [hWire, hText, hStatus]

theorem Told.append {w : Bytes} {m m' : Message} (h : Told w m) (hStatus : m'.status = m.status) (more : Bytes) :
    Told (w ++ more) m' := by
  obtain ⟨ds, rest, reason, hCoded, hReason, hTold⟩ := h
  exact ⟨ds, rest ++ more, reason, hCoded.append more, hReason.append more, hStatus.trans hTold⟩

/-! ### One byte -/

/-- Behind the status line, only the end of a message leads back to one. -/
structure Outcome.Past (o : Outcome) : Prop where
  state : o.flow = .next → o.parser.state.statusPart = .past ∨ .notify .messageComplete ∈ o.acts
  mark : .mark .status ∉ o.acts

theorem Outcome.Past.after {o : Outcome} (h : o.Past) {acts : List Act} (hActs : .mark .status ∉ acts) :
    (o.after acts).Past := by
  constructor
  · intro hFlow
    exact (h.state hFlow).imp_right (List.mem_append_right acts)
  · exact fun hMem => (List.mem_append.mp hMem).elim hActs h.mark

theorem past_fail (P : HttpParser) (e : HttpErrno) : (fail P e).Past := ⟨nofun, nofun⟩

theorem past_next {P : HttpParser} {acts : List Act} (hState : P.state.statusPart = .past)
    (hActs : .mark .status ∉ acts) :
    (next P acts).Past := ⟨fun _ => .inl hState, hActs⟩

theorem past_messageDone (P : HttpParser) : (messageDoneCase P).Past := by
  constructor <;> simp [messageDoneCase]

theorem past_headersDone (P : HttpParser) (ch : UInt8) : (headersDoneCase P ch).Past := by
  simp only [headersDoneCase]
  repeat' split
  all_goals first
    | exact past_fail _ _
    | (constructor <;> simp [next, State.statusPart])

theorem past_headersAlmostDone (P : HttpParser) (ch : UInt8) : (headersAlmostDoneCase P ch).Past := by
  unfold headersAlmostDoneCase
  split
  · exact past_fail _ _
  split
  · exact (past_messageDone _).after (by simp)
  split
  · exact past_fail _ _
  · exact (past_headersDone _ _).after (by simp)

theorem past_headerFieldStart (P : HttpParser) (ch : UInt8) : (headerFieldStartCase P ch).Past := by
  unfold headerFieldStartCase
  split
  · exact past_next rfl (by simp)
  split
  · exact past_headersAlmostDone _ _
  split
  · exact past_fail _ _
  · exact past_next rfl (by simp)

theorem past_headerValueStart (P : HttpParser) (ch : UInt8) : (headerValueStartCase P ch).Past := by
  simp only [headerValueStartCase]
  repeat' split
  all_goals first
    | exact past_fail _ _
    | exact past_next rfl (by simp)

theorem past_urlStep (P : HttpParser) (ch : UInt8) {acts : List Act} (hActs : .mark .status ∉ acts) :
    (urlStep P ch acts).Past := by
  unfold urlStep
  dsimp only
  split
  · exact ⟨nofun, hActs⟩
  · rename_i hDead
    refine past_next ?_ hActs
    have hOpen := openMark_parseUrlChar hDead
    generalize parseUrlChar P.state ch = s at hOpen
    cases s <;> first | rfl | cases hOpen

theorem switch_past (P : HttpParser) (ch : UInt8) (h : P.state.statusPart = .past) : (switch P ch 1).Past := by
  cases hs : P.state <;> simp only [switch, hs]
  case sStartRes | sResH | sResHT | sResHTT | sResHTTP | sResFirstHttpMajor | sResHttpMajor | sResFirstHttpMinor
    | sResHttpMinor | sResFirstStatusCode | sResStatusCode | sResStatusStart | sResStatus =>
      simp [hs, State.statusPart] at h
  case sHeaderFieldStart => exact past_headerFieldStart _ _
  case sHeaderValueStart => exact past_headerValueStart _ _
  case sHeadersAlmostDone => exact past_headersAlmostDone _ _
  case sHeadersDone => exact past_headersDone _ _
  case sMessageDone => exact past_messageDone _
  case sHeaderValueLws =>
    unfold headerValueLwsCase
    split
    · exact past_headerValueStart _ _
    · exact past_headerFieldStart _ _
  case sHeaderValueDiscardWs =>
    unfold headerValueDiscardWsCase
    repeat' split
    all_goals first
      | exact past_headerValueStart _ _
      | exact past_next (by simp [State.statusPart, hs]) (by simp)
  case sHeaderValueDiscardLws =>
    unfold headerValueDiscardLwsCase
    split
    · exact past_next rfl (by simp)
    · exact (past_headerFieldStart _ _).after (by simp)
  case sReqSpacesBeforeUrl =>
    unfold reqSpacesBeforeUrlCase
    split
    · exact past_next h (by simp)
    split <;> exact past_urlStep _ _ (by simp)
  case sReqSchema | sReqSchemaSlash | sReqSchemaSlashSlash | sReqServerStart =>
    unfold reqSchemaCase
    split
    · exact past_fail _ _
    · exact past_urlStep _ _ (by simp)
  case sReqServer | sReqServerWithAt | sReqPath | sReqQueryStringStart | sReqQueryString
    | sReqFragmentStart | sReqFragment =>
    unfold reqUrlCase
    repeat' split
    all_goals first
      | exact past_urlStep _ _ (by simp)
      | exact past_next rfl (by simp)
  case sBodyIdentity =>
    simp only [bodyIdentityCase]
    split
    · exact (past_messageDone _).after (by simp)
    · exact past_next h (by simp)
  all_goals
    try simp only [expect, majorDigit, minorDigit, firstMinorDigit, startReqCase, reqMethodCase, headerAlmostDoneCase,
      chunkSizeStartCase, chunkSizeCase, chunkSizeAlmostDoneCase, chunkDataCase, bodyIdentityEofCase]
    repeat' split
    all_goals first
      | exact past_fail _ _
      | exact past_next (by simp [State.statusPart, hs]) (by simp)

theorem Live.act_status (P : HttpParser) (ch : UInt8) {l : Live} {a : Act} (hMark : l.mark ≠ some .status)
    (ha : a ≠ .mark .status) :
    (l.act P ch a).mark ≠ some .status ∧ (l.act P ch a).message.status = l.message.status := by
  have hCall (k : DataCb) (hk : k ≠ .status) (run : Bytes) (m : Message) :
      (m.see (k.call P run)).status = m.status := by
    cases k with
    | status => exact absurd rfl hk
    | headerField =>
      simp only [DataCb.call, Message.see]
      split <;> rfl
    | _ => rfl
  cases a with
  | mark k =>
    have hk : k ≠ .status := fun hEq => ha (congrArg Act.mark hEq)
    exact ⟨by simpa [Live.act] using hk, hCall k hk [] l.message⟩
  | data k =>
    simp only [Live.act]
    split
    · exact ⟨by simp, rfl⟩
    · exact ⟨hMark, rfl⟩
  | dataThrough k =>
    simp only [Live.act]
    split
    · rename_i hOpen
      refine ⟨by simp, hCall k ?_ [ch] l.message⟩
      rintro rfl
      exact hMark hOpen
    · exact ⟨hMark, rfl⟩
  | notify k => cases k <;> exact ⟨hMark, rfl⟩
  | advance n => exact ⟨hMark, rfl⟩

/-- Only the mark of the reason phrase tells the code. -/
theorem Move.spell_status {P : HttpParser} {ch : UInt8} {v : Move} (hOpen : openMark P.state ≠ some .status)
    (hActs : .mark .status ∉ v.acts) (m : Message) : (v.spell P ch m).status = m.status := by
  have hFold (acts : List Act) (hActs : .mark .status ∉ acts) (l : Live) (hMark : l.mark ≠ some .status) :
      (acts.foldl (Live.act v.parser ch) l).mark ≠ some .status ∧
        (acts.foldl (Live.act v.parser ch) l).message.status = l.message.status := by
    induction acts generalizing l with
    | nil => exact ⟨hMark, rfl⟩
    | cons a acts ih =>
      obtain ⟨hHead, hTail⟩ := not_or.mp (fun hMem => hActs (List.mem_cons.mpr hMem))
      obtain ⟨hMark', hStatus⟩ := Live.act_status v.parser ch hMark (Ne.symm hHead)
      obtain ⟨hMark'', hStatus'⟩ := ih hTail _ hMark'
      exact ⟨hMark'', hStatus'.trans hStatus⟩
  obtain ⟨hMark, hStatus⟩ := hFold v.acts hActs ⟨openMark P.state, m⟩ hOpen
  rw [Move.spell]
  generalize v.acts.foldl (Live.act v.parser ch) ⟨openMark P.state, m⟩ = l at hMark hStatus
  rw [← hStatus]
  unfold Live.consume
  cases hk : l.mark with
  | none => rfl
  | some k =>
    cases k with
    | status => exact absurd hk hMark
    | headerField =>
      simp only [DataCb.call, Message.see]
      split <;> rfl
    | _ => rfl

def Move.Past (v : Move) : Prop :=
  (v.parser.state.statusPart = .past ∨ .notify .messageComplete ∈ v.acts) ∧ .mark .status ∉ v.acts

theorem fieldMove_past {P : HttpParser} {n : ℕ} {ch : UInt8} {v : Move} (hPast : P.state.statusPart = .past)
    (hMove : fieldMove P n ch = some v) : v.Past := by
  unfold fieldMove at hMove
  split at hMove
  · obtain ⟨Q, -, hv⟩ := Option.bind_eq_some_iff.mp hMove
    split at hv
    · obtain rfl := Option.some.inj hv
      exact ⟨.inl rfl, by simp⟩
    · cases hv
  · dsimp only at hMove
    split at hMove
    · cases hMove
    · obtain rfl := Option.some.inj hMove
      exact ⟨.inl (by rw [headerFieldChar_state, hPast]), by simp⟩

theorem valueMove_past {P : HttpParser} {n : ℕ} {g : HeaderStates} {jump : Option ℕ} {ch : UInt8} {v : Move}
    (hPast : P.state.statusPart = .past) (hMove : valueMove P n g jump ch = some v) : v.Past := by
  have hStop {w : Move} (h : stopMove P n g ch = some w) : w.Past := by
    obtain ⟨Q, -, rfl⟩ := Option.map_eq_some_iff.mp h
    refine ⟨.inl ?_, by simp⟩
    dsimp only
    split <;> rfl
  unfold valueMove at hMove
  cases jump with
  | some i =>
    dsimp only at hMove
    split at hMove
    · exact hStop hMove
    · obtain rfl := Option.some.inj hMove
      exact ⟨.inl hPast, by simp⟩
  | none =>
    dsimp only at hMove
    split at hMove
    · exact hStop hMove
    split at hMove
    · cases hMove
    split at hMove
    · obtain rfl := Option.some.inj hMove
      exact ⟨.inl hPast, by simp⟩
    split at hMove
    · cases hMove
    · obtain rfl := Option.some.inj hMove
      exact ⟨.inl (by rw [headerValueChar_state, hPast]), by simp⟩

theorem switchMove_past {P : HttpParser} {ch : UInt8} {v : Move} (hPast : P.state.statusPart = .past)
    (hMove : switchMove P ch = some v) : v.Past := by
  unfold switchMove at hMove
  split at hMove
  · exact fieldMove_past hPast hMove
  · exact valueMove_past hPast hMove
  · obtain ⟨hFlow, rfl⟩ := Outcome.move_eq_some hMove
    have hSwitch := switch_past P ch hPast
    exact ⟨hSwitch.state hFlow, hSwitch.mark⟩

theorem move_past {P : HttpParser} {c : Ctl} {ch : UInt8} {v : Move} (hPast : P.state.statusPart = .past)
    (hMove : move P c ch = some v) : v.Past := by
  cases c with
  | field n => exact fieldMove_past hPast hMove
  | value n g jump => exact valueMove_past hPast hMove
  | outer =>
    simp only [move] at hMove
    split at hMove
    · obtain ⟨Q, hQ, hv⟩ := Option.bind_eq_some_iff.mp hMove
      obtain rfl := (counted_eq_some.mp hQ).2
      exact switchMove_past (P := addNread P 1) hPast hv
    · exact switchMove_past hPast hMove

theorem switch_version {Q : HttpParser} {ch : UInt8} (h : Q.state.statusPart = .version)
    (hFlow : (switch Q ch 1).flow = .next) :
    (ch ≠ SP ∧ (switch Q ch 1).parser.state.statusPart = .version ∨
      ch = SP ∧ (switch Q ch 1).parser.state.statusPart = .blanks) ∧
      .mark .status ∉ (switch Q ch 1).acts ∧ .notify .messageComplete ∉ (switch Q ch 1).acts := by
  have hNum {c : UInt8} (hc : isNum c = true) : c ≠ SP := by
    rintro rfl
    exact absurd hc (by decide)
  revert hFlow
  cases hs : Q.state <;> simp [hs, State.statusPart] at h <;> simp only [switch, hs]
  case sStartRes =>
    simp only [startResCase]
    split
    · rename_i hH
      exact fun _ => ⟨.inl ⟨by rw [hH]; decide, rfl⟩, by simp [next], by simp [next]⟩
    split
    · rename_i hBreak
      refine fun _ => ⟨.inl ⟨?_, by simp [next, hs, State.statusPart]⟩, by simp [next], by simp [next]⟩
      rcases hBreak with rfl | rfl <;> decide
    · exact fun hFail => absurd hFail (fail_flow _ _)
  case sResFirstHttpMajor =>
    split
    · exact fun hFail => absurd hFail (fail_flow _ _)
    · rename_i hDigit
      refine fun _ => ⟨.inl ⟨?_, rfl⟩, by simp [next], by simp [next]⟩
      rintro rfl
      exact hDigit (.inl (by decide))
  case sResHttpMajor =>
    split
    · rename_i hDot
      exact fun _ => ⟨.inl ⟨by rw [hDot]; decide, rfl⟩, by simp [next], by simp [next]⟩
    · simp only [majorDigit]
      split
      · exact fun hFail => absurd hFail (fail_flow _ _)
      rename_i hDigit
      split
      · exact fun hFail => absurd hFail (fail_flow _ _)
      · exact fun _ => ⟨.inl ⟨hNum (by simpa using
          hDigit), by simp [next, hs, State.statusPart]⟩, by simp [next], by simp [next]⟩
  case sResFirstHttpMinor =>
    simp only [firstMinorDigit]
    split
    · exact fun hFail => absurd hFail (fail_flow _ _)
    · rename_i hDigit
      exact fun _ => ⟨.inl ⟨hNum (by simpa using hDigit), rfl⟩, by simp [next], by simp [next]⟩
  case sResHttpMinor =>
    split
    · rename_i hSp
      exact fun _ => ⟨.inr ⟨hSp, rfl⟩, by simp [next], by simp [next]⟩
    · simp only [minorDigit]
      split
      · exact fun hFail => absurd hFail (fail_flow _ _)
      rename_i hDigit
      split
      · exact fun hFail => absurd hFail (fail_flow _ _)
      · exact fun _ => ⟨.inl ⟨hNum (by simpa using
          hDigit), by simp [next, hs, State.statusPart]⟩, by simp [next], by simp [next]⟩
  all_goals
    simp only [expect]
    split
    · exact fun hFail => absurd hFail (fail_flow _ _)
    · rename_i hSame
      refine fun _ => ⟨.inl ⟨?_, rfl⟩, by simp [next], by simp [next]⟩
      rw [not_not.mp hSame]
      decide

theorem switch_blanks {Q : HttpParser} {ch : UInt8} (h : Q.state = .sResFirstStatusCode)
    (hFlow : (switch Q ch 1).flow = .next) :
    ch = SP ∧ switch Q ch 1 = next Q ∨
      isNum ch = true ∧ switch Q ch 1 = next { Q with statusCode := (ch - '0').toNat, state := .sResStatusCode } := by
  revert hFlow
  simp only [switch, h]
  split
  · split
    · rename_i hSp
      exact fun _ => .inl ⟨hSp, rfl⟩
    · exact fun hFail => absurd hFail (fail_flow _ _)
  · rename_i hDigit
    exact fun _ => .inr ⟨by simpa using hDigit, rfl⟩

theorem switch_code {Q : HttpParser} {ch : UInt8} (h : Q.state = .sResStatusCode)
    (hFlow : (switch Q ch 1).flow = .next) :
    isNum ch = true ∧ switch Q ch 1 = next { Q with statusCode := Q.statusCode * 10 + (ch - '0').toNat } ∨
      ch = SP ∧ switch Q ch 1 = next { Q with state := .sResStatusStart } ∨
      (ch = CR ∨ ch = LF) ∧ ∃ s : State, s.statusPart = .past ∧ switch Q ch 1 = next { Q with state := s } := by
  revert hFlow
  simp only [switch, h, resStatusCodeCase]
  split
  · split
    · rename_i hSp
      exact fun _ => .inr (.inl ⟨hSp, rfl⟩)
    split
    · rename_i hCr
      exact fun _ => .inr (.inr ⟨.inl hCr, _, rfl, rfl⟩)
    split
    · rename_i hLf
      exact fun _ => .inr (.inr ⟨.inr hLf, _, rfl, rfl⟩)
    · exact fun hFail => absurd hFail (fail_flow _ _)
  · rename_i hDigit
    split
    · exact fun hFail => absurd hFail (fail_flow _ _)
    · exact fun _ => .inl ⟨by simpa using hDigit, rfl⟩

theorem switch_behindCode {Q : HttpParser} (h : Q.state = .sResStatusStart) (ch : UInt8) :
    (ch = CR ∨ ch = LF) ∧ (∃ s : State, s.statusPart = .past ∧ switch Q ch 1 = next { Q with state := s }) ∨
      ch ≠ CR ∧ ch ≠ LF ∧ switch Q ch 1 = next { Q with state := .sResStatus, index := 0 } [.mark .status] := by
  simp only [switch, h]
  split
  · rename_i hCr
    exact .inl ⟨.inl hCr, _, rfl, rfl⟩
  split
  · rename_i hLf
    exact .inl ⟨.inr hLf, _, rfl, rfl⟩
  · exact .inr ⟨‹_›, ‹_›, rfl⟩

theorem switch_reason {Q : HttpParser} (h : Q.state = .sResStatus) (ch : UInt8) :
    (ch = CR ∨ ch = LF) ∧ (∃ s : State, s.statusPart = .past ∧ switch Q ch 1 = next { Q with state := s }
    [.data .status]) ∨
      ch ≠ CR ∧ ch ≠ LF ∧ switch Q ch 1 = next Q := by
  simp only [switch, h]
  split
  · rename_i hCr
    exact .inl ⟨.inl hCr, _, rfl, rfl⟩
  split
  · rename_i hLf
    exact .inl ⟨.inr hLf, _, rfl, rfl⟩
  · exact .inr ⟨‹_›, ‹_›, rfl⟩

def Move.OnLine (P : HttpParser) (ch : UInt8) (v : Move) : Prop :=
  ∃ Q : HttpParser, Q.state = P.state ∧ Q.statusCode = P.statusCode ∧ (switch Q ch 1).flow = .next ∧
    v = ⟨(switch Q ch 1).acts, (switch Q ch 1).parser, .outer⟩

theorem LineAt.move {P : HttpParser} {ch : UInt8} {v : Move} {w : Bytes} {m : Message} (hLine : LineAt w P m)
    (hBehind : P.state.statusPart = .past → v.Past) (hOnLine : P.state.statusPart ≠ .past → v.OnLine P ch) :
    .notify .messageComplete ∉ v.acts ∧ LineAt (w ++ [ch]) v.parser (v.spell P ch m) ∨
      .notify .messageComplete ∈ v.acts ∧ Told (w ++ [ch]) (v.spell P ch m) := by
  by_cases hPast : P.state.statusPart = .past
  · have hTold : Told w m := by simpa only [LineAt, hPast] using hLine
    obtain ⟨hState, hMark⟩ := hBehind hPast
    have hOpen : openMark P.state ≠ some .status := by
      cases hs : P.state <;> simp [hs, openMark, State.statusPart] at hPast ⊢
    have hTold' : Told (w ++ [ch]) (v.spell P ch m) := hTold.append (Move.spell_status hOpen hMark m) [ch]
    by_cases hComplete : .notify .messageComplete ∈ v.acts
    · exact .inr ⟨hComplete, hTold'⟩
    · refine .inl ⟨hComplete, ?_⟩
      simpa only [LineAt, hState.resolve_right hComplete] using hTold'
  · left
    obtain ⟨Q, hState, hCode, hFlow, rfl⟩ := hOnLine hPast
    -- outside of the reason phrase no mark is open
    have hQuiet {R : HttpParser} (hReason : P.state.statusPart ≠ .reason) :
        (Move.spell P ch ⟨[], R, .outer⟩ m).status = m.status := by
      apply Move.spell_status
      · cases hs : P.state <;> simp [hs, openMark, State.statusPart] at hReason ⊢
      · simp
    cases hPart : P.state.statusPart with
    | past => exact absurd hPart hPast
    | version =>
      simp only [LineAt, hPart] at hLine
      obtain ⟨hSp, hNone⟩ := hLine
      obtain ⟨hNext, hMark, hOpen⟩ := switch_version (by rw [hState, hPart]) hFlow
      refine ⟨hOpen, ?_⟩
      have hShut : openMark P.state ≠ some .status := by
        cases hs : P.state <;> simp [hs, openMark, State.statusPart] at hPart ⊢
      have hStatus : ((⟨(switch Q ch 1).acts, (switch Q ch 1).parser, .outer⟩ : Move).spell P ch m).status = none :=
        (Move.spell_status hShut hMark m).trans hNone
      rcases hNext with ⟨hNot, hLine⟩ | ⟨rfl, hLine⟩
      · simp only [LineAt, hLine]
        exact ⟨by simp [hSp, Ne.symm hNot], hStatus⟩
      · simp only [LineAt, hLine]
        exact ⟨⟨w, [SP], rfl, hSp, by simp, by simp⟩, hStatus⟩
    | blanks =>
      simp only [LineAt, hPart] at hLine
      obtain ⟨⟨version, blanks, rfl, hSp, hSome, hBlanks⟩, hNone⟩ := hLine
      have hs : Q.state = .sResFirstStatusCode := by
        rw [hState]
        cases hs : P.state <;> simp [hs, State.statusPart] at hPart ⊢
      have hStatus {R : HttpParser} := (hQuiet (R := R) (by simp [hPart])).trans hNone
      rcases switch_blanks hs hFlow with ⟨rfl, hNext⟩ | ⟨hNum, hNext⟩
      · rw [hNext]
        refine ⟨by simp [next], ?_⟩
        simp only [LineAt, next, hs, State.statusPart]
        refine ⟨⟨version, blanks ++ [SP], by simp, hSp, by simp, ?_⟩, hStatus⟩
        intro c hc
        exact (List.mem_append.mp hc).elim (hBlanks c) fun hc => List.mem_singleton.mp hc
      · rw [hNext]
        refine ⟨by simp [next], ?_⟩
        simp only [LineAt, next, State.statusPart]
        refine ⟨[ch], ⟨⟨version, blanks, by simp, hSp, hSome, hBlanks⟩, by simp, by simpa using hNum⟩, ?_, hStatus⟩
        simp [digitsValue]
    | code =>
      simp only [LineAt, hPart] at hLine
      obtain ⟨ds, hCoded, hValue, hNone⟩ := hLine
      have hs : Q.state = .sResStatusCode := by
        rw [hState]
        cases hs : P.state <;> simp [hs, State.statusPart] at hPart ⊢
      have hStatus {R : HttpParser} := (hQuiet (R := R) (by simp [hPart])).trans hNone
      rcases switch_code hs hFlow with ⟨hNum, hNext⟩ | ⟨rfl, hNext⟩ | ⟨hEnd, s, hPast, hNext⟩
      · rw [hNext]
        refine ⟨by simp [next], ?_⟩
        simp only [LineAt, next, hs, State.statusPart]
        refine ⟨ds ++ [ch], hCoded.digit hNum, ?_, hStatus⟩
        rw [hCode, hValue, digitsValue_append]
        rfl
      · rw [hNext]
        refine ⟨by simp [next], ?_⟩
        simp only [LineAt, next, State.statusPart]
        exact ⟨ds, hCoded.append [SP], hCode.trans hValue, hStatus⟩
      · rw [hNext]
        refine ⟨by simp [next], ?_⟩
        simp only [LineAt, next, hPast]
        exact ⟨ds, [ch], [], hCoded.append [ch], .absent ch [] hEnd, hStatus⟩
    | behindCode =>
      simp only [LineAt, hPart] at hLine
      obtain ⟨ds, hCoded, hValue, hNone⟩ := hLine
      have hs : Q.state = .sResStatusStart := by
        rw [hState]
        cases hs : P.state <;> simp [hs, State.statusPart] at hPart ⊢
      rcases switch_behindCode hs ch with ⟨hEnd, s, hPast, hNext⟩ | ⟨hCr, hLf, hNext⟩
      · rw [hNext]
        refine ⟨by simp [next], ?_⟩
        simp only [LineAt, next, hPast]
        exact ⟨ds, [SP, ch], [], hCoded.append [ch], .present [] ch [] (by simp) hEnd,
          (hQuiet (by simp [hPart])).trans hNone⟩
      · rw [hNext]
        refine ⟨by simp [next], ?_⟩
        simp only [LineAt, next, State.statusPart]
        refine ⟨ds, [ch], hCoded.append
          [ch], by simp, by simp [Ne.symm hCr], by simp [Ne.symm hLf], hCode.trans hValue, ?_⟩
        simp only [Move.spell, List.foldl_cons, List.foldl_nil, Live.act, Live.consume, DataCb.call, Message.see]
        rw [hCode, hValue]
    | reason =>
      simp only [LineAt, hPart] at hLine
      obtain ⟨ds, reason, hCoded, hSome, hNoCr, hNoLf, hValue, hStatus⟩ := hLine
      have hs' : P.state = .sResStatus := by cases hs : P.state <;> simp [hs, State.statusPart] at hPart ⊢
      have hOpen : openMark P.state = some .status := by
        rw [hs']
        rfl
      rcases switch_reason (hState.trans hs') ch with ⟨hEnd, s, hPast, hNext⟩ | ⟨hCr, hLf, hNext⟩
      · rw [hNext]
        refine ⟨by simp [next], ?_⟩
        simp only [LineAt, next, hPast]
        refine ⟨ds, SP :: (reason ++ [ch]), reason, hCoded.append [ch], .present reason ch [] ⟨hNoCr, hNoLf⟩ hEnd, ?_⟩
        simp only [Move.spell, List.foldl_cons, List.foldl_nil, Live.act, hOpen, if_true, Live.consume, if_neg hSome]
        exact hStatus
      · rw [hNext]
        refine ⟨by simp [next], ?_⟩
        simp only [LineAt, next, hState.trans hs', State.statusPart]
        refine ⟨ds, reason ++ [ch], hCoded.append
          [ch], by simp, by simp [hNoCr, Ne.symm hCr], by simp [hNoLf, Ne.symm hLf],
          hCode.trans hValue, ?_⟩
        simp only [Move.spell, List.foldl_nil, hOpen, Live.consume, DataCb.call, Message.see]
        rw [hCode, hValue]

theorem move_of_line {P : HttpParser} {c : Ctl} {ch : UInt8} {v : Move} (hFits : c.Fits P)
    (hLine : P.state.statusPart ≠ .past) (hMove : move P c ch = some v) :
    v.OnLine P ch := by
  have hField : P.state ≠ .sHeaderField := fun hs => hLine (by rw [hs]; rfl)
  have hValue : P.state ≠ .sHeaderValue := fun hs => hLine (by rw [hs]; rfl)
  have hSwitch {Q : HttpParser} (hState : Q.state = P.state) (h : switchMove Q ch = some v) :
      (switch Q ch 1).flow = .next ∧ v = ⟨(switch Q ch 1).acts, (switch Q ch 1).parser, .outer⟩ := by
    apply Outcome.move_eq_some
    unfold switchMove at h
    split at h
    · exact absurd (hState.symm.trans ‹_›) hField
    · exact absurd (hState.symm.trans ‹_›) hValue
    · exact h
  cases c with
  | field n => exact absurd hFits hField
  | value n g jump => exact absurd hFits.1 hValue
  | outer =>
    simp only [move] at hMove
    split at hMove
    · obtain ⟨Q, hQ, h⟩ := Option.bind_eq_some_iff.mp hMove
      obtain rfl := (counted_eq_some.mp hQ).2
      exact ⟨addNread P 1, rfl, rfl, hSwitch rfl h⟩
    · exact ⟨P, rfl, rfl, hSwitch rfl hMove⟩

theorem move_line {P : HttpParser} {c : Ctl} {ch : UInt8} {v : Move} {w : Bytes} {m : Message} (hFits : c.Fits P)
    (hLine : LineAt w P m) (hMove : move P c ch = some v) :
    .notify .messageComplete ∉ v.acts ∧ LineAt (w ++ [ch]) v.parser (v.spell P ch m) ∨
      .notify .messageComplete ∈ v.acts ∧ Told (w ++ [ch]) (v.spell P ch m) :=
  hLine.move (fun hPast => move_past hPast hMove) fun hNot => move_of_line hFits hNot hMove

/-! ### A reader on the status line -/

theorem byteCase_past {P : HttpParser} {ch : UInt8} {v : Move} (hPast : P.state.statusPart = .past)
    (hMove : (byteCase P ch).move = some v) : v.Past := by
  obtain ⟨hFlow, rfl⟩ := Outcome.move_eq_some hMove
  by_cases hField : P.state = .sHeaderField
  · have hStep : (headerFieldChar P ch (token ch)).state.statusPart = .past := by rw [headerFieldChar_state, hPast]
    simp only [byteCase, hField, nameCase]
    split
    · split
      · exact ⟨.inl rfl, by simp [next]⟩
      · exact ⟨.inl hPast, by simp [fail]⟩
    · split <;> exact ⟨.inl hStep, by simp [next]⟩
  by_cases hValue : P.state = .sHeaderValue
  · have hStep : (headerValueChar P P.headerState ch).1.state.statusPart =
      .past := by rw [headerValueChar_state, hPast]
    simp only [byteCase, hValue, valueCase]
    split
    · exact ⟨.inl rfl, by simp [next]⟩
    split
    · exact ⟨.inl rfl, by simp [next]⟩
    · split <;> exact ⟨.inl hStep, by simp [next]⟩
  rw [byteCase_switch hField hValue] at hFlow ⊢
  have hSwitch := switch_past P ch hPast
  exact ⟨hSwitch.state hFlow, hSwitch.mark⟩

theorem byteCase_line {P : HttpParser} {ch : UInt8} {v : Move} {w : Bytes} {m : Message} (hLine : LineAt w P m)
    (hMove : (byteCase P ch).move = some v) :
    .notify .messageComplete ∉ v.acts ∧ LineAt (w ++ [ch]) v.parser (v.spell P ch m) ∨
      .notify .messageComplete ∈ v.acts ∧ Told (w ++ [ch]) (v.spell P ch m) := by
  refine hLine.move (fun hPast => byteCase_past hPast hMove) fun hNot => ⟨P, rfl, rfl, ?_⟩
  rw [byteCase_switch (fun hs => hNot (by rw [hs]; rfl)) fun hs => hNot (by rw [hs]; rfl)] at hMove
  exact Outcome.move_eq_some hMove

end HttpUtils
