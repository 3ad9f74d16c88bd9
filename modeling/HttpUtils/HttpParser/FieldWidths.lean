import HttpUtils.HttpParser.ExecuteBytewise
import HttpUtils.HttpParser.Framing
import HttpUtils.HttpParser.NextMessage

/-!
# The widths of the fields of `http_parser`

The record is one of natural numbers, where the source has bit fields and machine integers. No run comes to a number
that its field could not hold: a digit is only added below a bound, `index` never passes the end of the word that it
counts in, and what is added to `nread` is at most a buffer.
-/

namespace HttpUtils
set_option autoImplicit false

/-! ### The values of the enumerations -/

def State.value (s : State) : ℕ := if s = .sDead then 1 else s.ctorIdx + 3

def HeaderStates.value (h : HeaderStates) : ℕ := h.ctorIdx

def HttpMethod.value (m : HttpMethod) : ℕ := m.ctorIdx

def HttpErrno.value : HttpErrno → ℕ
  | .ok => 0
  | .invalidEofState => 11 | .headerOverflow => 12 | .closedConnection => 13 | .invalidVersion => 14
  | .invalidStatus => 15 | .invalidMethod => 16 | .invalidUrl => 17 | .lfExpected => 23 | .invalidHeaderToken => 24
  | .invalidContentLength => 25 | .unexpectedContentLength => 26 | .invalidChunkSize => 27 | .invalidConstant => 28
  | .strict => 30

theorem State.value_lt (s : State) : s.value < 2 ^ 7 := by cases s <;> decide

theorem HeaderStates.value_lt (h : HeaderStates) : h.value < 2 ^ 7 := by cases h <;> decide

theorem HttpMethod.value_lt (m : HttpMethod) : m.value < 2 ^ 8 := by cases m <;> decide

theorem HttpErrno.value_lt (e : HttpErrno) : e.value < 2 ^ 7 := by cases e <;> decide

/-! ### The numbers -/

def nameLimit : HeaderStates → ℕ
  | .hC => 0
  | .hCO => 1
  | .hCON => 2
  | .hMatchingConnection => 10
  | .hMatchingProxyConnection => 16
  | .hMatchingContentLength => 14
  | .hMatchingTransferEncoding => 17
  | .hMatchingUpgrade => 7
  | _ => 18

def valueLimit : HeaderStates → ℕ
  | .hMatchingConnectionTokenStart => 0
  | .hMatchingTransferEncodingChunked | .hMatchingConnectionUpgrade => 7
  | .hMatchingConnectionKeepAlive => 10
  | .hMatchingConnectionClose => 5
  | _ => 18

theorem nameLimit_le (h : HeaderStates) : nameLimit h ≤ 18 := by cases h <;> decide

def HttpParser.indexLimit (P : HttpParser) : ℕ :=
  match P.state with
  | .sReqMethod => (methodStrings P.method).length
  | .sHeaderField => nameLimit P.headerState
  | .sHeaderValue => valueLimit P.headerState
  | _ => 18

structure NumbersInBounds (index contentLength httpMajor httpMinor statusCode nread : ℕ) : Prop where
  index : index ≤ 18
  contentLength : contentLength ≤ ullongMax
  httpMajor : httpMajor ≤ 999
  httpMinor : httpMinor ≤ 999
  statusCode : statusCode ≤ 999
  nread : nread ≤ httpMaxHeaderSize

def HttpParser.InBounds (P : HttpParser) : Prop :=
  NumbersInBounds P.index P.contentLength P.httpMajor P.httpMinor P.statusCode P.nread

structure HttpParser.Bounded (P : HttpParser) : Prop where
  numbers : P.InBounds
  index : P.index ≤ P.indexLimit

/-- Every number is in the range of its field: `method` has 8 bits, `nread` 32, `content_length` 64, the versions and
the status have 16, and the rest 7. -/
structure HttpParser.Fits (P : HttpParser) : Prop where
  state : P.state.value < 2 ^ 7
  headerState : P.headerState.value < 2 ^ 7
  index : P.index < 2 ^ 7
  nread : P.nread < 2 ^ 32
  contentLength : P.contentLength < 2 ^ 64
  httpMajor : P.httpMajor < 2 ^ 16
  httpMinor : P.httpMinor < 2 ^ 16
  statusCode : P.statusCode < 2 ^ 16
  method : P.method.value < 2 ^ 8
  httpErrno : P.httpErrno.value < 2 ^ 7

theorem HttpParser.InBounds.fits {P : HttpParser} (h : P.InBounds) : P.Fits := by
  obtain ⟨hIndex, hLength, hMajor, hMinor, hStatus, hNread⟩ := h
  have hMax : ullongMax < 2 ^ 64 := by decide
  have hSize : httpMaxHeaderSize < 2 ^ 32 := by decide
  exact ⟨P.state.value_lt, P.headerState.value_lt, by omega, by omega, by omega, by omega, by omega, by omega,
    P.method.value_lt, P.httpErrno.value_lt⟩

def State.isMatching : State → Bool
  | .sReqMethod | .sHeaderField | .sHeaderValue => true
  | _ => false

theorem indexLimit_of_state {P : HttpParser} (h : P.state.isMatching = false) : P.indexLimit = 18 := by
  unfold HttpParser.indexLimit
  split <;> simp_all [State.isMatching]

theorem HttpParser.InBounds.bounded {P : HttpParser} (h : P.InBounds) (hState : P.state.isMatching = false) :
    P.Bounded :=
  ⟨h, by rw [indexLimit_of_state hState]; exact h.index⟩

/-! ### One case -/

/-- The case keeps the numbers in their ranges, and in their bounds unless it is an error. -/
structure Outcome.InRange (o : Outcome) : Prop where
  fits : o.parser.Fits
  bounded : o.flow ≠ .error ∨ o.parser.httpErrno = .ok → o.parser.Bounded

theorem Outcome.InRange.after {o : Outcome} (h : o.InRange) (acts : List Act) :
    (o.after acts).InRange := ⟨h.fits, h.bounded⟩

theorem Outcome.InRange.of_bounded {o : Outcome} (h : o.parser.Bounded) : o.InRange := ⟨h.numbers.fits, fun _ => h⟩

theorem Outcome.InRange.of_fits {o : Outcome} (h : o.parser.Fits) (hFlow : o.flow = .error)
    (hErrno : o.parser.httpErrno ≠ .ok) : o.InRange := ⟨h, fun hNot => (hNot.elim (· hFlow) hErrno).elim⟩

variable {P : HttpParser}

theorem inRange_fail (h : P.InBounds) {e : HttpErrno} (he : e ≠ .ok) : (fail P e).InRange :=
  .of_fits (HttpParser.InBounds.fits (P := { P with httpErrno := e }) h) rfl he

theorem inRange_state {o : Outcome} (h : o.parser.InBounds) (hState : o.parser.state.isMatching = false) :
    o.InRange :=
  .of_bounded (h.bounded hState)

theorem newMessage_notMatching (P : HttpParser) : (newMessage P).isMatching = false := by
  unfold newMessage startState
  split
  · cases P.type <;> rfl
  · rfl

theorem inRange_messageDone (h : P.InBounds) : (messageDoneCase P).InRange :=
  inRange_state h (newMessage_notMatching P)

theorem inRange_headersDone (h : P.InBounds) (ch : UInt8) : (headersDoneCase P ch).InRange := by
  have hZero : HttpParser.InBounds { P with nread := 0 } :=
    ⟨h.index, h.contentLength, h.httpMajor, h.httpMinor, h.statusCode, Nat.zero_le _⟩
  unfold headersDoneCase
  split
  · exact inRange_fail h (by simp)
  dsimp only
  repeat' split
  all_goals
    apply inRange_state
    · exact hZero
    · first
        | exact newMessage_notMatching _
        | rfl

theorem inRange_headersAlmostDone (h : P.InBounds) (ch : UInt8) : (headersAlmostDoneCase P ch).InRange := by
  unfold headersAlmostDoneCase
  split
  · exact inRange_fail h (by simp)
  split
  · apply Outcome.InRange.after
    apply inRange_messageDone
    exact h
  split
  · exact inRange_fail h (by simp)
  · apply Outcome.InRange.after
    apply inRange_headersDone
    exact h

theorem inRange_headerFieldStart (h : P.InBounds) (ch : UInt8) : (headerFieldStartCase P ch).InRange := by
  unfold headerFieldStartCase
  split
  · apply inRange_state
    · exact h
    · rfl
  split
  · apply inRange_headersAlmostDone
    exact h
  split
  · exact inRange_fail h (by simp)
  · apply Outcome.InRange.of_bounded
    exact ⟨⟨Nat.zero_le _, h.contentLength, h.httpMajor, h.httpMinor, h.statusCode, h.nread⟩, Nat.zero_le _⟩

theorem unhex_le {ch : UInt8} {v : ℕ} (h : unhex ch = some v) : v ≤ 15 := by
  have hAll : ∀ c : UInt8, ∀ v ∈ unhex c, v ≤ 15 := forall_byte (by decide +kernel)
  exact hAll ch v h

theorem inRange_headerValueStart (h : P.InBounds) (ch : UInt8) : (headerValueStartCase P ch).InRange := by
  have hStarts (n : ℕ) (hn : n ≤ ullongMax) : NumbersInBounds 0 n P.httpMajor P.httpMinor P.statusCode P.nread :=
    ⟨Nat.zero_le _, hn, h.httpMajor, h.httpMinor, h.statusCode, h.nread⟩
  cases hs : P.headerState <;> simp only [headerValueStartCase, hs]
  case hContentLength =>
    split
    · apply Outcome.InRange.of_fits
      · exact HttpParser.InBounds.fits (hStarts P.contentLength h.contentLength)
      · rfl
      · simp [fail]
    · rename_i hNum
      have hDigit := digit_le ch (by simpa using hNum)
      have hMax : 9 ≤ ullongMax := by decide
      apply Outcome.InRange.of_bounded
      exact ⟨hStarts _ (Nat.le_trans hDigit hMax), Nat.zero_le _⟩
  all_goals
    apply Outcome.InRange.of_bounded
    exact ⟨hStarts _ h.contentLength, Nat.zero_le _⟩

theorem lt_of_take {m m' : HttpMethod} {index : ℕ} {ch : UInt8} (hIndex : index ≤ (methodStrings m).length)
    (h : (methodStrings m').take (index + 1) = (methodStrings m).take index ++ [ch]) :
    index + 1 ≤ (methodStrings m').length := by
  have hLength := congrArg List.length h
  simp only [List.length_take, List.length_append, List.length_singleton] at hLength
  omega

theorem inRange_reqMethod (h : P.InBounds) (hIndex : P.index ≤ (methodStrings P.method).length)
    (hState : P.state = .sReqMethod) (ch : UInt8) : (reqMethodCase P ch).InRange := by
  have hShort : ∀ m : HttpMethod, (methodStrings m).length ≤ 11 := by
    intro m
    cases m <;> decide
  have hNext (n : ℕ) (hn : n ≤ 18) : NumbersInBounds n P.contentLength P.httpMajor P.httpMinor P.statusCode P.nread :=
    ⟨hn, h.contentLength, h.httpMajor, h.httpMinor, h.statusCode, h.nread⟩
  have hSmall := hShort P.method
  have hGoesOn (m : HttpMethod) (hLong : P.index + 1 ≤ (methodStrings m).length) :
      (next { P with index := P.index + 1, method := m }).InRange := by
    apply Outcome.InRange.of_bounded
    have hLe := hShort m
    refine ⟨hNext (P.index + 1) (by omega), ?_⟩
    simp only [next, HttpParser.indexLimit, hState]
    exact hLong
  unfold reqMethodCase
  split
  · exact inRange_fail h (by simp)
  rename_i hZero
  dsimp only
  split
  · apply inRange_state
    · exact hNext (P.index + 1) (by omega)
    · rfl
  split
  · rename_i hSame
    exact hGoesOn P.method (lt_of_take hIndex (Prelude.take_succ_of_getD hZero hSame))
  split
  · cases hRow : methodSwitch P.method P.index ch with
    | none => exact inRange_fail h (by simp)
    | some m => exact hGoesOn m (lt_of_take hIndex (Prelude.methodSwitch_spells hRow))
  split
  · rename_i hDash
    refine hGoesOn .msearch ?_
    rw [hDash.2.1]
    decide
  · exact inRange_fail h (by simp)

theorem inRange_startReq (h : P.InBounds) (ch : UInt8) (hState : P.state = .sStartReq) :
    (startReqCase P ch).InRange := by
  have hStarts (n : ℕ) (hn : n ≤ 1) : NumbersInBounds n ullongMax P.httpMajor P.httpMinor P.statusCode P.nread :=
    ⟨by omega, Nat.le_refl _, h.httpMajor, h.httpMinor, h.statusCode, h.nread⟩
  unfold startReqCase
  split
  · apply inRange_state
    · exact h
    · simp only [next, hState]
      rfl
  dsimp only
  split
  · refine inRange_fail ?_ (by simp)
    exact ⟨h.index, Nat.le_refl _, h.httpMajor, h.httpMinor, h.statusCode, h.nread⟩
  · cases hm : startMethod ch with
    | none =>
      refine inRange_fail ?_ (by simp)
      exact hStarts 1 (Nat.le_refl _)
    | some m =>
      apply Outcome.InRange.of_bounded
      refine ⟨hStarts 1 (Nat.le_refl _), ?_⟩
      have hLength := congrArg List.length (Prelude.startMethod_spells hm).2
      simp only [List.length_take, List.length_singleton] at hLength
      show 1 ≤ (methodStrings m).length
      omega

theorem HttpParser.fits_of_digit {Q : HttpParser} (h : P.InBounds) (hIndex : Q.index = P.index)
    (hNread : Q.nread = P.nread)
    (hLength : Q.contentLength = P.contentLength) (hMajor : Q.httpMajor ≤ 9999) (hMinor : Q.httpMinor ≤ 9999)
    (hStatus : Q.statusCode ≤ 9999) : Q.Fits := by
  have hFits := h.fits
  exact ⟨Q.state.value_lt, Q.headerState.value_lt, hIndex ▸ hFits.index, hNread ▸ hFits.nread,
    hLength ▸ hFits.contentLength, by omega, by omega, by omega, Q.method.value_lt, Q.httpErrno.value_lt⟩

theorem inRange_majorDigit (h : P.InBounds) (hState : P.state.isMatching = false) (ch : UInt8) :
    (majorDigit P ch).InRange := by
  obtain ⟨hIndex, hLength, hMajor, hMinor, hStatus, hNread⟩ := h
  unfold majorDigit
  split
  · exact inRange_fail ⟨hIndex, hLength, hMajor, hMinor, hStatus, hNread⟩ (by simp)
  rename_i hNum
  have hDigit := digit_le ch (by simpa using hNum)
  dsimp only
  split
  · refine .of_fits (HttpParser.fits_of_digit ⟨hIndex, hLength, hMajor, hMinor, hStatus, hNread⟩ rfl rfl rfl ?_
      ?_ ?_) rfl (by simp [fail])
    all_goals
      simp only [fail]
      omega
  · apply inRange_state
    · exact ⟨hIndex, hLength, Nat.le_of_not_lt ‹_›, hMinor, hStatus, hNread⟩
    · exact hState

theorem inRange_minorDigit (h : P.InBounds) (hState : P.state.isMatching = false) (ch : UInt8) :
    (minorDigit P ch).InRange := by
  obtain ⟨hIndex, hLength, hMajor, hMinor, hStatus, hNread⟩ := h
  unfold minorDigit
  split
  · exact inRange_fail ⟨hIndex, hLength, hMajor, hMinor, hStatus, hNread⟩ (by simp)
  rename_i hNum
  have hDigit := digit_le ch (by simpa using hNum)
  dsimp only
  split
  · refine .of_fits (HttpParser.fits_of_digit ⟨hIndex, hLength, hMajor, hMinor, hStatus, hNread⟩ rfl rfl rfl ?_
      ?_ ?_) rfl (by simp [fail])
    all_goals
      simp only [fail]
      omega
  · apply inRange_state
    · exact ⟨hIndex, hLength, hMajor, Nat.le_of_not_lt ‹_›, hStatus, hNread⟩
    · exact hState

theorem inRange_resStatusCode (h : P.InBounds) (hState : P.state.isMatching = false) (ch : UInt8) :
    (resStatusCodeCase P ch).InRange := by
  obtain ⟨hIndex, hLength, hMajor, hMinor, hStatus, hNread⟩ := h
  unfold resStatusCodeCase
  split
  · repeat' split
    · apply inRange_state
      · exact ⟨hIndex, hLength, hMajor, hMinor, hStatus, hNread⟩
      · rfl
    · apply inRange_state
      · exact ⟨hIndex, hLength, hMajor, hMinor, hStatus, hNread⟩
      · rfl
    · apply inRange_state
      · exact ⟨hIndex, hLength, hMajor, hMinor, hStatus, hNread⟩
      · rfl
    · exact inRange_fail ⟨hIndex, hLength, hMajor, hMinor, hStatus, hNread⟩ (by simp)
  rename_i hNum
  have hDigit := digit_le ch (by simpa using hNum)
  dsimp only
  split
  · refine .of_fits (HttpParser.fits_of_digit ⟨hIndex, hLength, hMajor, hMinor, hStatus, hNread⟩ rfl rfl rfl ?_
      ?_ ?_) rfl (by simp [fail])
    all_goals
      simp only [fail]
      omega
  · apply inRange_state
    · exact ⟨hIndex, hLength, hMajor, hMinor, Nat.le_of_not_lt ‹_›, hNread⟩
    · exact hState

theorem inRange_chunkSize (h : P.InBounds) (hState : P.state.isMatching = false) (ch : UInt8) :
    (chunkSizeCase P ch).InRange := by
  unfold chunkSizeCase
  split
  · apply inRange_state
    · exact h
    · rfl
  cases hHex : unhex ch with
  | none =>
    dsimp only
    split
    · apply inRange_state
      · exact h
      · rfl
    · exact inRange_fail h (by simp)
  | some v =>
    have hv := unhex_le hHex
    dsimp only
    split
    · exact inRange_fail h (by simp)
    · rename_i hSmall
      apply inRange_state
      · refine ⟨h.index, ?_, h.httpMajor, h.httpMinor, h.statusCode, h.nread⟩
        simp only [next, ullongMax] at hSmall ⊢
        omega
      · exact hState

theorem inRange_body (h : P.InBounds) (n : ℕ) {s : State} (hState : s.isMatching = false) (acts : List Act) :
    (next { P with contentLength := P.contentLength - n, state := s } acts).InRange := by
  apply inRange_state
  · exact ⟨h.index, (Nat.sub_le _ _).trans h.contentLength, h.httpMajor, h.httpMinor, h.statusCode, h.nread⟩
  · exact hState

theorem HttpParser.InBounds.withMajor (h : P.InBounds) {n : ℕ} (hn : n ≤ 9) :
    HttpParser.InBounds { P with httpMajor := n } :=
  ⟨h.index, h.contentLength, Nat.le_trans hn (by decide), h.httpMinor, h.statusCode, h.nread⟩

theorem isNum_of_not_outside {ch : UInt8} (h : ¬ (ch < '0' ∨ ch > '9')) : isNum ch = true := by
  have hAll : ∀ c : UInt8, ¬ (c < '0' ∨ c > '9') → isNum c = true := forall_byte (by decide +kernel)
  exact hAll ch h

theorem isNum_of_positive {ch : UInt8} (h : ¬ (ch < '1' ∨ ch > '9')) : isNum ch = true := by
  have hAll : ∀ c : UInt8, ¬ (c < '1' ∨ c > '9') → isNum c = true := forall_byte (by decide +kernel)
  exact hAll ch h

theorem inRange_firstMinor (h : P.InBounds) {s : State} (hState : s.isMatching = false) (ch : UInt8) :
    (firstMinorDigit P ch s).InRange := by
  unfold firstMinorDigit
  split
  · exact inRange_fail h (by simp)
  · rename_i hNum
    have hDigit := digit_le ch (by simpa using hNum)
    apply inRange_state
    · exact ⟨h.index, h.contentLength, h.httpMajor, Nat.le_trans hDigit (by decide), h.statusCode, h.nread⟩
    · exact hState

theorem urlStep_inRange (h : P.InBounds) (ch : UInt8) (acts : List Act) : (urlStep P ch acts).InRange := by
  unfold urlStep
  dsimp only
  split
  · exact .of_fits (HttpParser.InBounds.fits (P := { P with state := .sDead, httpErrno := .invalidUrl }) h) rfl
      (by simp)
  · apply inRange_state
    · exact h
    · simp only [next]
      cases P.state <;> simp only [parseUrlChar, parseUrlServer] <;> repeat' split
      all_goals rfl

theorem inRange_reqUrl (h : P.InBounds) (ch : UInt8) : (reqUrlCase P ch).InRange := by
  have hNine : 9 ≤ 999 := by decide
  have hOld : NumbersInBounds P.index P.contentLength 0 9 P.statusCode P.nread :=
    ⟨h.index, h.contentLength, Nat.zero_le _, hNine, h.statusCode, h.nread⟩
  unfold reqUrlCase
  split
  · exact inRange_state h rfl
  split
  · apply inRange_state
    · exact hOld
    · rfl
  split
  · apply inRange_state
    · exact hOld
    · rfl
  · exact urlStep_inRange h ch _

theorem inRange_switch (h : P.Bounded) (hField : P.state ≠ .sHeaderField) (hValue : P.state ≠ .sHeaderValue)
    (ch : UInt8) (n : ℕ) : (switch P ch n).InRange := by
  obtain ⟨hNumbers, hIndex⟩ := h
  cases hs : P.state <;> simp only [switch, hs]
  case sHeaderField => exact absurd hs hField
  case sHeaderValue => exact absurd hs hValue
  case sReqMethod =>
    rw [HttpParser.indexLimit, hs] at hIndex
    exact inRange_reqMethod hNumbers hIndex hs ch
  case sStartReq => exact inRange_startReq hNumbers ch hs
  case sHeaderFieldStart => exact inRange_headerFieldStart hNumbers ch
  case sHeaderValueStart => exact inRange_headerValueStart hNumbers ch
  case sHeadersAlmostDone => exact inRange_headersAlmostDone hNumbers ch
  case sHeadersDone => exact inRange_headersDone hNumbers ch
  case sMessageDone => exact inRange_messageDone hNumbers
  case sResHttpMajor =>
    split
    · exact inRange_state hNumbers rfl
    · exact inRange_majorDigit hNumbers (by rw [hs]; rfl) ch
  case sResHttpMinor =>
    split
    · exact inRange_state hNumbers rfl
    · exact inRange_minorDigit hNumbers (by rw [hs]; rfl) ch
  case sReqHttpMajor =>
    split
    · exact inRange_state hNumbers rfl
    · exact inRange_majorDigit hNumbers (by rw [hs]; rfl) ch
  case sReqHttpMinor =>
    split
    · exact inRange_state hNumbers rfl
    split
    · exact inRange_state hNumbers rfl
    · exact inRange_minorDigit hNumbers (by rw [hs]; rfl) ch
  case sResFirstHttpMajor =>
    split
    · exact inRange_fail hNumbers (by simp)
    · rename_i hDigit
      apply inRange_state
      · exact hNumbers.withMajor (digit_le ch (isNum_of_not_outside hDigit))
      · rfl
  case sReqFirstHttpMajor =>
    split
    · exact inRange_fail hNumbers (by simp)
    · rename_i hDigit
      apply inRange_state
      · exact hNumbers.withMajor (digit_le ch (isNum_of_positive hDigit))
      · rfl
  case sResFirstHttpMinor => exact inRange_firstMinor hNumbers rfl ch
  case sReqFirstHttpMinor => exact inRange_firstMinor hNumbers rfl ch
  case sResFirstStatusCode =>
    split
    · split
      · exact inRange_state hNumbers (by rw [next, hs]; rfl)
      · exact inRange_fail hNumbers (by simp)
    · rename_i hNum
      have hDigit := digit_le ch (by simpa using hNum)
      apply inRange_state
      · exact ⟨hNumbers.index, hNumbers.contentLength, hNumbers.httpMajor, hNumbers.httpMinor,
          Nat.le_trans hDigit (by decide), hNumbers.nread⟩
      · rfl
  case sResStatusCode => exact inRange_resStatusCode hNumbers (by rw [hs]; rfl) ch
  case sChunkSize => exact inRange_chunkSize hNumbers (by rw [hs]; rfl) ch
  case sHeaderValueDiscardWs =>
    unfold headerValueDiscardWsCase
    split
    · exact inRange_state hNumbers (by rw [next, hs]; rfl)
    split
    · exact inRange_state hNumbers rfl
    split
    · exact inRange_state hNumbers rfl
    · exact inRange_headerValueStart hNumbers ch
  case sHeaderValueDiscardLws =>
    unfold headerValueDiscardLwsCase
    split
    · exact inRange_state hNumbers rfl
    · apply Outcome.InRange.after
      apply inRange_headerFieldStart
      exact hNumbers
  case sHeaderValueLws =>
    unfold headerValueLwsCase
    split
    · apply inRange_headerValueStart
      exact hNumbers
    · apply inRange_headerFieldStart
      exact hNumbers
  case sStartRes =>
    have hStarts : HttpParser.InBounds { P with flags := {}, contentLength := ullongMax } :=
      ⟨hNumbers.index, Nat.le_refl _, hNumbers.httpMajor, hNumbers.httpMinor, hNumbers.statusCode, hNumbers.nread⟩
    unfold startResCase
    dsimp only
    split
    · exact inRange_state hStarts rfl
    split
    · exact inRange_state hStarts (by rw [next, hs]; rfl)
    · exact inRange_fail hStarts (by simp)
  case sResStatusStart =>
    split
    · exact inRange_state hNumbers rfl
    split
    · exact inRange_state hNumbers rfl
    · apply inRange_state
      · exact ⟨Nat.zero_le _, hNumbers.contentLength, hNumbers.httpMajor, hNumbers.httpMinor,
          hNumbers.statusCode, hNumbers.nread⟩
      · rfl
  case sReqSpacesBeforeUrl =>
    unfold reqSpacesBeforeUrlCase
    split
    · exact inRange_state hNumbers (by rw [next, hs]; rfl)
    split
    · apply urlStep_inRange
      exact hNumbers
    · exact urlStep_inRange hNumbers ch _
  case sReqSchema | sReqSchemaSlash | sReqSchemaSlashSlash | sReqServerStart =>
    unfold reqSchemaCase
    split
    · exact inRange_fail hNumbers (by simp)
    · exact urlStep_inRange hNumbers ch _
  case sReqServer | sReqServerWithAt | sReqPath | sReqQueryStringStart | sReqQueryString | sReqFragmentStart
    | sReqFragment =>
    exact inRange_reqUrl hNumbers ch
  case sChunkSizeStart =>
    unfold chunkSizeStartCase
    cases hHex : unhex ch with
    | none => exact inRange_fail hNumbers (by simp)
    | some v =>
      have hv := unhex_le hHex
      have hMax : 15 ≤ ullongMax := by decide
      apply inRange_state
      · exact ⟨hNumbers.index, Nat.le_trans hv hMax, hNumbers.httpMajor, hNumbers.httpMinor, hNumbers.statusCode,
          hNumbers.nread⟩
      · rfl
  case sChunkSizeAlmostDone =>
    have hZero : HttpParser.InBounds { P with nread := 0 } :=
      ⟨hNumbers.index, hNumbers.contentLength, hNumbers.httpMajor, hNumbers.httpMinor, hNumbers.statusCode,
        Nat.zero_le _⟩
    unfold chunkSizeAlmostDoneCase
    split
    · exact inRange_fail hNumbers (by simp)
    dsimp only
    split
    · exact inRange_state hZero rfl
    · exact inRange_state hZero rfl
  case sChunkData =>
    unfold chunkDataCase
    dsimp only
    split
    · exact inRange_body hNumbers _ rfl _
    · exact inRange_body hNumbers _ (s := P.state) (by rw [hs]; rfl) _
  case sChunkDataDone =>
    split
    · exact inRange_fail hNumbers (by simp)
    · apply inRange_state
      · exact ⟨hNumbers.index, hNumbers.contentLength, hNumbers.httpMajor, hNumbers.httpMinor, hNumbers.statusCode,
          Nat.zero_le _⟩
      · rfl
  case sBodyIdentity =>
    unfold bodyIdentityCase
    dsimp only
    split
    · apply Outcome.InRange.after
      apply inRange_messageDone
      exact ⟨hNumbers.index, (Nat.sub_le _ _).trans hNumbers.contentLength, hNumbers.httpMajor, hNumbers.httpMinor,
        hNumbers.statusCode, hNumbers.nread⟩
    · exact inRange_body hNumbers _ (s := P.state) (by rw [hs]; rfl) _
  case sBodyIdentityEof => exact inRange_state hNumbers (by rw [bodyIdentityEofCase, next, hs]; rfl)
  -- the cases that compare the byte with what is expected, and change at most the state
  all_goals
    try unfold expect
    try unfold headerAlmostDoneCase
    repeat' split
    all_goals
      first
        | exact inRange_fail hNumbers (by simp)
        | exact inRange_state hNumbers rfl
        | exact inRange_state hNumbers (by rw [next, hs]; rfl)

/-! ### The loops over a name and over a value -/

theorem bounded_name (h : P.InBounds) (hState : P.state = .sHeaderField)
    (hIndex : P.index ≤ nameLimit P.headerState) :
    P.Bounded := ⟨h, by rwa [HttpParser.indexLimit, hState]⟩

theorem bounded_value (h : P.InBounds) (hState : P.state = .sHeaderValue)
    (hIndex : P.index ≤ valueLimit P.headerState) :
    P.Bounded := ⟨h, by rwa [HttpParser.indexLimit, hState]⟩

theorem HttpParser.InBounds.withIndex (h : P.InBounds) {n : ℕ} (hn : n ≤ 18) :
    HttpParser.InBounds { P with index := n } :=
  ⟨hn, h.contentLength, h.httpMajor, h.httpMinor, h.statusCode, h.nread⟩

theorem matchKeyword_bounded (h : P.InBounds) (hState : P.state = .sHeaderField) {keyword : Bytes}
    (hIndex : P.index ≤ nameLimit P.headerState) (hShort : keyword.length ≤ 17)
    (hWord : keyword.length = nameLimit P.headerState) (c : UInt8) {done : HttpParser → HttpParser}
    (hDone : ∀ Q : HttpParser, Q.state = .sHeaderField → Q.Bounded → (done Q).Bounded) :
    (matchKeyword keyword P c done).Bounded := by
  have hNext : HttpParser.InBounds { P with index := P.index + 1 } := h.withIndex (by omega)
  have hStays (hLe : P.index + 1 ≤ keyword.length) : HttpParser.Bounded { P with index := P.index + 1 } :=
    bounded_name hNext hState (hLe.trans_eq hWord)
  unfold matchKeyword
  dsimp only
  split
  · apply bounded_name
    · exact hNext
    · exact hState
    · exact hNext.index
  rename_i hMatch
  obtain ⟨hLe, -⟩ := not_or.mp hMatch
  split
  · exact hDone _ hState (hStays (Nat.le_of_not_lt hLe))
  · exact hStays (Nat.le_of_not_lt hLe)

theorem headerFieldChar_bounded (h : P.Bounded) (hState : P.state = .sHeaderField) (ch c : UInt8) :
    (headerFieldChar P ch c).Bounded := by
  have hNumbers := h.numbers
  have hIndex : P.index ≤ nameLimit P.headerState := by simpa only [HttpParser.indexLimit, hState] using h.index
  have hGoes (n : ℕ) (g : HeaderStates) (hn : n ≤ nameLimit g) : HttpParser.Bounded
      { P with index := n, headerState := g } := by
    apply bounded_name
    · exact hNumbers.withIndex (hn.trans (nameLimit_le g))
    · exact hState
    · exact hn
  have hReach (g : HeaderStates) (hg : nameLimit g = 18) (Q : HttpParser) (hQ : Q.state = .sHeaderField)
      (hBounded : Q.Bounded) :
      HttpParser.Bounded { Q with headerState := g } := by
    apply bounded_name
    · exact hBounded.numbers
    · exact hQ
    · rw [hg]
      exact hBounded.numbers.index
  cases hs : P.headerState <;> rw [hs] at hIndex <;> simp only [headerFieldChar, hs]
  case hC | hCO | hCON =>
    simp only [nameLimit] at hIndex
    refine hGoes (P.index + 1) _ ?_
    repeat' split
    all_goals
      simp only [nameLimit]
      omega
  case hMatchingConnection | hMatchingProxyConnection | hMatchingTransferEncoding | hMatchingUpgrade =>
    rw [← hs] at hIndex
    exact matchKeyword_bounded hNumbers hState hIndex (by decide) (by rw [hs]; rfl) c (hReach _ rfl)
  case hMatchingContentLength =>
    rw [← hs] at hIndex
    refine matchKeyword_bounded hNumbers hState hIndex (by decide) (by rw [hs]; rfl) c ?_
    intro Q hQ hBounded
    split
    · obtain ⟨hNumbers', hIndex'⟩ := hBounded
      exact ⟨hNumbers', hIndex'⟩
    · apply bounded_name
      · exact hBounded.numbers
      · exact hQ
      · exact hBounded.numbers.index
  case hConnection | hContentLength | hTransferEncoding | hUpgrade =>
    split
    · exact hGoes P.index .hGeneral hNumbers.index
    · exact bounded_name hNumbers hState (by rw [hs]; exact hIndex)
  all_goals exact bounded_name hNumbers hState (by rw [hs]; exact hIndex)

/-- The parser inside a value, with the local `h_state`. -/
structure WithinValue (P : HttpParser) (h : HeaderStates) : Prop where
  numbers : P.InBounds
  state : P.state = .sHeaderValue
  index : P.index ≤ valueLimit h

theorem matchValue_withinValue {h : HeaderStates} (hIn : WithinValue P h) {keyword : Bytes}
    (hShort : keyword.length ≤ 17)
    (hWord : keyword.length = valueLimit h) (c : UInt8) {done miss : HeaderStates} (hDone : valueLimit done = 18)
    (hMiss : valueLimit miss = 18) : WithinValue (matchValue keyword P c h done miss).1
    (matchValue keyword P c h done miss).2 := by
  obtain ⟨hNumbers, hState, hIndex⟩ := hIn
  have hNext : HttpParser.InBounds { P with index := P.index + 1 } := hNumbers.withIndex (by omega)
  unfold matchValue
  dsimp only
  split
  · exact ⟨hNext, hState, by rw [hMiss]; exact hNext.index⟩
  rename_i hMatch
  obtain ⟨hLe, -⟩ := not_or.mp hMatch
  split
  · exact ⟨hNext, hState, by rw [hDone]; exact hNext.index⟩
  · refine ⟨hNext, hState, ?_⟩
    show P.index + 1 ≤ valueLimit h
    omega

theorem headerValueChar_withinValue {h : HeaderStates} (hIn : WithinValue P h) (ch : UInt8) :
    WithinValue (headerValueChar P h ch).1 (headerValueChar P h ch).2 := by
  obtain ⟨hNumbers, hState, hIndex⟩ := hIn
  have hSame (g : HeaderStates) (hg : P.index ≤ valueLimit g) : WithinValue P g := ⟨hNumbers, hState, hg⟩
  have hZero (F : Flags) (g : HeaderStates) : WithinValue { P with flags := F, index := 0 } g :=
    ⟨hNumbers.withIndex (Nat.zero_le _), hState, Nat.zero_le _⟩
  cases h <;> simp only [headerValueChar]
  case hMatchingTransferEncodingChunked | hMatchingConnectionKeepAlive | hMatchingConnectionClose
    | hMatchingConnectionUpgrade =>
    exact matchValue_withinValue ⟨hNumbers, hState, hIndex⟩ (by decide) rfl _ rfl rfl
  case hContentLength =>
    split
    · exact hSame _ hIndex
    split
    · exact ⟨hNumbers, hState, hIndex⟩
    · rename_i hDigits
      obtain ⟨hNum, hSmall⟩ := not_or.mp hDigits
      have hDigit := digit_le ch (by simpa using hNum)
      refine ⟨⟨hNumbers.index, ?_, hNumbers.httpMajor, hNumbers.httpMinor, hNumbers.statusCode, hNumbers.nread⟩,
        hState,
        hIndex⟩
      simp only [ullongMax] at hSmall ⊢
      omega
  case hMatchingConnectionToken =>
    split
    · exact hZero P.flags _
    · exact hSame _ hIndex
  case hConnectionKeepAlive | hConnectionClose | hConnectionUpgrade =>
    split
    · exact hZero _ _
    · split
      · exact hSame _ hIndex
      · exact hSame _ hIndex
  case hMatchingConnectionTokenStart =>
    have hZero' : P.index = 0 := Nat.le_zero.mp hIndex
    exact hSame _ (by rw [hZero']; exact Nat.zero_le _)
  case hTransferEncodingChunked =>
    split
    · exact hSame _ hIndex
    · exact hSame _ hIndex
  all_goals exact hSame _ hIndex

/-! ### Runs -/

namespace Scan

/-- What is added to `nread` next: one outside of a loop, and what the loop has read at its end. -/
def owed (s : Scan) : ℕ :=
  match s.ctl with
  | .outer => 1
  | .field n => n
  | .value n _ _ => n

def InWord (k : ℕ) (s : Scan) : Prop :=
  match s.ctl with
  | .outer => s.parser.Bounded
  | .field n => n ≤ k ∧ s.parser.state = .sHeaderField ∧ s.parser.Bounded
  | .value n h _ => n ≤ k ∧ WithinValue s.parser h

/-- The scan behind `k` bytes of a buffer. -/
structure Widths (k : ℕ) (s : Scan) : Prop where
  fits : s.parser.Fits
  inWord : s.stopped = none → s.InWord k
  stopped : s.stopped ≠ none → s.parser.httpErrno = .ok → s.parser.Bounded

variable {s : Scan} {k : ℕ}

theorem widths_apply (ch : UInt8) {o : Outcome} (h : o.InRange) : (s.apply ch o).Widths k := by
  obtain ⟨hParser, hCtl, hSame, -⟩ := acts_frame ch { s with parser := o.parser, ctl := .outer } o.acts
  have hFits : (o.acts.foldl (act ch) { s with parser := o.parser, ctl := .outer }).parser.Fits := by
    rw [hParser]
    exact h.fits
  have hRest : (o.acts.foldl (act ch) { s with parser := o.parser, ctl := .outer }).parser.httpErrno = .ok →
      (o.acts.foldl (act ch) { s with parser := o.parser, ctl := .outer }).parser.Bounded := by
    rw [hParser]
    exact fun hErrno => h.bounded (.inr hErrno)
  unfold apply settle
  split
  · rename_i hFlow
    refine ⟨hFits, fun _ => ?_, fun _ => hRest⟩
    simp only [consume, InWord, hParser, hCtl]
    exact h.bounded (.inl (by rw [hFlow]; simp))
  · exact ⟨hFits, fun hNone => (by cases hNone), fun _ => hRest⟩
  · exact ⟨hFits, fun hNone => (by cases hNone), fun _ => hRest⟩

theorem setErrno_fits {P : HttpParser} (h : P.Fits) (e : HttpErrno) : (setErrno P e).Fits :=
  ⟨h.state, h.headerState, h.index, h.nread, h.contentLength, h.httpMajor, h.httpMinor, h.statusCode, h.method,
    e.value_lt⟩

theorem widths_stopped {Q : HttpParser} (h : Q.Fits) (hErrno : Q.httpErrno ≠ .ok) (n : ℕ) :
    Widths k { s with parser := Q, stopped := some n } :=
  ⟨h, fun hNone => (by cases hNone), fun _ hOk => absurd hOk hErrno⟩

theorem counted_inBounds (h : P.InBounds) {v : ℕ} (hOver : overflows (addNread P v) = false) :
    (addNread P v).InBounds := by
  have hSize : (addNread P v).nread ≤ httpMaxHeaderSize := by simpa [overflows] using hOver
  exact ⟨h.index, h.contentLength, h.httpMajor, h.httpMinor, h.statusCode, hSize⟩

theorem counted_bounded (h : P.Bounded) {v : ℕ} (hOver : overflows (addNread P v) = false) : (addNread P v).Bounded :=
  ⟨counted_inBounds h.numbers hOver, h.index⟩

theorem overflow_fits (h : P.InBounds) (v : ℕ) : (setErrno (addNread P v) .headerOverflow).Fits := by
  have hFits := h.fits
  exact ⟨hFits.state, hFits.headerState, hFits.index, Nat.mod_lt _ (Nat.two_pow_pos 32), hFits.contentLength,
    hFits.httpMajor, hFits.httpMinor, hFits.statusCode, hFits.method, HttpErrno.value_lt _⟩

theorem widths_count (h : s.parser.InBounds) (v : ℕ) {andThen : Scan → Scan}
    (hk : overflows (addNread s.parser v) = false → (andThen { s with parser := addNread s.parser v }).Widths k) :
    (s.countHeaderSize v andThen).Widths k := by
  unfold countHeaderSize
  dsimp only
  split
  · exact widths_stopped (overflow_fits h v) (by simp [setErrno]) _
  · rename_i hOver
    exact hk (by simpa using hOver)

structure Goes (k : ℕ) (s : Scan) : Prop where
  stopped : s.stopped = none
  inWord : s.InWord k

theorem InWord.inBounds (h : s.InWord k) : s.parser.InBounds := by
  unfold InWord at h
  split at h
  · exact h.numbers
  · exact h.2.2.numbers
  · exact h.2.numbers

theorem Goes.widths (h : s.Goes k) : s.Widths k :=
  ⟨h.inWord.inBounds.fits, fun _ => h.inWord, fun hSome => absurd h.stopped hSome⟩

theorem goes_outer (hStopped : s.stopped = none) (hCtl : s.ctl = .outer) (h : s.parser.Bounded) : s.Goes k :=
  ⟨hStopped, by rwa [InWord, hCtl]⟩

theorem widths_consume (h : s.Goes k) (ch : UInt8) : (s.consume ch).Widths k := Goes.widths ⟨h.stopped, h.inWord⟩

theorem widths_fieldByte (hStopped : s.stopped = none) (hState : s.parser.state = .sHeaderField)
    (h : s.parser.Bounded) {n : ℕ} (hn : n ≤ k) (ch : UInt8) : (s.fieldByte n ch).Widths (k + 1) := by
  unfold fieldByte
  split
  · apply widths_count h.numbers
    intro hOver
    have hCounted := counted_inBounds h.numbers hOver
    dsimp only
    split
    · refine widths_apply ch (inRange_state ?_ rfl)
      exact hCounted
    · exact widths_apply ch (inRange_fail hCounted (by simp))
  · have hNext := headerFieldChar_bounded h hState ch (token ch)
    dsimp only
    split
    · exact widths_stopped hNext.numbers.fits ‹_› _
    · apply widths_consume
      exact ⟨hStopped, Nat.succ_le_succ hn, (headerFieldChar_state _ _ _).trans hState, hNext⟩

theorem callbackData_frame (s : Scan) (k : DataCb) (last : Bytes) :
    (s.callbackData k last).parser = s.parser ∧ (s.callbackData k last).ctl = s.ctl ∧
      (s.callbackData k last).stopped = s.stopped := by
  unfold callbackData
  split <;> exact ⟨rfl, rfl, rfl⟩

theorem widths_countEnd (hStopped : s.stopped = none) (hCtl : s.ctl = .outer) (h : s.parser.Bounded) (n : ℕ)
    (ch : UInt8) : (s.countHeaderSize n fun s => s.consume ch).Widths k := by
  apply widths_count h.numbers
  intro hOver
  apply widths_consume
  exact goes_outer hStopped hCtl (counted_bounded h hOver)

theorem widths_valueStop {h : HeaderStates} (hStopped : s.stopped = none) (hIn : WithinValue s.parser h) (n : ℕ)
    (ch : UInt8) : (s.valueStop n h ch).Widths k := by
  have hNumbers := hIn.numbers
  unfold valueStop
  dsimp only
  split
  · obtain ⟨hParser, hCtl, hSame⟩ := callbackData_frame
      { s with parser := { s.parser with state := .sHeaderAlmostDone, headerState := h }, ctl := .outer }
        .headerValue []
    refine widths_countEnd (hSame.trans hStopped) hCtl ?_ n ch
    rw [hParser]
    exact HttpParser.InBounds.bounded hNumbers rfl
  · apply widths_count
    · exact hNumbers
    intro hOver
    have hCounted := counted_inBounds hNumbers hOver
    refine widths_apply ch (Outcome.InRange.after ?_ _)
    unfold headerAlmostDoneCase
    split
    · refine inRange_fail ?_ (by simp)
      exact hCounted
    · refine inRange_state ?_ rfl
      exact hCounted

theorem widths_valueByte {h : HeaderStates} (hStopped : s.stopped = none) (hIn : WithinValue s.parser h) {n : ℕ}
    (hn : n ≤ k) (jump : Option ℕ) (ch : UInt8) : (s.valueByte n h jump ch).Widths (k + 1) := by
  have hn' := Nat.succ_le_succ hn
  unfold valueByte
  split
  · split
    · exact widths_valueStop hStopped hIn n ch
    · apply widths_consume
      exact ⟨hStopped, hn', hIn⟩
  · split
    · exact widths_valueStop hStopped hIn n ch
    split
    · exact widths_stopped (setErrno_fits hIn.numbers.fits _) (by simp [setErrno]) _
    split
    · apply widths_consume
      exact ⟨hStopped, hn', hIn⟩
    · have hNext := headerValueChar_withinValue hIn ch
      dsimp only
      split
      · exact widths_stopped hNext.numbers.fits ‹_› _
      · apply widths_consume
        exact ⟨hStopped, hn', hNext⟩

theorem widths_switchByte (hStopped : s.stopped = none) (h : s.parser.Bounded) (ch : UInt8) :
    (s.switchByte ch).Widths (k + 1) := by
  unfold switchByte
  split
  · rename_i hState
    apply widths_fieldByte
    · exact hStopped
    · exact hState
    · exact h
    · exact Nat.zero_le k
  · rename_i hState
    have hIndex := h.index
    rw [HttpParser.indexLimit, hState] at hIndex
    apply widths_valueByte
    · exact hStopped
    · exact ⟨h.numbers, hState, hIndex⟩
    · exact Nat.zero_le k
  · rename_i hField hValue
    exact widths_apply ch (inRange_switch h hField hValue ch 1)

theorem widths_step (h : s.Widths k) (ch : UInt8) : (s.step ch).Widths (k + 1) := by
  unfold step
  split
  · rename_i hStopped
    exact ⟨h.fits, fun hNone => absurd hNone (by rw [hStopped]; simp), h.stopped⟩
  rename_i hStopped
  have hIn := h.inWord hStopped
  unfold InWord at hIn
  split
  · rename_i hCtl
    rw [hCtl] at hIn
    exact widths_fieldByte hStopped hIn.2.1 hIn.2.2 hIn.1 ch
  · rename_i hCtl
    rw [hCtl] at hIn
    exact widths_valueByte hStopped hIn.2 hIn.1 _ ch
  · rename_i hCtl
    rw [hCtl] at hIn
    split
    · apply widths_count hIn.numbers
      intro hOver
      apply widths_switchByte
      · exact hStopped
      · exact counted_bounded hIn hOver
    · exact widths_switchByte hStopped hIn ch

theorem widths_run (h : s.Widths k) (bytes : Bytes) : (s.run bytes).Widths (k + bytes.length) := by
  induction bytes generalizing s k with
  | nil => exact h
  | cons ch bytes ih =>
    rw [List.length_cons, ← Nat.succ_add_eq_add_succ]
    exact ih (widths_step h ch)

/-- What is added next does not wrap around, in a buffer below 2^31 bytes. -/
theorem Widths.exact (h : s.Widths k) (hStopped : s.stopped = none) (hShort : k < 2 ^ 31) :
    s.parser.nread + s.owed < 2 ^ 32 := by
  have hIn := h.inWord hStopped
  have hSize : s.parser.nread ≤ httpMaxHeaderSize := hIn.inBounds.nread
  have hOwed : s.owed ≤ max 1 k := by
    unfold InWord at hIn
    unfold owed
    split <;> simp_all
  have hSmall : httpMaxHeaderSize < 2 ^ 17 := by decide
  omega

theorem flush_frame (s : Scan) : s.flush.parser = s.parser ∧ s.flush.ctl = .outer ∧ s.flush.stopped = s.stopped := by
  obtain ⟨hParser, hCtl, hStopped, -⟩ := acts_frame 0 { s with ctl := .outer } leftover
  exact ⟨hParser, hCtl, hStopped⟩

structure WellKept (P : HttpParser) : Prop where
  fits : P.Fits
  bounded : P.httpErrno = .ok → P.Bounded

theorem endBuffer_kept (h : s.Widths k) : WellKept s.endBuffer.parser := by
  have hFlush (t : Scan) (ht : t.parser.Bounded) : WellKept t.flush.parser := by
    rw [(flush_frame t).1]
    exact ⟨ht.numbers.fits, fun _ => ht⟩
  have hCount {t : Scan} (n : ℕ) (ht : t.parser.Bounded) : WellKept (t.countHeaderSize n flush).parser := by
    unfold countHeaderSize
    dsimp only
    split
    · exact ⟨overflow_fits ht.numbers n, fun hOk => by simp [setErrno] at hOk⟩
    · rename_i hOver
      exact hFlush _ (counted_bounded ht (by simpa using hOver))
  unfold endBuffer
  split
  · exact ⟨h.fits, h.stopped (by simp_all)⟩
  rename_i hStopped
  have hIn := h.inWord hStopped
  unfold InWord at hIn
  split
  · rename_i hCtl
    rw [hCtl] at hIn
    exact hFlush s hIn
  · rename_i hCtl
    rw [hCtl] at hIn
    exact hCount _ hIn.2.2
  · rename_i n g jump hCtl
    rw [hCtl] at hIn
    apply hCount
    apply bounded_value
    · exact hIn.2.numbers
    · exact hIn.2.state
    · exact hIn.2.index

end Scan

open Scan

theorem execute_kept {P : HttpParser} (h : WellKept P) (data : Bytes) : WellKept (httpParserExecute P data).1 := by
  by_cases hErrno : P.httpErrno = .ok
  · have hBounded := h.bounded hErrno
    by_cases hData : data = []
    · rw [httpParserExecute, if_neg (not_not.mpr hErrno), if_pos hData]
      unfold executeEof
      split
      · exact h
      · exact h
      · exact h
      · exact h
      · exact ⟨setErrno_fits h.fits _, fun hOk => by simp [setErrno] at hOk⟩
    · rw [httpParserExecute_eq hErrno hData]
      apply endBuffer_kept
      apply widths_run (k := 0)
      exact (goes_outer rfl rfl hBounded).widths
  · rw [httpParserExecute, if_pos hErrno]
    exact h

theorem init_kept (t : HttpParserType) : WellKept (httpParserInit t) := by
  have hNumbers : (httpParserInit t).InBounds := by
    refine ⟨?_, ?_, ?_, ?_, ?_, ?_⟩ <;> simp [httpParserInit]
  have hBounded : (httpParserInit t).Bounded := hNumbers.bounded (by cases t <;> rfl)
  exact ⟨hNumbers.fits, fun _ => hBounded⟩

def parserAfter (t : HttpParserType) (buffers : List Bytes) : HttpParser :=
  buffers.foldl (fun P data => (httpParserExecute P data).1) (httpParserInit t)

theorem parserAfter_kept (t : HttpParserType) (buffers : List Bytes) : WellKept (parserAfter t buffers) := by
  have hKept (P : HttpParser) (h : WellKept P) :
      WellKept (buffers.foldl (fun P data => (httpParserExecute P data).1) P) := by
    induction buffers generalizing P with
    | nil => exact h
    | cons data buffers ih => exact ih _ (execute_kept h data)
  exact hKept _ (init_kept t)

/-- Whatever bytes come in whatever buffers, ends of the connection among them: no field of the parser holds a number
that is too large for it, neither behind a buffer nor between two bytes of the next one. In a buffer below 2^31 bytes
nothing that is added to `nread` wraps it around. -/
theorem fields_fit (t : HttpParserType) (buffers : List Bytes) :
    (parserAfter t buffers).Fits ∧
      ((parserAfter t buffers).httpErrno = .ok → ∀ data, data.length < 2 ^ 31 →
        ((Scan.start (parserAfter t buffers)).run data).parser.Fits ∧
          (((Scan.start (parserAfter t buffers)).run data).stopped = none →
            ((Scan.start (parserAfter t buffers)).run data).parser.nread +
              ((Scan.start (parserAfter t buffers)).run data).owed < 2 ^ 32)) := by
  have hKept := parserAfter_kept t buffers
  refine ⟨hKept.fits, fun hErrno data hShort => ?_⟩
  have hStart : (Scan.start (parserAfter t buffers)).Goes 0 := goes_outer rfl rfl (hKept.bounded hErrno)
  have hWidths := widths_run hStart.widths data
  refine ⟨hWidths.fits, fun hStopped => hWidths.exact hStopped ?_⟩
  omega

/-- A buffer that goes on in a name. -/
theorem cutName_fits :
    ((Scan.start (parserAfter .httpRequest [ascii "GET / HTTP/1.1\r\nHo"])).run (ascii "st")).parser.Fits ∧
      ((Scan.start (parserAfter .httpRequest [ascii "GET / HTTP/1.1\r\nHo"])).run (ascii "st")).parser.nread +
        ((Scan.start (parserAfter .httpRequest [ascii "GET / HTTP/1.1\r\nHo"])).run (ascii "st")).owed < 2 ^ 32 := by
  obtain ⟨hFits, hExact⟩ := (fields_fit .httpRequest [ascii "GET / HTTP/1.1\r\nHo"]).2 (by decide +kernel)
    (ascii "st") (by decide)
  exact ⟨hFits, hExact (by decide +kernel)⟩

end HttpUtils
