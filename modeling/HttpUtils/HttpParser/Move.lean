import HttpUtils.HttpParser.Bytewise

/-!
# The control of the parser

What a byte does depends on the parser and on the place of the control alone, not on the marks and
the callbacks. `move` is that function; `step_takes` says that `Scan.step` is the move, its actions
and `p++`.
-/

namespace HttpUtils
set_option autoImplicit false

/-- The actions of a byte that the parser accepts, and the control after it. -/
structure Move where
  acts : List Act
  parser : HttpParser
  ctl : Ctl
  deriving DecidableEq, Repr

/-- `COUNT_HEADER_SIZE(v)`, unless it overflows. -/
def counted (P : HttpParser) (v : Nat) : Option HttpParser :=
  if overflows (addNread P v) then none else some (addNread P v)

def Outcome.move (o : Outcome) : Option Move :=
  match o.flow with
  | .next => some ⟨o.acts, o.parser, .outer⟩
  | _ => none

def fieldMove (P : HttpParser) (n : Nat) (ch : UInt8) : Option Move :=
  if token ch = 0 then
    (counted P n).bind fun P =>
      if ch = ':' then some ⟨[.data .headerField], { P with state := .sHeaderValueDiscardWs }, .outer⟩
      else none
  else
    let P := headerFieldChar P ch (token ch)
    if P.httpErrno ≠ .ok then none else some ⟨[], P, .field (n + 1)⟩

def stopMove (P : HttpParser) (n : Nat) (h : HeaderStates) (ch : UInt8) : Option Move :=
  (counted P n).map fun P =>
    let state : State := if ch = CR then .sHeaderAlmostDone else .sHeaderValueLws
    ⟨[.data .headerValue], { P with state, headerState := h }, .outer⟩

def valueMove (P : HttpParser) (n : Nat) (h : HeaderStates) (jump : Option Nat) (ch : UInt8) : Option Move :=
  match jump with
  | some i =>
    if (ch = CR ∨ ch = LF) ∧ i < httpMaxHeaderSize then stopMove P n h ch
    else some ⟨[], P, .value (n + 1) h (some (i + 1))⟩
  | none =>
    if ch = CR ∨ ch = LF then stopMove P n h ch
    else if !isHeaderChar ch then none
    else if h = .hGeneral then some ⟨[], P, .value (n + 1) h (some 1)⟩
    else
      let (P, h) := headerValueChar P h ch
      if P.httpErrno ≠ .ok then none else some ⟨[], P, .value (n + 1) h none⟩

def switchMove (P : HttpParser) (ch : UInt8) : Option Move :=
  match P.state with
  | .sHeaderField => fieldMove P 0 ch
  | .sHeaderValue => valueMove P 0 P.headerState none ch
  | _ => (switch P ch 1).move

def move (P : HttpParser) (c : Ctl) (ch : UInt8) : Option Move :=
  match c with
  | .field n => fieldMove P n ch
  | .value n h jump => valueMove P n h jump ch
  | .outer => if parsingHeader P.state then (counted P 1).bind fun P => switchMove P ch else switchMove P ch

def cutMove (P : HttpParser) (c : Ctl) : Option HttpParser :=
  match c with
  | .outer => some P
  | .field n => counted P n
  | .value n h _ => counted { P with headerState := h } n

namespace Scan

def take (s : Scan) (ch : UInt8) (m : Move) : Scan :=
  consume (m.acts.foldl (act ch) { s with parser := m.parser, ctl := m.ctl }) ch

/-- `t` is `s` after the byte `ch` with the move `m`. Without a move the scan has stopped at this
byte, or behind it when the connection is upgraded. -/
def Takes (s : Scan) (ch : UInt8) (t : Scan) : Option Move → Prop
  | some m => t = s.take ch m
  | none => ∃ n, t.stopped = some n ∧ (n = s.p ∨ t.parser.upgrade = true)

theorem act_frame (ch : UInt8) (s : Scan) (a : Act) :
    (s.act ch a).parser = s.parser ∧ (s.act ch a).ctl = s.ctl ∧ (s.act ch a).stopped = s.stopped ∧
      (s.act ch a).p = s.p := by
  cases a with
  | mark k | notify k | advance n => exact ⟨rfl, rfl, rfl, rfl⟩
  | data k | dataThrough k =>
    unfold act callbackData
    dsimp only
    split <;> exact ⟨rfl, rfl, rfl, rfl⟩

theorem acts_frame (ch : UInt8) (s : Scan) (acts : List Act) :
    (acts.foldl (act ch) s).parser = s.parser ∧ (acts.foldl (act ch) s).ctl = s.ctl ∧
      (acts.foldl (act ch) s).stopped = s.stopped ∧ (acts.foldl (act ch) s).p = s.p := by
  induction acts generalizing s with
  | nil => exact ⟨rfl, rfl, rfl, rfl⟩
  | cons a acts ih =>
    obtain ⟨hP, hC, hS, hp⟩ := act_frame ch s a
    obtain ⟨hP', hC', hS', hp'⟩ := ih (s.act ch a)
    exact ⟨hP'.trans hP, hC'.trans hC, hS'.trans hS, hp'.trans hp⟩

@[simp] theorem parser_of_take (s : Scan) (ch : UInt8) (m : Move) : (s.take ch m).parser = m.parser :=
  (acts_frame ch _ m.acts).1

@[simp] theorem take_ctl (s : Scan) (ch : UInt8) (m : Move) : (s.take ch m).ctl = m.ctl :=
  (acts_frame ch _ m.acts).2.1

@[simp] theorem take_stopped (s : Scan) (ch : UInt8) (m : Move) : (s.take ch m).stopped = s.stopped :=
  (acts_frame ch _ m.acts).2.2.1

@[simp] theorem take_p (s : Scan) (ch : UInt8) (m : Move) : (s.take ch m).p = s.p + 1 :=
  congrArg (· + 1) (acts_frame ch _ m.acts).2.2.2

end Scan

/-! ### What every case keeps -/

/-- A case never raises the counter, sets an error only when it fails, and returns from the
function only behind the end of an upgraded message. -/
structure Outcome.Keeps (P : HttpParser) (o : Outcome) : Prop where
  type : o.parser.type = P.type
  nread : o.parser.nread ≤ P.nread
  errno : o.flow ≠ .error → o.parser.httpErrno = P.httpErrno
  ret : o.flow = .ret → o.parser.upgrade = true

theorem keeps_fail (P : HttpParser) (e : HttpErrno) : (fail P e).Keeps P :=
  ⟨rfl, Nat.le_refl _, fun h => absurd rfl h, fun h => by cases h⟩

theorem keeps_messageDone (P : HttpParser) : (messageDoneCase P).Keeps P := by
  refine ⟨rfl, Nat.le_refl _, fun _ => rfl, fun h => ?_⟩
  simp only [messageDoneCase] at h ⊢
  by_contra hUp
  simp [hUp] at h

theorem keeps_headersDone (P : HttpParser) (ch : UInt8) : (headersDoneCase P ch).Keeps P := by
  simp only [headersDoneCase]
  split
  · exact keeps_fail _ _
  split
  · rename_i hUp
    exact ⟨rfl, Nat.zero_le _, fun _ => rfl, fun _ => ((Bool.and_eq_true _ _).mp hUp).1⟩
  repeat' split
  all_goals exact ⟨rfl, Nat.zero_le _, fun _ => rfl, fun h => by cases h⟩

theorem keeps_headersAlmostDone (P : HttpParser) (ch : UInt8) : (headersAlmostDoneCase P ch).Keeps P := by
  unfold headersAlmostDoneCase
  split
  · exact keeps_fail _ _
  split
  · obtain ⟨hType, hNread, hErrno, hRet⟩ := keeps_messageDone { P with state := .sMessageDone }
    exact ⟨hType, hNread, hErrno, hRet⟩
  split
  · exact keeps_fail _ _
  · obtain ⟨hType, hNread, hErrno, hRet⟩ := keeps_headersDone
      { P with
        state := .sHeadersDone
        upgrade := (P.flags.fUpgrade && P.flags.fConnectionUpgrade) || P.method == .connect } ch
    exact ⟨hType, hNread, hErrno, hRet⟩

theorem keeps_headerFieldStart (P : HttpParser) (ch : UInt8) : (headerFieldStartCase P ch).Keeps P := by
  unfold headerFieldStartCase
  split
  · exact ⟨rfl, Nat.le_refl _, fun _ => rfl, fun h => by cases h⟩
  split
  · obtain ⟨hType, hNread, hErrno, hRet⟩ :=
      keeps_headersAlmostDone { P with state := .sHeadersAlmostDone } ch
    exact ⟨hType, hNread, hErrno, hRet⟩
  split
  · exact keeps_fail _ _
  · exact ⟨rfl, Nat.le_refl _, fun _ => rfl, fun h => by cases h⟩

theorem keeps_headerValueStart (P : HttpParser) (ch : UInt8) : (headerValueStartCase P ch).Keeps P := by
  cases hs : P.headerState <;> simp only [headerValueStartCase, hs]
  case hContentLength =>
    split
    · exact ⟨rfl, Nat.le_refl _, fun h => absurd rfl h, fun h => by cases h⟩
    · exact ⟨rfl, Nat.le_refl _, fun _ => rfl, fun h => by cases h⟩
  all_goals exact ⟨rfl, Nat.le_refl _, fun _ => rfl, fun h => by cases h⟩

theorem switch_keeps (P : HttpParser) (ch : UInt8) (n : Nat) : (switch P ch n).Keeps P := by
  cases hs : P.state <;> simp only [switch, hs]
  case sHeaderFieldStart => exact keeps_headerFieldStart _ _
  case sHeaderValueStart => exact keeps_headerValueStart _ _
  case sHeadersAlmostDone => exact keeps_headersAlmostDone _ _
  case sHeadersDone => exact keeps_headersDone _ _
  case sMessageDone => exact keeps_messageDone _
  case sHeaderValueDiscardWs =>
    unfold headerValueDiscardWsCase
    repeat' split
    any_goals exact ⟨rfl, Nat.le_refl _, fun _ => rfl, fun h => by cases h⟩
    exact keeps_headerValueStart _ _
  case sHeaderValueDiscardLws =>
    unfold headerValueDiscardLwsCase
    split
    · exact ⟨rfl, Nat.le_refl _, fun _ => rfl, fun h => by cases h⟩
    · obtain ⟨hType, hNread, hErrno, hRet⟩ := keeps_headerFieldStart
        { P with flags := finishHeaderFlags P.headerState P.flags, state := .sHeaderFieldStart } ch
      exact ⟨hType, hNread, hErrno, hRet⟩
  case sHeaderValueLws =>
    unfold headerValueLwsCase
    split
    · obtain ⟨hType, hNread, hErrno, hRet⟩ := keeps_headerValueStart { P with state := .sHeaderValueStart } ch
      exact ⟨hType, hNread, hErrno, hRet⟩
    · obtain ⟨hType, hNread, hErrno, hRet⟩ := keeps_headerFieldStart
        { P with flags := finishHeaderFlags P.headerState P.flags, state := .sHeaderFieldStart } ch
      exact ⟨hType, hNread, hErrno, hRet⟩
  case sBodyIdentity =>
    simp only [bodyIdentityCase]
    split
    · obtain ⟨hType, hNread, hErrno, hRet⟩ := keeps_messageDone
        { P with contentLength := P.contentLength - min P.contentLength n, state := .sMessageDone }
      exact ⟨hType, hNread, hErrno, hRet⟩
    · exact ⟨rfl, Nat.le_refl _, fun _ => rfl, fun h => by cases h⟩
  all_goals
    try simp only [startResCase, expect, majorDigit, minorDigit, firstMinorDigit, resStatusCodeCase,
      startReqCase, reqMethodCase, headerAlmostDoneCase, chunkSizeStartCase, chunkSizeCase,
      chunkSizeAlmostDoneCase, reqSpacesBeforeUrlCase, reqSchemaCase, reqUrlCase, urlStep,
      bodyIdentityEofCase, chunkDataCase]
    repeat' split
    all_goals
      first
      | exact ⟨rfl, Nat.le_refl _, fun _ => rfl, fun h => by cases h⟩
      | exact ⟨rfl, Nat.le_refl _, fun h => absurd rfl h, fun h => by cases h⟩
      | exact ⟨rfl, Nat.zero_le _, fun _ => rfl, fun h => by cases h⟩

/-! ### The steps of a scan -/

namespace Scan

theorem takes_apply {s : Scan} {ch : UInt8} {o : Outcome} (P : HttpParser) (c : Ctl)
    (h : o.flow = .ret → o.parser.upgrade = true) :
    s.Takes ch (apply { s with parser := P, ctl := c } ch o) o.move := by
  unfold apply Outcome.move
  have hFrame := acts_frame ch { s with parser := o.parser, ctl := .outer } o.acts
  cases hFlow : o.flow with
  | next => rfl
  | error => exact ⟨_, rfl, .inl hFrame.2.2.2⟩
  | ret =>
    refine ⟨_, rfl, .inr ?_⟩
    exact (congrArg HttpParser.upgrade hFrame.1).trans (h hFlow)

theorem takes_count {s : Scan} {ch : UInt8} {P : HttpParser} {c : Ctl} {v : Nat} {k : Scan → Scan}
    {m : HttpParser → Option Move}
    (h : ∀ Q, counted P v = some Q → s.Takes ch (k { s with parser := Q, ctl := c }) (m Q)) :
    s.Takes ch (countHeaderSize { s with parser := P, ctl := c } v k) ((counted P v).bind m) := by
  unfold countHeaderSize
  cases hOver : overflows (addNread P v) with
  | true =>
    simp only [hOver, counted, if_true, Option.bind_none]
    exact ⟨s.p, rfl, .inl rfl⟩
  | false =>
    have hCounted : counted P v = some (addNread P v) := by simp [counted, hOver]
    simp only [hOver, Bool.false_eq_true, if_false]
    rw [hCounted]
    exact h _ hCounted

theorem takes_field {s : Scan} {P : HttpParser} {n : Nat} {ch : UInt8} :
    s.Takes ch (fieldByte { s with parser := P, ctl := .field n } n ch) (fieldMove P n ch) := by
  unfold fieldByte fieldMove
  by_cases hTok : token ch = 0
  · simp only [hTok, if_true]
    refine takes_count fun Q _ => ?_
    by_cases hColon : ch = ':'
    · rw [if_pos hColon, if_pos hColon]
      exact takes_apply _ _ (o := next { Q with state := .sHeaderValueDiscardWs } [.data .headerField])
        fun h => by cases h
    · rw [if_neg hColon, if_neg hColon]
      exact takes_apply _ _ (o := fail Q .invalidHeaderToken) fun h => by cases h
  · simp only [hTok, if_false]
    split
    · exact ⟨s.p, rfl, .inl rfl⟩
    · rfl

theorem takes_stop {s : Scan} {P : HttpParser} {n : Nat} {h : HeaderStates} {jump : Option Nat} {ch : UInt8}
    (hStop : ch = CR ∨ ch = LF) :
    s.Takes ch (valueStop { s with parser := P, ctl := .value n h jump } n h ch) (stopMove P n h ch) := by
  have hOver : overflows (addNread { P with state := .sHeaderAlmostDone, headerState := h } n) =
      overflows (addNread P n) := rfl
  have hOver' : overflows (addNread { P with state := .sHeaderAlmostDone } n) = overflows (addNread P n) := rfl
  unfold valueStop stopMove counted
  by_cases hCr : ch = CR
  · have hFrame := act_frame ch { s with
      parser := { P with state := .sHeaderAlmostDone, headerState := h }, ctl := .outer } (.data .headerValue)
    simp only [act] at hFrame
    simp only [hCr, if_true]
    unfold countHeaderSize
    rw [hFrame.1]
    dsimp only
    rw [hOver]
    cases overflows (addNread P n) with
    | true => exact ⟨_, rfl, .inl hFrame.2.2.2⟩
    | false =>
      simp only [Bool.false_eq_true, if_false, Option.map_some]
      show consume _ _ = take _ _ _
      simp only [take, List.foldl_cons, List.foldl_nil, act, callbackData]
      cases s.marks .headerValue <;> rfl
  · obtain rfl : ch = LF := hStop.resolve_left hCr
    simp only [hCr, if_false]
    unfold countHeaderSize
    dsimp only
    rw [hOver']
    cases overflows (addNread P n) with
    | true => exact ⟨_, rfl, .inl rfl⟩
    | false => rfl

theorem takes_value {s : Scan} {P : HttpParser} {n : Nat} {h : HeaderStates} {jump : Option Nat} {ch : UInt8} :
    s.Takes ch (valueByte { s with parser := P, ctl := .value n h jump } n h jump ch)
      (valueMove P n h jump ch) := by
  unfold valueByte valueMove
  cases jump with
  | some i =>
    dsimp only
    split
    · exact takes_stop (by tauto)
    · rfl
  | none =>
    dsimp only
    split
    · exact takes_stop ‹_›
    split
    · exact ⟨s.p, rfl, .inl rfl⟩
    split
    · rfl
    · split
      · exact ⟨s.p, rfl, .inl rfl⟩
      · rfl

theorem takes_switch {s : Scan} {P : HttpParser} {c : Ctl} {ch : UInt8} :
    s.Takes ch (switchByte { s with parser := P, ctl := c } ch) (switchMove P ch) := by
  unfold switchByte switchMove
  dsimp only
  cases hs : P.state
  case sHeaderField => exact takes_field
  case sHeaderValue => exact takes_value
  all_goals exact takes_apply _ _ (switch_keeps _ _ _).ret

theorem step_takes {s : Scan} (hRun : s.stopped = none) (ch : UInt8) :
    s.Takes ch (s.step ch) (move s.parser s.ctl ch) := by
  obtain ⟨P, p, marks, calls, ctl, stopped⟩ := s
  obtain rfl : stopped = none := hRun
  cases ctl with
  | field n => exact takes_field (s := ⟨P, p, marks, calls, .field n, none⟩)
  | value n h jump => exact takes_value (s := ⟨P, p, marks, calls, .value n h jump, none⟩)
  | outer =>
    unfold step move
    dsimp only
    split
    · exact takes_count (s := ⟨P, p, marks, calls, .outer, none⟩) fun Q _ => takes_switch
    · exact takes_switch (s := ⟨P, p, marks, calls, .outer, none⟩)

end Scan

end HttpUtils
