import HttpUtils.HttpParser.RequestLine
import HttpUtils.HttpParser.Framing
import HttpUtils.HttpParser.Sound

/-!
# What the parser still looks at

A start line sets again whatever a message has left in the parser, field by field before it is read. So behind a
message the parser reads the next one as a new parser does.
-/

namespace HttpUtils
set_option autoImplicit false

/-- The parser outside of a header line, where the state of the line does not count. -/
def HttpParser.offLine (P : HttpParser) : HttpParser := { P with headerState := .hGeneral, index := 0 }

def HttpParser.relevant (P : HttpParser) : HttpParser :=
  match P.state with
  | .sStartRes => { P.offLine with flags := {}, contentLength := 0, httpMajor := 0, httpMinor := 0, statusCode := 0 }
  | .sResH | .sResHT | .sResHTT | .sResHTTP | .sResFirstHttpMajor =>
    { P.offLine with httpMajor := 0, httpMinor := 0, statusCode := 0 }
  | .sResHttpMajor | .sResFirstHttpMinor => { P.offLine with httpMinor := 0, statusCode := 0 }
  | .sResHttpMinor | .sResFirstStatusCode => { P.offLine with statusCode := 0 }
  | .sDead | .sResStatusCode | .sResStatusStart | .sResStatus | .sResLineAlmostDone | .sHeaderFieldStart
  | .sHeadersAlmostDone | .sHeadersDone | .sChunkSizeStart | .sChunkSize | .sChunkParameters | .sChunkSizeAlmostDone
  | .sChunkData | .sChunkDataAlmostDone | .sChunkDataDone
  | .sBodyIdentity | .sBodyIdentityEof | .sMessageDone => P.offLine
  | _ => P

structure Outcome.Alike (o o' : Outcome) : Prop where
  flow : o.flow = o'.flow
  acts : o.acts = o'.acts
  parser : o.parser.relevant = o'.parser.relevant
  calls : SameCalls o.parser o'.parser

namespace Outcome.Alike

theorem refl (o : Outcome) : o.Alike o := ⟨rfl, rfl, rfl, ⟨rfl, rfl, rfl⟩⟩

theorem ite {p : Prop} [Decidable p] {a a' b b' : Outcome} (hThen : a.Alike a') (hElse : b.Alike b') :
    (if p then a else b).Alike (if p then a' else b') := by
  split
  · exact hThen
  · exact hElse

theorem after {o o' : Outcome} (h : o.Alike o') (acts : List Act) : (o.after acts).Alike (o'.after acts) :=
  ⟨h.flow, congrArg (acts ++ ·) h.acts, h.parser, h.calls⟩

theorem fail {P : HttpParser} (h : ∀ Q : HttpParser, Q.state = P.state → Q.relevant = Q.offLine) (e : HttpErrno) :
    (HttpUtils.fail P e).Alike (HttpUtils.fail P.offLine e) :=
  ⟨rfl, rfl, (h { P with httpErrno := e } rfl).trans (h { P.offLine with httpErrno := e } rfl).symm, ⟨rfl, rfl, rfl⟩⟩

theorem newMessage {P : HttpParser} (hType : P.type = .httpResponse) (acts : List Act) (flow : Flow) :
    Outcome.Alike ⟨{ P with state := HttpUtils.newMessage P }, acts, flow⟩
      ⟨{ P.offLine with state := HttpUtils.newMessage P }, acts, flow⟩ := by
  refine ⟨rfl, rfl, ?_, ⟨rfl, rfl, rfl⟩⟩
  have hState : HttpUtils.newMessage P = .sStartRes ∨ HttpUtils.newMessage P = .sDead := by
    unfold HttpUtils.newMessage
    rw [hType]
    split
    · exact .inl rfl
    · exact .inr rfl
  rcases hState with hState | hState <;> rw [hState] <;> rfl

end Outcome.Alike

theorem alike_headersDone {P : HttpParser} (hType : P.type = .httpResponse) (hState : P.state = .sHeadersDone)
    (ch : UInt8) :
    (headersDoneCase P ch).Alike (headersDoneCase P.offLine ch) := by
  have hEnd (acts : List Act) (flow : Flow) :=
    Outcome.Alike.newMessage (P := { P with nread := 0 }) hType acts flow
  simp only [headersDoneCase]
  refine .ite (.fail ?_ _) (.ite (hEnd _ _)
    (.ite (hEnd _ _) (.ite ?_ (.ite (hEnd _ _) (.ite ?_ (.ite (hEnd _ _) ?_))))))
  · intro Q hQ
    simp only [HttpParser.relevant, hQ, hState]
  all_goals exact ⟨rfl, rfl, rfl, ⟨rfl, rfl, rfl⟩⟩

theorem alike_headersAlmostDone {P : HttpParser} (hType : P.type = .httpResponse)
    (hState : P.state = .sHeadersAlmostDone)
    (ch : UInt8) : (headersAlmostDoneCase P ch).Alike (headersAlmostDoneCase P.offLine ch) := by
  have hLine (Q : HttpParser) (hQ : Q.state = P.state) : Q.relevant = Q.offLine := by
    simp only [HttpParser.relevant, hQ, hState]
  have hDone := alike_headersDone (P := { P with
      state := .sHeadersDone
      upgrade := (P.flags.fUpgrade && P.flags.fConnectionUpgrade) || P.method == .connect }) hType rfl ch
  simp only [headersAlmostDoneCase]
  refine .ite (.fail hLine _) (.ite ?_ (.ite (.fail hLine _) (hDone.after _)))
  exact .newMessage (P := { P with state := .sMessageDone }) hType _ _

theorem alike_headerFieldStart {P : HttpParser} (hType : P.type = .httpResponse)
    (hState : P.state = .sHeaderFieldStart)
    (ch : UInt8) : (headerFieldStartCase P ch).Alike (headerFieldStartCase P.offLine ch) := by
  have hLine (Q : HttpParser) (hQ : Q.state = P.state) : Q.relevant = Q.offLine := by
    simp only [HttpParser.relevant, hQ, hState]
  simp only [headerFieldStartCase]
  refine .ite ⟨rfl, rfl, rfl, ⟨rfl, rfl, rfl⟩⟩ (.ite ?_ (.ite (.fail hLine _) (.refl _)))
  exact alike_headersAlmostDone (P := { P with state := .sHeadersAlmostDone }) hType rfl ch

theorem alike_bodyIdentity {P : HttpParser} (hType : P.type = .httpResponse) (hState : P.state = .sBodyIdentity)
    (n : ℕ) :
    (bodyIdentityCase P n).Alike (bodyIdentityCase P.offLine n) := by
  simp only [bodyIdentityCase]
  refine .ite (.after ?_ _) ⟨rfl, rfl, ?_, ⟨rfl, rfl, rfl⟩⟩
  · exact .newMessage (P := { P with contentLength := P.contentLength - min P.contentLength n, state :=
    .sMessageDone }) hType _ _
  · simp only [HttpParser.relevant, next, HttpParser.offLine, hState]

/-- Before the status code is read nothing of the parser is shown to a callback. -/
structure Outcome.Resembles (mark : Option DataCb) (o o' : Outcome) : Prop where
  flow : o.flow = o'.flow
  acts : o.acts = o'.acts
  parser : o.parser.relevant = o'.parser.relevant
  calls : SameCalls o.parser o'.parser ∨ mark = none ∧ ∀ a ∈ o.acts, a = .notify .messageBegin

theorem Outcome.Alike.resembles {mark : Option DataCb} {o o' : Outcome} (h : o.Alike o') : o.Resembles mark o' :=
  ⟨h.flow, h.acts, h.parser, .inl h.calls⟩

theorem Outcome.Resembles.ite {mark : Option DataCb} {p : Prop} [Decidable p] {a a' b b' : Outcome}
    (hThen : a.Resembles mark a') (hElse : b.Resembles mark b') :
    (if p then a else b).Resembles mark (if p then a' else b') := by
  split
  · exact hThen
  · exact hElse

theorem byteCase_relevant {P : HttpParser} (hType : P.type = .httpResponse) (ch : UInt8) :
    (byteCase P ch).Resembles (openMark P.state) (byteCase P.relevant ch) := by
  obtain ⟨type, flags, state, headerState, index, nread, contentLength, httpMajor, httpMinor, statusCode,
    method, httpErrno,
    upgrade⟩ := P
  cases state
  -- the start line up to the status code
  case sStartRes | sResH | sResHT | sResHTT | sResHTTP | sResFirstHttpMajor | sResHttpMajor | sResFirstHttpMinor
    | sResHttpMinor | sResFirstStatusCode =>
    simp only [byteCase, HttpParser.relevant, HttpParser.offLine, switch, startResCase, expect, majorDigit,
      firstMinorDigit,
      minorDigit]
    repeat' refine Outcome.Resembles.ite ?_ ?_
    all_goals exact ⟨rfl, rfl, rfl, .inr ⟨rfl, by simp [next, fail]⟩⟩
  case sHeaderFieldStart => exact (alike_headerFieldStart hType rfl ch).resembles
  case sHeadersAlmostDone => exact (alike_headersAlmostDone hType rfl ch).resembles
  case sHeadersDone => exact (alike_headersDone hType rfl ch).resembles
  case sBodyIdentity => exact (alike_bodyIdentity hType rfl 1).resembles
  case sMessageDone => exact (Outcome.Alike.newMessage hType _ _).resembles
  case sDead | sResStatusCode | sResStatusStart | sResStatus | sResLineAlmostDone | sChunkSizeStart | sChunkSize
    | sChunkParameters | sChunkSizeAlmostDone | sChunkDataAlmostDone | sChunkDataDone | sBodyIdentityEof =>
    refine Outcome.Alike.resembles ?_
    simp only [byteCase, HttpParser.relevant, HttpParser.offLine, switch, expect, resStatusCodeCase,
      chunkSizeStartCase,
      chunkSizeCase, chunkSizeAlmostDoneCase, bodyIdentityEofCase]
    repeat' first | refine Outcome.Alike.ite ?_ ?_ | split
    all_goals exact ⟨rfl, rfl, rfl, ⟨rfl, rfl, rfl⟩⟩
  case sChunkData =>
    refine Outcome.Alike.resembles ?_
    simp only [byteCase, HttpParser.relevant, HttpParser.offLine, switch, chunkDataCase]
    by_cases hLast : contentLength - min contentLength 1 = 0
    · simp only [hLast, if_true]
      exact ⟨rfl, rfl, rfl, ⟨rfl, rfl, rfl⟩⟩
    · simp only [hLast, if_false]
      exact ⟨rfl, rfl, rfl, ⟨rfl, rfl, rfl⟩⟩
  -- inside a header line, and in a request, every field counts
  all_goals exact (Outcome.Alike.refl _).resembles

theorem relevant_frame (P : HttpParser) : P.relevant.type = P.type ∧ P.relevant.state = P.state := by
  unfold HttpParser.relevant
  split <;> exact ⟨rfl, rfl⟩

theorem byteCase_resembles {P Q : HttpParser} (hType : P.type = .httpResponse) (hSame : P.relevant = Q.relevant)
    (ch : UInt8) :
    (byteCase P ch).Resembles (openMark P.state) (byteCase Q ch) := by
  have hType' : Q.type = .httpResponse := by rw [← (relevant_frame Q).1, ← hSame, (relevant_frame P).1, hType]
  have hP := byteCase_relevant hType ch
  have hQ := byteCase_relevant hType' ch
  rw [hSame] at hP
  have hState : Q.state = P.state := by rw [← (relevant_frame Q).2, ← hSame, (relevant_frame P).2]
  have hActs : (byteCase P ch).acts = (byteCase Q ch).acts := hP.acts.trans hQ.acts.symm
  refine ⟨hP.flow.trans hQ.flow.symm, hActs, hP.parser.trans hQ.parser.symm, ?_⟩
  rcases hP.calls with hP' | hBegin
  · rcases hQ.calls with hQ' | hBegin
    · exact .inl ⟨hP'.statusCode.trans hQ'.statusCode.symm, hP'.httpMajor.trans hQ'.httpMajor.symm,
        hP'.httpMinor.trans hQ'.httpMinor.symm⟩
    · exact .inr ⟨hState ▸ hBegin.1, fun a ha => hBegin.2 a (hActs ▸ ha)⟩
  · exact .inr hBegin

/-! ### The parser of a response -/

/-- A case of the parser of a response stays with responses. -/
structure Outcome.Responds (P : HttpParser) (o : Outcome) : Prop where
  type : o.parser.type = P.type
  method : o.parser.method = P.method
  line : o.parser.state.linePart = none

namespace Outcome.Responds

variable {P Q : HttpParser}

theorem ite {p : Prop} [Decidable p] {a b : Outcome} (hThen : a.Responds P) (hElse : b.Responds P) :
    (if p then a else b).Responds P := by
  split
  · exact hThen
  · exact hElse

theorem fail (hType : Q.type = P.type) (hMethod : Q.method = P.method) (hLine : Q.state.linePart = none)
    (e : HttpErrno) :
    (HttpUtils.fail Q e).Responds P := ⟨hType, hMethod, hLine⟩

theorem newMessage (hType : P.type = .httpResponse) (hSame : Q.type = P.type) (hMethod : Q.method = P.method)
    (acts : List Act) (flow : Flow) : Responds P ⟨{ Q with state := HttpUtils.newMessage Q }, acts, flow⟩ := by
  refine ⟨hSame, hMethod, ?_⟩
  dsimp only
  unfold HttpUtils.newMessage
  rw [hSame, hType]
  split <;> rfl

end Outcome.Responds

theorem responds_headersDone {P Q : HttpParser} (hType : P.type = .httpResponse) (hSame : Q.type = P.type)
    (hMethod : Q.method = P.method) (hLine : Q.state.linePart = none) (ch : UInt8) :
    (headersDoneCase Q ch).Responds P := by
  have hEnd (acts : List Act) (flow : Flow) :=
    Outcome.Responds.newMessage (P := P) (Q := { Q with nread := 0 }) hType hSame hMethod acts flow
  simp only [headersDoneCase]
  refine .ite ⟨hSame, hMethod, hLine⟩
    (.ite (hEnd _ _) (.ite (hEnd _ _) (.ite ?_ (.ite (hEnd _ _) (.ite ?_ (.ite (hEnd _ _) ?_))))))
  all_goals exact ⟨hSame, hMethod, rfl⟩

theorem responds_headersAlmostDone {P Q : HttpParser} (hType : P.type = .httpResponse) (hSame : Q.type = P.type)
    (hMethod : Q.method = P.method) (hLine : Q.state.linePart = none) (ch : UInt8) :
    (headersAlmostDoneCase Q ch).Responds P := by
  have hFail (e : HttpErrno) : (fail Q e).Responds P := ⟨hSame, hMethod, hLine⟩
  have hDone := responds_headersDone (P := P) (Q := { Q with
      state := .sHeadersDone
      upgrade := (Q.flags.fUpgrade && Q.flags.fConnectionUpgrade) || Q.method == .connect }) hType hSame hMethod
        rfl ch
  simp only [headersAlmostDoneCase]
  refine .ite (hFail _) (.ite ?_ (.ite (hFail _) ⟨hDone.type, hDone.method, hDone.line⟩))
  exact .newMessage (Q := { Q with state := .sMessageDone }) hType hSame hMethod _ _

theorem responds_headerFieldStart {P Q : HttpParser} (hType : P.type = .httpResponse) (hSame : Q.type = P.type)
    (hMethod : Q.method = P.method) (hLine : Q.state.linePart = none) (ch : UInt8) :
    (headerFieldStartCase Q ch).Responds P := by
  simp only [headerFieldStartCase]
  refine .ite ⟨hSame, hMethod, rfl⟩ (.ite ?_ (.ite ⟨hSame, hMethod, hLine⟩ ⟨hSame, hMethod, rfl⟩))
  exact responds_headersAlmostDone (Q := { Q with state := .sHeadersAlmostDone }) hType hSame hMethod rfl ch

theorem responds_headerValueStart {P Q : HttpParser} (hSame : Q.type = P.type) (hMethod : Q.method = P.method)
    (ch : UInt8) :
    (headerValueStartCase Q ch).Responds P := by
  have hKept := kept_valueStart Q ch
  refine ⟨hKept.type.trans hSame, hKept.method.trans hMethod, ?_⟩
  cases hs : Q.headerState <;> simp only [headerValueStartCase, hs]
  case hContentLength => split <;> rfl
  all_goals rfl

theorem responds_name {P : HttpParser} (hState : P.state = .sHeaderField) (ch : UInt8) :
    (nameCase P ch).Responds P := by
  have hKept := kept_nameStep P ch
  have hStep : (nameStep P ch).state.linePart = none := by
    rw [show (nameStep P ch).state = P.state from headerFieldChar_state P ch (token ch), hState]
    rfl
  refine .ite (.ite ⟨rfl, rfl, rfl⟩ (.fail rfl rfl (by rw [hState]; rfl) _)) ?_
  exact .ite ⟨hKept.type, hKept.method, hStep⟩ ⟨hKept.type, hKept.method, hStep⟩

theorem responds_value {P : HttpParser} (hState : P.state = .sHeaderValue) (ch : UInt8) :
    (valueCase P ch).Responds P := by
  have hKept := kept_valueStep P ch
  have hStep : (valueStep P ch).state.linePart = none := by
    rw [show (valueStep P ch).state = P.state from headerValueChar_state P P.headerState ch, hState]
    rfl
  refine .ite ⟨rfl, rfl, rfl⟩ (.ite ⟨rfl, rfl, rfl⟩ ?_)
  exact .ite ⟨hKept.type, hKept.method, hStep⟩ ⟨hKept.type, hKept.method, hStep⟩

theorem byteCase_responds {P : HttpParser} (hType : P.type = .httpResponse) (hLine : P.state.linePart = none)
    (ch : UInt8) :
    (byteCase P ch).Responds P := by
  cases hs : P.state <;> rw [hs] at hLine
  case sHeaderField =>
    simp only [byteCase, hs]
    exact responds_name hs ch
  case sHeaderValue =>
    simp only [byteCase, hs]
    exact responds_value hs ch
  all_goals
    simp only [byteCase, hs, switch, startResCase, expect, majorDigit, firstMinorDigit, minorDigit, resStatusCodeCase,
      chunkSizeStartCase, chunkSizeCase, chunkSizeAlmostDoneCase]
  case sHeaderFieldStart => exact responds_headerFieldStart hType rfl rfl (by rw [hs]; rfl) ch
  case sHeadersAlmostDone => exact responds_headersAlmostDone hType rfl rfl (by rw [hs]; rfl) ch
  case sHeadersDone => exact responds_headersDone hType rfl rfl (by rw [hs]; rfl) ch
  case sMessageDone => exact .newMessage hType rfl rfl _ _
  case sHeaderValueStart => exact responds_headerValueStart rfl rfl ch
  case sHeaderValueLws =>
    exact .ite (responds_headerValueStart (P := P) (Q := { P with state := .sHeaderValueStart }) rfl rfl ch)
      (responds_headerFieldStart (P := P) (Q := { P with
        flags := finishHeaderFlags P.headerState P.flags, state := .sHeaderFieldStart }) hType rfl rfl rfl ch)
  case sHeaderValueDiscardWs =>
    exact .ite ⟨rfl, rfl, by rw [next, hs]; rfl⟩
      (.ite ⟨rfl, rfl, rfl⟩ (.ite ⟨rfl, rfl, rfl⟩ (responds_headerValueStart rfl rfl ch)))
  case sHeaderValueDiscardLws =>
    have hStart := responds_headerFieldStart (P := P) (Q := { P with
      flags := finishHeaderFlags P.headerState P.flags, state := .sHeaderFieldStart }) hType rfl rfl rfl ch
    exact .ite ⟨rfl, rfl, rfl⟩ ⟨hStart.type, hStart.method, hStart.line⟩
  case sHeaderAlmostDone => exact .ite (.fail rfl rfl (by rw [hs]; rfl) _) ⟨rfl, rfl, rfl⟩
  case sBodyIdentity =>
    have hDone := Outcome.Responds.newMessage (P := P) (Q := { P with
      contentLength := P.contentLength - min P.contentLength 1, state := .sMessageDone }) hType rfl rfl
      [.notify .messageComplete] (if P.upgrade then .ret else .next)
    simp only [bodyIdentityCase]
    exact .ite ⟨hDone.type, hDone.method, hDone.line⟩ ⟨rfl, rfl, by rw [next, hs]; rfl⟩
  case sChunkData =>
    simp only [chunkDataCase]
    refine ⟨?_, ?_, ?_⟩ <;> rw [next] <;> split <;> first | rfl | rw [hs]; rfl
  all_goals
    cases hLine
    repeat' first | refine Outcome.Responds.ite ?_ ?_ | split
    all_goals first | exact ⟨rfl, rfl, rfl⟩ | exact ⟨rfl,
      rfl, by simp only [next, fail, bodyIdentityEofCase, hs]; rfl⟩

theorem byteCase_keeps (P : HttpParser) (ch : UInt8) : (byteCase P ch).Keeps P := by
  have hErrno {Q : HttpParser} (h : Kept P Q) (hOk : ¬ Q.httpErrno ≠ .ok) : Q.httpErrno = P.httpErrno :=
    (not_not.mp hOk).trans (h.errno (not_not.mp hOk)).symm
  unfold byteCase
  split
  · obtain ⟨hType, hNread⟩ := headerFieldChar_keeps P ch (token ch)
    simp only [nameCase]
    split
    · split
      · exact ⟨rfl, Nat.le_refl _, fun _ => rfl, fun hRet => by cases hRet⟩
      · exact keeps_fail _ _
    split
    · exact ⟨hType, hNread.le, fun hNot => absurd rfl hNot, fun hRet => by cases hRet⟩
    · rename_i hOk
      exact ⟨hType, hNread.le, fun _ => hErrno (kept_nameStep P ch) hOk, fun hRet => by cases hRet⟩
  · obtain ⟨hType, hNread⟩ := headerValueChar_keeps P P.headerState ch
    simp only [valueCase]
    split
    · exact ⟨rfl, Nat.le_refl _, fun _ => rfl, fun hRet => by cases hRet⟩
    split
    · exact ⟨rfl, Nat.le_refl _, fun _ => rfl, fun hRet => by cases hRet⟩
    split
    · exact ⟨hType, hNread.le, fun hNot => absurd rfl hNot, fun hRet => by cases hRet⟩
    · rename_i hOk
      exact ⟨hType, hNread.le, fun _ => hErrno (kept_valueStep P ch) hOk, fun hRet => by cases hRet⟩
  · exact switch_keeps P ch 1

end HttpUtils
