import HttpUtils.HttpParser.Framing
import HttpUtils.HttpParser.Completion
import HttpUtils.Midway

/-!
# Where the body begins

Up to the blank line nothing is added to the body. What comes behind it was decided by the header lines, and
behind the last chunk there are lines again, which add nothing either.
-/

namespace HttpUtils
set_option autoImplicit false

/-! ### Bytes that add nothing to the body -/

theorem Move.spell_body {P : HttpParser} {ch : UInt8} {v : Move} (hQuiet : .mark .body ∉ v.acts) (m : Message) :
    (v.spell P ch m).body = m.body := by
  have hSee (k : DataCb) (hk : ¬ k = .body) (P : HttpParser) (run : Bytes) (m' : Message) (h : m'.body = m.body) :
      (m'.see (k.call P run)).body = m.body := by
    cases k with
    | body => exact absurd rfl hk
    | headerField =>
      simp only [DataCb.call, Message.see]
      split <;> exact h
    | _ => exact h
  have hNotify (k : NotifyCb) (P : HttpParser) (m' : Message) (h : m'.body = m.body) :
      (m'.see (k.call P)).body = m.body := by
    cases k <;> exact h
  have hOpen : ∀ k, openMark P.state = some k → ¬ k = .body := by
    rintro k hk rfl
    cases hs : P.state <;> simp [hs, openMark] at hk
  have hActs : ∀ k, .mark k ∈ v.acts → ¬ k = .body := by
    rintro k hk rfl
    exact hQuiet hk
  exact v.spell_without hSee hNotify hOpen hActs rfl

/-! ### The end of a header section -/

/-- The parser is in the lines behind the last chunk. -/
def HttpParser.trailing (P : HttpParser) : Bool :=
  match P.state with
  | .sHeaderFieldStart | .sHeaderField | .sHeaderValueDiscardWs | .sHeaderValueDiscardWsAlmostDone
  | .sHeaderValueDiscardLws | .sHeaderValueStart | .sHeaderValue | .sHeaderValueLws | .sHeaderAlmostDone
  | .sHeadersAlmostDone => P.flags.fTrailing
  | _ => false

/-- The parser is in the start line or in the first header section. -/
structure HttpParser.InHead (P : HttpParser) : Prop where
  pastHead : P.pastHead = false
  noTrailers : P.flags.fTrailing = false
  notDone : (P.state == .sHeadersDone) = false

/-- The parser `Q` behind the blank line, and what it does with what follows. -/
inductive Opens (Q : HttpParser) (acts : List Act) : Prop where
  | nothing (hDone : .notify .messageComplete ∈ acts) (hChunked : Q.flags.fChunked = false)
      (hLength : Q.contentLength = 0 ∨ Q.contentLength = ullongMax)
  | sized (hOpen : .notify .messageComplete ∉ acts) (hState : Q.state = .sBodyIdentity)
    (hChunked : Q.flags.fChunked = false)
      (hLength : Q.contentLength ≠ 0 ∧ Q.contentLength ≠ ullongMax)
  | chunks (hOpen : .notify .messageComplete ∉ acts) (hState : Q.state = .sChunkSizeStart)
    (hChunked : Q.flags.fChunked = true)
  | untilEof (hOpen : .notify .messageComplete ∉ acts) (hState : Q.state = .sBodyIdentityEof)

structure Outcome.Lines (P : HttpParser) (o : Outcome) : Prop where
  inHead : P.InHead → o.parser.InHead
  trailing : P.trailing = true → o.parser.trailing = true
  skipbody : o.parser.flags.fSkipbody = true → P.flags.fSkipbody = true
  complete : .notify .messageComplete ∉ o.acts

/-- What a case does in a header section. -/
inductive Outcome.Leaves (P : HttpParser) (o : Outcome) : Prop where
  | lines (h : o.Lines P)
  | opens (hHead : P.InHead) (hReport : .notify .headersComplete ∈ o.acts)
      (h : P.flags.fSkipbody = false → Opens o.parser o.acts)
  | ends (hTrailing : P.trailing = true) (hDone : .notify .messageComplete ∈ o.acts)

structure Outcome.Reads (P : HttpParser) (o : Outcome) : Prop where
  quiet : .mark .body ∉ o.acts
  leaves : o.flow = .next → o.Leaves P

theorem reads_fail (P Q : HttpParser) (e : HttpErrno) : (fail Q e).Reads P :=
  ⟨by simp [fail], fun h => absurd h (fail_flow Q e)⟩

theorem reads_next {P Q : HttpParser} {acts : List Act} (hQuiet : .mark .body ∉ acts) (hHead : P.InHead → Q.InHead)
    (hTrailing : P.trailing = true → Q.trailing = true) (hSkip : Q.flags.fSkipbody = true → P.flags.fSkipbody = true)
    (hOpen : .notify .messageComplete ∉ acts) : (next Q acts).Reads P :=
  ⟨hQuiet, fun _ => .lines ⟨hHead, hTrailing, hSkip, hOpen⟩⟩

theorem reads_headersDone {P Q : HttpParser} {ch : UInt8} (hHead : P.InHead)
    (hSkip : Q.flags.fSkipbody = true → P.flags.fSkipbody = true) :
    ((headersDoneCase Q ch).after [.notify .headersComplete]).Reads P := by
  constructor
  · simp only [headersDoneCase]
    repeat' split
    all_goals simp [fail, next, Outcome.after]
  · intro hFlow
    refine .opens hHead (by simp [Outcome.after]) fun hNo => ?_
    have hSkip' : ¬ Q.flags.fSkipbody = true := fun hOn => by simp [hSkip hOn] at hNo
    have hFlow : (headersDoneCase Q ch).flow = .next := hFlow
    simp only [headersDoneCase] at hFlow ⊢
    split at hFlow
    · exact absurd hFlow (fail_flow _ _)
    rename_i hLf
    rw [if_neg hLf]
    split at hFlow
    · cases hFlow
    rename_i hNoUpgrade
    rw [if_neg hNoUpgrade, if_neg hSkip']
    split
    · rename_i hChunked
      exact .chunks (by simp [next, Outcome.after]) rfl hChunked
    rename_i hChunked
    have hNot : Q.flags.fChunked = false := by simpa using hChunked
    split
    · rename_i hZero
      exact .nothing (by simp [next, Outcome.after]) hNot (.inl hZero)
    rename_i hZero
    split
    · rename_i hMax
      exact .sized (by simp [next, Outcome.after]) rfl hNot ⟨hZero, hMax⟩
    rename_i hMax
    split
    · exact .nothing (by simp [next, Outcome.after]) hNot (.inr (not_ne_iff.mp hMax))
    · exact .untilEof (by simp [next, Outcome.after]) rfl

structure HttpParser.InLines (P : HttpParser) : Prop where
  pastHead : P.pastHead = P.flags.fTrailing
  trailing : P.trailing = P.flags.fTrailing
  notDone : (P.state == .sHeadersDone) = false

/-- The lines of the same header section, whose flags are kept. -/
structure HttpParser.SameLines (P Q : HttpParser) : Prop where
  trailing : Q.flags.fTrailing = P.flags.fTrailing
  skipbody : Q.flags.fSkipbody = P.flags.fSkipbody

theorem HttpParser.SameLines.trans {P Q R : HttpParser} (h : P.SameLines Q) (h' : Q.SameLines R) : P.SameLines R :=
  ⟨h'.trailing.trans h.trailing, h'.skipbody.trans h.skipbody⟩

theorem HttpParser.InLines.lines {P Q : HttpParser} (h : P.InLines) (hQ : Q.InLines) (hSame : P.SameLines Q)
    {o : Outcome} (hParser : o.parser = Q) (hOpen : .notify .messageComplete ∉ o.acts) : o.Lines P := by
  subst hParser
  refine ⟨fun hHead => ?_, fun hOn => ?_, fun hOn => ?_, hOpen⟩
  · have hOff := hSame.trailing.trans hHead.noTrailers
    exact ⟨hQ.pastHead.trans hOff, hOff, hQ.notDone⟩
  · rw [hQ.trailing, hSame.trailing, ← h.trailing]
    exact hOn
  · rw [← hSame.skipbody]
    exact hOn

theorem HttpParser.InLines.reads {P Q : HttpParser} (h : P.InLines) (hQ : Q.InLines) (hSame : P.SameLines Q)
    {acts : List Act}
    (hQuiet : .mark .body ∉ acts) (hOpen : .notify .messageComplete ∉ acts) : (next Q acts).Reads P :=
  ⟨hQuiet, fun _ => .lines (h.lines hQ hSame rfl hOpen)⟩

theorem Outcome.Reads.after {P : HttpParser} {o : Outcome} (h : o.Reads P) {acts : List Act}
    (hQuiet : .mark .body ∉ acts) (hOpen : .notify .messageComplete ∉ acts) : (o.after acts).Reads P := by
  refine ⟨?_, fun hFlow => ?_⟩
  · show _ ∉ acts ++ o.acts
    rw [List.mem_append, not_or]
    exact ⟨hQuiet, h.quiet⟩
  · have hDone : .notify .messageComplete ∈ acts ++ o.acts ↔ .notify .messageComplete ∈ o.acts := by
      rw [List.mem_append, or_iff_right hOpen]
    cases h.leaves hFlow with
    | lines hLines => exact .lines ⟨hLines.inHead, hLines.trailing, hLines.skipbody, mt hDone.mp hLines.complete⟩
    | ends hTrailing hEnd => exact .ends hTrailing (hDone.mpr hEnd)
    | opens hHead hReport hOpens =>
      refine .opens hHead (List.mem_append_right _ hReport) fun hSkip => ?_
      cases hOpens hSkip with
      | nothing hEnd hChunked hLength => exact .nothing (hDone.mpr hEnd) hChunked hLength
      | sized hNot hState hChunked hLength => exact .sized (mt hDone.mp hNot) hState hChunked hLength
      | chunks hNot hState hChunked => exact .chunks (mt hDone.mp hNot) hState hChunked
      | untilEof hNot hState => exact .untilEof (mt hDone.mp hNot) hState

theorem reads_headersAlmostDone {P Q : HttpParser} {ch : UInt8} (h : P.InLines) (hSame : P.SameLines Q) :
    (headersAlmostDoneCase Q ch).Reads P := by
  unfold headersAlmostDoneCase
  split
  · exact reads_fail _ _ _
  split
  · rename_i hOn
    refine ⟨by simp [messageDoneCase, Outcome.after], fun _ => .ends ?_ (by simp [messageDoneCase, Outcome.after])⟩
    rw [h.trailing, ← hSame.trailing]
    exact hOn
  split
  · exact reads_fail _ _ _
  · rename_i hOff _
    refine reads_headersDone ?_ fun hOn => ?_
    · have hNone : P.flags.fTrailing = false := by
        rw [← hSame.trailing]
        simpa using hOff
      exact ⟨h.pastHead.trans hNone, hNone, h.notDone⟩
    · exact hSame.skipbody.symm.trans hOn

theorem reads_headerFieldStart {P Q : HttpParser} {ch : UInt8} (h : P.InLines) (hSame : P.SameLines Q) :
    (headerFieldStartCase Q ch).Reads P := by
  unfold headerFieldStartCase
  split
  · exact h.reads (by constructor <;> rfl) (hSame.trans (by constructor <;> rfl)) (by simp) (by simp)
  split
  · exact reads_headersAlmostDone h (hSame.trans (by constructor <;> rfl))
  split
  · exact reads_fail _ _ _
  · exact h.reads (by constructor <;> rfl) (hSame.trans (by constructor <;> rfl)) (by simp) (by simp)

theorem reads_headerValueStart {P Q : HttpParser} {ch : UInt8} (h : P.InLines) (hSame : P.SameLines Q) :
    (headerValueStartCase Q ch).Reads P := by
  unfold headerValueStartCase
  dsimp only
  split
  case h_3 =>
    split
    · exact reads_fail _ _ _
    · exact h.reads (by constructor <;> rfl) (hSame.trans (by constructor <;> rfl)) (by simp) (by simp)
  all_goals exact h.reads (by constructor <;> rfl) (hSame.trans (by constructor <;> rfl)) (by simp) (by simp)

theorem sameLines_finish (P : HttpParser) : P.SameLines { P with
    flags := finishHeaderFlags P.headerState P.flags, state := .sHeaderFieldStart } := by
  constructor <;> cases P.headerState <;> rfl

/-! ### One byte -/

theorem sameLines_headerFieldChar (P : HttpParser) (ch : UInt8) : P.SameLines (headerFieldChar P ch (token ch)) := by
  have hKept := kept_nameStep P ch
  exact ⟨hKept.fTrailing, hKept.fSkipbody⟩

theorem sameLines_headerValueChar (P : HttpParser) (ch : UInt8) :
    P.SameLines (headerValueChar P P.headerState ch).1 := by
  have hKept := kept_valueStep P ch
  exact ⟨hKept.fTrailing, hKept.fSkipbody⟩

theorem reads_name {P : HttpParser} (hState : P.state = .sHeaderField) (ch : UInt8) : (nameCase P ch).Reads P := by
  have h : P.InLines := by constructor <;> simp [HttpParser.pastHead, HttpParser.trailing, hState]
  unfold nameCase
  split
  · split
    · exact h.reads (by constructor <;> rfl) (by constructor <;> rfl) (by simp) (by simp)
    · exact reads_fail _ _ _
  · have hSame := sameLines_headerFieldChar P ch
    have hStill := (headerFieldChar_state P ch (token ch)).trans hState
    dsimp only
    split
    · exact ⟨by simp, fun hFlow => by cases hFlow⟩
    · exact h.reads (by constructor <;> simp [HttpParser.pastHead, HttpParser.trailing, hStill]) hSame (by simp)
        (by simp)

theorem reads_value {P : HttpParser} (hState : P.state = .sHeaderValue) (ch : UInt8) : (valueCase P ch).Reads P := by
  have h : P.InLines := by constructor <;> simp [HttpParser.pastHead, HttpParser.trailing, hState]
  unfold valueCase
  split
  · exact h.reads (by constructor <;> rfl) (by constructor <;> rfl) (by simp) (by simp)
  split
  · exact h.reads (by constructor <;> rfl) (by constructor <;> rfl) (by simp) (by simp)
  · have hSame := sameLines_headerValueChar P ch
    have hStill := (headerValueChar_state P P.headerState ch).trans hState
    dsimp only
    split
    · exact ⟨by simp, fun hFlow => by cases hFlow⟩
    · exact h.reads (by constructor <;> simp [HttpParser.pastHead, HttpParser.trailing, hStill])
        (hSame.trans (by constructor <;> rfl)) (by simp) (by simp)

theorem pastHead_parseUrlChar (s : State) (ch : UInt8) (P : HttpParser) :
    HttpParser.pastHead { P with state := parseUrlChar s ch } = false ∧
    (parseUrlChar s ch == .sHeadersDone) = false := by
  unfold parseUrlChar parseUrlServer
  cases s <;> dsimp only <;> repeat' split
  all_goals exact ⟨rfl, rfl⟩

theorem reads_urlStep {P Q : HttpParser} {ch : UInt8} {acts : List Act} (hQuiet : .mark .body ∉ acts)
    (hOpen : .notify .messageComplete ∉ acts) (hTrailing : P.trailing = false) (hFlags : Q.flags = P.flags) :
    (urlStep Q ch acts).Reads P := by
  unfold urlStep
  dsimp only
  split
  · exact ⟨hQuiet, fun hFlow => by cases hFlow⟩
  · obtain ⟨hPast, hNot⟩ := pastHead_parseUrlChar Q.state ch Q
    refine reads_next hQuiet (fun hHead => ⟨hPast, ?_, hNot⟩) (fun hOn => ?_) (fun hOn => ?_) hOpen
    · exact (congrArg Flags.fTrailing hFlags).trans hHead.noTrailers
    · rw [hTrailing] at hOn
      cases hOn
    · exact hFlags ▸ hOn

theorem reads_byteCase {P : HttpParser} (h : P.InHead ∨ P.trailing = true) (ch : UInt8) :
    (byteCase P ch).Reads P := by
  cases hs : P.state
  case sHeaderField =>
    rw [show byteCase P ch = nameCase P ch by simp only [byteCase, hs]]
    exact reads_name hs ch
  case sHeaderValue =>
    rw [byteCase_value hs]
    exact reads_value hs ch
  case sHeaderFieldStart | sHeaderValueStart | sHeadersAlmostDone | sHeaderValueLws | sHeaderValueDiscardWs
    | sHeaderValueDiscardLws | sHeaderValueDiscardWsAlmostDone | sHeaderAlmostDone =>
    have hIn : P.InLines := by constructor <;> simp [HttpParser.pastHead, HttpParser.trailing, hs]
    rw [byteCase_switch (by simp [hs]) (by simp [hs])]
    simp only [switch, hs, headerValueLwsCase, headerValueDiscardWsCase, headerValueDiscardLwsCase,
      headerAlmostDoneCase,
      expect]
    repeat' split
    all_goals
      first
      | exact reads_fail _ _ _
      | exact reads_headerFieldStart hIn ⟨rfl, rfl⟩
      | exact reads_headerFieldStart hIn (sameLines_finish P)
      | exact reads_headerValueStart hIn ⟨rfl, rfl⟩
      | exact reads_headersAlmostDone hIn ⟨rfl, rfl⟩
      | exact (reads_headerFieldStart hIn (sameLines_finish P)).after (by simp) (by simp)
      | exact hIn.reads (by constructor <;> simp [HttpParser.pastHead, HttpParser.trailing, hs])
          (by constructor <;> rfl) (by simp) (by simp)
  case sHeadersDone =>
    have hHead : P.InHead := h.resolve_right (by simp [HttpParser.trailing, hs])
    have hNot := hHead.notDone
    simp [hs] at hNot
  case sReqSpacesBeforeUrl | sReqSchema | sReqSchemaSlash | sReqSchemaSlashSlash | sReqServerStart | sReqServer
    | sReqServerWithAt | sReqPath | sReqQueryStringStart | sReqQueryString | sReqFragmentStart | sReqFragment =>
    have hTrailing : P.trailing = false := by simp [HttpParser.trailing, hs]
    rw [byteCase_switch (by simp [hs]) (by simp [hs])]
    simp only [switch, hs, reqSpacesBeforeUrlCase, reqSchemaCase, reqUrlCase]
    repeat' split
    all_goals
      first
      | exact reads_fail _ _ _
      | exact reads_urlStep (by simp) (by simp) hTrailing rfl
      | exact reads_next (by simp)
          (fun hHead => ⟨by simp [HttpParser.pastHead, hs, hHead.noTrailers], hHead.noTrailers, by simp [hs]⟩)
          (by simp [hTrailing]) id (by simp)
  case sChunkSizeStart | sChunkSize | sChunkParameters | sChunkSizeAlmostDone | sChunkData | sChunkDataAlmostDone
    | sChunkDataDone | sBodyIdentity | sBodyIdentityEof | sMessageDone =>
    rcases h with hHead | hTrailing
    · have hPast := hHead.pastHead
      simp [HttpParser.pastHead, hs] at hPast
    · simp [HttpParser.trailing, hs] at hTrailing
  all_goals
    have hTrailing : P.trailing = false := by simp [HttpParser.trailing, hs]
    rw [byteCase_switch (by simp [hs]) (by simp [hs])]
    simp only [switch, hs, startResCase, expect, majorDigit, minorDigit, firstMinorDigit, resStatusCodeCase,
      startReqCase,
      reqMethodCase]
    repeat' split
    all_goals
      first
      | exact reads_fail _ _ _
      | exact reads_next (by simp)
          (fun hHead => ⟨by simp [HttpParser.pastHead, hs,
            hHead.noTrailers], by simp [hHead.noTrailers], by simp [hs]⟩)
          (by simp [hTrailing]) (by simp) (by simp)

end HttpUtils
