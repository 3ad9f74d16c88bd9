import HttpUtils.HttpParser.Renewal
import HttpUtils.HttpParser.Places
import HttpUtils.HttpParser.RequestLine

/-!
# A response behind another one

Both are spelled into one message: the headers and the content go on where the first response left them, and what
the second does not tell stays as it was.
-/

namespace HttpUtils
set_option autoImplicit false

/-! ### The present line -/

namespace Reader

theorem next_of_step {r t : Reader} {ch : UInt8} (h : r.step ch = some t) :
    ∃ Q acts, byteCase r.parser ch = HttpUtils.next Q acts ∧ t.parser = Q ∧
      t.message = Move.spell r.parser ch ⟨acts, Q, .outer⟩ r.message := by
  obtain ⟨v, hMove, rfl⟩ := Option.map_eq_some_iff.mp h
  obtain ⟨hFlow, rfl⟩ := Outcome.move_eq_some hMove
  refine ⟨_, _, ?_, rfl, rfl⟩
  rw [HttpUtils.next, ← hFlow]

theorem fits_step {r t : Reader} {ch : UInt8} (h : HeaderFits r.parser.state r.message) (hStep : r.step ch = some t) :
    HeaderFits t.parser.state t.message := by
  obtain ⟨Q, acts, hByte, hParser, hMessage⟩ := next_of_step hStep
  rw [hParser, hMessage]
  by_cases hField : r.parser.state = .sHeaderField
  · have hOpen : openMark r.parser.state = some .headerField := by
      rw [hField]
      rfl
    obtain ⟨hName, x, hx, hNil⟩ : r.message.inName = true ∧ ∃ h, r.message.last = some h ∧ h.value = [] := by
      rwa [hField] at h
    simp only [byteCase, hField] at hByte
    by_cases hTok : token ch = 0
    · rw [nameCase, if_pos hTok] at hByte
      split at hByte
      · obtain ⟨rfl, rfl⟩ : _ = Q ∧ _ = acts := by simpa [HttpUtils.next] using hByte
        simp only [Move.spell, List.foldl_cons, List.foldl_nil, Live.act, hOpen, if_true, Live.consume]
        exact ⟨hName, x, hx, hNil⟩
      · simp [fail, HttpUtils.next] at hByte
    · rcases nameCase_inside (P := r.parser) hTok with hRefused | ⟨hNext, -⟩
      · rw [hByte] at hRefused
        exact absurd rfl hRefused
      · obtain ⟨rfl, rfl⟩ : Q = nameStep r.parser ch ∧
          acts = [] := by simpa [HttpUtils.next] using hByte.symm.trans hNext
        have hState : (nameStep r.parser ch).state = .sHeaderField := (headerFieldChar_state _ _ _).trans hField
        rw [hState]
        simp [Move.spell, hOpen, Live.consume, DataCb.call, Message.see, HeaderFits, hName, hx, hNil]
  by_cases hValue : r.parser.state = .sHeaderValue
  · have hOpen : openMark r.parser.state = some .headerValue := by
      rw [hValue]
      rfl
    have hLine : r.message.inName = false ∧ ∃ h, r.message.last = some h ∧ h.value ≠ [] := by rwa [hValue] at h
    rw [byteCase_value hValue] at hByte
    by_cases hEnd : ch = CR ∨ ch = LF
    · rw [valueCase] at hByte
      have hCases : acts = [.data .headerValue] ∧ (Q.state = .sHeaderAlmostDone ∨ Q.state = .sHeaderValueLws) := by
        by_cases hCr : ch = CR
        · rw [if_pos hCr] at hByte
          obtain ⟨rfl, rfl⟩ : _ = Q ∧ _ = acts := by simpa [HttpUtils.next] using hByte
          exact ⟨rfl, .inl rfl⟩
        · rw [if_neg hCr, if_pos (hEnd.resolve_left hCr)] at hByte
          obtain ⟨rfl, rfl⟩ : _ = Q ∧ _ = acts := by simpa [HttpUtils.next] using hByte
          exact ⟨rfl, .inr rfl⟩
      obtain ⟨rfl, hState⟩ := hCases
      simp only [Move.spell, List.foldl_cons, List.foldl_nil, Live.act, hOpen, if_true, Live.consume]
      rcases hState with hState | hState <;> rw [hState] <;> exact hLine
    · obtain ⟨hCr, hLf⟩ := not_or.mp hEnd
      rcases valueCase_inside (P := r.parser) hCr hLf with hRefused | ⟨hNext, -⟩
      · rw [hByte] at hRefused
        exact absurd rfl hRefused
      · obtain ⟨rfl, rfl⟩ : Q = valueStep r.parser ch ∧ acts = [] := by
          simpa [HttpUtils.next] using hByte.symm.trans hNext
        have hState : (valueStep r.parser ch).state = .sHeaderValue := (headerValueChar_state _ _ _).trans hValue
        exact (places_inValue hValue h _ hState .outer).fits
  · have hFits := (places_switch (c := ch) hField hValue h).fits
    rw [← byteCase_switch hField hValue, hByte] at hFits
    exact hFits rfl

end Reader

/-! ### One message behind another -/

namespace Message

def join (m n : Message) : Message where
  url := m.url ++ n.url
  status := n.status.or m.status
  version := n.version.or m.version
  front := match n.last with
    | none => m.front
    | some _ => m.headers ++ n.front
  last := n.last.or m.last
  inName := n.inName
  body := m.body ++ n.body
  complete := m.complete || n.complete

def Opened (n : Message) : Prop := n.last = none → n.front = [] ∧ n.inName = false

theorem Opened.see {n : Message} (h : n.Opened) (c : Callback) : (n.see c).Opened := by
  cases c with
  | onHeaderField run =>
    intro hNone
    by_cases hName : n.inName = true
    · have hSome : n.last = none := by simpa [Message.see, hName] using hNone
      rw [(h hSome).2] at hName
      cases hName
    · simp [Message.see, hName] at hNone
  | onHeaderValue run =>
    intro hNone
    have hSome : n.last = none := by simpa [Message.see] using hNone
    exact ⟨(h hSome).1, rfl⟩
  | _ => exact h

theorem join_empty {m : Message} (h : m.inName = false) : m.join {} = m := by
  obtain ⟨url, status, version, front, last, inName, body, complete⟩ := m
  obtain rfl : inName = false := h
  simp [join]

theorem headers_join {m n : Message} (h : n.Opened) : (m.join n).headers = m.headers ++ n.headers := by
  cases hLast : n.last with
  | none => simp [join, headers, hLast, (h hLast).1]
  | some x => simp [join, headers, hLast]

theorem join_see {m n : Message} (h : n.Opened) {c : Callback}
    (hValue : (∃ run, c = .onHeaderValue run) → n.last ≠ none) :
    (m.join n).see c = m.join (n.see c) := by
  cases c with
  | onHeaderField run =>
    by_cases hName : n.inName = true
    · obtain ⟨x, hx⟩ : ∃ x, n.last = some x := by
        refine Option.ne_none_iff_exists'.mp fun hNone => ?_
        rw [(h hNone).2] at hName
        cases hName
      simp [join, Message.see, hName, hx]
    · have hHeaders := headers_join (m := m) h
      have hOff : (m.join n).inName = false := by simpa [join] using hName
      simp only [Message.see, hOff, hHeaders, Bool.false_eq_true, if_false, if_neg hName]
      rfl
  | onHeaderValue run =>
    obtain ⟨x, hx⟩ := Option.ne_none_iff_exists'.mp (hValue ⟨run, rfl⟩)
    simp [join, Message.see, hx]
  | _ => simp [join, Message.see]

end Message

namespace Live

theorem acts_congr {P Q : HttpParser} {acts : List Act} (h : SameCalls P Q ∨ ∀ a ∈ acts, a = .notify .messageBegin)
    (ch : UInt8) (l : Live) : acts.foldl (act P ch) l = acts.foldl (act Q ch) l := by
  induction acts generalizing l with
  | nil => rfl
  | cons a acts ih =>
    have hHere : act P ch l a = act Q ch l a := by
      rcases h with hCalls | hBegin
      · exact act_congr hCalls ch l a
      · rw [hBegin a List.mem_cons_self]
        rfl
    rw [List.foldl_cons, List.foldl_cons, hHere]
    exact ih (h.imp id fun hBegin b hb => hBegin b (List.mem_cons_of_mem a hb)) _

structure Attached (l : Live) : Prop where
  opened : l.message.Opened
  value : l.message.last ≠ none ∨ l.mark ≠ some .headerValue

theorem last_see {n : Message} (h : n.last ≠ none) (c : Callback) : (n.see c).last ≠ none := by
  cases c with
  | onHeaderField run =>
    simp only [Message.see]
    split
    · simpa using h
    · simp
  | onHeaderValue run => simpa [Message.see] using h
  | _ => exact h

theorem Attached.act {l : Live} {a : Act} (h : l.Attached) (hValue : l.message.last ≠ none ∨ a ≠ .mark .headerValue)
    (P : HttpParser) (ch : UInt8) (m : Message) :
    (l.act P ch a).Attached ∧
      Live.act P ch ⟨l.mark, m.join l.message⟩ a = ⟨(l.act P ch a).mark, m.join (l.act P ch a).message⟩ := by
  have hSee {c : Callback} (hc : (∃ run, c = .onHeaderValue run) → l.message.last ≠ none) :
      (m.join l.message).see c = m.join (l.message.see c) := Message.join_see h.opened hc
  cases a with
  | mark k =>
    have hLast (hk : k = .headerValue) : l.message.last ≠ none := hValue.resolve_right (by simp [hk])
    refine ⟨⟨h.opened.see _, ?_⟩, ?_⟩
    · by_cases hk : k = .headerValue
      · exact .inl (last_see (hLast hk) _)
      · exact .inr (by simpa [Live.act] using hk)
    · simp only [Live.act]
      rw [hSee]
      rintro ⟨run, hRun⟩
      cases k <;> simp [DataCb.call] at hRun
      exact hLast rfl
  | data k =>
    simp only [Live.act]
    split
    · exact ⟨⟨h.opened, .inr (by simp)⟩, rfl⟩
    · exact ⟨h, rfl⟩
  | dataThrough k =>
    simp only [Live.act]
    split
    · rename_i hMark
      refine ⟨⟨h.opened.see _, .inr (by simp)⟩, ?_⟩
      rw [hSee]
      rintro ⟨run, hRun⟩
      cases k <;> simp [DataCb.call] at hRun
      exact h.value.resolve_right (by simp [hMark])
    · exact ⟨h, rfl⟩
  | notify k =>
    refine ⟨⟨h.opened.see _, h.value.imp (fun hLast => last_see hLast _) id⟩, ?_⟩
    simp only [Live.act]
    rw [hSee]
    rintro ⟨run, hRun⟩
    cases k <;> simp [NotifyCb.call] at hRun
  | advance n => exact ⟨h, rfl⟩

theorem Attached.acts {l : Live} {acts : List Act} (h : l.Attached)
    (hValue : l.message.last ≠ none ∨ .mark .headerValue ∉ acts) (P : HttpParser) (ch : UInt8) (m : Message) :
    (acts.foldl (Live.act P ch) l).Attached ∧ acts.foldl (Live.act P ch) ⟨l.mark, m.join l.message⟩ =
      ⟨(acts.foldl (Live.act P ch) l).mark, m.join (acts.foldl (Live.act P ch) l).message⟩ := by
  induction acts generalizing l with
  | nil => exact ⟨h, rfl⟩
  | cons a acts ih =>
    obtain ⟨hNext, hJoin⟩ := h.act (a := a) (hValue.imp id fun hNot hEq => hNot (hEq ▸ List.mem_cons_self)) P ch m
    rw [List.foldl_cons, List.foldl_cons, hJoin]
    refine ih hNext ?_
    rcases hValue with hLast | hNot
    · left
      cases a with
      | mark k | notify k => exact last_see hLast _
      | data k | dataThrough k =>
        simp only [Live.act]
        split
        · first | exact hLast | exact last_see hLast _
        · exact hLast
      | advance n => exact hLast
    · exact .inr fun hMem => hNot (List.mem_cons_of_mem a hMem)

theorem Attached.consume {l : Live} (h : l.Attached) (P : HttpParser) (ch : UInt8) (m : Message) :
    (l.consume P ch).Opened ∧ Live.consume P ch ⟨l.mark, m.join l.message⟩ = m.join (l.consume P ch) := by
  unfold Live.consume
  cases hMark : l.mark with
  | none => exact ⟨h.opened, rfl⟩
  | some k =>
    refine ⟨h.opened.see _, Message.join_see h.opened ?_⟩
    rintro ⟨run, hRun⟩
    cases k <;> simp [DataCb.call] at hRun
    exact h.value.resolve_right (by simp [hMark])

end Live

def Outcome.NoValue (o : Outcome) : Prop := .mark .headerValue ∉ o.acts

theorem Outcome.NoValue.ite {p : Prop} [Decidable p] {a b : Outcome} (hThen : a.NoValue) (hElse : b.NoValue) :
    (if p then a else b).NoValue := by
  split
  · exact hThen
  · exact hElse

theorem Outcome.NoValue.after {o : Outcome} (h : o.NoValue) {acts : List Act} (hActs : .mark .headerValue ∉ acts) :
    (o.after acts).NoValue := by
  rw [Outcome.NoValue, Outcome.after, List.mem_append, not_or]
  exact ⟨hActs, h⟩

theorem noValue_headersDone (P : HttpParser) (ch : UInt8) : (headersDoneCase P ch).NoValue := by
  simp only [headersDoneCase]
  repeat' refine .ite ?_ ?_
  all_goals simp [Outcome.NoValue, fail, next]

theorem noValue_headersAlmostDone (P : HttpParser) (ch : UInt8) : (headersAlmostDoneCase P ch).NoValue := by
  have hFail (e : HttpErrno) : (fail P e).NoValue := by simp [Outcome.NoValue, fail]
  simp only [headersAlmostDoneCase]
  refine .ite (hFail _) (.ite ?_ (.ite (hFail _) ((noValue_headersDone _ ch).after (by simp))))
  simp [Outcome.NoValue, Outcome.after, messageDoneCase]

theorem noValue_headerFieldStart (P : HttpParser) (ch : UInt8) : (headerFieldStartCase P ch).NoValue := by
  simp only [headerFieldStartCase]
  refine .ite ?_ (.ite (noValue_headersAlmostDone _ ch) (.ite ?_ ?_))
  all_goals simp [Outcome.NoValue, fail, next]

theorem byteCase_noValue {P : HttpParser} {n : Message} (hFits : HeaderFits P.state n) (ch : UInt8) :
    n.last ≠ none ∨ openMark P.state ≠ some .headerValue ∧ (byteCase P ch).NoValue := by
  cases hs : P.state <;> rw [hs] at hFits
  case sHeaderField | sHeaderValueDiscardWs | sHeaderValueDiscardWsAlmostDone | sHeaderValueDiscardLws | sHeaderValue
    | sHeaderValueLws | sHeaderAlmostDone =>
    obtain ⟨-, x, hx, -⟩ := hFits
    exact .inl (by simp [hx])
  case sHeaderValueStart => cases hFits
  all_goals
    refine .inr ⟨by simp [openMark], ?_⟩
    simp only [byteCase, hs, switch, startResCase, expect, majorDigit, firstMinorDigit, minorDigit, resStatusCodeCase,
      startReqCase, reqMethodCase, reqSpacesBeforeUrlCase, reqSchemaCase, reqUrlCase, urlStep, messageDoneCase,
      chunkSizeStartCase, chunkSizeCase, chunkSizeAlmostDoneCase, chunkDataCase, bodyIdentityEofCase]
  case sHeaderFieldStart => exact noValue_headerFieldStart _ _
  case sHeadersAlmostDone => exact noValue_headersAlmostDone _ _
  case sHeadersDone => exact noValue_headersDone _ _
  case sBodyIdentity =>
    simp only [bodyIdentityCase]
    exact .ite (by simp [Outcome.NoValue, messageDoneCase, Outcome.after]) (by simp [Outcome.NoValue, next])
  all_goals
    repeat' first | refine Outcome.NoValue.ite ?_ ?_ | split
    all_goals simp [Outcome.NoValue, next, fail]

/-! ### A reader behind a message -/

theorem Move.spell_congr {P Q : HttpParser} {v w : Move} (hState : P.state = Q.state) (hActs : v.acts = w.acts)
    (hCalls : SameCalls v.parser w.parser ∨ openMark P.state = none ∧ ∀ a ∈ v.acts, a = .notify .messageBegin)
    (ch : UInt8) (m : Message) : v.spell P ch m = w.spell Q ch m := by
  have hLive (l : Live) : w.acts.foldl (Live.act v.parser ch) l = w.acts.foldl (Live.act w.parser ch) l :=
    Live.acts_congr (hCalls.imp id fun hBegin a ha => hBegin.2 a (hActs ▸ ha)) ch l
  simp only [Move.spell, hActs, hState, hLive]
  rcases hCalls with hCalls | ⟨hOpen, hBegin⟩
  · exact Live.consume_congr hCalls ch _
  · have hMark : (w.acts.foldl (Live.act w.parser ch) ⟨openMark Q.state, m⟩).mark = none := by
      rw [hActs] at hBegin
      rw [hState] at hOpen
      rw [hOpen]
      clear hLive hActs
      generalize w.acts = acts at hBegin
      induction acts generalizing m with
      | nil => rfl
      | cons a acts ih =>
        rw [List.foldl_cons, hBegin a List.mem_cons_self]
        exact ih _ fun b hb => hBegin b (List.mem_cons_of_mem a hb)
    simp only [Live.consume, hMark]

namespace Reader

/-- The reader `r` reads behind the message `m` what `r'` reads for itself. -/
structure Continues (m : Message) (r r' : Reader) : Prop where
  type : r.parser.type = .httpResponse
  line : r.parser.state.linePart = none
  parser : r.parser.relevant = r'.parser.relevant
  message : r.message = m.join r'.message
  opened : r'.message.Opened
  fits : HeaderFits r'.parser.state r'.message

theorem Continues.state {m : Message} {r r' : Reader} (h : r.Continues m r') : r.parser.state = r'.parser.state := by
  rw [← (relevant_frame r.parser).2, h.parser, (relevant_frame r'.parser).2]

theorem continues_step (m : Message) : PartialRun.Simulates step step fun r' r => r.Continues m r' := by
  intro r' r ch t' h hStep
  have hFits := fits_step h.fits hStep
  obtain ⟨w, hMove, rfl⟩ := Option.map_eq_some_iff.mp hStep
  obtain ⟨hFlow, rfl⟩ := Outcome.move_eq_some hMove
  have hAlike := byteCase_resembles h.type h.parser ch
  have hMove' : (byteCase r.parser ch).move = some ⟨(byteCase r.parser ch).acts, (byteCase r.parser ch).parser,
      .outer⟩ := by
    rw [Outcome.move, hAlike.flow, hFlow]
  have hStart : Live.Attached ⟨openMark r'.parser.state, r'.message⟩ :=
    ⟨h.opened, (byteCase_noValue h.fits ch).imp id And.left⟩
  obtain ⟨hActs, hJoin⟩ := hStart.acts ((byteCase_noValue h.fits ch).imp id And.right)
    (byteCase r'.parser ch).parser ch m
  obtain ⟨hOpened, hSpell⟩ := hActs.consume (byteCase r'.parser ch).parser ch m
  have hResponds := byteCase_responds h.type h.line ch
  refine ⟨_, congrArg (Option.map _) hMove',
    ⟨hResponds.type.trans h.type, hResponds.line, hAlike.parser, ?_, hOpened, hFits⟩⟩
  have hCongr : Move.spell r.parser ch ⟨(byteCase r.parser ch).acts, (byteCase r.parser ch).parser, .outer⟩
      r.message =
      Move.spell r'.parser ch ⟨(byteCase r'.parser ch).acts, (byteCase r'.parser ch).parser, .outer⟩
        (m.join r'.message) := by
    rw [h.message]
    exact Move.spell_congr h.state hAlike.acts hAlike.calls ch _
  refine hCongr.trans ?_
  simp only [Move.spell]
  rw [hJoin]
  exact hSpell

theorem Continues.run {m : Message} {r r' t' : Reader} {b : Bytes} (h : r.Continues m r')
    (hRun : r'.run b = some t') :
    ∃ t, r.run b = some t ∧ t.Continues m t' := (continues_step m).run h hRun

structure Responding (r : Reader) : Prop where
  type : r.parser.type = .httpResponse
  line : r.parser.state.linePart = none
  method : r.parser.method = .delete
  nread : r.parser.nread = 0
  errno : r.parser.httpErrno = .ok

theorem responding_step : PartialRun.Preserves step Responding := by
  intro r ch t h hStep
  obtain ⟨v, hMove, rfl⟩ := Option.map_eq_some_iff.mp hStep
  obtain ⟨hFlow, rfl⟩ := Outcome.move_eq_some hMove
  have hResponds := byteCase_responds h.type h.line ch
  have hKeeps := byteCase_keeps r.parser ch
  refine ⟨hResponds.type.trans h.type, hResponds.line, hResponds.method.trans h.method, ?_, ?_⟩
  · exact Nat.le_zero.mp (hKeeps.nread.trans h.nread.le)
  · exact (hKeeps.errno (by simp [hFlow])).trans h.errno

theorem responding_fresh : (freshReader .httpResponse).Responding := ⟨rfl, rfl, rfl, rfl, rfl⟩

/-- A message that becomes complete is followed by the next one. -/
theorem newMessage_step {r t : Reader} {ch : UInt8} (hStep : r.step ch = some t) (hOpen : r.message.complete = false)
    (hDone : t.message.complete = true) : t.parser.state = newMessage t.parser := by
  obtain ⟨v, hMove, rfl⟩ := Option.map_eq_some_iff.mp hStep
  obtain ⟨hFlow, rfl⟩ := Outcome.move_eq_some hMove
  have hMem : .notify .messageComplete ∈ (byteCase r.parser ch).acts := by
    rcases (Move.spell_complete _ _ _ _).mp hDone with hBefore | hMem
    · rw [hOpen] at hBefore
      cases hBefore
    · exact hMem
  by_cases hField : r.parser.state = .sHeaderField
  · simp only [byteCase, hField, nameCase] at hMem
    repeat' split at hMem
    all_goals simp [next, fail] at hMem
  by_cases hValue : r.parser.state = .sHeaderValue
  · simp only [byteCase, hValue, valueCase] at hMem
    repeat' split at hMem
    all_goals simp [next] at hMem
  rw [byteCase_switch hField hValue] at hMem hFlow
  dsimp only
  rw [byteCase_switch hField hValue]
  exact ((switch_ends r.parser ch hField hValue).complete hFlow hMem).1

theorem dead_step {r t : Reader} {ch : UInt8} (hDead : r.parser.state = .sDead) (hStep : r.step ch = some t) :
    (ch = CR ∨ ch = LF) ∧ t.parser.state = .sDead := by
  obtain ⟨v, hMove, rfl⟩ := Option.map_eq_some_iff.mp hStep
  obtain ⟨hFlow, rfl⟩ := Outcome.move_eq_some hMove
  have hCase : byteCase r.parser ch = if ch = CR ∨ ch = LF then next r.parser else fail r.parser
      .closedConnection := by
    simp [byteCase, hDead, switch]
  rw [hCase] at hFlow ⊢
  split at hFlow
  · rename_i hBreak
    rw [if_pos hBreak]
    exact ⟨hBreak, hDead⟩
  · exact absurd hFlow (fail_flow _ _)

theorem dead_run {r t : Reader} {b : Bytes} (hDead : r.parser.state = .sDead) (hRun : r.run b = some t) :
    ∀ c ∈ b, c = CR ∨ c = LF := by
  induction b generalizing r with
  | nil => simp
  | cons ch b ih =>
    obtain ⟨q, hStep, hRest⟩ := PartialRun.run_cons_eq_some.mp hRun
    obtain ⟨hBreak, hNext⟩ := dead_step hDead hStep
    intro c hc
    rcases List.mem_cons.mp hc with rfl | hc
    · exact hBreak
    · exact ih hNext hRest c hc

theorem start_step {r t : Reader} {ch : UInt8} (hState : r.parser.state = .sStartRes) (hBreak : ch = CR ∨ ch = LF)
    (hStep : r.step ch = some t) : t.parser.state = .sStartRes ∧ t.message.complete = r.message.complete := by
  obtain ⟨v, hMove, rfl⟩ := Option.map_eq_some_iff.mp hStep
  obtain ⟨hFlow, rfl⟩ := Outcome.move_eq_some hMove
  have hH : ch ≠ 'H' := by rcases hBreak with rfl | rfl <;> decide
  have hCase : byteCase r.parser ch =
      next { r.parser with flags := {}, contentLength := ullongMax } [.notify .messageBegin] := by
    simp only [byteCase, hState, switch, startResCase, if_neg hH, if_pos hBreak]
  rw [hCase]
  refine ⟨hState, ?_⟩
  rw [Bool.eq_iff_iff, Move.spell_complete]
  simp [next]

theorem start_run {r t : Reader} {b : Bytes} (hState : r.parser.state = .sStartRes)
    (hBreaks : ∀ c ∈ b, c = CR ∨ c = LF)
    (hRun : r.run b = some t) : t.message.complete = r.message.complete := by
  induction b generalizing r with
  | nil => rw [Option.some.inj hRun]
  | cons ch b ih =>
    obtain ⟨q, hStep, hRest⟩ := PartialRun.run_cons_eq_some.mp hRun
    obtain ⟨hNext, hSame⟩ := start_step hState (hBreaks ch List.mem_cons_self) hStep
    exact (ih hNext (fun c hc => hBreaks c (List.mem_cons_of_mem ch hc)) hRest).trans hSame

/-- Behind a message that leaves the connection open the next one is read as by a new reader. -/
theorem Continues.renew {m : Message} {r e : Reader} (h : r.Continues m e) (hResponding : e.Responding)
    (hState : e.parser.state = .sStartRes) (hUpgrade : e.parser.upgrade = false) :
    r.Continues r.message (freshReader .httpResponse) where
  type := h.type
  line := h.line
  parser := by
    rw [h.parser]
    obtain ⟨hType, -, hMethod, hNread, hErrno⟩ := hResponding
    unfold HttpParser.relevant
    rw [hState]
    simp only [HttpParser.offLine, hType, hMethod, hNread, hErrno, hState, hUpgrade]
    rfl
  message := by
    have hName : e.message.inName = false := by
      have hFits := h.fits
      rw [hState] at hFits
      exact hFits
    refine (Message.join_empty ?_).symm
    rw [h.message]
    exact hName
  opened := fun _ => ⟨rfl, rfl⟩
  fits := rfl

end Reader

end HttpUtils
