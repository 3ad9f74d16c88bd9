import HttpUtils.HttpParser.HeaderLine
import HttpUtils.Decimal

/-!
# Passing over the header lines and the body

A header line may begin in three states, since only the byte after its line feed tells that the line
before has ended. `Reader.AtLine` is what they have in common.
-/

namespace HttpUtils
set_option autoImplicit false

theorem actsLose_append (P : HttpParser) (ch : UInt8) (l : Live) (a b : List Act) :
    ActsLose P ch l (a ++ b) ↔ ActsLose P ch l a ∨ ActsLose P ch (a.foldl (Live.act P ch) l) b := by
  induction a generalizing l with
  | nil => simp [ActsLose]
  | cons x a ih => simp only [List.cons_append, ActsLose, ih, List.foldl_cons, or_assoc]

/-- A header line of its own. -/
def Message.addHeader (m : Message) (h : Header) : Message :=
  { m with front := m.headers, last := some h, inName := false }

theorem Message.see_header {m : Message} (hName : m.inName = false) (h : Header) :
    (m.see (.onHeaderField h.name)).see (.onHeaderValue h.value) = m.addHeader h := by
  simp [see, hName, addHeader, headers]

theorem Message.headers_addHeader (m : Message) (h : Header) : (m.addHeader h).headers = m.headers ++ [h] := rfl

namespace Reader

/-- For every byte but a blank the reader is at the start of a line, with the parser `P` and the
message `m`. -/
structure Starts (r : Reader) (P : HttpParser) (m : Message) : Prop where
  step : ∀ c, c ≠ SP → c ≠ HT → ∃ acts, byteCase r.parser c = (headerFieldStartCase P c).after acts ∧
    ∀ Q, acts.foldl (Live.act Q c) ⟨openMark r.parser.state, r.message⟩ = ⟨none, m⟩ ∧
      ¬ ActsLose Q c ⟨openMark r.parser.state, r.message⟩ acts
  state : P.state = .sHeaderFieldStart
  name : r.parser.state ≠ .sHeaderField
  complete : r.message.complete = m.complete

theorem Starts.first {r : Reader} (hState : r.parser.state = .sHeaderFieldStart) : r.Starts r.parser r.message where
  step c _ _ := by
    refine ⟨[], ?_, fun Q => ⟨?_, id⟩⟩
    · simp only [byteCase, hState, switch]
      rfl
    · rw [hState]
      rfl
  state := hState
  name := by rw [hState]; simp
  complete := rfl

/-- The parser once the line before has ended. -/
def lineEnded (P : HttpParser) : HttpParser :=
  { P with flags := finishHeaderFlags P.headerState P.flags, state := .sHeaderFieldStart }

theorem Starts.afterValue {r : Reader} (hState : r.parser.state = .sHeaderValueLws) :
    r.Starts (lineEnded r.parser) r.message where
  step c hSp hHt := by
    refine ⟨[], ?_, fun Q => ⟨?_, id⟩⟩
    · simp only [byteCase, hState, switch, headerValueLwsCase]
      rw [if_neg (by tauto)]
      rfl
    · rw [hState]
      rfl
  state := rfl
  name := by rw [hState]; simp
  complete := rfl

theorem Starts.afterEmpty {r : Reader} (hState : r.parser.state = .sHeaderValueDiscardLws)
    (hLoss : ¬ r.message.LosesAt .headerValue) :
    r.Starts (lineEnded r.parser) (r.message.see (.onHeaderValue [])) where
  step c hSp hHt := by
    refine ⟨[.mark .headerValue, .data .headerValue], ?_, fun Q => ⟨?_, ?_⟩⟩
    · simp only [byteCase, hState, switch, headerValueDiscardLwsCase]
      rw [if_neg (by tauto)]
      rfl
    · simp [Live.act, DataCb.call]
    · simp only [ActsLose, Act.Loses, or_false]
      exact hLoss
  state := rfl
  name := by rw [hState]; simp
  complete := rfl

/-- The start of a line inside a message that is still open. -/
structure AtLine (r : Reader) (P : HttpParser) (m : Message) : Prop where
  step : ∀ c, c ≠ SP → c ≠ HT → ∃ acts, byteCase r.parser c = (headerFieldStartCase P c).after acts ∧
    ∀ Q, acts.foldl (Live.act Q c) ⟨openMark r.parser.state, r.message⟩ = ⟨none, m⟩ ∧
      ¬ ActsLose Q c ⟨openMark r.parser.state, r.message⟩ acts
  state : P.state = .sHeaderFieldStart
  value : r.parser.state ≠ .sHeaderValue
  complete : r.message.complete = false
  upgrade : r.parser.upgrade = false

theorem AtLine.first {r : Reader} (hState : r.parser.state = .sHeaderFieldStart)
    (hComplete : r.message.complete = false) (hUpgrade : r.parser.upgrade = false) :
    r.AtLine r.parser r.message where
  step := (Starts.first hState).step
  state := hState
  value := by rw [hState]; simp
  complete := hComplete
  upgrade := hUpgrade

theorem AtLine.afterValue {r : Reader} (hState : r.parser.state = .sHeaderValueLws)
    (hComplete : r.message.complete = false) (hUpgrade : r.parser.upgrade = false) :
    r.AtLine (lineEnded r.parser) r.message where
  step := (Starts.afterValue hState).step
  state := rfl
  value := by rw [hState]; simp
  complete := hComplete
  upgrade := hUpgrade

theorem AtLine.afterEmpty {r : Reader} (hState : r.parser.state = .sHeaderValueDiscardLws)
    (hComplete : r.message.complete = false) (hUpgrade : r.parser.upgrade = false)
    (hLoss : ¬ r.message.LosesAt .headerValue) :
    r.AtLine (lineEnded r.parser) (r.message.see (.onHeaderValue [])) where
  step := (Starts.afterEmpty hState hLoss).step
  state := rfl
  value := by rw [hState]; simp
  complete := hComplete
  upgrade := hUpgrade

theorem AtLine.enter {r : Reader} {P Q : HttpParser} {m : Message} (h : r.AtLine P m) {c : UInt8} {acts : List Act}
    (hSp : c ≠ SP) (hHt : c ≠ HT) (hCase : headerFieldStartCase P c = HttpUtils.next Q acts)
    (hLoss : ¬ ActsLose Q c ⟨none, m⟩ acts) (hFed : r.fed < room) :
    r.Passes [c] ⟨Q, Move.spell P c ⟨acts, Q, .outer⟩ m, r.fed + 1⟩ := by
  obtain ⟨pre, hByte, hPre⟩ := h.step c hSp hHt
  obtain ⟨hLive, hLossless⟩ := hPre Q
  rw [hCase] at hByte
  have hByte' : byteCase r.parser c = HttpUtils.next Q (pre ++ acts) := hByte
  have hOpen : openMark P.state = none := by
    rw [h.state]
    rfl
  have hSpell : Move.spell r.parser c ⟨pre ++ acts, Q, .outer⟩ r.message = Move.spell P c ⟨acts, Q, .outer⟩ m := by
    simp only [Move.spell, List.foldl_append, hLive, hOpen]
  refine .single ((step_of_next hByte').trans ?_) ⟨clean_of_room hFed fun hState => absurd hState h.value,
    h.complete, h.upgrade, ?_⟩
  · rw [hSpell]
  · rw [loses_iff_of_next hByte', actsLose_append, hLive]
    exact fun hLost => hLost.elim hLossless hLoss

end Reader

/-! ### The name of a line -/

def nameStart (P : HttpParser) (c : UInt8) : HttpParser :=
  { P with index := 0, state := .sHeaderField, headerState := headerFieldStartState (token c) }

theorem InName.start {P : HttpParser} (c : UInt8) : InName P [token c] (nameStart P c) := by
  refine ⟨rfl, ?_, .inl (.move P .sHeaderField _ 0)⟩
  have hPrefixed {keyword : Bytes} {d : UInt8} (hd : token c = d) (hk : [d] = keyword.take 1 ∧ 1 < keyword.length) :
      Prefixed keyword [token c] 0 := by
    rw [hd]
    exact hk
  show NameState [token c] 0 (headerFieldStartState (token c))
  unfold headerFieldStartState
  split
  · rename_i hc
    rw [hc]
    exact ⟨rfl, rfl⟩
  split
  · exact hPrefixed ‹_› (by decide +kernel)
  split
  · exact hPrefixed ‹_› (by decide +kernel)
  split
  · exact hPrefixed ‹_› (by decide +kernel)
  · trivial

theorem startCase_of_token {P : HttpParser} {c : UInt8} (hTok : token c ≠ 0) :
    headerFieldStartCase P c = next (nameStart P c) [.mark .headerField] := by
  have hCr : c ≠ CR := by
    rintro rfl
    exact hTok (by decide)
  have hLf : c ≠ LF := by
    rintro rfl
    exact hTok (by decide)
  rw [headerFieldStartCase, if_neg hCr, if_neg hLf, if_neg hTok]
  rfl

namespace Reader

theorem AtLine.name {r : Reader} {P : HttpParser} {m : Message} (h : r.AtLine P m) {c : UInt8} {s : Bytes}
    (hTok : ∀ ch ∈ c :: s, token ch ≠ 0) (hErrno : P.httpErrno = .ok) (hUpgrade : P.upgrade = false)
    (hFlag : P.flags.fContentlength = false) (hName : m.inName = false) (hComplete : m.complete = false)
    (hFed : r.fed + (s.length + 3) ≤ room) :
    InName P ((c :: s).map token) (s.foldl nameStep (nameStart P c)) ∧
      r.Passes (c :: s ++ nameValueSeparator)
        ⟨{ s.foldl nameStep (nameStart P c) with state := .sHeaderValueDiscardWs },
          m.see (.onHeaderField (c :: s)), r.fed + (s.length + 3)⟩ := by
  have hc : token c ≠ 0 := hTok c List.mem_cons_self
  have hSp : c ≠ SP := by
    rintro rfl
    exact hc (by decide)
  have hHt : c ≠ HT := by
    rintro rfl
    exact hc (by decide)
  have hIn (u : Bytes) (hu : ∀ ch ∈ u, token ch ≠ 0) :
      InName P (token c :: u.map token) (u.foldl nameStep (nameStart P c)) := (InName.start c).foldl hFlag hu
  have hEnter := h.enter hSp hHt (startCase_of_token hc)
    (by simp [ActsLose, Act.Loses, Message.LosesAt, hName]) (by omega)
  have hSpell : Move.spell P c ⟨[.mark .headerField], nameStart P c, .outer⟩ m = m.see (.onHeaderField [c]) := by
    have hOpen : openMark P.state = none := by
      rw [h.state]
      rfl
    simp only [Move.spell, List.foldl_cons, List.foldl_nil, Live.act, Live.consume, Message.see_split]
    rfl
  obtain ⟨q, hRest, hParser, Q, hMessage⟩ := passes_within (k := .headerField) (f := nameStep) (s := s) (w := [c])
    (r := ⟨nameStart P c, Move.spell P c ⟨[.mark .headerField], nameStart P c, .outer⟩ m, r.fed + 1⟩) (m := m)
    (by
      intro u ch v hs
      have hCh : token ch ≠ 0 := hTok ch (by simp [hs])
      have hPre := hIn u fun d hd => hTok d (by simp [hs, hd])
      have hPost := hPre.step (.inl hFlag) hCh
      refine ⟨?_, by rw [hPre.state]; rfl, hPre.upgrade.trans hUpgrade, fun hValue => ?_⟩
      · simp only [byteCase, hPre.state, nameCase, if_neg hCh]
        exact if_neg (not_not.mpr (hPost.errno.trans hErrno))
      · exact absurd (hPre.state.symm.trans hValue) (by decide))
    (by simp only; omega) ⟨P, hSpell⟩ hComplete
  have hAll := hIn s fun d hd => hTok d (List.mem_cons_of_mem _ hd)
  refine ⟨hAll, ?_⟩
  obtain ⟨qP, qm, qf⟩ := q
  obtain rfl : qP = s.foldl nameStep (nameStart P c) := hParser
  obtain rfl : qm = m.see (.onHeaderField (c :: s)) := hMessage
  have hqf : qf = r.fed + 1 + s.length := hRest.fed
  have hColon : byteCase (s.foldl nameStep (nameStart P c)) ':' =
      HttpUtils.next { s.foldl nameStep (nameStart P c) with state := .sHeaderValueDiscardWs }
        [.data .headerField] := by
    simp only [byteCase, hAll.state, nameCase]
    rfl
  have hMarked : openMark (s.foldl nameStep (nameStart P c)).state = some .headerField := by
    rw [hAll.state]
    rfl
  have hSeen : (m.see (.onHeaderField (c :: s))).complete = false := by
    simp only [Message.see, hName, Bool.false_eq_true, if_false]
    exact hComplete
  have hOff : (s.foldl nameStep (nameStart P c)).upgrade = false := hAll.upgrade.trans hUpgrade
  have hStep := step_of_next (r := ⟨s.foldl nameStep (nameStart P c), m.see (.onHeaderField (c :: s)), qf⟩) hColon
  simp only [Move.spell, List.foldl_cons, List.foldl_nil, Live.act, hMarked, if_true, Live.consume] at hStep
  have hColonPasses : Reader.Passes ⟨s.foldl nameStep (nameStart P c), m.see (.onHeaderField (c :: s)), qf⟩ [':']
      ⟨{ s.foldl nameStep (nameStart P c) with state := .sHeaderValueDiscardWs },
        m.see (.onHeaderField (c :: s)), qf + 1⟩ := by
    refine .single hStep ⟨clean_of_room (by simp only; omega) fun hValue => ?_, hSeen, hOff, ?_⟩
    · exact absurd (hAll.state.symm.trans hValue) (by decide)
    · rw [loses_iff_of_next hColon]
      simp [ActsLose, Act.Loses]
  have hBlank := passes_quiet (r := ⟨{ s.foldl nameStep (nameStart P c) with state := .sHeaderValueDiscardWs },
      m.see (.onHeaderField (c :: s)), qf + 1⟩) (c := SP) rfl (by simp only; omega) rfl hSeen hOff
  have hEnd : qf + 1 + 1 = r.fed + (s.length + 3) := by omega
  rw [← hEnd]
  exact (hEnter.trans hRest).trans (hColonPasses.trans hBlank)

end Reader

/-! ### The value of a line -/

/-- The bytes of a value, and no CR or LF among them. -/
def isValueByte (c : UInt8) : Bool := isHeaderChar c && c != CR && c != LF

theorem isValueByte_spec {c : UInt8} (h : isValueByte c = true) : c ≠ CR ∧ c ≠ LF ∧ isHeaderChar c = true := by
  simp only [isValueByte, Bool.and_eq_true, bne_iff_ne] at h
  exact ⟨h.1.2, h.2, h.1.1⟩

structure Valued (P : HttpParser) : Prop where
  state : P.state = .sHeaderValue
  errno : P.httpErrno = .ok
  upgrade : P.upgrade = false

namespace Reader

theorem passes_value {r : Reader} {v : UInt8} {s : Bytes} {Q : HttpParser}
    (hState : r.parser.state = .sHeaderValueDiscardWs) (hBlank : v ≠ SP ∧ v ≠ HT)
    (hBytes : ∀ ch ∈ v :: s, isValueByte ch = true)
    (hStart : headerValueStartCase r.parser v = HttpUtils.next Q [.mark .headerValue])
    (hValued : ∀ u, u <+: s → Valued (u.foldl valueStep Q)) (hComplete : r.message.complete = false)
    (hUpgrade : r.parser.upgrade = false) (hLoss : ¬ r.message.LosesAt .headerValue)
    (hFed : r.fed + (s.length + 3) ≤ room) :
    r.Passes (v :: s ++ crlf) ⟨{ s.foldl valueStep Q with state := .sHeaderValueLws },
      r.message.see (.onHeaderValue (v :: s)), r.fed + (s.length + 3)⟩ := by
  obtain ⟨hCr, hLf, -⟩ := isValueByte_spec (hBytes v List.mem_cons_self)
  have hFirst : byteCase r.parser v = HttpUtils.next Q [.mark .headerValue] := by
    simp only [byteCase, hState, switch, headerValueDiscardWsCase]
    rw [if_neg (by tauto), if_neg hCr, if_neg hLf, hStart]
  have hStep := step_of_next hFirst
  have hSpell : Move.spell r.parser v ⟨[.mark .headerValue], Q, .outer⟩ r.message =
      r.message.see (.onHeaderValue [v]) := by
    simp only [Move.spell, List.foldl_cons, List.foldl_nil, Live.act, Live.consume, Message.see_split]
    rfl
  rw [hSpell] at hStep
  have hEnter : r.Passes [v] ⟨Q, r.message.see (.onHeaderValue [v]), r.fed + 1⟩ := by
    refine .single hStep ⟨clean_of_room (by omega) fun hValue => ?_, hComplete, hUpgrade, ?_⟩
    · rw [hState] at hValue
      cases hValue
    · rw [loses_iff_of_next hFirst]
      simpa only [ActsLose, Act.Loses, or_false] using hLoss
  obtain ⟨q, hRest, hParser, R, hMessage⟩ := passes_within (k := .headerValue) (f := valueStep) (s := s) (w := [v])
    (r := ⟨Q, r.message.see (.onHeaderValue [v]), r.fed + 1⟩) (m := r.message) (by
      intro u ch w hs
      obtain ⟨hCr', hLf', hChar⟩ := isValueByte_spec (hBytes ch (by simp [hs]))
      have hPre := hValued u ⟨ch :: w, hs.symm⟩
      have hPost : Valued ((u ++ [ch]).foldl valueStep Q) := hValued (u ++ [ch]) ⟨w, by simp [hs]⟩
      rw [List.foldl_append, List.foldl_cons, List.foldl_nil] at hPost
      refine ⟨?_, by rw [hPre.state]; rfl, hPre.upgrade, fun _ => .inr (.inr hChar)⟩
      simp only [byteCase, hPre.state, valueCase, if_neg hCr', if_neg hLf']
      exact if_neg (not_not.mpr hPost.errno))
    (by simp only; omega) ⟨Q, rfl⟩ hComplete
  obtain ⟨qP, qm, qf⟩ := q
  obtain rfl : qP = s.foldl valueStep Q := hParser
  obtain rfl : qm = r.message.see (.onHeaderValue (v :: s)) := hMessage
  have hqf : qf = r.fed + 1 + s.length := hRest.fed
  have hEnd := hValued s (List.prefix_refl s)
  have hCrCase : byteCase (s.foldl valueStep Q) CR =
      HttpUtils.next { s.foldl valueStep Q with state := .sHeaderAlmostDone } [.data .headerValue] := by
    simp only [byteCase, hEnd.state, valueCase]
    rfl
  have hMarked : openMark (s.foldl valueStep Q).state = some .headerValue := by
    rw [hEnd.state]
    rfl
  have hCrStep := step_of_next (r := ⟨s.foldl valueStep Q, r.message.see (.onHeaderValue (v :: s)), qf⟩) hCrCase
  simp only [Move.spell, List.foldl_cons, List.foldl_nil, Live.act, hMarked, if_true, Live.consume] at hCrStep
  have hCrPasses : Reader.Passes ⟨s.foldl valueStep Q, r.message.see (.onHeaderValue (v :: s)), qf⟩ [CR]
      ⟨{ s.foldl valueStep Q with state := .sHeaderAlmostDone }, r.message.see (.onHeaderValue (v :: s)),
        qf + 1⟩ := by
    refine .single hCrStep ⟨clean_of_room (by simp only; omega) fun _ => .inl rfl, hComplete, hEnd.upgrade, ?_⟩
    rw [loses_iff_of_next hCrCase]
    simp [ActsLose, Act.Loses]
  have hLfPasses := passes_quiet (r := ⟨{ s.foldl valueStep Q with state := .sHeaderAlmostDone },
    r.message.see (.onHeaderValue (v :: s)), qf + 1⟩) (c := LF) rfl (by simp only; omega) rfl hComplete hEnd.upgrade
  have hFedEnd : qf + 1 + 1 = r.fed + (s.length + 3) := by omega
  rw [← hFedEnd]
  exact (hEnter.trans hRest).trans (hCrPasses.trans hLfPasses)

theorem passes_noValue {r : Reader} (hState : r.parser.state = .sHeaderValueDiscardWs)
    (hComplete : r.message.complete = false) (hUpgrade : r.parser.upgrade = false) (hFed : r.fed + 2 ≤ room) :
    r.Passes crlf ⟨{ r.parser with state := .sHeaderValueDiscardLws }, r.message, r.fed + 2⟩ := by
  have hCr : byteCase r.parser CR =
      HttpUtils.next { r.parser with state := .sHeaderValueDiscardWsAlmostDone } := by
    simp only [byteCase, hState, switch]
    rfl
  have hCrPasses := passes_quiet hCr (by omega) (by rw [hState]; rfl) hComplete hUpgrade
  have hLfPasses := passes_quiet (r := ⟨{ r.parser with state := .sHeaderValueDiscardWsAlmostDone }, r.message,
    r.fed + 1⟩) (c := LF) rfl (by simp only; omega) rfl hComplete hUpgrade
  exact hCrPasses.trans hLfPasses

end Reader

/-! ### Whole lines -/

/-- The lower case of ASCII. -/
def asciiLower (c : UInt8) : UInt8 := if 'A' ≤ c ∧ c ≤ 'Z' then c + 32 else c

theorem token_eq_asciiLower {c : UInt8} (h : token c ≠ 0) : token c = asciiLower c := by
  have hAll : ∀ c : UInt8, token c ≠ 0 → token c = asciiLower c := forall_byte (by decide +kernel)
  exact hAll c h

/-- A header value: no control bytes, and no blank at its start. -/
structure PlainValue (v : Bytes) : Prop where
  bytes : ∀ c ∈ v, 32 ≤ c ∧ c ≠ 127
  blank : v.head? ≠ some SP

/-- A header that does not concern the framing of its message. -/
structure Header.Plain (h : Header) : Prop where
  nonempty : h.name ≠ []
  tokens : ∀ c ∈ h.name, token c ≠ 0
  notTransferEncoding : h.name.map asciiLower ≠ ascii "transfer-encoding"
  notUpgrade : h.name.map asciiLower ≠ ascii "upgrade"
  notContentLength : ¬ ascii "content-length" <+: h.name.map asciiLower
  value : PlainValue h.value

theorem isValueByte_of_plain {c : UInt8} (h : 32 ≤ c ∧ c ≠ 127) : isValueByte c = true := by
  have hAll : ∀ c : UInt8, 32 ≤ c ∧ c ≠ 127 → isValueByte c = true := forall_byte (by decide +kernel)
  exact hAll c h

/-- The parser and the message at the start of a line, the length of the message being still open. -/
structure LineOpen (P : HttpParser) (m : Message) : Prop where
  errno : P.httpErrno = .ok
  upgrade : P.upgrade = false
  length : P.flags.fContentlength = false
  name : m.inName = false
  complete : m.complete = false

theorem LineOpen.next {P Q : HttpParser} {m : Message} (h : LineOpen P m) (hSame : SameMessage P Q) (x : Header) :
    LineOpen Q (m.addHeader x) :=
  ⟨hSame.httpErrno.trans h.errno, hSame.upgrade.trans h.upgrade, hSame.fContentlength.trans h.length, rfl,
    h.complete⟩

theorem Message.not_loses_named {m : Message} (hName : m.inName = false) (run : Bytes) :
    ¬ (m.see (.onHeaderField run)).LosesAt .headerValue := by
  simp [see, hName, LosesAt]

theorem Message.complete_named (m : Message) (run : Bytes) :
    (m.see (.onHeaderField run)).complete = m.complete := by
  simp only [see]
  split <;> rfl

namespace Reader

theorem AtLine.emptyValue {r : Reader} {P : HttpParser} {m : Message} (hOpen : LineOpen P m) {x : Header}
    (hx : x.value = []) {q : Reader} (hState : q.parser.state = .sHeaderValueDiscardWs)
    (hMessage : q.message = m.see (.onHeaderField x.name)) (hSame : SameMessage P q.parser)
    (hName : r.Passes (x.name ++ nameValueSeparator) q) (hFed : q.fed + 2 ≤ room) :
    ∃ r', r.Passes (headerLine x) r' ∧
      r'.AtLine (lineEnded { q.parser with state := .sHeaderValueDiscardLws }) (m.addHeader x) := by
  have hComplete : q.message.complete = false := by rw [hMessage, Message.complete_named, hOpen.complete]
  have hUpgrade : q.parser.upgrade = false := hSame.upgrade.trans hOpen.upgrade
  have hAt := AtLine.afterEmpty (r := ⟨{ q.parser with state := .sHeaderValueDiscardLws }, q.message, q.fed + 2⟩)
    rfl hComplete hUpgrade (by rw [hMessage]; exact Message.not_loses_named hOpen.name _)
  have hSeen : q.message.see (.onHeaderValue []) = m.addHeader x := by
    rw [hMessage, ← Message.see_header hOpen.name x, hx]
  have hLine := hName.trans (passes_noValue hState hComplete hUpgrade hFed)
  rw [hSeen] at hAt
  exact ⟨_, by rwa [headerLine, hx, List.append_nil], hAt⟩

theorem AtLine.someValue {r : Reader} {P Q : HttpParser} {m : Message} (hOpen : LineOpen P m) {x : Header} {v : UInt8}
    {s : Bytes} (hx : x.value = v :: s) (hBlank : v ≠ SP ∧ v ≠ HT) (hBytes : ∀ ch ∈ x.value, isValueByte ch = true)
    {q : Reader} (hState : q.parser.state = .sHeaderValueDiscardWs)
    (hMessage : q.message = m.see (.onHeaderField x.name)) (hUpgrade : q.parser.upgrade = false)
    (hStart : headerValueStartCase q.parser v = HttpUtils.next Q [.mark .headerValue])
    (hValued : ∀ u, u <+: s → Valued (u.foldl valueStep Q))
    (hName : r.Passes (x.name ++ nameValueSeparator) q) (hFed : q.fed + (s.length + 3) ≤ room) :
    ∃ r', r.Passes (headerLine x) r' ∧
      r'.AtLine (lineEnded { s.foldl valueStep Q with state := .sHeaderValueLws }) (m.addHeader x) := by
  have hComplete : q.message.complete = false := by rw [hMessage, Message.complete_named, hOpen.complete]
  have hValue := passes_value hState hBlank (by rwa [← hx]) hStart hValued hComplete hUpgrade
    (by rw [hMessage]; exact Message.not_loses_named hOpen.name _) hFed
  have hSeen : q.message.see (.onHeaderValue (v :: s)) = m.addHeader x := by
    rw [hMessage, ← hx, Message.see_header hOpen.name x]
  have hLine := hName.trans hValue
  have hAt := AtLine.afterValue (r := ⟨{ s.foldl valueStep Q with state := .sHeaderValueLws },
    q.message.see (.onHeaderValue (v :: s)), q.fed + (s.length + 3)⟩) rfl hComplete
    (hValued s (List.prefix_refl s)).upgrade
  rw [hSeen, ← hx, ← List.append_assoc] at hLine
  rw [hSeen] at hAt
  exact ⟨_, hLine, hAt⟩

theorem length_headerLine (x : Header) : (headerLine x).length = x.name.length + x.value.length + 4 := by
  simp only [headerLine, List.length_append]
  show x.name.length + 2 + x.value.length + 2 = _
  omega

theorem AtLine.header {r : Reader} {P : HttpParser} {m : Message} (h : r.AtLine P m) (hOpen : LineOpen P m)
    {x : Header} (hx : x.Plain) (hFed : r.fed + (headerLine x).length ≤ room) :
    ∃ r' P', r.Passes (headerLine x) r' ∧ r'.AtLine P' (m.addHeader x) ∧ SameMessage P P' := by
  rw [length_headerLine] at hFed
  obtain ⟨c, s, hName⟩ := List.exists_cons_of_ne_nil hx.nonempty
  have hTokens := hx.tokens
  rw [hName] at hTokens
  have hNameLength : x.name.length = s.length + 1 := by rw [hName, List.length_cons]
  obtain ⟨hIn, hPasses⟩ := h.name hTokens hOpen.errno hOpen.upgrade hOpen.length hOpen.name hOpen.complete (by omega)
  have hLower : (c :: s).map token = x.name.map asciiLower := by
    rw [hName]
    exact List.map_congr_left fun d hd => token_eq_asciiLower (hTokens d hd)
  rw [hLower] at hIn
  obtain ⟨hSame, hQuiet⟩ := hIn.plain hx.notContentLength hx.notTransferEncoding hx.notUpgrade
  let N := s.foldl nameStep (nameStart P c)
  let q : Reader :=
    ⟨{ N with state := .sHeaderValueDiscardWs }, m.see (.onHeaderField x.name), r.fed + (s.length + 3)⟩
  have hSameQ : SameMessage P q.parser := hSame.trans (.move N .sHeaderValueDiscardWs N.headerState N.index)
  rw [← hName] at hPasses
  have hMessage : q.message = m.see (.onHeaderField x.name) := rfl
  have hFedQ : q.fed = r.fed + (s.length + 3) := rfl
  cases hValue : x.value with
  | nil =>
    obtain ⟨r', hLine, hAt⟩ := AtLine.emptyValue hOpen hValue (q := q) rfl hMessage hSameQ hPasses (by omega)
    exact ⟨r', _, hLine, hAt, hSameQ.trans (finishHeaderFlags_same hQuiet _ _ _)⟩
  | cons v w =>
    obtain ⟨Q, hStart, hInside⟩ := InValue.start (P := q.parser) hSameQ hQuiet v
    have hBytes : ∀ ch ∈ x.value, isValueByte ch = true := fun ch hch => isValueByte_of_plain (hx.value.bytes ch hch)
    have hv : v ∈ x.value := by simp [hValue]
    have hSp : v ≠ SP := by
      rintro rfl
      exact hx.value.blank (by rw [hValue]; rfl)
    have hHt : v ≠ HT := by
      rintro rfl
      exact absurd (hx.value.bytes _ hv).1 (by decide)
    rw [hValue, List.length_cons] at hFed
    obtain ⟨r', hLine, hAt⟩ := AtLine.someValue hOpen hValue ⟨hSp, hHt⟩ hBytes (q := q) rfl hMessage
      (hSameQ.upgrade.trans hOpen.upgrade) hStart
      (fun u _ => by
        have hFold := hInside.foldl u
        exact ⟨hFold.state, hFold.same.httpErrno.trans hOpen.errno, hFold.same.upgrade.trans hOpen.upgrade⟩)
      hPasses (by omega)
    have hFold := hInside.foldl w
    exact ⟨r', _, hLine, hAt, hFold.same.trans (finishHeaderFlags_same hFold.quiet _ _ _)⟩

theorem AtLine.headers {r : Reader} {P : HttpParser} {m : Message} (h : r.AtLine P m) (hOpen : LineOpen P m)
    {xs : List Header} (hxs : ∀ x ∈ xs, x.Plain) (hFed : r.fed + (xs.flatMap headerLine).length ≤ room) :
    ∃ r' P', r.Passes (xs.flatMap headerLine) r' ∧ r'.AtLine P' (xs.foldl Message.addHeader m) ∧
      SameMessage P P' ∧ LineOpen P' (xs.foldl Message.addHeader m) := by
  induction xs generalizing r P m with
  | nil => exact ⟨r, P, .refl r, h, .refl P, hOpen⟩
  | cons x xs ih =>
    rw [List.flatMap_cons, List.length_append] at hFed
    obtain ⟨q, Q, hLine, hAt, hSame⟩ := h.header hOpen (hxs x List.mem_cons_self) (by omega)
    obtain ⟨r', P', hRest, hEnd, hSame', hOpen'⟩ := ih hAt (hOpen.next hSame x)
      (fun y hy => hxs y (List.mem_cons_of_mem x hy)) (by rw [hLine.fed]; omega)
    exact ⟨r', P', hLine.trans hRest, hEnd, hSame.trans hSame', hOpen'⟩

end Reader

end HttpUtils
