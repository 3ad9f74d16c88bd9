import HttpUtils.HttpParser.Lines
import HttpUtils.HttpParser.StartLine

/-!
# What an accepted request line says

A request line is read part by part, and a blank alone moves on from the method and from the target. That holds of
any line, whatever its bytes are, as long as no line feed ends it early.
-/

namespace HttpUtils
set_option autoImplicit false

open PartialRun (Leads)

inductive LinePart where
  | method | blanks | url | blanksBehind | version | lineEnd
  deriving DecidableEq, Repr

def State.linePart : State → Option LinePart
  | .sStartReq | .sReqMethod => some .method
  | .sReqSpacesBeforeUrl => some .blanks
  | .sReqSchema | .sReqSchemaSlash | .sReqSchemaSlashSlash | .sReqServerStart | .sReqServer | .sReqServerWithAt
  | .sReqPath | .sReqQueryStringStart | .sReqQueryString | .sReqFragmentStart | .sReqFragment => some .url
  | .sReqHttpStart => some .blanksBehind
  | .sReqHttpH | .sReqHttpHT | .sReqHttpHTT | .sReqHttpHTTP | .sReqFirstHttpMajor | .sReqHttpMajor
  | .sReqFirstHttpMinor | .sReqHttpMinor => some .version
  | .sReqLineAlmostDone => some .lineEnd
  | _ => none

/-- The part of the line behind the byte `ch`, if it is not refused. -/
def LinePart.after (ch : UInt8) : LinePart → Option LinePart
  | .method => some (if ch = SP then .blanks else .method)
  | .blanks => some (if ch = SP then .blanks else .url)
  | .url => some (if ch = SP then .blanksBehind else if ch = CR then .lineEnd else .url)
  | .blanksBehind => some (if ch = SP then .blanksBehind else .version)
  | .version => if ch = SP then none else some (if ch = CR then .lineEnd else .version)
  | .lineEnd => none

theorem openMark_of_linePart {s : State} {p : LinePart} (h : s.linePart = some p) :
    openMark s = if p = .url then some .url else none := by
  cases s <;> simp only [State.linePart, reduceCtorEq, Option.some.injEq] at h <;> subst h <;> rfl

theorem LinePart.early {ch : UInt8} {p q : LinePart} (hAfter : p.after ch = some q)
    (hEarly : q = .method ∨ q = .blanks) :
    p = .method ∨ p = .blanks := by
  cases p with
  | method => exact .inl rfl
  | blanks => exact .inr rfl
  | url | blanksBehind | version =>
    exfalso
    simp only [LinePart.after] at hAfter
    repeat' split at hAfter
    all_goals rcases hEarly with rfl | rfl <;> cases hAfter
  | lineEnd => cases hAfter

/-- No header line is read yet, and no error. -/
structure Blank (P : HttpParser) : Prop where
  flags : P.flags = {}
  errno : P.httpErrno = .ok

/-- The effect of a byte of the line: it is refused, or it moves on to the next part, and belongs to the target if
that part is the target. -/
def LineByte (P : HttpParser) (ch : UInt8) (p : LinePart) (w : Bytes) (o : Outcome) : Prop :=
  o.flow ≠ .next ∨ ∃ Q acts q, o = next Q acts ∧ p.after ch = some q ∧ Q.state.linePart = some q ∧ Blank Q ∧
    ¬ ActsLose Q ch ⟨openMark P.state, { url := w }⟩ acts ∧
    Move.spell P ch ⟨acts, Q, .outer⟩ { url := w } = { url := if q = .url then w ++ [ch] else w }

namespace LineByte

variable {P : HttpParser} {ch : UInt8} {p q : LinePart} {w : Bytes}

theorem fail (e : HttpErrno) : LineByte P ch p w (HttpUtils.fail P e) := .inl (by simp [HttpUtils.fail])

theorem quiet {Q : HttpParser} (hAfter : p.after ch = some q) (hPart : Q.state.linePart = some q) (hBlank : Blank Q)
    (hOpen : openMark P.state = none) (hOut : q ≠ .url) : LineByte P ch p w (next Q) := by
  refine .inr ⟨Q, [], q, rfl, hAfter, hPart, hBlank, id, ?_⟩
  simp [Move.spell, Live.consume, hOpen, hOut]

end LineByte

theorem linePart_parseUrlChar {s : State} {ch : UInt8} (h : parseUrlChar s ch ≠ .sDead) :
    (parseUrlChar s ch).linePart = some .url := by
  have hOpen := openMark_parseUrlChar h
  revert h hOpen
  cases parseUrlChar s ch <;> simp [openMark, State.linePart]

theorem methodStrings_breaks (k : HttpMethod) : SP ∉ methodStrings k ∧ LF ∉ methodStrings k := by
  cases k <;> decide +kernel

theorem ne_getD_of_notMem {s : Bytes} {c : UInt8} (h : c ∉ s) (hZero : c ≠ 0) (i : ℕ) : c ≠ s.getD i 0 := by
  rintro rfl
  cases hByte : s[i]? with
  | none => simp [List.getD, hByte] at hZero
  | some d =>
    rw [List.getD, hByte] at h
    exact h (List.mem_of_getElem? hByte)

namespace LineByte

variable {P : HttpParser} {ch : UInt8} {p : LinePart} {w : Bytes}

theorem urlStep {P₀ : HttpParser} {acts : List Act} (hAfter : p.after ch = some .url) (hBlank : Blank P)
    (hActs : openMark P₀.state = none ∧ acts = [.mark .url] ∨ openMark P₀.state = some .url ∧ acts = []) :
    LineByte P₀ ch p w (HttpUtils.urlStep P ch acts) := by
  simp only [HttpUtils.urlStep]
  split
  · exact .inl (by simp)
  rename_i hDead
  refine .inr ⟨_, acts, .url, rfl, hAfter, linePart_parseUrlChar hDead, ⟨hBlank.flags, hBlank.errno⟩, ?_, ?_⟩
  · rcases hActs with ⟨-, rfl⟩ | ⟨-, rfl⟩
    · simp [ActsLose, Act.Loses, Message.LosesAt]
    · exact id
  · rcases hActs with ⟨-, rfl⟩ | ⟨hOpen, rfl⟩
    · simp [Move.spell, Live.act, Live.consume, DataCb.call, Message.see]
    · simp [Move.spell, Live.consume, DataCb.call, Message.see, hOpen]

theorem urlEnd {Q : HttpParser} {q : LinePart} (hAfter : p.after ch = some q) (hPart : Q.state.linePart = some q)
    (hBlank : Blank Q) (hOpen : openMark P.state = some .url) (hOut : q ≠ .url) :
    LineByte P ch p w (next Q [.data .url]) := by
  refine .inr ⟨Q, _, q, rfl, hAfter, hPart, hBlank, by simp [ActsLose, Act.Loses], ?_⟩
  simp [Move.spell, Live.act, Live.consume, hOpen, hOut]

theorem startReq (hState : P.state = .sStartReq) (hBlank : Blank P) (hLf : ch ≠ LF) :
    LineByte P ch .method w (startReqCase P ch) := by
  have hOpen : openMark P.state = none := by rw [hState]; rfl
  simp only [startReqCase]
  split
  · rename_i hBreak
    obtain rfl : ch = CR := hBreak.resolve_right hLf
    exact quiet rfl (by rw [hState]; rfl) hBlank hOpen (by decide)
  split
  · exact .inl (by simp [HttpUtils.fail])
  rename_i hAlpha
  have hSp : ch ≠ SP := by
    rintro rfl
    exact absurd hAlpha (by decide)
  cases startMethod ch with
  | none => exact .inl (by simp [HttpUtils.fail])
  | some k =>
    refine .inr ⟨_, _, .method, rfl, by simp [LinePart.after, hSp], rfl, ⟨rfl, hBlank.errno⟩, ?_, ?_⟩
    · simp [ActsLose, Act.Loses]
    · simp [Move.spell, Live.act, Live.consume, hOpen, NotifyCb.call, Message.see]

theorem reqMethod (hState : P.state = .sReqMethod) (hBlank : Blank P) : LineByte P ch .method w
    (reqMethodCase P ch) := by
  have hOpen : openMark P.state = none := by rw [hState]; rfl
  have hIn (Q : HttpParser) (hSp : ch ≠ SP) (hQState : Q.state = .sReqMethod) (hQ : Blank Q) :
      LineByte P ch .method w (next Q) :=
    quiet (q := .method) (by simp [LinePart.after, hSp]) (by rw [hQState]; rfl) hQ hOpen (by decide)
  simp only [reqMethodCase]
  split
  · exact fail _
  split
  · rename_i hEnd
    obtain rfl := hEnd.1
    exact quiet rfl rfl ⟨hBlank.flags, hBlank.errno⟩ hOpen (by decide)
  rename_i hNotEnd
  split
  · rename_i hSame
    refine hIn _ ?_ hState ⟨hBlank.flags, hBlank.errno⟩
    rintro rfl
    -- a name has no blank
    exact ne_getD_of_notMem (methodStrings_breaks P.method).1 (by decide) _ hSame
  split
  · rename_i hAlpha
    have hSp : ch ≠ SP := by
      rintro rfl
      exact absurd hAlpha (by decide)
    cases methodSwitch P.method P.index ch with
    | none => exact fail _
    | some k => exact hIn _ hSp hState ⟨hBlank.flags, hBlank.errno⟩
  split
  · rename_i hDash
    obtain rfl := hDash.1
    exact hIn _ (by decide) hState ⟨hBlank.flags, hBlank.errno⟩
  · exact fail _

theorem spacesBeforeUrl (hState : P.state = .sReqSpacesBeforeUrl) (hBlank : Blank P) :
    LineByte P ch .blanks w (reqSpacesBeforeUrlCase P ch) := by
  have hOpen : openMark P.state = none := by rw [hState]; rfl
  simp only [reqSpacesBeforeUrlCase]
  split
  · rename_i hSp
    exact quiet (q := .blanks) (by simp [LinePart.after, hSp]) (by rw [hState]; rfl) hBlank hOpen (by decide)
  rename_i hSp
  have hAfter : LinePart.after ch .blanks = some .url := by simp [LinePart.after, hSp]
  split
  · exact urlStep hAfter ⟨hBlank.flags, hBlank.errno⟩ (.inl ⟨hOpen, rfl⟩)
  · exact urlStep hAfter hBlank (.inl ⟨hOpen, rfl⟩)

theorem schema (hOpen : openMark P.state = some .url) (hBlank : Blank P) :
    LineByte P ch .url w (reqSchemaCase P ch) := by
  simp only [reqSchemaCase]
  split
  · exact fail _
  rename_i hBreak
  obtain ⟨hSp, hCr, -⟩ := by simpa only [not_or] using hBreak
  exact urlStep (by simp [LinePart.after, hSp, hCr]) hBlank (.inr ⟨hOpen, rfl⟩)

theorem url (hOpen : openMark P.state = some .url) (hBlank : Blank P) (hLf : ch ≠ LF) :
    LineByte P ch .url w (reqUrlCase P ch) := by
  simp only [reqUrlCase, if_neg hLf]
  split
  · rename_i hSp
    exact urlEnd (q := .blanksBehind) (by simp [LinePart.after, hSp]) rfl ⟨hBlank.flags, hBlank.errno⟩ hOpen
      (by decide)
  split
  · rename_i hSp hCr
    exact urlEnd (q := .lineEnd) (by rw [hCr]; rfl) rfl ⟨hBlank.flags, hBlank.errno⟩ hOpen (by decide)
  · rename_i hSp hCr
    exact urlStep (by simp [LinePart.after, hSp, hCr]) hBlank (.inr ⟨hOpen, rfl⟩)

theorem version (hOpen : openMark P.state = none) {Q : HttpParser} (hPart : Q.state.linePart = some .version)
    (hSp : ch ≠ SP) (hCr : ch ≠ CR) (hQ : Blank Q) : LineByte P ch .version w (next Q) :=
  quiet (q := .version) (by simp [LinePart.after, hSp, hCr]) hPart hQ hOpen (by decide)

theorem expected (hOpen : openMark P.state = none) (hBlank : Blank P) {c : UInt8} {s : State} (hc : c ≠ SP ∧ c ≠ CR)
    (hPart : s.linePart = some .version) : LineByte P ch .version w (expect P ch c s) := by
  simp only [expect]
  split
  · exact fail _
  · rename_i hEq
    obtain rfl : ch = c := not_not.mp hEq
    exact version hOpen hPart hc.1 hc.2 ⟨hBlank.flags, hBlank.errno⟩

theorem digit_spec {c : UInt8} (h : ¬ (!isNum c) = true) : c ≠ SP ∧ c ≠ CR ∧ c ≠ LF := by
  have hAll : ∀ c : UInt8, ¬ (!isNum c) = true → c ≠ SP ∧ c ≠ CR ∧ c ≠ LF := forall_byte (by decide +kernel)
  exact hAll c h

theorem majorDigit (hState : P.state = .sReqHttpMajor) (hBlank : Blank P) :
    LineByte P ch .version w (HttpUtils.majorDigit P ch) := by
  simp only [HttpUtils.majorDigit]
  split
  · exact fail _
  rename_i hNum
  split
  · exact fail _
  · exact version (by rw [hState]; rfl) (by rw [hState]; rfl) (digit_spec hNum).1 (digit_spec hNum).2.1
      ⟨hBlank.flags, hBlank.errno⟩

theorem minorDigit (hState : P.state = .sReqHttpMinor) (hBlank : Blank P) :
    LineByte P ch .version w (HttpUtils.minorDigit P ch) := by
  simp only [HttpUtils.minorDigit]
  split
  · exact fail _
  rename_i hNum
  split
  · exact fail _
  · exact version (by rw [hState]; rfl) (by rw [hState]; rfl) (digit_spec hNum).1 (digit_spec hNum).2.1
      ⟨hBlank.flags, hBlank.errno⟩

end LineByte

theorem lineByte {P : HttpParser} {ch : UInt8} {p : LinePart} (hPart : P.state.linePart = some p) (hBlank : Blank P)
    (hLf : ch ≠ LF) (w : Bytes) : LineByte P ch p w (byteCase P ch) := by
  cases hs : P.state <;> rw [hs] at hPart <;> simp only [State.linePart, reduceCtorEq, Option.some.injEq] at hPart <;>
    subst hPart <;> simp only [byteCase, hs, switch]
  case sStartReq => exact .startReq hs hBlank hLf
  case sReqMethod => exact .reqMethod hs hBlank
  case sReqSpacesBeforeUrl => exact .spacesBeforeUrl hs hBlank
  case sReqSchema | sReqSchemaSlash | sReqSchemaSlashSlash | sReqServerStart =>
    exact .schema (by rw [hs]; rfl) hBlank
  case sReqServer | sReqServerWithAt | sReqPath | sReqQueryStringStart | sReqQueryString | sReqFragmentStart
    | sReqFragment =>
    exact .url (by rw [hs]; rfl) hBlank hLf
  case sReqHttpStart =>
    have hOpen : openMark P.state = none := by rw [hs]; rfl
    split
    · rename_i hH
      exact .quiet (q := .version) (by rw [hH]; rfl) rfl ⟨hBlank.flags, hBlank.errno⟩ hOpen (by decide)
    split
    · rename_i hSp
      exact .quiet (q := .blanksBehind) (by simp [LinePart.after, hSp]) (by rw [hs]; rfl) hBlank hOpen (by decide)
    · exact .fail _
  case sReqHttpH | sReqHttpHT | sReqHttpHTT | sReqHttpHTTP =>
    exact .expected (by rw [hs]; rfl) hBlank (by decide) rfl
  case sReqFirstHttpMajor =>
    have hOpen : openMark P.state = none := by rw [hs]; rfl
    split
    · exact .fail _
    · rename_i hDigit
      have hAll : ∀ c : UInt8, ¬ (c < '1' ∨ c > '9') → c ≠ SP ∧ c ≠ CR := forall_byte (by decide +kernel)
      exact .version hOpen rfl (hAll ch hDigit).1 (hAll ch hDigit).2 ⟨hBlank.flags, hBlank.errno⟩
  case sReqHttpMajor =>
    split
    · rename_i hDot
      exact .version (by rw [hs]; rfl) rfl (by rw [hDot]; decide) (by rw [hDot]; decide) ⟨hBlank.flags, hBlank.errno⟩
    · exact .majorDigit hs hBlank
  case sReqFirstHttpMinor =>
    simp only [firstMinorDigit]
    split
    · exact .fail _
    · rename_i hNum
      exact .version (by rw [hs]; rfl) rfl (LineByte.digit_spec hNum).1 (LineByte.digit_spec hNum).2.1
        ⟨hBlank.flags, hBlank.errno⟩
  case sReqHttpMinor =>
    split
    · rename_i hCr
      exact .quiet (q := .lineEnd) (by rw [hCr]; rfl) rfl ⟨hBlank.flags, hBlank.errno⟩ (by rw [hs]; rfl)
        (by decide)
    · exact .minorDigit hs hBlank
  case sReqLineAlmostDone =>
    rw [if_pos hLf]
    exact .fail _

theorem lineByte_lf {P : HttpParser} {p : LinePart} (hPart : P.state.linePart = some p)
    (hEnd : p = .version ∨ p = .lineEnd) (hBlank : Blank P) : (byteCase P LF).flow ≠ .next ∨
      ∃ Q, byteCase P LF = next Q ∧ Q.state = .sHeaderFieldStart ∧ Blank Q := by
  have hStart : Blank { P with state := .sHeaderFieldStart } := ⟨hBlank.flags, hBlank.errno⟩
  cases hs : P.state <;> rw [hs] at hPart <;> simp only [State.linePart, reduceCtorEq, Option.some.injEq] at hPart <;>
    subst hPart <;> simp only [reduceCtorEq, or_self] at hEnd <;> simp only [byteCase, hs, switch]
  case sReqHttpMinor | sReqLineAlmostDone => exact .inr ⟨_, rfl, rfl, hStart⟩
  all_goals exact .inl (fail_flow _ _)

namespace Reader

/-- In the part `p` of a request line, of whose target `w` is read. -/
structure InLine (p : LinePart) (w : Bytes) (r : Reader) : Prop where
  part : r.parser.state.linePart = some p
  blank : Blank r.parser
  message : r.message = { url := w }

theorem InLine.complete {p : LinePart} {w : Bytes} {r : Reader} (h : InLine p w r) : r.message.complete = false := by
  rw [h.message]

theorem InLine.notName {p : LinePart} {w : Bytes} {r : Reader} (h : InLine p w r) :
    r.parser.state ≠ .sHeaderField := by
  intro hState
  have hPart := h.part
  rw [hState] at hPart
  cases hPart

variable {d : Prop}

theorem InLine.leads_byte {p : LinePart} {w : Bytes} {r : Reader} (h : InLine p w r) {ch : UInt8} (hLf : ch ≠ LF) :
    Leads Reader.step (Calm false d) r [ch] fun t =>
      ∃ q, p.after ch = some q ∧ InLine q (if q = .url then w ++ [ch] else w) t := by
  rcases lineByte h.part h.blank hLf w with hRefused | ⟨Q, acts, q, hNext, hAfter, hPart, hBlank, hLoss, hSpell⟩
  · exact leads_refused hRefused h.complete (not_repeats h.notName) [] _
  · rw [← h.message] at hLoss hSpell
    refine (leads_next hNext h.complete hLoss (not_repeats h.notName)).mono fun t ht => ?_
    exact ⟨q, hAfter, ht.1 ▸ hPart, ht.1 ▸ hBlank, ht.2.trans hSpell⟩

theorem leads_breaks {r : Reader} (hState : r.parser.state = .sStartReq) (h : InLine .method [] r) {s : Bytes}
    (hs : ∀ ch ∈ s, ch = CR ∨ ch = LF) :
    Leads Reader.step (Calm false d) r s fun t => t.parser = r.parser ∧ t.message = r.message := by
  refine Leads.scan (I := fun _ (t : Reader) => t.parser = r.parser ∧ t.message = r.message)
    (fun u ch v t hSplit ht => ?_) ⟨rfl, rfl⟩
  have hCase : byteCase t.parser ch = HttpUtils.next t.parser := by
    simp only [byteCase, ht.1, hState, switch, startReqCase]
    rw [if_pos (hs ch (by rw [hSplit]; simp))]
  refine ((leads_quiet hCase (by rw [ht.2, h.message]) (by rw [ht.1, hState]; rfl)).mono fun q hq => ?_).of_single
  exact ⟨hq.1.trans ht.1, hq.2.trans ht.2⟩

theorem sp_ne_lf : SP ≠ LF := by decide

theorem InLine.leads_method {r : Reader} (h : InLine .method [] r) {s : Bytes} (hLf : LF ∉ s) :
    Leads Reader.step (Calm false d) r (s ++ [SP]) fun t => InLine .blanks [] t ∨ ∃ w, InLine .blanksBehind w t := by
  have hLoop : Leads Reader.step (Calm false d) r s fun t =>
      ∃ p w, InLine p w t ∧ (p = .method ∨ p = .blanks → w = []) := by
    refine Leads.scan (I := fun _ t => ∃ p w, InLine p w t ∧ (p = .method ∨ p = .blanks → w = []))
      (fun u ch v t hSplit ht => ?_) ⟨_, _, h, fun _ => rfl⟩
    obtain ⟨p, w, hLine, hEarly⟩ := ht
    have hNotLf : ch ≠ LF := fun hEq => hLf (by rw [hSplit, hEq]; simp)
    refine ((hLine.leads_byte hNotLf).mono fun q hq => ?_).of_single
    obtain ⟨p', hAfter, hIn⟩ := hq
    refine ⟨p', _, hIn, fun hPart => ?_⟩
    have hNotUrl : p' ≠ .url := by rcases hPart with rfl | rfl <;> decide
    rw [if_neg hNotUrl]
    exact hEarly (LinePart.early hAfter hPart)
  refine hLoop.append fun t ht => ?_
  obtain ⟨p, w, hLine, hEarly⟩ := ht
  refine (hLine.leads_byte sp_ne_lf).mono fun q hq => ?_
  obtain ⟨p', hAfter, hIn⟩ := hq
  cases p <;> simp only [LinePart.after, reduceCtorEq, Option.some.injEq, if_true] at hAfter <;> subst hAfter
  case method | blanks =>
    left
    obtain rfl := hEarly (by simp)
    exact hIn
  case url | blanksBehind => exact .inr ⟨_, hIn⟩

def InUrl (u : Bytes) (t : Reader) : Prop :=
  ∃ p w, InLine p w t ∧ ((p = .url ∧ w = u) ∨ p = .version ∨ p = .lineEnd ∨
    (p = .blanksBehind ∧ u.getLast? = some SP))

theorem InUrl.leads_byte {u : Bytes} {r : Reader} (h : InUrl u r) {ch : UInt8} (hLf : ch ≠ LF) :
    Leads Reader.step (Calm false d) r [ch] (InUrl (u ++ [ch])) := by
  obtain ⟨p, w, hLine, hPart⟩ := h
  refine (hLine.leads_byte hLf).mono fun q hq => ?_
  obtain ⟨p', hAfter, hIn⟩ := hq
  refine ⟨p', _, hIn, ?_⟩
  rcases hPart with ⟨rfl, rfl⟩ | rfl | rfl | ⟨rfl, hLast⟩
  · obtain rfl := Option.some.inj hAfter
    by_cases hSp : ch = SP
    · right; right; right
      simp [hSp]
    by_cases hCr : ch = CR
    · right; right; left
      rw [hCr]
      rfl
    · left
      simp [hSp, hCr]
  · simp only [LinePart.after] at hAfter
    split at hAfter
    · cases hAfter
    · obtain rfl := Option.some.inj hAfter
      by_cases hCr : ch = CR
      · exact .inr (.inr (.inl (if_pos hCr)))
      · exact .inr (.inl (if_neg hCr))
  · cases hAfter
  · obtain rfl := Option.some.inj hAfter
    by_cases hSp : ch = SP
    · right; right; right
      simp [hSp]
    · exact .inr (.inl (if_neg hSp))

theorem leads_target {r : Reader} (h : InLine .blanks [] r ∨ ∃ w, InLine .blanksBehind w r) {uri : Bytes}
    (hLf : LF ∉ uri) (hFirst : ∃ c ∈ uri.head?, c ≠ SP) (hLast : uri.getLast? ≠ some SP) :
    Leads Reader.step (Calm false d) r (uri ++ [SP]) (InLine .blanksBehind uri) := by
  obtain ⟨c, hc, hSp⟩ := hFirst
  obtain ⟨u, rfl⟩ := List.head?_eq_some_iff.mp hc
  have hEnter : Leads Reader.step (Calm false d) r [c] (InUrl [c]) := by
    have hNotLf : c ≠ LF := fun hEq => hLf (by rw [hEq]; exact List.mem_cons_self)
    rcases h with hLine | ⟨w, hLine⟩
    · refine (hLine.leads_byte hNotLf).mono fun q hq => ?_
      obtain ⟨p', hAfter, hIn⟩ := hq
      obtain rfl := Option.some.inj hAfter
      exact ⟨_, _, hIn, .inl (by simp [hSp])⟩
    · refine (hLine.leads_byte hNotLf).mono fun q hq => ?_
      obtain ⟨p', hAfter, hIn⟩ := hq
      obtain rfl := Option.some.inj hAfter
      exact ⟨_, _, hIn, .inr (.inl (if_neg hSp))⟩
  have hLoop (t : Reader) (ht : InUrl [c] t) : Leads Reader.step (Calm false d) t u (InUrl (c :: u)) := by
    refine Leads.loop (I := InUrl) (fun x ch y q hSplit hq => ?_) ht
    have hNotLf : ch ≠ LF := fun hEq => hLf (by rw [hSplit, hEq]; simp)
    exact (hq.leads_byte hNotLf).of_single
  have hBytes : c :: u ++ [SP] = [c] ++ (u ++ [SP]) := rfl
  rw [hBytes]
  refine hEnter.append fun t ht => (hLoop t ht).append fun q hq => ?_
  obtain ⟨p, w, hLine, hPart⟩ := hq
  refine (hLine.leads_byte sp_ne_lf).mono fun s hs => ?_
  obtain ⟨p', hAfter, hIn⟩ := hs
  rcases hPart with ⟨rfl, rfl⟩ | rfl | rfl | ⟨rfl, hBlank⟩
  · obtain rfl := Option.some.inj hAfter
    exact hIn
  · cases hAfter
  · cases hAfter
  · exact absurd hBlank hLast

theorem InLine.leads_version {r : Reader} {w : Bytes} (h : InLine .blanksBehind w r) {s : Bytes} (hLf : LF ∉ s) :
    Leads Reader.step (Calm false d) r ([('H' : UInt8)] ++ (s ++ [LF])) fun t =>
      t.parser.state = .sHeaderFieldStart ∧ Blank t.parser ∧ t.message = { url := w } := by
  have hLoop (t : Reader) (ht : InLine .version w t) : Leads Reader.step (Calm false d) t s fun q =>
      ∃ p, InLine p w q ∧ (p = .version ∨ p = .lineEnd) := by
    refine Leads.scan (I := fun _ q => ∃ p, InLine p w q ∧ (p = .version ∨ p = .lineEnd))
      (fun x ch y q hSplit hq => ?_)
      ⟨_, ht, .inl rfl⟩
    have hNotLf : ch ≠ LF := fun hEq => hLf (by rw [hSplit, hEq]; simp)
    obtain ⟨p, hLine, hPart⟩ := hq
    refine ((hLine.leads_byte hNotLf).mono fun t ht => ?_).of_single
    obtain ⟨p', hAfter, hIn⟩ := ht
    rcases hPart with rfl | rfl
    · simp only [LinePart.after] at hAfter
      split at hAfter
      · cases hAfter
      · have hPart' : p' = .version ∨ p' = .lineEnd := by
          obtain rfl := Option.some.inj hAfter
          by_cases hCr : ch = CR
          · exact .inr (if_pos hCr)
          · exact .inl (if_neg hCr)
        refine ⟨p', ?_, hPart'⟩
        rwa [if_neg (by rcases hPart' with rfl | rfl <;> decide)] at hIn
    · cases hAfter
  refine ((h.leads_byte (by decide)).mono fun t ht => ?_).append fun t ht => (hLoop t ht).append fun q hq => ?_
  · obtain ⟨p', hAfter, hIn⟩ := ht
    obtain rfl := Option.some.inj hAfter
    exact hIn
  · obtain ⟨p, hLine, hPart⟩ := hq
    have hComplete : q.message.complete = false := hLine.complete
    rcases lineByte_lf hLine.part hPart hLine.blank with hRefused | ⟨Q, hNext, hState, hBlank⟩
    · exact leads_refused hRefused hComplete (not_repeats hLine.notName) [] _
    have hOut : p ≠ .url := by rcases hPart with rfl | rfl <;> decide
    have hOpen : openMark q.parser.state = none := by rw [openMark_of_linePart hLine.part, if_neg hOut]
    refine (leads_quiet hNext hComplete hOpen).mono fun t ht =>
      ⟨ht.1 ▸ hState, ht.1 ▸ hBlank, ht.2.trans hLine.message⟩

/-- A request line whose method has no line feed behind the line breaks that it begins with. -/
theorem leads_requestLine {breaks method uri version : Bytes} (hBreaks : ∀ ch ∈ breaks, ch = CR ∨ ch = LF)
    (hMethod : LF ∉ method) (hUri : LF ∉ uri) (hFirst : ∃ c ∈ uri.head?, c ≠ SP) (hLast : uri.getLast? ≠ some SP)
    (hVersion : LF ∉ version) :
    Leads Reader.step (Calm false d) (freshReader .httpRequest)
      (breaks ++ method ++ ascii " " ++ uri ++ ascii " HTTP/" ++ version ++ crlf) fun t =>
      t.parser.state = .sHeaderFieldStart ∧ Blank t.parser ∧ t.message = { url := uri } := by
  have hLiteral : ascii " HTTP/" = [SP] ++ ([('H' : UInt8)] ++ ascii "TTP/") := rfl
  have hCrlf : crlf = [CR] ++ [LF] := rfl
  have hBytes : breaks ++ method ++ ascii " " ++ uri ++ ascii " HTTP/" ++ version ++ crlf =
      breaks ++ ((method ++ [SP]) ++ ((uri ++ [SP]) ++
        ([('H' : UInt8)] ++ (ascii "TTP/" ++ version ++ [CR] ++ [LF])))) := by
    rw [hLiteral, hCrlf]
    simp only [List.append_assoc]
    rfl
  have hRest : LF ∉ ascii "TTP/" ++ version ++ [CR] := by
    simp only [List.mem_append, not_or]
    exact ⟨⟨by decide +kernel, hVersion⟩, by decide⟩
  have hStart : InLine .method [] (freshReader .httpRequest) := ⟨rfl, ⟨rfl, rfl⟩, rfl⟩
  rw [hBytes]
  refine (leads_breaks rfl hStart hBreaks).append fun t ht => ?_
  have hThere : InLine .method [] t := ⟨ht.1 ▸ hStart.part, ht.1 ▸ hStart.blank, ht.2.trans hStart.message⟩
  exact (hThere.leads_method hMethod).append fun q hq =>
    (leads_target hq hUri hFirst hLast).append fun u hu => hu.leads_version hRest

end Reader

end HttpUtils
