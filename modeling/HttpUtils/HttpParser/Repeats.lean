import HttpUtils.HttpParser.LengthLine
import HttpUtils.HttpParser.RequestLine

/-!
# Where a second length is an error

A reader goes through a header section line by line. Whether a line before began with the name of the length decides
where the next such name is an error, and the lines decide which length is given behind the blank line.
-/

namespace HttpUtils
set_option autoImplicit false

open PartialRun (Leads)

namespace Reader

theorem step_of_byte {r t : Reader} {ch : UInt8} {Q : HttpParser} {acts : List Act}
    (h : byteCase r.parser ch = HttpUtils.next Q acts) (hStep : r.step ch = some t) : t.parser = Q := by
  rw [step_of_next h] at hStep
  rw [← Option.some.inj hStep]

theorem not_step_of_refused {r t : Reader} {ch : UInt8} (h : (byteCase r.parser ch).flow ≠ .next) :
    r.step ch ≠ some t := by
  rw [step_of_refused h]
  simp

/-! ### The request line -/

theorem InLine.step_lf {p : LinePart} {w : Bytes} {r : Reader} (h : InLine p w r) (t : Reader)
    (ht : r.step LF = some t) :
    t.parser.state = .sStartReq ∧ InLine p w t ∨ t.parser.state = .sHeaderFieldStart ∧ Blank t.parser := by
  have hBlank := h.blank
  have hPart := h.part
  have hStart (Q : HttpParser) {acts : List Act} (hNext : byteCase r.parser LF = HttpUtils.next Q acts)
      (hState : Q.state = .sHeaderFieldStart) (hSame : Q.flags = r.parser.flags ∧ Q.httpErrno = r.parser.httpErrno) :
      t.parser.state = .sStartReq ∧ InLine p w t ∨ t.parser.state = .sHeaderFieldStart ∧ Blank t.parser := by
    have hParser := step_of_byte hNext ht
    exact .inr ⟨hParser ▸ hState, hParser ▸ ⟨hSame.1.trans hBlank.flags, hSame.2.trans hBlank.errno⟩⟩
  have hNever (hRefused : (byteCase r.parser LF).flow ≠ .next) :
      t.parser.state = .sStartReq ∧ InLine p w t ∨ t.parser.state = .sHeaderFieldStart ∧ Blank t.parser :=
    absurd ht (not_step_of_refused hRefused)
  cases hs : r.parser.state <;> rw [hs] at hPart <;> simp only [State.linePart, reduceCtorEq] at hPart
  case sStartReq =>
    have hCase : byteCase r.parser LF = HttpUtils.next r.parser := by
      simp only [byteCase, hs, switch, startReqCase]
      rfl
    have hThere := (leads_quiet (d := True) hCase h.complete (by rw [hs]; rfl)).of_single.2 t ht
    refine .inl ⟨by rw [hThere.1, hs], ?_, ?_, hThere.2.trans h.message⟩
    · rw [hThere.1, h.part]
    · rw [hThere.1]
      exact hBlank
  case sReqServer | sReqServerWithAt | sReqPath | sReqQueryStringStart | sReqQueryString | sReqFragmentStart
    | sReqFragment =>
    have hCase : byteCase r.parser LF = HttpUtils.next
        { r.parser with httpMajor := 0, httpMinor := 9, state := .sHeaderFieldStart } [.data .url] := by
      simp only [byteCase, hs, switch]
      rfl
    exact hStart _ hCase rfl ⟨rfl, rfl⟩
  case sReqHttpMinor | sReqLineAlmostDone =>
    have hCase : byteCase r.parser LF = HttpUtils.next { r.parser with state := .sHeaderFieldStart } := by
      simp only [byteCase, hs, switch]
      rfl
    exact hStart _ hCase rfl ⟨rfl, rfl⟩
  case sReqMethod =>
    apply hNever
    have hName := ne_getD_of_notMem (methodStrings_breaks r.parser.method).2 (by decide) r.parser.index
    have hOther (c : UInt8) (q : Prop) (hc : LF ≠ c) : ¬ (LF = c ∧ q) := fun h => hc h.1
    simp only [byteCase, hs, switch, reqMethodCase]
    rw [if_neg (by decide), if_neg (hOther _ _ (by decide)), if_neg hName, if_neg (by decide),
      if_neg (hOther _ _ (by decide))]
    exact fail_flow _ _
  case sReqSpacesBeforeUrl =>
    apply hNever
    have hDead (s : State) : parseUrlChar s LF = .sDead := by simp [parseUrlChar]
    have hUrl (P : HttpParser) (acts : List Act) : (urlStep P LF acts).flow ≠ .next := by simp [urlStep, hDead]
    simp only [byteCase, hs, switch, reqSpacesBeforeUrlCase]
    rw [if_neg (by decide)]
    split
    · exact hUrl _ _
    · exact hUrl _ _
  case sReqSchema | sReqSchemaSlash | sReqSchemaSlashSlash | sReqServerStart =>
    apply hNever
    simp only [byteCase, hs, switch, reqSchemaCase]
    rw [if_pos (by decide)]
    exact fail_flow _ _
  case sReqHttpStart =>
    apply hNever
    simp only [byteCase, hs, switch]
    rw [if_neg (by decide), if_neg (by decide)]
    exact fail_flow _ _
  case sReqHttpH | sReqHttpHT | sReqHttpHTT | sReqHttpHTTP =>
    apply hNever
    simp only [byteCase, hs, switch, expect]
    rw [if_pos (by decide)]
    exact fail_flow _ _
  case sReqFirstHttpMajor =>
    apply hNever
    simp only [byteCase, hs, switch]
    rw [if_pos (by decide)]
    exact fail_flow _ _
  case sReqHttpMajor =>
    apply hNever
    simp only [byteCase, hs, switch, majorDigit]
    rw [if_neg (by decide), if_pos (by decide)]
    exact fail_flow _ _
  case sReqFirstHttpMinor =>
    apply hNever
    simp only [byteCase, hs, switch, firstMinorDigit]
    rw [if_pos (by decide)]
    exact fail_flow _ _

theorem connect_byte {q r : Reader} {i : ℕ} {ch : UInt8} (hState : q.parser.state = .sReqMethod)
    (hMethod : q.parser.method = .connect) (hIndex : q.parser.index = i) (hLetter : isAlpha ch = true)
    (hOther : methodSwitch .connect i ch = none) (hStep : q.step ch = some r) :
    ch = (methodStrings .connect).getD i 0 ∧
      r.parser.state = .sReqMethod ∧ r.parser.method = .connect ∧ r.parser.index = i + 1 := by
  have hNotZero : ch ≠ 0 ∧ ch ≠ SP := by
    constructor
    · rintro rfl
      exact absurd hLetter (by decide)
    · rintro rfl
      exact absurd hLetter (by decide)
  have hCase : byteCase q.parser ch = reqMethodCase q.parser ch := by simp only [byteCase, hState, switch]
  simp only [reqMethodCase, hMethod, hIndex, if_neg hNotZero.1, hLetter, hOther] at hCase
  rw [if_neg fun hBoth => hNotZero.2 hBoth.1] at hCase
  by_cases hSame : ch = (methodStrings .connect).getD i 0
  · rw [if_pos hSame] at hCase
    have hParser := step_of_byte hCase hStep
    exact ⟨hSame, by rw [hParser, hState], by rw [hParser], by rw [hParser]⟩
  · rw [if_neg hSame] at hCase
    refine absurd hStep (not_step_of_refused ?_)
    rw [hCase]
    exact fail_flow _ _

/-- No method begins as the name of the length does. -/
theorem beginsLength_of_start {q r : Reader} (hState : q.parser.state = .sStartReq) {line : Bytes}
    (hRun : PartialRun.run Reader.step q line = some r) : beginsLength line = false := by
  by_contra hBegins
  rw [Bool.not_eq_false, beginsLength_iff] at hBegins
  obtain ⟨a, b, c, d, rest, rfl, ha, hb, hc, hd⟩ : ∃ a b c d rest, line = a :: b :: c :: d :: rest ∧
      asciiLower a = 'c' ∧ asciiLower b = 'o' ∧ asciiLower c = 'n' ∧ asciiLower d = 't' := by
    have hName : ascii "content-length" = ('c' : UInt8) :: 'o' :: 'n' :: 't' :: ascii "ent-length" := rfl
    obtain ⟨v, hv⟩ := hBegins
    rw [hName] at hv
    simp only [List.cons_append] at hv
    obtain ⟨a, l, rfl, ha, hv⟩ := List.map_eq_cons_iff.mp hv.symm
    obtain ⟨b, l, rfl, hb, hv⟩ := List.map_eq_cons_iff.mp hv
    obtain ⟨c, l, rfl, hc, hv⟩ := List.map_eq_cons_iff.mp hv
    obtain ⟨d, l, rfl, hd, -⟩ := List.map_eq_cons_iff.mp hv
    exact ⟨a, b, c, d, l, rfl, ha, hb, hc, hd⟩
  have hFirst : ∀ x : UInt8, asciiLower x = 'c' → x = 'c' ∨ x = 'C' := forall_byte (by decide +kernel)
  have hSecond : ∀ x : UInt8, asciiLower x = 'o' → isAlpha x = true ∧ methodSwitch .connect 1 x = none :=
    forall_byte (by decide +kernel)
  have hThird : ∀ x : UInt8, asciiLower x = 'n' → isAlpha x = true ∧ methodSwitch .connect 2 x = none :=
    forall_byte (by decide +kernel)
  have hFourth : ∀ x : UInt8, asciiLower x = 't' → isAlpha x = true ∧ methodSwitch .connect 3 x = none :=
    forall_byte (by decide +kernel)
  obtain ⟨q₁, h₁, hRun⟩ := PartialRun.run_cons_eq_some.mp hRun
  obtain ⟨q₂, h₂, hRun⟩ := PartialRun.run_cons_eq_some.mp hRun
  obtain ⟨q₃, h₃, hRun⟩ := PartialRun.run_cons_eq_some.mp hRun
  obtain ⟨q₄, h₄, -⟩ := PartialRun.run_cons_eq_some.mp hRun
  rcases hFirst a ha with rfl | rfl
  · refine absurd h₁ (not_step_of_refused ?_)
    simp only [byteCase, hState, switch]
    exact fail_flow { q.parser with flags := {}, contentLength := ullongMax, method := .delete, index := 1 }
      .invalidMethod
  have hNext : byteCase q.parser 'C' = HttpUtils.next
      { q.parser with flags := {}, contentLength := ullongMax, method := .connect, index := 1, state := .sReqMethod }
      [.notify .messageBegin] := by
    simp only [byteCase, hState, switch]
    rfl
  have hParser₁ := step_of_byte hNext h₁
  obtain ⟨-, hState₂, hMethod₂, hIndex₂⟩ := connect_byte (i := 1) (by rw [hParser₁]) (by rw [hParser₁])
    (by rw [hParser₁])
    (hSecond b hb).1 (hSecond b hb).2 h₂
  obtain ⟨-, hState₃, hMethod₃, hIndex₃⟩ := connect_byte hState₂ hMethod₂ hIndex₂ (hThird c hc).1 (hThird c hc).2 h₃
  obtain ⟨hSame, -⟩ := connect_byte hState₃ hMethod₃ hIndex₃ (hFourth d hd).1 (hFourth d hd).2 h₄
  rw [hSame] at hd
  exact absurd hd (by decide +kernel)

/-- In the request line, or in a header section: `told` if a line before the present one began with the name of the
length, `given` if the lines before it gave a length; `line` is read of the present one. -/
inductive Heading (told : Bool) (given : Option ℕ) : Bytes → Reader → Prop
  | start {q r : Reader} {line w : Bytes} {p : LinePart} (begin : q.parser.state = .sStartReq)
      (read : PartialRun.run Reader.step q line = some r) (inLine : InLine p w r)
      (first : told = false ∧ given = none) :
      Heading told given line r
  | atLine {r : Reader} (state : r.parser.state.atLine = true) (clear : Clear r.parser)
      (flag : r.parser.flags.fContentlength = told) (length : ∀ n ∈ given, LengthIs n r.parser) :
        Heading told given [] r
  | name {r : Reader} {P : HttpParser} {first : UInt8} {s : Bytes} (parser : r.parser = nameRead P first s)
      (inName : InName P ((first :: s).map token) r.parser) (ok : P.httpErrno = .ok)
      (flag : P.flags.fContentlength = told) (tokens : ∀ c ∈ first :: s, token c ≠ 0) (clear : Clear r.parser)
      (length : ∀ n ∈ given, P.contentLength = n ∧ n < ullongMax) : Heading told given (first :: s) r
  | value {r : Reader} {line : Bytes} (state : r.parser.state.inValue = true) (clear : Clear r.parser)
      (flag : r.parser.flags.fContentlength = (told || beginsLength line)) (done : NameDone line)
      (noCr : line.getLast? ≠ some CR) (read : ValueRead given line r.parser) : Heading told given line r
  | valueEnd {r : Reader} {P : HttpParser} {line : Bytes} (parser : r.parser = { P with state := P.state.ending })
      (state : P.state.inValue = true) (clear : Clear P) (flag : P.flags.fContentlength = (told || beginsLength line))
      (done : NameDone line) (read : ValueRead given line P) : Heading told given (line ++ [CR]) r
  | almostDone {r : Reader} (state : r.parser.state = .sHeadersAlmostDone) (clear : Clear r.parser)
      (flag : r.parser.flags.fContentlength = told)
      (length : ∀ n ∈ given, r.parser.contentLength = n ∧ n < ullongMax) : Heading told given [CR] r

variable {told : Bool} {given : Option ℕ}

theorem ne_contentLength_of_length {line : Bytes} (h : line.length ≠ 14) :
    line.map asciiLower ≠ ascii "content-length" := by
  intro hEq
  have hLength := congrArg List.length hEq
  rw [List.length_map] at hLength
  exact h hLength

/-- What a byte behind a line feed does: the value goes on, or a line begins in `P'`. -/
theorem atLine_byte {P : HttpParser} (hState : P.state.atLine = true) (hOk : P.httpErrno = .ok) (ch : UInt8) :
    (byteCase P ch).flow ≠ .next ∨
      ((ch = SP ∨ ch = HT) ∧ ∃ Q acts, byteCase P ch = HttpUtils.next Q acts ∧ Q.state.inValue = true ∧ Kept P Q ∧
        Q.httpErrno = .ok ∧ Q.flags.fContentlength = P.flags.fContentlength ∧
        ∀ n, LengthIs n P → Q.contentLength = n ∧ Q.headerState ≠ .hContentLength) ∨
      ∃ pre P', byteCase P ch = (headerFieldStartCase P' ch).after pre ∧ Kept P P' ∧ P'.httpErrno = .ok ∧
        P'.flags.fContentlength = P.flags.fContentlength ∧ P'.contentLength = P.contentLength := by
  have hEnded : Kept P (lineEnded P) := kept_lineEnded P
  have hFlag : (lineEnded P).flags.fContentlength = P.flags.fContentlength := fContentlength_finish _ _
  cases hs : P.state <;> rw [hs] at hState <;> simp only [State.atLine, Bool.false_eq_true] at hState <;>
    simp only [byteCase, hs, switch]
  case sHeaderFieldStart => exact .inr (.inr ⟨[], P, rfl, .refl P, hOk, rfl, rfl⟩)
  case sHeaderValueLws =>
    rw [headerValueLwsCase]
    by_cases hBlank : ch = SP ∨ ch = HT
    · rw [if_pos hBlank]
      have hMoved : Kept P { P with state := .sHeaderValueStart } := .move P _ P.headerState P.index P.contentLength
      rcases valueStart_keeps { P with state := .sHeaderValueStart } hOk ch with
        hRefused | ⟨Q, acts, hNext, hQ, hKeeps, hDigit⟩
      · exact .inl hRefused
      · refine .inr (.inl ⟨hBlank, Q, acts, hNext, by rw [hQ]; rfl, hMoved.trans hKeeps.kept, hKeeps.errno,
          hKeeps.flag, fun n hn => ?_⟩)
        have hOther : P.headerState ≠ .hContentLength := by
          intro hHeader
          have hNum := (hDigit hHeader).1
          rcases hBlank with rfl | rfl
          · exact absurd hNum (by decide)
          · exact absurd hNum (by decide)
        obtain ⟨hNot, hSame⟩ := hKeeps.other hOther
        exact ⟨hSame.trans hn.contentLength, hNot⟩
    · rw [if_neg hBlank]
      exact .inr (.inr ⟨[], lineEnded P, rfl, hEnded, hOk, hFlag, rfl⟩)
  case sHeaderValueDiscardLws =>
    rw [headerValueDiscardLwsCase]
    by_cases hBlank : ch = SP ∨ ch = HT
    · rw [if_pos hBlank]
      refine .inr (.inl ⟨hBlank, _, _, rfl, rfl, .move P _ P.headerState P.index P.contentLength, hOk, rfl,
        fun n hn => ⟨hn.contentLength, fun hHeader => ?_⟩⟩)
      have hOther := hn.settled hHeader
      rw [hs] at hOther
      cases hOther
    · rw [if_neg hBlank]
      exact .inr (.inr ⟨_, lineEnded P, rfl, hEnded, hOk, hFlag, rfl⟩)

theorem Heading.ofLine {r t : Reader} {P : HttpParser} {ch : UInt8} {pre : List Act} (hLf : ch ≠ LF)
    (hCase : byteCase r.parser ch = (headerFieldStartCase P ch).after pre) (hClear : Clear P)
    (hFlag : P.flags.fContentlength = told) (hLength : ∀ n ∈ given, P.contentLength = n ∧ n < ullongMax)
    (ht : r.step ch = some t) : Heading told given [ch] t := by
  by_cases hCr : ch = CR
  · subst hCr
    have hNext : byteCase r.parser CR = HttpUtils.next { P with state := .sHeadersAlmostDone } (pre ++ []) := hCase
    have hParser := step_of_byte hNext ht
    refine .almostDone (by rw [hParser]) ?_ ?_ ?_
    · rw [hParser]
      exact ⟨hClear.errno, hClear.fTrailing, hClear.fSkipbody⟩
    · rw [hParser]
      exact hFlag
    · rw [hParser]
      exact hLength
  by_cases hTok : token ch = 0
  · refine absurd ht (not_step_of_refused ?_)
    rw [hCase, headerFieldStartCase, if_neg hCr, if_neg hLf, if_pos hTok]
    simp [fail, Outcome.after]
  · rw [startCase_of_token hTok] at hCase
    have hParser := step_of_byte hCase ht
    have hMoved : Kept P (nameStart P ch) := .move P _ _ 0 P.contentLength
    refine .name (P := P) (s := []) hParser ?_ hClear.errno hFlag (by simpa using hTok) ?_ hLength
    · rw [hParser]
      exact InName.start ch
    · rw [hParser]
      exact hMoved.clear hClear hClear.errno

theorem tokens_concat {name : Bytes} {ch : UInt8} (h : ∀ c ∈ name, token c ≠ 0) (hTok : token ch ≠ 0) :
    ∀ c ∈ name ++ [ch], token c ≠ 0 := by
  intro c hc
  rcases List.mem_append.mp hc with hc | hc
  · exact h c hc
  · rwa [List.mem_singleton.mp hc]

section Name

variable {r : Reader} {P : HttpParser} {first : UInt8} {s : Bytes} {ch : UInt8}

/-- Inside of a name: the error is at its end, where it is that of a length and one was told before. -/
theorem repeats_of_name (hParser : r.parser = nameRead P first s)
    (hInName : InName P ((first :: s).map token) r.parser) (hOk : P.httpErrno = .ok)
    (hFlag : P.flags.fContentlength = told) (hTokens : ∀ c ∈ first :: s, token c ≠ 0) (hClear : Clear r.parser) :
    r.Repeats ch ↔ told = true ∧ (first :: s ++ [ch]).map asciiLower = ascii "content-length" := by
  constructor
  · rintro ⟨-, hTok, hError⟩
    have hNotOk : (nameStep r.parser ch).httpErrno ≠ .ok := by
      rw [hError]
      decide
    obtain ⟨hOn, hAll⟩ := hInName.repeats hOk hNotOk
    refine ⟨hFlag.symm.trans hOn, Eq.trans ?_ hAll⟩
    rw [← asciiLower_map (tokens_concat hTokens hTok), List.map_append, List.map_singleton]
  · rintro ⟨hTold, hAll⟩
    have hTok : token ch ≠ 0 := by
      have hLast := congrArg List.getLast? hAll
      have hName : (ascii "content-length").getLast? = some 'h' := by decide +kernel
      rw [List.map_append, List.map_singleton, List.getLast?_concat, hName] at hLast
      have hTokenOf : ∀ c : UInt8, asciiLower c = 'h' → token c ≠ 0 := forall_byte (by decide +kernel)
      exact hTokenOf ch (Option.some.inj hLast)
    refine ⟨hInName.state, hTok, ((nameStep_errno r.parser ch).resolve_left fun hSame => ?_)⟩
    have hStill : (nameRead P first (s ++ [ch])).httpErrno = .ok := by
      rw [nameRead_concat, ← hParser]
      exact hSame.trans hClear.errno
    obtain ⟨hOff, -⟩ := nameParser_contentLength P (tokens_concat hTokens hTok) hAll hStill
    rw [hFlag, hTold] at hOff
    cases hOff

theorem Heading.ofName {t : Reader} (hParser : r.parser = nameRead P first s)
    (hInName : InName P ((first :: s).map token) r.parser) (hOk : P.httpErrno = .ok)
    (hFlag : P.flags.fContentlength = told) (hTokens : ∀ c ∈ first :: s, token c ≠ 0) (hClear : Clear r.parser)
    (hLength : ∀ n ∈ given, P.contentLength = n ∧ n < ullongMax) (ht : r.step ch = some t) :
    Heading told given (first :: s ++ [ch]) t := by
  have hCase : byteCase r.parser ch = nameCase r.parser ch := by simp only [byteCase, hInName.state]
  by_cases hTok : token ch = 0
  · rw [nameCase, if_pos hTok] at hCase
    split at hCase
    · rename_i hColon
      subst hColon
      have hNext := step_of_byte hCase ht
      have hNotBegins : beginsLength (first :: s ++ [(':' : UInt8)]) = beginsLength (first :: s) :=
        beginsLength_concat _ (by decide)
      rw [hParser] at hInName hClear hNext
      refine .value (by rw [hNext]; rfl) ?_ ?_ (.inl (by simp)) (by rw [List.getLast?_concat]; decide) ?_
      · rw [hNext]
        exact ⟨hClear.errno, hClear.fTrailing, hClear.fSkipbody⟩
      · rw [hNext, hNotBegins, ← hFlag]
        exact nameRead_flag hInName hTokens hClear.errno
      · rw [hNext]
        exact valueRead_colon hInName hTokens hClear.errno hLength
    · refine absurd ht (not_step_of_refused ?_)
      rw [hCase]
      exact fail_flow _ _
  · rcases nameCase_inside (P := r.parser) hTok with hRefused | ⟨hNext, hError⟩
    · exact absurd ht (not_step_of_refused (hCase ▸ hRefused))
    · have hStep := step_of_byte (hCase.trans hNext) ht
      refine .name (P := P) (s := s ++ [ch]) ?_ ?_ hOk hFlag (tokens_concat hTokens hTok) ?_ hLength
      · rw [hStep, nameRead_concat, ← hParser]
      · rw [hStep, ← List.cons_append, List.map_append]
        exact hInName.step (.inr hError) hTok
      · rw [hStep]
        exact (kept_nameStep r.parser ch).clear hClear hError

end Name

/-- A byte inside a line. It is the error of a second length at the end of that name, if the lines before began with
it. -/
theorem Heading.step {line : Bytes} {r : Reader} {ch : UInt8} (h : Heading told given line r) (hLf : ch ≠ LF) :
    (r.Repeats ch ↔ told = true ∧ (line ++ [ch]).map asciiLower = ascii "content-length") ∧
      ∀ t, r.step ch = some t → Heading told given (line ++ [ch]) t := by
  cases h with
  | start hBegin hRead hInLine hFirst =>
    obtain ⟨-, hNext⟩ := (hInLine.leads_byte (d := False) hLf).of_single
    refine ⟨iff_of_false (fun hRepeats => hInLine.notName hRepeats.1) ?_, fun t ht => ?_⟩
    · rw [hFirst.1]
      simp
    · obtain ⟨q, -, hIn⟩ := hNext t ht
      exact .start hBegin (PartialRun.run_concat hRead ht) hIn hFirst
  | atLine hState hClear hFlag hLength =>
    refine ⟨iff_of_false (fun hRepeats => ?_) fun hBoth => ne_contentLength_of_length (by simp) hBoth.2,
      fun t ht => ?_⟩
    · rw [hRepeats.1] at hState
      cases hState
    rw [List.nil_append]
    rcases atLine_byte hState hClear.errno ch with
      hRefused | ⟨hBlank, Q, acts, hNext, hIn, hKept, hOk, hSame, hKeeps⟩ |
        ⟨pre, P, hCase, hKept, hOk, hSame, hStill⟩
    · exact absurd ht (not_step_of_refused hRefused)
    · have hParser := step_of_byte hNext ht
      have hHead : ∃ c ∈ [ch].head?, c = SP ∨ c = HT := ⟨ch, rfl, hBlank⟩
      have hNotBegins : beginsLength [ch] = false := by
        rcases hBlank with rfl | rfl
        · decide +kernel
        · decide +kernel
      refine .value (hParser ▸ hIn) (hParser ▸ hKept.clear hClear hOk) ?_ (.inr hHead) ?_
        (.other (isLength_of_blank hHead) fun n hn => ?_)
      · rw [hParser, hSame, hFlag, hNotBegins, Bool.or_false]
      · rcases hBlank with rfl | rfl
        · decide
        · decide
      · obtain ⟨hSameLength, hNot⟩ := hKeeps n (hLength n hn)
        rw [hParser]
        exact ⟨hSameLength, (hLength n hn).max, hNot⟩
    · exact .ofLine hLf hCase (hKept.clear hClear hOk) (hSame.trans hFlag)
        (fun n hn => ⟨hStill.trans (hLength n hn).contentLength, (hLength n hn).max⟩) ht
  | name hParser hInName hOk hFlag hTokens hClear hLength =>
    exact ⟨repeats_of_name hParser hInName hOk hFlag hTokens hClear,
      fun t ht => .ofName hParser hInName hOk hFlag hTokens hClear hLength ht⟩
  | value hState hClear hFlag hDone hNoCr hRead =>
    refine ⟨iff_of_false (fun hRepeats => ?_) fun hBoth => ?_, fun t ht => ?_⟩
    · rw [hRepeats.1] at hState
      cases hState
    · exact (hDone.append [ch]).cannot_begin (hBoth.2 ▸ List.prefix_rfl)
    by_cases hCr : ch = CR
    · subst hCr
      obtain ⟨acts, hNext⟩ := inValue_cr hState
      exact .valueEnd (step_of_byte hNext ht) hState hClear hFlag hDone hRead
    rcases hRead.step hDone hState hClear.errno hCr hLf with
      hRefused | ⟨Q, acts, hNext, hIn, hKept, hOk, hSame, hMore⟩
    · exact absurd ht (not_step_of_refused hRefused)
    · have hParser := step_of_byte hNext ht
      refine .value (hParser ▸ hIn) (hParser ▸ hKept.clear hClear hOk) ?_ (hDone.append [ch]) (by simpa using hCr)
        (hParser ▸ hMore)
      rw [hParser, hSame, hFlag, hDone.beginsLength_append]
  | @valueEnd _ P line hParser hState hClear hFlag hDone hRead =>
    refine ⟨iff_of_false (fun hRepeats => ?_) fun hBoth => ?_, fun t ht => absurd ht (not_step_of_refused ?_)⟩
    · have hName := hRepeats.1
      rw [hParser] at hName
      exact P.state.ending_ne hName
    · exact ((hDone.append [CR]).append [ch]).cannot_begin (hBoth.2 ▸ List.prefix_rfl)
    · rw [hParser]
      exact ending_refused hState hLf
  | almostDone hState =>
    refine ⟨iff_of_false (fun hRepeats => ?_) fun hBoth => ne_contentLength_of_length (by simp) hBoth.2,
      fun t ht => absurd ht (not_step_of_refused ?_)⟩
    · rw [hRepeats.1] at hState
      cases hState
    · simp only [byteCase, hState, switch, headersAlmostDoneCase, if_pos hLf]
      exact fail_flow _ _

theorem InLine.heading_lf {p : LinePart} {w : Bytes} {r t : Reader} (h : InLine p w r) (ht : r.step LF = some t) :
    Heading false none [] t := by
  rcases h.step_lf t ht with ⟨hState, hStill⟩ | ⟨hState, hBlank⟩
  · exact .start hState rfl hStill ⟨rfl, rfl⟩
  · have hFlags := hBlank.flags
    refine .atLine (by rw [hState]; rfl) ⟨hBlank.errno, ?_, ?_⟩ ?_ fun n hn => nomatch hn
    · rw [hFlags]
    · rw [hFlags]
    · rw [hFlags]

theorem Heading.step_lf {line : Bytes} {r : Reader} (h : Heading told given line r) (hSome : chomp line ≠ []) :
    ¬ r.Repeats LF ∧ ∀ t, r.step LF = some t →
      Heading (told || beginsLength (chomp line)) (givenBy given (chomp line)) [] t := by
  refine ⟨fun hRepeats => hRepeats.2.1 (by decide), fun t ht => ?_⟩
  have hEnded {P : HttpParser} {acts : List Act} {l : Bytes} (hCase : byteCase r.parser LF =
      HttpUtils.next { P with state := P.state.ended } acts) (hClear : Clear P)
      (hFlag : P.flags.fContentlength = (told || beginsLength l)) (hRead : ValueRead given l P) :
      Heading (told || beginsLength l) (givenBy given l) [] t := by
    have hParser := step_of_byte hCase ht
    refine .atLine (by rw [hParser]; exact P.state.atLine_ended) ?_ (by rw [hParser]; exact hFlag) ?_
    · rw [hParser]
      exact ⟨hClear.errno, hClear.fTrailing, hClear.fSkipbody⟩
    · rw [hParser]
      exact hRead.ended
  cases h with
  | start hBegin hRead hInLine hFirst =>
    obtain ⟨rfl, rfl⟩ := hFirst
    have hNot : beginsLength (chomp line) = false := by
      rw [beginsLength_chomp]
      exact beginsLength_of_start hBegin hRead
    have hGiven : givenBy none (chomp line) = none := by
      refine if_neg fun hIs => ?_
      rw [beginsLength_of_isLength hIs] at hNot
      cases hNot
    rw [hNot, hGiven]
    exact hInLine.heading_lf ht
  | atLine => exact absurd rfl hSome
  | name _ hInName =>
    refine absurd ht (not_step_of_refused ?_)
    have hLf : token LF = 0 := by decide
    simp only [byteCase, hInName.state, nameCase, if_pos hLf]
    rw [if_neg (by decide)]
    exact fail_flow _ _
  | value hState hClear hFlag hDone hNoCr hRead =>
    obtain ⟨acts, hNext⟩ := inValue_lf hState
    rw [chomp_of_getLast hNoCr]
    exact hEnded hNext hClear hFlag hRead
  | valueEnd hParser hState hClear hFlag hDone hRead =>
    obtain ⟨acts, hNext⟩ := ending_lf hState
    rw [← hParser] at hNext
    rw [chomp_cr]
    exact hEnded hNext hClear hFlag hRead
  | almostDone => exact absurd rfl hSome

/-- The blank line behind lines that gave a length, if there is a body. -/
theorem Heading.blank {line : Bytes} {r : Reader} {n : ℕ} (h : Heading true (some n) line r)
    (hEmpty : chomp line = [])
    (hPos : 0 < n) : ∀ t, r.step LF = some t → t.parser.state = .sBodyIdentity ∧ t.parser.contentLength = n := by
  intro t ht
  have hDone {P : HttpParser} {pre : List Act}
      (hCase : byteCase r.parser LF = (headersAlmostDoneCase { P with state := .sHeadersAlmostDone } LF).after pre)
      (hClear : Clear P) (hFlag : P.flags.fContentlength = true) (hLength : P.contentLength = n ∧ n < ullongMax) :
      t.parser.state = .sBodyIdentity ∧ t.parser.contentLength = n := by
    have hGiven : LengthGiven { P with state := .sHeadersAlmostDone } n :=
      ⟨hLength.1, hLength.2, hFlag, hClear.fTrailing, hClear.fSkipbody⟩
    rcases hGiven.headersAlmostDone with hRefused | ⟨Q, acts, hNext, -, -, -, hBody⟩
    · refine absurd ht (not_step_of_refused ?_)
      rw [hCase]
      exact hRefused
    · rw [hNext] at hCase
      obtain ⟨-, hState, hSame⟩ := hBody hPos
      have hParser := step_of_byte (Q := Q) hCase ht
      exact ⟨hParser ▸ hState, hParser ▸ hSame⟩
  cases h with
  | start _ _ _ hFirst => cases hFirst.1
  | atLine hState hClear hFlag hLength =>
    rcases atLine_byte hState hClear.errno LF with hRefused | ⟨hBlank, -⟩ | ⟨pre, P, hCase, hKept, hOk, hSame, hStill⟩
    · exact absurd ht (not_step_of_refused hRefused)
    · exact absurd hBlank (by decide)
    · exact hDone hCase (hKept.clear hClear hOk) (hSame.trans hFlag)
        ⟨hStill.trans (hLength n rfl).contentLength, (hLength n rfl).max⟩
  | name _ _ _ _ hTokens =>
    rcases chomp_eq_nil.mp hEmpty with hNil | hCr
    · cases hNil
    · obtain ⟨rfl, -⟩ := List.cons_eq_cons.mp hCr
      exact absurd (hTokens CR List.mem_cons_self) (by decide)
  | value _ _ _ hDone hNoCr =>
    rw [chomp_of_getLast hNoCr] at hEmpty
    exact absurd hEmpty hDone.ne_nil
  | valueEnd _ _ _ _ hDone =>
    rw [chomp_cr] at hEmpty
    exact absurd hEmpty hDone.ne_nil
  | almostDone hState hClear hFlag hLength =>
    have hSame : { r.parser with state := .sHeadersAlmostDone } = r.parser := by rw [← hState]
    have hCase : byteCase r.parser LF =
        (headersAlmostDoneCase { r.parser with state := .sHeadersAlmostDone } LF).after [] := by
      rw [hSame]
      simp only [byteCase, hState, switch]
      rfl
    exact hDone hCase hClear hFlag (hLength n rfl)

end Reader

end HttpUtils
