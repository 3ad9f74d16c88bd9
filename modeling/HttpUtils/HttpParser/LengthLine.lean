import HttpUtils.HttpParser.Framing
import HttpUtils.TextLines

/-!
# What a header line says of the length

The name of a line sets a flag if it begins with that of the length, and the value of a length line is the length;
nothing else in a line touches either.
-/

namespace HttpUtils
set_option autoImplicit false

/-! ### The flag of a length -/

theorem fContentlength_valueStep (P : HttpParser) (ch : UInt8) :
    (valueStep P ch).flags.fContentlength = P.flags.fContentlength := by
  have hMatch (keyword : Bytes) (g done miss : HeaderStates) :
      (matchValue keyword P (lower ch) g done miss).1.flags.fContentlength = P.flags.fContentlength := by
    simp only [matchValue]
    repeat' split
    all_goals rfl
  cases hs : P.headerState <;> simp only [valueStep, headerValueChar, hs]
  case hMatchingTransferEncodingChunked | hMatchingConnectionKeepAlive | hMatchingConnectionClose
    | hMatchingConnectionUpgrade => exact hMatch _ _ _ _
  all_goals
    repeat' split
    all_goals rfl

theorem fContentlength_finish (h : HeaderStates) (F : Flags) :
    (finishHeaderFlags h F).fContentlength = F.fContentlength := by
  cases h <;> rfl

structure Clear (P : HttpParser) : Prop where
  errno : P.httpErrno = .ok
  fTrailing : P.flags.fTrailing = false
  fSkipbody : P.flags.fSkipbody = false

theorem Kept.clear {P Q : HttpParser} (h : Kept P Q) (hP : Clear P) (hOk : Q.httpErrno = .ok) : Clear Q :=
  ⟨hOk, h.fTrailing.trans hP.fTrailing, h.fSkipbody.trans hP.fSkipbody⟩

/-- What a byte of a value changes: nothing of the length, unless the value is a length. -/
structure ValueKept (P Q : HttpParser) : Prop where
  kept : Kept P Q
  errno : Q.httpErrno = .ok
  flag : Q.flags.fContentlength = P.flags.fContentlength
  other : P.headerState ≠ .hContentLength → Q.headerState ≠ .hContentLength ∧ Q.contentLength = P.contentLength

theorem valueStart_keeps (P : HttpParser) (hOk : P.httpErrno = .ok) (ch : UInt8) :
    (headerValueStartCase P ch).flow ≠ .next ∨
      ∃ Q acts, headerValueStartCase P ch = next Q acts ∧ Q.state = .sHeaderValue ∧ ValueKept P Q ∧
        (P.headerState = .hContentLength → isNum ch = true ∧ Q.headerState = .hContentLength ∧
          Q.contentLength = (ch - '0').toNat) := by
  have hKept := kept_valueStart P ch
  cases hs : P.headerState <;> simp only [headerValueStartCase, hs] at hKept ⊢
  case hContentLength =>
    split at hKept
    · rename_i hNum
      rw [if_pos hNum]
      exact .inl (fail_flow _ _)
    · rename_i hNum
      rw [if_neg hNum]
      exact .inr ⟨_, _, rfl, rfl, ⟨hKept, hOk, rfl, fun hNot => absurd hs hNot⟩, fun _ =>
        ⟨by simpa using hNum, rfl, rfl⟩⟩
  all_goals
    refine .inr ⟨_, _, rfl, rfl, ⟨hKept, hOk, rfl, fun _ => ⟨?_, rfl⟩⟩, fun hIs => by cases hIs⟩
    dsimp only
    repeat' split
    all_goals simp

theorem valueStep_other {P : HttpParser} (h : P.headerState ≠ .hContentLength) (ch : UInt8) :
    (valueStep P ch).headerState ≠ .hContentLength ∧ (valueStep P ch).contentLength = P.contentLength := by
  cases hs : P.headerState <;> simp only [valueStep, headerValueChar, hs]
  case hContentLength => exact absurd hs h
  case hMatchingTransferEncodingChunked | hMatchingConnectionKeepAlive | hMatchingConnectionClose
    | hMatchingConnectionUpgrade =>
    simp only [matchValue]
    repeat' split
    all_goals simp
  all_goals
    repeat' split
    all_goals simp

theorem valueStep_keeps {P : HttpParser} {ch : UInt8} (hOk : (valueStep P ch).httpErrno = .ok) :
    ValueKept P (valueStep P ch) where
  kept := kept_valueStep P ch
  errno := hOk
  flag := fContentlength_valueStep P ch
  other h := valueStep_other h ch

theorem valueStep_digit {P : HttpParser} (h : P.headerState = .hContentLength) {ch : UInt8}
    (hOk : (valueStep P ch).httpErrno = .ok) :
    (valueStep P ch).headerState = .hContentLength ∧
      (ch = SP ∧ (valueStep P ch).contentLength = P.contentLength ∨
        ch ≠ SP ∧ isNum ch = true ∧ P.contentLength ≤ (ullongMax - 10) / 10 ∧
          (valueStep P ch).contentLength = P.contentLength * 10 + (ch - '0').toNat) := by
  simp only [valueStep, h, headerValueChar] at hOk ⊢
  by_cases hSp : ch = SP
  · rw [if_pos hSp]
    exact ⟨rfl, .inl ⟨hSp, rfl⟩⟩
  rw [if_neg hSp] at hOk ⊢
  by_cases hBad : (!isNum ch) = true ∨ (ullongMax - 10) / 10 < P.contentLength
  · rw [if_pos hBad] at hOk
    simp [setErrno] at hOk
  · rw [if_neg hBad]
    obtain ⟨hNum, hSmall⟩ := not_or.mp hBad
    exact ⟨rfl, .inr ⟨hSp, by simpa using hNum, Nat.le_of_not_lt hSmall, rfl⟩⟩

/-! ### The value of a line -/

/-- The states behind the line feed of a header line. -/
def State.atLine : State → Bool
  | .sHeaderFieldStart | .sHeaderValueLws | .sHeaderValueDiscardLws => true
  | _ => false

/-- The states between the colon and the end of the line. -/
def State.inValue : State → Bool
  | .sHeaderValueDiscardWs | .sHeaderValue => true
  | _ => false

/-- Behind the carriage return of the line. -/
def State.ending : State → State
  | .sHeaderValueDiscardWs => .sHeaderValueDiscardWsAlmostDone
  | _ => .sHeaderAlmostDone

/-- Behind the line feed. -/
def State.ended : State → State
  | .sHeaderValueDiscardWs => .sHeaderValueDiscardLws
  | _ => .sHeaderValueLws

theorem State.inValue_cases {s : State} (h : s.inValue = true) : s = .sHeaderValueDiscardWs ∨ s = .sHeaderValue := by
  cases s <;> simp_all [State.inValue]

theorem State.atLine_ended (s : State) : s.ended.atLine = true := by
  cases s <;> rfl

theorem State.ending_ne (s : State) : s.ending ≠ .sHeaderField := by
  cases s <;> simp [State.ending]

theorem inValue_cr {P : HttpParser} (hState : P.state.inValue = true) :
    ∃ acts, byteCase P CR = next { P with state := P.state.ending } acts := by
  rcases State.inValue_cases hState with hs | hs
  · refine ⟨[], ?_⟩
    simp only [byteCase, hs, switch]
    rfl
  · refine ⟨[.data .headerValue], ?_⟩
    simp only [byteCase, hs]
    rfl

theorem inValue_lf {P : HttpParser} (hState : P.state.inValue = true) :
    ∃ acts, byteCase P LF = next { P with state := P.state.ended } acts := by
  rcases State.inValue_cases hState with hs | hs
  · refine ⟨[], ?_⟩
    simp only [byteCase, hs, switch]
    rfl
  · refine ⟨[.data .headerValue], ?_⟩
    simp only [byteCase, hs]
    rfl

theorem ending_lf {P : HttpParser} (hState : P.state.inValue = true) :
    ∃ acts, byteCase { P with state := P.state.ending } LF = next { P with state := P.state.ended } acts := by
  rcases State.inValue_cases hState with hs | hs
  · refine ⟨[], ?_⟩
    simp only [byteCase, hs, State.ending, switch]
    rfl
  · refine ⟨[], ?_⟩
    simp only [byteCase, hs, State.ending, switch]
    rfl

theorem ending_refused {P : HttpParser} (hState : P.state.inValue = true) {ch : UInt8} (hLf : ch ≠ LF) :
    (byteCase { P with state := P.state.ending } ch).flow ≠ .next := by
  rcases State.inValue_cases hState with hs | hs
  · simp only [byteCase, hs, State.ending, switch, expect, if_pos hLf]
    exact fail_flow _ _
  · simp only [byteCase, hs, State.ending, switch, headerAlmostDoneCase, if_pos hLf]
    exact fail_flow _ _

/-- Between two lines the length `n` is given, and no line that goes on with a value can change it. -/
structure LengthIs (n : ℕ) (P : HttpParser) : Prop where
  contentLength : P.contentLength = n
  max : n < ullongMax
  settled : P.headerState = .hContentLength → P.state = .sHeaderValueLws

/-- What is read of a value: digits of a length, or something else. -/
inductive ValueRead (given : Option ℕ) (line : Bytes) (P : HttpParser) : Prop
  | other (name : isLength line = false)
      (kept : ∀ n ∈ given, P.contentLength = n ∧ n < ullongMax ∧ P.headerState ≠ .hContentLength)
  | blank (name : isLength line = true) (state : P.state = .sHeaderValueDiscardWs)
      (header : P.headerState = .hContentLength) (value : lengthValue line = [])
  | digits (name : isLength line = true) (state : P.state = .sHeaderValue) (header : P.headerState = .hContentLength)
      (some : lengthValue line ≠ []) (value : P.contentLength = lengthRead (lengthValue line))
      (max : P.contentLength < ullongMax)

theorem ValueRead.first {given : Option ℕ} {line : Bytes} {P Q : HttpParser} (h : ValueRead given line P)
    (hDone : NameDone line) (hState : P.state = .sHeaderValueDiscardWs) {ch : UInt8} (hSp : ch ≠ SP) (hHt : ch ≠ HT)
    (hQ : Q.state = .sHeaderValue) (hKeeps : ValueKept P Q)
    (hDigit : P.headerState = .hContentLength → isNum ch = true ∧ Q.headerState = .hContentLength ∧
      Q.contentLength = (ch - '0').toNat) : ValueRead given (line ++ [ch]) Q := by
  cases h with
  | other hName hKept =>
    refine .other ((isLength_append hDone [ch]).trans hName) fun n hn => ?_
    obtain ⟨hLength, hMax, hNot⟩ := hKept n hn
    obtain ⟨hNot', hSame⟩ := hKeeps.other hNot
    exact ⟨hSame.trans hLength, hMax, hNot'⟩
  | blank hName _ hHeader hValue =>
    obtain ⟨hNum, hHeader', hLength⟩ := hDigit hHeader
    have hFirst := lengthValue_concat_first (colon_of_isLength hName) hValue hSp hHt
    have hRead : lengthRead [ch] = (ch - '0').toNat := by
      have hConcat := lengthRead_concat [] hSp
      simpa [lengthRead, digitsValue] using hConcat
    refine .digits ((isLength_append hDone [ch]).trans hName) hQ hHeader' (by rw [hFirst]; simp) ?_ ?_
    · rw [hFirst, hRead, hLength]
    · rw [hLength]
      exact Nat.lt_of_le_of_lt (digit_le ch hNum) (by decide)
  | digits _ hInside =>
    rw [hState] at hInside
    cases hInside

theorem ValueRead.next {given : Option ℕ} {line : Bytes} {P : HttpParser} (h : ValueRead given line P)
    (hDone : NameDone line) (hState : P.state = .sHeaderValue) {ch : UInt8} (hOk : (valueStep P ch).httpErrno = .ok) :
    ValueRead given (line ++ [ch]) (valueStep P ch) := by
  have hKeeps := valueStep_keeps hOk
  cases h with
  | other hName hKept =>
    refine .other ((isLength_append hDone [ch]).trans hName) fun n hn => ?_
    obtain ⟨hLength, hMax, hNot⟩ := hKept n hn
    obtain ⟨hNot', hSame⟩ := hKeeps.other hNot
    exact ⟨hSame.trans hLength, hMax, hNot'⟩
  | blank _ hBefore =>
    rw [hState] at hBefore
    cases hBefore
  | digits hName _ hHeader hSome hValue hMax =>
    obtain ⟨hHeader', hDigit⟩ := valueStep_digit hHeader hOk
    have hConcat := lengthValue_concat (colon_of_isLength hName) hSome ch
    refine .digits ((isLength_append hDone [ch]).trans hName) ((headerValueChar_state _ _ _).trans hState) hHeader'
      (by rw [hConcat]; simp) ?_ ?_
    · rcases hDigit with ⟨rfl, hSame⟩ | ⟨hSp, -, -, hLength⟩
      · rw [hConcat, lengthRead_concat_sp, hSame, hValue]
      · rw [hConcat, lengthRead_concat _ hSp, hLength, hValue]
    · rcases hDigit with ⟨-, hSame⟩ | ⟨-, hNum, hSmall, hLength⟩
      · rw [hSame]
        exact hMax
      · have hNine := digit_le ch hNum
        rw [hLength]
        simp only [ullongMax] at hSmall ⊢
        omega

theorem ValueRead.step {given : Option ℕ} {line : Bytes} {P : HttpParser} (h : ValueRead given line P)
    (hDone : NameDone line) (hState : P.state.inValue = true) (hOk : P.httpErrno = .ok) {ch : UInt8} (hCr : ch ≠ CR)
    (hLf : ch ≠ LF) : (byteCase P ch).flow ≠ .next ∨
      ∃ Q acts, byteCase P ch = HttpUtils.next Q acts ∧ Q.state.inValue = true ∧ Kept P Q ∧ Q.httpErrno = .ok ∧
        Q.flags.fContentlength = P.flags.fContentlength ∧ ValueRead given (line ++ [ch]) Q := by
  rcases State.inValue_cases hState with hs | hs
  · simp only [byteCase, hs, switch, headerValueDiscardWsCase, if_neg hCr, if_neg hLf]
    by_cases hBlank : ch = SP ∨ ch = HT
    · rw [if_pos hBlank]
      refine .inr ⟨P, _, rfl, hState, .refl P, hOk, rfl, ?_⟩
      cases h with
      | other hName hKept => exact .other ((isLength_append hDone [ch]).trans hName) hKept
      | blank hName _ hHeader hValue =>
        exact .blank ((isLength_append hDone [ch]).trans hName) hs hHeader
          (lengthValue_concat_blank (colon_of_isLength hName) hValue hBlank)
      | digits _ hInside =>
        rw [hs] at hInside
        cases hInside
    · rw [if_neg hBlank]
      obtain ⟨hSp, hHt⟩ := not_or.mp hBlank
      rcases valueStart_keeps P hOk ch with hRefused | ⟨Q, acts, hNext, hQ, hKeeps, hDigit⟩
      · exact .inl hRefused
      · exact .inr ⟨Q, acts, hNext, by rw [hQ]; rfl, hKeeps.kept, hKeeps.errno, hKeeps.flag,
          h.first hDone hs hSp hHt hQ hKeeps hDigit⟩
  · rw [byteCase_value hs]
    rcases valueCase_inside (P := P) hCr hLf with hRefused | ⟨hNext, hError⟩
    · exact .inl hRefused
    · have hQ : (valueStep P ch).state = .sHeaderValue := (headerValueChar_state _ _ _).trans hs
      exact .inr ⟨_, _, hNext, by rw [hQ]; rfl, kept_valueStep P ch, hError, fContentlength_valueStep P ch,
        h.next hDone hs hError⟩

theorem ValueRead.ended {given : Option ℕ} {line : Bytes} {P : HttpParser} (h : ValueRead given line P) :
    ∀ n ∈ givenBy given line, LengthIs n { P with state := P.state.ended } := by
  intro n hn
  cases h with
  | other hName hKept =>
    rw [givenBy, if_neg (by simp [hName])] at hn
    obtain ⟨hLength, hMax, hNot⟩ := hKept n hn
    exact ⟨hLength, hMax, fun hIs => absurd hIs hNot⟩
  | blank hName _ _ hValue =>
    rw [givenBy, if_pos hName, if_pos hValue] at hn
    cases hn
  | digits hName hState _ hSome hValue hMax =>
    rw [givenBy, if_pos hName, if_neg hSome] at hn
    obtain rfl := Option.some.inj hn
    exact ⟨hValue, hValue ▸ hMax, fun _ => by rw [hState]; rfl⟩

/-! ### The name of a line -/

theorem nameStep_errno (P : HttpParser) (ch : UInt8) :
    (nameStep P ch).httpErrno = P.httpErrno ∨ (nameStep P ch).httpErrno = .unexpectedContentLength := by
  cases hs : P.headerState <;> simp only [nameStep, headerFieldChar, hs]
  case hMatchingContentLength =>
    simp only [matchKeyword]
    repeat' split
    all_goals simp [setErrno]
  case hMatchingConnection | hMatchingProxyConnection | hMatchingTransferEncoding | hMatchingUpgrade =>
    exact .inl (matchKeyword_errno _ _ _ fun _ => rfl)
  case hConnection | hContentLength | hTransferEncoding | hUpgrade =>
    left
    split <;> rfl
  all_goals exact .inl trivial

/-- The parser behind the bytes of a name, `first` and then `s`, of a line that began in `P`. -/
def nameRead (P : HttpParser) (first : UInt8) (s : Bytes) : HttpParser := s.foldl nameStep (nameStart P first)

theorem nameRead_concat (P : HttpParser) (first : UInt8) (s : Bytes) (ch : UInt8) :
    nameRead P first (s ++ [ch]) = nameStep (nameRead P first s) ch := by
  simp [nameRead]

theorem nameRead_flag {P : HttpParser} {first : UInt8} {s : Bytes}
    (hInName : InName P ((first :: s).map token) (nameRead P first s)) (hTokens : ∀ c ∈ first :: s, token c ≠ 0)
    (hOk : (nameRead P first s).httpErrno = .ok) :
    (nameRead P first s).flags.fContentlength = (P.flags.fContentlength || beginsLength (first :: s)) := by
  by_cases hBegins : beginsLength (first :: s) = true
  · rw [hBegins, Bool.or_true]
    obtain ⟨u, hu⟩ : ∃ u, u <+: s ∧ (first :: u).map asciiLower = ascii "content-length" := by
      have hPrefix := beginsLength_iff.mp hBegins
      have hTake := List.prefix_iff_eq_take.mp hPrefix
      have hLength : (ascii "content-length").length = 13 + 1 := rfl
      rw [hLength, List.map_cons, List.take_succ_cons, ← List.map_take, ← List.map_cons] at hTake
      exact ⟨s.take 13, List.take_prefix 13 s, hTake.symm⟩
    obtain ⟨⟨v, rfl⟩, hName⟩ := hu
    have hSplit : nameRead P first (u ++ v) = v.foldl nameStep (nameRead P first u) := List.foldl_append
    have hKept : Kept (nameRead P first u) (nameRead P first (u ++ v)) := by
      rw [hSplit]
      exact .foldl kept_nameStep _ v
    refine hKept.length ?_
    have hFront : ∀ c ∈ first :: u, token c ≠ 0 := fun c hc => hTokens c (by
      rw [← List.cons_append]
      exact List.mem_append_left v hc)
    obtain ⟨-, hParser⟩ := nameParser_contentLength P hFront hName (hKept.errno hOk)
    have hFlag := congrArg (fun Q : HttpParser => Q.flags.fContentlength) hParser
    exact hFlag
  · rw [Bool.not_eq_true] at hBegins
    rw [hBegins, Bool.or_false]
    refine (hInName.same.resolve_right fun hBoth => ?_).fContentlength
    have hPrefix := hBoth.1
    rw [asciiLower_map hTokens, ← beginsLength_iff, hBegins] at hPrefix
    cases hPrefix

/-- Behind the colon: the value of a length if that is the whole name, and any other value if it is not. -/
theorem valueRead_colon {P : HttpParser} {first : UInt8} {s : Bytes} {given : Option ℕ}
    (hInName : InName P ((first :: s).map token) (nameRead P first s)) (hTokens : ∀ c ∈ first :: s, token c ≠ 0)
    (hOk : (nameRead P first s).httpErrno = .ok) (hGiven : ∀ n ∈ given, P.contentLength = n ∧ n < ullongMax) :
    ValueRead given (first :: s ++ [(':' : UInt8)]) { nameRead P first s with state := .sHeaderValueDiscardWs } := by
  have hColon : (':' : UInt8) ∉ first :: s := fun hMem => absurd (hTokens _ hMem) (by decide)
  obtain ⟨hIs, hValue⟩ := isLength_colon hColon
  by_cases hName : (first :: s).map asciiLower = ascii "content-length"
  · obtain ⟨-, hParser⟩ := nameParser_contentLength P hTokens hName hOk
    have hHeader := congrArg HttpParser.headerState hParser
    exact .blank (by rw [hIs, hName, beq_self_eq_true]) rfl hHeader hValue
  · refine .other (by rw [hIs]; exact beq_false_of_ne hName) fun n hn => ?_
    obtain ⟨hLength, hMax⟩ := hGiven n hn
    refine ⟨?_, hMax, fun hHeader => ?_⟩
    · rcases hInName.same with hSame | ⟨-, hSame⟩
      · exact hSame.contentLength.trans hLength
      · exact hSame.contentLength.trans hLength
    · have hState := hInName.name
      rw [show (nameRead P first s).headerState = .hContentLength from hHeader, asciiLower_map hTokens] at hState
      exact hName hState

end HttpUtils
