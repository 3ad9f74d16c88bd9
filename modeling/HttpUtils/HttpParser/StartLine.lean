import HttpUtils.HttpParser.Passage
import HttpUtils.Decimal

/-!
# Passing over a request line or a status line

The sixteen status lines and the method names are finite and computed. The target of a request and its version
numbers are folded over.
-/

namespace HttpUtils
set_option autoImplicit false

def freshReader (t : HttpParserType) : Reader := ⟨httpParserInit t, {}, 0⟩

/-- What a start line leaves for the header lines. -/
structure Started (P : HttpParser) : Prop where
  flags : P.flags = {}
  errno : P.httpErrno = .ok
  upgrade : P.upgrade = false
  method : P.method ≠ .connect

namespace Reader

theorem passes_statusLine (s : StatusType) :
    ∃ r, (freshReader .httpResponse).Passes (statusString s) r ∧ r.parser.state = .sHeaderFieldStart ∧
      Started r.parser ∧ r.message = { status := some s.code } := by
  have hRead : ∃ r ∈ (freshReader .httpResponse).passage (statusString s), r.parser.state = .sHeaderFieldStart ∧
      (r.parser.flags = {} ∧ r.parser.httpErrno = .ok ∧ r.parser.upgrade = false ∧ r.parser.method ≠ .connect) ∧
      r.message = { status := some s.code } := by
    cases s <;> decide +kernel
  obtain ⟨r, hPassage, hState, ⟨hFlags, hErrno, hUpgrade, hMethod⟩, hMessage⟩ := hRead
  exact ⟨r, passes_of_passage hPassage, hState, ⟨hFlags, hErrno, hUpgrade, hMethod⟩, hMessage⟩

theorem passes_method {k : HttpMethod} (hk : k ≠ .connect) :
    ∃ r, (freshReader .httpRequest).Passes (methodStrings k ++ ascii " /") r ∧ r.parser.state = .sReqPath ∧
      Started r.parser ∧ r.message = { url := ascii "/" } := by
  have hRead : ∃ r ∈ (freshReader .httpRequest).passage (methodStrings k ++ ascii " /"),
      r.parser.state = .sReqPath ∧
      (r.parser.flags = {} ∧ r.parser.httpErrno = .ok ∧ r.parser.upgrade = false ∧ r.parser.method ≠ .connect) ∧
      r.message = { url := ascii "/" } := by
    cases k
    case connect => exact absurd rfl hk
    all_goals decide +kernel
  obtain ⟨r, hPassage, hState, ⟨hFlags, hErrno, hUpgrade, hMethod⟩, hMessage⟩ := hRead
  exact ⟨r, passes_of_passage hPassage, hState, ⟨hFlags, hErrno, hUpgrade, hMethod⟩, hMessage⟩

end Reader

/-! ### The target -/

def State.inPath : State → Bool
  | .sReqPath | .sReqQueryStringStart | .sReqQueryString | .sReqFragmentStart | .sReqFragment => true
  | _ => false

def urlByte (P : HttpParser) (ch : UInt8) : HttpParser := { P with state := parseUrlChar P.state ch }

def isTargetByte (c : UInt8) : Bool := 33 ≤ c && c ≤ 126

theorem parseUrlChar_inPath {s : State} (hs : s.inPath = true) {ch : UInt8} (h : isTargetByte ch = true) :
    (parseUrlChar s ch).inPath = true := by
  have hAll : ∀ c : UInt8, ∀ s ∈ [State.sReqPath, .sReqQueryStringStart, .sReqQueryString, .sReqFragmentStart,
      .sReqFragment], isTargetByte c = true → (parseUrlChar s c).inPath = true := forall_byte (by decide +kernel)
  refine hAll ch s ?_ h
  cases s <;> simp [State.inPath] at hs ⊢

structure InTarget (P : HttpParser) : Prop where
  state : P.state.inPath = true
  started : Started P

theorem InTarget.foldl {P : HttpParser} (h : InTarget P) {s : Bytes} (hs : ∀ ch ∈ s, isTargetByte ch = true) :
    InTarget (s.foldl urlByte P) := by
  induction s generalizing P with
  | nil => exact h
  | cons ch s ih =>
    refine ih ⟨parseUrlChar_inPath h.state (hs ch List.mem_cons_self), ?_⟩ fun c hc =>
      hs c (List.mem_cons_of_mem ch hc)
    exact ⟨h.started.flags, h.started.errno, h.started.upgrade, h.started.method⟩

theorem byteCase_of_inPath {P : HttpParser} (h : P.state.inPath = true) (ch : UInt8) :
    byteCase P ch = reqUrlCase P ch ∧ openMark P.state = some .url := by
  cases hs : P.state <;> rw [hs] at h <;> simp only [State.inPath, Bool.false_eq_true] at h <;>
    simp only [byteCase, hs, switch] <;> exact ⟨trivial, rfl⟩

theorem reqUrlCase_of_inPath {P : HttpParser} (h : P.state.inPath = true) {ch : UInt8}
    (hch : isTargetByte ch = true) :
    reqUrlCase P ch = next (urlByte P ch) := by
  have hBlank : ∀ c : UInt8, isTargetByte c = true → c ≠ SP ∧ c ≠ CR ∧ c ≠ LF := forall_byte (by decide +kernel)
  obtain ⟨hSp, hCr, hLf⟩ := hBlank ch hch
  have hAlive : parseUrlChar P.state ch ≠ .sDead := by
    intro hDead
    have hIn := parseUrlChar_inPath h hch
    rw [hDead] at hIn
    cases hIn
  rw [reqUrlCase, if_neg hSp, if_neg hCr, if_neg hLf]
  simp only [urlStep, if_neg hAlive]
  rfl

/-! ### The version -/

def majorByte (P : HttpParser) (ch : UInt8) : HttpParser :=
  { P with httpMajor := P.httpMajor * 10 + (ch - '0').toNat }

def minorByte (P : HttpParser) (ch : UInt8) : HttpParser :=
  { P with httpMinor := P.httpMinor * 10 + (ch - '0').toNat }

theorem foldl_majorByte (P : HttpParser) (s : Bytes) :
    s.foldl majorByte P = { P with httpMajor := digitsValue P.httpMajor s } := by
  induction s generalizing P with
  | nil => rfl
  | cons ch s ih =>
    rw [List.foldl_cons, ih]
    rfl

theorem foldl_minorByte (P : HttpParser) (s : Bytes) :
    s.foldl minorByte P = { P with httpMinor := digitsValue P.httpMinor s } := by
  induction s generalizing P with
  | nil => rfl
  | cons ch s ih =>
    rw [List.foldl_cons, ih]
    rfl

theorem digits_tail {n : ℕ} {c : UInt8} {s u w : Bytes} {ch : UInt8} (hDecimal : decimal n = c :: s) (hn : n ≤ 999)
    (hs : s = u ++ ch :: w) :
    isNum ch = true ∧ digitsValue (c - '0').toNat u * 10 + (ch - '0').toNat ≤ 999 := by
  have hSplit : decimal n = c :: u ++ ch :: w := by rw [hDecimal, hs, List.cons_append]
  have hPrefix := digitsValue_prefix hSplit
  have hFirst : digitsValue 0 (c :: u) = digitsValue (c - '0').toNat u := by
    simp only [digitsValue, List.foldl_cons, Nat.zero_mul, Nat.zero_add]
  rw [hFirst] at hPrefix
  exact ⟨(decimal_spec n).2.1 ch (by rw [hSplit]; simp), hPrefix.trans hn⟩

theorem isNum_spec {c : UInt8} (h : isNum c = true) : c ≠ '.' ∧ c ≠ CR ∧ c ≠ LF ∧
    (c ≠ '0' → ¬ (c < '1' ∨ c > '9')) := by
  have hAll : ∀ c : UInt8, isNum c = true → c ≠ '.' ∧ c ≠ CR ∧ c ≠ LF ∧ (c ≠ '0' → ¬ (c < '1' ∨ c > '9')) :=
    forall_byte (by decide +kernel)
  exact hAll c h

namespace Reader

theorem passes_httpLiteral {r : Reader} (hState : r.parser.state.inPath = true) (hStarted : Started r.parser)
    (hComplete : r.message.complete = false) (hFed : r.fed + 6 ≤ room) :
    r.Passes (ascii " HTTP/") ⟨{ r.parser with state := .sReqFirstHttpMajor }, r.message, r.fed + 6⟩ := by
  obtain ⟨hCase, hMark⟩ := byteCase_of_inPath hState SP
  have hSp : byteCase r.parser SP = HttpUtils.next { r.parser with state := .sReqHttpStart } [.data .url] := by
    rw [hCase]
    rfl
  have hStep := step_of_next hSp
  simp only [Move.spell, List.foldl_cons, List.foldl_nil, Live.act, hMark, if_true, Live.consume] at hStep
  have hSteady : r.Steady SP := by
    refine ⟨clean_of_room (by omega) fun hValue => ?_, hComplete, hStarted.upgrade, ?_⟩
    · rw [hValue] at hState
      cases hState
    · rw [loses_iff_of_next hSp]
      simp [ActsLose, Act.Loses]
  have hQuiet (s t : State) (ch : UInt8) (n : ℕ) (hByte : byteCase { r.parser with state := s } ch =
      HttpUtils.next { r.parser with state := t }) (hOpen : openMark s = none) (hn : n < room) :
      Reader.Passes ⟨{ r.parser with state := s }, r.message, n⟩ [ch]
        ⟨{ r.parser with state := t }, r.message, n + 1⟩ :=
    passes_quiet (r := ⟨{ r.parser with state := s }, r.message, n⟩) hByte hn hOpen hComplete hStarted.upgrade
  have h1 := hQuiet .sReqHttpStart .sReqHttpH 'H' (r.fed + 1) rfl rfl (by omega)
  have h2 := hQuiet .sReqHttpH .sReqHttpHT 'T' (r.fed + 2) rfl rfl (by omega)
  have h3 := hQuiet .sReqHttpHT .sReqHttpHTT 'T' (r.fed + 3) rfl rfl (by omega)
  have h4 := hQuiet .sReqHttpHTT .sReqHttpHTTP 'P' (r.fed + 4) rfl rfl (by omega)
  have h5 := hQuiet .sReqHttpHTTP .sReqFirstHttpMajor '/' (r.fed + 5) rfl rfl (by omega)
  exact .cons hStep hSteady (h1.trans (h2.trans (h3.trans (h4.trans h5))))

theorem passes_version {r : Reader} {major minor : ℕ} (hState : r.parser.state = .sReqFirstHttpMajor)
    (hMajor : 1 ≤ major ∧ major ≤ 999) (hMinor : minor ≤ 999) (hComplete : r.message.complete = false)
    (hUpgrade : r.parser.upgrade = false)
    (hFed : r.fed + ((decimal major).length + (decimal minor).length + 3) ≤ room) :
    ∃ n, r.Passes (decimal major ++ ascii "." ++ decimal minor ++ crlf)
      ⟨{ r.parser with state := .sHeaderFieldStart, httpMajor := major, httpMinor := minor }, r.message, n⟩ := by
  obtain ⟨hMajorValue, hMajorNum, c, s, hc, hZero⟩ := decimal_spec major
  obtain ⟨hMinorValue, hMinorNum, d, t, hd, -⟩ := decimal_spec minor
  have hcNum := isNum_spec (hMajorNum c (by rw [hc]; exact List.mem_cons_self))
  have hdNum : isNum d = true := hMinorNum d (by rw [hd]; exact List.mem_cons_self)
  rw [hc, hd, List.length_cons, List.length_cons] at hFed
  have hMajorTail : digitsValue (c - '0').toNat s = major := by
    rw [hc] at hMajorValue
    simpa [digitsValue] using hMajorValue
  have hMinorTail : digitsValue (d - '0').toNat t = minor := by
    rw [hd] at hMinorValue
    simpa [digitsValue] using hMinorValue
  have hFirst : byteCase r.parser c =
      HttpUtils.next { r.parser with httpMajor := (c - '0').toNat, state := .sReqHttpMajor } := by
    simp only [byteCase, hState, switch]
    rw [if_neg (hcNum.2.2.2 fun hcZero => by have := hZero hcZero; omega)]
  have h1 := passes_quiet hFirst (by omega) (by rw [hState]; rfl) hComplete hUpgrade
  have h2 := passes_quietly (f := majorByte) (s := s)
    (r := ⟨{ r.parser with httpMajor := (c - '0').toNat, state := .sReqHttpMajor }, r.message, r.fed + 1⟩) (by
      intro u ch w hs
      obtain ⟨hNum, hSmall⟩ := digits_tail hc hMajor.2 hs
      rw [foldl_majorByte]
      refine ⟨?_, rfl, hUpgrade⟩
      simp only [byteCase, switch, if_neg (isNum_spec hNum).1, majorDigit, hNum, Bool.not_true, Bool.false_eq_true,
        if_false]
      exact if_neg (by omega))
    (by simp only; omega) hComplete
  rw [foldl_majorByte, hMajorTail] at h2
  have h3 := passes_quiet (r := ⟨{ r.parser with httpMajor := major, state := .sReqHttpMajor }, r.message,
    r.fed + 1 + s.length⟩) (c := '.') rfl (by simp only; omega) rfl hComplete hUpgrade
  have hSecond : byteCase { r.parser with httpMajor := major, state := .sReqFirstHttpMinor } d = HttpUtils.next
      { r.parser with httpMajor := major, httpMinor := (d - '0').toNat, state := .sReqHttpMinor } := by
    simp only [byteCase, switch, firstMinorDigit, hdNum]
    rfl
  have h4 := passes_quiet (r := ⟨{ r.parser with httpMajor := major, state := .sReqFirstHttpMinor }, r.message,
    r.fed + 1 + s.length + 1⟩) hSecond (by simp only; omega) rfl hComplete hUpgrade
  have h5 := passes_quietly (f := minorByte) (s := t)
    (r := ⟨{ r.parser with httpMajor := major, httpMinor := (d - '0').toNat, state := .sReqHttpMinor }, r.message,
      r.fed + 1 + s.length + 1 + 1⟩)
    (by
      intro u ch w hs
      obtain ⟨hNum, hSmall⟩ := digits_tail hd hMinor hs
      rw [foldl_minorByte]
      refine ⟨?_, rfl, hUpgrade⟩
      simp only [byteCase, switch, if_neg (isNum_spec hNum).2.1, if_neg (isNum_spec hNum).2.2.1, minorDigit, hNum,
        Bool.not_true, Bool.false_eq_true, if_false]
      exact if_neg (by omega))
    (by simp only; omega) hComplete
  rw [foldl_minorByte, hMinorTail] at h5
  have h6 := passes_quiet (r := ⟨{ r.parser with httpMajor := major, httpMinor := minor, state := .sReqHttpMinor },
    r.message, r.fed + 1 + s.length + 1 + 1 + t.length⟩) (c := CR) rfl (by simp only; omega) rfl hComplete hUpgrade
  have h7 := passes_quiet (r := ⟨{ r.parser with httpMajor := major, httpMinor := minor, state :=
    .sReqLineAlmostDone },
    r.message, r.fed + 1 + s.length + 1 + 1 + t.length + 1⟩) (c := LF) rfl (by simp only; omega) rfl hComplete
      hUpgrade
  have hAll := ((h1.trans h2).trans h3).trans (((h4.trans h5).trans h6).trans h7)
  refine ⟨r.fed + 1 + s.length + 1 + 1 + t.length + 1 + 1, ?_⟩
  have hBytes : decimal major ++ ascii "." ++ decimal minor ++ crlf =
      ([c] ++ s ++ [('.' : UInt8)]) ++ ([d] ++ t ++ [CR] ++ [LF]) := by
    rw [hc, hd]
    simp only [List.append_assoc, List.cons_append, List.nil_append]
    rfl
  rw [hBytes]
  exact hAll

theorem passes_requestLine {k : HttpMethod} (hk : k ≠ .connect) {s : Bytes} (hs : ∀ ch ∈ s, isTargetByte ch = true)
    {major minor : ℕ} (hMajor : 1 ≤ major ∧ major ≤ 999) (hMinor : minor ≤ 999)
    (hFed : (methodStrings k ++ ascii " /" ++ s ++ ascii " HTTP/" ++
      (decimal major ++ ascii "." ++ decimal minor ++ crlf)).length ≤ room) :
    ∃ r, (freshReader .httpRequest).Passes (methodStrings k ++ ascii " /" ++ s ++ ascii " HTTP/" ++
        (decimal major ++ ascii "." ++ decimal minor ++ crlf)) r ∧ r.parser.state = .sHeaderFieldStart ∧
      Started r.parser ∧ r.parser.httpMajor = major ∧ r.parser.httpMinor = minor ∧
      r.message = { url := ascii "/" ++ s } := by
  simp only [List.length_append] at hFed
  have hLiterals : (ascii " /").length = 2 ∧ (ascii " HTTP/").length = 6 ∧ (ascii ".").length = 1 ∧ crlf.length = 2 :=
    ⟨rfl, rfl, rfl, rfl⟩
  rw [hLiterals.1, hLiterals.2.1, hLiterals.2.2.1, hLiterals.2.2.2] at hFed
  obtain ⟨q, hMethod, hPath, hStarted, hMessage⟩ := passes_method hk
  have hqFed : q.fed = (methodStrings k).length + 2 := by
    rw [hMethod.fed, List.length_append, hLiterals.1]
    exact Nat.zero_add _
  have hInside : InTarget q.parser := ⟨by rw [hPath]; rfl, hStarted⟩
  obtain ⟨t, hTarget, hParser, T, hUrl⟩ := passes_within (k := .url) (f := urlByte) (s := s) (w := ascii "/") (r := q)
    (m := {}) (by
      intro u ch v hSplit
      have hPre := hInside.foldl (s := u) fun c hc => hs c (by simp [hSplit, hc])
      obtain ⟨hCase, hMark⟩ := byteCase_of_inPath hPre.state ch
      refine ⟨?_, hMark, hPre.started.upgrade, fun hValue => ?_⟩
      · rw [hCase, reqUrlCase_of_inPath hPre.state (hs ch (by simp [hSplit]))]
      · have hIn := hPre.state
        rw [hValue] at hIn
        cases hIn)
    (by omega) ⟨q.parser, hMessage⟩ rfl
  have hEnd := hInside.foldl hs
  rw [← hParser] at hEnd
  have hUrl' : t.message = { url := ascii "/" ++ s } := hUrl
  have htFed : t.fed = (methodStrings k).length + 2 + s.length := by rw [hTarget.fed, hqFed]
  have hLiteral := passes_httpLiteral hEnd.state hEnd.started (by rw [hUrl']) (by omega)
  obtain ⟨n, hVersion⟩ := passes_version (r := ⟨{ t.parser with state := .sReqFirstHttpMajor }, t.message, t.fed + 6⟩)
    rfl hMajor hMinor (by rw [hUrl']) hEnd.started.upgrade (by simp only; omega)
  exact ⟨_, ((hMethod.trans hTarget).trans hLiteral).trans hVersion, rfl, ⟨hEnd.started.flags, hEnd.started.errno,
    hEnd.started.upgrade, hEnd.started.method⟩, rfl, rfl, hUrl'⟩

end Reader

end HttpUtils
