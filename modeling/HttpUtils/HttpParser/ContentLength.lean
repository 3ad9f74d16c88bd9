import HttpUtils.HttpParser.HeaderSection
import Mathlib.Data.List.Induction

/-!
# A body of a given length

The last header line of both encoders is `Content-Length`. The blank line ends the message when the length is
zero, and otherwise the last byte of the body does.
-/

namespace HttpUtils
set_option autoImplicit false

/-- `std::string().max_size()` of a 64 bit platform. -/
def stringMaxSize : ℕ := 2 ^ 63 - 1

def contentLengthHeader (n : ℕ) : Header := ⟨ascii "Content-Length", decimal n⟩

/-- The parser inside the value of `Content-Length`, after digits of value `n`. -/
structure InLength (P₀ : HttpParser) (n : ℕ) (P : HttpParser) : Prop where
  state : P.state = .sHeaderValue
  header : P.headerState = .hContentLength
  same : SameMessage { withLength P₀ with contentLength := n } P

theorem InLength.step {P₀ P : HttpParser} {n : ℕ} (h : InLength P₀ n P) {c : UInt8} (hNum : isNum c = true)
    (hSmall : n ≤ (ullongMax - 10) / 10) : InLength P₀ (n * 10 + (c - '0').toNat) (valueStep P c) := by
  obtain ⟨hState, hHeader, hSame⟩ := h
  have hSp : c ≠ SP := by
    rintro rfl
    exact absurd hNum (by decide)
  have hLength : P.contentLength = n := hSame.contentLength
  have hFits : ¬ ((!isNum c) = true ∨ (ullongMax - 10) / 10 < P.contentLength) := by
    simpa only [hNum, Bool.not_true, Bool.false_eq_true, false_or, not_lt, hLength] using hSmall
  have hStep : valueStep P c = { P with contentLength := P.contentLength * 10 + (c - '0').toNat } := by
    simp only [valueStep, hHeader, headerValueChar]
    rw [if_neg hSp, if_neg hFits]
  rw [hStep, hLength]
  exact ⟨hState, hHeader, hSame.type, rfl, hSame.httpMajor, hSame.httpMinor, hSame.statusCode, hSame.method,
    hSame.httpErrno, hSame.upgrade, hSame.fChunked, hSame.fTrailing, hSame.fUpgrade, hSame.fSkipbody,
    hSame.fContentlength⟩

theorem InLength.foldl {P₀ P : HttpParser} {v : UInt8} {n : ℕ} (h : InLength P₀ (v - '0').toNat P) {s u : Bytes}
    (hDecimal : decimal n = v :: s) (hn : n ≤ stringMaxSize) (hu : u <+: s) :
    InLength P₀ (digitsValue 0 (v :: u)) (u.foldl valueStep P) := by
  obtain ⟨w, hw⟩ := hu
  induction u using List.reverseRecOn generalizing w with
  | nil => simpa [digitsValue] using h
  | append_singleton u c ih =>
    rw [List.append_assoc, List.singleton_append] at hw
    have hSplit : decimal n = v :: u ++ c :: w := by rw [hDecimal, ← hw, List.cons_append]
    have hNum : isNum c = true := (decimal_spec n).2.1 c (by rw [hSplit]; simp)
    have hTenth := digitsValue_prefix hSplit
    have hSmall : digitsValue 0 (v :: u) ≤ (ullongMax - 10) / 10 := by
      simp only [stringMaxSize] at hn
      simp only [ullongMax]
      omega
    have hStep := (ih (c :: w) hw).step hNum hSmall
    rw [← List.cons_append, digitsValue_append, List.foldl_append]
    exact hStep

theorem nameStart_contentLength (P : HttpParser) :
    nameStart P 'C' = { P with index := 0, state := .sHeaderField, headerState := .hC } := rfl

namespace Reader

theorem AtLine.contentLength {r : Reader} {P : HttpParser} {m : Message} (h : r.AtLine P m) (hOpen : LineOpen P m)
    {n : ℕ} (hn : n ≤ stringMaxSize) (hFed : r.fed + (headerLine (contentLengthHeader n)).length ≤ room) :
    ∃ r' P', r.Passes (headerLine (contentLengthHeader n)) r' ∧ r'.AtLine P' (m.addHeader (contentLengthHeader n)) ∧
      SameMessage { withLength P with contentLength := n } P' := by
  rw [length_headerLine] at hFed
  obtain ⟨v, s, hDecimal, -⟩ := (decimal_spec n).2.2
  have hNums := (decimal_spec n).2.1
  have hValue : (contentLengthHeader n).value = v :: s := hDecimal
  have hNameEq : (contentLengthHeader n).name = ('C' : UInt8) :: ascii "ontent-Length" := rfl
  have hLengths : (contentLengthHeader n).name.length = 14 ∧ (ascii "ontent-Length").length = 13 := ⟨rfl, rfl⟩
  rw [hLengths.1, hValue, List.length_cons] at hFed
  obtain ⟨-, hName⟩ := h.name (c := 'C') (s := ascii "ontent-Length") (by decide +kernel) hOpen.errno hOpen.upgrade
    hOpen.length hOpen.name hOpen.complete (by omega)
  rw [nameStart_contentLength, foldl_contentLength hOpen.length, ← hNameEq, hLengths.2] at hName
  have hNum (c : UInt8) (hc : c ∈ (contentLengthHeader n).value) : isNum c = true := hNums c hc
  have hv : isNum v = true := hNum v (by rw [hValue]; exact List.mem_cons_self)
  have hBytes : ∀ c : UInt8, isNum c = true → isValueByte c = true ∧ c ≠ SP ∧ c ≠ HT :=
    forall_byte (by decide +kernel)
  let N : HttpParser :=
    { withLength P with index := 13, state := .sHeaderValueDiscardWs, headerState := .hContentLength }
  let Q : HttpParser := { N with index := 0, state := .sHeaderValue, contentLength := (v - '0').toNat }
  have hStart : headerValueStartCase N v = HttpUtils.next Q [.mark .headerValue] := by
    simp only [headerValueStartCase, N]
    rw [if_neg (by simp [hv])]
  have hFirst : InLength P (v - '0').toNat Q := ⟨rfl, rfl, .move _ _ _ _⟩
  obtain ⟨r', hLine, hAt⟩ := AtLine.someValue hOpen hValue (hBytes v hv).2 (fun c hc => (hBytes c (hNum c hc)).1)
    (q := ⟨N, m.see (.onHeaderField (contentLengthHeader n).name), r.fed + (13 + 3)⟩) rfl rfl hOpen.upgrade hStart
    (fun u hu => by
      have hFold := hFirst.foldl hDecimal hn hu
      exact ⟨hFold.state, hFold.same.httpErrno.trans hOpen.errno, hFold.same.upgrade.trans hOpen.upgrade⟩)
    hName (by simp only; omega)
  have hFold := hFirst.foldl hDecimal hn (List.prefix_refl s)
  rw [← hDecimal, (decimal_spec n).1] at hFold
  refine ⟨r', _, hLine, hAt, ?_⟩
  have hFlags : finishHeaderFlags (s.foldl valueStep Q).headerState (s.foldl valueStep Q).flags =
      (s.foldl valueStep Q).flags := by
    rw [hFold.header]
    rfl
  have hEnded : lineEnded { s.foldl valueStep Q with state := .sHeaderValueLws } =
      { s.foldl valueStep Q with state := .sHeaderFieldStart } := by
    simp only [lineEnded, hFlags]
  rw [hEnded]
  exact hFold.same.trans (.move _ _ _ _)

end Reader

/-! ### The blank line and the body -/

/-- The framing by the length `n` and nothing else. -/
structure Framed (P : HttpParser) (n : ℕ) : Prop where
  contentLength : P.contentLength = n
  method : P.method ≠ .connect
  upgrade : P.upgrade = false
  fChunked : P.flags.fChunked = false
  fTrailing : P.flags.fTrailing = false
  fUpgrade : P.flags.fUpgrade = false
  fSkipbody : P.flags.fSkipbody = false

theorem Framed.same {P Q : HttpParser} {n : ℕ} (h : Framed P n) (hSame : SameMessage P Q) : Framed Q n :=
  ⟨hSame.contentLength.trans h.contentLength, fun hQ => h.method (hSame.method.symm.trans hQ),
    hSame.upgrade.trans h.upgrade, hSame.fChunked.trans h.fChunked, hSame.fTrailing.trans h.fTrailing,
    hSame.fUpgrade.trans h.fUpgrade, hSame.fSkipbody.trans h.fSkipbody⟩

theorem Framed.headersAlmostDone {P : HttpParser} {n : ℕ} (h : Framed P n) (hn : n ≤ stringMaxSize) :
    ∃ Q acts, headersAlmostDoneCase P LF = next Q (.notify .headersComplete :: acts) ∧ Q.upgrade = false ∧
      Q.httpMajor = P.httpMajor ∧ Q.httpMinor = P.httpMinor ∧
      (n = 0 → acts = [.notify .messageComplete] ∧ openMark Q.state = none) ∧
      (0 < n → acts = [] ∧ Q.state = .sBodyIdentity ∧ Q.contentLength = n) := by
  have hUp : (P.flags.fUpgrade && P.flags.fConnectionUpgrade || P.method == .connect) = false := by
    simp [h.fUpgrade, h.method]
  have hMax : n ≠ ullongMax := by
    simp only [stringMaxSize] at hn
    simp only [ullongMax]
    omega
  rw [headersAlmostDoneCase, if_neg (by decide), if_neg (by simp [h.fTrailing]), if_neg (by simp [h.fChunked])]
  simp only [hUp, headersDoneCase, h.fSkipbody, h.fChunked, h.contentLength]
  rw [if_neg (by decide), if_neg (by simp), if_neg (by decide), if_neg (by decide)]
  by_cases hZero : n = 0
  · rw [if_pos hZero]
    exact ⟨_, _, rfl, rfl, rfl, rfl, fun _ => ⟨rfl, openMark_newMessage _⟩, fun hPos => absurd hZero (by omega)⟩
  · rw [if_neg hZero, if_pos hMax]
    exact ⟨_, [], rfl, rfl, rfl, rfl, fun hEq => absurd hEq hZero, fun _ => ⟨rfl, rfl, rfl⟩⟩

namespace Reader

theorem passes_body {r : Reader} {body : Bytes} (hState : r.parser.state = .sBodyIdentity)
    (hLength : r.parser.contentLength = body.length) (hSome : body ≠ []) (hComplete : r.message.complete = false)
    (hUpgrade : r.parser.upgrade = false) :
    ∃ r', r.Passes body r' ∧ r'.message = { r.message with body := r.message.body ++ body, complete := true } ∧
      r'.parser.upgrade = false := by
  induction body generalizing r with
  | nil => exact absurd rfl hSome
  | cons ch body ih =>
    have hMin : min r.parser.contentLength 1 = 1 := by
      rw [hLength, List.length_cons]
      omega
    have hOpen : openMark r.parser.state = none := by
      rw [hState]
      rfl
    have hSteady (hLossless : ¬ r.Loses ch) : r.Steady ch := by
      refine ⟨⟨fun hHeader => ?_, fun hValue => ?_⟩, hComplete, hUpgrade, hLossless⟩
      · rw [hState] at hHeader
        cases hHeader
      · rw [hState] at hValue
        cases hValue
    have hCase : byteCase r.parser ch = bodyIdentityCase r.parser 1 := by
      simp only [byteCase, hState, switch]
    simp only [bodyIdentityCase, hMin] at hCase
    by_cases hLast : body = []
    · subst hLast
      rw [if_pos (by simp [hLength])] at hCase
      have hNext : byteCase r.parser ch = HttpUtils.next
          { r.parser with
            contentLength := r.parser.contentLength - 1
            state := newMessage { r.parser with contentLength := r.parser.contentLength - 1, state :=
              .sMessageDone } }
          [.mark .body, .advance 0, .dataThrough .body, .notify .messageComplete] := by
        rw [hCase]
        simp only [messageDoneCase, hUpgrade, Outcome.after]
        rfl
      refine ⟨_, .single (step_of_next hNext) (hSteady ?_), ?_, hUpgrade⟩
      · rw [loses_iff_of_next hNext]
        simp [ActsLose, Act.Loses, Message.LosesAt]
      · simp [Move.spell, Live.act, Live.consume, DataCb.call, NotifyCb.call, Message.see]
    · have hPos : body.length ≠ 0 := by simpa using hLast
      rw [if_neg (by rw [hLength, List.length_cons]; omega)] at hCase
      have hStep := step_of_next hCase
      simp only [Move.spell, hOpen, List.foldl_cons, List.foldl_nil, Live.act, Live.consume,
        Message.see_split] at hStep
      obtain ⟨r', hPasses, hMessage, hUp⟩ := ih (r := ⟨{ r.parser with contentLength := r.parser.contentLength - 1 },
        { r.message with body := r.message.body ++ [ch] }, r.fed + 1⟩) hState
        (by simp only [hLength, List.length_cons]; omega) hLast hComplete hUpgrade
      refine ⟨r', .cons hStep (hSteady ?_) hPasses, ?_, hUp⟩
      · rw [loses_iff_of_next hCase]
        simp [ActsLose, Act.Loses, Message.LosesAt]
      · rw [hMessage]
        simp

theorem AtLine.finish {r : Reader} {P : HttpParser} {m : Message} (h : r.AtLine P m) {body : Bytes}
    (hFramed : Framed P body.length) (hMax : body.length ≤ stringMaxSize) (hComplete : m.complete = false)
    (hFed : r.fed + 2 ≤ room) :
    ∃ r', r.Passes (crlf ++ body) r' ∧ r'.parser.upgrade = false ∧
      r'.message = { m with
        version := some (P.httpMajor, P.httpMinor), body := m.body ++ body, complete := true } := by
  have hCr : headerFieldStartCase P CR = HttpUtils.next { P with state := .sHeadersAlmostDone } := rfl
  have hCrPasses := h.enter (by decide) (by decide) hCr id (by omega)
  have hSpell : Move.spell P CR ⟨[], { P with state := .sHeadersAlmostDone }, .outer⟩ m = m := by
    simp only [Move.spell, h.state]
    rfl
  rw [hSpell] at hCrPasses
  have hFramed' : Framed { P with state := .sHeadersAlmostDone } body.length :=
    hFramed.same (.move P .sHeadersAlmostDone P.headerState P.index)
  obtain ⟨Q, acts, hLf, hUp, hMajor, hMinor, hEmpty, hBody⟩ := hFramed'.headersAlmostDone hMax
  have hCase : byteCase { P with state := .sHeadersAlmostDone } LF =
      HttpUtils.next Q (.notify .headersComplete :: acts) := hLf
  have hStep := step_of_next (r := ⟨{ P with state := .sHeadersAlmostDone }, m, r.fed + 1⟩) hCase
  have hSteady (hActs : acts = [] ∨ acts = [.notify .messageComplete]) :
      Reader.Steady ⟨{ P with state := .sHeadersAlmostDone }, m, r.fed + 1⟩ LF := by
    refine ⟨clean_of_room (by simp only; omega) (fun hValue => by cases hValue), hComplete, hFramed.upgrade, ?_⟩
    rw [loses_iff_of_next hCase]
    rcases hActs with rfl | rfl <;> simp [ActsLose, Act.Loses]
  have hVersion : NotifyCb.headersComplete.call Q = .onHeadersComplete P.httpMajor P.httpMinor := by
    simp only [NotifyCb.call, hMajor, hMinor]
  have hMark : openMark (State.sHeadersAlmostDone) = none := rfl
  rcases Nat.eq_zero_or_pos body.length with hZero | hPos
  · obtain rfl : body = [] := List.length_eq_zero_iff.mp hZero
    obtain ⟨rfl, -⟩ := hEmpty rfl
    simp only [Move.spell, hMark, List.foldl_cons, List.foldl_nil, Live.act, Live.consume, hVersion] at hStep
    refine ⟨_, hCrPasses.trans (.single hStep (hSteady (.inr rfl))), hUp, ?_⟩
    simp [NotifyCb.call, Message.see]
  · obtain ⟨rfl, hState, hLength⟩ := hBody hPos
    simp only [Move.spell, hMark, List.foldl_cons, List.foldl_nil, Live.act, Live.consume, hVersion] at hStep
    obtain ⟨r', hPasses, hMessage, hUp'⟩ := passes_body
      (r := ⟨Q, m.see (.onHeadersComplete P.httpMajor P.httpMinor), r.fed + 1 + 1⟩) hState hLength
      (List.ne_nil_of_length_pos hPos) hComplete hUp
    exact ⟨r', hCrPasses.trans ((Passes.single hStep (hSteady (.inl rfl))).trans hPasses), hUp', hMessage⟩

end Reader

end HttpUtils
