import HttpUtils.HttpParser.Lines
import HttpUtils.HttpParser.ContentLength

/-!
# The framing that the header lines leave

What any line keeps of the parser, what the length line of the encoders adds to it, and how the blank line and
the body are read then.
-/

namespace HttpUtils
set_option autoImplicit false

open PartialRun (Leads)

/-! ### What a line keeps -/

/-- The parsers are at the same message, and no length that was given is forgotten. -/
structure Kept (P Q : HttpParser) : Prop where
  type : Q.type = P.type
  httpMajor : Q.httpMajor = P.httpMajor
  httpMinor : Q.httpMinor = P.httpMinor
  statusCode : Q.statusCode = P.statusCode
  method : Q.method = P.method
  upgrade : Q.upgrade = P.upgrade
  fTrailing : Q.flags.fTrailing = P.flags.fTrailing
  fSkipbody : Q.flags.fSkipbody = P.flags.fSkipbody
  length : P.flags.fContentlength = true → Q.flags.fContentlength = true
  errno : Q.httpErrno = .ok → P.httpErrno = .ok

theorem Kept.refl (P : HttpParser) : Kept P P := ⟨rfl, rfl, rfl, rfl, rfl, rfl, rfl, rfl, id, id⟩

theorem Kept.trans {P Q R : HttpParser} (h : Kept P Q) (h' : Kept Q R) : Kept P R where
  type := h'.type.trans h.type
  httpMajor := h'.httpMajor.trans h.httpMajor
  httpMinor := h'.httpMinor.trans h.httpMinor
  statusCode := h'.statusCode.trans h.statusCode
  method := h'.method.trans h.method
  upgrade := h'.upgrade.trans h.upgrade
  fTrailing := h'.fTrailing.trans h.fTrailing
  fSkipbody := h'.fSkipbody.trans h.fSkipbody
  length hOn := h'.length (h.length hOn)
  errno hOk := h.errno (h'.errno hOk)

theorem Kept.foldl {f : HttpParser → UInt8 → HttpParser} (h : ∀ P ch, Kept P (f P ch)) (P : HttpParser) (s : Bytes) :
    Kept P (s.foldl f P) := by
  induction s generalizing P with
  | nil => exact .refl P
  | cons ch s ih => exact (h P ch).trans (ih _)

theorem Kept.move (P : HttpParser) (s : State) (h : HeaderStates) (i n : ℕ) :
    Kept P { P with state := s, headerState := h, index := i, contentLength := n } :=
  ⟨rfl, rfl, rfl, rfl, rfl, rfl, rfl, rfl, id, id⟩

theorem kept_matchKeyword (keyword : Bytes) (P : HttpParser) (c : UInt8) {done : HttpParser → HttpParser}
    (h : ∀ P, Kept P (done P)) : Kept P (matchKeyword keyword P c done) := by
  have hIndex : Kept P { P with index := P.index + 1 } := .move P P.state P.headerState _ P.contentLength
  simp only [matchKeyword]
  split
  · exact .move P P.state .hGeneral _ P.contentLength
  split
  · exact hIndex.trans (h _)
  · exact hIndex

theorem kept_nameStep (P : HttpParser) (ch : UInt8) : Kept P (nameStep P ch) := by
  have hMove (h : HeaderStates) (i : ℕ) : Kept P { P with headerState := h, index := i } :=
    .move P P.state h i P.contentLength
  cases hs : P.headerState <;> simp only [nameStep, headerFieldChar, hs]
  case hMatchingContentLength =>
    refine kept_matchKeyword _ _ _ fun P => ?_
    split
    · exact ⟨rfl, rfl, rfl, rfl, rfl, rfl, rfl, rfl, id, fun hError => by simp [setErrno] at hError⟩
    · exact ⟨rfl, rfl, rfl, rfl, rfl, rfl, rfl, rfl, fun _ => rfl, id⟩
  case hMatchingConnection | hMatchingProxyConnection | hMatchingTransferEncoding | hMatchingUpgrade =>
    exact kept_matchKeyword _ _ _ fun P => .move P P.state _ P.index P.contentLength
  case hC | hCO | hCON => exact hMove _ _
  case hConnection | hContentLength | hTransferEncoding | hUpgrade =>
    split
    · exact hMove _ P.index
    · exact .refl P
  all_goals exact .refl P

theorem kept_valueStep (P : HttpParser) (ch : UInt8) : Kept P (valueStep P ch) := by
  have hMove (h : HeaderStates) (i n : ℕ) : Kept P { P with headerState := h, index := i, contentLength := n } :=
    .move P P.state h i n
  have hMatch (keyword : Bytes) (g done miss : HeaderStates) :
      Kept P { (matchValue keyword P (lower ch) g done miss).1 with
        headerState := (matchValue keyword P (lower ch) g done miss).2 } := by
    simp only [matchValue]
    repeat' split
    all_goals exact hMove _ _ P.contentLength
  cases hs : P.headerState <;> simp only [valueStep, headerValueChar, hs]
  case hMatchingTransferEncodingChunked | hMatchingConnectionKeepAlive | hMatchingConnectionClose
    | hMatchingConnectionUpgrade => exact hMatch _ _ _ _
  case hContentLength =>
    split
    · exact hMove _ P.index P.contentLength
    split
    · exact ⟨rfl, rfl, rfl, rfl, rfl, rfl, rfl, rfl, id, fun hError => by simp [setErrno] at hError⟩
    · exact hMove _ P.index _
  case hMatchingConnectionToken =>
    split
    · exact hMove _ 0 P.contentLength
    · exact hMove _ P.index P.contentLength
  case hConnectionKeepAlive | hConnectionClose | hConnectionUpgrade =>
    split
    · exact ⟨rfl, rfl, rfl, rfl, rfl, rfl, rfl, rfl, id, id⟩
    · exact hMove _ P.index P.contentLength
  all_goals exact hMove _ P.index P.contentLength

theorem kept_valueStart (P : HttpParser) (ch : UInt8) : Kept P (headerValueStartCase P ch).parser := by
  cases hs : P.headerState <;> simp only [headerValueStartCase, hs]
  case hContentLength =>
    split
    · exact ⟨rfl, rfl, rfl, rfl, rfl, rfl, rfl, rfl, id, fun hError => by simp [fail] at hError⟩
    · exact .move P _ _ 0 _
  case hUpgrade => exact ⟨rfl, rfl, rfl, rfl, rfl, rfl, rfl, rfl, id, id⟩
  all_goals exact .move P _ _ 0 P.contentLength

theorem kept_lineEnded (P : HttpParser) : Kept P (Reader.lineEnded P) := by
  cases hs : P.headerState <;> simp only [Reader.lineEnded, finishHeaderFlags, hs] <;>
    exact ⟨rfl, rfl, rfl, rfl, rfl, rfl, rfl, rfl, id, id⟩

theorem kept_nameParser (P : HttpParser) (name : Bytes) : Kept P (Reader.nameParser P name) := by
  cases name with
  | nil => exact .refl P
  | cons first s =>
    have hStart : Kept P (nameStart P first) := .move P _ _ 0 P.contentLength
    exact (hStart.trans (Kept.foldl kept_nameStep _ s)).trans (.move _ _ _ _ _)

theorem kept_valueParser (P : HttpParser) (v : Bytes) : Kept P (valueParser P v) := by
  cases v with
  | nil => exact .move P _ _ _ _
  | cons first s => exact ((kept_valueStart P first).trans (Kept.foldl kept_valueStep _ s)).trans (.move _ _ _ _ _)

/-- Whatever a header line says, it keeps the message. -/
theorem kept_lineParser (P : HttpParser) (name rest : Bytes) : Kept P (lineParser P name rest) :=
  ((kept_nameParser P name).trans (kept_valueParser _ _)).trans (kept_lineEnded _)

/-! ### The line of the length -/

theorem nameStep_congr (P : HttpParser) {a b : UInt8} (h : token a = token b) (ha : token a ≠ 0) :
    nameStep P a = nameStep P b := by
  have hNotSp (x : UInt8) (hx : token x ≠ 0) : x ≠ SP := by
    rintro rfl
    exact hx (by decide)
  have hSp := hNotSp a ha
  have hSp' := hNotSp b (h ▸ ha)
  cases hs : P.headerState <;> simp only [nameStep, headerFieldChar, hs, h, if_pos hSp, if_pos hSp']

theorem nameParser_congr (P : HttpParser) {a b : Bytes} (h : a.map token = b.map token)
    (ha : ∀ ch ∈ a, token ch ≠ 0) :
    Reader.nameParser P a = Reader.nameParser P b := by
  have hFold (P : HttpParser) {a b : Bytes} (h : a.map token = b.map token) (ha : ∀ ch ∈ a, token ch ≠ 0) :
      a.foldl nameStep P = b.foldl nameStep P := by
    induction a generalizing P b with
    | nil =>
      obtain rfl : b = [] := by simpa using h.symm
      rfl
    | cons x a ih =>
      obtain ⟨y, b, rfl⟩ := List.exists_cons_of_ne_nil (l := b) (by rintro rfl; simp at h)
      obtain ⟨hHead, hTail⟩ := List.cons_eq_cons.mp h
      rw [List.foldl_cons, List.foldl_cons, nameStep_congr P hHead (ha x List.mem_cons_self)]
      exact ih _ hTail fun ch hch => ha ch (List.mem_cons_of_mem x hch)
  cases a with
  | nil =>
    obtain rfl : b = [] := by simpa using h.symm
    rfl
  | cons x a =>
    obtain ⟨y, b, rfl⟩ := List.exists_cons_of_ne_nil (l := b) (by rintro rfl; simp at h)
    obtain ⟨hHead, hTail⟩ := List.cons_eq_cons.mp h
    have hStart : nameStart P x = nameStart P y := by simp only [nameStart, hHead]
    simp only [Reader.nameParser, hStart]
    rw [hFold (nameStart P y) hTail fun ch hch => ha ch (List.mem_cons_of_mem x hch)]

/-- The name of the length: an error if there has been one before. -/
theorem nameParser_contentLength (P : HttpParser) {name : Bytes} (hTokens : ∀ ch ∈ name, token ch ≠ 0)
    (hName : name.map asciiLower = ascii "content-length")
    (hOk : (Reader.nameParser P name).httpErrno = .ok) : P.flags.fContentlength = false ∧
      Reader.nameParser P name =
        { withLength P with index := 13, state := .sHeaderValueDiscardWs, headerState := .hContentLength } := by
  have hSame : Reader.nameParser P name = Reader.nameParser P (ascii "Content-Length") := by
    refine nameParser_congr P ?_ hTokens
    rw [asciiLower_map hTokens, hName]
    decide +kernel
  have hBytes : ascii "Content-Length" = ('C' : UInt8) :: ascii "ontent-Length" := rfl
  rw [hSame, hBytes] at hOk ⊢
  simp only [Reader.nameParser, nameStart_contentLength] at hOk ⊢
  have hFlag : P.flags.fContentlength = false := by
    by_contra hOn
    rw [Bool.not_eq_false] at hOn
    have hLetters : ascii "ontent-Length" = [111, 110, 116, 101, 110, 116, 45, 76, 101, 110, 103, 116, 104] := by
      decide +kernel
    have hTokens : token 111 = 111 ∧ token 110 = 110 ∧ token 116 = 116 ∧ token 101 = 101 ∧ token 45 = 45 ∧
        token 76 = 108 ∧ token 103 = 103 ∧ token 104 = 104 := by
      decide +kernel
    rw [hLetters] at hOk
    simp [nameStep, headerFieldChar, matchKeyword, ascii_contentLength, hTokens, hOn, setErrno] at hOk
  refine ⟨hFlag, ?_⟩
  rw [foldl_contentLength hFlag]

theorem digit_le : ∀ c : UInt8, isNum c = true → (c - '0').toNat ≤ 9 := forall_byte (by decide +kernel)

theorem InLength.foldl_of_ok {P₀ P : HttpParser} {n : ℕ} (h : InLength P₀ n P) (hn : n < ullongMax) {s : Bytes}
    (hNum : ∀ c ∈ s, isNum c = true) (hOk : (s.foldl valueStep P).httpErrno = .ok) :
    InLength P₀ (digitsValue n s) (s.foldl valueStep P) ∧ digitsValue n s < ullongMax := by
  induction s generalizing P n with
  | nil => exact ⟨h, hn⟩
  | cons c s ih =>
    have hc := hNum c List.mem_cons_self
    have hFirst : (valueStep P c).httpErrno = .ok := (Kept.foldl kept_valueStep (valueStep P c) s).errno hOk
    have hSp : c ≠ SP := by
      rintro rfl
      exact absurd hc (by decide)
    have hSmall : n ≤ (ullongMax - 10) / 10 := by
      by_contra hLarge
      have hLength : P.contentLength = n := h.same.contentLength
      have hRefused : (!isNum c) = true ∨ (ullongMax - 10) / 10 < P.contentLength := by
        right
        omega
      simp only [valueStep, h.header, headerValueChar, if_neg hSp, if_pos hRefused] at hFirst
      simp [setErrno] at hFirst
    have hDigit := digit_le c hc
    refine ih (h.step hc hSmall) ?_ (fun d hd => hNum d (List.mem_cons_of_mem c hd)) hOk
    simp only [ullongMax] at hSmall ⊢
    omega

theorem lineParser_contentLength {P : HttpParser} {name rest digits : Bytes} (hTokens : ∀ ch ∈ name, token ch ≠ 0)
    (hName : name.map asciiLower = ascii "content-length") (hRest : dropBlanks rest = digits) (hSome : digits ≠ [])
    (hNum : ∀ c ∈ digits, isNum c = true) (hOk : (lineParser P name rest).httpErrno = .ok) :
    P.flags.fContentlength = false ∧ digitsValue 0 digits < ullongMax ∧
      SameMessage { withLength P with contentLength := digitsValue 0 digits } (lineParser P name rest) := by
  obtain ⟨v, s, rfl⟩ := List.exists_cons_of_ne_nil hSome
  have hv := hNum v List.mem_cons_self
  have hNameOk : (Reader.nameParser P name).httpErrno = .ok :=
    (kept_valueParser _ _).errno ((kept_lineEnded _).errno hOk)
  obtain ⟨hFlag, hNamed⟩ := nameParser_contentLength P hTokens hName hNameOk
  let N : HttpParser :=
    { withLength P with index := 13, state := .sHeaderValueDiscardWs, headerState := .hContentLength }
  let Q : HttpParser := { N with index := 0, state := .sHeaderValue, contentLength := (v - '0').toNat }
  have hStart : headerValueStartCase N v = next Q [.mark .headerValue] := by
    simp only [headerValueStartCase, N]
    rw [if_neg (by simp [hv])]
  have hLine : lineParser P name rest = Reader.lineEnded { s.foldl valueStep Q with state := .sHeaderValueLws } := by
    rw [lineParser, hRest, hNamed, valueParser]
    show Reader.lineEnded { s.foldl valueStep (headerValueStartCase N v).parser with state := .sHeaderValueLws } = _
    rw [hStart]
    rfl
  have hFirst : InLength P (v - '0').toNat Q := ⟨rfl, rfl, .move _ _ _ _⟩
  have hDigit := digit_le v hv
  have hValue : digitsValue (v - '0').toNat s = digitsValue 0 (v :: s) := by
    simp only [digitsValue, List.foldl_cons, Nat.zero_mul, Nat.zero_add]
  rw [hLine] at hOk ⊢
  obtain ⟨hFold, hMax⟩ := hFirst.foldl_of_ok (Nat.lt_of_le_of_lt hDigit (by decide))
    (fun c hc => hNum c (List.mem_cons_of_mem v hc)) ((kept_lineEnded _).errno hOk)
  rw [hValue] at hFold hMax
  have hFlags : finishHeaderFlags (s.foldl valueStep Q).headerState (s.foldl valueStep Q).flags =
      (s.foldl valueStep Q).flags := by
    rw [hFold.header]
    rfl
  have hEnded : Reader.lineEnded { s.foldl valueStep Q with state := .sHeaderValueLws } =
      { s.foldl valueStep Q with state := .sHeaderFieldStart } := by
    simp only [Reader.lineEnded, hFlags]
  rw [hEnded]
  exact ⟨hFlag, hMax, hFold.same.trans (.move _ _ _ _)⟩

/-! ### The blank line and the body -/

structure LengthGiven (P : HttpParser) (n : ℕ) : Prop where
  contentLength : P.contentLength = n
  max : n < ullongMax
  fContentlength : P.flags.fContentlength = true
  fTrailing : P.flags.fTrailing = false
  fSkipbody : P.flags.fSkipbody = false

structure HeadRead (P : HttpParser) (m : Message) (n : ℕ) (r : Reader) : Prop where
  empty : n = 0 → r.message = { m with version := some (P.httpMajor, P.httpMinor), complete := true } ∧
    r.parser.upgrade = false
  body : 0 < n → r.message = { m with version := some (P.httpMajor, P.httpMinor) } ∧
    r.parser.state = .sBodyIdentity ∧ r.parser.contentLength = n

theorem LengthGiven.headersAlmostDone {P : HttpParser} {n : ℕ} (h : LengthGiven P n) :
    (headersAlmostDoneCase P LF).flow ≠ .next ∨
      ∃ Q acts, headersAlmostDoneCase P LF = next Q (.notify .headersComplete :: acts) ∧
        Q.httpMajor = P.httpMajor ∧ Q.httpMinor = P.httpMinor ∧
        (n = 0 → acts = [.notify .messageComplete] ∧ Q.upgrade = false) ∧
        (0 < n → acts = [] ∧ Q.state = .sBodyIdentity ∧ Q.contentLength = n) := by
  rw [headersAlmostDoneCase, if_neg (by decide), if_neg (by simp [h.fTrailing])]
  by_cases hChunked : P.flags.fChunked = true
  · left
    rw [if_pos (by simp [hChunked, h.fContentlength])]
    exact fail_flow _ _
  rw [Bool.not_eq_true] at hChunked
  rw [if_neg (by simp [hChunked])]
  simp only [headersDoneCase, h.fSkipbody, hChunked, h.contentLength, hasBody]
  rw [if_neg (by decide)]
  generalize (P.flags.fUpgrade && P.flags.fConnectionUpgrade || P.method == .connect) = up
  split
  · exact .inl (by simp [Outcome.after])
  rename_i hGoesOn
  right
  rw [if_neg (by decide), if_neg (by decide)]
  by_cases hZero : n = 0
  · rw [if_pos hZero]
    have hUp : up = false := by simpa [hZero] using hGoesOn
    exact ⟨_, _, rfl, rfl, rfl, fun _ => ⟨rfl, hUp⟩, fun hPos => absurd hZero (Nat.ne_of_gt hPos)⟩
  · rw [if_neg hZero, if_pos (Nat.ne_of_lt h.max)]
    exact ⟨_, [], rfl, rfl, rfl, fun hEq => absurd hEq hZero, fun _ => ⟨rfl, rfl, rfl⟩⟩

namespace Reader

variable {d : Prop} {P : HttpParser} {m : Message}

theorem Starts.leads_blank {r : Reader} {n : ℕ} (h : r.Starts P m) (hGiven : LengthGiven P n) :
    Leads Reader.step (Calm m.complete d) r crlf (HeadRead P m n) := by
  have hOpen : openMark P.state = none := by
    rw [h.state]
    rfl
  have hCrCase : headerFieldStartCase P CR = HttpUtils.next { P with state := .sHeadersAlmostDone } := rfl
  have hCr := h.leads_first (d := d) (by decide) (by decide) hCrCase id
  refine leads_crlf (hCr.mono fun t ht => ?_)
  have hSame : t.message = m := by
    rw [ht.2]
    simp [Move.spell, Live.consume, hOpen]
  have hCase : byteCase t.parser LF = headersAlmostDoneCase { P with state := .sHeadersAlmostDone } LF := by
    rw [ht.1]
    rfl
  have hNotName : t.parser.state ≠ .sHeaderField := by rw [ht.1]; simp
  have hMark : openMark t.parser.state = none := by
    rw [ht.1]
    rfl
  have hGiven' : LengthGiven { P with state := .sHeadersAlmostDone } n :=
    ⟨hGiven.contentLength, hGiven.max, hGiven.fContentlength, hGiven.fTrailing, hGiven.fSkipbody⟩
  rcases hGiven'.headersAlmostDone with hRefused | ⟨Q, acts, hNext, hMajor, hMinor, hEmpty, hBody⟩
  · exact Reader.leads_refused (hCase ▸ hRefused) (by rw [hSame]) (not_repeats hNotName) [] _
  have hVersion : NotifyCb.headersComplete.call Q = .onHeadersComplete P.httpMajor P.httpMinor := by
    simp only [NotifyCb.call, hMajor, hMinor]
  rcases Nat.eq_zero_or_pos n with hZero | hPos
  · obtain ⟨rfl, hUpgrade⟩ := hEmpty hZero
    refine (leads_next (hCase.trans hNext) (by rw [hSame]) (by simp [ActsLose, Act.Loses])
      (not_repeats hNotName)).mono fun q hq => ⟨fun _ => ⟨?_, by rw [hq.1, hUpgrade]⟩, fun hPos => by omega⟩
    rw [hq.2, hSame]
    simp only [Move.spell, hMark, List.foldl_cons, List.foldl_nil, Live.act, Live.consume, hVersion]
    rfl
  · obtain ⟨rfl, hState, hLength⟩ := hBody hPos
    refine (leads_next (hCase.trans hNext) (by rw [hSame]) (by simp [ActsLose, Act.Loses])
      (not_repeats hNotName)).mono fun q hq =>
        ⟨fun hZero => by omega, fun _ => ⟨?_, by rw [hq.1, hState], by rw [hq.1, hLength]⟩⟩
    rw [hq.2, hSame]
    simp only [Move.spell, hMark, List.foldl_cons, List.foldl_nil, Live.act, Live.consume, hVersion]
    rfl

theorem leads_body {r : Reader} {body : Bytes} (hState : r.parser.state = .sBodyIdentity)
    (hLength : r.parser.contentLength = body.length) (hSome : body ≠ [])
    (hComplete : r.message.complete = m.complete) :
    Leads Reader.step (Calm m.complete d) r body fun t =>
      t.message = { r.message with body := r.message.body ++ body, complete := true } ∧ t.parser.upgrade = false := by
  induction body generalizing r with
  | nil => exact absurd rfl hSome
  | cons ch body ih =>
    have hNotName : r.parser.state ≠ .sHeaderField := by rw [hState]; simp
    have hMin : min r.parser.contentLength 1 = 1 := by
      rw [hLength, List.length_cons]
      omega
    have hOpen : openMark r.parser.state = none := by
      rw [hState]
      rfl
    have hCase : byteCase r.parser ch = bodyIdentityCase r.parser 1 := by
      simp only [byteCase, hState, switch]
    simp only [bodyIdentityCase, hMin] at hCase
    by_cases hLast : body = []
    · subst hLast
      rw [if_pos (by simp [hLength])] at hCase
      cases hUpgrade : r.parser.upgrade with
      | true =>
        refine leads_refused ?_ hComplete (not_repeats hNotName) [] _
        rw [hCase]
        simp [messageDoneCase, Outcome.after, hUpgrade]
      | false =>
        have hNext : byteCase r.parser ch = HttpUtils.next
            { r.parser with
              contentLength := r.parser.contentLength - 1
              state := newMessage { r.parser with contentLength := r.parser.contentLength - 1, state :=
                .sMessageDone } }
            [.mark .body, .advance 0, .dataThrough .body, .notify .messageComplete] := by
          rw [hCase]
          simp only [messageDoneCase, hUpgrade, Outcome.after]
          rfl
        refine (leads_next hNext hComplete (by simp [ActsLose, Act.Loses, Message.LosesAt])
          (not_repeats hNotName)).mono
          fun t ht => ⟨?_, by rw [ht.1]; exact hUpgrade⟩
        rw [ht.2]
        simp [Move.spell, Live.act, Live.consume, DataCb.call, NotifyCb.call, Message.see]
    · have hPos : body.length ≠ 0 := by simpa using hLast
      rw [if_neg (by rw [hLength, List.length_cons]; omega)] at hCase
      have hFirst := leads_next (d := d) hCase hComplete (by simp [ActsLose, Act.Loses, Message.LosesAt])
        (not_repeats hNotName)
      simp only [Move.spell, hOpen, List.foldl_cons, List.foldl_nil, Live.act, Live.consume,
        Message.see_split] at hFirst
      refine hFirst.append fun t ht => ?_
      refine (ih (r := t) ?_ ?_ hLast ?_).mono fun q hr => ⟨?_, hr.2⟩
      · rw [ht.1]
        exact hState
      · simp only [ht.1, hLength, List.length_cons]
        omega
      · rw [ht.2]
        exact hComplete
      · rw [hr.1, ht.2]
        simp [DataCb.call, Message.see]

/-- Somewhere between two header lines of a message that began with the parser `P₀`. -/
def InHead (P₀ : HttpParser) (m : Message) (r : Reader) : Prop :=
  ∃ P, r.Starts P m ∧ P.httpErrno = .ok ∧ m.inName = false ∧ Kept P₀ P

theorem InHead.leads_lines {P₀ : HttpParser} {r : Reader} (h : InHead P₀ m r) {xs : List (Bytes × Bytes)}
    (hLines : ∀ x ∈ xs, OneLine x.1 x.2) :
    Leads Reader.step (Calm m.complete True) r (xs.flatMap fun x => fieldLine x.1 x.2)
      (InHead P₀ ((xs.map fun x => ⟨x.1, dropBlanks x.2⟩).foldl Message.addHeader m)) := by
  induction xs generalizing r m with
  | nil => exact .nil h
  | cons x xs ih =>
    obtain ⟨P, hStarts, hOk, hName, hKept⟩ := h
    rw [List.flatMap_cons]
    refine (hStarts.leads_line hOk hName (hLines x List.mem_cons_self) fun _ _ => trivial).append fun t ht => ?_
    have hHere : InHead P₀ (m.addHeader ⟨x.1, dropBlanks x.2⟩) t :=
      ⟨_, ht.starts, ht.errno, rfl, hKept.trans (kept_lineParser P x.1 x.2)⟩
    exact ih hHere fun y hy => hLines y (List.mem_cons_of_mem x hy)

theorem Starts.leads_length {r : Reader} (h : r.Starts P m) (hOk : P.httpErrno = .ok) (hName : m.inName = false)
    (hTrailing : P.flags.fTrailing = false) (hSkip : P.flags.fSkipbody = false)
    (hRepeats : P.flags.fContentlength = true → d) (body : Bytes) :
    Leads Reader.step (Calm m.complete d) r (headerLine (contentLengthHeader body.length) ++ (crlf ++ body)) fun t =>
      t.message = { m.addHeader (contentLengthHeader body.length) with
        version := some (P.httpMajor, P.httpMinor), body := m.body ++ body, complete := true } ∧
      t.parser.upgrade = false := by
  have hLineEq : headerLine (contentLengthHeader body.length) =
      fieldLine (ascii "Content-Length") (ascii " " ++ decimal body.length) := by
    have hSeparator : nameValueSeparator = [(':' : UInt8)] ++ ascii " " := rfl
    simp only [headerLine, fieldLine, contentLengthHeader, hSeparator, List.append_assoc]
  obtain ⟨hValue, hNums, v, s, hDecimal, -⟩ := decimal_spec body.length
  have hNotBlank : ∀ c : UInt8, isNum c = true → c ≠ SP ∧ c ≠ HT ∧ c ≠ LF := forall_byte (by decide +kernel)
  have hRest : dropBlanks (ascii " " ++ decimal body.length) = decimal body.length := by
    have hv := hNotBlank v (hNums v (by rw [hDecimal]; exact List.mem_cons_self))
    rw [hDecimal]
    have hSp : ascii " " = [SP] := rfl
    simp [dropBlanks, hSp, hv]
  have hLine : OneLine (ascii "Content-Length") (ascii " " ++ decimal body.length) := by
    refine ⟨by decide +kernel, by decide +kernel, by decide +kernel, fun hMem => ?_⟩
    rcases List.mem_append.mp hMem with hMem | hMem
    · exact absurd hMem (by decide +kernel)
    · exact (hNotBlank LF (hNums LF hMem)).2.2 rfl
  rw [hLineEq]
  refine (h.leads_line hOk hName hLine fun hOn _ => hRepeats hOn).append fun t ht => ?_
  obtain ⟨-, hMax, hSame⟩ := lineParser_contentLength ht.tokens (by decide +kernel) hRest
    (by rw [hDecimal]; simp) hNums
    ht.errno
  rw [hValue] at hMax hSame
  have hGiven : LengthGiven (lineParser P (ascii "Content-Length") (ascii " " ++ decimal body.length)) body.length :=
    ⟨hSame.contentLength, hMax, hSame.fContentlength, hSame.fTrailing.trans hTrailing, hSame.fSkipbody.trans hSkip⟩
  have hSeen : m.addHeader ⟨ascii "Content-Length", dropBlanks (ascii " " ++ decimal body.length)⟩ =
      m.addHeader (contentLengthHeader body.length) := by
    rw [hRest]
    rfl
  have hStarts := ht.starts
  rw [hSeen] at hStarts
  refine (hStarts.leads_blank hGiven).append fun q hq => ?_
  have hMajor : (lineParser P (ascii "Content-Length") (ascii " " ++ decimal body.length)).httpMajor = P.httpMajor :=
    hSame.httpMajor
  have hMinor : (lineParser P (ascii "Content-Length") (ascii " " ++ decimal body.length)).httpMinor = P.httpMinor :=
    hSame.httpMinor
  have hAdded : (m.addHeader (contentLengthHeader body.length)).complete = m.complete := rfl
  rcases Nat.eq_zero_or_pos body.length with hZero | hPos
  · obtain rfl : body = [] := List.length_eq_zero_iff.mp hZero
    obtain ⟨hMessage, hUpgrade⟩ := hq.empty hZero
    refine .nil ⟨?_, hUpgrade⟩
    rw [hMessage, hMajor, hMinor]
    simp [Message.addHeader]
  · obtain ⟨hMessage, hState, hLength⟩ := hq.body hPos
    refine (leads_body hState hLength (List.ne_nil_of_length_pos hPos) ?_).mono fun u hu => ⟨?_, hu.2⟩
    · rw [hMessage, hAdded]
    · rw [hu.1, hMessage, hMajor, hMinor]
      rfl

theorem InHead.leads_length {P₀ : HttpParser} {r : Reader} (h : InHead P₀ m r)
    (hTrailing : P₀.flags.fTrailing = false)
    (hSkip : P₀.flags.fSkipbody = false) (body : Bytes) :
    Leads Reader.step (Calm m.complete True) r (headerLine (contentLengthHeader body.length) ++ (crlf ++ body))
      fun t =>
      t.message = { m.addHeader (contentLengthHeader body.length) with
        version := some (P₀.httpMajor, P₀.httpMinor), body := m.body ++ body, complete := true } ∧
      t.parser.upgrade = false := by
  obtain ⟨P, hStarts, hOk, hName, hKept⟩ := h
  have hLeads := hStarts.leads_length hOk hName (hKept.fTrailing.trans hTrailing) (hKept.fSkipbody.trans hSkip)
    (fun _ => trivial) body
  rwa [hKept.httpMajor, hKept.httpMinor] at hLeads

end Reader

end HttpUtils
