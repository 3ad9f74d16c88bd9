import HttpUtils.HttpParser.Passage
import HttpUtils.HttpPacket

/-!
# Passing over a header line

A name drives the keyword matching of `s_header_field`: only the keyword itself reaches the state of a
keyword. A value moves between the states of `h_general` and of the connection tokens.
-/

namespace HttpUtils
set_option autoImplicit false

/-- The parsers agree on everything that decides how the message is framed. -/
structure SameMessage (P Q : HttpParser) : Prop where
  type : Q.type = P.type
  contentLength : Q.contentLength = P.contentLength
  httpMajor : Q.httpMajor = P.httpMajor
  httpMinor : Q.httpMinor = P.httpMinor
  statusCode : Q.statusCode = P.statusCode
  method : Q.method = P.method
  httpErrno : Q.httpErrno = P.httpErrno
  upgrade : Q.upgrade = P.upgrade
  fChunked : Q.flags.fChunked = P.flags.fChunked
  fTrailing : Q.flags.fTrailing = P.flags.fTrailing
  fUpgrade : Q.flags.fUpgrade = P.flags.fUpgrade
  fSkipbody : Q.flags.fSkipbody = P.flags.fSkipbody
  fContentlength : Q.flags.fContentlength = P.flags.fContentlength

theorem SameMessage.refl (P : HttpParser) : SameMessage P P :=
  ⟨rfl, rfl, rfl, rfl, rfl, rfl, rfl, rfl, rfl, rfl, rfl, rfl, rfl⟩

theorem SameMessage.trans {P Q R : HttpParser} (h : SameMessage P Q) (h' : SameMessage Q R) : SameMessage P R where
  type := h'.type.trans h.type
  contentLength := h'.contentLength.trans h.contentLength
  httpMajor := h'.httpMajor.trans h.httpMajor
  httpMinor := h'.httpMinor.trans h.httpMinor
  statusCode := h'.statusCode.trans h.statusCode
  method := h'.method.trans h.method
  httpErrno := h'.httpErrno.trans h.httpErrno
  upgrade := h'.upgrade.trans h.upgrade
  fChunked := h'.fChunked.trans h.fChunked
  fTrailing := h'.fTrailing.trans h.fTrailing
  fUpgrade := h'.fUpgrade.trans h.fUpgrade
  fSkipbody := h'.fSkipbody.trans h.fSkipbody
  fContentlength := h'.fContentlength.trans h.fContentlength

theorem SameMessage.move (P : HttpParser) (s : State) (h : HeaderStates) (i : ℕ) :
    SameMessage P { P with state := s, headerState := h, index := i } :=
  ⟨rfl, rfl, rfl, rfl, rfl, rfl, rfl, rfl, rfl, rfl, rfl, rfl, rfl⟩

def HeaderStates.quiet : HeaderStates → Bool
  | .hContentLength | .hTransferEncoding | .hUpgrade
  | .hMatchingTransferEncodingChunked | .hTransferEncodingChunked => false
  | _ => true

/-! ### Names -/

/-- `u` is the part of the keyword up to the index `i`, and not all of it. -/
def Prefixed (keyword u : Bytes) (i : ℕ) : Prop := u = keyword.take (i + 1) ∧ i + 1 < keyword.length

def NameState (u : Bytes) (i : ℕ) : HeaderStates → Prop
  | .hGeneral | .hConnection => True
  | .hC => u = ascii "c" ∧ i = 0
  | .hCO => u = ascii "co" ∧ i = 1
  | .hCON => u = ascii "con" ∧ i = 2
  | .hMatchingConnection => Prefixed (ascii "connection") u i
  | .hMatchingProxyConnection => Prefixed (ascii "proxy-connection") u i
  | .hMatchingContentLength => Prefixed (ascii "content-length") u i
  | .hMatchingTransferEncoding => Prefixed (ascii "transfer-encoding") u i
  | .hMatchingUpgrade => Prefixed (ascii "upgrade") u i
  | .hContentLength => u = ascii "content-length"
  | .hTransferEncoding => u = ascii "transfer-encoding"
  | .hUpgrade => u = ascii "upgrade"
  | _ => False

def withLength (P : HttpParser) : HttpParser := { P with flags := { P.flags with fContentlength := true } }

/-- The parser inside a name, of which `u` has been read in lower case, on a line that began in `P₀`. -/
structure InName (P₀ : HttpParser) (u : Bytes) (P : HttpParser) : Prop where
  state : P.state = .sHeaderField
  name : NameState u P.index P.headerState
  same : SameMessage P₀ P ∨ ascii "content-length" <+: u ∧ SameMessage (withLength P₀) P

/-- The byte `ch` of a name. -/
def nameStep (P : HttpParser) (ch : UInt8) : HttpParser := headerFieldChar P ch (token ch)

theorem take_succ_concat {keyword u : Bytes} {i : ℕ} {c : UInt8} (h : Prefixed keyword u i)
    (hc : c = keyword.getD (i + 1) 0) : u ++ [c] = keyword.take (i + 1 + 1) := by
  obtain ⟨rfl, hLt⟩ := h
  rw [List.getD_eq_getElem?_getD, List.getElem?_eq_getElem hLt, Option.getD_some] at hc
  rw [hc, List.take_append_getElem]

theorem matchKeyword_cases {keyword u : Bytes} {P : HttpParser} (h : Prefixed keyword u P.index) (c : UInt8)
    (done : HttpParser → HttpParser) :
    matchKeyword keyword P c done = { P with index := P.index + 1, headerState := .hGeneral } ∨
      u ++ [c] = keyword ∧ matchKeyword keyword P c done = done { P with index := P.index + 1 } ∨
      Prefixed keyword (u ++ [c]) (P.index + 1) ∧
        matchKeyword keyword P c done = { P with index := P.index + 1 } := by
  have hLt := h.2
  simp only [matchKeyword]
  by_cases hMiss : P.index + 1 > keyword.length ∨ c ≠ keyword.getD (P.index + 1) 0
  · rw [if_pos hMiss]
    exact .inl rfl
  have hc : c = keyword.getD (P.index + 1) 0 := by
    by_contra hc
    exact hMiss (.inr hc)
  have hTake := take_succ_concat h hc
  rw [if_neg hMiss]
  by_cases hLast : P.index + 1 = keyword.length - 1
  · rw [if_pos hLast]
    refine .inr (.inl ⟨?_, rfl⟩)
    rw [hTake, List.take_of_length_le (by omega)]
  · rw [if_neg hLast]
    exact .inr (.inr ⟨⟨hTake, by omega⟩, rfl⟩)

theorem InName.keep {P₀ P : HttpParser} {u : Bytes} (h : InName P₀ u P) (c : UInt8) (i : ℕ) (g : HeaderStates)
    (hName : NameState (u ++ [c]) i g) : InName P₀ (u ++ [c]) { P with index := i, headerState := g } := by
  refine ⟨h.state, hName, ?_⟩
  rcases h.same with hSame | ⟨hPrefix, hSame⟩
  · exact .inl (hSame.trans (.move P P.state g i))
  · exact .inr ⟨hPrefix.trans (List.prefix_append u [c]), hSame.trans (.move P P.state g i)⟩

theorem InName.keyword {P₀ P : HttpParser} {u : Bytes} (h : InName P₀ u P) (c : UInt8) {keyword : Bytes}
    {g done : HeaderStates} (hState : P.headerState = g)
    (hMatching : ∀ u i, NameState u i g ↔ Prefixed keyword u i)
    (hDone : ∀ i, NameState keyword i done) :
    InName P₀ (u ++ [c]) (matchKeyword keyword P c fun P => { P with headerState := done }) := by
  have hPrefixed : Prefixed keyword u P.index := (hMatching u P.index).mp (hState ▸ h.name)
  rcases matchKeyword_cases hPrefixed c fun P => { P with headerState := done } with hEq | ⟨hAll, hEq⟩ | ⟨hMore, hEq⟩
  · rw [hEq]
    exact h.keep c _ _ trivial
  · rw [hEq]
    exact h.keep c _ _ (hAll ▸ hDone _)
  · rw [hEq]
    have hKeep := h.keep c (P.index + 1) g ((hMatching _ _).mpr hMore)
    rwa [← hState] at hKeep

theorem InName.step {P₀ P : HttpParser} {u : Bytes} (h : InName P₀ u P) {ch : UInt8}
    (hFlag : P₀.flags.fContentlength = false ∨ (nameStep P ch).httpErrno = .ok) (hTok : token ch ≠ 0) :
    InName P₀ (u ++ [token ch]) (nameStep P ch) := by
  have hSp : ch ≠ SP := by
    rintro rfl
    exact hTok (by decide)
  cases hs : P.headerState <;> simp only [nameStep, headerFieldChar, hs]
  case hGeneral =>
    have hKeep := h.keep (token ch) P.index .hGeneral trivial
    rwa [← hs] at hKeep
  case hC =>
    have hName := h.name
    rw [hs] at hName
    refine h.keep _ _ _ ?_
    split
    · rename_i hc
      rw [hc, hName.1, hName.2]
      exact ⟨rfl, rfl⟩
    · trivial
  case hCO =>
    have hName := h.name
    rw [hs] at hName
    refine h.keep _ _ _ ?_
    split
    · rename_i hc
      rw [hc, hName.1, hName.2]
      exact ⟨rfl, rfl⟩
    · trivial
  case hCON =>
    have hName := h.name
    rw [hs] at hName
    refine h.keep _ _ _ ?_
    split
    · rename_i hc
      rw [hc, hName.1, hName.2]
      exact ⟨rfl, by decide⟩
    split
    · rename_i hc
      rw [hc, hName.1, hName.2]
      exact ⟨rfl, by decide⟩
    · trivial
  case hMatchingConnection => exact h.keyword _ hs (fun _ _ => Iff.rfl) fun _ => trivial
  case hMatchingProxyConnection => exact h.keyword _ hs (fun _ _ => Iff.rfl) fun _ => trivial
  case hMatchingTransferEncoding => exact h.keyword _ hs (fun _ _ => Iff.rfl) fun _ => rfl
  case hMatchingUpgrade => exact h.keyword _ hs (fun _ _ => Iff.rfl) fun _ => rfl
  case hMatchingContentLength =>
    have hPrefixed : Prefixed (ascii "content-length") u P.index := by
      have hName := h.name
      rwa [hs] at hName
    have hSame : SameMessage P₀ P := by
      refine h.same.resolve_right fun hBoth => ?_
      have hLength := hBoth.1.length_le
      rw [hPrefixed.1, List.length_take] at hLength
      have hLt := hPrefixed.2
      omega
    rcases matchKeyword_cases hPrefixed (token ch) _ with hEq | ⟨hAll, hEq⟩ | ⟨hMore, hEq⟩
    · rw [hEq]
      exact h.keep _ _ _ trivial
    · have hOff : P.flags.fContentlength = false := by
        rcases hFlag with hFlag | hOk
        · exact hSame.fContentlength.trans hFlag
        · by_contra hOn
          rw [Bool.not_eq_false] at hOn
          simp only [nameStep, headerFieldChar, hs] at hOk
          rw [hEq] at hOk
          simp [hOn, setErrno] at hOk
      rw [hEq]
      simp only [hOff, Bool.false_eq_true, if_false]
      refine ⟨h.state, hAll, .inr ⟨hAll ▸ List.prefix_refl _, ?_⟩⟩
      exact ⟨hSame.type, hSame.contentLength, hSame.httpMajor, hSame.httpMinor, hSame.statusCode, hSame.method,
        hSame.httpErrno, hSame.upgrade, hSame.fChunked, hSame.fTrailing, hSame.fUpgrade, hSame.fSkipbody, rfl⟩
    · rw [hEq]
      have hKeep := h.keep (token ch) (P.index + 1) .hMatchingContentLength hMore
      rwa [← hs] at hKeep
  case hConnection | hContentLength | hTransferEncoding | hUpgrade =>
    rw [if_pos hSp]
    exact h.keep _ P.index _ trivial
  all_goals
    have hName := h.name
    rw [hs] at hName
    exact hName.elim

theorem InName.foldl {P₀ P : HttpParser} {u : Bytes} (h : InName P₀ u P) (hFlag : P₀.flags.fContentlength = false)
    {s : Bytes} (hTok : ∀ ch ∈ s, token ch ≠ 0) : InName P₀ (u ++ s.map token) (s.foldl nameStep P) := by
  induction s generalizing P u with
  | nil => simpa using h
  | cons ch s ih =>
    have hStep := h.step (.inl hFlag) (hTok ch List.mem_cons_self)
    have hRest := ih hStep fun c hc => hTok c (List.mem_cons_of_mem _ hc)
    simpa using hRest

theorem InName.errno {P₀ P : HttpParser} {u : Bytes} (h : InName P₀ u P) : P.httpErrno = P₀.httpErrno := by
  rcases h.same with hSame | ⟨-, hSame⟩ <;> exact hSame.httpErrno

theorem InName.upgrade {P₀ P : HttpParser} {u : Bytes} (h : InName P₀ u P) : P.upgrade = P₀.upgrade := by
  rcases h.same with hSame | ⟨-, hSame⟩ <;> exact hSame.upgrade

theorem InName.plain {P₀ P : HttpParser} {u : Bytes} (h : InName P₀ u P) (hLength : ¬ ascii "content-length" <+: u)
    (hEncoding : u ≠ ascii "transfer-encoding") (hUpgrade : u ≠ ascii "upgrade") :
    SameMessage P₀ P ∧ P.headerState.quiet = true := by
  refine ⟨h.same.resolve_right fun hBad => hLength hBad.1, ?_⟩
  have hName := h.name
  cases hs : P.headerState <;> rw [hs] at hName <;> try rfl
  case hContentLength => exact absurd (hName ▸ List.prefix_refl _) hLength
  case hTransferEncoding => exact absurd hName hEncoding
  case hUpgrade => exact absurd hName hUpgrade
  all_goals exact hName.elim

theorem ascii_contentLength :
    ascii "content-length" = [99, 111, 110, 116, 101, 110, 116, 45, 108, 101, 110, 103, 116, 104] := by
  decide +kernel

theorem foldl_contentLength {P : HttpParser} (hFlag : P.flags.fContentlength = false) :
    (ascii "ontent-Length").foldl nameStep { P with index := 0, state := .sHeaderField, headerState := .hC } =
      { withLength P with index := 13, state := .sHeaderField, headerState := .hContentLength } := by
  have hBytes : ascii "ontent-Length" = [111, 110, 116, 101, 110, 116, 45, 76, 101, 110, 103, 116, 104] := by
    decide +kernel
  have hTokens : token 111 = 111 ∧ token 110 = 110 ∧ token 116 = 116 ∧ token 101 = 101 ∧ token 45 = 45 ∧
      token 76 = 108 ∧ token 103 = 103 ∧ token 104 = 104 := by
    decide +kernel
  rw [hBytes]
  simp [nameStep, headerFieldChar, matchKeyword, ascii_contentLength, hTokens, hFlag, withLength]

/-! ### Values -/

/-- The byte `ch` of a value. -/
def valueStep (P : HttpParser) (ch : UInt8) : HttpParser :=
  { (headerValueChar P P.headerState ch).1 with headerState := (headerValueChar P P.headerState ch).2 }

structure InValue (P₀ P : HttpParser) : Prop where
  state : P.state = .sHeaderValue
  quiet : P.headerState.quiet = true
  same : SameMessage P₀ P

theorem InValue.start {P₀ P : HttpParser} (hSame : SameMessage P₀ P) (hQuiet : P.headerState.quiet = true)
    (ch : UInt8) : ∃ Q, headerValueStartCase P ch = next Q [.mark .headerValue] ∧ InValue P₀ Q := by
  have hMove (g : HeaderStates) : SameMessage P₀ { P with state := .sHeaderValue, headerState := g, index := 0 } :=
    hSame.trans (.move P .sHeaderValue g 0)
  cases hs : P.headerState <;> rw [hs] at hQuiet <;> simp only [headerValueStartCase, hs]
  case hConnection =>
    refine ⟨_, rfl, rfl, ?_, hMove _⟩
    dsimp only
    repeat' split
    all_goals rfl
  case hContentLength | hTransferEncoding | hUpgrade => cases hQuiet
  all_goals exact ⟨_, rfl, rfl, rfl, hMove _⟩

theorem finishHeaderFlags_same {P : HttpParser} {h : HeaderStates} (hQuiet : h.quiet = true) (s : State)
    (g : HeaderStates) (i : ℕ) :
    SameMessage P { P with flags := finishHeaderFlags h P.flags, state := s, headerState := g, index := i } := by
  cases h <;> simp only [HeaderStates.quiet, Bool.false_eq_true] at hQuiet <;>
    exact ⟨rfl, rfl, rfl, rfl, rfl, rfl, rfl, rfl, rfl, rfl, rfl, rfl, rfl⟩

theorem InValue.step {P₀ P : HttpParser} (h : InValue P₀ P) (ch : UInt8) : InValue P₀ (valueStep P ch) := by
  obtain ⟨hState, hQuiet, hSame⟩ := h
  have hKeep (i : ℕ) {g : HeaderStates} (hg : g.quiet = true) :
      InValue P₀ { P with index := i, headerState := g } :=
    ⟨hState, hg, hSame.trans (.move P P.state g i)⟩
  have hMatch (keyword : Bytes) {g done miss : HeaderStates} (hg : g.quiet = true) (hd : done.quiet = true)
      (hm : miss.quiet = true) : InValue P₀ { (matchValue keyword P (lower ch) g done miss).1 with
        headerState := (matchValue keyword P (lower ch) g done miss).2 } := by
    simp only [matchValue]
    repeat' split
    · exact hKeep _ hm
    · exact hKeep _ hd
    · exact hKeep _ hg
  cases hs : P.headerState <;> rw [hs] at hQuiet <;> simp only [valueStep, headerValueChar, hs]
  case hMatchingConnectionKeepAlive | hMatchingConnectionClose | hMatchingConnectionUpgrade =>
    exact hMatch _ rfl rfl rfl
  case hContentLength | hTransferEncoding | hUpgrade | hMatchingTransferEncodingChunked | hTransferEncodingChunked =>
    cases hQuiet
  case hMatchingConnectionTokenStart =>
    refine hKeep P.index ?_
    repeat' split
    all_goals rfl
  case hMatchingConnectionToken =>
    split
    · exact hKeep 0 rfl
    · exact hKeep P.index rfl
  case hConnectionKeepAlive | hConnectionClose | hConnectionUpgrade =>
    split
    · exact ⟨hState, rfl, hSame.trans ⟨rfl, rfl, rfl, rfl, rfl, rfl, rfl, rfl, rfl, rfl, rfl, rfl, rfl⟩⟩
    · refine hKeep P.index ?_
      dsimp only
      split <;> rfl
  all_goals exact hKeep P.index rfl

theorem InValue.foldl {P₀ P : HttpParser} (h : InValue P₀ P) (s : Bytes) : InValue P₀ (s.foldl valueStep P) := by
  induction s generalizing P with
  | nil => exact h
  | cons ch s ih => exact ih (h.step ch)

end HttpUtils
