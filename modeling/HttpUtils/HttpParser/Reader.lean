import HttpUtils.HttpParser.Marks
import HttpUtils.Library.PartialRun

/-!
# Reading a message without buffers

A `Reader` takes one byte after another and never learns where a buffer ends: it counts no header
bytes, keeps no loop open and joins the pieces of a string at once. The scans of one buffer after
another follow it over every division, where the header is short and has no control bytes.
-/

namespace HttpUtils
set_option autoImplicit false

def nameCase (P : HttpParser) (ch : UInt8) : Outcome :=
  if token ch = 0 then
    if ch = ':' then next { P with state := .sHeaderValueDiscardWs } [.data .headerField]
    else fail P .invalidHeaderToken
  else
    let P := headerFieldChar P ch (token ch)
    if P.httpErrno ≠ .ok then ⟨P, [], .error⟩ else next P

def valueCase (P : HttpParser) (ch : UInt8) : Outcome :=
  if ch = CR then next { P with state := .sHeaderAlmostDone } [.data .headerValue]
  else if ch = LF then next { P with state := .sHeaderValueLws } [.data .headerValue]
  else
    let (P, h) := headerValueChar P P.headerState ch
    if P.httpErrno ≠ .ok then ⟨P, [], .error⟩ else next { P with headerState := h }

/-- One byte of a message, the loops over a name and over a value unrolled. -/
def byteCase (P : HttpParser) (ch : UInt8) : Outcome :=
  match P.state with
  | .sHeaderField => nameCase P ch
  | .sHeaderValue => valueCase P ch
  | _ => switch P ch 1

theorem byteCase_value {P : HttpParser} (hState : P.state = .sHeaderValue) (ch : UInt8) :
    byteCase P ch = valueCase P ch := by simp only [byteCase, hState]

theorem byteCase_switch {P : HttpParser} {ch : UInt8} (hField : P.state ≠ .sHeaderField)
    (hValue : P.state ≠ .sHeaderValue) :
    byteCase P ch = switch P ch 1 := by
  unfold byteCase
  split
  · exact absurd ‹_› hField
  · exact absurd ‹_› hValue
  · rfl

structure Reader where
  parser : HttpParser
  message : Message
  /-- The bytes read so far. -/
  fed : ℕ
  deriving DecidableEq, Repr

namespace Reader

def step (r : Reader) (ch : UInt8) : Option Reader :=
  (byteCase r.parser ch).move.map fun v => ⟨v.parser, v.spell r.parser ch r.message, r.fed + 1⟩

def run (r : Reader) (bytes : Bytes) : Option Reader := PartialRun.run step r bytes

end Reader

/-! ### The header byte counter -/

def HttpParser.plain (P : HttpParser) : HttpParser := { P with nread := 0 }

def Outcome.plain (o : Outcome) : Outcome := { o with parser := o.parser.plain }

theorem after_plain (acts : List Act) (o : Outcome) : (o.after acts).plain = o.plain.after acts := rfl

theorem headersDone_plain (P : HttpParser) (ch : UInt8) :
    headersDoneCase P.plain ch = (headersDoneCase P ch).plain := by
  simp only [headersDoneCase, apply_ite Outcome.plain]
  rfl

theorem headersAlmostDone_plain (P : HttpParser) (ch : UInt8) :
    headersAlmostDoneCase P.plain ch = (headersAlmostDoneCase P ch).plain := by
  simp only [headersAlmostDoneCase, apply_ite Outcome.plain, after_plain, ← headersDone_plain]
  rfl

theorem headerFieldStart_plain (P : HttpParser) (ch : UInt8) :
    headerFieldStartCase P.plain ch = (headerFieldStartCase P ch).plain := by
  simp only [headerFieldStartCase, apply_ite Outcome.plain, ← headersAlmostDone_plain]
  rfl

theorem headerValueStart_plain (P : HttpParser) (ch : UInt8) :
    headerValueStartCase P.plain ch = (headerValueStartCase P ch).plain := by
  cases hs : P.headerState <;>
    simp only [headerValueStartCase, HttpParser.plain, hs, apply_ite Outcome.plain] <;> rfl

/-- No case of the switch looks at the counter. -/
theorem switch_plain (P : HttpParser) (ch : UInt8) (n : Nat) :
    switch P.plain ch n = (switch P ch n).plain := by
  have hState : P.plain.state = P.state := rfl
  cases hs : P.state <;> simp only [switch, hState, hs]
  case sHeaderFieldStart => exact headerFieldStart_plain _ _
  case sHeaderValueStart => exact headerValueStart_plain _ _
  case sHeadersAlmostDone => exact headersAlmostDone_plain _ _
  case sHeadersDone => exact headersDone_plain _ _
  case sHeaderValueDiscardWs =>
    simp only [headerValueDiscardWsCase, apply_ite Outcome.plain, ← headerValueStart_plain]
    rfl
  case sHeaderValueDiscardLws =>
    simp only [headerValueDiscardLwsCase, apply_ite Outcome.plain, after_plain, ← headerFieldStart_plain]
    rfl
  case sHeaderValueLws =>
    simp only [headerValueLwsCase, apply_ite Outcome.plain, ← headerFieldStart_plain, ← headerValueStart_plain]
    rfl
  case sStartReq =>
    simp only [startReqCase, apply_ite Outcome.plain]
    cases startMethod ch <;> rfl
  case sReqMethod =>
    have hRows : methodSwitch P.plain.method P.plain.index ch = methodSwitch P.method P.index ch := rfl
    simp only [reqMethodCase, apply_ite Outcome.plain, hRows]
    cases methodSwitch P.method P.index ch <;> rfl
  case sChunkSizeStart =>
    simp only [chunkSizeStartCase]
    cases unhex ch <;> rfl
  case sChunkSize =>
    simp only [chunkSizeCase, apply_ite Outcome.plain]
    cases unhex ch <;> simp only [apply_ite Outcome.plain] <;> rfl
  case sChunkData =>
    have hLength : P.plain.contentLength = P.contentLength := rfl
    simp only [chunkDataCase, hLength]
    split <;> rfl
  all_goals
    try simp only [startResCase, expect, majorDigit, minorDigit, firstMinorDigit, resStatusCodeCase,
      headerAlmostDoneCase, chunkSizeAlmostDoneCase, reqSpacesBeforeUrlCase, reqSchemaCase, reqUrlCase,
      urlStep, bodyIdentityCase, apply_ite Outcome.plain, after_plain]
    rfl

theorem headerFieldChar_plain (P : HttpParser) (ch c : UInt8) :
    headerFieldChar P.plain ch c = (headerFieldChar P ch c).plain := by
  have hState : P.plain.headerState = P.headerState := rfl
  have hKeyword (keyword : Bytes) (done : HttpParser → HttpParser) (h : ∀ P, done P.plain = (done P).plain) :
      matchKeyword keyword P.plain c done = (matchKeyword keyword P c done).plain := by
    simp only [matchKeyword, apply_ite HttpParser.plain, ← h]
    rfl
  cases hs : P.headerState <;> simp only [headerFieldChar, hState, hs]
  case hMatchingContentLength =>
    refine hKeyword _ _ fun P => ?_
    simp only [apply_ite HttpParser.plain]
    rfl
  case hMatchingConnection | hMatchingProxyConnection | hMatchingTransferEncoding | hMatchingUpgrade =>
    exact hKeyword _ _ fun _ => rfl
  all_goals
    try simp only [apply_ite HttpParser.plain]
    rfl

theorem headerFieldChar_nread (P : HttpParser) (ch c : UInt8) : (headerFieldChar P ch c).nread = P.nread := by
  have hKeyword (keyword : Bytes) (done : HttpParser → HttpParser) (h : ∀ P, (done P).nread = P.nread) :
      (matchKeyword keyword P c done).nread = P.nread := by
    simp only [matchKeyword]
    split
    · rfl
    split
    · exact h _
    · rfl
  cases hs : P.headerState <;> simp only [headerFieldChar, hs]
  case hMatchingContentLength =>
    refine hKeyword _ _ fun P => ?_
    split <;> rfl
  case hMatchingConnection | hMatchingProxyConnection | hMatchingTransferEncoding | hMatchingUpgrade =>
    exact hKeyword _ _ fun _ => rfl
  all_goals (try split) <;> rfl

/-- A byte of a value gives `Q` in the parser `P`, and `R` in one that already shows the local `h_state`. -/
structure SameValue (P : HttpParser) (Q R : HttpParser × HeaderStates) : Prop where
  errno : R.1.httpErrno = Q.1.httpErrno
  nread : Q.1.nread = P.nread
  parser : Q.1.httpErrno = .ok →
    { R.1 with headerState := R.2 } = ({ Q.1 with nread := 0, headerState := Q.2 } : HttpParser)

theorem headerValueChar_plain (P : HttpParser) (h : HeaderStates) (ch : UInt8) :
    SameValue P (headerValueChar P h ch) (headerValueChar { P with nread := 0, headerState := h } h ch) := by
  have hValue (keyword : Bytes) (g done miss : HeaderStates) :
      SameValue P (matchValue keyword P (lower ch) g done miss)
        (matchValue keyword { P with nread := 0, headerState := h } (lower ch) g done miss) := by
    simp only [matchValue]
    repeat' split
    all_goals exact ⟨rfl, rfl, fun _ => rfl⟩
  cases h <;> simp only [headerValueChar]
  case hMatchingTransferEncodingChunked | hMatchingConnectionKeepAlive | hMatchingConnectionClose
    | hMatchingConnectionUpgrade => exact hValue _ _ _ _
  case hContentLength =>
    repeat' split
    · exact ⟨rfl, rfl, fun _ => rfl⟩
    · exact ⟨rfl, rfl, fun hBad => by cases hBad⟩
    · exact ⟨rfl, rfl, fun _ => rfl⟩
  all_goals
    repeat' split
    all_goals exact ⟨rfl, rfl, fun _ => rfl⟩

/-! ### Scans and readers -/

def Ctl.pending : Ctl → ℕ
  | .outer => 0
  | .field n => n
  | .value n _ _ => n

/-- The parser as a reader sees it: uncounted, and with the local `h_state`. -/
def Ctl.plain (c : Ctl) (P : HttpParser) : HttpParser :=
  match c with
  | .value _ h _ => { P with nread := 0, headerState := h }
  | _ => P.plain

/-- The byte `ch` is no surprise to any division: the bytes so far are within half of the limit as
long as they are counted, and a value has no control bytes. -/
def Reader.Clean (r : Reader) (ch : UInt8) : Prop :=
  (parsingHeader r.parser.state = true → 2 * (r.fed + 1) ≤ httpMaxHeaderSize) ∧
    (r.parser.state = .sHeaderValue → ch = CR ∨ ch = LF ∨ isHeaderChar ch = true)

theorem counted_of_le {P : HttpParser} {v : ℕ} (h : P.nread + v ≤ httpMaxHeaderSize) :
    counted P v = some (addNread P v) ∧ (addNread P v).nread = P.nread + v := by
  have hMod : (P.nread + v) % 2 ^ 32 = P.nread + v :=
    Nat.mod_eq_of_lt (Nat.lt_of_le_of_lt h (by decide))
  refine ⟨counted_eq_some.mpr ⟨?_, rfl⟩, hMod⟩
  simp only [overflows, addNread, hMod, decide_eq_false_iff_not]
  omega

/-- A move that agrees with the byte `ch` read without buffers. -/
structure Move.Follows (v w : Move) (limit : ℕ) : Prop where
  acts : v.acts = w.acts
  parser : v.ctl.plain v.parser = w.parser
  errno : v.parser.httpErrno = .ok
  count : v.parser.nread + v.ctl.pending ≤ limit

theorem fieldMove_follows {P : HttpParser} {n limit : ℕ} {ch : UInt8} {w : Move}
    (hErrno : P.httpErrno = .ok) (hCount : P.nread + n + 1 ≤ limit) (hLimit : limit ≤ httpMaxHeaderSize)
    (h : (nameCase P.plain ch).move = some w) : ∃ v, fieldMove P n ch = some v ∧ v.Follows w limit := by
  unfold nameCase at h
  unfold fieldMove
  by_cases hTok : token ch = 0
  · obtain ⟨hCounted, hNread⟩ := counted_of_le (P := P) (v := n) (by omega)
    simp only [hTok, if_true] at h ⊢
    rw [hCounted]
    by_cases hColon : ch = ':'
    · rw [if_pos hColon] at h
      obtain rfl := (Outcome.move_eq_some h).2
      refine ⟨⟨[.data .headerField], { addNread P n with state := .sHeaderValueDiscardWs }, .outer⟩, ?_, rfl, rfl,
        hErrno, ?_⟩
      · rw [Option.bind_some, if_pos hColon]
      · simp only [Ctl.pending]
        omega
    · rw [if_neg hColon] at h
      exact absurd (Outcome.move_eq_some h).1 (fail_flow _ _)
  · rw [if_neg hTok] at h
    rw [headerFieldChar_plain] at h
    simp only [hTok, if_false]
    have hSame : (headerFieldChar P ch (token ch)).plain.httpErrno = (headerFieldChar P ch (token ch)).httpErrno :=
      rfl
    simp only [hSame] at h
    by_cases hOk : (headerFieldChar P ch (token ch)).httpErrno = .ok
    · rw [if_neg (by simp [hOk])] at h ⊢
      obtain rfl := (Outcome.move_eq_some h).2
      refine ⟨_, rfl, rfl, rfl, hOk, ?_⟩
      simp only [headerFieldChar_nread, Ctl.pending]
      omega
    · rw [if_pos hOk] at h
      exact absurd (Outcome.move_eq_some h).1 (by simp)

theorem stopMove_follows {P : HttpParser} {n limit : ℕ} {h : HeaderStates} {ch : UInt8} {w : Move}
    (hErrno : P.httpErrno = .ok) (hCount : P.nread + n + 1 ≤ limit) (hLimit : limit ≤ httpMaxHeaderSize)
    (hStop : ch = CR ∨ ch = LF) (hMove : (valueCase { P with nread := 0, headerState := h } ch).move = some w) :
    ∃ v, stopMove P n h ch = some v ∧ v.Follows w limit := by
  obtain ⟨hCounted, hNread⟩ := counted_of_le (P := P) (v := n) (by omega)
  unfold stopMove
  rw [hCounted]
  refine ⟨_, rfl, ?_⟩
  unfold valueCase at hMove
  have hBound : (addNread P n).nread + 0 ≤ limit := by omega
  by_cases hCr : ch = CR
  · rw [if_pos hCr] at hMove
    obtain rfl := (Outcome.move_eq_some hMove).2
    refine ⟨rfl, ?_, hErrno, hBound⟩
    simp only [hCr, if_true]
    rfl
  · obtain rfl : ch = LF := hStop.resolve_left hCr
    rw [if_neg hCr, if_pos rfl] at hMove
    obtain rfl := (Outcome.move_eq_some hMove).2
    exact ⟨rfl, rfl, hErrno, hBound⟩

theorem valueMove_follows {P : HttpParser} {n limit : ℕ} {h : HeaderStates} {jump : Option ℕ} {ch : UInt8}
    {w : Move} (hErrno : P.httpErrno = .ok) (hCount : P.nread + n + 1 ≤ limit)
    (hLimit : limit ≤ httpMaxHeaderSize) (hJump : ∀ i, jump = some i → h = .hGeneral ∧ i ≤ n)
    (hClean : ch = CR ∨ ch = LF ∨ isHeaderChar ch = true)
    (hMove : (valueCase { P with nread := 0, headerState := h } ch).move = some w) :
    ∃ v, valueMove P n h jump ch = some v ∧ v.Follows w limit := by
  by_cases hStop : ch = CR ∨ ch = LF
  · have hValue : valueMove P n h jump ch = stopMove P n h ch := by
      cases jump with
      | none => rw [valueMove, if_pos hStop]
      | some i =>
        have hi := (hJump i rfl).2
        rw [valueMove, if_pos ⟨hStop, by omega⟩]
    rw [hValue]
    exact stopMove_follows hErrno hCount hLimit hStop hMove
  have hChar : isHeaderChar ch = true := by tauto
  have hNext (j : Option ℕ) : P.nread + (Ctl.value (n + 1) h j).pending ≤ limit := by
    simp only [Ctl.pending]
    omega
  unfold valueCase at hMove
  rw [if_neg fun hCr => hStop (.inl hCr), if_neg fun hLf => hStop (.inr hLf)] at hMove
  by_cases hGeneral : h = .hGeneral
  · subst hGeneral
    have hOutcome : (next { P with nread := 0, headerState := .hGeneral }).move = some w := by
      simpa [headerValueChar, hErrno] using hMove
    obtain rfl := (Outcome.move_eq_some hOutcome).2
    cases jump with
    | some i =>
      refine ⟨⟨[], P, .value (n + 1) .hGeneral (some (i + 1))⟩, ?_, rfl, rfl, hErrno, hNext _⟩
      rw [valueMove, if_neg fun hBoth => hStop hBoth.1]
    | none =>
      refine ⟨⟨[], P, .value (n + 1) .hGeneral (some 1)⟩, ?_, rfl, rfl, hErrno, hNext _⟩
      rw [valueMove, if_neg hStop, if_neg (by simp [hChar]), if_pos rfl]
  · have hNone : jump = none := by
      cases jump with
      | none => rfl
      | some i => exact absurd (hJump i rfl).1 hGeneral
    subst hNone
    obtain ⟨hSame, hNread, hParser⟩ := headerValueChar_plain P h ch
    dsimp only at hMove
    rw [valueMove, if_neg hStop, if_neg (by simp [hChar]), if_neg hGeneral]
    by_cases hOk : (headerValueChar P h ch).1.httpErrno = .ok
    · rw [if_neg (not_not.mpr (hSame.trans hOk))] at hMove
      obtain rfl := (Outcome.move_eq_some hMove).2
      refine ⟨⟨[], (headerValueChar P h ch).1, .value (n + 1) (headerValueChar P h ch).2 none⟩, ?_, rfl, ?_,
        hOk, ?_⟩
      · exact if_neg (not_not.mpr hOk)
      · exact (hParser hOk).symm
      simp only [hNread, Ctl.pending]
      omega
    · rw [if_pos fun hR => hOk (hSame.symm.trans hR)] at hMove
      exact absurd (Outcome.move_eq_some hMove).1 (by simp)

theorem switchMove_follows {P : HttpParser} {limit : ℕ} {ch : UInt8} {w : Move} (hErrno : P.httpErrno = .ok)
    (hCount : P.nread + 1 ≤ limit)
    (hLimit : P.state = .sHeaderField ∨ P.state = .sHeaderValue → limit ≤ httpMaxHeaderSize)
    (hClean : P.state = .sHeaderValue → ch = CR ∨ ch = LF ∨ isHeaderChar ch = true)
    (h : (byteCase P.plain ch).move = some w) : ∃ v, switchMove P ch = some v ∧ v.Follows w limit := by
  have hState : P.plain.state = P.state := rfl
  by_cases hField : P.state = .sHeaderField
  · simp only [byteCase, hState, hField] at h
    simp only [switchMove, hField]
    exact fieldMove_follows hErrno (by omega) (hLimit (.inl hField)) h
  by_cases hValue : P.state = .sHeaderValue
  · simp only [byteCase, hState, hValue] at h
    simp only [switchMove, hValue]
    exact valueMove_follows hErrno (by omega) (hLimit (.inr hValue)) (fun i hi => by cases hi) (hClean hValue) h
  · have hByte : byteCase P.plain ch = (switch P ch 1).plain := by
      rw [← switch_plain]
      exact byteCase_switch hField hValue
    have hSwitch : switchMove P ch = (switch P ch 1).move := by
      unfold switchMove
      split
      · exact absurd ‹_› hField
      · exact absurd ‹_› hValue
      · rfl
    rw [hByte] at h
    obtain ⟨hFlow, rfl⟩ := Outcome.move_eq_some h
    have hKeeps := switch_keeps P ch 1
    refine ⟨⟨(switch P ch 1).acts, (switch P ch 1).parser, .outer⟩, ?_, rfl, rfl, ?_, ?_⟩
    · have hNext : (switch P ch 1).flow = .next := hFlow
      rw [hSwitch, Outcome.move, hNext]
    · have hNe : (switch P ch 1).flow ≠ .error := by
        have hNext : (switch P ch 1).flow = .next := hFlow
        simp [hNext]
      exact (hKeeps.errno hNe).trans hErrno
    · have hLe := hKeeps.nread
      simp only [Ctl.pending]
      omega

/-- Where the byte is clean, the control can follow a reader. -/
theorem move_follows {P : HttpParser} {c : Ctl} {ch : UInt8} {r : Reader} {w : Move} (hFits : c.Fits P)
    (hErrno : P.httpErrno = .ok) (hParser : r.parser = c.plain P) (hCount : P.nread + c.pending ≤ 2 * r.fed)
    (hClean : r.Clean ch) (h : (byteCase r.parser ch).move = some w) :
    ∃ v, move P c ch = some v ∧ v.Follows w (2 * (r.fed + 1)) := by
  obtain ⟨hSmall, hChar⟩ := hClean
  rw [hParser] at h
  cases c with
  | field n =>
    have hState : P.state = .sHeaderField := hFits
    have hReader : r.parser.state = .sHeaderField := (congrArg HttpParser.state hParser).trans hState
    have hName : (nameCase P.plain ch).move = some w := by
      have hPlain : P.plain.state = .sHeaderField := hState
      simpa only [Ctl.plain, byteCase, hPlain] using h
    simp only [Ctl.pending] at hCount
    exact fieldMove_follows hErrno (by omega) (hSmall (by rw [hReader]; rfl)) hName
  | value n g jump =>
    obtain ⟨hState, hJump⟩ := hFits
    have hReader : r.parser.state = .sHeaderValue := (congrArg HttpParser.state hParser).trans hState
    have hValue : (valueCase { P with nread := 0, headerState := g } ch).move = some w := by
      simpa only [Ctl.plain, byteCase, hState] using h
    simp only [Ctl.pending] at hCount
    exact valueMove_follows hErrno (by omega) (hSmall (by rw [hReader]; rfl)) hJump (hChar hReader) hValue
  | outer =>
    have hReader : r.parser.state = P.state := by
      rw [hParser]
      rfl
    simp only [Ctl.pending, Nat.add_zero] at hCount
    rw [hReader] at hSmall hChar
    unfold move
    dsimp only
    split
    · rename_i hHeader
      have hBound := hSmall hHeader
      obtain ⟨hCounted, hNread⟩ := counted_of_le (P := P) (v := 1) (by omega)
      rw [hCounted, Option.bind_some]
      exact switchMove_follows (P := addNread P 1) hErrno (by omega) (fun _ => hBound) hChar h
    · rename_i hHeader
      refine switchMove_follows hErrno (by omega) (fun hLoop => absurd ?_ hHeader) hChar h
      rcases hLoop with hs | hs <;> rw [hs] <;> rfl

end HttpUtils
