import HttpUtils.LengthField
import HttpUtils.Pipelining

/-!
# Where `parse` finds a second length

The error of a second `Content-Length` stops the parser inside a name. A reader of the same bytes, in whatever
pieces they come, is at that byte of that name, and one read of the text gets there as well.
-/

namespace HttpUtils
set_option autoImplicit false

/-- The parser has stopped inside of a name, at the end of a second `Content-Length`. -/
def HttpParser.Repeated (P : HttpParser) : Prop := P.httpErrno = .unexpectedContentLength ∧ P.state = .sHeaderField

theorem HttpParser.not_repeated_of_ok {P : HttpParser} (h : P.httpErrno = .ok) : ¬ P.Repeated := by
  rintro ⟨hError, -⟩
  rw [h] at hError
  cases hError

theorem newMessage_ne_headerField (P : HttpParser) : newMessage P ≠ .sHeaderField := by
  intro hState
  have hOpen := openMark_newMessage P
  rw [hState] at hOpen
  cases hOpen

theorem headersAlmostDone_outside {P : HttpParser} (h : P.state ≠ .sHeaderField) (ch : UInt8) :
    (headersAlmostDoneCase P ch).flow ≠ .next → (headersAlmostDoneCase P ch).parser.state ≠ .sHeaderField := by
  simp only [headersAlmostDoneCase, headersDoneCase, messageDoneCase, Outcome.after]
  repeat' split
  all_goals simp [fail, next, newMessage_ne_headerField, h]

theorem headerFieldStart_outside {P : HttpParser} (h : P.state ≠ .sHeaderField) (ch : UInt8) :
    (headerFieldStartCase P ch).flow ≠ .next → (headerFieldStartCase P ch).parser.state ≠ .sHeaderField := by
  rw [headerFieldStartCase]
  split
  · simp [next]
  split
  · exact headersAlmostDone_outside (by simp) ch
  split
  · exact fun _ => h
  · simp [next]

theorem switch_outside {P : HttpParser} (h : P.state ≠ .sHeaderField) (ch : UInt8) (n : ℕ) :
    (switch P ch n).flow ≠ .next → (switch P ch n).parser.state ≠ .sHeaderField := by
  cases hs : P.state <;> simp only [switch, hs]
  case sHeaderField => exact absurd hs h
  case sHeadersAlmostDone => exact headersAlmostDone_outside h ch
  case sHeaderFieldStart => exact headerFieldStart_outside h ch
  case sHeaderValueDiscardLws =>
    rw [headerValueDiscardLwsCase]
    split
    · simp [next]
    · exact headerFieldStart_outside (by simp) ch
  case sHeaderValueLws =>
    rw [headerValueLwsCase]
    split
    · simp only [headerValueStartCase]
      repeat' split
      all_goals simp [fail, next]
    · exact headerFieldStart_outside (by simp) ch
  all_goals
    try simp only [startResCase, expect, majorDigit, minorDigit, firstMinorDigit, resStatusCodeCase,
      headerAlmostDoneCase, chunkSizeAlmostDoneCase, reqSpacesBeforeUrlCase, reqSchemaCase, reqUrlCase, urlStep,
      bodyIdentityCase, startReqCase, reqMethodCase, chunkSizeStartCase, chunkSizeCase, chunkDataCase,
      bodyIdentityEofCase, messageDoneCase, Outcome.after, headersDoneCase, headerValueStartCase,
      headerValueDiscardWsCase]
    repeat' split
    all_goals simp [fail, next, newMessage_ne_headerField, hs]

theorem Ctl.Fits.inName_jumped {P : HttpParser} {c : Ctl} (h : c.Fits P) (hState : P.state = .sHeaderField) :
    c.jumped ≤ httpMaxHeaderSize := by
  cases c with
  | outer | field n => exact Nat.zero_le _
  | value n g jump => exact absurd (h.1.symm.trans hState) (by decide)

namespace Scan

theorem parser_apply (s : Scan) (ch : UInt8) (o : Outcome) : (s.apply ch o).parser = o.parser := by
  have hActs := (acts_frame ch { s with parser := o.parser, ctl := .outer } o.acts).1
  cases hFlow : o.flow <;> simp only [apply, hFlow, settle] <;> exact hActs

theorem countHeaderSize_repeated {s : Scan} {n : ℕ} {k : Scan → Scan} (h : (s.countHeaderSize n k).parser.Repeated) :
    (k { s with parser := addNread s.parser n }).parser.Repeated := by
  simp only [countHeaderSize] at h
  split at h
  · cases h.1
  · exact h

theorem fieldByte_repeated {s : Scan} {n : ℕ} {ch : UInt8} (hOk : s.parser.httpErrno = .ok)
    (h : (s.fieldByte n ch).parser.Repeated) :
    token ch ≠ 0 ∧ (nameStep s.parser ch).httpErrno = .unexpectedContentLength := by
  simp only [fieldByte] at h
  split at h
  · have hInside := countHeaderSize_repeated h
    split at hInside <;> rw [parser_apply] at hInside
    · exact absurd hInside (HttpParser.not_repeated_of_ok hOk)
    · cases hInside.1
  · rename_i hTok
    refine ⟨hTok, ?_⟩
    split at h <;> exact h.1

theorem valueStop_not_repeated {s : Scan} {n : ℕ} {g : HeaderStates} {ch : UInt8} :
    ¬ (s.valueStop n g ch).parser.Repeated := by
  intro h
  simp only [valueStop] at h
  split at h
  · have hState := (countHeaderSize_repeated h).2
    have hFrame := (act_frame ch { s with
      parser := { s.parser with state := .sHeaderAlmostDone, headerState := g }, ctl := .outer }
        (.data .headerValue)).1
    have hParser : (callbackData { s with
        parser := { s.parser with state := .sHeaderAlmostDone, headerState := g }, ctl := .outer }
        .headerValue []).parser.state = .sHeaderAlmostDone := congrArg HttpParser.state hFrame
    rw [show ∀ t : Scan, (t.consume ch).parser = t.parser from fun _ => rfl] at hState
    exact absurd (hParser.symm.trans hState) (by decide)
  · have hInside := countHeaderSize_repeated h
    rw [parser_apply] at hInside
    have hState := hInside.2
    simp only [Outcome.after, headerAlmostDoneCase] at hState
    split at hState <;> simp [fail, HttpUtils.next, addNread] at hState

theorem valueByte_not_repeated {s : Scan} {n : ℕ} {g : HeaderStates} {jump : Option ℕ} {ch : UInt8}
    (hState : s.parser.state = .sHeaderValue) : ¬ (s.valueByte n g jump ch).parser.Repeated := by
  intro h
  have hSame {P : HttpParser} (hP : P.state = .sHeaderValue) : ¬ P.Repeated := by
    rintro ⟨-, hName⟩
    rw [hP] at hName
    cases hName
  have hChar : (headerValueChar s.parser g ch).1.state = .sHeaderValue := (headerValueChar_state _ _ _).trans hState
  cases jump with
  | some i =>
    simp only [valueByte] at h
    split at h
    · exact valueStop_not_repeated h
    · exact hSame hState h
  | none =>
    simp only [valueByte] at h
    split at h
    · exact valueStop_not_repeated h
    split at h
    · exact hSame (P := setErrno s.parser .invalidHeaderToken) hState h
    split at h
    · exact hSame hState h
    split at h
    · exact hSame hChar h
    · exact hSame hChar h

theorem switchByte_repeated {s : Scan} {ch : UInt8} (hOk : s.parser.httpErrno = .ok)
    (h : (s.switchByte ch).parser.Repeated) :
    s.parser.state = .sHeaderField ∧ token ch ≠ 0 ∧ (nameStep s.parser ch).httpErrno = .unexpectedContentLength := by
  unfold switchByte at h
  split at h
  · exact ⟨‹_›, fieldByte_repeated (s := { s with ctl := .field 0 }) hOk h⟩
  · exact absurd h (valueByte_not_repeated ‹_›)
  · rename_i hName _
    rw [parser_apply] at h
    by_cases hFlow : (HttpUtils.switch s.parser ch 1).flow = .next
    · refine absurd h (HttpParser.not_repeated_of_ok ?_)
      exact ((switch_keeps s.parser ch 1).errno (by simp [hFlow])).trans hOk
    · exact absurd h.2 (switch_outside hName ch 1 hFlow)

def FindsRepeat (s : Scan) (ch : UInt8) : Prop :=
  s.parser.state = .sHeaderField ∧ token ch ≠ 0 ∧ (nameStep s.parser ch).httpErrno = .unexpectedContentLength

theorem nameStep_plain_errno (P : HttpParser) (ch : UInt8) :
    (nameStep P.plain ch).httpErrno = (nameStep P ch).httpErrno := by
  rw [nameStep, headerFieldChar_plain]
  rfl

theorem step_repeated {s : Scan} {ch : UInt8} (hFits : s.ctl.Fits s.parser) (hOk : s.parser.httpErrno = .ok)
    (hRun : s.stopped = none) (h : (s.step ch).parser.Repeated) : s.FindsRepeat ch := by
  simp only [step, hRun] at h
  cases hCtl : s.ctl with
  | field n =>
    rw [hCtl] at hFits
    simp only [hCtl] at h
    exact ⟨hFits, fieldByte_repeated hOk h⟩
  | value n g jump =>
    rw [hCtl] at hFits
    simp only [hCtl] at h
    exact absurd h (valueByte_not_repeated hFits.1)
  | outer =>
    simp only [hCtl] at h
    split at h
    · have hInside := switchByte_repeated (s := { s with parser := addNread s.parser 1 }) hOk
        (countHeaderSize_repeated h)
      refine ⟨hInside.1, hInside.2.1, ?_⟩
      rw [← nameStep_plain_errno]
      exact (nameStep_plain_errno (addNread s.parser 1) ch).trans hInside.2.2
    · exact switchByte_repeated hOk h

theorem FindsRepeat.repeats {s : Scan} {r : Reader} {ch : UInt8} (h : s.FindsRepeat ch) (hFits : s.ctl.Fits s.parser)
    (hShadow : s.ShadowedBy r) : r.Repeats ch := by
  obtain ⟨hState, hTok, hError⟩ := h
  have hParser : r.parser = s.parser.plain := by
    rw [hShadow.parser]
    cases hCtl : s.ctl with
    | outer => rfl
    | field n => rfl
    | value n g jump =>
      rw [hCtl] at hFits
      rw [hFits.1] at hState
      cases hState
  exact ⟨hParser ▸ hState, hTok, by rw [hParser, nameStep_plain_errno]; exact hError⟩

theorem run_stops {s : Scan} {b : Bytes} (hRun : s.stopped = none) (h : PartialRun.run next s b = none) :
    ∃ u c v q, b = u ++ c :: v ∧ PartialRun.run next s u = some q ∧ q.stopped = none ∧ s.run b = q.step c ∧
      (q.step c).stopped ≠ none := by
  induction b generalizing s with
  | nil => cases h
  | cons ch b ih =>
    have hTakes := step_takes hRun ch
    cases hMove : move s.parser s.ctl ch with
    | none =>
      rw [hMove] at hTakes
      obtain ⟨n, hStopped, -⟩ := hTakes
      refine ⟨[], ch, b, s, rfl, rfl, hRun, ?_, by simp [hStopped]⟩
      rw [run, List.foldl_cons]
      exact run_stopped hStopped b
    | some v =>
      rw [hMove] at hTakes
      have hNext : s.next ch = some (s.take ch v) := next_eq_some.mpr ⟨v, hMove, rfl⟩
      rw [PartialRun.run_cons_of_step hNext] at h
      obtain ⟨u, c, w, q, rfl, hq, hFree, hSame, hStops⟩ := ih ((take_stopped s ch v).trans hRun) h
      refine ⟨ch :: u, c, w, q, rfl, (PartialRun.run_cons_of_step hNext u).trans hq, hFree, ?_, hStops⟩
      rw [← hSame, run, List.foldl_cons, show s.step ch = s.take ch v from hTakes]
      rfl

end Scan

namespace MessageParser

variable {T : Type} {M : MessageParser T}

theorem Holds.parse_repeated {t : T} {calls : List Callback} {b : Bytes} (h : M.Holds t calls) (hb : b ≠ [])
    (hRepeated : (M.parser (M.parse t b).2).Repeated) :
    ∃ u c v q, b = u ++ c :: v ∧ PartialRun.run Scan.next (Scan.resume (M.parser t) calls) u = some q ∧
      q.FindsRepeat c := by
  cases hRun : PartialRun.run Scan.next (Scan.resume (M.parser t) calls) b with
  | some s =>
    exfalso
    cases hCut : s.cut with
    | none =>
      have hErrno := (h.parse_overflow hb hRun hCut).2.1
      exact absurd (hErrno.symm.trans hRepeated.1) (by decide)
    | some u =>
      have hParser := (h.parse_cut hb hRun hCut).2.1
      rw [hParser] at hRepeated
      exact HttpParser.not_repeated_of_ok ((h.sound.run hRun).cut hCut).1.errno hRepeated
  | none =>
    rw [Scan.resume_eq, Scan.run_after, Option.map_eq_none_iff] at hRun
    obtain ⟨u, c, v, q, rfl, hq, hFree, hSame, hStops⟩ := Scan.run_stops rfl hRun
    have hReached : PartialRun.run Scan.next (Scan.resume (M.parser t) calls) u = some (q.after calls) := by
      rw [Scan.resume_eq, Scan.run_after, hq]
      rfl
    have hSound := h.sound.run hReached
    obtain ⟨n, hStopped⟩ := Option.ne_none_iff_exists'.mp hStops
    have hParser : M.parser (M.parse t (u ++ c :: v)).2 = (q.step c).parser := by
      rw [M.parser_parse, httpParserExecute_eq h.errno hb, hSame]
      simp only [Scan.endBuffer, hStopped]
      rfl
    rw [hParser] at hRepeated
    exact ⟨u, c, v, q.after calls, rfl, hReached,
      Scan.step_repeated (s := q) hSound.between.fits hSound.errno hFree hRepeated⟩

/-- `parse` does not stop at a second length, whatever the division of the text. The counter of the header bytes has
32 bits, so no read may be longer than it can count. -/
def NeverRepeats (M : MessageParser T) (t : T) (text : Bytes) : Prop :=
  ∀ us b vs, (∀ x ∈ us ++ b :: vs, x ≠ [] ∧ x.length < 2 ^ 31) → (us ++ b :: vs).flatten = text →
    M.Unrefused t us → ¬ (M.parser (M.parse (M.parseAll t us).2 b).2).Repeated

/-- A loop that runs over the end of a value does not end with the buffer. -/
theorem Holds.short_of_cut {t : T} {calls : List Callback} {b : Bytes} {s u : Scan} (h : M.Holds t calls)
    (hShort : b.length < 2 ^ 31) (hRun : PartialRun.run Scan.next (Scan.resume (M.parser t) calls) b = some s)
    (hCut : s.cut = some u) : s.ctl.jumped ≤ httpMaxHeaderSize := by
  by_contra hLong
  obtain ⟨Q, hQ, -⟩ := Option.map_eq_some_iff.mp hCut
  have hFits := (h.sound.run hRun).between.fits
  cases hCtl : s.ctl with
  | outer | field n =>
    rw [hCtl] at hLong
    exact hLong (Nat.zero_le _)
  | value n g jump =>
    rw [hCtl] at hLong hFits hQ
    cases jump with
    | none => exact hLong (Nat.zero_le _)
    | some i =>
      have hLe := (hFits.2 i rfl).2
      have hPending := Scan.run_pending hRun
      have hSmall := (h.sound.run hRun).nread
      have hZero : (Scan.resume (M.parser t) calls).ctl.pending = 0 := rfl
      rw [hCtl, hZero] at hPending
      have hLimit := nread_of_counted hQ
      obtain rfl := (counted_eq_some.mp hQ).2
      have hCount : (s.parser.nread + n) % 2 ^ 32 ≤ httpMaxHeaderSize := hLimit
      simp only [Ctl.pending, Ctl.jumped] at hPending hLong
      simp only [httpMaxHeaderSize] at hSmall hCount hLong
      omega

/-- Where some division stops at a second length, a reader is at that error and one read of the text gets so far. -/
theorem Behind.reached {t : T} {calls : List Callback} {r : Reader} {w : Scan} (h : M.Behind t calls r) (hw : w.Sound)
    (hAhead : w.Ahead (Scan.resume (M.parser t) calls)) {us vs : List Bytes} {b : Bytes}
    (hReads : ∀ x ∈ us ++ b :: vs, x ≠ [] ∧ x.length < 2 ^ 31) (hUnrefused : M.Unrefused t us)
    (hRepeated : (M.parser (M.parse (M.parseAll t us).2 b).2).Repeated) :
    ∃ u c v q x, (us ++ b :: vs).flatten = u ++ c :: v ∧ r.run u = some q ∧ q.Repeats c ∧
      PartialRun.run Scan.next w u = some x ∧ x.parser.state = .sHeaderField := by
  have hStart : (Scan.resume (M.parser t) calls).ctl.pending = 0 := rfl
  induction us generalizing t calls r w with
  | nil =>
    obtain ⟨hNe, hShort⟩ := hReads b (by simp)
    obtain ⟨u, c, v, q, rfl, hq, hFinds⟩ := h.holds.parse_repeated hNe hRepeated
    have hFits := (h.holds.sound.run hq).between.fits
    have hZero := hFits.inName_jumped hFinds.1
    obtain ⟨q', hq', hShadow⟩ := h.holds.sound.shadow_run h.shadow hq hZero
    rw [List.length_append] at hShort
    obtain ⟨x, hx, hEnd⟩ := hAhead.run hw h.holds.sound (by omega) hq hZero
    refine ⟨u, c, v ++ vs.flatten, q', x, by simp, hq', hFinds.repeats hFits hShadow, hx, ?_⟩
    exact hEnd.state.trans hFinds.1
  | cons a us ih =>
    obtain ⟨ha, hShort⟩ := hReads a List.mem_cons_self
    rw [unrefused_cons] at hUnrefused
    cases hRun : PartialRun.run Scan.next (Scan.resume (M.parser t) calls) a with
    | none => exact absurd (h.holds.parse_none ha hRun) hUnrefused.1
    | some s =>
      cases hCut : s.cut with
      | none =>
        -- the next read is refused at once
        obtain ⟨-, hErrno, -⟩ := h.holds.parse_overflow ha hRun hCut
        have hError : (M.parser (M.parse t a).2).httpErrno ≠ .ok := by
          rw [hErrno]
          decide
        cases us with
        | nil =>
          have hStill : M.parser (M.parse (M.parse t a).2 b).2 = M.parser (M.parse t a).2 := by
            rw [M.parser_parse]
            simp [httpParserExecute, hError]
          have hLast : (M.parser (M.parse (M.parse t a).2 b).2).Repeated := hRepeated
          rw [hStill] at hLast
          exact absurd (hErrno.symm.trans hLast.1) (by decide)
        | cons c us =>
          rw [unrefused_cons] at hUnrefused
          have hNext := (hReads c (by simp)).1
          exact absurd (parse_after_error hError hNext (M.shows_parse a h.holds.shows')) hUnrefused.2.1
      | some z =>
        have hJumped := h.holds.short_of_cut hShort hRun hCut
        obtain ⟨r', hr', hShadow⟩ := h.holds.sound.shadow_run h.shadow hRun hJumped
        obtain ⟨x, hx, hBoth⟩ := hAhead.run hw h.holds.sound (by omega) hRun hJumped
        obtain ⟨-, hParser, -, hHolds⟩ := h.holds.parse_cut ha hRun hCut
        have hSound := h.holds.sound.run hRun
        have hPending := Scan.run_pending hRun
        have hBehind : M.Behind (M.parse t a).2 z.calls r' := by
          refine ⟨hHolds, ?_⟩
          rw [hParser, ← Scan.resume_cut hCut]
          exact hSound.shadow_cut hShadow hCut
        have hNext : x.Ahead (Scan.resume (M.parser (M.parse t a).2) z.calls) := by
          rw [hParser, ← Scan.resume_cut hCut]
          exact hBoth.cut hSound (by omega) hCut
        obtain ⟨u, c, v, q, y, hText, hq, hRepeats, hy, hState⟩ :=
          ih hBehind (hw.run hx) hNext (fun x hx => hReads x (List.mem_cons_of_mem a hx)) hUnrefused.2 hRepeated rfl
        refine ⟨a ++ u, c, v, q, y, ?_, (PartialRun.run_append_of_run hr' u).trans hq, hRepeats,
          (PartialRun.run_append_of_run hx u).trans hy, hState⟩
        rw [List.cons_append, List.flatten_cons, hText, List.append_assoc]

end MessageParser

/-! ### One read -/

theorem endsInName_iff {type : HttpParserType} {u : Bytes} : EndsInName type u ↔
    ∃ s, PartialRun.run Scan.next (Scan.start (httpParserInit type)) u = some s ∧ s.parser.state = .sHeaderField := by
  constructor
  · rintro ⟨hFree, hState⟩
    cases hRun : PartialRun.run Scan.next (Scan.start (httpParserInit type)) u with
    | none =>
      obtain ⟨a, c, v, q, -, -, -, hSame, hStops⟩ := Scan.run_stops rfl hRun
      rw [hSame] at hFree
      exact absurd hFree hStops
    | some s =>
      obtain ⟨hSame, -, -⟩ := Scan.run_of_next rfl hRun
      exact ⟨s, rfl, hSame ▸ hState⟩
  · rintro ⟨s, hRun, hState⟩
    obtain ⟨hSame, hFree, -⟩ := Scan.run_of_next rfl hRun
    rw [EndsInName, hSame]
    exact ⟨hFree, hState⟩

theorem move_inName {P : HttpParser} {c : Ctl} {ch : UInt8} {v : Move} (hFits : c.Fits P)
    (hState : P.state = .sHeaderField) (hToken : token ch ≠ 0) (hMove : move P c ch = some v) :
    ∃ n, v.ctl = .field n := by
  have hField {Q : HttpParser} {m : ℕ} (h : fieldMove Q m ch = some v) : ∃ n, v.ctl = .field n := by
    simp only [fieldMove, if_neg hToken] at h
    split at h
    · cases h
    · obtain rfl := Option.some.inj h
      exact ⟨m + 1, rfl⟩
  cases c with
  | field m => exact hField hMove
  | value m g jump => exact absurd (hState.symm.trans hFits.1) (by decide)
  | outer =>
    have hParsing : parsingHeader P.state = true := by
      rw [hState]
      rfl
    simp only [move, hParsing, if_true] at hMove
    obtain ⟨R, hR, hv⟩ := Option.bind_eq_some_iff.mp hMove
    obtain rfl := (counted_eq_some.mp hR).2
    have hStateR : (addNread P 1).state = .sHeaderField := hState
    simp only [switchMove, hStateR] at hv
    exact hField hv

/-- A read that gets to a second name is in the loop over names there: its last byte is not the first of the name. -/
theorem Reader.Begins.inLoop {type : HttpParserType} {first w : Bytes} {c : UInt8}
    (hBegins : Reader.Begins type first) {start s : Scan} (hSound : start.Sound)
    (hShadow : start.ShadowedBy (freshReader type)) (hLf : LF ∉ first) (hSecond : SecondName (first ++ [LF] ++ w) c)
    (hRun : PartialRun.run Scan.next start (first ++ [LF] ++ w) = some s) (hState : s.parser.state = .sHeaderField) :
    ∃ n, s.ctl = .field n := by
  have hShort := (hSound.run hRun).between.fits.inName_jumped hState
  obtain ⟨r, hr, -⟩ := hSound.shadow_run hShadow hRun hShort
  obtain ⟨a, d, q, rfl, hToken, hq, hIn⟩ := hBegins.inName hLf hSecond hr
  rw [← List.append_assoc] at hRun
  obtain ⟨p, hp, hLast⟩ := PartialRun.run_append_eq_some.mp hRun
  obtain ⟨q', hq', hThere⟩ := hSound.shadow_run hShadow hp (Scan.run_short hLast hShort)
  obtain rfl := Option.some.inj (hq.symm.trans hq')
  rw [PartialRun.run_singleton] at hLast
  obtain ⟨x, hMove, rfl⟩ := Scan.next_eq_some.mp hLast
  have hInName : p.parser.state = .sHeaderField := by rwa [hThere.parser, Ctl.plain_state] at hIn
  rw [Scan.take_ctl]
  exact move_inName (hSound.run hp).between.fits hInName hToken hMove

theorem Scan.repeated_of_repeats {s : Scan} {r : Reader} {n : ℕ} {c : UInt8} (hRun : s.stopped = none)
    (hCtl : s.ctl = .field n) (hShadow : s.ShadowedBy r) (hRepeats : r.Repeats c) :
    (s.step c).parser.Repeated ∧ (s.step c).stopped ≠ none := by
  obtain ⟨hReader, hTok, hReaderError⟩ := hRepeats
  have hParser : r.parser = s.parser.plain := by
    rw [hShadow.parser, hCtl]
    rfl
  have hState : s.parser.state = .sHeaderField := by rwa [hParser] at hReader
  have hError : (headerFieldChar s.parser c (token c)).httpErrno = .unexpectedContentLength := by
    rw [hParser, nameStep_plain_errno] at hReaderError
    exact hReaderError
  have hNot : (headerFieldChar s.parser c (token c)).httpErrno ≠ .ok := by
    rw [hError]
    decide
  simp only [step, hRun, hCtl, fieldByte, if_neg hTok]
  rw [if_pos hNot]
  exact ⟨⟨hError, (headerFieldChar_state _ _ _).trans hState⟩, by simp⟩

namespace MessageParser

variable {T : Type} {M : MessageParser T}

theorem Behind.repeated {t : T} {type : HttpParserType} (h : M.Behind t [] (freshReader type))
    (hFresh : M.parser t = httpParserInit type) {first w v : Bytes} {c : UInt8} (hBegins : Reader.Begins type first)
    (hLf : LF ∉ first) (hSecond : SecondName (first ++ [LF] ++ w) c) (hEnds : EndsInName type (first ++ [LF] ++ w)) :
    (M.parser (M.parse t (first ++ [LF] ++ w ++ c :: v)).2).Repeated := by
  obtain ⟨s, hRun, hState⟩ := endsInName_iff.mp hEnds
  have hStart : Scan.resume (M.parser t) [] = Scan.start (httpParserInit type) := by
    rw [hFresh]
    rfl
  have hSound := h.holds.sound
  have hShadow := h.shadow
  rw [hStart] at hSound hShadow
  have hShort := (hSound.run hRun).between.fits.inName_jumped hState
  obtain ⟨r, hr, hBoth⟩ := hSound.shadow_run hShadow hRun hShort
  have hRepeats := hBegins.repeats hLf hSecond hr
  obtain ⟨n, hCtl⟩ := hBegins.inLoop hSound hShadow hLf hSecond hRun hState
  obtain ⟨hSame, hFree, -⟩ := Scan.run_of_next rfl hRun
  obtain ⟨hRepeated, hStops⟩ := Scan.repeated_of_repeats hFree hCtl hBoth hRepeats
  obtain ⟨m, hStopped⟩ := Option.ne_none_iff_exists'.mp hStops
  have hAll : (Scan.start (M.parser t)).run (first ++ [LF] ++ w ++ c :: v) = s.step c := by
    rw [hFresh, Scan.run_append, hSame, Scan.run, List.foldl_cons]
    exact Scan.run_stopped hStopped v
  have hParser : M.parser (M.parse t (first ++ [LF] ++ w ++ c :: v)).2 = (s.step c).parser := by
    have hErrno : (M.parser t).httpErrno = .ok := h.holds.errno
    have hData : first ++ [LF] ++ w ++ c :: v ≠ [] := by simp
    rw [M.parser_parse, httpParserExecute_eq hErrno hData, hAll]
    simp only [Scan.endBuffer, hStopped]
    rfl
  rwa [hParser]

/-- A parser that one read does not get to a second name finds no second length in any division. -/
theorem Behind.neverRepeats {t : T} {type : HttpParserType} (h : M.Behind t [] (freshReader type))
    (hFresh : M.parser t = httpParserInit type) {first rest : Bytes} (hBegins : Reader.Begins type first)
    (hLf : LF ∉ first) (hUnique : UniqueLength (first ++ [LF] ++ rest))
    (hRefused : RefusedBefore type (first ++ [LF] ++ rest)) : M.NeverRepeats t (first ++ [LF] ++ rest) := by
  intro us b vs hReads hText hUnrefused hRepeated
  have hAhead : (Scan.resume (M.parser t) []).Ahead (Scan.resume (M.parser t) []) := Scan.ahead_fresh [] []
  obtain ⟨u, c, v, q, x, hSplit, hq, hRepeats, hx, hState⟩ :=
    h.reached h.holds.sound hAhead hReads hUnrefused hRepeated
  rw [hText] at hSplit
  refine hRefused u c v hSplit (hBegins.second hLf hUnique hSplit hq hRepeats) (endsInName_iff.mpr ⟨x, ?_, hState⟩)
  rw [← hx, hFresh]
  rfl

theorem Behind.refusedBefore {t : T} {type : HttpParserType} (h : M.Behind t [] (freshReader type))
    (hFresh : M.parser t = httpParserInit type) {first rest : Bytes} (hBegins : Reader.Begins type first)
    (hLf : LF ∉ first) (hSmall : (first ++ [LF] ++ rest).length < 2 ^ 31)
    (hNever : M.NeverRepeats t (first ++ [LF] ++ rest)) : RefusedBefore type (first ++ [LF] ++ rest) := by
  intro u c v hSplit hSecond hEnds
  obtain ⟨w, rfl⟩ := hSecond.behind hSplit hLf
  refine hNever [] (first ++ [LF] ++ rest) [] (fun x hx => ?_) (by simp) List.not_mem_nil ?_
  · obtain rfl := List.mem_singleton.mp hx
    exact ⟨by simp, hSmall⟩
  · rw [hSplit]
    exact h.repeated hFresh hBegins hLf hSecond hEnds

end MessageParser

end HttpUtils
