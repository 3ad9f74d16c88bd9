import HttpUtils.HttpParser.Passage
import HttpUtils.HttpParser.Sound

/-!
# A reader behind a scan

Where a scan goes on, so does a reader of the same bytes, whatever the division: only a value of more than
`HTTP_MAX_HEADER_SIZE` bytes in one buffer can run over its own end, and no buffer ends outside of it then.
-/

namespace HttpUtils
set_option autoImplicit false

/-- The bytes that the loop over a value has passed since it last looked for the end. -/
def Ctl.jumped : Ctl → ℕ
  | .value _ _ (some i) => i
  | _ => 0

def Move.Shown (P : HttpParser) (ch : UInt8) (v : Move) : Prop :=
  (byteCase P ch).move = some ⟨v.acts, v.ctl.plain v.parser, .outer⟩

theorem shown_fieldMove {P : HttpParser} {n : ℕ} {ch : UInt8} {v : Move} (hState : P.state = .sHeaderField)
    (hMove : fieldMove P n ch = some v) : v.Shown P.plain ch := by
  have hPlain : P.plain.state = .sHeaderField := hState
  simp only [Move.Shown, byteCase, hPlain, nameCase]
  unfold fieldMove at hMove
  split at hMove
  · rename_i hToken
    obtain ⟨Q, hQ, hv⟩ := Option.bind_eq_some_iff.mp hMove
    obtain rfl := (counted_eq_some.mp hQ).2
    split at hv
    · rename_i hColon
      obtain rfl := Option.some.inj hv
      rw [if_pos hToken, if_pos hColon]
      rfl
    · cases hv
  · rename_i hToken
    rw [if_neg hToken, headerFieldChar_plain]
    dsimp only at hMove
    split at hMove
    · cases hMove
    · rename_i hOk
      obtain rfl := Option.some.inj hMove
      have hOk' : ¬ (headerFieldChar P ch (token ch)).plain.httpErrno ≠ .ok := hOk
      rw [if_neg hOk']
      rfl

theorem shown_stopMove {P : HttpParser} {n : ℕ} {g : HeaderStates} {ch : UInt8} {v : Move}
    (hState : P.state = .sHeaderValue) (hStop : ch = CR ∨ ch = LF) (hMove : stopMove P n g ch = some v) :
    v.Shown { P with nread := 0, headerState := g } ch := by
  obtain ⟨Q, hQ, rfl⟩ := Option.map_eq_some_iff.mp hMove
  obtain rfl := (counted_eq_some.mp hQ).2
  rw [Move.Shown, byteCase_value (P := { P with nread := 0, headerState := g }) hState, valueCase]
  by_cases hCr : ch = CR
  · simp only [hCr, if_true]
    rfl
  · obtain rfl := hStop.resolve_left hCr
    simp only [hCr, if_false, if_true]
    rfl

theorem shown_valueMove {P : HttpParser} {n : ℕ} {g : HeaderStates} {jump : Option ℕ} {ch : UInt8} {v : Move}
    (hState : P.state = .sHeaderValue) (hErrno : P.httpErrno = .ok)
    (hJump : ∀ i, jump = some i → g = .hGeneral ∧ i ≤ n)
    (hMove : valueMove P n g jump ch = some v) (hShort : v.ctl.jumped ≤ httpMaxHeaderSize) :
    v.Shown { P with nread := 0, headerState := g } ch := by
  have hGoes (hStop : ¬ (ch = CR ∨ ch = LF)) (hGeneral : g = .hGeneral) (j : Option ℕ) :
      Move.Shown { P with nread := 0, headerState := g } ch ⟨[], P, .value (n + 1) g j⟩ := by
    subst hGeneral
    rw [Move.Shown, byteCase_value (P := { P with nread := 0, headerState := .hGeneral }) hState, valueCase,
      if_neg fun hCr => hStop (.inl hCr), if_neg fun hLf => hStop (.inr hLf)]
    dsimp only [headerValueChar]
    rw [if_neg (not_not.mpr hErrno)]
    rfl
  unfold valueMove at hMove
  cases jump with
  | some i =>
    obtain ⟨hGeneral, hi⟩ := hJump i rfl
    dsimp only at hMove
    split at hMove
    · rename_i hStop
      exact shown_stopMove hState hStop.1 hMove
    · rename_i hStop
      obtain rfl := Option.some.inj hMove
      refine hGoes (fun hEnd => hStop ⟨hEnd, ?_⟩) hGeneral _
      exact hShort
  | none =>
    dsimp only at hMove
    split at hMove
    · rename_i hStop
      exact shown_stopMove hState hStop hMove
    rename_i hStop
    split at hMove
    · cases hMove
    split at hMove
    · rename_i hGeneral
      obtain rfl := Option.some.inj hMove
      exact hGoes hStop hGeneral _
    split at hMove
    · cases hMove
    · rename_i hOk
      obtain rfl := Option.some.inj hMove
      obtain ⟨hSame, -, hParser⟩ := headerValueChar_plain P g ch
      rw [Move.Shown, byteCase_value (P := { P with nread := 0, headerState := g }) hState, valueCase,
        if_neg fun hCr => hStop (.inl hCr), if_neg fun hLf => hStop (.inr hLf)]
      dsimp only
      rw [if_neg (not_not.mpr (hSame.trans (not_not.mp hOk))), hParser (not_not.mp hOk)]
      rfl

theorem shown_switchMove {P : HttpParser} {ch : UInt8} {v : Move} (hErrno : P.httpErrno = .ok)
    (hMove : switchMove P ch = some v) (hShort : v.ctl.jumped ≤ httpMaxHeaderSize) : v.Shown P.plain ch := by
  unfold switchMove at hMove
  split at hMove
  · exact shown_fieldMove ‹_› hMove
  · exact shown_valueMove ‹_› hErrno (fun i hi => by cases hi) hMove hShort
  · have hByte : byteCase P.plain ch = (switch P ch 1).plain := by
      rw [← switch_plain]
      exact byteCase_switch (P := P.plain) ‹P.state = .sHeaderField → False› ‹P.state = .sHeaderValue → False›
    obtain ⟨hFlow, rfl⟩ := Outcome.move_eq_some hMove
    have hNext : (switch P ch 1).plain.flow = .next := hFlow
    rw [Move.Shown, hByte, Outcome.move, hNext]
    rfl

theorem move_shown {P : HttpParser} {c : Ctl} {ch : UInt8} {v : Move} (hFits : c.Fits P) (hErrno : P.httpErrno = .ok)
    (hMove : move P c ch = some v) (hShort : v.ctl.jumped ≤ httpMaxHeaderSize) : v.Shown (c.plain P) ch := by
  cases c with
  | field n => exact shown_fieldMove hFits hMove
  | value n g jump => exact shown_valueMove hFits.1 hErrno hFits.2 hMove hShort
  | outer =>
    simp only [move] at hMove
    split at hMove
    · obtain ⟨Q, hQ, hv⟩ := Option.bind_eq_some_iff.mp hMove
      obtain rfl := (counted_eq_some.mp hQ).2
      exact shown_switchMove (P := addNread P 1) hErrno hv hShort
    · exact shown_switchMove hErrno hMove hShort

theorem stopMove_ctl {P : HttpParser} {n : ℕ} {g : HeaderStates} {ch : UInt8} {v : Move}
    (h : stopMove P n g ch = some v) :
    v.ctl = .outer := by
  obtain ⟨Q, -, rfl⟩ := Option.map_eq_some_iff.mp h
  rfl

/-- Past the limit nothing ends the loop. -/
theorem valueMove_jumped {P : HttpParser} {n : ℕ} {g : HeaderStates} {jump : Option ℕ} {ch : UInt8} {v : Move}
    (hMove : valueMove P n g jump ch = some v) :
    v.ctl.jumped ≤ (Ctl.value n g jump).jumped + 1 ∧
      (httpMaxHeaderSize ≤ (Ctl.value n g jump).jumped → v.ctl.jumped = (Ctl.value n g jump).jumped + 1) := by
  have hZero : ¬ httpMaxHeaderSize ≤ 0 := by decide
  unfold valueMove at hMove
  cases jump with
  | some i =>
    dsimp only at hMove
    split at hMove
    · rename_i hStop
      rw [stopMove_ctl hMove]
      exact ⟨Nat.zero_le _, fun hLong => absurd hStop.2 (Nat.not_lt.mpr hLong)⟩
    · obtain rfl := Option.some.inj hMove
      exact ⟨Nat.le_refl _, fun _ => rfl⟩
  | none =>
    refine ⟨?_, fun hLong => absurd hLong hZero⟩
    dsimp only at hMove
    split at hMove
    · rw [stopMove_ctl hMove]
      exact Nat.zero_le _
    split at hMove
    · cases hMove
    split at hMove
    · obtain rfl := Option.some.inj hMove
      exact Nat.le_refl _
    split at hMove
    · cases hMove
    · obtain rfl := Option.some.inj hMove
      exact Nat.zero_le _

theorem fieldMove_jumped {P : HttpParser} {n : ℕ} {ch : UInt8} {v : Move} (hMove : fieldMove P n ch = some v) :
    v.ctl.jumped = 0 := by
  unfold fieldMove at hMove
  split at hMove
  · obtain ⟨Q, -, hv⟩ := Option.bind_eq_some_iff.mp hMove
    split at hv
    · obtain rfl := Option.some.inj hv
      rfl
    · cases hv
  · dsimp only at hMove
    split at hMove
    · cases hMove
    · obtain rfl := Option.some.inj hMove
      rfl

theorem switchMove_jumped {P : HttpParser} {ch : UInt8} {v : Move} (hMove : switchMove P ch = some v) :
    v.ctl.jumped ≤ 1 := by
  unfold switchMove at hMove
  split at hMove
  · rw [fieldMove_jumped hMove]
    exact Nat.zero_le _
  · exact (valueMove_jumped hMove).1
  · rw [(Outcome.move_eq_some hMove).2]
    exact Nat.zero_le _

theorem move_jumped {P : HttpParser} {c : Ctl} {ch : UInt8} {v : Move} (hMove : move P c ch = some v) :
    v.ctl.jumped ≤ c.jumped + 1 ∧ (httpMaxHeaderSize ≤ c.jumped → v.ctl.jumped = c.jumped + 1) := by
  have hZero : ¬ httpMaxHeaderSize ≤ 0 := by decide
  cases c with
  | value n g jump => exact valueMove_jumped hMove
  | field n =>
    refine ⟨?_, fun hLong => absurd hLong hZero⟩
    rw [fieldMove_jumped hMove]
    exact Nat.zero_le _
  | outer =>
    refine ⟨?_, fun hLong => absurd hLong hZero⟩
    simp only [move] at hMove
    split at hMove
    · obtain ⟨Q, hQ, hv⟩ := Option.bind_eq_some_iff.mp hMove
      exact switchMove_jumped hv
    · exact switchMove_jumped hMove

namespace Scan

theorem run_jumped {s t : Scan} {b : Bytes} (hRun : PartialRun.run next s b = some t) :
    t.ctl.jumped ≤ s.ctl.jumped + b.length ∧
      (httpMaxHeaderSize ≤ s.ctl.jumped → t.ctl.jumped = s.ctl.jumped + b.length) := by
  induction b generalizing s with
  | nil =>
    obtain rfl := Option.some.inj hRun
    exact ⟨Nat.le_refl _, fun _ => rfl⟩
  | cons ch b ih =>
    obtain ⟨q, hNext, hRest⟩ := PartialRun.run_cons_eq_some.mp hRun
    obtain ⟨v, hMove, rfl⟩ := next_eq_some.mp hNext
    obtain ⟨hLe, hLong⟩ := move_jumped hMove
    obtain ⟨hLe', hLong'⟩ := ih hRest
    rw [take_ctl] at hLe' hLong'
    rw [List.length_cons]
    constructor
    · omega
    · intro hPast
      have hHere := hLong hPast
      have hThere := hLong' (by omega)
      omega

theorem run_short {s t : Scan} {b : Bytes} (hRun : PartialRun.run next s b = some t)
    (hShort : t.ctl.jumped ≤ httpMaxHeaderSize) : s.ctl.jumped ≤ httpMaxHeaderSize := by
  by_contra hLong
  have hPast := (run_jumped hRun).2 (by omega)
  omega

/-- The reader has read what the scan has read. -/
structure ShadowedBy (s : Scan) (r : Reader) : Prop where
  parser : r.parser = s.ctl.plain s.parser
  message : r.message = s.message

theorem Sound.shadow_move {s t : Scan} {r : Reader} {ch : UInt8} (h : s.Sound) (hShadow : s.ShadowedBy r)
    (hNext : s.next ch = some t) (hShort : t.ctl.jumped ≤ httpMaxHeaderSize) :
    ∃ v w limit, move s.parser s.ctl ch = some v ∧ t = s.take ch v ∧ (byteCase r.parser ch).move = some w ∧
      v.Follows w limit ∧ s.parser.state = r.parser.state := by
  obtain ⟨v, hMove, rfl⟩ := next_eq_some.mp hNext
  rw [take_ctl] at hShort
  have hShown := move_shown h.between.fits h.errno hMove hShort
  rw [← hShadow.parser] at hShown
  have hState : s.parser.state = r.parser.state := by rw [hShadow.parser, Ctl.plain_state]
  exact ⟨v, _, v.parser.nread + v.ctl.pending, hMove, rfl, hShown,
    ⟨rfl, rfl, (move_keeps hMove).errno h.errno, Nat.le_refl _⟩, hState⟩

theorem Sound.shadow_next {s t : Scan} {r : Reader} {ch : UInt8} (h : s.Sound) (hShadow : s.ShadowedBy r)
    (hNext : s.next ch = some t) (hShort : t.ctl.jumped ≤ httpMaxHeaderSize) :
    ∃ r', r.step ch = some r' ∧ t.ShadowedBy r' ∧ (t.Lost ↔ s.Lost ∨ r.Loses ch) := by
  obtain ⟨v, w, limit, hMove, rfl, hByte, hFollows, hState⟩ := h.shadow_move hShadow hNext hShort
  refine ⟨⟨w.parser, w.spell r.parser ch r.message, r.fed + 1⟩, ?_, ⟨?_, ?_⟩, ?_⟩
  · rw [Reader.step, hByte, Option.map_some]
  · rw [parser_of_take, take_ctl, hFollows.parser]
  · rw [← hFollows.spell hState, hShadow.message]
    exact (h.between.take hMove).message_eq
  · rw [h.between.take_lost hMove, ← hShadow.message, hFollows.loses hState]
    have hSame : r.Loses ch ↔ w.Loses r.parser ch r.message := by
      constructor
      · rintro ⟨v', hv', hLoses⟩
        obtain rfl := Option.some.inj (hByte.symm.trans hv')
        exact hLoses
      · exact fun hLoses => ⟨w, hByte, hLoses⟩
    rw [hSame]

theorem Sound.shadow_run {s t : Scan} {r : Reader} {b : Bytes} (h : s.Sound) (hShadow : s.ShadowedBy r)
    (hRun : PartialRun.run Scan.next s b = some t) (hShort : t.ctl.jumped ≤ httpMaxHeaderSize) :
    ∃ r', r.run b = some r' ∧ t.ShadowedBy r' := by
  induction b generalizing s r with
  | nil =>
    obtain rfl := Option.some.inj hRun
    exact ⟨r, rfl, hShadow⟩
  | cons ch b ih =>
    obtain ⟨q, hNext, hRest⟩ := PartialRun.run_cons_eq_some.mp hRun
    have hHere := run_short hRest hShort
    obtain ⟨r', hStep, hShadow', -⟩ := h.shadow_next hShadow hNext hHere
    obtain ⟨r'', hTail, hEnd⟩ := ih (h.next hNext).sound hShadow' hRest
    exact ⟨r'', (PartialRun.run_cons_of_step hStep b).trans hTail, hEnd⟩

theorem Sound.shadow_kept {s t : Scan} {r : Reader} {b : Bytes} (h : s.Sound) (hShadow : s.ShadowedBy r)
    (hKept : ¬ s.Lost) (hAlong : PartialRun.Along Reader.step (fun r ch => ¬ r.Loses ch) r b)
    (hRun : PartialRun.run Scan.next s b = some t) (hShort : t.ctl.jumped ≤ httpMaxHeaderSize) : ¬ t.Lost := by
  induction b generalizing s r with
  | nil =>
    obtain rfl := Option.some.inj hRun
    exact hKept
  | cons ch b ih =>
    obtain ⟨q, hNext, hRest⟩ := PartialRun.run_cons_eq_some.mp hRun
    have hHere := run_short hRest hShort
    obtain ⟨r', hStep, hShadow', hLost⟩ := h.shadow_next hShadow hNext hHere
    refine ih (h.next hNext).sound hShadow' ?_ (hAlong.2 r' hStep) hRest
    rw [hLost]
    exact fun hEither => hEither.elim hKept hAlong.1

/-- The end of a buffer is nothing to the reader. -/
theorem Sound.shadow_cut {s t : Scan} {r : Reader} (h : s.Sound) (hShadow : s.ShadowedBy r) (hCut : s.cut = some t) :
    t.ShadowedBy r := by
  have hMessage := (h.cut hCut).2.1
  obtain ⟨Q, hQ, rfl⟩ := Option.map_eq_some_iff.mp hCut
  refine ⟨?_, hShadow.message.trans hMessage.symm⟩
  rw [hShadow.parser]
  cases hCtl : s.ctl with
  | outer =>
    rw [hCtl] at hQ
    obtain rfl := Option.some.inj hQ
    rfl
  | field n | value n g jump =>
    rw [hCtl] at hQ
    obtain rfl := (counted_eq_some.mp hQ).2
    rfl

end Scan

end HttpUtils
