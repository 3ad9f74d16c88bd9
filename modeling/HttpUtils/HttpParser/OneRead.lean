import HttpUtils.HttpParser.Shadow

/-!
# One read and many

Where a buffer ends inside of a name or a value, the next one looks at its first byte afresh and counts it twice. So
the scan of a text in one buffer goes on wherever the scan of any division of it does.
-/

namespace HttpUtils
set_option autoImplicit false

/-! ### The bytes that a loop has still to count -/

theorem fieldMove_pending {P : HttpParser} {n : ℕ} {ch : UInt8} {v : Move} (hMove : fieldMove P n ch = some v) :
    v.ctl.pending ≤ n + 1 := by
  unfold fieldMove at hMove
  split at hMove
  · obtain ⟨Q, -, hv⟩ := Option.bind_eq_some_iff.mp hMove
    split at hv
    · obtain rfl := Option.some.inj hv
      exact Nat.zero_le _
    · cases hv
  · dsimp only at hMove
    split at hMove
    · cases hMove
    · obtain rfl := Option.some.inj hMove
      exact Nat.le_refl _

theorem valueMove_pending {P : HttpParser} {n : ℕ} {g : HeaderStates} {jump : Option ℕ} {ch : UInt8} {v : Move}
    (hMove : valueMove P n g jump ch = some v) : v.ctl.pending ≤ n + 1 := by
  have hStop {w : Move} (h : stopMove P n g ch = some w) : w.ctl.pending ≤ n + 1 := by
    rw [stopMove_ctl h]
    exact Nat.zero_le _
  cases jump with
  | some i =>
    simp only [valueMove] at hMove
    split at hMove
    · exact hStop hMove
    · obtain rfl := Option.some.inj hMove
      exact Nat.le_refl _
  | none =>
    simp only [valueMove] at hMove
    split at hMove
    · exact hStop hMove
    split at hMove
    · cases hMove
    split at hMove
    · obtain rfl := Option.some.inj hMove
      exact Nat.le_refl _
    split at hMove
    · cases hMove
    · obtain rfl := Option.some.inj hMove
      exact Nat.le_refl _

theorem switchMove_pending {P : HttpParser} {ch : UInt8} {v : Move} (hMove : switchMove P ch = some v) :
    v.ctl.pending ≤ 1 := by
  unfold switchMove at hMove
  split at hMove
  · exact fieldMove_pending hMove
  · exact valueMove_pending hMove
  · rw [(Outcome.move_eq_some hMove).2]
    exact Nat.zero_le _

theorem move_pending {P : HttpParser} {c : Ctl} {ch : UInt8} {v : Move} (hMove : move P c ch = some v) :
    v.ctl.pending ≤ c.pending + 1 := by
  cases c with
  | field n => exact fieldMove_pending hMove
  | value n g jump => exact valueMove_pending hMove
  | outer =>
    simp only [move] at hMove
    split at hMove
    · obtain ⟨Q, -, hv⟩ := Option.bind_eq_some_iff.mp hMove
      exact switchMove_pending hv
    · exact switchMove_pending hMove

theorem Scan.run_pending {s t : Scan} {b : Bytes} (hRun : PartialRun.run next s b = some t) :
    t.ctl.pending ≤ s.ctl.pending + b.length := by
  induction b generalizing s with
  | nil =>
    obtain rfl := Option.some.inj hRun
    exact Nat.le_refl _
  | cons ch b ih =>
    obtain ⟨q, hNext, hRest⟩ := PartialRun.run_cons_eq_some.mp hRun
    obtain ⟨v, hMove, rfl⟩ := next_eq_some.mp hNext
    have hHere := move_pending hMove
    have hThere := ih hRest
    rw [take_ctl] at hThere
    rw [List.length_cons]
    omega

/-! ### The counter of two scans -/

theorem headersDone_count {P : HttpParser} {k : ℕ} (h : k ≤ P.nread) (ch : UInt8) :
    (headersDoneCase { P with nread := k } ch).parser.nread ≤ (headersDoneCase P ch).parser.nread := by
  simp only [headersDoneCase]
  split
  · exact h
  repeat' split
  all_goals exact Nat.le_refl _

theorem headersAlmostDone_count {P : HttpParser} {k : ℕ} (h : k ≤ P.nread) (ch : UInt8) :
    (headersAlmostDoneCase { P with nread := k } ch).parser.nread ≤ (headersAlmostDoneCase P ch).parser.nread := by
  simp only [headersAlmostDoneCase]
  split
  · exact h
  split
  · exact h
  split
  · exact h
  · exact headersDone_count (P := { P with
      state := .sHeadersDone
      upgrade := (P.flags.fUpgrade && P.flags.fConnectionUpgrade) || P.method == .connect }) h ch

theorem headerFieldStart_count {P : HttpParser} {k : ℕ} (h : k ≤ P.nread) (ch : UInt8) :
    (headerFieldStartCase { P with nread := k } ch).parser.nread ≤ (headerFieldStartCase P ch).parser.nread := by
  simp only [headerFieldStartCase]
  split
  · exact h
  split
  · exact headersAlmostDone_count (P := { P with state := .sHeadersAlmostDone }) h ch
  split
  · exact h
  · exact h

theorem headerValueStart_count {P : HttpParser} {k : ℕ} (h : k ≤ P.nread) (ch : UInt8) :
    (headerValueStartCase { P with nread := k } ch).parser.nread ≤ (headerValueStartCase P ch).parser.nread := by
  cases hs : P.headerState <;> simp only [headerValueStartCase, hs]
  case hContentLength =>
    split
    · exact h
    · exact h
  all_goals exact h

theorem switch_count {P : HttpParser} {k : ℕ} (h : k ≤ P.nread) (ch : UInt8) (n : ℕ) :
    (switch { P with nread := k } ch n).parser.nread ≤ (switch P ch n).parser.nread := by
  cases hs : P.state <;> simp only [switch, hs]
  case sHeaderFieldStart => simpa only [hs] using headerFieldStart_count h ch
  case sHeaderValueStart => simpa only [hs] using headerValueStart_count h ch
  case sHeadersAlmostDone => simpa only [hs] using headersAlmostDone_count h ch
  case sHeadersDone => simpa only [hs] using headersDone_count h ch
  case sHeaderValueDiscardWs =>
    simp only [headerValueDiscardWsCase]
    repeat' split
    any_goals exact h
    exact headerValueStart_count h ch
  case sHeaderValueDiscardLws =>
    simp only [headerValueDiscardLwsCase]
    split
    · exact h
    · exact headerFieldStart_count
        (P := { P with flags := finishHeaderFlags P.headerState P.flags, state := .sHeaderFieldStart }) h ch
  case sHeaderValueLws =>
    simp only [headerValueLwsCase]
    split
    · exact headerValueStart_count (P := { P with state := .sHeaderValueStart }) h ch
    · exact headerFieldStart_count
        (P := { P with flags := finishHeaderFlags P.headerState P.flags, state := .sHeaderFieldStart }) h ch
  all_goals
    try simp only [startResCase, expect, majorDigit, minorDigit, firstMinorDigit, resStatusCodeCase,
      startReqCase, reqMethodCase, headerAlmostDoneCase, chunkSizeStartCase, chunkSizeCase,
      chunkSizeAlmostDoneCase, reqSpacesBeforeUrlCase, reqSchemaCase, reqUrlCase, urlStep,
      bodyIdentityEofCase, chunkDataCase, bodyIdentityCase, messageDoneCase]
    repeat' split
    all_goals first | exact h | exact Nat.le_refl _

theorem state_of_plain {P Q : HttpParser} (h : Q.plain = P.plain) : Q.state = P.state := by
  have hSame := congrArg HttpParser.state h
  exact hSame

theorem headerState_of_plain {P Q : HttpParser} (h : Q.plain = P.plain) : Q.headerState = P.headerState := by
  have hSame := congrArg HttpParser.headerState h
  exact hSame

theorem errno_of_plain {P Q : HttpParser} (h : Q.plain = P.plain) : Q.httpErrno = P.httpErrno := by
  have hSame := congrArg HttpParser.httpErrno h
  exact hSame

theorem counted_exact {P R : HttpParser} {n : ℕ} (h : counted P n = some R) (hSmall : P.nread + n < 2 ^ 32) :
    R = addNread P n ∧ R.nread = P.nread + n ∧ P.nread + n ≤ httpMaxHeaderSize := by
  have hLimit := nread_of_counted h
  obtain rfl := (counted_eq_some.mp h).2
  have hNread : (addNread P n).nread = P.nread + n := Nat.mod_eq_of_lt hSmall
  exact ⟨rfl, hNread, hNread ▸ hLimit⟩

/-! ### Ahead of another scan -/

/-- The loop over a value goes to the end of the line without a look at its bytes. -/
def Ctl.Jumps : Ctl → Prop
  | .value _ _ (some _) => True
  | _ => False

/-- The control `d` with the parser `Q` has read what `c` with `P` has read, and has counted and checked no more. -/
structure Ctl.Ahead (Q : HttpParser) (d : Ctl) (P : HttpParser) (c : Ctl) : Prop where
  parser : d.plain Q = c.plain P
  count : Q.nread + d.pending ≤ P.nread + c.pending
  loops : c ≠ .outer → d ≠ .outer
  jumps : c.Jumps → d.Jumps
  jumped : ∀ n g j, d = .value n g j → d.jumped < Q.nread + n

def Move.Ahead (w v : Move) : Prop := w.ctl.Ahead w.parser v.parser v.ctl

theorem Ctl.Ahead.outer {P Q : HttpParser} (hParser : Q.plain = P.plain) (hCount : Q.nread ≤ P.nread) :
    Ctl.Ahead Q .outer P .outer where
  parser := hParser
  count := hCount
  loops h := absurd rfl h
  jumps := id
  jumped _ _ _ h := by cases h

theorem Ctl.Ahead.value {P Q : HttpParser} {m n : ℕ} {g g' : HeaderStates} {i j : Option ℕ}
    (hParser : ({ Q with nread := 0, headerState := g' } : HttpParser) = { P with nread := 0, headerState := g })
    (hCount : Q.nread + n ≤ P.nread + m) (hJumps : (Ctl.value m g i).Jumps → (Ctl.value n g' j).Jumps)
    (hJumped : (Ctl.value n g' j).jumped < Q.nread + n) : Ctl.Ahead Q (.value n g' j) P (.value m g i) where
  parser := hParser
  count := hCount
  loops _ := Ctl.noConfusion
  jumps := hJumps
  jumped _ _ _ h := by
    obtain ⟨rfl, rfl, rfl⟩ := Ctl.value.inj h
    exact hJumped

theorem fieldMove_ahead {P Q : HttpParser} {m n : ℕ} {ch : UInt8} {v : Move} (hParser : Q.plain = P.plain)
    (hCount : Q.nread + n ≤ P.nread + m) (hSmall : P.nread + m < 2 ^ 32) (hMove : fieldMove P m ch = some v) :
    ∃ w, fieldMove Q n ch = some w ∧ w.Ahead v := by
  unfold fieldMove at hMove ⊢
  split at hMove
  · rename_i hToken
    obtain ⟨R, hR, hv⟩ := Option.bind_eq_some_iff.mp hMove
    obtain ⟨rfl, hNread, hLimit⟩ := counted_exact hR hSmall
    obtain ⟨hCounted, hNread'⟩ := counted_of_le (P := Q) (v := n) (by omega)
    split at hv
    · rename_i hColon
      obtain rfl := Option.some.inj hv
      rw [if_pos hToken, hCounted, Option.bind_some, if_pos hColon]
      refine ⟨_, rfl, .outer ?_ ?_⟩
      · exact congrArg (fun R : HttpParser => { R with state := .sHeaderValueDiscardWs }) hParser
      · change (addNread Q n).nread ≤ (addNread P m).nread
        omega
    · cases hv
  · rename_i hToken
    have hSame : (headerFieldChar Q ch (token ch)).plain = (headerFieldChar P ch (token ch)).plain := by
      rw [← headerFieldChar_plain, ← headerFieldChar_plain, hParser]
    have hErrno := errno_of_plain hSame
    dsimp only at hMove ⊢
    split at hMove
    · cases hMove
    · rename_i hOk
      obtain rfl := Option.some.inj hMove
      rw [if_neg hToken, if_neg (hErrno ▸ hOk)]
      refine ⟨_, rfl, hSame, ?_, fun _ => Ctl.noConfusion, False.elim, fun _ _ _ h => by cases h⟩
      simp only [headerFieldChar_nread, Ctl.pending]
      omega

theorem stopMove_ahead {P Q : HttpParser} {m n : ℕ} {g : HeaderStates} {ch : UInt8} {v : Move}
    (hParser : ({ Q with nread := 0, headerState := g } : HttpParser) = { P with nread := 0, headerState := g })
    (hCount : Q.nread + n ≤ P.nread + m) (hSmall : P.nread + m < 2 ^ 32) (hMove : stopMove P m g ch = some v) :
    P.nread + m ≤ httpMaxHeaderSize ∧ ∃ w, stopMove Q n g ch = some w ∧ w.Ahead v := by
  obtain ⟨R, hR, rfl⟩ := Option.map_eq_some_iff.mp hMove
  obtain ⟨rfl, hNread, hLimit⟩ := counted_exact hR hSmall
  obtain ⟨hCounted, hNread'⟩ := counted_of_le (P := Q) (v := n) (by omega)
  refine ⟨hLimit, ⟨[.data .headerValue], { addNread Q n with
    state := if ch = CR then .sHeaderAlmostDone else .sHeaderValueLws
    headerState := g }, .outer⟩, ?_, Ctl.Ahead.outer ?_ ?_⟩
  · rw [stopMove, hCounted]
    rfl
  · exact congrArg
      (fun R : HttpParser => { R with state := if ch = CR then .sHeaderAlmostDone else .sHeaderValueLws }) hParser
  · change (addNread Q n).nread ≤ (addNread P m).nread
    omega

theorem valueMove_ahead {P Q : HttpParser} {m n : ℕ} {g : HeaderStates} {i j : Option ℕ} {ch : UInt8} {v : Move}
    (hParser : ({ Q with nread := 0, headerState := g } : HttpParser) = { P with nread := 0, headerState := g })
    (hCount : Q.nread + n ≤ P.nread + m) (hSmall : P.nread + m < 2 ^ 32) (hJumps : i ≠ none → j ≠ none)
    (hJumped : (Ctl.value n g j).jumped < Q.nread + n) (hGeneral : ∀ k, j = some k → g = .hGeneral)
    (hMove : valueMove P m g i ch = some v) (hShort : v.ctl.jumped ≤ httpMaxHeaderSize) :
    ∃ w, valueMove Q n g j ch = some w ∧ w.Ahead v := by
  by_cases hStop : ch = CR ∨ ch = LF
  · have hHere : valueMove P m g i ch = stopMove P m g ch := by
      cases i with
      | none => rw [valueMove, if_pos hStop]
      | some k =>
        simp only [valueMove] at hMove ⊢
        split at hMove
        · rename_i hBoth
          rw [if_pos hBoth]
        · rename_i hLong
          obtain rfl := Option.some.inj hMove
          have hLess : k < httpMaxHeaderSize := hShort
          exact absurd ⟨hStop, hLess⟩ hLong
    rw [hHere] at hMove
    obtain ⟨hLimit, w, hStopped, hAhead⟩ := stopMove_ahead hParser hCount hSmall hMove
    refine ⟨w, ?_, hAhead⟩
    cases j with
    | none => rw [valueMove, if_pos hStop, hStopped]
    | some k =>
      have hLess : k < Q.nread + n := hJumped
      rw [valueMove, if_pos ⟨hStop, by omega⟩, hStopped]
  cases j with
  | some k =>
    obtain rfl := hGeneral k rfl
    have hGoes : ∃ i', v = ⟨[], P, .value (m + 1) .hGeneral (some i')⟩ := by
      cases i with
      | some i =>
        rw [valueMove, if_neg fun hBoth => hStop hBoth.1] at hMove
        exact ⟨i + 1, (Option.some.inj hMove).symm⟩
      | none =>
        rw [valueMove, if_neg hStop] at hMove
        split at hMove
        · cases hMove
        · rw [if_pos rfl] at hMove
          exact ⟨1, (Option.some.inj hMove).symm⟩
    obtain ⟨i', rfl⟩ := hGoes
    have hLess : k < Q.nread + n := hJumped
    refine ⟨⟨[], Q, .value (n + 1) .hGeneral (some (k + 1))⟩, ?_, ?_⟩
    · rw [valueMove, if_neg fun hBoth => hStop hBoth.1]
    · exact .value hParser (Nat.succ_le_succ hCount) (fun _ => trivial) (Nat.succ_lt_succ hLess)
  | none =>
    obtain rfl : i = none := by
      by_contra hSome
      exact hJumps hSome rfl
    have hPos : 0 < Q.nread + n := hJumped
    rw [valueMove, if_neg hStop] at hMove ⊢
    split at hMove
    · cases hMove
    rename_i hChar
    rw [if_neg hChar]
    split at hMove
    · rename_i hIs
      obtain rfl := Option.some.inj hMove
      rw [if_pos hIs]
      exact ⟨_, rfl, .value hParser (Nat.succ_le_succ hCount) (fun _ => trivial) (Nat.succ_lt_succ hPos)⟩
    · rename_i hNot
      rw [if_neg hNot]
      obtain ⟨hErrnoP, hNreadP, hSameP⟩ := headerValueChar_plain P g ch
      obtain ⟨hErrnoQ, hNreadQ, hSameQ⟩ := headerValueChar_plain Q g ch
      rw [hParser] at hErrnoQ hSameQ
      dsimp only at hMove ⊢
      split at hMove
      · cases hMove
      rename_i hOk
      obtain rfl := Option.some.inj hMove
      have hOkP := not_not.mp hOk
      have hOkQ := hErrnoQ.symm.trans (hErrnoP.trans hOkP)
      rw [if_neg (not_not.mpr hOkQ)]
      have hSame := (hSameQ hOkQ).symm.trans (hSameP hOkP)
      have hStep : (headerValueChar Q g ch).1.nread + (n + 1) ≤ (headerValueChar P g ch).1.nread + (m + 1) := by omega
      exact ⟨_, rfl, .value hSame hStep (fun hNone => hNone) (Nat.succ_pos _)⟩

theorem switchMove_ahead {P Q : HttpParser} {ch : UInt8} {v : Move} (hParser : Q.plain = P.plain)
    (hCount : Q.nread ≤ P.nread) (hSmall : P.nread < 2 ^ 32) (hPos : parsingHeader P.state = true → 0 < Q.nread)
    (hMove : switchMove P ch = some v) (hShort : v.ctl.jumped ≤ httpMaxHeaderSize) :
    ∃ w, switchMove Q ch = some w ∧ w.Ahead v := by
  have hState := state_of_plain hParser
  have hHeader := headerState_of_plain hParser
  unfold switchMove at hMove ⊢
  rw [hState]
  split at hMove
  · exact fieldMove_ahead hParser hCount hSmall hMove
  · rename_i hValue
    rw [hHeader]
    have hSame : ({ Q with nread := 0, headerState := P.headerState } : HttpParser) =
        { P with nread := 0, headerState := P.headerState } :=
      congrArg (fun R : HttpParser => { R with headerState := P.headerState }) hParser
    exact valueMove_ahead hSame hCount hSmall (fun h => h) (hPos (by rw [hValue]; rfl)) (fun _ h => by cases h) hMove
      hShort
  · obtain ⟨hFlow, rfl⟩ := Outcome.move_eq_some hMove
    have hQ : Q = { P with nread := Q.nread } := by
      have hJoin := congrArg (fun R : HttpParser => { R with nread := Q.nread }) hParser
      exact hJoin
    have hPlain : (switch Q ch 1).plain = (switch P ch 1).plain := by
      rw [← switch_plain, ← switch_plain, hParser]
    have hNext : (switch Q ch 1).flow = .next := by
      have hSame := congrArg Outcome.flow hPlain
      exact Eq.trans hSame hFlow
    refine ⟨⟨(switch Q ch 1).acts, (switch Q ch 1).parser, .outer⟩, by rw [Outcome.move, hNext], .outer ?_ ?_⟩
    · exact congrArg Outcome.parser hPlain
    · rw [hQ]
      exact switch_count hCount ch 1

theorem move_outer_counted {P : HttpParser} {ch : UInt8} {v : Move} (hHeader : parsingHeader P.state = true)
    (hSmall : P.nread + 1 < 2 ^ 32) (hMove : move P .outer ch = some v) :
    ∃ R, R.plain = P.plain ∧ R.nread = P.nread + 1 ∧ counted P 1 = some R ∧ switchMove R ch = some v := by
  simp only [move, hHeader, if_true] at hMove
  obtain ⟨R, hR, hv⟩ := Option.bind_eq_some_iff.mp hMove
  obtain ⟨rfl, hNread, -⟩ := counted_exact hR hSmall
  exact ⟨addNread P 1, rfl, hNread, hR, hv⟩

theorem move_ahead {P Q : HttpParser} {c d : Ctl} {ch : UInt8} {v : Move} (h : d.Ahead Q P c) (hFits : c.Fits P)
    (hFitsQ : d.Fits Q) (hSmall : P.nread + c.pending + 1 < 2 ^ 32) (hMove : move P c ch = some v)
    (hShort : v.ctl.jumped ≤ httpMaxHeaderSize) : ∃ w, move Q d ch = some w ∧ w.Ahead v := by
  have hState : Q.state = P.state := by
    have hSame := congrArg HttpParser.state h.parser
    rwa [Ctl.plain_state, Ctl.plain_state] at hSame
  cases c with
  | field m =>
    have hField : P.state = .sHeaderField := hFits
    have hSmall' : P.nread + m + 1 < 2 ^ 32 := hSmall
    cases d with
    | outer => exact absurd rfl (h.loops Ctl.noConfusion)
    | field n => exact fieldMove_ahead h.parser h.count (by omega) hMove
    | value n g j =>
      have hValue : Q.state = .sHeaderValue := hFitsQ.1
      rw [hState, hField] at hValue
      cases hValue
  | value m g i =>
    have hValue : P.state = .sHeaderValue := hFits.1
    have hSmall' : P.nread + m + 1 < 2 ^ 32 := hSmall
    cases d with
    | outer => exact absurd rfl (h.loops Ctl.noConfusion)
    | field n =>
      have hField : Q.state = .sHeaderField := hFitsQ
      rw [hState, hValue] at hField
      cases hField
    | value n g' j =>
      obtain rfl : g' = g := congrArg HttpParser.headerState h.parser
      refine valueMove_ahead h.parser h.count (by omega) (fun hSome => ?_)
        (h.jumped _ _ _ rfl) (fun k hk => (hFitsQ.2 k hk).1) hMove hShort
      rintro rfl
      cases i with
      | none => exact hSome rfl
      | some i => exact h.jumps trivial
  | outer =>
    have hPlain : d.plain Q = P.plain := h.parser
    have hSmall' : P.nread + 1 < 2 ^ 32 := hSmall
    cases d with
    | outer =>
      have hCount : Q.nread ≤ P.nread := h.count
      by_cases hHeader : parsingHeader P.state = true
      · obtain ⟨R, hR, hNread, hCounted, hv⟩ := move_outer_counted hHeader hSmall' hMove
        have hLimit := (counted_exact hCounted hSmall').2.2
        obtain ⟨hCountedQ, hNreadQ⟩ := counted_of_le (P := Q) (v := 1) (by omega)
        simp only [move, hState, hHeader, if_true, hCountedQ, Option.bind_some]
        exact switchMove_ahead (Q := addNread Q 1) (hPlain.trans hR.symm) (by omega) (by omega) (fun _ => by omega) hv
          hShort
      · have hNot : parsingHeader P.state = false := by simpa using hHeader
        simp only [move, hNot, Bool.false_eq_true, if_false] at hMove
        simp only [move, hState, hNot, Bool.false_eq_true, if_false]
        exact switchMove_ahead hPlain hCount (by omega) (fun hIs => absurd hIs hHeader) hMove hShort
    | field n =>
      have hCount : Q.nread + n ≤ P.nread := h.count
      have hField : P.state = .sHeaderField := hState.symm.trans hFitsQ
      obtain ⟨R, hR, hNread, -, hv⟩ := move_outer_counted (by rw [hField]; rfl) hSmall' hMove
      have hStateR : R.state = .sHeaderField := (state_of_plain hR).trans hField
      simp only [switchMove, hStateR] at hv
      exact fieldMove_ahead (hPlain.trans hR.symm) (by omega) (by omega) hv
    | value n g j =>
      have hCount : Q.nread + n ≤ P.nread := h.count
      have hValue : P.state = .sHeaderValue := hState.symm.trans hFitsQ.1
      obtain ⟨R, hR, hNread, -, hv⟩ := move_outer_counted (by rw [hValue]; rfl) hSmall' hMove
      have hStateR : R.state = .sHeaderValue := (state_of_plain hR).trans hValue
      have hHeaderR := headerState_of_plain hR
      obtain rfl : g = P.headerState := congrArg HttpParser.headerState hPlain
      simp only [switchMove, hStateR, hHeaderR] at hv
      have hSame : ({ Q with nread := 0, headerState := P.headerState } : HttpParser) =
          { R with nread := 0, headerState := P.headerState } :=
        hPlain.trans (congrArg (fun S : HttpParser => { S with headerState := P.headerState }) hR).symm
      exact valueMove_ahead hSame (by omega) (by omega) (fun hNone => absurd rfl hNone) (h.jumped _ _ _ rfl)
        (fun k hk => (hFitsQ.2 k hk).1) hv hShort

namespace Scan

def Ahead (w s : Scan) : Prop := w.ctl.Ahead w.parser s.parser s.ctl

theorem ahead_fresh {P : HttpParser} (calls calls' : List Callback) : (resume P calls).Ahead (resume P calls') :=
  Ctl.Ahead.outer rfl (Nat.le_refl _)

theorem Ahead.state {w s : Scan} (h : w.Ahead s) : w.parser.state = s.parser.state := by
  have hSame := congrArg HttpParser.state h.parser
  rwa [Ctl.plain_state, Ctl.plain_state] at hSame

theorem Ahead.next {w s t : Scan} {ch : UInt8} (h : w.Ahead s) (hw : w.Sound) (hs : s.Sound)
    (hPending : s.ctl.pending < 2 ^ 31) (hNext : s.next ch = some t) (hShort : t.ctl.jumped ≤ httpMaxHeaderSize) :
    ∃ w', w.next ch = some w' ∧ w'.Ahead t := by
  obtain ⟨v, hMove, rfl⟩ := next_eq_some.mp hNext
  rw [take_ctl] at hShort
  have hSmall : s.parser.nread + s.ctl.pending + 1 < 2 ^ 32 := by
    have hNread := hs.nread
    simp only [httpMaxHeaderSize] at hNread
    omega
  obtain ⟨x, hx, hAhead⟩ := move_ahead h hs.between.fits hw.between.fits hSmall hMove hShort
  refine ⟨w.take ch x, next_eq_some.mpr ⟨x, hx, rfl⟩, ?_⟩
  rw [Ahead, parser_of_take, take_ctl, parser_of_take, take_ctl]
  exact hAhead

theorem Ahead.run {w s t : Scan} {b : Bytes} (h : w.Ahead s) (hw : w.Sound) (hs : s.Sound)
    (hPending : s.ctl.pending + b.length < 2 ^ 31) (hRun : PartialRun.run Scan.next s b = some t)
    (hShort : t.ctl.jumped ≤ httpMaxHeaderSize) :
    ∃ w', PartialRun.run Scan.next w b = some w' ∧ w'.Ahead t := by
  induction b generalizing s w with
  | nil =>
    obtain rfl := Option.some.inj hRun
    exact ⟨w, rfl, h⟩
  | cons ch b ih =>
    obtain ⟨q, hNext, hRest⟩ := PartialRun.run_cons_eq_some.mp hRun
    rw [List.length_cons] at hPending
    obtain ⟨x, hx, hAhead⟩ := h.next hw hs (by omega) hNext (run_short hRest hShort)
    obtain ⟨v, hMove, rfl⟩ := next_eq_some.mp hNext
    have hHere := move_pending hMove
    obtain ⟨w', hw', hEnd⟩ := ih hAhead (hw.next hx).sound (hs.next hNext).sound (by rw [take_ctl]; omega) hRest
    exact ⟨w', (PartialRun.run_cons_of_step hx b).trans hw', hEnd⟩

theorem Ahead.cut {w s t : Scan} (h : w.Ahead s) (hs : s.Sound) (hPending : s.ctl.pending < 2 ^ 31)
    (hCut : s.cut = some t) : w.Ahead t := by
  obtain ⟨Q, hQ, rfl⟩ := Option.map_eq_some_iff.mp hCut
  have hNread := hs.nread
  simp only [httpMaxHeaderSize] at hNread
  have hCount := h.count
  refine ⟨?_, ?_, fun hLoop => absurd rfl hLoop, False.elim, h.jumped⟩
  · refine h.parser.trans ?_
    cases hCtl : s.ctl with
    | outer =>
      rw [hCtl] at hQ
      obtain rfl := Option.some.inj hQ
      rfl
    | field n | value n g jump =>
      rw [hCtl] at hQ
      obtain rfl := (counted_eq_some.mp hQ).2
      rfl
  · cases hCtl : s.ctl with
    | outer =>
      rw [hCtl] at hQ hCount
      obtain rfl := Option.some.inj hQ
      exact hCount
    | field n | value n g jump =>
      rw [hCtl] at hQ hCount hPending
      obtain ⟨-, hSame, -⟩ := counted_exact hQ (by simp only [Ctl.pending] at hPending ⊢; omega)
      exact Nat.le_trans hCount (Nat.le_of_eq hSame.symm)

end Scan

end HttpUtils
