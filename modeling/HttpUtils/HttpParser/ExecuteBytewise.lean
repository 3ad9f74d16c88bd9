import HttpUtils.HttpParser.Bytewise
import Mathlib.Data.List.Basic
import Mathlib.Data.List.TakeDrop

/-!
# `http_parser_execute` is the byte by byte parser

`httpParserExecute_eq`: over any buffer, the pointers, inner loops and jumps of the source compute
exactly what `Scan.step` computes one byte at a time.
-/

namespace HttpUtils
set_option autoImplicit false

/-! ### Cases that do not move `p` -/

def Act.Stays : Act → Prop
  | .advance n => n = 0
  | _ => True

def Outcome.Stays (o : Outcome) : Prop := ∀ a ∈ o.acts, a.Stays

theorem stays_next (P : HttpParser) (acts : List Act) (h : ∀ a ∈ acts, a.Stays) :
    (next P acts).Stays := h

theorem stays_after (acts : List Act) (o : Outcome) (h : ∀ a ∈ acts, a.Stays) (ho : o.Stays) :
    (o.after acts).Stays := by
  intro a ha
  rcases List.mem_append.mp ha with ha | ha
  · exact h a ha
  · exact ho a ha

theorem stays_messageDone (P : HttpParser) : (messageDoneCase P).Stays := by
  simp [messageDoneCase, Outcome.Stays, Act.Stays]

theorem stays_headersDone (P : HttpParser) (ch : UInt8) : (headersDoneCase P ch).Stays := by
  simp only [headersDoneCase, Outcome.Stays]
  repeat' split
  all_goals simp [next, fail, Act.Stays]

theorem stays_headersAlmostDone (P : HttpParser) (ch : UInt8) : (headersAlmostDoneCase P ch).Stays := by
  unfold headersAlmostDoneCase
  split
  · simp [fail, Outcome.Stays]
  split
  · exact stays_after _ _ (by simp [Act.Stays]) (stays_messageDone _)
  split
  · simp [fail, Outcome.Stays]
  · exact stays_after _ _ (by simp [Act.Stays]) (stays_headersDone _ _)

theorem stays_headerFieldStart (P : HttpParser) (ch : UInt8) : (headerFieldStartCase P ch).Stays := by
  unfold headerFieldStartCase
  split
  · simp [next, Outcome.Stays]
  split
  · exact stays_headersAlmostDone _ _
  split <;> simp [next, fail, Outcome.Stays, Act.Stays]

theorem stays_headerValueStart (P : HttpParser) (ch : UInt8) : (headerValueStartCase P ch).Stays := by
  simp only [headerValueStartCase, Outcome.Stays]
  repeat' split
  all_goals simp [next, fail, Act.Stays]

theorem stays_headerValueLws (P : HttpParser) (ch : UInt8) : (headerValueLwsCase P ch).Stays := by
  unfold headerValueLwsCase
  split
  · exact stays_headerValueStart _ _
  · exact stays_headerFieldStart _ _

theorem stays_headerValueDiscardLws (P : HttpParser) (ch : UInt8) :
    (headerValueDiscardLwsCase P ch).Stays := by
  unfold headerValueDiscardLwsCase
  split
  · simp [next, Outcome.Stays]
  · exact stays_after _ _ (by simp [Act.Stays]) (stays_headerFieldStart _ _)

theorem stays_headerValueDiscardWs (P : HttpParser) (ch : UInt8) :
    (headerValueDiscardWsCase P ch).Stays := by
  unfold headerValueDiscardWsCase
  repeat' split
  any_goals simp [next, Outcome.Stays]
  exact stays_headerValueStart _ _

theorem stays_urlStep (P : HttpParser) (ch : UInt8) (acts : List Act) (h : ∀ a ∈ acts, a.Stays) :
    (urlStep P ch acts).Stays := by
  unfold urlStep
  dsimp only
  split <;> exact h

theorem stays_reqSpacesBeforeUrl (P : HttpParser) (ch : UInt8) :
    (reqSpacesBeforeUrlCase P ch).Stays := by
  unfold reqSpacesBeforeUrlCase
  repeat' split
  · simp [next, Outcome.Stays]
  all_goals exact stays_urlStep _ _ _ (by simp [Act.Stays])

theorem stays_reqSchema (P : HttpParser) (ch : UInt8) : (reqSchemaCase P ch).Stays := by
  unfold reqSchemaCase
  split
  · simp [fail, Outcome.Stays]
  · exact stays_urlStep _ _ _ (by simp)

theorem stays_reqUrl (P : HttpParser) (ch : UInt8) : (reqUrlCase P ch).Stays := by
  unfold reqUrlCase
  repeat' split
  any_goals simp [next, Outcome.Stays, Act.Stays]
  exact stays_urlStep _ _ _ (by simp)

def State.readsBody : State → Prop
  | .sBodyIdentity | .sBodyIdentityEof | .sChunkData => True
  | _ => False

theorem switch_stays (P : HttpParser) (ch : UInt8) (n : Nat) (h : ¬ P.state.readsBody) :
    (switch P ch n).Stays := by
  cases hs : P.state <;> simp only [hs, State.readsBody, not_true] at h <;> simp only [switch, hs]
  case sHeaderFieldStart => exact stays_headerFieldStart _ _
  case sHeaderValueDiscardWs => exact stays_headerValueDiscardWs _ _
  case sHeaderValueDiscardLws => exact stays_headerValueDiscardLws _ _
  case sHeaderValueStart => exact stays_headerValueStart _ _
  case sHeaderValueLws => exact stays_headerValueLws _ _
  case sHeadersAlmostDone => exact stays_headersAlmostDone _ _
  case sHeadersDone => exact stays_headersDone _ _
  case sMessageDone => exact stays_messageDone _
  case sReqSpacesBeforeUrl => exact stays_reqSpacesBeforeUrl _ _
  case sReqSchema | sReqSchemaSlash | sReqSchemaSlashSlash | sReqServerStart => exact stays_reqSchema _ _
  case sReqServer | sReqServerWithAt | sReqPath | sReqQueryStringStart | sReqQueryString
    | sReqFragmentStart | sReqFragment => exact stays_reqUrl _ _
  all_goals
    simp only [startResCase, expect, majorDigit, minorDigit, firstMinorDigit, resStatusCodeCase,
      startReqCase, reqMethodCase, headerAlmostDoneCase, chunkSizeStartCase, chunkSizeCase,
      chunkSizeAlmostDoneCase, Outcome.Stays]
    repeat' split
    all_goals simp [next, fail, Act.Stays]

/-! ### From positions to runs -/

/-- The buffer from `p` on is `s`, and no mark is ahead of `p`. -/
structure Exec.At (data : Bytes) (x : Exec) (s : Bytes) : Prop where
  rest : data.drop x.p = s
  le : x.p ≤ data.length
  marks : ∀ k m, x.marks k = some m → m ≤ x.p

def Exec.toScan (data : Bytes) (x : Exec) : Scan where
  parser := x.parser
  p := x.p
  marks k := (x.marks k).map fun m => data.extract m x.p
  calls := x.calls
  ctl := .outer
  stopped := none

theorem extract_succ {data s : Bytes} {ch : UInt8} {m p : Nat} (hm : m ≤ p)
    (hs : data.drop p = ch :: s) : data.extract m (p + 1) = data.extract m p ++ [ch] := by
  have hDrop : (data.drop m).drop (p - m) = ch :: s := by rw [List.drop_drop, Nat.add_sub_cancel' hm, hs]
  have hGet : (data.drop m)[p - m]? = some ch := by
    rw [← List.head?_drop, hDrop, List.head?_cons]
  simp only [List.extract_eq_take_drop, show p + 1 - m = p - m + 1 by omega, List.take_add_one, hGet]
  rfl

theorem toScan_callbackData (data : Bytes) (x : Exec) (k : DataCb) :
    (x.callbackData data k x.p).toScan data = (x.toScan data).callbackData k [] := by
  unfold Exec.callbackData Scan.callbackData
  cases hk : x.marks k with
  | none => simp [Exec.toScan, hk]
  | some m =>
    simp only [Exec.toScan, hk, Option.map_some, List.append_nil, Scan.mk.injEq, and_true, true_and]
    funext j
    by_cases hj : j = k <;> simp [hj, Function.update]

theorem toScan_act {data s : Bytes} {ch : UInt8} {x : Exec} {a : Act} (h : x.At data (ch :: s))
    (ha : a.Stays) :
    (x.act data a).toScan data = (x.toScan data).act ch a ∧ (x.act data a).p = x.p ∧
      (x.act data a).At data (ch :: s) := by
  have hUpdate (k : DataCb) (o : Option Nat) (ho : ∀ m, o = some m → m ≤ x.p) :
      ∀ j m, Function.update x.marks k o j = some m → m ≤ x.p := by
    intro j m hj
    by_cases hjk : j = k
    · subst hjk
      exact ho m (by simpa using hj)
    · exact h.marks j m (by simpa [Function.update_of_ne hjk] using hj)
  cases a with
  | mark k =>
    refine ⟨?_, rfl, h.rest, h.le, hUpdate k _ ?_⟩
    · simp only [Exec.act, Scan.act, Exec.toScan, Scan.mk.injEq, and_true, true_and]
      funext j
      by_cases hj : j = k
      · subst hj
        cases x.marks j <;> simp [List.extract_eq_take_drop]
      · simp [Function.update_of_ne hj]
    · intro m hm
      cases hk : x.marks k with
      | none =>
        have hEq : x.p = m := by simpa [hk] using hm
        exact hEq ▸ Nat.le_refl _
      | some m' =>
        have hEq : m' = m := by simpa [hk] using hm
        exact hEq ▸ h.marks k m' hk
  | data k =>
    refine ⟨toScan_callbackData data x k, ?_, ?_⟩ <;>
      simp only [Exec.act, Exec.callbackData] <;> split
    · rfl
    · rfl
    · exact h
    · exact ⟨h.rest, h.le, hUpdate k none (by simp)⟩
  | notify k => exact ⟨rfl, rfl, h.rest, h.le, h.marks⟩
  | advance n =>
    obtain rfl : n = 0 := ha
    exact ⟨rfl, rfl, h.rest, h.le, h.marks⟩
  | dataThrough k =>
    simp only [Exec.act, Scan.act, Exec.callbackData, Scan.callbackData]
    cases hk : x.marks k with
    | none => simp [Exec.toScan, hk, h]
    | some m =>
      refine ⟨?_, rfl, h.rest, h.le, hUpdate k none (by simp)⟩
      simp only [Exec.toScan, hk, Option.map_some, Scan.mk.injEq, and_true, true_and,
        extract_succ (h.marks k m hk) h.rest]
      funext j
      by_cases hj : j = k <;> simp [hj, Function.update]

theorem toScan_acts {data s : Bytes} {ch : UInt8} {acts : List Act} {x : Exec}
    (h : x.At data (ch :: s)) (ha : ∀ a ∈ acts, a.Stays) :
    (acts.foldl (Exec.act data) x).toScan data = acts.foldl (Scan.act ch) (x.toScan data) ∧
      (acts.foldl (Exec.act data) x).p = x.p ∧ (acts.foldl (Exec.act data) x).At data (ch :: s) := by
  induction acts generalizing x with
  | nil => exact ⟨rfl, rfl, h⟩
  | cons a acts ih =>
    obtain ⟨hScan, hp, hAt⟩ := toScan_act h (ha a List.mem_cons_self)
    obtain ⟨hScan', hp', hAt'⟩ := ih hAt fun b hb => ha b (List.mem_cons_of_mem _ hb)
    exact ⟨by rw [List.foldl_cons, List.foldl_cons, hScan', hScan], by rw [List.foldl_cons, hp', hp], hAt'⟩

theorem toScan_advance {data s : Bytes} {ch : UInt8} {x : Exec} (h : x.At data (ch :: s)) :
    Exec.toScan data { x with p := x.p + 1 } = (x.toScan data).consume ch ∧
      Exec.At data { x with p := x.p + 1 } s := by
  refine ⟨?_, ?_, ?_, fun k m hk => Nat.le_succ_of_le (h.marks k m hk)⟩
  · simp only [Exec.toScan, Scan.consume, Scan.mk.injEq, and_true, true_and]
    funext k
    cases hk : x.marks k with
    | none => rfl
    | some m => simp [extract_succ (h.marks k m hk) h.rest]
  · rw [← List.drop_drop, h.rest, List.drop_succ_cons, List.drop_zero]
  · have hLen := congrArg List.length h.rest
    simp only [List.length_drop, List.length_cons] at hLen
    show x.p + 1 ≤ data.length
    omega

def Scan.consumeAll (s : Scan) (u : Bytes) : Scan := u.foldl Scan.consume s

theorem Scan.consumeAll_cons (s : Scan) (ch : UInt8) (u : Bytes) :
    s.consumeAll (ch :: u) = (s.consume ch).consumeAll u := rfl

theorem Scan.consumeAll_eq (s : Scan) (u : Bytes) :
    s.consumeAll u = { s with p := s.p + u.length, marks := fun k => (s.marks k).map (· ++ u) } := by
  induction u generalizing s with
  | nil => simp [Scan.consumeAll]
  | cons ch u ih =>
    rw [Scan.consumeAll_cons, ih]
    simp only [Scan.consume, List.length_cons, Scan.mk.injEq, and_true, true_and]
    refine ⟨by omega, funext fun k => ?_⟩
    cases s.marks k <;> simp

theorem toScan_advanceAll {data u v : Bytes} {x : Exec} (h : x.At data (u ++ v)) :
    Exec.toScan data { x with p := x.p + u.length } = (x.toScan data).consumeAll u ∧
      Exec.At data { x with p := x.p + u.length } v := by
  induction u generalizing x with
  | nil => exact ⟨rfl, h⟩
  | cons ch u ih =>
    obtain ⟨hScan, hAt⟩ := toScan_advance h
    obtain ⟨hScan', hAt'⟩ := ih hAt
    have hp : x.p + 1 + u.length = x.p + (ch :: u).length := by simp only [List.length_cons]; omega
    rw [Scan.consumeAll_cons, ← hScan, ← hScan']
    simp only [hp] at hAt' ⊢
    exact ⟨trivial, hAt'⟩

/-! ### Runs of `Scan.step` -/

namespace Scan

theorem run_append (s : Scan) (u v : Bytes) : s.run (u ++ v) = (s.run u).run v := List.foldl_append

theorem run_stopped {s : Scan} {n : Nat} (h : s.stopped = some n) (u : Bytes) : s.run u = s := by
  induction u with
  | nil => rfl
  | cons ch u ih => rw [run, List.foldl_cons, step, h]; exact ih

theorem endBuffer_stopped {s : Scan} {n : Nat} (h : s.stopped = some n) : s.endBuffer = s := by
  rw [endBuffer, h]

theorem result_stopped {s : Scan} {n : Nat} (h : s.stopped = some n) (u : Bytes) :
    (s.run u).endBuffer.result = (s.parser, s.calls, n) := by
  rw [run_stopped h, endBuffer_stopped h, result, h, Option.getD_some]

end Scan

/-! ### The loop over a name -/

def Scan.inField (t : Scan) (P : HttpParser) (n : Nat) : Scan := { t with parser := P, ctl := .field n }

theorem Scan.inField_run_cons (t : Scan) (P : HttpParser) (n : Nat) (ht : t.stopped = none)
    (ch : UInt8) (s : Bytes) :
    (t.inField P n).run (ch :: s) = ((t.inField P n).fieldByte n ch).run s := by
  rw [Scan.run, List.foldl_cons, Scan.step]
  simp only [Scan.inField, ht]
  rfl

/-- What a result of the loop over a name, entered at `s`, means for the byte by byte parser. -/
def Scan.FieldLoop (t : Scan) (P : HttpParser) (n : Nat) (s : Bytes) : HttpParser × Nat × LoopExit → Prop
  | (Q, k, .eob) => k = s.length ∧ (t.inField P n).run s = (t.consumeAll s).inField Q (n + k)
  | (Q, k, .error) => ((t.inField P n).run s).endBuffer.result = (Q, t.calls, t.p + k)
  | (Q, k, .stop ch) =>
    ∃ u v, s = u ++ ch :: v ∧ u.length = k ∧ token ch = 0 ∧
      (t.inField P n).run s = (((t.consumeAll u).inField Q (n + k)).fieldByte (n + k) ch).run v

theorem Scan.FieldLoop.cons {t : Scan} {P Q : HttpParser} {n k : Nat} {ch : UInt8} {s : Bytes}
    {exit : LoopExit} {P' : HttpParser}
    (hRun : (t.inField P n).run (ch :: s) = ((t.consume ch).inField P' (n + 1)).run s)
    (h : (t.consume ch).FieldLoop P' (n + 1) s (Q, k, exit)) :
    t.FieldLoop P n (ch :: s) (Q, k + 1, exit) := by
  have hn : n + (k + 1) = n + 1 + k := by omega
  cases exit with
  | eob => exact ⟨by simp [h.1], by rw [hRun, h.2, hn]; rfl⟩
  | error =>
    have hp : t.p + (k + 1) = (t.consume ch).p + k := by simp only [Scan.consume]; omega
    show ((t.inField P n).run (ch :: s)).endBuffer.result = (Q, t.calls, t.p + (k + 1))
    rw [hRun, hp]
    exact h
  | stop c =>
    obtain ⟨u, v, hs, hk, hc, hv⟩ := h
    refine ⟨ch :: u, v, by rw [hs]; rfl, by simp [hk], hc, ?_⟩
    rw [hRun, hv, hn]
    rfl

theorem headerFieldLoop_run (s : Bytes) (P : HttpParser) (t : Scan) (n : Nat) (ht : t.stopped = none) :
    t.FieldLoop P n s (headerFieldLoop s P) := by
  induction s generalizing P t n with
  | nil => exact ⟨rfl, rfl⟩
  | cons ch s ih =>
    have hRun := t.inField_run_cons P n ht ch s
    rw [headerFieldLoop]
    by_cases hTok : token ch = 0
    · rw [if_pos hTok]
      exact ⟨[], s, rfl, rfl, hTok, hRun⟩
    rw [if_neg hTok]
    by_cases hErr : (headerFieldChar P ch (token ch)).httpErrno = .ok
    · have hByte : (t.inField P n).fieldByte n ch =
          (t.consume ch).inField (headerFieldChar P ch (token ch)) (n + 1) := by
        rw [Scan.fieldByte, if_neg hTok]
        simp only [Scan.inField, hErr, ne_eq, not_true, if_false]
        rfl
      simp only [hErr, ne_eq, not_true, if_false]
      exact Scan.FieldLoop.cons (hRun.trans (by rw [hByte])) (ih _ _ _ ht)
    · have hByte : ((t.inField P n).fieldByte n ch) =
          { t.inField (headerFieldChar P ch (token ch)) n with stopped := some t.p } := by
        rw [Scan.fieldByte, if_neg hTok]
        simp only [Scan.inField, hErr, ne_eq, not_false_eq_true, if_true]
      simp only [hErr, ne_eq, not_false_eq_true, if_true]
      show ((t.inField P n).run (ch :: s)).endBuffer.result = _
      rw [hRun, hByte, Scan.result_stopped (n := t.p) rfl]
      rfl

/-! ### The jump of `h_general` -/

/-- Inside a jump `i` bytes long, the next `skip` bytes of `s` are passed without a look. -/
structure Jumps (s : Bytes) (skip i : Nat) : Prop where
  le : skip ≤ s.length
  passed : ∀ j < skip, ∀ c, s[j]? = some c → ¬((c = CR ∨ c = LF) ∧ i + j < httpMaxHeaderSize)
  lands : ∀ c, s[skip]? = some c → (c = CR ∨ c = LF) ∧ i + skip < httpMaxHeaderSize

theorem Jumps.tail {c : UInt8} {s : Bytes} {skip i : Nat} (h : Jumps (c :: s) (skip + 1) i) :
    Jumps s skip (i + 1) where
  le := Nat.le_of_succ_le_succ h.le
  passed j hj d hd := by
    have hNot := h.passed (j + 1) (by omega) d (by simpa using hd)
    rwa [show i + 1 + j = i + (j + 1) by omega]
  lands d hd := by
    have hLand := h.lands d (by simpa using hd)
    rwa [show i + 1 + skip = i + (skip + 1) by omega]

theorem memchr_none {s : Bytes} {c : UInt8} {limit j : Nat} (h : memchr s c limit = none)
    (hj : j < limit) : s[j]? ≠ some c := by
  intro hs
  have hMem : c ∈ s.take limit := List.mem_of_getElem? (i := j) (by rw [List.getElem?_take, if_pos hj, hs])
  simp only [memchr, List.idxOf?_eq_none_iff] at h
  exact h hMem

theorem memchr_some {s : Bytes} {c : UInt8} {limit i : Nat} (h : memchr s c limit = some i) :
    s[i]? = some c ∧ i < limit ∧ ∀ j < i, s[j]? ≠ some c := by
  obtain ⟨hi, hEq, hBefore⟩ := List.idxOf?_eq_some_iff.mp h
  have hLimit : i < limit ∧ i < s.length := by simpa [List.length_take, Nat.lt_min] using hi
  refine ⟨by rw [List.getElem?_eq_getElem hLimit.2]; simpa using hEq, hLimit.1, fun j hj hs => ?_⟩
  have hj' : j < s.length := by omega
  rw [List.getElem?_eq_getElem hj'] at hs
  exact hBefore j hj (by simpa using hs)

theorem jumpTarget_jumps (s : Bytes) : Jumps s (jumpTarget s) 0 := by
  have hNone {c : UInt8} {j : Nat} (h : memchr s c (min s.length httpMaxHeaderSize) = none)
      (hs : s[j]? = some c) : ¬ j < httpMaxHeaderSize := by
    intro hj
    have hLen : j < s.length := (List.getElem?_eq_some_iff.mp hs).1
    exact memchr_none h (by omega) hs
  cases hcr : memchr s CR (min s.length httpMaxHeaderSize) <;>
    cases hlf : memchr s LF (min s.length httpMaxHeaderSize) <;>
    simp only [jumpTarget, hcr, hlf]
  case none.none =>
    refine ⟨Nat.le_refl _, ?_, fun c hc => by simp at hc⟩
    rintro j - c hc ⟨rfl | rfl, hj⟩
    · exact hNone hcr hc (by omega)
    · exact hNone hlf hc (by omega)
  case none.some i =>
    obtain ⟨hi, hLt, hBefore⟩ := memchr_some hlf
    refine ⟨by omega, ?_, fun c hc => ⟨.inr (Option.some.inj (hc.symm.trans hi)), by omega⟩⟩
    rintro j hj c hc ⟨rfl | rfl, hMax⟩
    · exact hNone hcr hc (by omega)
    · exact hBefore j hj hc
  case some.none i =>
    obtain ⟨hi, hLt, hBefore⟩ := memchr_some hcr
    refine ⟨by omega, ?_, fun c hc => ⟨.inl (Option.some.inj (hc.symm.trans hi)), by omega⟩⟩
    rintro j hj c hc ⟨rfl | rfl, hMax⟩
    · exact hBefore j hj hc
    · exact hNone hlf hc (by omega)
  case some.some i i' =>
    obtain ⟨hi, hLt, hBefore⟩ := memchr_some hcr
    obtain ⟨hi', hLt', hBefore'⟩ := memchr_some hlf
    split
    · refine ⟨by omega, ?_, fun c hc => ⟨.inr (Option.some.inj (hc.symm.trans hi')), by omega⟩⟩
      rintro j hj c hc ⟨rfl | rfl, -⟩
      · exact hBefore j (by omega) hc
      · exact hBefore' j hj hc
    · refine ⟨by omega, ?_, fun c hc => ⟨.inl (Option.some.inj (hc.symm.trans hi)), by omega⟩⟩
      rintro j hj c hc ⟨rfl | rfl, -⟩
      · exact hBefore j hj hc
      · exact hBefore' j (by omega) hc

/-- The jump from a byte that is neither CR nor LF passes that byte. -/
theorem jumpTarget_tail {c : UInt8} {s : Bytes} (hc : ¬(c = CR ∨ c = LF)) :
    Jumps s (jumpTarget (c :: s) - 1) 1 := by
  have h := jumpTarget_jumps (c :: s)
  cases hTarget : jumpTarget (c :: s) with
  | zero => exact absurd (h.lands c (by simp [hTarget])).1 hc
  | succ n =>
    rw [hTarget] at h
    exact h.tail

/-! ### The loop over a value -/

def Scan.inValue (t : Scan) (P : HttpParser) (n : Nat) (h : HeaderStates) (jump : Option Nat) : Scan :=
  { t with parser := P, ctl := .value n h jump }

theorem Scan.inValue_run_cons (t : Scan) (P : HttpParser) (n : Nat) (h : HeaderStates)
    (jump : Option Nat) (ht : t.stopped = none) (ch : UInt8) (s : Bytes) :
    (t.inValue P n h jump).run (ch :: s) = ((t.inValue P n h jump).valueByte n h jump ch).run s := by
  rw [Scan.run, List.foldl_cons, Scan.step]
  simp only [Scan.inValue, ht]
  rfl

def Scan.ValueLoop (t u : Scan) (n : Nat) (s : Bytes) :
    HttpParser × HeaderStates × Nat × LoopExit → Prop
  | (Q, g, k, .eob) => k = s.length ∧ ∃ jump, u.run s = (t.consumeAll s).inValue Q (n + k) g jump
  | (Q, _, k, .error) => (u.run s).endBuffer.result = (Q, t.calls, t.p + k)
  | (Q, g, k, .stop ch) =>
    ∃ v w jump, s = v ++ ch :: w ∧ v.length = k ∧ (ch = CR ∨ ch = LF) ∧
      u.run s = (((t.consumeAll v).inValue Q (n + k) g jump).valueStop (n + k) g ch).run w

theorem Scan.ValueLoop.cons {t u u' : Scan} {Q : HttpParser} {n k : Nat} {ch : UInt8} {s : Bytes}
    {exit : LoopExit} {g : HeaderStates} (hRun : u.run (ch :: s) = u'.run s)
    (h : (t.consume ch).ValueLoop u' (n + 1) s (Q, g, k, exit)) :
    t.ValueLoop u n (ch :: s) (Q, g, k + 1, exit) := by
  have hn : n + (k + 1) = n + 1 + k := by omega
  cases exit with
  | eob =>
    obtain ⟨hk, jump, hv⟩ := h
    exact ⟨by simp [hk], jump, by rw [hRun, hv, hn]; rfl⟩
  | error =>
    have hp : t.p + (k + 1) = (t.consume ch).p + k := by simp only [Scan.consume]; omega
    show (u.run (ch :: s)).endBuffer.result = (Q, t.calls, t.p + (k + 1))
    rw [hRun, hp]
    exact h
  | stop c =>
    obtain ⟨v, w, jump, hs, hk, hc, hv⟩ := h
    refine ⟨ch :: v, w, jump, by rw [hs]; rfl, by simp [hk], hc, ?_⟩
    rw [hRun, hv, hn]
    rfl

/-- The local `skip` of the loop and the `jump` of the byte by byte parser say the same. -/
def JumpSim (s : Bytes) (skip : Nat) : Option Nat → Prop
  | none => skip = 0
  | some i => Jumps s skip i

theorem headerValueLoop_run (s : Bytes) (skip : Nat) (P : HttpParser) (h : HeaderStates) (t : Scan)
    (n : Nat) (jump : Option Nat) (ht : t.stopped = none) (hj : JumpSim s skip jump) :
    t.ValueLoop (t.inValue P n h jump) n s (headerValueLoop s skip P h) := by
  induction s generalizing skip P h t n jump with
  | nil =>
    cases skip <;> exact ⟨rfl, jump, rfl⟩
  | cons ch s ih =>
    have hRun := t.inValue_run_cons P n h jump ht ch s
    cases skip with
    | succ skip =>
      cases jump with
      | none => cases hj
      | some i =>
        have hPass := hj.passed 0 (by omega) ch rfl
        have hByte : (t.inValue P n h (some i)).valueByte n h (some i) ch =
            (t.consume ch).inValue P (n + 1) h (some (i + 1)) := by
          rw [Scan.valueByte, if_neg (by simpa using hPass)]
          rfl
        exact Scan.ValueLoop.cons (hRun.trans (by rw [hByte])) (ih _ _ _ _ _ (some (i + 1)) ht hj.tail)
    | zero =>
      rw [headerValueLoop]
      by_cases hStop : ch = CR ∨ ch = LF
      · rw [if_pos hStop]
        refine ⟨[], s, jump, rfl, rfl, hStop, hRun.trans ?_⟩
        cases jump with
        | none =>
          rw [Scan.valueByte, if_pos hStop]
          rfl
        | some i =>
          have hLand : (ch = CR ∨ ch = LF) ∧ i < httpMaxHeaderSize := hj.lands ch rfl
          rw [Scan.valueByte, if_pos hLand]
          rfl
      rw [if_neg hStop]
      cases jump with
      | some i => exact absurd (hj.lands ch rfl).1 hStop
      | none =>
        by_cases hChar : isHeaderChar ch = true
        · by_cases hGen : h = .hGeneral
          · have hByte : (t.inValue P n h none).valueByte n h none ch =
                (t.consume ch).inValue P (n + 1) h (some 1) := by
              rw [Scan.valueByte, if_neg hStop, if_neg (by simp [hChar]), if_pos hGen]
              rfl
            simp only [hChar, hGen, Bool.not_true, Bool.false_eq_true, if_false, if_true]
            rw [hGen] at hByte hRun
            exact Scan.ValueLoop.cons (hRun.trans (by rw [hByte]))
              (ih _ _ _ _ _ (some 1) ht (jumpTarget_tail hStop))
          · by_cases hErr : (headerValueChar P h ch).1.httpErrno = .ok
            · have hByte : (t.inValue P n h none).valueByte n h none ch =
                  (t.consume ch).inValue (headerValueChar P h ch).1 (n + 1) (headerValueChar P h ch).2 none := by
                rw [Scan.valueByte, if_neg hStop, if_neg (by simp [hChar]), if_neg hGen]
                simp only [Scan.inValue, hErr, ne_eq, not_true, if_false]
                rfl
              simp only [hChar, hGen, hErr, Bool.not_true, Bool.false_eq_true, if_false, ne_eq, not_true]
              exact Scan.ValueLoop.cons (hRun.trans (by rw [hByte])) (ih _ _ _ _ _ none ht rfl)
            · have hByte : (t.inValue P n h none).valueByte n h none ch =
                  { t.inValue (headerValueChar P h ch).1 n h none with stopped := some t.p } := by
                rw [Scan.valueByte, if_neg hStop, if_neg (by simp [hChar]), if_neg hGen]
                simp only [Scan.inValue, hErr, ne_eq, not_false_eq_true, if_true]
              simp only [hChar, hGen, hErr, Bool.not_true, Bool.false_eq_true, if_false, ne_eq,
                not_false_eq_true, if_true]
              show ((t.inValue P n h none).run (ch :: s)).endBuffer.result = _
              rw [hRun, hByte, Scan.result_stopped (n := t.p) rfl]
              rfl
        · have hByte : (t.inValue P n h none).valueByte n h none ch =
              { t.inValue (setErrno P .invalidHeaderToken) n h none with stopped := some t.p } := by
            rw [Scan.valueByte, if_neg hStop, if_pos (by simp [hChar])]
            rfl
          simp only [hChar, Bool.not_false, if_true]
          show ((t.inValue P n h none).run (ch :: s)).endBuffer.result = _
          rw [hRun, hByte, Scan.result_stopped (n := t.p) rfl]
          rfl

/-! ### The outer loop -/

theorem forLoop_skip (data u v : Bytes) (x : Exec) :
    forLoop data (u ++ v) u.length x = forLoop data v 0 x := by
  induction u with
  | nil => rfl
  | cons ch u ih => exact ih

/-- The scan that stands for `x` at `s` has the result `r`. -/
def Exec.Yields (data : Bytes) (x : Exec) (s : Bytes) (r : HttpParser × List Callback × Nat) : Prop :=
  ((x.toScan data).run s).endBuffer.result = r

/-- What the loop body may make of `x`, where the buffer goes on with `s`. -/
def Exec.Body (data : Bytes) (x : Exec) (s : Bytes) : Exec × Flow → Prop
  | (y, .next) =>
    ∃ u v, s = u ++ v ∧ y.p + 1 = x.p + u.length ∧ x.p ≤ y.p ∧ Exec.At data { y with p := y.p + 1 } v ∧
      ∀ r, Exec.Yields data { y with p := y.p + 1 } v r → x.Yields data s r
  | (y, .error) => x.Yields data s (y.parser, y.calls, y.p)
  | (y, .ret) => x.Yields data s (y.parser, y.calls, y.p + 1)

theorem body_apply {data u v : Bytes} {ch : UInt8} {x y : Exec} {o : Outcome} {t : Scan}
    (hAt : y.At data (ch :: v)) (hp : y.p = x.p + u.length) (ho : o.Stays)
    (hRun : ((x.toScan data).run (u ++ ch :: v)).endBuffer.result =
      ((t.apply ch o).run v).endBuffer.result)
    (ht : { t with parser := o.parser, ctl := .outer } =
      Exec.toScan data { y with parser := o.parser }) :
    x.Body data (u ++ ch :: v) (y.apply data o) := by
  have hAtO : Exec.At data { y with parser := o.parser } (ch :: v) := ⟨hAt.rest, hAt.le, hAt.marks⟩
  obtain ⟨hScan, hp', hAt'⟩ := toScan_acts hAtO ho
  rw [Scan.apply, ht, ← hScan] at hRun
  unfold Exec.apply
  generalize o.acts.foldl (Exec.act data) { y with parser := o.parser } = z at *
  cases hFlow : o.flow with
  | next =>
    obtain ⟨hNext, hAtNext⟩ := toScan_advance hAt'
    simp only at hp'
    refine ⟨u ++ [ch], v, by simp, ?_, by omega, hAtNext, fun r hr => ?_⟩
    · simp only [List.length_append, List.length_singleton]
      omega
    · rw [Exec.Yields, hRun, hFlow, Scan.settle, ← hNext]
      exact hr
  | error =>
    show x.Yields data (u ++ ch :: v) _
    rw [Exec.Yields, hRun, hFlow, Scan.settle]
    exact Scan.result_stopped rfl v
  | ret =>
    show x.Yields data (u ++ ch :: v) _
    rw [Exec.Yields, hRun, hFlow, Scan.settle]
    exact Scan.result_stopped rfl v

theorem body_count {data s v : Bytes} {x y : Exec} {n : Nat} {k : Exec → Exec × Flow}
    {t : Scan} {k' : Scan → Scan}
    (hRun : ((x.toScan data).run s).endBuffer.result = ((t.countHeaderSize n k').run v).endBuffer.result)
    (hParser : t.parser = y.parser) (hCalls : t.calls = y.calls) (hp : t.p = y.p)
    (hNext : overflows (addNread y.parser n) = false →
      ((x.toScan data).run s).endBuffer.result =
        ((k' { t with parser := addNread y.parser n }).run v).endBuffer.result →
      x.Body data s (k { y with parser := addNread y.parser n })) :
    x.Body data s (y.countHeaderSize n k) := by
  unfold Exec.countHeaderSize
  rw [Scan.countHeaderSize, hParser] at hRun
  cases hOver : overflows (addNread y.parser n) with
  | true =>
    simp only [hOver, if_true] at hRun ⊢
    show x.Yields data s _
    rw [Exec.Yields, hRun, Scan.result_stopped (n := t.p) rfl, hCalls, hp]
  | false =>
    simp only [hOver, Bool.false_eq_true, if_false] at hRun ⊢
    exact hNext hOver hRun

theorem stays_fail (P : HttpParser) (e : HttpErrno) : (fail P e).Stays := by
  simp [fail, Outcome.Stays]

theorem body_endOfBuffer {data s : Bytes} {x y : Exec} {n : Nat} {t : Scan}
    (hAt : y.At data []) (hp : y.p = x.p + s.length) (hs : s ≠ [])
    (hRun : ((x.toScan data).run s).endBuffer.result = (t.countHeaderSize n Scan.flush).result)
    (ht : { t with ctl := .outer } = y.toScan data) (hp' : t.p = y.p) :
    x.Body data s (y.countHeaderSize n fun x => ({ x with p := x.p - 1 }, .next)) := by
  have hParser : t.parser = y.parser := congrArg Scan.parser ht
  have hCalls : t.calls = y.calls := congrArg Scan.calls ht
  have hStopped : t.stopped = none := congrArg Scan.stopped ht
  have hLen := List.length_pos_iff.mpr hs
  unfold Exec.countHeaderSize
  rw [Scan.countHeaderSize, hParser] at hRun
  cases hOver : overflows (addNread y.parser n) with
  | true =>
    simp only [hOver, if_true] at hRun ⊢
    show x.Yields data s _
    rw [Exec.Yields, hRun, Scan.result, hCalls, hp']
    rfl
  | false =>
    simp only [hOver, Bool.false_eq_true, if_false] at hRun ⊢
    have hBack : y.p - 1 + 1 = y.p := by omega
    refine ⟨s, [], by simp, by simp only; omega, by simp only; omega, ?_, fun r hr => ?_⟩
    · simp only [hBack]
      exact ⟨hAt.rest, hAt.le, hAt.marks⟩
    · rw [Exec.Yields, hRun, ← hr]
      simp only [hBack]
      have hFlush : Scan.flush { t with parser := addNread y.parser n } =
          Scan.flush (Exec.toScan data { y with parser := addNread y.parser n }) := by
        have hSame := congrArg (fun t : Scan => { t with parser := addNread y.parser n }) ht
        simp only [Scan.flush]
        exact congrArg (fun t => leftover.foldl (Scan.act 0) t) hSame
      rw [hFlush]
      rfl

theorem body_headerField {data s : Bytes} {x y : Exec} (hAt : y.At data s) (hp : y.p = x.p)
    (hs : s ≠ []) (hRun : ((x.toScan data).run s).endBuffer.result =
      (((y.toScan data).inField y.parser 0).run s).endBuffer.result) :
    x.Body data s (headerFieldCase data y s) := by
  have hLoop := headerFieldLoop_run s y.parser (y.toScan data) 0 rfl
  unfold headerFieldCase
  generalize headerFieldLoop s y.parser = r at hLoop ⊢
  obtain ⟨Q, n, exit⟩ := r
  cases exit with
  | error => exact hRun.trans hLoop
  | eob =>
    obtain ⟨rfl, hLoop⟩ := hLoop
    have hAll := toScan_advanceAll (u := s) (v := []) (by simpa using hAt)
    rw [hLoop, ← hAll.1, Nat.zero_add] at hRun
    exact body_endOfBuffer ⟨hAll.2.rest, hAll.2.le, hAll.2.marks⟩ (by simp only; omega) hs hRun rfl rfl
  | stop c =>
    obtain ⟨u, v, rfl, rfl, hTok, hLoop⟩ := hLoop
    have hAll := toScan_advanceAll hAt
    rw [hLoop, ← hAll.1, Nat.zero_add, Scan.fieldByte, if_pos hTok] at hRun
    refine body_count hRun rfl rfl rfl fun _ hRun => ?_
    have hAt' : Exec.At data { y with parser := addNread Q u.length, p := y.p + u.length } (c :: v) :=
      ⟨hAll.2.rest, hAll.2.le, hAll.2.marks⟩
    simp only at hRun ⊢
    split at hRun <;> rename_i hColon
    · rw [if_pos hColon]
      exact body_apply hAt' (by simp only; omega) (stays_next _ _ (by simp [Act.Stays])) hRun rfl
    · rw [if_neg hColon]
      exact body_apply hAt' (by simp only; omega) (stays_fail _ _) hRun rfl

theorem body_headerValue {data s : Bytes} {x y : Exec} (hAt : y.At data s) (hp : y.p = x.p)
    (hs : s ≠ []) (hRun : ((x.toScan data).run s).endBuffer.result =
      (((y.toScan data).inValue y.parser 0 y.parser.headerState none).run s).endBuffer.result) :
    x.Body data s (headerValueCase data y s) := by
  have hLoop := headerValueLoop_run s 0 y.parser y.parser.headerState (y.toScan data) 0 none rfl rfl
  unfold headerValueCase
  generalize headerValueLoop s 0 y.parser y.parser.headerState = r at hLoop ⊢
  obtain ⟨Q, h, n, exit⟩ := r
  cases exit with
  | error => exact hRun.trans hLoop
  | eob =>
    obtain ⟨rfl, jump, hLoop⟩ := hLoop
    have hAll := toScan_advanceAll (u := s) (v := []) (by simpa using hAt)
    rw [hLoop, ← hAll.1, Nat.zero_add] at hRun
    exact body_endOfBuffer ⟨hAll.2.rest, hAll.2.le, hAll.2.marks⟩ (by simp only; omega) hs hRun rfl rfl
  | stop c =>
    obtain ⟨u, v, jump, rfl, rfl, hStop, hLoop⟩ := hLoop
    have hAll := toScan_advanceAll hAt
    rw [hLoop, ← hAll.1, Nat.zero_add, Scan.valueStop] at hRun
    by_cases hCr : c = CR
    · rw [if_pos hCr] at hRun
      simp only [if_pos hCr]
      -- the callback comes before the count here
      let P : HttpParser := { Q with state := .sHeaderAlmostDone, headerState := h }
      let z : Exec := { y with parser := P, p := y.p + u.length }
      have hAtZ : z.At data (c :: v) := ⟨hAll.2.rest, hAll.2.le, hAll.2.marks⟩
      obtain ⟨hScan, hpAct, hAtAct⟩ := toScan_act (a := .data .headerValue) hAtZ trivial
      have hRunZ : ((x.toScan data).run (u ++ c :: v)).endBuffer.result =
          ((((z.toScan data).act c (.data .headerValue)).countHeaderSize u.length
            fun t => t.consume c).run v).endBuffer.result := hRun
      rw [← hScan] at hRunZ
      refine body_count hRunZ rfl rfl rfl fun _ hRun => ?_
      exact body_apply (u := u) (o := next _) ⟨hAtAct.rest, hAtAct.le, hAtAct.marks⟩
        (hpAct.trans (by simp only [z]; omega)) (stays_next _ _ (by simp)) hRun rfl
    · rw [if_neg hCr] at hRun
      simp only [if_neg hCr]
      refine body_count hRun rfl rfl rfl fun _ hRun => ?_
      refine body_apply (u := u) ⟨hAll.2.rest, hAll.2.le, hAll.2.marks⟩ (by simp only; omega) ?_ hRun rfl
      refine stays_after _ _ (by simp [Act.Stays]) ?_
      unfold headerAlmostDoneCase
      split
      · exact stays_fail _ _
      · exact stays_next _ _ (by simp)

/-! ### The states that move `p` over a body -/

theorem mark_mark (t : Scan) (c d : UInt8) (k : DataCb) :
    ((t.act c (.mark k)).consume d).act c (.mark k) = (t.act c (.mark k)).consume d := by
  simp only [Scan.act, Scan.consume, Scan.mk.injEq, and_true, true_and]
  funext j
  by_cases hj : j = k
  · subst hj
    simp
  · simp [Function.update_of_ne hj]

theorem step_readsBody {t : Scan} (hStopped : t.stopped = none) (hCtl : t.ctl = .outer)
    (h : t.parser.state.readsBody) (ch : UInt8) : t.step ch = t.apply ch (switch t.parser ch 1) := by
  have hHeader : parsingHeader t.parser.state = false := by
    cases hs : t.parser.state <;> simp [hs, State.readsBody] at h <;> rfl
  have hByte : t.switchByte ch = t.apply ch (switch t.parser ch 1) := by
    rw [Scan.switchByte]
    cases hs : t.parser.state <;> simp [hs, State.readsBody] at h <;> rfl
  rw [← hByte, Scan.step, hStopped, hCtl]
  simp only [hHeader, Bool.false_eq_true, if_false]

def Reads (P : Nat → HttpParser) (n : Nat) : Prop :=
  ∀ i < n, ∀ ch, (P i).state.readsBody ∧ switch (P i) ch 1 = next (P (i + 1)) [.mark .body, .advance 0]

theorem Reads.step {P : Nat → HttpParser} {n i : Nat} (h : Reads P n) (hi : i < n) {t : Scan}
    (hStopped : t.stopped = none) (hCtl : t.ctl = .outer) (hParser : t.parser = P i) (ch : UInt8) :
    t.step ch = Scan.consume { t.act ch (.mark .body) with parser := P (i + 1) } ch := by
  obtain ⟨hReads, hSwitch⟩ := h i hi ch
  rw [step_readsBody hStopped hCtl (hParser ▸ hReads), hParser, hSwitch]
  simp only [Scan.apply, next, List.foldl_cons, List.foldl_nil, Scan.settle, Scan.act, hCtl]

theorem Reads.run {P : Nat → HttpParser} {n i : Nat} {u : Bytes} (h : Reads P n) (hu : i + u.length ≤ n)
    {t : Scan} (hStopped : t.stopped = none) (hCtl : t.ctl = .outer) (hParser : t.parser = P i)
    (hMark : t.act 0 (.mark .body) = t) :
    t.run u = { t.consumeAll u with parser := P (i + u.length) } := by
  induction u generalizing t i with
  | nil =>
    show t = { t with parser := P i }
    rw [← hParser]
  | cons ch u ih =>
    have hStep : t.step ch = { t.consume ch with parser := P (i + 1) } := by
      rw [h.step (by simp at hu; omega) hStopped hCtl hParser ch]
      have hMark' : t.act ch (.mark .body) = t := hMark
      rw [hMark']
      rfl
    rw [Scan.run, List.foldl_cons, hStep]
    have hMark' : (t.consume ch).act 0 (.mark .body) = t.consume ch := by
      have hTwice := mark_mark t 0 ch .body
      rwa [hMark] at hTwice
    have hRec := ih (t := { t.consume ch with parser := P (i + 1) }) (i := i + 1)
      (by simp at hu; omega) hStopped hCtl rfl
      (congrArg (fun t : Scan => { t with parser := P (i + 1) }) hMark')
    rw [Scan.run] at hRec
    rw [hRec, show i + (ch :: u).length = i + 1 + u.length by simp; omega]
    simp only [Scan.consumeAll_eq, Scan.consume, List.length_cons, Scan.mk.injEq, and_true, true_and]
    exact ⟨by omega, funext fun k => by cases t.marks k <;> simp⟩

theorem Reads.run_mark {P : Nat → HttpParser} {n : Nat} {u : Bytes} (h : Reads P n) (hu : u.length ≤ n)
    (hne : u ≠ []) {t : Scan} (hStopped : t.stopped = none) (hCtl : t.ctl = .outer) (hParser : t.parser = P 0) :
    t.run u = { (t.act 0 (.mark .body)).consumeAll u with parser := P u.length } := by
  cases u with
  | nil => exact absurd rfl hne
  | cons ch u =>
    simp only [List.length_cons] at hu
    have hStep := h.step (i := 0) (by omega) hStopped hCtl hParser ch
    have hMark := mark_mark t 0 ch .body
    rw [Scan.run, List.foldl_cons, hStep]
    have hRec := h.run (t := Scan.consume { t.act ch (.mark .body) with parser := P 1 } ch) (i := 1) (u := u)
      (by omega) hStopped hCtl rfl (congrArg (fun t : Scan => { t with parser := P 1 }) hMark)
    rw [Scan.run] at hRec
    rw [hRec, show (ch :: u).length = 1 + u.length by simp; omega]
    have hAct : t.act ch (.mark .body) = t.act 0 (.mark .body) := rfl
    rw [hAct]
    simp only [Scan.consumeAll_eq, Scan.consume, List.length_cons, Scan.mk.injEq, and_true, true_and]
    exact ⟨by omega, funext fun k => by cases (t.act 0 (.mark .body)).marks k <;> simp⟩

theorem body_reads {data s : Bytes} {x y : Exec} {P : Nat → HttpParser}
    (hAt : y.At data s) (hp : y.p = x.p) (hs : s ≠ []) (hReads : Reads P s.length) (hParser : y.parser = P 0)
    (hRun : ((x.toScan data).run s).endBuffer.result = ((y.toScan data).run s).endBuffer.result) :
    x.Body data s (y.apply data (next (P s.length) [.mark .body, .advance (s.length - 1)])) := by
  have hLen := List.length_pos_iff.mpr hs
  obtain ⟨ch, s', rfl⟩ := List.exists_cons_of_ne_nil hs
  obtain ⟨hScan, hpMark, hAtMark⟩ := toScan_act (a := .mark .body) hAt trivial
  have hAll := toScan_advanceAll (v := []) (by simpa using hAtMark)
  rw [hReads.run_mark (t := y.toScan data) (Nat.le_refl _) hs rfl rfl hParser] at hRun
  have hBack : y.p + ((ch :: s').length - 1) + 1 = y.p + (ch :: s').length := by omega
  refine ⟨ch :: s', [], by simp, ?_, ?_, ?_, fun r hr => ?_⟩
  · show y.p + ((ch :: s').length - 1) + 1 = x.p + (ch :: s').length
    omega
  · show x.p ≤ y.p + ((ch :: s').length - 1)
    omega
  · refine ⟨?_, ?_, ?_⟩
    · show data.drop (y.p + ((ch :: s').length - 1) + 1) = []
      rw [hBack]
      exact hAll.2.rest
    · show y.p + ((ch :: s').length - 1) + 1 ≤ data.length
      rw [hBack]
      exact hAll.2.le
    · intro k m hk
      show m ≤ y.p + ((ch :: s').length - 1) + 1
      rw [hBack]
      exact hAll.2.marks k m hk
  · rw [Exec.Yields, hRun, ← hr]
    have hScan' : Scan.act 0 (y.toScan data) (.mark .body) = Exec.toScan data (y.act data (.mark .body)) :=
      hScan.symm
    rw [hScan', ← hAll.1]
    simp only [next, List.foldl_cons, List.foldl_nil, Exec.act, hBack]
    rfl

/-- A case that reads `n` bytes and then takes the outcome `o` at the next one. -/
theorem body_readsTo {data u v : Bytes} {ch : UInt8} {x y : Exec} {P : Nat → HttpParser} {o : Outcome}
    {l : List Act} (hAt : y.At data (u ++ ch :: v)) (hp : y.p = x.p) (hu : u ≠ []) (hReads : Reads P u.length)
    (hParser : y.parser = P 0) (hBody : (P u.length).state.readsBody)
    (hLast : switch (P u.length) ch 1 = { o with acts := .mark .body :: .advance 0 :: l })
    (ho : o.acts = .mark .body :: .advance u.length :: l) (hActs : ∀ a ∈ l, a.Stays)
    (hRun : ((x.toScan data).run (u ++ ch :: v)).endBuffer.result =
      ((y.toScan data).run (u ++ ch :: v)).endBuffer.result) :
    x.Body data (u ++ ch :: v) (y.apply data o) := by
  have hAtMark : (y.act data (.mark .body)).At data (u ++ ch :: v) := by
    obtain ⟨c, w, hw⟩ := List.exists_cons_of_ne_nil (l := u ++ ch :: v) (by simp)
    rw [hw] at hAt ⊢
    exact (toScan_act (a := .mark .body) hAt trivial).2.2
  have hScan : (y.act data (.mark .body)).toScan data = (y.toScan data).act 0 (.mark .body) := by
    obtain ⟨c, w, hw⟩ := List.exists_cons_of_ne_nil (l := u ++ ch :: v) (by simp)
    rw [hw] at hAt
    exact (toScan_act (a := .mark .body) hAt trivial).1
  have hAll := toScan_advanceAll hAtMark
  let z : Exec := { y.act data (.mark .body) with parser := P u.length, p := y.p + u.length }
  have hZ : y.apply data o = z.apply data (switch (P u.length) ch 1) := by
    rw [hLast]
    simp only [Exec.apply, ho, List.foldl_cons, z, Exec.act, Nat.add_zero, Function.update_self,
      Option.getD_some, Function.update_idem]
  rw [Scan.run_append (y.toScan data), hReads.run_mark (t := y.toScan data) (Nat.le_refl _) hu rfl rfl hParser,
    ← hScan, ← hAll.1] at hRun
  rw [hZ]
  refine body_apply (t := z.toScan data) ⟨hAll.2.rest, hAll.2.le, hAll.2.marks⟩ (by simp only [z]; omega) ?_ ?_ rfl
  · rw [hLast]
    intro a ha
    rcases List.mem_cons.mp ha with rfl | ha
    · trivial
    rcases List.mem_cons.mp ha with rfl | ha
    · rfl
    · exact hActs a ha
  · refine hRun.trans ?_
    have hStep : (z.toScan data).step ch = (z.toScan data).apply ch (switch (P u.length) ch 1) :=
      step_readsBody rfl rfl hBody ch
    rw [← hStep]
    rfl

theorem body_readsOne {data v : Bytes} {ch : UInt8} {x y : Exec} (hAt : y.At data (ch :: v))
    (hp : y.p = x.p) (hBody : y.parser.state.readsBody) (hStays : (switch y.parser ch 1).Stays)
    (hRun : ((x.toScan data).run (ch :: v)).endBuffer.result =
      ((y.toScan data).run (ch :: v)).endBuffer.result) :
    x.Body data (ch :: v) (y.apply data (switch y.parser ch 1)) := by
  have hStep : (y.toScan data).step ch = (y.toScan data).apply ch (switch y.parser ch 1) :=
    step_readsBody rfl rfl hBody ch
  refine body_apply (u := []) (t := y.toScan data) hAt hp hStays (hRun.trans ?_) rfl
  rw [← hStep]
  rfl

def bodyAfter (P : HttpParser) (i : Nat) : HttpParser := { P with contentLength := P.contentLength - i }

theorem reads_bodyAfter {P : HttpParser} {n : Nat} (hn : n < P.contentLength)
    (hState : P.state = .sBodyIdentity ∨ P.state = .sChunkData) : Reads (bodyAfter P) n := by
  intro i hi ch
  have hMin : min (P.contentLength - i) 1 = 1 := by omega
  have hLeft : P.contentLength - i - 1 ≠ 0 := by omega
  have hSub : P.contentLength - (i + 1) = P.contentLength - i - 1 := by omega
  rcases hState with hs | hs <;> refine ⟨by simp [bodyAfter, hs, State.readsBody], ?_⟩ <;>
    simp [switch, bodyAfter, hs, bodyIdentityCase, chunkDataCase, hMin, hLeft, hSub]

theorem exists_split {s : Bytes} {n : Nat} (hPos : 0 < n) (hn : n ≤ s.length) :
    ∃ u ch v, s = u ++ ch :: v ∧ u.length + 1 = n := by
  have hLt : n - 1 < s.length := by omega
  refine ⟨s.take (n - 1), s[n - 1], s.drop n, ?_, by simp; omega⟩
  rw [show s.drop n = s.drop (n - 1 + 1) by rw [Nat.sub_add_cancel hPos], List.getElem_cons_drop,
    List.take_append_drop]

theorem body_bodyIdentity {data s : Bytes} {x y : Exec} (hAt : y.At data s) (hp : y.p = x.p)
    (hs : s ≠ []) (hState : y.parser.state = .sBodyIdentity)
    (hRun : ((x.toScan data).run s).endBuffer.result = ((y.toScan data).run s).endBuffer.result) :
    x.Body data s (y.apply data (bodyIdentityCase y.parser s.length)) := by
  have hLen := List.length_pos_iff.mpr hs
  by_cases hShort : s.length < y.parser.contentLength
  · have hCase : bodyIdentityCase y.parser s.length =
        next (bodyAfter y.parser s.length) [.mark .body, .advance (s.length - 1)] := by
      have hMin : min y.parser.contentLength s.length = s.length := by omega
      have hLeft : y.parser.contentLength - s.length ≠ 0 := by omega
      simp [bodyIdentityCase, hMin, hLeft, bodyAfter]
    rw [hCase]
    exact body_reads hAt hp hs (reads_bodyAfter hShort (.inl hState)) rfl hRun
  by_cases hOne : y.parser.contentLength ≤ 1
  · obtain ⟨ch, v, rfl⟩ := List.exists_cons_of_ne_nil hs
    have hMin : min y.parser.contentLength (ch :: v).length = min y.parser.contentLength 1 := by omega
    have hZero : min y.parser.contentLength 1 - 1 = 0 := by omega
    have hCase : bodyIdentityCase y.parser (ch :: v).length = switch y.parser ch 1 := by
      simp only [switch, hState, bodyIdentityCase, hMin]
    rw [hCase]
    refine body_readsOne hAt hp (by simp [hState, State.readsBody]) ?_ hRun
    simp only [switch, hState, bodyIdentityCase, hZero]
    split
    · exact stays_after _ _ (by simp [Act.Stays]) (stays_messageDone _)
    · exact stays_next _ _ (by simp [Act.Stays])
  · obtain ⟨u, ch, v, rfl, hu⟩ := exists_split (s := s) (n := y.parser.contentLength) (by omega) (by omega)
    have hMin : min y.parser.contentLength (u ++ ch :: v).length = y.parser.contentLength := by omega
    have hMinLast : min (y.parser.contentLength - u.length) 1 = y.parser.contentLength - u.length := by omega
    have hSub : y.parser.contentLength - 1 = u.length := by omega
    refine body_readsTo (P := bodyAfter y.parser) (l := [.dataThrough .body, .notify .messageComplete])
      hAt hp (by rintro rfl; simp at hu; omega) (reads_bodyAfter (by omega) (.inl hState)) rfl
      (by simp [bodyAfter, hState, State.readsBody]) ?_ ?_ (by simp [Act.Stays]) hRun
    · have hZero : y.parser.contentLength - u.length - (y.parser.contentLength - u.length) = 0 := by omega
      have hOne : y.parser.contentLength - u.length - 1 = 0 := by omega
      simp only [switch, bodyAfter, hState, bodyIdentityCase, hMin, hMinLast, hZero, hOne, Nat.sub_self, if_true]
      rfl
    · simp only [bodyIdentityCase, hMin, Nat.sub_self, if_true, hSub]
      rfl

theorem body_chunkData {data s : Bytes} {x y : Exec} (hAt : y.At data s) (hp : y.p = x.p)
    (hs : s ≠ []) (hState : y.parser.state = .sChunkData)
    (hRun : ((x.toScan data).run s).endBuffer.result = ((y.toScan data).run s).endBuffer.result) :
    x.Body data s (y.apply data (chunkDataCase y.parser s.length)) := by
  have hLen := List.length_pos_iff.mpr hs
  by_cases hShort : s.length < y.parser.contentLength
  · have hCase : chunkDataCase y.parser s.length =
        next (bodyAfter y.parser s.length) [.mark .body, .advance (s.length - 1)] := by
      have hMin : min y.parser.contentLength s.length = s.length := by omega
      have hLeft : y.parser.contentLength - s.length ≠ 0 := by omega
      simp [chunkDataCase, hMin, hLeft, bodyAfter]
    rw [hCase]
    exact body_reads hAt hp hs (reads_bodyAfter hShort (.inr hState)) rfl hRun
  by_cases hOne : y.parser.contentLength ≤ 1
  · obtain ⟨ch, v, rfl⟩ := List.exists_cons_of_ne_nil hs
    have hMin : min y.parser.contentLength (ch :: v).length = min y.parser.contentLength 1 := by omega
    have hZero : min y.parser.contentLength 1 - 1 = 0 := by omega
    have hCase : chunkDataCase y.parser (ch :: v).length = switch y.parser ch 1 := by
      simp only [switch, hState, chunkDataCase, hMin]
    rw [hCase]
    refine body_readsOne hAt hp (by simp [hState, State.readsBody]) ?_ hRun
    simp only [switch, hState, chunkDataCase, hZero]
    exact stays_next _ _ (by simp [Act.Stays])
  · obtain ⟨u, ch, v, rfl, hu⟩ := exists_split (s := s) (n := y.parser.contentLength) (by omega) (by omega)
    have hMin : min y.parser.contentLength (u ++ ch :: v).length = y.parser.contentLength := by omega
    have hMinLast : min (y.parser.contentLength - u.length) 1 = y.parser.contentLength - u.length := by omega
    have hSub : y.parser.contentLength - 1 = u.length := by omega
    refine body_readsTo (P := bodyAfter y.parser) (l := []) hAt hp (by rintro rfl; simp at hu; omega)
      (reads_bodyAfter (by omega) (.inr hState)) rfl (by simp [bodyAfter, hState, State.readsBody])
      ?_ ?_ (by simp) hRun
    · have hZero : y.parser.contentLength - u.length - (y.parser.contentLength - u.length) = 0 := by omega
      have hOne : y.parser.contentLength - u.length - 1 = 0 := by omega
      simp only [switch, bodyAfter, hState, chunkDataCase, hMin, hMinLast, hZero, hOne, Nat.sub_self, if_true]
      rfl
    · simp only [chunkDataCase, hMin, Nat.sub_self, if_true, hSub]
      rfl

theorem body_bodyIdentityEof {data s : Bytes} {x y : Exec} (hAt : y.At data s) (hp : y.p = x.p)
    (hs : s ≠ []) (hState : y.parser.state = .sBodyIdentityEof)
    (hRun : ((x.toScan data).run s).endBuffer.result = ((y.toScan data).run s).endBuffer.result) :
    x.Body data s (y.apply data (bodyIdentityEofCase y.parser s.length)) := by
  have hReads : Reads (fun _ => y.parser) s.length := fun _ _ ch =>
    ⟨by simp [hState, State.readsBody], by simp [switch, hState, bodyIdentityEofCase]⟩
  exact body_reads hAt hp hs hReads rfl hRun

/-! ### The two parsers agree -/

theorem switch_remaining (P : HttpParser) (ch : UInt8) (n m : Nat) (h : ¬ P.state.readsBody) :
    switch P ch n = switch P ch m := by
  cases hs : P.state <;> simp only [hs, State.readsBody, not_true] at h <;> simp only [switch, hs]

theorem body_switch {data v : Bytes} {ch : UInt8} {x y : Exec} (hAt : y.At data (ch :: v))
    (hp : y.p = x.p) (hRun : ((x.toScan data).run (ch :: v)).endBuffer.result =
      (((y.toScan data).switchByte ch).run v).endBuffer.result) :
    x.Body data (ch :: v) (y.switch data ch (ch :: v)) := by
  by_cases hBody : y.parser.state.readsBody
  · have hStep : (y.toScan data).step ch = (y.toScan data).switchByte ch := by
      have hHeader : parsingHeader y.parser.state = false := by
        cases hs : y.parser.state <;> simp [hs, State.readsBody] at hBody <;> rfl
      show (if parsingHeader y.parser.state = true then _ else _) = _
      rw [hHeader]
      rfl
    rw [← hStep] at hRun
    cases hs : y.parser.state <;> simp only [hs, State.readsBody] at hBody <;> simp only [Exec.switch, hs]
    case sChunkData =>
      simp only [HttpUtils.switch, hs]
      exact body_chunkData hAt hp (by simp) hs hRun
    case sBodyIdentity =>
      simp only [HttpUtils.switch, hs]
      exact body_bodyIdentity hAt hp (by simp) hs hRun
    case sBodyIdentityEof =>
      simp only [HttpUtils.switch, hs]
      exact body_bodyIdentityEof hAt hp (by simp) hs hRun
  by_cases hField : y.parser.state = .sHeaderField
  · have hByte : (y.toScan data).switchByte ch = ((y.toScan data).inField y.parser 0).fieldByte 0 ch := by
      have hState : (y.toScan data).parser.state = .sHeaderField := hField
      simp only [Scan.switchByte, hState]
      rfl
    rw [hByte, ← Scan.inField_run_cons _ _ _ rfl] at hRun
    simp only [Exec.switch, hField]
    exact body_headerField hAt hp (by simp) hRun
  by_cases hValue : y.parser.state = .sHeaderValue
  · have hByte : (y.toScan data).switchByte ch =
        ((y.toScan data).inValue y.parser 0 y.parser.headerState none).valueByte 0 y.parser.headerState none ch := by
      have hState : (y.toScan data).parser.state = .sHeaderValue := hValue
      simp only [Scan.switchByte, hState]
      rfl
    rw [hByte, ← Scan.inValue_run_cons _ _ _ _ _ rfl] at hRun
    simp only [Exec.switch, hValue]
    exact body_headerValue hAt hp (by simp) hRun
  · have hSwitch : y.switch data ch (ch :: v) = y.apply data (switch y.parser ch 1) := by
      rw [switch_remaining y.parser ch 1 (ch :: v).length hBody]
      unfold Exec.switch
      split
      · exact absurd ‹_› hField
      · exact absurd ‹_› hValue
      · rfl
    have hByte : (y.toScan data).switchByte ch = (y.toScan data).apply ch (switch y.parser ch 1) := by
      unfold Scan.switchByte
      split
      · exact absurd ‹_› hField
      · exact absurd ‹_› hValue
      · rfl
    rw [hByte] at hRun
    rw [hSwitch]
    exact body_apply (u := []) hAt hp (switch_stays _ _ _ hBody) hRun rfl

theorem loopBody_body {data v : Bytes} {ch : UInt8} {x : Exec} (hAt : x.At data (ch :: v)) :
    x.Body data (ch :: v) (loopBody data x ch (ch :: v)) := by
  have hRun : ((x.toScan data).run (ch :: v)).endBuffer.result =
      ((if parsingHeader x.parser.state then
        (x.toScan data).countHeaderSize 1 fun s => s.switchByte ch
      else (x.toScan data).switchByte ch).run v).endBuffer.result := rfl
  unfold loopBody
  by_cases hHeader : parsingHeader x.parser.state = true
  · rw [if_pos hHeader] at hRun ⊢
    refine body_count hRun rfl rfl rfl fun _ hRun => ?_
    exact body_switch ⟨hAt.rest, hAt.le, hAt.marks⟩ rfl hRun
  · rw [if_neg hHeader] at hRun ⊢
    exact body_switch hAt rfl hRun

theorem toScan_leftover {data : Bytes} {acts : List Act} {x : Exec}
    (hActs : ∀ a ∈ acts, ∃ k, a = .data k) :
    (acts.foldl (Exec.act data) x).toScan data = acts.foldl (Scan.act 0) (x.toScan data) := by
  induction acts generalizing x with
  | nil => rfl
  | cons a acts ih =>
    obtain ⟨k, rfl⟩ := hActs a List.mem_cons_self
    rw [List.foldl_cons, List.foldl_cons, ih fun b hb => hActs b (List.mem_cons_of_mem _ hb)]
    exact congrArg (acts.foldl (Scan.act 0)) (toScan_callbackData data x k)

theorem flush_p (t : Scan) : t.flush.p = t.p ∧ t.flush.stopped = t.stopped := by
  have hAct (t : Scan) (k : DataCb) : (t.act 0 (.data k)).p = t.p ∧ (t.act 0 (.data k)).stopped = t.stopped := by
    simp only [Scan.act, Scan.callbackData]
    split <;> exact ⟨rfl, rfl⟩
  simp [Scan.flush, leftover, hAct]

theorem finish_toScan {data : Bytes} {x : Exec} (hAt : x.At data []) :
    Exec.finish data (x, none) = (x.toScan data).endBuffer.result := by
  have hEnd : x.p = data.length := by
    have hRest := List.drop_eq_nil_iff.mp hAt.rest
    have hLe := hAt.le
    omega
  have hLeft : (leftover.foldl (Exec.act data) x).toScan data = leftover.foldl (Scan.act 0) (x.toScan data) :=
    toScan_leftover (by simp [leftover])
  have hFlush : (x.toScan data).endBuffer = (leftover.foldl (Exec.act data) x).toScan data := hLeft.symm
  obtain ⟨hp, hStopped⟩ := flush_p (x.toScan data)
  rw [Exec.finish, Scan.result, ← hEnd]
  have hNparsed : (x.toScan data).endBuffer.stopped.getD (x.toScan data).endBuffer.p = x.p := by
    show (x.toScan data).flush.stopped.getD (x.toScan data).flush.p = x.p
    rw [hp, hStopped]
    rfl
  rw [hNparsed, hFlush]
  rfl

/-- The loop from `x` on computes what the scan that stands for `x` does. -/
theorem forLoop_yields {data s : Bytes} {x : Exec} (hAt : x.At data s) :
    x.Yields data s (Exec.finish data (forLoop data s 0 x)) := by
  induction hLen : s.length using Nat.strongRecOn generalizing s x with
  | _ n ih =>
    cases s with
    | nil =>
      rw [forLoop, finish_toScan hAt]
      rfl
    | cons ch v =>
      have hBody := loopBody_body hAt
      rw [forLoop]
      generalize loopBody data x ch (ch :: v) = r at hBody ⊢
      obtain ⟨y, flow⟩ := r
      cases flow with
      | error => exact hBody
      | ret => exact hBody
      | next =>
        obtain ⟨u, w, hSplit, hMove, hLe, hAt', hYields⟩ := hBody
        apply hYields
        cases u with
        | nil => simp only [List.length_nil] at hMove; omega
        | cons c u =>
          obtain ⟨rfl, rfl⟩ : ch = c ∧ v = u ++ w := by simpa using hSplit
          have hSkip : y.p - x.p = u.length := by simp only [List.length_cons] at hMove; omega
          simp only [hSkip, forLoop_skip]
          exact ih w.length (by simp at hLen; omega) hAt' rfl

theorem httpParserExecute_eq {P : HttpParser} (hErrno : P.httpErrno = .ok) {data : Bytes} (hData : data ≠ []) :
    httpParserExecute P data = ((Scan.start P).run data).endBuffer.result := by
  have hAt : Exec.At data (.start P) data := by
    refine ⟨rfl, Nat.zero_le _, fun k m hk => ?_⟩
    have hZero : m = 0 := by
      simp only [Exec.start] at hk
      split at hk
      · simpa using hk.symm
      · cases hk
    exact hZero ▸ Nat.zero_le _
  have hStart : (Exec.start P).toScan data = Scan.start P := by
    simp only [Exec.toScan, Exec.start, Scan.start, Scan.mk.injEq, and_true, true_and]
    funext k
    split <;> simp
  have hYields := forLoop_yields hAt
  rw [Exec.Yields, hStart] at hYields
  rw [httpParserExecute, if_neg (by simp [hErrno]), if_neg hData, hYields]

end HttpUtils
