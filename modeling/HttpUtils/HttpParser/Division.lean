import HttpUtils.HttpParser.ExecuteBytewise
import HttpUtils.HttpParser.Reader
import HttpUtils.HttpParser.Losses

/-!
# Feeding a message in buffers

`Scan.next` is the byte that is accepted, `Scan.cut` the end of a buffer. A call of
`http_parser_execute` that reports no error is a run of the first and then the second
(`execute_of_buffer`), and the calls of `parse` on one buffer after another follow a `Reader`.
-/

namespace HttpUtils
set_option autoImplicit false

namespace Scan

def next (s : Scan) (ch : UInt8) : Option Scan := (move s.parser s.ctl ch).map (s.take ch)

def buffer (s : Scan) (b : Bytes) : Option Scan := (PartialRun.run next s b).bind cut

theorem next_eq_some {s t : Scan} {ch : UInt8} :
    s.next ch = some t ↔ ∃ v, move s.parser s.ctl ch = some v ∧ s.take ch v = t :=
  Option.map_eq_some_iff

theorem buffer_eq_some {s t : Scan} {b : Bytes} :
    s.buffer b = some t ↔ ∃ u, PartialRun.run next s b = some u ∧ u.cut = some t :=
  Option.bind_eq_some_iff

/-! ### The byte by byte parser, while it runs -/

theorem run_of_next {s t : Scan} {b : Bytes} (hRun : s.stopped = none)
    (h : PartialRun.run next s b = some t) : s.run b = t ∧ t.stopped = none ∧ t.p = s.p + b.length := by
  induction b generalizing s with
  | nil =>
    obtain rfl := Option.some.inj h
    exact ⟨rfl, hRun, rfl⟩
  | cons ch b ih =>
    obtain ⟨u, hNext, hRest⟩ := PartialRun.run_cons_eq_some.mp h
    obtain ⟨v, hMove, rfl⟩ := next_eq_some.mp hNext
    have hTakes := step_takes hRun ch
    rw [hMove] at hTakes
    obtain ⟨hEq, hStopped, hp⟩ := ih ((take_stopped s ch v).trans hRun) hRest
    refine ⟨?_, hStopped, ?_⟩
    · rw [run, List.foldl_cons, show s.step ch = s.take ch v from hTakes]
      exact hEq
    · rw [hp, take_p, List.length_cons]
      omega

theorem run_of_next_none {s : Scan} {b : Bytes} (hRun : s.stopped = none)
    (h : PartialRun.run next s b = none) :
    ∃ n, (s.run b).stopped = some n ∧ (n < s.p + b.length ∨ (s.run b).parser.upgrade = true) := by
  induction b generalizing s with
  | nil => cases h
  | cons ch b ih =>
    have hTakes := step_takes hRun ch
    cases hMove : move s.parser s.ctl ch with
    | none =>
      rw [hMove] at hTakes
      obtain ⟨n, hStopped, hn⟩ := hTakes
      have hRest : s.run (ch :: b) = s.step ch := by
        rw [run, List.foldl_cons]
        exact run_stopped hStopped b
      rw [hRest]
      refine ⟨n, hStopped, hn.imp (fun hp => ?_) id⟩
      simp only [List.length_cons]
      omega
    | some v =>
      rw [hMove] at hTakes
      have hNext : s.next ch = some (s.take ch v) := next_eq_some.mpr ⟨v, hMove, rfl⟩
      rw [PartialRun.run_cons_of_step hNext] at h
      obtain ⟨n, hStopped, hn⟩ := ih ((take_stopped s ch v).trans hRun) h
      have hRest : s.run (ch :: b) = (s.take ch v).run b := by
        rw [run, List.foldl_cons, show s.step ch = s.take ch v from hTakes]
        rfl
      rw [hRest]
      refine ⟨n, hStopped, hn.imp (fun hp => ?_) id⟩
      rw [take_p] at hp
      simp only [List.length_cons]
      omega

theorem countHeaderSize_of_counted {s : Scan} {P Q : HttpParser} {n : ℕ} (h : counted P n = some Q)
    (k : Scan → Scan) : countHeaderSize { s with parser := P } n k = k { s with parser := Q } := by
  obtain ⟨hOver, rfl⟩ := counted_eq_some.mp h
  simp only [countHeaderSize, hOver, Bool.false_eq_true, if_false]

theorem countHeaderSize_of_counted_none {s : Scan} {P : HttpParser} {n : ℕ} (h : counted P n = none)
    (k : Scan → Scan) :
    countHeaderSize { s with parser := P } n k =
      { s with parser := setErrno (addNread P n) .headerOverflow, stopped := some s.p } := by
  have hOver : overflows (addNread P n) = true := by
    by_contra hNot
    simp [counted, hNot] at h
  simp only [countHeaderSize, hOver, if_true]

theorem endBuffer_of_cutMove {s : Scan} {Q : HttpParser} (hRun : s.stopped = none)
    (h : cutMove s.parser s.ctl = some Q) : s.endBuffer = flush { s with parser := Q } := by
  obtain ⟨P, p, marks, calls, ctl, stopped⟩ := s
  obtain rfl : stopped = none := hRun
  cases ctl with
  | outer =>
    obtain rfl := Option.some.inj h
    rfl
  | field n => exact countHeaderSize_of_counted (s := ⟨P, p, marks, calls, .field n, none⟩) h flush
  | value n g jump => exact countHeaderSize_of_counted (s := ⟨P, p, marks, calls, .value n g jump, none⟩) h flush

structure Overflows (P Q : HttpParser) : Prop where
  errno : Q.httpErrno = .headerOverflow
  state : Q.state = P.state
  upgrade : Q.upgrade = P.upgrade

theorem endBuffer_of_cutMove_none {s : Scan} (hRun : s.stopped = none) (h : cutMove s.parser s.ctl = none) :
    ∃ Q, Overflows s.parser Q ∧ s.endBuffer = { s with parser := Q, stopped := some s.p } := by
  obtain ⟨P, p, marks, calls, ctl, stopped⟩ := s
  obtain rfl : stopped = none := hRun
  cases ctl with
  | outer => cases h
  | field n =>
    exact ⟨setErrno (addNread P n) .headerOverflow, ⟨rfl, rfl, rfl⟩,
      countHeaderSize_of_counted_none (s := ⟨P, p, marks, calls, .field n, none⟩) h flush⟩
  | value n g jump =>
    exact ⟨setErrno (addNread { P with headerState := g } n) .headerOverflow, ⟨rfl, rfl, rfl⟩,
      countHeaderSize_of_counted_none (s := ⟨P, p, marks, calls, .value n g jump, none⟩) h flush⟩

end Scan

/-! ### One call of `http_parser_execute` -/

theorem execute_of_buffer {P : HttpParser} {b : Bytes} {s : Scan} (hErrno : P.httpErrno = .ok) (hb : b ≠ [])
    (h : (Scan.start P).buffer b = some s) : httpParserExecute P b = (s.parser, s.calls, b.length) := by
  obtain ⟨u, hRun, hCut⟩ := Scan.buffer_eq_some.mp h
  obtain ⟨Q, hQ, rfl⟩ := Option.map_eq_some_iff.mp hCut
  obtain ⟨hEq, hStopped, hp⟩ := Scan.run_of_next rfl hRun
  have hFlush := flush_p { u with parser := Q }
  have hParser : (Scan.flush { u with parser := Q }).parser = Q := (Scan.acts_frame 0 _ leftover).1
  rw [httpParserExecute_eq hErrno hb, hEq, Scan.endBuffer_of_cutMove hStopped hQ, Scan.result, hParser, hFlush.2,
    hFlush.1]
  have hEnd : u.stopped.getD u.p = b.length := by
    rw [hStopped, hp]
    exact Nat.zero_add _
  rw [hEnd]
  rfl

theorem execute_of_overflow {P : HttpParser} {b : Bytes} {s : Scan} (hErrno : P.httpErrno = .ok) (hb : b ≠ [])
    (hRun : PartialRun.run Scan.next (Scan.start P) b = some s) (hCut : s.cut = none) :
    ∃ Q, Scan.Overflows s.parser Q ∧ httpParserExecute P b = (Q, s.calls, b.length) := by
  obtain ⟨hEq, hStopped, hp⟩ := Scan.run_of_next rfl hRun
  obtain ⟨Q, hQ, hEnd⟩ := Scan.endBuffer_of_cutMove_none hStopped (Option.map_eq_none_iff.mp hCut)
  refine ⟨Q, hQ, ?_⟩
  rw [httpParserExecute_eq hErrno hb, hEq, hEnd, Scan.result]
  simp [hp, Scan.start]

/-- A buffer with a byte that is not accepted is not parsed to its end, or the connection is upgraded. -/
theorem execute_of_none {P : HttpParser} {b : Bytes} (hErrno : P.httpErrno = .ok) (hb : b ≠ [])
    (h : PartialRun.run Scan.next (Scan.start P) b = none) :
    (httpParserExecute P b).2.2 ≠ b.length ∨ (httpParserExecute P b).1.upgrade = true := by
  obtain ⟨n, hStopped, hn⟩ := Scan.run_of_next_none rfl h
  have hResult := Scan.result_stopped hStopped []
  rw [show ((Scan.start P).run b).run [] = (Scan.start P).run b from rfl] at hResult
  rw [httpParserExecute_eq hErrno hb, hResult]
  refine hn.imp (fun hLt => ?_) id
  have hZero : (Scan.start P).p = 0 := rfl
  show n ≠ b.length
  omega

/-! ### Calls of earlier buffers -/

def Scan.after (calls : List Callback) (s : Scan) : Scan := { s with calls := calls ++ s.calls }

namespace Scan

theorem act_after (calls : List Callback) (ch : UInt8) (s : Scan) (a : Act) :
    (s.after calls).act ch a = (s.act ch a).after calls := by
  cases a with
  | mark k | advance n => rfl
  | notify k => simp [act, after]
  | data k | dataThrough k =>
    simp only [act, callbackData, after]
    cases s.marks k <;> simp

theorem acts_after (calls : List Callback) (ch : UInt8) (s : Scan) (acts : List Act) :
    acts.foldl (act ch) (s.after calls) = (acts.foldl (act ch) s).after calls := by
  induction acts generalizing s with
  | nil => rfl
  | cons a acts ih => rw [List.foldl_cons, act_after, ih, List.foldl_cons]

theorem take_after (calls : List Callback) (s : Scan) (ch : UInt8) (v : Move) :
    (s.after calls).take ch v = (s.take ch v).after calls :=
  congrArg (consume · ch) (acts_after calls ch { s with parser := v.parser, ctl := v.ctl } v.acts)

theorem run_after (calls : List Callback) (s : Scan) (b : Bytes) :
    PartialRun.run next (s.after calls) b = (PartialRun.run next s b).map (after calls) := by
  induction b generalizing s with
  | nil => rfl
  | cons ch b ih =>
    have hNext : (s.after calls).next ch = (s.next ch).map (after calls) := by
      simp only [next, Option.map_map]
      exact congrArg (fun f => Option.map f (move s.parser s.ctl ch)) (funext fun v => take_after calls s ch v)
    rw [PartialRun.run_cons, PartialRun.run_cons, hNext]
    cases s.next ch with
    | none => rfl
    | some t => exact ih t

theorem buffer_after (calls : List Callback) (s : Scan) (b : Bytes) :
    (s.after calls).buffer b = (s.buffer b).map (after calls) := by
  have hCut (t : Scan) : (t.after calls).cut = t.cut.map (after calls) := by
    simp only [cut, Option.map_map]
    refine congrArg (fun f => Option.map f (cutMove t.parser t.ctl)) (funext fun Q => ?_)
    have hFlush : flush { t.after calls with parser := Q } = (flush { t with parser := Q }).after calls :=
      acts_after calls 0 { t with parser := Q, ctl := .outer } leftover
    rw [hFlush]
    rfl
  simp only [buffer, run_after]
  cases PartialRun.run next s b with
  | none => rfl
  | some t => exact hCut t

def resume (P : HttpParser) (calls : List Callback) : Scan := { start P with calls }

theorem resume_eq (P : HttpParser) (calls : List Callback) : resume P calls = (start P).after calls := by
  simp [resume, after, start]

theorem resume_cut {s t : Scan} (h : s.cut = some t) : t = resume t.parser t.calls := by
  obtain ⟨Q, -, rfl⟩ := Option.map_eq_some_iff.mp h
  rfl

/-- A buffer accepted after earlier calls is accepted for itself, and adds its own calls to them. -/
theorem buffer_resume {P : HttpParser} {calls : List Callback} {b : Bytes} {t : Scan}
    (h : (resume P calls).buffer b = some t) :
    ∃ s, (start P).buffer b = some s ∧ t.parser = s.parser ∧ t.calls = calls ++ s.calls := by
  rw [resume_eq, buffer_after] at h
  obtain ⟨s, hs, rfl⟩ := Option.map_eq_some_iff.mp h
  exact ⟨s, hs, rfl, rfl⟩

end Scan

/-! ### Following a reader -/

theorem Live.act_congr {P Q : HttpParser} (h : SameCalls P Q) (ch : UInt8) (l : Live) (a : Act) :
    l.act P ch a = l.act Q ch a := by
  cases a <;> simp [Live.act, h.data, h.notify]

theorem Live.consume_congr {P Q : HttpParser} (h : SameCalls P Q) (ch : UInt8) (l : Live) :
    l.consume P ch = l.consume Q ch := by
  unfold Live.consume
  cases l.mark <;> simp [h.data]

theorem Move.Follows.spell {v w : Move} {limit : ℕ} (h : v.Follows w limit) {P Q : HttpParser}
    (hState : P.state = Q.state) (ch : UInt8) (m : Message) : v.spell P ch m = w.spell Q ch m := by
  have hSame : SameCalls v.parser w.parser := by
    rw [← h.parser]
    cases v.ctl <;> exact ⟨rfl, rfl, rfl⟩
  have hAct : Live.act v.parser ch = Live.act w.parser ch :=
    funext fun l => funext fun a => Live.act_congr hSame ch l a
  simp only [Move.spell, h.acts, hState, hAct, Live.consume_congr hSame]

theorem Move.Follows.loses {v w : Move} {limit : ℕ} (h : v.Follows w limit) {P Q : HttpParser}
    (hState : P.state = Q.state) (ch : UInt8) (m : Message) : v.Loses P ch m ↔ w.Loses Q ch m := by
  have hSame : SameCalls v.parser w.parser := by
    rw [← h.parser]
    cases v.ctl <;> exact ⟨rfl, rfl, rfl⟩
  have hLose (l : Live) (acts : List Act) : ActsLose v.parser ch l acts ↔ ActsLose w.parser ch l acts := by
    induction acts generalizing l with
    | nil => exact Iff.rfl
    | cons a acts ih => rw [ActsLose, ActsLose, ih, Live.act_congr hSame]
  rw [Move.Loses, Move.Loses, h.acts, hState, hLose]

structure Scan.Reads (s : Scan) (r : Reader) : Prop where
  between : s.Between r.message
  errno : s.parser.httpErrno = .ok
  parser : r.parser = s.ctl.plain s.parser
  count : s.parser.nread + s.ctl.pending ≤ 2 * r.fed
  loop : s.ctl ≠ .outer → 2 * r.fed ≤ httpMaxHeaderSize

theorem Ctl.plain_state (c : Ctl) (P : HttpParser) : (c.plain P).state = P.state := by
  cases c <;> rfl

theorem Ctl.plain_upgrade (c : Ctl) (P : HttpParser) : (c.plain P).upgrade = P.upgrade := by
  cases c <;> rfl

theorem move_outer {P : HttpParser} {c : Ctl} {ch : UInt8} {v : Move} (hFits : c.Fits P)
    (hHeader : parsingHeader P.state = false) (h : move P c ch = some v) : v.ctl = .outer := by
  cases c with
  | field n => rw [show P.state = .sHeaderField from hFits] at hHeader; cases hHeader
  | value n g jump => rw [hFits.1] at hHeader; cases hHeader
  | outer =>
    have hMove : switchMove P ch = some v := by simpa only [move, hHeader, Bool.false_eq_true, if_false] using h
    unfold switchMove at hMove
    split at hMove
    · rename_i hs
      rw [hs] at hHeader
      cases hHeader
    · rename_i hs
      rw [hs] at hHeader
      cases hHeader
    · rw [(Outcome.move_eq_some hMove).2]

theorem Scan.Reads.next {s : Scan} {r r' : Reader} {ch : UInt8} (h : s.Reads r) (hClean : r.Clean ch)
    (hStep : r.step ch = some r') : ∃ t, s.next ch = some t ∧ t.Reads r' := by
  obtain ⟨w, hw, rfl⟩ := Option.map_eq_some_iff.mp hStep
  obtain ⟨v, hMove, hFollows⟩ :=
    move_follows h.between.fits h.errno h.parser h.count hClean hw
  have hState : s.parser.state = r.parser.state := by rw [h.parser, Ctl.plain_state]
  refine ⟨s.take ch v, Scan.next_eq_some.mpr ⟨v, hMove, rfl⟩, ?_, ?_, ?_, ?_, ?_⟩
  · rw [← hFollows.spell hState]
    exact h.between.take hMove
  · rw [Scan.parser_of_take]
    exact hFollows.errno
  · rw [Scan.parser_of_take, Scan.take_ctl]
    exact hFollows.parser.symm
  · rw [Scan.parser_of_take, Scan.take_ctl]
    exact hFollows.count
  · intro hLoop
    rw [Scan.take_ctl] at hLoop
    refine hClean.1 ?_
    by_contra hHeader
    refine hLoop (move_outer h.between.fits ?_ hMove)
    rw [hState]
    simpa using hHeader

theorem Scan.Reads.cut {s : Scan} {r : Reader} (h : s.Reads r) :
    ∃ t, s.cut = some t ∧ t.Reads r ∧ r.message = Message.spell {} t.calls := by
  have hCount := h.count
  have hPlain := h.parser
  obtain ⟨Q, hQ, hCtl, hNread⟩ : ∃ Q, cutMove s.parser s.ctl = some Q ∧ r.parser = Q.plain ∧ Q.nread ≤ 2 * r.fed := by
    cases hc : s.ctl with
    | outer =>
      rw [hc] at hCount hPlain
      exact ⟨s.parser, rfl, hPlain, hCount⟩
    | field n =>
      have hLoop := h.loop (by rw [hc]; simp)
      rw [hc] at hCount hPlain
      simp only [Ctl.pending] at hCount
      obtain ⟨hCounted, hNread⟩ := counted_of_le (P := s.parser) (v := n) (by omega)
      exact ⟨_, hCounted, hPlain, by omega⟩
    | value n g jump =>
      have hLoop := h.loop (by rw [hc]; simp)
      rw [hc] at hCount hPlain
      simp only [Ctl.pending] at hCount
      have hSame : ({ s.parser with headerState := g } : HttpParser).nread = s.parser.nread := rfl
      obtain ⟨hCounted, hNread⟩ := counted_of_le (P := { s.parser with headerState := g }) (v := n) (by omega)
      exact ⟨_, hCounted, hPlain, by omega⟩
  have hCut : s.cut = some { Scan.start Q with calls := (Scan.flush { s with parser := Q }).calls } :=
    congrArg (Option.map _) hQ
  obtain ⟨hBetween, hSpelled⟩ := h.between.cut hCut
  refine ⟨_, hCut, ⟨hBetween, ?_, hCtl, hNread, fun hLoop => absurd rfl hLoop⟩, hSpelled⟩
  exact (cutMove_eq_some hQ).2.2.1.trans h.errno

end HttpUtils
