import HttpUtils.Pipelining
import HttpUtils.HttpParser.StatusText

/-!
# The status code that is delivered

`m_reply.status_code` is written by `on_status_cb` alone, and the parser calls it for the bytes of a reason phrase.
Behind a response without one the field holds what it held before.
-/

namespace HttpUtils
set_option autoImplicit false

/-! ### Runs of a scan -/

namespace Scan

theorem Sound.line_next {s t : Scan} {w : Bytes} {ch : UInt8} (h : s.Sound) (hOpen : s.message.complete = false)
    (hLine : LineAt w s.parser s.message) (hNext : s.next ch = some t) :
    t.message.complete = false ∧ LineAt (w ++ [ch]) t.parser t.message ∨
      t.message.complete = true ∧ t.ctl = .outer ∧ Told (w ++ [ch]) t.message := by
  have hEnds := (h.next hNext).ends hOpen
  obtain ⟨v, hMove, rfl⟩ := next_eq_some.mp hNext
  have hMessage := (h.between.take hMove).message_eq
  have hComplete := Move.spell_complete s.parser ch v s.message
  rw [hOpen] at hComplete
  rw [← hMessage, parser_of_take]
  rw [← hMessage] at hEnds
  rcases move_line h.between.fits hLine hMove with ⟨hNot, hLine'⟩ | ⟨hMem, hTold⟩
  · refine .inl ⟨?_, hLine'⟩
    by_contra hDone
    exact (hComplete.mp (by simpa using hDone)).elim nofun hNot
  · have hDone := hComplete.mpr (.inr hMem)
    exact .inr ⟨hDone, (hEnds hDone).2.2, hTold⟩

theorem Sound.line_run {s t : Scan} {w b : Bytes} (h : s.Sound) (hLine : LineAt w s.parser s.message)
    (hRun : PartialRun.run Scan.next s b = some t)
    (hEarly : ∀ u v q, b = u ++ v → v ≠ [] → PartialRun.run Scan.next s u = some q → q.message.complete = false) :
    LineAt (w ++ b) t.parser t.message ∧ t.message.complete = s.message.complete ∨
      t.message.complete = true ∧ t.ctl = .outer ∧ Told (w ++ b) t.message := by
  induction b generalizing s w with
  | nil =>
    obtain rfl := Option.some.inj hRun
    rw [List.append_nil]
    exact .inl ⟨hLine, rfl⟩
  | cons ch b ih =>
    obtain ⟨q, hNext, hRest⟩ := PartialRun.run_cons_eq_some.mp hRun
    have hOpen := hEarly [] (ch :: b) s rfl (by simp) rfl
    have hBytes : w ++ ch :: b = (w ++ [ch]) ++ b := by simp
    rw [hBytes, hOpen]
    rcases h.line_next hOpen hLine hNext with ⟨hStill, hLine'⟩ | ⟨hDone, hCtl, hTold⟩
    · have hTail := ih (h.next hNext).sound hLine' hRest fun u v p hSplit hv hp =>
        hEarly (ch :: u) v p (by rw [hSplit]; rfl) hv ((PartialRun.run_cons_of_step hNext u).trans hp)
      rwa [hStill] at hTail
    · -- nothing follows the byte that completes the message
      obtain rfl : b = [] := by
        by_contra hSome
        have hNot := hEarly [ch] b q rfl hSome ((PartialRun.run_singleton s ch).trans hNext)
        rw [hDone] at hNot
        cases hNot
      obtain rfl := Option.some.inj hRest
      rw [List.append_nil]
      exact .inr ⟨hDone, hCtl, hTold⟩

end Scan

/-! ### The reply -/

namespace HttpReplyParser

theorem statusCode_foldl {t : HttpReplyParser} {m : Message} {statusCode : ℕ}
    (h : t.mReply.statusCode = m.status.getD statusCode) (calls : List Callback) :
    (calls.foldl callback t).mReply.statusCode = (m.spell calls).status.getD statusCode := by
  induction calls generalizing t m with
  | nil => exact h
  | cons c calls ih =>
    apply ih
    cases c with
    | onStatus run code => rfl
    | onHeaderField run =>
      simp only [Message.see]
      split <;> exact h
    | _ => exact h

theorem statusCode_parse {t : HttpReplyParser} {m : Message} {statusCode : ℕ}
    (h : t.mReply.statusCode = m.status.getD statusCode) (b : Bytes) :
    (t.parse b).2.mReply.statusCode = (m.spell (httpParserExecute t.mParser b).2.1).status.getD statusCode := by
  rw [parse_eq]
  exact statusCode_foldl (t := { t with mParser := (httpParserExecute t.mParser b).1 }) h _

/-- The buffers hold one response: it is not complete before the last byte of all. An empty buffer stands for the end
of the connection. -/
def HoldsOne (t : HttpReplyParser) (bs : List Bytes) : Prop :=
  ∀ us u v vs, bs = us ++ (u ++ v) :: vs → (u = [] → v = []) → v ++ vs.flatten ≠ [] →
    (t.parseAll (us ++ [u])).2.mReplyComplete = false

theorem HoldsOne.tail {t : HttpReplyParser} {b : Bytes} {bs : List Bytes} (h : t.HoldsOne (b :: bs)) :
    HoldsOne (t.parse b).2 bs := by
  intro us u v vs hSplit hu hv
  exact h (b :: us) u v vs (by rw [hSplit]; rfl) hu hv

theorem HoldsOne.head {t : HttpReplyParser} {u v : Bytes} {bs : List Bytes} (h : t.HoldsOne ((u ++ v) :: bs))
    (hu : u = [] → v = []) (hv : v ++ bs.flatten ≠ []) : (t.parse u).2.mReplyComplete = false :=
  h [] u v bs rfl hu hv

theorem execute_nil (P : HttpParser) :
    httpParserExecute P [] = if P.httpErrno ≠ .ok then (P, [], 0) else executeEof P := by
  rw [httpParserExecute]
  simp only [if_true]

theorem statusCode_parse_nil (t : HttpReplyParser) : (t.parse []).2.mReply.statusCode = t.mReply.statusCode := by
  have hCalls : (httpParserExecute t.mParser []).2.1 = [] ∨
      (httpParserExecute t.mParser []).2.1 = [.onMessageComplete] := by
    rw [execute_nil]
    unfold executeEof
    repeat' split
    all_goals first | exact .inl rfl | exact .inr rfl
  rw [parse_eq]
  dsimp only
  unfold take
  rcases hCalls with hCalls | hCalls <;> rw [hCalls] <;> rfl

theorem statusCode_parseAll_nil {t : HttpReplyParser} {bs : List Bytes} (h : bs.flatten = []) :
    (t.parseAll bs).2.mReply.statusCode = t.mReply.statusCode := by
  induction bs generalizing t with
  | nil => rfl
  | cons b bs ih =>
    obtain ⟨rfl, hRest⟩ := List.append_eq_nil_iff.mp h
    exact (ih hRest).trans t.statusCode_parse_nil

end HttpReplyParser

open MessageParser

theorem complete_parse {t : HttpReplyParser} {calls : List Callback} {b : Bytes} {s : Scan}
    (h : replyMessages.Holds t calls) (hb : b ≠ [])
    (hRun : PartialRun.run Scan.next (Scan.resume t.mParser calls) b = some s) :
    (t.parse b).2.mReplyComplete = s.message.complete := by
  have hShows := (replyMessages.shows_parse b h.shows').complete
  rw [← Message.spell_append] at hShows
  refine Eq.trans hShows ?_
  cases hCut : s.cut with
  | some u =>
    obtain ⟨-, -, hCalls, -⟩ := h.parse_cut hb hRun hCut
    rw [((h.sound.run hRun).cut hCut).2.2.1, hCalls]
  | none =>
    rw [← (h.sound.run hRun).between.complete_calls, (h.parse_overflow hb hRun hCut).2.2]

theorem getLast?_cons_good {r : ResultType} {rs : List ResultType} :
    (r :: rs).getLast? = some .good ↔ rs.getLast? = some .good ∨ rs = [] ∧ r = .good := by
  cases rs with
  | nil => simp
  | cons x rs => simp [List.getLast?_cons_cons]

theorem not_good_after_error {t : HttpReplyParser} {m : Message} (hErrno : t.mParser.httpErrno ≠ .ok)
    (hShows : t.Shows m)
    (hOpen : m.complete = false) {bs : List Bytes} (hUnrefused : replyMessages.Unrefused t bs) :
    (replyMessages.parseAll t bs).1.getLast? ≠ some .good := by
  induction bs with
  | nil => simp [parseAll]
  | cons b bs ih =>
    obtain ⟨hHere, hRest⟩ := unrefused_cons.mp hUnrefused
    by_cases hb : b = []
    · subst hb
      have hExecute : httpParserExecute t.mParser [] = (t.mParser, [], 0) := by
        rw [HttpReplyParser.execute_nil, if_pos hErrno]
      have hParse : replyMessages.parse t [] = (judge (t.mParser, [], 0) 0 t.mReplyComplete, t) := by
        rw [replyMessages_parse, HttpReplyParser.parse_eq, hExecute]
        rfl
      rw [hParse] at hRest
      rw [parseAll, hParse, Ne, getLast?_cons_good]
      rintro (hGood | ⟨-, hGood⟩)
      · exact ih hRest hGood
      · rw [hShows.complete, hOpen, judge] at hGood
        simp only [ne_eq, not_true_eq_false, if_false, Bool.false_eq_true] at hGood
        split at hGood <;> cases hGood
    · exact absurd (parse_after_error (M := replyMessages) hErrno hb hShows) hHere

structure Awaits (t : HttpReplyParser) (calls : List Callback) (w : Bytes) (statusCode : ℕ) : Prop where
  holds : replyMessages.Holds t calls
  line : LineAt w t.mParser (Message.spell {} calls)
  isOpen : (Message.spell {} calls).complete = false
  status : t.mReply.statusCode = (Message.spell {} calls).status.getD statusCode

def Delivers (t : HttpReplyParser) (w : Bytes) (statusCode : ℕ) : Prop :=
  ∃ m : Message, Told w m ∧ t.mReply.statusCode = m.status.getD statusCode

namespace Awaits

variable {t : HttpReplyParser} {calls : List Callback} {w b : Bytes} {statusCode : ℕ} {s : Scan}

theorem early (h : Awaits t calls w statusCode) {bs : List Bytes} (hOne : t.HoldsOne (b :: bs)) (u v : Bytes)
    (q : Scan)
    (hSplit : b = u ++ v) (hv : v ≠ []) (hq : PartialRun.run Scan.next (Scan.resume t.mParser calls) u = some q) :
    q.message.complete = false := by
  by_cases hu : u = []
  · subst hu
    obtain rfl := Option.some.inj hq
    exact (congrArg Message.complete h.holds.spelled).trans h.isOpen
  · rw [← complete_parse h.holds hu hq]
    rw [hSplit] at hOne
    exact hOne.head (fun hEq => absurd hEq hu) (by simp [hv])

theorem read (h : Awaits t calls w statusCode) (hb : b ≠ []) {bs : List Bytes} (hOne : t.HoldsOne (b :: bs))
    (hRun : PartialRun.run Scan.next (Scan.resume t.mParser calls) b = some s) :
    (∃ calls', Awaits (t.parse b).2 calls' (w ++ b) statusCode) ∨
      ((t.parse b).2.mParser.httpErrno ≠ .ok ∧ ∃ m : Message, (t.parse b).2.Shows m ∧ m.complete = false) ∨
      bs.flatten = [] ∧ Delivers (t.parse b).2 (w ++ b) statusCode := by
  have hStart : LineAt w (Scan.resume t.mParser calls).parser (Scan.resume t.mParser calls).message := by
    rw [show (Scan.resume t.mParser calls).message = Message.spell {} calls from h.holds.spelled]
    exact h.line
  have hStatus := HttpReplyParser.statusCode_parse h.status b
  rw [← Message.spell_append] at hStatus
  rcases h.holds.sound.line_run hStart hRun (h.early hOne) with ⟨hLine, hSame⟩ | ⟨hDone, hCtl, hTold⟩
  · have hSame : s.message.complete = false :=
      hSame.trans ((congrArg Message.complete h.holds.spelled).trans h.isOpen)
    cases hCut : s.cut with
    | some u =>
      left
      obtain ⟨-, hParser, hCalls, hHolds⟩ := h.holds.parse_cut hb hRun hCut
      have hSpelled := ((h.holds.sound.run hRun).cut hCut).2.2.1
      have hState : u.parser.state = s.parser.state ∧ u.parser.statusCode = s.parser.statusCode := by
        obtain ⟨Q, hQ, rfl⟩ := Option.map_eq_some_iff.mp hCut
        exact ⟨(cutMove_eq_some hQ).1, (cutMove_eq_some hQ).2.1⟩
      have hParser : (t.parse b).2.mParser = u.parser := hParser
      refine ⟨u.calls, hHolds, ?_, hSpelled ▸ hSame, hCalls ▸ hStatus⟩
      rw [hParser, ← hSpelled]
      simpa only [LineAt, hState.1, hState.2] using hLine
    | none =>
      right
      left
      obtain ⟨-, hErrno, hCalls⟩ := h.holds.parse_overflow hb hRun hCut
      have hErrno : (t.parse b).2.mParser.httpErrno = .headerOverflow := hErrno
      refine ⟨by simp [hErrno], _, replyMessages.shows_parse b h.holds.shows', ?_⟩
      rw [← Message.spell_append]
      have hOpen := (h.holds.sound.run hRun).between.complete_calls
      rw [hSame, hCalls] at hOpen
      exact hOpen
  · right
    right
    constructor
    · by_contra hMore
      have hOne' : t.HoldsOne ((b ++ []) :: bs) := by rwa [List.append_nil]
      have hNot := hOne'.head (fun hEq => absurd hEq hb) hMore
      rw [complete_parse h.holds hb hRun, hDone] at hNot
      cases hNot
    · obtain ⟨u, hCut, -⟩ := Scan.cut_outer hCtl
      obtain ⟨-, -, hCalls, -⟩ := h.holds.parse_cut hb hRun hCut
      have hSpelled := ((h.holds.sound.run hRun).cut hCut).2.2.1
      refine ⟨s.message, hTold, ?_⟩
      rw [hSpelled, hCalls]
      exact hStatus

end Awaits

/-! ### Every division -/

theorem parse_nil {t : HttpReplyParser} (hErrno : t.mParser.httpErrno = .ok) (hOpen : t.mReplyComplete = false) :
    (t.parse []).1 = .bad ∨ t.parse [] = (.indeterminate, t) ∨
      t.mParser.state = .sBodyIdentityEof ∧ (t.parse []).2.mReplyComplete = true := by
  have hExecute : httpParserExecute t.mParser [] = executeEof t.mParser := by
    rw [HttpReplyParser.execute_nil, if_neg (by simp [hErrno])]
  have hIdle (hEof : executeEof t.mParser = (t.mParser, [], 0)) :
      (t.parse []).1 = .bad ∨ t.parse [] = (.indeterminate, t) := by
    have hParse : t.parse [] = (judge (t.mParser, [], 0) 0 t.mReplyComplete, t) := by
      rw [HttpReplyParser.parse_eq, hExecute, hEof]
      rfl
    rw [hParse, hOpen, judge]
    cases t.mParser.upgrade
    · exact .inr rfl
    · exact .inl rfl
  cases hState : t.mParser.state with
  | sBodyIdentityEof =>
    right
    right
    constructor
    · rfl
    · rw [HttpReplyParser.parse_eq, hExecute, executeEof, hState]
      rfl
  | sDead => exact (hIdle (by rw [executeEof, hState])).imp_right .inl
  | sStartRes => exact (hIdle (by rw [executeEof, hState])).imp_right .inl
  | sStartReq => exact (hIdle (by rw [executeEof, hState])).imp_right .inl
  | _ =>
    left
    rw [HttpReplyParser.parse_eq, hExecute, executeEof, hState, judge]
    simp

theorem Awaits.delivers {t : HttpReplyParser} {calls : List Callback} {w : Bytes} {bs : List Bytes} {statusCode : ℕ}
    (h : Awaits t calls w statusCode) (hOne : t.HoldsOne bs) (hUnrefused : replyMessages.Unrefused t bs)
    (hGood : (replyMessages.parseAll t bs).1.getLast? = some .good) :
    Delivers (t.parseAll bs).2 (w ++ bs.flatten) statusCode := by
  induction bs generalizing t calls w with
  | nil => cases hGood
  | cons b bs ih =>
    obtain ⟨hHere, hRest⟩ := unrefused_cons.mp hUnrefused
    have hLast := getLast?_cons_good.mp hGood
    have hFirst : t.HoldsOne (([] ++ b) :: bs) := hOne
    rw [replyMessages_parse] at hHere hLast
    rw [HttpReplyParser.parseAll, List.flatten_cons]
    by_cases hb : b = []
    · subst hb
      have hOpen : t.mReplyComplete = false := h.holds.shows'.complete.trans h.isOpen
      rcases parse_nil h.holds.errno hOpen with hBad | hIdle | ⟨hState, hDone⟩
      · exact absurd hBad hHere
      · rw [hIdle] at hLast
        rw [replyMessages_parse, hIdle] at hRest
        obtain hGood' | ⟨-, hEq⟩ := hLast
        · have hTail := hOne.tail
          rw [hIdle] at hTail ⊢
          exact ih h hTail hRest hGood'
        · cases hEq
      · -- the end of the connection ends the body, so nothing may follow it
        have hEmpty : bs.flatten = [] := by
          by_contra hMore
          have hNot := hFirst.head (fun _ => rfl) hMore
          rw [hDone] at hNot
          cases hNot
        have hTold : Told w (Message.spell {} calls) := by
          have hLine := h.line
          rw [LineAt, hState] at hLine
          exact hLine
        refine ⟨Message.spell {} calls, by simpa [hEmpty] using hTold, ?_⟩
        dsimp only
        rw [HttpReplyParser.statusCode_parseAll_nil hEmpty, HttpReplyParser.statusCode_parse_nil]
        exact h.status
    · cases hRun : PartialRun.run Scan.next (Scan.resume t.mParser calls) b with
      | none => exact absurd (h.holds.parse_none hb hRun) hHere
      | some s =>
        rw [← List.append_assoc]
        rcases h.read hb hOne hRun with ⟨calls', hNext⟩ | ⟨hErrno, m, hShows, hOpen⟩ | ⟨hEmpty, m, hTold, hStatus⟩
        · obtain hGood' | ⟨-, hEq⟩ := hLast
          · exact ih hNext hOne.tail hRest hGood'
          · have hDone := complete_of_good hEq hNext.holds.shows'
            rw [hNext.isOpen] at hDone
            cases hDone
        · obtain hGood' | ⟨-, hEq⟩ := hLast
          · exact absurd hGood' (not_good_after_error hErrno hShows hOpen hRest)
          · have hDone := complete_of_good hEq hShows
            rw [hOpen] at hDone
            cases hDone
        · refine ⟨m, by simpa [hEmpty] using hTold, ?_⟩
          dsimp only
          rw [HttpReplyParser.statusCode_parseAll_nil hEmpty]
          exact hStatus

theorem awaits_fresh (statusCode : ℕ) : Awaits (httpReplyParser statusCode) [] [] statusCode where
  holds := holds_httpReplyParser statusCode
  line := ⟨by simp, rfl⟩
  isOpen := rfl
  status := rfl

/-- One response in any division into buffers: the code that is delivered is the code of the status line exactly when
there is a reason phrase, or the member that nothing has written happens to hold that code. -/
theorem delivered_status_iff (statusCode : ℕ) (bs : List Bytes) (hOne : (httpReplyParser statusCode).HoldsOne bs)
    (hUnrefused : .bad ∉ ((httpReplyParser statusCode).parseAll bs).1)
    (hGood : ((httpReplyParser statusCode).parseAll bs).1.getLast? = some .good) :
    ((httpReplyParser statusCode).parseAll bs).2.mReply.statusCode = wireStatus bs.flatten ↔
      wireReason bs.flatten ≠ [] ∨ statusCode = wireStatus bs.flatten := by
  rw [← replyMessages_parseAll] at hUnrefused hGood
  obtain ⟨m, hTold, hStatus⟩ := (awaits_fresh statusCode).delivers hOne hUnrefused hGood
  rw [hStatus, hTold.status]
  rw [List.nil_append]
  split
  · rename_i hNone
    simp [hNone]
  · rename_i hSome
    simp [hSome]

theorem HttpReplyParser.HoldsOne.cons {t : HttpReplyParser} {b : Bytes} {bs : List Bytes}
    (hHere : ∀ i ≤ b.length, (i = 0 → b = []) → (i = b.length → bs.flatten ≠ []) →
      (t.parse (b.take i)).2.mReplyComplete = false)
    (hRest : HoldsOne (t.parse b).2 bs) : t.HoldsOne (b :: bs) := by
  intro us u v vs hSplit hu hv
  cases us with
  | nil =>
    obtain ⟨rfl, rfl⟩ := List.cons_eq_cons.mp hSplit
    have hPrefix := hHere u.length (by simp)
      (fun hZero => by simp [List.length_eq_zero_iff.mp hZero, hu (List.length_eq_zero_iff.mp hZero)])
      (fun hAll => by
        obtain rfl : v = [] := by simpa using hAll
        exact hv)
    rwa [List.take_left] at hPrefix
  | cons c us =>
    obtain ⟨rfl, rfl⟩ := List.cons_eq_cons.mp hSplit
    exact hRest us u v vs rfl hu hv

theorem HttpReplyParser.HoldsOne.nil (t : HttpReplyParser) : t.HoldsOne [] := by
  intro us u v vs hSplit
  simp at hSplit

/-- A read ends inside the reason phrase. -/
theorem noContent_status :
    ((httpReplyParser 0).parseAll [ascii "HTTP/1.1  204 No",
      ascii " Content\nAge:1\r\n\r\n"]).2.mReply.statusCode = 204 :=
  ((delivered_status_iff 0 [ascii "HTTP/1.1  204 No", ascii " Content\nAge:1\r\n\r\n"]
    (.cons (by decide +kernel) (.cons (by decide +kernel) (.nil _))) (by decide +kernel) (by decide +kernel)).mpr
    (.inl (by decide +kernel))).trans (by decide +kernel)

/-- Without a reason phrase the code of the status line is not told. -/
theorem reasonless_status_lost :
    (httpReplyParser 0).HoldsOne [ascii "HTTP/1.1 404\r\nContent-Length: 0\r\n\r\n"] ∧
      ((httpReplyParser 0).parseAll [ascii "HTTP/1.1 404\r\nContent-Length: 0\r\n\r\n"]).1 = [.good] ∧
      wireStatus (ascii "HTTP/1.1 404\r\nContent-Length: 0\r\n\r\n") = 404 ∧
      ((httpReplyParser 0).parseAll [ascii "HTTP/1.1 404\r\nContent-Length: 0\r\n\r\n"]).2.mReply.statusCode = 0 :=
  ⟨.cons (by decide +kernel) (.nil _), by decide +kernel, by decide +kernel, by decide +kernel⟩

end HttpUtils
