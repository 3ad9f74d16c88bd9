import HttpUtils.HttpParser.NextMessage
import HttpUtils.HeaderDivision

/-!
# The method of a request

`http_parser` keeps the method in a field of its own, and no callback of `http_request_parser` reads it. So
`m_req.method` stays as it was made, while an accepted request has a method.
-/

namespace HttpUtils
set_option autoImplicit false

/-- The method token of a request line, which line ends may precede. -/
def methodToken (m : Bytes) : Bytes := (m.dropWhile fun c => c = CR ∨ c = LF).takeWhile (· ≠ SP)

theorem methodToken_ne_nil {blank v : Bytes} {c : UInt8} (hBlank : ∀ d ∈ blank, d = CR ∨ d = LF)
    (hAlpha : isAlpha c = true) :
    methodToken (blank ++ c :: v) ≠ [] := by
  have hDrop : (blank ++ c :: v).dropWhile (fun d => d = CR ∨ d = LF) = c :: v := by
    rw [List.dropWhile_append_of_pos fun d hd => by simpa using hBlank d hd, List.dropWhile_cons_of_neg]
    rintro hLine
    have hEnd : c = CR ∨ c = LF := by simpa using hLine
    rcases hEnd with rfl | rfl <;> exact absurd hAlpha (by decide)
  rw [methodToken, hDrop, List.takeWhile_cons_of_pos]
  · exact List.cons_ne_nil _ _
  · rw [decide_eq_true_eq]
    rintro rfl
    exact absurd hAlpha (by decide)

theorem startReqCase_alpha {P : HttpParser} {ch : UInt8} {w : Move} (h : (startReqCase P ch).move = some w)
    (hBlank : ¬ (ch = CR ∨ ch = LF)) : isAlpha ch = true := by
  unfold startReqCase at h
  rw [if_neg hBlank] at h
  dsimp only at h
  split at h
  · cases h
  · rename_i hAlpha
    simpa using hAlpha

namespace Scan

/-- What a scan that waits for a request reads: line ends only, or a letter behind them. -/
theorem Waiting.lead {s e : Scan} {b : Bytes} (h : s.Waiting .start) (hRun : PartialRun.run Scan.next s b = some e) :
    ((∀ c ∈ b, c = CR ∨ c = LF) ∧ e.Waiting .start ∧ ∃ n, e.calls = s.calls ++ List.replicate n .onMessageBegin) ∨
      ∃ blank c v, b = blank ++ c :: v ∧ (∀ d ∈ blank, d = CR ∨ d = LF) ∧ isAlpha c = true := by
  induction b generalizing s with
  | nil =>
    obtain rfl := Option.some.inj hRun
    exact .inl ⟨by simp, h, 0, by simp⟩
  | cons ch b ih =>
    obtain ⟨q, hNext, hRest⟩ := PartialRun.run_cons_eq_some.mp hRun
    have hState : s.parser.state = .sStartReq := by
      rcases Prelude.of_eq_some h.prelude with ⟨-, hq⟩ | ⟨hs, -⟩ | ⟨-, hq⟩ | ⟨-, hq⟩
      · cases hq
      · exact hs
      · cases hq
      · cases hq
    obtain ⟨w, hMove, -⟩ := next_eq_some.mp hNext
    rw [h.ctl, move_of_prelude h.prelude h.sound.nread] at hMove
    split at hMove
    · rename_i hLt
      by_cases hBlank : ch = CR ∨ ch = LF
      · have hStep : Prelude.start.step ch = some .start := if_pos hBlank
        obtain ⟨p, hNext', hWaiting, -, n, hCalls⟩ := h.next hLt hStep
        obtain rfl := Option.some.inj (hNext.symm.trans hNext')
        rcases ih hWaiting hRest with ⟨hBlanks, hEnd, k, hMore⟩ | ⟨blank, c, v, rfl, hBlanks, hAlpha⟩
        · refine .inl ⟨?_, hEnd, n + k, ?_⟩
          · intro d hd
            rcases List.mem_cons.mp hd with rfl | hd
            · exact hBlank
            · exact hBlanks d hd
          · rw [hMore, hCalls, List.append_assoc, List.replicate_append_replicate]
        · refine .inr ⟨ch :: blank, c, v, rfl, ?_, hAlpha⟩
          intro d hd
          rcases List.mem_cons.mp hd with rfl | hd
          · exact hBlank
          · exact hBlanks d hd
      · refine .inr ⟨[], ch, b, rfl, by simp, ?_⟩
        simp only [switch, hState] at hMove
        exact startReqCase_alpha hMove hBlank
    · cases hMove

end Scan

namespace HttpRequestParser

open MessageParser

theorem foldl_method (t : HttpRequestParser) (calls : List Callback) :
    (calls.foldl callback t).mReq.method = t.mReq.method := by
  induction calls generalizing t with
  | nil => rfl
  | cons c calls ih =>
    rw [List.foldl_cons, ih]
    cases c <;> rfl

theorem method_parseAll (t : HttpRequestParser) (bs : List Bytes) :
    (t.parseAll bs).2.mReq.method = t.mReq.method := by
  induction bs generalizing t with
  | nil => rfl
  | cons b bs ih =>
    have hParse : (t.parse b).2.mReq.method = t.mReq.method := by
      rw [parse_eq]
      exact foldl_method _ _
    exact (ih _).trans hParse

structure Blank (t : HttpRequestParser) (calls : List Callback) : Prop where
  holds : requestMessages.Holds t calls
  prelude : Prelude.of t.mParser = some .start
  message : (Message.spell {} calls).complete = false

theorem Blank.waiting {t : HttpRequestParser} {calls : List Callback} (h : t.Blank calls) :
    (Scan.resume t.mParser calls).Waiting .start := ⟨h.holds.sound, rfl, h.prelude⟩

theorem complete_replicate (m : Message) (n : ℕ) :
    (m.spell (List.replicate n .onMessageBegin)).complete = m.complete := by
  induction n generalizing m with
  | zero => rfl
  | succ n ih => exact ih _

theorem Blank.parse {t : HttpRequestParser} {calls : List Callback} {b : Bytes} (h : t.Blank calls)
    (hGoes : (t.parse b).1 ≠ .bad) :
    ((t.parse b).1 = .indeterminate ∧ (∀ c ∈ b, c = CR ∨ c = LF) ∧ ∃ calls', (t.parse b).2.Blank calls') ∨
      ∃ blank c v, b = blank ++ c :: v ∧ (∀ d ∈ blank, d = CR ∨ d = LF) ∧ isAlpha c = true := by
  by_cases hb : b = []
  · subst hb
    left
    have hState : t.mParser.state = .sStartReq := by
      rcases Prelude.of_eq_some h.prelude with ⟨-, hq⟩ | ⟨hs, -⟩ | ⟨-, hq⟩ | ⟨-, hq⟩
      · cases hq
      · exact hs
      · cases hq
      · cases hq
    have hExecute : httpParserExecute t.mParser [] = (t.mParser, [], 0) := by
      simp [httpParserExecute, executeEof, hState]
    have hParse : t.parse [] = (judge (t.mParser, [], 0) 0 t.mReqComplete, t) := by
      rw [parse_eq, hExecute]
      rfl
    have hOpen : t.mReqComplete = false := h.holds.shows'.complete.trans h.message
    have hUpgrade : t.mParser.upgrade = false := h.waiting.upgrade
    rw [hParse]
    refine ⟨?_, by simp, calls, h⟩
    simp [judge, hUpgrade, hOpen]
  · cases hRun : PartialRun.run Scan.next (Scan.resume t.mParser calls) b with
    | none => exact absurd (h.holds.parse_none hb hRun) hGoes
    | some e =>
      refine (h.waiting.lead hRun).imp ?_ id
      rintro ⟨hBlank, hEnd, n, hCalls⟩
      obtain ⟨u, hCut, hParser, hSame⟩ := hEnd.cut
      obtain ⟨hReads, hParser', hAll, hHolds⟩ := h.holds.parse_cut hb hRun hCut
      have hOpen : (Message.spell {} u.calls).complete = false := by
        have hSpelled : Message.spell {} e.calls = (Message.spell {} calls).spell
            (List.replicate n .onMessageBegin) := by
          rw [hCalls, Message.spell_append]
          rfl
        rw [hSame, hSpelled, complete_replicate]
        exact h.message
      have hPrelude : Prelude.of (t.parse b).2.mParser = some .start := by
        rw [show (t.parse b).2.mParser = e.parser from hParser'.trans hParser]
        exact hEnd.prelude
      refine ⟨?_, hBlank, u.calls, hHolds, hPrelude, hOpen⟩
      have hMessage : e.message.complete = false := by
        rw [(hEnd.sound.cut hCut).2.2.1]
        exact hOpen
      refine hReads.result.trans ?_
      rw [hEnd.upgrade, hMessage]
      rfl

theorem Blank.methodToken_ne_nil {t : HttpRequestParser} {calls : List Callback} {bs : List Bytes} (h : t.Blank calls)
    (hGood : (t.parseAll bs).1 = List.replicate (bs.length - 1) .indeterminate ++ [.good]) :
    methodToken bs.flatten ≠ [] := by
  have hLead (bs : List Bytes) {t : HttpRequestParser} {calls : List Callback} (h : t.Blank calls)
      (hGood : (t.parseAll bs).1 = List.replicate (bs.length - 1) .indeterminate ++ [.good]) :
      ∃ blank c v, bs.flatten = blank ++ c :: v ∧ (∀ d ∈ blank, d = CR ∨ d = LF) ∧ isAlpha c = true := by
    induction bs generalizing t calls with
    | nil => cases hGood
    | cons b bs ih =>
      have hGoes : (t.parse b).1 ≠ .bad := by
        intro hBad
        have hFirst := congrArg List.head? hGood
        rw [HttpRequestParser.parseAll] at hFirst
        cases bs with
        | nil => simp [hBad] at hFirst
        | cons c bs => simp [hBad, List.replicate_succ] at hFirst
      rcases h.parse hGoes with ⟨hHere, hBlanks, calls', hNext⟩ | ⟨blank, c, v, rfl, hBlanks, hAlpha⟩
      · cases bs with
        | nil =>
          rw [HttpRequestParser.parseAll] at hGood
          simp [hHere] at hGood
        | cons c bs =>
          have hRest : ((t.parse b).2.parseAll (c :: bs)).1 =
              List.replicate ((c :: bs).length - 1) .indeterminate ++ [.good] :=
            (accepted_cons.mp hGood).2
          obtain ⟨blank, d, v, hSplit, hBlanks', hAlpha⟩ := ih hNext hRest
          refine ⟨b ++ blank, d, v, ?_, ?_, hAlpha⟩
          · rw [List.flatten_cons, hSplit, List.append_assoc]
          · intro x hx
            exact (List.mem_append.mp hx).elim (hBlanks x) (hBlanks' x)
      · exact ⟨blank, c, v ++ bs.flatten, by simp, hBlanks, hAlpha⟩
  obtain ⟨blank, c, v, hSplit, hBlank, hAlpha⟩ := hLead bs h hGood
  rw [hSplit]
  exact HttpUtils.methodToken_ne_nil hBlank hAlpha

end HttpRequestParser

open HttpRequestParser

/-- Whatever the division, the request that `parse` accepts does not have the method of its request line. -/
theorem method_not_delivered (major minor : Int) (bs : List Bytes)
    (hGood : ((httpRequestParser major minor).parseAll bs).1 = List.replicate (bs.length - 1) .indeterminate ++
    [.good]) :
    ((httpRequestParser major minor).parseAll bs).2.moveReq.1.method ≠ methodToken bs.flatten := by
  have hBlank : (httpRequestParser major minor).Blank [] := ⟨holds_httpRequestParser major minor, rfl, rfl⟩
  intro hSame
  apply hBlank.methodToken_ne_nil hGood
  rw [← hSame]
  exact method_parseAll _ _

theorem get_not_delivered :
    ((httpRequestParser 1 1).parseAll [ascii "GE", ascii "T / HTTP/1.1\r\n\r\n"]).2.moveReq.1.method ≠
      methodToken [ascii "GE", ascii "T / HTTP/1.1\r\n\r\n"].flatten :=
  method_not_delivered 1 1 _ (by decide +kernel)

/-- Two requests that differ in their methods are accepted as the same request. -/
theorem get_put_same :
    ((httpRequestParser 1 1).parse (ascii "GET / HTTP/1.1\r\n\r\n")).1 = .good ∧
      ((httpRequestParser 1 1).parse (ascii "PUT / HTTP/1.1\r\n\r\n")).1 = .good ∧
      ((httpRequestParser 1 1).parse (ascii "GET / HTTP/1.1\r\n\r\n")).2.moveReq.1 =
        ((httpRequestParser 1 1).parse (ascii "PUT / HTTP/1.1\r\n\r\n")).2.moveReq.1 ∧
      ((httpRequestParser 1 1).parse (ascii "GET / HTTP/1.1\r\n\r\n")).2.moveReq.1.method = [] :=
  ⟨by decide +kernel, by decide +kernel, by decide +kernel, by decide +kernel⟩

end HttpUtils
