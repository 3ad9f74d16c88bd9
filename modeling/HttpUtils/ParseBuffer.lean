import HttpUtils.HttpParser.Sound
import HttpUtils.ParseDivision

/-!
# `parse` on one buffer of any message

A buffer is read to its end, or up to a count that overflows behind its last byte, or not at all. The
object holds the parser and the calls of the buffers before in each case.
-/

namespace HttpUtils
set_option autoImplicit false

namespace Scan

theorem Between.complete_calls {s : Scan} {m : Message} (h : s.Between m) :
    (Message.spell {} s.calls).complete = m.complete := by
  obtain ⟨-, -, o, hSpells, -⟩ := h
  rw [hSpells.message]
  cases o with
  | none => rfl
  | some x => exact (Message.complete_see_data _ _ _ _).symm

theorem run_resume {P : HttpParser} {calls : List Callback} {b : Bytes} {s : Scan}
    (h : PartialRun.run next (resume P calls) b = some s) :
    ∃ u, PartialRun.run next (start P) b = some u ∧ s = u.after calls := by
  rw [resume_eq, run_after] at h
  obtain ⟨u, hu, rfl⟩ := Option.map_eq_some_iff.mp h
  exact ⟨u, hu, rfl⟩

end Scan

namespace MessageParser

variable {T : Type} (M : MessageParser T)

/-- Between two buffers: the object `t`, after the callbacks `calls`. -/
structure Holds (t : T) (calls : List Callback) : Prop where
  sound : (Scan.resume (M.parser t) calls).Sound
  spelled : (Scan.resume (M.parser t) calls).message = Message.spell {} calls
  shows' : M.Shows t (Message.spell {} calls)
  collected : M.headers t = calls.foldl headerCb []

structure ReadsTo (t : T) (calls : List Callback) (b : Bytes) (s : Scan) : Prop where
  result : (M.parse t b).1 = verdict s.parser.upgrade s.message.complete
  state : (M.parser (M.parse t b).2).state = s.parser.state
  collected : M.headers (M.parse t b).2 = (calls ++ (httpParserExecute (M.parser t) b).2.1).foldl headerCb []

theorem verdict_good {upgrade complete : Bool} :
    verdict upgrade complete = .good ↔ upgrade = false ∧ complete = true := by
  cases upgrade <;> cases complete <;> simp [verdict]

theorem verdict_indeterminate {upgrade complete : Bool} :
    verdict upgrade complete = .indeterminate ↔ upgrade = false ∧ complete = false := by
  cases upgrade <;> cases complete <;> simp [verdict]

variable {M}

theorem Holds.errno {t : T} {calls : List Callback} (h : M.Holds t calls) : (M.parser t).httpErrno = .ok :=
  h.sound.errno

theorem Holds.collect {t : T} {calls : List Callback} (h : M.Holds t calls) (b : Bytes) :
    M.headers (M.parse t b).2 = (calls ++ (httpParserExecute (M.parser t) b).2.1).foldl headerCb [] := by
  rw [M.headers_parse, h.collected, List.foldl_append]

theorem Holds.parse_cut {t : T} {calls : List Callback} {b : Bytes} {s u : Scan} (h : M.Holds t calls) (hb : b ≠ [])
    (hRun : PartialRun.run Scan.next (Scan.resume (M.parser t) calls) b = some s) (hCut : s.cut = some u) :
    M.ReadsTo t calls b s ∧ M.parser (M.parse t b).2 = u.parser ∧
      u.calls = calls ++ (httpParserExecute (M.parser t) b).2.1 ∧ M.Holds (M.parse t b).2 u.calls := by
  obtain ⟨hSound, hMessage, hSpelled, -, -⟩ := (h.sound.run hRun).cut hCut
  obtain ⟨Q, hQ, rfl⟩ := Option.map_eq_some_iff.mp hCut
  obtain ⟨hState, -, -, hUpgrade⟩ := cutMove_eq_some hQ
  obtain ⟨v, hv, hParser, hCalls⟩ := Scan.buffer_resume (Scan.buffer_eq_some.mpr ⟨s, hRun, hCut⟩)
  obtain ⟨hResult, hParser', hShows, hHeaders⟩ := M.parse_buffer h.errno hb hv h.shows'
  have hExecute : (httpParserExecute (M.parser t) b).2.1 = v.calls :=
    congrArg (·.2.1) (execute_of_buffer h.errno hb hv)
  have hAll : Message.spell (Message.spell {} calls) v.calls = s.message := by
    rw [hSpelled, hCalls, Message.spell_append]
  have hUp : v.parser.upgrade = s.parser.upgrade := by
    rw [← hParser]
    exact hUpgrade
  have hEnd : M.parser (M.parse t b).2 = Q := hParser'.trans hParser.symm
  refine ⟨⟨?_, ?_, h.collect b⟩, hEnd, ?_, ?_, ?_, ?_, ?_⟩
  · rw [hResult, hAll, hUp]
  · rw [hEnd, hState]
  · rw [hExecute]
    exact hCalls
  · rw [hEnd]
    exact hSound
  · rw [hEnd]
    exact hMessage.trans hSpelled
  · rw [← hSpelled, ← hAll]
    exact hShows
  · rw [hCalls, ← hExecute]
    exact h.collect b

theorem Holds.parse_overflow {t : T} {calls : List Callback} {b : Bytes} {s : Scan} (h : M.Holds t calls)
    (hb : b ≠ []) (hRun : PartialRun.run Scan.next (Scan.resume (M.parser t) calls) b = some s)
    (hCut : s.cut = none) :
    M.ReadsTo t calls b s ∧ (M.parser (M.parse t b).2).httpErrno = .headerOverflow ∧
      s.calls = calls ++ (httpParserExecute (M.parser t) b).2.1 := by
  obtain ⟨v, hv, rfl⟩ := Scan.run_resume hRun
  have hNone : v.cut = none := Option.map_eq_none_iff.mpr (Option.map_eq_none_iff.mp hCut)
  obtain ⟨Q, hQ, hExecute⟩ := execute_of_overflow h.errno hb hv hNone
  have hResult := M.result_parse b h.shows'
  have hParser := M.parser_parse t b
  have hComplete := (h.sound.run hRun).between.complete_calls
  rw [hExecute] at hResult hParser ⊢
  refine ⟨⟨?_, ?_, ?_⟩, ?_, rfl⟩
  · rw [← hComplete, hResult, ← Message.spell_append]
    simp only [judge, verdict, hQ.upgrade, ne_eq, not_true_eq_false, if_false]
    rfl
  · rw [hParser]
    exact hQ.state
  · exact h.collect b
  · rw [hParser]
    exact hQ.errno

theorem Holds.parse_run {t : T} {calls : List Callback} {b : Bytes} {s : Scan} (h : M.Holds t calls) (hb : b ≠ [])
    (hRun : PartialRun.run Scan.next (Scan.resume (M.parser t) calls) b = some s) : M.ReadsTo t calls b s := by
  cases hCut : s.cut with
  | none => exact (h.parse_overflow hb hRun hCut).1
  | some u => exact (h.parse_cut hb hRun hCut).1

theorem Holds.parse_none {t : T} {calls : List Callback} {b : Bytes} (h : M.Holds t calls) (hb : b ≠ [])
    (hRun : PartialRun.run Scan.next (Scan.resume (M.parser t) calls) b = none) : (M.parse t b).1 = .bad := by
  rw [Scan.resume_eq, Scan.run_after, Option.map_eq_none_iff] at hRun
  rw [M.result_parse b h.shows', judge]
  rcases execute_of_none h.errno hb hRun with hParsed | hUpgrade
  · simp [hParsed]
  · simp [hUpgrade]

theorem Holds.run_of_good {t : T} {b : Bytes} (h : M.Holds t []) (hb : b ≠ []) (hGood : (M.parse t b).1 = .good) :
    ∃ s a c e, PartialRun.run Scan.next (Scan.resume (M.parser t) []) b = some s ∧ b = a ++ c ∧
      PartialRun.run Scan.next (Scan.resume (M.parser t) []) a = some e ∧ e.AtEnd := by
  have hOpen : (Scan.resume (M.parser t) []).message.complete = false := by
    rw [h.spelled]
    rfl
  cases hRun : PartialRun.run Scan.next (Scan.resume (M.parser t) []) b with
  | none =>
    rw [h.parse_none hb hRun] at hGood
    cases hGood
  | some s =>
    rw [(h.parse_run hb hRun).result, verdict_good] at hGood
    obtain ⟨a, c, e, hSplit, -, he, hEnd⟩ := h.sound.atEnd hRun hOpen hGood.2
    exact ⟨s, a, c, e, rfl, hSplit, he, hEnd⟩

/-- After an error every buffer is bad. -/
theorem parse_after_error {t : T} {m : Message} {b : Bytes} (hErrno : (M.parser t).httpErrno ≠ .ok) (hb : b ≠ [])
    (hShows : M.Shows t m) : (M.parse t b).1 = .bad := by
  have hExecute : httpParserExecute (M.parser t) b = (M.parser t, [], 0) := by simp [httpParserExecute, hErrno]
  have hLength : 0 ≠ b.length := by simpa [eq_comm] using hb
  rw [M.result_parse b hShows, hExecute, judge]
  simp [hLength]

end MessageParser

theorem complete_of_good {t : HttpReplyParser} {m : Message} {b : Bytes} (h : (replyMessages.parse t b).1 = .good)
    (hShows : (replyMessages.parse t b).2.Shows m) : m.complete = true := by
  rw [replyMessages_parse, HttpReplyParser.parse_eq] at h hShows
  have hComplete := hShows.complete
  dsimp only at h hComplete
  rw [hComplete, judge] at h
  split at h
  · cases h
  split at h
  · cases h
  split at h
  · assumption
  · cases h

theorem holds_httpRequestParser (major minor : Int) : requestMessages.Holds (httpRequestParser major minor) [] :=
  ⟨Scan.sound_fresh .httpRequest, (between_fresh .httpRequest).message_eq.symm,
    (feeds_httpRequestParser major minor).shows', rfl⟩

theorem holds_httpReplyParser (statusCode : ℕ) : replyMessages.Holds (httpReplyParser statusCode) [] :=
  ⟨Scan.sound_fresh .httpResponse, (between_fresh .httpResponse).message_eq.symm,
    (feeds_httpReplyParser statusCode).shows', rfl⟩

end HttpUtils
