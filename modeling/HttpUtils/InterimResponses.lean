import HttpUtils.HttpParser.NextResponse
import HttpUtils.HttpParser.StatusText
import HttpUtils.ResponseDivision

/-!
# Interim responses

The parser takes each of them for a message of its own, and `http_reply_parser` puts all messages into one `m_reply`:
`m_reply_complete` is set by the first of them, the headers are collected from all.
-/

namespace HttpUtils
set_option autoImplicit false

open MessageParser

/-! ### One response after another -/

namespace Reader

def alone (b : Bytes) : Message := ((freshReader .httpResponse).run b).elim {} Reader.message

def Unfolded (b : Bytes) : Prop := PartialRun.Along step Unfolds (freshReader .httpResponse) b

/-- An interim response: an informational one of version 1.1 without a body. -/
structure Interim (I : Bytes) (e : Reader) : Prop where
  ends : Ends (freshReader .httpResponse) I e
  version : e.parser.httpMajor = 1 ∧ e.parser.httpMinor = 1
  status : e.parser.statusCode / 100 = 1
  body : e.message.body = []

theorem run_complete {r t : Reader} {b : Bytes} (hRun : r.run b = some t) (hDone : r.message.complete = true) :
    t.message.complete = true := by
  have hStep : PartialRun.Preserves step fun r => r.message.complete = true := by
    intro r ch t hDone hStep
    obtain ⟨v, -, rfl⟩ := Option.map_eq_some_iff.mp hStep
    exact (Move.spell_complete _ _ _ _).mpr (.inl hDone)
  exact hStep.run hDone hRun

end Reader

namespace MessageParser

variable {r e : Reader} {b : Bytes}

theorem Ends.last (h : Ends r b e) (hOpen : r.message.complete = false) :
    ∃ u ch q, b = u ++ [ch] ∧ r.run u = some q ∧ q.message.complete = false ∧ q.step ch = some e := by
  rcases List.eq_nil_or_concat' b with rfl | ⟨u, ch, rfl⟩
  · have hComplete := h.complete
    obtain rfl := Option.some.inj h.run
    rw [hOpen] at hComplete
    cases hComplete
  · obtain ⟨q, hq, hStep⟩ := PartialRun.run_append_eq_some.mp h.run
    rw [PartialRun.run_singleton] at hStep
    exact ⟨u, ch, q, rfl, hq, h.early u [ch] q rfl (by simp) hq, hStep⟩

def OnTheLine (w : Bytes) (t : Reader) : Prop := t.message.complete = false → LineAt w t.parser t.message

theorem OnTheLine.step {w : Bytes} {t : Reader} {ch : UInt8} (h : OnTheLine w r) (ht : r.step ch = some t) :
    OnTheLine (w ++ [ch]) t := by
  intro hStill
  obtain ⟨v, hMove, rfl⟩ := Option.map_eq_some_iff.mp ht
  have hComplete := Move.spell_complete r.parser ch v r.message
  have hBefore : r.message.complete = false := by
    by_contra hDone
    rw [hComplete.mpr (.inl (by simpa using hDone))] at hStill
    cases hStill
  rcases byteCase_line (h hBefore) hMove with ⟨-, hNext⟩ | ⟨hMem, -⟩
  · exact hNext
  · rw [hComplete.mpr (.inr hMem)] at hStill
    cases hStill

theorem Ends.told (h : Ends (freshReader .httpResponse) b e) : Told b e.message := by
  obtain ⟨u, ch, q, rfl, hq, hOpen, hStep⟩ := h.last rfl
  have hStart : OnTheLine [] (freshReader .httpResponse) := fun _ => ⟨by simp, rfl⟩
  have hRun : PartialRun.Leads Reader.step (fun _ _ => True) (freshReader .httpResponse) u (OnTheLine u) :=
    .scan (fun _ _ _ _ _ hLine => ⟨trivial, fun _ ht => hLine.step ht⟩) hStart
  have hLine := hRun.post q hq hOpen
  obtain ⟨v, hMove, rfl⟩ := Option.map_eq_some_iff.mp hStep
  rcases byteCase_line hLine hMove with ⟨hNot, -⟩ | ⟨-, hTold⟩
  · have hDone := (Move.spell_complete q.parser ch v q.message).mp h.complete
    rw [hOpen] at hDone
    exact absurd (hDone.resolve_left (by simp)) hNot
  · exact hTold

end MessageParser

namespace Reader

theorem Interim.state {I : Bytes} {e : Reader} (h : Interim I e) :
    e.Responding ∧ (e.parser.state = .sStartRes ∨ e.parser.state = .sDead) := by
  have hResponding : e.Responding := responding_step.run responding_fresh h.ends.run
  obtain ⟨u, ch, q, -, -, hOpen, hStep⟩ := h.ends.last rfl
  refine ⟨hResponding, ?_⟩
  rw [newMessage_step hStep hOpen h.ends.complete, newMessage, hResponding.type]
  split
  · exact .inl rfl
  · exact .inr rfl

theorem Continues.unfolds {m : Message} {r r' t' : Reader} {b : Bytes} (h : r.Continues m r')
    (hRun : r'.run b = some t')
    (hUnfolds : PartialRun.Along step Unfolds r' b) : PartialRun.Along step Unfolds r b := by
  induction b generalizing r r' with
  | nil => trivial
  | cons ch b ih =>
    obtain ⟨q', hStep, hRest⟩ := PartialRun.run_cons_eq_some.mp hRun
    obtain ⟨q, hStep', hNext⟩ := continues_step m r' r ch q' h hStep
    refine ⟨fun hFolds => hUnfolds.1 ⟨h.state ▸ hFolds.1, hFolds.2⟩, fun t ht => ?_⟩
    obtain rfl := Option.some.inj (hStep'.symm.trans ht)
    exact ih hNext hRest (hUnfolds.2 q' hStep)

structure Spells (m : Message) (Is : List Bytes) (F : Bytes) (t : Reader) : Prop where
  body : t.message.body = m.body ++ (alone F).body
  headers : t.message.headers = m.headers ++ (Is ++ [F]).flatMap fun b => (alone b).headers
  status : ∀ n, (alone F).status = some n → t.message.status = some n

theorem Continues.responses {m : Message} {r e t : Reader} (h : r.Continues m (freshReader .httpResponse))
    {Is : List Bytes} {F : Bytes} (hIs : ∀ I ∈ Is, ∃ e, Interim I e) (hF : Ends (freshReader .httpResponse) F e)
    (hRun : r.run (Is.flatten ++ F) = some t) :
    Spells m Is F t ∧ ((∀ b ∈ Is ++ [F], Unfolded b) → PartialRun.Along step Unfolds r (Is.flatten ++ F)) := by
  induction Is generalizing m r with
  | nil =>
    obtain ⟨q, hq, hNext⟩ := h.run hF.run
    obtain rfl := Option.some.inj (hq.symm.trans hRun)
    have hAlone : alone F = e.message := by rw [alone, hF.run, Option.elim_some]
    refine ⟨⟨?_, ?_, ?_⟩, fun hUnfolded => h.unfolds hF.run (hUnfolded F (by simp))⟩
    · rw [hNext.message, hAlone, Message.join]
    · rw [hNext.message, Message.headers_join hNext.opened]
      simp [hAlone]
    · intro n hn
      rw [hNext.message, Message.join, ← hAlone, hn, Option.some_or]
  | cons I Is ih =>
    obtain ⟨e', hI⟩ := hIs I List.mem_cons_self
    obtain ⟨q, hq, hNext⟩ := h.run hI.ends.run
    rw [List.flatten_cons, List.append_assoc] at hRun
    have hRest := (PartialRun.run_append_of_run hq _).symm.trans hRun
    obtain ⟨hResponding, hState⟩ := hI.state
    -- behind a closed connection the final response would not be read
    have hStart : e'.parser.state = .sStartRes := by
      refine hState.resolve_right fun hDead => ?_
      have hBreaks := dead_run (hNext.state.trans hDead) hRest
      have hSame := start_run rfl (fun c hc => hBreaks c (List.mem_append_right _ hc)) hF.run
      rw [hF.complete] at hSame
      cases hSame
    obtain ⟨hSpells, hUnfolds⟩ := ih (hNext.renew hResponding hStart hI.ends.upgrade)
      (fun J hJ => hIs J (List.mem_cons_of_mem I hJ)) hRest
    have hAlone : alone I = e'.message := by rw [alone, hI.ends.run, Option.elim_some]
    have hHeaders : q.message.headers = m.headers ++ (alone I).headers := by
      rw [hNext.message, Message.headers_join hNext.opened, hAlone]
    refine ⟨⟨?_, ?_, hSpells.status⟩, fun hUnfolded => ?_⟩
    · rw [hSpells.body, hNext.message, Message.join, hI.body, List.append_nil]
    · rw [hSpells.headers, hHeaders]
      simp
    · have hFirst := h.unfolds hI.ends.run (hUnfolded I (by simp))
      rw [List.flatten_cons, List.append_assoc]
      exact hFirst.trans hq (hUnfolds fun b hb => hUnfolded b (List.mem_cons_of_mem I hb))

end Reader

/-! ### The responses by themselves -/

namespace MessageParser

variable {T : Type} {M : MessageParser T} {t : T} {r : Reader} {b : Bytes}

theorem Behind.unfolds (h : M.Behind t [] r) {e : Scan} (hEnds : EndsWith (Scan.resume (M.parser t) []) b e)
    (hUnfolded : M.Unfolded t b) : PartialRun.Along Reader.step Reader.Unfolds r b := by
  apply PartialRun.along_of_prefixes
  rintro u ch v q rfl hq ⟨hState, hBlank⟩
  obtain ⟨p, hp⟩ := hEnds.prefix
  have hZero : e.ctl.jumped ≤ httpMaxHeaderSize := by
    rw [hEnds.atEnd.ctl]
    exact Nat.zero_le _
  obtain ⟨q', hq', hShadow⟩ := h.holds.sound.shadow_run h.shadow hp (Scan.run_short (hEnds.rest hp).run hZero)
  obtain rfl := Option.some.inj (hq.symm.trans hq')
  refine hUnfolded u ch v rfl hBlank ?_
  rw [stateAfter_eq h.holds hp, ← hState, hShadow.parser, Ctl.plain_state]

theorem OneMessage.reads (hOne : M.OneMessage t b) (h : M.Behind t [] r)
    (hFresh : ¬ (Scan.resume (M.parser t) []).Lost) (hb : b ≠ []) :
    ∃ e, Ends r b e ∧ e.parser = (M.parser (M.parse t b).2).plain ∧ M.Shows (M.parse t b).2 e.message ∧
      (M.Unfolded t b → PartialRun.Along Reader.step Reader.Unfolds r b ∧
        M.headers (M.parse t b).2 = e.message.headers) := by
  obtain ⟨s, hEndsWith⟩ := hOne.endsWith h.holds hb
  obtain ⟨e, hEnds⟩ := hOne.ends h hb
  have hZero : s.ctl.jumped ≤ httpMaxHeaderSize := by
    rw [hEndsWith.atEnd.ctl]
    exact Nat.zero_le _
  obtain ⟨e', he', hShadow⟩ := h.holds.sound.shadow_run h.shadow hEndsWith.run hZero
  obtain rfl := Option.some.inj (hEnds.run.symm.trans he')
  obtain ⟨u, hCut, hSame⟩ := Scan.cut_outer hEndsWith.atEnd.ctl
  obtain ⟨-, hParser, -, hHolds⟩ := h.holds.parse_cut hb hEndsWith.run hCut
  obtain ⟨-, -, hSpelled, -, hLoses⟩ := (h.holds.sound.run hEndsWith.run).cut hCut
  refine ⟨e, hEnds, ?_, ?_, fun hUnfolded => ⟨h.unfolds hEndsWith hUnfolded, ?_⟩⟩
  · rw [hShadow.parser, hParser, hSame, hEndsWith.atEnd.ctl]
    rfl
  · rw [hShadow.message, hSpelled]
    exact hHolds.shows'
  · rw [hHolds.collected, hShadow.message, hSpelled, headers_eq_iff, hLoses]
    exact (unfolded_iff h.holds hFresh hEndsWith).mp hUnfolded

end MessageParser

namespace HttpReplyParser

/-- An interim response, which the parser accepts by itself: an informational one of version 1.1 without a body. -/
structure Interim (I : Bytes) : Prop where
  one : replyMessages.OneMessage (httpReplyParser 0) I
  version : ((httpReplyParser 0).parse I).2.mParser.httpMajor = 1 ∧
    ((httpReplyParser 0).parse I).2.mParser.httpMinor = 1
  status : ((httpReplyParser 0).parse I).2.mParser.statusCode / 100 = 1
  content : ((httpReplyParser 0).parse I).2.mReply.content = []

theorem reads {b : Bytes} (h : replyMessages.OneMessage (httpReplyParser 0) b) :
    ∃ e, Ends (freshReader .httpResponse) b e ∧ e.parser = ((httpReplyParser 0).parse b).2.mParser.plain ∧
      ((httpReplyParser 0).parse b).2.Shows e.message ∧
      (replyMessages.Unfolded (httpReplyParser 0) b → Reader.Unfolded b ∧
        ((httpReplyParser 0).parse b).2.mReply.headers = e.message.headers) := by
  refine h.reads ⟨holds_httpReplyParser 0, shadowed_fresh .httpResponse⟩ fresh_not_lost ?_
  rintro rfl
  cases h.good

theorem Interim.reader {I : Bytes} (h : Interim I) : ∃ e, Reader.Interim I e := by
  obtain ⟨e, hEnds, hParser, hShows, -⟩ := reads h.one
  refine ⟨e, hEnds, ?_, ?_, hShows.content.symm.trans h.content⟩
  · rw [hParser]
    exact h.version
  · rw [hParser]
    exact h.status

end HttpReplyParser

/-! ### All of them -/

namespace MessageParser

theorem Ends.complete_iff {r e t : Reader} {m a c d : Bytes} (h : Ends r m e) (hRun : r.run a = some t)
    (hSplit : a ++ c = m ++ d) : t.message.complete = true ↔ m.length ≤ a.length := by
  rcases List.append_eq_append_iff.mp hSplit with ⟨v, rfl, -⟩ | ⟨v, rfl, -⟩
  · by_cases hv : v = []
    · subst hv
      rw [List.append_nil] at h ⊢
      obtain rfl := Option.some.inj (h.run.symm.trans hRun)
      simp [h.complete]
    · have hOpen := h.early a v t rfl hv hRun
      have hPos := List.length_pos_iff.mpr hv
      simp only [hOpen, List.length_append, Bool.false_eq_true, false_iff]
      omega
  · have hRest := (PartialRun.run_append_of_run h.run v).symm.trans hRun
    simp [Reader.run_complete hRest h.complete]

end MessageParser

namespace HttpReplyParser

/-- The reply behind interim responses `Is` and the final response `F`, in reads `bs`. -/
structure Joins (t : HttpReplyParser) (bs Is : List Bytes) (F : Bytes) : Prop where
  status : (t.parseAll bs).2.mReply.statusCode = wireStatus F
  content : (t.parseAll bs).2.mReply.content = ((httpReplyParser 0).parse F).2.mReply.content
  headers : replyMessages.Uncut t bs → (∀ b ∈ Is ++ [F], replyMessages.Unfolded (httpReplyParser 0) b) →
    (t.parseAll bs).2.mReply.headers = (Is ++ [F]).flatMap fun b => ((httpReplyParser 0).parse b).2.mReply.headers

theorem interim_and_final {Is : List Bytes} {F : Bytes} (hIs : ∀ I ∈ Is, Interim I)
    (hF : replyMessages.OneMessage (httpReplyParser 0) F) :
    ∀ b ∈ Is ++ [F], replyMessages.OneMessage (httpReplyParser 0) b := by
  intro b hb
  rcases List.mem_append.mp hb with hb | hb
  · exact (hIs b hb).one
  · exact List.mem_singleton.mp hb ▸ hF

theorem alone_eq {b : Bytes} (h : replyMessages.OneMessage (httpReplyParser 0) b) :
    (Reader.alone b).body = ((httpReplyParser 0).parse b).2.mReply.content ∧
      (wireReason b ≠ [] → (Reader.alone b).status = some (wireStatus b)) ∧
      (replyMessages.Unfolded (httpReplyParser 0) b → Reader.Unfolded b ∧
        (Reader.alone b).headers = ((httpReplyParser 0).parse b).2.mReply.headers) := by
  obtain ⟨e, hEnds, -, hShows, hHeaders⟩ := reads h
  have hAlone : Reader.alone b = e.message := by rw [Reader.alone, hEnds.run, Option.elim_some]
  rw [hAlone]
  refine ⟨hShows.content.symm, fun hReason => ?_, fun hUnfolded => ?_⟩
  · rw [hEnds.told.status, if_neg hReason]
  · exact ⟨(hHeaders hUnfolded).1, (hHeaders hUnfolded).2.symm⟩

/-- `parse` is good from the end of the first response on, and the reply that it fills holds the headers of all. -/
theorem responses_joined (statusCode : ℕ) {bs Is : List Bytes} {F rest : Bytes} (hIs : ∀ I ∈ Is, Interim I)
    (hF : replyMessages.OneMessage (httpReplyParser 0) F) (hReason : wireReason F ≠ []) (hSome : bs ≠ [])
    (hNe : ∀ b ∈ bs, b ≠ []) (hShort : ∀ b ∈ bs, b.length < 2 ^ 31) (hFlat : bs.flatten ++ rest = Is.flatten ++ F)
    (hUnrefused : .bad ∉ ((httpReplyParser statusCode).parseAll bs).1) :
    (((httpReplyParser statusCode).parseAll bs).1.getLast? = some .good → (Is.headD F).length ≤ bs.flatten.length) ∧
      (((httpReplyParser statusCode).parseAll bs).2.mParser.httpErrno = .headerOverflow ∨
        (((httpReplyParser statusCode).parseAll bs).1.getLast? = some .good ↔
            (Is.headD F).length ≤ bs.flatten.length) ∧
          (rest = [] → (httpReplyParser statusCode).Joins bs Is F)) := by
  have hOne := interim_and_final hIs hF
  have hReaders : ∀ I ∈ Is, ∃ e, Reader.Interim I e := fun I hI => (hIs I hI).reader
  obtain ⟨e, hEnds, -⟩ := reads hF
  -- the first response, and what comes behind it
  obtain ⟨e₁, d, hFirst, hAll⟩ : ∃ e₁ d, Ends (freshReader .httpResponse) (Is.headD F) e₁ ∧
      Is.flatten ++ F = Is.headD F ++ d := by
    cases Is with
    | nil => exact ⟨e, [], hEnds, by simp⟩
    | cons I Is =>
      obtain ⟨e₁, hFirst⟩ := hReaders I List.mem_cons_self
      exact ⟨e₁, Is.flatten ++ F, hFirst.ends, by simp⟩
  have hComplete {a c : Bytes} {q : Reader} (hSplit : bs.flatten = a ++ c)
      (hq : (freshReader .httpResponse).run a = some q) :
      q.message.complete = true ↔ (Is.headD F).length ≤ a.length := by
    refine hFirst.complete_iff (c := c ++ rest) (d := d) hq ?_
    rw [← List.append_assoc, ← hSplit, hFlat, hAll]
  have hBehind : replyMessages.Behind (httpReplyParser statusCode) [] (freshReader .httpResponse) :=
    ⟨holds_httpReplyParser statusCode, shadowed_fresh .httpResponse⟩
  rw [← replyMessages_parseAll] at hUnrefused ⊢
  obtain ⟨b, bs, rfl⟩ := List.exists_cons_of_ne_nil hSome
  obtain ⟨result, hLast, hEnd⟩ := hBehind.division hNe hShort hUnrefused
  rw [hLast, Option.some.injEq]
  rcases hEnd with ⟨hErrno, hLate⟩ | ⟨calls, r, ⟨⟨hHolds, hShadow⟩, hRun, hGood⟩, hKeeps⟩
  · refine ⟨fun hGood => ?_, .inl hErrno⟩
    obtain ⟨a, c, q, hSplit, hq, hDone⟩ := hLate hGood
    have hLength := (hComplete hSplit hq).mp hDone
    rw [hSplit, List.length_append]
    omega
  · rw [hGood, hComplete (List.append_nil _).symm hRun]
    refine ⟨id, .inr ⟨Iff.rfl, ?_⟩⟩
    rintro rfl
    have hStart : (freshReader .httpResponse).Continues {} (freshReader .httpResponse) :=
      ⟨rfl, rfl, rfl, (Message.join_empty rfl).symm, fun _ => ⟨rfl, rfl⟩, rfl⟩
    rw [List.append_nil] at hFlat
    rw [hFlat] at hRun hKeeps
    obtain ⟨hSpells, hUnfolds⟩ := hStart.responses hReaders hEnds hRun
    have hMessage : r.message = Message.spell {} calls := by rw [hShadow.message, hHolds.spelled]
    obtain ⟨hBody, hStatus, -⟩ := alone_eq hF
    have hShows := hHolds.shows'
    rw [← hMessage] at hShows
    refine ⟨?_, ?_, fun hUncut hUnfolded => ?_⟩
    · rw [← replyMessages_parseAll]
      exact hShows.status _ (hSpells.status _ (hStatus hReason))
    · rw [← replyMessages_parseAll, hShows.content, hSpells.body, hBody]
      rfl
    · have hKept := hKeeps fresh_not_lost
        (hUnfolds fun b hb => ((alone_eq (hOne b hb)).2.2 (hUnfolded b hb)).1) hUncut
      have hCollected : (replyMessages.parseAll (httpReplyParser statusCode) (b :: bs)).2.mReply.headers =
          r.message.headers := by
        rw [hMessage, ← (headers_eq_iff calls).mpr hKept]
        exact hHolds.collected
      rw [← replyMessages_parseAll, hCollected, hSpells.headers]
      refine List.flatMap_congr fun b hb => ?_
      exact ((alone_eq (hOne b hb)).2.2 (hUnfolded b hb)).2

def continueResponse : Bytes := ascii "HTTP/1.1 100 Continue\r\nA: 1\r\n\r\n"

def finalResponse : Bytes := ascii "HTTP/1.1 200 OK\r\nContent-Length: 2\r\n\r\nhi"

theorem interim_continueResponse : Interim continueResponse where
  one := oneMessage_of_prefixes (by decide +kernel) (by decide +kernel)
  version := by decide +kernel
  status := by decide +kernel
  content := by decide +kernel

theorem oneMessage_finalResponse : replyMessages.OneMessage (httpReplyParser 0) finalResponse :=
  oneMessage_of_prefixes (by decide +kernel) (by decide +kernel)

/-- A read ends behind the interim response. -/
theorem continueResponse_joined :
    ((httpReplyParser 7).parseAll [continueResponse, finalResponse]).2.mReply.statusCode = 200 ∧
      ((httpReplyParser 7).parseAll [continueResponse, finalResponse]).2.mReply.content = ascii "hi" ∧
      ((httpReplyParser 7).parseAll [continueResponse, finalResponse]).2.mReply.headers =
        [⟨ascii "A", ascii "1"⟩, ⟨ascii "Content-Length", ascii "2"⟩] := by
  have hIs : ∀ I ∈ [continueResponse], Interim I := by
    intro I hI
    exact List.mem_singleton.mp hI ▸ interim_continueResponse
  have hFlat : [continueResponse, finalResponse].flatten ++ [] = [continueResponse].flatten ++
      finalResponse := by simp
  have hJoined := responses_joined 7 hIs oneMessage_finalResponse (by decide +kernel) (by simp) (by decide +kernel)
    (by decide +kernel) hFlat (by decide +kernel)
  obtain ⟨hStatus, hContent, hHeaders⟩ := (hJoined.2.resolve_left (by decide +kernel)).2 rfl
  have hUncut : replyMessages.Uncut (httpReplyParser 7) [continueResponse, finalResponse] :=
    uncut_pair ⟨by decide +kernel, by decide +kernel⟩
  have hUnfolded : ∀ b ∈ [continueResponse] ++ [finalResponse], replyMessages.Unfolded (httpReplyParser 0) b := by
    intro b hb
    have hEither : b = continueResponse ∨ b = finalResponse := by simpa using hb
    rcases hEither with rfl | rfl <;> exact unfolded_of_prefixes (by decide +kernel)
  refine ⟨hStatus.trans ?_, hContent.trans ?_, (hHeaders hUncut hUnfolded).trans ?_⟩
  all_goals decide +kernel

/-- In one buffer `parse` is good, and the header of the interim response is left in the reply; in two reads it is
good before the final response has begun. -/
theorem interim_header_remains :
    Interim continueResponse ∧ replyMessages.OneMessage (httpReplyParser 0) finalResponse ∧
      ((httpReplyParser 0).parseAll [continueResponse ++ finalResponse]).1 = [.good] ∧
      ⟨ascii "A", ascii "1"⟩ ∈ ((httpReplyParser 0).parseAll [continueResponse ++ finalResponse]).2.mReply.headers ∧
      ((httpReplyParser 0).parseAll [continueResponse, finalResponse]).1 = [.good, .good] :=
  ⟨interim_continueResponse, oneMessage_finalResponse, by decide +kernel, by decide +kernel, by decide +kernel⟩

end HttpReplyParser

end HttpUtils
