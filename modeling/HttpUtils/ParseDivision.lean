import HttpUtils.HttpParser.Division
import HttpUtils.HttpParser.StartLine

/-!
# `parse` on one buffer after another

Both parser classes hand a buffer to `http_parser_execute` and judge it in the same way. What holds of
every division of a message is shown once, for a `MessageParser`.
-/

namespace HttpUtils
set_option autoImplicit false

/-- What `parse` returns after `http_parser_execute` has returned `e` for a buffer of `n` bytes. -/
def judge (e : HttpParser × List Callback × ℕ) (n : ℕ) (complete : Bool) : ResultType :=
  if e.1.upgrade then .bad
  else if e.2.2 ≠ n then .bad
  else if complete then .good
  else .indeterminate

theorem HttpRequestParser.foldl_mParser (t : HttpRequestParser) (calls : List Callback) :
    (calls.foldl callback t).mParser = t.mParser := by
  induction calls generalizing t with
  | nil => rfl
  | cons c calls ih =>
    rw [List.foldl_cons, ih]
    cases c <;> rfl

theorem HttpReplyParser.foldl_mParser (t : HttpReplyParser) (calls : List Callback) :
    (calls.foldl callback t).mParser = t.mParser := by
  induction calls generalizing t with
  | nil => rfl
  | cons c calls ih =>
    rw [List.foldl_cons, ih]
    cases c <;> rfl

/-- The object after the callbacks of a buffer. -/
def HttpRequestParser.take (t : HttpRequestParser) (e : HttpParser × List Callback × ℕ) : HttpRequestParser :=
  e.2.1.foldl callback { t with mParser := e.1 }

def HttpReplyParser.take (t : HttpReplyParser) (e : HttpParser × List Callback × ℕ) : HttpReplyParser :=
  e.2.1.foldl callback { t with mParser := e.1 }

theorem HttpRequestParser.parse_eq (t : HttpRequestParser) (b : Bytes) :
    t.parse b = (judge (httpParserExecute t.mParser b) b.length (t.take (httpParserExecute t.mParser b)).mReqComplete,
      t.take (httpParserExecute t.mParser b)) := by
  have hParser (e : HttpParser × List Callback × ℕ) : (t.take e).mParser = e.1 := foldl_mParser _ _
  unfold parse judge
  generalize httpParserExecute t.mParser b = e
  obtain ⟨P, calls, n⟩ := e
  have hP := hParser (P, calls, n)
  simp only [take] at hP ⊢
  simp only [hP]
  split
  · rfl
  split
  · rfl
  · split <;> rename_i hComplete <;> simp only [hComplete, if_true, Bool.false_eq_true, if_false]

theorem HttpReplyParser.parse_eq (t : HttpReplyParser) (b : Bytes) :
    t.parse b = (judge (httpParserExecute t.mParser b) b.length
    (t.take (httpParserExecute t.mParser b)).mReplyComplete,
      t.take (httpParserExecute t.mParser b)) := by
  have hParser (e : HttpParser × List Callback × ℕ) : (t.take e).mParser = e.1 := foldl_mParser _ _
  unfold parse judge
  generalize httpParserExecute t.mParser b = e
  obtain ⟨P, calls, n⟩ := e
  have hP := hParser (P, calls, n)
  simp only [take] at hP ⊢
  simp only [hP]
  split
  · rfl
  split
  · rfl
  · split <;> rename_i hComplete <;> simp only [hComplete, if_true, Bool.false_eq_true, if_false]

/-- A class that parses messages buffer by buffer, and the message an object of it shows. -/
structure MessageParser (T : Type) where
  parse : T → Bytes → ResultType × T
  parser : T → HttpParser
  headers : T → List Header
  Shows : T → Message → Prop
  parser_parse (t : T) (b : Bytes) : parser (parse t b).2 = (httpParserExecute (parser t) b).1
  headers_parse (t : T) (b : Bytes) :
    headers (parse t b).2 = (httpParserExecute (parser t) b).2.1.foldl headerCb (headers t)
  shows_parse {t : T} {m : Message} (b : Bytes) (h : Shows t m) :
    Shows (parse t b).2 (m.spell (httpParserExecute (parser t) b).2.1)
  result_parse {t : T} {m : Message} (b : Bytes) (h : Shows t m) :
    (parse t b).1 = judge (httpParserExecute (parser t) b) b.length
      (m.spell (httpParserExecute (parser t) b).2.1).complete

theorem HttpRequestParser.Shows.take {t : HttpRequestParser} {m : Message} (h : t.Shows m)
    (e : HttpParser × List Callback × ℕ) : (t.take e).Shows (m.spell e.2.1) :=
  HttpRequestParser.Shows.foldl (t := { t with mParser := e.1 }) ⟨h.uri, h.body, h.complete, h.version⟩ e.2.1

theorem HttpReplyParser.Shows.take {t : HttpReplyParser} {m : Message} (h : t.Shows m)
    (e : HttpParser × List Callback × ℕ) : (t.take e).Shows (m.spell e.2.1) :=
  HttpReplyParser.Shows.foldl (t := { t with mParser := e.1 }) ⟨h.content, h.complete, h.status⟩ e.2.1

def requestMessages : MessageParser HttpRequestParser where
  parse := HttpRequestParser.parse
  parser := HttpRequestParser.mParser
  headers t := t.mReq.headers
  Shows := HttpRequestParser.Shows
  parser_parse t b := by
    rw [HttpRequestParser.parse_eq]
    exact HttpRequestParser.foldl_mParser _ _
  headers_parse t b := by
    rw [HttpRequestParser.parse_eq]
    exact HttpRequestParser.foldl_headers _ _
  shows_parse {t m} b h := by
    rw [HttpRequestParser.parse_eq]
    exact h.take _
  result_parse {t m} b h := by rw [HttpRequestParser.parse_eq, (h.take _).complete]

def replyMessages : MessageParser HttpReplyParser where
  parse := HttpReplyParser.parse
  parser := HttpReplyParser.mParser
  headers t := t.mReply.headers
  Shows := HttpReplyParser.Shows
  parser_parse t b := by
    rw [HttpReplyParser.parse_eq]
    exact HttpReplyParser.foldl_mParser _ _
  headers_parse t b := by
    rw [HttpReplyParser.parse_eq]
    exact HttpReplyParser.foldl_headers _ _
  shows_parse {t m} b h := by
    rw [HttpReplyParser.parse_eq]
    exact h.take _
  result_parse {t m} b h := by rw [HttpReplyParser.parse_eq, (h.take _).complete]

namespace MessageParser

variable {T : Type} (M : MessageParser T)

/-- What `parse` returns for a buffer that was parsed to its end. -/
def verdict (upgrade complete : Bool) : ResultType :=
  if upgrade then .bad else if complete then .good else .indeterminate

theorem parse_buffer {t : T} {b : Bytes} {s : Scan} {m : Message} (hErrno : (M.parser t).httpErrno = .ok)
    (hb : b ≠ []) (h : (Scan.start (M.parser t)).buffer b = some s) (hShows : M.Shows t m) :
    (M.parse t b).1 = verdict s.parser.upgrade (m.spell s.calls).complete ∧
      M.parser (M.parse t b).2 = s.parser ∧ M.Shows (M.parse t b).2 (m.spell s.calls) ∧
      M.headers (M.parse t b).2 = s.calls.foldl headerCb (M.headers t) := by
  have hResult := M.result_parse b hShows
  have hParser := M.parser_parse t b
  have hShown := M.shows_parse b hShows
  have hHeaders := M.headers_parse t b
  rw [execute_of_buffer hErrno hb h] at hResult hParser hShown hHeaders
  exact ⟨by simpa [judge, verdict] using hResult, hParser, hShown, hHeaders⟩

def parseAll : T → List Bytes → List ResultType × T
  | t, [] => ([], t)
  | t, b :: bs => ((M.parse t b).1 :: (parseAll (M.parse t b).2 bs).1, (parseAll (M.parse t b).2 bs).2)

/-- Between two buffers: the object `t`, after the callbacks `calls`, and a reader of the same bytes. -/
structure Feeds (t : T) (calls : List Callback) (r : Reader) : Prop where
  reads : (Scan.resume (M.parser t) calls).Reads r
  spelled : r.message = Message.spell {} calls
  shows' : M.Shows t r.message
  collected : M.headers t = calls.foldl headerCb []

variable {M}

theorem Feeds.cut {t : T} {calls : List Callback} {r r' : Reader} {b : Bytes} {u : Scan} (h : M.Feeds t calls r)
    (hb : b ≠ []) (hu : PartialRun.run Scan.next (Scan.resume (M.parser t) calls) b = some u) (hReads : u.Reads r') :
    ∃ t' calls', M.parse t b = (verdict r'.parser.upgrade r'.message.complete, t') ∧ M.Feeds t' calls' r' ∧
      (Message.LosesAny {} calls' ↔ u.Lost) := by
  obtain ⟨v, hv, hReads', hSpelled⟩ := hReads.cut
  have hBuffer : (Scan.resume (M.parser t) calls).buffer b = some v := Scan.buffer_eq_some.mpr ⟨u, hu, hv⟩
  obtain ⟨s, hs, hParser, hCalls⟩ := Scan.buffer_resume hBuffer
  obtain ⟨hResult, hParser', hShows, hHeaders⟩ := M.parse_buffer h.reads.errno hb hs h.shows'
  have hMessage : r'.message = r.message.spell s.calls := by
    rw [hSpelled, hCalls, Message.spell_append, ← h.spelled]
  have hUpgrade : r'.parser.upgrade = s.parser.upgrade := by
    rw [hReads'.parser, Ctl.plain_upgrade, hParser]
  have hResume := Scan.resume_cut hv
  refine ⟨(M.parse t b).2, v.calls, ?_, ⟨?_, hSpelled, ?_, ?_⟩, (hReads.between.cut_lost hv).2⟩
  · rw [hMessage, hUpgrade, ← hResult]
  · rw [hParser', ← hParser, ← hResume]
    exact hReads'
  · rwa [hMessage]
  · rw [hHeaders, h.collected, hCalls, List.foldl_append]

theorem Feeds.parse {t : T} {calls : List Callback} {r r' : Reader} {b : Bytes} (h : M.Feeds t calls r)
    (hb : b ≠ []) (hClean : PartialRun.Along Reader.step Reader.Clean r b) (hRun : r.run b = some r') :
    ∃ t' calls', M.parse t b = (verdict r'.parser.upgrade r'.message.complete, t') ∧ M.Feeds t' calls' r' := by
  have hFollows : PartialRun.Follows Scan.next Reader.step Scan.Reads Reader.Clean :=
    fun _ _ _ _ hReads hCleanByte hStep => hReads.next hCleanByte hStep
  obtain ⟨u, hu, hReads⟩ := hFollows.run h.reads hClean hRun
  obtain ⟨t', calls', hParse, hFeeds, -⟩ := h.cut hb hu hReads
  exact ⟨t', calls', hParse, hFeeds⟩

theorem Feeds.parse_passes {t : T} {r r' : Reader} {b : Bytes} (h : M.Feeds t [] r) (hb : b ≠ [])
    (hMark : openMark (M.parser t).state = none) (hPasses : r.Passes b r') :
    ∃ t', M.parse t b = (verdict r'.parser.upgrade r'.message.complete, t') ∧ M.Shows t' r'.message ∧
      M.headers t' = r'.message.headers := by
  have hFollows : PartialRun.Follows Scan.next Reader.step (fun s r => s.Reads r ∧ ¬ s.Lost) Reader.Steady := by
    rintro s q ch q' ⟨hReads, hKept⟩ hSteady hStep
    obtain ⟨w, hw, rfl⟩ := Option.map_eq_some_iff.mp hStep
    obtain ⟨v, hMove, hMoved⟩ :=
      move_follows hReads.between.fits hReads.errno hReads.parser hReads.count hSteady.clean hw
    obtain ⟨u, hNext, hReads'⟩ := hReads.next hSteady.clean hStep
    refine ⟨u, hNext, hReads', ?_⟩
    obtain ⟨v', hMove', rfl⟩ := Scan.next_eq_some.mp hNext
    obtain rfl : v = v' := Option.some.inj (hMove.symm.trans hMove')
    rw [hReads.between.take_lost hMove]
    have hState : s.parser.state = q.parser.state := by rw [hReads.parser, Ctl.plain_state]
    rintro (hLost | hLost)
    · exact hKept hLost
    · exact hSteady.lossless ⟨w, hw, (hMoved.loses hState ch q.message).mp hLost⟩
  have hStart : ¬ (Scan.resume (M.parser t) []).Lost := by
    rw [Scan.lost_iff (s := Scan.resume (M.parser t) []) (start_marks _ _)]
    simp [hMark, Message.LosesAny, Scan.resume]
  obtain ⟨u, hu, hReads, hKept⟩ := hFollows.run ⟨h.reads, hStart⟩ hPasses.steady hPasses.run
  obtain ⟨t', calls', hParse, hFeeds, hLoses⟩ := h.cut hb hu hReads
  refine ⟨t', hParse, hFeeds.shows', ?_⟩
  rw [hFeeds.collected, hFeeds.spelled, headers_eq_iff, hLoses]
  exact hKept

/-- Every division: nothing is judged before the last byte, if the message is not complete before it. -/
theorem Feeds.parseAll {t : T} {calls : List Callback} {r r' : Reader} {bs : List Bytes}
    (h : M.Feeds t calls r) (hNe : ∀ b ∈ bs, b ≠ []) (hSome : bs ≠ [])
    (hClean : PartialRun.Along Reader.step Reader.Clean r bs.flatten) (hRun : r.run bs.flatten = some r')
    (hEarly : ∀ u v q, bs.flatten = u ++ v → v ≠ [] → r.run u = some q →
      q.message.complete = false ∧ q.parser.upgrade = false)
    (hLate : r'.message.complete = true ∧ r'.parser.upgrade = false) :
    ∃ t' calls', M.parseAll t bs = (List.replicate (bs.length - 1) .indeterminate ++ [.good], t') ∧
      M.Feeds t' calls' r' := by
  induction bs generalizing t calls r with
  | nil => exact absurd rfl hSome
  | cons b bs ih =>
    rw [List.flatten_cons] at hClean hRun hEarly
    obtain ⟨q, hq, hRest⟩ := PartialRun.run_append_eq_some.mp hRun
    obtain ⟨t', calls', hParse, hFeeds⟩ := h.parse (hNe b List.mem_cons_self) hClean.prefix hq
    by_cases hLast : bs = []
    · subst hLast
      obtain rfl := Option.some.inj hRest
      refine ⟨t', calls', ?_, hFeeds⟩
      rw [MessageParser.parseAll, hParse, hLate.1, hLate.2]
      rfl
    · have hFlat : bs.flatten ≠ [] := by
        obtain ⟨c, cs, rfl⟩ := List.exists_cons_of_ne_nil hLast
        have hc : c ≠ [] := hNe c (by simp)
        simp [hc]
      obtain ⟨hComplete, hUpgrade⟩ := hEarly b bs.flatten q rfl hFlat hq
      obtain ⟨t'', calls'', hAll, hEnd⟩ := ih hFeeds (fun c hc => hNe c (List.mem_cons_of_mem _ hc)) hLast
        (hClean.append hq) hRest fun u v p hu hv hp =>
          hEarly (b ++ u) v p (by rw [hu, List.append_assoc]) hv
            ((PartialRun.run_append_of_run hq u).trans hp)
      refine ⟨t'', calls'', ?_, hEnd⟩
      rw [MessageParser.parseAll, hParse, hComplete, hUpgrade]
      obtain ⟨n, hn⟩ : ∃ n, bs.length = n + 1 :=
        Nat.exists_eq_succ_of_ne_zero (by simpa using hLast)
      have hLength : (b :: bs).length - 1 = bs.length - 1 + 1 := by simp [hn]
      dsimp only
      rw [hAll, hLength, List.replicate_succ]
      rfl

end MessageParser

/-! ### The two classes -/

theorem requestMessages_parse (t : HttpRequestParser) (b : Bytes) : requestMessages.parse t b = t.parse b := rfl

theorem replyMessages_parse (t : HttpReplyParser) (b : Bytes) : replyMessages.parse t b = t.parse b := rfl

theorem requestMessages_parseAll (t : HttpRequestParser) (bs : List Bytes) :
    requestMessages.parseAll t bs = t.parseAll bs := by
  induction bs generalizing t with
  | nil => rfl
  | cons b bs ih =>
    rw [MessageParser.parseAll, HttpRequestParser.parseAll, ih]
    rfl

theorem replyMessages_parseAll (t : HttpReplyParser) (bs : List Bytes) :
    replyMessages.parseAll t bs = t.parseAll bs := by
  induction bs generalizing t with
  | nil => rfl
  | cons b bs ih =>
    rw [MessageParser.parseAll, HttpReplyParser.parseAll, ih]
    rfl

theorem reads_fresh (t : HttpParserType) : (Scan.resume (httpParserInit t) []).Reads (freshReader t) where
  between := between_fresh t
  errno := rfl
  parser := rfl
  count := Nat.le_refl _
  loop := fun hLoop => absurd rfl hLoop

theorem feeds_httpRequestParser (major minor : Int) :
    requestMessages.Feeds (httpRequestParser major minor) [] (freshReader .httpRequest) :=
  ⟨reads_fresh .httpRequest, rfl, ⟨rfl, rfl, rfl, fun _ hVersion => by cases hVersion⟩, rfl⟩

theorem feeds_httpReplyParser (statusCode : ℕ) :
    replyMessages.Feeds (httpReplyParser statusCode) [] (freshReader .httpResponse) :=
  ⟨reads_fresh .httpResponse, rfl, ⟨rfl, rfl, fun _ hStatus => by cases hStatus⟩, rfl⟩

namespace MessageParser

variable {T : Type} {M : MessageParser T}

theorem Feeds.parseAll_passes {t : T} {r r' : Reader} {bs : List Bytes} (h : M.Feeds t [] r)
    (hNe : ∀ b ∈ bs, b ≠ []) (hSome : bs ≠ []) (hPasses : r.Passes bs.flatten r')
    (hLate : r'.message.complete = true ∧ r'.parser.upgrade = false) :
    ∃ t', M.parseAll t bs = (List.replicate (bs.length - 1) .indeterminate ++ [.good], t') ∧
      M.Shows t' r'.message := by
  have hEarly (u v : Bytes) (q : Reader) (hSplit : bs.flatten = u ++ v) (hv : v ≠ []) (hq : r.run u = some q) :
      q.message.complete = false ∧ q.parser.upgrade = false := by
    obtain ⟨ch, v, rfl⟩ := List.exists_cons_of_ne_nil hv
    have hSteady := hPasses.steady
    rw [hSplit] at hSteady
    exact ⟨(hSteady.at hq).complete, (hSteady.at hq).upgrade⟩
  obtain ⟨t', calls', hAll, hEnd⟩ :=
    h.parseAll hNe hSome (hPasses.steady.mono fun _ _ hSteady => hSteady.clean) hPasses.run hEarly hLate
  exact ⟨t', hAll, hEnd.shows'⟩

end MessageParser

end HttpUtils
