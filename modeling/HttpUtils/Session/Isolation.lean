import HttpUtils.Session.Replies
import HttpUtils.Pipelining

/-!
# The request that is handed over

`do_read` feeds one read after another to the parser until it returns good or bad. The last of these reads
may go on behind the end of the request, and `m_req` takes all of it.
-/

namespace HttpUtils
set_option autoImplicit false

open WaitableTimer MessageParser

def Effect.request : Effect → Option Request
  | .invokedHandler req => some req
  | _ => none

theorem Effect.request_of_starts {x : Effect} (h : x.starts = false) : x.request = none := by
  cases x <;> first | rfl | cases h

namespace Session

/-- The requests given to the request handler. -/
def handedOver (s : Session) : List Request := s.history.filterMap Effect.request

def readEvents (id : ℕ) : List Bytes → List Event
  | [] => []
  | b :: bs => .complete id (.ok b) :: readEvents (id + 1) bs

/-- A request that ends with `a`, fed in the reads `us` and one more, which goes on with `tail`: the handler
gets the same request as from the reads cut off at its end. -/
def Isolated (s : Session) (us : List Bytes) (a tail : Bytes) : Prop :=
  ∃ t, s.run (readEvents 0 (us ++ [a ++ tail])) = some t ∧
    t.handedOver = [(s.mRequestParser.parseAll (us ++ [a])).2.moveReq.1]

structure Feeding (s : Session) (id : ℕ) (p : HttpRequestParser) : Prop where
  outstanding : s.outstanding = [(id, .readSome)]
  nextId : s.nextId = id + 1
  parser : s.mRequestParser = p
  handedOver : s.handedOver = []

theorem Feeding.step_eq {s : Session} {id : ℕ} {p : HttpRequestParser} {b : Bytes} (h : s.Feeding id p)
    (hb : b ≠ [] ∧ b.length ≤ bufferSize) : s.step (.complete id (.ok b)) =
      some ((s.finish id).onReadSome (.ok b)) := by
  have hOp : s.outstanding.lookup id = some .readSome := by
    rw [h.outstanding]
    simp
  rw [step, hOp, Option.bind_some]
  exact if_pos hb

theorem Feeding.indeterminate {s : Session} {id : ℕ} {p : HttpRequestParser} {b : Bytes} (h : s.Feeding id p)
    (hResult : (p.parse b).1 = .indeterminate) : ((s.finish id).onReadSome (.ok b)).Feeding (id + 1)
    (p.parse b).2 := by
  obtain ⟨hOutstanding, hNextId, rfl, hHanded⟩ := h
  unfold Session.handedOver at hHanded
  have hParse : (s.finish id).cancelTimer.mRequestParser.parse b = (.indeterminate, (s.mRequestParser.parse b).2) :=
    Prod.ext hResult rfl
  simp only [onReadSome, hParse]
  rw [doRead, withTimeout_eq rfl]
  refine ⟨?_, ?_, rfl, ?_⟩
  · simp [begin, emit, finish, cancelTimer, hOutstanding, hNextId]
  · simp [begin, emit, finish, cancelTimer, hNextId]
  · simp [Session.handedOver, begin, emit, finish, cancelTimer, Effect.request, hHanded]

/-- After a good read, and after a bad one, no read is outstanding. -/
theorem Feeding.judged {s : Session} {id : ℕ} {p : HttpRequestParser} {b : Bytes} (h : s.Feeding id p)
    (hResult : (p.parse b).1 ≠ .indeterminate) :
    ((s.finish id).onReadSome (.ok b)).outstanding.countP isInput = 0 ∧
      ((s.finish id).onReadSome (.ok b)).handedOver = if (p.parse b).1 = .good then [(p.parse b).2.mReq] else [] := by
  obtain ⟨hOutstanding, hNextId, rfl, hHanded⟩ := h
  unfold Session.handedOver at hHanded
  cases hCase : (s.mRequestParser.parse b).1 with
  | indeterminate => exact absurd hCase hResult
  | good =>
    have hParse : (s.finish id).cancelTimer.mRequestParser.parse b = (.good, (s.mRequestParser.parse b).2) :=
      Prod.ext hCase rfl
    simp only [onReadSome, hParse, handleRequest]
    rw [withTimeout_eq rfl]
    constructor
    · simp [begin, emit, finish, cancelTimer, hOutstanding, isInput]
    · simp [Session.handedOver, begin, emit, finish, cancelTimer, Effect.request, hHanded, HttpRequestParser.moveReq]
      rfl
  | bad =>
    have hParse : (s.finish id).cancelTimer.mRequestParser.parse b = (.bad, (s.mRequestParser.parse b).2) :=
      Prod.ext hCase rfl
    simp only [onReadSome, hParse]
    rw [doWrite_eq rfl]
    constructor
    · simp [begin, emit, finish, cancelTimer, hOutstanding, isInput]
    · simp [Session.handedOver, begin, emit, finish, cancelTimer, Effect.request, hHanded]

theorem handedOver_step {s t : Session} {id : ℕ} {result : IoResult} (hs : s.outstanding.countP isInput = 0)
    (hStep : s.step (.complete id result) = some t) :
    t.outstanding.countP isInput = 0 ∧ t.handedOver = s.handedOver := by
  have hNoInput (hInput : s.Inputs id) : False := by
    obtain ⟨op, hMem, hIs⟩ := hInput.mem
    exact List.countP_eq_zero.mp hs _ hMem hIs
  cases step_took hStep with
  | reads hInput _ _ => exact (hNoInput hInput).elim
  | handles hInput _ _ => exact (hNoInput hInput).elim
  | refuses hInput _ => exact (hNoInput hInput).elim
  | @rests _ effects _ hRests hRested =>
    constructor
    · have hLe := (s.rest_sublist (.complete id result)).countP_le (p := isInput)
      rw [← hRested.outstanding] at hLe
      omega
    · have hQuiet : effects.filterMap Effect.request = [] :=
        List.filterMap_eq_nil_iff.mpr fun x hx => Effect.request_of_starts (hRested.quiet x hx)
      rw [handedOver, hRested.history, List.filterMap_append, hQuiet, List.append_nil]
      rfl

theorem handedOver_run {s t : Session} {id : ℕ} {bs : List Bytes} (hs : s.outstanding.countP isInput = 0)
    (hRun : s.run (readEvents id bs) = some t) : t.handedOver = s.handedOver := by
  induction bs generalizing s id with
  | nil =>
    obtain rfl := Option.some.inj hRun
    rfl
  | cons b bs ih =>
    obtain ⟨u, hStep, hRest⟩ := PartialRun.run_cons_eq_some.mp hRun
    obtain ⟨hNone, hSame⟩ := handedOver_step hs hStep
    rw [ih hNone hRest, hSame]

theorem Feeding.bad {s t : Session} {id : ℕ} {p : HttpRequestParser} {b : Bytes} {bs : List Bytes}
    (h : s.Feeding id p) (hb : b ≠ [] ∧ b.length ≤ bufferSize) (hResult : (p.parse b).1 = .bad)
    (hRun : s.run (readEvents id (b :: bs)) = some t) : t.handedOver = [] := by
  obtain ⟨u, hStep, hRest⟩ := PartialRun.run_cons_eq_some.mp hRun
  rw [h.step_eq hb] at hStep
  obtain rfl := Option.some.inj hStep
  obtain ⟨hNone, hHanded⟩ := h.judged (b := b) (by simp [hResult])
  rw [handedOver_run hNone hRest, hHanded, hResult]
  rfl

theorem Feeding.last {s : Session} {id : ℕ} {p : HttpRequestParser} {b : Bytes} (h : s.Feeding id p)
    (hb : b ≠ [] ∧ b.length ≤ bufferSize) (req : Request) :
    (∃ t, s.run (readEvents id [b]) = some t ∧ t.handedOver = [req]) ↔
      (p.parse b).1 = .good ∧ (p.parse b).2.mReq = req := by
  have hRun : s.run (readEvents id [b]) = some ((s.finish id).onReadSome (.ok b)) :=
    (PartialRun.run_singleton s _).trans (h.step_eq hb)
  rw [hRun]
  constructor
  · rintro ⟨t, hSome, hHanded⟩
    obtain rfl := Option.some.inj hSome
    by_cases hGoes : (p.parse b).1 = .indeterminate
    · rw [(h.indeterminate hGoes).handedOver] at hHanded
      cases hHanded
    · rw [(h.judged hGoes).2] at hHanded
      split at hHanded
      · rename_i hGood
        exact ⟨hGood, (List.cons_eq_cons.mp hHanded).1⟩
      · cases hHanded
  · rintro ⟨hGood, rfl⟩
    refine ⟨_, rfl, ?_⟩
    rw [(h.judged (by simp [hGood])).2, if_pos hGood]

theorem Feeding.run_iff {s : Session} {id : ℕ} {p : HttpRequestParser} {calls : List Callback} {r e : Reader}
    {us : List Bytes} {a tail : Bytes} (h : s.Feeding id p) (hBehind : requestMessages.Behind p calls r)
    (hType : p.mParser.type = .httpRequest) (hReads : ∀ b ∈ us ++ [a ++ tail], b ≠ [] ∧ b.length ≤ bufferSize)
    (ha : a ≠ []) (hEnds : Ends r (us.flatten ++ a) e) :
    (∃ t, s.run (readEvents id (us ++ [a ++ tail])) = some t ∧
        t.handedOver = [(requestMessages.parseAll p (us ++ [a])).2.mReq]) ↔
      requestMessages.Unrefused p (us ++ [a]) ∧
        Scan.Harmless (requestMessages.parseAll p (us ++ [a])).2.mParser tail := by
  have hSize : bufferSize ≤ httpMaxHeaderSize := by decide
  induction us generalizing s id p calls r with
  | nil =>
    obtain ⟨hb, hLength⟩ := hReads (a ++ tail) (by simp)
    have hShort : a.length ≤ httpMaxHeaderSize := by
      rw [List.length_append] at hLength
      omega
    rw [List.nil_append, List.nil_append, h.last ⟨hb, hLength⟩]
    refine (parse_tail_iff hBehind hType ha hShort hEnds).trans ?_
    rw [unrefused_cons]
    simp [Unrefused, parseAll, requestMessages]
  | cons b us ih =>
    obtain ⟨hb, hLength⟩ := hReads b (by simp)
    have hRest : ∀ c ∈ us ++ [a ++ tail], c ≠ [] ∧ c.length ≤ bufferSize :=
      fun c hc => hReads c (List.mem_cons_of_mem _ hc)
    have hm : us.flatten ++ a ≠ [] := by simp [ha]
    rw [List.flatten_cons, List.append_assoc] at hEnds
    simp only [List.cons_append, unrefused_cons, parseAll]
    by_cases hHere : (requestMessages.parse p b).1 = .bad
    · refine iff_of_false ?_ (fun hGoes => hGoes.1.1 hHere)
      rintro ⟨t, hRun, hHanded⟩
      rw [h.bad ⟨hb, hLength⟩ hHere hRun] at hHanded
      cases hHanded
    obtain ⟨hGoes, hNext⟩ := hBehind.inside hb (by omega) hm hEnds hHere
    have hFeeding := h.indeterminate hGoes
    have hRun (t : Session) : s.run (readEvents id (b :: (us ++ [a ++ tail]))) = some t ↔
        ((s.finish id).onReadSome (.ok b)).run (readEvents (id + 1) (us ++ [a ++ tail])) = some t := by
      rw [readEvents, Session.run, PartialRun.run_cons_of_step (h.step_eq ⟨hb, hLength⟩)]
      rfl
    simp only [hRun]
    rcases hNext with ⟨hSame, calls', r', hBehind', hEnds'⟩ | hRefused
    · refine (ih hFeeding hBehind' (hSame.trans hType) hRest hEnds').trans ?_
      rw [and_assoc, and_iff_right hHere]
      exact Iff.rfl
    · obtain ⟨c, cs, hSplit⟩ := List.exists_cons_of_ne_nil (l := us ++ [a ++ tail]) (by simp)
      have hc := hRest c (by rw [hSplit]; simp)
      refine iff_of_false ?_ ?_
      · rintro ⟨t, hRun', hHanded⟩
        rw [hSplit] at hRun'
        rw [hFeeding.bad hc (hRefused c hc.1) hRun'] at hHanded
        cases hHanded
      · rintro ⟨⟨-, hGoes'⟩, -⟩
        obtain ⟨d, ds, hSplit'⟩ := List.exists_cons_of_ne_nil (l := us ++ [a]) (by simp)
        have hd : d ≠ [] := by
          cases us with
          | nil =>
            obtain ⟨rfl, -⟩ := List.cons_eq_cons.mp hSplit'
            exact ha
          | cons v us =>
            obtain ⟨rfl, -⟩ := List.cons_eq_cons.mp hSplit'
            exact (hRest v (by simp)).1
        rw [hSplit', unrefused_cons] at hGoes'
        exact hGoes'.1 (hRefused d hd)

end Session

open Session

/-- Where the reads up to the end of the request are accepted, its handler is called and sees nothing of the
bytes behind it exactly if these are harmless: line ends, and in a connection that is kept alive the
beginning of a request line before its url. -/
theorem request_isolated_iff (mRequest : Request) (major minor : Int) (mReply : Reply) (us : List Bytes)
    (a tail : Bytes) (hReads : ∀ b ∈ us ++ [a ++ tail], b ≠ [] ∧ b.length ≤ bufferSize) (ha : a ≠ [])
    (hOne : requestMessages.OneMessage (httpRequestParser major minor) (us.flatten ++ a)) :
    (serverSession .http mRequest major minor mReply).Isolated us a tail ↔
      requestMessages.Unrefused (httpRequestParser major minor) (us ++ [a]) ∧
        Scan.Harmless ((httpRequestParser major minor).parseAll (us ++ [a])).2.mParser tail := by
  have hFeeding : (serverSession .http mRequest major minor mReply).Feeding 0 (httpRequestParser major minor) :=
    ⟨rfl, rfl, rfl, rfl⟩
  have hBehind : requestMessages.Behind (httpRequestParser major minor)
      [] ⟨(httpParserInit .httpRequest).plain, {}, 0⟩ :=
    ⟨holds_httpRequestParser major minor, rfl, (holds_httpRequestParser major minor).spelled.symm⟩
  obtain ⟨e, hEnds⟩ := hOne.ends hBehind (by simp [ha])
  have hIff := hFeeding.run_iff hBehind rfl hReads ha hEnds
  rw [requestMessages_parseAll] at hIff
  exact hIff

/-- A close message and a line end behind it in the last of two reads. -/
theorem emptyLine_isolated :
    (bareSession .http).Isolated [ascii "GET / HTT"] (ascii "P/1.0\r\n\r\n") (ascii "\r\n") := by
  have hReads : ∀ b ∈ [ascii "GET / HTT"] ++ [ascii "P/1.0\r\n\r\n" ++ ascii "\r\n"], b ≠ [] ∧
      b.length ≤ bufferSize := by
    decide +kernel
  have hOne : requestMessages.OneMessage (httpRequestParser 0 0)
      ([ascii "GET / HTT"].flatten ++ ascii "P/1.0\r\n\r\n") :=
    oneMessage_of_prefixes (by decide +kernel) (by decide +kernel)
  apply (request_isolated_iff _ _ _ _ _ _ _ hReads (by decide +kernel) hOne).mpr
  refine ⟨?_, by decide +kernel, .dead, by decide +kernel, ?_⟩
  · unfold Unrefused
    decide +kernel
  · unfold Prelude.Word
    decide +kernel

/-- The url of a second request in the same read is appended to the first. -/
theorem pipelined_not_isolated :
    requestMessages.OneMessage (httpRequestParser 0 0) getRequest ∧
      ¬ (bareSession .http).Isolated [] getRequest (ascii "GET /b HTTP/1.1\r\n\r\n") ∧
      ((bareSession .http).run [.complete 0 (.ok (getRequest ++ ascii "GET /b HTTP/1.1\r\n\r\n"))]).map handedOver =
        some [⟨[], ascii "//b", 1, 1, [], []⟩] := by
  refine ⟨oneMessage_of_prefixes (by decide +kernel) (by decide +kernel), ?_, by decide +kernel⟩
  rintro ⟨t, hRun, hHanded⟩
  have hMap : ((bareSession .http).run (readEvents 0 [getRequest ++ ascii "GET /b HTTP/1.1\r\n\r\n"])).map
      handedOver =
      some [⟨[], ascii "//b", 1, 1, [], []⟩] := by decide +kernel
  have hRun' : (bareSession .http).run (readEvents 0 [getRequest ++ ascii "GET /b HTTP/1.1\r\n\r\n"]) = some t := hRun
  rw [hRun', Option.map_some, hHanded] at hMap
  revert hMap
  decide +kernel

end HttpUtils
