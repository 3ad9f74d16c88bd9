import HttpUtils.HttpParser.NextMessage
import HttpUtils.RoundTrip

/-!
# A message that is not read to its end

What a parser object shows between two buffers of a message that a reader passes over.
-/

namespace HttpUtils
set_option autoImplicit false

/-! ### The body only grows -/

theorem Message.body_see (m : Message) (c : Callback) : m.body <+: (m.see c).body := by
  cases c with
  | onBody run => exact List.prefix_append _ _
  | onHeaderField run =>
    simp only [see]
    split <;> exact List.prefix_rfl
  | _ => exact List.prefix_rfl

section Without

variable {K : DataCb → Prop} {R : Message → Prop}
  (hSee : ∀ k, ¬ K k → ∀ P run m, R m → R (m.see (k.call P run)))
  (hNotify : ∀ (k : NotifyCb) P m, R m → R (m.see (k.call P)))
include hSee hNotify

theorem Live.acts_without (P : HttpParser) (ch : UInt8) {acts : List Act} (hActs : ∀ k, .mark k ∈ acts → ¬ K k)
    {l : Live} (hMark : ∀ k, l.mark = some k → ¬ K k) (h : R l.message) :
    R (acts.foldl (Live.act P ch) l).message ∧ ∀ k, (acts.foldl (Live.act P ch) l).mark = some k → ¬ K k := by
  induction acts generalizing l with
  | nil => exact ⟨h, hMark⟩
  | cons a acts ih =>
    have hRest : ∀ k, .mark k ∈ acts → ¬ K k := fun k hk => hActs k (List.mem_cons_of_mem a hk)
    cases a with
    | mark k =>
      have hk : ¬ K k := hActs k List.mem_cons_self
      refine ih hRest ?_ (hSee k hk _ _ _ h)
      rintro k' hk'
      obtain rfl := Option.some.inj hk'
      exact hk
    | data k =>
      refine ih hRest ?_ ?_ <;> simp only [Live.act] <;> split
      · simp
      · exact hMark
      · exact h
      · exact h
    | dataThrough k =>
      refine ih hRest ?_ ?_ <;> simp only [Live.act] <;> split
      · simp
      · exact hMark
      · rename_i hk
        exact hSee k (hMark k hk) _ _ _ h
      · exact h
    | notify k => exact ih hRest hMark (hNotify k _ _ h)
    | advance n => exact ih hRest hMark h

/-- What the callbacks of all strings but those of `K` keep, a move keeps that has no string of `K` open. -/
theorem Move.spell_without {P : HttpParser} {ch : UInt8} {v : Move} (hOpen : ∀ k, openMark P.state = some k → ¬ K k)
    (hActs : ∀ k, .mark k ∈ v.acts → ¬ K k) {m : Message} (h : R m) : R (v.spell P ch m) := by
  obtain ⟨hMessage, hMark⟩ := Live.acts_without hSee hNotify v.parser ch hActs (l := ⟨openMark P.state, m⟩) hOpen h
  rw [Move.spell]
  revert hMessage hMark
  generalize v.acts.foldl (Live.act v.parser ch) ⟨openMark P.state, m⟩ = l
  intro hMessage hMark
  unfold Live.consume
  cases hk : l.mark with
  | none => exact hMessage
  | some k => exact hSee k (hMark k hk) _ _ _ hMessage

end Without

theorem Move.spell_keeps {R : Message → Prop} (hSee : ∀ m c, R m → R (m.see c)) (P : HttpParser) (ch : UInt8)
    (v : Move) {m : Message} (h : R m) : R (v.spell P ch m) :=
  v.spell_without (K := fun _ => False) (fun _ _ _ _ _ => hSee _ _) (fun _ _ _ => hSee _ _) (fun _ _ => not_false)
    (fun _ _ => not_false) h

namespace Reader

theorem body_run {r r' : Reader} {b : Bytes} (h : r.run b = some r') : r.message.body <+: r'.message.body := by
  induction b generalizing r with
  | nil =>
    obtain rfl := Option.some.inj h
    exact List.prefix_rfl
  | cons ch b ih =>
    obtain ⟨q, hStep, hRest⟩ := PartialRun.run_cons_eq_some.mp h
    obtain ⟨v, -, rfl⟩ := Option.map_eq_some_iff.mp hStep
    have hSee (m : Message) (c : Callback) (hm : r.message.body <+: m.body) : r.message.body <+: (m.see c).body :=
      hm.trans (m.body_see c)
    exact (Move.spell_keeps hSee r.parser ch v List.prefix_rfl).trans (ih hRest)

theorem Passes.before {r r' q : Reader} {u v : Bytes} (h : r.Passes (u ++ v) r') (hv : v ≠ [])
    (hq : r.run u = some q) :
    q.message.complete = false ∧ q.parser.upgrade = false := by
  obtain ⟨ch, v, rfl⟩ := List.exists_cons_of_ne_nil hv
  exact ⟨(h.steady.at hq).complete, (h.steady.at hq).upgrade⟩

end Reader

namespace MessageParser

variable {T : Type} {M : MessageParser T}

/-- The object `t` was given the bytes `got`, and a reader that began with `start` has taken the same. -/
def Midway (M : MessageParser T) (t : T) (start : Reader) (got : Bytes) : Prop :=
  ∃ calls r, M.Feeds t calls r ∧ start.run got = some r

theorem Feeds.midway {t : T} {calls : List Callback} {r : Reader} (h : M.Feeds t calls r) : M.Midway t r [] :=
  ⟨calls, r, h, rfl⟩

theorem Midway.parse {t : T} {start r' : Reader} {got b text : Bytes} (h : M.Midway t start got)
    (hPasses : start.Passes text r') (hLate : r'.message.complete = true ∧ r'.parser.upgrade = false) (hb : b ≠ [])
    (hPrefix : got ++ b <+: text) :
    M.Midway (M.parse t b).2 start (got ++ b) ∧
      (M.parse t b).1 = if got ++ b = text then .good else .indeterminate := by
  obtain ⟨calls, r, hFeeds, hGot⟩ := h
  obtain ⟨tail, rfl⟩ := hPrefix
  obtain ⟨q, hq, hTail⟩ := PartialRun.run_append_eq_some.mp hPasses.run
  have hRun : r.run b = some q := (PartialRun.run_append_of_run hGot b).symm.trans hq
  have hBefore := hPasses.steady.prefix
  have hClean : PartialRun.Along Reader.step Reader.Clean r b :=
    (hBefore.append hGot).mono fun _ _ hSteady => hSteady.clean
  obtain ⟨t', calls', hParse, hFeeds'⟩ := hFeeds.parse hb hClean hRun
  rw [hParse]
  refine ⟨⟨calls', q, hFeeds', hq⟩, ?_⟩
  cases tail with
  | nil =>
    obtain rfl := Option.some.inj hTail
    rw [hLate.1, hLate.2, if_pos (List.append_nil _).symm]
    rfl
  | cons ch tail =>
    obtain ⟨hComplete, hUpgrade⟩ := hPasses.before (by simp) hq
    rw [hComplete, hUpgrade, if_neg (by simp)]
    rfl

theorem Midway.shows' {t : T} {start r' : Reader} {got text : Bytes} (h : M.Midway t start got)
    (hPasses : start.Passes text r') (hPrefix : got <+: text) :
    ∃ m, M.Shows t m ∧ m.body <+: r'.message.body ∧ (got = text → m = r'.message) := by
  obtain ⟨calls, r, hFeeds, hGot⟩ := h
  refine ⟨r.message, hFeeds.shows', ?_, ?_⟩
  · obtain ⟨tail, rfl⟩ := hPrefix
    exact Reader.body_run ((PartialRun.run_append_of_run hGot tail).symm.trans hPasses.run)
  · rintro rfl
    rw [Option.some.inj (hGot.symm.trans hPasses.run)]

end MessageParser

/-! ### Requests and replies -/

/-- The request line and the body are the same; the headers are not looked at. -/
structure Request.Agrees (q r : Request) : Prop where
  uri : q.uri = r.uri
  major : q.httpVersionMajor = r.httpVersionMajor
  minor : q.httpVersionMinor = r.httpVersionMinor
  body : q.body = r.body

def HttpRequestParser.Has (t : HttpRequestParser) (got : Bytes) : Prop :=
  requestMessages.Midway t (freshReader .httpRequest) got

def HttpReplyParser.Has (t : HttpReplyParser) (got : Bytes) : Prop :=
  replyMessages.Midway t (freshReader .httpResponse) got

theorem has_httpRequestParser (major minor : Int) : (httpRequestParser major minor).Has [] :=
  (feeds_httpRequestParser major minor).midway

theorem has_httpReplyParser (statusCode : ℕ) : (httpReplyParser statusCode).Has [] :=
  (feeds_httpReplyParser statusCode).midway

/-- A request that arrives is accepted with its last byte, and agrees with the one that was sent. -/
theorem Request.Encodable.arrives {r : Request} {serverUrl serverPort : Bytes} (h : r.Encodable serverUrl serverPort)
    {t : HttpRequestParser} {got b : Bytes} (hHas : t.Has got) (hb : b ≠ [])
    (hPrefix : got ++ b <+: r.toBytes serverUrl serverPort) :
    (t.parse b).2.Has (got ++ b) ∧
      (got ++ b = r.toBytes serverUrl serverPort ∧ (t.parse b).1 = .good ∧ (t.parse b).2.mReq.Agrees r ∨
        got ++ b ≠ r.toBytes serverUrl serverPort ∧ (t.parse b).1 = .indeterminate) := by
  obtain ⟨r', hPasses, hUpgrade, hComplete, hUrl, hBody, -, v, hVersion, hMajor, hMinor⟩ := h.passes
  obtain ⟨hNext, hResult⟩ := hHas.parse hPasses ⟨hComplete, hUpgrade⟩ hb hPrefix
  refine ⟨hNext, ?_⟩
  by_cases hEnd : got ++ b = r.toBytes serverUrl serverPort
  · obtain ⟨m, hShows, -, hSame⟩ := hNext.shows' hPasses hPrefix
    obtain rfl := hSame hEnd
    have hVersions := hShows.version v hVersion
    rw [if_pos hEnd] at hResult
    exact .inl ⟨hEnd, hResult, hShows.uri.trans hUrl, hVersions.1.trans hMajor, hVersions.2.trans hMinor,
      hShows.body.trans hBody⟩
  · rw [if_neg hEnd] at hResult
    exact .inr ⟨hEnd, hResult⟩

/-- A reply that arrives is not refused. -/
theorem Reply.Encodable.arrives {r : Reply} (h : r.Encodable) {t : HttpReplyParser} {got b : Bytes} (hHas : t.Has got)
    (hb : b ≠ []) (hPrefix : got ++ b <+: r.toBytes) : (t.parse b).2.Has (got ++ b) ∧ (t.parse b).1 ≠ .bad := by
  obtain ⟨r', hPasses, hUpgrade, hComplete, -⟩ := h.passes
  obtain ⟨hNext, hResult⟩ := hHas.parse hPasses ⟨hComplete, hUpgrade⟩ hb hPrefix
  refine ⟨hNext, ?_⟩
  have hResult' : (t.parse b).1 = if got ++ b = r.toBytes then .good else .indeterminate := hResult
  rw [hResult']
  split <;> simp

/-- What was read of a reply is the beginning of its content, and all of the reply at the end. -/
theorem Reply.Encodable.holds {r : Reply} (h : r.Encodable) {t : HttpReplyParser} {got : Bytes} (hHas : t.Has got)
    (hPrefix : got <+: r.toBytes) :
    t.mReply.content <+: r.content ∧
      (got = r.toBytes → t.mReply.statusCode = r.statusCode ∧ t.mReply.content = r.content) := by
  obtain ⟨r', hPasses, -, -, hStatus, hContent, -⟩ := h.passes
  obtain ⟨m, hShows, hBody, hSame⟩ := hHas.shows' hPasses hPrefix
  constructor
  · rw [hShows.content, ← hContent]
    exact hBody
  · intro hEnd
    obtain rfl := hSame hEnd
    exact ⟨hShows.status _ hStatus, hShows.content.trans hContent⟩

theorem HttpReplyParser.Has.empty {t : HttpReplyParser} (h : t.Has []) : t.mReply.content = [] := by
  obtain ⟨calls, r, hFeeds, hGot⟩ := h
  obtain rfl := Option.some.inj hGot
  exact hFeeds.shows'.content

end HttpUtils
