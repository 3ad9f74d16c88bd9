import HttpUtils.Frames
import HttpUtils.InterimResponses

/-!
# What an accepted message is made of

The same for `parse`: however the bytes came in buffers, where the last buffer is good and those before it are not,
the bytes begin with a framed message that ends in the last buffer, and the body shown begins with its body.
-/

namespace HttpUtils
set_option autoImplicit false

/-! ### The body in a scan -/

namespace Scan

theorem Sound.body_run {s t : Scan} {b : Bytes} (h : s.Sound) (hRun : PartialRun.run Scan.next s b = some t) :
    s.message.body <+: t.message.body := by
  induction b generalizing s with
  | nil =>
    obtain rfl := Option.some.inj hRun
    exact List.prefix_rfl
  | cons ch b ih =>
    obtain ⟨q, hNext, hRest⟩ := PartialRun.run_cons_eq_some.mp hRun
    refine List.IsPrefix.trans ?_ (ih (h.next hNext).sound hRest)
    obtain ⟨v, hMove, rfl⟩ := next_eq_some.mp hNext
    rw [← (h.between.take hMove).message_eq]
    have hSee (m : Message) (c : Callback) (hm : s.message.body <+: m.body) : s.message.body <+: (m.see c).body :=
      hm.trans (m.body_see c)
    exact v.spell_keeps hSee s.parser ch List.prefix_rfl

theorem Between.body_calls {s : Scan} {m : Message} (h : s.Between m) (hCtl : s.ctl ≠ .outer) :
    (Message.spell {} s.calls).body = m.body := by
  obtain ⟨-, hFits, o, hSpells, hMark⟩ := h
  have hState : openMark s.parser.state = some .headerField ∨ openMark s.parser.state = some .headerValue := by
    cases hc : s.ctl with
    | outer => exact absurd hc hCtl
    | field n =>
      rw [hc] at hFits
      exact .inl (by rw [show s.parser.state = .sHeaderField from hFits]; rfl)
    | value n g jump =>
      rw [hc] at hFits
      exact .inr (by rw [hFits.1]; rfl)
  rw [hSpells.message]
  cases o with
  | none => rfl
  | some x =>
    obtain ⟨k, run⟩ := x
    have hk : k = .headerField ∨ k = .headerValue := by
      rcases hMark with hMark | ⟨-, hBody⟩
      · rcases hState with hState | hState <;> rw [hState] at hMark <;> have hk := Option.some.inj hMark
        · exact .inl hk
        · exact .inr hk
      · rcases hState with hState | hState <;> cases hs : s.parser.state <;> rw [hs] at hBody hState <;>
          cases hBody <;>
          cases hState
    rcases hk with rfl | rfl
    · simp only [Message.seeOpen, DataCb.call, Message.see]
      split <;> rfl
    · rfl

end Scan

/-! ### One buffer, and all of them -/

namespace MessageParser

variable {T : Type} {M : MessageParser T} {t : T} {calls : List Callback} {r : Reader} {b : Bytes}

/-- The buffers are a message: the last one is good, and those before it neither good nor bad. -/
def Accepts (M : MessageParser T) (t : T) (bs : List Bytes) : Prop :=
  (M.parseAll t bs).1 = List.replicate (bs.length - 1) .indeterminate ++ [.good]

structure Reports (M : MessageParser T) (t : T) (r : Reader) (a c : Bytes) : Prop where
  shown : ∃ q m, r.run a = some q ∧ q.message.complete = true ∧ M.Shows t m ∧ q.message.body <+: m.body ∧
    (c = [] → m.body = q.message.body)

theorem Behind.reports (h : M.Behind t calls r) (hb : b ≠ []) (hOpen : r.message.complete = false)
    (hGood : (M.parse t b).1 = .good) : ∃ a c, b = a ++ c ∧ M.Reports (M.parse t b).2 r a c := by
  cases hRun : PartialRun.run Scan.next (Scan.resume (M.parser t) calls) b with
  | none =>
    rw [h.holds.parse_none hb hRun] at hGood
    cases hGood
  | some s =>
    rw [(h.holds.parse_run hb hRun).result, verdict_good] at hGood
    rw [h.shadow.message] at hOpen
    obtain ⟨a, c, e, rfl, -, he, hEnd⟩ := h.holds.sound.atEnd hRun hOpen hGood.2
    obtain ⟨q, hq, hShadow⟩ := h.holds.sound.shadow_run h.shadow he (by rw [hEnd.ctl]; exact Nat.zero_le _)
    have hSound := h.holds.sound.run he
    obtain ⟨e', he', hRest⟩ := PartialRun.run_append_eq_some.mp hRun
    obtain rfl := Option.some.inj (he.symm.trans he')
    have hMore : e.message.body <+: s.message.body := hSound.body_run hRest
    have hSame : c = [] → s.message.body = e.message.body := by
      rintro rfl
      rw [Option.some.inj hRest]
    have hShows := M.shows_parse (a ++ c) h.holds.shows'
    rw [← Message.spell_append] at hShows
    have hBody : (Message.spell {} (calls ++ (httpParserExecute (M.parser t) (a ++ c)).2.1)).body =
        s.message.body := by
      cases hCut : s.cut with
      | some u =>
        obtain ⟨-, -, hCalls, -⟩ := h.holds.parse_cut hb hRun hCut
        obtain ⟨-, -, hSpelled, -, -⟩ := (h.holds.sound.run hRun).cut hCut
        rw [← hCalls, hSpelled]
      | none =>
        obtain ⟨-, -, hCalls⟩ := h.holds.parse_overflow hb hRun hCut
        have hCtl : s.ctl ≠ .outer := by
          intro hOuter
          obtain ⟨u, hSome, -⟩ := Scan.cut_outer hOuter
          rw [hCut] at hSome
          cases hSome
        rw [← hCalls, (h.holds.sound.run hRun).between.body_calls hCtl]
    refine ⟨a, c, rfl, q, _, hq, ?_, hShows, ?_, ?_⟩
    · rw [hShadow.message, hEnd.complete]
    · rw [hBody, hShadow.message]
      exact hMore
    · rw [hBody, hShadow.message]
      exact hSame

theorem Behind.accepted (h : M.Behind t calls r) {bs : List Bytes} (hNe : ∀ c ∈ bs, c ≠ [])
    (hShort : ∀ c ∈ bs, c.length < 2 ^ 31) (hOpen : r.message.complete = false) (hAccepts : M.Accepts t bs) :
    ∃ us a c p, bs = us ++ [a ++ c] ∧ r.run us.flatten = some p ∧ p.message.complete = false ∧
      M.Reports (M.parseAll t bs).2 p a c := by
  induction bs generalizing t calls r with
  | nil => cases hAccepts
  | cons b bs ih =>
    have hb := hNe b List.mem_cons_self
    cases bs with
    | nil =>
      obtain ⟨a, c, rfl, hReports⟩ := h.reports hb hOpen (List.cons_eq_cons.mp hAccepts).1
      exact ⟨[], a, c, r, rfl, rfl, hOpen, hReports⟩
    | cons d bs =>
      obtain ⟨hHere, hRest⟩ := List.cons_eq_cons.mp hAccepts
      have hNe' : ∀ c ∈ d :: bs, c ≠ [] := fun c hc => hNe c (List.mem_cons_of_mem b hc)
      have hShort' : ∀ c ∈ d :: bs, c.length < 2 ^ 31 := fun c hc => hShort c (List.mem_cons_of_mem b hc)
      rcases h.goes hb (hShort b List.mem_cons_self) (by rw [hHere]; decide) with hOver | ⟨calls', r', hFollowed, -⟩
      · have hError : (M.parser (M.parse t b).2).httpErrno ≠ .ok := by
          rw [hOver.errno]
          decide
        have hBad : (M.parse (M.parse t b).2 d).1 = .bad :=
          parse_after_error hError (hNe' d List.mem_cons_self) (M.shows_parse b h.holds.shows')
        have hMem : (M.parse (M.parse t b).2 d).1 ∈ (M.parseAll (M.parse t b).2 (d :: bs)).1 := List.mem_cons_self
        rw [hRest, hBad] at hMem
        rcases List.mem_append.mp hMem with hEarly | hLast
        · cases List.eq_of_mem_replicate hEarly
        · cases List.mem_singleton.mp hLast
      · have hStill : r'.message.complete = false := by
          by_contra hDone
          have hGood := hFollowed.good.mpr (by simpa using hDone)
          rw [hHere] at hGood
          cases hGood
        obtain ⟨us, a, c, p, hSplit, hp, hReports⟩ := ih hFollowed.behind hNe' hShort' hStill hRest
        refine ⟨b :: us, a, c, p, by rw [hSplit]; rfl, ?_, hReports⟩
        rw [List.flatten_cons]
        exact (PartialRun.run_append_of_run hFollowed.run us.flatten).trans hp

structure Framing (start : Reader) (bs : List Bytes) (m rest body : Bytes) : Prop where
  split : bs.flatten = m ++ rest
  inLast : ∀ b ∈ bs.getLast?, rest.length < b.length
  ends : ∃ e, Ends start m e ∧ e.message.body = body
  framed : start.Framed m body

theorem Behind.framing {start : Reader} (h : M.Behind t calls start) {bs : List Bytes} (hNe : ∀ c ∈ bs, c ≠ [])
    (hShort : ∀ c ∈ bs, c.length < 2 ^ 31) (hHead : start.parser.InHead)
    (hSkip : start.parser.flags.fSkipbody = false)
    (hBody : start.message.body = []) (hOpen : start.message.complete = false) (hAccepts : M.Accepts t bs) :
    ∃ m rest body shown, Framing start bs m rest body ∧ M.Shows (M.parseAll t bs).2 shown ∧ body <+: shown.body ∧
      (rest = [] → shown.body = body) := by
  obtain ⟨us, a, c, p, rfl, hp, hStill, q, shown, hq, hDone, hShows, hPrefix, hSame⟩ :=
    h.accepted hNe hShort hOpen hAccepts
  have hText : start.run (us.flatten ++ a) = some q := (PartialRun.run_append_of_run hp a).trans hq
  obtain ⟨m, rest, e, hSplit, hEnds, hFramed⟩ := Reader.framed hHead hSkip hBody hOpen hText hDone
  rw [hSplit] at hText
  have hAfter : e.run rest = some q := (PartialRun.run_append_of_run hEnds.run rest).symm.trans hText
  refine ⟨m, rest ++ c, e.message.body, shown, ⟨?_, ?_, ⟨e, hEnds, rfl⟩, hFramed⟩, hShows, ?_, ?_⟩
  · rw [List.flatten_append, List.flatten_singleton, ← List.append_assoc, hSplit, List.append_assoc]
  · intro b hb
    rw [List.getLast?_append, List.getLast?_singleton] at hb
    obtain rfl := Option.some.inj hb
    -- the message is not complete behind the buffers before
    have hLonger : us.flatten.length < m.length := by
      by_contra hLong
      obtain ⟨v, hv⟩ : m <+: us.flatten :=
        List.prefix_of_prefix_length_le (hSplit ▸ List.prefix_append m rest) (List.prefix_append _ a) (by omega)
      rw [← hv] at hp
      have hRest : e.run v = some p := (PartialRun.run_append_of_run hEnds.run v).symm.trans hp
      have hComplete := Reader.run_complete hRest hEnds.complete
      rw [hStill] at hComplete
      cases hComplete
    have hLengths := congrArg List.length hSplit
    simp only [List.length_append] at hLengths ⊢
    omega
  · exact (Reader.body_run hAfter).trans hPrefix
  · intro hNil
    obtain ⟨rfl, rfl⟩ := List.append_eq_nil_iff.mp hNil
    obtain rfl := Option.some.inj hAfter
    exact hSame rfl

end MessageParser

/-! ### The two classes -/

open MessageParser

theorem inHead_fresh (t : HttpParserType) : (freshReader t).parser.InHead ∧
    (freshReader t).parser.flags.fSkipbody = false := by
  cases t <;> exact ⟨⟨rfl, rfl, rfl⟩, rfl⟩

/-- What the classes accept is framed, in buffers of any size. -/
theorem accepted_framed (major minor : Int) (statusCode : ℕ) :
    (∀ bs : List Bytes, (∀ b ∈ bs, b ≠ []) → (∀ b ∈ bs, b.length < 2 ^ 31) →
      ((httpRequestParser major minor).parseAll bs).1 = List.replicate (bs.length - 1) .indeterminate ++ [.good] →
      ∃ m rest body, Framing (freshReader .httpRequest) bs m rest body ∧
        body <+: ((httpRequestParser major minor).parseAll bs).2.mReq.body ∧
        (rest = [] → ((httpRequestParser major minor).parseAll bs).2.mReq.body = body)) ∧
    (∀ bs : List Bytes, (∀ b ∈ bs, b ≠ []) → (∀ b ∈ bs, b.length < 2 ^ 31) →
      ((httpReplyParser statusCode).parseAll bs).1 = List.replicate (bs.length - 1) .indeterminate ++ [.good] →
      ∃ m rest body, Framing (freshReader .httpResponse) bs m rest body ∧
        body <+: ((httpReplyParser statusCode).parseAll bs).2.mReply.content ∧
        (rest = [] → ((httpReplyParser statusCode).parseAll bs).2.mReply.content = body)) := by
  constructor
  · intro bs hNe hShort hGood
    obtain ⟨hHead, hSkip⟩ := inHead_fresh .httpRequest
    rw [← requestMessages_parseAll] at hGood ⊢
    have hBehind : requestMessages.Behind (httpRequestParser major minor) [] (freshReader .httpRequest) :=
      ⟨holds_httpRequestParser major minor, shadowed_fresh .httpRequest⟩
    obtain ⟨m, rest, body, shown, hFraming, hShows, hPrefix, hSame⟩ :=
      hBehind.framing hNe hShort hHead hSkip rfl rfl hGood
    rw [← hShows.body] at hPrefix hSame
    exact ⟨m, rest, body, hFraming, hPrefix, hSame⟩
  · intro bs hNe hShort hGood
    obtain ⟨hHead, hSkip⟩ := inHead_fresh .httpResponse
    rw [← replyMessages_parseAll] at hGood ⊢
    have hBehind : replyMessages.Behind (httpReplyParser statusCode) [] (freshReader .httpResponse) :=
      ⟨holds_httpReplyParser statusCode, shadowed_fresh .httpResponse⟩
    obtain ⟨m, rest, body, shown, hFraming, hShows, hPrefix, hSame⟩ :=
      hBehind.framing hNe hShort hHead hSkip rfl rfl hGood
    rw [← hShows.content] at hPrefix hSame
    exact ⟨m, rest, body, hFraming, hPrefix, hSame⟩

def chunkedPost : List Bytes :=
  [ascii "POST / HTTP/1.1\r\nTransfer-Encoding: chunked\r\n\r\n4;a\r\nWi", ascii "ki\r\n0\r\n\r\n"]

def sizedReply : List Bytes := [ascii "HTTP/1.1 200 OK\r\nContent-Le", ascii "ngth: 2\r\n\r\n", ascii "ab"]

theorem chunkedPost_framed :
    (∃ m rest body, Framing (freshReader .httpRequest) chunkedPost m rest body ∧ body <+: ascii "Wiki" ∧
      (rest = [] → ascii "Wiki" = body)) ∧
    (∃ m rest body, Framing (freshReader .httpResponse) sizedReply m rest body ∧ body <+: ascii "ab" ∧
      (rest = [] → ascii "ab" = body)) := by
  have hPost : ((httpRequestParser 0 0).parseAll chunkedPost).2.mReq.body = ascii "Wiki" := by decide +kernel
  have hReply : ((httpReplyParser 0).parseAll sizedReply).2.mReply.content = ascii "ab" := by decide +kernel
  rw [← hPost, ← hReply]
  exact ⟨(accepted_framed 0 0 0).1 chunkedPost (by decide +kernel) (by decide +kernel) (by decide +kernel),
    (accepted_framed 0 0 0).2 sizedReply (by decide +kernel) (by decide +kernel) (by decide +kernel)⟩

end HttpUtils
