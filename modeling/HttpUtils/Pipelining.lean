import HttpUtils.HttpParser.NextMessage
import HttpUtils.HttpParser.Shadow
import HttpUtils.HeaderDivision

/-!
# Bytes behind a request in the same buffer

`parse` hands the whole buffer to the parser and looks at its own flag afterwards. So the bytes behind a
request are parsed into the same `m_req`, and an error among them is an error of the buffer.
-/

namespace HttpUtils
set_option autoImplicit false

namespace HttpRequestParser

theorem foldl_withParser (t : HttpRequestParser) (P : HttpParser) (calls : List Callback) :
    (calls.foldl callback { t with mParser := P }).mReq = (calls.foldl callback t).mReq := by
  induction calls generalizing t with
  | nil => rfl
  | cons c calls ih =>
    have hCallback : callback { t with mParser := P } c = { t.callback c with mParser := P } := by cases c <;> rfl
    rw [List.foldl_cons, List.foldl_cons, hCallback, ih]

theorem mReq_parse (t : HttpRequestParser) (b : Bytes) :
    (t.parse b).2.mReq = ((httpParserExecute t.mParser b).2.1.foldl callback t).mReq := by
  rw [parse_eq]
  exact foldl_withParser t _ _

theorem foldl_messageBegin (t : HttpRequestParser) (n : ℕ) :
    (List.replicate n .onMessageBegin).foldl callback t = t := by
  induction n with
  | zero => rfl
  | succ n ih => exact ih

end HttpRequestParser

open MessageParser HttpRequestParser

/-- Where a loop is left open, the url has ended. -/
theorem Scan.Between.url_calls {s : Scan} {m : Message} (h : s.Between m) (hCtl : s.ctl ≠ .outer) :
    (Message.spell {} s.calls).url = m.url := by
  obtain ⟨-, hFits, o, hSpells, hMark⟩ := h
  have hState : s.parser.state = .sHeaderField ∨ s.parser.state = .sHeaderValue := by
    cases hc : s.ctl with
    | outer => exact absurd hc hCtl
    | field n =>
      rw [hc] at hFits
      exact .inl hFits
    | value n g jump =>
      rw [hc] at hFits
      exact .inr hFits.1
  rw [hSpells.message]
  cases o with
  | none => rfl
  | some x =>
    obtain ⟨k, run⟩ := x
    rcases hState with hs | hs <;>
      · rw [hs] at hMark
        rcases hMark with hMark | ⟨-, hBody⟩
        · obtain rfl := Option.some.inj hMark
          simp only [Message.seeOpen, DataCb.call, Message.see]
          try split
          all_goals rfl
        · cases hBody

/-! ### The reads up to the end of the request -/

namespace MessageParser

variable {T : Type} {M : MessageParser T}

/-- `parse` refuses none of the buffers. -/
def Unrefused (M : MessageParser T) (t : T) (bs : List Bytes) : Prop := .bad ∉ (M.parseAll t bs).1

theorem unrefused_cons {t : T} {b : Bytes} {bs : List Bytes} :
    M.Unrefused t (b :: bs) ↔ (M.parse t b).1 ≠ .bad ∧ M.Unrefused (M.parse t b).2 bs := by
  rw [Unrefused, parseAll, List.mem_cons, not_or, ne_comm]
  exact Iff.rfl

/-- The object between two reads, and a reader of all bytes so far. -/
structure Behind (M : MessageParser T) (t : T) (calls : List Callback) (r : Reader) : Prop where
  holds : M.Holds t calls
  shadow : (Scan.resume (M.parser t) calls).ShadowedBy r

theorem Behind.read {t : T} {calls : List Callback} {r : Reader} {b : Bytes} {s : Scan} (h : M.Behind t calls r)
    (hShort : b.length ≤ httpMaxHeaderSize)
    (hRun : PartialRun.run Scan.next (Scan.resume (M.parser t) calls) b = some s) :
    ∃ r', r.run b = some r' ∧ s.ShadowedBy r' := by
  apply h.holds.sound.shadow_run h.shadow hRun
  have hJumped := (Scan.run_jumped hRun).1
  have hZero : (Scan.resume (M.parser t) calls).ctl.jumped = 0 := rfl
  omega

/-- A reader that ends with the message. -/
structure Ends (r : Reader) (m : Bytes) (e : Reader) : Prop where
  run : r.run m = some e
  complete : e.message.complete = true
  upgrade : e.parser.upgrade = false
  early : ∀ u v q, m = u ++ v → v ≠ [] → r.run u = some q → q.message.complete = false

theorem Ends.rest {r q e : Reader} {b m : Bytes} (h : Ends r (b ++ m) e) (hq : r.run b = some q) : Ends q m e where
  run := (PartialRun.run_append_of_run hq m).symm.trans h.run
  complete := h.complete
  upgrade := h.upgrade
  early u v p hSplit hv hp :=
    h.early (b ++ u) v p (by rw [hSplit, List.append_assoc]) hv ((PartialRun.run_append_of_run hq u).trans hp)

theorem OneMessage.ends {t : T} {m : Bytes} {r : Reader} (hOne : M.OneMessage t m) (h : M.Behind t [] r)
    (hm : m ≠ []) :
    ∃ e, Ends r m e := by
  obtain ⟨e, hRun, hEnd, hEarly⟩ := hOne.endsWith h.holds hm
  have hZero : e.ctl.jumped ≤ httpMaxHeaderSize := by
    rw [hEnd.ctl]
    decide
  have hSound := h.holds.sound
  obtain ⟨e', hRun', hShadow⟩ := hSound.shadow_run h.shadow hRun hZero
  refine ⟨e', hRun', hShadow.message.symm ▸ hEnd.complete, ?_, ?_⟩
  · rw [hShadow.parser, Ctl.plain_upgrade]
    exact hEnd.upgrade
  · rintro u v q rfl hv hq
    obtain ⟨p, hp⟩ := PartialRun.run_prefix hRun
    rw [PartialRun.run_append_of_run hp] at hRun
    have hShort : p.ctl.jumped ≤ httpMaxHeaderSize := by
      by_contra hLong
      have hPast := (Scan.run_jumped hRun).2 (by omega)
      omega
    obtain ⟨q', hq', hShadow'⟩ := hSound.shadow_run h.shadow hp hShort
    obtain rfl := Option.some.inj (hq.symm.trans hq')
    rw [hShadow'.message]
    exact hEarly u v p rfl hv hp

theorem Behind.inside {t : T} {calls : List Callback} {r e : Reader} {b m : Bytes} (h : M.Behind t calls r)
    (hb : b ≠ []) (hShort : b.length ≤ httpMaxHeaderSize) (hm : m ≠ []) (hEnds : Ends r (b ++ m) e)
    (hHere : (M.parse t b).1 ≠ .bad) :
    (M.parse t b).1 = .indeterminate ∧
      ((M.parser (M.parse t b).2).type = (M.parser t).type ∧
          (∃ calls' r', M.Behind (M.parse t b).2 calls' r' ∧ Ends r' m e) ∨
        ∀ c, c ≠ [] → (M.parse (M.parse t b).2 c).1 = .bad) := by
  cases hRun : PartialRun.run Scan.next (Scan.resume (M.parser t) calls) b with
  | none => exact absurd (h.holds.parse_none hb hRun) hHere
  | some s =>
    obtain ⟨r', hr', hShadow⟩ := h.read hShort hRun
    have hOpen := hEnds.early b _ r' rfl hm hr'
    rw [hShadow.message] at hOpen
    have hResult := (h.holds.parse_run hb hRun).result
    rw [hOpen] at hResult
    constructor
    · cases hUpgrade : s.parser.upgrade with
      | false => rw [hResult, hUpgrade, verdict_indeterminate.mpr ⟨rfl, rfl⟩]
      | true =>
        rw [hResult, hUpgrade] at hHere
        exact absurd rfl hHere
    · cases hCut : s.cut with
      | none =>
        right
        intro c hc
        obtain ⟨-, hErrno, -⟩ := h.holds.parse_overflow hb hRun hCut
        exact parse_after_error (by simp [hErrno]) hc (M.shows_parse b h.holds.shows')
      | some u =>
        left
        obtain ⟨-, hParser, -, hHolds⟩ := h.holds.parse_cut hb hRun hCut
        refine ⟨?_, u.calls, r', ⟨hHolds, ?_⟩, hEnds.rest hr'⟩
        · rw [hParser]
          exact (Scan.cut_type hCut).trans (Scan.run_type h.holds.sound hRun)
        · rw [hParser, ← Scan.resume_cut hCut]
          exact (h.holds.sound.run hRun).shadow_cut hShadow hCut

theorem Behind.last {t : T} {calls : List Callback} {r e : Reader} {a : Bytes} {s : Scan} (h : M.Behind t calls r)
    (ha : a ≠ []) (hShort : a.length ≤ httpMaxHeaderSize) (hEnds : Ends r a e)
    (hRun : PartialRun.run Scan.next (Scan.resume (M.parser t) calls) a = some s) : s.AtEnd := by
  have hSound := h.holds.sound
  obtain ⟨r', hr', hShadow⟩ := h.read hShort hRun
  obtain rfl := Option.some.inj (hr'.symm.trans hEnds.run)
  have hOpen := hEnds.early [] a r rfl ha rfl
  rw [h.shadow.message] at hOpen
  have hDone := hEnds.complete
  rw [hShadow.message] at hDone
  obtain ⟨u, v, q, rfl, hu, hq, hEnd⟩ := hSound.atEnd hRun hOpen hDone
  obtain ⟨p, hp, hShadow'⟩ := h.read (Nat.le_trans (by simp) hShort) hq
  have hNil : v = [] := by
    by_contra hv
    have hEarly := hEnds.early u v p rfl hv hp
    rw [hShadow'.message, hEnd.complete] at hEarly
    cases hEarly
  subst hNil
  rw [List.append_nil, hq] at hRun
  exact Option.some.inj hRun ▸ hEnd

end MessageParser

variable {t : HttpRequestParser} {calls : List Callback} {a tail : Bytes} {s e : Scan}

theorem uri_parse (h : requestMessages.Holds t calls) (ha : a ≠ [])
    (hRun : PartialRun.run Scan.next (Scan.resume t.mParser calls) a = some e) :
    (t.parse a).2.mReq.uri = e.message.url := by
  have hShows := (requestMessages.shows_parse a h.shows').uri
  rw [← Message.spell_append] at hShows
  refine Eq.trans hShows ?_
  cases hCut : e.cut with
  | some u =>
    obtain ⟨-, -, hCalls, -⟩ := h.parse_cut ha hRun hCut
    obtain ⟨-, -, hSpelled, -, -⟩ := (h.sound.run hRun).cut hCut
    rw [hSpelled, hCalls]
  | none =>
    obtain ⟨-, -, hCalls⟩ := h.parse_overflow ha hRun hCut
    have hCtl : e.ctl ≠ .outer := by
      intro hOuter
      obtain ⟨u, hSome, -⟩ := Scan.cut_outer hOuter
      rw [hCut] at hSome
      cases hSome
    rw [← (h.sound.run hRun).between.url_calls hCtl, hCalls]

/-- The request ends with `a`, and the bytes behind it are harmless. -/
theorem parse_harmless (h : requestMessages.Holds t calls) (hType : t.mParser.type = .httpRequest) (ha : a ≠ [])
    (hRun : PartialRun.run Scan.next (Scan.resume t.mParser calls) a = some s) (hEnd : s.AtEnd)
    (hTail : Scan.Harmless s.parser tail) :
    (t.parse (a ++ tail)).1 = .good ∧ (t.parse (a ++ tail)).2.mReq = (t.parse a).2.mReq := by
  have hSound := h.sound.run hRun
  obtain ⟨q, hq, hWaiting⟩ := hEnd.waiting hSound ((Scan.run_type h.sound hRun).trans hType)
  obtain ⟨hWord, hLength⟩ := (hWaiting.harmless_iff hq tail).mp hTail
  obtain ⟨e, q', n, hRest, hLast, hCalls⟩ := hWaiting.run hWord hLength
  have hAll : PartialRun.run Scan.next (Scan.resume t.mParser calls) (a ++ tail) = some e :=
    (PartialRun.run_append_of_run hRun tail).trans hRest
  have hb : a ++ tail ≠ [] := by simp [ha]
  obtain ⟨u, hCut, -, hu⟩ := hWaiting.cut
  obtain ⟨v, hCut', -, hv⟩ := hLast.cut
  obtain ⟨-, -, hFirst, -⟩ := h.parse_cut ha hRun hCut
  obtain ⟨hReads, -, hSecond, -⟩ := h.parse_cut hb hAll hCut'
  constructor
  · have hComplete := Scan.run_complete hSound hRest hEnd.complete
    refine hReads.result.trans ?_
    rw [hLast.upgrade, hComplete]
    rfl
  · have hMore : (httpParserExecute t.mParser (a ++ tail)).2.1 =
        (httpParserExecute t.mParser a).2.1 ++ List.replicate n .onMessageBegin := by
      apply (List.append_right_inj calls).mp
      rw [← List.append_assoc]
      refine hSecond.symm.trans ?_
      rw [hv, hCalls, ← hu, hFirst]
      rfl
    rw [mReq_parse, mReq_parse, hMore, List.foldl_append, foldl_messageBegin]

/-- The bytes behind it are not: the buffer is bad, or the uri goes on. -/
theorem parse_harmful (h : requestMessages.Holds t calls) (hType : t.mParser.type = .httpRequest) (ha : a ≠ [])
    (hRun : PartialRun.run Scan.next (Scan.resume t.mParser calls) a = some s) (hEnd : s.AtEnd)
    (hTail : ¬ Scan.Harmless s.parser tail) :
    (t.parse (a ++ tail)).1 = .bad ∨ (t.parse (a ++ tail)).2.mReq.uri ≠ (t.parse a).2.mReq.uri := by
  have hSound := h.sound.run hRun
  obtain ⟨q, hq, hWaiting⟩ := hEnd.waiting hSound ((Scan.run_type h.sound hRun).trans hType)
  rw [hWaiting.harmless_iff hq] at hTail
  have hb : a ++ tail ≠ [] := by simp [ha]
  rcases hWaiting.run_leaves hTail with hNone | ⟨e, hRest, hLonger⟩
  · left
    apply h.parse_none hb
    exact (PartialRun.run_append_of_run hRun tail).trans hNone
  · right
    rw [uri_parse h ha hRun, uri_parse h hb ((PartialRun.run_append_of_run hRun tail).trans hRest)]
    intro hSame
    rw [hSame] at hLonger
    exact Nat.lt_irrefl _ hLonger

theorem parse_tail_iff {r e' : Reader} (h : requestMessages.Behind t calls r) (hType : t.mParser.type = .httpRequest)
    (ha : a ≠ []) (hShort : a.length ≤ httpMaxHeaderSize) (hEnds : Ends r a e') :
    (t.parse (a ++ tail)).1 = .good ∧ (t.parse (a ++ tail)).2.mReq = (t.parse a).2.mReq ↔
      (t.parse a).1 ≠ .bad ∧ Scan.Harmless (t.parse a).2.mParser tail := by
  have hb : a ++ tail ≠ [] := by simp [ha]
  cases hRun : PartialRun.run Scan.next (Scan.resume t.mParser calls) a with
  | none =>
    have hBad : (t.parse a).1 = .bad := h.holds.parse_none ha hRun
    have hNone : PartialRun.run Scan.next (Scan.resume t.mParser calls) (a ++ tail) = none := by
      rw [PartialRun.run_append, hRun]
      rfl
    have hBad' : (t.parse (a ++ tail)).1 = .bad := h.holds.parse_none hb hNone
    simp [hBad, hBad']
  | some s =>
    have hEnd := h.last ha hShort hEnds hRun
    obtain ⟨u, hCut, hSame⟩ := Scan.cut_outer hEnd.ctl
    obtain ⟨hReads, hParser, -, -⟩ := h.holds.parse_cut ha hRun hCut
    have hParser' : (t.parse a).2.mParser = s.parser := hParser.trans hSame
    have hGood : (t.parse a).1 = .good := by
      refine hReads.result.trans ?_
      rw [hEnd.upgrade, hEnd.complete]
      rfl
    rw [hParser', hGood]
    constructor
    · rintro ⟨hResult, hRequest⟩
      refine ⟨by simp, ?_⟩
      by_contra hHarm
      rcases parse_harmful h.holds hType ha hRun hEnd hHarm with hBad | hUri
      · rw [hResult] at hBad
        cases hBad
      · exact hUri (by rw [hRequest])
    · rintro ⟨-, hTail⟩
      exact parse_harmless h.holds hType ha hRun hEnd hTail

end HttpUtils
