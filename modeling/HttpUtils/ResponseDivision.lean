import HttpUtils.Injection
import HttpUtils.LengthError

/-!
# A reader beside `parse`

The header size apart, the object is behind every read where the reader of all bytes so far is, and `parse` is good
where that reader has a complete message.
-/

namespace HttpUtils
set_option autoImplicit false

open MessageParser

/-! ### One read -/

def Reader.Unfolds (r : Reader) (ch : UInt8) : Prop := ¬ (r.parser.state = .sHeaderValueLws ∧ (ch = SP ∨ ch = HT))

namespace MessageParser

variable {T : Type} {M : MessageParser T} {t : T} {calls : List Callback} {r : Reader} {b : Bytes}

/-- The read stops the parser at the limit of the header size, and is good at most behind a complete message. -/
structure Overflown (M : MessageParser T) (result : ResultType) (t : T) (r : Reader) (text : Bytes) : Prop where
  errno : (M.parser t).httpErrno = .headerOverflow
  late : result = .good → ∃ a c q, text = a ++ c ∧ r.run a = some q ∧ q.message.complete = true

structure Followed (M : MessageParser T) (result : ResultType) (t : T) (r : Reader) (text : Bytes)
    (calls : List Callback) (r' : Reader) : Prop where
  behind : M.Behind t calls r'
  run : r.run text = some r'
  good : result = .good ↔ r'.message.complete = true

theorem Behind.unfolded (h : M.Behind t calls r) {s : Scan}
    (hRun : PartialRun.run Scan.next (Scan.resume (M.parser t) calls) b = some s)
    (hShort : s.ctl.jumped ≤ httpMaxHeaderSize) (hKept : ¬ (Scan.resume (M.parser t) calls).Lost)
    (hUnfolds : PartialRun.Along Reader.step Reader.Unfolds r b) : ¬ s.Lost := by
  rw [Scan.run_lost_iff h.holds.sound hRun, or_iff_right hKept]
  rintro ⟨u, c, v, q, rfl, hq, hState, hBlank⟩
  obtain ⟨p, hp, hRest⟩ := PartialRun.run_append_eq_some.mp hRun
  obtain rfl := Option.some.inj (hq.symm.trans hp)
  obtain ⟨q', hq', hShadow⟩ := h.holds.sound.shadow_run h.shadow hq (Scan.run_short hRest hShort)
  have hHere := hUnfolds.append hq'
  refine hHere.1 ⟨?_, hBlank⟩
  rw [hShadow.parser, Ctl.plain_state]
  exact hState

theorem Behind.goes (h : M.Behind t calls r) (hb : b ≠ []) (hShort : b.length < 2 ^ 31)
    (hHere : (M.parse t b).1 ≠ .bad) :
    M.Overflown (M.parse t b).1 (M.parse t b).2 r b ∨
      ∃ calls' r', M.Followed (M.parse t b).1 (M.parse t b).2 r b calls' r' ∧
        (¬ (Scan.resume (M.parser t) calls).Lost → PartialRun.Along Reader.step Reader.Unfolds r b →
          ¬ Message.LosesAny {} calls' ∧
            (Outside (M.parser (M.parse t b).2).state → ¬ (Scan.resume (M.parser (M.parse t b).2) calls').Lost)) := by
  cases hRun : PartialRun.run Scan.next (Scan.resume (M.parser t) calls) b with
  | none => exact absurd (h.holds.parse_none hb hRun) hHere
  | some s =>
    have hSound := h.holds.sound.run hRun
    cases hCut : s.cut with
    | none =>
      left
      obtain ⟨hReads, hErrno, -⟩ := h.holds.parse_overflow hb hRun hCut
      refine ⟨hErrno, fun hGood => ?_⟩
      rw [hReads.result, verdict_good] at hGood
      cases hOpen : r.message.complete with
      | true => exact ⟨[], b, r, rfl, rfl, hOpen⟩
      | false =>
        rw [h.shadow.message] at hOpen
        obtain ⟨a, c, q, rfl, -, hq, hEnd⟩ := h.holds.sound.atEnd hRun hOpen hGood.2
        have hZero : q.ctl.jumped ≤ httpMaxHeaderSize := by
          rw [hEnd.ctl]
          exact Nat.zero_le _
        obtain ⟨q', hq', hShadow⟩ := h.holds.sound.shadow_run h.shadow hq hZero
        exact ⟨a, c, q', rfl, hq', by rw [hShadow.message, hEnd.complete]⟩
    | some u =>
      right
      have hJumped := h.holds.short_of_cut hShort hRun hCut
      obtain ⟨r', hr', hShadow⟩ := h.holds.sound.shadow_run h.shadow hRun hJumped
      obtain ⟨hReads, hParser, -, hHolds⟩ := h.holds.parse_cut hb hRun hCut
      obtain ⟨-, -, -, hLost, hLoses⟩ := hSound.cut hCut
      have hResume : Scan.resume (M.parser (M.parse t b).2) u.calls = u := by
        rw [hParser]
        exact (Scan.resume_cut hCut).symm
      refine ⟨u.calls, r', ⟨⟨hHolds, ?_⟩, hr', ?_⟩, fun hKept hUnfolds => ⟨?_, fun hOutside => ?_⟩⟩
      · rw [hResume]
        exact hSound.shadow_cut hShadow hCut
      · have hResult := hReads.result
        rw [← hShadow.message] at hResult
        rw [hResult] at hHere ⊢
        cases hUpgrade : s.parser.upgrade with
        | true =>
          rw [hUpgrade] at hHere
          exact absurd rfl hHere
        | false => simp [verdict_good]
      · rw [hLoses]
        exact h.unfolded hRun hJumped hKept hUnfolds
      · rw [hResume, hLost]
        have hState : (M.parser (M.parse t b).2).state = s.parser.state := hReads.state
        rw [hState] at hOutside
        rintro (hGone | hField | hValue)
        · exact h.unfolded hRun hJumped hKept hUnfolds hGone
        · exact hOutside.1 hField
        · exact hOutside.2 hValue

/-! ### Every division -/

theorem Behind.division (h : M.Behind t calls r) {bs : List Bytes} (hNe : ∀ c ∈ b :: bs, c ≠ [])
    (hShort : ∀ c ∈ b :: bs, c.length < 2 ^ 31) (hUnrefused : M.Unrefused t (b :: bs)) :
    ∃ result, (M.parseAll t (b :: bs)).1.getLast? = some result ∧
      (M.Overflown result (M.parseAll t (b :: bs)).2 r (b :: bs).flatten ∨
        ∃ calls' r', M.Followed result (M.parseAll t (b :: bs)).2 r (b :: bs).flatten calls' r' ∧
          (¬ (Scan.resume (M.parser t) calls).Lost → PartialRun.Along Reader.step Reader.Unfolds r (b :: bs).flatten →
            M.Uncut t (b :: bs) → ¬ Message.LosesAny {} calls')) := by
  obtain ⟨hHere, hRest⟩ := unrefused_cons.mp hUnrefused
  have hGoes := h.goes (hNe b List.mem_cons_self) (hShort b List.mem_cons_self) hHere
  induction bs generalizing t calls r b with
  | nil =>
    refine ⟨(M.parse t b).1, rfl, ?_⟩
    rw [List.flatten_cons, List.flatten_nil, List.append_nil]
    refine hGoes.imp id ?_
    rintro ⟨calls', r', hFollowed, hKeeps⟩
    exact ⟨calls', r', hFollowed, fun hKept hUnfolds _ => (hKeeps hKept hUnfolds).1⟩
  | cons c bs ih =>
    obtain ⟨hNext, hTail⟩ := unrefused_cons.mp hRest
    have hNe' : ∀ d ∈ c :: bs, d ≠ [] := fun d hd => hNe d (List.mem_cons_of_mem b hd)
    have hShort' : ∀ d ∈ c :: bs, d.length < 2 ^ 31 := fun d hd => hShort d (List.mem_cons_of_mem b hd)
    rcases hGoes with hOver | ⟨calls', r', hFollowed, hKeeps⟩
    · have hError : (M.parser (M.parse t b).2).httpErrno ≠ .ok := by
        rw [hOver.errno]
        decide
      exact absurd (parse_after_error hError (hNe' c List.mem_cons_self) (M.shows_parse b h.holds.shows')) hNext
    · have hBehind := hFollowed.behind
      obtain ⟨result, hLast, hEnd⟩ := ih hBehind hNe' hShort' hRest hNext hTail
        (hBehind.goes (hNe' c List.mem_cons_self) (hShort' c List.mem_cons_self) hNext)
      have hRun (text : Bytes) : r.run (b ++ text) = r'.run text := PartialRun.run_append_of_run hFollowed.run text
      refine ⟨result, ?_, ?_⟩
      · rw [parseAll]
        exact hLast
      rw [List.flatten_cons]
      rcases hEnd with ⟨hErrno, hLate⟩ | ⟨calls'', r'', ⟨hBehind', hRun', hGood⟩, hKeeps'⟩
      · left
        refine ⟨hErrno, fun hGood => ?_⟩
        obtain ⟨a, d, q, hSplit, hq, hDone⟩ := hLate hGood
        exact ⟨b ++ a, d, q, by rw [hSplit, List.append_assoc], (hRun a).trans hq, hDone⟩
      · right
        refine ⟨calls'', r'', ⟨hBehind', (hRun _).trans hRun', hGood⟩, fun hKept hUnfolds hUncut => ?_⟩
        obtain ⟨hOutside, hUncut'⟩ := uncut_cons.mp hUncut
        have hKept' := (hKeeps hKept hUnfolds.prefix).2 hOutside
        exact hKeeps' hKept' (hUnfolds.append hFollowed.run) hUncut'

end MessageParser

end HttpUtils
