import HttpUtils.HttpParser.Division
import HttpUtils.HttpParser.Places
import HttpUtils.HttpParser.Completion

/-!
# What is known of a scan between two bytes

`Scan.Sound` collects the invariants of the modules before: every byte that is accepted keeps them,
and so does the end of a buffer.
-/

namespace HttpUtils
set_option autoImplicit false

/-! ### What every byte keeps -/

/-- The header size stays within its limit, and a byte that sets an error is not accepted. -/
structure Move.Keeps (P : HttpParser) (v : Move) : Prop where
  type : v.parser.type = P.type
  nread : P.nread ≤ httpMaxHeaderSize → v.parser.nread ≤ httpMaxHeaderSize
  errno : P.httpErrno = .ok → v.parser.httpErrno = .ok

theorem nread_of_counted {P Q : HttpParser} {n : ℕ} (h : counted P n = some Q) : Q.nread ≤ httpMaxHeaderSize := by
  obtain ⟨hOver, rfl⟩ := counted_eq_some.mp h
  simpa [overflows] using hOver

theorem headerFieldChar_keeps (P : HttpParser) (ch c : UInt8) :
    (headerFieldChar P ch c).type = P.type ∧ (headerFieldChar P ch c).nread = P.nread := by
  have hKeyword (keyword : Bytes) (done : HttpParser → HttpParser)
      (h : ∀ P, (done P).type = P.type ∧ (done P).nread = P.nread) :
      (matchKeyword keyword P c done).type = P.type ∧ (matchKeyword keyword P c done).nread = P.nread := by
    simp only [matchKeyword]
    split
    · exact ⟨rfl, rfl⟩
    split
    · exact h _
    · exact ⟨rfl, rfl⟩
  cases hs : P.headerState <;> simp only [headerFieldChar, hs]
  case hMatchingContentLength =>
    refine hKeyword _ _ fun P => ?_
    split <;> exact ⟨rfl, rfl⟩
  case hMatchingConnection | hMatchingProxyConnection | hMatchingTransferEncoding | hMatchingUpgrade =>
    exact hKeyword _ _ fun _ => ⟨rfl, rfl⟩
  all_goals (try split) <;> trivial

theorem headerValueChar_keeps (P : HttpParser) (h : HeaderStates) (ch : UInt8) :
    (headerValueChar P h ch).1.type = P.type ∧ (headerValueChar P h ch).1.nread = P.nread := by
  have hMatch (keyword : Bytes) (g done miss : HeaderStates) :
      (matchValue keyword P (lower ch) g done miss).1.type = P.type ∧
        (matchValue keyword P (lower ch) g done miss).1.nread = P.nread := by
    simp only [matchValue]
    repeat' split
    all_goals exact ⟨rfl, rfl⟩
  cases h
  case hMatchingTransferEncodingChunked | hMatchingConnectionKeepAlive | hMatchingConnectionClose
    | hMatchingConnectionUpgrade => exact hMatch _ _ _ _
  all_goals
    unfold headerValueChar
    dsimp only
    repeat' split
    all_goals exact ⟨rfl, rfl⟩

theorem fieldMove_keeps {P : HttpParser} {n : ℕ} {ch : UInt8} {v : Move} (hMove : fieldMove P n ch = some v) :
    v.Keeps P := by
  unfold fieldMove at hMove
  split at hMove
  · obtain ⟨Q, hQ, hv⟩ := Option.bind_eq_some_iff.mp hMove
    have hNread := nread_of_counted hQ
    obtain rfl := (counted_eq_some.mp hQ).2
    split at hv
    · obtain rfl := Option.some.inj hv
      exact ⟨rfl, fun _ => hNread, id⟩
    · cases hv
  · obtain ⟨hType, hNread⟩ := headerFieldChar_keeps P ch (token ch)
    dsimp only at hMove
    split at hMove
    · cases hMove
    · obtain rfl := Option.some.inj hMove
      rename_i hNoError
      exact ⟨hType, fun hLimit => hNread.symm ▸ hLimit, fun _ => not_not.mp hNoError⟩

theorem valueMove_keeps {P : HttpParser} {n : ℕ} {g : HeaderStates} {jump : Option ℕ} {ch : UInt8} {v : Move}
    (hMove : valueMove P n g jump ch = some v) : v.Keeps P := by
  have hStop {w : Move} (h : stopMove P n g ch = some w) : w.Keeps P := by
    obtain ⟨Q, hQ, rfl⟩ := Option.map_eq_some_iff.mp h
    have hNread := nread_of_counted hQ
    obtain rfl := (counted_eq_some.mp hQ).2
    exact ⟨rfl, fun _ => hNread, id⟩
  unfold valueMove at hMove
  cases jump with
  | some i =>
    dsimp only at hMove
    split at hMove
    · exact hStop hMove
    · obtain rfl := Option.some.inj hMove
      exact ⟨rfl, id, id⟩
  | none =>
    dsimp only at hMove
    split at hMove
    · exact hStop hMove
    split at hMove
    · cases hMove
    split at hMove
    · obtain rfl := Option.some.inj hMove
      exact ⟨rfl, id, id⟩
    split at hMove
    · cases hMove
    · obtain rfl := Option.some.inj hMove
      rename_i hNoError
      obtain ⟨hType, hNread⟩ := headerValueChar_keeps P g ch
      exact ⟨hType, fun hLimit => hNread.symm ▸ hLimit, fun _ => not_not.mp hNoError⟩

theorem switchMove_keeps {P : HttpParser} {ch : UInt8} {v : Move} (hMove : switchMove P ch = some v) : v.Keeps P := by
  unfold switchMove at hMove
  split at hMove
  · exact fieldMove_keeps hMove
  · exact valueMove_keeps hMove
  · obtain ⟨hFlow, rfl⟩ := Outcome.move_eq_some hMove
    obtain ⟨hType, hNread, hErrno, -⟩ := switch_keeps P ch 1
    rw [hFlow] at hErrno
    exact ⟨hType, fun hLimit => Nat.le_trans hNread hLimit, (hErrno (by simp)).trans⟩

theorem move_keeps {P : HttpParser} {c : Ctl} {ch : UInt8} {v : Move} (hMove : move P c ch = some v) : v.Keeps P := by
  cases c with
  | field n => exact fieldMove_keeps hMove
  | value n g jump => exact valueMove_keeps hMove
  | outer =>
    simp only [move] at hMove
    split at hMove
    · obtain ⟨Q, hQ, hv⟩ := Option.bind_eq_some_iff.mp hMove
      have hNread := nread_of_counted hQ
      obtain rfl := (counted_eq_some.mp hQ).2
      obtain ⟨hType, hLimit, hErrno⟩ := switchMove_keeps hv
      exact ⟨hType, fun _ => hLimit hNread, hErrno⟩
    · exact switchMove_keeps hMove

namespace Scan

/-- What the calls so far spell, with the open run as the last of them. -/
def message (s : Scan) : Message := Message.spell {} s.flush.calls

theorem Between.message_eq {s : Scan} {m : Message} (h : s.Between m) : m = s.message := by
  obtain ⟨-, -, o, hSpells, -⟩ := h
  rw [message, flush_of_holding hSpells.marks, Message.spell_append, spell_openCall]
  exact hSpells.message

structure Sound (s : Scan) : Prop where
  between : s.Between s.message
  errno : s.parser.httpErrno = .ok
  header : HeaderFits s.parser.state s.message
  upgrade : s.parser.UpgradeFits
  nread : s.parser.nread ≤ httpMaxHeaderSize

/-- What an accepted byte does to the message, to what is lost and to the end of the message. -/
structure Accepts (s : Scan) (ch : UInt8) (t : Scan) : Prop where
  sound : t.Sound
  lost : t.Lost ↔ s.Lost ∨ s.parser.state = .sHeaderValueLws ∧ (ch = SP ∨ ch = HT)
  complete : s.message.complete = true → t.message.complete = true
  ends : s.message.complete = false → t.message.complete = true →
    t.parser.state = newMessage t.parser ∧ t.parser.upgrade = false ∧ t.ctl = .outer
  upgrade : s.parser.upgrade = true → t.parser.upgrade = true
  type : t.parser.type = s.parser.type

theorem Sound.next {s t : Scan} {ch : UInt8} (h : s.Sound) (hNext : s.next ch = some t) : s.Accepts ch t := by
  obtain ⟨v, hMove, rfl⟩ := next_eq_some.mp hNext
  have hBetween := h.between.take hMove
  have hMessage := hBetween.message_eq
  have hPlaces := move_places h.between.fits h.header hMove
  have hEnds := move_ends h.between.fits hMove
  have hKeeps := move_keeps hMove
  have hComplete := Move.spell_complete s.parser ch v s.message
  rw [hMessage] at hBetween hComplete
  refine ⟨⟨hBetween, ?_, ?_, ?_, ?_⟩, ?_, ?_, ?_, ?_, ?_⟩
  · rw [parser_of_take]
    exact hKeeps.errno h.errno
  · rw [parser_of_take, ← hMessage]
    exact hPlaces.fits
  · rw [parser_of_take]
    exact (hEnds.upgrade h.upgrade).1
  · rw [parser_of_take]
    exact hKeeps.nread h.nread
  · rw [h.between.take_lost hMove, hPlaces.loses]
  · intro hDone
    exact hComplete.mpr (.inl hDone)
  · intro hOpen hDone
    rw [parser_of_take, take_ctl]
    apply hEnds.complete
    apply (hComplete.mp hDone).resolve_left
    simp [hOpen]
  · rw [parser_of_take]
    exact (hEnds.upgrade h.upgrade).2
  · rw [parser_of_take]
    exact hKeeps.type

theorem Sound.run {s t : Scan} {b : Bytes} (h : s.Sound) (hRun : PartialRun.run Scan.next s b = some t) : t.Sound :=
  have hKeeps : PartialRun.Preserves Scan.next Sound := fun _ _ _ hSound hNext => (hSound.next hNext).sound
  hKeeps.run h hRun

theorem sound_fresh (t : HttpParserType) : (start (httpParserInit t)).Sound := by
  have hBetween := between_fresh t
  have hMessage := hBetween.message_eq
  rw [hMessage] at hBetween
  refine ⟨hBetween, rfl, ?_, (fun hOn => by cases hOn), Nat.zero_le _⟩
  rw [show (start (httpParserInit t)).message = {} from hMessage.symm]
  cases t <;> rfl

theorem cutMove_keeps {P Q : HttpParser} {c : Ctl} (h : cutMove P c = some Q) :
    Q.pastHead = P.pastHead ∧ Q.type = P.type ∧ (P.nread ≤ httpMaxHeaderSize → Q.nread ≤ httpMaxHeaderSize) := by
  cases c with
  | outer =>
    obtain rfl := Option.some.inj h
    exact ⟨rfl, rfl, id⟩
  | field n | value n g jump =>
    have hNread := nread_of_counted h
    obtain rfl := (counted_eq_some.mp h).2
    exact ⟨rfl, rfl, fun _ => hNread⟩

theorem Sound.cut {s t : Scan} (h : s.Sound) (hCut : s.cut = some t) :
    t.Sound ∧ t.message = s.message ∧ s.message = Message.spell {} t.calls ∧
      (t.Lost ↔ s.Lost ∨ s.parser.state = .sHeaderField ∨ s.parser.state = .sHeaderValue) ∧
      (Message.LosesAny {} t.calls ↔ s.Lost) := by
  obtain ⟨hBetween, hSpelled⟩ := h.between.cut hCut
  obtain ⟨hLost, hLoses⟩ := h.between.cut_lost hCut
  obtain ⟨Q, hQ, rfl⟩ := Option.map_eq_some_iff.mp hCut
  obtain ⟨hState, -, hErrno, hUpgrade⟩ := cutMove_eq_some hQ
  have hMessage := hBetween.message_eq.symm
  rw [losesAt_openMark h.header] at hLost
  obtain ⟨hPast, -, hNread⟩ := cutMove_keeps hQ
  refine ⟨⟨?_, ?_, ?_, ?_, hNread h.nread⟩, hMessage, hSpelled, hLost, hLoses⟩
  · rwa [hMessage]
  · exact hErrno.trans h.errno
  · rw [hMessage]
    exact hState ▸ h.header
  · intro hOn
    rw [show (start Q).parser = Q from rfl, hPast]
    exact h.upgrade (hUpgrade.symm.trans hOn)

/-! ### The end of the message -/

structure AtEnd (s : Scan) : Prop where
  complete : s.message.complete = true
  state : s.parser.state = newMessage s.parser
  upgrade : s.parser.upgrade = false
  ctl : s.ctl = .outer

/-- A message that becomes complete does so behind one of the bytes. -/
theorem Sound.atEnd {s t : Scan} {b : Bytes} (h : s.Sound) (hRun : PartialRun.run Scan.next s b = some t)
    (hOpen : s.message.complete = false) (hDone : t.message.complete = true) :
    ∃ a c q, b = a ++ c ∧ a ≠ [] ∧ PartialRun.run Scan.next s a = some q ∧ q.AtEnd := by
  induction b generalizing s with
  | nil =>
    obtain rfl := Option.some.inj hRun
    rw [hOpen] at hDone
    cases hDone
  | cons ch b ih =>
    obtain ⟨q, hNext, hRest⟩ := PartialRun.run_cons_eq_some.mp hRun
    have hAccepts := h.next hNext
    cases hComplete : q.message.complete with
    | true =>
      obtain ⟨hState, hUpgrade, hCtl⟩ := hAccepts.ends hOpen hComplete
      refine ⟨[ch], b, q, rfl, by simp, ?_, hComplete, hState, hUpgrade, hCtl⟩
      rw [PartialRun.run_singleton]
      exact hNext
    | false =>
      obtain ⟨a, c, p, rfl, hNe, hp, hEnd⟩ := ih hAccepts.sound hRest hComplete
      exact ⟨ch :: a, c, p, rfl, by simp, (PartialRun.run_cons_of_step hNext a).trans hp, hEnd⟩

theorem AtEnd.marks {s : Scan} (h : s.AtEnd) (hSound : s.Sound) : s.marks = holding none := by
  obtain ⟨-, -, o, hSpells, hMark⟩ := hSound.between
  have hNone : o = none := by
    rw [h.state] at hMark
    rcases hMark with hMark | ⟨-, hBody⟩
    · rw [openMark_newMessage] at hMark
      exact Option.map_eq_none_iff.mp hMark
    · unfold newMessage at hBody
      split at hBody
      · cases hType : s.parser.type <;> rw [hType] at hBody <;> cases hBody
      · cases hBody
  rw [hSpells.marks, hNone]

theorem AtEnd.lost {s : Scan} (h : s.AtEnd) (hSound : s.Sound) : s.Lost ↔ Message.LosesAny {} s.calls := by
  rw [lost_iff (h.marks hSound)]
  simp

theorem cut_outer {s : Scan} (h : s.ctl = .outer) : ∃ t, s.cut = some t ∧ t.parser = s.parser := by
  rw [Scan.cut, h]
  exact ⟨_, rfl, rfl⟩

theorem run_upgrade {s t : Scan} {b : Bytes} (h : s.Sound) (hRun : PartialRun.run Scan.next s b = some t)
    (hUpgrade : t.parser.upgrade = false) : s.parser.upgrade = false := by
  have hKeeps : PartialRun.Preserves Scan.next fun s => s.Sound ∧ s.parser.upgrade = true := by
    rintro s ch t ⟨hSound, hOn⟩ hNext
    exact ⟨(hSound.next hNext).sound, (hSound.next hNext).upgrade hOn⟩
  by_contra hOn
  have hEnd := hKeeps.run ⟨h, by simpa using hOn⟩ hRun
  rw [hUpgrade] at hEnd
  cases hEnd.2

theorem run_complete {s t : Scan} {b : Bytes} (h : s.Sound) (hRun : PartialRun.run Scan.next s b = some t)
    (hDone : s.message.complete = true) : t.message.complete = true := by
  have hKeeps : PartialRun.Preserves Scan.next fun s => s.Sound ∧ s.message.complete = true := by
    rintro s ch t ⟨hSound, hOn⟩ hNext
    exact ⟨(hSound.next hNext).sound, (hSound.next hNext).complete hOn⟩
  exact (hKeeps.run ⟨h, hDone⟩ hRun).2

theorem run_lost {s t : Scan} {b : Bytes} (h : s.Sound) (hRun : PartialRun.run Scan.next s b = some t)
    (hLost : s.Lost) : t.Lost := by
  have hKeeps : PartialRun.Preserves Scan.next fun s => s.Sound ∧ s.Lost := by
    rintro s ch t ⟨hSound, hGone⟩ hNext
    exact ⟨(hSound.next hNext).sound, (hSound.next hNext).lost.mpr (.inl hGone)⟩
  exact (hKeeps.run ⟨h, hLost⟩ hRun).2

/-- Within a buffer only a folded value is lost. -/
theorem run_lost_iff {s t : Scan} {b : Bytes} (h : s.Sound) (hRun : PartialRun.run Scan.next s b = some t) :
    t.Lost ↔ s.Lost ∨ ∃ u c v q, b = u ++ c :: v ∧ PartialRun.run Scan.next s u = some q ∧
      q.parser.state = .sHeaderValueLws ∧ (c = SP ∨ c = HT) := by
  induction b generalizing s with
  | nil =>
    obtain rfl := Option.some.inj hRun
    simp
  | cons ch b ih =>
    obtain ⟨q, hNext, hRest⟩ := PartialRun.run_cons_eq_some.mp hRun
    have hAccepts := h.next hNext
    rw [ih hAccepts.sound hRest, hAccepts.lost, or_assoc]
    apply or_congr_right
    constructor
    · rintro (hHere | ⟨u, c, v, p, rfl, hp, hFold⟩)
      · exact ⟨[], ch, b, s, rfl, rfl, hHere⟩
      · exact ⟨ch :: u, c, v, p, rfl, (PartialRun.run_cons_of_step hNext u).trans hp, hFold⟩
    · rintro ⟨u, c, v, p, hSplit, hp, hFold⟩
      cases u with
      | nil =>
        obtain ⟨rfl, rfl⟩ := List.cons_eq_cons.mp hSplit
        obtain rfl := Option.some.inj hp
        exact .inl hFold
      | cons d u =>
        obtain ⟨rfl, rfl⟩ := List.cons_eq_cons.mp hSplit
        rw [PartialRun.run_cons_of_step hNext] at hp
        exact .inr ⟨u, c, v, p, rfl, hp, hFold⟩

theorem run_type {s t : Scan} {b : Bytes} (h : s.Sound) (hRun : PartialRun.run Scan.next s b = some t) :
    t.parser.type = s.parser.type := by
  have hKeeps : PartialRun.Preserves Scan.next fun q => q.Sound ∧ q.parser.type = s.parser.type := by
    rintro q ch r ⟨hSound, hType⟩ hNext
    exact ⟨(hSound.next hNext).sound, (hSound.next hNext).type.trans hType⟩
  exact (hKeeps.run ⟨h, rfl⟩ hRun).2

theorem cut_type {s t : Scan} (hCut : s.cut = some t) : t.parser.type = s.parser.type := by
  obtain ⟨Q, hQ, rfl⟩ := Option.map_eq_some_iff.mp hCut
  exact (cutMove_keeps hQ).2.1

theorem run_calls {s t : Scan} {b : Bytes} (hRun : PartialRun.run Scan.next s b = some t) : s.calls <+: t.calls := by
  have hAct (ch : UInt8) (s : Scan) (a : Act) : s.calls <+: (s.act ch a).calls := by
    cases a with
    | mark k | advance n => exact List.prefix_rfl
    | notify k => exact List.prefix_append _ _
    | data k | dataThrough k =>
      simp only [act, callbackData]
      split
      · exact List.prefix_rfl
      · exact List.prefix_append _ _
  have hActs (ch : UInt8) (s : Scan) (acts : List Act) : s.calls <+: (acts.foldl (act ch) s).calls := by
    induction acts generalizing s with
    | nil => exact List.prefix_rfl
    | cons a acts ih => exact (hAct ch s a).trans (ih _)
  have hKeeps : PartialRun.Preserves Scan.next fun q => s.calls <+: q.calls := by
    intro q ch r hq hNext
    obtain ⟨v, -, rfl⟩ := next_eq_some.mp hNext
    exact hq.trans (hActs ch { q with parser := v.parser, ctl := v.ctl } v.acts)
  exact hKeeps.run List.prefix_rfl hRun

/-! ### Two scans with the same parser -/

structure Agrees (s t : Scan) : Prop where
  parser : t.parser = s.parser
  ctl : t.ctl = s.ctl
  message : t.message = s.message
  lost : t.Lost ↔ s.Lost

theorem Agrees.next {s s' t : Scan} {ch : UInt8} (h : s.Agrees t) (hs : s.Sound) (ht : t.Sound)
    (hNext : s.next ch = some s') : ∃ t', t.next ch = some t' ∧ s'.Agrees t' := by
  obtain ⟨v, hMove, rfl⟩ := next_eq_some.mp hNext
  have hMove' : move t.parser t.ctl ch = some v := by rwa [h.parser, h.ctl]
  have hNext' : t.next ch = some (t.take ch v) := next_eq_some.mpr ⟨v, hMove', rfl⟩
  refine ⟨t.take ch v, hNext', ?_, ?_, ?_, ?_⟩
  · rw [parser_of_take, parser_of_take]
  · rw [take_ctl, take_ctl]
  · rw [← (hs.between.take hMove).message_eq, ← (ht.between.take hMove').message_eq, h.message]
    simp only [Move.spell, h.parser]
  · rw [(hs.next hNext).lost, (ht.next hNext').lost, h.lost, h.parser]

theorem Agrees.run {s s' t : Scan} {b : Bytes} (h : s.Agrees t) (hs : s.Sound) (ht : t.Sound)
    (hRun : PartialRun.run Scan.next s b = some s') :
    ∃ t', PartialRun.run Scan.next t b = some t' ∧ s'.Agrees t' := by
  have hSteps : PartialRun.Simulates Scan.next Scan.next fun s t => s.Sound ∧ t.Sound ∧ s.Agrees t := by
    rintro s t ch s' ⟨hs, ht, hAgrees⟩ hNext
    obtain ⟨t', hNext', hAgrees'⟩ := hAgrees.next hs ht hNext
    exact ⟨t', hNext', (hs.next hNext).sound, (ht.next hNext').sound, hAgrees'⟩
  obtain ⟨t', hRun', -, -, hAgrees⟩ := hSteps.run ⟨hs, ht, h⟩ hRun
  exact ⟨t', hRun', hAgrees⟩

end Scan

end HttpUtils
