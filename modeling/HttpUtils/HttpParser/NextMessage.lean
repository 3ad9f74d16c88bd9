import HttpUtils.HttpParser.Sound
import Mathlib.Data.List.GetD

/-!
# The first bytes of the next message

Behind a request the parser waits for another one, or for nothing but line ends. As long as it has not come
to a url, the bytes there are reported by no callback that the parser classes use. From the first byte of the
url on, they are.
-/

namespace HttpUtils
set_option autoImplicit false

/-- The parser before the url of a request. -/
inductive Prelude where
  | dead | start
  | method (m : HttpMethod) (index : ℕ)
  | spaces
  deriving DecidableEq, Repr

namespace Prelude

def of (P : HttpParser) : Option Prelude :=
  match P.state with
  | .sDead => some dead
  | .sStartReq => some start
  | .sReqMethod => some (method P.method P.index)
  | .sReqSpacesBeforeUrl => some spaces
  | _ => none

def step : Prelude → UInt8 → Option Prelude
  | dead, ch => if ch = CR ∨ ch = LF then some dead else none
  | start, ch => if ch = CR ∨ ch = LF then some start else (startMethod ch).map (method · 1)
  | method m index, ch =>
    if ch = 0 then none
    else if ch = SP ∧ (methodStrings m).getD index 0 = 0 then some spaces
    else if ch = (methodStrings m).getD index 0 then some (method m (index + 1))
    else if isAlpha ch then (methodSwitch m index ch).map (method · (index + 1))
    else if ch = '-' ∧ index = 1 ∧ m = .mkcol then some (method .msearch (index + 1))
    else none
  | spaces, ch => if ch = SP then some spaces else none

/-! ### The words of the automaton -/

theorem of_lookup {α β : Type} [BEq α] [LawfulBEq α] {l : List (α × β)} {p : α → β → Prop} (hAll : ∀ x ∈ l, p x.1 x.2)
    {a : α} {b : β} (h : l.lookup a = some b) : p a b := by
  obtain ⟨l₁, l₂, rfl, -⟩ := List.lookup_eq_some_iff.mp h
  exact hAll (a, b) (by simp)

theorem startMethod_spells {ch : UInt8} {m : HttpMethod} (h : startMethod ch = some m) :
    isAlpha ch = true ∧ (methodStrings m).take 1 = [ch] :=
  of_lookup (p := fun ch m => isAlpha ch = true ∧ (methodStrings m).take 1 = [ch]) (by decide +kernel) h

theorem methodSwitch_spells {m m' : HttpMethod} {index : ℕ} {ch : UInt8} (h : methodSwitch m index ch = some m') :
    (methodStrings m').take (index + 1) = (methodStrings m).take index ++ [ch] :=
  of_lookup (p := fun k m' => (methodStrings m').take (k.2.1 + 1) = (methodStrings k.1).take k.2.1 ++ [k.2.2])
    (by decide +kernel) h

theorem methodStrings_ne_zero (m : HttpMethod) : ∀ c ∈ methodStrings m, c ≠ 0 := by
  cases m <;> decide +kernel

theorem take_of_getD_zero {m : HttpMethod} {index : ℕ} (h : (methodStrings m).getD index 0 = 0) :
    (methodStrings m).take index = methodStrings m := by
  apply List.take_of_length_le
  by_contra hLt
  rw [List.getD_eq_getElem _ _ (by omega)] at h
  exact methodStrings_ne_zero m _ (List.getElem_mem (by omega)) h

theorem take_succ_of_getD {m : HttpMethod} {index : ℕ} {ch : UInt8} (hZero : ch ≠ 0)
    (h : ch = (methodStrings m).getD index 0) :
    (methodStrings m).take (index + 1) = (methodStrings m).take index ++ [ch] := by
  have hLt : index < (methodStrings m).length := by
    by_contra hGe
    rw [List.getD_eq_default _ _ (by omega)] at h
    exact hZero h
  rw [List.take_add_one, List.getElem?_eq_getElem hLt, h, List.getD_eq_getElem _ _ hLt]
  rfl

theorem run_spaces {w : Bytes} {q : Prelude} (h : PartialRun.run step spaces w = some q) :
    w = List.replicate w.length SP := by
  induction w with
  | nil => rfl
  | cons ch w ih =>
    obtain ⟨p, hStep, hRest⟩ := PartialRun.run_cons_eq_some.mp h
    simp only [step] at hStep
    split at hStep
    · obtain rfl := Option.some.inj hStep
      rename_i hSpace
      rw [List.length_cons, List.replicate_succ, ← ih hRest, hSpace]
    · cases hStep

theorem run_method {w : Bytes} {m : HttpMethod} {index : ℕ} {q : Prelude}
    (h : PartialRun.run step (method m index) w = some q) :
    ∃ m' k, (methodStrings m).take index ++ w <+: methodStrings m' ++ List.replicate k SP := by
  induction w generalizing m index with
  | nil =>
    refine ⟨m, 0, ?_⟩
    simpa using List.take_prefix index (methodStrings m)
  | cons ch w ih =>
    obtain ⟨p, hStep, hRest⟩ := PartialRun.run_cons_eq_some.mp h
    have hGoes {m' : HttpMethod} (hSpells : (methodStrings m').take (index + 1) = (methodStrings m).take
        index ++ [ch])
        (hp : method m' (index + 1) = p) :
        ∃ m'' k, (methodStrings m).take index ++ ch :: w <+: methodStrings m'' ++ List.replicate k SP := by
      subst hp
      obtain ⟨m'', k, hPrefix⟩ := ih hRest
      rw [hSpells, List.append_assoc] at hPrefix
      exact ⟨m'', k, hPrefix⟩
    simp only [step] at hStep
    split at hStep
    · cases hStep
    rename_i hZero
    split at hStep
    · rename_i hSpace
      obtain rfl := Option.some.inj hStep
      refine ⟨m, w.length + 1, [], ?_⟩
      rw [take_of_getD_zero hSpace.2, hSpace.1, List.replicate_succ, ← run_spaces hRest, List.append_nil]
    split at hStep
    · rename_i hMatch
      exact hGoes (take_succ_of_getD hZero hMatch) (Option.some.inj hStep)
    split at hStep
    · obtain ⟨m', hSwitch, hp⟩ := Option.map_eq_some_iff.mp hStep
      exact hGoes (methodSwitch_spells hSwitch) hp
    split at hStep
    · rename_i hDash
      obtain ⟨rfl, rfl, rfl⟩ := hDash
      exact hGoes (by decide +kernel) (Option.some.inj hStep)
    · cases hStep

theorem run_methodStrings (m : HttpMethod) :
    PartialRun.run step start (methodStrings m) = some (method m (methodStrings m).length) := by
  cases m <;> decide +kernel

theorem run_replicate_spaces (k : ℕ) : PartialRun.run step spaces (List.replicate k SP) = some spaces := by
  induction k with
  | zero => rfl
  | succ k ih => exact (PartialRun.run_cons_of_step rfl _).trans ih

theorem run_blank {q : Prelude} (hq : q = dead ∨ q = start) {blank : Bytes} (h : ∀ c ∈ blank, c = CR ∨ c = LF) :
    PartialRun.run step q blank = some q := by
  induction blank with
  | nil => rfl
  | cons c blank ih =>
    have hStep : step q c = some q := by
      rcases hq with rfl | rfl <;> exact if_pos (h c List.mem_cons_self)
    exact (PartialRun.run_cons_of_step hStep blank).trans (ih fun d hd => h d (List.mem_cons_of_mem _ hd))

/-- The bytes that may follow a message without a url among them. -/
def Word : Prelude → Bytes → Prop
  | dead, w => ∀ c ∈ w, c = CR ∨ c = LF
  | _, w => ∃ blank v m k, w = blank ++ v ∧ (∀ c ∈ blank, c = CR ∨ c = LF) ∧
      v <+: methodStrings m ++ List.replicate k SP

theorem run_dead_iff {w : Bytes} : (∃ q, PartialRun.run step dead w = some q) ↔ Word dead w := by
  constructor
  · rintro ⟨q, h⟩ c hc
    induction w with
    | nil => cases hc
    | cons d w ih =>
      obtain ⟨p, hStep, hRest⟩ := PartialRun.run_cons_eq_some.mp h
      simp only [step] at hStep
      split at hStep
      · obtain rfl := Option.some.inj hStep
        rcases List.mem_cons.mp hc with rfl | hc
        · assumption
        · exact ih hRest hc
      · cases hStep
  · intro h
    exact ⟨dead, run_blank (.inl rfl) h⟩

theorem run_start_iff {w : Bytes} : (∃ q, PartialRun.run step start w = some q) ↔ Word start w := by
  constructor
  · rintro ⟨q, h⟩
    induction w with
    | nil => exact ⟨[], [], .get, 0, rfl, by simp, List.nil_prefix⟩
    | cons c w ih =>
      obtain ⟨p, hStep, hRest⟩ := PartialRun.run_cons_eq_some.mp h
      simp only [step] at hStep
      split at hStep
      · rename_i hBlank
        obtain rfl := Option.some.inj hStep
        obtain ⟨blank, v, m, k, rfl, hBlanks, hPrefix⟩ := ih hRest
        refine ⟨c :: blank, v, m, k, rfl, ?_, hPrefix⟩
        intro d hd
        rcases List.mem_cons.mp hd with rfl | hd
        · exact hBlank
        · exact hBlanks d hd
      · obtain ⟨m, hStart, rfl⟩ := Option.map_eq_some_iff.mp hStep
        obtain ⟨m', k, hPrefix⟩ := run_method hRest
        rw [(startMethod_spells hStart).2] at hPrefix
        exact ⟨[], c :: w, m', k, rfl, by simp, hPrefix⟩
  · rintro ⟨blank, v, m, k, rfl, hBlank, u, hu⟩
    have hSpaces : ∃ q, PartialRun.run step (method m (methodStrings m).length) (List.replicate k SP) = some q := by
      cases k with
      | zero => exact ⟨_, rfl⟩
      | succ k =>
        refine ⟨spaces, (PartialRun.run_cons_of_step ?_ _).trans (run_replicate_spaces k)⟩
        have hEnd : (methodStrings m).getD (methodStrings m).length 0 = 0 := List.getD_eq_default _ _ (Nat.le_refl _)
        simp only [step, hEnd]
        rfl
    obtain ⟨q, hq⟩ := hSpaces
    have hWord : PartialRun.run step start (v ++ u) = some q := by
      rw [hu, PartialRun.run_append_of_run (run_methodStrings m)]
      exact hq
    rw [PartialRun.run_append_of_run (run_blank (.inr rfl) hBlank)]
    exact PartialRun.run_prefix hWord

/-! ### The cases of the switch -/

theorem of_eq_some {P : HttpParser} {q : Prelude} (h : of P = some q) :
    P.state = .sDead ∧ q = dead ∨ P.state = .sStartReq ∧ q = start ∨
      P.state = .sReqMethod ∧ q = method P.method P.index ∨ P.state = .sReqSpacesBeforeUrl ∧ q = spaces := by
  unfold of at h
  split at h
  · exact .inl ⟨‹_›, (Option.some.inj h).symm⟩
  · exact .inr (.inl ⟨‹_›, (Option.some.inj h).symm⟩)
  · exact .inr (.inr (.inl ⟨‹_›, (Option.some.inj h).symm⟩))
  · exact .inr (.inr (.inr ⟨‹_›, (Option.some.inj h).symm⟩))
  · cases h

structure Stays (P : HttpParser) (q : Prelude) (v : Move) : Prop where
  prelude : of v.parser = some q
  nread : v.parser.nread = P.nread
  ctl : v.ctl = .outer
  acts : v.acts = [] ∨ v.acts = [.notify .messageBegin]

def Takes (P : HttpParser) (ch : UInt8) : Option Prelude → Prop
  | some q => ∃ v, (switch P ch 1).move = some v ∧ Stays P q v
  | none => (switch P ch 1).move = none ∨ ∃ Q, (switch P ch 1).move = some ⟨[.mark .url], Q, .outer⟩

theorem of_method {P : HttpParser} (h : P.state = .sReqMethod) : of P = some (method P.method P.index) := by
  simp [of, h]

theorem urlStep_leaves (P : HttpParser) (ch : UInt8) :
    (urlStep P ch [.mark .url]).move = none ∨ ∃ Q, (urlStep P ch [.mark .url]).move =
      some ⟨[.mark .url], Q, .outer⟩ := by
  simp only [urlStep]
  split
  · exact .inl rfl
  · exact .inr ⟨_, rfl⟩

theorem switch_prelude {P : HttpParser} {q : Prelude} (h : of P = some q) (ch : UInt8) : Takes P ch (q.step ch) := by
  rcases of_eq_some h with ⟨hState, rfl⟩ | ⟨hState, rfl⟩ | ⟨hState, rfl⟩ | ⟨hState, rfl⟩
  · simp only [step, Takes, switch, hState]
    split_ifs
    · exact ⟨_, rfl, h, rfl, rfl, .inl rfl⟩
    · exact .inl rfl
  · simp only [step, Takes, switch, hState, startReqCase]
    split_ifs with hBlank hAlpha
    · exact ⟨_, rfl, h, rfl, rfl, .inl rfl⟩
    · cases hStart : startMethod ch with
      | none => exact .inl rfl
      | some m => simp [(startMethod_spells hStart).1] at hAlpha
    · cases hStart : startMethod ch with
      | none => exact .inl rfl
      | some m => exact ⟨_, rfl, rfl, rfl, rfl, .inr rfl⟩
  · simp only [step, Takes, switch, hState, reqMethodCase]
    split_ifs with hZero hSpace hMatch hAlpha hDash
    · exact .inl rfl
    · exact ⟨_, rfl, rfl, rfl, rfl, .inl rfl⟩
    · exact ⟨_, rfl, of_method rfl, rfl, rfl, .inl rfl⟩
    · cases hSwitch : methodSwitch P.method P.index ch with
      | none => exact .inl rfl
      | some m => exact ⟨_, rfl, of_method rfl, rfl, rfl, .inl rfl⟩
    · exact ⟨_, rfl, of_method rfl, rfl, rfl, .inl rfl⟩
    · exact .inl rfl
  · simp only [step, Takes, switch, hState, reqSpacesBeforeUrlCase]
    split_ifs
    · exact ⟨_, rfl, h, rfl, rfl, .inl rfl⟩
    · exact urlStep_leaves _ _
    · exact urlStep_leaves _ _

end Prelude

/-! ### The url only grows -/

theorem Message.url_see (m : Message) (c : Callback) : m.url <+: (m.see c).url := by
  cases c with
  | onUrl run => exact List.prefix_append _ _
  | onHeaderField run =>
    simp only [see]
    split <;> exact List.prefix_rfl
  | _ => exact List.prefix_rfl

theorem Live.url_act (P : HttpParser) (ch : UInt8) (l : Live) (a : Act) : l.message.url <+:
    (l.act P ch a).message.url := by
  cases a with
  | mark k => exact Message.url_see _ _
  | notify k => exact Message.url_see _ _
  | advance n => exact List.prefix_rfl
  | data k =>
    simp only [act]
    split <;> exact List.prefix_rfl
  | dataThrough k =>
    simp only [act]
    split
    · exact Message.url_see _ _
    · exact List.prefix_rfl

theorem Move.url_spell (P : HttpParser) (ch : UInt8) (v : Move) (m : Message) : m.url <+: (v.spell P ch m).url := by
  have hActs (l : Live) (acts : List Act) : l.message.url <+: (acts.foldl (Live.act v.parser ch) l).message.url := by
    induction acts generalizing l with
    | nil => exact List.prefix_rfl
    | cons a acts ih => exact (Live.url_act v.parser ch l a).trans (ih _)
  refine (hActs ⟨openMark P.state, m⟩ v.acts).trans ?_
  rw [Move.spell]
  generalize v.acts.foldl (Live.act v.parser ch) ⟨openMark P.state, m⟩ = l
  unfold Live.consume
  cases l.mark with
  | none => exact List.prefix_rfl
  | some k => exact Message.url_see _ _

namespace Scan

theorem Sound.url_next {s t : Scan} {ch : UInt8} (h : s.Sound) (hNext : s.next ch = some t) :
    s.message.url <+: t.message.url := by
  obtain ⟨v, hMove, rfl⟩ := next_eq_some.mp hNext
  rw [← (h.between.take hMove).message_eq]
  exact Move.url_spell _ _ _ _

theorem Sound.url_run {s t : Scan} {b : Bytes} (h : s.Sound) (hRun : PartialRun.run Scan.next s b = some t) :
    s.message.url <+: t.message.url := by
  induction b generalizing s with
  | nil =>
    obtain rfl := Option.some.inj hRun
    exact List.prefix_rfl
  | cons ch b ih =>
    obtain ⟨q, hNext, hRest⟩ := PartialRun.run_cons_eq_some.mp hRun
    exact (h.url_next hNext).trans (ih (h.next hNext).sound hRest)

/-! ### Waiting for the next message -/

structure Waiting (s : Scan) (q : Prelude) : Prop where
  sound : s.Sound
  ctl : s.ctl = .outer
  prelude : Prelude.of s.parser = some q

theorem Waiting.upgrade {s : Scan} {q : Prelude} (h : s.Waiting q) : s.parser.upgrade = false := by
  by_contra hOn
  have hPast := h.sound.upgrade (by simpa using hOn)
  rcases Prelude.of_eq_some h.prelude with ⟨hs, -⟩ | ⟨hs, -⟩ | ⟨hs, -⟩ | ⟨hs, -⟩ <;>
    simp [HttpParser.pastHead, hs] at hPast

theorem move_of_prelude {P : HttpParser} {q : Prelude} (h : Prelude.of P = some q)
    (hNread : P.nread ≤ httpMaxHeaderSize) (ch : UInt8) : move P .outer ch =
      if P.nread < httpMaxHeaderSize then (switch { P with nread := P.nread + 1 } ch 1).move else none := by
  have hLimit : httpMaxHeaderSize = 81920 := rfl
  have hMod : (P.nread + 1) % 2 ^ 32 = P.nread + 1 := Nat.mod_eq_of_lt (by omega)
  have hCounted : counted P 1 = if P.nread < httpMaxHeaderSize then some { P with nread := P.nread + 1 } else
      none := by
    simp only [counted, addNread, overflows, hMod, decide_eq_true_eq, Nat.lt_succ_iff]
    by_cases hLt : P.nread < httpMaxHeaderSize
    · rw [if_neg (by omega), if_pos hLt]
    · rw [if_pos (by omega), if_neg hLt]
  have hSwitch (Q : HttpParser) (hQ : Q.state = P.state) : switchMove Q ch = (switch Q ch 1).move := by
    rcases Prelude.of_eq_some h with ⟨hs, -⟩ | ⟨hs, -⟩ | ⟨hs, -⟩ | ⟨hs, -⟩ <;> simp only [switchMove, hQ, hs]
  have hParsing : parsingHeader P.state = true := by
    rcases Prelude.of_eq_some h with ⟨hs, -⟩ | ⟨hs, -⟩ | ⟨hs, -⟩ | ⟨hs, -⟩ <;> rw [hs] <;> rfl
  rw [move, if_pos hParsing, hCounted]
  split
  · exact hSwitch _ rfl
  · rfl

theorem Waiting.next {s : Scan} {q q' : Prelude} {ch : UInt8} (h : s.Waiting q)
    (hLt : s.parser.nread < httpMaxHeaderSize) (hStep : q.step ch = some q') :
    ∃ t, s.next ch = some t ∧ t.Waiting q' ∧ t.parser.nread = s.parser.nread + 1 ∧
      ∃ n, t.calls = s.calls ++ List.replicate n .onMessageBegin := by
  have hTakes := Prelude.switch_prelude (P := { s.parser with nread := s.parser.nread + 1 }) h.prelude ch
  rw [hStep] at hTakes
  obtain ⟨v, hv, hPrelude, hNread, hCtl, hActs⟩ := hTakes
  have hMove : move s.parser s.ctl ch = some v := by
    rw [h.ctl, move_of_prelude h.prelude h.sound.nread, if_pos hLt]
    exact hv
  have hNext : s.next ch = some (s.take ch v) := next_eq_some.mpr ⟨v, hMove, rfl⟩
  refine ⟨s.take ch v, hNext, ⟨(h.sound.next hNext).sound, ?_, ?_⟩, ?_, ?_⟩
  · rw [take_ctl, hCtl]
  · rw [parser_of_take, hPrelude]
  · rw [parser_of_take, hNread]
  · rcases hActs with hActs | hActs
    · exact ⟨0, by simp [take, hActs, consume]⟩
    · exact ⟨1, by simp [take, hActs, consume, act, NotifyCb.call]⟩

theorem Waiting.leaves {s : Scan} {q : Prelude} {ch : UInt8} (h : s.Waiting q)
    (hStep : s.parser.nread < httpMaxHeaderSize → q.step ch = none) :
    s.next ch = none ∨ ∃ t, s.next ch = some t ∧ s.message.url.length < t.message.url.length := by
  have hMove := move_of_prelude h.prelude h.sound.nread ch
  rw [← h.ctl] at hMove
  split at hMove
  · rename_i hLt
    have hTakes := Prelude.switch_prelude (P := { s.parser with nread := s.parser.nread + 1 }) h.prelude ch
    rw [hStep hLt] at hTakes
    rcases hTakes with hNone | ⟨Q, hSome⟩
    · left
      rw [Scan.next, hMove, hNone]
      rfl
    · right
      rw [hSome] at hMove
      refine ⟨s.take ch _, next_eq_some.mpr ⟨_, hMove, rfl⟩, ?_⟩
      rw [← (h.sound.between.take hMove).message_eq]
      simp [Move.spell, Live.act, Live.consume, DataCb.call, Message.see]
  · left
    rw [Scan.next, hMove]
    rfl

/-- The bytes behind a message that are harmless to it. -/
def Harmless (P : HttpParser) (tail : Bytes) : Prop :=
  P.nread + tail.length ≤ httpMaxHeaderSize ∧ ∃ q, Prelude.of P = some q ∧ q.Word tail

theorem Waiting.run {s : Scan} {q : Prelude} {tail : Bytes} (h : s.Waiting q)
    (hWord : ∃ q', PartialRun.run Prelude.step q tail = some q')
    (hLength : s.parser.nread + tail.length ≤ httpMaxHeaderSize) :
    ∃ t q' n, PartialRun.run Scan.next s tail = some t ∧ t.Waiting q' ∧
      t.calls = s.calls ++ List.replicate n .onMessageBegin := by
  induction tail generalizing s q with
  | nil => exact ⟨s, q, 0, rfl, h, by simp⟩
  | cons ch tail ih =>
    obtain ⟨q', hWord⟩ := hWord
    obtain ⟨p, hStep, hRest⟩ := PartialRun.run_cons_eq_some.mp hWord
    rw [List.length_cons] at hLength
    obtain ⟨u, hNext, hWaiting, hNread, n, hCalls⟩ := h.next (by omega) hStep
    obtain ⟨t, r, k, hRun, hEnd, hMore⟩ := ih hWaiting ⟨q', hRest⟩ (by omega)
    refine ⟨t, r, n + k, (PartialRun.run_cons_of_step hNext tail).trans hRun, hEnd, ?_⟩
    rw [hMore, hCalls, List.append_assoc, List.replicate_append_replicate]

theorem Waiting.run_leaves {s : Scan} {q : Prelude} {tail : Bytes} (h : s.Waiting q)
    (hWord : ¬ ((∃ q', PartialRun.run Prelude.step q tail = some q') ∧
      s.parser.nread + tail.length ≤ httpMaxHeaderSize)) :
    PartialRun.run Scan.next s tail = none ∨
      ∃ t, PartialRun.run Scan.next s tail = some t ∧ s.message.url.length < t.message.url.length := by
  induction tail generalizing s q with
  | nil => exact absurd ⟨⟨q, rfl⟩, h.sound.nread⟩ hWord
  | cons ch tail ih =>
    by_cases hGoes : s.parser.nread < httpMaxHeaderSize ∧ (q.step ch).isSome
    · obtain ⟨hLt, hSome⟩ := hGoes
      obtain ⟨p, hStep⟩ := Option.isSome_iff_exists.mp hSome
      obtain ⟨u, hNext, hWaiting, hNread, n, hCalls⟩ := h.next hLt hStep
      have hUrl := (h.sound.url_next hNext).length_le
      rw [PartialRun.run_cons_of_step hNext]
      rw [PartialRun.run_cons_of_step hStep, List.length_cons] at hWord
      rcases ih hWaiting (fun hRest => hWord ⟨hRest.1, by omega⟩) with hNone | ⟨t, hRun, hLonger⟩
      · exact .inl hNone
      · exact .inr ⟨t, hRun, by omega⟩
    · have hStop : s.parser.nread < httpMaxHeaderSize → q.step ch = none := by
        intro hLt
        by_contra hSome
        exact hGoes ⟨hLt, Option.isSome_iff_ne_none.mpr hSome⟩
      rcases h.leaves hStop with hNone | ⟨u, hNext, hLonger⟩
      · left
        rw [PartialRun.run_cons, hNone]
        rfl
      · rw [PartialRun.run_cons_of_step hNext]
        cases hRun : PartialRun.run Scan.next u tail with
        | none => exact .inl rfl
        | some t =>
          have hUrl := ((h.sound.next hNext).sound.url_run hRun).length_le
          exact .inr ⟨t, rfl, by omega⟩

theorem AtEnd.waiting {s : Scan} (h : s.AtEnd) (hSound : s.Sound) (hType : s.parser.type = .httpRequest) :
    ∃ q, (q = .dead ∨ q = .start) ∧ s.Waiting q := by
  have hState := h.state
  unfold newMessage at hState
  split at hState
  · rw [hType] at hState
    exact ⟨.start, .inr rfl, hSound, h.ctl, by simp [Prelude.of, hState, startState]⟩
  · exact ⟨.dead, .inl rfl, hSound, h.ctl, by simp [Prelude.of, hState]⟩

theorem Waiting.harmless_iff {s : Scan} {q : Prelude} (h : s.Waiting q) (hq : q = .dead ∨ q = .start) (tail : Bytes) :
    Harmless s.parser tail ↔
      (∃ q', PartialRun.run Prelude.step q tail = some q') ∧ s.parser.nread + tail.length ≤ httpMaxHeaderSize := by
  have hWord : (∃ q', PartialRun.run Prelude.step q tail = some q') ↔ q.Word tail := by
    rcases hq with rfl | rfl
    · exact Prelude.run_dead_iff
    · exact Prelude.run_start_iff
  rw [Harmless, hWord, h.prelude, and_comm]
  simp

theorem Waiting.marks {s : Scan} {q : Prelude} (h : s.Waiting q) : s.marks = holding none := by
  obtain ⟨-, -, o, hSpells, hMark⟩ := h.sound.between
  have hNone : o = none := by
    rcases Prelude.of_eq_some h.prelude with ⟨hs, -⟩ | ⟨hs, -⟩ | ⟨hs, -⟩ | ⟨hs, -⟩ <;>
      · rw [hs] at hMark
        rcases hMark with hMark | ⟨-, hBody⟩
        · exact Option.map_eq_none_iff.mp hMark
        · cases hBody
  rw [hSpells.marks, hNone]

theorem Waiting.cut {s : Scan} {q : Prelude} (h : s.Waiting q) :
    ∃ t, s.cut = some t ∧ t.parser = s.parser ∧ t.calls = s.calls := by
  have hFlush : s.flush.calls = s.calls := by
    rw [flush_of_holding h.marks]
    simp [openCall]
  rw [Scan.cut, h.ctl]
  exact ⟨_, rfl, rfl, hFlush⟩

end Scan

end HttpUtils
