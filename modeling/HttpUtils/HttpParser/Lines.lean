import HttpUtils.HttpParser.HeaderSection
import Mathlib.Data.List.TakeWhile

/-!
# What an accepted header line says

The other direction of `HeaderSection.lean`: of any line, however long and whatever its bytes are, a reader that
gets to its end has read the header that stands there.
-/

namespace HttpUtils
set_option autoImplicit false

open PartialRun (Leads)

/-- The byte `ch` completes a second `Content-Length`. -/
def Reader.Repeats (r : Reader) (ch : UInt8) : Prop :=
  r.parser.state = .sHeaderField ∧ token ch ≠ 0 ∧ (nameStep r.parser ch).httpErrno = .unexpectedContentLength

/-- The byte is read with the completeness `c` of the message, loses nothing, and repeats a length only under `d`. -/
structure Reader.Calm (c : Bool) (d : Prop) (r : Reader) (ch : UInt8) : Prop where
  complete : r.message.complete = c
  lossless : ¬ r.Loses ch
  repeats : r.Repeats ch → d

theorem Outcome.move_of_flow {o : Outcome} (h : o.flow ≠ .next) : o.move = none := by
  cases hMove : o.move with
  | none => rfl
  | some v => exact absurd (Outcome.move_eq_some hMove).1 h

theorem nameCase_inside {P : HttpParser} {ch : UInt8} (hTok : token ch ≠ 0) :
    (nameCase P ch).flow ≠ .next ∨ nameCase P ch = next (nameStep P ch) ∧ (nameStep P ch).httpErrno = .ok := by
  rw [nameCase, if_neg hTok]
  by_cases hError : (nameStep P ch).httpErrno = .ok
  · exact .inr ⟨if_neg (not_not.mpr hError), hError⟩
  · left
    dsimp only
    rw [if_pos (by exact hError)]
    simp

theorem valueCase_inside {P : HttpParser} {ch : UInt8} (hCr : ch ≠ CR) (hLf : ch ≠ LF) :
    (valueCase P ch).flow ≠ .next ∨ valueCase P ch = next (valueStep P ch) ∧ (valueStep P ch).httpErrno = .ok := by
  rw [valueCase, if_neg hCr, if_neg hLf]
  dsimp only
  by_cases hError : (headerValueChar P P.headerState ch).1.httpErrno = .ok
  · exact .inr ⟨if_neg (not_not.mpr hError), hError⟩
  · left
    rw [if_pos hError]
    simp

namespace Reader

variable {c : Bool} {d : Prop}

theorem step_of_refused {r : Reader} {ch : UInt8} (h : (byteCase r.parser ch).flow ≠ .next) : r.step ch = none := by
  rw [step, Outcome.move_of_flow h]
  rfl

theorem leads_refused {r : Reader} {ch : UInt8} (h : (byteCase r.parser ch).flow ≠ .next)
    (hComplete : r.message.complete = c) (hRepeats : r.Repeats ch → d) (b : Bytes) (Q : Reader → Prop) :
    Leads Reader.step (Calm c d) r (ch :: b) Q := by
  refine .cons ⟨hComplete, ?_, hRepeats⟩ fun t ht => ?_
  · rintro ⟨v, hv, -⟩
    rw [Outcome.move_of_flow h] at hv
    cases hv
  · rw [step_of_refused h] at ht
    cases ht

theorem leads_next {r : Reader} {ch : UInt8} {Q : HttpParser} {acts : List Act}
    (h : byteCase r.parser ch = next Q acts)
    (hComplete : r.message.complete = c) (hLoss : ¬ ActsLose Q ch ⟨openMark r.parser.state, r.message⟩ acts)
    (hRepeats : r.Repeats ch → d) :
    Leads Reader.step (Calm c d) r [ch] fun t =>
      t.parser = Q ∧ t.message = Move.spell r.parser ch ⟨acts, Q, .outer⟩ r.message := by
  refine .single ⟨hComplete, fun hLoses => hLoss ((loses_iff_of_next h).mp hLoses), hRepeats⟩ fun t ht => ?_
  rw [step_of_next h] at ht
  obtain rfl := Option.some.inj ht
  exact ⟨rfl, rfl⟩

theorem not_repeats {r : Reader} {ch : UInt8} (h : r.parser.state ≠ .sHeaderField) : r.Repeats ch → d :=
  fun hRepeats => absurd hRepeats.1 h

theorem leads_quiet {r : Reader} {ch : UInt8} {Q : HttpParser} (h : byteCase r.parser ch = next Q)
    (hComplete : r.message.complete = c) (hMark : openMark r.parser.state = none) :
    Leads Reader.step (Calm c d) r [ch] fun t => t.parser = Q ∧ t.message = r.message := by
  have hState : r.parser.state ≠ .sHeaderField := by
    intro hState
    rw [hState] at hMark
    cases hMark
  refine (leads_next h hComplete id (not_repeats hState)).mono fun t ht => ⟨ht.1, ?_⟩
  rw [ht.2]
  simp [Move.spell, Live.consume, hMark]

end Reader

namespace Reader

theorem Repeats.refused {r : Reader} {ch : UInt8} (h : r.Repeats ch) : r.step ch = none := by
  obtain ⟨hState, hTok, hError⟩ := h
  have hBad : (headerFieldChar r.parser ch (token ch)).httpErrno ≠ .ok := by
    intro hOk
    exact absurd (hOk.symm.trans hError) (by decide)
  refine step_of_refused ?_
  simp only [byteCase, hState, nameCase, if_neg hTok, if_pos hBad]
  simp

theorem Passes.leads {r r' : Reader} {b : Bytes} {d : Prop} (h : r.Passes b r') :
    Leads step (Calm false d) r b (· = r') where
  along := (h.steady.and (PartialRun.along_of_run h.run)).mono fun q ch hBoth =>
    ⟨hBoth.1.complete, hBoth.1.lossless, fun hRepeats => by
      obtain ⟨u, hu⟩ := hBoth.2
      rw [hRepeats.refused] at hu
      cases hu⟩
  post _ hRun := Option.some.inj (hRun.symm.trans h.run)

end Reader

/-! ### The name -/

theorem matchKeyword_errno (keyword : Bytes) (P : HttpParser) (c : UInt8) {done : HttpParser → HttpParser}
    (h : ∀ P, (done P).httpErrno = P.httpErrno) : (matchKeyword keyword P c done).httpErrno = P.httpErrno := by
  simp only [matchKeyword]
  split
  · rfl
  split
  · exact h _
  · rfl

/-- Only the last byte of a second `Content-Length` is an error. -/
theorem InName.errno_step {P₀ P : HttpParser} {u : Bytes} (h : InName P₀ u P) (ch : UInt8) :
    (nameStep P ch).httpErrno = P.httpErrno ∨
      P.flags.fContentlength = true ∧ u ++ [token ch] = ascii "content-length" := by
  cases hs : P.headerState <;> simp only [nameStep, headerFieldChar, hs]
  case hMatchingContentLength =>
    have hPrefixed : Prefixed (ascii "content-length") u P.index := by
      have hName := h.name
      rwa [hs] at hName
    rcases matchKeyword_cases hPrefixed (token ch) _ with hEq | ⟨hAll, hEq⟩ | ⟨-, hEq⟩
    · rw [hEq]
      exact .inl rfl
    · rw [hEq]
      dsimp only
      split
      · exact .inr ⟨‹_›, hAll⟩
      · exact .inl rfl
    · rw [hEq]
      exact .inl rfl
  case hMatchingConnection | hMatchingProxyConnection | hMatchingTransferEncoding | hMatchingUpgrade =>
    exact .inl (matchKeyword_errno _ _ _ fun _ => rfl)
  case hConnection | hContentLength | hTransferEncoding | hUpgrade =>
    left
    split <;> rfl
  all_goals exact .inl trivial

theorem InName.repeats {P₀ P : HttpParser} {u : Bytes} (h : InName P₀ u P) (hOk : P₀.httpErrno = .ok) {ch : UInt8}
    (hError : (nameStep P ch).httpErrno ≠ .ok) :
    P₀.flags.fContentlength = true ∧ u ++ [token ch] = ascii "content-length" := by
  rcases h.errno_step ch with hSame | ⟨hOn, hAll⟩
  · exact absurd (hSame.trans (h.errno.trans hOk)) hError
  refine ⟨?_, hAll⟩
  rcases h.same with hSame | ⟨hPrefix, -⟩
  · exact hSame.fContentlength ▸ hOn
  · have hLength := hPrefix.length_le
    rw [← hAll, List.length_append, List.length_singleton] at hLength
    omega

/-- The bytes of a line that stays one line: nothing in its name ends the name or the line, and nothing in the rest
ends the line. -/
structure OneLine (name rest : Bytes) : Prop where
  nameLf : LF ∉ name
  colon : (':' : UInt8) ∉ name
  blank : ∀ c ∈ name.head?, c ≠ SP ∧ c ≠ HT
  restLf : LF ∉ rest

structure Named (P : HttpParser) (m : Message) (c : UInt8) (u : Bytes) (r : Reader) : Prop where
  parser : r.parser = u.foldl nameStep (nameStart P c)
  inName : InName P ((c :: u).map token) r.parser
  tokens : ∀ ch ∈ c :: u, token ch ≠ 0
  errno : r.parser.httpErrno = .ok
  message : r.message = m.see (.onHeaderField (c :: u))

theorem asciiLower_map {u : Bytes} (h : ∀ ch ∈ u, token ch ≠ 0) : u.map token = u.map asciiLower :=
  List.map_congr_left fun ch hch => token_eq_asciiLower (h ch hch)

namespace Reader

variable {c : Bool} {d : Prop} {P : HttpParser} {m : Message}

theorem leads_nameByte {r : Reader} {first ch : UInt8} {u : Bytes} (h : Named P m first u r) (hOk : P.httpErrno = .ok)
    (hComplete : r.message.complete = c) (hColon : ch ≠ ':')
    (hRepeats : P.flags.fContentlength = true → (first :: u ++ [ch]).map asciiLower = ascii "content-length" → d) :
    Calm c d r ch ∧ ∀ t, r.step ch = some t → Named P m first (u ++ [ch]) t := by
  have hState : r.parser.state = .sHeaderField := h.inName.state
  have hMark : openMark r.parser.state = some .headerField := by
    rw [hState]
    rfl
  have hCase : byteCase r.parser ch = nameCase r.parser ch := by simp only [byteCase, hState]
  by_cases hTok : token ch = 0
  · have hRefused : (byteCase r.parser ch).flow ≠ .next := by
      rw [hCase, nameCase, if_pos hTok, if_neg hColon]
      exact fail_flow _ _
    exact (leads_refused hRefused hComplete (fun hRep => absurd hTok hRep.2.1) [] _).of_single
  have hTokens : ∀ x ∈ first :: (u ++ [ch]), token x ≠ 0 := by
    intro x hx
    rw [← List.cons_append, List.mem_append, List.mem_singleton] at hx
    rcases hx with hx | rfl
    · exact h.tokens x hx
    · exact hTok
  have hMap : ((first :: u).map token) ++ [token ch] = (first :: u ++ [ch]).map asciiLower := by
    rw [← asciiLower_map (u := first :: u ++ [ch]) hTokens, List.map_append, List.map_singleton]
  have hAllowed : r.Repeats ch → d := by
    rintro ⟨-, -, hError⟩
    have hNotOk : (nameStep r.parser ch).httpErrno ≠ .ok := by
      rw [hError]
      decide
    obtain ⟨hOn, hAll⟩ := h.inName.repeats hOk hNotOk
    exact hRepeats hOn (hMap ▸ hAll)
  rcases nameCase_inside (P := r.parser) hTok with hRefused | ⟨hNext, hError⟩
  · exact (leads_refused (hCase ▸ hRefused) hComplete hAllowed [] _).of_single
  refine ((leads_next (hCase.trans hNext) hComplete id hAllowed).mono fun t ht => ?_).of_single
  refine ⟨?_, ?_, hTokens, ht.1 ▸ hError, ?_⟩
  · rw [ht.1, h.parser, List.foldl_append, List.foldl_cons, List.foldl_nil]
  · have hIn := h.inName.step (.inr hError) hTok
    rw [ht.1]
    simpa using hIn
  · rw [ht.2, h.message]
    have hSplit := Message.see_split m .headerField r.parser (nameStep r.parser ch) (first :: u) [ch]
    simp only [Move.spell, List.foldl_nil, Live.consume, hMark]
    exact hSplit

theorem Starts.leads_first {r : Reader} (h : r.Starts P m) {ch : UInt8} {Q : HttpParser} {acts : List Act}
    (hSp : ch ≠ SP) (hHt : ch ≠ HT) (hCase : headerFieldStartCase P ch = HttpUtils.next Q acts)
    (hLoss : ¬ ActsLose Q ch ⟨none, m⟩ acts) :
    Leads Reader.step (Calm m.complete d) r [ch] fun t => t.parser = Q ∧
      t.message = Move.spell P ch ⟨acts, Q, .outer⟩ m := by
  obtain ⟨pre, hByte, hPre⟩ := h.step ch hSp hHt
  obtain ⟨hLive, hLossless⟩ := hPre Q
  rw [hCase] at hByte
  have hByte' : byteCase r.parser ch = HttpUtils.next Q (pre ++ acts) := hByte
  have hOpen : openMark P.state = none := by
    rw [h.state]
    rfl
  have hSpell : Move.spell r.parser ch ⟨pre ++ acts, Q, .outer⟩ r.message = Move.spell P ch ⟨acts, Q, .outer⟩ m := by
    simp only [Move.spell, List.foldl_append, hLive, hOpen]
  rw [← hSpell]
  refine leads_next hByte' h.complete ?_ (not_repeats h.name)
  rw [actsLose_append, hLive]
  exact fun hLost => hLost.elim hLossless hLoss

theorem Starts.leads_refused {r : Reader} (h : r.Starts P m) {ch : UInt8} (hSp : ch ≠ SP) (hHt : ch ≠ HT)
    (hCase : (headerFieldStartCase P ch).flow ≠ .next) (b : Bytes) (Q : Reader → Prop) :
    Leads Reader.step (Calm m.complete d) r (ch :: b) Q := by
  obtain ⟨pre, hByte, -⟩ := h.step ch hSp hHt
  refine Reader.leads_refused ?_ h.complete (not_repeats h.name) b Q
  rw [hByte]
  exact hCase

def nameParser (P : HttpParser) : Bytes → HttpParser
  | [] => P
  | first :: s => { s.foldl nameStep (nameStart P first) with state := .sHeaderValueDiscardWs }

structure NameRead (P : HttpParser) (m : Message) (name : Bytes) (r : Reader) : Prop where
  nonempty : name ≠ []
  tokens : ∀ ch ∈ name, token ch ≠ 0
  parser : r.parser = nameParser P name
  errno : r.parser.httpErrno = .ok
  message : r.message = m.see (.onHeaderField name)

theorem Starts.leads_name {r : Reader} (h : r.Starts P m) (hOk : P.httpErrno = .ok) (hName : m.inName = false)
    {name : Bytes} (hLf : LF ∉ name) (hColon : (':' : UInt8) ∉ name) (hBlank : ∀ ch ∈ name.head?, ch ≠ SP ∧ ch ≠ HT)
    (hRepeats : P.flags.fContentlength = true → ascii "content-length" <+: name.map asciiLower → d) :
    Leads Reader.step (Calm m.complete d) r (name ++ [(':' : UInt8)]) (NameRead P m name) := by
  have hSeen (run : Bytes) : (m.see (.onHeaderField run)).complete = m.complete := Message.complete_named m run
  cases name with
  | nil =>
    refine h.leads_refused (by decide) (by decide) ?_ [] _
    rw [headerFieldStartCase, if_neg (by decide), if_neg (by decide), if_pos (by decide)]
    exact fail_flow _ _
  | cons first s =>
    obtain ⟨hSp, hHt⟩ := hBlank first rfl
    have hNotLf : first ≠ LF := fun hEq => hLf (hEq ▸ List.mem_cons_self)
    by_cases hCr : first = CR
    · -- the blank line would have to end with the next byte
      subst hCr
      have hCrCase : headerFieldStartCase P CR = HttpUtils.next { P with state := .sHeadersAlmostDone } := rfl
      have hFirst := h.leads_first (d := d) (by decide) (by decide) hCrCase id
      obtain ⟨next, b, hNext, hNotLf'⟩ : ∃ next b, s ++ [(':' : UInt8)] = next :: b ∧ next ≠ LF := by
        cases s with
        | nil => exact ⟨':', [], rfl, by decide⟩
        | cons next s => exact ⟨next, s ++ [(':' : UInt8)], rfl, fun hEq => hLf (by simp [hEq])⟩
      have hBytes : CR :: s ++ [(':' : UInt8)] = [CR] ++ (next :: b) := by
        rw [← hNext]
        rfl
      rw [hBytes]
      refine hFirst.append fun t ht => Reader.leads_refused ?_ ?_ (not_repeats ?_) b _
      · rw [ht.1]
        simp only [byteCase, switch, headersAlmostDoneCase, if_pos hNotLf']
        exact fail_flow _ _
      · rw [ht.2]
        simp [Move.spell, Live.consume, h.state, openMark]
      · rw [ht.1]
        simp
    by_cases hTok : token first = 0
    · refine h.leads_refused hSp hHt ?_ _ _
      rw [headerFieldStartCase, if_neg hCr, if_neg hNotLf, if_pos hTok]
      exact fail_flow _ _
    have hFirst := h.leads_first (d := d) hSp hHt (startCase_of_token hTok)
      (by simp [ActsLose, Act.Loses, Message.LosesAt, hName])
    have hOpen : openMark P.state = none := by
      rw [h.state]
      rfl
    have hEnter (t : Reader) (ht : t.parser = nameStart P first ∧
        t.message = Move.spell P first ⟨[.mark .headerField], nameStart P first, .outer⟩ m) :
          Named P m first [] t := by
      obtain ⟨hParser, hMessage⟩ := ht
      refine ⟨hParser, ?_, by simpa using hTok, ?_, ?_⟩
      · rw [hParser]
        exact InName.start first
      · rw [hParser]
        exact hOk
      · rw [hMessage]
        simp only [Move.spell, List.foldl_cons, List.foldl_nil, Live.act, Live.consume, Message.see_split]
        rfl
    have hLoop (t : Reader) (ht : Named P m first [] t) :
        Leads Reader.step (Calm m.complete d) t s (Named P m first s) := by
      refine Leads.scan (fun u ch v q hSplit hq => ?_) ht
      refine leads_nameByte hq hOk ?_ (fun hEq => hColon ?_) fun hOn hAll => hRepeats hOn ?_
      · rw [hq.message]
        exact hSeen _
      · rw [hSplit, ← hEq]
        simp
      · rw [hSplit, ← hAll]
        exact ⟨v.map asciiLower, by simp⟩
    have hEnd (t : Reader) (ht : Named P m first s t) :
        Leads Reader.step (Calm m.complete d) t [':'] (NameRead P m (first :: s)) := by
      have hState : t.parser.state = .sHeaderField := ht.inName.state
      have hMark : openMark t.parser.state = some .headerField := by
        rw [hState]
        rfl
      have hCase : byteCase t.parser ':' =
          HttpUtils.next { t.parser with state := .sHeaderValueDiscardWs } [.data .headerField] := by
        simp only [byteCase, hState, nameCase]
        rfl
      refine (leads_next hCase ?_ (by simp [ActsLose, Act.Loses]) ?_).mono fun q hq => ?_
      · rw [ht.message]
        exact hSeen _
      · exact fun hRep => absurd hRep.2.1 (by decide)
      · refine ⟨by simp, ht.tokens, ?_, ?_, ?_⟩
        · rw [hq.1, ht.parser]
          rfl
        · rw [hq.1]
          exact ht.errno
        · rw [hq.2]
          simp only [Move.spell, List.foldl_cons, List.foldl_nil, Live.act, hMark, if_true, Live.consume]
          exact ht.message
    have hBytes : first :: s ++ [(':' : UInt8)] = [first] ++ (s ++ [(':' : UInt8)]) := rfl
    rw [hBytes]
    exact hFirst.append fun t ht => (hLoop t (hEnter t ht)).append hEnd

end Reader

/-! ### The value -/

/-- What is left behind the blanks that a value begins with. -/
def dropBlanks (v : Bytes) : Bytes := v.dropWhile fun c => c == SP || c == HT

theorem dropBlanks_split (v : Bytes) :
    ∃ blanks, v = blanks ++ dropBlanks v ∧ (∀ c ∈ blanks, c = SP ∨ c = HT) ∧ ∀ c ∈ (dropBlanks v).head?,
      c ≠ SP ∧ c ≠ HT := by
  refine ⟨v.takeWhile fun c => c == SP || c == HT, List.takeWhile_append_dropWhile.symm, fun c hc =>
    ?_, fun c hc => ?_⟩
  · simpa using List.mem_takeWhile_imp hc
  · have hHead := List.head?_dropWhile_not (fun c => c == SP || c == HT) v
    rw [dropBlanks] at hc
    rw [hc] at hHead
    simpa using hHead

def valueParser (P : HttpParser) : Bytes → HttpParser
  | [] => { P with state := .sHeaderValueDiscardLws }
  | first :: s => { s.foldl valueStep (headerValueStartCase P first).parser with state := .sHeaderValueLws }

/-- The parser at the start of the line behind a line that begins in `P`. -/
def lineParser (P : HttpParser) (name rest : Bytes) : HttpParser :=
  Reader.lineEnded (valueParser (Reader.nameParser P name) (dropBlanks rest))

structure LineRead (P : HttpParser) (m : Message) (name rest : Bytes) (r : Reader) : Prop where
  starts : r.Starts (lineParser P name rest) (m.addHeader ⟨name, dropBlanks rest⟩)
  nonempty : name ≠ []
  tokens : ∀ ch ∈ name, token ch ≠ 0
  noCr : CR ∉ dropBlanks rest
  errno : (lineParser P name rest).httpErrno = .ok

structure Valuing (Q : HttpParser) (m : Message) (first : UInt8) (u : Bytes) (r : Reader) : Prop where
  parser : r.parser = u.foldl valueStep Q
  state : r.parser.state = .sHeaderValue
  errno : r.parser.httpErrno = .ok
  message : r.message = m.see (.onHeaderValue (first :: u))

namespace Reader

variable {c : Bool} {d : Prop} {P : HttpParser} {m : Message}

theorem leads_valueByte {r : Reader} {Q : HttpParser} {first ch : UInt8} {u : Bytes} (h : Valuing Q m first u r)
    (hCr : ch ≠ CR) (hLf : ch ≠ LF) :
    Calm m.complete d r ch ∧ ∀ t, r.step ch = some t → Valuing Q m first (u ++ [ch]) t := by
  have hNotName : r.parser.state ≠ .sHeaderField := by rw [h.state]; simp
  have hMark : openMark r.parser.state = some .headerValue := by
    rw [h.state]
    rfl
  have hComplete : r.message.complete = m.complete := by
    rw [h.message]
    rfl
  have hCase : byteCase r.parser ch = valueCase r.parser ch := byteCase_value h.state ch
  rcases valueCase_inside (P := r.parser) hCr hLf with hRefused | ⟨hNext, hError⟩
  · exact (leads_refused (hCase ▸ hRefused) hComplete (not_repeats hNotName) [] _).of_single
  refine ((leads_next (hCase.trans hNext) hComplete id (not_repeats hNotName)).mono fun t ht => ?_).of_single
  refine ⟨?_, ?_, ht.1 ▸ hError, ?_⟩
  · rw [ht.1, h.parser, List.foldl_append, List.foldl_cons, List.foldl_nil]
  · rw [ht.1]
    exact (headerValueChar_state _ _ _).trans h.state
  · rw [ht.2, h.message]
    have hSplit := Message.see_split m .headerValue r.parser (valueStep r.parser ch) (first :: u) [ch]
    simp only [Move.spell, List.foldl_nil, Live.consume, hMark]
    exact hSplit

theorem leads_loneCr {r : Reader} {b : Bytes} {Q : HttpParser} {acts : List Act}
    (hCase : byteCase r.parser CR = next Q acts)
    (hComplete : r.message.complete = c) (hLoss : ¬ ActsLose Q CR ⟨openMark r.parser.state, r.message⟩ acts)
    (hState : r.parser.state ≠ .sHeaderField) (hQ : Q.state = .sHeaderValueDiscardWsAlmostDone ∨
      Q.state = .sHeaderAlmostDone)
    (hSeen : (Move.spell r.parser CR ⟨acts, Q, .outer⟩ r.message).complete = c)
    (hNext : ∀ ch ∈ b.head?, ch ≠ LF) (hSome : b ≠ []) (R : Reader → Prop) :
    Leads step (Calm c d) r (CR :: b) R := by
  obtain ⟨ch, b, rfl⟩ := List.exists_cons_of_ne_nil hSome
  have hNotLf : ch ≠ LF := hNext ch rfl
  have hBytes : CR :: ch :: b = [CR] ++ (ch :: b) := rfl
  rw [hBytes]
  refine (leads_next hCase hComplete hLoss (not_repeats hState)).append fun t ht => ?_
  refine leads_refused ?_ (ht.2 ▸ hSeen) (not_repeats ?_) b R
  · rw [ht.1]
    rcases hQ with hQ | hQ
    · simp only [byteCase, switch, hQ, expect, if_pos hNotLf]
      exact fail_flow _ _
    · simp only [byteCase, switch, hQ, headerAlmostDoneCase, if_pos hNotLf]
      exact fail_flow _ _
  · rw [ht.1]
    rcases hQ with hQ | hQ <;> simp [hQ]

theorem leads_crlf {r : Reader} {R : Reader → Prop} (hCr : Leads step (Calm c d) r [CR] fun t =>
      Leads step (Calm c d) t [LF] R) : Leads step (Calm c d) r crlf R :=
  hCr.append fun _ ht => ht

theorem NameRead.state {r : Reader} {name : Bytes} (h : NameRead P m name r) :
    r.parser.state = .sHeaderValueDiscardWs := by
  obtain ⟨first, s, rfl⟩ := List.exists_cons_of_ne_nil h.nonempty
  rw [h.parser]
  rfl

theorem NameRead.blank {r : Reader} {name : Bytes} (h : NameRead P m name r) {ch : UInt8}
    (hBlank : ch = SP ∨ ch = HT) :
    Calm m.complete d r ch ∧ ∀ t, r.step ch = some t → NameRead P m name t := by
  have hCase : byteCase r.parser ch = HttpUtils.next r.parser := by
    simp only [byteCase, h.state, switch, headerValueDiscardWsCase, if_pos hBlank]
  have hComplete : r.message.complete = m.complete := by rw [h.message, Message.complete_named]
  have hOpen : openMark r.parser.state = none := by
    rw [h.state]
    rfl
  refine ((leads_quiet hCase hComplete hOpen).mono fun t ht => ?_).of_single
  exact ⟨h.nonempty, h.tokens, ht.1.trans h.parser, ht.1 ▸ h.errno, ht.2.trans h.message⟩

theorem NameRead.leads_empty {r : Reader} {name : Bytes} (h : NameRead P m name r)
    (hName : m.inName = false) {rest : Bytes} (hRest : dropBlanks rest = []) :
    Leads step (Calm m.complete d) r crlf (LineRead P m name rest) := by
  have hState := h.state
  have hComplete : r.message.complete = m.complete := by rw [h.message, Message.complete_named]
  have hLoss : ¬ r.message.LosesAt .headerValue := by
    rw [h.message]
    exact Message.not_loses_named hName _
  have hCrCase : byteCase r.parser CR = HttpUtils.next
      { r.parser with state := .sHeaderValueDiscardWsAlmostDone } := by
    simp only [byteCase, hState, switch]
    rfl
  refine leads_crlf ((leads_quiet hCrCase hComplete ?_).mono fun t ht => ?_)
  · rw [hState]
    rfl
  have hLfCase : byteCase t.parser LF = HttpUtils.next { r.parser with state := .sHeaderValueDiscardLws } := by
    rw [ht.1]
    rfl
  refine (leads_quiet hLfCase ?_ ?_).mono fun q hq => ?_
  · rw [ht.2, hComplete]
  · rw [ht.1]
    rfl
  have hMessage : q.message = r.message := hq.2.trans ht.2
  have hStarts := Starts.afterEmpty (r := q) (by rw [hq.1]) (by rwa [hMessage])
  have hSeen : q.message.see (.onHeaderValue []) = m.addHeader ⟨name, dropBlanks rest⟩ := by
    rw [hMessage, h.message, hRest, ← Message.see_header hName]
  have hLine : lineEnded q.parser = lineParser P name rest := by
    rw [lineParser, hRest, hq.1, h.parser]
    rfl
  rw [hSeen, hLine] at hStarts
  refine ⟨hStarts, h.nonempty, h.tokens, by simp [hRest], ?_⟩
  rw [← hLine, hq.1]
  exact h.errno

theorem leads_valueEnd {r : Reader} {Q : HttpParser} {n : Message} {first : UInt8} {s : Bytes}
    (h : Valuing Q n first s r) : Leads step (Calm n.complete d) r crlf fun t =>
      t.Starts (lineEnded { s.foldl valueStep Q with state := .sHeaderValueLws })
      (n.see (.onHeaderValue (first :: s))) := by
  have hComplete : r.message.complete = n.complete := by
    rw [h.message]
    rfl
  have hMark : openMark r.parser.state = some .headerValue := by
    rw [h.state]
    rfl
  have hCrCase : byteCase r.parser CR = HttpUtils.next { r.parser with state := .sHeaderAlmostDone }
      [.data .headerValue] := by
    rw [byteCase_value h.state]
    rfl
  refine leads_crlf ((leads_next hCrCase hComplete (by simp [ActsLose, Act.Loses])
    (not_repeats (by rw [h.state]; simp))).mono fun t ht => ?_)
  have hSame : t.message = r.message := by
    rw [ht.2]
    simp only [Move.spell, List.foldl_cons, List.foldl_nil, Live.act, hMark, if_true, Live.consume]
  have hLfCase : byteCase t.parser LF = HttpUtils.next { r.parser with state := .sHeaderValueLws } := by
    rw [ht.1]
    rfl
  refine (leads_quiet hLfCase ?_ ?_).mono fun q hq => ?_
  · rw [hSame, hComplete]
  · rw [ht.1]
    rfl
  have hStarts := Starts.afterValue (r := q) (by rw [hq.1])
  rwa [hq.1, hq.2, hSame, h.message, h.parser] at hStarts

theorem headerValueStart_cases (P : HttpParser) (ch : UInt8) :
    (headerValueStartCase P ch).flow ≠ .next ∨ ∃ Q, headerValueStartCase P ch = HttpUtils.next Q
    [.mark .headerValue] ∧
      Q.state = .sHeaderValue ∧ Q.httpErrno = P.httpErrno := by
  cases hs : P.headerState <;> simp only [headerValueStartCase, hs]
  case hContentLength =>
    split
    · exact .inl (fail_flow _ _)
    · exact .inr ⟨_, rfl, rfl, rfl⟩
  all_goals exact .inr ⟨_, rfl, rfl, rfl⟩

theorem NameRead.leads_some {r : Reader} {name : Bytes} (h : NameRead P m name r) (hName : m.inName = false)
    {rest s : Bytes} {first : UInt8} (hRest : dropBlanks rest = first :: s) (hFirst : first ≠ SP ∧ first ≠ HT)
    (hLf : LF ∉ first :: s) : Leads step (Calm m.complete d) r (first :: s ++ crlf) (LineRead P m name rest) := by
  have hState := h.state
  have hNotName : r.parser.state ≠ .sHeaderField := by rw [hState]; simp
  have hComplete : r.message.complete = m.complete := by rw [h.message, Message.complete_named]
  have hOpen : openMark r.parser.state = none := by
    rw [hState]
    rfl
  have hBlank : ¬ (first = SP ∨ first = HT) := not_or.mpr hFirst
  have hHeadLf (u : Bytes) (hu : u <:+ s) : ∀ ch ∈ (u ++ crlf).head?, ch ≠ LF := by
    intro ch hch
    cases u with
    | nil =>
      obtain rfl : CR = ch := Option.some.inj hch
      decide
    | cons x u =>
      obtain rfl : x = ch := Option.some.inj hch
      rintro rfl
      exact hLf (List.mem_cons_of_mem _ (hu.subset List.mem_cons_self))
  have hSome (u : Bytes) : u ++ crlf ≠ [] := by simp [crlf, ascii]
  by_cases hFirstCr : first = CR
  · subst hFirstCr
    have hCase : byteCase r.parser CR = HttpUtils.next
        { r.parser with state := .sHeaderValueDiscardWsAlmostDone } := by
      simp only [byteCase, hState, switch]
      rfl
    refine leads_loneCr hCase hComplete id hNotName (.inl rfl) ?_ (hHeadLf s List.suffix_rfl) (hSome s) _
    simp [Move.spell, Live.consume, hOpen, hComplete]
  have hFirstLf : first ≠ LF := fun hEq => hLf (hEq ▸ List.mem_cons_self)
  have hCase : byteCase r.parser first = headerValueStartCase r.parser first := by
    simp only [byteCase, hState, switch, headerValueDiscardWsCase]
    rw [if_neg hBlank, if_neg hFirstCr, if_neg hFirstLf]
  rcases headerValueStart_cases r.parser first with hRefused | ⟨Q, hNext, hQState, hQErrno⟩
  · exact leads_refused (by rw [hCase]; exact hRefused) hComplete (not_repeats hNotName) _ _
  have hEnter := leads_next (d := d) (hCase.trans hNext) hComplete (by
    simp only [ActsLose, Act.Loses, or_false, h.message]
    exact Message.not_loses_named hName _) (not_repeats hNotName)
  have hEntered (t : Reader) (ht : t.parser = Q ∧
      t.message = Move.spell r.parser first ⟨[.mark .headerValue], Q, .outer⟩ r.message) :
      Valuing Q r.message first [] t := by
    refine ⟨ht.1, ?_, ?_, ?_⟩
    · rw [ht.1, hQState]
    · rw [ht.1, hQErrno, h.errno]
    · rw [ht.2]
      simp only [Move.spell, List.foldl_cons, List.foldl_nil, Live.act, Live.consume, Message.see_split]
      rfl
  have hLoop (t : Reader) (ht : Valuing Q r.message first [] t) (u v : Bytes) (hu : s = u ++ v) (hCr : CR ∉ u) :
      Leads step (Calm m.complete d) t u (Valuing Q r.message first u) := by
    refine Leads.scan (fun x ch y q hSplit hq => ?_) ht
    have hNotCr : ch ≠ CR := fun hEq => hCr (by rw [hSplit, hEq]; simp)
    have hNotLf : ch ≠ LF := fun hEq => hLf (by rw [hu, hSplit, hEq]; simp)
    have hByte := leads_valueByte (d := d) hq hNotCr hNotLf
    rwa [hComplete] at hByte
  have hBytes (b : Bytes) : first :: b = [first] ++ b := rfl
  by_cases hCr : CR ∈ s
  · obtain ⟨u, v, rfl, hu⟩ := List.eq_append_cons_of_mem hCr
    have hSplit : first :: (u ++ CR :: v) ++ crlf = [first] ++ (u ++ (CR :: (v ++ crlf))) := by simp
    rw [hSplit]
    refine hEnter.append fun t ht => (hLoop t (hEntered t ht) u (CR :: v) rfl hu).append fun q hq => ?_
    have hCrCase : byteCase q.parser CR =
        HttpUtils.next { q.parser with state := .sHeaderAlmostDone } [.data .headerValue] := by
      rw [byteCase_value hq.state]
      rfl
    have hMark : openMark q.parser.state = some .headerValue := by
      rw [hq.state]
      rfl
    have hSeen : q.message.complete = m.complete := by
      rw [hq.message]
      exact hComplete
    refine leads_loneCr hCrCase hSeen (by simp [ActsLose, Act.Loses]) (by rw [hq.state]; simp) (.inr rfl) ?_
      (hHeadLf v ((List.suffix_cons CR v).trans (List.suffix_append u _))) (hSome v) _
    simp only [Move.spell, List.foldl_cons, List.foldl_nil, Live.act, hMark, if_true, Live.consume]
    exact hSeen
  · rw [List.cons_append, hBytes]
    refine hEnter.append fun t ht => (hLoop t (hEntered t ht) s [] (List.append_nil s).symm hCr).append fun q hq => ?_
    rw [← hComplete]
    refine (leads_valueEnd hq).mono fun t ht => ?_
    have hLine : lineParser P name rest = lineEnded { s.foldl valueStep Q with state := .sHeaderValueLws } := by
      rw [lineParser, hRest, ← h.parser, valueParser, hNext]
      rfl
    have hSeen : r.message.see (.onHeaderValue (first :: s)) = m.addHeader ⟨name, dropBlanks rest⟩ := by
      rw [h.message, hRest, ← Message.see_header hName]
    rw [hSeen, ← hLine] at ht
    refine ⟨ht, h.nonempty, h.tokens, ?_, ?_⟩
    · rw [hRest]
      simp [hCr, Ne.symm hFirstCr]
    · rw [hLine]
      have hErrno := hq.errno
      rwa [hq.parser] at hErrno

end Reader

/-- The text of a line whose name and value are given with what stands between them. -/
def fieldLine (name rest : Bytes) : Bytes := name ++ [(':' : UInt8)] ++ rest ++ crlf

namespace Reader

variable {d : Prop} {P : HttpParser} {m : Message}

theorem Starts.leads_line {r : Reader} (h : r.Starts P m) (hOk : P.httpErrno = .ok) (hName : m.inName = false)
    {name rest : Bytes} (hLine : OneLine name rest)
    (hRepeats : P.flags.fContentlength = true → ascii "content-length" <+: name.map asciiLower → d) :
    Leads Reader.step (Calm m.complete d) r (fieldLine name rest) (LineRead P m name rest) := by
  obtain ⟨blanks, hRest, hBlanks, hFirst⟩ := dropBlanks_split rest
  have hLf : LF ∉ dropBlanks rest := fun hMem => hLine.restLf (by rw [hRest]; exact List.mem_append_right _ hMem)
  have hBytes : fieldLine name rest = (name ++ [(':' : UInt8)]) ++ (blanks ++ (dropBlanks rest ++ crlf)) := by
    rw [fieldLine]
    conv_lhs => rw [hRest]
    simp only [List.append_assoc]
  rw [hBytes]
  refine (h.leads_name hOk hName hLine.nameLf hLine.colon hLine.blank hRepeats).append fun t ht => ?_
  refine Leads.append (Q := NameRead P m name) ?_ fun q hq => ?_
  · refine Leads.scan (I := fun _ => NameRead P m name) (fun u ch v q hSplit hq => ?_) ht
    have hBlank : ch = SP ∨ ch = HT := hBlanks ch (by rw [hSplit]; simp)
    exact hq.blank hBlank
  · cases hValue : dropBlanks rest with
    | nil => exact hq.leads_empty hName hValue
    | cons first s =>
      rw [hValue] at hFirst hLf
      exact hq.leads_some hName hValue (hFirst first rfl) hLf

end Reader

end HttpUtils
