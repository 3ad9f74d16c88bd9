import HttpUtils.HttpParser.Move
import HttpUtils.Message

/-!
# The marks of a scan and the message it spells

At most one mark is open between two bytes, and the state says which. So the calls of a scan, with
the open run as the last of them, spell a message, and a move changes this message in a way that does
not depend on how long the run already is.
-/

namespace HttpUtils
set_option autoImplicit false

/-- The mark that is open and the message so far, while the actions of one byte are taken. -/
structure Live where
  mark : Option DataCb
  message : Message

namespace Live

def act (P : HttpParser) (ch : UInt8) (l : Live) : Act → Live
  | .mark k => ⟨some k, l.message.see (k.call P [])⟩
  | .data k => if l.mark = some k then ⟨none, l.message⟩ else l
  | .dataThrough k => if l.mark = some k then ⟨none, l.message.see (k.call P [ch])⟩ else l
  | .notify k => ⟨l.mark, l.message.see (k.call P)⟩
  | .advance _ => l

def consume (P : HttpParser) (ch : UInt8) (l : Live) : Message :=
  match l.mark with
  | none => l.message
  | some k => l.message.see (k.call P [ch])

end Live

/-! ### Marks -/

def holding (o : Option (DataCb × Bytes)) : DataCb → Option Bytes := fun k =>
  match o with
  | none => none
  | some (j, run) => if k = j then some run else none

@[simp] theorem holding_none (k : DataCb) : holding none k = none := rfl

@[simp] theorem holding_self (k : DataCb) (run : Bytes) : holding (some (k, run)) k = some run := by
  simp [holding]

theorem holding_of_ne {j k : DataCb} (h : k ≠ j) (run : Bytes) : holding (some (j, run)) k = none := by
  simp [holding, h]

theorem update_holding_none (k : DataCb) (run : Bytes) :
    Function.update (holding none) k (some run) = holding (some (k, run)) := by
  funext j
  by_cases hj : j = k
  · subst hj
    simp
  · simp [Function.update_of_ne hj, holding_of_ne hj]

theorem update_holding_self (k : DataCb) (run run' : Bytes) :
    Function.update (holding (some (k, run))) k (some run') = holding (some (k, run')) := by
  funext j
  by_cases hj : j = k
  · subst hj
    simp
  · simp [Function.update_of_ne hj, holding_of_ne hj]

theorem close_holding (k : DataCb) (run : Bytes) :
    Function.update (holding (some (k, run))) k none = holding none := by
  funext j
  by_cases hj : j = k
  · subst hj
    simp
  · simp [Function.update_of_ne hj, holding_of_ne hj]

theorem map_holding (o : Option (DataCb × Bytes)) (ch : UInt8) :
    (fun k => (holding o k).map (· ++ [ch])) = holding (o.map fun x => (x.1, x.2 ++ [ch])) := by
  funext k
  cases o with
  | none => rfl
  | some x =>
    simp only [holding, Option.map_some]
    split <;> rfl

/-- The message with the run that is still open. -/
def Message.seeOpen (m : Message) (P : HttpParser) : Option (DataCb × Bytes) → Message
  | none => m
  | some (k, run) => m.see (k.call P run)

def markAfter (o : Option DataCb) : Act → Option DataCb
  | .mark k => some k
  | .data k | .dataThrough k => if o = some k then none else o
  | .notify _ | .advance _ => o

/-- The actions open no mark beside another, and notify only with none open. -/
def WellMarked : Option DataCb → List Act → Prop
  | _, [] => True
  | o, .mark k :: acts => (o = none ∨ o = some .body ∧ k = .body) ∧ WellMarked (some k) acts
  | o, .data k :: acts => WellMarked (markAfter o (.data k)) acts
  | o, .dataThrough k :: acts => o = some k ∧ WellMarked none acts
  | o, .notify _ :: acts => o = none ∧ WellMarked o acts
  | o, .advance _ :: acts => WellMarked o acts

/-- The states in which the mark of a body may be open although no buffer starts with it. -/
def State.holdsBody : State → Bool
  | .sBodyIdentity | .sBodyIdentityEof | .sChunkData | .sChunkDataAlmostDone => true
  | _ => false

def MarkFits (s : State) (o : Option DataCb) : Prop :=
  o = openMark s ∨ o = some .body ∧ s.holdsBody = true

theorem openMark_of_holdsBody {s : State} (h : s.holdsBody = true) : openMark s = none := by
  cases s <;> simp [State.holdsBody] at h <;> rfl

def Outcome.Settles (o : Option DataCb) (out : Outcome) : Prop :=
  WellMarked o out.acts ∧ (out.flow = .next → MarkFits out.parser.state (out.acts.foldl markAfter o))

@[simp] theorem openMark_newMessage (P : HttpParser) : openMark (newMessage P) = none := by
  unfold newMessage
  split
  · cases P.type <;> rfl
  · rfl

theorem settles_fail (P : HttpParser) (e : HttpErrno) (o : Option DataCb) : (fail P e).Settles o :=
  ⟨trivial, fun h => by cases h⟩

theorem settles_messageDone (P : HttpParser) : (messageDoneCase P).Settles none := by
  simp [messageDoneCase, Outcome.Settles, WellMarked, markAfter, MarkFits]

theorem settles_headersDone (P : HttpParser) (ch : UInt8) : (headersDoneCase P ch).Settles none := by
  simp only [headersDoneCase]
  repeat' split
  all_goals simp [fail, next, Outcome.Settles, WellMarked, markAfter, MarkFits]
  all_goals rfl

theorem settles_headersAlmostDone (P : HttpParser) (ch : UInt8) :
    (headersAlmostDoneCase P ch).Settles none := by
  unfold headersAlmostDoneCase
  split
  · exact settles_fail _ _ _
  split
  · exact ⟨⟨rfl, (settles_messageDone _).1⟩, (settles_messageDone _).2⟩
  split
  · exact settles_fail _ _ _
  · exact ⟨⟨rfl, (settles_headersDone _ _).1⟩, (settles_headersDone _ _).2⟩

theorem settles_headerFieldStart (P : HttpParser) (ch : UInt8) :
    (headerFieldStartCase P ch).Settles none := by
  unfold headerFieldStartCase
  split
  · simp [next, Outcome.Settles, WellMarked, MarkFits, openMark]
  split
  · exact settles_headersAlmostDone _ _
  split
  · exact settles_fail _ _ _
  · simp [next, Outcome.Settles, WellMarked, markAfter, MarkFits, openMark]

theorem settles_headerValueStart (P : HttpParser) (ch : UInt8) :
    (headerValueStartCase P ch).Settles none := by
  simp only [headerValueStartCase]
  repeat' split
  all_goals simp [fail, next, Outcome.Settles, WellMarked, markAfter, MarkFits, openMark]

theorem openMark_parseUrlChar {s : State} {ch : UInt8} (h : parseUrlChar s ch ≠ .sDead) :
    openMark (parseUrlChar s ch) = some .url := by
  revert h
  cases s <;> simp only [parseUrlChar, parseUrlServer] <;> repeat' split
  all_goals simp [openMark]

theorem settles_urlStep (P : HttpParser) (ch : UInt8) {acts : List Act} {o : Option DataCb}
    (h : o = none ∧ acts = [.mark .url] ∨ o = some .url ∧ acts = []) : (urlStep P ch acts).Settles o := by
  unfold urlStep
  dsimp only
  split
  · refine ⟨?_, fun h => by cases h⟩
    rcases h with ⟨rfl, rfl⟩ | ⟨rfl, rfl⟩ <;> simp [WellMarked]
  · rename_i hDead
    have hOpen := openMark_parseUrlChar hDead
    rcases h with ⟨rfl, rfl⟩ | ⟨rfl, rfl⟩ <;>
      simp [next, Outcome.Settles, WellMarked, markAfter, MarkFits, hOpen]

theorem settles_bodyIdentity (P : HttpParser) (hs : P.state = .sBodyIdentity) :
    (bodyIdentityCase P 1).Settles none ∧ (bodyIdentityCase P 1).Settles (some .body) := by
  simp only [bodyIdentityCase]
  split
  · simp [messageDoneCase, Outcome.after, Outcome.Settles, WellMarked, markAfter, MarkFits]
  · simp [next, Outcome.Settles, WellMarked, markAfter, MarkFits, hs, State.holdsBody]

theorem settles_bodyIdentityEof (P : HttpParser) (hs : P.state = .sBodyIdentityEof) :
    (bodyIdentityEofCase P 1).Settles none ∧ (bodyIdentityEofCase P 1).Settles (some .body) := by
  simp [bodyIdentityEofCase, next, Outcome.Settles, WellMarked, markAfter, MarkFits, hs, State.holdsBody]

theorem settles_chunkData (P : HttpParser) (hs : P.state = .sChunkData) :
    (chunkDataCase P 1).Settles none ∧ (chunkDataCase P 1).Settles (some .body) := by
  simp only [chunkDataCase]
  split <;> simp [next, Outcome.Settles, WellMarked, markAfter, MarkFits, hs, State.holdsBody]

theorem matchKeyword_state (keyword : Bytes) (P : HttpParser) (c : UInt8) (done : HttpParser → HttpParser)
    (h : ∀ P, (done P).state = P.state) : (matchKeyword keyword P c done).state = P.state := by
  simp only [matchKeyword]
  split
  · rfl
  split
  · exact h _
  · rfl

theorem settles_switch (P : HttpParser) (ch : UInt8) (hField : P.state ≠ .sHeaderField)
    (hValue : P.state ≠ .sHeaderValue) : (switch P ch 1).Settles (openMark P.state) := by
  cases hs : P.state <;> simp only [switch, hs, openMark]
  case sHeaderFieldStart => exact settles_headerFieldStart _ _
  case sHeaderValueStart => exact settles_headerValueStart _ _
  case sHeadersAlmostDone => exact settles_headersAlmostDone _ _
  case sHeadersDone => exact settles_headersDone _ _
  case sMessageDone => exact settles_messageDone _
  case sHeaderValueLws =>
    unfold headerValueLwsCase
    split
    · exact settles_headerValueStart _ _
    · exact settles_headerFieldStart _ _
  case sHeaderValueDiscardWs =>
    unfold headerValueDiscardWsCase
    split
    · simp [next, Outcome.Settles, WellMarked, MarkFits, openMark, hs]
    split
    · simp [next, Outcome.Settles, WellMarked, MarkFits, openMark]
    split
    · simp [next, Outcome.Settles, WellMarked, MarkFits, openMark]
    · exact settles_headerValueStart _ _
  case sHeaderValueDiscardLws =>
    unfold headerValueDiscardLwsCase
    split
    · simp [next, Outcome.Settles, WellMarked, MarkFits, openMark]
    · have hStart := settles_headerFieldStart
        { P with flags := finishHeaderFlags P.headerState P.flags, state := .sHeaderFieldStart } ch
      exact ⟨⟨.inl rfl, hStart.1⟩, hStart.2⟩
  case sReqSpacesBeforeUrl =>
    unfold reqSpacesBeforeUrlCase
    split
    · simp [next, Outcome.Settles, WellMarked, MarkFits, openMark, hs]
    split <;> exact settles_urlStep _ _ (.inl ⟨rfl, rfl⟩)
  case sReqSchema | sReqSchemaSlash | sReqSchemaSlashSlash | sReqServerStart =>
    unfold reqSchemaCase
    split
    · exact settles_fail _ _ _
    · exact settles_urlStep _ _ (.inr ⟨rfl, rfl⟩)
  case sReqServer | sReqServerWithAt | sReqPath | sReqQueryStringStart | sReqQueryString
    | sReqFragmentStart | sReqFragment =>
    unfold reqUrlCase
    split
    · simp [next, Outcome.Settles, WellMarked, markAfter, MarkFits, openMark]
    split
    · simp [next, Outcome.Settles, WellMarked, markAfter, MarkFits, openMark]
    split
    · simp [next, Outcome.Settles, WellMarked, markAfter, MarkFits, openMark]
    · exact settles_urlStep _ _ (.inr ⟨rfl, rfl⟩)
  case sBodyIdentity => exact (settles_bodyIdentity P hs).1
  case sBodyIdentityEof => exact (settles_bodyIdentityEof P hs).1
  case sChunkData => exact (settles_chunkData P hs).1
  case sHeaderField => exact absurd hs hField
  case sHeaderValue => exact absurd hs hValue
  all_goals
    try simp only [startResCase, expect, majorDigit, minorDigit, firstMinorDigit, resStatusCodeCase,
      startReqCase, reqMethodCase, headerAlmostDoneCase, chunkSizeStartCase, chunkSizeCase,
      chunkSizeAlmostDoneCase]
    repeat' split
    all_goals simp [fail, next, Outcome.Settles, WellMarked, markAfter, MarkFits, openMark, *]

theorem headerFieldChar_state (P : HttpParser) (ch c : UInt8) : (headerFieldChar P ch c).state = P.state := by
  cases hs : P.headerState <;> simp only [headerFieldChar, hs] <;> try rfl
  case hMatchingContentLength =>
    refine matchKeyword_state _ _ _ _ fun P => ?_
    split <;> rfl
  case hConnection | hContentLength | hTransferEncoding | hUpgrade => split <;> rfl
  all_goals exact matchKeyword_state _ _ _ _ fun _ => rfl

theorem headerValueChar_state (P : HttpParser) (h : HeaderStates) (ch : UInt8) :
    (headerValueChar P h ch).1.state = P.state := by
  have hMatch (keyword : Bytes) (g done miss : HeaderStates) :
      (matchValue keyword P (lower ch) g done miss).1.state = P.state := by
    simp only [matchValue]
    repeat' split
    all_goals rfl
  cases h <;> simp only [headerValueChar] <;> try exact hMatch _ _ _ _
  all_goals
    repeat' split
    all_goals rfl

/-- The control is where the state of the parser says. -/
def Ctl.Fits (P : HttpParser) : Ctl → Prop
  | .outer => True
  | .field _ => P.state = .sHeaderField
  | .value n h jump => P.state = .sHeaderValue ∧ ∀ i, jump = some i → h = .hGeneral ∧ i ≤ n

structure Move.Marked (s : State) (m : Move) (o : Option DataCb) : Prop where
  start : WellMarked (openMark s) m.acts
  well : WellMarked o m.acts
  agree : m.acts.foldl markAfter o = m.acts.foldl markAfter (openMark s)
  fits : MarkFits m.parser.state (m.acts.foldl markAfter o)

theorem Move.Marked.same {s : State} {m : Move} (hWell : WellMarked (openMark s) m.acts)
    (hFits : MarkFits m.parser.state (m.acts.foldl markAfter (openMark s))) : m.Marked s (openMark s) :=
  ⟨hWell, hWell, rfl, hFits⟩

theorem counted_eq_some {P Q : HttpParser} {v : Nat} :
    counted P v = some Q ↔ overflows (addNread P v) = false ∧ addNread P v = Q := by
  unfold counted
  cases overflows (addNread P v) <;> simp

theorem fieldMove_marked {P : HttpParser} {n : Nat} {ch : UInt8} {m : Move} (hState : P.state = .sHeaderField)
    (h : fieldMove P n ch = some m) :
    m.Marked .sHeaderField (some .headerField) ∧ m.ctl.Fits m.parser := by
  unfold fieldMove at h
  split at h
  · obtain ⟨Q, hQ, hm⟩ := Option.bind_eq_some_iff.mp h
    split at hm
    · obtain rfl := Option.some.inj hm
      exact ⟨.same trivial (.inl rfl), trivial⟩
    · cases hm
  · dsimp only at h
    split at h
    · cases h
    · obtain rfl := Option.some.inj h
      have hSame := (headerFieldChar_state P ch (token ch)).trans hState
      exact ⟨.same trivial (.inl (congrArg openMark hSame).symm), hSame⟩

theorem stopMove_marked {P : HttpParser} {n : Nat} {h : HeaderStates} {ch : UInt8} {m : Move}
    (hMove : stopMove P n h ch = some m) :
    m.Marked .sHeaderValue (some .headerValue) ∧ m.ctl.Fits m.parser := by
  obtain ⟨Q, hQ, rfl⟩ := Option.map_eq_some_iff.mp hMove
  refine ⟨.same trivial (.inl ?_), trivial⟩
  dsimp only
  split <;> rfl

theorem valueMove_marked {P : HttpParser} {n : Nat} {h : HeaderStates} {jump : Option Nat} {ch : UInt8}
    {m : Move} (hFits : (Ctl.value n h jump).Fits P) (hMove : valueMove P n h jump ch = some m) :
    m.Marked .sHeaderValue (some .headerValue) ∧ m.ctl.Fits m.parser := by
  obtain ⟨hState, hJump⟩ := hFits
  cases jump with
  | some i =>
    obtain ⟨hGeneral, hLe⟩ := hJump i rfl
    simp only [valueMove] at hMove
    split at hMove
    · exact stopMove_marked hMove
    · obtain rfl := Option.some.inj hMove
      refine ⟨.same trivial (.inl (congrArg openMark hState).symm), hState, fun j hj => ⟨hGeneral, ?_⟩⟩
      have hEq : i + 1 = j := Option.some.inj hj
      omega
  | none =>
    simp only [valueMove] at hMove
    split at hMove
    · exact stopMove_marked hMove
    split at hMove
    · cases hMove
    split at hMove
    · rename_i hGeneral
      obtain rfl := Option.some.inj hMove
      refine ⟨.same trivial (.inl (congrArg openMark hState).symm), hState, fun j hj => ⟨hGeneral, ?_⟩⟩
      have hEq : 1 = j := Option.some.inj hj
      omega
    · split at hMove
      · cases hMove
      · obtain rfl := Option.some.inj hMove
        have hSame := (headerValueChar_state P h ch).trans hState
        exact ⟨.same trivial (.inl (congrArg openMark hSame).symm), hSame, fun j hj => by cases hj⟩

theorem switch_marked {P : HttpParser} {ch : UInt8} {m : Move} {o : Option DataCb}
    (hField : P.state ≠ .sHeaderField) (hValue : P.state ≠ .sHeaderValue) (hMark : MarkFits P.state o)
    (h : (switch P ch 1).move = some m) : m.Marked P.state o ∧ m.ctl.Fits m.parser := by
  unfold Outcome.move at h
  split at h
  · rename_i hFlow
    obtain rfl := Option.some.inj h
    refine ⟨?_, trivial⟩
    have hSettles := settles_switch P ch hField hValue
    rcases hMark with rfl | ⟨rfl, hBody⟩
    · exact .same hSettles.1 (hSettles.2 hFlow)
    have hNone := openMark_of_holdsBody hBody
    rw [hNone] at hSettles
    have hSome : (switch P ch 1).Settles (some .body) ∧
        (switch P ch 1).acts.foldl markAfter (some .body) = (switch P ch 1).acts.foldl markAfter none := by
      cases hs : P.state <;> simp only [hs, State.holdsBody, Bool.false_eq_true] at hBody <;>
        simp only [hs, switch] at hFlow ⊢
      case sChunkData => exact ⟨(settles_chunkData P hs).2, rfl⟩
      case sBodyIdentity =>
        refine ⟨(settles_bodyIdentity P hs).2, ?_⟩
        simp only [bodyIdentityCase]
        split <;> rfl
      case sBodyIdentityEof => exact ⟨(settles_bodyIdentityEof P hs).2, rfl⟩
      case sChunkDataAlmostDone =>
        split at hFlow
        · cases hFlow
        · rename_i hCr
          rw [if_neg hCr]
          exact ⟨by simp [next, Outcome.Settles, WellMarked, markAfter, MarkFits, openMark], rfl⟩
    exact ⟨hNone ▸ hSettles.1, hSome.1.1, hNone ▸ hSome.2, hSome.1.2 hFlow⟩
  · cases h

theorem switchMove_marked {P : HttpParser} {ch : UInt8} {m : Move} {o : Option DataCb}
    (hMark : MarkFits P.state o) (h : switchMove P ch = some m) :
    m.Marked P.state o ∧ m.ctl.Fits m.parser := by
  have hOpen : P.state.holdsBody = false → o = openMark P.state := fun hBody =>
    hMark.resolve_right fun hh => by simp [hBody] at hh
  by_cases hField : P.state = .sHeaderField
  · have hMove : fieldMove P 0 ch = some m := by simpa only [switchMove, hField] using h
    rw [hOpen (by rw [hField]; rfl), hField]
    exact fieldMove_marked hField hMove
  by_cases hValue : P.state = .sHeaderValue
  · have hMove : valueMove P 0 P.headerState none ch = some m := by simpa only [switchMove, hValue] using h
    rw [hOpen (by rw [hValue]; rfl), hValue]
    exact valueMove_marked ⟨hValue, fun i hi => by cases hi⟩ hMove
  · have hSwitch : (switch P ch 1).move = some m := by
      unfold switchMove at h
      split at h
      · exact absurd ‹_› hField
      · exact absurd ‹_› hValue
      · exact h
    exact switch_marked hField hValue hMark hSwitch

/-- Every move keeps one mark at most, the one of its state. -/
theorem move_marked {P : HttpParser} {c : Ctl} {ch : UInt8} {m : Move} {o : Option DataCb}
    (hFits : c.Fits P) (hMark : MarkFits P.state o) (h : move P c ch = some m) :
    m.Marked P.state o ∧ m.ctl.Fits m.parser := by
  have hOpen : P.state.holdsBody = false → o = openMark P.state := fun hBody =>
    hMark.resolve_right fun hh => by simp [hBody] at hh
  cases c with
  | field n =>
    have hState : P.state = .sHeaderField := hFits
    rw [hOpen (by rw [hState]; rfl), hState]
    exact fieldMove_marked hState h
  | value n g jump =>
    have hState : P.state = .sHeaderValue := hFits.1
    rw [hOpen (by rw [hState]; rfl), hState]
    exact valueMove_marked hFits h
  | outer =>
    simp only [move] at h
    split at h
    · obtain ⟨Q, hQ, hMove⟩ := Option.bind_eq_some_iff.mp h
      obtain rfl := (counted_eq_some.mp hQ).2
      exact switchMove_marked (P := addNread P 1) hMark hMove
    · exact switchMove_marked hMark h

/-! ### The actions of one byte -/

/-- The scan has one mark, and with its run has spelled the message `m`. -/
structure Scan.Spells (s : Scan) (o : Option (DataCb × Bytes)) (m : Message) : Prop where
  marks : s.marks = holding o
  message : m = (Message.spell {} s.calls).seeOpen s.parser o

def MarkAgrees (o l : Option DataCb) : Prop := o = l ∨ o = some .body ∧ l = none

theorem callbackData_holding_self (s : Scan) (k : DataCb) (run last : Bytes)
    (h : s.marks = holding (some (k, run))) :
    s.callbackData k last =
      { s with marks := holding none, calls := s.calls ++ [k.call s.parser (run ++ last)] } := by
  unfold Scan.callbackData
  rw [h, holding_self]
  simp only [close_holding]

theorem callbackData_holding_other (s : Scan) (k : DataCb) (o : Option (DataCb × Bytes)) (last : Bytes)
    (h : s.marks = holding o) (hk : o.map Prod.fst ≠ some k) : s.callbackData k last = s := by
  unfold Scan.callbackData
  have hNone : holding o k = none := by
    cases o with
    | none => rfl
    | some x => exact holding_of_ne (fun hEq => hk (by simp [hEq])) _
  rw [h, hNone]

structure SameCalls (P Q : HttpParser) : Prop where
  statusCode : P.statusCode = Q.statusCode
  httpMajor : P.httpMajor = Q.httpMajor
  httpMinor : P.httpMinor = Q.httpMinor

theorem SameCalls.data {P Q : HttpParser} (h : SameCalls P Q) (k : DataCb) (run : Bytes) :
    k.call P run = k.call Q run := by
  cases k <;> simp [DataCb.call, h.statusCode]

theorem SameCalls.notify {P Q : HttpParser} (h : SameCalls P Q) (k : NotifyCb) : k.call P = k.call Q := by
  cases k <;> simp [NotifyCb.call, h.httpMajor, h.httpMinor]

theorem act_spells {s : Scan} {o : Option (DataCb × Bytes)} {l : Live} {P : HttpParser} {c : UInt8}
    {a : Act} (h : s.Spells o l.message) (hParser : SameCalls P s.parser)
    (hAgree : MarkAgrees (o.map Prod.fst) l.mark) (hWell : WellMarked (o.map Prod.fst) [a])
    (hLive : WellMarked l.mark [a]) :
    ∃ o', (s.act c a).Spells o' (l.act P c a).message ∧ o'.map Prod.fst = markAfter (o.map Prod.fst) a ∧
      (l.act P c a).mark = markAfter l.mark a ∧ MarkAgrees (o'.map Prod.fst) (l.act P c a).mark := by
  obtain ⟨hMarks, hMessage⟩ := h
  cases a with
  | mark k =>
    refine ⟨some (k, (holding o k).getD []), ⟨?_, ?_⟩, rfl, rfl, .inl rfl⟩
    · simp only [Scan.act, hMarks]
      cases o with
      | none => exact update_holding_none k _
      | some x =>
        obtain ⟨j, run⟩ := x
        have hBody : j = .body ∧ k = .body := by simpa [WellMarked] using hWell
        obtain ⟨rfl, rfl⟩ := hBody
        exact update_holding_self _ _ _
    · simp only [Live.act, hMessage, hParser.data]
      cases o with
      | none => rfl
      | some x =>
        obtain ⟨j, run⟩ := x
        have hBody : j = .body ∧ k = .body := by simpa [WellMarked] using hWell
        obtain ⟨rfl, rfl⟩ := hBody
        simp only [Message.seeOpen, holding_self, Option.getD_some, Message.see_body_nil]
        rfl
  | data k =>
    by_cases hk : o.map Prod.fst = some k
    · obtain ⟨⟨j, run⟩, rfl, rfl⟩ := Option.map_eq_some_iff.mp hk
      refine ⟨none, ⟨?_, ?_⟩, by simp [markAfter], ?_, ?_⟩
      · simp only [Scan.act, callbackData_holding_self s j run [] hMarks]
      · simp only [Scan.act, callbackData_holding_self s j run [] hMarks, Message.seeOpen, Message.spell_concat,
          List.append_nil, Live.act]
        split <;> exact hMessage
      · simp only [Live.act, markAfter]
        split <;> rfl
      · simp only [Live.act, Option.map_none]
        rcases hAgree with hAgree | ⟨-, hAgree⟩
        · simp [← hAgree, MarkAgrees]
        · simp [hAgree, MarkAgrees]
    · have hSame : s.act c (.data k) = s := callbackData_holding_other s k o [] hMarks hk
      have hLiveNe : l.mark ≠ some k := by
        rcases hAgree with hAgree | ⟨-, hAgree⟩
        · rwa [← hAgree]
        · simp [hAgree]
      refine ⟨o, ?_, by simp [markAfter, hk], by simp [Live.act, markAfter, hLiveNe], ?_⟩
      · simp only [hSame, Live.act, if_neg hLiveNe]
        exact ⟨hMarks, hMessage⟩
      · simpa only [Live.act, if_neg hLiveNe] using hAgree
  | dataThrough k =>
    have hk : o.map Prod.fst = some k := hWell.1
    have hlk : l.mark = some k := hLive.1
    obtain ⟨⟨j, run⟩, rfl, rfl⟩ := Option.map_eq_some_iff.mp hk
    refine ⟨none, ⟨?_, ?_⟩, by simp [markAfter], by simp [Live.act, markAfter, hlk], by
      simp [Live.act, hlk, MarkAgrees]⟩
    · simp only [Scan.act, callbackData_holding_self s j run [c] hMarks]
    · simp only [Scan.act, callbackData_holding_self s j run [c] hMarks, Message.seeOpen, Message.spell_concat,
        Live.act, hlk, if_true, hMessage, hParser.data, Message.see_split]
  | notify k =>
    have hNone : o.map Prod.fst = none := hWell.1
    have hlk : l.mark = none := hLive.1
    obtain rfl : o = none := Option.map_eq_none_iff.mp hNone
    refine ⟨none, ⟨hMarks, ?_⟩, rfl, rfl, .inl hlk.symm⟩
    simp only [Scan.act, Live.act, Message.seeOpen, Message.spell_concat, hMessage, hParser.notify]
  | advance n => exact ⟨o, ⟨hMarks, hMessage⟩, rfl, rfl, hAgree⟩

theorem WellMarked.cons {o : Option DataCb} {a : Act} {acts : List Act} (h : WellMarked o (a :: acts)) :
    WellMarked o [a] ∧ WellMarked (markAfter o a) acts := by
  cases a with
  | mark k => exact ⟨⟨h.1, trivial⟩, h.2⟩
  | data k => exact ⟨trivial, h⟩
  | dataThrough k =>
    obtain ⟨rfl, hRest⟩ := h
    exact ⟨⟨rfl, trivial⟩, by simpa [markAfter] using hRest⟩
  | notify k => exact ⟨⟨h.1, trivial⟩, h.2⟩
  | advance n => exact ⟨trivial, h⟩

theorem acts_spell {s : Scan} {o : Option (DataCb × Bytes)} {l : Live} {P : HttpParser} {c : UInt8}
    {acts : List Act} (h : s.Spells o l.message) (hParser : SameCalls P s.parser)
    (hAgree : MarkAgrees (o.map Prod.fst) l.mark) (hWell : WellMarked (o.map Prod.fst) acts)
    (hLive : WellMarked l.mark acts) :
    ∃ o', (acts.foldl (Scan.act c) s).Spells o' (acts.foldl (Live.act P c) l).message ∧
      o'.map Prod.fst = acts.foldl markAfter (o.map Prod.fst) ∧
      (acts.foldl (Live.act P c) l).mark = acts.foldl markAfter l.mark := by
  induction acts generalizing s o l with
  | nil => exact ⟨o, h, rfl, rfl⟩
  | cons a acts ih =>
    obtain ⟨hHead, hTail⟩ := hWell.cons
    obtain ⟨hHead', hTail'⟩ := hLive.cons
    obtain ⟨o₁, hSpells, hMark, hLiveMark, hAgree₁⟩ := act_spells (c := c) h hParser hAgree hHead hHead'
    have hParser₁ : SameCalls P (s.act c a).parser := by rwa [(Scan.act_frame c s a).1]
    obtain ⟨o', hSpells', hMark', hLiveMark'⟩ :=
      ih hSpells hParser₁ hAgree₁ (by rwa [hMark]) (by rwa [hLiveMark])
    refine ⟨o', hSpells', ?_, ?_⟩
    · rw [hMark', hMark, List.foldl_cons]
    · rw [List.foldl_cons, hLiveMark', hLiveMark, List.foldl_cons]

theorem consume_spells {s : Scan} {o : Option (DataCb × Bytes)} {l : Live} {P : HttpParser} {ch : UInt8}
    (h : s.Spells o l.message) (hParser : SameCalls P s.parser) (hMark : o.map Prod.fst = l.mark) :
    (s.consume ch).Spells (o.map fun x => (x.1, x.2 ++ [ch])) (l.consume P ch) := by
  refine ⟨?_, ?_⟩
  · simp only [Scan.consume, h.marks]
    exact map_holding o ch
  · unfold Live.consume
    rw [← hMark]
    cases o with
    | none => exact h.message
    | some x =>
      obtain ⟨k, run⟩ := x
      have hMessage := h.message
      simp only [Message.seeOpen] at hMessage
      simp only [Option.map_some, Scan.consume, Message.seeOpen, hMessage, hParser.data, Message.see_split]

/-! ### One byte -/

/-- The message after the byte `ch` is read with the move `m` from the parser `P`. -/
def Move.spell (P : HttpParser) (ch : UInt8) (m : Move) (seen : Message) : Message :=
  (m.acts.foldl (Live.act m.parser ch) ⟨openMark P.state, seen⟩).consume m.parser ch

theorem Outcome.move_eq_some {o : Outcome} {m : Move} (h : o.move = some m) :
    o.flow = .next ∧ m = ⟨o.acts, o.parser, .outer⟩ := by
  unfold Outcome.move at h
  split at h
  · exact ⟨‹_›, (Option.some.inj h).symm⟩
  · cases h

theorem move_status {P : HttpParser} {c : Ctl} {ch : UInt8} {m : Move} (hFits : c.Fits P)
    (hOpen : openMark P.state = some .status) (h : move P c ch = some m) :
    m.parser.statusCode = P.statusCode := by
  have hState : P.state = .sResStatus := by
    cases hs : P.state <;> simp only [hs, openMark, reduceCtorEq, Option.some.injEq] at hOpen
    rfl
  have hSwitch {Q : HttpParser} (hQ : Q.state = .sResStatus) (hm : switchMove Q ch = some m) :
      m.parser.statusCode = Q.statusCode := by
    have hMove : (switch Q ch 1).move = some m := by simpa only [switchMove, hQ] using hm
    rw [(Outcome.move_eq_some hMove).2]
    simp only [switch, hQ]
    repeat' split
    all_goals rfl
  cases c with
  | field n => exact absurd (hFits.symm.trans hState) (by decide)
  | value n g jump => exact absurd (hFits.1.symm.trans hState) (by decide)
  | outer =>
    simp only [move] at h
    split at h
    · obtain ⟨Q, hQ, hMove⟩ := Option.bind_eq_some_iff.mp h
      obtain rfl := (counted_eq_some.mp hQ).2
      exact hSwitch (Q := addNread P 1) hState hMove
    · exact hSwitch hState h

theorem Scan.Spells.withParser {s : Scan} {o : Option (DataCb × Bytes)} {m : Message} (h : s.Spells o m)
    {P : HttpParser} (c : Ctl) (hStatus : o.map Prod.fst = some .status → P.statusCode = s.parser.statusCode) :
    Scan.Spells { s with parser := P, ctl := c } o m := by
  refine ⟨h.marks, h.message.trans ?_⟩
  cases o with
  | none => rfl
  | some x =>
    obtain ⟨k, run⟩ := x
    cases k with
    | status =>
      have hCode := hStatus rfl
      simp [Message.seeOpen, DataCb.call, hCode]
    | _ => rfl

/-- A scan between two bytes: its mark fits the state and `m` is spelled so far. -/
structure Scan.Between (s : Scan) (m : Message) : Prop where
  running : s.stopped = none
  fits : s.ctl.Fits s.parser
  spells : ∃ o, s.Spells o m ∧ MarkFits s.parser.state (o.map Prod.fst)

theorem MarkFits.status {s : State} {o : Option DataCb} (h : MarkFits s o) (ho : o = some .status) :
    openMark s = some .status := by
  rcases h with rfl | ⟨rfl, -⟩
  · exact ho
  · cases ho

/-- The message after a byte depends on the parser, the control and the message before it. -/
theorem Scan.Between.take {s : Scan} {m : Message} (h : s.Between m) {ch : UInt8} {v : Move}
    (hMove : move s.parser s.ctl ch = some v) : (s.take ch v).Between (v.spell s.parser ch m) := by
  obtain ⟨hRun, hFits, o, hSpells, hMark⟩ := h
  obtain ⟨hMarked, hFits'⟩ := move_marked hFits hMark hMove
  let t : Scan := { s with parser := v.parser, ctl := v.ctl }
  have hSpells' : t.Spells o m := hSpells.withParser v.ctl fun hStatus =>
    move_status hFits (hMark.status hStatus) hMove
  have hAgree : MarkAgrees (o.map Prod.fst) (openMark s.parser.state) := by
    rcases hMark with hMark | ⟨hMark, hBody⟩
    · exact .inl hMark
    · exact .inr ⟨hMark, openMark_of_holdsBody hBody⟩
  have hSame : SameCalls v.parser t.parser := ⟨rfl, rfl, rfl⟩
  obtain ⟨o', hSpells'', hMark', hLive⟩ :=
    acts_spell (l := ⟨openMark s.parser.state, m⟩) (c := ch) hSpells' hSame hAgree hMarked.well hMarked.start
  have hParser : (v.acts.foldl (Scan.act ch) t).parser = v.parser := (Scan.acts_frame ch t v.acts).1
  have hMarkLive : o'.map Prod.fst = (v.acts.foldl (Live.act v.parser ch) ⟨openMark s.parser.state, m⟩).mark := by
    rw [hMark', hLive, hMarked.agree]
  refine ⟨(Scan.take_stopped s ch v).trans hRun, ?_, _, consume_spells hSpells'' ?_ hMarkLive, ?_⟩
  · rw [Scan.parser_of_take, Scan.take_ctl]
    exact hFits'
  · rw [hParser]
    exact ⟨rfl, rfl, rfl⟩
  · rw [Scan.parser_of_take, Option.map_map]
    have hMap : (Prod.fst ∘ fun x : DataCb × Bytes => (x.1, x.2 ++ [ch])) = Prod.fst := rfl
    rw [hMap, hMark']
    exact hMarked.fits

/-! ### The end of a buffer -/

/-- The callbacks for the open mark at the end of a buffer. -/
def openCall (P : HttpParser) (o : Option (DataCb × Bytes)) : List Callback :=
  (o.map fun x => x.1.call P x.2).toList

theorem spell_openCall (m : Message) (P : HttpParser) (o : Option (DataCb × Bytes)) :
    m.spell (openCall P o) = m.seeOpen P o := by
  cases o <;> rfl

theorem foldl_data_none (ks : List DataCb) {s : Scan} (h : s.marks = holding none) :
    (ks.map Act.data).foldl (Scan.act 0) s = s := by
  induction ks with
  | nil => rfl
  | cons k ks ih =>
    have hStep : s.act 0 (.data k) = s := callbackData_holding_other s k none [] h (by simp)
    rw [List.map_cons, List.foldl_cons, hStep, ih]

theorem foldl_data_mem {ks : List DataCb} {s : Scan} {k : DataCb} {run : Bytes}
    (h : s.marks = holding (some (k, run))) (hk : k ∈ ks) :
    (ks.map Act.data).foldl (Scan.act 0) s =
      { s with marks := holding none, calls := s.calls ++ [k.call s.parser run] } := by
  induction ks with
  | nil => cases hk
  | cons j ks ih =>
    rw [List.map_cons, List.foldl_cons]
    by_cases hj : j = k
    · subst hj
      have hStep := callbackData_holding_self s j run [] h
      rw [List.append_nil] at hStep
      rw [Scan.act, hStep]
      exact foldl_data_none ks rfl
    · have hStep : s.act 0 (.data j) = s :=
        callbackData_holding_other s j _ [] h (by simpa using fun hEq => hj hEq.symm)
      rw [hStep]
      exact ih ((List.mem_cons.mp hk).resolve_left fun hEq => hj hEq.symm)

theorem flush_of_holding {s : Scan} {o : Option (DataCb × Bytes)} (h : s.marks = holding o) :
    s.flush = { s with ctl := .outer, marks := holding none, calls := s.calls ++ openCall s.parser o } := by
  have hLeftover : leftover = [.headerField, .headerValue, .url, .body, .status].map Act.data := rfl
  rw [Scan.flush, hLeftover]
  cases o with
  | none =>
    rw [foldl_data_none _ (by exact h), ← h]
    simp [openCall]
  | some x =>
    obtain ⟨k, run⟩ := x
    have hMarks : ({ s with ctl := .outer } : Scan).marks = holding (some (k, run)) := h
    rw [foldl_data_mem hMarks (by cases k <;> simp)]
    rfl

/-- The scan at the start of the next buffer. -/
def Scan.cut (s : Scan) : Option Scan :=
  (cutMove s.parser s.ctl).map fun Q =>
    { Scan.start Q with calls := (Scan.flush { s with parser := Q }).calls }

theorem cutMove_eq_some {P Q : HttpParser} {c : Ctl} (h : cutMove P c = some Q) :
    Q.state = P.state ∧ Q.statusCode = P.statusCode ∧ Q.httpErrno = P.httpErrno ∧ Q.upgrade = P.upgrade := by
  cases c with
  | outer =>
    obtain rfl := Option.some.inj h
    exact ⟨rfl, rfl, rfl, rfl⟩
  | field n =>
    obtain rfl := (counted_eq_some.mp h).2
    exact ⟨rfl, rfl, rfl, rfl⟩
  | value n g jump =>
    obtain rfl := (counted_eq_some.mp h).2
    exact ⟨rfl, rfl, rfl, rfl⟩

theorem start_marks (Q : HttpParser) (calls : List Callback) :
    ({ Scan.start Q with calls } : Scan).marks = holding ((openMark Q.state).map fun k => (k, [])) := by
  funext k
  simp only [Scan.start]
  cases hOpen : openMark Q.state with
  | none => simp
  | some j =>
    by_cases hj : k = j
    · subst hj
      simp
    · simp [holding_of_ne hj, show ¬ j = k from fun hEq => hj hEq.symm]

/-- The end of a buffer does not change the message, and leaves no call out. -/
theorem Scan.Between.cut {s t : Scan} {m : Message} (h : s.Between m) (hCut : s.cut = some t) :
    t.Between m ∧ m = Message.spell {} t.calls := by
  obtain ⟨hRun, hFits, o, hSpells, hMark⟩ := h
  obtain ⟨Q, hQ, rfl⟩ := Option.map_eq_some_iff.mp hCut
  obtain ⟨hState, hCode, -, -⟩ := cutMove_eq_some hQ
  have hSpells' := hSpells.withParser (P := Q) s.ctl fun _ => hCode
  have hCalls : (Scan.flush { s with parser := Q }).calls = s.calls ++ openCall Q o :=
    congrArg Scan.calls (flush_of_holding hSpells'.marks)
  have hMessage : m = Message.spell {} (s.calls ++ openCall Q o) := by
    rw [Message.spell_append, spell_openCall]
    exact hSpells'.message
  refine ⟨⟨rfl, trivial, (openMark Q.state).map fun k => (k, []), ⟨start_marks _ _, ?_⟩, ?_⟩, ?_⟩
  · dsimp only
    rw [hCalls, ← hMessage]
    rcases hMark with hMark | ⟨hMark, hBody⟩
    · rw [← hState] at hMark
      cases o with
      | none =>
        rw [← hMark]
        rfl
      | some x =>
        obtain ⟨k, run⟩ := x
        rw [← hMark]
        rw [Message.spell_append, spell_openCall] at hMessage
        simp only [Option.map_some, Message.seeOpen] at hMessage ⊢
        rw [hMessage, Message.see_split, List.append_nil]
        rfl
    · rw [hState, openMark_of_holdsBody hBody]
      rfl
  · rw [Option.map_map]
    have hMap : (Prod.fst ∘ fun k : DataCb => (k, ([] : Bytes))) = id := rfl
    rw [hMap, Option.map_id]
    exact .inl rfl
  · dsimp only
    rw [hCalls]
    exact hMessage

theorem between_fresh (t : HttpParserType) : (Scan.start (httpParserInit t)).Between {} := by
  have hMarks : (Scan.start (httpParserInit t)).marks = holding _ := start_marks (httpParserInit t) []
  refine ⟨rfl, trivial, none, ⟨?_, rfl⟩, ?_⟩
  · rw [hMarks]
    cases t <;> rfl
  · cases t <;> exact .inl rfl

end HttpUtils
