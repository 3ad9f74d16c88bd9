import HttpUtils.HttpParser.Reader
import HttpUtils.HttpParser.Losses

/-!
# Passing over a piece of a message

`r.Passes bytes r'`: the reader takes all the bytes, the message is not complete before the last of
them, and no division of the bytes can disturb it.
-/

namespace HttpUtils
set_option autoImplicit false

/-! ### Passages -/

def Reader.Loses (r : Reader) (ch : UInt8) : Prop :=
  ∃ v, (byteCase r.parser ch).move = some v ∧ v.Loses r.parser ch r.message

/-- The byte neither ends the message nor lies behind its end, and every division reads it alike. -/
structure Reader.Steady (r : Reader) (ch : UInt8) : Prop where
  clean : r.Clean ch
  complete : r.message.complete = false
  upgrade : r.parser.upgrade = false
  lossless : ¬ r.Loses ch

structure Reader.Passes (r : Reader) (bytes : Bytes) (r' : Reader) : Prop where
  run : r.run bytes = some r'
  steady : PartialRun.Along Reader.step Reader.Steady r bytes

namespace Reader

theorem Passes.refl (r : Reader) : r.Passes [] r := ⟨rfl, trivial⟩

theorem Passes.trans {r q t : Reader} {a b : Bytes} (h : r.Passes a q) (h' : q.Passes b t) :
    r.Passes (a ++ b) t :=
  ⟨(PartialRun.run_append_of_run h.run b).trans h'.run, h.steady.trans h.run h'.steady⟩

theorem Passes.single {r r' : Reader} {ch : UInt8} (hStep : r.step ch = some r') (hSteady : r.Steady ch) :
    r.Passes [ch] r' :=
  ⟨(PartialRun.run_singleton r ch).trans hStep, hSteady, fun _ _ => trivial⟩

theorem Passes.cons {r q t : Reader} {ch : UInt8} {b : Bytes} (hStep : r.step ch = some q)
    (hSteady : r.Steady ch) (h : q.Passes b t) : r.Passes (ch :: b) t :=
  (Passes.single hStep hSteady).trans h

theorem step_fed {r r' : Reader} {ch : UInt8} (h : r.step ch = some r') : r'.fed = r.fed + 1 := by
  obtain ⟨v, -, rfl⟩ := Option.map_eq_some_iff.mp h
  rfl

theorem run_fed {r r' : Reader} {b : Bytes} (h : r.run b = some r') : r'.fed = r.fed + b.length := by
  induction b generalizing r with
  | nil =>
    obtain rfl := Option.some.inj h
    rfl
  | cons ch b ih =>
    obtain ⟨q, hStep, hRest⟩ := PartialRun.run_cons_eq_some.mp h
    rw [ih hRest, step_fed hStep, List.length_cons]
    omega

theorem Passes.fed {r r' : Reader} {b : Bytes} (h : r.Passes b r') : r'.fed = r.fed + b.length := run_fed h.run

theorem step_of_next {r : Reader} {ch : UInt8} {Q : HttpParser} {acts : List Act}
    (h : byteCase r.parser ch = next Q acts) :
    r.step ch = some ⟨Q, Move.spell r.parser ch ⟨acts, Q, .outer⟩ r.message, r.fed + 1⟩ := by
  rw [step, h]
  rfl

theorem loses_iff_of_next {r : Reader} {ch : UInt8} {Q : HttpParser} {acts : List Act}
    (h : byteCase r.parser ch = next Q acts) :
    r.Loses ch ↔ ActsLose Q ch ⟨openMark r.parser.state, r.message⟩ acts := by
  have hMove : (byteCase r.parser ch).move = some ⟨acts, Q, .outer⟩ := by
    rw [h]
    rfl
  constructor
  · rintro ⟨v, hv, hLoses⟩
    obtain rfl := Option.some.inj (hMove.symm.trans hv)
    exact hLoses
  · exact fun hLoses => ⟨_, hMove, hLoses⟩

/-- Half of the header limit. -/
def room : ℕ := httpMaxHeaderSize / 2

theorem clean_of_room {r : Reader} {ch : UInt8} (hFed : r.fed < room)
    (hChar : r.parser.state = .sHeaderValue → ch = CR ∨ ch = LF ∨ isHeaderChar ch = true) : r.Clean ch := by
  refine ⟨fun _ => ?_, hChar⟩
  simp only [room, httpMaxHeaderSize] at hFed ⊢
  omega

theorem passes_quiet {r : Reader} {c : UInt8} {Q : HttpParser} (h : byteCase r.parser c = next Q)
    (hFed : r.fed < room) (hMark : openMark r.parser.state = none) (hComplete : r.message.complete = false)
    (hUpgrade : r.parser.upgrade = false) : r.Passes [c] ⟨Q, r.message, r.fed + 1⟩ := by
  have hStep := step_of_next h
  have hSpell : Move.spell r.parser c ⟨[], Q, .outer⟩ r.message = r.message := by
    simp [Move.spell, Live.consume, hMark]
  rw [hSpell] at hStep
  refine .single hStep ⟨clean_of_room hFed fun hState => ?_, hComplete, hUpgrade, ?_⟩
  · rw [hState] at hMark
    cases hMark
  · rw [loses_iff_of_next h]
    exact id

structure Within (k : DataCb) (f : HttpParser → UInt8 → HttpParser) (P : HttpParser) (ch : UInt8) : Prop where
  step : byteCase P ch = next (f P ch)
  mark : openMark P.state = some k
  upgrade : P.upgrade = false
  clean : P.state = .sHeaderValue → ch = CR ∨ ch = LF ∨ isHeaderChar ch = true

theorem passes_within {k : DataCb} {f : HttpParser → UInt8 → HttpParser} {s w : Bytes} {r : Reader} {m : Message}
    (h : ∀ u ch v, s = u ++ ch :: v → Within k f (u.foldl f r.parser) ch)
    (hFed : r.fed + s.length ≤ room) (hMessage : ∃ P, r.message = m.see (k.call P w))
    (hComplete : m.complete = false) :
    ∃ r', r.Passes s r' ∧ r'.parser = s.foldl f r.parser ∧ ∃ P, r'.message = m.see (k.call P (w ++ s)) := by
  induction s generalizing r w with
  | nil =>
    obtain ⟨P, hP⟩ := hMessage
    exact ⟨r, .refl r, rfl, P, by simpa using hP⟩
  | cons ch s ih =>
    obtain ⟨hCase, hMark, hUpgrade, hChar⟩ := h [] ch s rfl
    obtain ⟨P, hP⟩ := hMessage
    simp only [List.foldl_nil, List.length_cons] at hCase hMark hUpgrade hChar hFed
    have hStep := step_of_next hCase
    have hSpell : Move.spell r.parser ch ⟨[], f r.parser ch, .outer⟩ r.message =
        m.see (k.call (f r.parser ch) (w ++ [ch])) := by
      simp only [Move.spell, List.foldl_nil, Live.consume, hMark, hP, Message.see_split]
    have hSteady : r.Steady ch := by
      refine ⟨clean_of_room (by omega) hChar, ?_, hUpgrade, ?_⟩
      · rw [hP, Message.complete_see_data, hComplete]
      · rw [loses_iff_of_next hCase]
        exact id
    obtain ⟨r', hPasses, hParser, Q, hQ⟩ :=
      ih (r := ⟨f r.parser ch, _, r.fed + 1⟩) (fun u c v hs => h (ch :: u) c v (by rw [hs]; rfl))
        (by simp only; omega) ⟨_, hSpell⟩
    exact ⟨r', .cons hStep hSteady hPasses, hParser, Q, by simpa using hQ⟩

theorem passes_quietly {f : HttpParser → UInt8 → HttpParser} {s : Bytes} {r : Reader}
    (h : ∀ u ch v, s = u ++ ch :: v → byteCase (u.foldl f r.parser) ch = HttpUtils.next (f (u.foldl f r.parser) ch) ∧
      openMark (u.foldl f r.parser).state = none ∧ (u.foldl f r.parser).upgrade = false)
    (hFed : r.fed + s.length ≤ room) (hComplete : r.message.complete = false) :
    r.Passes s ⟨s.foldl f r.parser, r.message, r.fed + s.length⟩ := by
  induction s generalizing r with
  | nil => exact .refl r
  | cons ch s ih =>
    obtain ⟨hCase, hMark, hUpgrade⟩ := h [] ch s rfl
    rw [List.length_cons] at hFed ⊢
    have hFirst := passes_quiet hCase (by omega) hMark hComplete hUpgrade
    have hRest := ih (r := ⟨f r.parser ch, r.message, r.fed + 1⟩)
      (fun u c v hs => h (ch :: u) c v (by rw [hs]; rfl)) (by simp only; omega) hComplete
    have hEnd : r.fed + (s.length + 1) = r.fed + 1 + s.length := by omega
    rw [hEnd]
    exact hFirst.trans hRest

/-! ### Computing a passage -/

instance (m : Message) (k : DataCb) : Decidable (m.LosesAt k) :=
  match k with
  | .headerField => inferInstanceAs (Decidable (m.inName = true))
  | .headerValue =>
    match hLast : m.last with
    | none => .isFalse (by rintro ⟨h, hSome, -⟩; rw [hLast] at hSome; cases hSome)
    | some h => decidable_of_iff (h.value ≠ []) (by simp [Message.LosesAt, hLast])
  | .url | .status | .body => .isFalse id

instance (m : Message) (a : Act) : Decidable (a.Loses m) :=
  match a with
  | .mark k => inferInstanceAs (Decidable (m.LosesAt k))
  | .data _ | .dataThrough _ | .notify _ | .advance _ => .isFalse id

instance decidableActsLose (P : HttpParser) (ch : UInt8) (l : Live) (acts : List Act) :
    Decidable (ActsLose P ch l acts) :=
  match acts with
  | [] => .isFalse id
  | a :: acts =>
    have := decidableActsLose P ch (l.act P ch a) acts
    inferInstanceAs (Decidable (a.Loses l.message ∨ ActsLose P ch (l.act P ch a) acts))

instance (P : HttpParser) (ch : UInt8) (v : Move) (m : Message) : Decidable (v.Loses P ch m) :=
  inferInstanceAs (Decidable (ActsLose _ _ _ _))

def steady (r : Reader) (ch : UInt8) : Bool :=
  decide (r.fed < room) && (r.parser.state != .sHeaderValue || ch == CR || ch == LF || isHeaderChar ch) &&
    !r.message.complete && !r.parser.upgrade &&
    match (byteCase r.parser ch).move with
    | none => false
    | some v => !decide (v.Loses r.parser ch r.message)

def passage (r : Reader) : Bytes → Option Reader
  | [] => some r
  | ch :: b => if r.steady ch then (r.step ch).bind fun q => passage q b else none

theorem steady_of_true {r : Reader} {ch : UInt8} (h : r.steady ch = true) : r.Steady ch := by
  simp only [steady, Bool.and_eq_true, decide_eq_true_eq, Bool.not_eq_true', Bool.or_eq_true, beq_iff_eq,
    bne_iff_ne] at h
  obtain ⟨⟨⟨⟨hFed, hChar⟩, hComplete⟩, hUpgrade⟩, hLossless⟩ := h
  refine ⟨clean_of_room hFed fun hValue => ?_, hComplete, hUpgrade, ?_⟩
  · tauto
  · rintro ⟨v, hv, hLoses⟩
    rw [hv] at hLossless
    exact absurd hLoses (of_decide_eq_false (by simpa using hLossless))

theorem passes_of_passage {r r' : Reader} {b : Bytes} (h : r.passage b = some r') : r.Passes b r' := by
  induction b generalizing r with
  | nil =>
    obtain rfl := Option.some.inj h
    exact .refl r
  | cons ch b ih =>
    rw [passage] at h
    split at h
    · rename_i hSteady
      obtain ⟨q, hStep, hRest⟩ := Option.bind_eq_some_iff.mp h
      exact .cons hStep (steady_of_true hSteady) (ih hRest)
    · cases h

end Reader

end HttpUtils
