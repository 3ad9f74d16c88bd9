import HttpUtils.ParseDivision

/-!
# A count that starts again

Behind the blank line, behind the size of a chunk and behind its data, the parser counts the header bytes from
zero: a message may be long, if the pieces in between are short.
-/

namespace HttpUtils
set_option autoImplicit false

/-- The count of header bytes starts again behind the byte read between these two states. -/
def State.renews (s s' : State) : Bool :=
  match s with
  | .sHeadersAlmostDone => s' == .sChunkSizeStart
  | .sChunkSizeAlmostDone | .sChunkDataDone => true
  | _ => false

theorem newMessage_ne_chunkSizeStart (P : HttpParser) : newMessage P ≠ .sChunkSizeStart := by
  unfold newMessage startState
  split
  · cases P.type <;> simp
  · simp

theorem headersDone_renewed {P : HttpParser} {ch : UInt8} (hFlow : (headersDoneCase P ch).flow = .next) :
    (headersDoneCase P ch).parser.nread = 0 := by
  unfold headersDoneCase at hFlow ⊢
  split
  · rename_i hNot
    rw [if_pos hNot] at hFlow
    exact absurd hFlow (fail_flow _ _)
  · simp only [apply_ite Outcome.parser, apply_ite HttpParser.nread]
    simp [next]

theorem switch_renewed {P : HttpParser} {ch : UInt8} (hFlow : (switch P ch 1).flow = .next)
    (hRenews : P.state.renews (switch P ch 1).parser.state = true) : (switch P ch 1).parser.nread = 0 := by
  cases hs : P.state
  case sHeadersAlmostDone =>
    simp only [State.renews, hs, beq_iff_eq] at hRenews
    simp only [switch, hs, headersAlmostDoneCase] at hFlow hRenews ⊢
    split at hFlow
    · exact absurd hFlow (fail_flow _ _)
    rename_i hLf
    rw [if_neg hLf] at hRenews ⊢
    split at hFlow
    · rename_i hTrailing
      rw [if_pos hTrailing] at hRenews
      exact absurd hRenews (newMessage_ne_chunkSizeStart _)
    rename_i hTrailing
    rw [if_neg hTrailing] at hRenews ⊢
    split at hFlow
    · exact absurd hFlow (fail_flow _ _)
    · rename_i hBoth
      rw [if_neg hBoth]
      exact headersDone_renewed hFlow
  case sChunkSizeAlmostDone =>
    simp only [switch, hs, chunkSizeAlmostDoneCase] at hFlow ⊢
    split at hFlow
    · exact absurd hFlow (fail_flow _ _)
    · rename_i hLf
      rw [if_neg hLf]
      split <;> rfl
  case sChunkDataDone =>
    simp only [switch, hs] at hFlow ⊢
    split at hFlow
    · exact absurd hFlow (fail_flow _ _)
    · rename_i hLf
      rw [if_neg hLf]
      rfl
  all_goals
    simp only [State.renews, hs] at hRenews
    cases hRenews

theorem switchMove_renewed {P : HttpParser} {ch : UInt8} {v : Move} (hMove : switchMove P ch = some v)
    (hRenews : P.state.renews v.parser.state = true) : v.parser.nread = 0 ∧ v.ctl = .outer := by
  unfold switchMove at hMove
  split at hMove
  · rename_i hState
    rw [hState] at hRenews
    cases hRenews
  · rename_i hState
    rw [hState] at hRenews
    cases hRenews
  · obtain ⟨hFlow, rfl⟩ := Outcome.move_eq_some hMove
    exact ⟨switch_renewed hFlow hRenews, rfl⟩

theorem move_renewed {P : HttpParser} {c : Ctl} {ch : UInt8} {v : Move} (hFits : c.Fits P)
    (hMove : move P c ch = some v)
    (hRenews : P.state.renews v.parser.state = true) : v.parser.nread = 0 ∧ v.ctl = .outer := by
  cases c with
  | field n =>
    rw [show P.state = .sHeaderField from hFits] at hRenews
    cases hRenews
  | value n g jump =>
    rw [hFits.1] at hRenews
    cases hRenews
  | outer =>
    unfold move at hMove
    dsimp only at hMove
    split at hMove
    · obtain ⟨Q, hQ, hMove⟩ := Option.bind_eq_some_iff.mp hMove
      obtain rfl := (counted_eq_some.mp hQ).2
      exact switchMove_renewed hMove hRenews
    · exact switchMove_renewed hMove hRenews

namespace Reader

def lap (r : Reader) (ch : UInt8) : Option Reader :=
  (r.step ch).map fun q => if r.parser.state.renews q.parser.state then { q with fed := 0 } else q

/-- The byte neither ends the message nor lies behind its end, and its count is small. -/
structure Ongoing (r : Reader) (ch : UInt8) : Prop where
  clean : r.Clean ch
  complete : r.message.complete = false
  upgrade : r.parser.upgrade = false

/-- The reader takes all the bytes, in pieces that are short, and the message is not complete before the last. -/
structure Laps (r : Reader) (bytes : Bytes) (r' : Reader) : Prop where
  run : PartialRun.run lap r bytes = some r'
  ongoing : PartialRun.Along lap Ongoing r bytes

theorem Laps.refl (r : Reader) : r.Laps [] r := ⟨rfl, trivial⟩

theorem Laps.trans {r q t : Reader} {a b : Bytes} (h : r.Laps a q) (h' : q.Laps b t) : r.Laps (a ++ b) t :=
  ⟨(PartialRun.run_append_of_run h.run b).trans h'.run, h.ongoing.trans h.run h'.ongoing⟩

theorem Laps.single {r r' : Reader} {ch : UInt8} (hLap : r.lap ch = some r') (hOngoing : r.Ongoing ch) :
    r.Laps [ch] r' :=
  ⟨(PartialRun.run_singleton r ch).trans hLap, hOngoing, fun _ _ => trivial⟩

end Reader

theorem Scan.Reads.lap {s : Scan} {r r' : Reader} {ch : UInt8} (h : s.Reads r) (hClean : r.Clean ch)
    (hLap : r.lap ch = some r') : ∃ u, s.next ch = some u ∧ u.Reads r' := by
  obtain ⟨q, hStep, rfl⟩ := Option.map_eq_some_iff.mp hLap
  obtain ⟨u, hNext, hReads⟩ := h.next hClean hStep
  refine ⟨u, hNext, ?_⟩
  split
  · rename_i hRenews
    obtain ⟨v, hMove, rfl⟩ := Scan.next_eq_some.mp hNext
    rw [h.parser, hReads.parser, Ctl.plain_state, Ctl.plain_state, Scan.parser_of_take] at hRenews
    obtain ⟨hZero, hOuter⟩ := move_renewed h.between.fits hMove hRenews
    refine ⟨hReads.between, hReads.errno, hReads.parser, ?_, fun hLoop => absurd ?_ hLoop⟩
    · rw [Scan.parser_of_take, Scan.take_ctl, hZero, hOuter]
      exact Nat.zero_le _
    · rw [Scan.take_ctl, hOuter]
  · exact hReads

namespace MessageParser

variable {T : Type} {M : MessageParser T}

end MessageParser

end HttpUtils
