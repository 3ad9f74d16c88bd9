import HttpUtils.HttpParser.Marks

/-!
# What the header callbacks lose

The callbacks of the two classes lose a piece of a header when a mark is set whose string has already been
reported in part. Within a buffer only a move can set one; at a cut it is the mark that the next buffer
starts with.
-/

namespace HttpUtils
set_option autoImplicit false

def Message.LosesAt (m : Message) : DataCb → Prop
  | .headerField => m.inName = true
  | .headerValue => ∃ h, m.last = some h ∧ h.value ≠ []
  | .url | .status | .body => False

theorem Message.loses_call (m : Message) (k : DataCb) (P : HttpParser) (run : Bytes) :
    m.Loses (k.call P run) ↔ m.LosesAt k := by
  cases k <;> exact Iff.rfl

def Act.Loses (m : Message) : Act → Prop
  | .mark k => m.LosesAt k
  | _ => False

def ActsLose (P : HttpParser) (ch : UInt8) : Live → List Act → Prop
  | _, [] => False
  | l, a :: acts => a.Loses l.message ∨ ActsLose P ch (l.act P ch a) acts

def Move.Loses (P : HttpParser) (ch : UInt8) (v : Move) (m : Message) : Prop :=
  ActsLose v.parser ch ⟨openMark P.state, m⟩ v.acts

/-- The calls so far, with the open run as the last of them, lose something. -/
def Scan.Lost (s : Scan) : Prop := Message.LosesAny {} s.flush.calls

namespace Scan

theorem lost_iff {s : Scan} {o : Option (DataCb × Bytes)} (h : s.marks = holding o) :
    s.Lost ↔ Message.LosesAny {} s.calls ∨
      ∃ k, o.map Prod.fst = some k ∧ (Message.spell {} s.calls).LosesAt k := by
  rw [Lost, flush_of_holding h]
  cases o with
  | none => simp [openCall]
  | some x => simp [openCall, Message.losesAny_concat, Message.loses_call]

theorem act_lost {s : Scan} {o : Option (DataCb × Bytes)} {l : Live} {ch : UInt8} {a : Act}
    (h : s.Spells o l.message) (hWell : WellMarked (o.map Prod.fst) [a]) :
    (s.act ch a).Lost ↔ s.Lost ∨ a.Loses l.message := by
  obtain ⟨hMarks, hMessage⟩ := h
  have hLost := lost_iff hMarks
  cases a with
  | mark k =>
    rcases hWell.1 with hNone | ⟨hSome, rfl⟩
    · obtain rfl : o = none := Option.map_eq_none_iff.mp hNone
      have hMarks' : (s.act ch (.mark k)).marks = holding (some (k, [])) := by
        simp only [act, hMarks]
        exact update_holding_none k _
      rw [lost_iff hMarks', hLost, hMessage]
      simp [act, Act.Loses, Message.seeOpen]
    · obtain ⟨⟨j, run⟩, rfl, rfl⟩ := Option.map_eq_some_iff.mp hSome
      have hMarks' : (s.act ch (.mark .body)).marks = holding (some (.body, run)) := by
        simp only [act, hMarks, holding_self]
        exact update_holding_self _ _ _
      rw [lost_iff hMarks', hLost]
      simp [act, Act.Loses, Message.LosesAt]
  | data k =>
    simp only [Act.Loses, or_false]
    by_cases hk : o.map Prod.fst = some k
    · obtain ⟨⟨j, run⟩, rfl, rfl⟩ := Option.map_eq_some_iff.mp hk
      have hClosed := callbackData_holding_self s j run [] hMarks
      rw [lost_iff (s := s.act ch (.data j)) (o := none) (by rw [act, hClosed]), hLost, act, hClosed]
      simp [Message.losesAny_concat, Message.loses_call]
    · rw [act, callbackData_holding_other s k o [] hMarks hk]
  | dataThrough k =>
    obtain ⟨⟨j, run⟩, rfl, rfl⟩ := Option.map_eq_some_iff.mp hWell.1
    have hClosed := callbackData_holding_self s j run [ch] hMarks
    rw [lost_iff (s := s.act ch (.dataThrough j)) (o := none) (by rw [act, hClosed]), hLost, act, hClosed]
    simp [Message.losesAny_concat, Message.loses_call, Act.Loses]
  | notify k =>
    obtain rfl : o = none := Option.map_eq_none_iff.mp hWell.1
    rw [lost_iff (s := s.act ch (.notify k)) (o := none) hMarks, hLost]
    cases k <;> simp [act, Act.Loses, Message.losesAny_concat, NotifyCb.call, Message.Loses]
  | advance n => simp [act, Act.Loses]

theorem acts_lost {s : Scan} {o : Option (DataCb × Bytes)} {l : Live} {P : HttpParser} {c : UInt8}
    {acts : List Act} (h : s.Spells o l.message) (hParser : SameCalls P s.parser)
    (hAgree : MarkAgrees (o.map Prod.fst) l.mark) (hWell : WellMarked (o.map Prod.fst) acts)
    (hLive : WellMarked l.mark acts) :
    (acts.foldl (act c) s).Lost ↔ s.Lost ∨ ActsLose P c l acts := by
  induction acts generalizing s o l with
  | nil => simp [ActsLose]
  | cons a acts ih =>
    obtain ⟨hHead, hTail⟩ := hWell.cons
    obtain ⟨hHead', hTail'⟩ := hLive.cons
    obtain ⟨o₁, hSpells, hMark, hLiveMark, hAgree₁⟩ := act_spells (c := c) h hParser hAgree hHead hHead'
    have hParser₁ : SameCalls P (s.act c a).parser := by rwa [(act_frame c s a).1]
    have hRest := ih hSpells hParser₁ hAgree₁ (by rwa [hMark]) (by rwa [hLiveMark])
    rw [List.foldl_cons, hRest, act_lost h hHead, ActsLose, or_assoc]

theorem lost_withParser {s : Scan} {o : Option (DataCb × Bytes)} (h : s.marks = holding o) (P : HttpParser)
    (c : Ctl) :
    Lost { s with parser := P, ctl := c } ↔ s.Lost := by
  rw [lost_iff h, lost_iff (s := { s with parser := P, ctl := c }) h]

theorem Between.take_lost {s : Scan} {m : Message} (h : s.Between m) {ch : UInt8} {v : Move}
    (hMove : move s.parser s.ctl ch = some v) : (s.take ch v).Lost ↔ s.Lost ∨ v.Loses s.parser ch m := by
  obtain ⟨-, hFits, o, hSpells, hMark⟩ := h
  obtain ⟨hMarked, -⟩ := move_marked hFits hMark hMove
  let t : Scan := { s with parser := v.parser, ctl := v.ctl }
  have hSpells' : t.Spells o m := hSpells.withParser v.ctl fun hStatus => move_status hFits
      (hMark.status hStatus) hMove
  have hAgree : MarkAgrees (o.map Prod.fst) (openMark s.parser.state) := by
    rcases hMark with hMark | ⟨hMark, hBody⟩
    · exact .inl hMark
    · exact .inr ⟨hMark, openMark_of_holdsBody hBody⟩
  have hSame : SameCalls v.parser t.parser := ⟨rfl, rfl, rfl⟩
  have hActs := acts_lost (l := ⟨openMark s.parser.state, m⟩) (c := ch) hSpells' hSame hAgree hMarked.well
      hMarked.start
  obtain ⟨o', hSpells'', -, -⟩ :=
    acts_spell (l := ⟨openMark s.parser.state, m⟩) (c := ch) hSpells' hSame hAgree hMarked.well hMarked.start
  have hConsume : (s.take ch v).Lost ↔ (v.acts.foldl (act ch) t).Lost := by
    have hMarks : (s.take ch v).marks = holding (o'.map fun x => (x.1, x.2 ++ [ch])) := by
      show (fun k => ((v.acts.foldl (act ch) t).marks k).map (· ++ [ch])) = _
      rw [hSpells''.marks]
      exact map_holding o' ch
    rw [lost_iff hMarks, lost_iff hSpells''.marks, Option.map_map]
    exact Iff.rfl
  rw [hConsume, hActs, lost_withParser hSpells.marks]
  exact Iff.rfl

theorem Between.cut_lost {s t : Scan} {m : Message} (h : s.Between m) (hCut : s.cut = some t) :
    (t.Lost ↔ s.Lost ∨ ∃ k, openMark s.parser.state = some k ∧ m.LosesAt k) ∧
      (Message.LosesAny {} t.calls ↔ s.Lost) := by
  obtain ⟨-, hSpelled⟩ := h.cut hCut
  obtain ⟨Q, hQ, rfl⟩ := Option.map_eq_some_iff.mp hCut
  obtain ⟨hState, -, -, -⟩ := cutMove_eq_some hQ
  obtain ⟨-, hFits, o, hSpells, hMark⟩ := h
  have hFlush : Message.LosesAny {} (flush { s with parser := Q }).calls ↔ s.Lost :=
    lost_withParser hSpells.marks Q s.ctl
  refine ⟨?_, hFlush⟩
  rw [lost_iff (start_marks Q _), Option.map_map]
  have hMap : (Prod.fst ∘ fun k : DataCb => (k, ([] : Bytes))) = id := rfl
  rw [hMap, Option.map_id, id, hState, ← hSpelled]
  exact or_congr hFlush Iff.rfl

end Scan

end HttpUtils
