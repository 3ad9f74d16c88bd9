import HttpUtils.ParseBuffer

/-!
# The headers of a divided message

`on_header_field_cb` makes an entry of every piece of a name, `on_header_value_cb` keeps the last piece
of a value. So the headers of a message are those it spells exactly when no buffer ends inside a name or a
value and no value is folded.
-/

namespace HttpUtils
set_option autoImplicit false

namespace MessageParser

variable {T : Type} (M : MessageParser T)

/-- One message in one buffer: it is good, and no part of it is. -/
structure OneMessage (t : T) (m : Bytes) : Prop where
  good : (M.parse t m).1 = .good
  whole : ∀ u v, m = u ++ v → u ≠ [] → v ≠ [] → (M.parse t u).1 ≠ .good

def stateAfter (t : T) (u : Bytes) : State := (M.parser (M.parse t u).2).state

/-- The callbacks of one buffer after another. -/
def calls : T → List Bytes → List Callback
  | _, [] => []
  | t, b :: bs => (httpParserExecute (M.parser t) b).2.1 ++ calls (M.parse t b).2 bs

/-- The header callbacks can lose nothing at the end of a buffer. -/
def Outside (s : State) : Prop := s ≠ .sHeaderField ∧ s ≠ .sHeaderValue

/-- No buffer but the last ends inside the name or the value of a header. -/
def Uncut (t : T) (bs : List Bytes) : Prop :=
  ∀ us vs, bs = us ++ vs → us ≠ [] → vs ≠ [] → Outside (M.parser (M.parseAll t us).2).state

/-- No line of the header begins with a blank after a value. -/
def Unfolded (t : T) (m : Bytes) : Prop :=
  ∀ u c v, m = u ++ c :: v → (c = SP ∨ c = HT) → M.stateAfter t u ≠ .sHeaderValueLws

structure Reassembles (t : T) (bs : List Bytes) : Prop where
  accepted : (M.parseAll t bs).1 = List.replicate (bs.length - 1) .indeterminate ++ [.good]
  same : M.headers (M.parseAll t bs).2 = M.headers (M.parse t bs.flatten).2
  /-- One entry for each line, with the pieces of its name and of its value joined. -/
  lines : M.headers (M.parseAll t bs).2 = (Message.spell {} (M.calls t bs)).headers

variable {M}

theorem Holds.collected_all {t : T} {calls : List Callback} (h : M.headers t = calls.foldl headerCb [])
    (bs : List Bytes) :
    M.headers (M.parseAll t bs).2 = (calls ++ M.calls t bs).foldl headerCb [] := by
  induction bs generalizing t calls with
  | nil => simpa [parseAll, MessageParser.calls] using h
  | cons b bs ih =>
    have hNext : M.headers (M.parse t b).2 = (calls ++ (httpParserExecute (M.parser t) b).2.1).foldl headerCb [] := by
      rw [M.headers_parse, h, List.foldl_append]
    rw [parseAll, MessageParser.calls, ← List.append_assoc]
    exact ih hNext

theorem parseAll_append (t : T) (us vs : List Bytes) :
    (M.parseAll t (us ++ vs)).2 = (M.parseAll (M.parseAll t us).2 vs).2 := by
  induction us generalizing t with
  | nil => rfl
  | cons u us ih => exact ih _

theorem calls_append (t : T) (us vs : List Bytes) :
    M.calls t (us ++ vs) = M.calls t us ++ M.calls (M.parseAll t us).2 vs := by
  induction us generalizing t with
  | nil => rfl
  | cons u us ih =>
    rw [List.cons_append, MessageParser.calls, MessageParser.calls, ih, List.append_assoc]
    rfl

/-! ### The results of a division -/

theorem accepted_last {r : ResultType} {b : Bytes} :
    [r] = List.replicate ([b].length - 1) ResultType.indeterminate ++ [.good] ↔ r = .good := by
  simp

theorem accepted_cons {r : ResultType} {rs : List ResultType} {b c : Bytes} {bs : List Bytes} :
    r :: rs = List.replicate ((b :: c :: bs).length - 1) ResultType.indeterminate ++ [.good] ↔
      r = .indeterminate ∧ rs = List.replicate ((c :: bs).length - 1) ResultType.indeterminate ++ [.good] := by
  simp [List.replicate_succ]

theorem not_accepted_of_error {t : T} {m : Message} {b : Bytes} {bs : List Bytes}
    (hErrno : (M.parser t).httpErrno ≠ .ok) (hb : b ≠ []) (hShows : M.Shows t m) :
    (M.parseAll t (b :: bs)).1 ≠ List.replicate ((b :: bs).length - 1) .indeterminate ++ [.good] := by
  rw [parseAll, parse_after_error hErrno hb hShows]
  cases bs with
  | nil => simp
  | cons c bs =>
    rw [Ne, accepted_cons]
    simp

theorem Holds.losesAny_of_lost {t : T} {calls : List Callback} {b : Bytes} {bs : List Bytes} (h : M.Holds t calls)
    (hNe : ∀ c ∈ b :: bs, c ≠ []) (hLost : (Scan.resume (M.parser t) calls).Lost)
    (hOpen : (Scan.resume (M.parser t) calls).message.complete = false)
    (hGood : (M.parseAll t (b :: bs)).1 = List.replicate ((b :: bs).length - 1) .indeterminate ++ [.good]) :
    Message.LosesAny {} (calls ++ M.calls t (b :: bs)) := by
  have hb := hNe b List.mem_cons_self
  rw [parseAll] at hGood
  rw [MessageParser.calls, ← List.append_assoc, Message.losesAny_append]
  left
  cases hRun : PartialRun.run Scan.next (Scan.resume (M.parser t) calls) b with
  | none =>
    rw [h.parse_none hb hRun] at hGood
    cases bs with
    | nil => simp at hGood
    | cons c bs => simp [List.replicate_succ] at hGood
  | some s =>
    have hGone := Scan.run_lost h.sound hRun hLost
    cases hCut : s.cut with
    | some u =>
      obtain ⟨-, -, hCalls, -⟩ := h.parse_cut hb hRun hCut
      rw [← hCalls]
      exact ((h.sound.run hRun).cut hCut).2.2.2.2.mpr hGone
    | none =>
      obtain ⟨hReads, hErrno, hCalls⟩ := h.parse_overflow hb hRun hCut
      cases bs with
      | cons c bs =>
        have hRest := (accepted_cons.mp hGood).2
        exact absurd hRest (not_accepted_of_error (by simp [hErrno]) (hNe c (by simp)) (M.shows_parse b h.shows'))
      | nil =>
        have hResult := accepted_last.mp hGood
        rw [hReads.result, verdict_good] at hResult
        obtain ⟨a, c, q, rfl, -, hq, hEnd⟩ := h.sound.atEnd hRun hOpen hResult.2
        have hGone' := Scan.run_lost h.sound hq hLost
        obtain ⟨more, hMore⟩ := Scan.run_calls (PartialRun.run_append_of_run hq c ▸ hRun)
        rw [hEnd.lost (h.sound.run hq)] at hGone'
        rw [← hCalls, ← hMore, Message.losesAny_append]
        exact .inl hGone'

/-! ### Every division of a message -/

def UncutFrom (s : Scan) (bs : List Bytes) : Prop :=
  ∀ us vs q, bs = us ++ vs → us ≠ [] → vs ≠ [] → PartialRun.run Scan.next s us.flatten = some q →
    Outside q.parser.state

theorem not_split_singleton {α : Type} {b : α} {us vs : List α} (hSplit : [b] = us ++ vs) (hUs : us ≠ [])
    (hVs : vs ≠ []) :
    False := by
  have hLength := congrArg List.length hSplit
  have hPos := List.length_pos_iff.mpr hUs
  have hPos' := List.length_pos_iff.mpr hVs
  simp only [List.length_singleton, List.length_append] at hLength
  omega

theorem uncutFrom_singleton (s : Scan) (b : Bytes) : UncutFrom s [b] :=
  fun _ _ _ hSplit hUs hVs _ => (not_split_singleton hSplit hUs hVs).elim

theorem uncut_singleton (t : T) (b : Bytes) : M.Uncut t [b] :=
  fun _ _ hSplit hUs hVs => (not_split_singleton hSplit hUs hVs).elim

theorem uncut_cons {t : T} {b c : Bytes} {bs : List Bytes} :
    M.Uncut t (b :: c :: bs) ↔ Outside (M.parser (M.parse t b).2).state ∧ M.Uncut (M.parse t b).2 (c :: bs) := by
  constructor
  · intro h
    refine ⟨h [b] (c :: bs) rfl (by simp) (by simp), ?_⟩
    intro us vs hSplit _ hVs
    exact h (b :: us) vs (by rw [hSplit]; rfl) (by simp) hVs
  · rintro ⟨hHere, hRest⟩ us vs hSplit hUs hVs
    obtain ⟨d, us, rfl⟩ := List.exists_cons_of_ne_nil hUs
    obtain ⟨rfl, hTail⟩ := List.cons_eq_cons.mp hSplit
    cases us with
    | nil => exact hHere
    | cons d us => exact hRest (d :: us) vs hTail (by simp) hVs

theorem uncutFrom_cons {s q : Scan} {b : Bytes} {bs : List Bytes} (hq : PartialRun.run Scan.next s b = some q)
    (hSome : bs ≠ []) : UncutFrom s (b :: bs) ↔ Outside q.parser.state ∧ UncutFrom q bs := by
  constructor
  · intro h
    refine ⟨h [b] bs q rfl (by simp) hSome (by simpa using hq), ?_⟩
    intro us vs p hSplit _ hVs hp
    refine h (b :: us) vs p (by rw [hSplit]; rfl) (by simp) hVs ?_
    rw [List.flatten_cons]
    exact (PartialRun.run_append_of_run hq us.flatten).trans hp
  · rintro ⟨hHere, hRest⟩ us vs p hSplit hUs hVs hp
    obtain ⟨c, us, rfl⟩ := List.exists_cons_of_ne_nil hUs
    obtain ⟨rfl, hTail⟩ := List.cons_eq_cons.mp hSplit
    rw [List.flatten_cons, PartialRun.run_append_of_run hq] at hp
    cases us with
    | nil =>
      obtain rfl := Option.some.inj hp
      exact hHere
    | cons d us => exact hRest (d :: us) vs p hTail (by simp) hVs hp

theorem Outside.ctl {s : Scan} (h : Outside s.parser.state) (hs : s.Sound) : s.ctl = .outer := by
  have hFits := hs.between.fits
  cases hCtl : s.ctl with
  | outer => rfl
  | field n =>
    rw [hCtl] at hFits
    exact absurd hFits h.1
  | value n g jump =>
    rw [hCtl] at hFits
    exact absurd hFits.1 h.2

theorem outside_newMessage (P : HttpParser) : Outside (newMessage P) := by
  have hOpen := openMark_newMessage P
  constructor <;>
    · intro hState
      rw [hState] at hOpen
      cases hOpen

structure InStep (M : MessageParser T) (t : T) (calls : List Callback) (s : Scan) : Prop where
  holds : M.Holds t calls
  sound : s.Sound
  agrees : s.Agrees (Scan.resume (M.parser t) calls)

theorem InStep.read {t : T} {calls : List Callback} {s q : Scan} {b : Bytes} (h : M.InStep t calls s) (hb : b ≠ [])
    (hq : PartialRun.run Scan.next s b = some q) :
    (M.parse t b).1 = verdict q.parser.upgrade q.message.complete ∧
      ∃ u, PartialRun.run Scan.next (Scan.resume (M.parser t) calls) b = some u ∧ u.Sound ∧ q.Agrees u := by
  obtain ⟨u, hu, hAgrees⟩ := h.agrees.run h.sound h.holds.sound hq
  have hResult := (h.holds.parse_run hb hu).result
  rw [hAgrees.parser, hAgrees.message] at hResult
  exact ⟨hResult, u, hu, h.holds.sound.run hu, hAgrees⟩

theorem InStep.outside {t : T} {calls : List Callback} {s q : Scan} {b : Bytes} (h : M.InStep t calls s) (hb : b ≠ [])
    (hq : PartialRun.run Scan.next s b = some q) (hOutside : Outside q.parser.state) :
    M.InStep (M.parse t b).2 (calls ++ (httpParserExecute (M.parser t) b).2.1) q ∧
      Message.spell {} (calls ++ (httpParserExecute (M.parser t) b).2.1) = q.message ∧
      (Message.LosesAny {} (calls ++ (httpParserExecute (M.parser t) b).2.1) ↔ q.Lost) := by
  obtain ⟨-, u, hu, hSound, hAgrees⟩ := h.read hb hq
  have hCtl := hOutside.ctl (h.sound.run hq)
  obtain ⟨w, hCut, hSame⟩ := Scan.cut_outer (hAgrees.ctl.trans hCtl)
  obtain ⟨-, hParser, hCalls, hHolds⟩ := h.holds.parse_cut hb hu hCut
  obtain ⟨-, hMessage, hSpelled, hLost, hLoses⟩ := hSound.cut hCut
  rw [hAgrees.parser, hAgrees.lost] at hLost
  rw [hCalls, hAgrees.lost] at hLoses
  rw [hCalls, hAgrees.message] at hSpelled
  rw [hCalls] at hHolds
  have hResume : Scan.resume (M.parser (M.parse t b).2) (calls ++ (httpParserExecute (M.parser t) b).2.1) = w := by
    rw [hParser, ← hCalls]
    exact (Scan.resume_cut hCut).symm
  refine ⟨⟨hHolds, h.sound.run hq, ?_⟩, hSpelled.symm, hLoses⟩
  rw [hResume]
  refine ⟨hSame.trans hAgrees.parser, ?_, hMessage.trans hAgrees.message, ?_⟩
  · rw [Scan.resume_cut hCut, hCtl]
    rfl
  · rw [hLost]
    simp [hOutside.1, hOutside.2]

/-- The message is complete behind its last byte, and not before. -/
structure EndsWith (s : Scan) (m : Bytes) (e : Scan) : Prop where
  run : PartialRun.run Scan.next s m = some e
  atEnd : e.AtEnd
  early : ∀ u v q, m = u ++ v → v ≠ [] → PartialRun.run Scan.next s u = some q → q.message.complete = false

theorem EndsWith.rest {s q e : Scan} {b m : Bytes} (h : EndsWith s (b ++ m) e)
    (hq : PartialRun.run Scan.next s b = some q) :
    EndsWith q m e where
  run := (PartialRun.run_append_of_run hq m).symm.trans h.run
  atEnd := h.atEnd
  early u v p hSplit hv hp :=
    h.early (b ++ u) v p (by rw [hSplit, List.append_assoc]) hv ((PartialRun.run_append_of_run hq u).trans hp)

theorem EndsWith.first {s q e : Scan} {b m : Bytes} (h : EndsWith s (b ++ m) e) (hs : s.Sound) (hm : m ≠ [])
    (hq : PartialRun.run Scan.next s b = some q) : verdict q.parser.upgrade q.message.complete = .indeterminate := by
  rw [verdict_indeterminate]
  exact ⟨Scan.run_upgrade (hs.run hq) (h.rest hq).run h.atEnd.upgrade, h.early b m q rfl hm hq⟩

theorem EndsWith.prefix {s e : Scan} {b m : Bytes} (h : EndsWith s (b ++ m) e) :
    ∃ q, PartialRun.run Scan.next s b = some q := PartialRun.run_prefix h.run

theorem flatten_ne_nil {c : Bytes} {bs : List Bytes} (hc : c ≠ []) : (c :: bs).flatten ≠ [] := by simp [hc]

theorem InStep.parseAll_uncut {t : T} {calls : List Callback} {s e : Scan} {bs : List Bytes} (h : M.InStep t calls s)
    (hNe : ∀ b ∈ bs, b ≠ []) (hSome : bs ≠ []) (hEnds : EndsWith s bs.flatten e) (hUncut : UncutFrom s bs) :
    (M.parseAll t bs).1 = List.replicate (bs.length - 1) .indeterminate ++ [.good] ∧
      Message.spell {} (calls ++ M.calls t bs) = e.message ∧
      (Message.LosesAny {} (calls ++ M.calls t bs) ↔ e.Lost) := by
  induction bs generalizing t calls s with
  | nil => exact absurd rfl hSome
  | cons b bs ih =>
    have hb := hNe b List.mem_cons_self
    rw [List.flatten_cons] at hEnds
    obtain ⟨q, hq⟩ := hEnds.prefix
    have hResult := (h.read hb hq).1
    rw [parseAll, MessageParser.calls, ← List.append_assoc]
    cases bs with
    | nil =>
      obtain rfl := Option.some.inj (hEnds.rest hq).run
      have hOutside : Outside q.parser.state := by
        rw [hEnds.atEnd.state]
        exact outside_newMessage _
      obtain ⟨-, hSpelled, hLoses⟩ := h.outside hb hq hOutside
      rw [hEnds.atEnd.upgrade, hEnds.atEnd.complete] at hResult
      rw [MessageParser.calls, List.append_nil]
      exact ⟨accepted_last.mpr hResult, hSpelled, hLoses⟩
    | cons c bs =>
      obtain ⟨hOutside, hRest⟩ := (uncutFrom_cons hq (by simp)).mp hUncut
      rw [hEnds.first h.sound (flatten_ne_nil (hNe c (by simp))) hq] at hResult
      obtain ⟨hGood, hAll⟩ := ih (h.outside hb hq hOutside).1 (fun d hd => hNe d (List.mem_cons_of_mem _ hd))
        (by simp) (hEnds.rest hq) hRest
      exact ⟨accepted_cons.mpr ⟨hResult, hGood⟩, hAll⟩

theorem InStep.losesAny_of_cut {t : T} {calls : List Callback} {s e : Scan} {bs : List Bytes} (h : M.InStep t calls s)
    (hNe : ∀ b ∈ bs, b ≠ []) (hEnds : EndsWith s bs.flatten e) (hCuts : ¬ UncutFrom s bs)
    (hGood : (M.parseAll t bs).1 = List.replicate (bs.length - 1) .indeterminate ++ [.good]) :
    Message.LosesAny {} (calls ++ M.calls t bs) := by
  induction bs generalizing t calls s with
  | nil => simp [parseAll] at hGood
  | cons b bs ih =>
    have hb := hNe b List.mem_cons_self
    rw [List.flatten_cons] at hEnds
    obtain ⟨q, hq⟩ := hEnds.prefix
    cases bs with
    | nil => exact absurd (uncutFrom_singleton s b) hCuts
    | cons c bs =>
      have hNe' : ∀ d ∈ c :: bs, d ≠ [] := fun d hd => hNe d (List.mem_cons_of_mem _ hd)
      have hc := hNe' c List.mem_cons_self
      rw [uncutFrom_cons hq (by simp)] at hCuts
      rw [parseAll, accepted_cons] at hGood
      rw [MessageParser.calls, ← List.append_assoc]
      by_cases hOutside : Outside q.parser.state
      · exact ih (h.outside hb hq hOutside).1 hNe' (hEnds.rest hq) (fun hRest => hCuts ⟨hOutside, hRest⟩) hGood.2
      · obtain ⟨-, u, hu, hSound, hAgrees⟩ := h.read hb hq
        cases hCut : u.cut with
        | none =>
          obtain ⟨-, hErrno, -⟩ := h.holds.parse_overflow hb hu hCut
          exact absurd hGood.2
            (not_accepted_of_error (by simp [hErrno]) hc (M.shows_parse b h.holds.shows'))
        | some w =>
          obtain ⟨-, hParser, hCalls, hHolds⟩ := h.holds.parse_cut hb hu hCut
          obtain ⟨-, hMessage, -, hLost, -⟩ := hSound.cut hCut
          have hResume : Scan.resume (M.parser (M.parse t b).2) w.calls = w := by
            rw [hParser]
            exact (Scan.resume_cut hCut).symm
          rw [← hCalls]
          refine hHolds.losesAny_of_lost hNe' ?_ ?_ hGood.2
          · rw [hResume, hLost, hAgrees.parser]
            right
            rw [Outside] at hOutside
            tauto
          · rw [hResume, hMessage, hAgrees.message]
            exact hEnds.early b _ q rfl (flatten_ne_nil hc) hq

theorem stateAfter_eq {t : T} {u : Bytes} {q : Scan} (h : M.Holds t [])
    (hq : PartialRun.run Scan.next (Scan.resume (M.parser t) []) u = some q) : M.stateAfter t u = q.parser.state := by
  by_cases hu : u = []
  · subst hu
    obtain rfl := Option.some.inj hq
    rw [stateAfter, M.parser_parse]
    simp only [httpParserExecute, h.errno, executeEof, ne_eq, not_true_eq_false, if_false, if_true]
    split <;> rfl
  · exact (h.parse_run hu hq).state

theorem not_complete_of_holds {t : T} (h : M.Holds t []) :
    (Scan.resume (M.parser t) []).message.complete = false := by
  rw [h.spelled]
  rfl

theorem OneMessage.endsWith {t : T} {m : Bytes} (hOne : M.OneMessage t m) (h : M.Holds t []) (hm : m ≠ []) :
    ∃ e, EndsWith (Scan.resume (M.parser t) []) m e := by
  have hOpen := not_complete_of_holds h
  have hWhole (u v : Bytes) (q : Scan) (hSplit : m = u ++ v)
      (hq : PartialRun.run Scan.next (Scan.resume (M.parser t) []) u = some q) (hDone : q.message.complete = true) :
      v = [] ∧ q.AtEnd := by
    obtain ⟨a, c, p, rfl, ha, hp, hEnd⟩ := h.sound.atEnd hq hOpen hDone
    have hGood : (M.parse t a).1 = .good := by
      rw [(h.parse_run ha hp).result, hEnd.upgrade, hEnd.complete]
      rfl
    rw [List.append_assoc] at hSplit
    have hNil : c ++ v = [] := by
      by_contra hSome
      exact hOne.whole a (c ++ v) hSplit ha hSome hGood
    obtain ⟨rfl, rfl⟩ := List.append_eq_nil_iff.mp hNil
    rw [List.append_nil] at hq
    obtain rfl := Option.some.inj (hq.symm.trans hp)
    exact ⟨rfl, hEnd⟩
  cases hRun : PartialRun.run Scan.next (Scan.resume (M.parser t) []) m with
  | none =>
    have hBad := h.parse_none hm hRun
    rw [hOne.good] at hBad
    cases hBad
  | some e =>
    have hGood := hOne.good
    rw [(h.parse_run hm hRun).result, verdict_good] at hGood
    refine ⟨e, hRun, (hWhole m [] e (List.append_nil m).symm hRun hGood.2).2, ?_⟩
    intro u v q hSplit hv hq
    by_contra hDone
    exact hv (hWhole u v q hSplit hq (by simpa using hDone)).1

theorem InStep.uncut_iff {t : T} {calls : List Callback} {s e : Scan} {bs : List Bytes} (h : M.InStep t calls s)
    (hNe : ∀ b ∈ bs, b ≠ []) (hSome : bs ≠ []) (hEnds : EndsWith s bs.flatten e) : M.Uncut t bs ↔ UncutFrom s bs := by
  induction bs generalizing t calls s with
  | nil => exact absurd rfl hSome
  | cons b bs ih =>
    have hb := hNe b List.mem_cons_self
    rw [List.flatten_cons] at hEnds
    obtain ⟨q, hq⟩ := hEnds.prefix
    cases bs with
    | nil => exact ⟨fun _ => uncutFrom_singleton s b, fun _ => uncut_singleton t b⟩
    | cons c bs =>
      obtain ⟨-, u, hu, -, hAgrees⟩ := h.read hb hq
      have hState : (M.parser (M.parse t b).2).state = q.parser.state := by
        rw [(h.holds.parse_run hb hu).state, hAgrees.parser]
      rw [uncut_cons, uncutFrom_cons hq (by simp), hState]
      refine and_congr_right fun hOutside => ?_
      exact ih (h.outside hb hq hOutside).1 (fun d hd => hNe d (List.mem_cons_of_mem b hd)) (by simp) (hEnds.rest hq)

theorem unfolded_iff {t : T} {m : Bytes} {e : Scan} (h : M.Holds t [])
    (hFresh : ¬ (Scan.resume (M.parser t) []).Lost) (hEnds : EndsWith (Scan.resume (M.parser t) []) m e) :
    M.Unfolded t m ↔ ¬ e.Lost := by
  rw [Scan.run_lost_iff h.sound hEnds.run, or_iff_right hFresh]
  constructor
  · rintro hUnfolded ⟨u, c, v, q, hSplit, hq, hState, hBlank⟩
    refine hUnfolded u c v hSplit hBlank ?_
    rw [stateAfter_eq h hq]
    exact hState
  · intro hKept u c v hSplit hBlank hState
    rw [hSplit] at hEnds
    obtain ⟨q, hq⟩ := hEnds.prefix
    rw [stateAfter_eq h hq] at hState
    exact hKept ⟨u, c, v, q, hSplit, hq, hState, hBlank⟩

theorem headers_parseAll {t : T} (h : M.Holds t []) (bs : List Bytes) :
    M.headers (M.parseAll t bs).2 = (M.calls t bs).foldl headerCb [] := Holds.collected_all h.collected bs

/-- The headers of a division are the lines of the message, as they are without one, exactly where no
buffer ends inside a name or a value and no value is folded. -/
theorem Holds.reassembles_iff {t : T} {bs : List Bytes} (h : M.Holds t [])
    (hFresh : ¬ (Scan.resume (M.parser t) []).Lost) (hNe : ∀ b ∈ bs, b ≠ []) (hSome : bs ≠ [])
    (hOne : M.OneMessage t bs.flatten) : M.Reassembles t bs ↔ M.Uncut t bs ∧ M.Unfolded t bs.flatten := by
  obtain ⟨c, cs, rfl⟩ := List.exists_cons_of_ne_nil hSome
  have hFlat : (c :: cs).flatten ≠ [] := flatten_ne_nil (hNe c List.mem_cons_self)
  obtain ⟨e, hEnds⟩ := hOne.endsWith h hFlat
  have hInStep : M.InStep t [] (Scan.resume (M.parser t) []) := ⟨h, h.sound, rfl, rfl, rfl, Iff.rfl⟩
  rw [hInStep.uncut_iff hNe hSome hEnds, unfolded_iff h hFresh hEnds]
  constructor
  · rintro ⟨hGood, -, hLines⟩
    rw [headers_parseAll h, headers_eq_iff] at hLines
    have hUncut : UncutFrom (Scan.resume (M.parser t) []) (c :: cs) := by
      by_contra hCuts
      exact hLines (hInStep.losesAny_of_cut hNe hEnds hCuts hGood)
    obtain ⟨-, -, hLoses⟩ := hInStep.parseAll_uncut hNe hSome hEnds hUncut
    exact ⟨hUncut, fun hLost => hLines (hLoses.mpr hLost)⟩
  · rintro ⟨hUncut, hKept⟩
    obtain ⟨hGood, hSpelled, hLoses⟩ := hInStep.parseAll_uncut hNe hSome hEnds hUncut
    have hNe' : ∀ b ∈ [(c :: cs).flatten], b ≠ [] := by simpa using hFlat
    obtain ⟨-, hSpelled', hLoses'⟩ :=
      hInStep.parseAll_uncut hNe' (by simp) (by simpa using hEnds) (uncutFrom_singleton _ _)
    rw [List.nil_append] at hSpelled hSpelled' hLoses hLoses'
    have hLines := (headers_eq_iff (M.calls t (c :: cs))).mpr fun hLost => hKept (hLoses.mp hLost)
    have hLines' := (headers_eq_iff (M.calls t [(c :: cs).flatten])).mpr fun hLost => hKept (hLoses'.mp hLost)
    rw [← headers_parseAll h] at hLines hLines'
    refine ⟨hGood, ?_, hLines⟩
    rw [hLines, hSpelled, ← hSpelled', ← hLines']
    rfl

theorem fresh_not_lost {t : HttpParserType} : ¬ (Scan.resume (httpParserInit t) []).Lost := by
  rw [Scan.lost_iff (s := Scan.resume (httpParserInit t) []) (start_marks _ _)]
  cases t <;> simp [httpParserInit, startState, openMark, Message.LosesAny, Scan.resume]

end MessageParser

/-! ### The two classes -/

open MessageParser

/-- In both classes, whatever the fields that nobody initialises held before. -/
theorem headers_reassembled_iff (major minor : Int) (statusCode : ℕ) :
    (∀ bs : List Bytes, (∀ b ∈ bs, b ≠ []) → requestMessages.OneMessage (httpRequestParser major minor) bs.flatten →
      (requestMessages.Reassembles (httpRequestParser major minor) bs ↔
        requestMessages.Uncut (httpRequestParser major minor) bs ∧
          requestMessages.Unfolded (httpRequestParser major minor) bs.flatten)) ∧
    (∀ bs : List Bytes, (∀ b ∈ bs, b ≠ []) → replyMessages.OneMessage (httpReplyParser statusCode) bs.flatten →
      (replyMessages.Reassembles (httpReplyParser statusCode) bs ↔
        replyMessages.Uncut (httpReplyParser statusCode) bs ∧
          replyMessages.Unfolded (httpReplyParser statusCode) bs.flatten)) := by
  constructor
  · intro bs hNe hOne
    refine (holds_httpRequestParser major minor).reassembles_iff fresh_not_lost hNe ?_ hOne
    rintro rfl
    cases hOne.good
  · intro bs hNe hOne
    refine (holds_httpReplyParser statusCode).reassembles_iff fresh_not_lost hNe ?_ hOne
    rintro rfl
    cases hOne.good

theorem oneMessage_of_prefixes {T : Type} {M : MessageParser T} {t : T} {m : Bytes} (hGood : (M.parse t m).1 = .good)
    (hWhole : ∀ n < m.length, (M.parse t (m.take n)).1 ≠ .good) : M.OneMessage t m := by
  refine ⟨hGood, ?_⟩
  rintro u v rfl - hv
  have hPos := List.length_pos_iff.mpr hv
  have hPrefix := hWhole u.length (by rw [List.length_append]; omega)
  rwa [List.take_left] at hPrefix

theorem unfolded_of_prefixes {T : Type} {M : MessageParser T} {t : T} {m : Bytes}
    (h : ∀ n < m.length, (m.getD n 0 = SP ∨ m.getD n 0 = HT) → M.stateAfter t (m.take n) ≠ .sHeaderValueLws) :
    M.Unfolded t m := by
  rintro u c v rfl hBlank
  have hPrefix := h u.length (by simp)
  rw [List.take_left] at hPrefix
  exact hPrefix (by simpa using hBlank)

theorem uncut_pair {T : Type} {M : MessageParser T} {t : T} {a b : Bytes} (h : Outside (M.stateAfter t a)) :
    M.Uncut t [a, b] := uncut_cons.mpr ⟨h, uncut_singleton _ b⟩

theorem getRequest_reassembled :
    requestMessages.Reassembles (httpRequestParser 1 1)
        [ascii "GET / HTTP/1.1\r\nHost: ", ascii "example\r\n\r\n"] ∧
      replyMessages.Reassembles (httpReplyParser 0)
        [ascii "HTTP/1.1 204 No", ascii " Content\r\nAge:1\r\n\r\n"] := by
  refine ⟨((headers_reassembled_iff 1 1 0).1 _ ?_ ?_).mpr ⟨uncut_pair ?_, unfolded_of_prefixes ?_⟩,
    ((headers_reassembled_iff 1 1 0).2 _ ?_ ?_).mpr ⟨uncut_pair ?_, unfolded_of_prefixes ?_⟩⟩
  · decide +kernel
  · exact oneMessage_of_prefixes (by decide +kernel) (by decide +kernel)
  · exact ⟨by decide +kernel, by decide +kernel⟩
  · decide +kernel
  · decide +kernel
  · exact oneMessage_of_prefixes (by decide +kernel) (by decide +kernel)
  · exact ⟨by decide +kernel, by decide +kernel⟩
  · decide +kernel

/-- A read that ends inside the name `Host` makes two headers of it. -/
theorem splitHost_headers :
    requestMessages.OneMessage (httpRequestParser 1 1) (ascii "GET / HTTP/1.1\r\nHost: a\r\n\r\n") ∧
      (requestMessages.parse (httpRequestParser 1 1) (ascii "GET / HTTP/1.1\r\nHost: a\r\n\r\n")).2.mReq.headers =
        [⟨ascii "Host", ascii "a"⟩] ∧
      (requestMessages.parseAll (httpRequestParser 1 1)
          [ascii "GET / HTTP/1.1\r\nHo", ascii "st: a\r\n\r\n"]).2.mReq.headers =
        [⟨ascii "Ho", []⟩, ⟨ascii "st", ascii "a"⟩] :=
  ⟨oneMessage_of_prefixes (by decide +kernel) (by decide +kernel), by decide +kernel, by decide +kernel⟩

end HttpUtils
