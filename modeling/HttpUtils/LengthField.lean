import HttpUtils.Injection
import HttpUtils.HttpParser.Repeats
import HttpUtils.HttpParser.OneRead

/-!
# The length field of an encoded message

Both encoders write a `Content-Length` of their own behind whatever headers they are given. A text with exactly one
length, and the right one, has no second one for a reader either, but where a line begins with that name and goes on.
-/

namespace HttpUtils
set_option autoImplicit false

open PartialRun (Along Leads)

/-! ### The line of the encoder -/

def lengthLine (n : ℕ) : Bytes := ascii "Content-Length" ++ nameValueSeparator ++ decimal n

theorem isLength_lengthLine (n : ℕ) : isLength (lengthLine n) = true ∧ lengthValue (lengthLine n) = decimal n := by
  have hName : ∀ c ∈ ascii "Content-Length", (c != (':' : UInt8)) = true := by decide +kernel
  have hLine : lengthLine n = ascii "Content-Length" ++ (':' : UInt8) :: SP :: decimal n := by
    rw [lengthLine, List.append_assoc]
    rfl
  obtain ⟨-, hNums, v, s, hDecimal, -⟩ := decimal_spec n
  have hBlank : ∀ c : UInt8, isNum c = true → c ≠ SP ∧ c ≠ HT := forall_byte (by decide +kernel)
  have hv := hBlank v (hNums v (by rw [hDecimal]; exact List.mem_cons_self))
  rw [isLength, lengthValue, hLine]
  constructor
  · rw [List.takeWhile_append_of_pos hName]
    simp
    decide +kernel
  · rw [List.dropWhile_append_of_pos hName, hDecimal]
    simp [dropBlanks, hv]

theorem sectionFrom_length (body : Bytes) :
    sectionFrom [] (headerLine (contentLengthHeader body.length) ++ (crlf ++ body)) =
      some ([lengthLine body.length], body) := by
  have hLf : LF ∉ lengthLine body.length ++ [CR] := by
    simp only [lengthLine, List.mem_append, not_or]
    exact ⟨⟨by decide +kernel, lf_notMem_decimal _⟩, by decide⟩
  have hLine : headerLine (contentLengthHeader body.length) = lengthLine body.length ++ [CR] ++ [LF] := by
    rw [headerLine, lengthLine, List.append_assoc _ [CR]]
    rfl
  have hLines : linesFrom [] (lengthLine body.length ++ [CR] ++ [LF]) = [lengthLine body.length] := by
    rw [linesFrom_line hLf, List.nil_append, chomp_cr]
  have hNone : sectionFrom [] (lengthLine body.length ++ [CR] ++ [LF]) = none := by
    rw [sectionFrom_eq_none, hLines]
    simp [lengthLine, ascii]
  rw [hLine, sectionFrom_append_of_none [] hNone, hLines]
  rfl

/-- The text of an encoded message has its one length exactly if the text in front of the length that the encoder
writes holds none and no empty line, or if an empty line ends a section there that has one by itself. -/
theorem uniqueLength_iff (a body : Bytes) :
    UniqueLength (a ++ [LF] ++ (headerLine (contentLengthHeader body.length) ++ (crlf ++ body))) ↔
      (∀ l ∈ linesFrom [] (behindLine (a ++ [LF])), l ≠ [] ∧ isLength l = false) ∨
        ∃ x ∈ headerSection (a ++ [LF]), (x.1.filter isLength).map lengthValue =
          [decimal (x.2 ++ (headerLine (contentLengthHeader body.length) ++ (crlf ++ body))).length] := by
  obtain ⟨hSome, hNone⟩ := headerSection_append a (headerLine (contentLengthHeader body.length) ++ (crlf ++ body))
  cases hFront : headerSection (a ++ [LF]) with
  | none =>
    have hEmpty := (sectionFrom_eq_none []).mp hFront
    obtain ⟨hIs, hValue⟩ := isLength_lengthLine body.length
    have hSection := hNone hFront
    rw [sectionFrom_length, Option.map_some] at hSection
    have hOthers : UniqueLength (a ++ [LF] ++ (headerLine (contentLengthHeader body.length) ++ (crlf ++ body))) ↔
        (linesFrom [] (behindLine (a ++ [LF]))).filter isLength = [] := by
      simp only [UniqueLength, hSection, Option.mem_some_iff, exists_eq_left', List.filter_append,
        List.filter_cons, hIs,
        List.map_append, if_true, List.filter_nil, List.map_cons, hValue, List.map_nil, List.append_left_eq_self,
        List.map_eq_nil_iff]
    rw [hOthers, List.filter_eq_nil_iff]
    constructor
    · intro hNot
      exact .inl fun l hl => ⟨hEmpty l hl, by simpa using hNot l hl⟩
    · rintro (hAll | ⟨x, hx, -⟩) l hl
      · simp [(hAll l hl).2]
      · cases hx
  | some x =>
    rw [UniqueLength, hSome x hFront]
    have hLines : ¬ ∀ l ∈ linesFrom [] (behindLine (a ++ [LF])), l ≠ [] ∧ isLength l = false := by
      intro hAll
      have hSection := (sectionFrom_eq_none []).mpr fun l hl => (hAll l hl).1
      rw [headerSection, hSection] at hFront
      cases hFront
    simp [hLines]

/-! ### Where a second length is an error -/

/-- The byte `c` behind `u` completes the name of a length, and an earlier line of the section begins with it. -/
def SecondName (u : Bytes) (c : UInt8) : Prop :=
  (∀ l ∈ linesFrom [] (behindLine u), l ≠ []) ∧ (∃ l ∈ linesFrom [] (behindLine u), beginsLength l = true) ∧
    (openLine [] (behindLine u) ++ [c]).map asciiLower = ascii "content-length"

instance (u : Bytes) (c : UInt8) : Decidable (SecondName u c) :=
  inferInstanceAs (Decidable (_ ∧ _ ∧ _))

theorem SecondName.behind {first rest u v : Bytes} {c : UInt8} (h : SecondName u c)
    (hSplit : first ++ [LF] ++ rest = u ++ c :: v) (hLf : LF ∉ first) : ∃ w, u = first ++ [LF] ++ w := by
  have hMem : LF ∈ u := by
    by_contra hNot
    obtain ⟨-, ⟨l, hl, -⟩, -⟩ := h
    rw [behindLine_of_notMem hNot] at hl
    cases hl
  rcases List.append_eq_append_iff.mp hSplit with ⟨w, rfl, -⟩ | ⟨w, hFirst, -⟩
  · exact ⟨w, rfl⟩
  · rcases List.eq_nil_or_concat' w with rfl | ⟨w, d, rfl⟩
    · rw [List.append_nil] at hFirst
      exact ⟨[], by rw [← hFirst, List.append_nil]⟩
    · rw [← List.append_assoc] at hFirst
      obtain ⟨rfl, -⟩ := List.append_inj' hFirst rfl
      exact absurd (List.mem_append_left w hMem) hLf

/-- One read of `u` ends inside of a name: the parser refuses none of these bytes. -/
def EndsInName (type : HttpParserType) (u : Bytes) : Prop :=
  ((Scan.start (httpParserInit type)).run u).stopped = none ∧
    ((Scan.start (httpParserInit type)).run u).parser.state = .sHeaderField

instance (type : HttpParserType) (u : Bytes) : Decidable (EndsInName type u) :=
  inferInstanceAs (Decidable (_ ∧ _))

/-- The parser does not get to a second name of a length. -/
def RefusedBefore (type : HttpParserType) (text : Bytes) : Prop :=
  ∀ u c v, text = u ++ c :: v → SecondName u c → ¬ EndsInName type u

instance (type : HttpParserType) (text : Bytes) : Decidable (RefusedBefore type text) :=
  decidable_of_iff (∀ n, ∀ h : n < text.length, SecondName (text.take n) text[n] →
    ¬ EndsInName type (text.take n)) <| by
    constructor
    · rintro hAll u c v rfl hSecond
      have hHere := hAll u.length (by simp)
      simp only [List.take_left', List.getElem_append_right, Nat.le_refl, Nat.sub_self,
        List.getElem_cons_zero] at hHere
      exact hHere hSecond
    · intro hAll n h
      refine hAll _ _ (text.drop (n + 1)) ?_
      rw [List.getElem_cons_drop, List.take_append_drop]

namespace Reader

variable {told : Bool} {given : Option ℕ} {line : Bytes} {r t : Reader}

theorem Heading.run (h : Heading told given line r) {u : Bytes} (hSome : ∀ l ∈ linesFrom line u, l ≠ [])
    (hRun : r.run u = some t) :
    Heading (told || (linesFrom line u).any beginsLength) ((linesFrom line u).foldl givenBy given)
    (openLine line u) t := by
  induction u generalizing told given line r with
  | nil =>
    obtain rfl := Option.some.inj hRun
    simpa [linesFrom, openLine] using h
  | cons c u ih =>
    obtain ⟨q, hStep, hRest⟩ := PartialRun.run_cons_eq_some.mp hRun
    rw [linesFrom] at hSome ⊢
    rw [openLine]
    by_cases hLf : c = LF
    · subst hLf
      rw [if_pos rfl] at hSome ⊢
      rw [if_pos rfl, List.any_cons, List.foldl_cons, ← Bool.or_assoc]
      exact ih ((h.step_lf (hSome _ List.mem_cons_self)).2 q hStep)
        (fun l hl => hSome l (List.mem_cons_of_mem _ hl)) hRest
    · rw [if_neg hLf] at hSome ⊢
      rw [if_neg hLf]
      exact ih ((h.step hLf).2 q hStep) hSome hRest

theorem Heading.inName (h : Heading true given line r) (hSome : line ≠ [])
    (hName : line.map asciiLower <+: ascii "content-length") : r.parser.state = .sHeaderField := by
  cases h with
  | start _ _ _ hFirst => cases hFirst.1
  | atLine => exact absurd rfl hSome
  | name _ hInName => exact hInName.state
  | value _ _ _ hDone => exact absurd hName hDone.cannot_begin
  | valueEnd _ _ _ _ hDone => exact absurd hName (hDone.append [CR]).cannot_begin
  | almostDone => exact absurd hName (by decide +kernel)

/-- A section with one length, and the body of that length: an error is at a second name. -/
theorem Heading.second (h : Heading false none [] r) {a body : Bytes} {lines : List Bytes}
    (hSection : sectionFrom [] a = some (lines, body)) (hGiven : lines.foldl givenBy none = some body.length)
    (hTold : ∃ l ∈ lines, beginsLength l = true) {u v : Bytes} {c : UInt8} (hSplit : a = u ++ c :: v)
    (hRun : r.run u = some t) (hRepeats : t.Repeats c) :
    (∀ l ∈ linesFrom [] u, l ≠ []) ∧ (∃ l ∈ linesFrom [] u, beginsLength l = true) ∧
      (openLine [] u ++ [c]).map asciiLower = ascii "content-length" := by
  rcases section_place hSection hSplit with hSome | ⟨w, z, rfl, hBody, hLines, hEmpty, hAll⟩
  · have hLf : c ≠ LF := by
      rintro rfl
      exact hRepeats.2.1 (by decide)
    obtain ⟨hTold', hName⟩ := ((h.run hSome hRun).step hLf).1.mp hRepeats
    exact ⟨hSome, by simpa using hTold', hName⟩
  · -- the body has no names
    obtain ⟨q, hHead, hRest⟩ := PartialRun.run_append_eq_some.mp hRun
    obtain ⟨p, hStep, hInside⟩ := PartialRun.run_cons_eq_some.mp hRest
    have hHere := h.run (by rwa [hLines]) hHead
    have hAny : lines.any beginsLength = true := by simpa using hTold
    rw [hLines, hGiven, hAny] at hHere
    have hSome : body ≠ [] := by simp [hBody]
    obtain ⟨hState, hLength⟩ := hHere.blank hEmpty (List.length_pos_of_ne_nil hSome) p hStep
    have hCalm := (leads_body (m := p.message) (d := False) hState hLength hSome rfl).along
    rw [hBody] at hCalm
    exact absurd hRepeats (hCalm.at hInside).repeats

/-! ### Behind the start line -/

/-- How a reader of either kind gets behind a start line. -/
structure Begins (type : HttpParserType) (first : Bytes) : Prop where
  quiet : Along Reader.step (fun r ch => ¬ r.Repeats ch) (freshReader type) (first ++ [LF])
  heading : ∀ t, (freshReader type).run (first ++ [LF]) = some t → Heading false none [] t

variable {type : HttpParserType} {first rest u v w : Bytes} {c : UInt8}

theorem behindLine_first (hLf : LF ∉ first) (w : Bytes) : behindLine (first ++ [LF] ++ w) = w := by
  rw [List.append_assoc, List.singleton_append, behindLine_cons first hLf]

/-- Where a text with one length gets an error for a second one, there is the second name. -/
theorem Begins.second (h : Begins type first) (hLf : LF ∉ first) (hUnique : UniqueLength (first ++ [LF] ++ rest))
    (hSplit : first ++ [LF] ++ rest = u ++ c :: v) (hRun : (freshReader type).run u = some t)
    (hRepeats : t.Repeats c) : SecondName u c := by
  obtain ⟨⟨lines, body⟩, hSection, hLengths⟩ := hUnique
  have hSection' : sectionFrom [] rest = some (lines, body) := by
    rwa [headerSection, behindLine_first hLf] at hSection
  obtain ⟨hGiven, hTold⟩ := foldl_givenBy hLengths
  rcases List.append_eq_append_iff.mp hSplit with ⟨w, rfl, hRest⟩ | ⟨w, hFirst, hRest⟩
  · obtain ⟨q, hFront, hBehind⟩ := PartialRun.run_append_eq_some.mp hRun
    rw [SecondName, behindLine_first hLf]
    exact (h.heading q hFront).second hSection' hGiven hTold hRest hBehind hRepeats
  · cases w with
    | nil =>
      rw [List.append_nil] at hFirst
      rw [← hFirst] at hRun
      have hBehind : (freshReader type).run (first ++ [LF] ++ []) = some t := by rwa [List.append_nil]
      obtain ⟨q, hFront, hNil⟩ := PartialRun.run_append_eq_some.mp hBehind
      have hPlace := (h.heading q hFront).second (u := []) hSection' hGiven hTold hRest.symm hNil hRepeats
      exact absurd hPlace.2.1 (by simp [linesFrom])
    | cons d w =>
      obtain ⟨rfl, -⟩ := List.cons.inj hRest
      have hQuiet := h.quiet
      rw [hFirst] at hQuiet
      exact absurd hRepeats (hQuiet.at hRun)

theorem Begins.run (h : Begins type first) (hSome : ∀ l ∈ linesFrom [] w, l ≠ [])
    (hTold : ∃ l ∈ linesFrom [] w, beginsLength l = true)
    (hRun : (freshReader type).run (first ++ [LF] ++ w) = some t) :
    ∃ given, Heading true given (openLine [] w) t := by
  obtain ⟨q, hFront, hBehind⟩ := PartialRun.run_append_eq_some.mp hRun
  have hHere := (h.heading q hFront).run hSome hBehind
  have hAny : (linesFrom [] w).any beginsLength = true := by simpa using hTold
  rw [hAny] at hHere
  exact ⟨_, hHere⟩

theorem Begins.repeats (h : Begins type first) (hLf : LF ∉ first) (hSecond : SecondName (first ++ [LF] ++ w) c)
    (hRun : (freshReader type).run (first ++ [LF] ++ w) = some t) : t.Repeats c := by
  rw [SecondName, behindLine_first hLf] at hSecond
  obtain ⟨hSome, hTold, hName⟩ := hSecond
  obtain ⟨given, hHere⟩ := h.run hSome hTold hRun
  have hNotLf : c ≠ LF := by
    rintro rfl
    have hLast := congrArg List.getLast? hName
    rw [List.map_append, List.map_singleton, List.getLast?_concat] at hLast
    exact absurd hLast (by decide +kernel)
  exact (hHere.step hNotLf).1.mpr ⟨rfl, hName⟩

/-- In front of the last byte but one of a second name, the reader is in that name. -/
theorem Begins.inName (h : Begins type first) (hLf : LF ∉ first) (hSecond : SecondName (first ++ [LF] ++ w) c)
    (hRun : (freshReader type).run (first ++ [LF] ++ w) = some t) :
    ∃ s d q, w = s ++ [d] ∧ token d ≠ 0 ∧ (freshReader type).run (first ++ [LF] ++ s) = some q ∧
      q.parser.state = .sHeaderField := by
  rw [SecondName, behindLine_first hLf] at hSecond
  obtain ⟨hSome, hTold, hName⟩ := hSecond
  have hLength : (openLine [] w).length = 13 := by
    have hBoth := congrArg List.length hName
    rw [List.length_map, List.length_append] at hBoth
    exact Nat.succ.inj hBoth
  rcases List.eq_nil_or_concat' w with rfl | ⟨s, d, rfl⟩
  · cases hLength
  have hNotLf : d ≠ LF := by
    rintro rfl
    rw [openLine_append, openLine, if_pos rfl] at hLength
    cases hLength
  have hOpen : openLine [] (s ++ [d]) = openLine [] s ++ [d] := by
    rw [openLine_append, openLine, if_neg hNotLf, openLine]
  have hSame : linesFrom [] (s ++ [d]) = linesFrom [] s := by
    rw [linesFrom_append, linesFrom, if_neg hNotLf, linesFrom, List.append_nil]
  rw [hOpen] at hName hLength
  rw [hSame] at hSome hTold
  rw [← List.append_assoc] at hRun
  obtain ⟨q, hq, -⟩ := PartialRun.run_append_eq_some.mp hRun
  obtain ⟨given, hHere⟩ := h.run hSome hTold hq
  have hSplit : (openLine [] s).map asciiLower ++ [asciiLower d, asciiLower c] = ascii "content-length" := by
    simpa using hName
  refine ⟨s, d, q, rfl, ?_, hq, hHere.inName ?_ ⟨_, hSplit⟩⟩
  · have hToken : ∀ c : UInt8, asciiLower c ∈ ascii "content-length" → token c ≠ 0 := forall_byte (by decide +kernel)
    exact hToken d (hSplit ▸ by simp)
  · rintro hNil
    rw [hNil] at hLength
    cases hLength

theorem begins_request {first : Bytes} (hLf : LF ∉ first) : Begins .httpRequest first := by
  have hStart : InLine .method [] (freshReader .httpRequest) := by
    constructor
    · rfl
    · exact ⟨rfl, rfl⟩
    · rfl
  have hLine : Leads Reader.step (fun r ch => ¬ r.Repeats ch) (freshReader .httpRequest) first fun t =>
      ∃ p w, InLine p w t := by
    refine Leads.scan (I := fun _ t => ∃ p w, InLine p w t) (fun u ch v t hSplit ht => ?_) ⟨_, _, hStart⟩
    obtain ⟨p, w, hInLine⟩ := ht
    have hNotLf : ch ≠ LF := fun hEq => hLf (by rw [hSplit, hEq]; simp)
    obtain ⟨hCalm, hNext⟩ := (hInLine.leads_byte (d := False) hNotLf).of_single
    refine ⟨hCalm.repeats, fun q hq => ?_⟩
    obtain ⟨p', -, hIn⟩ := hNext q hq
    exact ⟨p', _, hIn⟩
  have hFirst : Leads Reader.step (fun r ch => ¬ r.Repeats ch) (freshReader .httpRequest) (first ++ [LF])
      (Heading false none []) := by
    refine hLine.append fun t ht => ?_
    obtain ⟨p, w, hInLine⟩ := ht
    exact .single (fun hRepeats => hRepeats.2.1 (by decide)) fun q hq => hInLine.heading_lf hq
  exact ⟨hFirst.along, hFirst.post⟩

theorem begins_reply {s : StatusType} {first : Bytes} (hFirst : statusString s = first ++ [LF]) :
    Begins .httpResponse first := by
  obtain ⟨q, hPasses, hState, hStarted, -⟩ := passes_statusLine s
  rw [hFirst] at hPasses
  refine ⟨(hPasses.leads (d := False)).along.mono fun _ _ hCalm => hCalm.repeats, fun t ht => ?_⟩
  obtain rfl := Option.some.inj (hPasses.run.symm.trans ht)
  exact .atLine (by rw [hState]; rfl) ⟨hStarted.errno, by rw [hStarted.flags], by rw [hStarted.flags]⟩
    (by rw [hStarted.flags]) fun n hn => nomatch hn

end Reader

end HttpUtils
