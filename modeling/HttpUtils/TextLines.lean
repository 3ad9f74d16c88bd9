import HttpUtils.HttpParser.Lines

/-!
# The lines of a text

The header section of a text is cut into its lines without the parser: a line feed ends a line, and the first empty
line behind the start line ends the section.
-/

namespace HttpUtils
set_option autoImplicit false

/-- A line without the carriage return that its line end may begin with. -/
def chomp (line : Bytes) : Bytes := if line.getLast? = some CR then line.dropLast else line

theorem chomp_cr (line : Bytes) : chomp (line ++ [CR]) = line := by simp [chomp]

/-- The lines that end in the text, of the first of which `line` is read. -/
def linesFrom (line : Bytes) : Bytes → List Bytes
  | [] => []
  | c :: s => if c = LF then chomp line :: linesFrom [] s else linesFrom (line ++ [c]) s

/-- The lines up to the first empty one, and what stands behind that one. -/
def sectionFrom (line : Bytes) : Bytes → Option (List Bytes × Bytes)
  | [] => none
  | c :: s =>
    if c ≠ LF then sectionFrom (line ++ [c]) s
    else if chomp line = [] then some ([], s)
    else (sectionFrom [] s).map fun x => (chomp line :: x.1, x.2)

/-- The text behind its first line. -/
def behindLine (text : Bytes) : Bytes := (text.dropWhile fun c => c != LF).tail

def headerSection (text : Bytes) : Option (List Bytes × Bytes) := sectionFrom [] (behindLine text)

def isLength (line : Bytes) : Bool :=
  line.contains ':' && (line.takeWhile fun c : UInt8 => c != ':').map asciiLower == ascii "content-length"

def lengthValue (line : Bytes) : Bytes := dropBlanks (line.dropWhile fun c : UInt8 => c != ':').tail

/-- Exactly one field of the header section is a `Content-Length`, and it counts the bytes behind the blank line. -/
def UniqueLength (text : Bytes) : Prop :=
  ∃ x ∈ headerSection text, (x.1.filter isLength).map lengthValue = [decimal x.2.length]

/-! ### Sections of a text that goes on -/

theorem sectionFrom_append {a : Bytes} {x : List Bytes × Bytes} (line : Bytes) (h : sectionFrom line a = some x)
    (b : Bytes) :
    sectionFrom line (a ++ b) = some (x.1, x.2 ++ b) := by
  induction a generalizing line x with
  | nil => cases h
  | cons c a ih =>
    rw [List.cons_append, sectionFrom]
    rw [sectionFrom] at h
    split at h
    · rename_i hLf
      rw [if_pos hLf]
      exact ih _ h
    rename_i hLf
    rw [if_neg hLf]
    split at h
    · rename_i hEmpty
      rw [if_pos hEmpty]
      obtain rfl := Option.some.inj h
      rfl
    · rename_i hLine
      obtain ⟨y, hy, rfl⟩ := Option.map_eq_some_iff.mp h
      rw [if_neg hLine, ih _ hy]
      rfl

theorem sectionFrom_eq_none {a : Bytes} (line : Bytes) : sectionFrom line a = none ↔
    ∀ l ∈ linesFrom line a, l ≠ [] := by
  induction a generalizing line with
  | nil => simp [sectionFrom, linesFrom]
  | cons c a ih =>
    rw [sectionFrom, linesFrom]
    by_cases hLf : c = LF
    · rw [if_neg (not_not.mpr hLf), if_pos hLf]
      by_cases hEmpty : chomp line = []
      · simp [hEmpty]
      · rw [if_neg hEmpty, Option.map_eq_none_iff, ih]
        simp [hEmpty]
    · rw [if_pos hLf, if_neg hLf, ih]

theorem sectionFrom_append_of_none {a : Bytes} (line : Bytes) (h : sectionFrom line (a ++ [LF]) = none) (b : Bytes) :
    sectionFrom line (a ++ [LF] ++ b) = (sectionFrom [] b).map fun x => (linesFrom line (a ++ [LF]) ++ x.1, x.2) := by
  induction a generalizing line with
  | nil =>
    have hLine : chomp line ≠ [] := by
      have hAll := (sectionFrom_eq_none line).mp h
      exact hAll (chomp line) (by simp [linesFrom])
    simp only [List.nil_append, List.singleton_append, sectionFrom, linesFrom, if_neg hLine]
    simp
  | cons c a ih =>
    rw [List.cons_append, List.cons_append, sectionFrom]
    rw [List.cons_append, sectionFrom] at h
    rw [linesFrom]
    by_cases hLf : c = LF
    · rw [if_neg (not_not.mpr hLf)] at h ⊢
      rw [if_pos hLf]
      by_cases hEmpty : chomp line = []
      · rw [if_pos hEmpty] at h
        cases h
      · rw [if_neg hEmpty] at h ⊢
        rw [ih [] (Option.map_eq_none_iff.mp h), Option.map_map]
        rfl
    · rw [if_pos hLf] at h ⊢
      rw [if_neg hLf]
      exact ih _ h

theorem linesFrom_line {line : Bytes} (h : LF ∉ line) (start : Bytes) :
    linesFrom start (line ++ [LF]) = [chomp (start ++ line)] := by
  induction line generalizing start with
  | nil => simp [linesFrom]
  | cons c line ih =>
    have hc : c ≠ LF := fun hEq => h (hEq ▸ List.mem_cons_self)
    rw [List.cons_append, linesFrom, if_neg hc, ih (fun hMem => h (List.mem_cons_of_mem c hMem)), List.append_assoc]
    rfl

theorem behindLine_cons (line : Bytes) {rest : Bytes} (h : LF ∉ line) : behindLine (line ++ LF :: rest) = rest := by
  have hLine : ∀ c ∈ line, (c != LF) = true := by
    intro c hc
    simpa using fun hEq : c = LF => h (hEq ▸ hc)
  rw [behindLine, List.dropWhile_append_of_pos hLine]
  simp

theorem firstLine_split (a : Bytes) :
    ∃ u v, a ++ [LF] = u ++ LF :: v ∧ LF ∉ u ∧ behindLine (a ++ [LF]) = v ∧ (v = [] ∨ ∃ w, v = w ++ [LF]) := by
  have hMem : LF ∈ a ++ [LF] := by simp
  obtain ⟨u, v, hSplit, hu⟩ := List.eq_append_cons_of_mem hMem
  refine ⟨u, v, hSplit, hu, by rw [hSplit, behindLine_cons u hu], ?_⟩
  rcases List.eq_nil_or_concat' v with rfl | ⟨w, c, rfl⟩
  · exact .inl rfl
  · -- the text ends in a line feed, and so does what stands behind its first line
    right
    have hLast := congrArg List.getLast? hSplit
    rw [← List.cons_append, ← List.append_assoc, List.getLast?_concat, List.getLast?_concat] at hLast
    obtain rfl : LF = c := Option.some.inj hLast
    exact ⟨w, rfl⟩

theorem behindLine_of_notMem {text : Bytes} (h : LF ∉ text) : behindLine text = [] := by
  have hAll : ∀ c ∈ text, (c != LF) = true := fun c hc => by simpa using fun hEq : c = LF => h (hEq ▸ hc)
  rw [behindLine, List.dropWhile_eq_nil_iff.mpr hAll]
  rfl

theorem headerSection_append (a b : Bytes) :
    (∀ x, headerSection (a ++ [LF]) = some x → headerSection (a ++ [LF] ++ b) = some (x.1, x.2 ++ b)) ∧
      (headerSection (a ++ [LF]) = none → headerSection (a ++ [LF] ++ b) =
        (sectionFrom [] b).map fun x => (linesFrom [] (behindLine (a ++ [LF])) ++ x.1, x.2)) := by
  obtain ⟨u, v, hSplit, hu, hFront, hEnd⟩ := firstLine_split a
  have hBehind : behindLine (a ++ [LF] ++ b) = v ++ b := by
    rw [hSplit, List.append_assoc, List.cons_append, behindLine_cons u hu]
  simp only [headerSection, hBehind, hFront]
  refine ⟨fun x hx => sectionFrom_append [] hx b, fun hNone => ?_⟩
  rcases hEnd with rfl | ⟨w, rfl⟩
  · simp [linesFrom]
  · exact sectionFrom_append_of_none [] hNone b

theorem linesFrom_ne_nil (a line : Bytes) : linesFrom line (a ++ [LF]) ≠ [] := by
  induction a generalizing line with
  | nil => simp [linesFrom]
  | cons c a ih =>
    rw [List.cons_append, linesFrom]
    split
    · simp
    · exact ih _

theorem lines_of_section {a tail : Bytes} {lines : List Bytes} {line : Bytes}
    (h : sectionFrom line a = some (lines, tail)) :
    ∃ w, a = w ++ LF :: tail ∧ linesFrom line (w ++ [LF]) = lines ++ [[]] ∧ ∀ l ∈ lines, l ≠ [] := by
  induction a generalizing line lines with
  | nil => cases h
  | cons c a ih =>
    rw [sectionFrom] at h
    by_cases hLf : c = LF
    · subst hLf
      rw [if_neg (not_not.mpr rfl)] at h
      by_cases hEmpty : chomp line = []
      · rw [if_pos hEmpty] at h
        obtain ⟨rfl, rfl⟩ := Prod.mk.inj (Option.some.inj h)
        exact ⟨[], rfl, by simp [linesFrom, hEmpty], by simp⟩
      · rw [if_neg hEmpty] at h
        obtain ⟨⟨lines', tail'⟩, hRest, hPair⟩ := Option.map_eq_some_iff.mp h
        obtain ⟨rfl, rfl⟩ := Prod.mk.inj hPair
        obtain ⟨w, rfl, hLines, hSome⟩ := ih hRest
        refine ⟨LF :: w, rfl, ?_, ?_⟩
        · rw [List.cons_append, linesFrom, if_pos rfl, hLines, List.cons_append]
        · simpa [hEmpty] using hSome
    · rw [if_pos hLf] at h
      obtain ⟨w, rfl, hLines, hSome⟩ := ih h
      exact ⟨c :: w, rfl, by rw [List.cons_append, linesFrom, if_neg hLf, hLines], hSome⟩

theorem section_of_lines {w tail : Bytes} {lines : List Bytes} {line : Bytes}
    (hLines : linesFrom line (w ++ [LF]) = lines ++ [[]]) (hSome : ∀ l ∈ lines, l ≠ []) :
    sectionFrom line (w ++ LF :: tail) = some (lines, tail) := by
  induction w generalizing line lines with
  | nil =>
    rw [List.nil_append, linesFrom, if_pos rfl, linesFrom] at hLines
    rcases List.append_eq_singleton_iff.mp hLines.symm with ⟨rfl, hLast⟩ | ⟨-, hNil⟩
    · rw [List.nil_append, sectionFrom, if_neg (not_not.mpr rfl), if_pos (List.cons.inj hLast).1.symm]
    · cases hNil
  | cons c w ih =>
    rw [List.cons_append, linesFrom] at hLines
    rw [List.cons_append, sectionFrom]
    by_cases hLf : c = LF
    · rw [if_pos hLf] at hLines
      rw [if_neg (not_not.mpr hLf)]
      cases lines with
      | nil =>
        have hNone : linesFrom [] (w ++ [LF]) = [] := (List.cons.inj hLines).2
        have hEnd : linesFrom [] (w ++ [LF]) ≠ [] := linesFrom_ne_nil w []
        exact absurd hNone hEnd
      | cons l lines =>
        obtain ⟨rfl, hRest⟩ := List.cons_eq_cons.mp hLines
        rw [if_neg (hSome _ List.mem_cons_self), ih hRest fun k hk => hSome k (List.mem_cons_of_mem _ hk)]
        rfl
    · rw [if_neg hLf] at hLines
      rw [if_pos hLf]
      exact ih hLines hSome

theorem headerSection_eq_some {text tail : Bytes} {lines : List Bytes} :
    headerSection text = some (lines, tail) ↔
      ∃ head, text = head ++ LF :: tail ∧ linesFrom [] (behindLine (head ++ [LF])) = lines ++ [[]] ∧
        ∀ l ∈ lines, l ≠ [] := by
  constructor
  · intro h
    obtain ⟨w, hSplit, hLines, hSome⟩ := lines_of_section h
    by_cases hLf : LF ∈ text
    · obtain ⟨u, v, rfl, hu⟩ := List.eq_append_cons_of_mem hLf
      rw [behindLine_cons u hu] at hSplit
      refine ⟨u ++ LF :: w, by rw [hSplit]; simp, ?_, hSome⟩
      rw [List.append_assoc, List.cons_append, behindLine_cons u hu, hLines]
    · rw [behindLine_of_notMem hLf] at hSplit
      simp at hSplit
  · rintro ⟨head, rfl, hLines, hSome⟩
    obtain ⟨u, v, hSplit, hu, hBehind, hEnd⟩ := firstLine_split head
    rw [hBehind] at hLines
    rcases hEnd with rfl | ⟨w, rfl⟩
    · simp [linesFrom] at hLines
    · have hText : head ++ LF :: tail = u ++ LF :: (w ++ LF :: tail) := by
        have hJoin := congrArg (· ++ tail) hSplit
        simpa using hJoin
      rw [headerSection, hText, behindLine_cons u hu]
      exact section_of_lines hLines hSome

/-- The line that a text leaves unfinished. -/
def openLine (line : Bytes) : Bytes → Bytes
  | [] => line
  | c :: s => if c = LF then openLine [] s else openLine (line ++ [c]) s

theorem openLine_append (line a b : Bytes) : openLine line (a ++ b) = openLine (openLine line a) b := by
  induction a generalizing line with
  | nil => rfl
  | cons c a ih =>
    rw [List.cons_append, openLine, openLine]
    split
    · exact ih []
    · exact ih _

theorem linesFrom_append (line a b : Bytes) :
    linesFrom line (a ++ b) = linesFrom line a ++ linesFrom (openLine line a) b := by
  induction a generalizing line with
  | nil => rfl
  | cons c a ih =>
    rw [List.cons_append, linesFrom, linesFrom, openLine]
    split
    · rw [ih, List.cons_append]
    · exact ih _

/-- A place in a text is in front of the end of its section, where no line is empty, or behind that end. -/
theorem section_place {a tail : Bytes} {lines : List Bytes} {line : Bytes}
    (h : sectionFrom line a = some (lines, tail))
    {u v : Bytes} {c : UInt8} (hSplit : a = u ++ c :: v) :
    (∀ l ∈ linesFrom line u, l ≠ []) ∨ ∃ w z, u = w ++ LF :: z ∧ tail = z ++ c :: v ∧ linesFrom line w = lines ∧
      chomp (openLine line w) = [] ∧ ∀ l ∈ lines, l ≠ [] := by
  obtain ⟨w, hText, hLines, hSome⟩ := lines_of_section h
  have hEnd : linesFrom line (w ++ [LF]) = linesFrom line w ++ [chomp (openLine line w)] := by
    rw [linesFrom_append, linesFrom, if_pos rfl, linesFrom]
  obtain ⟨rfl, hEmpty⟩ := List.append_inj' (hLines.symm.trans hEnd) rfl
  rcases List.append_eq_append_iff.mp (hSplit.symm.trans hText) with ⟨z, rfl, -⟩ | ⟨z, rfl, hTail⟩
  · refine .inl fun l hl => hSome l ?_
    rw [linesFrom_append]
    exact List.mem_append_left _ hl
  · cases z with
    | nil =>
      rw [List.append_nil]
      exact .inl hSome
    | cons d z =>
      obtain ⟨rfl, hRest⟩ := List.cons.inj hTail
      exact .inr ⟨w, z, rfl, hRest, rfl, (List.cons.inj hEmpty).1.symm, hSome⟩

theorem chomp_of_getLast {line : Bytes} (h : line.getLast? ≠ some CR) : chomp line = line := if_neg h

theorem chomp_eq_nil {line : Bytes} : chomp line = [] ↔ line = [] ∨ line = [CR] := by
  rw [chomp]
  split
  · rename_i hCr
    obtain ⟨l, rfl⟩ := List.getLast?_eq_some_iff.mp hCr
    simp
  · rename_i hCr
    constructor
    · exact .inl
    · rintro (rfl | rfl)
      · rfl
      · simp at hCr

/-! ### Lines that begin with the name of the length -/

def beginsLength (line : Bytes) : Bool := (ascii "content-length").isPrefixOf (line.map asciiLower)

theorem beginsLength_iff {line : Bytes} : beginsLength line = true ↔ ascii "content-length" <+: line.map asciiLower :=
  List.isPrefixOf_iff_prefix

theorem beginsLength_append {line : Bytes} (h : beginsLength line = true) (s : Bytes) :
    beginsLength (line ++ s) = true := by
  rw [beginsLength_iff] at h ⊢
  rw [List.map_append]
  exact h.trans (List.prefix_append _ _)

theorem beginsLength_concat (line : Bytes) {c : UInt8} (h : asciiLower c ≠ 'h') :
    beginsLength (line ++ [c]) = beginsLength line := by
  rw [Bool.eq_iff_iff, beginsLength_iff, beginsLength_iff, List.map_append, List.map_singleton,
    List.prefix_concat_iff]
  refine or_iff_right fun hEq => ?_
  have hLast := congrArg List.getLast? hEq
  have hName : (ascii "content-length").getLast? = some 'h' := by decide +kernel
  rw [List.getLast?_concat, hName] at hLast
  exact h (Option.some.inj hLast).symm

theorem beginsLength_chomp (line : Bytes) : beginsLength (chomp line) = beginsLength line := by
  rw [chomp]
  split
  · rename_i hCr
    obtain ⟨l, rfl⟩ := List.getLast?_eq_some_iff.mp hCr
    rw [List.dropLast_concat, beginsLength_concat l (by decide)]
  · rfl

theorem beginsLength_of_isLength {line : Bytes} (h : isLength line = true) : beginsLength line = true := by
  rw [isLength, Bool.and_eq_true, beq_iff_eq] at h
  rw [beginsLength_iff, ← h.2]
  exact (List.takeWhile_prefix _).map _

/-! ### The name and the value of a line -/

/-- What follows cannot change the name of the line: the colon is read, or the line goes on with a value. -/
def NameDone (line : Bytes) : Prop := (':' : UInt8) ∈ line ∨ ∃ c ∈ line.head?, c = SP ∨ c = HT

theorem NameDone.append {line : Bytes} (h : NameDone line) (s : Bytes) : NameDone (line ++ s) := by
  rcases h with hColon | ⟨c, hHead, hBlank⟩
  · exact .inl (List.mem_append_left s hColon)
  · cases line with
    | nil => cases hHead
    | cons first line => exact .inr ⟨c, hHead, hBlank⟩

theorem NameDone.ne_nil {line : Bytes} (h : NameDone line) : line ≠ [] := by
  rintro rfl
  rcases h with hColon | ⟨c, hHead, -⟩
  · cases hColon
  · cases hHead

theorem NameDone.cannot_begin {line : Bytes} (h : NameDone line) :
    ¬ line.map asciiLower <+: ascii "content-length" := by
  intro hName
  have hMem (c : UInt8) (hc : c ∈ line) : asciiLower c ∈ ascii "content-length" :=
    hName.subset (List.mem_map_of_mem hc)
  rcases h with hColon | ⟨c, hHead, hBlank⟩
  · exact absurd (hMem _ hColon) (by decide +kernel)
  · have hFirst := hMem c (List.mem_of_mem_head? hHead)
    rcases hBlank with rfl | rfl
    · exact absurd hFirst (by decide +kernel)
    · exact absurd hFirst (by decide +kernel)

theorem NameDone.beginsLength_append {line : Bytes} (h : NameDone line) (s : Bytes) :
    beginsLength (line ++ s) = beginsLength line := by
  rw [Bool.eq_iff_iff]
  refine ⟨fun hBegins => ?_, fun hBegins => HttpUtils.beginsLength_append hBegins s⟩
  rw [beginsLength_iff, List.map_append] at hBegins
  rw [beginsLength_iff]
  exact (List.prefix_or_prefix_of_prefix hBegins (List.prefix_append _ _)).resolve_right h.cannot_begin

theorem isLength_of_blank {line : Bytes} (h : ∃ c ∈ line.head?, c = SP ∨ c = HT) : isLength line = false := by
  obtain ⟨c, hHead, hBlank⟩ := h
  cases line with
  | nil => cases hHead
  | cons first line =>
    obtain rfl := Option.some.inj hHead
    by_contra hIs
    rw [Bool.not_eq_false] at hIs
    have hBegins := beginsLength_iff.mp (beginsLength_of_isLength hIs)
    have hFirst : ascii "content-length" = ('c' : UInt8) :: ascii "ontent-length" := rfl
    rw [hFirst, List.map_cons, List.cons_prefix_cons] at hBegins
    rcases hBlank with rfl | rfl
    · exact absurd hBegins.1 (by decide)
    · exact absurd hBegins.1 (by decide)

theorem isLength_append {line : Bytes} (h : NameDone line) (s : Bytes) : isLength (line ++ s) = isLength line := by
  by_cases hColon : (':' : UInt8) ∈ line
  · have hLess : (line.takeWhile fun c : UInt8 => c != ':').length ≠ line.length := by
      intro hLength
      have hAll := (List.takeWhile_prefix fun c : UInt8 => c != ':').eq_of_length hLength
      rw [← hAll] at hColon
      simpa using List.mem_takeWhile_imp hColon
    have hContains (l : Bytes) (hMem : (':' : UInt8) ∈ l) : l.contains ':' = true := List.contains_iff_mem.mpr hMem
    rw [isLength, isLength, List.takeWhile_append, if_neg hLess, hContains line hColon,
      hContains _ (List.mem_append_left s hColon)]
  · have hBlank := h.resolve_left hColon
    rw [isLength_of_blank hBlank]
    refine isLength_of_blank ?_
    obtain ⟨c, hHead, hBlank⟩ := hBlank
    cases line with
    | nil => cases hHead
    | cons first line => exact ⟨c, hHead, hBlank⟩

theorem colon_of_isLength {line : Bytes} (h : isLength line = true) : (':' : UInt8) ∈ line := by
  rw [isLength, Bool.and_eq_true] at h
  simpa using h.1

theorem lengthValue_append {line : Bytes} (h : (':' : UInt8) ∈ line) (s : Bytes) :
    lengthValue (line ++ s) = dropBlanks ((line.dropWhile fun c : UInt8 => c != ':').tail ++ s) := by
  have hSome : line.dropWhile (fun c : UInt8 => c != ':') ≠ [] := by
    intro hNil
    have hAll := List.dropWhile_eq_nil_iff.mp hNil _ h
    simp at hAll
  rw [lengthValue, List.dropWhile_append, if_neg (by simpa using hSome), List.tail_append_of_ne_nil hSome]

theorem lengthValue_concat_blank {line : Bytes} (h : (':' : UInt8) ∈ line) (hNil : lengthValue line = []) {ch : UInt8}
    (hBlank : ch = SP ∨ ch = HT) : lengthValue (line ++ [ch]) = [] := by
  rw [lengthValue_append h, dropBlanks, List.dropWhile_append]
  rw [lengthValue, dropBlanks] at hNil
  rw [hNil]
  rcases hBlank with rfl | rfl <;> rfl

theorem lengthValue_concat_first {line : Bytes} (h : (':' : UInt8) ∈ line) (hNil : lengthValue line = []) {ch : UInt8}
    (hSp : ch ≠ SP) (hHt : ch ≠ HT) : lengthValue (line ++ [ch]) = [ch] := by
  rw [lengthValue_append h, dropBlanks, List.dropWhile_append]
  rw [lengthValue, dropBlanks] at hNil
  rw [hNil]
  simp [hSp, hHt]

theorem lengthValue_concat {line : Bytes} (h : (':' : UInt8) ∈ line) (hSome : lengthValue line ≠ []) (ch : UInt8) :
    lengthValue (line ++ [ch]) = lengthValue line ++ [ch] := by
  rw [lengthValue_append h, dropBlanks, List.dropWhile_append]
  rw [lengthValue, dropBlanks] at hSome
  rw [if_neg (by simpa using hSome)]
  rfl

theorem isLength_colon {name : Bytes} (h : (':' : UInt8) ∉ name) :
    isLength (name ++ [(':' : UInt8)]) = (name.map asciiLower == ascii "content-length") ∧
      lengthValue (name ++ [(':' : UInt8)]) = [] := by
  have hName : ∀ c ∈ name, (c != (':' : UInt8)) = true := by
    intro c hc
    simpa using fun hEq : c = ':' => h (hEq ▸ hc)
  rw [isLength, lengthValue, List.takeWhile_append_of_pos hName, List.dropWhile_append_of_pos hName]
  constructor
  · simp
  · rfl

/-! ### The length that the lines give -/

/-- The digits of a value; the parser passes over the blanks between them. -/
def lengthRead (value : Bytes) : ℕ := digitsValue 0 (value.filter fun c => c != SP)

theorem lengthRead_concat_sp (value : Bytes) : lengthRead (value ++ [SP]) = lengthRead value := by
  simp [lengthRead]

theorem lengthRead_concat (value : Bytes) {c : UInt8} (h : c ≠ SP) :
    lengthRead (value ++ [c]) = lengthRead value * 10 + (c - '0').toNat := by
  simp [lengthRead, h, digitsValue]

theorem lengthRead_decimal (n : ℕ) : lengthRead (decimal n) = n := by
  obtain ⟨hValue, hNums, -⟩ := decimal_spec n
  have hNotSp : ∀ c ∈ decimal n, (c != SP) = true := by
    intro c hc
    have hAll : ∀ c : UInt8, isNum c = true → (c != SP) = true := forall_byte (by decide +kernel)
    exact hAll c (hNums c hc)
  rw [lengthRead, List.filter_eq_self.mpr hNotSp, hValue]

/-- The length known behind a line. An empty value leaves it open, since the next line may go on with it. -/
def givenBy (given : Option ℕ) (line : Bytes) : Option ℕ :=
  if isLength line then if lengthValue line = [] then none else some (lengthRead (lengthValue line)) else given

theorem foldl_givenBy_of_other {given : Option ℕ} {lines : List Bytes} (h : ∀ l ∈ lines, isLength l = false) :
    lines.foldl givenBy given = given := by
  induction lines with
  | nil => rfl
  | cons l lines ih =>
    have hHere : givenBy given l = given := if_neg (by simp [h l List.mem_cons_self])
    rw [List.foldl_cons, hHere]
    exact ih fun k hk => h k (List.mem_cons_of_mem l hk)

theorem foldl_givenBy {lines : List Bytes} {n : ℕ} (h : (lines.filter isLength).map lengthValue = [decimal n]) :
    lines.foldl givenBy none = some n ∧ ∃ l ∈ lines, beginsLength l = true := by
  obtain ⟨l, hFilter, hValue⟩ : ∃ l, lines.filter isLength = [l] ∧ lengthValue l = decimal n := by
    obtain ⟨l, rest, hFilter, hValue, hRest⟩ := List.map_eq_cons_iff.mp h
    obtain rfl := List.map_eq_nil_iff.mp hRest
    exact ⟨l, hFilter, hValue⟩
  obtain ⟨ls, ls', rfl, hBefore, hLength, hBehind⟩ := List.filter_eq_cons_iff.mp hFilter
  have hOthers (k : Bytes) (hk : ¬ isLength k = true) : isLength k = false := by simpa using hk
  have hSome : decimal n ≠ [] := by
    obtain ⟨-, -, v, s, hDecimal, -⟩ := decimal_spec n
    rw [hDecimal]
    simp
  refine ⟨?_, l, by simp, beginsLength_of_isLength hLength⟩
  rw [List.foldl_append, List.foldl_cons, foldl_givenBy_of_other fun k hk => hOthers k (hBefore k hk)]
  rw [givenBy, if_pos hLength, hValue, if_neg hSome, lengthRead_decimal]
  exact foldl_givenBy_of_other fun k hk => hOthers k (List.filter_eq_nil_iff.mp hBehind k hk)

end HttpUtils
