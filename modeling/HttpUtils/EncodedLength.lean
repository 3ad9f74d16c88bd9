import HttpUtils.LengthError

/-!
# The length of an encoded message

What stands in front of the length that the encoder writes decides: a line there that holds a length or is empty
makes another framing of the message.
-/

namespace HttpUtils
set_option autoImplicit false

def linesInFront (front : Bytes) : List Bytes := linesFrom [] (behindLine front)

/-- Lines none of which is empty or a length. -/
def NoLength (lines : List Bytes) : Prop := ∀ l ∈ lines, l ≠ [] ∧ isLength l = false

instance (lines : List Bytes) : Decidable (NoLength lines) :=
  inferInstanceAs (Decidable (∀ l ∈ lines, l ≠ [] ∧ isLength l = false))

/-- An empty line in front ends a section with one length, which counts all that follows. -/
def EndsBefore (front rest : Bytes) : Prop :=
  ∃ head tail before line behind, front = head ++ LF :: tail ∧
    linesInFront (head ++ [LF]) = before ++ line :: behind ++ [[]] ∧ NoLength (before ++ behind) ∧
    isLength line = true ∧ lengthValue line = decimal (tail ++ rest).length

/-- What both encoders write behind the headers that they are given. -/
def lengthAndBody (body : Bytes) : Bytes := headerLine (contentLengthHeader body.length) ++ (crlf ++ body)

def Reply.front (r : Reply) : Bytes := statusString (.ofCode r.statusCode) ++ r.headers.flatMap headerLine

theorem Reply.toBytes_front (r : Reply) : r.toBytes = r.front ++ lengthAndBody r.content := by
  simp only [Reply.toBytes, Reply.front, lengthAndBody, headerLine, contentLengthHeader, List.append_assoc]

def Request.front (r : Request) (serverUrl : Bytes) : Bytes :=
  r.method ++ ascii " " ++ r.uri ++ ascii " HTTP/" ++ r.version ++ crlf ++ (r.linesBefore serverUrl).flatMap
    headerLine

theorem Request.toBytes_front (r : Request) (serverUrl serverPort : Bytes) :
    r.toBytes serverUrl serverPort = r.front serverUrl ++ lengthAndBody r.body := by
  simp only [Request.toBytes_eq, Request.front, lengthAndBody, afterStartLine, List.append_assoc]

/-! ### Both fronts end in a line feed -/

theorem flatMap_headerLine_ends (xs : List Header) : xs.flatMap headerLine = [] ∨
    ∃ w, xs.flatMap headerLine = w ++ [LF] := by
  rcases List.eq_nil_or_concat' xs with rfl | ⟨ys, x, rfl⟩
  · exact .inl rfl
  · refine .inr ⟨ys.flatMap headerLine ++ (x.name ++ nameValueSeparator ++ x.value ++ [CR]), ?_⟩
    have hCrlf : crlf = [CR] ++ [LF] := rfl
    simp only [List.flatMap_append, List.flatMap_cons, List.flatMap_nil, headerLine, hCrlf, List.append_assoc,
      List.append_nil]

theorem append_headers_ends (line : Bytes) (xs : List Header) : ∃ a, line ++
    [LF] ++ xs.flatMap headerLine = a ++ [LF] := by
  rcases flatMap_headerLine_ends xs with hNil | ⟨w, hw⟩
  · exact ⟨line, by rw [hNil, List.append_nil]⟩
  · exact ⟨line ++ [LF] ++ w, by rw [hw, ← List.append_assoc]⟩

theorem statusString_line (s : StatusType) : ∃ line, statusString s = line ++ [LF] ∧ LF ∉ line := by
  refine ⟨(statusString s).dropLast, ?_⟩
  cases s <;> decide +kernel

theorem Reply.front_ends (r : Reply) : ∃ a, r.front = a ++ [LF] := by
  obtain ⟨line, hLine, -⟩ := statusString_line (.ofCode r.statusCode)
  rw [Reply.front, hLine]
  exact append_headers_ends line r.headers

theorem Request.front_ends (r : Request) (serverUrl : Bytes) : ∃ a, r.front serverUrl = a ++ [LF] := by
  have hCrlf : crlf = [CR] ++ [LF] := rfl
  rw [Request.front, hCrlf, ← List.append_assoc]
  exact append_headers_ends _ (r.linesBefore serverUrl)

theorem endsBefore_iff {front rest : Bytes} : EndsBefore front rest ↔
    ∃ x ∈ headerSection front, (x.1.filter isLength).map lengthValue = [decimal (x.2 ++ rest).length] := by
  have hOthers {ls : List Bytes} (h : NoLength ls) : ls.filter isLength = [] :=
    List.filter_eq_nil_iff.mpr fun l hl => by simp [(h l hl).2]
  constructor
  · rintro ⟨head, tail, before, line, behind, hFront, hLines, hNone, hIs, hValue⟩
    have hBefore : NoLength before := fun l hl => hNone l (List.mem_append_left _ hl)
    have hBehind : NoLength behind := fun l hl => hNone l (List.mem_append_right _ hl)
    have hLine : line ≠ [] := by
      rintro rfl
      cases hIs
    refine ⟨(before ++ line :: behind, tail), headerSection_eq_some.mpr ⟨head, hFront, hLines, fun l hl => ?_⟩, ?_⟩
    · rcases List.mem_append.mp hl with hl | hl
      · exact (hBefore l hl).1
      · rcases List.mem_cons.mp hl with rfl | hl
        · exact hLine
        · exact (hBehind l hl).1
    · simp [hOthers hBefore, hOthers hBehind, hIs, hValue]
  · rintro ⟨⟨lines, tail⟩, hSection, hLengths⟩
    obtain ⟨head, hFront, hLines, hSome⟩ := headerSection_eq_some.mp hSection
    obtain ⟨line, rest', hFilter, hValue, hRest⟩ := List.map_eq_cons_iff.mp hLengths
    obtain rfl := List.map_eq_nil_iff.mp hRest
    obtain ⟨before, behind, rfl, hBefore, hIs, hBehind⟩ := List.filter_eq_cons_iff.mp hFilter
    refine ⟨head, tail, before, line, behind, hFront, hLines, fun l hl => ⟨?_, ?_⟩, hIs, hValue⟩
    · refine hSome l ?_
      rcases List.mem_append.mp hl with hl | hl
      · exact List.mem_append_left _ hl
      · exact List.mem_append_right _ (List.mem_cons_of_mem _ hl)
    · rcases List.mem_append.mp hl with hl | hl
      · simpa using hBefore l hl
      · simpa using List.filter_eq_nil_iff.mp hBehind l hl

/-- The lines in front hold no length and no empty line, or end a section of their own that has the one length. -/
def OneField (front rest : Bytes) : Prop := NoLength (linesInFront front) ∨ EndsBefore front rest

theorem uniqueLength_front {front : Bytes} (h : ∃ a, front = a ++ [LF]) (body : Bytes) :
    UniqueLength (front ++ lengthAndBody body) ↔ OneField front (lengthAndBody body) := by
  obtain ⟨a, rfl⟩ := h
  rw [OneField, endsBefore_iff]
  exact uniqueLength_iff a body

/-! ### One length -/

/-- The header section holds one length, that of the body, and the parser finds no second one in any division. -/
def Reply.OneLength (r : Reply) : Prop :=
  UniqueLength r.toBytes ∧ ∀ statusCode₀, replyMessages.NeverRepeats (httpReplyParser statusCode₀) r.toBytes

def Request.OneLength (r : Request) (serverUrl serverPort : Bytes) : Prop :=
  UniqueLength (r.toBytes serverUrl serverPort) ∧
    ∀ major₀ minor₀, requestMessages.NeverRepeats (httpRequestParser major₀ minor₀) (r.toBytes serverUrl serverPort)

theorem Reply.text_split (r : Reply) :
    ∃ first rest, r.toBytes = first ++ [LF] ++ rest ∧ LF ∉ first ∧ Reader.Begins .httpResponse first := by
  obtain ⟨line, hLine, hLf⟩ := statusString_line (.ofCode r.statusCode)
  refine ⟨line, r.headers.flatMap headerLine ++ lengthAndBody r.content, ?_, hLf, Reader.begins_reply hLine⟩
  rw [Reply.toBytes_front, Reply.front, hLine, List.append_assoc (line ++ [LF])]

theorem Request.text_split (r : Request) (serverUrl serverPort : Bytes) :
    ∃ first rest, r.toBytes serverUrl serverPort = first ++ [LF] ++ rest ∧ LF ∉ first ∧
      Reader.Begins .httpRequest first := by
  obtain ⟨a, hFront⟩ := r.front_ends serverUrl
  obtain ⟨u, v, hSplit, hu, -, -⟩ := firstLine_split a
  refine ⟨u, v ++ lengthAndBody r.body, ?_, hu, Reader.begins_request hu⟩
  rw [Request.toBytes_front, hFront, hSplit]
  simp

theorem oneLength_iff {ι T : Type} [Inhabited ι] {M : MessageParser T} {t : ι → T} {type : HttpParserType}
    {text : Bytes} (hBehind : ∀ i, M.Behind (t i) [] (freshReader type))
    (hFresh : ∀ i, M.parser (t i) = httpParserInit type)
    (hText : ∃ first rest, text = first ++ [LF] ++ rest ∧ LF ∉ first ∧ Reader.Begins type first) :
    (UniqueLength text ∧ RefusedBefore type text → UniqueLength text ∧ ∀ i, M.NeverRepeats (t i) text) ∧
      (text.length < 2 ^ 31 →
        (UniqueLength text ∧ (∀ i, M.NeverRepeats (t i) text) ↔ UniqueLength text ∧ RefusedBefore type text)) := by
  obtain ⟨first, rest, rfl, hLf, hBegins⟩ := hText
  have hEnough (h : UniqueLength (first ++ [LF] ++ rest) ∧ RefusedBefore type (first ++ [LF] ++ rest)) :
      UniqueLength (first ++ [LF] ++ rest) ∧ ∀ i, M.NeverRepeats (t i) (first ++ [LF] ++ rest) :=
    ⟨h.1, fun i => (hBehind i).neverRepeats (hFresh i) hBegins hLf h.1 h.2⟩
  refine ⟨hEnough, fun hSmall => ⟨fun hOne => ⟨hOne.1, ?_⟩, hEnough⟩⟩
  exact (hBehind default).refusedBefore (hFresh default) hBegins hLf hSmall (hOne.2 default)

/-- The encoders add their length to whatever stands in front of it. -/
theorem oneLength_encoded (r : Reply) (q : Request) (serverUrl serverPort : Bytes) :
    ((UniqueLength r.toBytes ↔ OneField r.front (lengthAndBody r.content)) ∧
      (OneField r.front (lengthAndBody r.content) ∧ RefusedBefore .httpResponse r.toBytes → r.OneLength) ∧
      (r.toBytes.length < 2 ^ 31 →
        (r.OneLength ↔ OneField r.front (lengthAndBody r.content) ∧ RefusedBefore .httpResponse r.toBytes))) ∧
    (UniqueLength (q.toBytes serverUrl serverPort) ↔ OneField (q.front serverUrl) (lengthAndBody q.body)) ∧
      (OneField (q.front serverUrl) (lengthAndBody q.body) ∧
        RefusedBefore .httpRequest (q.toBytes serverUrl serverPort) → q.OneLength serverUrl serverPort) ∧
      ((q.toBytes serverUrl serverPort).length < 2 ^ 31 →
        (q.OneLength serverUrl serverPort ↔ OneField (q.front serverUrl) (lengthAndBody q.body) ∧
          RefusedBefore .httpRequest (q.toBytes serverUrl serverPort))) := by
  have hReply : UniqueLength r.toBytes ↔ OneField r.front (lengthAndBody r.content) := by
    rw [r.toBytes_front]
    exact uniqueLength_front r.front_ends r.content
  have hRequest :
      UniqueLength (q.toBytes serverUrl serverPort) ↔ OneField (q.front serverUrl) (lengthAndBody q.body) := by
    rw [q.toBytes_front]
    exact uniqueLength_front (q.front_ends serverUrl) q.body
  obtain ⟨hReplyOne, hReplyIff⟩ := oneLength_iff (M := replyMessages) (t := httpReplyParser)
    (fun statusCode₀ => ⟨holds_httpReplyParser statusCode₀, shadowed_fresh .httpResponse⟩) (fun _ => rfl) r.text_split
  obtain ⟨hRequestOne, hRequestIff⟩ := oneLength_iff (M := requestMessages)
    (t := fun v : ℤ × ℤ => httpRequestParser v.1 v.2)
    (fun v => ⟨holds_httpRequestParser v.1 v.2, shadowed_fresh .httpRequest⟩) (fun _ => rfl)
    (q.text_split serverUrl serverPort)
  rw [Prod.forall] at hRequestOne hRequestIff
  rw [← hReply, ← hRequest]
  exact ⟨⟨Iff.rfl, hReplyOne, hReplyIff⟩, Iff.rfl, hRequestOne, hRequestIff⟩

theorem stockReply_two_lengths : ¬ UniqueLength (stockReply .badRequest).toBytes ∧
    ((httpReplyParser 0).parse (stockReply .badRequest).toBytes).1 = .bad ∧
      ((httpReplyParser 0).parse (stockReply .badRequest).toBytes).2.mParser.Repeated := by
  refine ⟨?_, by decide +kernel, by decide +kernel, by decide +kernel⟩
  rintro ⟨x, hx, hLengths⟩
  have hTwo : (headerSection (stockReply .badRequest).toBytes).map
      (fun x => ((x.1.filter isLength).map lengthValue).length) = some 2 := by decide +kernel
  rw [Option.mem_def.mp hx, Option.map_some, hLengths] at hTwo
  cases hTwo

/-- Headers of which the first is refused, so that the second is never read. -/
def refusedReply : Reply where
  statusCode := 200
  headers := [⟨ascii "X Y", ascii "1"⟩, ⟨ascii "Content-Length-X", ascii "1"⟩]
  content := ascii "hi"

theorem oneLength_refused : refusedReply.OneLength ∧ putRequest.OneLength (ascii "localhost") (ascii "80") := by
  have hBoth := oneLength_encoded refusedReply putRequest (ascii "localhost") (ascii "80")
  exact ⟨(hBoth.1.2.2 (by decide +kernel)).mpr ⟨.inl (by decide +kernel), by decide +kernel⟩,
    (hBoth.2.2.2 (by decide +kernel)).mpr ⟨.inl (by decide +kernel), by decide +kernel⟩⟩

end HttpUtils
