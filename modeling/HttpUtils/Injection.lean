import HttpUtils.HeaderDivision
import HttpUtils.RoundTrip
import HttpUtils.HttpParser.Framing
import HttpUtils.HttpParser.RequestLine
import HttpUtils.HttpParser.Shadow
import Mathlib.Data.List.DropRight

/-!
# Separators in the fields of a message

Neither encoder looks at the bytes of its fields. A field without the separators of the format stays what it is
whenever the parser accepts the message; a line feed in a header value makes a header of its own.
-/

namespace HttpUtils
set_option autoImplicit false

open PartialRun (Leads)

/-! ### What an accepted buffer shows -/

namespace MessageParser

variable {T : Type} {M : MessageParser T}

theorem Holds.parse_leads {t : T} {r : Reader} {b : Bytes} {d : Prop} {Q : Reader → Prop} (h : M.Holds t [])
    (hShadow : (Scan.resume (M.parser t) []).ShadowedBy r) (hFresh : ¬ (Scan.resume (M.parser t) []).Lost)
    (hb : b ≠ []) (hLeads : Leads Reader.step (Reader.Calm false d) r b Q) (hGood : (M.parse t b).1 = .good) :
    ∃ q, Q q ∧ q.message.complete = true ∧ M.Shows (M.parse t b).2 q.message ∧
      M.headers (M.parse t b).2 = q.message.headers := by
  obtain ⟨s, a, c, e, hRun, rfl, he, hEnd⟩ := h.run_of_good hb hGood
  have hZero : e.ctl.jumped ≤ httpMaxHeaderSize := by
    rw [hEnd.ctl]
    exact Nat.zero_le _
  obtain ⟨q, hq, hShadow'⟩ := h.sound.shadow_run hShadow he hZero
  have hDone : q.message.complete = true := by rw [hShadow'.message, hEnd.complete]
  -- nothing is left behind the end of the message
  have hNil : c = [] := by
    cases c with
    | nil => rfl
    | cons ch c =>
      have hStill := (hLeads.along.at hq).complete
      rw [hDone] at hStill
      cases hStill
  subst hNil
  rw [List.append_nil] at hRun hLeads hb ⊢
  obtain ⟨u, hCut, -⟩ := Scan.cut_outer hEnd.ctl
  obtain ⟨-, -, -, hHolds⟩ := h.parse_cut hb he hCut
  obtain ⟨-, -, hSpelled, -, hLoses⟩ := (h.sound.run he).cut hCut
  have hKept := h.sound.shadow_kept hShadow hFresh (hLeads.along.mono fun _ _ hCalm => hCalm.lossless) he hZero
  refine ⟨q, hLeads.post q hq, hDone, ?_, ?_⟩
  · rw [hShadow'.message, hSpelled]
    exact hHolds.shows'
  · rw [hHolds.collected, hShadow'.message, hSpelled, headers_eq_iff, hLoses]
    exact hKept

end MessageParser

theorem shadowed_fresh (t : HttpParserType) : (Scan.resume (httpParserInit t) []).ShadowedBy (freshReader t) :=
  ⟨rfl, (between_fresh t).message_eq⟩

/-! ### Fields without separators -/

/-- The name cannot end early or begin with a blank, and neither part can end the line. -/
structure Header.Separated (h : Header) : Prop where
  name : LF ∉ h.name ∧ (':' : UInt8) ∉ h.name ∧ ∀ c ∈ h.name.head?, c ≠ SP ∧ c ≠ HT
  value : LF ∉ h.value

def Header.trimmed (h : Header) : Header := { h with value := dropBlanks h.value }

theorem Header.Separated.oneLine {h : Header} (hSeparated : h.Separated) : OneLine h.name (SP :: h.value) := by
  refine ⟨hSeparated.name.1, hSeparated.name.2.1, hSeparated.name.2.2, fun hMem => ?_⟩
  rcases List.mem_cons.mp hMem with hSp | hMem
  · exact absurd hSp (by decide)
  · exact hSeparated.value hMem

theorem headerLine_eq (h : Header) : headerLine h = fieldLine h.name (SP :: h.value) := by
  have hSeparator : nameValueSeparator = [(':' : UInt8)] ++ [SP] := rfl
  simp only [headerLine, fieldLine, hSeparator, List.append_assoc, List.cons_append, List.nil_append]

theorem dropBlanks_cons (v : Bytes) : dropBlanks (SP :: v) = dropBlanks v := by simp [dropBlanks]

theorem Reader.InHead.leads_after {P₀ : HttpParser} {m : Message} {r : Reader} (h : r.InHead P₀ m)
    (hTrailing : P₀.flags.fTrailing = false) (hSkip : P₀.flags.fSkipbody = false) {xs : List Header}
    (hxs : ∀ x ∈ xs, x.Separated) (body : Bytes) :
    Leads Reader.step (Reader.Calm m.complete True) r (afterStartLine xs body) fun t =>
      t.message.headers = m.headers ++ xs.map Header.trimmed ++ [contentLengthHeader body.length] ∧
        t.message.url = m.url ∧ t.message.status = m.status ∧ t.message.body = m.body ++ body := by
  let ys : List (Bytes × Bytes) := xs.map fun x => (x.name, SP :: x.value)
  have hLines : ∀ y ∈ ys, OneLine y.1 y.2 := by
    intro y hy
    obtain ⟨x, hx, rfl⟩ := List.mem_map.mp hy
    exact (hxs x hx).oneLine
  have hText : xs.flatMap headerLine = ys.flatMap fun y => fieldLine y.1 y.2 := by
    simp only [ys, List.flatMap_map]
    exact List.flatMap_congr fun x _ => headerLine_eq x
  have hFields : ys.map (fun y => (⟨y.1, dropBlanks y.2⟩ : Header)) = xs.map Header.trimmed := by
    simp only [ys, List.map_map]
    refine List.map_congr_left fun x _ => ?_
    simp only [Function.comp, dropBlanks_cons, Header.trimmed]
  obtain ⟨hHeaders, hUrl, hStatus, hBody⟩ := Message.foldl_addHeader m (xs.map Header.trimmed)
  have hComplete : ((xs.map Header.trimmed).foldl Message.addHeader m).complete = m.complete := by
    have hAdd (ys : List Header) (m : Message) : (ys.foldl Message.addHeader m).complete = m.complete := by
      induction ys generalizing m with
      | nil => rfl
      | cons y ys ih => exact ih (m.addHeader y)
    exact hAdd _ m
  have hHead := h.leads_lines hLines
  rw [hFields] at hHead
  rw [afterStartLine, List.append_assoc, hText]
  refine hHead.append fun t ht => ?_
  have hTail := ht.leads_length hTrailing hSkip body
  rw [hComplete] at hTail
  refine hTail.mono fun q hq => ?_
  rw [hq.1]
  refine ⟨?_, hUrl, hStatus, congrArg (· ++ body) hBody⟩
  rw [← hHeaders]
  rfl

/-! ### Replies -/

/-- Where the parser accepts the encoded reply it gives the reply back, up to blanks that values begin with. -/
def Reply.ReadsBack (r : Reply) : Prop :=
  ∀ statusCode₀, ((httpReplyParser statusCode₀).parse r.toBytes).1 = .good →
    ((httpReplyParser statusCode₀).parse r.toBytes).2.mReply.statusCode = r.statusCode ∧
      ((httpReplyParser statusCode₀).parse r.toBytes).2.mReply.content = r.content ∧
      ((httpReplyParser statusCode₀).parse r.toBytes).2.mReply.headers.map Header.trimmed =
        r.sentHeaders.map Header.trimmed

theorem trimmed_map (xs : List Header) : (xs.map Header.trimmed).map Header.trimmed = xs.map Header.trimmed := by
  rw [List.map_map]
  refine List.map_congr_left fun x _ => ?_
  have hTwice : dropBlanks (dropBlanks x.value) = dropBlanks x.value := List.dropWhile_idempotent _ x.value
  simp only [Function.comp, Header.trimmed, hTwice]

theorem Reply.readsBack_of_separated {r : Reply} {s : StatusType} (hStatus : r.statusCode = s.code)
    (hHeaders : ∀ h ∈ r.headers, h.Separated) : r.ReadsBack := by
  intro statusCode₀ hGood
  have hEncoded : r.toBytes = statusString s ++ afterStartLine r.headers r.content := by
    rw [Reply.toBytes, hStatus, StatusType.ofCode_code, afterStartLine]
    simp only [headerLine, contentLengthHeader, List.append_assoc]
  obtain ⟨q, hLine, hState, hStarted, hMessage⟩ := Reader.passes_statusLine s
  have hHead : q.InHead q.parser q.message :=
    ⟨q.parser, .first hState, hStarted.errno, by rw [hMessage], .refl q.parser⟩
  have hFalse : q.message.complete = false := by rw [hMessage]
  have hLeads : Leads Reader.step (Reader.Calm false True) (freshReader .httpResponse) r.toBytes fun t =>
      t.message.headers = r.headers.map Header.trimmed ++ [contentLengthHeader r.content.length] ∧
        t.message.status = some r.statusCode ∧ t.message.body = r.content := by
    rw [hEncoded]
    refine hLine.leads.append fun t ht => ?_
    subst ht
    have hAfter := hHead.leads_after (by rw [hStarted.flags]) (by rw [hStarted.flags]) hHeaders r.content
    rw [hFalse] at hAfter
    refine hAfter.mono fun u hu => ⟨?_, ?_, ?_⟩
    · rw [hu.1, hMessage]
      rfl
    · rw [hu.2.2.1, hMessage, hStatus]
    · rw [hu.2.2.2, hMessage]
      rfl
  have hNe : r.toBytes ≠ [] := by simp [Reply.toBytes, crlf, ascii]
  obtain ⟨t, ⟨hFields, hCode, hBody⟩, -, hShows, hShown⟩ :=
    (holds_httpReplyParser statusCode₀).parse_leads (shadowed_fresh .httpResponse) MessageParser.fresh_not_lost
      hNe hLeads hGood
  rw [replyMessages_parse] at hShows hShown
  refine ⟨hShows.status _ hCode, hShows.content.trans hBody, ?_⟩
  have hSame : ((httpReplyParser statusCode₀).parse r.toBytes).2.mReply.headers =
      r.headers.map Header.trimmed ++ [contentLengthHeader r.content.length] := hShown.trans hFields
  rw [hSame, Reply.sentHeaders, List.map_append, List.map_append, trimmed_map]

/-- A line feed in a value, and the header that the parser finds behind it. -/
def splitReply : Reply := ⟨200, [⟨ascii "X", ascii "a\r\nSet-Cookie: b"⟩], []⟩

theorem splitReply_not_readsBack : ¬ ∀ r : Reply, (∃ s : StatusType, r.statusCode = s.code) → r.ReadsBack := by
  intro hAll
  obtain ⟨-, -, hHeaders⟩ := hAll splitReply ⟨.ok, rfl⟩ 0 (by decide +kernel)
  exact absurd hHeaders (by decide +kernel)

/-! ### Requests -/

/-- No field of the request ends the request line or its own header line. The parser passes over line breaks in
front of the method. -/
structure Request.Separated (r : Request) (serverUrl : Bytes) : Prop where
  method : LF ∉ r.method.dropWhile fun c => c == CR || c == LF
  uri : LF ∉ r.uri ∧ (∃ c ∈ r.uri.head?, c ≠ SP) ∧ r.uri.getLast? ≠ some SP
  headers : ∀ h ∈ r.headers, h.Separated
  host : LF ∉ serverUrl

/-- Where the parser accepts the encoded request it gives the request back, up to blanks that values begin with. -/
def Request.ReadsBack (r : Request) (serverUrl serverPort : Bytes) : Prop :=
  ∀ major₀ minor₀, ((httpRequestParser major₀ minor₀).parse (r.toBytes serverUrl serverPort)).1 = .good →
    ((httpRequestParser major₀ minor₀).parse (r.toBytes serverUrl serverPort)).2.mReq.uri = r.uri ∧
      ((httpRequestParser major₀ minor₀).parse (r.toBytes serverUrl serverPort)).2.mReq.body = r.body ∧
      ((httpRequestParser major₀ minor₀).parse (r.toBytes serverUrl serverPort)).2.mReq.headers.map Header.trimmed =
        (r.sentHeaders serverUrl).map Header.trimmed

theorem lf_notMem_decimal (n : ℕ) : LF ∉ decimal n := fun hMem =>
  absurd ((decimal_spec n).2.1 LF hMem) (by decide)

theorem lf_notMem_decimalInt (n : ℤ) : LF ∉ decimalInt n := by
  cases n with
  | ofNat n => exact lf_notMem_decimal n
  | negSucc n =>
    intro hMem
    rcases List.mem_append.mp hMem with hSign | hDigits
    · exact absurd hSign (by decide +kernel)
    · exact lf_notMem_decimal (n + 1) hDigits

def Request.linesBefore (r : Request) (serverUrl : Bytes) : List Header :=
  [⟨ascii "Host", serverUrl⟩, ⟨ascii "Accept", ascii "*/*"⟩] ++ r.headers ++ [⟨ascii "Connection", ascii "close"⟩]

theorem Request.sentHeaders_eq (r : Request) (serverUrl : Bytes) :
    r.sentHeaders serverUrl = r.linesBefore serverUrl ++ [contentLengthHeader r.body.length] := by
  simp only [Request.sentHeaders, Request.linesBefore, List.append_assoc, List.cons_append, List.nil_append]

def Request.version (r : Request) : Bytes := decimalInt r.httpVersionMajor ++ ascii "." ++
    decimalInt r.httpVersionMinor

theorem Request.lf_notMem_version (r : Request) : LF ∉ r.version := by
  simp only [Request.version, List.mem_append, not_or]
  exact ⟨⟨lf_notMem_decimalInt _, by decide +kernel⟩, lf_notMem_decimalInt _⟩

theorem Request.toBytes_eq (r : Request) (serverUrl serverPort : Bytes) : r.toBytes serverUrl serverPort =
    (r.method ++ ascii " " ++ r.uri ++ ascii " HTTP/" ++ r.version ++ crlf) ++
      afterStartLine (r.linesBefore serverUrl) r.body := by
  simp only [Request.toBytes, Request.version, Request.linesBefore, afterStartLine, contentLengthHeader,
    List.flatMap_append, List.flatMap_cons, List.flatMap_nil, List.append_assoc, List.append_nil]

theorem Request.toBytes_ne_nil (r : Request) (serverUrl serverPort : Bytes) :
    r.toBytes serverUrl serverPort ≠ [] := by
  simp [Request.toBytes_eq, crlf, ascii]

namespace Request.Separated

variable {r : Request} {serverUrl : Bytes}

theorem linesBefore (h : r.Separated serverUrl) : ∀ x ∈ r.linesBefore serverUrl, x.Separated := by
  have hHost : LF ∉ ascii "Host" ∧ (':' : UInt8) ∉ ascii "Host" ∧ ∀ c ∈ (ascii "Host").head?, c ≠ SP ∧ c ≠ HT := by
    decide +kernel
  intro x hx
  simp only [Request.linesBefore, List.mem_append, List.mem_cons, List.not_mem_nil, or_false] at hx
  rcases hx with ((rfl | rfl) | hx) | rfl
  · exact ⟨hHost, h.host⟩
  · exact ⟨by decide +kernel, by decide +kernel⟩
  · exact h.headers x hx
  · exact ⟨by decide +kernel, by decide +kernel⟩

theorem leads (h : r.Separated serverUrl) (serverPort : Bytes) :
    Leads Reader.step (Reader.Calm false True) (freshReader .httpRequest) (r.toBytes serverUrl serverPort) fun t =>
      t.message.headers = (r.linesBefore serverUrl).map Header.trimmed ++ [contentLengthHeader r.body.length] ∧
        t.message.url = r.uri ∧ t.message.body = r.body := by
  have hBreaks : ∀ ch ∈ r.method.takeWhile fun c => c == CR || c == LF, ch = CR ∨ ch = LF := by
    intro ch hch
    simpa using List.mem_takeWhile_imp hch
  have hLine := Reader.leads_requestLine (d := True) hBreaks h.method h.uri.1 h.uri.2.1 h.uri.2.2 r.lf_notMem_version
  rw [List.takeWhile_append_dropWhile] at hLine
  rw [Request.toBytes_eq]
  refine hLine.append fun t ht => ?_
  obtain ⟨hState, hBlank, hMessage⟩ := ht
  have hHead : t.InHead t.parser t.message :=
    ⟨t.parser, .first hState, hBlank.errno, by rw [hMessage], .refl t.parser⟩
  have hAfter := hHead.leads_after (by rw [hBlank.flags]) (by rw [hBlank.flags]) h.linesBefore r.body
  rw [hMessage] at hAfter
  refine hAfter.mono fun u hu => ⟨?_, hu.2.1, hu.2.2.2⟩
  rw [hu.1]
  rfl

end Request.Separated

theorem Request.readsBack_of_separated {r : Request} {serverUrl serverPort : Bytes} (h : r.Separated serverUrl) :
    r.ReadsBack serverUrl serverPort := by
  intro major₀ minor₀ hGood
  obtain ⟨t, ⟨hFields, hUrl, hBody⟩, -, hShows, hShown⟩ := (holds_httpRequestParser major₀ minor₀).parse_leads
    (shadowed_fresh .httpRequest) MessageParser.fresh_not_lost (r.toBytes_ne_nil serverUrl serverPort)
    (h.leads serverPort) hGood
  rw [requestMessages_parse] at hShows hShown
  generalize (httpRequestParser major₀ minor₀).parse (r.toBytes serverUrl serverPort) = result at hShows hShown ⊢
  have hSame : result.2.mReq.headers =
      (r.linesBefore serverUrl).map Header.trimmed ++ [contentLengthHeader r.body.length] := hShown.trans hFields
  refine ⟨hShows.uri.trans hUrl, hShows.body.trans hBody, ?_⟩
  rw [hSame, r.sentHeaders_eq, List.map_append, List.map_append, trimmed_map]

theorem separated_readsBack :
    (∀ (r : Reply) (s : StatusType), r.statusCode = s.code → (∀ h ∈ r.headers, h.Separated) → r.ReadsBack) ∧
      ∀ (r : Request) (serverUrl serverPort : Bytes), r.Separated serverUrl → r.ReadsBack serverUrl serverPort :=
  ⟨fun _ _ hStatus hHeaders => Reply.readsBack_of_separated hStatus hHeaders,
    fun _ _ _ h => Request.readsBack_of_separated h⟩

def blankReply : Reply := ⟨200, [⟨ascii "X-Note", ascii "  Content-Length: 3"⟩], ascii "body"⟩

theorem separated_readsBack_blanks :
    (((httpReplyParser 0).parse blankReply.toBytes).2.mReply.content = ascii "body" ∧
        ((httpReplyParser 0).parse blankReply.toBytes).2.mReply.headers.map Header.trimmed =
          [⟨ascii "X-Note", ascii "Content-Length: 3"⟩, ⟨ascii "Content-Length", ascii "4"⟩]) ∧
      ((httpRequestParser 0 0).parse (putRequest.toBytes (ascii "localhost") (ascii "80"))).2.mReq.uri =
        ascii "/a?b#c" := by
  have hSeparated : ∀ h ∈ blankReply.headers, h.Separated := by
    intro h hh
    obtain rfl : h = ⟨ascii "X-Note", ascii "  Content-Length: 3"⟩ := by simpa [blankReply] using hh
    exact ⟨by decide +kernel, by decide +kernel⟩
  have hReply := separated_readsBack.1 blankReply .ok rfl hSeparated 0 (by decide +kernel)
  have hHeaders : ∀ h ∈ putRequest.headers, h.Separated := by
    intro h hh
    have hh' : h = ⟨ascii "X-Empty", []⟩ ∨ h = ⟨ascii "Accept", ascii "text, */*"⟩ := by simpa [putRequest] using hh
    rcases hh' with rfl | rfl
    · exact ⟨by decide +kernel, by simp⟩
    · exact ⟨by decide +kernel, by decide +kernel⟩
  have hRequest := separated_readsBack.2 putRequest (ascii "localhost") (ascii "80")
    ⟨by decide +kernel, ⟨by decide +kernel, ⟨'/', by decide +kernel⟩, by decide +kernel⟩, hHeaders, by decide +kernel⟩
    0 0 (by decide +kernel)
  refine ⟨⟨hReply.2.1, ?_⟩, hRequest.1⟩
  rw [hReply.2.2]
  decide +kernel

end HttpUtils
