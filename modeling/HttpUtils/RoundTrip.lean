import HttpUtils.ParseDivision
import HttpUtils.HttpParser.ContentLength

/-!
# Decoding what the encoders write

Both encoders write a start line, header lines that do not concern the framing, the length and the body. A reader
passes over all of it, so every division is decoded.
-/

namespace HttpUtils
set_option autoImplicit false

def afterStartLine (xs : List Header) (body : Bytes) : Bytes :=
  xs.flatMap headerLine ++ headerLine (contentLengthHeader body.length) ++ (crlf ++ body)

theorem length_afterStartLine (xs : List Header) (body : Bytes) :
    (afterStartLine xs body).length =
      (xs.flatMap headerLine ++ headerLine (contentLengthHeader body.length) ++ crlf).length + body.length := by
  rw [afterStartLine, ← List.append_assoc, List.length_append]

namespace Reader

theorem passes_afterStartLine {r : Reader} {xs : List Header} (body : Bytes)
    (hState : r.parser.state = .sHeaderFieldStart) (hStarted : Started r.parser) (hName : r.message.inName = false)
    (hComplete : r.message.complete = false) (hxs : ∀ x ∈ xs, x.Plain) (hMax : body.length ≤ stringMaxSize)
    (hFed : r.fed + (xs.flatMap headerLine ++ headerLine (contentLengthHeader body.length) ++ crlf).length ≤ room) :
    ∃ r', r.Passes (afterStartLine xs body) r' ∧ r'.parser.upgrade = false ∧
      r'.message = { (xs.foldl Message.addHeader r.message).addHeader (contentLengthHeader body.length) with
        version := some (r.parser.httpMajor, r.parser.httpMinor)
        body := ((xs.foldl Message.addHeader r.message).addHeader (contentLengthHeader body.length)).body ++ body
        complete := true } := by
  have hCrlf : crlf.length = 2 := rfl
  rw [List.length_append, List.length_append, hCrlf] at hFed
  have hOpen : LineOpen r.parser r.message :=
    ⟨hStarted.errno, hStarted.upgrade, by rw [hStarted.flags], hName, hComplete⟩
  obtain ⟨q, Q, hLines, hAt, hSame, hOpen'⟩ :=
    (AtLine.first hState hComplete hStarted.upgrade).headers hOpen hxs (by omega)
  obtain ⟨p, P, hLength, hAt', hSame'⟩ := hAt.contentLength hOpen' hMax (by rw [hLines.fed]; omega)
  have hFlags : Framed { withLength Q with contentLength := body.length } body.length :=
    ⟨rfl, fun hMethod => hStarted.method (hSame.method.symm.trans hMethod), hOpen'.upgrade,
      hSame.fChunked.trans (by rw [hStarted.flags]), hSame.fTrailing.trans (by rw [hStarted.flags]),
      hSame.fUpgrade.trans (by rw [hStarted.flags]), hSame.fSkipbody.trans (by rw [hStarted.flags])⟩
  obtain ⟨r', hBody, hUpgrade, hMessage⟩ := hAt'.finish (hFlags.same hSame') hMax hOpen'.complete
    (by rw [hLength.fed, hLines.fed]; omega)
  have hMajor : P.httpMajor = r.parser.httpMajor := hSame'.httpMajor.trans hSame.httpMajor
  have hMinor : P.httpMinor = r.parser.httpMinor := hSame'.httpMinor.trans hSame.httpMinor
  rw [hMajor, hMinor] at hMessage
  exact ⟨r', (hLines.trans hLength).trans hBody, hUpgrade, hMessage⟩

end Reader

theorem Message.foldl_addHeader (m : Message) (xs : List Header) :
    (xs.foldl addHeader m).headers = m.headers ++ xs ∧ (xs.foldl addHeader m).url = m.url ∧
      (xs.foldl addHeader m).status = m.status ∧ (xs.foldl addHeader m).body = m.body := by
  induction xs generalizing m with
  | nil => exact ⟨(List.append_nil _).symm, rfl, rfl, rfl⟩
  | cons x xs ih =>
    obtain ⟨hHeaders, hUrl, hStatus, hBody⟩ := ih (m.addHeader x)
    refine ⟨?_, hUrl, hStatus, hBody⟩
    rw [List.foldl_cons, hHeaders, headers_addHeader, List.append_assoc, List.singleton_append]

/-! ### Requests -/

/-- The requests that the parser reads back. -/
structure Request.Encodable (r : Request) (serverUrl serverPort : Bytes) : Prop where
  method : ∃ k : HttpMethod, k ≠ .connect ∧ r.method = methodStrings k
  uri : ∃ s, r.uri = ascii "/" ++ s ∧ ∀ c ∈ s, 33 ≤ c ∧ c ≤ 126
  major : 1 ≤ r.httpVersionMajor ∧ r.httpVersionMajor ≤ 999
  minor : 0 ≤ r.httpVersionMinor ∧ r.httpVersionMinor ≤ 999
  headers : ∀ h ∈ r.headers, h.Plain ∧ h.name.map asciiLower ≠ ascii "connection" ∧
    h.name.map asciiLower ≠ ascii "proxy-connection"
  host : PlainValue serverUrl
  body : r.body.length ≤ stringMaxSize
  head : (r.toBytes serverUrl serverPort).length ≤ 32 * 1024 + r.body.length

def Request.sentHeaders (r : Request) (serverUrl : Bytes) : List Header :=
  [⟨ascii "Host", serverUrl⟩, ⟨ascii "Accept", ascii "*/*"⟩] ++ r.headers ++
    [⟨ascii "Connection", ascii "close"⟩, contentLengthHeader r.body.length]

theorem plain_of_name {name value : Bytes} (hName : name ≠ [] ∧ (∀ c ∈ name, token c ≠ 0) ∧
    name.map asciiLower ≠ ascii "transfer-encoding" ∧ name.map asciiLower ≠ ascii "upgrade" ∧
    ¬ ascii "content-length" <+: name.map asciiLower) (hValue : PlainValue value) : Header.Plain ⟨name, value⟩ :=
  ⟨hName.1, hName.2.1, hName.2.2.1, hName.2.2.2.1, hName.2.2.2.2, hValue⟩

theorem Request.Encodable.passes {r : Request} {serverUrl serverPort : Bytes} (h : r.Encodable serverUrl serverPort) :
    ∃ r', (freshReader .httpRequest).Passes (r.toBytes serverUrl serverPort) r' ∧ r'.parser.upgrade = false ∧
      r'.message.complete = true ∧ r'.message.url = r.uri ∧ r'.message.body = r.body ∧
      r'.message.headers = r.sentHeaders serverUrl ∧
      ∃ v, r'.message.version = some v ∧ (v.1 : Int) = r.httpVersionMajor ∧ (v.2 : Int) = r.httpVersionMinor := by
  obtain ⟨k, hk, hMethod⟩ := h.method
  obtain ⟨s, hUri, hBytes⟩ := h.uri
  obtain ⟨major, hMajor⟩ := Int.eq_ofNat_of_zero_le (Int.le_trans (by decide) h.major.1)
  obtain ⟨minor, hMinor⟩ := Int.eq_ofNat_of_zero_le h.minor.1
  have hMajorLe := h.major
  have hMinorLe := h.minor
  rw [hMajor] at hMajorLe
  rw [hMinor] at hMinorLe
  let xs : List Header :=
    [⟨ascii "Host", serverUrl⟩, ⟨ascii "Accept", ascii "*/*"⟩] ++ r.headers ++ [⟨ascii "Connection", ascii "close"⟩]
  have hxs : ∀ x ∈ xs, x.Plain := by
    have hHost : Header.Plain ⟨ascii "Host", serverUrl⟩ := plain_of_name (by decide +kernel) h.host
    have hAccept : Header.Plain ⟨ascii "Accept", ascii "*/*"⟩ :=
      plain_of_name (by decide +kernel) ⟨by decide +kernel, by decide +kernel⟩
    have hConnection : Header.Plain ⟨ascii "Connection", ascii "close"⟩ :=
      plain_of_name (by decide +kernel) ⟨by decide +kernel, by decide +kernel⟩
    intro x hx
    simp only [xs, List.mem_append, List.mem_cons, List.not_mem_nil, or_false] at hx
    rcases hx with ((rfl | rfl) | hx) | rfl
    · exact hHost
    · exact hAccept
    · exact (h.headers x hx).1
    · exact hConnection
  let line := methodStrings k ++ ascii " /" ++ s ++ ascii " HTTP/" ++
    (decimal major ++ ascii "." ++ decimal minor ++ crlf)
  have hEncoded : r.toBytes serverUrl serverPort = line ++ afterStartLine xs r.body := by
    have hSlash : ascii " /" = ascii " " ++ ascii "/" := by decide +kernel
    simp only [Request.toBytes, hMethod, hUri, hMajor, hMinor, decimalInt, line, xs, afterStartLine, hSlash,
      contentLengthHeader, List.flatMap_append, List.flatMap_cons, List.flatMap_nil, List.append_assoc,
      List.append_nil]
  have hHead := h.head
  have hRoom : 32 * 1024 ≤ Reader.room := by decide
  rw [hEncoded, List.length_append, length_afterStartLine] at hHead
  obtain ⟨q, hLine, hState, hStarted, hqMajor, hqMinor, hMessage⟩ :=
    Reader.passes_requestLine hk (s := s)
      (fun c hc => by simpa [isTargetByte] using hBytes c hc) (by omega) (by omega)
      (show line.length ≤ _ by omega)
  have hqFed : q.fed = line.length := hLine.fed.trans (Nat.zero_add _)
  obtain ⟨r', hRest, hUpgrade, hEnd⟩ := Reader.passes_afterStartLine r.body hState hStarted
    (by rw [hMessage]) (by rw [hMessage]) hxs h.body (by rw [hqFed]; omega)
  obtain ⟨hHeaders, hUrl, -, hBody⟩ := Message.foldl_addHeader q.message xs
  refine ⟨r', hEncoded ▸ hLine.trans hRest, hUpgrade, by rw [hEnd], ?_, ?_, ?_, (major, minor), ?_, hMajor.symm,
    hMinor.symm⟩
  · rw [hEnd]
    exact hUrl.trans (by rw [hMessage, hUri])
  · rw [hEnd]
    show (xs.foldl Message.addHeader q.message).body ++ r.body = r.body
    rw [hBody, hMessage, List.nil_append]
  · rw [hEnd]
    show (xs.foldl Message.addHeader q.message).headers ++ [contentLengthHeader r.body.length] = _
    rw [hHeaders, hMessage]
    simp [Message.headers, xs, Request.sentHeaders]
  · rw [hEnd, hqMajor, hqMinor]

/-- Every division of an encoded request is good at its last buffer and gives the request back. -/
theorem request_decodes {r : Request} {serverUrl serverPort : Bytes} (h : r.Encodable serverUrl serverPort)
    (major₀ minor₀ : Int) {bs : List Bytes} (hNe : ∀ b ∈ bs, b ≠ [])
    (hDivision : bs.flatten = r.toBytes serverUrl serverPort) :
    ((httpRequestParser major₀ minor₀).parseAll bs).1 =
        List.replicate (bs.length - 1) .indeterminate ++ [.good] ∧
      (((httpRequestParser major₀ minor₀).parseAll bs).2.moveReq.1.uri = r.uri ∧
        ((httpRequestParser major₀ minor₀).parseAll bs).2.moveReq.1.httpVersionMajor = r.httpVersionMajor ∧
        ((httpRequestParser major₀ minor₀).parseAll bs).2.moveReq.1.httpVersionMinor = r.httpVersionMinor ∧
        ((httpRequestParser major₀ minor₀).parseAll bs).2.moveReq.1.body = r.body) ∧
      (bs.length = 1 → ((httpRequestParser major₀ minor₀).parseAll bs).2.moveReq.1.headers =
        r.sentHeaders serverUrl) := by
  obtain ⟨r', hPasses, hUpgrade, hComplete, hUrl, hBody, hHeaders, v, hVersion, hMajor, hMinor⟩ := h.passes
  have hFeeds := feeds_httpRequestParser major₀ minor₀
  have hBytes : r.toBytes serverUrl serverPort ≠ [] := by simp [Request.toBytes, crlf, ascii]
  have hSome : bs ≠ [] := by
    rintro rfl
    exact hBytes hDivision.symm
  rw [← requestMessages_parseAll]
  rw [← hDivision] at hPasses hBytes
  obtain ⟨t, hAll, hShows⟩ := hFeeds.parseAll_passes hNe hSome hPasses ⟨hComplete, hUpgrade⟩
  have hVersions := hShows.version v hVersion
  refine ⟨by rw [hAll], ?_, fun hOne => ?_⟩
  · rw [hAll]
    exact ⟨hShows.uri.trans hUrl, hVersions.1.trans hMajor, hVersions.2.trans hMinor, hShows.body.trans hBody⟩
  · obtain ⟨b, rfl⟩ := List.length_eq_one_iff.mp hOne
    rw [List.flatten_singleton] at hPasses hBytes
    obtain ⟨t', hParse, -, hHeaders'⟩ := hFeeds.parse_passes hBytes rfl hPasses
    simp only [MessageParser.parseAll, hParse]
    exact hHeaders'.trans hHeaders

def putRequest : Request :=
  ⟨ascii "PUT", ascii "/a?b#c", 1, 1, [⟨ascii "X-Empty", []⟩, ⟨ascii "Accept", ascii "text, */*"⟩], ascii "body"⟩

theorem putRequest_encodable : putRequest.Encodable (ascii "localhost") (ascii "80") where
  method := ⟨.put, by decide, rfl⟩
  uri := ⟨ascii "a?b#c", by decide +kernel, by decide +kernel⟩
  major := by decide
  minor := by decide
  headers x hx := by
    have hx' : x = ⟨ascii "X-Empty", []⟩ ∨ x = ⟨ascii "Accept", ascii "text, */*"⟩ := by
      simpa [putRequest] using hx
    rcases hx' with rfl | rfl
    · exact ⟨plain_of_name (by decide +kernel) ⟨by simp, by simp⟩, by decide +kernel, by decide +kernel⟩
    · exact ⟨plain_of_name (by decide +kernel) ⟨by decide +kernel, by decide +kernel⟩, by decide +kernel,
        by decide +kernel⟩
  host := ⟨by decide +kernel, by decide +kernel⟩
  body := by decide +kernel
  head := by decide +kernel

theorem putRequest_decodes :
    ((httpRequestParser 0 0).parseAll
        ((putRequest.toBytes (ascii "localhost") (ascii "80")).map fun c => [c])).2.moveReq.1.body = ascii "body" :=
  (request_decodes putRequest_encodable 0 0 (by simp) (by rw [← List.flatMap_def]; simp)).2.1.2.2.2

/-! ### Replies -/

/-- The replies that the parser reads back. -/
structure Reply.Encodable (r : Reply) : Prop where
  status : ∃ s : StatusType, r.statusCode = s.code
  headers : ∀ h ∈ r.headers, h.Plain
  content : r.content.length ≤ stringMaxSize
  head : r.toBytes.length ≤ 32 * 1024 + r.content.length

def Reply.sentHeaders (r : Reply) : List Header := r.headers ++ [contentLengthHeader r.content.length]

theorem Reply.Encodable.passes {r : Reply} (h : r.Encodable) :
    ∃ r', (freshReader .httpResponse).Passes r.toBytes r' ∧ r'.parser.upgrade = false ∧
      r'.message.complete = true ∧ r'.message.status = some r.statusCode ∧ r'.message.body = r.content ∧
      r'.message.headers = r.sentHeaders := by
  obtain ⟨s, hStatus⟩ := h.status
  have hEncoded : r.toBytes = statusString s ++ afterStartLine r.headers r.content := by
    rw [Reply.toBytes, hStatus, StatusType.ofCode_code, afterStartLine]
    simp only [headerLine, contentLengthHeader, List.append_assoc]
  have hHead := h.head
  have hRoom : 32 * 1024 ≤ Reader.room := by decide
  rw [hEncoded, List.length_append, length_afterStartLine] at hHead
  obtain ⟨q, hLine, hState, hStarted, hMessage⟩ := Reader.passes_statusLine s
  have hqFed : q.fed = (statusString s).length := hLine.fed.trans (Nat.zero_add _)
  obtain ⟨r', hRest, hUpgrade, hEnd⟩ := Reader.passes_afterStartLine r.content hState hStarted
    (by rw [hMessage]) (by rw [hMessage]) h.headers h.content (by rw [hqFed]; omega)
  obtain ⟨hHeaders, -, hCode, hBody⟩ := Message.foldl_addHeader q.message r.headers
  refine ⟨r', hEncoded ▸ hLine.trans hRest, hUpgrade, by rw [hEnd], ?_, ?_, ?_⟩
  · rw [hEnd]
    exact hCode.trans (by rw [hMessage, hStatus])
  · rw [hEnd]
    show (r.headers.foldl Message.addHeader q.message).body ++ r.content = r.content
    rw [hBody, hMessage, List.nil_append]
  · rw [hEnd]
    show (r.headers.foldl Message.addHeader q.message).headers ++ [contentLengthHeader r.content.length] = _
    rw [hHeaders, hMessage]
    rfl

/-- Every division of an encoded reply is good at its last buffer and gives the reply back. -/
theorem reply_decodes {r : Reply} (h : r.Encodable) (statusCode₀ : ℕ) {bs : List Bytes} (hNe : ∀ b ∈ bs, b ≠ [])
    (hDivision : bs.flatten = r.toBytes) :
    ((httpReplyParser statusCode₀).parseAll bs).1 = List.replicate (bs.length - 1) .indeterminate ++ [.good] ∧
      (((httpReplyParser statusCode₀).parseAll bs).2.mReply.statusCode = r.statusCode ∧
        ((httpReplyParser statusCode₀).parseAll bs).2.mReply.content = r.content) ∧
      (bs.length = 1 → ((httpReplyParser statusCode₀).parseAll bs).2.mReply.headers = r.sentHeaders) := by
  obtain ⟨r', hPasses, hUpgrade, hComplete, hStatus, hContent, hHeaders⟩ := h.passes
  have hFeeds := feeds_httpReplyParser statusCode₀
  have hBytes : r.toBytes ≠ [] := by simp [Reply.toBytes, crlf, ascii]
  have hSome : bs ≠ [] := by
    rintro rfl
    exact hBytes hDivision.symm
  rw [← replyMessages_parseAll]
  rw [← hDivision] at hPasses hBytes
  obtain ⟨t, hAll, hShows⟩ := hFeeds.parseAll_passes hNe hSome hPasses ⟨hComplete, hUpgrade⟩
  refine ⟨by rw [hAll], ?_, fun hOne => ?_⟩
  · rw [hAll]
    exact ⟨hShows.status _ hStatus, hShows.content.trans hContent⟩
  · obtain ⟨b, rfl⟩ := List.length_eq_one_iff.mp hOne
    rw [List.flatten_singleton] at hPasses hBytes
    obtain ⟨t', hParse, -, hHeaders'⟩ := hFeeds.parse_passes hBytes rfl hPasses
    simp only [MessageParser.parseAll, hParse]
    exact hHeaders'.trans hHeaders

def notModifiedReply : Reply :=
  ⟨304, [⟨ascii "Connection", ascii "upgrade, x"⟩], ascii "body"⟩

theorem notModifiedReply_encodable : notModifiedReply.Encodable where
  status := ⟨.notModified, rfl⟩
  headers x hx := by
    obtain rfl : x = ⟨ascii "Connection", ascii "upgrade, x"⟩ := by simpa [notModifiedReply] using hx
    exact plain_of_name (by decide +kernel) ⟨by decide +kernel, by decide +kernel⟩
  content := by decide +kernel
  head := by decide +kernel

theorem notModifiedReply_decodes :
    ((httpReplyParser 0).parseAll (notModifiedReply.toBytes.map fun c => [c])).2.mReply.content = ascii "body" :=
  (reply_decodes notModifiedReply_encodable 0 (by simp) (by rw [← List.flatMap_def]; simp)).2.1.2

end HttpUtils
