import HttpUtils.HttpParser.State

/-!
# The cases of `http_parser_execute` that look at one byte

A case of the big `switch` reads the parser and the byte at `p`. It leaves a new parser,
the macros it ran on the marks and callbacks, in their order, and how it left the
loop body. `UPDATE_STATE(s); REEXECUTE()` is the call of the case of `s`, so
each case stands after the ones it can re-execute.
-/

namespace HttpUtils
set_option autoImplicit false

/-- `MARK`, `CALLBACK_DATA`, `CALLBACK_NOTIFY`, and the two statements of the body states:
`p += n` and the data callback whose run includes the byte at `p`. -/
inductive Act where
  | mark (k : DataCb)
  | data (k : DataCb)
  | notify (k : NotifyCb)
  | advance (n : Nat)
  | dataThrough (k : DataCb)
  deriving DecidableEq, Repr

/-- `break` out of the switch, `goto error`, or `RETURN((p - data) + 1)`. -/
inductive Flow where
  | next | error | ret
  deriving DecidableEq, Repr

structure Outcome where
  parser : HttpParser
  acts : List Act
  flow : Flow
  deriving DecidableEq, Repr

def next (P : HttpParser) (acts : List Act := []) : Outcome := ⟨P, acts, .next⟩

/-- `SET_ERRNO(e); goto error`. -/
def fail (P : HttpParser) (e : HttpErrno) : Outcome := ⟨{ P with httpErrno := e }, [], .error⟩

theorem fail_flow (P : HttpParser) (e : HttpErrno) : (fail P e).flow ≠ .next := by simp [fail]

/-- The case re-executed after `acts`. -/
def Outcome.after (acts : List Act) (o : Outcome) : Outcome := { o with acts := acts ++ o.acts }

/-- A `STRICT_CHECK(ch != expected)` followed by a change of state. -/
def expect (P : HttpParser) (ch expected : UInt8) (s : State) : Outcome :=
  if ch ≠ expected then fail P .strict else next { P with state := s }

def messageDoneCase (P : HttpParser) : Outcome :=
  ⟨{ P with state := newMessage P }, [.notify .messageComplete], if P.upgrade then .ret else .next⟩

def hasBody (P : HttpParser) : Bool :=
  P.flags.fChunked || (0 < P.contentLength && P.contentLength != ullongMax)

def headersDoneCase (P : HttpParser) (ch : UInt8) : Outcome :=
  if ch ≠ LF then fail P .strict else
  let P := { P with nread := 0 }
  let complete := [Act.notify .messageComplete]
  if P.upgrade && (P.method == .connect || P.flags.fSkipbody || !hasBody P) then
    ⟨{ P with state := newMessage P }, complete, .ret⟩
  else if P.flags.fSkipbody then next { P with state := newMessage P } complete
  else if P.flags.fChunked then next { P with state := .sChunkSizeStart }
  else if P.contentLength = 0 then next { P with state := newMessage P } complete
  else if P.contentLength ≠ ullongMax then next { P with state := .sBodyIdentity }
  else if !httpMessageNeedsEof P then next { P with state := newMessage P } complete
  else next { P with state := .sBodyIdentityEof }

def headersAlmostDoneCase (P : HttpParser) (ch : UInt8) : Outcome :=
  if ch ≠ LF then fail P .strict
  else if P.flags.fTrailing then
    (messageDoneCase { P with state := .sMessageDone }).after [.notify .chunkComplete]
  else if P.flags.fChunked && P.flags.fContentlength then fail P .unexpectedContentLength
  else
    let upgrade := (P.flags.fUpgrade && P.flags.fConnectionUpgrade) || P.method == .connect
    (headersDoneCase { P with state := .sHeadersDone, upgrade } ch).after [.notify .headersComplete]

/-- The header state that the first byte of a name starts to match. -/
def headerFieldStartState (c : UInt8) : HeaderStates :=
  if c = 'c' then .hC
  else if c = 'p' then .hMatchingProxyConnection
  else if c = 't' then .hMatchingTransferEncoding
  else if c = 'u' then .hMatchingUpgrade
  else .hGeneral

def headerFieldStartCase (P : HttpParser) (ch : UInt8) : Outcome :=
  if ch = CR then next { P with state := .sHeadersAlmostDone }
  else if ch = LF then headersAlmostDoneCase { P with state := .sHeadersAlmostDone } ch
  else if token ch = 0 then fail P .invalidHeaderToken
  else
    next { P with index := 0, state := .sHeaderField, headerState := headerFieldStartState (token ch) }
      [.mark .headerField]

def headerValueStartCase (P : HttpParser) (ch : UInt8) : Outcome :=
  let P := { P with state := .sHeaderValue, index := 0 }
  let c := lower ch
  match P.headerState with
  | .hUpgrade =>
    next { P with flags := { P.flags with fUpgrade := true }, headerState := .hGeneral }
      [.mark .headerValue]
  | .hTransferEncoding =>
    next { P with headerState := if c = 'c' then .hMatchingTransferEncodingChunked else .hGeneral }
      [.mark .headerValue]
  | .hContentLength =>
    if !isNum ch then fail P .invalidContentLength
    else next { P with contentLength := (ch - '0').toNat } [.mark .headerValue]
  | .hConnection =>
    let h : HeaderStates :=
      if c = 'k' then .hMatchingConnectionKeepAlive
      else if c = 'c' then .hMatchingConnectionClose
      else if c = 'u' then .hMatchingConnectionUpgrade
      else .hMatchingConnectionToken
    next { P with headerState := h } [.mark .headerValue]
  | .hMatchingConnectionTokenStart => next P [.mark .headerValue]
  | _ => next { P with headerState := .hGeneral } [.mark .headerValue]

/-- The flags set when a header line is finished in state `h`. -/
def finishHeaderFlags (h : HeaderStates) (F : Flags) : Flags :=
  match h with
  | .hConnectionKeepAlive => { F with fConnectionKeepAlive := true }
  | .hConnectionClose => { F with fConnectionClose := true }
  | .hTransferEncodingChunked => { F with fChunked := true }
  | .hConnectionUpgrade => { F with fConnectionUpgrade := true }
  | _ => F

def headerValueLwsCase (P : HttpParser) (ch : UInt8) : Outcome :=
  if ch = SP ∨ ch = HT then headerValueStartCase { P with state := .sHeaderValueStart } ch
  else
    headerFieldStartCase
      { P with flags := finishHeaderFlags P.headerState P.flags, state := .sHeaderFieldStart } ch

def headerAlmostDoneCase (P : HttpParser) (ch : UInt8) : Outcome :=
  if ch ≠ LF then fail P .lfExpected else next { P with state := .sHeaderValueLws }

def headerValueDiscardLwsCase (P : HttpParser) (ch : UInt8) : Outcome :=
  if ch = SP ∨ ch = HT then next { P with state := .sHeaderValueDiscardWs }
  else
    (headerFieldStartCase
      { P with flags := finishHeaderFlags P.headerState P.flags, state := .sHeaderFieldStart } ch).after
      [.mark .headerValue, .data .headerValue]

def headerValueDiscardWsCase (P : HttpParser) (ch : UInt8) : Outcome :=
  if ch = SP ∨ ch = HT then next P
  else if ch = CR then next { P with state := .sHeaderValueDiscardWsAlmostDone }
  else if ch = LF then next { P with state := .sHeaderValueDiscardLws }
  else headerValueStartCase P ch

/-! ### The request line -/

def startMethod (ch : UInt8) : Option HttpMethod :=
  [(('A' : UInt8), HttpMethod.acl), ('B', .bind), ('C', .connect), ('D', .delete), ('G', .get),
    ('H', .head), ('L', .lock), ('M', .mkcol), ('N', .notify), ('O', .options), ('P', .post),
    ('R', .report), ('S', .subscribe), ('T', .trace), ('U', .unlock)].lookup ch

def startReqCase (P : HttpParser) (ch : UInt8) : Outcome :=
  if ch = CR ∨ ch = LF then next P
  else
    let P := { P with flags := {}, contentLength := ullongMax }
    if !isAlpha ch then fail P .invalidMethod
    else
      match startMethod ch with
      | some m =>
        next { P with method := m, index := 1, state := .sReqMethod } [.notify .messageBegin]
      | none => fail { P with method := .delete, index := 1 } .invalidMethod

/-- The rows `XX(meth, pos, ch, new_meth)` of `s_req_method`. -/
def methodSwitch (m : HttpMethod) (pos : Nat) (ch : UInt8) : Option HttpMethod :=
  [((HttpMethod.post, 1, ('U' : UInt8)), HttpMethod.put), ((.post, 1, 'A'), .patch),
    ((.connect, 1, 'H'), .checkout), ((.connect, 2, 'P'), .copy),
    ((.mkcol, 1, 'O'), .move), ((.mkcol, 1, 'E'), .merge),
    ((.mkcol, 2, 'A'), .mkactivity), ((.mkcol, 3, 'A'), .mkcalendar),
    ((.subscribe, 1, 'E'), .search), ((.report, 2, 'B'), .rebind),
    ((.post, 1, 'R'), .propfind), ((.propfind, 4, 'P'), .proppatch),
    ((.put, 2, 'R'), .purge), ((.lock, 1, 'I'), .link),
    ((.unlock, 2, 'S'), .unsubscribe), ((.unlock, 2, 'B'), .unbind),
    ((.unlock, 3, 'I'), .unlink)].lookup (m, pos, ch)

def reqMethodCase (P : HttpParser) (ch : UInt8) : Outcome :=
  if ch = 0 then fail P .invalidMethod
  else
    -- `matcher[index]`, the terminating zero included
    let c := (methodStrings P.method).getD P.index 0
    let Q := { P with index := P.index + 1 }
    if ch = SP ∧ c = 0 then next { Q with state := .sReqSpacesBeforeUrl }
    else if ch = c then next Q
    else if isAlpha ch then
      match methodSwitch P.method P.index ch with
      | some m => next { Q with method := m }
      | none => fail P .invalidMethod
    else if ch = '-' ∧ P.index = 1 ∧ P.method = .mkcol then next { Q with method := .msearch }
    else fail P .invalidMethod

def parseUrlServer (ch : UInt8) : State :=
  if ch = '/' then .sReqPath
  else if ch = '?' then .sReqQueryStringStart
  else if ch = '@' then .sReqServerWithAt
  else if isUserinfoChar ch || ch == '[' || ch == ']' then .sReqServer
  else .sDead

def parseUrlChar (s : State) (ch : UInt8) : State :=
  if ch = SP ∨ ch = CR ∨ ch = LF ∨ ch = HT ∨ ch = 12 then .sDead
  else
    match s with
    | .sReqSpacesBeforeUrl =>
      if ch = '/' ∨ ch = '*' then .sReqPath
      else if isAlpha ch then .sReqSchema
      else .sDead
    | .sReqSchema =>
      if isAlpha ch then s
      else if ch = ':' then .sReqSchemaSlash
      else .sDead
    | .sReqSchemaSlash => if ch = '/' then .sReqSchemaSlashSlash else .sDead
    | .sReqSchemaSlashSlash => if ch = '/' then .sReqServerStart else .sDead
    | .sReqServerWithAt => if ch = '@' then .sDead else parseUrlServer ch
    | .sReqServerStart | .sReqServer => parseUrlServer ch
    | .sReqPath =>
      if isUrlChar ch then s
      else if ch = '?' then .sReqQueryStringStart
      else if ch = '#' then .sReqFragmentStart
      else .sDead
    | .sReqQueryStringStart | .sReqQueryString =>
      if isUrlChar ch then .sReqQueryString
      else if ch = '?' then .sReqQueryString
      else if ch = '#' then .sReqFragmentStart
      else .sDead
    | .sReqFragmentStart =>
      if isUrlChar ch then .sReqFragment
      else if ch = '?' then .sReqFragment
      else if ch = '#' then s
      else .sDead
    | .sReqFragment =>
      if isUrlChar ch then s
      else if ch = '?' ∨ ch = '#' then s
      else .sDead
    | _ => .sDead

/-- `UPDATE_STATE(parse_url_char(CURRENT_STATE(), ch))` and the test for `s_dead`. -/
def urlStep (P : HttpParser) (ch : UInt8) (acts : List Act) : Outcome :=
  let s := parseUrlChar P.state ch
  if s = .sDead then ⟨{ P with state := .sDead, httpErrno := .invalidUrl }, acts, .error⟩
  else next { P with state := s } acts

def reqSpacesBeforeUrlCase (P : HttpParser) (ch : UInt8) : Outcome :=
  if ch = SP then next P
  else if P.method = .connect then urlStep { P with state := .sReqServerStart } ch [.mark .url]
  else urlStep P ch [.mark .url]

def reqSchemaCase (P : HttpParser) (ch : UInt8) : Outcome :=
  if ch = SP ∨ ch = CR ∨ ch = LF then fail P .invalidUrl else urlStep P ch []

def reqUrlCase (P : HttpParser) (ch : UInt8) : Outcome :=
  if ch = SP then next { P with state := .sReqHttpStart } [.data .url]
  else if ch = CR then
    next { P with httpMajor := 0, httpMinor := 9, state := .sReqLineAlmostDone } [.data .url]
  else if ch = LF then
    next { P with httpMajor := 0, httpMinor := 9, state := .sHeaderFieldStart } [.data .url]
  else urlStep P ch []

/-! ### Digits of a number kept below 1000 -/

def majorDigit (P : HttpParser) (ch : UInt8) : Outcome :=
  if !isNum ch then fail P .invalidVersion
  else
    let P := { P with httpMajor := P.httpMajor * 10 + (ch - '0').toNat }
    if P.httpMajor > 999 then fail P .invalidVersion else next P

def minorDigit (P : HttpParser) (ch : UInt8) : Outcome :=
  if !isNum ch then fail P .invalidVersion
  else
    let P := { P with httpMinor := P.httpMinor * 10 + (ch - '0').toNat }
    if P.httpMinor > 999 then fail P .invalidVersion else next P

def firstMinorDigit (P : HttpParser) (ch : UInt8) (s : State) : Outcome :=
  if !isNum ch then fail P .invalidVersion
  else next { P with httpMinor := (ch - '0').toNat, state := s }

def resStatusCodeCase (P : HttpParser) (ch : UInt8) : Outcome :=
  if !isNum ch then
    if ch = SP then next { P with state := .sResStatusStart }
    else if ch = CR then next { P with state := .sResLineAlmostDone }
    else if ch = LF then next { P with state := .sHeaderFieldStart }
    else fail P .invalidStatus
  else
    let P := { P with statusCode := P.statusCode * 10 + (ch - '0').toNat }
    if P.statusCode > 999 then fail P .invalidStatus else next P

def startResCase (P : HttpParser) (ch : UInt8) : Outcome :=
  let P := { P with flags := {}, contentLength := ullongMax }
  if ch = 'H' then next { P with state := .sResH } [.notify .messageBegin]
  else if ch = CR ∨ ch = LF then next P [.notify .messageBegin]
  else fail P .invalidConstant

/-! ### Chunks -/

def chunkSizeStartCase (P : HttpParser) (ch : UInt8) : Outcome :=
  match unhex ch with
  | none => fail P .invalidChunkSize
  | some v => next { P with contentLength := v, state := .sChunkSize }

def chunkSizeCase (P : HttpParser) (ch : UInt8) : Outcome :=
  if ch = CR then next { P with state := .sChunkSizeAlmostDone }
  else
    match unhex ch with
    | none =>
      if ch = ';' ∨ ch = SP then next { P with state := .sChunkParameters }
      else fail P .invalidChunkSize
    | some v =>
      if (ullongMax - 16) / 16 < P.contentLength then fail P .invalidContentLength
      else next { P with contentLength := P.contentLength * 16 + v }

def chunkSizeAlmostDoneCase (P : HttpParser) (ch : UInt8) : Outcome :=
  if ch ≠ LF then fail P .strict
  else
    let P := { P with nread := 0 }
    if P.contentLength = 0 then
      next { P with flags := { P.flags with fTrailing := true }, state := .sHeaderFieldStart }
        [.notify .chunkHeader]
    else next { P with state := .sChunkData } [.notify .chunkHeader]

/-! ### Body states; `remaining` is `(data + len) - p` -/

def bodyIdentityCase (P : HttpParser) (remaining : Nat) : Outcome :=
  let toRead := min P.contentLength remaining
  let P := { P with contentLength := P.contentLength - toRead }
  if P.contentLength = 0 then
    (messageDoneCase { P with state := .sMessageDone }).after
      [.mark .body, .advance (toRead - 1), .dataThrough .body]
  else next P [.mark .body, .advance (toRead - 1)]

def chunkDataCase (P : HttpParser) (remaining : Nat) : Outcome :=
  let toRead := min P.contentLength remaining
  let P := { P with contentLength := P.contentLength - toRead }
  next (if P.contentLength = 0 then { P with state := .sChunkDataAlmostDone } else P)
    [.mark .body, .advance (toRead - 1)]

def bodyIdentityEofCase (P : HttpParser) (remaining : Nat) : Outcome :=
  next P [.mark .body, .advance (remaining - 1)]

/-- `switch (CURRENT_STATE())`. The cases `s_header_field` and `s_header_value`, which loop over
many bytes, are in `Execute.lean`; they are never re-executed. -/
def switch (P : HttpParser) (ch : UInt8) (remaining : Nat) : Outcome :=
  match P.state with
  | .sDead => if ch = CR ∨ ch = LF then next P else fail P .closedConnection
  | .sStartRes => startResCase P ch
  | .sResH => expect P ch 'T' .sResHT
  | .sResHT => expect P ch 'T' .sResHTT
  | .sResHTT => expect P ch 'P' .sResHTTP
  | .sResHTTP => expect P ch '/' .sResFirstHttpMajor
  | .sResFirstHttpMajor =>
    if ch < '0' ∨ ch > '9' then fail P .invalidVersion
    else next { P with httpMajor := (ch - '0').toNat, state := .sResHttpMajor }
  | .sResHttpMajor =>
    if ch = '.' then next { P with state := .sResFirstHttpMinor } else majorDigit P ch
  | .sResFirstHttpMinor => firstMinorDigit P ch .sResHttpMinor
  | .sResHttpMinor =>
    if ch = SP then next { P with state := .sResFirstStatusCode } else minorDigit P ch
  | .sResFirstStatusCode =>
    if !isNum ch then if ch = SP then next P else fail P .invalidStatus
    else next { P with statusCode := (ch - '0').toNat, state := .sResStatusCode }
  | .sResStatusCode => resStatusCodeCase P ch
  | .sResStatusStart =>
    if ch = CR then next { P with state := .sResLineAlmostDone }
    else if ch = LF then next { P with state := .sHeaderFieldStart }
    else next { P with state := .sResStatus, index := 0 } [.mark .status]
  | .sResStatus =>
    if ch = CR then next { P with state := .sResLineAlmostDone } [.data .status]
    else if ch = LF then next { P with state := .sHeaderFieldStart } [.data .status]
    else next P
  | .sResLineAlmostDone => expect P ch LF .sHeaderFieldStart
  | .sStartReq => startReqCase P ch
  | .sReqMethod => reqMethodCase P ch
  | .sReqSpacesBeforeUrl => reqSpacesBeforeUrlCase P ch
  | .sReqSchema | .sReqSchemaSlash | .sReqSchemaSlashSlash | .sReqServerStart => reqSchemaCase P ch
  | .sReqServer | .sReqServerWithAt | .sReqPath | .sReqQueryStringStart | .sReqQueryString
  | .sReqFragmentStart | .sReqFragment => reqUrlCase P ch
  | .sReqHttpStart =>
    if ch = 'H' then next { P with state := .sReqHttpH }
    else if ch = SP then next P
    else fail P .invalidConstant
  | .sReqHttpH => expect P ch 'T' .sReqHttpHT
  | .sReqHttpHT => expect P ch 'T' .sReqHttpHTT
  | .sReqHttpHTT => expect P ch 'P' .sReqHttpHTTP
  | .sReqHttpHTTP => expect P ch '/' .sReqFirstHttpMajor
  | .sReqFirstHttpMajor =>
    if ch < '1' ∨ ch > '9' then fail P .invalidVersion
    else next { P with httpMajor := (ch - '0').toNat, state := .sReqHttpMajor }
  | .sReqHttpMajor =>
    if ch = '.' then next { P with state := .sReqFirstHttpMinor } else majorDigit P ch
  | .sReqFirstHttpMinor => firstMinorDigit P ch .sReqHttpMinor
  | .sReqHttpMinor =>
    if ch = CR then next { P with state := .sReqLineAlmostDone }
    else if ch = LF then next { P with state := .sHeaderFieldStart }
    else minorDigit P ch
  | .sReqLineAlmostDone =>
    if ch ≠ LF then fail P .lfExpected else next { P with state := .sHeaderFieldStart }
  | .sHeaderFieldStart => headerFieldStartCase P ch
  | .sHeaderField | .sHeaderValue => next P
  | .sHeaderValueDiscardWs => headerValueDiscardWsCase P ch
  | .sHeaderValueDiscardWsAlmostDone => expect P ch LF .sHeaderValueDiscardLws
  | .sHeaderValueDiscardLws => headerValueDiscardLwsCase P ch
  | .sHeaderValueStart => headerValueStartCase P ch
  | .sHeaderValueLws => headerValueLwsCase P ch
  | .sHeaderAlmostDone => headerAlmostDoneCase P ch
  | .sHeadersAlmostDone => headersAlmostDoneCase P ch
  | .sHeadersDone => headersDoneCase P ch
  | .sChunkSizeStart => chunkSizeStartCase P ch
  | .sChunkSize => chunkSizeCase P ch
  | .sChunkParameters => if ch = CR then next { P with state := .sChunkSizeAlmostDone } else next P
  | .sChunkSizeAlmostDone => chunkSizeAlmostDoneCase P ch
  | .sChunkData => chunkDataCase P remaining
  | .sChunkDataAlmostDone =>
    if ch ≠ CR then fail P .strict else next { P with state := .sChunkDataDone } [.data .body]
  | .sChunkDataDone =>
    if ch ≠ LF then fail P .strict
    else next { P with nread := 0, state := .sChunkSizeStart } [.notify .chunkComplete]
  | .sBodyIdentity => bodyIdentityCase P remaining
  | .sBodyIdentityEof => bodyIdentityEofCase P remaining
  | .sMessageDone => messageDoneCase P

end HttpUtils
