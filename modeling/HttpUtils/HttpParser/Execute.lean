import HttpUtils.HttpParser.Switch

/-!
# `http_parser_execute`

The body of the function over the whole buffer: the outer `for` loop, the loops inside
`s_header_field` and `s_header_value` with their `memchr` jump, and the callbacks for the marks
left at the end of the buffer. Pointers are positions in `data`.
-/

namespace HttpUtils
set_option autoImplicit false

/-- `parser->nread += v`, and whether the result is over the limit. -/
def addNread (P : HttpParser) (v : Nat) : HttpParser := { P with nread := (P.nread + v) % 2 ^ 32 }

def overflows (P : HttpParser) : Bool := httpMaxHeaderSize < P.nread

def setErrno (P : HttpParser) (e : HttpErrno) : HttpParser := { P with httpErrno := e }

/-! ### One byte of a header name -/

def matchKeyword (keyword : Bytes) (P : HttpParser) (c : UInt8) (done : HttpParser → HttpParser) :
    HttpParser :=
  let P := { P with index := P.index + 1 }
  if P.index > keyword.length ∨ c ≠ keyword.getD P.index 0 then { P with headerState := .hGeneral }
  else if P.index = keyword.length - 1 then done P
  else P

/-- The body of the loop of `s_header_field` for a token byte `ch` of lower case `c`. -/
def headerFieldChar (P : HttpParser) (ch c : UInt8) : HttpParser :=
  let reach (h : HeaderStates) (P : HttpParser) : HttpParser := { P with headerState := h }
  match P.headerState with
  | .hGeneral => P
  | .hC => { P with index := P.index + 1, headerState := if c = 'o' then .hCO else .hGeneral }
  | .hCO => { P with index := P.index + 1, headerState := if c = 'n' then .hCON else .hGeneral }
  | .hCON =>
    { P with
      index := P.index + 1
      headerState :=
        if c = 'n' then .hMatchingConnection
        else if c = 't' then .hMatchingContentLength
        else .hGeneral }
  | .hMatchingConnection => matchKeyword (ascii "connection") P c (reach .hConnection)
  | .hMatchingProxyConnection => matchKeyword (ascii "proxy-connection") P c (reach .hConnection)
  | .hMatchingContentLength =>
    matchKeyword (ascii "content-length") P c fun P =>
      if P.flags.fContentlength then setErrno P .unexpectedContentLength
      else { P with headerState := .hContentLength, flags := { P.flags with fContentlength := true } }
  | .hMatchingTransferEncoding =>
    matchKeyword (ascii "transfer-encoding") P c (reach .hTransferEncoding)
  | .hMatchingUpgrade => matchKeyword (ascii "upgrade") P c (reach .hUpgrade)
  | .hConnection | .hContentLength | .hTransferEncoding | .hUpgrade =>
    if ch ≠ SP then { P with headerState := .hGeneral } else P
  | _ => P -- the other states are those of a value

/-! ### One byte of a header value -/

def matchValue (keyword : Bytes) (P : HttpParser) (c : UInt8) (h done miss : HeaderStates) :
    HttpParser × HeaderStates :=
  let P := { P with index := P.index + 1 }
  if P.index > keyword.length ∨ c ≠ keyword.getD P.index 0 then (P, miss)
  else if P.index = keyword.length - 1 then (P, done)
  else (P, h)

/-- The body of the loop of `s_header_value` after the tests for CR, LF and `IS_HEADER_CHAR`, for
every local `h_state` but `h_general`. -/
def headerValueChar (P : HttpParser) (h : HeaderStates) (ch : UInt8) : HttpParser × HeaderStates :=
  let c := lower ch
  match h with
  | .hContentLength =>
    if ch = SP then (P, h)
    else if !isNum ch ∨ (ullongMax - 10) / 10 < P.contentLength then
      ({ setErrno P .invalidContentLength with headerState := h }, h)
    else ({ P with contentLength := P.contentLength * 10 + (ch - '0').toNat }, h)
  | .hMatchingTransferEncodingChunked =>
    matchValue (ascii "chunked") P c h .hTransferEncodingChunked .hGeneral
  | .hMatchingConnectionTokenStart =>
    (P,
      if c = 'k' then .hMatchingConnectionKeepAlive
      else if c = 'c' then .hMatchingConnectionClose
      else if c = 'u' then .hMatchingConnectionUpgrade
      else if token c ≠ 0 then .hMatchingConnectionToken
      else if c = SP ∨ c = HT then h
      else .hGeneral)
  | .hMatchingConnectionKeepAlive =>
    matchValue (ascii "keep-alive") P c h .hConnectionKeepAlive .hMatchingConnectionToken
  | .hMatchingConnectionClose =>
    matchValue (ascii "close") P c h .hConnectionClose .hMatchingConnectionToken
  | .hMatchingConnectionUpgrade =>
    matchValue (ascii "upgrade") P c h .hConnectionUpgrade .hMatchingConnectionToken
  | .hMatchingConnectionToken =>
    if ch = ',' then ({ P with index := 0 }, .hMatchingConnectionTokenStart) else (P, h)
  | .hTransferEncodingChunked => (P, if ch ≠ SP then .hGeneral else h)
  | .hConnectionKeepAlive | .hConnectionClose | .hConnectionUpgrade =>
    if ch = ',' then
      ({ P with flags := finishHeaderFlags h P.flags, index := 0 }, .hMatchingConnectionTokenStart)
    else (P, if ch ≠ SP then .hMatchingConnectionToken else h)
  | .hConnection | .hTransferEncoding => (P, h) -- `assert(0 && "Shouldn't get here.")`
  | _ => (P, .hGeneral)

/-! ### The loop over a header name -/

/-- How a loop inside a case ends: at a byte it does not consume, at the end of the buffer,
or by `goto error`. -/
inductive LoopExit where
  | stop (ch : UInt8)
  | eob
  | error
  deriving DecidableEq, Repr

def headerFieldLoop : Bytes → HttpParser → HttpParser × Nat × LoopExit
  | [], P => (P, 0, .eob)
  | ch :: s, P =>
    if token ch = 0 then (P, 0, .stop ch)
    else
      let P := headerFieldChar P ch (token ch)
      if P.httpErrno ≠ .ok then (P, 0, .error)
      else
        let (P, n, exit) := headerFieldLoop s P
        (P, n + 1, exit)

/-! ### The loop over a header value -/

def memchr (s : Bytes) (c : UInt8) (limit : Nat) : Option Nat := (s.take limit).idxOf? c

/-- Where the jump of `h_general` leaves `p`, before the `--p` that the loop's `p++` undoes. -/
def jumpTarget (s : Bytes) : Nat :=
  let limit := min s.length httpMaxHeaderSize
  match memchr s CR limit, memchr s LF limit with
  | some cr, some lf => if cr ≥ lf then lf else cr
  | some cr, none => cr
  | none, some lf => lf
  | none, none => s.length

/-- The loop from `p` on; the second argument counts the bytes that a jump has already passed. -/
def headerValueLoop : Bytes → Nat → HttpParser → HeaderStates → HttpParser × HeaderStates × Nat × LoopExit
  | [], _, P, h => (P, h, 0, .eob)
  | _ :: s, skip + 1, P, h =>
    let (P, h, n, exit) := headerValueLoop s skip P h
    (P, h, n + 1, exit)
  | ch :: s, 0, P, h =>
    if ch = CR ∨ ch = LF then (P, h, 0, .stop ch)
    else if !isHeaderChar ch then (setErrno P .invalidHeaderToken, h, 0, .error)
    else if h = .hGeneral then
      let (P, h, n, exit) := headerValueLoop s (jumpTarget (ch :: s) - 1) P h
      (P, h, n + 1, exit)
    else
      let (P, h) := headerValueChar P h ch
      if P.httpErrno ≠ .ok then (P, h, 0, .error)
      else
        let (P, h, n, exit) := headerValueLoop s 0 P h
        (P, h, n + 1, exit)

/-! ### The outer loop -/

/-- The locals of the function. A mark is the position it points to. -/
structure Exec where
  parser : HttpParser
  p : Nat
  marks : DataCb → Option Nat
  calls : List Callback

def Exec.callbackData (data : Bytes) (x : Exec) (k : DataCb) (stop : Nat) : Exec :=
  match x.marks k with
  | none => x
  | some m =>
    { x with
      marks := Function.update x.marks k none
      calls := x.calls ++ [k.call x.parser (data.extract m stop)] }

def Exec.act (data : Bytes) (x : Exec) : Act → Exec
  | .mark k => { x with marks := Function.update x.marks k (some ((x.marks k).getD x.p)) }
  | .data k => x.callbackData data k x.p
  | .dataThrough k => x.callbackData data k (x.p + 1)
  | .notify k => { x with calls := x.calls ++ [k.call x.parser] }
  | .advance n => { x with p := x.p + n }

def Exec.apply (data : Bytes) (x : Exec) (o : Outcome) : Exec × Flow :=
  (o.acts.foldl (Exec.act data) { x with parser := o.parser }, o.flow)

/-- `COUNT_HEADER_SIZE(v)`, then the statements after it. -/
def Exec.countHeaderSize (x : Exec) (v : Nat) (andThen : Exec → Exec × Flow) : Exec × Flow :=
  let P := addNread x.parser v
  if overflows P then ({ x with parser := setErrno P .headerOverflow }, .error)
  else andThen { x with parser := P }

def headerFieldCase (data : Bytes) (x : Exec) (s : Bytes) : Exec × Flow :=
  let (P, n, exit) := headerFieldLoop s x.parser
  let x := { x with parser := P, p := x.p + n }
  match exit with
  | .error => (x, .error)
  | .eob => x.countHeaderSize n fun x => ({ x with p := x.p - 1 }, .next)
  | .stop ch =>
    x.countHeaderSize n fun x =>
      if ch = ':' then
        x.apply data (next { x.parser with state := .sHeaderValueDiscardWs } [.data .headerField])
      else x.apply data (fail x.parser .invalidHeaderToken)

def headerValueCase (data : Bytes) (x : Exec) (s : Bytes) : Exec × Flow :=
  let (P, h, n, exit) := headerValueLoop s 0 x.parser x.parser.headerState
  let x := { x with parser := P, p := x.p + n }
  match exit with
  | .error => (x, .error)
  | .eob =>
    Exec.countHeaderSize { x with parser := { P with headerState := h } } n
      fun x => ({ x with p := x.p - 1 }, .next)
  | .stop ch =>
    let P := { P with state := .sHeaderAlmostDone }
    if ch = CR then
      (x.apply data (next { P with headerState := h } [.data .headerValue])).1.countHeaderSize n
        fun x => (x, .next)
    else
      Exec.countHeaderSize { x with parser := P } n fun x =>
        x.apply data
          ((headerAlmostDoneCase { x.parser with headerState := h } ch).after [.data .headerValue])

/-- `switch (CURRENT_STATE())` with the buffer from `p` on, whose first byte is `ch`. -/
def Exec.switch (data : Bytes) (x : Exec) (ch : UInt8) (s : Bytes) : Exec × Flow :=
  match x.parser.state with
  | .sHeaderField => headerFieldCase data x s
  | .sHeaderValue => headerValueCase data x s
  | _ => x.apply data (HttpUtils.switch x.parser ch s.length)

def loopBody (data : Bytes) (x : Exec) (ch : UInt8) (s : Bytes) : Exec × Flow :=
  if parsingHeader x.parser.state then x.countHeaderSize 1 fun x => x.switch data ch s
  else x.switch data ch s

/-- `for (p = data; p != data + len; p++)`. The second argument counts the bytes that the loop
body has already moved `p` over; the number returned is what a `return` inside the loop gives. -/
def forLoop (data : Bytes) : Bytes → Nat → Exec → Exec × Option Nat
  | [], _, x => (x, none)
  | _ :: s, skip + 1, x => forLoop data s skip x
  | ch :: s, 0, x =>
    let (y, flow) := loopBody data x ch (ch :: s)
    match flow with
    | .next => forLoop data s (y.p - x.p) { y with p := y.p + 1 }
    | .error => (y, some y.p)
    | .ret => (y, some (y.p + 1))

def openMark : State → Option DataCb
  | .sHeaderField => some .headerField
  | .sHeaderValue => some .headerValue
  | .sReqPath | .sReqSchema | .sReqSchemaSlash | .sReqSchemaSlashSlash
  | .sReqServerStart | .sReqServer | .sReqServerWithAt
  | .sReqQueryStringStart | .sReqQueryString | .sReqFragmentStart | .sReqFragment => some .url
  | .sResStatus => some .status
  | _ => none

/-- The order of the callbacks for the marks left at the end of the buffer. -/
def leftover : List Act :=
  [.data .headerField, .data .headerValue, .data .url, .data .body, .data .status]

/-- `RETURN`: from inside the loop, or with `len` after the leftover callbacks. The result is the
parser, the callbacks in their order, and the number of bytes parsed. -/
def Exec.finish (data : Bytes) : Exec × Option Nat → HttpParser × List Callback × Nat
  | (x, some nparsed) => (x.parser, x.calls, nparsed)
  | (x, none) =>
    let x := leftover.foldl (Exec.act data) x
    (x.parser, x.calls, data.length)

def Exec.start (P : HttpParser) : Exec :=
  ⟨P, 0, fun k => if openMark P.state = some k then some 0 else none, []⟩

def executeEof (P : HttpParser) : HttpParser × List Callback × Nat :=
  match P.state with
  | .sBodyIdentityEof => (P, [.onMessageComplete], 0)
  | .sDead | .sStartRes | .sStartReq => (P, [], 0)
  | _ => (setErrno P .invalidEofState, [], 1)

def httpParserExecute (P : HttpParser) (data : Bytes) : HttpParser × List Callback × Nat :=
  if P.httpErrno ≠ .ok then (P, [], 0)
  else if data = [] then executeEof P
  else Exec.finish data (forLoop data data 0 (.start P))

end HttpUtils
