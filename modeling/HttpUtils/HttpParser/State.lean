import HttpUtils.HttpParser.Chars
import Mathlib.Algebra.Group.Nat.Defs

/-!
# The record `http_parser` and its enumerations

`HTTP_BOTH` and the two states only it reaches are left out: both parser
classes of the tree fix the message type when they are built.
-/

namespace HttpUtils
set_option autoImplicit false

inductive HttpMethod where
  | delete | get | head | post | put
  | connect | options | trace
  | copy | lock | mkcol | move | propfind | proppatch | search | unlock | bind | rebind | unbind | acl
  | report | mkactivity | checkout | merge
  | msearch | notify | subscribe | unsubscribe
  | patch | purge
  | mkcalendar
  | link | unlink
  deriving DecidableEq, Repr

def methodStrings : HttpMethod → Bytes
  | .delete => ascii "DELETE" | .get => ascii "GET" | .head => ascii "HEAD"
  | .post => ascii "POST" | .put => ascii "PUT" | .connect => ascii "CONNECT"
  | .options => ascii "OPTIONS" | .trace => ascii "TRACE" | .copy => ascii "COPY"
  | .lock => ascii "LOCK" | .mkcol => ascii "MKCOL" | .move => ascii "MOVE"
  | .propfind => ascii "PROPFIND" | .proppatch => ascii "PROPPATCH" | .search => ascii "SEARCH"
  | .unlock => ascii "UNLOCK" | .bind => ascii "BIND" | .rebind => ascii "REBIND"
  | .unbind => ascii "UNBIND" | .acl => ascii "ACL" | .report => ascii "REPORT"
  | .mkactivity => ascii "MKACTIVITY" | .checkout => ascii "CHECKOUT" | .merge => ascii "MERGE"
  | .msearch => ascii "M-SEARCH" | .notify => ascii "NOTIFY" | .subscribe => ascii "SUBSCRIBE"
  | .unsubscribe => ascii "UNSUBSCRIBE" | .patch => ascii "PATCH" | .purge => ascii "PURGE"
  | .mkcalendar => ascii "MKCALENDAR" | .link => ascii "LINK" | .unlink => ascii "UNLINK"

inductive HttpParserType where
  | httpRequest | httpResponse
  deriving DecidableEq, Repr

/-- The bits of `http_parser.flags`. -/
structure Flags where
  fChunked : Bool := false
  fConnectionKeepAlive : Bool := false
  fConnectionClose : Bool := false
  fConnectionUpgrade : Bool := false
  fTrailing : Bool := false
  fUpgrade : Bool := false
  fSkipbody : Bool := false
  fContentlength : Bool := false
  deriving DecidableEq, Repr

/-- The values of `http_errno` that the modelled code sets. -/
inductive HttpErrno where
  | ok
  | invalidEofState | headerOverflow | closedConnection | invalidVersion | invalidStatus
  | invalidMethod | invalidUrl | lfExpected | invalidHeaderToken | invalidContentLength
  | unexpectedContentLength | invalidChunkSize | invalidConstant | strict
  deriving DecidableEq, Repr

inductive State where
  | sDead
  | sStartRes | sResH | sResHT | sResHTT | sResHTTP
  | sResFirstHttpMajor | sResHttpMajor | sResFirstHttpMinor | sResHttpMinor
  | sResFirstStatusCode | sResStatusCode | sResStatusStart | sResStatus | sResLineAlmostDone
  | sStartReq
  | sReqMethod | sReqSpacesBeforeUrl
  | sReqSchema | sReqSchemaSlash | sReqSchemaSlashSlash
  | sReqServerStart | sReqServer | sReqServerWithAt
  | sReqPath | sReqQueryStringStart | sReqQueryString | sReqFragmentStart | sReqFragment
  | sReqHttpStart | sReqHttpH | sReqHttpHT | sReqHttpHTT | sReqHttpHTTP
  | sReqFirstHttpMajor | sReqHttpMajor | sReqFirstHttpMinor | sReqHttpMinor | sReqLineAlmostDone
  | sHeaderFieldStart | sHeaderField
  | sHeaderValueDiscardWs | sHeaderValueDiscardWsAlmostDone | sHeaderValueDiscardLws
  | sHeaderValueStart | sHeaderValue | sHeaderValueLws
  | sHeaderAlmostDone
  | sChunkSizeStart | sChunkSize | sChunkParameters | sChunkSizeAlmostDone
  | sHeadersAlmostDone | sHeadersDone
  | sChunkData | sChunkDataAlmostDone | sChunkDataDone
  | sBodyIdentity | sBodyIdentityEof
  | sMessageDone
  deriving DecidableEq, Repr

/-- `PARSING_HEADER`: the states up to `s_headers_done`. -/
def parsingHeader : State → Bool
  | .sChunkData | .sChunkDataAlmostDone | .sChunkDataDone
  | .sBodyIdentity | .sBodyIdentityEof | .sMessageDone => false
  | _ => true

inductive HeaderStates where
  | hGeneral | hC | hCO | hCON
  | hMatchingConnection | hMatchingProxyConnection | hMatchingContentLength
  | hMatchingTransferEncoding | hMatchingUpgrade
  | hConnection | hContentLength | hTransferEncoding | hUpgrade
  | hMatchingTransferEncodingChunked
  | hMatchingConnectionTokenStart | hMatchingConnectionKeepAlive | hMatchingConnectionClose
  | hMatchingConnectionUpgrade | hMatchingConnectionToken
  | hTransferEncodingChunked | hConnectionKeepAlive | hConnectionClose | hConnectionUpgrade
  deriving DecidableEq, Repr

def ullongMax : Nat := 2 ^ 64 - 1

def httpMaxHeaderSize : Nat := 80 * 1024

structure HttpParser where
  type : HttpParserType
  flags : Flags := {}
  state : State
  headerState : HeaderStates := .hGeneral
  index : Nat := 0
  nread : Nat := 0
  contentLength : Nat := 0
  httpMajor : Nat := 0
  httpMinor : Nat := 0
  statusCode : Nat := 0
  method : HttpMethod := .delete
  httpErrno : HttpErrno := .ok
  upgrade : Bool := false
  deriving DecidableEq, Repr

/-- `start_state`. -/
def startState : HttpParserType → State
  | .httpRequest => .sStartReq
  | .httpResponse => .sStartRes

def httpParserInit (t : HttpParserType) : HttpParser where
  type := t
  state := startState t

/-- Does the parser need to see an EOF to find the end of the message? -/
def httpMessageNeedsEof (P : HttpParser) : Bool :=
  if P.type = .httpRequest then false
  else if P.statusCode / 100 = 1 || P.statusCode = 204 || P.statusCode = 304 || P.flags.fSkipbody then false
  else if P.flags.fChunked || P.contentLength ≠ ullongMax then false
  else true

def httpShouldKeepAlive (P : HttpParser) : Bool :=
  if P.httpMajor > 0 && P.httpMinor > 0 then
    if P.flags.fConnectionClose then false else !httpMessageNeedsEof P
  else if !P.flags.fConnectionKeepAlive then false
  else !httpMessageNeedsEof P

/-- `NEW_MESSAGE()` of the strict build. -/
def newMessage (P : HttpParser) : State :=
  if httpShouldKeepAlive P then startState P.type else .sDead

/-- The callbacks that take a run of bytes; each has its mark in `http_parser_execute`. -/
inductive DataCb where
  | url | status | headerField | headerValue | body
  deriving DecidableEq, Repr

inductive NotifyCb where
  | messageBegin | headersComplete | messageComplete | chunkHeader | chunkComplete
  deriving DecidableEq, Repr

/-- One invocation of a callback, with the fields of the parser that a callback of
the tree reads. All of them return 0 and write nothing of the parser. -/
inductive Callback where
  | onUrl (run : Bytes)
  | onStatus (run : Bytes) (statusCode : Nat)
  | onHeaderField (run : Bytes)
  | onHeaderValue (run : Bytes)
  | onBody (run : Bytes)
  | onMessageBegin
  | onHeadersComplete (httpMajor httpMinor : Nat)
  | onMessageComplete
  | onChunkHeader
  | onChunkComplete
  deriving DecidableEq, Repr

def DataCb.call (P : HttpParser) (run : Bytes) : DataCb → Callback
  | .url => .onUrl run
  | .status => .onStatus run P.statusCode
  | .headerField => .onHeaderField run
  | .headerValue => .onHeaderValue run
  | .body => .onBody run

def NotifyCb.call (P : HttpParser) : NotifyCb → Callback
  | .messageBegin => .onMessageBegin
  | .headersComplete => .onHeadersComplete P.httpMajor P.httpMinor
  | .messageComplete => .onMessageComplete
  | .chunkHeader => .onChunkHeader
  | .chunkComplete => .onChunkComplete

end HttpUtils
