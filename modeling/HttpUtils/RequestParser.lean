import HttpUtils.HttpParser.Execute
import HttpUtils.HttpPacket

/-! # `http_request_parser` and `http_reply_parser` -/

namespace HttpUtils
set_option autoImplicit false

inductive ResultType where
  | good | bad | indeterminate
  deriving DecidableEq, Repr

/-- `headers.back().value = run`. An empty vector has no back. -/
def setBackValue (headers : List Header) (run : Bytes) : List Header :=
  match headers.getLast? with
  | none => headers
  | some h => headers.dropLast ++ [{ h with value := run }]

/-- The header list under `on_header_field_cb` and `on_header_value_cb`, the same in both classes. -/
def headerCb (headers : List Header) : Callback → List Header
  | .onHeaderField run => headers ++ [⟨run, []⟩]
  | .onHeaderValue run => setBackValue headers run
  | _ => headers

structure HttpRequestParser where
  mReq : Request
  mReqComplete : Bool := false
  mParser : HttpParser
  deriving DecidableEq, Repr

/-- A new parser. The two version numbers of `m_req` are not initialised by anyone. -/
def httpRequestParser (major minor : Int) : HttpRequestParser where
  mReq := ⟨[], [], major, minor, [], []⟩
  mParser := httpParserInit .httpRequest

namespace HttpRequestParser

/-- The callbacks the class registers; the others are null. -/
def callback (t : HttpRequestParser) : Callback → HttpRequestParser
  | .onUrl run => { t with mReq := { t.mReq with uri := t.mReq.uri ++ run } }
  | .onBody run => { t with mReq := { t.mReq with body := t.mReq.body ++ run } }
  | .onHeadersComplete major minor =>
    { t with mReq := { t.mReq with httpVersionMajor := major, httpVersionMinor := minor } }
  | .onMessageComplete => { t with mReqComplete := true }
  | c => { t with mReq := { t.mReq with headers := headerCb t.mReq.headers c } }

def parse (t : HttpRequestParser) (input : Bytes) : ResultType × HttpRequestParser :=
  let (P, calls, nparsed) := httpParserExecute t.mParser input
  let t := calls.foldl callback { t with mParser := P }
  if t.mParser.upgrade then (.bad, t)
  else if nparsed ≠ input.length then (.bad, t)
  else if t.mReqComplete then (.good, t)
  else (.indeterminate, t)

/-- `dest = std::move(m_req)`: strings and vectors are left empty. -/
def moveReq (t : HttpRequestParser) : Request × HttpRequestParser :=
  (t.mReq, { t with mReq := { t.mReq with method := [], uri := [], headers := [], body := [] } })

/-- `parse` on one buffer after another. -/
def parseAll : HttpRequestParser → List Bytes → List ResultType × HttpRequestParser
  | t, [] => ([], t)
  | t, input :: inputs =>
    let (r, t) := t.parse input
    let (rs, t) := parseAll t inputs
    (r :: rs, t)

end HttpRequestParser

structure HttpReplyParser where
  mReply : Reply
  mReplyComplete : Bool := false
  mParser : HttpParser
  deriving DecidableEq, Repr

/-- A new parser. `m_reply.status_code` is not initialised by anyone. -/
def httpReplyParser (statusCode : ℕ) : HttpReplyParser where
  mReply := ⟨statusCode, [], []⟩
  mParser := httpParserInit .httpResponse

namespace HttpReplyParser

/-- The callbacks the class registers; those for headers complete and for chunks do nothing. -/
def callback (t : HttpReplyParser) : Callback → HttpReplyParser
  | .onStatus _ statusCode => { t with mReply := { t.mReply with statusCode } }
  | .onBody run => { t with mReply := { t.mReply with content := t.mReply.content ++ run } }
  | .onMessageComplete => { t with mReplyComplete := true }
  | c => { t with mReply := { t.mReply with headers := headerCb t.mReply.headers c } }

def parse (t : HttpReplyParser) (input : Bytes) : ResultType × HttpReplyParser :=
  let (P, calls, nparsed) := httpParserExecute t.mParser input
  let t := calls.foldl callback { t with mParser := P }
  if t.mParser.upgrade then (.bad, t)
  else if nparsed ≠ input.length then (.bad, t)
  else if t.mReplyComplete then (.good, t)
  else (.indeterminate, t)

def parseAll : HttpReplyParser → List Bytes → List ResultType × HttpReplyParser
  | t, [] => ([], t)
  | t, input :: inputs =>
    let (r, t) := t.parse input
    let (rs, t) := parseAll t inputs
    (r :: rs, t)

end HttpReplyParser

end HttpUtils
