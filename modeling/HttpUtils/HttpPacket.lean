import HttpUtils.HttpParser.Chars
import Mathlib.Data.Nat.Notation

/-! # `request`, `reply` and their encoders (`http_packet.cpp`) -/

namespace HttpUtils
set_option autoImplicit false

/-- `std::to_string` of a size, and what a stream writes for it. -/
def decimal (n : ℕ) : Bytes := (Nat.toDigits 10 n).map fun c => c.toNat.toUInt8

/-- What a stream writes for an `int`. -/
def decimalInt : Int → Bytes
  | .ofNat n => decimal n
  | .negSucc n => ascii "-" ++ decimal (n + 1)

structure Header where
  name : Bytes
  value : Bytes
  deriving DecidableEq, Repr

structure Request where
  method : Bytes
  uri : Bytes
  httpVersionMajor : Int
  httpVersionMinor : Int
  headers : List Header
  body : Bytes
  deriving DecidableEq, Repr

inductive StatusType where
  | ok | created | accepted | noContent
  | multipleChoices | movedPermanently | movedTemporarily | notModified
  | badRequest | unauthorized | forbidden | notFound
  | internalServerError | notImplemented | badGateway | serviceUnavailable
  deriving DecidableEq, Repr

namespace StatusType

def code : StatusType → ℕ
  | ok => 200 | created => 201 | accepted => 202 | noContent => 204
  | multipleChoices => 300 | movedPermanently => 301 | movedTemporarily => 302 | notModified => 304
  | badRequest => 400 | unauthorized => 401 | forbidden => 403 | notFound => 404
  | internalServerError => 500 | notImplemented => 501 | badGateway => 502 | serviceUnavailable => 503

def all : List StatusType :=
  [ok, created, accepted, noContent, multipleChoices, movedPermanently, movedTemporarily, notModified,
    badRequest, unauthorized, forbidden, notFound, internalServerError, notImplemented, badGateway,
    serviceUnavailable]

/-- The `switch` on `status_type(status_code)`: a number that is no enumerator takes `default`. -/
def ofCode (n : ℕ) : StatusType := (all.find? fun s => s.code = n).getD internalServerError

theorem ofCode_code (s : StatusType) : ofCode s.code = s := by cases s <;> rfl

end StatusType

/-- `status_strings`. -/
def statusString : StatusType → Bytes
  | .ok => ascii "HTTP/1.0 200 OK\r\n"
  | .created => ascii "HTTP/1.0 201 Created\r\n"
  | .accepted => ascii "HTTP/1.0 202 Accepted\r\n"
  | .noContent => ascii "HTTP/1.0 204 No Content\r\n"
  | .multipleChoices => ascii "HTTP/1.0 300 Multiple Choices\r\n"
  | .movedPermanently => ascii "HTTP/1.0 301 Moved Permanently\r\n"
  | .movedTemporarily => ascii "HTTP/1.0 302 Moved Temporarily\r\n"
  | .notModified => ascii "HTTP/1.0 304 Not Modified\r\n"
  | .badRequest => ascii "HTTP/1.0 400 Bad Request\r\n"
  | .unauthorized => ascii "HTTP/1.0 401 Unauthorized\r\n"
  | .forbidden => ascii "HTTP/1.0 403 Forbidden\r\n"
  | .notFound => ascii "HTTP/1.0 404 Not Found\r\n"
  | .internalServerError => ascii "HTTP/1.0 500 Internal Server Error\r\n"
  | .notImplemented => ascii "HTTP/1.0 501 Not Implemented\r\n"
  | .badGateway => ascii "HTTP/1.0 502 Bad Gateway\r\n"
  | .serviceUnavailable => ascii "HTTP/1.0 503 Service Unavailable\r\n"

structure Reply where
  statusCode : ℕ
  headers : List Header
  content : Bytes
  deriving DecidableEq, Repr

def nameValueSeparator : Bytes := ascii ": "
def crlf : Bytes := ascii "\r\n"

/-- One header line, as both encoders write it. -/
def headerLine (h : Header) : Bytes := h.name ++ nameValueSeparator ++ h.value ++ crlf

def Reply.addHeader (r : Reply) (key value : Bytes) : Reply :=
  { r with headers := r.headers ++ [⟨key, value⟩] }

def Reply.toBytes (r : Reply) : Bytes :=
  statusString (.ofCode r.statusCode) ++ r.headers.flatMap headerLine ++
    (ascii "Content-Length" ++ nameValueSeparator ++ decimal r.content.length ++ crlf) ++ crlf ++ r.content

/-- `stock_replies`. -/
def stockContent : StatusType → Bytes
  | .ok => []
  | .created => ascii "<html><head><title>Created</title></head><body><h1>201 Created</h1></body></html>"
  | .accepted => ascii "<html><head><title>Accepted</title></head><body><h1>202 Accepted</h1></body></html>"
  | .noContent => ascii "<html><head><title>No Content</title></head><body><h1>204 Content</h1></body></html>"
  | .multipleChoices =>
    ascii "<html><head><title>Multiple Choices</title></head><body><h1>300 Multiple Choices</h1></body></html>"
  | .movedPermanently =>
    ascii "<html><head><title>Moved Permanently</title></head><body><h1>301 Moved Permanently</h1></body></html>"
  | .movedTemporarily =>
    ascii "<html><head><title>Moved Temporarily</title></head><body><h1>302 Moved Temporarily</h1></body></html>"
  | .notModified =>
    ascii "<html><head><title>Not Modified</title></head><body><h1>304 Not Modified</h1></body></html>"
  | .badRequest =>
    ascii "<html><head><title>Bad Request</title></head><body><h1>400 Bad Request</h1></body></html>"
  | .unauthorized =>
    ascii "<html><head><title>Unauthorized</title></head><body><h1>401 Unauthorized</h1></body></html>"
  | .forbidden =>
    ascii "<html><head><title>Forbidden</title></head><body><h1>403 Forbidden</h1></body></html>"
  | .notFound =>
    ascii "<html><head><title>Not Found</title></head><body><h1>404 Not Found</h1></body></html>"
  | .internalServerError =>
    ascii
      "<html><head><title>Internal Server Error</title></head><body><h1>500 Internal Server Error</h1></body></html>"
  | .notImplemented =>
    ascii "<html><head><title>Not Implemented</title></head><body><h1>501 Not Implemented</h1></body></html>"
  | .badGateway =>
    ascii "<html><head><title>Bad Gateway</title></head><body><h1>502 Bad Gateway</h1></body></html>"
  | .serviceUnavailable =>
    ascii "<html><head><title>Service Unavailable</title></head><body><h1>503 Service Unavailable</h1></body></html>"

def stockReply (status : StatusType) : Reply where
  statusCode := status.code
  content := stockContent status
  headers :=
    [⟨ascii "Content-Length", decimal (stockContent status).length⟩, ⟨ascii "Content-Type", ascii "text/html"⟩]

def Request.toBytes (r : Request) (serverUrl _serverPort : Bytes) : Bytes :=
  r.method ++ ascii " " ++ r.uri ++ ascii " HTTP/" ++ decimalInt r.httpVersionMajor ++ ascii "." ++
    decimalInt r.httpVersionMinor ++ crlf ++
    headerLine ⟨ascii "Host", serverUrl⟩ ++ headerLine ⟨ascii "Accept", ascii "*/*"⟩ ++
    r.headers.flatMap headerLine ++
    headerLine ⟨ascii "Connection", ascii "close"⟩ ++
    headerLine ⟨ascii "Content-Length", decimal r.body.length⟩ ++ crlf ++ r.body

end HttpUtils
