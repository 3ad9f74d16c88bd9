import HttpUtils.HttpParser.Switch
import HttpUtils.Decimal

/-!
# `http_parser_parse_url`

The states of `parse_url_char` cut a URL into fields, and `http_parse_host` cuts the host field once more.
-/

namespace HttpUtils
set_option autoImplicit false

/-! ### The fields -/

/-- `enum http_parser_url_fields`. -/
inductive UrlField where
  | schema | host | port | path | query | fragment | userinfo
  deriving DecidableEq, Repr

structure FieldData where
  off : ℕ
  len : ℕ
  deriving DecidableEq, Repr

def uint16 (n : ℕ) : ℕ := n % 2 ^ 16

structure HttpParserUrl where
  fieldSet : UrlField → Bool
  port : ℕ
  fieldData : UrlField → FieldData

namespace HttpParserUrl

/-- `field_data[uf].len++`. -/
def grow (u : HttpParserUrl) (uf : UrlField) : HttpParserUrl :=
  { u with fieldData := Function.update u.fieldData uf ⟨(u.fieldData uf).off, uint16 ((u.fieldData uf).len + 1)⟩ }

/-- `field_data[uf].off = p - buf`. -/
def place (u : HttpParserUrl) (uf : UrlField) (p : ℕ) : HttpParserUrl :=
  { u with fieldData := Function.update u.fieldData uf ⟨uint16 p, (u.fieldData uf).len⟩ }

/-- `field_data[uf].len = 0`. -/
def clear (u : HttpParserUrl) (uf : UrlField) : HttpParserUrl :=
  { u with fieldData := Function.update u.fieldData uf ⟨(u.fieldData uf).off, 0⟩ }

def start (u : HttpParserUrl) (uf : UrlField) (p len : ℕ) : HttpParserUrl :=
  { u with
    fieldData := Function.update u.fieldData uf ⟨uint16 p, len⟩
    fieldSet := Function.update u.fieldSet uf true }

theorem fieldData_grow_self (u : HttpParserUrl) (uf : UrlField) :
    (u.grow uf).fieldData uf = ⟨(u.fieldData uf).off, uint16 ((u.fieldData uf).len + 1)⟩ := Function.update_self _ _ _

theorem fieldData_place_self (u : HttpParserUrl) (uf : UrlField) (p : ℕ) :
    (u.place uf p).fieldData uf = ⟨uint16 p, (u.fieldData uf).len⟩ := Function.update_self _ _ _

theorem fieldData_start_self (u : HttpParserUrl) (uf : UrlField) (p len : ℕ) :
    (u.start uf p len).fieldData uf = ⟨uint16 p, len⟩ := Function.update_self _ _ _

theorem fieldData_clear_self (u : HttpParserUrl) (uf : UrlField) :
    (u.clear uf).fieldData uf = ⟨(u.fieldData uf).off, 0⟩ := Function.update_self _ _ _

theorem fieldData_clear (u : HttpParserUrl) {uf f : UrlField} (h : f ≠ uf) :
    (u.clear uf).fieldData f = u.fieldData f :=
  Function.update_of_ne h _ _

theorem fieldData_grow (u : HttpParserUrl) {uf f : UrlField} (h : f ≠ uf) : (u.grow uf).fieldData f = u.fieldData f :=
  Function.update_of_ne h _ _

theorem fieldData_place (u : HttpParserUrl) {uf f : UrlField} (h : f ≠ uf) (p : ℕ) :
    (u.place uf p).fieldData f = u.fieldData f := Function.update_of_ne h _ _

theorem fieldData_start (u : HttpParserUrl) {g f : UrlField} (h : f ≠ g) (p len : ℕ) :
    (u.start g p len).fieldData f = u.fieldData f ∧ (u.start g p len).fieldSet f = u.fieldSet f :=
  ⟨Function.update_of_ne h _ _, Function.update_of_ne h _ _⟩

theorem fieldSet_start (u : HttpParserUrl) (uf : UrlField) (p len : ℕ) : (u.start uf p len).fieldSet uf = true :=
  Function.update_self _ _ _

def text (u : HttpParserUrl) (buf : Bytes) (uf : UrlField) : Bytes :=
  (buf.drop (u.fieldData uf).off).take (u.fieldData uf).len

end HttpParserUrl

/-! ### `http_parse_host` -/

inductive HostState where
  | sHttpHostDead | sHttpUserinfoStart | sHttpUserinfo | sHttpHostStart | sHttpHostV6Start | sHttpHost | sHttpHostV6
  | sHttpHostV6End | sHttpHostV6ZoneStart | sHttpHostV6Zone | sHttpHostPortStart | sHttpHostPort
  deriving DecidableEq, Repr

def isHex (c : UInt8) : Bool := isNum c || ('a' ≤ lower c && lower c ≤ 'f')

def isHostChar (c : UInt8) : Bool := isAlphanum c || c == '.' || c == '-'

def isV6Char (c : UInt8) : Bool := isHex c || c == ':' || c == '.'

def isZoneChar (c : UInt8) : Bool := isAlphanum c || c == '%' || c == '.' || c == '-' || c == '_' || c == '~'

def httpParseHostChar (s : HostState) (ch : UInt8) : HostState :=
  match s with
  | .sHttpUserinfo | .sHttpUserinfoStart =>
    if ch = '@' then .sHttpHostStart else if isUserinfoChar ch then .sHttpUserinfo else .sHttpHostDead
  | .sHttpHostStart => if ch = '[' then .sHttpHostV6Start else if isHostChar ch then .sHttpHost else .sHttpHostDead
  | .sHttpHost => if isHostChar ch then .sHttpHost else if ch = ':' then .sHttpHostPortStart else .sHttpHostDead
  | .sHttpHostV6End => if ch = ':' then .sHttpHostPortStart else .sHttpHostDead
  | .sHttpHostV6 =>
    if ch = ']' then .sHttpHostV6End
    else if isV6Char ch then .sHttpHostV6
    else if ch = '%' then .sHttpHostV6ZoneStart
    else .sHttpHostDead
  | .sHttpHostV6Start => if isV6Char ch then .sHttpHostV6 else .sHttpHostDead
  | .sHttpHostV6Zone =>
    if ch = ']' then .sHttpHostV6End else if isZoneChar ch then .sHttpHostV6Zone else .sHttpHostDead
  | .sHttpHostV6ZoneStart => if isZoneChar ch then .sHttpHostV6Zone else .sHttpHostDead
  | .sHttpHostPort | .sHttpHostPortStart => if isNum ch then .sHttpHostPort else .sHttpHostDead
  | .sHttpHostDead => .sHttpHostDead

/-- The switch over `new_s`, for the byte at `p`. -/
def hostField (u : HttpParserUrl) (p : ℕ) (s newS : HostState) : HttpParserUrl :=
  match newS with
  | .sHttpHost => (if s ≠ .sHttpHost then u.place .host p else u).grow .host
  | .sHttpHostV6 => (if s ≠ .sHttpHostV6 then u.place .host p else u).grow .host
  | .sHttpHostV6ZoneStart | .sHttpHostV6Zone => u.grow .host
  | .sHttpHostPort => (if s ≠ .sHttpHostPort then u.start .port p 0 else u).grow .port
  | .sHttpUserinfo => (if s ≠ .sHttpUserinfo then u.start .userinfo p 0 else u).grow .userinfo
  | _ => u

def hostLoop : Bytes → ℕ → HostState → HttpParserUrl → Option (HostState × HttpParserUrl)
  | [], _, s, u => some (s, u)
  | ch :: data, p, s, u =>
    let newS := httpParseHostChar s ch
    if newS = .sHttpHostDead then none else hostLoop data (p + 1) newS (hostField u p s newS)

def HostState.unfinished : HostState → Bool
  | .sHttpHostStart | .sHttpHostV6Start | .sHttpHostV6 | .sHttpHostV6ZoneStart | .sHttpHostV6Zone
  | .sHttpHostPortStart | .sHttpUserinfo | .sHttpUserinfoStart => true
  | _ => false

/-- `none` where `http_parse_host` returns 1. -/
def httpParseHost (buf : Bytes) (u : HttpParserUrl) (foundAt : Bool) : Option HttpParserUrl :=
  let host := u.text buf .host
  let s := if foundAt then .sHttpUserinfoStart else .sHttpHostStart
  match hostLoop host (u.fieldData .host).off s (u.clear .host) with
  | none => none
  | some (s, u) => if s.unfinished then none else some u

/-! ### `http_parser_parse_url` -/

/-- The locals of the loop, and `u`. For `UF_MAX`, `oldUf` is `none`. -/
structure UrlScan where
  s : State
  oldUf : Option UrlField
  foundAt : Bool
  u : HttpParserUrl

def UrlScan.enter (t : UrlScan) (p : ℕ) (uf : UrlField) : UrlScan :=
  if t.oldUf = some uf then { t with u := t.u.grow uf }
  else { t with oldUf := some uf, u := t.u.start uf p 1 }

/-- One turn of the loop, `none` where it returns 1. -/
def UrlScan.byte (t : UrlScan) (p : ℕ) (ch : UInt8) : Option UrlScan :=
  let t := { t with s := parseUrlChar t.s ch }
  match t.s with
  | .sReqSchemaSlash | .sReqSchemaSlashSlash | .sReqServerStart | .sReqQueryStringStart | .sReqFragmentStart => some t
  | .sReqSchema => some (t.enter p .schema)
  | .sReqServerWithAt => some ({ t with foundAt := true }.enter p .host)
  | .sReqServer => some (t.enter p .host)
  | .sReqPath => some (t.enter p .path)
  | .sReqQueryString => some (t.enter p .query)
  | .sReqFragment => some (t.enter p .fragment)
  | _ => none

def urlLoop : Bytes → ℕ → UrlScan → Option UrlScan
  | [], _, t => some t
  | ch :: data, p, t => (t.byte p ch).bind (urlLoop data (p + 1))

/-- `strtoul` on a text that begins with a digit. -/
def strtoul (s : Bytes) : ℕ := min (digitsValue 0 (s.takeWhile isNum)) (2 ^ 64 - 1)

/-- The test of a CONNECT target: `field_set` holds the host and the port. -/
def HttpParserUrl.hostPort (u : HttpParserUrl) : Bool :=
  [.schema, .host, .port, .path, .query, .fragment, .userinfo].all fun uf =>
    u.fieldSet uf == (uf == .host || uf == .port)

def HttpParserUrl.convertPort (u : HttpParserUrl) (buf : Bytes) : Option HttpParserUrl :=
  if u.fieldSet .port then
    let v := strtoul (buf.drop (u.fieldData .port).off)
    if v > 0xffff then none else some { u with port := uint16 v }
  else some u

/-- `none` where `http_parser_parse_url` returns 1. -/
def httpParserParseUrl (buf : Bytes) (isConnect : Bool) (u : HttpParserUrl) : Option HttpParserUrl :=
  let s := if isConnect then .sReqServerStart else .sReqSpacesBeforeUrl
  (urlLoop buf 0 ⟨s, none, false, { u with fieldSet := fun _ => false, port := 0 }⟩).bind fun t =>
    if t.u.fieldSet .schema && !t.u.fieldSet .host then none
    else
      (if t.u.fieldSet .host then httpParseHost buf t.u t.foundAt else some t.u).bind fun u =>
        if isConnect && !u.hostPort then none else u.convertPort buf

end HttpUtils
