import HttpUtils.Injection
import HttpUtils.ParseUri

/-!
# The authority of a URL at the server

`parse_uri` splits the URL, `request::to_string` writes the host alone behind `Host: `, and the request parser
gives the header to the handler.
-/

namespace HttpUtils
set_option autoImplicit false

open PartialRun (Leads)

/-! ### What an accepted beginning leaves in the headers -/

namespace Scan

theorem cut_calls {s t : Scan} (hBetween : s.Between s.message) (hCut : s.cut = some t) : s.calls <+: t.calls := by
  obtain ⟨-, -, o, hSpells, -⟩ := hBetween
  obtain ⟨Q, hQ, rfl⟩ := Option.map_eq_some_iff.mp hCut
  have hSpells' := hSpells.withParser (P := Q) s.ctl fun _ => (cutMove_eq_some hQ).2.1
  have hFlush := flush_of_holding hSpells'.marks
  dsimp only
  rw [hFlush]
  exact List.prefix_append _ _

theorem Sound.headers {s : Scan} (h : s.Sound) (hMark : openMark s.parser.state = none)
    (hBody : s.parser.state.holdsBody = false) (hKept : ¬ s.Lost) :
      s.calls.foldl headerCb [] = s.message.headers := by
  obtain ⟨-, -, o, hSpells, hOpen⟩ := h.between
  obtain rfl : o = none := by
    rcases hOpen with hOpen | ⟨-, hHolds⟩
    · rw [hMark] at hOpen
      exact Option.map_eq_none_iff.mp hOpen
    · rw [hBody] at hHolds
      cases hHolds
  have hFlush : s.flush.calls = s.calls := by
    rw [flush_of_holding hSpells.marks]
    exact List.append_nil _
  rw [Scan.message, hFlush, headers_eq_iff, ← hFlush]
  exact hKept

end Scan

namespace MessageParser

variable {T : Type} {M : MessageParser T}

theorem Holds.calls_prefix {t : T} {b rest : Bytes} {s e : Scan} (h : M.Holds t []) (hb : b ++ rest ≠ [])
    (hs : PartialRun.run Scan.next (Scan.resume (M.parser t) []) b = some s)
    (hRun : PartialRun.run Scan.next (Scan.resume (M.parser t) []) (b ++ rest) = some e) :
    s.calls <+: (httpParserExecute (M.parser t) (b ++ rest)).2.1 := by
  have hLonger : s.calls <+: e.calls := by
    obtain ⟨s', hs', hAfter⟩ := PartialRun.run_append_eq_some.mp hRun
    obtain rfl := Option.some.inj (hs.symm.trans hs')
    exact Scan.run_calls hAfter
  cases hCut : e.cut with
  | some u =>
    obtain ⟨-, -, hAll, -⟩ := h.parse_cut hb hRun hCut
    rw [List.nil_append] at hAll
    exact hAll ▸ hLonger.trans (Scan.cut_calls (h.sound.run hRun).between hCut)
  | none =>
    have hAll := (h.parse_overflow hb hRun hCut).2.2
    rw [List.nil_append] at hAll
    exact hAll ▸ hLonger

theorem Holds.parse_beginning {t : T} {r : Reader} {b rest : Bytes} {d : Prop} {Q : Reader → Prop} (h : M.Holds t [])
    (hShadow : (Scan.resume (M.parser t) []).ShadowedBy r) (hFresh : ¬ (Scan.resume (M.parser t) []).Lost)
    (hb : b ++ rest ≠ []) (hLeads : Leads Reader.step (Reader.Calm false d) r b Q)
    (hBetween : ∀ q, Q q → q.parser.state = .sHeaderValueDiscardWs) (hGood : (M.parse t (b ++ rest)).1 = .good) :
    ∃ (q : Reader) (calls : List Callback), Q q ∧ M.headers (M.parse t (b ++ rest)).2 = calls.foldl headerCb
      q.message.headers := by
  obtain ⟨e, a, c, p, hRun, hSplit, hp, hEnd⟩ := h.run_of_good hb hGood
  have hZero : p.ctl.jumped ≤ httpMaxHeaderSize := by
    rw [hEnd.ctl]
    exact Nat.zero_le _
  -- the message does not end inside of `b`
  obtain ⟨y, rfl⟩ : ∃ y, a = b ++ y := by
    rcases List.append_eq_append_iff.mp hSplit with ⟨y, rfl, -⟩ | ⟨y, rfl, -⟩
    · exact ⟨y, rfl⟩
    · cases y with
      | nil => exact ⟨[], by simp⟩
      | cons ch y =>
        obtain ⟨q, hq, hShadow'⟩ := h.sound.shadow_run hShadow hp hZero
        have hStill := (hLeads.along.at hq).complete
        rw [hShadow'.message, hEnd.complete] at hStill
        cases hStill
  obtain ⟨s, hs, hRest⟩ := PartialRun.run_append_eq_some.mp hp
  have hShort := Scan.run_short hRest hZero
  obtain ⟨q, hq, hShadow'⟩ := h.sound.shadow_run hShadow hs hShort
  have hKept := h.sound.shadow_kept hShadow hFresh (hLeads.along.mono fun _ _ hCalm => hCalm.lossless) hs hShort
  have hState : s.parser.state = .sHeaderValueDiscardWs := by
    rw [← hBetween q (hLeads.post q hq), hShadow'.parser, Ctl.plain_state]
  have hHeaders := (h.sound.run hs).headers (by rw [hState]; rfl) (by rw [hState]; rfl) hKept
  obtain ⟨calls, hCalls⟩ := h.calls_prefix hb hs hRun
  refine ⟨q, calls, hLeads.post q hq, ?_⟩
  rw [h.collect, List.nil_append, ← hCalls, List.foldl_append, hHeaders, hShadow'.message]

end MessageParser

theorem setBackValue_cons (h k : Header) (xs : List Header) (run : Bytes) :
    ∃ k' xs', setBackValue (h :: k :: xs) run = h :: k' :: xs' := by
  rw [setBackValue, List.getLast?_cons_cons, List.dropLast_cons_cons]
  cases hLast : (k :: xs).getLast? with
  | none => simp at hLast
  | some x =>
    obtain ⟨k', xs', hRest⟩ := List.exists_cons_of_ne_nil
      (List.append_ne_nil_of_right_ne_nil (k :: xs).dropLast (List.cons_ne_nil { x with value := run } []))
    exact ⟨k', xs', congrArg (List.cons h) hRest⟩

theorem first_headerCb (h k : Header) (xs : List Header) (calls : List Callback) :
    ∃ ys, calls.foldl headerCb (h :: k :: xs) = h :: ys := by
  induction calls generalizing k xs with
  | nil => exact ⟨k :: xs, rfl⟩
  | cons c calls ih =>
    have hOne : ∃ k' xs', headerCb (h :: k :: xs) c = h :: k' :: xs' := by
      cases c with
      | onHeaderField run => exact ⟨k, xs ++ [⟨run, []⟩], rfl⟩
      | onHeaderValue run => exact setBackValue_cons h k xs run
      | _ => exact ⟨k, xs, rfl⟩
    obtain ⟨k', xs', hOne⟩ := hOne
    rw [List.foldl_cons, hOne]
    exact ih k' xs'

/-! ### URLs -/

/-- A URL of the client: a host of letters, digits, dots and hyphens, a port, and a path behind its slash. -/
structure HttpUrl where
  isHttps : Bool
  host : Bytes
  port : Option Bytes
  path : Bytes
  host_some : host ≠ []
  host_bytes : ∀ c ∈ host, isAlphanum c || c == '.' || c == '-'
  port_digits : ∀ p ∈ port, p ≠ [] ∧ ∀ c ∈ p, isNum c
  path_bytes : ∀ c ∈ path, 33 ≤ c ∧ c ≤ 126 ∧ c ≠ '#'

namespace HttpUrl

def authority (u : HttpUrl) : Bytes :=
  match u.port with
  | none => u.host
  | some p => u.host ++ (':' : UInt8) :: p

def text (u : HttpUrl) : Bytes := schemePrefix u.isHttps ++ (u.authority ++ ('/' : UInt8) :: u.path)

/-- The port is the one of the scheme, whether it is written or not. -/
def DefaultPort (u : HttpUrl) : Prop := ∀ p ∈ u.port, digitsValue 0 p = if u.isHttps then 443 else 80

instance decidableDefaultPort (u : HttpUrl) : Decidable u.DefaultPort :=
  inferInstanceAs (Decidable (∀ p ∈ u.port, digitsValue 0 p = if u.isHttps then 443 else 80))

def hostHeader (u : HttpUrl) : Bytes := if u.DefaultPort then u.host else u.authority

theorem no_port_digits : ∀ p ∈ (none : Option Bytes), p ≠ [] ∧ ∀ c ∈ p, isNum c := by
  intro p hp
  cases hp

/-- The same URL without its port. -/
def portless (u : HttpUrl) : HttpUrl where
  isHttps := u.isHttps
  host := u.host
  port := none
  path := u.path
  host_some := u.host_some
  host_bytes := u.host_bytes
  port_digits := no_port_digits
  path_bytes := u.path_bytes

theorem hostHeader_portless (u : HttpUrl) : u.portless.hostHeader = u.host := by
  refine if_pos ?_
  intro p hp
  cases hp

theorem hostByte {u : HttpUrl} {c : UInt8} (hc : c ∈ u.host) :
    c ≠ '/' ∧ c ≠ ':' ∧ c ≠ LF ∧ c ≠ SP ∧ c ≠ HT := by
  have hAll : ∀ c : UInt8, (isAlphanum c || c == '.' || c == '-') = true →
      c ≠ '/' ∧ c ≠ ':' ∧ c ≠ LF ∧ c ≠ SP ∧ c ≠ HT := forall_byte (by decide +kernel)
  exact hAll c (u.host_bytes c hc)

theorem parseUri_text (u : HttpUrl) :
    parseUri u.text = ⟨u.host, u.port.getD (defaultPort u.isHttps), ('/' : UInt8) :: u.path⟩ := by
  have hNum : ∀ c : UInt8, isNum c = true → c ≠ '/' := forall_byte (by decide +kernel)
  have hColon : (':' : UInt8) ∉ u.host := fun hMem => (hostByte hMem).2.1 rfl
  have hHost : ('/' : UInt8) ∉ u.host := fun hMem => (hostByte hMem).1 rfl
  have hRemoved : removeScheme u.text = (u.isHttps, u.authority ++ ('/' : UInt8) :: u.path) := removeScheme_append _ _
  have hSlash : ('/' : UInt8) ∉ u.authority := by
    unfold authority
    cases hPort : u.port with
    | none => exact hHost
    | some p =>
      simp only [List.mem_append, List.mem_cons, not_or]
      exact ⟨hHost, by decide, fun hMem => hNum _ ((u.port_digits p hPort).2 _ hMem) rfl⟩
  rw [parseUri_of_view hRemoved rfl hSlash (.inr ⟨u.path, rfl⟩), if_neg (List.cons_ne_nil _ _)]
  unfold authority
  cases u.port with
  | none => exact splitPort_of_notMem hColon _ _
  | some p => exact splitPort_append hColon _ _ _

end HttpUrl

/-! ### The request at the server -/

def HttpUrl.received (u : HttpUrl) (r : Request) (major₀ minor₀ : Int) : ResultType × HttpRequestParser :=
  (httpRequestParser major₀ minor₀).parse (r.toBytes (parseUri u.text).serverUrl (parseUri u.text).serverPort)

/-- The server gets the path of the URL, and its authority in the first header of that name. -/
structure HttpUrl.Survives (u : HttpUrl) (r : Request) (major₀ minor₀ : Int) : Prop where
  good : (u.received r major₀ minor₀).1 = .good
  uri : (u.received r major₀ minor₀).2.mReq.uri = ('/' : UInt8) :: u.path
  host : ((u.received r major₀ minor₀).2.mReq.headers.find? fun h => h.name = ascii "Host").map Header.value =
    some u.hostHeader

theorem leads_host {r : Request} {serverUrl : Bytes} (hMethod : r.method = ascii "GET")
    (hUri : LF ∉ r.uri ∧ (∃ c ∈ r.uri.head?, c ≠ SP) ∧ r.uri.getLast? ≠ some SP) (hLf : LF ∉ serverUrl)
    (hBlank : ∀ c ∈ serverUrl.head?, c ≠ SP ∧ c ≠ HT) :
    Leads Reader.step (Reader.Calm false True) (freshReader .httpRequest)
      (r.method ++ ascii " " ++ r.uri ++ ascii " HTTP/" ++ r.version ++ crlf ++
        (fieldLine (ascii "Host") (SP :: serverUrl) ++ (ascii "Accept" ++ [(':' : UInt8)]))) fun q =>
      q.parser.state = .sHeaderValueDiscardWs ∧
        q.message.headers = [⟨ascii "Host", serverUrl⟩, ⟨ascii "Accept", []⟩] := by
  have hNone : ∀ ch ∈ ([] : Bytes), ch = CR ∨ ch = LF := by simp
  have hGet : LF ∉ r.method := by
    rw [hMethod]
    decide +kernel
  have hLine := Reader.leads_requestLine (d := True) hNone hGet hUri.1 hUri.2.1 hUri.2.2 r.lf_notMem_version
  rw [List.nil_append] at hLine
  refine hLine.append fun t ht => ?_
  obtain ⟨hState, hEmpty, hMessage⟩ := ht
  have hHead : t.InHead t.parser t.message :=
    ⟨t.parser, .first hState, hEmpty.errno, by rw [hMessage], .refl t.parser⟩
  have hHost : OneLine (ascii "Host") (SP :: serverUrl) := by
    refine ⟨by decide +kernel, by decide +kernel, by decide +kernel, fun hMem => ?_⟩
    rcases List.mem_cons.mp hMem with hSp | hMem
    · exact absurd hSp (by decide)
    · exact hLf hMem
  have hOne : ∀ x ∈ [(ascii "Host", SP :: serverUrl)], OneLine x.1 x.2 := by
    intro x hx
    rwa [List.mem_singleton.mp hx]
  have hFirst := hHead.leads_lines hOne
  rw [hMessage, List.flatMap_singleton] at hFirst
  have hValue : dropBlanks (SP :: serverUrl) = serverUrl := by
    rw [dropBlanks_cons]
    cases serverUrl with
    | nil => rfl
    | cons c s =>
      obtain ⟨hSp, hHt⟩ := hBlank c rfl
      simp [dropBlanks, hSp, hHt]
  refine hFirst.append fun p hp => ?_
  obtain ⟨P, hStarts, hOk, hName, -⟩ := hp
  refine (hStarts.leads_name hOk hName (by decide +kernel) (by decide +kernel) (by decide +kernel)
    fun _ _ => trivial).mono fun q hq => ?_
  rw [hq.parser, hq.message]
  constructor
  · rfl
  · simp only [List.map_cons, List.map_nil, List.foldl_cons, List.foldl_nil, hValue]
    rfl

theorem HttpRequestParser.parseAll_singleton (t : HttpRequestParser) (b : Bytes) :
    t.parseAll [b] = ([(t.parse b).1], (t.parse b).2) := rfl

namespace HttpUrl

variable {u : HttpUrl} {r : Request}

theorem uri_separated (hUri : r.uri = ('/' : UInt8) :: u.path) :
    LF ∉ r.uri ∧ (∃ c ∈ r.uri.head?, c ≠ SP) ∧ r.uri.getLast? ≠ some SP := by
  have hAll : ∀ c ∈ r.uri, 33 ≤ c := by
    rw [hUri]
    intro c hc
    rcases List.mem_cons.mp hc with rfl | hc
    · decide
    · exact (u.path_bytes c hc).1
  refine ⟨fun hMem => absurd (hAll _ hMem) (by decide), ⟨'/', by rw [hUri]; rfl, by decide⟩, fun hLast => ?_⟩
  exact absurd (hAll _ (List.mem_of_getLast? hLast)) (by decide)

/-- Whatever the request holds: where it is accepted, the first header is the host without its port. -/
theorem host_received (hMethod : r.method = ascii "GET") (hUri : r.uri = ('/' : UInt8) :: u.path)
    {major₀ minor₀ : Int} (hGood : (u.received r major₀ minor₀).1 = .good) :
    ∃ ys, (u.received r major₀ minor₀).2.mReq.headers = ⟨ascii "Host", u.host⟩ :: ys := by
  have hLf : LF ∉ u.host := fun hMem => (hostByte hMem).2.2.1 rfl
  have hBlank : ∀ c ∈ u.host.head?, c ≠ SP ∧ c ≠ HT := fun c hc => (hostByte (List.mem_of_mem_head? hc)).2.2.2
  have hBytes : ∃ rest, r.toBytes (parseUri u.text).serverUrl (parseUri u.text).serverPort =
      (r.method ++ ascii " " ++ r.uri ++ ascii " HTTP/" ++ r.version ++ crlf ++
        (fieldLine (ascii "Host") (SP :: u.host) ++ (ascii "Accept" ++ [(':' : UInt8)]))) ++ rest := by
    have hAccept : headerLine ⟨ascii "Accept", ascii "*/*"⟩ = ascii "Accept" ++ [(':' : UInt8)] ++
        (ascii " */*" ++ crlf) :=
      rfl
    refine ⟨ascii " */*" ++ crlf ++ r.headers.flatMap headerLine ++ headerLine ⟨ascii "Connection", ascii "close"⟩ ++
      headerLine (contentLengthHeader r.body.length) ++ crlf ++ r.body, ?_⟩
    rw [u.parseUri_text, Request.toBytes, Request.version, headerLine_eq ⟨ascii "Host", u.host⟩, hAccept]
    simp only [contentLengthHeader, List.append_assoc]
  obtain ⟨rest, hBytes⟩ := hBytes
  rw [received, hBytes] at hGood ⊢
  obtain ⟨q, calls, ⟨-, hHeaders⟩, hShown⟩ := (holds_httpRequestParser major₀ minor₀).parse_beginning
    (shadowed_fresh .httpRequest) MessageParser.fresh_not_lost (by simp [crlf])
    (leads_host hMethod (uri_separated hUri) hLf hBlank) (fun q hq => hq.1) hGood
  obtain ⟨ys, hFirst⟩ := first_headerCb ⟨ascii "Host", u.host⟩ ⟨ascii "Accept", []⟩ [] calls
  rw [hHeaders, hFirst] at hShown
  exact ⟨ys, hShown⟩

theorem Survives.defaultPort {major₀ minor₀ : Int} (h : u.Survives r major₀ minor₀) (hMethod : r.method = ascii "GET")
    (hUri : r.uri = ('/' : UInt8) :: u.path) : u.DefaultPort := by
  obtain ⟨ys, hHeaders⟩ := host_received hMethod hUri h.good
  have hHost := h.host
  rw [hHeaders, List.find?_cons_of_pos (by simp)] at hHost
  by_contra hPort
  rw [hostHeader, if_neg hPort, authority] at hHost
  cases hWritten : u.port with
  | none =>
    refine hPort ?_
    rw [DefaultPort, hWritten]
    simp
  | some p =>
    rw [hWritten] at hHost
    have hLength := congrArg List.length (Option.some.inj hHost)
    simp at hLength

theorem survives_of_encodable {major₀ minor₀ : Int} (hMethod : r.method = ascii "GET")
    (hUri : r.uri = ('/' : UInt8) :: u.path)
    (h : r.Encodable (parseUri u.text).serverUrl (parseUri u.text).serverPort) (hPort : u.DefaultPort) :
    u.Survives r major₀ minor₀ := by
  have hNe : ∀ b ∈ [r.toBytes (parseUri u.text).serverUrl (parseUri u.text).serverPort], b ≠ [] := by
    intro b hb
    rw [List.mem_singleton.mp hb]
    exact r.toBytes_ne_nil _ _
  have hDecodes := request_decodes h major₀ minor₀ hNe List.flatten_singleton
  have hReceived : (httpRequestParser major₀ minor₀).parse (r.toBytes (parseUri u.text).serverUrl
      (parseUri u.text).serverPort) = u.received r major₀ minor₀ := rfl
  rw [HttpRequestParser.parseAll_singleton, hReceived] at hDecodes
  obtain ⟨hGood, hReadUri⟩ : (u.received r major₀ minor₀).1 = .good ∧
      (u.received r major₀ minor₀).2.mReq.uri = ('/' : UInt8) :: u.path := by
    generalize u.received r major₀ minor₀ = result at hDecodes
    exact ⟨(List.cons_eq_cons.mp hDecodes.1).1, hDecodes.2.1.1.trans hUri⟩
  obtain ⟨ys, hHeaders⟩ := host_received hMethod hUri hGood
  refine ⟨hGood, hReadUri, ?_⟩
  rw [hHeaders, List.find?_cons_of_pos (by simp), hostHeader, if_pos hPort]
  rfl

/-- The encoder takes the port and writes it nowhere. -/
theorem toBytes_port (r : Request) (serverUrl p q : Bytes) : r.toBytes serverUrl p = r.toBytes serverUrl q := rfl

theorem encodable_port {serverUrl p : Bytes} (h : r.Encodable serverUrl p) (q : Bytes) : r.Encodable serverUrl q where
  method := h.method
  uri := h.uri
  major := h.major
  minor := h.minor
  headers := h.headers
  host := h.host
  body := h.body
  head := toBytes_port r serverUrl p q ▸ h.head


theorem received_portless (u : HttpUrl) (r : Request) (major₀ minor₀ : Int) :
    u.portless.received r major₀ minor₀ = u.received r major₀ minor₀ := by
  simp only [received, parseUri_text]
  rw [toBytes_port r u.portless.host _ (u.port.getD (defaultPort u.isHttps))]
  rfl

theorem survives_portless_iff (hPort : u.DefaultPort) (major₀ minor₀ : Int) :
    u.portless.Survives r major₀ minor₀ ↔ u.Survives r major₀ minor₀ := by
  have hHeader : u.portless.hostHeader = u.hostHeader := u.hostHeader_portless.trans (if_pos hPort).symm
  constructor
  · rintro ⟨hGood, hUri, hHost⟩
    rw [received_portless] at hGood hUri hHost
    exact ⟨hGood, hUri, hHost.trans (congrArg some hHeader)⟩
  · rintro ⟨hGood, hUri, hHost⟩
    refine ⟨?_, ?_, ?_⟩ <;> rw [received_portless]
    · exact hGood
    · exact hUri
    · exact hHost.trans (congrArg some hHeader.symm)

/-- Whatever the GET request holds, the authority gets to the server exactly if the port is that of the scheme and the
request survives without a port; and there every request survives that is encodable. -/
theorem authority_survives_iff (u : HttpUrl) (r : Request) (hMethod : r.method = ascii "GET")
    (hUri : r.uri = (parseUri u.text).resourcePath) (major₀ minor₀ : Int) :
    (u.Survives r major₀ minor₀ ↔ u.DefaultPort ∧ u.portless.Survives r major₀ minor₀) ∧
      (r.Encodable (parseUri u.text).serverUrl (parseUri u.text).serverPort →
        u.portless.Survives r major₀ minor₀) := by
  rw [u.parseUri_text] at hUri
  refine ⟨⟨fun h => ?_, fun h => (survives_portless_iff h.1 major₀ minor₀).mp h.2⟩, fun hEncodable => ?_⟩
  · have hPort := h.defaultPort hMethod hUri
    exact ⟨hPort, (survives_portless_iff hPort major₀ minor₀).mpr h⟩
  · refine survives_of_encodable hMethod hUri ?_ fun p hp => ?_
    · rw [u.parseUri_text] at hEncodable
      rw [u.portless.parseUri_text]
      exact encodable_port hEncodable _
    · cases hp

end HttpUrl

def paddedPortUrl : HttpUrl where
  isHttps := false
  host := ascii "my-host.org"
  port := some (ascii "080")
  path := ascii "a?b=/c:d"
  host_some := by decide +kernel
  host_bytes := by decide +kernel
  port_digits := by decide +kernel
  path_bytes := by decide +kernel

def paddedPortRequest : Request :=
  ⟨ascii "GET", ascii "/a?b=/c:d", 1, 1, [⟨ascii "X-Empty", []⟩], ascii "body"⟩

theorem paddedPort_encodable :
    paddedPortRequest.Encodable (parseUri paddedPortUrl.text).serverUrl (parseUri paddedPortUrl.text).serverPort where
  method := ⟨.get, by decide, rfl⟩
  uri := ⟨ascii "a?b=/c:d", by decide +kernel, by decide +kernel⟩
  major := by decide
  minor := by decide
  headers x hx := by
    obtain rfl : x = ⟨ascii "X-Empty", []⟩ := by simpa [paddedPortRequest] using hx
    exact ⟨plain_of_name (by decide +kernel) ⟨by simp, by simp⟩, by decide +kernel, by decide +kernel⟩
  host := by
    rw [paddedPortUrl.parseUri_text]
    exact ⟨by decide +kernel, by decide +kernel⟩
  body := by decide +kernel
  head := by decide +kernel

theorem paddedPort_survives : paddedPortUrl.Survives paddedPortRequest 0 0 := by
  obtain ⟨hIff, hPortless⟩ :=
    HttpUrl.authority_survives_iff paddedPortUrl paddedPortRequest rfl (by decide +kernel) 0 0
  exact hIff.mpr ⟨by decide +kernel, hPortless paddedPort_encodable⟩

def localUrl : HttpUrl where
  isHttps := false
  host := ascii "localhost"
  port := some (ascii "8080")
  path := ascii "x"
  host_some := by decide +kernel
  host_bytes := by decide +kernel
  port_digits := by decide +kernel
  path_bytes := by decide +kernel

def localRequest : Request := ⟨ascii "GET", ascii "/x", 1, 1, [], []⟩

/-- The port that the URL names is not written behind the host. -/
theorem localUrl_port_lost :
    localUrl.text = ascii "http://localhost:8080/x" ∧ localUrl.hostHeader = ascii "localhost:8080" ∧
      (localUrl.received localRequest 0 0).1 = .good ∧
      (localUrl.received localRequest 0 0).2.mReq.headers.head? = some ⟨ascii "Host", ascii "localhost"⟩ ∧
      ¬ localUrl.Survives localRequest 0 0 := by
  refine ⟨by decide +kernel, by decide +kernel, by decide +kernel, by decide +kernel, fun h => ?_⟩
  exact absurd h.host (by decide +kernel)

end HttpUtils
