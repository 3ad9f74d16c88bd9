import HttpUtils.HttpParser.UrlFields
import HttpUtils.HttpParser.StatusText
import HttpUtils.ParseUri
import Mathlib.Data.List.TakeWhile

/-!
# `parse_uri` and `http_parser_parse_url`

Both take the same URL apart. They agree on a host with an optional port and a path, and on nothing else.
-/

namespace HttpUtils
set_option autoImplicit false

/-! ### The pieces of the text -/

def behindScheme (s : Bytes) : Bytes := (s.dropWhile fun c => c ≠ (':' : UInt8)).drop 3

def isAuthorityByte (c : UInt8) : Bool := c ≠ '/' && c ≠ '?' && c ≠ '#'

def urlAuthority (s : Bytes) : Bytes := (behindScheme s).takeWhile isAuthorityByte

def behindAuthority (s : Bytes) : Bytes := (behindScheme s).dropWhile isAuthorityByte

def withSlash (r : Bytes) : Bytes := if r.head? = some ('/' : UInt8) then r else ('/' : UInt8) :: r

theorem UrlRead.pieces {full scheme a r : Bytes} {u : HttpParserUrl} (h : UrlRead full scheme a r u)
    (hScheme : (':' : UInt8) ∉ scheme) : urlAuthority full = a ∧ behindAuthority full = r := by
  have hDrop : full.dropWhile (fun c => c ≠ (':' : UInt8)) = ascii "://" ++ (a ++ r) := by
    rw [h.text, List.append_assoc, List.append_assoc]
    refine (dropWhile_append_of_all (fun c hc => ?_) fun c hc => ?_).1
    · simpa using fun hEq : c = ':' => hScheme (hEq ▸ hc)
    · obtain rfl : (':' : UInt8) = c := Option.some.inj hc
      rfl
  have hBehind : behindScheme full = a ++ r := by
    rw [behindScheme, hDrop]
    rfl
  have hSplit := dropWhile_append_of_all (p := isAuthorityByte) (a := a) (b := r)
    (fun c hc => by simpa [isAuthorityByte, AuthorityByte, and_assoc] using h.bytes c hc) fun c hc => by
      rcases h.behind c hc with rfl | rfl <;> rfl
  rw [urlAuthority, behindAuthority, hBehind]
  exact ⟨hSplit.2, hSplit.1⟩

theorem UrlRead.schemaText {full scheme a r : Bytes} {u : HttpParserUrl} (h : UrlRead full scheme a r u) :
    u.text full .schema = scheme := by
  refine h.schema.text (r := ascii "://" ++ a ++ r) ?_ List.length_nil
  rw [h.text]
  simp only [List.append_assoc, List.nil_append]

theorem UrlRead.removeScheme {full scheme a r : Bytes} {u : HttpParserUrl} (h : UrlRead full scheme a r u)
    (hScheme : scheme = ascii "http" ∨ scheme = ascii "https") :
    removeScheme full = (decide (scheme = ascii "https"), a ++ r) := by
  have hFull : full = schemePrefix (decide (scheme = ascii "https")) ++ (a ++ r) := by
    rw [h.text, List.append_assoc]
    rcases hScheme with rfl | rfl <;> rfl
  rw [hFull]
  exact removeScheme_append _ _

/-! ### The host and the port -/

def HttpParserUrl.portText (u : HttpParserUrl) (full : Bytes) : Bytes :=
  if u.fieldSet .port then u.text full .port
  else if u.text full .schema = ascii "http" then ascii "80"
  else ascii "443"

theorem hostByte_of_isNum {c : UInt8} (h : isNum c = true) : HostByte c := by
  have hAll : ∀ c : UInt8, isNum c = true → c ≠ '@' ∧ c ≠ '[' ∧ c ≠ '?' := forall_byte (by decide +kernel)
  exact hAll c h

/-- What the URL parser makes of an authority without user information and without brackets. -/
def HostPort (isHttps : Bool) (a x p : Bytes) : Prop :=
  (':' : UInt8) ∉ x ∧ (a = x ∧ p = defaultPort isHttps ∨ a = x ++ (':' : UInt8) :: p)

theorem HostRead.text {foundAt : Bool} {scheme q r full : Bytes} {u : HttpParserUrl}
    (h : HostRead foundAt (scheme ++ ascii "://").length q u) (hFull : full = scheme ++ ascii "://" ++ (q ++ r)) :
    (∀ c ∈ u.text full .host, HostByte c) ∧
      (('@' : UInt8) ∉ q → ('[' : UInt8) ∉ q → q = u.text full .host ∧ (':' : UInt8) ∉ q) := by
  cases h with
  | plain l x hText hFront hSome hBytes hHas =>
    have hx : u.text full .host = x := by
      refine hHas.text (r := r) ?_ rfl
      rw [hFull, hText, List.append_assoc l x r]
    rw [hx]
    refine ⟨fun c hc => (hBytes c hc).1, fun hAt _ => ?_⟩
    have hNil : l = [] := by
      rcases hFront with ⟨-, hNil⟩ | ⟨i, rfl⟩
      · exact hNil
      · exact absurd (by rw [hText]; simp) hAt
    rw [hNil, List.nil_append] at hText
    rw [hText]
    exact ⟨rfl, fun hColon => (hBytes _ hColon).2 rfl⟩
  | bracketed l x hText hFront hBytes hHas =>
    have hx : u.text full .host = x := by
      refine hHas.text (r := [(']' : UInt8)] ++ r) ?_ rfl
      rw [hFull, hText]
      simp only [List.append_assoc]
    rw [hx]
    refine ⟨hBytes, fun _ hBracket => absurd ?_ hBracket⟩
    rw [hText]
    simp

theorem UrlRead.hostPort {full scheme a r : Bytes} {u : HttpParserUrl} (h : UrlRead full scheme a r u)
    (hScheme : scheme = ascii "http" ∨ scheme = ascii "https") :
    (∀ c ∈ u.text full .host, HostByte c) ∧ (∀ c ∈ u.portText full, HostByte c) ∧
      (('@' : UInt8) ∉ a → ('[' : UInt8) ∉ a →
        HostPort (decide (scheme = ascii "https")) a (u.text full .host) (u.portText full)) := by
  have hSchema := h.schemaText
  have hFull : full = scheme ++ ascii "://" ++ (a ++ r) := h.text.trans (List.append_assoc _ a r)
  obtain ⟨foundAt, hRead⟩ := h.authority
  cases hRead with
  | host hHost hUnset =>
    obtain ⟨hBytes, hPlain⟩ := hHost.text hFull
    have hPort : u.portText full = defaultPort (decide (scheme = ascii "https")) := by
      rw [HttpParserUrl.portText, hUnset, hSchema]
      rcases hScheme with rfl | rfl <;> rfl
    rw [hPort]
    refine ⟨hBytes, ?_, fun hAt hBracket => ?_⟩
    · intro c hc
      refine hostByte_of_isNum ?_
      revert c
      rcases hScheme with rfl | rfl <;> decide +kernel
    · obtain ⟨hSame, hColon⟩ := hPlain hAt hBracket
      exact ⟨hSame ▸ hColon, .inl ⟨hSame, rfl⟩⟩
  | hostPort q d hText hHost hNums hHas hSet =>
    have hSplit : full = scheme ++ ascii "://" ++ (q ++ ([(':' : UInt8)] ++ d ++ r)) := by
      rw [hFull, hText]
      simp only [List.append_assoc]
    obtain ⟨hBytes, hPlain⟩ := hHost.text hSplit
    have hPort : u.portText full = d := by
      rw [HttpParserUrl.portText, hSet, if_pos rfl]
      refine hHas.text (r := r) ?_ rfl
      rw [hSplit]
      simp only [List.append_assoc]
    rw [hPort]
    refine ⟨hBytes, fun c hc => hostByte_of_isNum (hNums c hc), fun hAt hBracket => ?_⟩
    rw [hText] at hAt hBracket
    simp only [List.mem_append, not_or] at hAt hBracket
    obtain ⟨hSame, hColon⟩ := hPlain hAt.1.1 hBracket.1.1
    refine ⟨hSame ▸ hColon, .inr ?_⟩
    rw [hText, ← hSame, List.append_assoc]
    rfl

/-! ### The two results -/

/-- `parse_uri` finds what the URL parser finds. -/
def Agrees (full : Bytes) (u : HttpParserUrl) : Prop :=
  (parseUri full).serverUrl = u.text full .host ∧ (parseUri full).serverPort = u.portText full ∧
    (parseUri full).resourcePath = withSlash ((behindAuthority full).takeWhile fun c => c ≠ ('#' : UInt8))

/-- No user information, no brackets, a path or nothing behind the authority, and no fragment. -/
structure PlainUrl (full : Bytes) : Prop where
  noUserinfo : ('@' : UInt8) ∉ urlAuthority full
  noBracket : ('[' : UInt8) ∉ urlAuthority full
  resource : Resource (behindAuthority full)
  noFragment : ('#' : UInt8) ∉ behindAuthority full

theorem resource_agrees {r : Bytes} (hr : Resource r) :
    (if r = [] then ascii "/" else r) = withSlash (r.takeWhile fun c => c ≠ ('#' : UInt8)) ↔ ('#' : UInt8) ∉ r := by
  rcases hr with rfl | ⟨t, rfl⟩
  · simp [withSlash, ascii]
  · have hTake : (('/' : UInt8) :: t).takeWhile (fun c => c ≠ ('#' : UInt8)) =
        ('/' : UInt8) :: t.takeWhile fun c => c ≠ ('#' : UInt8) := List.takeWhile_cons_of_pos rfl
    rw [if_neg (List.cons_ne_nil _ _), hTake, withSlash, List.head?_cons, if_pos rfl, ← hTake, eq_comm,
      List.takeWhile_eq_self_iff]
    constructor
    · intro hAll hMem
      simpa using hAll _ hMem
    · intro hNone c hc
      simpa using fun hEq : c = '#' => hNone (hEq ▸ hc)

theorem PlainUrl.agrees {full scheme a r : Bytes} {u : HttpParserUrl} (h : PlainUrl full)
    (hRead : UrlRead full scheme a r u) (hScheme : scheme = ascii "http" ∨ scheme = ascii "https")
    (hPieces : urlAuthority full = a ∧ behindAuthority full = r) :
    Agrees full u := by
  obtain ⟨rfl, rfl⟩ := hPieces
  obtain ⟨-, -, hPlain⟩ := hRead.hostPort hScheme
  obtain ⟨hColon, hText⟩ := hPlain h.noUserinfo h.noBracket
  have hSlash : ('/' : UInt8) ∉ urlAuthority full := fun hMem => (hRead.bytes _ hMem).1 rfl
  have hView := parseUri_of_view (hRead.removeScheme hScheme) rfl hSlash h.resource
  have hParts : parseUri full = ⟨u.text full .host, u.portText full,
      if behindAuthority full = [] then ascii "/" else behindAuthority full⟩ := by
    rw [hView]
    rcases hText with ⟨hHost, hPort⟩ | hBoth
    · rw [hHost, hPort]
      exact splitPort_of_notMem hColon _ _
    · rw [hBoth]
      exact splitPort_append hColon _ _ _
  rw [Agrees, hParts]
  exact ⟨rfl, rfl, (resource_agrees h.resource).mpr h.noFragment⟩

theorem authority_prefix {a r a' r' : Bytes} (hEq : a ++ r = a' ++ r') (ha : ('/' : UInt8) ∉ a) (hr' : Resource r') :
    ∃ z, a' = a ++ z ∧ r = z ++ r' := by
  rcases List.append_eq_append_iff.mp hEq with ⟨z, rfl, rfl⟩ | ⟨z, rfl, rfl⟩
  · exact ⟨z, rfl, rfl⟩
  · rcases hr' with hNil | ⟨t, ht⟩
    · obtain ⟨rfl, rfl⟩ := List.append_eq_nil_iff.mp hNil
      exact ⟨[], by simp, rfl⟩
    · cases z with
      | nil => exact ⟨[], by simp, rfl⟩
      | cons c z =>
        obtain ⟨rfl, -⟩ := List.cons_eq_cons.mp ht
        exact absurd (by simp) ha

theorem Agrees.plain {full scheme a r : Bytes} {u : HttpParserUrl} (h : Agrees full u)
    (hRead : UrlRead full scheme a r u) (hScheme : scheme = ascii "http" ∨ scheme = ascii "https")
    (hPieces : urlAuthority full = a ∧ behindAuthority full = r) :
    PlainUrl full := by
  obtain ⟨rfl, rfl⟩ := hPieces
  obtain ⟨hHostBytes, hPortBytes, -⟩ := hRead.hostPort hScheme
  obtain ⟨hHost, hPort, hResource⟩ := h
  have hSlash : ('/' : UInt8) ∉ urlAuthority full := fun hMem => (hRead.bytes _ hMem).1 rfl
  obtain ⟨a', r', hView, ha', hr'⟩ := view_split (urlAuthority full ++ behindAuthority full)
  obtain ⟨x, p, hParts, -, -, -, hText⟩ := splitPort_cases ha' (decide (scheme = ascii "https"))
    (if r' = [] then ascii "/" else r')
  rw [parseUri_of_view (hRead.removeScheme hScheme) hView ha' hr', hParts] at hHost hPort hResource
  -- what `parse_uri` takes for the authority is the host, a colon and the port, so it has none of the bytes
  have hBytes : ∀ c ∈ a', HostByte c := by
    intro c hc
    rcases hText with rfl | ⟨rfl, -⟩
    · rcases List.mem_append.mp hc with hc | hc
      · exact hHostBytes c (hHost ▸ hc)
      rcases List.mem_cons.mp hc with rfl | hc
      · unfold HostByte
        decide
      · exact hPortBytes c (hPort ▸ hc)
    · exact hHostBytes c (hHost ▸ hc)
  obtain ⟨z, rfl, hRest⟩ := authority_prefix hView hSlash hr'
  have hNil : z = [] := by
    cases z with
    | nil => rfl
    | cons c z =>
      have hMem : c ∈ urlAuthority full ++ c :: z := by simp
      have hFirst := hRead.behind c (by rw [hRest]; rfl)
      rcases hFirst with rfl | rfl
      · exact absurd hMem ha'
      · exact absurd rfl (hBytes _ hMem).2.2
  subst hNil
  rw [List.nil_append] at hRest
  rw [List.append_nil] at hBytes
  constructor
  · exact fun hMem => (hBytes _ hMem).1 rfl
  · exact fun hMem => (hBytes _ hMem).2.1 rfl
  · rwa [hRest]
  · rw [← hRest] at hResource hr'
    exact (resource_agrees hr').mp hResource

/-- For every URL that `http_parser_parse_url` accepts with one of the two schemes: `parse_uri` agrees with it
exactly if the authority has no user information and no brackets, a path or nothing follows it, and there is no
fragment. -/
theorem parseUri_agrees_iff (full : Bytes) (u u' : HttpParserUrl) (hShort : full.length < 65536)
    (hAccepted : httpParserParseUrl full false u = some u') (hSet : u'.fieldSet .schema = true)
    (hScheme : u'.text full .schema = ascii "http" ∨ u'.text full .schema = ascii "https") :
    Agrees full u' ↔ PlainUrl full := by
  obtain ⟨scheme, a, r, hRead⟩ := httpParserParseUrl_reads hAccepted hShort hSet
  rw [hRead.schemaText] at hScheme
  have hColon : (':' : UInt8) ∉ scheme := by rcases hScheme with rfl | rfl <;> decide +kernel
  have hPieces := hRead.pieces hColon
  constructor
  · exact fun h => h.plain hRead hScheme hPieces
  · exact fun h => h.agrees hRead hScheme hPieces

def httpParserUrlInit : HttpParserUrl := ⟨fun _ => false, 0, fun _ => ⟨0, 0⟩⟩

theorem hostPortPath_accepted :
    (httpParserParseUrl (ascii "https://host:8080/a?b:c/@d") false httpParserUrlInit).isSome =
      true := by decide +kernel

theorem hostPortPath_agrees : ∃ u, httpParserParseUrl (ascii "https://host:8080/a?b:c/@d") false
    httpParserUrlInit = some u ∧
    Agrees (ascii "https://host:8080/a?b:c/@d") u := by
  have hAccepted := (Option.some_get hostPortPath_accepted).symm
  refine ⟨_, hAccepted, ?_⟩
  refine (parseUri_agrees_iff _ _ _ (by decide +kernel) hAccepted (by decide +kernel)
    (.inr (by decide +kernel))).mpr ?_
  exact ⟨by decide +kernel, by decide +kernel, .inr ⟨ascii "a?b:c/@d", by decide +kernel⟩, by decide +kernel⟩

/-- A query directly behind the host becomes a part of the host. -/
theorem queryWithoutPath_differs :
    (httpParserParseUrl (ascii "http://host?q") false httpParserUrlInit).map (fun u => (u.fieldSet .schema,
        u.text (ascii "http://host?q") .schema, u.text (ascii "http://host?q") .host)) =
      some (true, ascii "http", ascii "host") ∧
    withSlash ((behindAuthority (ascii "http://host?q")).takeWhile fun c => c ≠ ('#' : UInt8)) = ascii "/?q" ∧
    (parseUri (ascii "http://host?q")).serverUrl = ascii "host?q" ∧
    (parseUri (ascii "http://host?q")).resourcePath = ascii "/" := by decide +kernel

end HttpUtils
