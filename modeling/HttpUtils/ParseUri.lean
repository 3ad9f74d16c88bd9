import HttpUtils.HttpParser.Chars

/-!
# `parse_uri` (`http_packet.cpp`)

One scheme is removed, the first slash behind it begins the resource, and the first colon in front of that slash
begins the port.
-/

namespace HttpUtils
set_option autoImplicit false

/-- What `parse_uri` writes through its three references. -/
structure UriParts where
  serverUrl : Bytes
  serverPort : Bytes
  resourcePath : Bytes
  deriving DecidableEq, Repr

def httpPrefix : Bytes := ascii "http://"
def httpsPrefix : Bytes := ascii "https://"

def findByte (c : UInt8) (s : Bytes) : Option ℕ := s.findIdx? fun b => b == c

/-- `is_https`, and the view behind the scheme. -/
def removeScheme (fullPath : Bytes) : Bool × Bytes :=
  if httpPrefix <+: fullPath then (false, fullPath.drop httpPrefix.length)
  else if httpsPrefix <+: fullPath then (true, fullPath.drop httpsPrefix.length)
  else (false, fullPath)

def defaultPort (isHttps : Bool) : Bytes := if isHttps then ascii "443" else ascii "80"

/-- The resource path, and the view that is left in front of it. -/
def splitResource (pathView : Bytes) : Bytes × Bytes :=
  match findByte '/' pathView with
  | none => (ascii "/", pathView)
  | some resourceIter => (pathView.drop resourceIter, pathView.take resourceIter)

def splitPort (isHttps : Bool) (pathView resourcePath : Bytes) : UriParts :=
  match findByte ':' pathView with
  | none => ⟨pathView, defaultPort isHttps, resourcePath⟩
  | some portIter => ⟨pathView.take portIter, pathView.drop (portIter + 1), resourcePath⟩

def parseUri (fullPath : Bytes) : UriParts :=
  let (isHttps, pathView) := removeScheme fullPath
  let (resourcePath, pathView) := splitResource pathView
  splitPort isHttps pathView resourcePath

/-! ### The splits -/

theorem findByte_cases (c : UInt8) (s : Bytes) :
    c ∉ s ∧ findByte c s = none ∨ ∃ u v, s = u ++ c :: v ∧ c ∉ u ∧ findByte c s = some u.length := by
  by_cases hMem : c ∈ s
  · right
    obtain ⟨u, v, rfl, hu⟩ := List.eq_append_cons_of_mem hMem
    refine ⟨u, v, rfl, hu, ?_⟩
    have hNone : u.findIdx? (fun b => b == c) = none := by
      rw [List.findIdx?_eq_none_iff]
      intro b hb
      simpa using fun hEq : b = c => hu (hEq ▸ hb)
    simp [findByte, List.findIdx?_append, hNone, List.findIdx?_cons]
  · left
    refine ⟨hMem, ?_⟩
    rw [findByte, List.findIdx?_eq_none_iff]
    intro b hb
    simpa using fun hEq : b = c => hMem (hEq ▸ hb)

theorem findByte_of_notMem {c : UInt8} {s : Bytes} (h : c ∉ s) : findByte c s = none := by
  rcases findByte_cases c s with ⟨-, hNone⟩ | ⟨u, v, rfl, -, -⟩
  · exact hNone
  · exact absurd (by simp) h

theorem findByte_append {c : UInt8} {u : Bytes} (h : c ∉ u) (v : Bytes) : findByte c
    (u ++ c :: v) = some u.length := by
  have hNone := findByte_of_notMem h
  rw [findByte] at hNone ⊢
  simp [List.findIdx?_append, hNone, List.findIdx?_cons]

def Resource (r : Bytes) : Prop := r = [] ∨ ∃ t, r = ('/' : UInt8) :: t

theorem splitResource_append {a r : Bytes} (ha : ('/' : UInt8) ∉ a) (hr : Resource r) :
    splitResource (a ++ r) = (if r = [] then ascii "/" else r, a) := by
  rcases hr with rfl | ⟨t, rfl⟩
  · rw [splitResource, List.append_nil, findByte_of_notMem ha, if_pos rfl]
  · rw [splitResource, findByte_append ha, if_neg (List.cons_ne_nil _ _)]
    simp

theorem splitPort_of_notMem {a : Bytes} (ha : (':' : UInt8) ∉ a) (isHttps : Bool) (r : Bytes) :
    splitPort isHttps a r = ⟨a, defaultPort isHttps, r⟩ := by
  rw [splitPort, findByte_of_notMem ha]

theorem splitPort_append {h : Bytes} (hh : (':' : UInt8) ∉ h) (isHttps : Bool) (p r : Bytes) :
    splitPort isHttps (h ++ (':' : UInt8) :: p) r = ⟨h, p, r⟩ := by
  rw [splitPort, findByte_append hh]
  simp

theorem view_split (v : Bytes) : ∃ a r, v = a ++ r ∧ ('/' : UInt8) ∉ a ∧ Resource r := by
  rcases findByte_cases '/' v with ⟨hMem, -⟩ | ⟨u, w, rfl, hu, -⟩
  · exact ⟨v, [], (List.append_nil v).symm, hMem, .inl rfl⟩
  · exact ⟨u, ('/' : UInt8) :: w, rfl, hu, .inr ⟨w, rfl⟩⟩

theorem parseUri_of_view {s v : Bytes} {isHttps : Bool} (h : removeScheme s = (isHttps, v)) {a r : Bytes}
    (hv : v = a ++ r) (ha : ('/' : UInt8) ∉ a) (hr : Resource r) : parseUri s = splitPort isHttps a
    (if r = [] then ascii "/" else r) := by
  rw [parseUri, h]
  dsimp only
  rw [hv, splitResource_append ha hr]

theorem removeScheme_of_none {s : Bytes} (hHttp : ¬ httpPrefix <+: s) (hHttps : ¬ httpsPrefix <+: s) :
    removeScheme s = (false, s) := by
  rw [removeScheme, if_neg hHttp, if_neg hHttps]

def schemePrefix (isHttps : Bool) : Bytes := if isHttps then httpsPrefix else httpPrefix

theorem removeScheme_append (isHttps : Bool) (v : Bytes) : removeScheme
    (schemePrefix isHttps ++ v) = (isHttps, v) := by
  cases isHttps with
  | false =>
    have hHttp : schemePrefix false = httpPrefix := rfl
    rw [hHttp, removeScheme, if_pos (List.prefix_append _ _), List.drop_left]
  | true =>
    have hHttps : schemePrefix true = httpsPrefix := rfl
    have hNot : ¬ httpPrefix <+: httpsPrefix ++ v := by
      intro hPrefix
      have hShort : httpPrefix.length ≤ httpsPrefix.length := by decide +kernel
      exact absurd (List.prefix_of_prefix_length_le hPrefix (List.prefix_append httpsPrefix v) hShort)
        (by decide +kernel)
    rw [hHttps, removeScheme, if_neg hNot, if_pos (List.prefix_append _ _), List.drop_left]

/-! ### Reading the parts again -/

def UriParts.text (t : UriParts) : Bytes := t.serverUrl ++ [(':' : UInt8)] ++ t.serverPort ++ t.resourcePath

/-- What is left behind the scheme begins with a scheme. -/
def SchemeTwice (s : Bytes) : Prop := httpPrefix <+: (removeScheme s).2 ∨ httpsPrefix <+: (removeScheme s).2

theorem append_at {c : UInt8} {k h w x : Bytes} (hk : c ∉ k) (hh : c ∉ h) (hEq : k ++ c :: w = h ++ c :: x) :
    k = h ∧ w = x := by
  have hFind := congrArg (findByte c) hEq
  rw [findByte_append hk, findByte_append hh] at hFind
  obtain ⟨rfl, hRest⟩ := List.append_inj hEq (Option.some.inj hFind)
  exact ⟨rfl, (List.cons_eq_cons.mp hRest).2⟩

theorem prefix_at {c : UInt8} {k h : Bytes} (hk : c ∉ k) (hh : c ∉ h) (w x : Bytes) :
    k ++ c :: w <+: h ++ c :: x ↔ k = h ∧ w <+: x := by
  constructor
  · rintro ⟨y, hy⟩
    rw [List.append_assoc, List.cons_append] at hy
    obtain ⟨rfl, hRest⟩ := append_at hk hh hy
    exact ⟨rfl, y, hRest⟩
  · rintro ⟨rfl, y, rfl⟩
    exact ⟨y, by simp⟩

/-- An authority and its resource begin with a scheme exactly if they are cut behind its colon. -/
theorem scheme_iff {k a r : Bytes} (hk : ('/' : UInt8) ∉ k) (ha : ('/' : UInt8) ∉ a) (hr : Resource r) :
    k ++ ascii "//" <+: a ++ r ↔ k = a ∧ ascii "//" <+: r := by
  have hSlashes : ascii "//" = ('/' : UInt8) :: ascii "/" := rfl
  rcases hr with rfl | ⟨t, rfl⟩
  · constructor
    · rintro ⟨y, hy⟩
      refine absurd ?_ ha
      rw [List.append_nil] at hy
      rw [← hy, hSlashes]
      simp
    · rintro ⟨-, hNil⟩
      rw [hSlashes] at hNil
      simp at hNil
  · rw [hSlashes, prefix_at hk ha, List.cons_prefix_cons]
    simp

theorem slashes_prefix {r : Bytes} (hr : Resource r) : ascii "//" <+: (if r = [] then ascii "/" else r) ↔
    ascii "//" <+: r := by
  rcases hr with rfl | ⟨t, rfl⟩
  · decide +kernel
  · simp

theorem resource_supplied {r : Bytes} (hr : Resource r) : ∃ t,
    (if r = [] then ascii "/" else r) = ('/' : UInt8) :: t := by
  rcases hr with rfl | ⟨t, rfl⟩
  · exact ⟨[], rfl⟩
  · exact ⟨t, by simp⟩

theorem splitPort_cases {a : Bytes} (ha : ('/' : UInt8) ∉ a) (isHttps : Bool) (r : Bytes) :
    ∃ h p, splitPort isHttps a r = ⟨h, p, r⟩ ∧ (':' : UInt8) ∉ h ∧ ('/' : UInt8) ∉ h ∧ ('/' : UInt8) ∉ p ∧
      (a = h ++ (':' : UInt8) :: p ∨ a = h ∧ p = defaultPort isHttps) := by
  rcases findByte_cases ':' a with ⟨hMem, -⟩ | ⟨h, p, rfl, hh, -⟩
  · refine ⟨a, defaultPort isHttps, splitPort_of_notMem hMem isHttps r, hMem, ha, ?_, .inr ⟨rfl, rfl⟩⟩
    cases isHttps <;> decide +kernel
  · simp only [List.mem_append, List.mem_cons, not_or] at ha
    exact ⟨h, p, splitPort_append hh isHttps p r, hh, ha.1, ha.2.2, .inl rfl⟩

theorem scheme_text_iff {k a h p r : Bytes} {isHttps : Bool} (hk : (':' : UInt8) ∉ k ∧ ('/' : UInt8) ∉ k)
    (ha : ('/' : UInt8) ∉ a) (hr : Resource r) (hh : (':' : UInt8) ∉ h ∧ ('/' : UInt8) ∉ h) (hp : ('/' : UInt8) ∉ p)
    (hAuthority : a = h ++ (':' : UInt8) :: p ∨ a = h ∧ p = defaultPort isHttps) :
    k ++ [(':' : UInt8)] ++ ascii "//" <+: h ++ (':' : UInt8) :: p ++ (if r = [] then ascii "/" else r) ↔
      k ++ [(':' : UInt8)] ++ ascii "//" <+: a ++ r := by
  have hColon : ('/' : UInt8) ∉ k ++ [(':' : UInt8)] := by
    simp only [List.mem_append, not_or]
    exact ⟨hk.2, by decide⟩
  have hTogether : ('/' : UInt8) ∉ h ++ (':' : UInt8) :: p := by
    simp only [List.mem_append, List.mem_cons, not_or]
    exact ⟨hh.2, by decide, hp⟩
  rw [scheme_iff hColon hTogether (.inr (resource_supplied hr)), scheme_iff hColon ha hr, slashes_prefix hr]
  rcases hAuthority with rfl | ⟨rfl, rfl⟩
  · exact Iff.rfl
  · constructor
    · rintro ⟨hEq, -⟩
      obtain ⟨-, hEmpty⟩ := append_at hk.1 hh.1 hEq
      have hSome : [] ≠ defaultPort isHttps := by cases isHttps <;> decide +kernel
      exact absurd hEmpty hSome
    · rintro ⟨hEq, -⟩
      exact absurd (hEq ▸ List.mem_append_right k (List.mem_singleton_self _)) hh.1

theorem removeScheme_cases (s : Bytes) :
    (∃ y isHttps, (s = ascii "http:" ++ (ascii "//" ++ y) ∨ s = ascii "https:" ++ (ascii "//" ++ y)) ∧
        removeScheme s = (isHttps, y)) ∨
      ¬ httpPrefix <+: s ∧ ¬ httpsPrefix <+: s := by
  by_cases hHttp : httpPrefix <+: s
  · obtain ⟨y, rfl⟩ := hHttp
    refine .inl ⟨y, false, .inl ?_, ?_⟩
    · rw [← List.append_assoc]
      rfl
    · rw [removeScheme, if_pos (List.prefix_append _ _), List.drop_left]
  by_cases hHttps : httpsPrefix <+: s
  · have hRemoved : removeScheme s =
      (true, s.drop httpsPrefix.length) := by rw [removeScheme, if_neg hHttp, if_pos hHttps]
    obtain ⟨y, rfl⟩ := hHttps
    rw [List.drop_left] at hRemoved
    refine .inl ⟨y, true, .inr ?_, hRemoved⟩
    rw [← List.append_assoc]
    rfl
  · exact .inr ⟨hHttp, hHttps⟩

theorem resourcePath_length {s y : Bytes} {isHttps : Bool} (h : removeScheme s = (isHttps, y)) :
    (parseUri s).resourcePath.length ≤ y.length + 1 := by
  obtain ⟨a, r, rfl, ha, hr⟩ := view_split y
  obtain ⟨host, port, hParts, -⟩ := splitPort_cases ha isHttps (if r = [] then ascii "/" else r)
  rw [parseUri_of_view h rfl ha hr, hParts]
  rcases hr with rfl | ⟨t, rfl⟩
  · simp [ascii]
  · simp only [List.cons_ne_nil, if_false, List.length_append, List.length_cons]
    omega

theorem resourcePath_shorter {s a t : Bytes} (ha : ('/' : UInt8) ∉ a) (hText : s = a ++ ('/' : UInt8) :: t)
    (h : httpPrefix <+: s ∨ httpsPrefix <+: s) : (parseUri s).resourcePath ≠ ('/' : UInt8) :: t := by
  rcases removeScheme_cases s with ⟨y, isHttps, hScheme, hRemoved⟩ | hNone
  · have hSlashes : ascii "//" ++ y = ('/' : UInt8) :: ('/' : UInt8) :: y := rfl
    have hRest : ('/' : UInt8) :: y = t := by
      rw [hSlashes] at hScheme
      rcases hScheme with hScheme | hScheme <;> rw [hScheme] at hText
      · exact (append_at (by decide +kernel) ha hText).2
      · exact (append_at (by decide +kernel) ha hText).2
    intro hSame
    have hLength := resourcePath_length hRemoved
    rw [hSame, ← hRest] at hLength
    simp only [List.length_cons] at hLength
    omega
  · exact absurd h (not_or.mpr hNone)

/-- What the three parts are, for any string, and when they are read again. -/
theorem parseUri_normal (s : Bytes) :
    (('/' : UInt8) ∉ (parseUri s).serverUrl ∧ (':' : UInt8) ∉ (parseUri s).serverUrl) ∧
      ('/' : UInt8) ∉ (parseUri s).serverPort ∧ (parseUri s).resourcePath.head? = some ('/' : UInt8) ∧
      (parseUri (parseUri s).text = parseUri s ↔ ¬ SchemeTwice s) := by
  obtain ⟨a, r, hView, ha, hr⟩ := view_split (removeScheme s).2
  have hScheme : removeScheme s = ((removeScheme s).1, (removeScheme s).2) := rfl
  obtain ⟨h, p, hParts, hColon, hSlash, hPort, hAuthority⟩ :=
    splitPort_cases ha (removeScheme s).1 (if r = [] then ascii "/" else r)
  have hFull : parseUri s = ⟨h, p, if r = [] then ascii "/" else r⟩ :=
    (parseUri_of_view hScheme hView ha hr).trans hParts
  obtain ⟨t, ht⟩ := resource_supplied hr
  have hTogether : ('/' : UInt8) ∉ h ++ (':' : UInt8) :: p := by
    simp only [List.mem_append, List.mem_cons, not_or]
    exact ⟨hSlash, by decide, hPort⟩
  have hText : (parseUri s).text = h ++ (':' : UInt8) :: p ++ ('/' : UInt8) :: t := by
    rw [hFull, UriParts.text, ht]
    simp
  have hAgain (k : Bytes) (hk : (':' : UInt8) ∉ k ∧ ('/' : UInt8) ∉ k) :
      k ++ [(':' : UInt8)] ++ ascii "//" <+: (parseUri s).text ↔
        k ++ [(':' : UInt8)] ++ ascii "//" <+: (removeScheme s).2 := by
    rw [hText, hView, ← ht]
    exact scheme_text_iff hk ha hr ⟨hColon, hSlash⟩ hPort hAuthority
  have hHttp := hAgain (ascii "http") (by decide +kernel)
  have hHttps := hAgain (ascii "https") (by decide +kernel)
  have hTwice : SchemeTwice s ↔ httpPrefix <+: (parseUri s).text ∨ httpsPrefix <+: (parseUri s).text :=
    or_congr hHttp.symm hHttps.symm
  refine ⟨?_, ?_, ?_, ?_⟩
  · rw [hFull]
    exact ⟨hSlash, hColon⟩
  · rw [hFull]
    exact hPort
  · rw [hFull]
    exact congrArg List.head? ht
  · constructor
    · intro hSame hBoth
      refine resourcePath_shorter hTogether hText (hTwice.mp hBoth) ?_
      rw [hSame, hFull, ht]
    · intro hOnce
      rw [hTwice, not_or] at hOnce
      obtain ⟨hNotHttp, hNotHttps⟩ := hOnce
      rw [parseUri_of_view (removeScheme_of_none hNotHttp hNotHttps) hText hTogether (.inr ⟨t, rfl⟩),
        if_neg (List.cons_ne_nil _ _), splitPort_append hColon, hFull, ht]

/-- The host, the empty port and the path of this one make a URL of their own. -/
theorem schemeTwice_not_normal :
    parseUri (parseUri (ascii "http://http:///x")).text ≠ parseUri (ascii "http://http:///x") := by decide +kernel

end HttpUtils
