import HttpUtils.HttpParser.ParseUrl

/-!
# The authority that `http_parse_host` reads

The user information, the host with or without brackets, and the port, at their offsets. The offsets have 16 bits,
which is enough for a buffer of less than 64 KiB.
-/

namespace HttpUtils
set_option autoImplicit false

/-! ### The place of a field -/

theorem uint16_of_lt {n : ℕ} (h : n < 2 ^ 16) : uint16 n = n := Nat.mod_eq_of_lt h

namespace HttpParserUrl

def Has (u : HttpParserUrl) (uf : UrlField) (o : ℕ) (l x : Bytes) : Prop := u.fieldData uf = ⟨o + l.length, x.length⟩

variable {u : HttpParserUrl} {uf : UrlField} {o : ℕ} {l x w : Bytes}

theorem Has.grow (h : u.Has uf o l x) (hShort : o + (l ++ x).length < 2 ^ 16 - 1) (c : UInt8) :
    (u.grow uf).Has uf o l (x ++ [c]) := by
  rw [Has] at h
  rw [List.length_append] at hShort
  rw [Has, fieldData_grow_self, h, uint16_of_lt (by dsimp only; omega)]
  simp

theorem has_place (hLen : (u.fieldData uf).len = 0) (hShort : o + w.length < 2 ^ 16) (c : UInt8) :
    ((u.place uf (o + w.length)).grow uf).Has uf o w [c] := by
  rw [Has, fieldData_grow_self, fieldData_place_self, hLen, uint16_of_lt hShort]
  rfl

theorem has_start (hShort : o + w.length < 2 ^ 16) (c : UInt8) :
    ((u.start uf (o + w.length) 0).grow uf).Has uf o w [c] := by
  rw [Has, fieldData_grow_self, fieldData_start_self, uint16_of_lt hShort]
  rfl

theorem Has.text {r full : Bytes} (h : u.Has uf o l x) {front : Bytes} (hFull : full = front ++ (l ++ (x ++ r)))
    (hFront : front.length = o) : u.text full uf = x := by
  have hSplit : full = (front ++ l) ++ (x ++ r) := by rw [hFull, List.append_assoc]
  have hOff : o + l.length = (front ++ l).length := by rw [List.length_append, hFront]
  rw [Has] at h
  rw [HttpParserUrl.text, h]
  dsimp only
  rw [hOff, hSplit, List.drop_left, List.take_left]

end HttpParserUrl

/-! ### What `http_parse_host` reads -/

def HostByte (c : UInt8) : Prop := c ≠ '@' ∧ c ≠ '[' ∧ c ≠ '?'

theorem hostByte_of_isHostChar {c : UInt8} (h : isHostChar c = true) : HostByte c ∧ c ≠ ':' := by
  have hAll : ∀ c : UInt8, isHostChar c = true →
      (c ≠ '@' ∧ c ≠ '[' ∧ c ≠ '?') ∧ c ≠ ':' := forall_byte (by decide +kernel)
  exact hAll c h

theorem hostByte_of_isV6Char {c : UInt8} (h : isV6Char c = true) : HostByte c := by
  have hAll : ∀ c : UInt8, isV6Char c = true → c ≠ '@' ∧ c ≠ '[' ∧ c ≠ '?' := forall_byte (by decide +kernel)
  exact hAll c h

theorem hostByte_of_isZoneChar {c : UInt8} (h : isZoneChar c = true) : HostByte c := by
  have hAll : ∀ c : UInt8, isZoneChar c = true → c ≠ '@' ∧ c ≠ '[' ∧ c ≠ '?' := forall_byte (by decide +kernel)
  exact hAll c h

def Front (foundAt : Bool) (l : Bytes) : Prop := foundAt = false ∧ l = [] ∨ ∃ i, l = i ++ [('@' : UInt8)]

inductive HostRead (foundAt : Bool) (o : ℕ) (w : Bytes) (u : HttpParserUrl) : Prop
  | plain (l x : Bytes) (hText : w = l ++ x) (hFront : Front foundAt l) (hSome : x ≠ [])
      (hBytes : ∀ c ∈ x, HostByte c ∧ c ≠ ':') (hHas : u.Has .host o l x)
  | bracketed (l x : Bytes) (hText : w = l ++ [('[' : UInt8)] ++ x ++ [(']' : UInt8)]) (hFront : Front foundAt l)
      (hBytes : ∀ c ∈ x, HostByte c) (hHas : u.Has .host o (l ++ [('[' : UInt8)]) x)

def Bracketed (foundAt : Bool) (o : ℕ) (w : Bytes) (u : HttpParserUrl) : Prop :=
  ∃ l x, w = l ++ [('[' : UInt8)] ++ x ∧ Front foundAt l ∧ (∀ c ∈ x, HostByte c) ∧
    u.Has .host o (l ++ [('[' : UInt8)]) x

/-- `http_parse_host` behind the bytes `w` of the authority, which begins at `o`. -/
def HostAt (foundAt : Bool) (o : ℕ) (w : Bytes) (s : HostState) (u : HttpParserUrl) : Prop :=
  match s with
  | .sHttpHostDead => False
  | .sHttpUserinfoStart => w = [] ∧ (u.fieldData .host).len = 0 ∧ u.fieldSet .port = false
  | .sHttpUserinfo => (u.fieldData .host).len = 0 ∧ u.fieldSet .port = false
  | .sHttpHostStart => Front foundAt w ∧ (u.fieldData .host).len = 0 ∧ u.fieldSet .port = false
  | .sHttpHostV6Start =>
    (∃ l, w = l ++ [('[' : UInt8)] ∧ Front foundAt l) ∧ (u.fieldData .host).len = 0 ∧ u.fieldSet .port = false
  | .sHttpHost =>
    (∃ l x, w = l ++ x ∧ Front foundAt l ∧ x ≠ [] ∧ (∀ c ∈ x, HostByte c ∧ c ≠ ':') ∧ u.Has .host o l x) ∧
      u.fieldSet .port = false
  | .sHttpHostV6 | .sHttpHostV6ZoneStart | .sHttpHostV6Zone => Bracketed foundAt o w u ∧ u.fieldSet .port = false
  | .sHttpHostV6End => HostRead foundAt o w u ∧ u.fieldSet .port = false
  | .sHttpHostPortStart => (∃ q, w = q ++ [(':' : UInt8)] ∧ HostRead foundAt o q u) ∧ u.fieldSet .port = false
  | .sHttpHostPort =>
    (∃ q d, w = q ++ [(':' : UInt8)] ++ d ∧ HostRead foundAt o q u ∧ (∀ c ∈ d, isNum c = true) ∧
      u.Has .port o (q ++ [(':' : UInt8)]) d) ∧ u.fieldSet .port = true

theorem HostRead.congr {foundAt : Bool} {o : ℕ} {w : Bytes} {u u' : HttpParserUrl} (h : HostRead foundAt o w u)
    (hSame : u'.fieldData .host = u.fieldData .host) : HostRead foundAt o w u' := by
  cases h with
  | plain l x hText hFront hSome hBytes hHas => exact .plain l x hText hFront hSome hBytes (hSame.trans hHas)
  | bracketed l x hText hFront hBytes hHas => exact .bracketed l x hText hFront hBytes (hSame.trans hHas)

section

variable {foundAt : Bool} {o : ℕ} {w : Bytes} {u : HttpParserUrl} {ch : UInt8}

theorem forall_concat {p : UInt8 → Prop} {x : Bytes} (h : ∀ c ∈ x, p c) (hc : p ch) : ∀ c ∈ x ++ [ch], p c := by
  intro c hMem
  rcases List.mem_append.mp hMem with hMem | hMem
  · exact h c hMem
  · rwa [List.mem_singleton.mp hMem]

theorem hostByte_user {s : HostState} (hs : s = .sHttpUserinfoStart ∨ s = .sHttpUserinfo)
    (h : HostAt foundAt o w s u) (hLive : httpParseHostChar s ch ≠ .sHttpHostDead) :
    HostAt foundAt o (w ++ [ch]) (httpParseHostChar s ch)
      (hostField u (o + w.length) s (httpParseHostChar s ch)) := by
  have hData : (u.fieldData .host).len = 0 ∧ u.fieldSet .port = false := by
    rcases hs with rfl | rfl
    · exact h.2
    · exact h
  have hChar : httpParseHostChar s ch =
      if ch = '@' then .sHttpHostStart else if isUserinfoChar ch then .sHttpUserinfo else .sHttpHostDead := by
    rcases hs with rfl | rfl <;> rfl
  rw [hChar] at hLive ⊢
  split
  · rename_i hAt
    subst hAt
    exact ⟨.inr ⟨w, rfl⟩, hData⟩
  split
  · have hPort (v : HttpParserUrl) (hv : v.fieldData .host = u.fieldData .host ∧
      v.fieldSet .port = u.fieldSet .port) :
        HostAt foundAt o (w ++ [ch]) .sHttpUserinfo (v.grow .userinfo) := by
      constructor
      · rw [HttpParserUrl.fieldData_grow _ (by decide), hv.1]
        exact hData.1
      · exact hv.2.trans hData.2
    simp only [hostField]
    split
    · apply hPort
      constructor
      · exact (u.fieldData_start (by decide) _ _).1
      · exact (u.fieldData_start (by decide) _ _).2
    · exact hPort u ⟨rfl, rfl⟩
  · rename_i hAt hUser
    rw [if_neg hAt, if_neg hUser] at hLive
    exact absurd rfl hLive

theorem hostByte_start (h : HostAt foundAt o w .sHttpHostStart u) (hShort : o + w.length + 1 < 2 ^ 16)
    (hLive : httpParseHostChar .sHttpHostStart ch ≠ .sHttpHostDead) :
    HostAt foundAt o (w ++ [ch]) (httpParseHostChar .sHttpHostStart ch)
      (hostField u (o + w.length) .sHttpHostStart (httpParseHostChar .sHttpHostStart ch)) := by
  obtain ⟨hFront, hLen, hPort⟩ := h
  simp only [httpParseHostChar] at hLive ⊢
  split
  · rename_i hBracket
    subst hBracket
    exact ⟨⟨w, rfl, hFront⟩, hLen, hPort⟩
  split
  · rename_i hHost
    refine ⟨⟨w, [ch], rfl, hFront, by simp, ?_, HttpParserUrl.has_place hLen (by omega) ch⟩, hPort⟩
    intro c hc
    obtain rfl := List.mem_singleton.mp hc
    exact hostByte_of_isHostChar hHost
  · rename_i hBracket hHost
    rw [if_neg hBracket, if_neg hHost] at hLive
    exact absurd rfl hLive

theorem hostByte_host (h : HostAt foundAt o w .sHttpHost u) (hShort : o + w.length + 1 < 2 ^ 16)
    (hLive : httpParseHostChar .sHttpHost ch ≠ .sHttpHostDead) :
    HostAt foundAt o (w ++ [ch]) (httpParseHostChar .sHttpHost ch)
      (hostField u (o + w.length) .sHttpHost (httpParseHostChar .sHttpHost ch)) := by
  obtain ⟨⟨l, x, rfl, hFront, hSome, hBytes, hHas⟩, hPort⟩ := h
  simp only [httpParseHostChar] at hLive ⊢
  split
  · rename_i hHost
    refine ⟨⟨l, x ++ [ch], List.append_assoc l x [ch], hFront, by simp, ?_, hHas.grow (by omega) ch⟩, hPort⟩
    exact forall_concat hBytes (hostByte_of_isHostChar hHost)
  split
  · rename_i hColon
    subst hColon
    exact ⟨⟨l ++ x, rfl, .plain l x rfl hFront hSome hBytes hHas⟩, hPort⟩
  · rename_i hHost hColon
    rw [if_neg hHost, if_neg hColon] at hLive
    exact absurd rfl hLive

theorem Bracketed.grow (h : Bracketed foundAt o w u) (hShort : o + w.length + 1 < 2 ^ 16) (hByte : HostByte ch) :
    Bracketed foundAt o (w ++ [ch]) (u.grow .host) := by
  obtain ⟨l, x, rfl, hFront, hBytes, hHas⟩ := h
  exact ⟨l, x ++ [ch], List.append_assoc _ x [ch], hFront, forall_concat hBytes hByte, hHas.grow (by omega) ch⟩

theorem Bracketed.close (h : Bracketed foundAt o w u) : HostRead foundAt o (w ++ [(']' : UInt8)]) u := by
  obtain ⟨l, x, rfl, hFront, hBytes, hHas⟩ := h
  exact .bracketed l x rfl hFront hBytes hHas

theorem hostByte_v6Start (h : HostAt foundAt o w .sHttpHostV6Start u) (hShort : o + w.length + 1 < 2 ^ 16)
    (hLive : httpParseHostChar .sHttpHostV6Start ch ≠ .sHttpHostDead) :
    HostAt foundAt o (w ++ [ch]) (httpParseHostChar .sHttpHostV6Start ch)
      (hostField u (o + w.length) .sHttpHostV6Start (httpParseHostChar .sHttpHostV6Start ch)) := by
  obtain ⟨⟨l, rfl, hFront⟩, hLen, hPort⟩ := h
  simp only [httpParseHostChar] at hLive ⊢
  split
  · rename_i hV6
    refine ⟨⟨l, [ch], rfl, hFront, ?_, HttpParserUrl.has_place hLen (by omega) ch⟩, hPort⟩
    intro c hc
    obtain rfl := List.mem_singleton.mp hc
    exact hostByte_of_isV6Char hV6
  · rename_i hV6
    rw [if_neg hV6] at hLive
    exact absurd rfl hLive

theorem hostByte_v6 {s : HostState} (hs : s = .sHttpHostV6 ∨ s = .sHttpHostV6ZoneStart ∨ s = .sHttpHostV6Zone)
    (h : HostAt foundAt o w s u) (hShort : o + w.length + 1 < 2 ^ 16)
    (hLive : httpParseHostChar s ch ≠ .sHttpHostDead) :
    HostAt foundAt o (w ++ [ch]) (httpParseHostChar s ch)
      (hostField u (o + w.length) s (httpParseHostChar s ch)) := by
  have hIn : Bracketed foundAt o w u ∧ u.fieldSet .port = false := by
    rcases hs with rfl | rfl | rfl <;> exact h
  obtain ⟨hIn, hPort⟩ := hIn
  rcases hs with rfl | rfl | rfl <;> simp only [httpParseHostChar] at hLive ⊢
  · split
    · rename_i hClose
      subst hClose
      exact ⟨hIn.close, hPort⟩
    split
    · rename_i hV6
      exact ⟨hIn.grow hShort (hostByte_of_isV6Char hV6), hPort⟩
    split
    · rename_i hPercent
      subst hPercent
      exact ⟨hIn.grow hShort (by unfold HostByte; decide), hPort⟩
    · rename_i hClose hV6 hPercent
      rw [if_neg hClose, if_neg hV6, if_neg hPercent] at hLive
      exact absurd rfl hLive
  · split
    · rename_i hZone
      exact ⟨hIn.grow hShort (hostByte_of_isZoneChar hZone), hPort⟩
    · rename_i hZone
      rw [if_neg hZone] at hLive
      exact absurd rfl hLive
  · split
    · rename_i hClose
      subst hClose
      exact ⟨hIn.close, hPort⟩
    split
    · rename_i hZone
      exact ⟨hIn.grow hShort (hostByte_of_isZoneChar hZone), hPort⟩
    · rename_i hClose hZone
      rw [if_neg hClose, if_neg hZone] at hLive
      exact absurd rfl hLive

theorem hostByte_v6End (h : HostAt foundAt o w .sHttpHostV6End u)
    (hLive : httpParseHostChar .sHttpHostV6End ch ≠ .sHttpHostDead) :
    HostAt foundAt o (w ++ [ch]) (httpParseHostChar .sHttpHostV6End ch)
      (hostField u (o + w.length) .sHttpHostV6End (httpParseHostChar .sHttpHostV6End ch)) := by
  simp only [httpParseHostChar] at hLive ⊢
  split
  · rename_i hColon
    subst hColon
    exact ⟨⟨w, rfl, h.1⟩, h.2⟩
  · rename_i hColon
    rw [if_neg hColon] at hLive
    exact absurd rfl hLive

theorem hostByte_port {s : HostState} (hs : s = .sHttpHostPortStart ∨ s = .sHttpHostPort)
    (h : HostAt foundAt o w s u) (hShort : o + w.length + 1 < 2 ^ 16)
    (hLive : httpParseHostChar s ch ≠ .sHttpHostDead) :
    HostAt foundAt o (w ++ [ch]) (httpParseHostChar s ch)
      (hostField u (o + w.length) s (httpParseHostChar s ch)) := by
  have hChar : httpParseHostChar s ch = if isNum ch then .sHttpHostPort else .sHttpHostDead := by
    rcases hs with rfl | rfl <;> rfl
  have hNum : isNum ch = true := by
    by_contra hNot
    rw [hChar, if_neg hNot] at hLive
    exact hLive rfl
  rw [hChar, if_pos hNum]
  rcases hs with rfl | rfl
  · obtain ⟨⟨q, rfl, hHost⟩, -⟩ := h
    constructor
    · refine ⟨q, [ch], rfl, hHost.congr ?_, ?_, HttpParserUrl.has_start (by omega) ch⟩
      · exact (HttpParserUrl.fieldData_grow _ (by decide)).trans (HttpParserUrl.fieldData_start _ (by decide) _ _).1
      · intro c hc
        obtain rfl := List.mem_singleton.mp hc
        exact hNum
    · exact u.fieldSet_start .port (o + (q ++ [(':' : UInt8)]).length) 0
  · obtain ⟨⟨q, d, rfl, hHost, hNums, hHas⟩, hPort⟩ := h
    constructor
    · exact ⟨q, d ++ [ch], List.append_assoc _ d [ch], hHost.congr (HttpParserUrl.fieldData_grow _ (by decide)),
        forall_concat hNums hNum, hHas.grow (by omega) ch⟩
    · exact hPort

theorem hostByte_at {s : HostState} (h : HostAt foundAt o w s u) (hShort : o + w.length + 1 < 2 ^ 16)
    (hLive : httpParseHostChar s ch ≠ .sHttpHostDead) :
    HostAt foundAt o (w ++ [ch]) (httpParseHostChar s ch)
      (hostField u (o + w.length) s (httpParseHostChar s ch)) := by
  cases s with
  | sHttpHostDead => exact h.elim
  | sHttpUserinfoStart => exact hostByte_user (.inl rfl) h hLive
  | sHttpUserinfo => exact hostByte_user (.inr rfl) h hLive
  | sHttpHostStart => exact hostByte_start h hShort hLive
  | sHttpHost => exact hostByte_host h hShort hLive
  | sHttpHostV6Start => exact hostByte_v6Start h hShort hLive
  | sHttpHostV6 => exact hostByte_v6 (.inl rfl) h hShort hLive
  | sHttpHostV6ZoneStart => exact hostByte_v6 (.inr (.inl rfl)) h hShort hLive
  | sHttpHostV6Zone => exact hostByte_v6 (.inr (.inr rfl)) h hShort hLive
  | sHttpHostV6End => exact hostByte_v6End h hLive
  | sHttpHostPortStart => exact hostByte_port (.inl rfl) h hShort hLive
  | sHttpHostPort => exact hostByte_port (.inr rfl) h hShort hLive

theorem hostLoop_at {data : Bytes} {s s' : HostState} {u' : HttpParserUrl} (h : HostAt foundAt o w s u)
    (hShort : o + w.length + data.length < 2 ^ 16) (hLoop : hostLoop data (o + w.length) s u = some (s', u')) :
    HostAt foundAt o (w ++ data) s' u' := by
  induction data generalizing w s u with
  | nil =>
    obtain ⟨rfl, rfl⟩ := Prod.mk.inj (Option.some.inj hLoop)
    rwa [List.append_nil]
  | cons ch data ih =>
    simp only [hostLoop] at hLoop
    split at hLoop
    · cases hLoop
    · rename_i hLive
      rw [List.length_cons] at hShort
      have hNext := hostByte_at h (by omega) hLive
      rw [List.append_cons]
      refine ih hNext ?_ ?_
      · rw [List.length_append, List.length_singleton]
        omega
      · rwa [List.length_append, List.length_singleton, ← Nat.add_assoc]

inductive AuthorityRead (foundAt : Bool) (o : ℕ) (a : Bytes) (u : HttpParserUrl) : Prop
  | host (hHost : HostRead foundAt o a u) (hUnset : u.fieldSet .port = false)
  | hostPort (q d : Bytes) (hText : a = q ++ [(':' : UInt8)] ++ d) (hHost : HostRead foundAt o q u)
      (hNums : ∀ c ∈ d, isNum c = true) (hHas : u.Has .port o (q ++ [(':' : UInt8)]) d)
      (hSet : u.fieldSet .port = true)

theorem schema_hostField (u : HttpParserUrl) (p : ℕ) (s newS : HostState) :
    (hostField u p s newS).fieldData .schema = u.fieldData .schema ∧
      (hostField u p s newS).fieldSet .schema = u.fieldSet .schema := by
  have hGrow (v : HttpParserUrl) (uf : UrlField) (hField : .schema ≠ uf)
      (hv : v.fieldData .schema = u.fieldData .schema ∧ v.fieldSet .schema = u.fieldSet .schema) :
      (v.grow uf).fieldData .schema = u.fieldData .schema ∧ (v.grow uf).fieldSet .schema = u.fieldSet .schema :=
    ⟨(v.fieldData_grow hField).trans hv.1, hv.2⟩
  have hPlace : (u.place .host p).fieldData .schema = u.fieldData .schema := u.fieldData_place (by decide) p
  unfold hostField
  split
  · apply hGrow _ _ (by decide)
    split
    · exact ⟨hPlace, rfl⟩
    · exact ⟨rfl, rfl⟩
  · apply hGrow _ _ (by decide)
    split
    · exact ⟨hPlace, rfl⟩
    · exact ⟨rfl, rfl⟩
  · exact hGrow u _ (by decide) ⟨rfl, rfl⟩
  · exact hGrow u _ (by decide) ⟨rfl, rfl⟩
  · apply hGrow _ _ (by decide)
    split
    · exact u.fieldData_start (by decide) p 0
    · exact ⟨rfl, rfl⟩
  · apply hGrow _ _ (by decide)
    split
    · exact u.fieldData_start (by decide) p 0
    · exact ⟨rfl, rfl⟩
  · exact ⟨rfl, rfl⟩

theorem schema_hostLoop {data : Bytes} {p : ℕ} {s s' : HostState} {u' : HttpParserUrl}
    (h : hostLoop data p s u = some (s', u')) :
    u'.fieldData .schema = u.fieldData .schema ∧ u'.fieldSet .schema = u.fieldSet .schema := by
  induction data generalizing p s u with
  | nil =>
    obtain ⟨rfl, rfl⟩ := Prod.mk.inj (Option.some.inj h)
    exact ⟨rfl, rfl⟩
  | cons ch data ih =>
    simp only [hostLoop] at h
    split at h
    · cases h
    · obtain ⟨hData, hSet⟩ := ih h
      obtain ⟨hData', hSet'⟩ := schema_hostField u p s (httpParseHostChar s ch)
      exact ⟨hData.trans hData', hSet.trans hSet'⟩

theorem schema_httpParseHost {buf : Bytes} {u' : HttpParserUrl} (h : httpParseHost buf u foundAt = some u') :
    u'.fieldData .schema = u.fieldData .schema ∧ u'.fieldSet .schema = u.fieldSet .schema := by
  simp only [httpParseHost] at h
  split at h
  · cases h
  · rename_i hLoop
    split at h
    · cases h
    · obtain rfl := Option.some.inj h
      obtain ⟨hData, hSet⟩ := schema_hostLoop hLoop
      exact ⟨hData.trans (u.fieldData_clear (by decide)), hSet⟩

theorem httpParseHost_reads {buf a : Bytes} {u' : HttpParserUrl} (h : httpParseHost buf u foundAt = some u')
    (hOff : (u.fieldData .host).off = o) (hText : u.text buf .host = a) (hUnset : u.fieldSet .port = false)
    (hShort : o + a.length < 2 ^ 16) : AuthorityRead foundAt o a u' := by
  simp only [httpParseHost, hText, hOff] at h
  have hLen : ((u.clear .host).fieldData .host).len = 0 := by rw [u.fieldData_clear_self]
  have hAt : HostAt foundAt o [] (if foundAt then .sHttpUserinfoStart else .sHttpHostStart) (u.clear .host) := by
    cases foundAt
    · exact ⟨.inl ⟨rfl, rfl⟩, hLen, hUnset⟩
    · exact ⟨rfl, hLen, hUnset⟩
  split at h
  · cases h
  · rename_i s v' hLoop
    have hEnd := hostLoop_at hAt (by simpa using hShort) hLoop
    rw [List.nil_append] at hEnd
    split at h
    · cases h
    · rename_i hFinished
      obtain rfl := Option.some.inj h
      cases s with
      | sHttpHost =>
        obtain ⟨⟨l, x, hSplit, hFront, hSome, hBytes, hHas⟩, hNone⟩ := hEnd
        exact .host (.plain l x hSplit hFront hSome hBytes hHas) hNone
      | sHttpHostV6End => exact .host hEnd.1 hEnd.2
      | sHttpHostPort =>
        obtain ⟨⟨q, d, hSplit, hHost, hNums, hHas⟩, hSome⟩ := hEnd
        exact .hostPort q d hSplit hHost hNums hHas hSome
      | sHttpHostDead => exact hEnd.elim
      | _ => exact absurd rfl hFinished

end

end HttpUtils
