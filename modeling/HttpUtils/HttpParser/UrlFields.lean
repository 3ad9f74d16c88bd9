import HttpUtils.HttpParser.ParseHost

/-!
# The fields of a URL that is accepted

The loop of `http_parser_parse_url`, behind each prefix of the URL, and the whole function.
-/

namespace HttpUtils
set_option autoImplicit false

/-! ### What the loop reads -/

def AuthorityByte (c : UInt8) : Prop := c ≠ '/' ∧ c ≠ '?' ∧ c ≠ '#'

namespace UrlScan

structure Schemed (t : UrlScan) (scheme : Bytes) : Prop where
  set : t.u.fieldSet .schema = true
  has : t.u.Has .schema 0 [] scheme
  noPort : t.u.fieldSet .port = false

structure Hosted (t : UrlScan) (scheme a : Bytes) : Prop where
  set : t.u.fieldSet .host = true
  has : t.u.Has .host 0 (scheme ++ ascii "://") a
  some : a ≠ []
  bytes : ∀ c ∈ a, AuthorityByte c
  foundAt : t.foundAt = true ↔ ('@' : UInt8) ∈ a

structure Bare (t : UrlScan) : Prop where
  oldUf : t.oldUf = some .schema
  notFound : t.foundAt = false
  unset : t.u.fieldSet .host = false

def Beyond (t : UrlScan) (w : Bytes) : Prop :=
  t.u.fieldSet .schema = false ∨
    ∃ (scheme a : Bytes) (c : UInt8) (r : Bytes), w = scheme ++ ascii "://" ++ a ++ c :: r ∧ (c = '/' ∨ c = '?') ∧
      t.Schemed scheme ∧ (t.Hosted scheme a ∨ t.u.fieldSet .host = false)

def At (t : UrlScan) (w : Bytes) : Prop :=
  match t.s with
  | .sReqSpacesBeforeUrl =>
    w = [] ∧ t.oldUf = none ∧ t.foundAt = false ∧ t.u.fieldSet .schema = false ∧ t.u.fieldSet .host = false ∧
      t.u.fieldSet .port = false
  | .sReqSchema => t.Schemed w ∧ t.Bare
  | .sReqSchemaSlash => (∃ scheme, w = scheme ++ ascii ":" ∧ t.Schemed scheme) ∧ t.Bare
  | .sReqSchemaSlashSlash => (∃ scheme, w = scheme ++ ascii ":/" ∧ t.Schemed scheme) ∧ t.Bare
  | .sReqServerStart => (∃ scheme, w = scheme ++ ascii "://" ∧ t.Schemed scheme) ∧ t.Bare
  | .sReqServer | .sReqServerWithAt =>
    (∃ scheme a, w = scheme ++ ascii "://" ++ a ∧ t.Schemed scheme ∧ t.Hosted scheme a) ∧ t.oldUf = some .host
  | .sReqPath | .sReqQueryStringStart | .sReqQueryString | .sReqFragmentStart | .sReqFragment => t.Beyond w
  | _ => False

theorem enter_frame (t : UrlScan) (p : ℕ) (uf : UrlField) {f : UrlField} (h : f ≠ uf) :
    (t.enter p uf).u.fieldData f = t.u.fieldData f ∧ (t.enter p uf).u.fieldSet f = t.u.fieldSet f := by
  unfold enter
  split
  · exact ⟨t.u.fieldData_grow h, rfl⟩
  · exact t.u.fieldData_start h p 1

theorem enter_s (t : UrlScan) (p : ℕ) (uf : UrlField) :
    (t.enter p uf).s = t.s ∧ (t.enter p uf).foundAt = t.foundAt ∧ (t.enter p uf).oldUf = some uf := by
  unfold enter
  split
  · rename_i hOld
    exact ⟨rfl, rfl, hOld⟩
  · exact ⟨rfl, rfl, rfl⟩

section

variable {t t' : UrlScan} {w scheme a : Bytes} {p : ℕ} {uf : UrlField} {ch : UInt8}

theorem Schemed.congr (h : t.Schemed scheme) (hData : t'.u.fieldData .schema = t.u.fieldData .schema)
    (hSet : t'.u.fieldSet .schema = t.u.fieldSet .schema) (hPort : t'.u.fieldSet .port = t.u.fieldSet .port) :
    t'.Schemed scheme := ⟨hSet.trans h.set, hData.trans h.has, hPort.trans h.noPort⟩

theorem Hosted.congr (h : t.Hosted scheme a) (hData : t'.u.fieldData .host = t.u.fieldData .host)
    (hSet : t'.u.fieldSet .host = t.u.fieldSet .host) (hFound : t'.foundAt = t.foundAt) : t'.Hosted scheme a :=
  ⟨hSet.trans h.set, hData.trans h.has, h.some, h.bytes, by rw [hFound, h.foundAt]⟩

theorem Beyond.concat (h : t.Beyond w) (ch : UInt8) : t.Beyond (w ++ [ch]) := by
  rcases h with hNone | ⟨scheme, a, c, r, rfl, hRest⟩
  · exact .inl hNone
  · exact .inr ⟨scheme, a, c, r ++ [ch], by simp, hRest⟩

theorem Beyond.move (h : t.Beyond w) (s : State) : ({ t with s := s } : UrlScan).Beyond w := by
  rcases h with hNone | ⟨scheme, a, c, r, hText, hFirst, hSchemed, hHosted⟩
  · exact .inl hNone
  · exact .inr ⟨scheme, a, c, r, hText, hFirst, hSchemed.congr rfl rfl rfl, hHosted.imp_left fun h =>
      h.congr rfl rfl rfl⟩

theorem Beyond.enter (hField : .schema ≠ uf ∧ .host ≠ uf ∧ .port ≠ uf) (h : t.Beyond w) :
    (t.enter p uf).Beyond w := by
  obtain ⟨hSchema, hHost, hPort⟩ := hField
  obtain ⟨hData, hSet⟩ := t.enter_frame p uf hSchema
  obtain ⟨hData', hSet'⟩ := t.enter_frame p uf hHost
  rcases h with hNone | ⟨scheme, a, c, r, hText, hFirst, hSchemed, hHosted⟩
  · exact .inl (hSet.trans hNone)
  · refine .inr ⟨scheme, a, c, r, hText, hFirst, hSchemed.congr hData hSet (t.enter_frame p uf hPort).2, ?_⟩
    rcases hHosted with hHosted | hUnset
    · exact .inl (hHosted.congr hData' hSet' (t.enter_s p uf).2.1)
    · exact .inr (hSet'.trans hUnset)

end

/-! ### One byte of the loop -/

end UrlScan

def State.beyond : State → Bool
  | .sReqPath | .sReqQueryStringStart | .sReqQueryString | .sReqFragmentStart | .sReqFragment => true
  | _ => false

theorem parseUrlChar_beyond {s : State} {ch : UInt8} (h : s.beyond = true) (hLive : parseUrlChar s ch ≠ .sDead) :
    (parseUrlChar s ch).beyond = true := by
  unfold parseUrlChar at hLive ⊢
  split at hLive
  · exact absurd rfl hLive
  · rename_i hBlank
    rw [if_neg hBlank]
    cases s <;> simp only [State.beyond, Bool.false_eq_true] at h <;> dsimp only at hLive ⊢ <;>
      split_ifs at hLive ⊢ <;> first | rfl | exact absurd rfl hLive

theorem parseUrlServer_cases {ch : UInt8} (hLive : parseUrlServer ch ≠ .sDead) :
    (ch = '/' ∨ ch = '?') ∧ (parseUrlServer ch).beyond = true ∨
      AuthorityByte ch ∧ (parseUrlServer ch = .sReqServerWithAt ∧ ch = '@' ∨ parseUrlServer ch = .sReqServer ∧
        ch ≠ '@') := by
  have hAll : ∀ c : UInt8, (isUserinfoChar c || c == '[' || c == ']') = true → c ≠ '/' ∧ c ≠ '?' ∧ c ≠ '#' :=
    forall_byte (by decide +kernel)
  unfold parseUrlServer at hLive ⊢
  split
  · rename_i hSlash
    exact .inl ⟨.inl hSlash, rfl⟩
  split
  · rename_i hQuery
    exact .inl ⟨.inr hQuery, rfl⟩
  split
  · rename_i hAt
    subst hAt
    exact .inr ⟨by unfold AuthorityByte; decide, .inl ⟨rfl, rfl⟩⟩
  split
  · rename_i hAt hByte
    exact .inr ⟨hAll ch hByte, .inr ⟨rfl, hAt⟩⟩
  · rename_i hSlash hQuery hAt hByte
    rw [if_neg hSlash, if_neg hQuery, if_neg hAt, if_neg hByte] at hLive
    exact absurd rfl hLive

namespace UrlScan

variable {t t' : UrlScan} {w : Bytes} {p : ℕ} {ch : UInt8}

theorem at_beyond (hs : t.s.beyond = true) (h : t.Beyond w) : t.At w := by
  unfold At
  cases hState : t.s <;> simp only [hState, State.beyond, Bool.false_eq_true] at hs ⊢ <;> exact h

theorem byte_beyond (h : t.Beyond w) (hs : (parseUrlChar t.s ch).beyond = true) (hByte : t.byte p ch = some t') :
    t'.At w := by
  have hMoved := h.move (parseUrlChar t.s ch)
  have hEnter (uf : UrlField) (hField : .schema ≠ uf ∧ .host ≠ uf ∧ .port ≠ uf) :
      (({ t with s := parseUrlChar t.s ch } : UrlScan).enter p uf).At w := by
    apply at_beyond _ (hMoved.enter hField)
    rw [(enter_s _ p uf).1]
    exact hs
  unfold byte at hByte
  cases hState : parseUrlChar t.s ch <;> simp only [hState, State.beyond, Bool.false_eq_true] at hs <;>
    rw [hState] at hMoved hEnter hByte <;> obtain rfl := Option.some.inj hByte
  · exact hEnter .path (by decide)
  · exact at_beyond rfl hMoved
  · exact hEnter .query (by decide)
  · exact at_beyond rfl hMoved
  · exact hEnter .fragment (by decide)

theorem byte_live (h : t.byte p ch = some t') : parseUrlChar t.s ch ≠ .sDead := by
  intro hDead
  rw [byte, hDead] at h
  cases h

theorem enter_host {scheme a : Bytes}
    (h : t.oldUf = some .schema ∧ a = [] ∨
      t.oldUf = some .host ∧ t.u.fieldSet .host = true ∧ t.u.Has .host 0 (scheme ++ ascii "://") a)
    (hBytes : ∀ c ∈ a ++ [ch], AuthorityByte c) (hFound : t.foundAt = true ↔ ('@' : UInt8) ∈ a ++ [ch])
    (hShort : (scheme ++ ascii "://" ++ a).length + 1 < 2 ^ 16) :
    (t.enter (scheme ++ ascii "://" ++ a).length .host).Hosted scheme (a ++ [ch]) := by
  rcases h with ⟨hOld, rfl⟩ | ⟨hOld, hSet, hHas⟩
  · have hEnter : t.enter (scheme ++ ascii "://" ++ []).length .host =
        { t with oldUf := some .host, u := t.u.start .host (scheme ++ ascii "://").length 1 } := by
      rw [enter, hOld, if_neg (by decide), List.append_nil]
    rw [List.append_nil] at hShort
    rw [hEnter]
    refine ⟨t.u.fieldSet_start .host _ 1, ?_, by simp, hBytes, hFound⟩
    rw [HttpParserUrl.Has, t.u.fieldData_start_self, uint16_of_lt (by omega), Nat.zero_add]
    rfl
  · have hEnter : t.enter (scheme ++ ascii "://" ++ a).length .host = { t with u := t.u.grow .host } := by
      rw [enter, if_pos hOld]
    rw [hEnter]
    exact ⟨hSet, hHas.grow (by omega) ch, by simp, hBytes, hFound⟩

theorem parseUrlChar_server {s : State} (hs : s = .sReqServerStart ∨ s = .sReqServer ∨ s = .sReqServerWithAt)
    (hLive : parseUrlChar s ch ≠ .sDead) : parseUrlChar s ch = parseUrlServer ch := by
  unfold parseUrlChar at hLive ⊢
  split at hLive
  · exact absurd rfl hLive
  · rename_i hBlank
    rw [if_neg hBlank]
    rcases hs with rfl | rfl | rfl
    · rfl
    · rfl
    · dsimp only at hLive ⊢
      split at hLive
      · exact absurd rfl hLive
      · rename_i hAt
        rw [if_neg hAt]

theorem byte_server {scheme a : Bytes} (hs : t.s = .sReqServerStart ∨ t.s = .sReqServer ∨ t.s = .sReqServerWithAt)
    (hSchemed : t.Schemed scheme) (hText : w = scheme ++ ascii "://" ++ a)
    (h : t.Bare ∧ a = [] ∨ t.oldUf = some .host ∧ t.Hosted scheme a) (hShort : w.length + 1 < 2 ^ 16)
    (hByte : t.byte w.length ch = some t') : t'.At (w ++ [ch]) := by
  have hLive := byte_live hByte
  have hChar := parseUrlChar_server hs hLive
  rw [hChar] at hLive
  rcases parseUrlServer_cases hLive with ⟨hFirst, hBeyond⟩ | ⟨hOne, hServer⟩
  · rw [← hChar] at hBeyond
    refine byte_beyond (.inr ⟨scheme, a, ch, [], by rw [hText], hFirst, hSchemed, ?_⟩) hBeyond hByte
    rcases h with ⟨hBare, -⟩ | ⟨-, hHosted⟩
    · exact .inr hBare.unset
    · exact .inl hHosted
  · subst hText
    have hBytes : ∀ c ∈ a ++ [ch], AuthorityByte c := by
      rcases h with ⟨-, rfl⟩ | ⟨-, hHosted⟩
      · exact forall_concat (by simp) hOne
      · exact forall_concat hHosted.bytes hOne
    -- the mark of an at sign is set before the field is entered
    have hEnds (q : UrlScan) (hu : q.u = t.u) (hOld : q.oldUf = t.oldUf)
        (hState : q.s = .sReqServer ∨ q.s = .sReqServerWithAt)
        (hFound : q.foundAt = true ↔ ('@' : UInt8) ∈ a ++ [ch]) :
        (q.enter (scheme ++ ascii "://" ++ a).length .host).At (scheme ++ ascii "://" ++ a ++ [ch]) := by
      obtain ⟨hData, hSet⟩ := q.enter_frame (scheme ++ ascii "://" ++ a).length .host (f := .schema) (by decide)
      have hPort := (q.enter_frame (scheme ++ ascii "://" ++ a).length .host (f := .port) (by decide)).2
      rw [hu] at hData hSet hPort
      have hHosted : (q.enter (scheme ++ ascii "://" ++ a).length .host).Hosted scheme (a ++ [ch]) := by
        apply enter_host _ hBytes hFound hShort
        rw [hu, hOld]
        exact h.imp (fun h => ⟨h.1.oldUf, h.2⟩) fun h => ⟨h.1, h.2.set, h.2.has⟩
      obtain ⟨hs', -, hOld'⟩ := q.enter_s (scheme ++ ascii "://" ++ a).length .host
      have hAll : (∃ scheme' a', scheme ++ ascii "://" ++ a ++ [ch] = scheme' ++ ascii "://" ++ a' ∧
            (q.enter (scheme ++ ascii "://" ++ a).length .host).Schemed scheme' ∧
            (q.enter (scheme ++ ascii "://" ++ a).length .host).Hosted scheme' a') ∧
          (q.enter (scheme ++ ascii "://" ++ a).length .host).oldUf = some .host :=
        ⟨⟨scheme, a ++ [ch], List.append_assoc _ a [ch], hSchemed.congr hData hSet hPort, hHosted⟩, hOld'⟩
      unfold At
      rw [hs']
      rcases hState with hState | hState <;> rw [hState] <;> exact hAll
    have hNone : t.foundAt = true ↔ ('@' : UInt8) ∈ a := by
      rcases h with ⟨hBare, rfl⟩ | ⟨-, hHosted⟩
      · simp [hBare.notFound]
      · exact hHosted.foundAt
    unfold byte at hByte
    rw [hChar] at hByte
    rcases hServer with ⟨hState, rfl⟩ | ⟨hState, hNot⟩
    · rw [hState] at hByte
      obtain rfl := Option.some.inj hByte
      exact hEnds { t with s := .sReqServerWithAt, foundAt := true } rfl rfl (.inr rfl) (by simp)
    · rw [hState] at hByte
      obtain rfl := Option.some.inj hByte
      have hStill : t.foundAt = true ↔ ('@' : UInt8) ∈ a ++ [ch] := by
        rw [hNone, List.mem_append, List.mem_singleton, or_iff_left (Ne.symm hNot)]
      exact hEnds { t with s := .sReqServer } rfl rfl (.inl rfl) hStill

theorem Bare.move (h : t.Bare) (s : State) : ({ t with s := s } : UrlScan).Bare := ⟨h.oldUf, h.notFound, h.unset⟩

theorem Schemed.move (h : t.Schemed w) (s : State) : ({ t with s := s } : UrlScan).Schemed w :=
  ⟨h.set, h.has, h.noPort⟩

theorem parseUrlChar_schema {s : State} (hLive : parseUrlChar s ch ≠ .sDead) :
    (s = .sReqSpacesBeforeUrl → parseUrlChar s ch = .sReqPath ∨ parseUrlChar s ch = .sReqSchema) ∧
      (s = .sReqSchema → parseUrlChar s ch = .sReqSchema ∨ parseUrlChar s ch = .sReqSchemaSlash ∧ ch = ':') ∧
      (s = .sReqSchemaSlash → parseUrlChar s ch = .sReqSchemaSlashSlash ∧ ch = '/') ∧
      (s = .sReqSchemaSlashSlash → parseUrlChar s ch = .sReqServerStart ∧ ch = '/') := by
  unfold parseUrlChar at hLive ⊢
  split at hLive
  · exact absurd rfl hLive
  · rename_i hBlank
    rw [if_neg hBlank]
    refine ⟨?_, ?_, ?_, ?_⟩
    all_goals
      rintro rfl
      dsimp only at hLive ⊢
      split_ifs at hLive ⊢ <;> simp_all

theorem byte_spaces (hs : t.s = .sReqSpacesBeforeUrl)
    (h : t.oldUf = none ∧ t.foundAt = false ∧ t.u.fieldSet .schema = false ∧ t.u.fieldSet .host = false ∧
      t.u.fieldSet .port = false) (hByte : t.byte 0 ch = some t') : t'.At [ch] := by
  obtain ⟨hOld, hFound, hSchema, hHost, hPort⟩ := h
  rcases (parseUrlChar_schema (byte_live hByte)).1 hs with hState | hState
  · apply byte_beyond (.inl hSchema) _ hByte
    rw [hState]
    rfl
  · have hEnter : ({ t with s := .sReqSchema } : UrlScan).enter 0 .schema =
        { t with s := .sReqSchema, oldUf := some .schema, u := t.u.start .schema 0 1 } := by
      rw [enter, if_neg]
      rw [hOld]
      nofun
    unfold byte at hByte
    rw [hState] at hByte
    obtain rfl := Option.some.inj hByte
    rw [hEnter]
    refine ⟨⟨t.u.fieldSet_start .schema 0 1, ?_, ?_⟩, rfl, hFound, ?_⟩
    · rw [HttpParserUrl.Has, t.u.fieldData_start_self]
      rfl
    · exact (t.u.fieldData_start (g := .schema) (f := .port) (by decide) 0 1).2.trans hPort
    · exact (t.u.fieldData_start (g := .schema) (f := .host) (by decide) 0 1).2.trans hHost

theorem byte_schema (hs : t.s = .sReqSchema) (hSchemed : t.Schemed w) (hBare : t.Bare)
    (hShort : w.length + 1 < 2 ^ 16) (hByte : t.byte w.length ch = some t') : t'.At (w ++ [ch]) := by
  rcases (parseUrlChar_schema (byte_live hByte)).2.1 hs with hState | ⟨hState, rfl⟩
  · have hEnter : ({ t with s := .sReqSchema } : UrlScan).enter w.length .schema =
        { t with s := .sReqSchema, u := t.u.grow .schema } := by rw [enter, if_pos hBare.oldUf]
    unfold byte at hByte
    rw [hState] at hByte
    obtain rfl := Option.some.inj hByte
    rw [hEnter]
    refine ⟨⟨hSchemed.set, ?_, hSchemed.noPort⟩, hBare.oldUf, hBare.notFound, hBare.unset⟩
    exact hSchemed.has.grow (by simpa using Nat.lt_sub_of_add_lt hShort) ch
  · unfold byte at hByte
    rw [hState] at hByte
    obtain rfl := Option.some.inj hByte
    exact ⟨⟨w, rfl, hSchemed.move _⟩, hBare.move _⟩

theorem At.byte (h : t.At w) (hShort : w.length + 1 < 2 ^ 16) (hByte : t.byte w.length ch = some t') :
    t'.At (w ++ [ch]) := by
  have hLive := byte_live hByte
  obtain ⟨-, -, hSlash, hSlashSlash⟩ := parseUrlChar_schema hLive
  have hFar (hs : t.s.beyond = true) (hBeyond : t.Beyond w) : t'.At (w ++ [ch]) :=
    byte_beyond (hBeyond.concat ch) (parseUrlChar_beyond hs hLive) hByte
  unfold At at h
  cases hState : t.s with
  | sReqSpacesBeforeUrl =>
    rw [hState] at h
    obtain ⟨rfl, hRest⟩ := h
    exact byte_spaces hState hRest hByte
  | sReqSchema =>
    rw [hState] at h
    exact byte_schema hState h.1 h.2 hShort hByte
  | sReqSchemaSlash =>
    rw [hState] at h
    obtain ⟨⟨scheme, rfl, hSchemed⟩, hBare⟩ := h
    obtain ⟨hNext, rfl⟩ := hSlash hState
    unfold UrlScan.byte at hByte
    rw [hNext] at hByte
    obtain rfl := Option.some.inj hByte
    exact ⟨⟨scheme, List.append_assoc _ _ _, hSchemed.move _⟩, hBare.move _⟩
  | sReqSchemaSlashSlash =>
    rw [hState] at h
    obtain ⟨⟨scheme, rfl, hSchemed⟩, hBare⟩ := h
    obtain ⟨hNext, rfl⟩ := hSlashSlash hState
    unfold UrlScan.byte at hByte
    rw [hNext] at hByte
    obtain rfl := Option.some.inj hByte
    exact ⟨⟨scheme, List.append_assoc _ _ _, hSchemed.move _⟩, hBare.move _⟩
  | sReqServerStart =>
    rw [hState] at h
    obtain ⟨⟨scheme, hText, hSchemed⟩, hBare⟩ := h
    exact byte_server (.inl hState) hSchemed (by rw [hText, List.append_nil]) (.inl ⟨hBare, rfl⟩) hShort hByte
  | sReqServer =>
    rw [hState] at h
    obtain ⟨⟨scheme, a, hText, hSchemed, hHosted⟩, hOld⟩ := h
    exact byte_server (.inr (.inl hState)) hSchemed hText (.inr ⟨hOld, hHosted⟩) hShort hByte
  | sReqServerWithAt =>
    rw [hState] at h
    obtain ⟨⟨scheme, a, hText, hSchemed, hHosted⟩, hOld⟩ := h
    exact byte_server (.inr (.inr hState)) hSchemed hText (.inr ⟨hOld, hHosted⟩) hShort hByte
  | sReqPath =>
    rw [hState] at h hFar
    exact hFar rfl h
  | sReqQueryStringStart =>
    rw [hState] at h hFar
    exact hFar rfl h
  | sReqQueryString =>
    rw [hState] at h hFar
    exact hFar rfl h
  | sReqFragmentStart =>
    rw [hState] at h hFar
    exact hFar rfl h
  | sReqFragment =>
    rw [hState] at h hFar
    exact hFar rfl h
  | _ =>
    rw [hState] at h
    exact h.elim

theorem At.loop {data : Bytes} (h : t.At w) (hShort : (w ++ data).length < 2 ^ 16)
    (hLoop : urlLoop data w.length t = some t') : t'.At (w ++ data) := by
  induction data generalizing w t with
  | nil =>
    obtain rfl := Option.some.inj hLoop
    rwa [List.append_nil]
  | cons ch data ih =>
    obtain ⟨q, hByte, hRest⟩ := Option.bind_eq_some_iff.mp hLoop
    rw [List.append_cons] at hShort ⊢
    have hNext := h.byte (by simp only [List.length_append, List.length_singleton] at hShort; omega) hByte
    apply ih hNext hShort
    rwa [List.length_append, List.length_singleton]

end UrlScan

/-! ### The whole function -/

theorem AuthorityRead.congr {foundAt : Bool} {o : ℕ} {a : Bytes} {u u' : HttpParserUrl}
    (h : AuthorityRead foundAt o a u)
    (hData : u'.fieldData = u.fieldData) (hSet : u'.fieldSet = u.fieldSet) : AuthorityRead foundAt o a u' := by
  cases h with
  | host hHost hUnset => exact .host (hHost.congr (congrFun hData _)) ((congrFun hSet _).trans hUnset)
  | hostPort q d hText hHost hNums hHas hSome =>
    exact .hostPort q d hText (hHost.congr (congrFun hData _)) hNums ((congrFun hData _).trans hHas)
      ((congrFun hSet _).trans hSome)

theorem HttpParserUrl.convertPort_fields {u u' : HttpParserUrl} {buf : Bytes} (h : u.convertPort buf = some u') :
    u'.fieldData = u.fieldData ∧ u'.fieldSet = u.fieldSet := by
  unfold convertPort at h
  split at h
  · dsimp only at h
    split at h
    · cases h
    · obtain rfl := Option.some.inj h
      exact ⟨rfl, rfl⟩
  · obtain rfl := Option.some.inj h
    exact ⟨rfl, rfl⟩

/-- What follows an authority that was accepted: nothing, a path, or a query. -/
def Behind (r : Bytes) : Prop := ∀ c ∈ r.head?, c = '/' ∨ c = '?'

structure UrlRead (full scheme a r : Bytes) (u : HttpParserUrl) : Prop where
  text : full = scheme ++ ascii "://" ++ a ++ r
  schema : u.Has .schema 0 [] scheme
  bytes : ∀ c ∈ a, AuthorityByte c
  behind : Behind r
  authority : ∃ foundAt, AuthorityRead foundAt (scheme ++ ascii "://").length a u

theorem UrlScan.At.split {t : UrlScan} {full : Bytes} (h : t.At full) (hSchema : t.u.fieldSet .schema = true)
    (hHost : t.u.fieldSet .host = true) :
    ∃ scheme a r, full = scheme ++ ascii "://" ++ a ++ r ∧ t.Schemed scheme ∧ t.Hosted scheme a ∧ Behind r := by
  have hBeyond (h : t.Beyond full) :
      ∃ scheme a r, full = scheme ++ ascii "://" ++ a ++ r ∧ t.Schemed scheme ∧ t.Hosted scheme a ∧ Behind r := by
    rcases h with hNone | ⟨scheme, a, c, r, hText, hFirst, hSchemed, hHosted | hUnset⟩
    · rw [hSchema] at hNone
      cases hNone
    · refine ⟨scheme, a, c :: r, hText, hSchemed, hHosted, ?_⟩
      intro b hb
      rwa [← Option.some.inj hb]
    · rw [hHost] at hUnset
      cases hUnset
  have hBare (h : t.Bare) : False := by
    have hUnset := h.unset
    rw [hHost] at hUnset
    cases hUnset
  have hServer (h : ∃ scheme a, full = scheme ++ ascii "://" ++ a ∧ t.Schemed scheme ∧ t.Hosted scheme a) :
      ∃ scheme a r, full = scheme ++ ascii "://" ++ a ++ r ∧ t.Schemed scheme ∧ t.Hosted scheme a ∧ Behind r := by
    obtain ⟨scheme, a, hText, hSchemed, hHosted⟩ := h
    exact ⟨scheme, a, [], by rw [hText, List.append_nil], hSchemed, hHosted, nofun⟩
  unfold At at h
  cases hState : t.s with
  | sReqSpacesBeforeUrl =>
    rw [hState] at h
    have hNone := h.2.2.2.1
    rw [hSchema] at hNone
    cases hNone
  | sReqSchema | sReqSchemaSlash | sReqSchemaSlashSlash | sReqServerStart =>
    rw [hState] at h
    exact (hBare h.2).elim
  | sReqServer | sReqServerWithAt =>
    rw [hState] at h
    exact hServer h.1
  | sReqPath | sReqQueryStringStart | sReqQueryString | sReqFragmentStart | sReqFragment =>
    rw [hState] at h
    exact hBeyond h
  | _ =>
    rw [hState] at h
    exact h.elim

theorem httpParserParseUrl_reads {full : Bytes} {u u' : HttpParserUrl} (h : httpParserParseUrl full false u = some u')
    (hShort : full.length < 2 ^ 16) (hSchema : u'.fieldSet .schema = true) :
    ∃ scheme a r, UrlRead full scheme a r u' := by
  obtain ⟨t, hLoop, h⟩ := Option.bind_eq_some_iff.mp h
  have hAt : t.At ([] ++ full) := by
    refine UrlScan.At.loop ?_ (by simpa using hShort) hLoop
    exact ⟨rfl, rfl, rfl, rfl, rfl, rfl⟩
  rw [List.nil_append] at hAt
  split at h
  · cases h
  rename_i hBoth
  obtain ⟨v, hv, h⟩ := Option.bind_eq_some_iff.mp h
  rw [Bool.false_and, if_neg (by decide)] at h
  obtain ⟨hData, hSet⟩ := HttpParserUrl.convertPort_fields h
  rw [hSet] at hSchema
  split at hv
  · rename_i hHost
    obtain ⟨hKept, hKept'⟩ := schema_httpParseHost hv
    obtain ⟨scheme, a, r, rfl, hSchemed, hHosted, hBehind⟩ := hAt.split (hKept'.symm.trans hSchema) hHost
    have hFull : scheme ++ ascii "://" ++ a ++ r = [] ++ (scheme ++ ascii "://" ++ (a ++ r)) :=
      List.append_assoc _ a r
    have hText := hHosted.has.text hFull rfl
    have hOff : (t.u.fieldData .host).off = (scheme ++ ascii "://").length := by
      rw [hHosted.has, Nat.zero_add]
    simp only [List.length_append] at hShort
    have hRead := httpParseHost_reads hv hOff hText hSchemed.noPort (by rw [List.length_append]; omega)
    exact ⟨scheme, a, r, rfl, (congrFun hData _).trans (hKept.trans hSchemed.has), hHosted.bytes, hBehind,
      _, hRead.congr hData hSet⟩
  · rename_i hHost
    obtain rfl := Option.some.inj hv
    simp [hSchema, hHost] at hBoth

end HttpUtils
