import HttpUtils.HttpParser.Framing

/-!
# The header line of a chunked body

`Transfer-Encoding: chunked`, in letters of either case, sets `F_CHUNKED` and leaves the rest of the message.
-/

namespace HttpUtils
set_option autoImplicit false

/-- A header by which the body comes in chunks. -/
structure Header.Chunked (x : Header) : Prop where
  name : x.name.map asciiLower = ascii "transfer-encoding"
  value : x.value.map asciiLower = ascii "chunked"

def withChunked (P : HttpParser) : HttpParser := { P with flags := { P.flags with fChunked := true } }

theorem ascii_transferEncoding : ascii "transfer-encoding" =
    [116, 114, 97, 110, 115, 102, 101, 114, 45, 101, 110, 99, 111, 100, 105, 110, 103] := by decide +kernel

theorem ascii_chunked : ascii "chunked" = [99, 104, 117, 110, 107, 101, 100] := by decide +kernel

theorem foldl_nameStep_lower {s : Bytes} (P : HttpParser) (hTok : ∀ c ∈ s, token c ≠ 0) :
    s.foldl nameStep P = (s.map asciiLower).foldl nameStep P := by
  have hLower : ∀ c : UInt8, token c ≠ 0 → token c = token (asciiLower c) := forall_byte (by decide +kernel)
  induction s generalizing P with
  | nil => rfl
  | cons c s ih =>
    have hc := hTok c List.mem_cons_self
    rw [List.map_cons, List.foldl_cons, List.foldl_cons, nameStep_congr P (hLower c hc) hc]
    exact ih _ fun d hd => hTok d (List.mem_cons_of_mem c hd)

theorem foldl_transferEncoding (P : HttpParser) :
    [114, 97, 110, 115, 102, 101, 114, 45, 101, 110, 99, 111, 100, 105, 110, 103].foldl nameStep (nameStart P 116) =
      { P with index := 16, state := .sHeaderField, headerState := .hTransferEncoding } := by
  have hTokens : token 114 = 114 ∧ token 97 = 97 ∧ token 110 = 110 ∧ token 115 = 115 ∧ token 102 = 102 ∧
      token 101 = 101 ∧ token 45 = 45 ∧ token 99 = 99 ∧ token 111 = 111 ∧ token 100 = 100 ∧ token 105 = 105 ∧
      token 103 = 103 := by
    decide +kernel
  have hStart : nameStart P 116 = { P with index := 0, state := .sHeaderField, headerState :=
    .hMatchingTransferEncoding } :=
    rfl
  rw [hStart]
  simp [nameStep, headerFieldChar, matchKeyword, ascii_transferEncoding, hTokens]

structure InChunked (P₀ : HttpParser) (u : Bytes) (P : HttpParser) : Prop where
  state : P.state = .sHeaderValue
  header : P.headerState = if u.length = 7 then .hTransferEncodingChunked else .hMatchingTransferEncodingChunked
  index : P.index + 1 = u.length
  same : SameMessage P₀ P

theorem letter_of_chunked {c : UInt8} (h : asciiLower c ∈ ascii "chunked") :
    lower c = asciiLower c ∧ isValueByte c = true ∧ c ≠ SP ∧ c ≠ HT := by
  have hBytes : ∀ c : UInt8, asciiLower c ∈ ascii "chunked" →
      lower c = asciiLower c ∧ isValueByte c = true ∧ c ≠ SP ∧ c ≠ HT := forall_byte (by decide +kernel)
  exact hBytes c h

theorem InChunked.step {P₀ P : HttpParser} {u : Bytes} (h : InChunked P₀ u P) {c : UInt8} (hShort : u.length < 7)
    (hc : lower c = (ascii "chunked").getD u.length 0) : InChunked P₀ (u ++ [c]) (valueStep P c) := by
  obtain ⟨hState, hHeader, hIndex, hSame⟩ := h
  have hLength : (ascii "chunked").length = 7 := by rw [ascii_chunked]; rfl
  rw [if_neg (by omega)] at hHeader
  have hHit : ¬ (P.index + 1 > (ascii "chunked").length ∨ lower c ≠ (ascii "chunked").getD (P.index + 1) 0) := by
    rw [hIndex, hLength]
    rintro (hLong | hMiss)
    · omega
    · exact hMiss hc
  simp only [valueStep, hHeader, headerValueChar, matchValue]
  rw [if_neg hHit, hLength, hIndex]
  by_cases hLast : u.length = 6
  · rw [if_pos hLast]
    refine ⟨hState, ?_, ?_, hSame.trans (.move _ _ _ _)⟩
    · rw [List.length_append, hLast]
      rfl
    · rw [List.length_append, hLast]
      rfl
  · rw [if_neg hLast]
    refine ⟨hState, ?_, ?_, hSame.trans (.move _ _ _ _)⟩
    · rw [List.length_append, List.length_singleton, if_neg (by omega)]
    · rw [List.length_append, List.length_singleton]

theorem InChunked.foldl {P₀ P : HttpParser} {v : UInt8} (h : InChunked P₀ [v] P) {s u : Bytes}
    (hs : (v :: s).map asciiLower = ascii "chunked") (hu : u <+: s) :
      InChunked P₀ (v :: u) (u.foldl valueStep P) := by
  obtain ⟨w, hw⟩ := hu
  induction u using List.reverseRecOn generalizing w with
  | nil => exact h
  | append_singleton u c ih =>
    rw [List.append_assoc, List.singleton_append] at hw
    have hIn := ih (c :: w) hw
    have hLength : (v :: s).length = 7 := by
      rw [← List.length_map (f := asciiLower), hs, ascii_chunked]
      rfl
    have hShort : (v :: u).length < 7 := by
      rw [← hLength, ← hw]
      simp only [List.length_cons, List.length_append]
      omega
    have hAt : asciiLower c = (ascii "chunked").getD (v :: u).length 0 := by
      rw [← hs, ← hw]
      simp [List.getD_eq_getElem?_getD]
    have hMem : asciiLower c ∈ ascii "chunked" := by
      rw [← hs, ← hw]
      simp
    rw [List.foldl_append]
    exact hIn.step hShort ((letter_of_chunked hMem).1.trans hAt)

namespace Reader

theorem AtLine.chunked {r : Reader} {P : HttpParser} {m : Message} (h : r.AtLine P m) (hOpen : LineOpen P m)
    {x : Header} (hx : x.Chunked) (hFed : r.fed + (headerLine x).length ≤ room) :
    ∃ r' P', r.Passes (headerLine x) r' ∧ r'.AtLine P' (m.addHeader x) ∧ SameMessage (withChunked P) P' := by
  rw [length_headerLine] at hFed
  have hLetters : ∀ c : UInt8, asciiLower c ∈ ascii "transfer-encoding" → token c ≠ 0 ∧ token c = asciiLower c :=
    forall_byte (by decide +kernel)
  have hTok (c : UInt8) (hc : c ∈ x.name) : token c ≠ 0 ∧ token c = asciiLower c :=
    hLetters c (hx.name ▸ List.mem_map_of_mem hc)
  have hNameLength : x.name.length = 17 := by
    rw [← List.length_map (f := asciiLower), hx.name, ascii_transferEncoding]
    rfl
  have hValueLength : x.value.length = 7 := by
    rw [← List.length_map (f := asciiLower), hx.value, ascii_chunked]
    rfl
  obtain ⟨c, s, hName⟩ : ∃ c s, x.name = c :: s := List.exists_cons_of_length_pos (by omega)
  obtain ⟨v, w, hValue⟩ : ∃ v w, x.value = v :: w := List.exists_cons_of_length_pos (by omega)
  have hSplit : asciiLower c = 116 ∧
      s.map asciiLower = [114, 97, 110, 115, 102, 101, 114, 45, 101, 110, 99, 111, 100, 105, 110, 103] := by
    have hLower := hx.name
    rw [hName, List.map_cons, ascii_transferEncoding] at hLower
    exact List.cons_eq_cons.mp hLower
  rw [hName, List.length_cons] at hNameLength
  rw [hValue, List.length_cons] at hValueLength
  rw [hName, hValue, List.length_cons, List.length_cons] at hFed
  obtain ⟨-, hPasses⟩ := h.name (c := c) (s := s) (fun d hd => (hTok d (hName ▸ hd)).1) hOpen.errno hOpen.upgrade
    hOpen.length hOpen.name hOpen.complete (by omega)
  have hStart : nameStart P c = nameStart P 116 := by
    have hc : token c = token 116 := by
      rw [(hTok c (by rw [hName]; exact List.mem_cons_self)).2, hSplit.1]
      rfl
    simp only [nameStart, hc]
  rw [foldl_nameStep_lower _ (fun d hd => (hTok d (by rw [hName]; exact List.mem_cons_of_mem c hd)).1),
    hSplit.2, hStart,
    foldl_transferEncoding, ← hName] at hPasses
  let N : HttpParser := { P with index := 16, state := .sHeaderValueDiscardWs, headerState := .hTransferEncoding }
  let Q : HttpParser := { N with index := 0, state := .sHeaderValue, headerState :=
    .hMatchingTransferEncodingChunked }
  have hLetter (d : UInt8) (hd : d ∈ x.value) := letter_of_chunked (hx.value ▸ List.mem_map_of_mem hd)
  have hv : v ∈ x.value := by rw [hValue]; exact List.mem_cons_self
  have hFirst : lower v = 'c' := by
    have hLower := hx.value
    rw [hValue, List.map_cons, ascii_chunked] at hLower
    rw [(hLetter v hv).1, (List.cons_eq_cons.mp hLower).1]
    rfl
  have hBegins : headerValueStartCase N v = HttpUtils.next Q [.mark .headerValue] := by
    simp only [headerValueStartCase, N, hFirst, if_true, Q]
  have hIn : InChunked P [v] Q := ⟨rfl, rfl, rfl, .move _ _ _ _⟩
  have hFold (u : Bytes) (hu : u <+: w) : InChunked P (v :: u) (u.foldl valueStep Q) :=
    hIn.foldl (by rw [← hValue]; exact hx.value) hu
  obtain ⟨r', hLine, hAt⟩ := AtLine.someValue hOpen hValue (hLetter v hv).2.2 (fun d hd => (hLetter d hd).2.1)
    (q := ⟨N, m.see (.onHeaderField x.name), r.fed + (s.length + 3)⟩) rfl rfl hOpen.upgrade hBegins
    (fun u hu => ⟨(hFold u hu).state, (hFold u hu).same.httpErrno.trans hOpen.errno,
      (hFold u hu).same.upgrade.trans hOpen.upgrade⟩) hPasses (by simp only; omega)
  have hEnd := hFold w (List.prefix_refl w)
  have hHeader : (w.foldl valueStep Q).headerState = .hTransferEncodingChunked := by
    rw [hEnd.header, List.length_cons, if_pos hValueLength]
  refine ⟨r', _, hLine, hAt, ?_⟩
  have hSame := hEnd.same
  simp only [lineEnded, hHeader, finishHeaderFlags]
  exact ⟨hSame.type, hSame.contentLength, hSame.httpMajor, hSame.httpMinor, hSame.statusCode, hSame.method,
    hSame.httpErrno, hSame.upgrade, rfl, hSame.fTrailing, hSame.fUpgrade, hSame.fSkipbody, hSame.fContentlength⟩

end Reader

end HttpUtils
