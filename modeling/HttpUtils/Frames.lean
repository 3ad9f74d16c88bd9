import HttpUtils.HttpParser.HeadEnd
import HttpUtils.Chunks
import HttpUtils.Pipelining

/-!
# What a complete message is made of

The converse of sending it: whatever a reader takes for a complete message is a head with the bytes of its length
behind it, or a head with chunks, and the body it reports are those bytes, or the data of the chunks.
-/

namespace HttpUtils
set_option autoImplicit false

/-! ### In a chunk -/

/-- The parser `P` inside a chunk, of which it has read `part`, with the data `data` in it. -/
inductive InChunk (P : HttpParser) : Bytes → Bytes → Prop where
  | start (hState : P.state = .sChunkSizeStart) : InChunk P [] []
  | digits (l : SizeLine) (hState : P.state = .sChunkSize) (hLength : P.contentLength = l.size)
      (hPlain : l.extension = []) : InChunk P l.digits []
  | parameters (l : SizeLine) (hState : P.state = .sChunkParameters) (hLength : P.contentLength = l.size)
      (hSome : l.extension ≠ []) : InChunk P (l.digits ++ l.extension) []
  | sizeEnd (l : SizeLine) (hState : P.state = .sChunkSizeAlmostDone) (hLength : P.contentLength = l.size) :
      InChunk P (l.digits ++ l.extension ++ [CR]) []
  | data (l : SizeLine) (got : Bytes) (hState : P.state = .sChunkData)
    (hLength : P.contentLength + got.length = l.size)
      (hMore : P.contentLength ≠ 0) : InChunk P (l.toBytes ++ got) got
  | dataEnd (c : Chunk) (hState : P.state = .sChunkDataAlmostDone) : InChunk P (c.line.toBytes ++ c.data) c.data
  | lineEnd (c : Chunk) (hState : P.state = .sChunkDataDone) : InChunk P (c.line.toBytes ++ c.data ++ [CR]) c.data

inductive ChunkByte (r r' : Reader) (part data : Bytes) (ch : UInt8) : Prop where
  | inside (hIn : InChunk r'.parser (part ++ [ch]) data) (hBody : r'.message.body = r.message.body)
  | datum (hIn : InChunk r'.parser (part ++ [ch]) (data ++ [ch])) (hBody : r'.message.body = r.message.body ++ [ch])
  | chunk (c : Chunk) (hBytes : c.toBytes = part ++ [ch]) (hData : c.data = data)
    (hState : r'.parser.state = .sChunkSizeStart)
      (hBody : r'.message.body = r.message.body)
  | last (l : SizeLine) (hBytes : l.toBytes = part ++ [ch]) (hZero : l.size = 0) (hData : data = [])
      (hTrailing : r'.parser.trailing = true) (hBody : r'.message.body = r.message.body)

namespace Reader

theorem step_eq_some {r r' : Reader} {ch : UInt8} (h : r.step ch = some r') :
    (byteCase r.parser ch).flow = .next ∧ r'.parser = (byteCase r.parser ch).parser ∧
      ∃ v : Move, v.acts = (byteCase r.parser ch).acts ∧ r'.message = v.spell r.parser ch r.message := by
  obtain ⟨v, hMove, rfl⟩ := Option.map_eq_some_iff.mp h
  obtain ⟨hFlow, rfl⟩ := Outcome.move_eq_some hMove
  exact ⟨hFlow, rfl, _, rfl, rfl⟩

theorem not_step_fail {r r' : Reader} {ch : UInt8} {Q : HttpParser} {e : HttpErrno} (h : r.step ch = some r') :
    byteCase r.parser ch ≠ fail Q e := by
  intro hCase
  obtain ⟨hFlow, -⟩ := step_eq_some h
  rw [hCase] at hFlow
  exact absurd hFlow (fail_flow Q e)

theorem body_of_quiet {r r' : Reader} {ch : UInt8} (h : r.step ch = some r')
    (hQuiet : .mark .body ∉ (byteCase r.parser ch).acts) :
    r'.message.body = r.message.body := by
  obtain ⟨-, -, v, hActs, hMessage⟩ := step_eq_some h
  rw [hMessage]
  exact Move.spell_body (hActs ▸ hQuiet) r.message

theorem step_next {r r' : Reader} {ch : UInt8} {Q : HttpParser} {acts : List Act} (h : r.step ch = some r')
    (hCase : byteCase r.parser ch = next Q acts) (hQuiet : .mark .body ∉ acts) :
    r'.parser = Q ∧ r'.message.body = r.message.body := by
  obtain ⟨-, hParser, -⟩ := step_eq_some h
  have hBody := body_of_quiet h (by rw [hCase]; exact hQuiet)
  rw [hCase] at hParser
  exact ⟨hParser, hBody⟩

theorem complete_step {r r' : Reader} {ch : UInt8} (h : r.step ch = some r') :
    r'.message.complete = true ↔ r.message.complete = true ∨
      .notify .messageComplete ∈ (byteCase r.parser ch).acts := by
  obtain ⟨-, -, v, hActs, hMessage⟩ := step_eq_some h
  rw [hMessage, Move.spell_complete, hActs]

theorem upgrade_of_complete {r r' : Reader} {ch : UInt8} (h : r.step ch = some r')
    (hOpen : r.message.complete = false) (hDone : r'.message.complete = true) : r'.parser.upgrade = false := by
  obtain ⟨hFlow, hParser, -⟩ := step_eq_some h
  have hActs := ((complete_step h).mp hDone).resolve_left (by simp [hOpen])
  rw [hParser]
  by_cases hField : r.parser.state = .sHeaderField
  · simp only [byteCase, hField, nameCase] at hActs
    repeat' split at hActs
    all_goals simp [next, fail] at hActs
  by_cases hValue : r.parser.state = .sHeaderValue
  · rw [byteCase_value hValue] at hActs
    simp only [valueCase] at hActs
    repeat' split at hActs
    all_goals simp [next] at hActs
  · rw [byteCase_switch hField hValue] at hFlow hActs ⊢
    exact ((switch_ends r.parser ch hField hValue).complete hFlow hActs).2

end Reader

namespace SizeLine

theorem begins_nil : ∀ c ∈ ([] : Bytes).head?, c = ';' ∨ c = SP := by
  intro c hc
  cases hc

def plain (digits : Bytes) (hSome : digits ≠ []) (hHex : ∀ c ∈ digits, (unhex c).isSome = true) : SizeLine where
  digits := digits
  extension := []
  nonempty := hSome
  hex := hHex
  begins := begins_nil
  inLine := List.not_mem_nil

def extend (l : SizeLine) (c : UInt8) (hBegins : l.extension = [] → c = ';' ∨ c = SP) (hLine : c ≠ CR) :
    SizeLine where
  digits := l.digits
  extension := l.extension ++ [c]
  nonempty := l.nonempty
  hex := l.hex
  begins := by
    intro d hd
    cases hs : l.extension with
    | nil =>
      rw [hs] at hd
      obtain rfl := Option.some.inj hd
      exact hBegins hs
    | cons e s =>
      rw [hs] at hd
      obtain rfl := Option.some.inj hd
      exact l.begins e (by rw [hs]; rfl)
  inLine := by
    rw [List.mem_append, not_or]
    exact ⟨l.inLine, fun hLast => hLine (List.mem_singleton.mp hLast).symm⟩

theorem hex_concat (l : SizeLine) {c : UInt8} (hHex : (unhex c).isSome = true) :
    ∀ d ∈ l.digits ++ [c], (unhex d).isSome = true := by
  intro d hd
  rcases List.mem_append.mp hd with hOld | hNew
  · exact l.hex d hOld
  · rwa [List.mem_singleton.mp hNew]

theorem hexValue_concat (l : SizeLine) {c : UInt8} {v : ℕ} (hv : unhex c = some v) :
    hexValue 0 (l.digits ++ [c]) = l.size * 16 + v := by
  rw [hexValue_append, size]
  simp [hexValue, hv]

end SizeLine

theorem ChunkByte.next {r r' : Reader} {part data : Bytes} {ch : UInt8} {Q : HttpParser} {acts : List Act}
    (hStep : r.step ch = some r') (hCase : byteCase r.parser ch = HttpUtils.next Q acts) (hQuiet : .mark .body ∉ acts)
    (hIn : InChunk Q (part ++ [ch]) data) : ChunkByte r r' part data ch := by
  obtain ⟨rfl, hBody⟩ := Reader.step_next hStep hCase hQuiet
  exact .inside hIn hBody

theorem InChunk.step {r r' : Reader} {part data : Bytes} {ch : UInt8} (h : InChunk r.parser part data)
    (hStep : r.step ch = some r') : ChunkByte r r' part data ch := by
  cases h with
  | start hState =>
    have hCase : byteCase r.parser ch = chunkSizeStartCase r.parser ch := by simp only [byteCase, hState, switch]
    cases hHex : unhex ch with
    | none =>
      simp only [chunkSizeStartCase, hHex] at hCase
      exact absurd hCase (Reader.not_step_fail hStep)
    | some n =>
      simp only [chunkSizeStartCase, hHex] at hCase
      have hSome : (unhex ch).isSome = true := by rw [hHex]; rfl
      refine .next hStep hCase (by simp) (.digits (SizeLine.plain [ch] (by simp) (by simpa using hSome)) rfl ?_ rfl)
      simp [SizeLine.size, SizeLine.plain, hexValue, hHex]
  | digits l hState hLength hPlain =>
    have hCase : byteCase r.parser ch = chunkSizeCase r.parser ch := by simp only [byteCase, hState, switch]
    unfold chunkSizeCase at hCase
    split at hCase
    · rename_i hCr
      subst hCr
      have hEnd := InChunk.sizeEnd (P := { r.parser with state := .sChunkSizeAlmostDone }) l rfl hLength
      rw [hPlain, List.append_nil] at hEnd
      exact .next hStep hCase (by simp) hEnd
    rename_i hCr
    cases hHex : unhex ch with
    | none =>
      simp only [hHex] at hCase
      split at hCase
      · rename_i hBegins
        refine .next hStep hCase (by simp) ?_
        have hMore := InChunk.parameters (P := { r.parser with state := .sChunkParameters })
          (l.extend ch (fun _ => hBegins) hCr) rfl hLength (by simp [SizeLine.extend])
        simpa [SizeLine.extend, hPlain] using hMore
      · exact absurd hCase (Reader.not_step_fail hStep)
    | some n =>
      simp only [hHex] at hCase
      split at hCase
      · exact absurd hCase (Reader.not_step_fail hStep)
      · have hSome : (unhex ch).isSome = true := by rw [hHex]; rfl
        refine .next hStep hCase (by simp) ?_
        refine .digits (SizeLine.plain (l.digits ++ [ch]) (by simp) (l.hex_concat hSome)) hState ?_ rfl
        rw [SizeLine.size, SizeLine.plain, l.hexValue_concat hHex, ← hLength]
  | parameters l hState hLength hSome =>
    have hCase : byteCase r.parser ch = if ch = CR then next { r.parser with state := .sChunkSizeAlmostDone }
        else next r.parser := by simp only [byteCase, hState, switch]
    split at hCase
    · rename_i hCr
      subst hCr
      exact .next hStep hCase (by simp) (.sizeEnd l rfl hLength)
    · rename_i hCr
      refine .next hStep hCase (by simp) ?_
      have hMore := InChunk.parameters (l.extend ch (fun hNone => absurd hNone hSome) hCr) hState hLength
        (by simp [SizeLine.extend])
      rwa [SizeLine.extend, ← List.append_assoc] at hMore
  | sizeEnd l hState hLength =>
    have hCase : byteCase r.parser ch = chunkSizeAlmostDoneCase r.parser ch := by simp only [byteCase, hState, switch]
    unfold chunkSizeAlmostDoneCase at hCase
    split at hCase
    · exact absurd hCase (Reader.not_step_fail hStep)
    rename_i hLf
    obtain rfl := not_ne_iff.mp hLf
    have hBytes : l.toBytes = l.digits ++ l.extension ++ [CR] ++ [LF] := by
      rw [SizeLine.toBytes, List.append_assoc _ [CR]]
      rfl
    dsimp only at hCase
    split at hCase
    · rename_i hZero
      obtain ⟨hParser, hBody⟩ := Reader.step_next hStep hCase (by simp)
      exact .last l hBytes (hLength.symm.trans hZero) rfl (by rw [hParser]; rfl) hBody
    · rename_i hMore
      refine .next hStep hCase (by simp) ?_
      rw [← hBytes, ← List.append_nil l.toBytes]
      exact .data l [] rfl hLength hMore
  | data l _ hState hLength hMore =>
    obtain ⟨-, hParser, v, hActs, hMessage⟩ := Reader.step_eq_some hStep
    have hCase : byteCase r.parser ch = chunkDataCase r.parser 1 := by simp only [byteCase, hState, switch]
    have hMin : min r.parser.contentLength 1 = 1 := by omega
    have hOpen : openMark r.parser.state = none := by rw [hState]; rfl
    have hBody : r'.message.body = r.message.body ++ [ch] := by
      rw [hMessage, Move.spell, hActs, hCase]
      simp only [chunkDataCase, hMin, next, hOpen, List.foldl_cons, List.foldl_nil, Live.act, Live.consume,
        Message.see_split]
      rfl
    rw [hCase] at hParser
    simp only [chunkDataCase, hMin] at hParser
    refine .datum ?_ hBody
    rw [List.append_assoc]
    split at hParser
    · rename_i hZero
      have hData : (data ++ [ch]).length = l.size := by
        rw [List.length_append, List.length_singleton]
        omega
      exact .dataEnd ⟨l, data ++ [ch], hData, by simp⟩ (by rw [hParser]; rfl)
    · rename_i hRest
      refine .data l (data ++ [ch]) (by rw [hParser]; exact hState) ?_ (by rw [hParser]; exact hRest)
      rw [hParser, List.length_append, List.length_singleton]
      show r.parser.contentLength - 1 + (data.length + 1) = l.size
      omega
  | dataEnd c hState =>
    have hCase : byteCase r.parser ch = if ch ≠ CR then fail r.parser .strict else
        next { r.parser with state := .sChunkDataDone } [.data .body] := by simp only [byteCase, hState, switch]
    split at hCase
    · exact absurd hCase (Reader.not_step_fail hStep)
    rename_i hCr
    obtain rfl := not_ne_iff.mp hCr
    exact .next hStep hCase (by simp) (.lineEnd c rfl)
  | lineEnd c hState =>
    have hCase : byteCase r.parser ch = if ch ≠ LF then fail r.parser .strict else
        next { r.parser with nread := 0, state := .sChunkSizeStart } [.notify .chunkComplete] := by
      simp only [byteCase, hState, switch]
    split at hCase
    · exact absurd hCase (Reader.not_step_fail hStep)
    rename_i hLf
    obtain rfl := not_ne_iff.mp hLf
    obtain ⟨hParser, hBody⟩ := Reader.step_next hStep hCase (by simp)
    refine .chunk c ?_ rfl (by rw [hParser]) hBody
    simp only [Chunk.toBytes, List.append_assoc]
    rfl

theorem InChunk.goesOn {P : HttpParser} {part data : Bytes} (h : InChunk P part data) (ch : UInt8) :
    .notify .messageComplete ∉ (byteCase P ch).acts := by
  have hStart : P.state = .sChunkSizeStart → .notify .messageComplete ∉ (byteCase P ch).acts := by
    intro hState
    simp only [byteCase, hState, switch, chunkSizeStartCase]
    split <;> simp [next, fail]
  cases h with
  | start hState => exact hStart hState
  | digits l hState =>
    simp only [byteCase, hState, switch, chunkSizeCase]
    repeat' split
    all_goals simp [next, fail]
  | parameters l hState =>
    simp only [byteCase, hState, switch]
    split <;> simp [next]
  | sizeEnd l hState =>
    simp only [byteCase, hState, switch, chunkSizeAlmostDoneCase]
    repeat' split
    all_goals simp [next, fail]
  | data l data hState => simp [byteCase, hState, switch, chunkDataCase, next]
  | dataEnd c hState =>
    simp only [byteCase, hState, switch]
    split <;> simp [next, fail]
  | lineEnd c hState =>
    simp only [byteCase, hState, switch]
    split <;> simp [next, fail]

theorem HttpParser.InHead.trailing {P : HttpParser} (h : P.InHead) : P.trailing = false := by
  unfold HttpParser.trailing
  split
  all_goals first | exact h.noTrailers | rfl

/-! ### The parts of a message -/

namespace Reader

/-- The reader `q` is behind the blank line, and `head` is what it read: its last byte reports the end of the
headers. -/
structure HeadOf (start : Reader) (head : Bytes) (q : Reader) : Prop where
  run : start.run head = some q
  inside : ∀ u v p, head = u ++ v → v ≠ [] → start.run u = some p → p.parser.InHead
  reports : ∃ u ch p, head = u ++ [ch] ∧ start.run u = some p ∧ .notify .headersComplete ∈ (byteCase p.parser ch).acts

/-- The reader is in the lines of the trailers before each byte of them, when it has read `before`. -/
structure TrailersOf (start : Reader) (before trailers : Bytes) : Prop where
  lines : ∃ s, start.run before = some s ∧
    ∀ u v p, trailers = u ++ v → v ≠ [] → s.run u = some p → p.parser.trailing = true

/-- The bytes of one message, with the body that is in them. -/
inductive Framed (start : Reader) (m body : Bytes) : Prop where
  | plain (head : Bytes) (q : Reader) (hSplit : m = head ++ body) (hHead : start.HeadOf head q)
      (hChunked : q.parser.flags.fChunked = false)
      (hLength : q.parser.contentLength = body.length ∧ body.length ≠ ullongMax ∨
        q.parser.contentLength = ullongMax ∧ body = [])
  | chunked (head : Bytes) (q : Reader) (chunks : List Chunk) (last : SizeLine) (trailers : Bytes)
      (hSplit : m = head ++ (chunks.flatMap Chunk.toBytes ++ (last.toBytes ++ trailers)))
        (hHead : start.HeadOf head q)
      (hChunked : q.parser.flags.fChunked = true) (hZero : last.size = 0)
      (hTrailers : start.TrailersOf (head ++ (chunks.flatMap Chunk.toBytes ++ last.toBytes)) trailers)
      (hBody : body = chunks.flatMap Chunk.data)

/-- The reader `r` has read `w`, and the message is not complete. -/
inductive Reading (start : Reader) (w : Bytes) (r : Reader) : Prop where
  | head (hInside : ∀ u v p, w = u ++ v → start.run u = some p → p.parser.InHead)
    (hSkip : r.parser.flags.fSkipbody = false)
      (hBody : r.message.body = [])
  | sized (head : Bytes) (q : Reader) (hSplit : w = head ++ r.message.body) (hHead : start.HeadOf head q)
      (hChunked : q.parser.flags.fChunked = false) (hGiven : q.parser.contentLength ≠ ullongMax)
      (hState : r.parser.state = .sBodyIdentity)
      (hLength : r.parser.contentLength + r.message.body.length = q.parser.contentLength)
      (hMore : r.parser.contentLength ≠ 0)
  | untilEof (hState : r.parser.state = .sBodyIdentityEof)
  | chunks (head : Bytes) (q : Reader) (chunks : List Chunk) (part data : Bytes)
      (hSplit : w = head ++ (chunks.flatMap Chunk.toBytes ++ part)) (hHead : start.HeadOf head q)
      (hChunked : q.parser.flags.fChunked = true) (hIn : InChunk r.parser part data)
      (hBody : r.message.body = chunks.flatMap Chunk.data ++ data)
  | trailers (head : Bytes) (q : Reader) (chunks : List Chunk) (last : SizeLine) (trailers : Bytes)
      (hSplit : w = head ++ (chunks.flatMap Chunk.toBytes ++ (last.toBytes ++ trailers)))
        (hHead : start.HeadOf head q)
      (hChunked : q.parser.flags.fChunked = true) (hZero : last.size = 0) (s : Reader)
      (hLast : start.run (head ++ (chunks.flatMap Chunk.toBytes ++ last.toBytes)) = some s)
      (hLines : ∀ u v p, trailers = u ++ v → s.run u = some p → p.parser.trailing = true)
      (hBody : r.message.body = chunks.flatMap Chunk.data)

variable {start r r' : Reader} {w : Bytes} {ch : UInt8}

theorem Reading.head_step (hInside : ∀ u v p, w = u ++ v → start.run u = some p → p.parser.InHead)
    (hSkip : r.parser.flags.fSkipbody = false) (hBody : r.message.body = []) (hRun : start.run w = some r)
    (hOpen : r.message.complete = false) (hStep : r.step ch = some r') :
    r'.message.complete = false ∧ Reading start (w ++ [ch]) r' ∨
      r'.message.complete = true ∧ Framed start (w ++ [ch]) r'.message.body := by
  obtain ⟨hFlow, hParser, -⟩ := step_eq_some hStep
  have hHead := hInside w [] r (List.append_nil w).symm hRun
  have hReads := reads_byteCase (.inl hHead) ch
  have hBody' := (body_of_quiet hStep hReads.quiet).trans hBody
  have hComplete := complete_step hStep
  rw [hOpen] at hComplete
  have hNext : start.run (w ++ [ch]) = some r' := PartialRun.run_concat hRun hStep
  cases hReads.leaves hFlow with
  | lines hLines =>
    refine .inl ⟨?_, .head (PartialRun.forall_prefix_concat hInside hNext ?_) ?_ hBody'⟩
    · simpa [hLines.complete] using hComplete
    · rw [hParser]
      exact hLines.inHead hHead
    · rw [hParser]
      by_contra hOn
      rw [Bool.not_eq_false] at hOn
      exact absurd ((hLines.skipbody hOn).symm.trans hSkip) (by decide)
  | ends hTrailing => exact absurd hTrailing (by rw [hHead.trailing]; decide)
  | opens _ hReport hOpens =>
    have hFirst : start.HeadOf (w ++ [ch]) r' :=
      ⟨hNext, PartialRun.forall_prefix_before hInside, w, ch, r, rfl, hRun, hReport⟩
    have hOpens' := hOpens hSkip
    rw [← hParser] at hOpens'
    cases hOpens' with
    | nothing hDone hChunked hLength =>
      refine .inr ⟨hComplete.mpr (.inr hDone), ?_⟩
      rw [hBody']
      refine .plain _ r' (List.append_nil _).symm hFirst hChunked ?_
      exact hLength.imp (fun hZero => ⟨hZero, by decide⟩) fun hNone => ⟨hNone, rfl⟩
    | sized hMore hState hChunked hLength =>
      refine .inl ⟨by simpa [hMore] using hComplete, .sized _ r' ?_ hFirst hChunked hLength.2 hState ?_ hLength.1⟩
      · rw [hBody', List.append_nil]
      · rw [hBody']
        rfl
    | chunks hMore hState hChunked =>
      refine .inl ⟨by simpa [hMore] using hComplete, .chunks _ r' [] [] [] ?_ hFirst hChunked (.start hState) hBody'⟩
      exact (List.append_nil _).symm
    | untilEof hMore hState => exact .inl ⟨by simpa [hMore] using hComplete, .untilEof hState⟩

theorem Reading.sized_step {head : Bytes} {q : Reader} (hSplit : w = head ++ r.message.body)
    (hHead : start.HeadOf head q)
    (hChunked : q.parser.flags.fChunked = false) (hGiven : q.parser.contentLength ≠ ullongMax)
    (hState : r.parser.state = .sBodyIdentity)
    (hLength : r.parser.contentLength + r.message.body.length = q.parser.contentLength)
    (hMore : r.parser.contentLength ≠ 0) (hOpen : r.message.complete = false) (hStep : r.step ch = some r') :
    r'.message.complete = false ∧ Reading start (w ++ [ch]) r' ∨
      r'.message.complete = true ∧ Framed start (w ++ [ch]) r'.message.body := by
  obtain ⟨-, hParser, v, hActs, hMessage⟩ := step_eq_some hStep
  have hComplete := complete_step hStep
  rw [hOpen] at hComplete
  have hCase : byteCase r.parser ch = bodyIdentityCase r.parser 1 := by simp only [byteCase, hState, switch]
  have hMin : min r.parser.contentLength 1 = 1 := by omega
  have hMark : openMark r.parser.state = none := by rw [hState]; rfl
  have hBody : r'.message.body = r.message.body ++ [ch] := by
    rw [hMessage, Move.spell, hActs, hCase]
    simp only [bodyIdentityCase, hMin]
    split
    all_goals
      simp only [messageDoneCase, Outcome.after, next, hMark, List.foldl_cons, List.foldl_nil, List.cons_append,
        List.nil_append, Live.act, Live.consume, Message.see_split, if_true]
      rfl
  have hText : w ++ [ch] = head ++ r'.message.body := by rw [hSplit, hBody, List.append_assoc]
  have hSize : r'.message.body.length = r.message.body.length + 1 := by
    rw [hBody, List.length_append, List.length_singleton]
  rw [hCase] at hParser hComplete
  simp only [bodyIdentityCase, hMin] at hParser hComplete
  split at hParser
  · rename_i hZero
    rw [if_pos hZero] at hComplete
    refine .inr ⟨hComplete.mpr (.inr ?_), .plain head q hText hHead hChunked ?_⟩
    · simp [messageDoneCase, Outcome.after]
    · have hSame : q.parser.contentLength = r'.message.body.length := by omega
      exact .inl ⟨hSame, hSame ▸ hGiven⟩
  · rename_i hRest
    rw [if_neg hRest] at hComplete
    refine .inl ⟨by simpa [next] using hComplete, .sized head q hText hHead hChunked hGiven ?_ ?_ ?_⟩
    · rw [hParser]
      exact hState
    · rw [hParser, hSize]
      show r.parser.contentLength - 1 + (r.message.body.length + 1) = q.parser.contentLength
      omega
    · rw [hParser]
      exact hRest

/-- One byte of a message that is not complete. -/
theorem Reading.step (h : Reading start w r) (hRun : start.run w = some r) (hOpen : r.message.complete = false)
    (hStep : r.step ch = some r') :
    r'.message.complete = false ∧ Reading start (w ++ [ch]) r' ∨
      r'.message.complete = true ∧ Framed start (w ++ [ch]) r'.message.body := by
  obtain ⟨hFlow, hParser, -⟩ := step_eq_some hStep
  have hComplete := complete_step hStep
  rw [hOpen] at hComplete
  cases h with
  | head hInside hSkip hBody => exact head_step hInside hSkip hBody hRun hOpen hStep
  | sized head q hSplit hHead hChunked hGiven hState hLength hMore =>
    exact sized_step hSplit hHead hChunked hGiven hState hLength hMore hOpen hStep
  | untilEof hState =>
    have hCase : byteCase r.parser ch = bodyIdentityEofCase r.parser 1 := by simp only [byteCase, hState, switch]
    rw [hCase] at hParser hComplete
    refine .inl ⟨by simpa [bodyIdentityEofCase, next] using hComplete, .untilEof ?_⟩
    rw [hParser]
    exact hState
  | chunks head q chunks part data hSplit hHead hChunked hIn hBody =>
    refine .inl ⟨by simpa [hIn.goesOn ch] using hComplete, ?_⟩
    have hText : w ++ [ch] = head ++ (chunks.flatMap Chunk.toBytes ++ (part ++ [ch])) := by
      rw [hSplit, List.append_assoc, List.append_assoc]
    cases hIn.step hStep with
    | inside hIn' hBody' => exact .chunks head q chunks _ data hText hHead hChunked hIn' (hBody'.trans hBody)
    | datum hIn' hBody' =>
      refine .chunks head q chunks _ (data ++ [ch]) hText hHead hChunked hIn' ?_
      rw [hBody', hBody, List.append_assoc]
    | chunk c hBytes hData hState hBody' =>
      refine .chunks head q (chunks ++ [c]) [] [] ?_ hHead hChunked (.start hState) ?_
      · rw [hText, ← hBytes, List.flatMap_append, List.flatMap_singleton, List.append_nil]
      · rw [hBody', hBody, List.flatMap_append, List.flatMap_singleton, hData, List.append_nil]
    | last l hBytes hZero hData hTrailing hBody' =>
      have hLast : start.run (head ++ (chunks.flatMap Chunk.toBytes ++ l.toBytes)) = some r' := by
        rw [hBytes, ← hText]
        exact PartialRun.run_concat hRun hStep
      refine .trailers head q chunks l [] ?_ hHead hChunked hZero r' hLast (PartialRun.forall_prefix_nil hTrailing) ?_
      · rw [hText, ← hBytes, List.append_nil]
      · rw [hBody', hBody, hData, List.append_nil]
  | trailers head q chunks last trailers hSplit hHead hChunked hZero s hLast hLines hBody =>
    have hHere : s.run trailers = some r := by
      rw [hSplit, ← List.append_assoc, ← List.append_assoc, List.append_assoc head] at hRun
      exact (PartialRun.run_append_of_run hLast trailers).symm.trans hRun
    have hTrailing := hLines trailers [] r (List.append_nil trailers).symm hHere
    have hText : w ++ [ch] = head ++ (chunks.flatMap Chunk.toBytes ++ (last.toBytes ++ (trailers ++ [ch]))) := by
      rw [hSplit]
      simp only [List.append_assoc]
    have hReads := reads_byteCase (.inr hTrailing) ch
    have hBody' := (body_of_quiet hStep hReads.quiet).trans hBody
    cases hReads.leaves hFlow with
    | lines hNext =>
      refine .inl ⟨by simpa [hNext.complete] using hComplete, ?_⟩
      refine .trailers head q chunks last _ hText hHead hChunked hZero s hLast ?_ hBody'
      refine PartialRun.forall_prefix_concat hLines (PartialRun.run_concat hHere hStep) ?_
      rw [hParser]
      exact hNext.trailing hTrailing
    | opens hIn => exact absurd hTrailing (by rw [hIn.trailing]; decide)
    | ends _ hDone =>
      refine .inr ⟨hComplete.mpr (.inr hDone), ?_⟩
      exact .chunked head q chunks last _ hText hHead hChunked hZero
        ⟨s, hLast, PartialRun.forall_prefix_before hLines⟩
        hBody'

theorem Reading.run {text : Bytes} {e : Reader} (h : Reading start w r) (hRun : start.run w = some r)
    (hEarly : ∀ u v p, w = u ++ v → start.run u = some p → p.message.complete = false) (hText : r.run text = some e)
    (hDone : e.message.complete = true) :
    ∃ m rest q, w ++ text = m ++ rest ∧ rest.length < text.length ∧ MessageParser.Ends start m q ∧
      Framed start m q.message.body := by
  have hOpen := hEarly w [] r (List.append_nil w).symm hRun
  induction text generalizing w r with
  | nil =>
    obtain rfl := Option.some.inj hText
    rw [hOpen] at hDone
    cases hDone
  | cons ch text ih =>
    obtain ⟨q, hStep, hRest⟩ := PartialRun.run_cons_eq_some.mp hText
    have hNext : start.run (w ++ [ch]) = some q := PartialRun.run_concat hRun hStep
    have hWhole : w ++ ch :: text = w ++ [ch] ++ text := by simp
    rcases h.step hRun hOpen hStep with ⟨hStill, hReading⟩ | ⟨hComplete, hFramed⟩
    · obtain ⟨m, rest, t, hSplit, hShort, hMessage⟩ :=
        ih hReading hNext (PartialRun.forall_prefix_concat hEarly hNext hStill) hRest hStill
      exact ⟨m, rest, t, hWhole.trans hSplit, Nat.lt_succ_of_lt hShort, hMessage⟩
    · exact ⟨w ++ [ch], text, q, hWhole, Nat.lt_succ_self _,
        ⟨hNext, hComplete, upgrade_of_complete hStep hOpen hComplete, PartialRun.forall_prefix_before hEarly⟩,
          hFramed⟩

/-- The first complete message that a reader takes is framed. -/
theorem framed {text : Bytes} {e : Reader} (hHead : start.parser.InHead)
    (hSkip : start.parser.flags.fSkipbody = false)
    (hBody : start.message.body = []) (hOpen : start.message.complete = false) (hRun : start.run text = some e)
    (hDone : e.message.complete = true) :
    ∃ m rest q, text = m ++ rest ∧ MessageParser.Ends start m q ∧ Framed start m q.message.body := by
  have hStart : Reading start [] start := .head (PartialRun.forall_prefix_nil hHead) hSkip hBody
  obtain ⟨m, rest, q, hSplit, -, hMessage⟩ := hStart.run rfl (PartialRun.forall_prefix_nil hOpen) hRun hDone
  exact ⟨m, rest, q, hSplit, hMessage⟩

end Reader

end HttpUtils
