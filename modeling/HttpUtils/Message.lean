import HttpUtils.RequestParser

/-!
# What the callbacks of one message spell

The contract of `http_data_cb`: a url, a reason, a header name, a header value and a body may each be
reported in several pieces. A `Message` is what a reader learns that joins the pieces. The two parser
classes agree with it on everything but the headers, and on those exactly while nothing is lost.
-/

namespace HttpUtils
set_option autoImplicit false

structure Message where
  url : Bytes := []
  status : Option ℕ := none
  version : Option (ℕ × ℕ) := none
  /-- The header lines before the present one. -/
  front : List Header := []
  last : Option Header := none
  /-- The last piece of a header was one of a name. -/
  inName : Bool := false
  body : Bytes := []
  complete : Bool := false
  deriving DecidableEq, Repr

namespace Message

def headers (m : Message) : List Header := m.front ++ m.last.toList

def see (m : Message) : Callback → Message
  | .onUrl run => { m with url := m.url ++ run }
  | .onStatus _ statusCode => { m with status := some statusCode }
  | .onHeaderField run =>
    if m.inName then { m with last := m.last.map fun h => { h with name := h.name ++ run } }
    else { m with front := m.headers, last := some ⟨run, []⟩, inName := true }
  | .onHeaderValue run =>
    { m with last := m.last.map fun h => { h with value := h.value ++ run }, inName := false }
  | .onBody run => { m with body := m.body ++ run }
  | .onHeadersComplete major minor => { m with version := some (major, minor) }
  | .onMessageComplete => { m with complete := true }
  | .onMessageBegin | .onChunkHeader | .onChunkComplete => m

def spell (m : Message) (calls : List Callback) : Message := calls.foldl see m

theorem spell_append (m : Message) (a b : List Callback) : m.spell (a ++ b) = (m.spell a).spell b :=
  List.foldl_append

theorem spell_concat (m : Message) (a : List Callback) (c : Callback) :
    m.spell (a ++ [c]) = (m.spell a).see c := by
  rw [spell_append]
  rfl

theorem see_split (m : Message) (k : DataCb) (P Q : HttpParser) (a b : Bytes) :
    (m.see (k.call P a)).see (k.call Q b) = m.see (k.call Q (a ++ b)) := by
  cases k with
  | url => simp [DataCb.call, see]
  | status => rfl
  | body => simp [DataCb.call, see]
  | headerField =>
    by_cases hName : m.inName
    · cases hLast : m.last <;> simp [DataCb.call, see, hName, hLast]
    · simp [DataCb.call, see, hName]
  | headerValue => cases hLast : m.last <;> simp [DataCb.call, see, hLast]

theorem complete_see_data (m : Message) (k : DataCb) (P : HttpParser) (run : Bytes) :
    (m.see (k.call P run)).complete = m.complete := by
  cases k <;> simp only [DataCb.call, see]
  split <;> rfl

theorem see_body_nil (m : Message) (P : HttpParser) : m.see (DataCb.body.call P []) = m := by
  simp [DataCb.call, see]

end Message

/-! ### The parser classes -/

/-- The request agrees with the message, its headers apart. -/
structure HttpRequestParser.Shows (t : HttpRequestParser) (m : Message) : Prop where
  uri : t.mReq.uri = m.url
  body : t.mReq.body = m.body
  complete : t.mReqComplete = m.complete
  version : ∀ v, m.version = some v → t.mReq.httpVersionMajor = v.1 ∧ t.mReq.httpVersionMinor = v.2

theorem HttpRequestParser.Shows.callback {t : HttpRequestParser} {m : Message} (h : t.Shows m)
    (c : Callback) : (t.callback c).Shows (m.see c) := by
  obtain ⟨hUri, hBody, hComplete, hVersion⟩ := h
  cases c with
  | onUrl run => exact ⟨congrArg (· ++ run) hUri, hBody, hComplete, hVersion⟩
  | onBody run => exact ⟨hUri, congrArg (· ++ run) hBody, hComplete, hVersion⟩
  | onHeadersComplete major minor =>
    refine ⟨hUri, hBody, hComplete, fun v hv => ?_⟩
    obtain rfl : (major, minor) = v := Option.some.inj hv
    exact ⟨rfl, rfl⟩
  | onMessageComplete => exact ⟨hUri, hBody, rfl, hVersion⟩
  | onHeaderField run =>
    simp only [Message.see]
    split <;> exact ⟨hUri, hBody, hComplete, hVersion⟩
  | _ => exact ⟨hUri, hBody, hComplete, hVersion⟩

theorem HttpRequestParser.Shows.foldl {t : HttpRequestParser} {m : Message} (h : t.Shows m)
    (calls : List Callback) : (calls.foldl HttpRequestParser.callback t).Shows (m.spell calls) := by
  induction calls generalizing t m with
  | nil => exact h
  | cons c calls ih => exact ih (h.callback c)

/-- The reply agrees with the message, its headers apart. -/
structure HttpReplyParser.Shows (t : HttpReplyParser) (m : Message) : Prop where
  content : t.mReply.content = m.body
  complete : t.mReplyComplete = m.complete
  status : ∀ n, m.status = some n → t.mReply.statusCode = n

theorem HttpReplyParser.Shows.callback {t : HttpReplyParser} {m : Message} (h : t.Shows m)
    (c : Callback) : (t.callback c).Shows (m.see c) := by
  obtain ⟨hContent, hComplete, hStatus⟩ := h
  cases c with
  | onBody run => exact ⟨congrArg (· ++ run) hContent, hComplete, hStatus⟩
  | onStatus run statusCode => exact ⟨hContent, hComplete, fun n hn => Option.some.inj hn⟩
  | onMessageComplete => exact ⟨hContent, rfl, hStatus⟩
  | onHeaderField run =>
    simp only [Message.see]
    split <;> exact ⟨hContent, hComplete, hStatus⟩
  | _ => exact ⟨hContent, hComplete, hStatus⟩

theorem HttpReplyParser.Shows.foldl {t : HttpReplyParser} {m : Message} (h : t.Shows m)
    (calls : List Callback) : (calls.foldl HttpReplyParser.callback t).Shows (m.spell calls) := by
  induction calls generalizing t m with
  | nil => exact h
  | cons c calls ih => exact ih (h.callback c)

theorem HttpRequestParser.foldl_headers (t : HttpRequestParser) (calls : List Callback) :
    (calls.foldl callback t).mReq.headers = calls.foldl headerCb t.mReq.headers := by
  induction calls generalizing t with
  | nil => rfl
  | cons c calls ih =>
    rw [List.foldl_cons, ih, List.foldl_cons]
    cases c <;> rfl

theorem HttpReplyParser.foldl_headers (t : HttpReplyParser) (calls : List Callback) :
    (calls.foldl callback t).mReply.headers = calls.foldl headerCb t.mReply.headers := by
  induction calls generalizing t with
  | nil => rfl
  | cons c calls ih =>
    rw [List.foldl_cons, ih, List.foldl_cons]
    cases c <;> rfl

/-! ### When the header callbacks lose something -/

/-- A second piece of a name makes a second header; a second piece of a value replaces the first. -/
def Message.Loses (m : Message) : Callback → Prop
  | .onHeaderField _ => m.inName = true
  | .onHeaderValue _ => ∃ h, m.last = some h ∧ h.value ≠ []
  | _ => False

def Message.LosesAny : Message → List Callback → Prop
  | _, [] => False
  | m, c :: calls => m.Loses c ∨ (m.see c).LosesAny calls

theorem Message.losesAny_append (m : Message) (a b : List Callback) :
    m.LosesAny (a ++ b) ↔ m.LosesAny a ∨ (m.spell a).LosesAny b := by
  induction a generalizing m with
  | nil => simp [LosesAny, spell]
  | cons c a ih =>
    simp only [List.cons_append, LosesAny, ih, or_assoc]
    rfl

theorem Message.losesAny_concat (m : Message) (a : List Callback) (c : Callback) :
    m.LosesAny (a ++ [c]) ↔ m.LosesAny a ∨ (m.spell a).Loses c := by
  simp [losesAny_append, LosesAny]

def headerBytes : List Header → ℕ
  | [] => 0
  | h :: hs => h.name.length + h.value.length + headerBytes hs

@[simp] theorem headerBytes_concat (hs : List Header) (h : Header) :
    headerBytes (hs ++ [h]) = headerBytes hs + (h.name.length + h.value.length) := by
  induction hs with
  | nil => simp [headerBytes]
  | cons g hs ih =>
    rw [List.cons_append, headerBytes, headerBytes, ih]
    omega

theorem setBackValue_concat (hs : List Header) (h : Header) (run : Bytes) :
    setBackValue (hs ++ [h]) run = hs ++ [{ h with value := run }] := by
  simp [setBackValue]

/-- The collected headers against the spelled ones: `H` has no fewer entries and no more bytes. Once
something is lost, one of the two inequalities is strict. -/
structure Collected (H : List Header) (m : Message) (lost : Prop) : Prop where
  empty : H = [] ↔ m.last = none
  name : m.inName = true → m.last ≠ none
  length : m.headers.length ≤ H.length
  bytes : headerBytes H ≤ headerBytes m.headers
  lossless : ¬ lost → H = m.headers
  lossy : lost → m.headers.length < H.length ∨ headerBytes H < headerBytes m.headers

theorem Collected.field {H : List Header} {m : Message} {lost : Prop} (h : Collected H m lost)
    (run : Bytes) :
    Collected (H ++ [⟨run, []⟩]) (m.see (.onHeaderField run)) (lost ∨ m.inName = true) := by
  by_cases hName : m.inName = true
  · obtain ⟨x, hx⟩ := Option.ne_none_iff_exists'.mp (h.name hName)
    have hHeaders : m.headers = m.front ++ [x] := by simp [Message.headers, hx]
    have hHeaders' : (m.see (.onHeaderField run)).headers = m.front ++ [{ x with name := x.name ++ run }] := by
      simp [Message.see, Message.headers, hName, hx]
    have hLength := h.length
    have hBytes := h.bytes
    rw [hHeaders] at hLength hBytes
    simp only [headerBytes_concat] at hBytes
    have hMore : (m.see (.onHeaderField run)).headers.length < (H ++ [(⟨run, []⟩ : Header)]).length := by
      rw [hHeaders']
      simp only [List.length_append, List.length_singleton] at hLength ⊢
      omega
    refine ⟨by simp [Message.see, hName, hx], by simp [Message.see, hName, hx], Nat.le_of_lt hMore, ?_, ?_,
      fun _ => .inl hMore⟩
    · rw [hHeaders']
      simp only [headerBytes_concat, List.length_append, List.length_nil]
      omega
    · intro hLost
      exact absurd (.inr hName) hLost
  · have hHeaders' : (m.see (.onHeaderField run)).headers = m.headers ++ [⟨run, []⟩] := by
      simp [Message.see, Message.headers, hName]
    refine ⟨by simp [Message.see, hName], by simp [Message.see, hName], ?_, ?_, ?_, ?_⟩ <;>
      rw [hHeaders']
    · simpa using h.length
    · simpa using h.bytes
    · intro hLost
      rw [h.lossless fun hL => hLost (.inl hL)]
    · intro hLost
      simpa using h.lossy (hLost.resolve_right hName)

theorem Collected.value {H : List Header} {m : Message} {lost : Prop} (h : Collected H m lost)
    (run : Bytes) :
    Collected (setBackValue H run) (m.see (.onHeaderValue run))
      (lost ∨ ∃ x, m.last = some x ∧ x.value ≠ []) := by
  rcases List.eq_nil_or_concat' H with rfl | ⟨H, y, rfl⟩
  · have hLast : m.last = none := h.empty.mp rfl
    have hHeaders' : (m.see (.onHeaderValue run)).headers = m.headers := by
      simp [Message.see, Message.headers, hLast]
    have hSame : (lost ∨ ∃ x, m.last = some x ∧ x.value ≠ []) ↔ lost := by simp [hLast]
    refine ⟨by simp [Message.see, setBackValue, hLast], by simp [Message.see], ?_, ?_, ?_, ?_⟩ <;>
      simp only [hHeaders', hSame]
    · exact h.length
    · exact h.bytes
    · exact h.lossless
    · exact h.lossy
  · obtain ⟨x, hx⟩ : ∃ x, m.last = some x :=
      Option.ne_none_iff_exists'.mp fun hNone => by simpa using h.empty.mpr hNone
    have hHeaders : m.headers = m.front ++ [x] := by simp [Message.headers, hx]
    have hHeaders' : (m.see (.onHeaderValue run)).headers = m.front ++ [{ x with value := x.value ++ run }] := by
      simp [Message.see, Message.headers, hx]
    have hLength := h.length
    have hBytes := h.bytes
    have hLossless := h.lossless
    have hLossy := h.lossy
    simp only [hHeaders, List.length_append, List.length_singleton, headerBytes_concat]
      at hLength hBytes hLossless hLossy
    have hEnd : ¬ lost → H = m.front ∧ y = x := fun hLost => by simpa using hLossless hLost
    rw [setBackValue_concat]
    refine ⟨by simp [Message.see, hx], by simp [Message.see], ?_, ?_, ?_, ?_⟩ <;>
      simp only [hHeaders', List.length_append, List.length_singleton, headerBytes_concat]
    · exact hLength
    · omega
    · intro hLost
      obtain ⟨rfl, rfl⟩ := hEnd fun hL => hLost (.inl hL)
      have hValue : y.value = [] := by
        by_contra hValue
        exact hLost (.inr ⟨y, hx, hValue⟩)
      rw [hValue, List.nil_append]
    · intro hLost
      by_cases hL : lost
      · rcases hLossy hL with hLossy | hLossy
        · exact .inl hLossy
        · right; omega
      · obtain ⟨z, hz, hValue⟩ := hLost.resolve_left hL
        obtain rfl : x = z := Option.some.inj (hx.symm.trans hz)
        obtain ⟨rfl, rfl⟩ := hEnd hL
        have hPos := List.length_pos_iff.mpr hValue
        right; omega

theorem Collected.headerCb {H : List Header} {m : Message} {lost : Prop} (h : Collected H m lost)
    (c : Callback) : Collected (headerCb H c) (m.see c) (lost ∨ m.Loses c) := by
  cases c with
  | onHeaderField run => exact h.field run
  | onHeaderValue run => exact h.value run
  | _ =>
    simp only [Message.Loses, or_false]
    exact ⟨h.empty, h.name, h.length, h.bytes, h.lossless, h.lossy⟩

theorem Collected.foldl {H : List Header} {m : Message} {lost : Prop} (h : Collected H m lost)
    (calls : List Callback) :
    Collected (calls.foldl HttpUtils.headerCb H) (m.spell calls) (lost ∨ m.LosesAny calls) := by
  induction calls generalizing H m lost with
  | nil => simpa [Message.LosesAny, Message.spell] using h
  | cons c calls ih =>
    have hRest := ih (h.headerCb c)
    rwa [or_assoc] at hRest

/-- The headers collected from no header on are the spelled ones if and only if nothing is lost. -/
theorem headers_eq_iff (calls : List Callback) :
    calls.foldl headerCb [] = (Message.spell {} calls).headers ↔ ¬ Message.LosesAny {} calls := by
  have hStart : Collected [] {} False :=
    ⟨by simp, by simp, Nat.le_refl _, Nat.le_refl _, fun _ => rfl, False.elim⟩
  have hEnd := hStart.foldl calls
  rw [false_or] at hEnd
  constructor
  · intro hEq hLost
    have hLossy := hEnd.lossy hLost
    rw [hEq] at hLossy
    omega
  · exact hEnd.lossless

end HttpUtils
