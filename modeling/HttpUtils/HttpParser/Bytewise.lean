import HttpUtils.HttpParser.Execute

/-!
# The parser one byte at a time

`Scan` is the state of `http_parser_execute` between two bytes of a buffer: where the control is,
and for each mark the run from it up to the present position. `Scan.step` takes one byte, so a
statement about every buffer becomes an invariant of `Scan.step`. `ExecuteBytewise.lean` proves
that the two descriptions agree on every buffer.
-/

namespace HttpUtils
set_option autoImplicit false

/-- At the head of the outer loop, or inside the loop over a name or a value that has moved
`p` by `n`. In a value, `jump` counts the bytes since the last look at `h_general`. -/
inductive Ctl where
  | outer
  | field (n : Nat)
  | value (n : Nat) (h : HeaderStates) (jump : Option Nat)
  deriving DecidableEq, Repr

structure Scan where
  parser : HttpParser
  p : Nat
  marks : DataCb → Option Bytes
  calls : List Callback
  ctl : Ctl
  /-- The value returned, once the function has left the loop. -/
  stopped : Option Nat

namespace Scan

def callbackData (s : Scan) (k : DataCb) (last : Bytes) : Scan :=
  match s.marks k with
  | none => s
  | some run =>
    { s with
      marks := Function.update s.marks k none
      calls := s.calls ++ [k.call s.parser (run ++ last)] }

/-- An `advance` past the present byte is spread over the next steps. -/
def act (ch : UInt8) (s : Scan) : Act → Scan
  | .mark k => { s with marks := Function.update s.marks k (some ((s.marks k).getD [])) }
  | .data k => s.callbackData k []
  | .dataThrough k => s.callbackData k [ch]
  | .notify k => { s with calls := s.calls ++ [k.call s.parser] }
  | .advance _ => s

def consume (s : Scan) (ch : UInt8) : Scan :=
  { s with p := s.p + 1, marks := fun k => (s.marks k).map (· ++ [ch]) }

def settle (s : Scan) (ch : UInt8) : Flow → Scan
  | .next => s.consume ch
  | .error => { s with stopped := some s.p }
  | .ret => { s with stopped := some (s.p + 1) }

def apply (s : Scan) (ch : UInt8) (o : Outcome) : Scan :=
  settle (o.acts.foldl (act ch) { s with parser := o.parser, ctl := .outer }) ch o.flow

def countHeaderSize (s : Scan) (v : Nat) (andThen : Scan → Scan) : Scan :=
  let P := addNread s.parser v
  if overflows P then { s with parser := setErrno P .headerOverflow, stopped := some s.p }
  else andThen { s with parser := P }

/-- The loop over a name, after `n` bytes, at the byte `ch`. -/
def fieldByte (s : Scan) (n : Nat) (ch : UInt8) : Scan :=
  if token ch = 0 then
    s.countHeaderSize n fun s =>
      if ch = ':' then
        s.apply ch (next { s.parser with state := .sHeaderValueDiscardWs } [.data .headerField])
      else s.apply ch (fail s.parser .invalidHeaderToken)
  else
    let P := headerFieldChar s.parser ch (token ch)
    if P.httpErrno ≠ .ok then { s with parser := P, stopped := some s.p }
    else consume { s with parser := P, ctl := .field (n + 1) } ch

/-- The CR or LF that ends the loop over a value. -/
def valueStop (s : Scan) (n : Nat) (h : HeaderStates) (ch : UInt8) : Scan :=
  let P := { s.parser with state := .sHeaderAlmostDone }
  if ch = CR then
    let s := callbackData { s with parser := { P with headerState := h }, ctl := .outer } .headerValue []
    s.countHeaderSize n fun s => s.consume ch
  else
    countHeaderSize { s with parser := P } n fun s =>
      s.apply ch ((headerAlmostDoneCase { s.parser with headerState := h } ch).after [.data .headerValue])

/-- The loop over a value, after `n` bytes, at the byte `ch`. -/
def valueByte (s : Scan) (n : Nat) (h : HeaderStates) (jump : Option Nat) (ch : UInt8) : Scan :=
  match jump with
  | some i =>
    if (ch = CR ∨ ch = LF) ∧ i < httpMaxHeaderSize then s.valueStop n h ch
    else consume { s with ctl := .value (n + 1) h (some (i + 1)) } ch
  | none =>
    if ch = CR ∨ ch = LF then s.valueStop n h ch
    else if !isHeaderChar ch then
      { s with parser := setErrno s.parser .invalidHeaderToken, stopped := some s.p }
    else if h = .hGeneral then consume { s with ctl := .value (n + 1) h (some 1) } ch
    else
      let (P, h) := headerValueChar s.parser h ch
      if P.httpErrno ≠ .ok then { s with parser := P, stopped := some s.p }
      else consume { s with parser := P, ctl := .value (n + 1) h none } ch

def switchByte (s : Scan) (ch : UInt8) : Scan :=
  match s.parser.state with
  | .sHeaderField => fieldByte { s with ctl := .field 0 } 0 ch
  | .sHeaderValue =>
    let h := s.parser.headerState
    valueByte { s with ctl := .value 0 h none } 0 h none ch
  | _ => s.apply ch (HttpUtils.switch s.parser ch 1)

def step (s : Scan) (ch : UInt8) : Scan :=
  match s.stopped with
  | some _ => s
  | none =>
    match s.ctl with
    | .field n => s.fieldByte n ch
    | .value n h jump => s.valueByte n h jump ch
    | .outer =>
      if parsingHeader s.parser.state then s.countHeaderSize 1 fun s => s.switchByte ch
      else s.switchByte ch

def run (s : Scan) (bytes : Bytes) : Scan := bytes.foldl step s

def flush (s : Scan) : Scan := leftover.foldl (act 0) { s with ctl := .outer }

/-- The end of the buffer, where a loop inside a case still has its bytes to count. -/
def endBuffer (s : Scan) : Scan :=
  match s.stopped with
  | some _ => s
  | none =>
    match s.ctl with
    | .outer => s.flush
    | .field n => s.countHeaderSize n flush
    | .value n h _ => countHeaderSize { s with parser := { s.parser with headerState := h } } n flush

def result (s : Scan) : HttpParser × List Callback × Nat :=
  (s.parser, s.calls, s.stopped.getD s.p)

def start (P : HttpParser) : Scan where
  parser := P
  p := 0
  marks k := if openMark P.state = some k then some [] else none
  calls := []
  ctl := .outer
  stopped := none

end Scan

end HttpUtils
