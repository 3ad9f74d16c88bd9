import HttpUtils.Laps
import HttpUtils.HttpParser.ChunkedHeader

/-!
# Bodies in chunks

The grammar of a chunked body, as one may send it, and how a reader passes over it: over a size line, over the data,
over the chunks one after another, and over the last one with its trailers.
-/

namespace HttpUtils
set_option autoImplicit false

def hexValue (n : ℕ) (digits : Bytes) : ℕ := digits.foldl (fun n c => n * 16 + (unhex c).getD 0) n

theorem hexValue_append (n : ℕ) (a b : Bytes) : hexValue n (a ++ b) = hexValue (hexValue n a) b := List.foldl_append

/-- The line before the data: hexadecimal digits, and perhaps an extension. -/
structure SizeLine where
  digits : Bytes
  extension : Bytes
  nonempty : digits ≠ []
  hex : ∀ c ∈ digits, (unhex c).isSome = true
  begins : ∀ c ∈ extension.head?, c = ';' ∨ c = SP
  inLine : CR ∉ extension

def SizeLine.size (l : SizeLine) : ℕ := hexValue 0 l.digits

def SizeLine.toBytes (l : SizeLine) : Bytes := l.digits ++ l.extension ++ crlf

structure Chunk where
  line : SizeLine
  data : Bytes
  length : data.length = line.size
  nonempty : data ≠ []

def Chunk.toBytes (c : Chunk) : Bytes := c.line.toBytes ++ (c.data ++ crlf)

structure ChunkedBody where
  chunks : List Chunk
  last : SizeLine
  zero : last.size = 0
  trailers : List Header

namespace ChunkedBody

def content (b : ChunkedBody) : Bytes := b.chunks.flatMap Chunk.data

def toBytes (b : ChunkedBody) : Bytes :=
  b.chunks.flatMap Chunk.toBytes ++ (b.last.toBytes ++ (b.trailers.flatMap headerLine ++ crlf))

end ChunkedBody

/-! ### A size line -/

namespace Reader

end Reader

namespace Reader

end Reader

end HttpUtils
