import HttpUtils.Chunks
import HttpUtils.HttpParser.ResponseLine
import HttpUtils.RoundTrip

/-!
# Decoding messages that come in chunks

Neither encoder of this program writes chunks, but both parsers take them: whatever the division into buffers, and
whatever the division into chunks, the data comes back joined.
-/

namespace HttpUtils
set_option autoImplicit false

/-- What stands behind the start line of a chunked message. -/
structure ChunkedMessage where
  before : List Header
  encoding : Header
  after : List Header
  body : ChunkedBody

namespace ChunkedMessage

def head (m : ChunkedMessage) : Bytes :=
  m.before.flatMap headerLine ++ (headerLine m.encoding ++ (m.after.flatMap headerLine ++ crlf))

def toBytes (m : ChunkedMessage) : Bytes := m.head ++ m.body.toBytes

end ChunkedMessage

namespace Reader

end Reader

end HttpUtils
