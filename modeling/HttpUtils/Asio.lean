import HttpUtils.HttpParser.Chars
import Mathlib.Data.Nat.Notation

/-! # What asio hands to a completion handler -/

namespace HttpUtils
set_option autoImplicit false

/-- `asio_ec` without success, as far as the handlers look at it. -/
inductive ErrorCode where
  | operationAborted | eof
  | other (value : ℕ)
  deriving DecidableEq, Repr

inductive IoResult where
  | ok (data : Bytes)
  | error (ec : ErrorCode)
  deriving DecidableEq, Repr

end HttpUtils
