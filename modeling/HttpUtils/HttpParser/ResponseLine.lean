import HttpUtils.HttpParser.StartLine
import Mathlib.Data.List.Induction

/-!
# Status lines

Any status line that names a version, a status and a reason, as servers other than the one of this program write it.
-/

namespace HttpUtils
set_option autoImplicit false

structure StatusLine where
  major : ℕ
  minor : ℕ
  statusCode : ℕ
  reason : Bytes
  majorBound : major ≤ 999
  minorBound : minor ≤ 999
  statusBound : statusCode ≤ 999
  spoken : reason ≠ []
  inLine : CR ∉ reason ∧ LF ∉ reason

def StatusLine.toBytes (l : StatusLine) : Bytes :=
  ascii "HTTP/" ++ (decimal l.major ++ (ascii "." ++ (decimal l.minor ++ (ascii " " ++ (decimal l.statusCode ++
    (ascii " " ++ (l.reason ++ crlf)))))))

namespace Reader

end Reader

end HttpUtils
