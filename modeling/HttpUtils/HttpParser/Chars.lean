import Mathlib.Data.List.Basic
import Mathlib.Tactic.Common

/-!
# Bytes and the character classes of `http_parser.cpp`

The tables are those of the strict build (`HTTP_PARSER_STRICT` is 1 unless it
is defined before the header, and nothing in the tree defines it).
-/

namespace HttpUtils
set_option autoImplicit false

abbrev Bytes := List UInt8

instance charToByte : Coe Char UInt8 := ⟨fun c => c.toNat.toUInt8⟩

/-- The bytes of an ASCII literal. -/
def ascii (s : String) : Bytes := s.toList.map fun c => c.toNat.toUInt8

abbrev CR : UInt8 := 13
abbrev LF : UInt8 := 10
abbrev SP : UInt8 := 32
abbrev HT : UInt8 := 9

def lower (c : UInt8) : UInt8 := c ||| 0x20

def isAlpha (c : UInt8) : Bool := 'a' ≤ lower c && lower c ≤ 'z'

def isNum (c : UInt8) : Bool := '0' ≤ c && c ≤ '9'

def isAlphanum (c : UInt8) : Bool := isAlpha c || isNum c

def isMark (c : UInt8) : Bool := (ascii "-_.!~*'()").contains c

def isUserinfoChar (c : UInt8) : Bool := isAlphanum c || isMark c || (ascii "%;:&=+$,").contains c

/-- `tokens[c]`: zero for a byte that is no token, its lower case for a letter. -/
def token (c : UInt8) : UInt8 :=
  if 'A' ≤ c && c ≤ 'Z' then lower c
  else if isAlphanum c || (ascii "!#$%&'*+-.^_`|~").contains c then c
  else 0

/-- `IS_URL_CHAR`: the bits set in `normal_url_char`, whose upper half is all zero. -/
def isUrlChar (c : UInt8) : Bool := 33 ≤ c && c ≤ 126 && c != '#' && c != '?'

def isHeaderChar (c : UInt8) : Bool := c == CR || c == LF || c == HT || (31 < c && c != 127)

/-- `unhex[c]`, `none` for -1. The table has 256 entries but only 128 initialisers, so the bytes from 128 on count
as the digit 0. -/
def unhex (c : UInt8) : Option Nat :=
  if isNum c then some (c - '0').toNat
  else if 'A' ≤ c && c ≤ 'F' then some ((c - 'A').toNat + 10)
  else if 'a' ≤ c && c ≤ 'f' then some ((c - 'a').toNat + 10)
  else if 128 ≤ c then some 0
  else none

theorem forall_byte {P : UInt8 → Prop} (h : ∀ n : Fin 256, P (UInt8.ofNat n)) (c : UInt8) : P c := by
  have hc := h ⟨c.toNat, c.toNat_lt⟩
  simpa using hc

end HttpUtils
