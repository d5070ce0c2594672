import Mathlib.Algebra.Order.Ring.Int

/-!
# Strings and numbers

The character classes of `lib/ctype.c`, `skip_spaces()` of `lib/string.c`, and the
conversion of digits to numbers of `lib/kstrtox.c` and `lib/vsprintf.c`.

A string is the list of its bytes before the terminating `NUL`.
-/

namespace LinuxKernel.Str

abbrev CStr := List UInt8

variable (s : CStr) (base : UInt32)

/-- `*s`. -/
def head : UInt8 :=
  s.headD 0

/-- `isspace()`: the bytes with the mask `_S` in `_ctype`. -/
def isspace (c : UInt8) : Bool :=
  (9 ≤ c && c ≤ 13) || c == 32 || c == 160

def tolower (c : UInt8) : UInt8 :=
  c ||| 0x20

/-- `isxdigit()`: the bytes with the mask `_D|_X` in `_ctype`. -/
def isxdigit (c : UInt8) : Bool :=
  (48 ≤ c && c ≤ 57) || (65 ≤ c && c ≤ 70) || (97 ≤ c && c ≤ 102)

def skipSpaces : CStr :=
  s.dropWhile isspace

def parseIntegerFixupRadix : CStr × UInt32 :=
  let base :=
    if base = 0 then
      if head s = 48 then
        if tolower (head (s.drop 1)) = 120 ∧ isxdigit (head (s.drop 2)) then 16 else 8
      else 10
    else base
  if base = 16 ∧ head s = 48 ∧ tolower (head (s.drop 1)) = 120 then
    (s.drop 2, base)
  else
    (s, base)

/-- A digit's value, or `none` where `_parse_integer()` breaks. -/
def digitVal (c : UInt8) : Option UInt32 :=
  if 48 ≤ c ∧ c ≤ 57 then
    some (c - 48).toUInt32
  else if 97 ≤ tolower c ∧ tolower c ≤ 102 then
    some ((tolower c - 97).toUInt32 + 10)
  else
    none

/-- The loop of `_parse_integer()`, with `res`, `rv` and `overflow`. -/
def parseIntegerLoop (base : UInt32) : CStr → UInt64 → Nat → Bool → UInt64 × Nat × Bool
  | [], res, rv, overflow => (res, rv, overflow)
  | c :: s, res, rv, overflow =>
    match digitVal c with
    | none => (res, rv, overflow)
    | some val =>
      if val ≥ base then
        (res, rv, overflow)
      else
        let overflow :=
          if res &&& 0xF000000000000000 ≠ 0 ∧
              res > (0xFFFFFFFFFFFFFFFF - val.toUInt64) / base.toUInt64 then
            true
          else
            overflow
        parseIntegerLoop base s (res * base.toUInt64 + val.toUInt64) (rv + 1) overflow

/-- `_parse_integer()`: the number, the length and the overflow bit. -/
def parseInteger : UInt64 × Nat × Bool :=
  parseIntegerLoop base s 0 0 false

/-- `simple_strtoull()`: the number and the string after it. -/
def simpleStrtoull : UInt64 × CStr :=
  let (s, base) := parseIntegerFixupRadix s base
  let (result, rv, _) := parseInteger s base
  (result, s.drop rv)

/-- `simple_strtoul()` where `unsigned long` has 64 bits. -/
def simpleStrtoul : UInt64 × CStr :=
  simpleStrtoull s base

def EINVAL : Int := 22

def ERANGE : Int := 34

/-- `_kstrtoull()`. -/
def kstrtoullDigits : Except Int UInt64 :=
  let (s, base) := parseIntegerFixupRadix s base
  let (res, rv, overflow) := parseInteger s base
  if overflow then
    .error (-ERANGE)
  else if rv = 0 then
    .error (-EINVAL)
  else
    let s := s.drop rv
    let s := if head s = 10 then s.drop 1 else s
    if head s ≠ 0 then .error (-EINVAL) else .ok res

def kstrtoull : Except Int UInt64 :=
  kstrtoullDigits (if head s = 43 then s.drop 1 else s) base

def kstrtoll : Except Int Int64 :=
  if head s = 45 then do
    let tmp ← kstrtoullDigits (s.drop 1) base
    if 0 < (-tmp).toInt64 then .error (-ERANGE) else .ok (-tmp).toInt64
  else do
    let tmp ← kstrtoull s base
    if tmp.toInt64 < 0 then .error (-ERANGE) else .ok tmp.toInt64

def kstrtouint : Except Int UInt32 :=
  match kstrtoull s base with
  | .error e => .error e
  | .ok tmp => if tmp ≠ tmp.toUInt32.toUInt64 then .error (-ERANGE) else .ok tmp.toUInt32

end LinuxKernel.Str
