/-!
# Expressions of the configuration language

Symbols, expressions and their values (`scripts/kconfig/expr.c`, and
`sym_get_string_value()` of `scripts/kconfig/symbol.c`).
-/

namespace LinuxKernel.Kconfig

inductive Tristate
  | no | mod | yes
deriving DecidableEq

def Tristate.toNat : Tristate → Nat
  | .no => 0
  | .mod => 1
  | .yes => 2

def Tristate.or (dep1 dep2 : Tristate) : Tristate :=
  if dep1.toNat > dep2.toNat then dep1 else dep2

def Tristate.and (dep1 dep2 : Tristate) : Tristate :=
  if dep1.toNat < dep2.toNat then dep1 else dep2

def Tristate.not : Tristate → Tristate
  | .no => .yes
  | .mod => .mod
  | .yes => .no

inductive SymbolType
  | unknown | boolean | tristate | int | hex | string | other
deriving DecidableEq

abbrev Str := List Char

/-- `symbol_yes`, `symbol_mod`, `symbol_no`, the other constants by name, and the symbols of the
configuration. -/
inductive Symbol
  | yes | mod | no
  | const (name : Str)
  | config (i : Nat)
deriving DecidableEq

/-- The types of the symbols, their values after `sym_calc_value()`, and `modules_sym`. -/
structure Config where
  type : Nat → SymbolType
  tri : Nat → Tristate
  val : Nat → Str
  modulesSym : Symbol

section Symbols

variable (c : Config)

/-- `sym->type`. -/
def Config.typeOf : Symbol → SymbolType
  | .config i => c.type i
  | _ => .unknown

/-- `sym->curr.tri`. -/
def Config.triOf : Symbol → Tristate
  | .yes => .yes
  | .mod => .mod
  | .no | .const _ => .no
  | .config i => c.tri i

/-- `sym->curr.val`. -/
def Config.valOf : Symbol → Str
  | .yes => ['y']
  | .mod => ['m']
  | .no => ['n']
  | .const name => name
  | .config i => c.val i

def Config.getStringValue (sym : Symbol) : Str :=
  match c.typeOf sym with
  | .boolean | .tristate =>
    match c.triOf sym with
    | .no => ['n']
    | .mod => if c.triOf c.modulesSym = .no then ['n'] else ['m']
    | .yes => ['y']
  | _ => c.valOf sym

end Symbols

section Comparisons

/-- The results of `strtoll()` and `strtoull()`: the value, whether `errno` is set, and the place
of the tail. -/
structure Parsed where
  value : BitVec 64
  errno : Bool
  tail : Nat

structure Libc where
  strtoll : Str → Nat → Parsed
  strtoull : Str → Nat → Parsed
  isxdigit : Char → Bool

inductive Kind
  | string | signed | unsigned | invalid
deriving DecidableEq

variable (libc : Libc) (c : Config)

/-- The end of `expr_parse_string()`. -/
def parsedKind (str : Str) (p : Parsed) (kind : Kind) : Kind :=
  if ¬ p.errno ∧ p.tail = str.length ∧ 0 < p.tail ∧ libc.isxdigit (str.getD (p.tail - 1) 'z') then
    kind
  else .string

def exprParseString (str : Str) : SymbolType → Kind × BitVec 64
  | .boolean | .tristate => (.string, 0)
  | .int => (parsedKind libc str (libc.strtoll str 10) .signed, (libc.strtoll str 10).value)
  | .hex => (parsedKind libc str (libc.strtoull str 16) .unsigned, (libc.strtoull str 16).value)
  | .string | .unknown =>
    (parsedKind libc str (libc.strtoll str 0) .signed, (libc.strtoll str 0).value)
  | .other => (.invalid, 0)

/-- The sign of `strcmp()`. -/
def strcmp : Str → Str → Int
  | [], [] => 0
  | [], _ :: _ => -1
  | _ :: _, [] => 1
  | a :: s, b :: t => if a < b then -1 else if b < a then 1 else strcmp s t

/-- `(l > r) - (l < r)`. -/
def threeWay (l r : Int) : Int :=
  (if l > r then 1 else 0) - if l < r then 1 else 0

/-- The types of comparisons. -/
inductive Rel
  | equal | unequal | lth | leq | gth | geq
deriving DecidableEq

def Rel.holds (res : Int) : Rel → Bool
  | .equal => res = 0
  | .geq => res ≥ 0
  | .gth => res > 0
  | .leq => res ≤ 0
  | .lth => res < 0
  | .unequal => res ≠ 0

/-- `res` in `expr_calc_value()`; `none` without a comparison. -/
def compareParsed (rel : Rel) (str1 str2 : Str) (l r : Kind × BitVec 64) : Option Int :=
  if l.1 = .string ∨ r.1 = .string then some (strcmp str1 str2)
  else if l.1 = .invalid ∨ r.1 = .invalid then
    if rel ≠ .equal ∧ rel ≠ .unequal then none else some (strcmp str1 str2)
  else if l.1 = .unsigned ∨ r.1 = .unsigned then some (threeWay l.2.toNat r.2.toNat)
  else some (threeWay l.2.toInt r.2.toInt)

/-- The kind and the value of a symbol compared with another. -/
def parseFor (sym other : Symbol) : Kind × BitVec 64 :=
  if c.typeOf sym ≠ .string ∨ c.typeOf other ≠ .string then
    exprParseString libc (c.getStringValue sym) (c.typeOf sym)
  else (.string, 0)

def compareSyms (rel : Rel) (left right : Symbol) : Option Int :=
  compareParsed rel (c.getStringValue left) (c.getStringValue right)
    (parseFor libc c left right) (parseFor libc c right left)

end Comparisons

/-- `struct expr`.  A list of symbols is an expression without a value. -/
inductive Expr
  | symbol (sym : Symbol)
  | comp (rel : Rel) (left right : Symbol)
  | not (e : Expr)
  | and (left right : Expr)
  | or (left right : Expr)
  | list (syms : List Symbol)
deriving DecidableEq

variable (libc : Libc) (c : Config)

/-- `expr_calc_value()` of an expression. -/
def calcValue : Expr → Tristate
  | .symbol sym => c.triOf sym
  | .and left right => (calcValue left).and (calcValue right)
  | .or left right => (calcValue left).or (calcValue right)
  | .not e => (calcValue e).not
  | .comp rel left right =>
    match compareSyms libc c rel left right with
    | some res => if rel.holds res then .yes else .no
    | none => .no
  | .list _ => .no

def exprCalcValue : Option Expr → Tristate
  | some e => calcValue libc c e
  | none => .yes

/-- The values fit the types: no boolean symbol is `m`, and none is `S_OTHER`. -/
structure Config.Consistent : Prop where
  boolean : ∀ i, c.type i = .boolean → c.tri i ≠ .mod
  known : ∀ i, c.type i ≠ .other

end LinuxKernel.Kconfig
