import LinuxKernel.Kconfig.Transform

/-!
# Translation of comparisons

`expr_trans_compare()` makes an expression for the comparison of an expression with `y` or
`n`.  It takes a negation for that of the comparison, as in a logic with two values.
-/

namespace LinuxKernel.Kconfig

def negateIf (type : Rel) (e : Expr) : Expr :=
  if type = .unequal then .not e else e

/-- The cases of comparisons. -/
def compareComp (sym : Symbol) (type : Rel) (e : Expr) : Option Expr :=
  match sym with
  | .yes => some (if type = .equal then e else .not e)
  | .mod => some (.symbol (if type = .equal then .no else .yes))
  | .no => some (if type = .equal then .not e else e)
  | _ => none

/-- `expr_trans_compare()` of an expression.  Lists are not translated. -/
def transCompare (sym : Symbol) : Expr → Rel → Option Expr
  | .and left right, type =>
    (transCompare sym left .equal).bind fun e1 => (transCompare sym right .equal).bind fun e2 =>
      some (negateIf type
        (if sym = .yes then .and e1 e2 else if sym = .no then .or e1 e2 else .and left right))
  | .or left right, type =>
    (transCompare sym left .equal).bind fun e1 => (transCompare sym right .equal).bind fun e2 =>
      some (negateIf type
        (if sym = .yes then .or e1 e2 else if sym = .no then .and e1 e2 else .or left right))
  | .not e, type => transCompare sym e (if type = .equal then .unequal else .equal)
  | .comp rel left right, type => compareComp sym type (.comp rel left right)
  | .symbol left, type => some (.comp type left sym)
  | .list _, _ => none

def exprTransCompare (e : Option Expr) (type : Rel) (sym : Symbol) : Option Expr :=
  match e with
  | none => some (negateIf type (.symbol sym))
  | some e => transCompare sym e type

/-- What the comparison of two values gives. -/
def compared (type : Rel) (v w : Tristate) : Tristate :=
  if (v = w) = (type = .equal) then .yes else .no

/-- The values that are taken for true in a comparison. -/
def counts (sym : Symbol) (v : Tristate) : Bool :=
  if sym = .yes then v = .yes else v ≠ .no

def Expr.NoLists : Expr → Prop
  | .and left right | .or left right => left.NoLists ∧ right.NoLists
  | .not e => e.NoLists
  | .list _ => False
  | _ => True

section Truth

variable (libc : Libc) (c : Config)

/-- What the string of a symbol is taken for. -/
def readSymbol (sym s : Symbol) : Bool :=
  if sym = .yes then c.getStringValue s = ['y'] else c.getStringValue s ≠ ['n']

/-- The expression in two-valued logic, with the symbols' strings. -/
def Expr.truth (sym : Symbol) : Expr → Bool
  | .symbol s => readSymbol c sym s
  | .and left right => left.truth sym && right.truth sym
  | .or left right => left.truth sym || right.truth sym
  | .not e => !e.truth sym
  | .comp rel left right => calcValue libc c (.comp rel left right) = .yes
  | .list _ => false

/-- A conjunction of two operands is wrong where the wrong one decides. -/
def misjudged (wrong1 wrong2 counts1 counts2 : Bool) : Bool :=
  match wrong1, wrong2 with
  | true, true => counts1 = counts2
  | true, false => counts2
  | false, true => counts1
  | false, false => false

/-- The expression is taken for another value than it has: a symbol whose string does not agree
with its value, or a negation of `m`, decides. -/
def Expr.misread (sym : Symbol) : Expr → Bool
  | .symbol s => readSymbol c sym s ≠ counts sym (c.triOf s)
  | .and left right =>
    misjudged (left.misread sym) (right.misread sym) (counts sym (calcValue libc c left))
      (counts sym (calcValue libc c right))
  | .or left right =>
    misjudged (left.misread sym) (right.misread sym) (!counts sym (calcValue libc c left))
      (!counts sym (calcValue libc c right))
  | .not e => if calcValue libc c e = .mod then !e.misread sym else e.misread sym
  | .comp _ _ _ | .list _ => false

/-- No negation of `m`, and the strings of all symbols agree with their values. -/
def Expr.Plain (sym : Symbol) : Expr → Prop
  | .symbol s => readSymbol c sym s = counts sym (c.triOf s)
  | .and left right | .or left right => left.Plain sym ∧ right.Plain sym
  | .not e => calcValue libc c e ≠ .mod ∧ e.Plain sym
  | .comp _ _ _ | .list _ => True

end Truth

/-- The comparison holds if the truth value is `b`. -/
def truthIs (b : Bool) (sym : Symbol) (type : Rel) : Tristate :=
  if b = ((sym = .yes) = (type = .equal)) then .yes else .no

variable {libc : Libc} {c : Config} {sym : Symbol} {type : Rel}

theorem strcmp_eq_zero {s t : Str} : strcmp s t = 0 ↔ s = t := by
  induction s generalizing t with
  | nil => cases t <;> simp [strcmp]
  | cons a s ih =>
    cases t with
    | nil => simp [strcmp]
    | cons b t =>
      unfold strcmp
      grind [Char.lt_irrefl, Char.le_antisymm, Char.not_lt]

theorem calcValue_comp (libc : Libc) (c : Config) (rel : Rel) (left right : Symbol) :
    calcValue libc c (.comp rel left right) = .yes ∨
      calcValue libc c (.comp rel left right) = .no := by
  unfold calcValue
  split
  · exact ite_eq_or_eq _ _ _
  · exact .inr rfl

theorem counts_and (v w : Tristate) : counts sym (v.and w) = (counts sym v && counts sym w) := by
  unfold counts
  cases v <;> cases w <;> split <;> rfl

theorem counts_or (v w : Tristate) : counts sym (v.or w) = (counts sym v || counts sym w) := by
  unfold counts
  cases v <;> cases w <;> split <;> rfl

/-- The errors in the parts of an expression are what makes the difference to its value. -/
theorem truth_eq_counts_iff {e : Expr} (h : e.NoLists) :
    e.truth libc c sym = counts sym (calcValue libc c e) ↔ e.misread libc c sym = false := by
  induction e with
  | symbol s => simp [Expr.truth, Expr.misread, calcValue]
  | comp rel left right =>
    simp only [Expr.truth, Expr.misread, iff_true]
    rcases calcValue_comp libc c rel left right with hv | hv <;> simp [hv, counts]
  | not e ih =>
    have ih := ih h
    simp only [Expr.truth, Expr.misread, calcValue]
    cases hv : calcValue libc c e <;> rw [hv] at ih <;> revert ih <;>
      cases e.truth libc c sym <;> cases e.misread libc c sym <;> by_cases hs : sym = .yes <;>
      simp [counts, Tristate.not, hs]
  | and left right ihl ihr | or left right ihl ihr =>
    have ihl := ihl h.1
    have ihr := ihr h.2
    simp only [Expr.truth, Expr.misread, calcValue, counts_and, counts_or]
    generalize counts sym (calcValue libc c left) = v at *
    generalize counts sym (calcValue libc c right) = w at *
    revert ihl ihr
    cases left.truth libc c sym <;> cases right.truth libc c sym <;> cases v <;> cases w <;>
      cases left.misread libc c sym <;> cases right.misread libc c sym <;> simp [misjudged]
  | list syms => exact h.elim

theorem Expr.Plain.misread {e : Expr} (h : e.Plain libc c sym) : e.misread libc c sym = false := by
  induction e with
  | symbol s => exact decide_eq_false (not_not_intro h)
  | and left right ihl ihr | or left right ihl ihr =>
    simp only [Expr.misread, ihl h.1, ihr h.2, misjudged]
  | not e ih => rw [Expr.misread, if_neg h.1, ih h.2]
  | comp rel left right | list syms => rfl

section Values

variable (hlibc : libc.isxdigit 'y' = false ∧ libc.isxdigit 'n' = false)
  (hsym : sym = .yes ∨ sym = .no) (htype : type = .equal ∨ type = .unequal)

include hlibc hsym

theorem compareSyms_eq (left : Symbol) :
    compareSyms libc c type left sym =
      some (strcmp (c.getStringValue left) (c.getStringValue sym)) := by
  refine if_pos (.inr ?_)
  rcases hsym with rfl | rfl <;>
    simp [parseFor, exprParseString, parsedKind, Config.typeOf, Config.getStringValue, Config.valOf]
  all_goals grind

include htype

theorem transCompare_value {e : Expr} (h : e.NoLists) :
    ∃ e', transCompare sym e type = some e' ∧
      calcValue libc c e' = truthIs (e.truth libc c sym) sym type := by
  induction e generalizing type with
  | symbol left =>
    refine ⟨_, rfl, ?_⟩
    rw [calcValue, compareSyms_eq hlibc hsym, Expr.truth, readSymbol]
    generalize c.getStringValue left = str
    rcases hsym with rfl | rfl <;> rcases htype with rfl | rfl <;>
      simp [Rel.holds, strcmp_eq_zero, truthIs, Config.getStringValue, Config.typeOf, Config.valOf]
  | comp rel left right =>
    have hvalue := calcValue_comp libc c rel left right
    have hnot : calcValue libc c (.not (.comp rel left right)) =
        (calcValue libc c (.comp rel left right)).not := rfl
    rw [Expr.truth]
    rcases hvalue with hv | hv <;> rw [hv] at hnot ⊢ <;> rcases hsym with rfl | rfl <;>
      rcases htype with rfl | rfl <;> first | exact ⟨_, rfl, hv⟩ | exact ⟨_, rfl, hnot⟩
  | not e ih =>
    obtain ⟨e', h', hvalue⟩ := @ih (if type = .equal then .unequal else .equal) (by
      split <;> simp) h
    refine ⟨e', h', hvalue.trans ?_⟩
    rw [Expr.truth]
    generalize e.truth libc c sym = b
    rcases hsym with rfl | rfl <;> rcases htype with rfl | rfl <;> cases b <;> rfl
  | and left right ihl ihr | or left right ihl ihr =>
    obtain ⟨e1, h1, hl⟩ := ihl (.inl rfl) h.1
    obtain ⟨e2, h2, hr⟩ := ihr (.inl rfl) h.2
    rw [transCompare, h1, h2]
    refine ⟨_, rfl, ?_⟩
    rw [Expr.truth]
    generalize left.truth libc c sym = a at *
    generalize right.truth libc c sym = b at *
    rcases hsym with rfl | rfl <;> rcases htype with rfl | rfl <;> cases a <;> cases b <;>
      simp [negateIf, calcValue, hl, hr, truthIs, Tristate.and, Tristate.or, Tristate.not,
        Tristate.toNat]
  | list syms => exact h.elim

end Values

/-- The comparison of an expression is translated rightly exactly if the expression is not misread,
which it is not without negations of `m` and strings that do not agree with their symbols. -/
theorem expr_trans_compare_iff (libc : Libc) (c : Config)
    (hlibc : libc.isxdigit 'y' = false ∧ libc.isxdigit 'n' = false)
    (hsym : sym = .yes ∨ sym = .no) (e : Option Expr) (h : ∀ e' ∈ e, e'.NoLists) :
    ((∀ type, type = .equal ∨ type = .unequal →
      exprCalcValue libc c (exprTransCompare e type sym) =
        compared type (exprCalcValue libc c e) (c.triOf sym)) ↔
      ∀ e' ∈ e, e'.misread libc c sym = false) ∧
    ∀ e' ∈ e, e'.Plain libc c sym → e'.misread libc c sym = false := by
  refine ⟨?_, fun e' _ hplain => hplain.misread⟩
  have hvalue : ∀ type, type = .equal ∨ type = .unequal →
      exprCalcValue libc c (exprTransCompare e type sym) =
        truthIs (e.elim true (Expr.truth libc c sym)) sym type := by
    intro type htype
    cases e with
    | none => rcases hsym with rfl | rfl <;> rcases htype with rfl | rfl <;> rfl
    | some e =>
      obtain ⟨e', htrans, heq⟩ := transCompare_value hlibc hsym htype (h e rfl)
      rw [exprTransCompare, htrans]
      exact heq
  have hcounts : ∀ type v, compared type v (c.triOf sym) = truthIs (counts sym v) sym type := by
    intro type v
    rcases hsym with rfl | rfl <;> cases v <;> cases type <;> rfl
  have hright : e.elim true (Expr.truth libc c sym) = counts sym (exprCalcValue libc c e) ↔
      ∀ e' ∈ e, e'.misread libc c sym = false := by
    cases e with
    | none => exact iff_of_true (by rcases hsym with rfl | rfl <;> rfl) nofun
    | some e => simpa [exprCalcValue] using truth_eq_counts_iff (h e rfl)
  rw [← hright]
  constructor
  · intro hall
    have heq := (hvalue .equal (.inl rfl)).symm.trans (hall .equal (.inl rfl))
    rw [hcounts] at heq
    generalize counts sym (exprCalcValue libc c e) = u at heq ⊢
    generalize e.elim true (Expr.truth libc c sym) = t at heq ⊢
    rcases hsym with rfl | rfl <;> cases t <;> cases u <;> first | rfl | cases heq
  · intro hcond type htype
    rw [hvalue type htype, hcond, hcounts]

/-- All symbols are `m`, and modules are enabled. -/
def allMod : Config :=
  ⟨fun _ => .tristate, fun _ => .mod, fun _ => [], .yes⟩

/-- `(!X && n || X) = y`: the negation of `m` decides nothing. -/
theorem expr_trans_compare_iff_absorbed :
    exprCalcValue noNumbers allMod (exprTransCompare
      (some (.or (.and (.not (.symbol (.config 0))) (.symbol .no)) (.symbol (.config 0))))
        .equal .yes) = compared .equal .mod .yes :=
  (expr_trans_compare_iff noNumbers allMod ⟨rfl, rfl⟩ (.inl rfl) (some (.or _ _))
    (by rintro _ ⟨⟩; exact ⟨⟨trivial, trivial⟩, trivial⟩)).1.mpr (by rintro _ ⟨⟩; rfl)
    .equal (.inl rfl)

/-- `!X = y` for a symbol that is `m`. -/
theorem transCompare_not_mod :
    exprCalcValue noNumbers allMod (some (.not (.symbol (.config 0)))) = .mod ∧
      exprCalcValue noNumbers allMod
        (exprTransCompare (some (.not (.symbol (.config 0)))) .equal .yes) = .yes :=
  ⟨rfl, rfl⟩

end LinuxKernel.Kconfig
