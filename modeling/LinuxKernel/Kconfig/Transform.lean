import LinuxKernel.Kconfig.Expr
import LinuxKernel.Lib.Returns
import Mathlib.Data.List.Sort

/-!
# Normalisation of expressions

`expr_transform()` pushes negations down and replaces comparisons of boolean symbols.  It calls
itself for the expressions that it makes, which are smaller when a negation counts three times
what is below it.
-/

namespace LinuxKernel.Kconfig

open Lib Kconfig.Expr

/-- The cases `E_EQUAL` and `E_UNEQUAL` of `expr_transform()`. -/
def transformComp (type : Nat → SymbolType) : Rel → Symbol → Symbol → Expr
  | .equal, .config i, right =>
    if type i ≠ .boolean then .comp .equal (.config i) right
    else
      match right with
      | .no => .not (.symbol (.config i))
      | .mod => .symbol .no
      | .yes => .symbol (.config i)
      | _ => .comp .equal (.config i) right
  | .unequal, .config i, right =>
    if type i ≠ .boolean then .comp .unequal (.config i) right
    else
      match right with
      | .no => .symbol (.config i)
      | .mod => .symbol .yes
      | .yes => .not (.symbol (.config i))
      | _ => .comp .unequal (.config i) right
  | rel, left, right => .comp rel left right

/-- The relation that holds when another one does not. -/
def Rel.negate : Rel → Rel
  | .equal => .unequal
  | .unequal => .equal
  | .leq => .gth
  | .geq => .lth
  | .lth => .geq
  | .gth => .leq

/-- The case `E_NOT` of `expr_transform()`; `again` is the call for a new expression. -/
def transformNot (again : Expr → Option Expr) : Expr → Option Expr
  | .not e => again e
  | .comp rel left right => some (.comp rel.negate left right)
  | .or left right => again (.and (.not left) (.not right))
  | .and left right => again (.or (.not left) (.not right))
  | .symbol .yes => some (.symbol .no)
  | .symbol .mod => some (.symbol .mod)
  | .symbol .no => some (.symbol .yes)
  | e => some (.not e)

/-- `expr_transform()` of an expression. -/
def transform (type : Nat → SymbolType) : Nat → Expr → Option Expr
  | 0, _ => none
  | _ + 1, .comp rel left right => some (transformComp type rel left right)
  | fuel + 1, .and left right =>
    (transform type fuel left).bind fun l =>
      (transform type fuel right).bind fun r => some (.and l r)
  | fuel + 1, .or left right =>
    (transform type fuel left).bind fun l =>
      (transform type fuel right).bind fun r => some (.or l r)
  | fuel + 1, .not e => (transform type fuel e).bind (transformNot (transform type fuel))
  | _ + 1, e => some e

def exprTransform (type : Nat → SymbolType) (e : Option Expr) (fuel : Nat) : Option (Option Expr) :=
  match e with
  | none => some none
  | some e => (transform type fuel e).bind fun e' => some (some e')

variable {libc : Libc} {c : Config} {v w : Tristate}

theorem Tristate.not_not : v.not.not = v := by
  cases v <;> rfl

theorem Tristate.not_or : (v.or w).not = v.not.and w.not := by
  cases v <;> cases w <;> rfl

theorem Tristate.not_and : (v.and w).not = v.not.or w.not := by
  cases v <;> cases w <;> rfl

theorem Config.Consistent.parseFor_ne (h : c.Consistent) (sym other : Symbol) :
    (parseFor libc c sym other).1 ≠ .invalid := by
  have htype : c.typeOf sym ≠ .other := by
    cases sym with
    | config i => exact h.known i
    | _ => exact nofun
  unfold parseFor
  split_ifs
  · cases hsym : c.typeOf sym with
    | other => exact absurd hsym htype
    | boolean | tristate => exact nofun
    | int | hex | string | unknown =>
      simp only [exprParseString, parsedKind]
      split_ifs <;> exact nofun
  · exact nofun

variable (libc) in
theorem Config.Consistent.compareSyms_eq (h : c.Consistent) (left right : Symbol) :
    ∃ res, ∀ rel, compareSyms libc c rel left right = some res := by
  have hl : (parseFor libc c left right).1 ≠ .invalid := h.parseFor_ne left right
  have hr : (parseFor libc c right left).1 ≠ .invalid := h.parseFor_ne right left
  unfold compareSyms compareParsed
  simp only [if_neg (not_or.mpr ⟨hl, hr⟩)]
  split_ifs
  all_goals exact ⟨_, fun _ => rfl⟩

theorem Config.Consistent.calcValue_negate (h : c.Consistent) (rel : Rel) (left right : Symbol) :
    calcValue libc c (.comp rel.negate left right) =
      (calcValue libc c (.comp rel left right)).not := by
  obtain ⟨res, hres⟩ := h.compareSyms_eq libc left right
  have hnegate : rel.negate.holds res = !rel.holds res := by
    rw [Bool.eq_iff_iff]
    cases rel <;> simp [Rel.negate, Rel.holds]
  simp only [calcValue, hres, hnegate]
  cases rel.holds res <;> rfl

theorem compareSyms_boolean {i : Nat} (hi : c.type i = .boolean) (rel : Rel) (right : Symbol) :
    compareSyms libc c rel (.config i) right =
      some (strcmp (c.getStringValue (.config i)) (c.getStringValue right)) := by
  have htype : c.typeOf (.config i) = .boolean := hi
  have hkind : (parseFor libc c (.config i) right).1 = .string := by
    rw [parseFor, htype, if_pos (.inl nofun)]
    rfl
  exact if_pos (.inl hkind)

theorem Config.Consistent.calcValue_comp (h : c.Consistent) (rel : Rel) (left right : Symbol) :
    calcValue libc c (transformComp c.type rel left right) =
      calcValue libc c (.comp rel left right) := by
  cases left with
  | config i =>
    by_cases hi : c.type i = .boolean
    · have hvalue : c.getStringValue (.config i) = if c.tri i = .yes then ['y'] else ['n'] := by
        have hmod := h.boolean i hi
        unfold Config.getStringValue
        rw [show c.typeOf (.config i) = .boolean from hi]
        cases hv : c.tri i with
        | mod => exact absurd hv hmod
        | no | yes => simp [Config.triOf, hv]
      cases rel with
      | equal | unequal =>
        cases right with
        | const | config => simp [transformComp, hi]
        | yes | mod | no =>
          have hmod := h.boolean i hi
          simp only [transformComp, hi, ne_eq, not_true_eq_false, if_false, calcValue,
            compareSyms_boolean hi, hvalue]
          cases hv : c.tri i with
          | mod => exact absurd hv hmod
          | no | yes => simp [Config.triOf, hv, Config.getStringValue, Config.typeOf, Config.valOf,
              strcmp, Rel.holds, Tristate.not]
      | _ => rfl
    · cases rel with
      | equal | unequal => simp [transformComp, hi]
      | _ => rfl
  | _ => cases rel <;> rfl

/-- The measure that falls with every call of `expr_transform()`. -/
def Expr.weight : Expr → Nat
  | .symbol _ | .list _ => 1
  | .comp _ _ _ => 3
  | .not e => 3 * e.weight
  | .and left right | .or left right => left.weight + right.weight + 1

theorem Expr.weight_pos (e : Expr) : 0 < e.weight := by
  induction e with
  | not e ih => exact Nat.mul_pos (by decide) ih
  | _ => exact Nat.succ_pos _

theorem weight_transformComp (type : Nat → SymbolType) (rel : Rel) (left right : Symbol) :
    (transformComp type rel left right).weight ≤ 3 := by
  unfold transformComp
  split <;> first | exact Nat.le_refl _ | split_ifs <;> first | exact Nat.le_refl _ | skip
  all_goals split <;> simp [weight]

/-- The result of `expr_transform()` for `e`: not heavier, with the same value. -/
structure Result (libc : Libc) (c : Config) (e e' : Expr) : Prop where
  returns : Returns (fun fuel => transform c.type fuel e) e'
  weight : e'.weight ≤ e.weight
  value : calcValue libc c e' = calcValue libc c e

/-- The case `E_NOT`, where the new expressions are lighter than the negation. -/
theorem Config.Consistent.transformNot_result (h : c.Consistent) (e : Expr)
    (again : ∀ e', e'.weight < (not e).weight → ∃ r, Result libc c e' r) :
    ∃ r, Returns (fun fuel => transformNot (transform c.type fuel) e) r ∧
      r.weight ≤ (not e).weight ∧ calcValue libc c r = calcValue libc c (.not e) := by
  have hvia (e' : Expr) (hlt : e'.weight < (not e).weight)
      (hvalue : calcValue libc c e' = calcValue libc c (.not e)) :
      ∃ r, Returns (fun fuel => transform c.type fuel e') r ∧
        r.weight ≤ (not e).weight ∧ calcValue libc c r = calcValue libc c (.not e) := by
    obtain ⟨r, hr⟩ := again e' hlt
    exact ⟨r, hr.returns, Nat.le_trans hr.weight (Nat.le_of_lt hlt), hr.value.trans hvalue⟩
  cases e with
  | not e =>
    have hpos := e.weight_pos
    exact hvia e (by simp only [weight]; omega) (Tristate.not_not).symm
  | comp rel left right =>
    refine ⟨_, .of_some _, ?_, h.calcValue_negate rel left right⟩
    simp [weight]
  | or left right =>
    exact hvia (.and (.not left) (.not right)) (by simp only [weight]; omega)
      (Tristate.not_or).symm
  | and left right =>
    exact hvia (.or (.not left) (.not right)) (by simp only [weight]; omega)
      (Tristate.not_and).symm
  | symbol sym =>
    cases sym with
    | yes | mod | no => exact ⟨_, .of_some _, by simp [weight], rfl⟩
    | const | config => exact ⟨_, .of_some _, Nat.le_refl _, rfl⟩
  | list syms => exact ⟨_, .of_some _, Nat.le_refl _, rfl⟩

theorem Result.pair {left right l r : Expr} (hl : Result libc c left l)
    (hr : Result libc c right r) (f : Expr → Expr → Expr) :
    Returns (fun fuel => (transform c.type fuel left).bind fun l =>
      (transform c.type fuel right).bind fun r => some (f l r)) (f l r) :=
  @Returns.bind _ _ _ (fun l fuel => (transform c.type fuel right).bind fun r => some (f l r)) _ _
    hl.returns (@Returns.bind _ _ _ (fun r _ => some (f l r)) _ _ hr.returns (.of_some _))

variable (libc) in
theorem Config.Consistent.transform_result (h : c.Consistent) (e : Expr) :
    ∃ e', Result libc c e e' := by
  induction hn : e.weight using Nat.strongRecOn generalizing e with
  | _ n ih =>
    subst hn
    cases e with
    | symbol | list => exact ⟨_, .of_end fun _ => rfl, Nat.le_refl _, rfl⟩
    | comp rel left right =>
      exact ⟨_, .of_end fun _ => rfl, weight_transformComp c.type rel left right,
        h.calcValue_comp rel left right⟩
    | and left right | or left right =>
      obtain ⟨l, hl⟩ := ih left.weight (by simp only [weight]; omega) left rfl
      obtain ⟨r, hr⟩ := ih right.weight (by simp only [weight]; omega) right rfl
      refine ⟨_, (hl.pair hr _).of_pass fun _ => rfl, ?_, ?_⟩
      · exact Nat.succ_le_succ (Nat.add_le_add hl.weight hr.weight)
      · rw [calcValue, calcValue, hl.value, hr.value]
    | not e =>
      have hpos := e.weight_pos
      obtain ⟨l, hl⟩ := ih e.weight (by simp only [weight]; omega) e rfl
      have hle : (not l).weight ≤ (not e).weight := Nat.mul_le_mul_left 3 hl.weight
      obtain ⟨r, hr, hweight, hvalue⟩ := h.transformNot_result l fun e' he' =>
        ih e'.weight (Nat.lt_of_lt_of_le he' hle) e' rfl
      have hbind := @Returns.bind _ _ _ (fun l fuel => transformNot (transform c.type fuel) l) _ _
        hl.returns hr
      refine ⟨r, hbind.of_pass fun _ => rfl, Nat.le_trans hweight hle, hvalue.trans ?_⟩
      rw [calcValue, calcValue, hl.value]

/-- `expr_transform()` returns an expression with the value of its argument. -/
theorem expr_transform_preserves (libc : Libc) (h : c.Consistent) (e : Option Expr) :
    ∃ e', Returns (exprTransform c.type e) e' ∧
      exprCalcValue libc c e' = exprCalcValue libc c e := by
  cases e with
  | none => exact ⟨none, .of_some none, rfl⟩
  | some e =>
    obtain ⟨e', he'⟩ := h.transform_result libc e
    have hbind := @Returns.bind _ _ _ (fun e' _ => some (some e')) _ _ he'.returns (.of_some _)
    exact ⟨some e', hbind, he'.value⟩

/-- A configuration whose symbols are all boolean and `y`. -/
def allYes : Config := ⟨fun _ => .boolean, fun _ => .yes, fun _ => [], .no⟩

/-- No string is a number. -/
def noNumbers : Libc := ⟨fun _ _ => ⟨0, true, 0⟩, fun _ _ => ⟨0, true, 0⟩, fun _ => false⟩

theorem expr_transform_preserves_allYes : ∃ e',
    Returns (exprTransform allYes.type (some (.not (.comp .equal (.config 0) .yes)))) e' ∧
      exprCalcValue noNumbers allYes e' =
        exprCalcValue noNumbers allYes (some (.not (.comp .equal (.config 0) .yes))) :=
  expr_transform_preserves noNumbers ⟨by simp [allYes], by simp [allYes]⟩ _

end LinuxKernel.Kconfig
