import LinuxKernel.Lib.Returns
import LinuxKernel.Str.Strtox
import Mathlib.Data.FinEnum

/-!
# Escaped strings

`string_escape_mem()` and `string_unescape()` of `lib/string_helpers.c`.  Each function that
escapes a byte stores its characters one after the other, as long as they fit.  Both
functions return the difference of two pointers as an `int`.
-/

namespace LinuxKernel.Str

open Lib List

/-- A `ptrdiff_t` that is returned as an `int`. -/
def toInt (n : Nat) : Int :=
  (n : Int).bmod (2 ^ 32)

/-- `isprint()`: the bytes with a mask of `_P|_U|_L|_D|_SP` in `_ctype`. -/
def isprint (c : UInt8) : Bool :=
  (32 ≤ c && c ≤ 126) || 160 ≤ c

/-- The cases of `escape_space()`. -/
def escapeSpace : List (UInt8 × UInt8) :=
  [(10, 110), (13, 114), (9, 116), (11, 118), (12, 102)]

/-- The cases of `escape_special()`. -/
def escapeSpecial : List (UInt8 × UInt8) :=
  [(92, 92), (7, 97), (27, 101)]

/-- The case of `escape_null()`. -/
def escapeNull : List (UInt8 × UInt8) :=
  [(0, 48)]

def escapeOctal (c : UInt8) : CStr :=
  [92, ((c >>> 6) &&& 7) + 48, ((c >>> 3) &&& 7) + 48, (c &&& 7) + 48]

def hexAsc (n : UInt8) : UInt8 :=
  if n < 10 then 48 + n else 87 + n

def escapeHex (c : UInt8) : CStr :=
  [92, 120, hexAsc (c >>> 4), hexAsc (c &&& 15)]

/-- The character behind the backslash when there are two characters. -/
def shortEscape (flags : Nat) (c : UInt8) : Option UInt8 :=
  lookup c ((if flags.testBit 0 then escapeSpace else []) ++
    (if flags.testBit 1 then escapeSpecial else []) ++ if flags.testBit 2 then escapeNull else [])

/-- The characters for one byte; `only` is empty if there is no such string. -/
def escapeByte (flags : Nat) (only : CStr) (c : UInt8) : CStr :=
  if (flags.testBit 4 ∧ isprint c) ∨ (only ≠ [] ∧ c ≠ 0 ∧ c ∉ only) then [c]
  else
    match shortEscape flags c with
    | some short => [92, short]
    | none =>
      if flags.testBit 3 then escapeOctal c else if flags.testBit 5 then escapeHex c else [c]

/-- The destination: how far `p` is, and the bytes stored. -/
structure Dst where
  p : Nat
  stored : CStr

/-- `if (out < end) *out = c; ++out;`. -/
def Dst.put (osz : Nat) (d : Dst) (c : UInt8) : Dst :=
  ⟨d.p + 1, if d.p < osz then d.stored ++ [c] else d.stored⟩

def stringEscapeMem (src : CStr) (osz flags : Nat) (only : CStr) : Int × CStr :=
  let d := src.foldl (fun d c => (escapeByte flags only c).foldl (Dst.put osz) d) ⟨0, []⟩
  (toInt d.p, d.stored)

def isodigit (c : UInt8) : Bool :=
  48 ≤ c && c ≤ 55

/-- The loop of `unescape_octal()`; the first argument counts the digits left. -/
def octalLoop : Nat → UInt8 → CStr → UInt8 × CStr
  | 0, num, q => (num, q)
  | n + 1, num, q =>
    if num < 32 ∧ isodigit (head q) then octalLoop n ((num <<< 3) + (head q &&& 7)) q.tail
    else (num, q)

def unescapeOctal (src : CStr) : Option (UInt8 × CStr) :=
  if isodigit (head src) then some (octalLoop 2 (head src &&& 7) src.tail) else none

def hexToBin (c : UInt8) : Option UInt8 :=
  if 48 ≤ c ∧ c ≤ 57 then some (c - 48)
  else if 97 ≤ tolower c ∧ tolower c ≤ 102 then some (tolower c - 97 + 10)
  else none

def unescapeHex (src : CStr) : Option (UInt8 × CStr) :=
  if head src ≠ 120 then none
  else
    (hexToBin (head (src.drop 1))).map fun num : UInt8 =>
      match hexToBin (head (src.drop 2)) with
      | some digit => ((num <<< 4) ||| digit, src.drop 3)
      | none => (num, src.drop 2)

/-- The cases of `unescape_space()`. -/
def unescapeSpace : List (UInt8 × UInt8) :=
  [(110, 10), (114, 13), (116, 9), (118, 11), (102, 12)]

/-- The cases of `unescape_special()`. -/
def unescapeSpecial : List (UInt8 × UInt8) :=
  [(34, 34), (92, 92), (97, 7), (101, 27)]

/-- Behind a backslash: the byte, and the rest of the string. -/
def unescapeAny (flags : Nat) (src : CStr) : Option (UInt8 × CStr) :=
  let table (cases : List (UInt8 × UInt8)) := (cases.lookup (head src)).map (·, src.tail)
  (if flags.testBit 0 then table unescapeSpace else none) <|>
    (if flags.testBit 1 then unescapeOctal src else none) <|>
    (if flags.testBit 2 then unescapeHex src else none) <|>
    if flags.testBit 3 then table unescapeSpecial else none

/-- The loop of `string_unescape()`: the bytes before the `NUL`. -/
def unescapeLoop (flags : Nat) : Nat → Nat → CStr → Option CStr
  | 0, _, _ => none
  | fuel + 1, size, src =>
    if head src = 0 then some []
    else
      let size := (size + (2 ^ 64 - 1)) % 2 ^ 64
      if size = 0 then some []
      else if head src = 92 ∧ head src.tail ≠ 0 ∧ 1 < size then
        match unescapeAny flags src.tail with
        | some (c, src) => (unescapeLoop flags fuel (size - 1) src).map (c :: ·)
        | none =>
          (unescapeLoop flags fuel (size - 1) (src.drop 2)).map (92 :: head src.tail :: ·)
      else (unescapeLoop flags fuel size src.tail).map (head src :: ·)

def stringUnescape (src : CStr) (size flags fuel : Nat) : Option (Int × CStr) :=
  (unescapeLoop flags fuel size src).map fun out => (toInt out.length, out)

/-- The whole output. -/
def escaped (flags : Nat) (src : CStr) : CStr :=
  src.flatMap (escapeByte flags [])

/-- The characters for a byte: two in the classes with letters. -/
def escapeCost (flags : Nat) (c : UInt8) : Nat :=
  if (flags.testBit 0 ∧ c ∈ [9, 10, 11, 12, 13]) ∨ (flags.testBit 1 ∧ c ∈ [7, 27, 92]) ∨
      (flags.testBit 2 ∧ c = 0) then 2 else 4

variable {flags osz fuel size : Nat} {src : CStr} {c : UInt8}

theorem foldl_put (out : CStr) (d : Dst) :
    out.foldl (Dst.put osz) d = ⟨d.p + out.length, d.stored ++ out.take (osz - d.p)⟩ := by
  induction out generalizing d with
  | nil => simp
  | cons c out ih =>
    rw [foldl_cons, ih, Dst.put, length_cons, Nat.sub_add_eq]
    dsimp only
    split
    · next hlt =>
      obtain ⟨n, hn⟩ := Nat.exists_eq_add_one_of_ne_zero (Nat.sub_ne_zero_of_lt hlt)
      simp [hn, Nat.add_comm, Nat.add_left_comm]
    · next hge =>
      simp [Nat.sub_eq_zero_of_le (Nat.le_of_not_lt hge), Nat.add_comm, Nat.add_left_comm]

theorem stringEscapeMem_eq : stringEscapeMem src osz flags [] =
      (toInt (escaped flags src).length, (escaped flags src).take osz) := by
  rw [stringEscapeMem, ← foldl_flatMap, ← escaped, foldl_put]
  simp

section Unescape

/-- Behind a backslash it is read as the byte, if no octal digit follows. -/
def ReadAs (t c : UInt8) : Prop :=
  t ≠ 0 ∧ (unescapeSpace.lookup t = some c ∨ unescapeSpace.lookup t = none ∧
    (t = 48 ∧ c = 0 ∨ isodigit t = false ∧ t ≠ 120 ∧ unescapeSpecial.lookup t = some c))

instance (t c : UInt8) : Decidable (ReadAs t c) :=
  inferInstanceAs (Decidable (_ ∧ _))

theorem short_cases (a b n : Bool) (c : UInt8) :
    let cases := (if a then escapeSpace else []) ++ (if b then escapeSpecial else []) ++
      if n then escapeNull else []
    ((cases.lookup c).isSome = true ↔
      (a ∧ c ∈ [9, 10, 11, 12, 13]) ∨ (b ∧ c ∈ [7, 27, 92]) ∨ (n ∧ c = 0)) ∧
      (cases.lookup c).all (fun t => decide (ReadAs t c)) = true := by
  revert a b n c
  decide +kernel

theorem octal_digits (c : UInt8) :
    let a := ((c >>> 6) &&& 7) + 48
    let b := ((c >>> 3) &&& 7) + 48
    let d := (c &&& 7) + 48
    (a ≠ 0 ∧ unescapeSpace.lookup a = none ∧ isodigit a ∧ isodigit b ∧ isodigit d) ∧ a &&& 7 < 32 ∧
      ((a &&& 7) <<< 3) + (b &&& 7) < 32 ∧
      ((((a &&& 7) <<< 3) + (b &&& 7)) <<< 3) + (d &&& 7) = c := by
  revert c
  decide +kernel

theorem hex_digits (c : UInt8) :
    hexToBin (hexAsc (c >>> 4)) = some (c >>> 4) ∧ hexToBin (hexAsc (c &&& 15)) = some (c &&& 15) ∧
      ((c >>> 4) <<< 4) ||| (c &&& 15) = c := by
  revert c
  decide +kernel

variable {t : UInt8} {rest : CStr}

theorem head_cons (s : CStr) : head (c :: s) = c := rfl

theorem unescapeAny_all :
    unescapeAny 15 src = ((unescapeSpace.lookup (head src)).map (·, src.tail) <|>
      unescapeOctal src <|> unescapeHex src <|>
        (unescapeSpecial.lookup (head src)).map (·, src.tail)) :=
  rfl

theorem unescapeAny_short (h : ReadAs t c) (hrest : isodigit (head rest) = false) :
    unescapeAny 15 (t :: rest) = some (c, rest) := by
  rw [unescapeAny_all]
  obtain ⟨-, hspace | ⟨hspace, ⟨rfl, rfl⟩ | ⟨hodigit, hx, hspecial⟩⟩⟩ := h
  · simp [head_cons, hspace]
  · have hzero : isodigit 48 = true ∧ (48 : UInt8) &&& 7 = 0 := by decide
    simp [unescapeOctal, octalLoop, head_cons, hspace, hzero, hrest]
  · simp [unescapeOctal, unescapeHex, head_cons, hspace, hodigit, hx, hspecial]

theorem unescapeAny_octal (c : UInt8) (rest : CStr) :
    unescapeAny 15 ((escapeOctal c).tail ++ rest) = some (c, rest) := by
  obtain ⟨⟨-, hspace, ha, hb, hd⟩, hone, htwo, hvalue⟩ := octal_digits c
  rw [unescapeAny_all]
  simp [unescapeOctal, octalLoop, escapeOctal, head_cons, *]

theorem unescapeAny_hex (c : UInt8) (rest : CStr) :
    unescapeAny 15 ((escapeHex c).tail ++ rest) = some (c, rest) := by
  obtain ⟨hhi, hlo, hvalue⟩ := hex_digits c
  have hspace : unescapeSpace.lookup 120 = none := rfl
  have hodigit : isodigit 120 = false := rfl
  rw [unescapeAny_all]
  simp [unescapeOctal, unescapeHex, escapeHex, head_cons, *]

variable (hnp : flags.testBit 4 = false) (hany : flags.testBit 3 = true ∨ flags.testBit 5 = true)

include hnp hany

/-- A byte is escaped by a backslash and more, which is read back. -/
theorem escapeByte_spec (c : UInt8) :
    ∃ t e, escapeByte flags [] c = 92 :: t :: e ∧ t ≠ 0 ∧ e.length + 2 = escapeCost flags c ∧
      ∀ rest, isodigit (head rest) = false →
        unescapeAny 15 (t :: (e ++ rest)) = some (c, rest) := by
  obtain ⟨hsome, hread⟩ := short_cases (flags.testBit 0) (flags.testBit 1) (flags.testBit 2) c
  rw [escapeByte, if_neg (by simp [hnp]), escapeCost]
  simp only [← hsome]
  rw [← shortEscape] at hread ⊢
  cases hshort : shortEscape flags c with
  | some t =>
    rw [hshort, Option.all_some, decide_eq_true_iff] at hread
    exact ⟨t, [], rfl, hread.1, rfl, fun rest => unescapeAny_short hread⟩
  | none =>
    cases hoct : flags.testBit 3 with
    | true => exact ⟨_, _, rfl, (octal_digits c).1.1, rfl, fun rest _ => unescapeAny_octal c rest⟩
    | false =>
      rw [hoct] at hany
      rw [hany.resolve_left Bool.false_ne_true]
      exact ⟨_, _, rfl, by decide, rfl, fun rest _ => unescapeAny_hex c rest⟩

/-- The loop, with room for the whole string in `size`. -/
theorem unescapeLoop_escaped (hfuel : src.length < fuel)
    (hsize : 2 * src.length < (size + (2 ^ 64 - 1)) % 2 ^ 64) :
    unescapeLoop 15 fuel size (escaped flags src) = some src := by
  induction src generalizing fuel size with
  | nil =>
    obtain ⟨fuel, rfl⟩ := Nat.exists_eq_add_one_of_ne_zero (Nat.ne_zero_of_lt hfuel)
    rfl
  | cons c src ih =>
    obtain ⟨fuel, rfl⟩ := Nat.exists_eq_add_one_of_ne_zero (Nat.ne_zero_of_lt hfuel)
    obtain ⟨t, e, heq, ht, -, hread⟩ := escapeByte_spec hnp hany c
    have hrest : isodigit (head (escaped flags src)) = false := by
      cases src with
      | nil => rfl
      | cons d src =>
        obtain ⟨t, e, heq, -⟩ := escapeByte_spec hnp hany d
        rw [escaped, flatMap_cons, heq]
        rfl
    rw [length_cons] at hfuel hsize
    rw [escaped, flatMap_cons, heq, ← escaped, cons_append, cons_append, unescapeLoop]
    simp only [head_cons, tail_cons, hread _ hrest]
    rw [if_neg (by decide), if_neg (by omega), if_pos ⟨trivial, ht, by omega⟩,
      ih (by omega) (by omega)]
    rfl

theorem length_escaped (src : CStr) :
    (escaped flags src).length = (src.map (escapeCost flags)).sum := by
  rw [escaped, length_flatMap]
  congr 2
  funext c
  obtain ⟨t, e, heq, -, hcost, -⟩ := escapeByte_spec hnp hany c
  rw [heq, ← hcost]
  rfl

end Unescape

theorem two_mul_length_le (src : CStr) : 2 * src.length ≤ (src.map (escapeCost flags)).sum := by
  induction src with
  | nil => exact le_rfl
  | cons c src ih =>
    have hcost : 2 ≤ escapeCost flags c := by
      unfold escapeCost
      split <;> decide
    rw [length_cons, map_cons, sum_cons]
    omega

theorem toInt_eq_iff (n : Nat) : toInt n = n ↔ n < 2 ^ 31 := by
  unfold toInt
  constructor
  · intro h
    have := @Int.bmod_lt n (2 ^ 32) (by decide)
    omega
  · exact fun h => Int.bmod_eq_of_le (by omega) (by omega)

/-- Escaping all bytes and unescaping gives them back, and any size of the buffer cuts the same
output, exactly when the lengths are values of an `int`. -/
theorem unescape_escape_iff (flags : Nat) (src : CStr) (hnp : flags.testBit 4 = false)
    (hany : flags.testBit 3 = true ∨ flags.testBit 5 = true) :
    (Returns (stringUnescape (escaped flags src) 0 15) (src.length, src) ∧
      ∀ osz, stringEscapeMem src osz flags [] =
        (((escaped flags src).length : Int), (escaped flags src).take osz)) ↔
      (src.map (escapeCost flags)).sum < 2 ^ 31 := by
  rw [← length_escaped hnp hany]
  constructor
  · rintro ⟨-, hmem⟩
    have hret := hmem 0
    rw [stringEscapeMem_eq, Prod.mk.injEq] at hret
    exact (toInt_eq_iff _).mp hret.1
  · intro hlt
    have htwo := @two_mul_length_le flags src
    rw [← length_escaped hnp hany] at htwo
    refine ⟨⟨src.length + 1, fun fuel hfuel => ?_⟩, fun osz => ?_⟩
    · have hloop : unescapeLoop 15 fuel 0 (escaped flags src) = some src :=
        unescapeLoop_escaped hnp hany hfuel (by omega)
      rw [stringUnescape, hloop, Option.map_some, (toInt_eq_iff _).mpr (by omega)]
    · rw [stringEscapeMem_eq, (toInt_eq_iff _).mpr hlt]

theorem unescape_escape_iff_newline :
    Returns (stringUnescape (escaped 9 [10, 65, 0]) 0 15) (3, [10, 65, 0]) ∧
      ∀ osz, stringEscapeMem [10, 65, 0] osz 9 [] =
        (((escaped 9 [10, 65, 0]).length : Int), (escaped 9 [10, 65, 0]).take osz) :=
  (unescape_escape_iff 9 [10, 65, 0] rfl (.inl rfl)).mpr (by decide)

/-- Enough bytes for the length to be no `int`. -/
theorem stringEscapeMem_negative : (stringEscapeMem (replicate (2 ^ 29) 1) 0 8 []).1 = -2 ^ 31 := by
  have hcost : (map (escapeCost 8) (replicate (2 ^ 29) 1)).sum = 2 ^ 31 := by
    rw [map_replicate, sum_replicate]
    rfl
  rw [stringEscapeMem_eq, length_escaped rfl (.inl rfl), hcost]
  rfl

end LinuxKernel.Str
