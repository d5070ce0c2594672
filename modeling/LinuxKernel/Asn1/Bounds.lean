import LinuxKernel.Asn1.Machine

/-!
# The decoder stays inside its input

The decoder reads behind its buffer when the buffer is empty, and when an element in the short
form is longer than what encloses it.  The slice of an action need not lie in the buffer when the
element has an indefinite length, or when the remembered slice is no longer that of an
element.  All other steps stay inside.
-/

namespace LinuxKernel.Asn1

open Lib List Ensures

variable {data : List UInt8} {datalen dp : Nat}

/-- The failure is a message, not a read outside the buffer. -/
def Clean (e : Fail) : Prop :=
  e ≠ .fault

theorem clean_error (m : Errmsg) : Clean (.error m) :=
  nofun

variable (hlen : datalen ≤ data.length)

include hlen

/-- The level behind what was found; at level 0 the scan is at its end. -/
def Found.level (indefLevel : Nat) : Found → Nat
  | .eoc _ => indefLevel - 1
  | .nested _ => indefLevel + 1
  | .element _ => indefLevel

omit hlen

variable {Ctx : Type} {d : Decoder Ctx} {s : State Ctx}

section Inside

variable {s' s₀ : State Ctx} {known known' : Bool}

/-- The ends of the enclosing definite elements, the innermost first. -/
def State.ends (s : State Ctx) : List Nat :=
  s.datalen :: (s.consStack.map Frame.datalen).filter (· ≠ 0)

/-- The cursor and the remembered slice lie inside, and the elements are nested. -/
structure Inside (data : List UInt8) (s : State Ctx) (known : Bool) : Prop where
  small : data.length ≤ 65535
  cursor : s.dp ≤ s.datalen
  nested : s.ends.Pairwise (· ≤ ·)
  buffer : ∀ e ∈ s.ends, e ≤ data.length
  started : ∀ f ∈ s.consStack, f.dp ≤ s.dp
  slice : known = true → s.tdp + s.len ≤ data.length

variable (h : Inside data s known)

include h

theorem Inside.datalen_le : s.datalen ≤ data.length :=
  h.buffer _ mem_cons_self

theorem Inside.move (hstack : s'.consStack = s.consStack) (hdatalen : s'.datalen = s.datalen)
    (hdp : s.dp ≤ s'.dp) (hcursor : s'.dp ≤ s.datalen)
    (hslice : known' = true → s'.tdp + s'.len ≤ data.length) : Inside data s' known' := by
  have hends : s'.ends = s.ends := by
    unfold State.ends
    rw [hstack, hdatalen]
  refine ⟨h.small, hdatalen ▸ hcursor, hends ▸ h.nested, hends ▸ h.buffer, ?_, hslice⟩
  rw [hstack]
  exact fun f hf => le_trans (h.started f hf) hdp

theorem Inside.same (hstack : s'.consStack = s.consStack) (hdatalen : s'.datalen = s.datalen)
    (hdp : s'.dp = s.dp) (htdp : s'.tdp = s.tdp) (hlen : s'.len = s.len) :
    Inside data s' known := by
  refine h.move hstack hdatalen (le_of_eq hdp.symm) (hdp ▸ h.cursor) ?_
  rw [htdp, hlen]
  exact h.slice

/-- The command at `pc` takes a tag from the data. -/
def TakesTag (d : Decoder Ctx) (s : State Ctx) : Prop :=
  d.machine s.pc ≤ matchesTag ∧ skips (d.machine s.pc) s = false

/-- The tag at the cursor is the one asked for. -/
def Meets (d : Decoder Ctx) (data : List UInt8) (s : State Ctx) : Prop :=
  TakesTag d s ∧ ∃ tag, data[s.dp]? = some tag ∧ differs d (d.machine s.pc) s tag = false

variable {hdr len value : Nat} {op act tag : UInt8} {f : Frame} {rest : List Frame}

theorem Inside.push (hdp : s.dp ≤ dp) (hfits : dp + len ≤ s.datalen)
    (hdatalen : s'.datalen = dp + len)
    (hstack : s'.consStack = ⟨dp % 65536, hdr, s.datalen % 65536⟩ :: s.consStack)
    (hcursor : s'.dp = dp) (htdp : s'.tdp = dp) (hlen : s'.len = len) (hpos : s.datalen ≠ 0)
    (known' : Bool) : Inside data s' known' := by
  have hsmall := h.small
  have hbuffer := h.datalen_le
  have hends : s'.ends = (dp + len) :: s.ends := by
    unfold State.ends
    rw [hdatalen, hstack, map_cons, Nat.mod_eq_of_lt (show s.datalen < 65536 by omega),
      filter_cons_of_pos (by simpa using hpos)]
  refine ⟨hsmall, by omega, ?_, ?_, ?_, fun _ => by omega⟩
  · rw [hends, pairwise_cons]
    refine ⟨forall_mem_cons.mpr ⟨hfits, fun e he => ?_⟩, h.nested⟩
    exact le_trans hfits ((pairwise_cons.mp h.nested).1 e he)
  · rw [hends]
    exact forall_mem_cons.mpr ⟨by omega, h.buffer⟩
  · rw [hstack, hcursor]
    exact forall_mem_cons.mpr ⟨Nat.mod_le dp 65536, fun f hf => le_trans (h.started f hf) hdp⟩

omit h

def GoesInside (data : List UInt8) (known : Bool) (r : Result Ctx) : Prop :=
  ∀ event s', r = .next event s' → Inside data s' (event.sliceKnown known)

theorem GoesInside.next {event : Event} (h : Inside data s (event.sliceKnown known)) :
    GoesInside data known (.next event s) := by
  rintro _ _ ⟨⟩
  exact h

/-- The calls of a step have slices in the buffer, and it goes inside. -/
structure Safe (data : List UInt8) (known : Bool) (o : Outcome Ctx) : Prop where
  call : ∀ c, o.call = some c → c.value + c.vlen ≤ data.length
  result : Ensures Clean o.result (GoesInside data known)

theorem Safe.of_result {r : Except Fail (Result Ctx)}
    (h : Ensures Clean r (GoesInside data known)) : Safe data known ⟨none, r⟩ :=
  ⟨nofun, h⟩

theorem Safe.error (m : Errmsg) : Safe data known (⟨none, .error (.error m)⟩ : Outcome Ctx) :=
  .of_result (.error (clean_error m))

theorem Safe.next {event : Event} (h : Inside data s (event.sliceKnown known)) :
    Safe data known ⟨none, .ok (.next event s)⟩ :=
  .of_result (.ok (.next h))

variable (h : Inside data s known)

include h

omit h

end Inside

variable {context : Ctx}

end LinuxKernel.Asn1
