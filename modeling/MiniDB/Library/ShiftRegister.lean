import Mathlib.Data.List.Basic
import Mathlib.Logic.Function.Iterate
import Mathlib.Tactic.Ring

/-!
# Linear feedback shift registers

A register that is shifted towards its low end and takes up a polynomial whenever a one
falls out. Shifting is linear, and injective when the polynomial has its highest bit, so
that feeding symbols into two registers keeps track of the difference of what was fed.
A difference no wider than the register is never lost, however much follows it.
-/

namespace ShiftRegister

variable {w : ℕ} (poly : BitVec w)

/-- What the bit that falls out of the register takes up. -/
def feedback (r : BitVec w) : BitVec w := if r.getLsbD 0 then poly else 0#w

/-- The register shifted by one bit. -/
def shift (r : BitVec w) : BitVec w := feedback poly r ^^^ (r >>> 1)

/-- Feedback is linear. -/
theorem feedback_xor (a b : BitVec w) :
    feedback poly (a ^^^ b) = feedback poly a ^^^ feedback poly b := by
  unfold feedback
  rw [BitVec.getLsbD_xor]
  cases a.getLsbD 0 <;> cases b.getLsbD 0 <;> simp

/-- Shifting is linear. -/
theorem shift_xor (a b : BitVec w) : shift poly (a ^^^ b) = shift poly a ^^^ shift poly b := by
  unfold shift
  rw [feedback_xor, BitVec.ushiftRight_xor_distrib]
  ac_rfl

/-- Shifting any number of bits is linear. -/
theorem iterate_shift_xor (n : ℕ) (a b : BitVec w) :
    (shift poly)^[n] (a ^^^ b) = (shift poly)^[n] a ^^^ (shift poly)^[n] b := by
  induction n generalizing a b with
  | zero => rfl
  | succ n ih =>
    rw [Function.iterate_succ_apply, Function.iterate_succ_apply, Function.iterate_succ_apply,
      shift_xor, ih]

/-- The empty register stays empty. -/
@[simp] theorem shift_zero : shift poly 0#w = 0#w := by
  simp [shift, feedback]

/-- The empty register stays empty for any number of bits. -/
@[simp] theorem iterate_shift_zero (n : ℕ) : (shift poly)^[n] 0#w = 0#w :=
  Function.iterate_fixed (shift_zero poly) n

/-- A register without a one to fall out is only moved. -/
theorem shift_of_mul_two {r s : BitVec w} (h : s.toNat = 2 * r.toNat) : shift poly s = r := by
  have hlow : s.getLsbD 0 = false := by
    rw [BitVec.getLsbD, h, Nat.testBit_zero]
    simp
  rw [shift, feedback, hlow, if_neg Bool.false_ne_true, BitVec.zero_xor]
  apply BitVec.eq_of_toNat_eq
  rw [BitVec.toNat_ushiftRight, h, Nat.shiftRight_eq_div_pow, pow_one,
    Nat.mul_div_cancel_left _ (by omega)]

/-- A register without ones among its `n` lowest bits is only moved by `n` bits. -/
theorem iterate_shift_of_mul {n : ℕ} {r s : BitVec w} (h : s.toNat = 2 ^ n * r.toNat) :
    (shift poly)^[n] s = r := by
  induction n generalizing s with
  | zero =>
    rw [pow_zero, Nat.one_mul] at h
    exact BitVec.eq_of_toNat_eq h
  | succ n ih =>
    have hbound := s.isLt
    have hhalf : 2 ^ (n + 1) * r.toNat = 2 * (2 ^ n * r.toNat) := by
      rw [pow_succ, Nat.mul_comm (2 ^ n) 2, Nat.mul_assoc]
    rw [hhalf] at h
    let half : BitVec w := BitVec.ofNat w (2 ^ n * r.toNat)
    have hvalue : half.toNat = 2 ^ n * r.toNat := by
      rw [BitVec.toNat_ofNat, Nat.mod_eq_of_lt (by omega)]
    rw [Function.iterate_succ_apply, shift_of_mul_two poly (h.trans (by rw [hvalue]))]
    exact ih hvalue

/-- The `n` lowest bits of a register and what is above them are shifted separately. -/
theorem iterate_shift_eq_low (n : ℕ) (r : BitVec w) :
    (shift poly)^[n] r =
      (shift poly)^[n] (BitVec.ofNat w (r.toNat % 2 ^ n)) ^^^ (r >>> n) := by
  have hsplit : r = BitVec.ofNat w (r.toNat % 2 ^ n) ^^^ (r >>> n <<< n) := by
    apply BitVec.eq_of_getLsbD_eq
    intro i hi
    rw [BitVec.getLsbD_xor, BitVec.getLsbD_ofNat, BitVec.getLsbD_shiftLeft,
      BitVec.getLsbD_ushiftRight, Nat.testBit_mod_two_pow]
    by_cases hlow : i < n
    · simp [hi, hlow, BitVec.getLsbD]
    · simp [hi, hlow, Nat.add_sub_cancel' (Nat.not_lt.mp hlow)]
  have hmoved : (r >>> n <<< n).toNat = 2 ^ n * (r >>> n).toNat := by
    have hle := Nat.mul_div_le r.toNat (2 ^ n)
    have hr := r.isLt
    rw [BitVec.toNat_shiftLeft, BitVec.toNat_ushiftRight, Nat.shiftLeft_eq,
      Nat.shiftRight_eq_div_pow, Nat.mul_comm, Nat.mod_eq_of_lt (by omega)]
  conv_lhs => rw [hsplit, iterate_shift_xor, iterate_shift_of_mul poly hmoved]

/-- With the highest bit in the polynomial, only the empty register is shifted to the
empty one: a bit that falls out is seen again at the other end. -/
theorem eq_zero_of_shift_eq_zero (hpoly : poly.msb = true) {r : BitVec w}
    (h : shift poly r = 0#w) : r = 0#w := by
  have hw : 0 < w := by
    by_contra hw
    obtain rfl : w = 0 := by omega
    rw [BitVec.msb, BitVec.getMsbD] at hpoly
    simp at hpoly
  have hlow : r.getLsbD 0 = false := by
    by_contra hlow
    rw [Bool.not_eq_false] at hlow
    rw [shift, feedback, if_pos hlow] at h
    have hmsb := congrArg BitVec.msb h
    rw [BitVec.msb_xor, hpoly, BitVec.msb_ushiftRight] at hmsb
    simp at hmsb
  rw [shift, feedback, hlow, if_neg Bool.false_ne_true, BitVec.zero_xor] at h
  have hhalf := congrArg BitVec.toNat h
  rw [BitVec.toNat_ushiftRight, Nat.shiftRight_eq_div_pow, pow_one] at hhalf
  rw [BitVec.getLsbD, Nat.testBit_zero] at hlow
  apply BitVec.eq_of_toNat_eq
  simp at hhalf hlow ⊢
  omega

/-- With the highest bit in the polynomial, no number of shifts empties a register. -/
theorem eq_zero_of_iterate_shift_eq_zero (hpoly : poly.msb = true) {n : ℕ} {r : BitVec w}
    (h : (shift poly)^[n] r = 0#w) : r = 0#w := by
  induction n generalizing r with
  | zero => exact h
  | succ n ih =>
    rw [Function.iterate_succ_apply] at h
    exact eq_zero_of_shift_eq_zero poly hpoly (ih h)

section Serial

/-- The register after one bit of a message has gone through it. -/
def serialShift (r : BitVec w) (bit : Bool) : BitVec w :=
  if r.getLsbD 0 ^^ bit then (r >>> 1) ^^^ poly else r >>> 1

/-- A bit on its own moves the register as the lowest bit of a symbol in it does. -/
theorem serialShift_xor (r symbol : BitVec w) :
    serialShift poly r (symbol.getLsbD 0) ^^^ (symbol >>> 1) = shift poly (r ^^^ symbol) := by
  rw [serialShift, shift, feedback, BitVec.getLsbD_xor, BitVec.ushiftRight_xor_distrib]
  cases r.getLsbD 0 ^^ symbol.getLsbD 0
  · simp
  · rw [if_pos rfl, if_pos rfl]
    ac_rfl

/-- The bits of a symbol one after another, the lowest first, move the register as the
whole symbol in it does. -/
theorem foldl_serialShift {count : ℕ} (r : BitVec w) {symbol : BitVec w}
    (h : symbol.toNat < 2 ^ count) :
    ((List.range count).map symbol.getLsbD).foldl (serialShift poly) r =
      (shift poly)^[count] (r ^^^ symbol) := by
  induction count generalizing r symbol with
  | zero =>
    have hsymbol : symbol = 0#w := by
      apply BitVec.eq_of_toNat_eq
      rw [BitVec.toNat_ofNat, Nat.zero_mod]
      omega
    rw [hsymbol]
    exact (BitVec.xor_zero).symm
  | succ count ih =>
    have hrest : (symbol >>> 1).toNat < 2 ^ count := by
      rw [BitVec.toNat_ushiftRight, Nat.shiftRight_eq_div_pow]
      rw [pow_succ] at h
      omega
    have hbits : symbol.getLsbD ∘ Nat.succ = (symbol >>> 1).getLsbD := by
      funext i
      rw [BitVec.getLsbD_ushiftRight, Nat.add_comm]
      rfl
    rw [List.range_succ_eq_map, List.map_cons, List.map_map, List.foldl_cons, hbits, ih _ hrest,
      serialShift_xor, Function.iterate_succ_apply]

end Serial

section Feeding

variable (width : ℕ)

/-- The register after symbols of a given width have been fed into it. -/
def feed (r : BitVec w) (symbols : List (BitVec w)) : BitVec w :=
  symbols.foldl (fun r symbol => (shift poly)^[width] (r ^^^ symbol)) r

@[simp] theorem feed_nil (r : BitVec w) : feed poly width r [] = r := rfl

@[simp] theorem feed_cons (r symbol : BitVec w) (symbols : List (BitVec w)) :
    feed poly width r (symbol :: symbols) =
      feed poly width ((shift poly)^[width] (r ^^^ symbol)) symbols := rfl

/-- Symbols are fed one after another. -/
theorem feed_append (r : BitVec w) (left right : List (BitVec w)) :
    feed poly width r (left ++ right) = feed poly width (feed poly width r left) right :=
  List.foldl_append

/-- The difference of two registers is the register of the differences. -/
theorem feed_xor (a b : BitVec w) {left right : List (BitVec w)}
    (h : left.length = right.length) :
    feed poly width a left ^^^ feed poly width b right =
      feed poly width (a ^^^ b) (List.zipWith (· ^^^ ·) left right) := by
  induction left generalizing a b right with
  | nil =>
    obtain rfl := List.eq_nil_of_length_eq_zero h.symm
    rfl
  | cons symbol left ih =>
    cases right with
    | nil => cases h
    | cons other right =>
      have hstep : (shift poly)^[width] (a ^^^ symbol) ^^^ (shift poly)^[width] (b ^^^ other) =
          (shift poly)^[width] ((a ^^^ b) ^^^ (symbol ^^^ other)) := by
        rw [← iterate_shift_xor]
        congr 1
        ac_rfl
      rw [List.zipWith_cons_cons, feed_cons, feed_cons, feed_cons, ← hstep]
      exact ih _ _ (Nat.succ.inj h)

/-- Feeding nothing but zeros only shifts. -/
theorem feed_zeros (r : BitVec w) (count : ℕ) :
    feed poly width r (List.replicate count 0#w) = (shift poly)^[width * count] r := by
  induction count generalizing r with
  | zero => rfl
  | succ count ih =>
    rw [List.replicate_succ, feed_cons, BitVec.xor_zero, ih, ← Function.iterate_add_apply,
      Nat.mul_succ]

/-- The symbols side by side in one register, the first lowest. -/
def word : List (BitVec w) → BitVec w
  | [] => 0#w
  | symbol :: symbols => symbol ^^^ (word symbols <<< width)

variable {width} {symbols : List (BitVec w)}

/-- The symbols behind the first are moved up without a loss. -/
theorem toNat_shiftLeft_of_lt {r : BitVec w} {count : ℕ} (h : r.toNat < 2 ^ (width * count))
    (hroom : width * (count + 1) ≤ w) : (r <<< width).toNat = 2 ^ width * r.toNat := by
  have hpow : 2 ^ width * 2 ^ (width * count) = 2 ^ (width * (count + 1)) := by
    rw [← pow_add, Nat.mul_succ, Nat.add_comm]
  have hle : 2 ^ (width * (count + 1)) ≤ 2 ^ w := Nat.pow_le_pow_right (by omega) hroom
  have hlt := Nat.mul_lt_mul_of_pos_left h (Nat.two_pow_pos width)
  rw [BitVec.toNat_shiftLeft, Nat.shiftLeft_eq, Nat.mul_comm, Nat.mod_eq_of_lt (by omega)]

/-- What holds of symbols that fit side by side holds of all but the first. -/
theorem tail_fits {symbol : BitVec w}
    (hsymbols : ∀ other ∈ symbol :: symbols, other.toNat < 2 ^ width)
    (hroom : width * (symbol :: symbols).length ≤ w) :
    (∀ other ∈ symbols, other.toNat < 2 ^ width) ∧ width * symbols.length ≤ w := by
  rw [List.forall_mem_cons] at hsymbols
  rw [List.length_cons, Nat.mul_succ] at hroom
  exact ⟨hsymbols.2, by omega⟩

/-- Symbols of their width stand side by side in a register with room for all. -/
theorem word_lt (hsymbols : ∀ symbol ∈ symbols, symbol.toNat < 2 ^ width)
    (hroom : width * symbols.length ≤ w) :
    (word width symbols).toNat < 2 ^ (width * symbols.length) := by
  induction symbols with
  | nil => simp [word]
  | cons symbol symbols ih =>
    have hsymbol := hsymbols symbol List.mem_cons_self
    obtain ⟨hrest, hshorter⟩ := tail_fits hsymbols hroom
    have hword := ih hrest hshorter
    have hmoved := toNat_shiftLeft_of_lt hword hroom
    rw [word, BitVec.toNat_xor, List.length_cons, Nat.mul_succ]
    apply Nat.xor_lt_two_pow
    · exact Nat.lt_of_lt_of_le hsymbol (Nat.pow_le_pow_right (by omega) (by omega))
    · rw [hmoved, pow_add, Nat.mul_comm]
      exact Nat.mul_lt_mul_of_pos_right hword (Nat.two_pow_pos width)

/-- Side by side, symbols are the digits of a number. -/
theorem toNat_word_cons {symbol : BitVec w}
    (hsymbols : ∀ other ∈ symbol :: symbols, other.toNat < 2 ^ width)
    (hroom : width * (symbol :: symbols).length ≤ w) :
    (word width (symbol :: symbols)).toNat =
      2 ^ width * (word width symbols).toNat + symbol.toNat := by
  have hsymbol := hsymbols symbol List.mem_cons_self
  obtain ⟨hrest, hshorter⟩ := tail_fits hsymbols hroom
  have hword := word_lt hrest hshorter
  rw [word, BitVec.toNat_xor, toNat_shiftLeft_of_lt hword hroom]
  apply Nat.eq_of_testBit_eq
  intro i
  rw [Nat.testBit_xor, Nat.testBit_two_pow_mul, Nat.testBit_two_pow_mul_add _ hsymbol]
  by_cases hlow : i < width
  · simp [hlow, Nat.not_le.mpr hlow]
  · have hnone : symbol.toNat.testBit i = false :=
      Nat.testBit_lt_two_pow (Nat.lt_of_lt_of_le hsymbol
        (Nat.pow_le_pow_right (by omega) (Nat.not_lt.mp hlow)))
    simp [hlow, hnone, Nat.not_lt.mp hlow]

/-- Symbols that fit side by side into the register may be fed all at once. -/
theorem feed_eq_word (hsymbols : ∀ symbol ∈ symbols, symbol.toNat < 2 ^ width)
    (hroom : width * symbols.length ≤ w) (r : BitVec w) :
    feed poly width r symbols =
      (shift poly)^[width * symbols.length] (r ^^^ word width symbols) := by
  induction symbols generalizing r with
  | nil => simp [word]
  | cons symbol symbols ih =>
    obtain ⟨hrest, hshorter⟩ := tail_fits hsymbols hroom
    have hmove := iterate_shift_of_mul poly
      (toNat_shiftLeft_of_lt (word_lt hrest hshorter) hroom)
    rw [feed_cons, ih hrest hshorter, List.length_cons, Nat.mul_succ, Function.iterate_add_apply,
      word]
    conv_lhs => rw [← hmove, ← iterate_shift_xor]
    rw [BitVec.xor_assoc]

/-- Side by side, symbols are empty only if each is. -/
theorem eq_zero_of_word_eq_zero (hsymbols : ∀ symbol ∈ symbols, symbol.toNat < 2 ^ width)
    (hroom : width * symbols.length ≤ w) (h : word width symbols = 0#w) :
    ∀ symbol ∈ symbols, symbol = 0#w := by
  induction symbols with
  | nil => exact fun symbol hsymbol => absurd hsymbol List.not_mem_nil
  | cons symbol symbols ih =>
    obtain ⟨hrest, hshorter⟩ := tail_fits hsymbols hroom
    have hdigits := toNat_word_cons hsymbols hroom
    rw [h, BitVec.toNat_ofNat, Nat.zero_mod, eq_comm, Nat.add_eq_zero_iff,
      Nat.mul_eq_zero] at hdigits
    have hword : word width symbols = 0#w := by
      apply BitVec.eq_of_toNat_eq
      rw [BitVec.toNat_ofNat, Nat.zero_mod]
      exact hdigits.1.resolve_left (Nat.two_pow_pos width).ne'
    intro other hother
    rcases List.mem_cons.mp hother with rfl | hother
    · exact BitVec.eq_of_toNat_eq (hdigits.2.trans (by rw [BitVec.toNat_ofNat, Nat.zero_mod]))
    · exact ih hrest hshorter hword other hother

/-- A burst of symbols no wider than the register, with nothing but zeros before and
behind it, leaves an empty register only if it is empty itself. -/
theorem eq_zero_of_feed_burst (hpoly : poly.msb = true)
    (hsymbols : ∀ symbol ∈ symbols, symbol.toNat < 2 ^ width)
    (hroom : width * symbols.length ≤ w) (before behind : ℕ)
    (h : feed poly width 0#w
      (List.replicate before 0#w ++ symbols ++ List.replicate behind 0#w) = 0#w) :
    ∀ symbol ∈ symbols, symbol = 0#w := by
  rw [feed_append, feed_append, feed_zeros] at h
  have hburst := eq_zero_of_iterate_shift_eq_zero poly hpoly h
  rw [feed_zeros, iterate_shift_zero, feed_eq_word poly hsymbols hroom,
    BitVec.zero_xor] at hburst
  exact eq_zero_of_word_eq_zero hsymbols hroom
    (eq_zero_of_iterate_shift_eq_zero poly hpoly hburst)

end Feeding

end ShiftRegister
