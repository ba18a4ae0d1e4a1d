import Danmaku.Binary32.Arithmetic

/-!
# The interchange format and the functions of the circle

Thirty-two bits: a sign, eight bits of exponent and twenty-three of fraction. Every number is
read back from its bits, as `ofBits_toBits` says. Sine, cosine and arctangent go through the
double-precision functions of the host and are rounded back.
-/

namespace Danmaku.Binary32

/-- The magnitude that an exponent field and a fraction field stand for, in units. -/
def unitsOfFields (exponent fraction : Nat) : Nat :=
  if exponent = 0 then fraction else (2 ^ 23 + fraction) * 2 ^ (exponent - 1)

theorem unitsOfFields_onGrid {exponent fraction : Nat} (he : exponent < 255)
    (hf : fraction < 2 ^ 23) : OnGrid (unitsOfFields exponent fraction) := by
  unfold unitsOfFields
  split
  · have dvd := @spacing_dvd_mul fraction 0 (by omega)
    rw [Nat.pow_zero, Nat.mul_one] at dvd
    exact ⟨Nat.lt_of_lt_of_le hf (by decide), dvd⟩
  · refine ⟨?_, spacing_dvd_mul (by omega)⟩
    calc (2 ^ 23 + fraction) * 2 ^ (exponent - 1)
        < 2 ^ 24 * 2 ^ (exponent - 1) := Nat.mul_lt_mul_of_pos_right (by omega) (Nat.two_pow_pos _)
      _ ≤ 2 ^ 24 * 2 ^ 253 := Nat.mul_le_mul_left _ (Nat.pow_le_pow_right (by decide) (by omega))
      _ = overflow := by decide

theorem exponent_lt_of_ne {bits : Nat} (h : bits / 2 ^ 23 % 2 ^ 8 ≠ 255) :
    bits / 2 ^ 23 % 2 ^ 8 < 255 := by
  have := Nat.mod_lt (bits / 2 ^ 23) (Nat.two_pow_pos 8)
  omega

def ofBits (bits : UInt32) : Binary32 :=
  let negative := 2 ^ 31 ≤ bits.toNat
  let exponent := bits.toNat / 2 ^ 23 % 2 ^ 8
  let fraction := bits.toNat % 2 ^ 23
  if h : exponent = 255 then
    if fraction = 0 then .infinite negative else .nan
  else
    .finite negative (unitsOfFields exponent fraction)
      (unitsOfFields_onGrid (exponent_lt_of_ne h) (Nat.mod_lt _ (Nat.two_pow_pos 23)))

/-- The exponent and fraction fields of a magnitude, as one number. -/
def fieldsOfUnits (n : Nat) : Nat :=
  if n < 2 ^ 23 then n
  else (n.log2 - 22) * 2 ^ 23 + (n / spacing n - 2 ^ 23)

theorem log2_lt_add {n a b : Nat} (nonzero : n ≠ 0) (h : n < 2 ^ a * 2 ^ b) : n.log2 < a + b := by
  rw [← Nat.pow_add] at h
  exact (Nat.log2_lt nonzero).2 h

theorem log2_units {n : Nat} (h : OnGrid n) (large : 2 ^ 23 ≤ n) : 23 ≤ n.log2 ∧ n.log2 ≤ 276 := by
  have nonzero : n ≠ 0 := Nat.ne_of_gt (Nat.lt_of_lt_of_le (Nat.two_pow_pos 23) large)
  exact ⟨(Nat.le_log2 nonzero).2 large, Nat.le_of_lt_succ (log2_lt_add nonzero h.1)⟩

/-- The leading bits of a magnitude that is not among the finest. -/
theorem div_spacing_bounds {n : Nat} (large : 2 ^ 23 ≤ n) :
    2 ^ 23 ≤ n / spacing n ∧ n / spacing n < 2 ^ 24 := by
  have nonzero : n ≠ 0 := by have := Nat.two_pow_pos 23; omega
  have log := (Nat.le_log2 nonzero).2 large
  refine ⟨?_, div_spacing_lt n⟩
  rw [Nat.le_div_iff_mul_le (spacing_pos n), spacing, ← Nat.pow_add]
  exact Nat.le_trans (Nat.pow_le_pow_right (by decide) (by omega)) (Nat.log2_self_le nonzero)

/-- Every magnitude on the grid has two fields that stand for it. -/
theorem fieldsOfUnits_eq {n : Nat} (h : OnGrid n) :
    ∃ exponent fraction, exponent < 255 ∧ fraction < 2 ^ 23 ∧
      fieldsOfUnits n = exponent * 2 ^ 23 + fraction ∧ unitsOfFields exponent fraction = n := by
  by_cases large : 2 ^ 23 ≤ n
  · obtain ⟨low, high⟩ := log2_units h large
    obtain ⟨below, above⟩ := div_spacing_bounds large
    refine ⟨n.log2 - 22, n / spacing n - 2 ^ 23, by omega, by omega, ?_, ?_⟩
    · rw [fieldsOfUnits, if_neg (by omega)]
    · rw [unitsOfFields, if_neg (by omega), Nat.add_sub_cancel' below,
        show n.log2 - 22 - 1 = n.log2 - 23 by omega]
      exact Nat.div_mul_cancel h.2
  · refine ⟨0, n, by decide, by omega, ?_, by rw [unitsOfFields, if_pos rfl]⟩
    rw [fieldsOfUnits, if_pos (by omega)]
    omega

/-- A NaN is written with the highest fraction bit alone. -/
def toBits : Binary32 → UInt32
  | nan => 0x7fc00000
  | infinite s => UInt32.ofNat ((if s then 2 ^ 31 else 0) + 255 * 2 ^ 23)
  | finite s n _ => UInt32.ofNat ((if s then 2 ^ 31 else 0) + fieldsOfUnits n)

/-- Only the payload of a NaN is lost on the way. -/
theorem ofBits_toBits (x : Binary32) : ofBits x.toBits = x := by
  cases x with
  | nan => decide
  | infinite s => cases s <;> decide
  | finite s n h =>
    obtain ⟨exponent, fraction, he, hf, fields, units⟩ := fieldsOfUnits_eq h
    have bits : (toBits (.finite s n h)).toNat =
        (if s then 2 ^ 31 else 0) + (exponent * 2 ^ 23 + fraction) := by
      rw [toBits, fields, UInt32.toNat_ofNat']
      apply Nat.mod_eq_of_lt
      split <;> omega
    have sign : (2 ^ 31 ≤ (toBits (.finite s n h)).toNat : Bool) = s := by
      rw [bits]
      cases s
      · simpa using by omega
      · simp
    have middle : (toBits (.finite s n h)).toNat / 2 ^ 23 % 2 ^ 8 = exponent := by
      rw [bits]
      cases s <;> simp <;> omega
    have last : (toBits (.finite s n h)).toNat % 2 ^ 23 = fraction := by
      rw [bits]
      cases s <;> simp <;> omega
    simp only [ofBits, middle, last, units]
    rw [dif_neg (by omega)]
    congr 1

/-- The same number in double precision. -/
def toFloat (x : Binary32) : Float := (Float32.ofBits x.toBits).toFloat

/-- The number nearest to a double. -/
def ofFloat (x : Float) : Binary32 := ofBits x.toFloat32.toBits

def sin (x : Binary32) : Binary32 := ofFloat x.toFloat.sin

def cos (x : Binary32) : Binary32 := ofFloat x.toFloat.cos

/-- The angle, in radians, whose sine and cosine are in the proportion `y` to `x`. -/
def atan2 (y x : Binary32) : Binary32 := ofFloat (Float.atan2 y.toFloat x.toFloat)

end Danmaku.Binary32
