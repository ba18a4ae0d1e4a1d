import Danmaku.Proofs.Binary32.Rounding

/-!
# Integers in single precision

As long as they stay within 2²⁴, integers are added and subtracted exactly (`Whole.add`,
`Whole.sub`). Whatever is finite is rounded to an integer (`whole_round`).
-/

namespace Danmaku.Binary32

/-- The number is this integer. -/
def Whole (x : Binary32) (z : Int) : Prop := x.toUnits? = some (z * unitsPerOne)

instance (x : Binary32) (z : Int) : Decidable (x.Whole z) :=
  inferInstanceAs (Decidable (x.toUnits? = some (z * unitsPerOne)))

theorem unitsPerOne_pos : (0 : Int) < unitsPerOne := Int.natCast_pos.2 (Nat.two_pow_pos 149)

theorem whole_zero : Whole 0 0 := rfl

theorem whole_one : Whole 1 1 := by decide +kernel

namespace Whole

variable {x y : Binary32} {a b : Int}

theorem unique (h : x.Whole a) (h' : x.Whole b) : a = b :=
  Int.eq_of_mul_eq_mul_right (Int.ne_of_gt unitsPerOne_pos) (Option.some.inj (h.symm.trans h'))

theorem lt_iff (h : x.Whole a) (h' : y.Whole b) : x.lt y = true ↔ a < b := by
  rw [lt_units h h', decide_eq_true_iff]
  exact Int.mul_lt_mul_right unitsPerOne_pos

theorem le_eq_not_lt (h : x.Whole a) (h' : y.Whole b) : x.le y = !y.lt x := by
  rw [le_units h h', lt_units h' h, ← decide_not]
  exact decide_eq_decide.2 Int.not_lt.symm

theorem neg (h : x.Whole a) : (-x).Whole (-a) := by
  have units := toUnits?_neg h
  rwa [← Int.neg_mul] at units

/-- A positive integer has no other representation. -/
theorem eq_finite {k : Nat} (pos : 0 < k) (h : x.Whole k) :
    ∃ onGrid, x = .finite false (k * unitsPerOne) onGrid := by
  have positive : 0 < (k : Int) * unitsPerOne := Int.mul_pos (by omega) unitsPerOne_pos
  cases x with
  | nan => cases h
  | infinite => cases h
  | finite negative units onGrid =>
    have eq := Option.some.inj h
    cases negative with
    | true =>
      simp only [↓reduceIte] at eq
      omega
    | false =>
      have eq : units = k * unitsPerOne := by
        simp only [Bool.false_eq_true, ↓reduceIte] at eq
        exact_mod_cast eq
      subst eq
      exact ⟨onGrid, rfl⟩

end Whole

theorem toUnits?_ofUnits {z : Int} (negative : Bool) (grid : OnGrid z.natAbs) :
    (ofUnits negative z).toUnits? = some z := by
  rw [ofUnits, ofRatio_one grid, toUnits?]
  by_cases zero : z = 0
  · subst zero
    simp
  · by_cases below : z < 0
    · simp only [zero, below, decide_true, ↓reduceIte, Option.some.injEq]
      omega
    · simp only [zero, below, decide_false, Bool.false_eq_true, ↓reduceIte, Option.some.injEq]
      omega

theorem natAbs_onGrid {z : Int} (h : z.natAbs ≤ 2 ^ 24) :
    OnGrid (z * unitsPerOne).natAbs := by
  rw [Int.natAbs_mul, Int.natAbs_natCast]
  exact whole_onGrid h

theorem add_units {x y : Binary32} {a b : Int} (hx : x.toUnits? = some a)
    (hy : y.toUnits? = some b) : ∃ negative, x + y = ofUnits negative (a + b) := by
  cases x with
  | nan => cases hx
  | infinite => cases hx
  | finite s m hm =>
    cases y with
    | nan => cases hy
    | infinite => cases hy
    | finite t n hn =>
      cases hx
      cases hy
      exact ⟨s && t, rfl⟩

namespace Whole

variable {x y : Binary32} {a b : Int}

theorem add (h : x.Whole a) (h' : y.Whole b) (small : (a + b).natAbs ≤ 2 ^ 24) :
    (x + y).Whole (a + b) := by
  obtain ⟨negative, eq⟩ := add_units h h'
  rw [Whole, eq, ← Int.add_mul]
  exact toUnits?_ofUnits negative (natAbs_onGrid small)

theorem sub (h : x.Whole a) (h' : y.Whole b) (small : (a - b).natAbs ≤ 2 ^ 24) :
    (x - y).Whole (a - b) := by
  rw [Int.sub_eq_add_neg] at small ⊢
  exact h.add h'.neg small

end Whole

/-- From 2²³ on there are only integers. -/
theorem unitsPerOne_dvd {n : Nat} (grid : OnGrid n) (large : 2 ^ 23 * unitsPerOne ≤ n) :
    unitsPerOne ∣ n := by
  have nonzero : n ≠ 0 := by
    have pos : 0 < 2 ^ 23 * unitsPerOne := Nat.mul_pos (by decide) (Nat.two_pow_pos 149)
    omega
  have log : 172 ≤ n.log2 := (Nat.le_log2 nonzero).2 (by
    rw [unitsPerOne, ← Nat.pow_add] at large
    exact large)
  exact Nat.dvd_trans (Nat.pow_dvd_pow 2 (by omega)) grid.2

/-- The nearest integer is a number of the format: either it is small, or nothing is rounded. -/
theorem nearestInteger_onGrid {n : Nat} (grid : OnGrid n) :
    OnGrid ((2 * n + unitsPerOne) / (2 * unitsPerOne) * unitsPerOne) := by
  have pos : 0 < unitsPerOne := Nat.two_pow_pos 149
  by_cases large : 2 ^ 23 * unitsPerOne ≤ n
  · obtain ⟨k, rfl⟩ := unitsPerOne_dvd grid large
    have same : (2 * (unitsPerOne * k) + unitsPerOne) / (2 * unitsPerOne) = k := by
      rw [← Nat.mul_assoc, Nat.add_comm, Nat.add_mul_div_left _ _ (by omega),
        Nat.div_eq_of_lt (by omega), Nat.zero_add]
    rw [same, Nat.mul_comm]
    exact grid
  · apply whole_onGrid
    apply Nat.div_le_of_le_mul
    omega

theorem whole_round {x : Binary32} (h : x.isFinite = true) : ∃ z, x.round.Whole z := by
  cases x with
  | nan => cases h
  | infinite => cases h
  | finite s n grid =>
    have onGrid := nearestInteger_onGrid grid
    simp only [round]
    generalize (2 * n + unitsPerOne) / (2 * unitsPerOne) = k at onGrid ⊢
    rw [ofRatio_one onGrid]
    cases s with
    | true => exact ⟨-k, by rw [Whole, toUnits?, if_pos rfl, Int.natCast_mul, Int.neg_mul]⟩
    | false => exact ⟨k, by simp [Whole, toUnits?]⟩

theorem finite_lt_iff {m n : Nat} (hm : OnGrid m) (hn : OnGrid n) :
    (finite false m hm).lt (finite false n hn) = true ↔ m < n := by
  simp [lt, place?]

theorem finite_congr {s : Bool} {m n : Nat} (h : m = n) (hm : OnGrid m) (hn : OnGrid n) :
    finite s m hm = finite s n hn := by
  subst h
  rfl

/-- An integer exceeds a rounded limit if it exceeds the limit and is not what the limit is rounded
to. -/
theorem Whole.ofNat_lt_iff {x : Binary32} {k limit : Nat} (h : x.Whole k) (pos : 0 < k)
    (small : limit ≤ 2 ^ 64) : (ofNat limit).lt x = true ↔ limit < k ∧ x ≠ ofNat limit := by
  obtain ⟨grid, rfl⟩ := h.eq_finite pos
  obtain ⟨grid', eq⟩ := ofNat_finite small
  have above : k ≤ limit → k * unitsPerOne ≤ nearest (limit * unitsPerOne) 1 :=
    fun le => le_nearest grid (Nat.mul_le_mul_right unitsPerOne le)
  have below : limit ≤ k → nearest (limit * unitsPerOne) 1 ≤ k * unitsPerOne :=
    fun le => nearest_le grid (Nat.mul_le_mul_right unitsPerOne le)
  rw [eq, finite_lt_iff grid' grid]
  constructor
  · intro exceeds
    refine ⟨?_, fun same => ?_⟩
    · apply Nat.lt_of_not_le
      intro within
      exact Nat.not_lt.2 (above within) exceeds
    · exact Nat.ne_of_gt exceeds (finite.inj same).2
  · rintro ⟨exceeds, other⟩
    refine Nat.lt_of_le_of_ne (below (Nat.le_of_lt exceeds)) fun same => other ?_
    exact finite_congr same.symm grid grid'

theorem Whole.toNatClipped {x : Binary32} {k : Nat} (h : x.Whole k) (pos : 0 < k) (limit : Nat) :
    x.toNatClipped limit = min k limit := by
  obtain ⟨grid, rfl⟩ := h.eq_finite pos
  rw [Binary32.toNatClipped, if_neg Bool.false_ne_true,
    Nat.mul_div_cancel k (show 0 < unitsPerOne from Nat.two_pow_pos 149)]

/-- What is below zero is cut off, and so is what exceeds the limit. -/
theorem Whole.clipped {x : Binary32} {z : Int} (h : x.Whole z) (limit : Nat) :
    (x.maximum 0).toNatClipped limit = min z.toNat limit := by
  have choice : x.maximum 0 = if z * unitsPerOne < 0 then 0 else x := by
    rw [maximum, place?_units h, place?_units whole_zero]
    simp
  rw [choice]
  by_cases below : z < 0
  · rw [if_pos (Int.mul_neg_of_neg_of_pos below unitsPerOne_pos), Int.toNat_of_nonpos (by omega)]
    rfl
  have above : ¬ z * unitsPerOne < 0 := by
    have nonneg := Int.mul_nonneg (Int.not_lt.1 below) (Int.le_of_lt unitsPerOne_pos)
    omega
  rw [if_neg above]
  obtain ⟨k, rfl⟩ := Int.eq_ofNat_of_zero_le (Int.not_lt.1 below)
  rcases Nat.eq_zero_or_pos k with rfl | pos
  · -- Either zero is cut to zero.
    cases x with
    | nan => cases h
    | infinite => cases h
    | finite negative units _ =>
      have none : units = 0 := by
        have eq := Option.some.inj h
        cases negative <;> simp at eq <;> omega
      cases negative <;> simp [Binary32.toNatClipped, none]
  · exact h.toNatClipped pos limit

/-- What is below one is raised to it, and what exceeds the limit is cut off. -/
theorem Whole.clipped_one {x : Binary32} {z : Int} (h : x.Whole z) (limit : Nat) :
    (x.maximum 1).toNatClipped limit = min (max z 1).toNat limit := by
  have scaled : z * unitsPerOne < 1 * unitsPerOne ↔ z < 1 :=
    Int.mul_lt_mul_right unitsPerOne_pos
  have choice : x.maximum 1 = if z < 1 then 1 else x := by
    rw [maximum, place?_units h, place?_units whole_one]
    simp only [scaled]
  rw [choice]
  by_cases low : z < 1
  · have raised : max z 1 = 1 := by omega
    rw [if_pos low, whole_one.toNatClipped Nat.one_pos, raised]
    rfl
  · obtain ⟨k, rfl⟩ := Int.eq_ofNat_of_zero_le (show 0 ≤ z by omega)
    have kept : max (k : Int) 1 = k := by omega
    rw [if_neg low, h.toNatClipped (by omega), kept, Int.toNat_natCast]

end Danmaku.Binary32
