import ComplexExpr.Proofs.Binary.Nearest
import ComplexExpr.Proofs.Binary.Parts

/-!
# Doubles as numbers

A finite double is a number (`HasValue`), and doubles are ordered as their
numbers are (`HasValue.lt_iff`, `HasValue.le_iff`).
-/

namespace ComplexExpr.Binary

open Float.Model (UnpackedFloat)

/-- The number or its negation. -/
def signed : UnpackedFloat.Sign → ℚ → ℚ
  | .positive, q => q
  | .negative, q => -q

/-- The double is the number `q`. -/
def HasValue (x : Float) (q : ℚ) : Prop :=
  ∃ s m e, HasParts x s m e ∧ q = signed s (m * 2 ^ e)

variable {x y : Float} {p q r : ℚ} {s t : UnpackedFloat.Sign} {m n : ℕ} {e k : ℤ}

theorem signed_mul (s t : UnpackedFloat.Sign) (p q : ℚ) :
    signed s p * signed t q = signed (s * t) (p * q) := by
  cases s <;> cases t
  · exact neg_mul_neg p q
  · exact neg_mul p q
  · exact mul_neg p q
  · rfl

theorem signed_div (s t : UnpackedFloat.Sign) (p q : ℚ) :
    signed s p / signed t q = signed (s / t) (p / q) := by
  cases s <;> cases t
  · exact neg_div_neg_eq p q
  · exact neg_div q p
  · exact div_neg p
  · rfl

theorem signed_neg (s : UnpackedFloat.Sign) (q : ℚ) : signed (-s) q = -signed s q := by
  cases s
  · exact (neg_neg q).symm
  · rfl

theorem abs_signed (s : UnpackedFloat.Sign) (q : ℚ) : |signed s q| = |q| := by
  cases s
  · exact abs_neg q
  · rfl

theorem signed_zero (s : UnpackedFloat.Sign) : signed s 0 = 0 := by
  cases s
  · exact neg_zero
  · rfl

theorem signed_zero_mul (s : UnpackedFloat.Sign) (q : ℚ) : signed s ((0 : ℕ) * q) = 0 := by
  rw [Nat.cast_zero, zero_mul, signed_zero]

/-! ## Values -/

theorem HasParts.hasValue (h : HasParts x s m e) : HasValue x (signed s (m * 2 ^ e)) :=
  ⟨s, m, e, h, rfl⟩

theorem exists_hasValue (h : x.isFinite) : ∃ q, HasValue x q := by
  obtain ⟨s, m, e, hx⟩ := exists_hasParts h
  exact ⟨_, hx.hasValue⟩

namespace HasValue

theorem unique (h : HasValue x p) (h' : HasValue x q) : p = q := by
  obtain ⟨s, m, e, hx, rfl⟩ := h
  obtain ⟨t, n, k, hx', rfl⟩ := h'
  obtain ⟨rfl, rfl, rfl⟩ := hx.unique hx'
  rfl

theorem of_eq (h : HasValue x p) (hq : p = q) : HasValue x q := hq ▸ h

theorem representable (h : HasValue x q) : Representable q := by
  obtain ⟨s, m, e, hx, rfl⟩ := h
  have hm : Representable (m * 2 ^ e) := by
    cases hx with
    | zero h => rw [Nat.cast_zero, zero_mul]; exact .zero
    | nonzero hc h =>
      have hlt := hc.lt
      exact ⟨m, e, hc.least, by rw [Nat.abs_cast]; omega, by norm_cast⟩
  cases s
  · exact hm.neg
  · exact hm

theorem neg (h : HasValue x q) : HasValue (-x) (-q) := by
  obtain ⟨s, m, e, hx, rfl⟩ := h
  rw [← signed_neg]
  exact hx.neg.hasValue

theorem abs (h : HasValue x q) : HasValue x.abs |q| := by
  obtain ⟨s, m, e, hx, rfl⟩ := h
  have hpos : (0 : ℚ) ≤ m * 2 ^ e := mul_nonneg (Nat.cast_nonneg m) (two_zpow_pos e).le
  rw [abs_signed, abs_of_nonneg hpos]
  exact hx.abs.hasValue

theorem zero : HasValue 0.0 0 :=
  of_eq (HasParts.hasValue (.zero (s := .positive) rfl)) (by simp [signed])

theorem one : HasValue 1.0 1 := of_eq HasParts.one.hasValue (by norm_num [signed])

end HasValue

theorem Canonical.value_pos (hc : Canonical m e) : (0 : ℚ) < m * 2 ^ e :=
  mul_pos (by exact_mod_cast hc.pos) (two_zpow_pos e)

theorem Canonical.lt_two_zpow (hc : Canonical m e) : (m * 2 ^ e : ℚ) < 2 ^ (1024 : ℤ) := by
  have hm : (m : ℚ) < 2 ^ 53 := by exact_mod_cast hc.lt
  calc (m * 2 ^ e : ℚ) < 2 ^ 53 * 2 ^ e := mul_lt_mul_of_pos_right hm (two_zpow_pos e)
    _ = 2 ^ (53 + e) := two_pow_mul_zpow 53 e
    _ ≤ 2 ^ (1024 : ℤ) := zpow_le_zpow_right₀ one_le_two (by have := hc.most; omega)

/-! ## Order -/

/-- Of two doubles the one with the smaller exponent is the smaller one. -/
theorem Canonical.lt_of_exponent_lt (hc : Canonical m e) (hc' : Canonical n k) (hlt : e < k) :
    (m * 2 ^ e : ℚ) < n * 2 ^ k := by
  have hm : (m : ℚ) < 2 ^ 53 := by exact_mod_cast hc.lt
  have hn : (2 : ℚ) ^ 52 ≤ n := by
    exact_mod_cast hc'.normal.resolve_left (hc.least.trans_lt hlt).ne'
  calc (m * 2 ^ e : ℚ) < 2 ^ 53 * 2 ^ e := mul_lt_mul_of_pos_right hm (two_zpow_pos e)
    _ = 2 ^ 52 * 2 ^ (e + 1) := by rw [zpow_add_one₀ two_ne_zero]; ring
    _ ≤ n * 2 ^ k :=
      mul_le_mul hn (zpow_le_zpow_right₀ one_le_two hlt) (two_zpow_pos _).le (Nat.cast_nonneg n)

/-- Parts are compared exponents first, and so are the numbers. -/
theorem compare_parts (hc : Canonical m e) (hc' : Canonical n k) :
    (compare e k).then (compare m n) = compare (m * 2 ^ e : ℚ) (n * 2 ^ k) := by
  rcases lt_trichotomy e k with h | rfl | h
  · rw [compare_lt_iff_lt.2 h, compare_lt_iff_lt.2 (hc.lt_of_exponent_lt hc' h)]
    rfl
  · rw [compare_eq_iff_eq.2 rfl]
    calc compare m n = compare (m : ℚ) n := by
          rw [← cmp_eq_compare, ← cmp_eq_compare, Nat.strictMono_cast.cmp_map_eq]
      _ = compare (m * 2 ^ e : ℚ) (n * 2 ^ e) := by
          rw [← cmp_eq_compare, ← cmp_eq_compare, cmp_mul_pos_right (two_zpow_pos e)]
  · rw [compare_gt_iff_gt.2 h, compare_gt_iff_gt.2 (hc'.lt_of_exponent_lt hc h)]
    rfl

theorem compare_neg_neg (p q : ℚ) : compare (-p) (-q) = (compare p q).swap := by
  rw [← cmp_eq_compare, ← cmp_eq_compare, cmp_swap]
  exact strictMono_id.neg.cmp_map_eq p q

/-- Finite doubles are compared as the numbers that they are. -/
theorem HasValue.compare_eq (hx : HasValue x p) (hy : HasValue y q) :
    x.toModel.unpack.compare y.toModel.unpack = some (compare p q) := by
  obtain ⟨s, m, e, hx, rfl⟩ := hx
  obtain ⟨t, n, k, hy, rfl⟩ := hy
  cases hx with
  | zero hx =>
    rw [hx, signed_zero_mul]
    cases hy with
    | zero hy =>
      rw [hy, signed_zero_mul, compare_eq_iff_eq.2 rfl]
      rfl
    | nonzero hc hy =>
      have hpos := hc.value_pos
      rw [hy]
      cases t with
      | positive => rw [signed, compare_lt_iff_lt.2 hpos]; rfl
      | negative => rw [signed, compare_gt_iff_gt.2 (neg_neg_of_pos hpos)]; rfl
  | nonzero hc hx =>
    have hpos := hc.value_pos
    rw [hx]
    cases hy with
    | zero hy =>
      rw [hy, signed_zero_mul]
      cases s with
      | positive => rw [signed, compare_gt_iff_gt.2 hpos]; rfl
      | negative => rw [signed, compare_lt_iff_lt.2 (neg_neg_of_pos hpos)]; rfl
    | nonzero hc' hy =>
      have hpos' := hc'.value_pos
      rw [hy]
      cases s with
      | positive =>
        cases t with
        | positive => exact congrArg some (compare_parts hc hc')
        | negative =>
          rw [signed, signed, compare_gt_iff_gt.2 ((neg_neg_of_pos hpos').trans hpos)]
          rfl
      | negative =>
        cases t with
        | positive =>
          rw [signed, signed, compare_lt_iff_lt.2 ((neg_neg_of_pos hpos).trans hpos')]
          rfl
        | negative =>
          rw [signed, signed, compare_neg_neg, ← compare_parts hc hc']
          rfl

theorem HasValue.lt_iff (hx : HasValue x p) (hy : HasValue y q) : x < y ↔ p < q := by
  rw [Binary.lt_iff, hx.compare_eq hy, Option.some.injEq, compare_lt_iff_lt]

theorem HasValue.le_iff (hx : HasValue x p) (hy : HasValue y q) : x ≤ y ↔ p ≤ q := by
  rw [Binary.le_iff, hx.compare_eq hy, Option.any_some, Ordering.isLE_iff_ne_gt]
  exact compare_le_iff_le

end ComplexExpr.Binary
