import ComplexExpr.Proofs.Binary.Unpacked

/-!
# Finite doubles by their parts

`HasParts x s m e` says that `x` is `± m · 2 ^ e`, with zero among them. The
comparisons of doubles are read off the parts: two doubles are equal iff both
are zero or all parts are (`beq_eq_true_iff`). `Same` is this equality, and
tells its two sides apart by no comparison.
-/

namespace ComplexExpr.Binary

open Float.Model (UnpackedFloat)

/-- The double `x` is `± m · 2 ^ e`, in the one way that doubles are stored. -/
inductive HasParts (x : Float) (s : UnpackedFloat.Sign) : ℕ → ℤ → Prop
  | zero (h : x.toModel.unpack = .zero s) : HasParts x s 0 (-1074)
  | nonzero {m e} (hc : Canonical m e) (h : x.toModel.unpack = .finite s m e hc.pos) :
    HasParts x s m e

variable {x y : Float} {s t : UnpackedFloat.Sign} {m n : ℕ} {e k : ℤ}

theorem exists_hasParts (h : x.isFinite) : ∃ s m e, HasParts x s m e := by
  change x.toModel.unpack.isFinite at h
  cases hx : x.toModel.unpack with
  | notANumber => rw [hx] at h; cases h
  | infinity s => rw [hx] at h; cases h
  | zero s => exact ⟨s, 0, -1074, .zero hx⟩
  | finite s m e hm => exact ⟨s, m, e, .nonzero (canonical_of_unpack hx) hx⟩

theorem isNegative_inj (h : isNegative s = isNegative t) : s = t := by
  cases s <;> cases t <;> first | rfl | cases h

/-! ## Order -/

theorem lt_iff : x < y ↔ x.toModel.unpack.compare y.toModel.unpack = some .lt :=
  decide_eq_true_iff.trans beq_iff_eq

theorem le_iff : x ≤ y ↔ (x.toModel.unpack.compare y.toModel.unpack).any (·.isLE) :=
  decide_eq_true_iff

/-- What is not at most zero is positive, or it is no number. -/
theorem not_le_zero_iff : ¬x ≤ 0.0 ↔ 0.0 < x ∨ x.isNaN := by
  have hzero : (0.0 : Float).toModel.unpack = .zero .positive := rfl
  have hnan : x.isNaN = x.toModel.unpack.isNaN := rfl
  rw [le_iff, lt_iff, hzero, hnan]
  cases x.toModel.unpack with
  | notANumber => exact iff_of_true nofun (.inr rfl)
  | infinity s | finite s m e hm =>
    cases s with
    | positive => exact iff_of_true nofun (.inl rfl)
    | negative => exact iff_of_false (fun h => h rfl) (not_or.2 ⟨nofun, nofun⟩)
  | zero s => exact iff_of_false (fun h => h rfl) (not_or.2 ⟨nofun, nofun⟩)

namespace HasParts

theorem ofFloat_eq (h : HasParts x s m e) : ofFloat x = .finite (isNegative s) m e := by
  rw [Binary.ofFloat_eq]
  cases h with
  | zero h => rw [h]; rfl
  | nonzero hc h => rw [h]; rfl

theorem of_ofFloat (h : ofFloat x = .finite (isNegative s) m e) : HasParts x s m e := by
  rw [Binary.ofFloat_eq] at h
  cases hx : x.toModel.unpack with
  | notANumber => rw [hx] at h; cases h
  | infinity t => rw [hx] at h; cases h
  | zero t =>
    rw [hx] at h
    injection h with hs hm he
    obtain rfl := isNegative_inj hs
    subst hm he
    exact .zero hx
  | finite t n k hn =>
    rw [hx] at h
    injection h with hs hm he
    obtain rfl := isNegative_inj hs
    subst hm he
    exact .nonzero (canonical_of_unpack hx) hx

theorem canonical (h : HasParts x s m e) (hm : m ≠ 0) : Canonical m e := by
  cases h with
  | zero h => exact absurd rfl hm
  | nonzero hc h => exact hc

theorem exponent_of_zero (h : HasParts x s 0 e) : e = -1074 := by
  cases h with
  | zero h => rfl
  | nonzero hc h => exact absurd rfl hc.pos.ne

/-! ## Packing -/

theorem of_zero (s : UnpackedFloat.Sign) : HasParts (.ofModel (.pack (.zero s))) s 0 (-1074) :=
  .zero (unpack_pack_zero s)

theorem of_finite (hc : Canonical m e) (s : UnpackedFloat.Sign) :
    HasParts (.ofModel (.pack (.finite s m e hc.pos))) s m e :=
  .nonzero hc (unpack_pack hc s)

theorem neg (h : HasParts x s m e) : HasParts (-x) (-s) m e := by
  show HasParts (.ofModel (.pack x.toModel.unpack.neg)) (-s) m e
  cases h with
  | zero h => rw [h]; exact of_zero (-s)
  | nonzero hc h => rw [h]; exact of_finite hc (-s)

theorem abs (h : HasParts x s m e) : HasParts x.abs .positive m e := by
  show HasParts (.ofModel (.pack x.toModel.unpack.abs)) .positive m e
  cases h with
  | zero h => rw [h]; exact of_zero .positive
  | nonzero hc h => rw [h]; exact of_finite hc .positive

/-! ## Comparing -/

theorem beq_eq_true_iff (hx : HasParts x s m e) (hy : HasParts y t n k) :
    (x == y) = true ↔ (m = 0 ∧ n = 0) ∨ (s = t ∧ m = n ∧ e = k) := by
  have hbeq : (x == y) = (x.toModel.unpack.compare y.toModel.unpack == some .eq) := rfl
  rw [hbeq, beq_iff_eq]
  cases hx with
  | zero hx =>
    rw [hx]
    cases hy with
    | zero hy => rw [hy]; exact ⟨fun _ => .inl ⟨rfl, rfl⟩, fun _ => rfl⟩
    | nonzero hc hy =>
      have hpos := hc.pos
      rw [hy]
      refine ⟨fun h => ?_, fun h => ?_⟩
      · cases t <;> cases h
      · rcases h with ⟨-, h⟩ | ⟨-, h, -⟩ <;> omega
  | nonzero hc hx =>
    have hpos := hc.pos
    rw [hx]
    cases hy with
    | zero hy =>
      rw [hy]
      refine ⟨fun h => ?_, fun h => ?_⟩
      · cases s <;> cases h
      · rcases h with ⟨h, -⟩ | ⟨-, h, -⟩ <;> omega
    | nonzero hc' hy =>
      have heq : (compare e k).then (compare m n) = .eq ↔ m = n ∧ e = k := by
        rw [Ordering.then_eq_eq, Std.compare_eq_iff_eq, Std.compare_eq_iff_eq, and_comm]
      rw [hy, or_iff_right fun h => hpos.ne' h.1]
      rcases s with - | - <;> rcases t with - | -
      · show some (Ordering.swap _) = some Ordering.eq ↔ _
        rw [Option.some.injEq, Ordering.swap_eq_eq, heq]
        exact (and_iff_right rfl).symm
      · exact iff_of_false nofun nofun
      · exact iff_of_false nofun nofun
      · show some _ = some Ordering.eq ↔ _
        rw [Option.some.injEq, heq]
        exact (and_iff_right rfl).symm

theorem zero_le_iff (h : HasParts x s m e) : 0.0 ≤ x ↔ m = 0 ∨ s = .positive := by
  have hzero : (0.0 : Float).toModel.unpack = .zero .positive := rfl
  rw [le_iff, hzero]
  cases h with
  | zero h => rw [h]; exact ⟨fun _ => .inl rfl, fun _ => rfl⟩
  | nonzero hc h =>
    have hpos := hc.pos
    rw [h]
    cases s with
    | positive => exact ⟨fun _ => .inr rfl, fun _ => rfl⟩
    | negative => exact iff_of_false nofun (not_or.2 ⟨hpos.ne', nofun⟩)

theorem beq_zero (h : HasParts x s m e) : (x == 0.0) = true ↔ m = 0 := by
  have hzero : HasParts 0.0 .positive 0 (-1074) := .zero rfl
  rw [h.beq_eq_true_iff hzero]
  refine ⟨fun h => ?_, fun h => .inl ⟨h, rfl⟩⟩
  rcases h with ⟨h, -⟩ | ⟨-, h, -⟩ <;> exact h

theorem one : HasParts 1.0 .positive (2 ^ 52) (-52) :=
  .nonzero ⟨by decide, by decide, by decide, by decide, .inr (by decide)⟩ rfl

theorem beq_one (h : HasParts x s m e) :
    (x == 1.0) = true ↔ s = .positive ∧ m = 2 ^ 52 ∧ e = -52 := by
  rw [h.beq_eq_true_iff one, or_iff_right fun h => absurd h.2 (by decide)]

theorem beq_neg_one (h : HasParts x s m e) :
    (x == -1.0) = true ↔ s = .negative ∧ m = 2 ^ 52 ∧ e = -52 := by
  rw [h.beq_eq_true_iff one.neg, or_iff_right fun h => absurd h.2 (by decide)]
  rfl

end HasParts

/-! ## Numerical equality -/

theorem HasParts.unique (h : HasParts x s m e) (h' : HasParts x t n k) : s = t ∧ m = n ∧ e = k := by
  have heq := h.ofFloat_eq.symm.trans h'.ofFloat_eq
  injection heq with hs hm he
  exact ⟨isNegative_inj hs, hm, he⟩

/-- Two doubles with the same parts are one. -/
theorem HasParts.eq (hx : HasParts x s m e) (hy : HasParts y s m e) : x = y := by
  refine eq_of_unpack ?_
  cases hx with
  | zero hx =>
    cases hy with
    | zero hy => rw [hx, hy]
    | nonzero hc hy => exact absurd rfl hc.pos.ne
  | nonzero hc hx =>
    cases hy with
    | zero hy => exact absurd rfl hc.pos.ne
    | nonzero hc' hy => rw [hx, hy]

/-- Two finite doubles are numerically equal: their signs may differ if they are zero. -/
def Same (x y : Float) : Prop :=
  ∃ s t m e, HasParts x s m e ∧ HasParts y t m e ∧ (m = 0 ∨ s = t)

namespace Same

variable {z : Float}

theorem beq : Same x y → (x == y) = true := by
  rintro ⟨s, t, m, e, hx, hy, h⟩
  refine (hx.beq_eq_true_iff hy).2 ?_
  rcases h with h | h
  · exact .inl ⟨h, h⟩
  · exact .inr ⟨h, rfl, rfl⟩

theorem of_beq (hx : x.isFinite) (hy : y.isFinite) (h : (x == y) = true) : Same x y := by
  obtain ⟨s, m, e, hx⟩ := exists_hasParts hx
  obtain ⟨t, n, k, hy⟩ := exists_hasParts hy
  rcases (hx.beq_eq_true_iff hy).1 h with ⟨rfl, rfl⟩ | ⟨rfl, rfl, rfl⟩
  · obtain rfl := hx.exponent_of_zero
    obtain rfl := hy.exponent_of_zero
    exact ⟨s, t, 0, _, hx, hy, .inl rfl⟩
  · exact ⟨s, s, m, e, hx, hy, .inr rfl⟩

theorem symm : Same x y → Same y x := by
  rintro ⟨s, t, m, e, hx, hy, h⟩
  exact ⟨t, s, m, e, hy, hx, h.imp_right Eq.symm⟩

theorem trans : Same x y → Same y z → Same x z := by
  rintro ⟨s, t, m, e, hx, hy, h⟩ ⟨s', t', m', e', hy', hz, h'⟩
  obtain ⟨rfl, rfl, rfl⟩ := hy.unique hy'
  refine ⟨s, t', m, e, hx, hz, ?_⟩
  rcases h with h | rfl
  · exact .inl h
  · exact h'

theorem abs : Same x y → Same x.abs y.abs := by
  rintro ⟨s, t, m, e, hx, hy, -⟩
  exact ⟨_, _, m, e, hx.abs, hy.abs, .inr rfl⟩

/-- No comparison with a double tells the two sides apart. -/
theorem beq_congr {r : UnpackedFloat.Sign} (h : Same x y) (hz : HasParts z r n k) :
    (x == z) = (y == z) := by
  obtain ⟨s, t, m, e, hx, hy, h⟩ := h
  rw [Bool.eq_iff_iff, hx.beq_eq_true_iff hz, hy.beq_eq_true_iff hz]
  rcases h with rfl | rfl
  · -- zeros of either sign equal what is zero, and nothing else
    have hzero (u : UnpackedFloat.Sign) : (0 = 0 ∧ n = 0) ∨ (u = r ∧ 0 = n ∧ e = k) ↔ n = 0 := by
      refine ⟨fun h => ?_, fun h => .inl ⟨rfl, h⟩⟩
      rcases h with ⟨-, h⟩ | ⟨-, h, -⟩ <;> omega
    exact (hzero s).trans (hzero t).symm
  · rfl

theorem beq_zero (h : Same x y) : (x == 0.0) = (y == 0.0) := h.beq_congr (.zero rfl)
theorem beq_one (h : Same x y) : (x == 1.0) = (y == 1.0) := h.beq_congr .one
theorem beq_neg_one (h : Same x y) : (x == -1.0) = (y == -1.0) := h.beq_congr HasParts.one.neg

theorem zero_le_iff : Same x y → (0.0 ≤ x ↔ 0.0 ≤ y) := by
  rintro ⟨s, t, m, e, hx, hy, h⟩
  rw [hx.zero_le_iff, hy.zero_le_iff]
  rcases h with rfl | rfl
  · exact iff_of_true (.inl rfl) (.inl rfl)
  · rfl

end Same

end ComplexExpr.Binary
