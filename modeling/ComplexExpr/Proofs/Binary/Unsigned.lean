import ComplexExpr.Proofs.Binary.ReadBack

/-!
# Numerals without a sign

A numeral without a sign may be too large for a double, or too small, and is a
double all the same. Rounding and packing keep the sign of a number
(`hasSign_roundWithAccuracy`, `HasSign.unpack_pack`), and no step of reading
divides by zero or scales an infinity. Main statement:

* `toFloat_of_unsigned`: a numeral without a sign is read as a finite double
  or as the positive infinity.
-/

namespace ComplexExpr.Binary

open Float.Model (UnpackedFloat)
open Float.Model.UnpackedFloat (roundWithAccuracy packComponents Accuracy)

variable {s : UnpackedFloat.Sign} {m n : ℕ} {e k : ℤ} {x y : Float}

/-- A number of the sign `s`, be it zero, finite or infinite. -/
def HasSign (s : UnpackedFloat.Sign) : UnpackedFloat → Prop
  | .notANumber => False
  | .infinity t | .zero t | .finite t _ _ _ => t = s

theorem HasSign.ite {p : Prop} [Decidable p] {u v : UnpackedFloat} (hu : HasSign s u)
    (hv : HasSign s v) : HasSign s (if p then u else v) := by
  split
  · exact hu
  · exact hv

theorem HasSign.dite {p : Prop} [Decidable p] {u : p → UnpackedFloat} {v : ¬p → UnpackedFloat}
    (hu : ∀ h, HasSign s (u h)) (hv : ∀ h, HasSign s (v h)) :
    HasSign s (if h : p then u h else v h) := by
  split
  · exact hu _
  · exact hv _

/-! ## Rounding and packing -/

theorem hasSign_roundWithAccuracy (s : UnpackedFloat.Sign) (m : ℕ) (e : ℤ) (acc : Accuracy) :
    HasSign s (roundWithAccuracy .binary64 s m e acc) := by
  unfold roundWithAccuracy
  exact .dite (fun _ => rfl) fun _ => rfl

theorem hasSign_ofFields (s : UnpackedFloat.Sign) {k f : ℕ} (h : k = 2047 → f = 0) :
    HasSign s (ofFields s k f) := by
  unfold ofFields
  by_cases hk : k = 2047
  · rw [if_pos hk, if_pos (h hk)]
    rfl
  · rw [if_neg hk]
    exact .ite (.dite (fun _ => rfl) fun _ => rfl) rfl

theorem hasSign_unpack_packComponents (s : UnpackedFloat.Sign) {k : ℕ} (hk : k < 2 ^ 11) (m : ℕ)
    (h : k = 2047 → m % 2 ^ 52 = 0) :
    HasSign s (.unpack .binary64 (packComponents .binary64 s (.ofNat 11 k) (.ofNat 52 m))) := by
  rw [unpack_packComponents_mod s hk]
  exact hasSign_ofFields s h

theorem unpack_pack_infinity (s : UnpackedFloat.Sign) :
    (Float.Model.pack (.infinity s)).unpack = .infinity s :=
  unpack_packComponents s (k := 2047) (f := 0) (by decide) (by decide)

/-- An exponent that is too large for a double is packed into an infinity. -/
theorem unpack_pack_large (s : UnpackedFloat.Sign) {m : ℕ} {e : ℤ} (hm : 0 < m) (he : 971 < e) :
    (Float.Model.pack (.finite s m e hm)).unpack = .infinity s := by
  have hpack : UnpackedFloat.pack .binary64 (.finite s m e hm) =
      UnpackedFloat.pack .binary64 (.infinity s) := by
    rw [pack_finite, if_pos (by omega)]
    rfl
  exact (congrArg (UnpackedFloat.unpack .binary64) hpack).trans (unpack_pack_infinity s)

/-- A number that is packed, and is rounded to infinity if it is too large, keeps its sign. -/
theorem HasSign.unpack_pack {u : UnpackedFloat} (h : HasSign s u) :
    HasSign s (Float.Model.pack u).unpack := by
  cases u with
  | notANumber => exact h.elim
  | infinity t =>
    obtain rfl : t = s := h
    rw [unpack_pack_infinity]
    rfl
  | zero t =>
    obtain rfl : t = s := h
    rw [unpack_pack_zero]
    rfl
  | finite t m e hm =>
    obtain rfl : t = s := h
    show HasSign t (.unpack .binary64 (UnpackedFloat.pack .binary64 (.finite t m e hm)))
    rw [pack_finite]
    split
    · exact hasSign_unpack_packComponents t (k := 2047) (by decide) 0 fun _ => rfl
    next hlt =>
      split
      · exact hasSign_unpack_packComponents t (by omega) m (by omega)
      · exact hasSign_unpack_packComponents t (by decide) m nofun

/-! ## Decimals -/

theorem HasParts.hasSign_mul (hx : HasParts x .positive m e) (hy : HasParts y .positive n k) :
    HasSign .positive (x * y).toModel.unpack := by
  show HasSign _ (Float.Model.pack (.mul .binary64 x.toModel.unpack y.toModel.unpack)).unpack
  refine HasSign.unpack_pack ?_
  cases hx with
  | zero hx =>
    cases hy with
    | zero hy => rw [hx, hy]; rfl
    | nonzero hc hy => rw [hx, hy]; rfl
  | nonzero hc hx =>
    cases hy with
    | zero hy => rw [hx, hy]; rfl
    | nonzero hc' hy => rw [hx, hy]; exact hasSign_roundWithAccuracy ..

theorem HasParts.hasSign_div (hx : HasParts x .positive m e) (hy : HasParts y .positive n k)
    (hn : n ≠ 0) : HasSign .positive (x / y).toModel.unpack := by
  show HasSign _ (Float.Model.pack (.div .binary64 x.toModel.unpack y.toModel.unpack)).unpack
  refine HasSign.unpack_pack ?_
  cases hy with
  | zero hy => exact absurd rfl hn
  | nonzero hc' hy =>
    cases hx with
    | zero hx => rw [hx, hy]; rfl
    | nonzero hc hx => rw [hx, hy]; exact hasSign_roundWithAccuracy ..

theorem hasSign_ofScientific (m : ℕ) (k : ℤ) :
    HasSign .positive (UnpackedFloat.ofScientific .binary64 m k) := by
  unfold UnpackedFloat.ofScientific
  refine .dite (fun _ => rfl) fun _ => .ite rfl (.ite rfl (.ite ?_ ?_))
  · exact hasSign_roundWithAccuracy ..
  · exact hasSign_roundWithAccuracy ..

theorem unpack_infinity : Decimal.infinity.toModel.unpack = .infinity .positive :=
  unpack_pack_infinity .positive

theorem hasSign_magnitude (c : ℕ) (k : ℤ) :
    HasSign .positive (Decimal.magnitude c k).toModel.unpack := by
  have hzero : (0.0 : Float).toModel.unpack = .zero .positive := rfl
  unfold Decimal.magnitude
  split
  · rw [hzero]; rfl
  next hc =>
    split
    · rw [unpack_infinity]; rfl
    · split
      · rw [hzero]; rfl
      · unfold Float.ofScientific
        split
        next h =>
          obtain ⟨m₁, e₁, h₁, -, -⟩ := hasParts_natCast (Nat.pos_of_ne_zero hc) h.1
          obtain ⟨m₂, e₂, h₂, hm₂, -⟩ := hasParts_powerOfTen (Nat.lt_succ_of_le h.2)
          dsimp only
          split
          · exact h₁.hasSign_div h₂ (by omega)
          · exact h₁.hasSign_mul h₂
        next => exact (hasSign_ofScientific ..).unpack_pack

/-! ## Finite and infinite doubles -/

theorem HasSign.isFinite_or (h : HasSign .positive x.toModel.unpack) :
    x.isFinite ∨ x = Decimal.infinity := by
  show x.toModel.unpack.isFinite ∨ _
  cases hx : x.toModel.unpack with
  | notANumber => rw [hx] at h; exact h.elim
  | infinity s =>
    rw [hx] at h
    obtain rfl : s = .positive := h
    exact .inr (eq_of_unpack (hx.trans unpack_infinity.symm))
  | zero s => exact .inl rfl
  | finite s m e hm => exact .inl rfl

/-- A numeral without a sign is read as a finite double or as the positive infinity. -/
theorem toFloat_of_unsigned {n : Numeral} (h : n.sign = none) :
    n.toFloat.isFinite ∨ n.toFloat = Decimal.infinity := by
  have hfloat : n.toFloat = Decimal.magnitude n.toDecimal.coefficient n.toDecimal.exponent := by
    unfold Numeral.toFloat Decimal.toFloat
    rw [Numeral.toDecimal, h]
    rfl
  rw [hfloat]
  exact (hasSign_magnitude ..).isFinite_or

end ComplexExpr.Binary
