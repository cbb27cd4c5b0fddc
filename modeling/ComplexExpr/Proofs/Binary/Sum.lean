import ComplexExpr.Proofs.Binary.Unsigned

/-!
# Sums with zero

A difference is the sum with the negation (`sub_eq`). A zero of either sign
added to a double, or taken from it, leaves the double as it is, or as a zero of
the other sign; a double taken from zero is negated. The two sides are compared
by `==`, which holds of any double that is a number (`IsNumber.beq_self`), the
infinities among them.
-/

namespace ComplexExpr.Binary

open Float.Model (UnpackedFloat)

/-- A double that is a number, finite or infinite. -/
def IsNumber (x : Float) : Prop := x.toModel.unpack ≠ .notANumber

/-- A zero of either sign. -/
def IsZero (x : Float) : Prop := ∃ s, x.toModel.unpack = .zero s

variable {x y z : Float} {u : UnpackedFloat}

theorem isZero_zero : IsZero 0.0 := ⟨.positive, rfl⟩

theorem isNumber_of_isFinite (h : x.isFinite) : IsNumber x := by
  change x.toModel.unpack.isFinite at h
  intro hx
  rw [hx] at h
  cases h

theorem isNumber_infinity : IsNumber Decimal.infinity := by
  rw [IsNumber, unpack_infinity]
  exact nofun

theorem isNumber_toFloat {n : Numeral} (h : n.sign = none) : IsNumber n.toFloat := by
  obtain h | h := toFloat_of_unsigned h
  · exact isNumber_of_isFinite h
  · rw [h]
    exact isNumber_infinity

/-! ## Packing -/

/-- A double is packed from what it is taken apart into, with either sign. -/
theorem unpack_pack_unpack (x : Float) :
    (Float.Model.pack x.toModel.unpack).unpack = x.toModel.unpack ∧
      (Float.Model.pack x.toModel.unpack.neg).unpack = x.toModel.unpack.neg := by
  cases hx : x.toModel.unpack with
  | notANumber => exact ⟨rfl, rfl⟩
  | infinity s => exact ⟨unpack_pack_infinity s, unpack_pack_infinity (-s)⟩
  | zero s => exact ⟨unpack_pack_zero s, unpack_pack_zero (-s)⟩
  | finite s m e hm =>
    have hc := canonical_of_unpack hx
    exact ⟨unpack_pack hc s, unpack_pack hc (-s)⟩

theorem unpack_neg (x : Float) : (-x).toModel.unpack = x.toModel.unpack.neg :=
  (unpack_pack_unpack x).2

theorem IsNumber.neg (h : IsNumber x) : IsNumber (-x) := by
  rw [IsNumber, unpack_neg]
  intro hx
  cases hu : x.toModel.unpack with
  | notANumber => exact h hu
  | infinity s => rw [hu] at hx; cases hx
  | zero s => rw [hu] at hx; cases hx
  | finite s m e hm => rw [hu] at hx; cases hx

theorem IsZero.neg (h : IsZero x) : IsZero (-x) := by
  obtain ⟨s, hs⟩ := id h
  exact ⟨-s, by rw [unpack_neg, hs]; rfl⟩

/-! ## Equality -/

theorem IsZero.beq (hx : IsZero x) (hy : IsZero y) : (x == y) = true := by
  obtain ⟨s, hs⟩ := hx
  obtain ⟨t, ht⟩ := hy
  exact ((HasParts.zero hs).beq_eq_true_iff (.zero ht)).2 (.inl ⟨rfl, rfl⟩)

theorem IsNumber.beq_self (h : IsNumber x) : (x == x) = true := by
  by_cases hfin : x.isFinite
  · obtain ⟨s, m, e, hx⟩ := exists_hasParts hfin
    exact (hx.beq_eq_true_iff hx).2 (.inr ⟨rfl, rfl, rfl⟩)
  · have hbeq : (x == x) = (x.toModel.unpack.compare x.toModel.unpack == some .eq) := rfl
    rw [hbeq]
    change ¬x.toModel.unpack.isFinite at hfin
    cases hx : x.toModel.unpack with
    | notANumber => exact absurd hx h
    | infinity s => cases s <;> rfl
    | zero s => rw [hx] at hfin; exact absurd rfl hfin
    | finite s m e hm => rw [hx] at hfin; exact absurd rfl hfin

/-- What keeps infinities and finite numbers, and makes a zero of a zero, gives an equal number. -/
theorem beq_pack_of_keeps {f : UnpackedFloat → UnpackedFloat} (hx : IsNumber x)
    (hinfinity : ∀ s, f (.infinity s) = .infinity s) (hzero : ∀ s, ∃ t, f (.zero s) = .zero t)
    (hfinite : ∀ s m e h, f (.finite s m e h) = .finite s m e h) :
    (Float.ofModel (.pack (f x.toModel.unpack)) == x) = true := by
  have hself (hf : f x.toModel.unpack = x.toModel.unpack) :
      (Float.ofModel (.pack (f x.toModel.unpack)) == x) = true := by
    have heq : Float.ofModel (.pack (f x.toModel.unpack)) = x :=
      eq_of_unpack (by rw [hf]; exact (unpack_pack_unpack x).1)
    rw [heq]
    exact hx.beq_self
  cases hu : x.toModel.unpack with
  | notANumber => exact absurd hu hx
  | infinity s => rw [← hu]; exact hself (by rw [hu, hinfinity])
  | zero s =>
    obtain ⟨t, ht⟩ := hzero s
    rw [ht]
    exact IsZero.beq ⟨t, unpack_pack_zero t⟩ ⟨s, hu⟩
  | finite s m e hm => rw [← hu]; exact hself (by rw [hu, hfinite])

/-! ## Sums and differences -/

/-- The sum of two zeros is a zero. -/
theorem exists_zero_of_zeros (s t : UnpackedFloat.Sign) :
    ∃ r, UnpackedFloat.add .binary64 (.zero s) (.zero t) = .zero r := by
  cases s <;> cases t <;> exact ⟨_, rfl⟩

theorem sub_unpacked_eq (u v : UnpackedFloat) :
    UnpackedFloat.sub .binary64 u v = .add .binary64 u v.neg := by
  cases u with
  | notANumber => cases v <;> rfl
  | infinity s =>
    cases v with
    | infinity t => cases s <;> cases t <;> rfl
    | notANumber | zero t | finite t n k hn => rfl
  | zero s =>
    cases v with
    | zero t => cases s <;> cases t <;> rfl
    | notANumber | infinity t | finite t n k hn => rfl
  | finite s m e hm =>
    cases v with
    | notANumber | infinity t | zero t => rfl
    | finite t n k hn =>
      show UnpackedFloat.normalize .binary64 (_ - t.apply _) _ _ =
        UnpackedFloat.normalize .binary64 (_ + (-t).apply _) _ _
      cases t with
      | positive => rfl
      | negative =>
        show UnpackedFloat.normalize .binary64 (_ - -_) _ _ = _
        rw [sub_neg_eq_add]
        rfl

/-- A difference is the sum with the negation. -/
theorem sub_eq (x y : Float) : x - y = x + -y := by
  show Float.ofModel (.pack (.sub .binary64 x.toModel.unpack y.toModel.unpack)) =
    .ofModel (.pack (.add .binary64 x.toModel.unpack (-y).toModel.unpack))
  rw [sub_unpacked_eq, unpack_neg]

theorem add_zero_beq (hx : IsNumber x) (hz : IsZero z) : (x + z == x) = true := by
  obtain ⟨t, ht⟩ := hz
  show (Float.ofModel (.pack (.add .binary64 x.toModel.unpack z.toModel.unpack)) == x) = true
  rw [ht]
  exact beq_pack_of_keeps (f := (UnpackedFloat.add .binary64 · (.zero t))) hx (fun _ => rfl)
    (fun s => exists_zero_of_zeros s t) fun _ _ _ _ => rfl

theorem zero_add_beq (hx : IsNumber x) (hz : IsZero z) : (z + x == x) = true := by
  obtain ⟨t, ht⟩ := hz
  show (Float.ofModel (.pack (.add .binary64 z.toModel.unpack x.toModel.unpack)) == x) = true
  rw [ht]
  exact beq_pack_of_keeps (f := UnpackedFloat.add .binary64 (.zero t)) hx (fun _ => rfl)
    (fun s => exists_zero_of_zeros t s) fun _ _ _ _ => rfl

theorem sub_zero_beq (hx : IsNumber x) (hz : IsZero z) : (x - z == x) = true := by
  rw [sub_eq]
  exact add_zero_beq hx hz.neg

theorem zero_sub_beq (hx : IsNumber x) (hz : IsZero z) : (z - x == -x) = true := by
  rw [sub_eq]
  exact zero_add_beq hx.neg hz

end ComplexExpr.Binary
