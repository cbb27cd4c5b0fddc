import ComplexExpr.Proofs.Value.Accounts

/-!
# Lengths

The computed length of a vector is what is rounded from a number that is no less than the larger
part (`exists_rounded_scaledLength`). The root of the summed squares is a guess next to the exact
root (`exists_guess`). Corrected by what it leaves of the sum (`exists_correction`), a guess does
not fall short of the larger part but for the error of the sum (`le_corrected`), and what misses a
double by so little is not rounded below it (`exists_corrected`). A vector too small to be scaled is
divided by its larger part in place of that, and the root is at least one.
-/

namespace ComplexExpr

namespace Binary

variable {x : Float} {q r : ℚ} {e k : ℤ}

/-! ## Powers of two -/

/-- Bits without a sign taken apart. -/
theorem unpack_toUInt64 {n : ℕ} (hn : n < 2 ^ 63) :
    Float.Model.UnpackedFloat.unpack .binary64 n.toUInt64.toBitVec =
      ofFields .positive (n / 2 ^ 52 % 2 ^ 11) (n % 2 ^ 52) := by
  have hbits : n.toUInt64.toBitVec.toNat = n := Nat.mod_eq_of_lt (hn.trans (by decide))
  have hsign := isNegative_unpackSign n.toUInt64.toBitVec
  rw [hbits, decide_eq_false (not_le.2 hn)] at hsign
  rw [unpack_eq, hbits, isNegative_inj (t := .positive) hsign]

theorem hasValue_powerOfTwo (hlow : -1074 ≤ k) (hhigh : k ≤ 1023) :
    HasValue (powerOfTwo k) (2 ^ k) := by
  have hparts {n m : ℕ} {e : ℤ} (hn : n < 2 ^ 63) (hc : Canonical m e)
      (hfields : ofFields .positive (n / 2 ^ 52 % 2 ^ 11) (n % 2 ^ 52) =
        .finite .positive m e hc.pos) : HasValue (.ofBits n.toUInt64) (m * 2 ^ e) := by
    refine HasParts.hasValue (s := .positive) (.nonzero hc ?_)
    show (Float.Model.pack (Float.Model.UnpackedFloat.unpack .binary64 _)).unpack = _
    rw [unpack_toUInt64 hn, hfields, unpack_pack hc]
  unfold powerOfTwo
  by_cases hsmall : k < -1022
  · have hlt : 2 ^ (k + 1074).toNat < 2 ^ 52 := Nat.pow_lt_pow_right (by decide) (by omega)
    have hpos : 0 < 2 ^ (k + 1074).toNat := Nat.two_pow_pos _
    have hc : Canonical (2 ^ (k + 1074).toNat) (-1074) :=
      ⟨hpos, hlt.trans (by decide), by decide, by decide, .inl rfl⟩
    rw [if_pos hsmall]
    refine (hparts (n := 2 ^ (k + 1074).toNat) (hlt.trans (by decide)) hc ?_).of_eq ?_
    · rw [Nat.div_eq_of_lt hlt, Nat.mod_eq_of_lt hlt, Nat.zero_mod, ofFields, if_neg (by decide),
        if_pos rfl, dif_neg hpos.ne']
    · rw [Nat.cast_pow, Nat.cast_ofNat, two_pow_mul_zpow]
      congr 1
      omega
  · have hc : Canonical (2 ^ 52) (k - 52) :=
      ⟨by decide, by decide, by omega, by omega, .inr le_rfl⟩
    have hbits : (k + 1023).toNat * Nat.pow 2 52 = (k + 1023).toNat * 2 ^ 52 := rfl
    rw [if_neg hsmall, hbits]
    refine (hparts (n := (k + 1023).toNat * 2 ^ 52) (by omega) hc ?_).of_eq ?_
    · rw [Nat.mul_div_cancel _ (by decide), Nat.mul_mod_left, Nat.mod_eq_of_lt (by omega), ofFields,
        if_neg (by omega), if_neg (by omega)]
      exact finite_congr rfl (by omega)
    · rw [Nat.cast_pow, Nat.cast_ofNat, two_pow_mul_zpow]
      congr 1
      omega

theorem binaryExponent_bounds (hx : HasValue x q) (hq : 0 < q) :
    2 ^ (binaryExponent x - 1) ≤ q ∧ q < 2 ^ binaryExponent x ∧ binaryExponent x ≤ 1024 := by
  obtain ⟨s, m, e, hx, rfl⟩ := hx
  have hm : m ≠ 0 := by
    rintro rfl
    rw [signed_zero_mul] at hq
    exact lt_irrefl _ hq
  have hpow := two_zpow_pos e
  obtain rfl : s = .positive := by
    cases s with
    | positive => rfl
    | negative =>
      rw [signed] at hq
      have hnonneg : (0 : ℚ) ≤ m * 2 ^ e := mul_nonneg (Nat.cast_nonneg m) hpow.le
      linarith
  rw [signed]
  have hexponent : binaryExponent x = m.log2 + 1 + e := by
    rw [binaryExponent, hx.ofFloat_eq]
    show e + m.log2 + 1 = _
    ring
  have hlow : (2 ^ m.log2 : ℚ) ≤ m := by exact_mod_cast Nat.log2_self_le hm
  have hhigh : (m : ℚ) < 2 ^ (m.log2 + 1) := by exact_mod_cast Nat.lt_log2_self
  have hge : 2 ^ (binaryExponent x - 1) ≤ (m * 2 ^ e : ℚ) := by
    rw [hexponent, show (m.log2 + 1 + e - 1 : ℤ) = m.log2 + e by ring, ← two_pow_mul_zpow]
    exact mul_le_mul_of_nonneg_right hlow hpow.le
  refine ⟨hge, ?_, ?_⟩
  · rw [hexponent, zpow_add₀ two_ne_zero]
    exact mul_lt_mul_of_pos_right (by exact_mod_cast hhigh) hpow
  · have hlt := hge.trans_lt (hx.canonical hm).lt_two_zpow
    rw [zpow_lt_zpow_iff_right₀ one_lt_two] at hlt
    omega

/-! ## Roots -/

/-- A root that is not large is next to the exact one. -/
theorem Roots.near (h : Roots q r) (hq : 0 ≤ q) (hlt : q < 4) :
    |q - r * r| ≤ 2 ^ (-49 : ℤ) := by
  -- the root cut off after 52 places
  obtain ⟨c, hc⟩ : ∃ c, c = Nat.sqrt ⌊q * 2 ^ 104⌋₊ := ⟨_, rfl⟩
  have hfloor := Nat.floor_le (mul_nonneg hq (by positivity : (0 : ℚ) ≤ 2 ^ 104))
  have hfloor' := Nat.lt_floor_add_one (q * 2 ^ 104)
  have hle : (c * c : ℚ) ≤ q * 2 ^ 104 := by
    refine le_trans ?_ hfloor
    exact_mod_cast hc ▸ Nat.sqrt_le _
  have hgt : q * 2 ^ 104 < (c + 1 : ℚ) * (c + 1) := by
    have hsucc : (⌊q * 2 ^ 104⌋₊ : ℚ) + 1 ≤ (c + 1) * (c + 1) := by
      exact_mod_cast hc ▸ Nat.lt_succ_sqrt ⌊q * 2 ^ 104⌋₊
    linarith
  have hclt : (c : ℚ) < 2 ^ 53 := by
    refine lt_of_mul_self_lt_mul_self₀ (by positivity) ?_
    norm_num at hle ⊢
    linarith
  have hc0 : (0 : ℚ) ≤ c := Nat.cast_nonneg c
  have hc1 : c + 1 ≤ 2 ^ 53 := by exact_mod_cast hclt
  have hrepresentable {n : ℕ} (hn : n ≤ 2 ^ 53) : Representable (n * 2 ^ (-52 : ℤ)) :=
    ⟨n, -52, by decide, by rw [Nat.abs_cast]; omega, by norm_cast⟩
  have hlow := h.ge _ (hrepresentable (by omega : c ≤ 2 ^ 53)) (by norm_num at hle ⊢; linarith)
  have hhigh := h.le _ (hrepresentable hc1) (by positivity)
    (by push_cast; norm_num at hgt ⊢; linarith)
  have hlowsq := mul_self_le_mul_self (by positivity) hlow
  have hhighsq := mul_self_le_mul_self h.nonneg hhigh
  rw [abs_le]
  push_cast at hhighsq
  norm_num at hle hgt hlowsq hhighsq ⊢
  constructor <;> linarith

/-- A guess of a root, corrected by what it leaves of the square over twice itself, is no less than
the root. -/
theorem le_corrected {a q r d : ℚ} (hr : 1 / 4 ≤ r) (hq : a * a - d ≤ q) (hd : 0 ≤ d) :
    a - 2 * d ≤ r + (q - r * r) / (2 * r) := by
  have hpos : 0 < 2 * r := by linarith
  rw [← sub_le_iff_le_add', le_div_iff₀ hpos]
  nlinarith [mul_self_nonneg (a - r), mul_nonneg hd (sub_nonneg.2 hr)]

end Binary

open Binary

variable {x y m a b : Float} {s : Sum} {n : ℕ} {u v w p q T : ℚ} {e : ℤ}

/-! ## Scaling -/

/-- A double is scaled by its own power of two without rounding. -/
theorem representable_scaled (hu : Representable u) (hlow : 2 ^ (e - 1) ≤ u) (hhigh : u < 2 ^ e) :
    1 / 2 ≤ u * 2 ^ (-e) ∧ u * 2 ^ (-e) < 1 ∧ Representable (u * 2 ^ (-e)) := by
  have hpow := two_zpow_pos (-e)
  have hcancel (k : ℤ) : (2 : ℚ) ^ k * 2 ^ (-e) = 2 ^ (k - e) := by
    rw [← zpow_add₀ two_ne_zero, sub_eq_add_neg]
  have hle := mul_le_mul_of_nonneg_right hlow hpow.le
  have hlt := mul_lt_mul_of_pos_right hhigh hpow
  rw [hcancel, sub_sub_cancel_left] at hle
  rw [hcancel, sub_self, zpow_zero] at hlt
  have hgrid := (hu.onGrid (hlow.trans (le_abs_self u))).mul (.pow (le_refl (-e)))
  rw [show e - 1 - 52 + -e = -53 by ring] at hgrid
  have hhalf : (2 : ℚ) ^ (-1 : ℤ) = 1 / 2 := by norm_num
  rw [hhalf] at hle
  refine ⟨hle, hlt, hgrid.representable (by decide) ?_⟩
  rw [abs_of_nonneg (by linarith)]
  exact hlt.le

/-- What is not larger is scaled to what is not larger. -/
theorem exists_scaled (he : -1023 ≤ e) (he' : e ≤ 1024) (hu : Representable (u * 2 ^ (-e)))
    (hlt : u * 2 ^ (-e) < 1) (ha : HasValue a p) (hp : 0 ≤ p) (hpu : p ≤ u) :
    ∃ v, HasValue (a * powerOfTwo (-e)) v ∧ 0 ≤ v ∧ v < 1 ∧ (p = u → v = u * 2 ^ (-e)) := by
  have hpow := two_zpow_pos (-e)
  have hscale := hasValue_powerOfTwo (k := -e) (by omega) (by omega)
  obtain ⟨v, hv, hv0, hvu, hone⟩ := (rounded_mul ha hscale).exists_between hu
    (mul_nonneg hp hpow.le) (mul_le_mul_of_nonneg_right hpu hpow.le)
    (hlt.le.trans_eq (zpow_zero 2).symm) (by decide)
  refine ⟨v, hv, hv0, hvu.trans_lt hlt, ?_⟩
  rintro rfl
  exact hone rfl

/-! ## The computed root -/

/-- Two squares are summed but for a small error. -/
theorem exists_tracks (hx : HasValue x v) (hv0 : 0 ≤ v) (hv1 : v < 1) (hy : HasValue y w)
    (hw0 : 0 ≤ w) (hw1 : w < 1) :
    ∃ T q, ((({} : Sum).addSquare x).addSquare y).Tracks 6 T q ∧ 1 ≤ T ∧
      |q - (v * v + w * w)| ≤ 2 ^ (-99 : ℤ) := by
  obtain ⟨T₁, p, h₁, hT₁, hp⟩ :=
    Sum.tracks_start.addSquare (by decide) le_rfl (by norm_num) hx hv0 hv1
  simp only [zero_add] at h₁
  have hvv : v * v ≤ 1 := mul_le_one₀ hv1.le hv0 hv1.le
  rw [abs_le] at hp
  obtain ⟨T₂, q, h₂, hT₂, hq⟩ :=
    h₁.addSquare (by decide) hT₁ (by norm_num at hp; linarith) hy hw0 hw1
  refine ⟨T₂, p + q, h₂, hT₂, ?_⟩
  rw [abs_le] at hq ⊢
  norm_num at hp hq ⊢
  constructor <;> linarith

/-- The first guess is the root of a sum that is next to the tracked one. -/
theorem exists_guess (h : s.Tracks n T q) (hn : n ≤ 16) (hT : 1 / 2 ≤ T)
    (hlow : 1 / 4 - 2 ^ (-50 : ℤ) ≤ q) (hhigh : q ≤ 17 / 8) :
    ∃ r, HasValue s.value.sqrt r ∧ 3 / 8 ≤ r ∧ r ≤ 3 / 2 ∧ |q - r * r| ≤ 2 ^ (-47 : ℤ) := by
  obtain ⟨q', V, hV, hround, hnear, -⟩ := h.value hn hT
  rw [abs_le] at hnear
  have hq' : |q'| ≤ 2 ^ (2 : ℤ) := by
    rw [abs_le]
    norm_num at hnear hlow ⊢
    constructor <;> linarith
  have herror : |q' - V| ≤ 2 ^ (-52 : ℤ) := hround.error_le hq' (by decide) (by decide)
  rw [abs_le] at herror
  have hVlow : 9 / 64 ≤ V := by
    norm_num at hnear hlow herror ⊢
    linarith
  have hVhigh : V ≤ 9 / 4 := by
    norm_num at hnear herror ⊢
    linarith
  obtain ⟨r, hr, hroots⟩ := exists_root hV (by linarith)
  have hroot := hroots.near (by linarith) (by linarith)
  have hthree {k : ℤ} (hk : -1074 ≤ k) : Representable (3 * 2 ^ k) :=
    ⟨3, k, hk, by decide, by norm_cast⟩
  have hge : 3 * 2 ^ (-3 : ℤ) ≤ r := hroots.ge _ (hthree (by decide)) (by norm_num; exact hVlow)
  have hle : r ≤ 3 * 2 ^ (-1 : ℤ) :=
    hroots.le _ (hthree (by decide)) (by norm_num) (by norm_num; exact hVhigh)
  norm_num at hge hle
  refine ⟨r, hr, hge, hle, ?_⟩
  rw [abs_le] at hroot ⊢
  norm_num at hnear herror hroot ⊢
  constructor <;> linarith

/-- What the guess leaves of the tracked sum, divided by twice the guess. -/
theorem exists_correction (h : s.Tracks n T q) (hn : n ≤ 13) (hx : HasValue x v)
    (hlow : 3 / 8 ≤ v) (hhigh : v ≤ 3 / 2) (hclose : |q - v * v| ≤ 2 ^ (-47 : ℤ)) :
    ∃ c, HasValue ((s.subSquare x).value / (2.0 * x)) c ∧ |c| ≤ 2 ^ (-45 : ℤ) ∧
      |(q - v * v) / (2 * v) - c| ≤ 2 ^ (-87 : ℤ) := by
  obtain ⟨T', htracks, hT'⟩ := h.subSquare hn hx (by linarith) (by linarith)
    (hclose.trans (two_zpow_le (by decide)))
  obtain ⟨d', d, hd, hround, hnear, -⟩ := htracks.value (by omega) hT'
  have hd' : |d'| ≤ 2 ^ (-46 : ℤ) := by
    have htriangle := abs_add_le (d' - (q - v * v)) (q - v * v)
    rw [sub_add_cancel] at htriangle
    norm_num at hnear hclose ⊢
    linarith
  have herror : |d' - d| ≤ 2 ^ (-100 : ℤ) := hround.error_le hd' (by decide) (by decide)
  have hdle := hround.magnitude_le (.pow (by decide)) hd'
  have hdouble : HasValue (2.0 * x) (2 * v) := by
    refine (rounded_mul hasValue_two hx).exact hx.representable.double (k := 2) ?_ (by decide)
    rw [abs_of_nonneg (by linarith)]
    norm_num
    linarith
  have hpos : 0 < 2 * v := by linarith
  have hquotient {z : ℚ} {k : ℤ} (hz : |z| ≤ 2 ^ k) : |z / (2 * v)| ≤ 2 ^ (k + 1) := by
    have hpow := two_zpow_pos k
    rw [abs_div, abs_of_pos hpos, div_le_iff₀ hpos, two_zpow_halves rfl]
    nlinarith
  obtain ⟨c, hc, hroundc, hcle⟩ :=
    (rounded_div hd hdouble hpos.ne').exists_rounds_le (hquotient hdle) (by decide)
  have herrorc : |d / (2 * v) - c| ≤ 2 ^ (-99 : ℤ) :=
    hroundc.error_le (hquotient hdle) (by decide) (by decide)
  have hlost : |(q - v * v - d) / (2 * v)| ≤ 2 ^ (-88 : ℤ) := by
    refine hquotient (k := -89) ?_
    rw [abs_le] at herror hnear ⊢
    norm_num at herror hnear ⊢
    constructor <;> linarith
  refine ⟨c, hc, hcle, ?_⟩
  rw [sub_div] at hlost
  rw [abs_le] at herrorc hlost ⊢
  norm_num at herrorc hlost ⊢
  constructor <;> linarith

/-- The root of a tracked sum after its correction falls short of no double that the exact root
does not fall short of. -/
theorem exists_corrected (h : s.Tracks n T q) (hn : n ≤ 13) (hT : 1 / 2 ≤ T)
    (hu : Representable u) (hlow : 1 / 2 ≤ u) (hq : u * u - 2 ^ (-98 : ℤ) ≤ q)
    (hq2 : q ≤ 17 / 8) :
    ∃ r, HasValue (s.value.sqrt + (s.subSquare s.value.sqrt).value / (2.0 * s.value.sqrt)) r ∧
      u ≤ r := by
  have hsq : 1 / 2 * (1 / 2) ≤ u * u := mul_self_le_mul_self (by norm_num) hlow
  obtain ⟨r, hr, hrlow, hrhigh, hclose⟩ :=
    exists_guess h (by omega) hT (by norm_num at hq ⊢; linarith) hq2
  obtain ⟨c, hc, hcle, herror⟩ := exists_correction h hn hr hrlow hrhigh hclose
  have hcorrected := le_corrected (r := r) (by linarith) hq (two_zpow_pos _).le
  have hsum : |r + c| ≤ 2 ^ (2 : ℤ) := by
    rw [abs_le] at hcle ⊢
    norm_num at hcle ⊢
    constructor <;> linarith
  obtain ⟨t, ht, hround⟩ := (rounded_add hr hc).exists_rounds hsum (by decide)
  refine ⟨t, ht, hround.ge_of_lt (k := -1) hu (by norm_num; linarith) ?_⟩
  rw [abs_le] at herror
  generalize (q - r * r) / (2 * r) = z at hcorrected herror
  norm_num at herror hcorrected ⊢
  linarith

/-! ## Lengths -/

theorem le_sq_add_sq (hu : 0 ≤ u) (h : v = u ∨ w = u) : u * u ≤ v * v + w * w := by
  rcases h with rfl | rfl
  · linarith [mul_self_nonneg w]
  · linarith [mul_self_nonneg v]

/-- The length of a vector whose larger part has a power of two that is a double. -/
theorem scaledLength_of_large (hm : HasValue m u) (hu : 0 < u)
    (he : -1023 ≤ binaryExponent m) (ha : HasValue a p) (hp : 0 ≤ p) (hpu : p ≤ u)
    (hb : HasValue b q) (hq : 0 ≤ q) (hqu : q ≤ u) (hone : p = u ∨ q = u) :
    ∃ t, Rounded (scaledLength m a b) t ∧ u ≤ t := by
  obtain ⟨hlow, hhigh, he'⟩ := binaryExponent_bounds hm hu
  rw [scaledLength, if_neg (not_lt.2 he)]
  generalize binaryExponent m = e at *
  obtain ⟨hhalf, hlt, hrep⟩ := representable_scaled hm.representable hlow hhigh
  obtain ⟨v, hv, hv0, hv1, hvu⟩ := exists_scaled he he' hrep hlt ha hp hpu
  obtain ⟨w, hw, hw0, hw1, hwu⟩ := exists_scaled he he' hrep hlt hb hq hqu
  obtain ⟨T, z, htracks, hT, hz⟩ := exists_tracks hv hv0 hv1 hw hw0 hw1
  generalize hc : u * 2 ^ (-e) = c at hhalf hrep hvu hwu
  have hsum := le_sq_add_sq (by linarith) (hone.imp hvu hwu)
  have hv2 : v * v ≤ 1 := mul_le_one₀ hv1.le hv0 hv1.le
  have hw2 : w * w ≤ 1 := mul_le_one₀ hw1.le hw0 hw1.le
  rw [abs_le] at hz
  obtain ⟨r, hr, hle⟩ := exists_corrected htracks (by decide) (by linarith) hrep hhalf
    (by norm_num at hz ⊢; linarith) (by norm_num at hz ⊢; linarith)
  have hscale : HasValue (powerOfTwo (-e)) (2 ^ (-e)) :=
    hasValue_powerOfTwo (by omega) (by omega)
  refine ⟨_, rounded_div hr hscale (two_zpow_pos _).ne', ?_⟩
  rwa [le_div_iff₀ (two_zpow_pos _), hc]

/-- Two numbers one of which is one have a root of their summed squares that is no less. -/
theorem exists_root_of_quotients (hx : HasValue x v) (hv0 : 0 ≤ v) (hv1 : v ≤ 1)
    (hy : HasValue y w) (hw0 : 0 ≤ w) (hw1 : w ≤ 1) (hone : v = 1 ∨ w = 1) :
    ∃ r, HasValue ((({} : Sum).addFirst (x * x)).addFirst (y * y)).value.sqrt r ∧ 1 ≤ r := by
  have hrep : Representable 1 := HasValue.one.representable
  have hsq {z : Float} {c : ℚ} (hz : HasValue z c) (hc0 : 0 ≤ c) (hc1 : c ≤ 1) :
      ∃ d, HasValue (z * z) d ∧ 0 ≤ d ∧ d ≤ 1 ∧ (c = 1 → d = 1) := by
    obtain ⟨d, hd, hd0, hd1, hone⟩ := (rounded_mul hz hz).exists_between hrep
      (mul_nonneg hc0 hc0) (mul_le_one₀ hc1 hc0 hc1) (zpow_zero 2).ge (by decide)
    refine ⟨d, hd, hd0, hd1, ?_⟩
    rintro rfl
    exact hone (mul_one 1)
  obtain ⟨P, hP, hP0, hP1, hPone⟩ := hsq hx hv0 hv1
  obtain ⟨Q, hQ, hQ0, hQ1, hQone⟩ := hsq hy hw0 hw1
  have hone' := hone.imp hPone hQone
  obtain ⟨T₁, hround₁, h₁⟩ := Sum.tracks_start.addFirst (by decide) hP
    (by rwa [abs_one, abs_of_nonneg hP0]) (by rw [abs_of_nonneg (by linarith)]; norm_num; linarith)
  have hT₁ : 1 ≤ T₁ := hround₁.ge hrep (by linarith)
  have hT₁' : T₁ ≤ 2 ^ (1 : ℤ) := hround₁.le (.pow (by decide)) (by norm_num; linarith)
  rw [zpow_one] at hT₁'
  obtain ⟨T₂, hround₂, h₂⟩ := h₁.addFirst (by decide) hQ
    (by rw [abs_of_nonneg hQ0, abs_of_nonneg (by linarith)]; linarith)
    (by rw [abs_of_nonneg (by linarith)]; norm_num; linarith)
  have hT₂ : 1 ≤ T₂ := hround₂.ge hrep (by linarith)
  obtain ⟨z, V, hV, hround, hnear, -⟩ := h₂.value (by decide) (by linarith)
  have hsum : 1 ≤ P + Q := by rcases hone' with h | h <;> linarith
  have hV1 : 1 ≤ V := by
    refine hround.ge_of_lt (k := 0) hrep (by norm_num) ?_
    rw [abs_le] at hnear
    norm_num at hnear ⊢
    linarith
  obtain ⟨r, hr, hroots⟩ := exists_root hV (by linarith)
  exact ⟨r, hr, hroots.ge _ hrep (by linarith)⟩

/-- The length of a vector that is too small to be scaled. -/
theorem scaledLength_of_small (hm : HasValue m u) (hu : 0 < u)
    (he : binaryExponent m < -1023) (ha : HasValue a p) (hp : 0 ≤ p) (hpu : p ≤ u)
    (hb : HasValue b q) (hq : 0 ≤ q) (hqu : q ≤ u) (hone : p = u ∨ q = u) :
    ∃ t, Rounded (scaledLength m a b) t ∧ u ≤ t := by
  have hquotient {c : Float} {z : ℚ} (hc : HasValue c z) (hz : 0 ≤ z) (hzu : z ≤ u) :
      ∃ v, HasValue (c / m) v ∧ 0 ≤ v ∧ v ≤ 1 ∧ (z = u → v = 1) := by
    obtain ⟨v, hv, hv0, hv1, hone⟩ := (rounded_div hc hm hu.ne').exists_between
      HasValue.one.representable (div_nonneg hz hu.le) ((div_le_one hu).2 hzu) (zpow_zero 2).ge
      (by decide)
    refine ⟨v, hv, hv0, hv1, ?_⟩
    rintro rfl
    exact hone (div_self hu.ne')
  obtain ⟨v, hv, hv0, hv1, hvu⟩ := hquotient ha hp hpu
  obtain ⟨w, hw, hw0, hw1, hwu⟩ := hquotient hb hq hqu
  obtain ⟨r, hr, hle⟩ := exists_root_of_quotients hv hv0 hv1 hw hw0 hw1 (hone.imp hvu hwu)
  rw [scaledLength, if_pos he]
  exact ⟨_, rounded_mul hm hr, le_mul_of_one_le_right hu.le hle⟩

/-- What the length is rounded from is no less than the larger part. -/
theorem exists_rounded_scaledLength (hm : HasValue m u) (hu : 0 < u) (ha : HasValue a p)
    (hp : 0 ≤ p) (hpu : p ≤ u) (hb : HasValue b q) (hq : 0 ≤ q) (hqu : q ≤ u) (hone : p = u ∨ q = u) :
    ∃ t, Rounded (scaledLength m a b) t ∧ u ≤ t := by
  rcases lt_or_ge (binaryExponent m) (-1023) with he | he
  · exact scaledLength_of_small hm hu he ha hp hpu hb hq hqu hone
  · exact scaledLength_of_large hm hu he ha hp hpu hb hq hqu hone

end ComplexExpr
