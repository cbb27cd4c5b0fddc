import ComplexExpr.Proofs.Json.RoundTrip
import ComplexExpr.Proofs.Results
import ComplexExpr.Proofs.Table

/-!
# What is read can be written

The readers give nothing that cannot be written and read back: two surrogates
that make a pair are read as the one character (`separate_of_stringRest`), and
a whole number that is too long is refused (`storable_of_scalar`). So an object
without containers in it, once it has been read, is read back whenever it is
written (`storable_of_read`).
-/

namespace ComplexExpr.Json

variable {α : Type} {c : Char} {cs : List Char} {s : WideText} {v : Json}

/-- A value that holds no other values. -/
def IsScalar : Json → Bool
  | .list _ | .object _ => false
  | _ => true

theorem Storable.isScalar (h : Storable v) : v.IsScalar := by cases h <;> rfl

/-! ## Texts -/

theorem isHigh_ofUnit {n : ℕ} (h : (CodePoint.ofUnit n).IsHigh) : 0xD800 ≤ n ∧ n < 0xDC00 := by
  unfold CodePoint.ofUnit at h
  split at h
  next hn =>
    replace h : n - 0xD800 < 0x400 := h
    omega
  next => exact h.elim

theorem isLow_ofUnit {n : ℕ} (h : (CodePoint.ofUnit n).IsLow) : 0xDC00 ≤ n ∧ n < 0xE000 := by
  unfold CodePoint.ofUnit at h
  split at h
  next hn =>
    replace h : 0x400 ≤ n - 0xD800 := h
    omega
  next => exact h.elim

/-- Four digits give a character, or a unit that makes no pair with what follows it. -/
theorem unicodeEscape_cases {p : Parsed Char CodePoint cs.length} (h : unicodeEscape cs = .ok p) :
    (∃ c, p.result = .char c) ∨ ∃ a b c d n, cs = a :: b :: c :: d :: p.rest ∧
      hex4? a b c d = some n ∧ p.result = .ofUnit n ∧
      (0xD800 ≤ n ∧ n < 0xDC00 → lowSurrogate? p.rest = none) := by
  unfold unicodeEscape at h
  split at h
  next a b c d rest =>
    split at h
    next => cases h
    next n hn =>
      split at h
      next => cases h; exact .inl ⟨_, rfl⟩
      next hnone =>
        cases h
        refine .inr ⟨a, b, c, d, n, rfl, hn, rfl, fun hhigh => ?_⟩
        rwa [if_pos hhigh] at hnone
  next => cases h

/-- What follows a backslash gives a character, unless it is a unit. -/
theorem escape_cases {p : Parsed Char CodePoint cs.length} (h : escape cs = .ok p) :
    (∃ c, p.result = .char c) ∨ ∃ a b c d n, cs = 'u' :: a :: b :: c :: d :: p.rest ∧
      hex4? a b c d = some n ∧ p.result = .ofUnit n ∧
      (0xD800 ≤ n ∧ n < 0xDC00 → lowSurrogate? p.rest = none) := by
  unfold escape at h
  split at h
  next => cases h
  next c rest =>
    split at h
    next hc =>
      obtain ⟨q, hq, rfl⟩ := ok_of_map h
      obtain hchar | ⟨a, b, c, d, n, hrest, hunit⟩ := unicodeEscape_cases hq
      · exact .inl hchar
      · exact .inr ⟨a, b, c, d, n, by rw [hc]; exact congrArg (List.cons 'u') hrest, hunit⟩
    next =>
      split at h
      next => cases h; exact .inl ⟨_, rfl⟩
      next => cases h

/-- A high surrogate is read only where no low one follows it. -/
theorem lowSurrogate?_of_escape {p : Parsed Char CodePoint cs.length} (h : escape cs = .ok p)
    (hp : p.result.IsHigh) : lowSurrogate? p.rest = none := by
  obtain ⟨c, hc⟩ | ⟨a, b, c, d, n, -, -, hunit, hnone⟩ := escape_cases h
  · rw [hc] at hp
    exact hp.elim
  · rw [hunit] at hp
    exact hnone (isHigh_ofUnit hp)

/-- A low surrogate is read where one is written. -/
theorem isSome_of_escape {p : Parsed Char CodePoint cs.length} (h : escape cs = .ok p)
    (hp : p.result.IsLow) : (lowSurrogate? ('\\' :: cs)).isSome := by
  obtain ⟨c, hc⟩ | ⟨a, b, c, d, n, hcs, hn, hunit, -⟩ := escape_cases h
  · rw [hc] at hp
    exact hp.elim
  · rw [hunit] at hp
    rw [hcs, lowSurrogate?, hn]
    dsimp only [bind, Option.bind]
    rw [if_pos (isLow_ofUnit hp)]
    rfl

/-- A text that opens with a low surrogate is read where one is written. -/
theorem isSome_of_stringRest {p : Parsed Char WideText cs.length} (h : stringRest cs = .ok p)
    {q : CodePoint} (hq : q ∈ p.result.head?) (hlow : q.IsLow) : (lowSurrogate? cs).isSome := by
  cases cs with
  | nil => rw [stringRest] at h; cases h
  | cons c cs =>
    rw [stringRest] at h
    split at h
    next => cases h; cases hq
    next =>
      split at h
      next hslash =>
        subst hslash
        obtain ⟨d, hd, h⟩ := ok_of_bind h
        obtain ⟨ds, -, h⟩ := ok_of_bind h
        cases h
        cases hq
        exact isSome_of_escape hd hlow
      next =>
        split at h
        next => cases h
        next =>
          obtain ⟨ds, -, h⟩ := ok_of_bind h
          cases h
          cases hq
          exact hlow.elim

/-- No text that is read holds a pair of surrogates. -/
theorem separate_of_stringRest {p : Parsed Char WideText cs.length} (h : stringRest cs = .ok p) :
    p.result.Separate := by
  induction cs using stringRest.induct with
  | case1 => rw [stringRest] at h; cases h
  | case2 rest =>
    rw [stringRest, if_pos rfl] at h
    cases h
    exact .nil
  | case3 rest hne ih =>
    rw [stringRest, if_neg hne, if_pos rfl] at h
    obtain ⟨d, hd, h⟩ := ok_of_bind h
    obtain ⟨ds, hds, h⟩ := ok_of_bind h
    cases h
    refine List.isChain_cons.2 ⟨fun q hq hpair => ?_, ih d hds⟩
    have hnone := lowSurrogate?_of_escape hd hpair.1
    have hsome := isSome_of_stringRest hds hq hpair.2
    rw [hnone] at hsome
    cases hsome
  | case4 c rest hquote hslash hlt =>
    rw [stringRest, if_neg hquote, if_neg hslash, if_pos hlt] at h
    cases h
  | case5 c rest hquote hslash hlt ih =>
    rw [stringRest, if_neg hquote, if_neg hslash, if_neg hlt] at h
    obtain ⟨ds, hds, h⟩ := ok_of_bind h
    cases h
    exact List.isChain_cons.2 ⟨fun q hq hpair => hpair.1, ih hds⟩

/-! ## Words and numbers -/

theorem ofDigits_lt {ds : List Char} (h : Digits ds) : Decimal.ofDigits ds < 10 ^ ds.length := by
  induction ds using List.reverseRecOn with
  | nil => decide
  | append_singleton ds c ih =>
    obtain ⟨hds, hc⟩ := List.forall_mem_append.1 h
    have hlt := ih hds
    have hdigit : c.toNat ≤ 57 := by
      have hd := hc c (List.mem_singleton_self c)
      unfold Char.isDigit at hd
      rw [Bool.and_eq_true, decide_eq_true_eq, decide_eq_true_eq] at hd
      exact UInt32.le_iff_toNat_le.1 hd.2
    rw [Decimal.ofDigits_append_singleton, List.length_append, List.length_singleton, pow_succ]
    omega

/-- So many digits make no number that is too long, with or without a minus sign. -/
theorem natAbs_lt_of_digits {ds : List Char} (hd : Digits ds) (hlen : ds.length ≤ digitLimit)
    (minus : Prop) [Decidable minus] :
    (if minus then -(Decimal.ofDigits ds : ℤ) else Decimal.ofDigits ds).natAbs <
      10 ^ digitLimit := by
  have hlt := (ofDigits_lt hd).trans_le (Nat.pow_le_pow_right (by decide) hlen)
  split
  · rwa [Int.natAbs_neg]
  · exact hlt

theorem digits_scanWhole (cs : List Char) : Digits (scanWhole cs).1 := by
  unfold scanWhole
  split
  · exact List.forall_mem_singleton.2 (by decide)
  · exact digits_takeWhile cs

theorem digits_of_number? {n : Numeral} {rest : List Char} (h : number? cs = some (n, rest)) :
    Digits n.whole := by
  unfold number? at h
  dsimp only at h
  split at h
  · cases h
  · cases h
    exact digits_scanWhole _

theorem storable_of_ofNumeral {n : Numeral} (hd : Digits n.whole) (h : ofNumeral n = .ok v) :
    Storable v := by
  unfold ofNumeral at h
  split at h
  · split at h
    · cases h
    next hlen =>
      cases h
      exact .int (natAbs_lt_of_digits hd (Nat.le_of_not_lt hlen) _)
  · cases h
    exact .real _

theorem storable_of_word? {rest : List Char} (h : word? cs = some (v, rest)) : Storable v := by
  obtain ⟨⟨w, u⟩, hmem, hw⟩ := List.exists_of_findSome?_eq_some h
  have hwords : ∀ e ∈ words, Storable e.2 := by
    simp [words, Storable.null, Storable.bool, Storable.real]
  dsimp only at hw
  split at hw
  · cases hw
    exact hwords (w, v) hmem
  · cases hw

/-- Every word and every number that is read can be written. -/
theorem storable_of_scalar {p : Parsed Char Json cs.length} (h : scalar cs = .ok p) :
    Storable p.result := by
  unfold scalar at h
  split at h
  next v rest hword =>
    split at h
    · cases h
      exact storable_of_word? hword
    · cases h
  next =>
    split at h
    next n rest hnumber =>
      split at h
      · obtain ⟨v, hv, rfl⟩ := ok_of_map h
        exact storable_of_ofNumeral (digits_of_number? hnumber) hv
      · cases h
    next => cases h

/-! ## Values and their containers -/

theorem storable_of_valueWith {inner : Option (Reader Json)} {p : Parsed Char Json cs.length}
    (h : valueWith inner cs = .ok p) (hp : p.result.IsScalar) : Storable p.result := by
  unfold valueWith at h
  split at h
  · cases h
  · split at h
    · obtain ⟨q, hq, rfl⟩ := ok_of_map h
      exact .text (separate_of_stringRest hq)
    · split at h
      · split at h
        · cases h
        · obtain ⟨q, -, rfl⟩ := ok_of_map h
          cases hp
      · split at h
        · split at h
          · cases h
          · obtain ⟨q, -, rfl⟩ := ok_of_map h
            cases hp
        · exact storable_of_scalar h

section

variable {item : Reader α} {close : Char} {P : α → Prop}

theorem forall_of_separated (hitem : ∀ cs p, item cs = .ok p → P p.result)
    {p : Parsed Char (List α) cs.length} (h : separated close item cs = .ok p) :
    ∀ a ∈ p.result, P a := by
  induction cs using separated.induct (α := α) with
  | case1 cs ih =>
    rw [separated] at h
    obtain ⟨first, hfirst, h⟩ := ok_of_bind h
    have ha := hitem cs first hfirst
    split at h
    next => cases h
    next c rest hr =>
      split at h
      · cases h
        exact List.forall_mem_singleton.2 ha
      · split at h
        · obtain ⟨others, hothers, h⟩ := ok_of_bind h
          cases h
          exact List.forall_mem_cons.2 ⟨ha, ih first c rest hr hothers⟩
        · cases h

theorem forall_of_container (hitem : ∀ cs p, item cs = .ok p → P p.result)
    {p : Parsed Char (List α) cs.length} (h : container close item cs = .ok p) :
    ∀ a ∈ p.result, P a := by
  unfold container at h
  split at h
  · cases h
  · split at h
    · cases h
      exact List.forall_mem_nil _
    · obtain ⟨q, hq, rfl⟩ := ok_of_map h
      show ∀ a ∈ q.result, P a
      exact forall_of_separated hitem hq

end

theorem storable_of_member {inner : Option (Reader Json)}
    {p : Parsed Char (WideText × Json) cs.length} (h : member (valueWith inner) cs = .ok p) :
    p.result.1.Separate ∧ (p.result.2.IsScalar → Storable p.result.2) := by
  unfold member at h
  split at h
  · cases h
  · split at h
    · obtain ⟨key, hkey, h⟩ := ok_of_bind h
      split at h
      · cases h
      · split at h
        · obtain ⟨v, hv, h⟩ := ok_of_bind h
          cases h
          exact ⟨separate_of_stringRest hkey, storable_of_valueWith hv⟩
        · cases h
    · cases h

theorem exists_members_of_object {value : Reader Json} {p : Parsed Char Json cs.length}
    {ms : List (WideText × Json)} (h : valueWith (some value) cs = .ok p)
    (hp : p.result = .object ms) :
    ∃ cs' q, container '}' (member value) cs' = .ok q ∧ ms = (Table.ofList q.result).entries := by
  unfold valueWith at h
  split at h
  · cases h
  next c cs =>
    split at h
    · obtain ⟨q, -, rfl⟩ := ok_of_map h
      cases hp
    · split at h
      · obtain ⟨q, -, rfl⟩ := ok_of_map h
        cases hp
      · split at h
        · obtain ⟨q, hq, rfl⟩ := ok_of_map h
          cases hp
          exact ⟨cs, q, hq, rfl⟩
        · have hscalar := storable_of_scalar h
          rw [hp] at hscalar
          cases hscalar

/-- The members of an object that is read have distinct keys, and those that hold no container can
be written. -/
theorem storable_of_read {text : String} {ms : List (WideText × Json)}
    (h : read text = .ok (.object ms)) :
    Table.Distinct ms ∧ ∀ m ∈ ms, m.1.Separate ∧ (m.2.IsScalar → Storable m.2) := by
  unfold read at h
  obtain ⟨p, hp, h⟩ := ok_of_bind h
  split at h
  next =>
    injection h with hresult
    obtain ⟨cs, q, hq, rfl⟩ := exists_members_of_object hp hresult
    have hmembers : ∀ m ∈ q.result, m.1.Separate ∧ (m.2.IsScalar → Storable m.2) :=
      forall_of_container (fun _ _ => storable_of_member) hq
    have hempty : ∀ m ∈ (Table.empty : Table WideText Json).entries,
        m.1.Separate ∧ (m.2.IsScalar → Storable m.2) := List.forall_mem_nil _
    exact ⟨Table.distinct _, Table.forall_mem_update (P := WideText.Separate)
      (Q := fun v : Json => v.IsScalar → Storable v) hempty hmembers⟩
  next => cases h

end ComplexExpr.Json
