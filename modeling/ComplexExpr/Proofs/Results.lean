/-!
# Results that may be errors

A computation that goes on with what a first one gives succeeds only if the first one does
(`ok_of_bind`, `ok_of_map`), and fails with the error of one of the two (`error_of_bind`); one that
only changes the result fails with the first one's error (`error_of_map`), and one that only
changes the error succeeds with the first one's result (`mapError_eq_ok`) and fails if the first
one does (`error_of_mapError`). One for each item of a list succeeds for all if it does for each
(`exists_mapM_iff`). Whether a closed one succeeds can be decided (`exists_ok_of_isSome`), and as
an option it is what it succeeds with (`toOption_eq_some_iff`).
Computations made in the same way of such as give the same value, or errors that correspond, do so
themselves (`SameUpTo`).
-/

namespace ComplexExpr

variable {ε α β : Type} {b : β}

theorem ok_of_bind {x : Except ε α} {f : α → Except ε β} (h : (x >>= f) = .ok b) :
    ∃ a, x = .ok a ∧ f a = .ok b := by
  cases x with
  | error e => cases h
  | ok a => exact ⟨a, rfl, h⟩

theorem ok_of_map {x : Except ε α} {f : α → β} (h : x.map f = .ok b) :
    ∃ a, x = .ok a ∧ f a = b := by
  cases x with
  | error e => cases h
  | ok a => cases h; exact ⟨a, rfl, rfl⟩

theorem exists_ok_of_isSome {x : Except ε α} (h : x.toOption.isSome) : ∃ a, x = .ok a := by
  cases x with
  | error e => cases h
  | ok a => exact ⟨a, rfl⟩

theorem toOption_eq_some_iff {x : Except ε α} {a : α} : x.toOption = some a ↔ x = .ok a := by
  cases x with
  | error e => exact ⟨nofun, nofun⟩
  | ok a' => exact ⟨fun h => by cases h; rfl, fun h => by cases h; rfl⟩

theorem exists_mapM_iff {f : α → Except ε β} {as : List α} :
    (∃ bs, as.mapM f = .ok bs) ↔ ∀ a ∈ as, ∃ b, f a = .ok b := by
  induction as with
  | nil => exact ⟨fun _ => List.forall_mem_nil _, fun _ => ⟨[], rfl⟩⟩
  | cons a as ih =>
    rw [List.mapM_cons, List.forall_mem_cons, ← ih]
    constructor
    · rintro ⟨bs, h⟩
      obtain ⟨b, hb, h⟩ := ok_of_bind h
      obtain ⟨bs, hbs, -⟩ := ok_of_bind h
      exact ⟨⟨b, hb⟩, bs, hbs⟩
    · rintro ⟨⟨b, hb⟩, bs, hbs⟩
      rw [hb, hbs]
      exact ⟨b :: bs, rfl⟩

theorem error_of_bind {x : Except ε α} {f : α → Except ε β} {e : ε} (h : (x >>= f) = .error e) :
    x = .error e ∨ ∃ a, x = .ok a ∧ f a = .error e := by
  cases x with
  | error e' => cases h; exact .inl rfl
  | ok a => exact .inr ⟨a, rfl, h⟩

theorem mapError_eq_ok {ε' : Type} {x : Except ε α} {f : ε → ε'} {a : α} :
    x.mapError f = .ok a ↔ x = .ok a := by
  cases x with
  | error e => exact ⟨nofun, nofun⟩
  | ok a' => exact ⟨fun h => by cases h; rfl, fun h => by cases h; rfl⟩

theorem error_of_mapError {ε' : Type} {x : Except ε α} {f : ε → ε'} {e : ε'}
    (h : x.mapError f = .error e) : ∃ e₀, x = .error e₀ ∧ f e₀ = e := by
  cases x with
  | error e₀ => cases h; exact ⟨e₀, rfl, rfl⟩
  | ok a => cases h

theorem error_of_map {x : Except ε α} {f : α → β} {e : ε} (h : x.map f = .error e) :
    x = .error e := by
  cases x with
  | error e' => cases h; rfl
  | ok a => cases h

/-! ## Results that correspond -/

/-- Two results are the same value, or errors that correspond. -/
inductive SameUpTo (R : ε → ε → Prop) : Except ε α → Except ε α → Prop
  | ok (a : α) : SameUpTo R (.ok a) (.ok a)
  | error {e e' : ε} (h : R e e') : SameUpTo R (.error e) (.error e')

namespace SameUpTo

variable {R : ε → ε → Prop} {x x' : Except ε α}

theorem refl (hR : ∀ e, R e e) (x : Except ε α) : SameUpTo R x x := by
  cases x with
  | error e => exact .error (hR e)
  | ok a => exact .ok a

theorem bind {f f' : α → Except ε β} (hx : SameUpTo R x x') (hf : ∀ a, SameUpTo R (f a) (f' a)) :
    SameUpTo R (x >>= f) (x' >>= f') := by
  cases hx with
  | ok a => exact hf a
  | error h => exact .error h

theorem map (f : α → β) (hx : SameUpTo R x x') : SameUpTo R (x.map f) (x'.map f) := by
  cases hx with
  | ok a => exact .ok (f a)
  | error h => exact .error h

theorem ok_iff (hx : SameUpTo R x x') (a : α) : x = .ok a ↔ x' = .ok a := by
  cases hx with
  | ok a' => exact .rfl
  | error h => exact ⟨nofun, nofun⟩

theorem exists_error {e : ε} (hx : SameUpTo R x x') (h : x = .error e) :
    ∃ e', x' = .error e' ∧ R e e' := by
  cases hx with
  | ok a => cases h
  | error hR => cases h; exact ⟨_, rfl, hR⟩

end SameUpTo

end ComplexExpr
