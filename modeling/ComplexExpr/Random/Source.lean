/-!
# Sources of numbers

A source hands out doubles from zero to below one, one after the other
(`Source.next`); `Source.drop` is the source after some of them. `Replay`
hands out a fixed row of numbers again and again.
-/

namespace ComplexExpr

class Source (σ : Type) where
  /-- The next number, and the source after it. -/
  next : σ → Float × σ

namespace Source

variable {σ : Type} [Source σ]

/-- The source after `n` numbers. -/
def drop : Nat → σ → σ
  | 0, s => s
  | n + 1, s => drop n (next s).2

/-- The number after `n` others. -/
def nth (s : σ) (n : Nat) : Float := (next (drop n s)).1

/-- A number from `low` to `high`. -/
def uniform (low high : Float) (s : σ) : Float × σ :=
  let (d, s) := next s
  (low + (high - low) * d, s)

theorem drop_add (m n : Nat) (s : σ) : drop (m + n) s = drop n (drop m s) := by
  induction m generalizing s with
  | zero => rw [Nat.zero_add]; rfl
  | succ m ih => rw [Nat.succ_add]; exact ih _

end Source

/-- A row of numbers that starts over at its end. -/
structure Replay where
  draws : Array Float
  position : Nat := 0

instance : Source Replay :=
  ⟨fun s =>
    (s.draws[s.position % s.draws.size]?.getD 0.0, { s with position := s.position + 1 })⟩

end ComplexExpr
