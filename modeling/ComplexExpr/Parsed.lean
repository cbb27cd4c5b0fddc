/-!
# Results of reading off the front

What a reader takes off the front of a list, with what it leaves (`Parsed`).
The proof that less is left than a bound lets a loop over readers end.
-/

namespace ComplexExpr

/-- A result read off the front of a list, with fewer than `bound` elements left. -/
structure Parsed (τ α : Type) (bound : Nat) where
  result : α
  rest : List τ
  rest_lt : rest.length < bound

namespace Parsed

variable {τ α β γ : Type} {m n : Nat}

def widen (h : m ≤ n) (p : Parsed τ α m) : Parsed τ α n :=
  ⟨p.result, p.rest, Nat.lt_of_lt_of_le p.rest_lt h⟩

def map (f : α → β) (p : Parsed τ α n) : Parsed τ β n := ⟨f p.result, p.rest, p.rest_lt⟩

/-- The result of a second reader on what the first left, joined to that of the first. -/
def followedBy (f : α → β → γ) (p : Parsed τ α n) (q : Parsed τ β p.rest.length) :
    Parsed τ γ n :=
  ⟨f p.result q.result, q.rest, Nat.lt_trans q.rest_lt p.rest_lt⟩

end Parsed

end ComplexExpr
