/-!
# Interactions

A computation that may ask questions on its way (`Interaction`). An answer is a
text, or `none` once there are no more. `Interaction.answer` hands out given
answers and lists the questions that were asked.
-/

namespace ComplexExpr

universe u

inductive Interaction (α : Type u) : Type u
  | done (result : α)
  | ask (question : String) (next : Option String → Interaction α)

namespace Interaction

variable {α β : Type u}

def bind (i : Interaction α) (f : α → Interaction β) : Interaction β :=
  match i with
  | done a => f a
  | ask q k => ask q fun a => (k a).bind f

instance : Monad Interaction where
  pure := done
  bind := bind

/-- The result and the questions asked, when the answers are handed out in order. -/
def answer : Interaction α → List String → α × List String
  | done a, _ => (a, [])
  | ask q k, answers =>
    let (a, qs) := (k answers.head?).answer answers.tail
    (a, q :: qs)

end Interaction

end ComplexExpr
