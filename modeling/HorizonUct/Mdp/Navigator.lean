import HorizonUct.Failure

/-!
# Questions to a decision process

A Markov decision process may be far too large to be listed. It is met through
a navigator instead, which stands in one state at a time and answers questions
about that state: which choices there are, and where each of them may lead. A
question may stay unanswered. A move that fails may still leave the navigator
changed.
-/

namespace HorizonUct

/-- A navigator through states in `S`, with probabilities in `α`. -/
class Navigator (σ : Type) (S α : outParam Type) where
  /-- Whether there is one initial state and no other. -/
  hasOneStart : σ → Except (Failure α) Bool
  /-- The first initial state. -/
  start : σ → Except (Failure α) S
  /-- Move to a state, whichever state was current before. -/
  moveTo : S → σ → Except (Failure α) Unit × σ
  /-- How many choices the current state has. -/
  choiceCount : σ → Except (Failure α) Nat
  /-- The label of a choice. -/
  choiceLabel : σ → Nat → Except (Failure α) String
  /-- How many outcomes a choice has. -/
  outcomeCount : σ → Nat → Except (Failure α) Nat
  /-- How probable an outcome of a choice is. -/
  probability : σ → Nat → Nat → Except (Failure α) α
  /-- Where an outcome of a choice leads. -/
  target : σ → Nat → Nat → Except (Failure α) S

end HorizonUct
