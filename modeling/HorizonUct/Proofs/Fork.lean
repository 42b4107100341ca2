import HorizonUct.Mdp.Table
import HorizonUct.Planner
import HorizonUct.Proofs.Exact
import HorizonUct.Proofs.Rollout.History
import Mathlib.Algebra.Order.Field.Rat

/-!
# A small process that forks

From the first state a toss leads to either of two others with equal odds. One
of these is a deadlock, and from the other the only action leads out of the
table. A search that looks two actions ahead never sees it; a rollout that is
to take more breaks off there. Arithmetic is exact, and since no state leaves
a choice, neither logarithm nor root matters.
-/

namespace HorizonUct.Fork

/-- Rationals, which are not rounded. -/
instance : Scalar ℚ := Scalar.exact (fun x => x) fun x => x

/-- The table of the process. -/
def table : Mdp ℚ where
  starts := [0]
  states := #[[⟨"toss", [⟨1 / 2, 1⟩, ⟨1 / 2, 2⟩]⟩], [⟨"stray", [⟨1, 3⟩]⟩], []]

/-- An action earns more in a later state. -/
def reward (state : Nat) (_ : String) : Except (Failure ℚ) ℚ := .ok (state + 1)

/-- Draws that lead to either side in turn. -/
def draws : Replay ℚ := ⟨#[1 / 4, 3 / 4, 1 / 2], 0, by decide⟩

/-- Two actions ahead, four times. -/
def settings : Settings ℚ where
  horizon := 2
  budget := 4
  bias := .rootMean
  seed := none
  tolerance := 1 / 1000
  timeLimit := none

/-- A planner for the process. -/
def planner : Planner (Cursor ℚ) (Replay ℚ) Nat ℚ := ⟨.ofMdp table, reward, draws, settings, []⟩

/-- A planner for the process that looks four actions ahead. -/
def farsighted : Except (Failure ℚ) (Planner (Cursor ℚ) (Replay ℚ) Nat ℚ) :=
  Planner.create (.ofMdp table) reward draws { settings with horizon := 4 }

/-- A rollout of two actions from the root, which is made. -/
def short : Except (Failure ℚ) (Rollout ℚ) × Progress (Cursor ℚ) (Replay ℚ) Nat ℚ :=
  (planner.progress (.ofRoot 0)).rollout planner.rules 0 2 0

/-- After it a rollout of four actions, which breaks off outside the table. -/
def long : Except (Failure ℚ) (Rollout ℚ) × Progress (Cursor ℚ) (Replay ℚ) Nat ℚ :=
  short.2.rollout planner.rules 0 4 0

/-- After both a rollout of one action, which starts there and is made. -/
def side : Except (Failure ℚ) (Rollout ℚ) × Progress (Cursor ℚ) (Replay ℚ) Nat ℚ :=
  long.2.rollout planner.rules 4 1 0

/-- The three of them grow a tree, all with cursors of the table. -/
theorem grown_short_long_side : Tree.Grown (fun cursor : Cursor ℚ => cursor.mdp = table) 0
    [short.1, long.1, side.1] side.2.tree := by
  have once : Tree.Grown (fun cursor : Cursor ℚ => cursor.mdp = table) 0 ([] ++ [short.1])
      short.2.tree := .rolled (planner.progress (.ofRoot 0)) planner.rules 0 2 0 .planted rfl
  have twice : Tree.Grown (fun cursor : Cursor ℚ => cursor.mdp = table) 0 ([short.1] ++ [long.1])
      long.2.tree := .rolled short.2 planner.rules 0 4 0 once (by decide +kernel)
  exact .rolled long.2 planner.rules 4 1 0 twice (by decide +kernel)

end HorizonUct.Fork
