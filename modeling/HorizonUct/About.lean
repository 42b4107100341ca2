/-!
# The program's own name
-/

namespace HorizonUct.About

/-- The name under which the program is called. -/
def name : String := "uct_mdp"

/-- The version of the program. -/
def version : String := "0.1.0"

/-- What the program is for. -/
def description : String :=
  "Bounded-horizon UCT Monte-Carlo tree search for estimating optimal expected cumulative " ++
    "reward in Markov decision processes"

end HorizonUct.About
