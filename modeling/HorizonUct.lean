import HorizonUct.Main
import HorizonUct.Proofs.Mdp.Earnings
import HorizonUct.Proofs.Planner.Balance
import HorizonUct.Proofs.Planner.Extremes
import HorizonUct.Proofs.Planner.FixedPolicy
import HorizonUct.Proofs.Planner.Incentives
import HorizonUct.Proofs.Planner.Locality
import HorizonUct.Proofs.Planner.Optimum
import HorizonUct.Proofs.Planner.Safety
import HorizonUct.Proofs.Planner.Steady
import HorizonUct.Proofs.Planner.Units
import HorizonUct.Proofs.Policy.Agreement
import HorizonUct.Proofs.Policy.Expectation
import HorizonUct.Proofs.Policy.Greed
import HorizonUct.Proofs.Policy.Stochastic
import HorizonUct.Proofs.Policy.Table
import HorizonUct.Proofs.Rollout.Additions
import HorizonUct.Proofs.Rollout.Returns
import HorizonUct.Proofs.Rollout.Termination
import HorizonUct.Proofs.Tree.Neutral
import HorizonUct.Proofs.Tree.Possible
import HorizonUct.Proofs.Tree.Rooted
import HorizonUct.Tree.Summary
import HorizonUct.Proofs.Policy.Expectation
import HorizonUct.Proofs.Policy.Table
