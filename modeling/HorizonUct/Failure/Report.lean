import HorizonUct.Decimal.Layout
import HorizonUct.Failure

/-!
# Reports of failures

One text per cause. Numbers in reports are positional shortest decimals.
-/

namespace HorizonUct

/-- A double in a report. -/
def reported (x : Float) : String := Decimal.plain.render x

/-- The text of an unanswered question. -/
def NavigationFault.report : NavigationFault → String
  | .nowhere => "no state has been explored"
  | .unknownState state count => s!"state {state} out of range ({count} states)"
  | .unknownStart state count => s!"initial state {state} out of range ({count} states)"
  | .unknownTarget state action target =>
    s!"state {state} action '{action}' targets unknown state {target}"
  | .unknownChoice choice available =>
    s!"decision {choice} out of range ({available} available)"
  | .unknownOutcome outcome action available =>
    s!"outcome {outcome} of action '{action}' out of range ({available} available)"
  | .stateless node => s!"chance node #{node} has no parent"
  | .chanceRoot => "tree root is not a decision node"
  | .other text => text

/-- The text of a cause of a failed reward. -/
def RewardFault.report : RewardFault → String
  | .undefinedConstant name => s!"undefined constant '{name}'"
  | .other text => text

/-- The text of a cause of a refused setting. -/
def SettingFault.report : SettingFault Float → String
  | .horizon => "depth must be positive"
  | .budget => "iterations must be positive"
  | .tolerance value =>
    s!"probability tolerance must be a positive number, got {reported value}"
  | .bias value => s!"fixed bias must be finite, got {reported value}"
  | .unknownBias text => s!"unknown bias policy '{text}'"
  | .noDraws => "sequence source needs at least one value"
  | .other text => text

/-- The text of a failure. -/
def Failure.report : Failure Float → String
  | .ambiguousStart => "UCT requires a single initial state"
  | .navigation fault => "Exploration error: " ++ fault.report
  | .notADistribution node sum =>
    s!"Malformed distribution at node {node}: outcome probabilities sum to {reported sum}"
  | .reward fault => "Reward error: " ++ fault.report
  | .setting fault => "Invalid config: " ++ fault.report
  | .unreadable => "IO error: the file cannot be read as text"
  | .malformedDocument => "JSON error: the document is malformed"
  | .missingEntry index => s!"no entry with index {index}"
  | .endlessWalk => "the walk does not end"

end HorizonUct
