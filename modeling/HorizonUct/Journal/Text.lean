import HorizonUct.Decimal.Fixed
import HorizonUct.Failure.Report
import HorizonUct.Journal
import HorizonUct.Settings.Text

/-!
# Journals as text

One line per event: its level and what happened.
-/

namespace HorizonUct

/-- How important an event is. -/
def Event.level {α : Type} : Event α → String
  | .searchBegun _ | .timeUsedUp _ _ | .searchEnded _ _ | .appraised _ _ _ => "INFO"
  | .drawBeyond _ _ _ => "WARN"
  | .actionFollowed _ _ _ _ | .chainUnrolled _ _ => "DEBUG"
  | .rolloutMade _ _ _ _ | .deadlockMet _ => "TRACE"

/-- What an event tells. -/
def Event.text : Event Float → String
  | .searchBegun settings => "🌳 UCT search started: " ++ settings.line
  | .timeUsedUp limit rollouts =>
    s!"⏱️ Time limit of {limit}ms reached after {rollouts} rollouts"
  | .rolloutMade index bias total steps =>
    s!"Rollout {index}: bias {Decimal.fixed 4 bias}, return {Decimal.fixed 4 total}, {steps} steps"
  | .deadlockMet node => s!"Deadlock at node #{node}, rollout cut short"
  | .drawBeyond node draw sum =>
    s!"Outcome sampling at node #{node} fell through (draw {reported draw}, " ++
      s!"sum {reported sum}); using last outcome"
  | .searchEnded estimate rollouts =>
    s!"✅ UCT search finished: estimate {Decimal.fixed 6 estimate} after {rollouts} rollouts"
  | .actionFollowed before label mean visits =>
    s!"Best action at depth {before}: {label} (mean {Decimal.fixed 4 mean}, {visits} visits)"
  | .chainUnrolled states transitions =>
    s!"Induced chain: {states} states, {transitions} transitions"
  | .appraised estimate value states =>
    s!"estimate {Decimal.fixed 6 estimate}, induced chain value {Decimal.fixed 6 value} " ++
      s!"({states} states)"

/-- The line of an event. -/
def Event.line (event : Event Float) : String := event.level ++ " " ++ event.text

end HorizonUct
