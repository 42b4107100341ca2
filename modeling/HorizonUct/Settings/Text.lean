import HorizonUct.Decimal.Layout
import HorizonUct.Decimal.Numeral
import HorizonUct.Settings
import HorizonUct.Text.Blank

/-!
# Settings as texts

A bias is given on one line as the name of the root mean or as a number, and
the settings of a run are summed up on one line.
-/

namespace HorizonUct

/-- The text of a bias. -/
def Bias.text : Bias Float → String
  | .rootMean => "root-mean"
  | .fixed weight => Decimal.plain.render weight

/-- Read a bias from a text, blanks around it aside. -/
def Bias.ofText (text : String) : Except (Failure Float) (Bias Float) :=
  let name := Text.trim text
  if name == "root-mean" || name == "root_mean" then .ok .rootMean
  else match Decimal.read? name with
    | some weight => .ok (.fixed weight)
    | none => .error (.setting (.unknownBias name))

/-- The line that sums up the settings of a run. -/
def Settings.line (settings : Settings Float) : String :=
  s!"depth[{settings.horizon}]_iter[{settings.budget}]_bias[{settings.bias.text}]_tol[" ++
    Decimal.scientific.render settings.tolerance ++ "]"

end HorizonUct
