import HorizonUct.Scalar

/-!
# Doubles to compute with

A search in doubles can be followed in every detail but one: the format leaves
open how far a logarithm is rounded. The logarithms of small counts are all that
the searches ask for that are followed here. They are listed to the last digit,
and where these doubles are opened, they are the ones to compute with.
-/

namespace HorizonUct.Doubles

/-- The logarithms of the counts up to seven, and nought for anything else. -/
def ln (x : Float) : Float :=
  if x == 2 then 0.6931471805599453 else if x == 3 then 1.0986122886681098
  else if x == 4 then 1.3862943611198906 else if x == 5 then 1.6094379124341003
  else if x == 6 then 1.791759469228055 else if x == 7 then 1.9459101490553132 else 0

/-- Doubles with these logarithms. -/
scoped instance listed : Scalar Float := .binary64 ln

end HorizonUct.Doubles
