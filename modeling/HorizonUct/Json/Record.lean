import HorizonUct.Json.Value

/-!
# Records in JSON documents

A record with named fields is written either as an object or as an array of
its fields in order. In an object unknown members are passed over and a known
one occurs at most once; in an array later fields may be missing and nothing
may follow the last field.
-/

namespace HorizonUct.Json

/-- The values given for the fields of a record, one entry per name. -/
def fields? (names : List String) : Json → Option (List (Option Json))
  | .array items =>
    if items.length ≤ names.length then
      some (items.map some ++ List.replicate (names.length - items.length) none)
    else none
  | .object members =>
    let given (name : String) := members.filter fun (key, _) => key == some name
    if members.any (·.1.isNone) || names.any fun name => (given name).length > 1 then none
    else some (names.map fun name => (given name).head?.map (·.2))
  | _ => none

/-- The value of a field that must be given. -/
def required? {β : Type} (value : Json → Option β) (given : Option Json) : Option β :=
  given.bind value

/-- The value of a field that has a default. -/
def defaulted? {β : Type} (otherwise : β) (value : Json → Option β) : Option Json → Option β
  | none => some otherwise
  | some j => value j

end HorizonUct.Json
