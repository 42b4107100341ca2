import HorizonUct.Failure

/-!
# Files as texts

The text of a file is decoded, and what comes of it has to pass a check.
-/

namespace HorizonUct.Text

variable {α β : Type}

/-- The text of a file, which must exist and be encoded in UTF-8. -/
def ofFile (bytes : Option ByteArray) : Except (Failure α) String :=
  match bytes.bind String.fromUTF8? with
  | some text => .ok text
  | none => .error .unreadable

/-- What a text is decoded to, which must be possible, and pass a check. -/
def accept (decode : String → Option β) (check : β → Except (Failure α) Unit) (text : String) :
    Except (Failure α) β :=
  match decode text with
  | none => .error .malformedDocument
  | some value =>
    match check value with
    | .ok () => .ok value
    | .error failure => .error failure

/-- What is accepted has passed the check, whatever it was decoded by. -/
theorem check_of_accept {decode : String → Option β} {check : β → Except (Failure α) Unit}
    {text : String} {value : β} (accepted : accept decode check text = .ok value) :
    check value = .ok () := by
  unfold accept at accepted
  split at accepted
  · cases accepted
  · split at accepted
    · next checked =>
      cases accepted
      exact checked
    · cases accepted

end HorizonUct.Text
