import Snapshot.Path.Basic
import Snapshot.Text.Blank
import Snapshot.Text.Lines
import Snapshot.Text.Utf8

/-!
# Asking before overwriting

The question that is put to the user, and which answers count as yes. Whatever is not a clear yes,
be it the end of the input or bytes that are no text, is a no.
-/

namespace Snapshot.Consent

def question (destination : Path) : String :=
  s!"{destination} already exists. Overwrite? (y/n) "

/-- Whether the first line of the input says yes: the letter `y`, small or capital, and blanks. -/
def isGiven (input : List UInt8) : Bool :=
  match (Text.lines 0x0A input).head?.bind Utf8.text? with
  | some answer => Text.trim answer = ['y'] || Text.trim answer = ['Y']
  | none => false

end Snapshot.Consent
