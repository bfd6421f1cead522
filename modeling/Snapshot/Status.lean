import Snapshot.Path.Basic

/-!
# Status lines

While it runs, an export says what it does, a line at a time: a verb, set flush right, and a
message. How talkative it is decides which of the lines are shown. Lines about single files and
directories are details.
-/

namespace Snapshot

inductive Verbosity where
  | quiet
  | normal
  | verbose
deriving DecidableEq, Repr

/-- What an export says about itself. -/
inductive Status where
  | usingVersion (version : Int64)
  | creatingDestination (path : Path)
  | creatingDirectory (path : Path)
  | removing (path : Path)
  | exporting (path : Path)
  | skipped (path : Path)
  | missingRoot (root : Path)
  | failed
  | done (written empty : Nat)
deriving DecidableEq

inductive Colour where
  | red
  | green
  | yellow
deriving DecidableEq, Repr

def Colour.digit : Colour → Char
  | .red => '1'
  | .green => '2'
  | .yellow => '3'

namespace Status

def verb : Status → String
  | usingVersion _ => "Using"
  | creatingDestination _ => "Creating"
  | creatingDirectory _ => "Creating"
  | removing _ => "Removing"
  | exporting _ => "Exporting"
  | skipped _ => "Skipped"
  | missingRoot _ => "Warning"
  | failed => "Failed"
  | done _ _ => "Done"

def message : Status → String
  | usingVersion version =>
      let number := version.toInt
      s!"version {number}"
  | creatingDestination path => path.text
  | creatingDirectory path => path.text
  | removing path => path.text
  | exporting path => path.text
  | skipped path => path.text
  | missingRoot root => s!"Cannot export {root}: does not exist"
  | failed => ""
  | done written empty => s!"{written} file(s) exported, {empty} empty after filtering"

def colour : Status → Colour
  | usingVersion _ => .yellow
  | creatingDestination _ => .yellow
  | creatingDirectory _ => .yellow
  | removing _ => .yellow
  | exporting _ => .green
  | skipped _ => .yellow
  | missingRoot _ => .yellow
  | failed => .red
  | done _ _ => .green

/-- Whether only a verbose export says it. -/
def isDetail : Status → Bool
  | creatingDirectory _ => true
  | removing _ => true
  | exporting _ => true
  | skipped _ => true
  | _ => false

def verbWidth : Nat := 12

def paddedVerb (status : Status) : String :=
  String.ofList (List.replicate (verbWidth - status.verb.length) ' ') ++ status.verb

def line (status : Status) : String :=
  status.paddedVerb ++ " " ++ status.message ++ "\n"

/-- The line for a terminal, with the verb bold and in its colour. -/
def colouredLine (status : Status) : String :=
  let reset := "\x1b[0m"
  let bold := "\x1b[1m"
  let colour := "\x1b[3" ++ String.singleton status.colour.digit ++ "m"
  reset ++ reset ++ bold ++ colour ++ status.paddedVerb ++ reset ++ " " ++ status.message ++ "\n"

end Status

def Verbosity.shows : Verbosity → Status → Bool
  | .quiet, _ => false
  | .normal, status => !status.isDetail
  | .verbose, _ => true

end Snapshot
