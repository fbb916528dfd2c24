import HfMount.Lib.PercentCode
import HfMount.Lib.TextSearch

/-!
# The files of a daemon

The PID file and the log file of a daemon are named after its mount point, and
`list_daemons` reads the mount point back from the name of a PID file that does
not tell it.
-/

namespace HfMount.Daemon

open Text PercentCode

/-- `str::replace` of one character. -/
def replace (mark : Char) (other text : List Char) : List Char :=
  text.flatMap fun c => if c = mark then other else [c]

/-- An absolute path without a slash at its end. -/
def Canonical (path : List Char) : Prop := path = '/' :: trimMatches '/' path

/-! ## The code of a path -/

end HfMount.Daemon
