import HfMount.Encryption.Path
import HfMount.Poll.Follow

/-!
# Listing a directory of the remote

An outgoing path gets the mount prefix and is encrypted below `.enc`; a
listing is filtered, decrypted and freed from the mount prefix again.  The
server is a parameter: what it answers to the request for a remote path.
-/

namespace HfMount.Hub

open SlashPath Poll Encryption

inductive Error where
  | hub (message : String) (status : Option Nat)
  | other
  deriving DecidableEq

/-- `ENC_ROOT`: the directory of the encrypted objects. -/
def encRoot : Path := ['.', 'e', 'n', 'c']

/-- What `HubApiClient` knows about paths. -/
structure HubApiClient where
  pathPrefix : Path
  pathCipher : Option Hctr2

structure RemotePath where
  path : Path
  encrypted : Bool

def RemotePath.isEmpty (remote : RemotePath) : Bool := remote.path.isEmpty

/-- The messages of `PathError`. -/
def pathErrorMessage : PathError → String
  | .invalidName => "invalid file name"
  | .nameTooLong => "file name too long once encrypted"

variable (client : HubApiClient)

/-- The bucket-absolute path. -/
def joined (path : Path) : Path :=
  if client.pathPrefix.isEmpty then path
  else if path.isEmpty then client.pathPrefix
  else client.pathPrefix ++ '/' :: path

/-- `none` is a panic of the cipher. -/
def prefixedPath (path : Path) : Option (Except Error RemotePath) :=
  match client.pathCipher with
  | some cipher =>
      match encryptPath cipher (joined client path) with
      | none => none
      | some (.error error) =>
          some (.error (.hub ("encrypt path: " ++ pathErrorMessage error) none))
      | some (.ok encrypted) =>
          some (.ok
            { path :=
                if encrypted.isEmpty then encRoot
                else encRoot ++ '/' :: encrypted
              encrypted := true })
  | none => some (.ok { path := joined client path, encrypted := false })

/-- The stored path of an entry below `.enc`. -/
def storedPath (path : Path) : Option Path :=
  (path.dropPrefix? encRoot).bind (·.dropPrefix? ['/'])

def decryptListing (entries : List TreeEntry) : List TreeEntry :=
  match client.pathCipher with
  | none => entries
  | some cipher =>
      entries.filterMap fun entry =>
        ((storedPath entry.path).bind (decryptPath cipher)).map fun plain =>
          { entry with path := plain }

def stripPathPrefix (full : Path) : Option Path :=
  if client.pathPrefix.isEmpty then some full
  else if full = client.pathPrefix then some []
  else strictDescendantRel full client.pathPrefix

/-- The entry without the mount prefix; the prefix itself is left out. -/
def stripEntry (entry : TreeEntry) : Option TreeEntry :=
  match stripPathPrefix client entry.path with
  | some stripped =>
      if stripped.isEmpty then none else some { entry with path := stripped }
  | none => none

/-- A missing `.enc` is an empty root. -/
def mapMissingRoot (dir : Path) (result : Except Error (List TreeEntry)) :
    Except Error (List TreeEntry) :=
  match result with
  | .error (.hub message (some 404)) =>
      if client.pathCipher.isSome && dir.isEmpty &&
          client.pathPrefix.isEmpty then .ok []
      else .error (.hub message (some 404))
  | other => other

/-- Only what lies strictly below the listed path. -/
def retainBelow (api : RemotePath) (entries : List TreeEntry) :
    List TreeEntry :=
  if api.isEmpty then entries
  else entries.filter fun entry =>
    (strictDescendantRel entry.path api.path).isSome

/-- What becomes of the server's listing. -/
def viewListing (api : RemotePath) (entries : List TreeEntry) :
    List TreeEntry :=
  let plain := decryptListing client (retainBelow api entries)
  if client.pathPrefix.isEmpty then plain
  else plain.filterMap (stripEntry client)

def listTree (server : RemotePath → Except Error (List TreeEntry))
    (dir : Path) : Option (Except Error (List TreeEntry)) :=
  (prefixedPath client dir).map fun prefixed => do
    let api ← prefixed
    let entries ← mapMissingRoot client dir (server api)
    .ok (viewListing client api entries)

end HfMount.Hub
