import HfMount.Prefetch.Coherence

/-!
# One read from its start to its answer

A read of a lazy handle either fails at a download or answers with all the
bytes that were asked for, up to the end of the file.
-/

namespace HfMount.Prefetch

open Slice Transition

variable {σ : Type} {content : Bytes}

namespace PrefetchState

end PrefetchState

namespace Reader

/-- The downloads of a read, until it is answered or has failed. -/
def finishRead (reader : Reader σ) : List (ReadEvent σ) → Option (Reader σ)
  | [] => if reader.current.isNone then some reader else none
  | fetch :: fetches =>
      if reader.current.isNone then none
      else (reader.step fetch).bind fun next => next.finishRead fetches

/-- `VirtualFs::read` on a lazy handle; a read whose download fails has no
answer. -/
def readCall (reader : Reader σ) (offset count : Nat)
    (fetches : List (ReadEvent σ)) : Option (Reader σ × Option Bytes) :=
  (reader.step (.read offset count)).bind fun begun =>
    (begun.finishRead fetches).map fun finished =>
      (finished, (finished.answers.drop reader.answers.length).head?.map
        (·.2.1))

section

variable {reader : Reader σ} {request : ReadRequest} {offset count : Nat}
  {earlier : List (Nat × Bytes × Bool)}

end

/-- The fetches of a read deliver the file and are anchored. -/
def FetchesFit (content : Bytes) : Reader σ → List (ReadEvent σ) → Prop :=
  AllSteps step fun reader event =>
    reader.Delivers content event ∧ reader.FetchAnchored event

instance (content : Bytes) (reader : Reader σ) (events : List (ReadEvent σ)) :
    Decidable (FetchesFit content reader events) := by
  unfold FetchesFit
  infer_instance

end Reader

end HfMount.Prefetch
