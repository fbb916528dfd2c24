import HfMount.Nfs.Adapter

/-!
# What an open handle is bound to

A handle to a file on disk is bound to the staging file, a lazy handle to the
object of a hash.  The steps below keep a handle bound; an update from the
remote and a truncation of a file that is read lazily do not.
-/

namespace HfMount.Nfs

open Inode Flush Prefetch Slice StagingCache

variable {σ : Type}

/-- What the handle serves is what the inode stands for. -/
def Bound (store : ContentStore) (file : StagedFile) : OpenFile σ → Prop
  | .localFile _ staged _ => file.staging = some staged ∧
      (file.entry.isDirty = true ∨ file.entry.stagingIsCurrent = true)
  | .lazy _ hash reader => file.entry.dirtyGeneration = 0 ∧
      file.entry.xetHash.getD [] = hash ∧
      ∀ content, StagingFormat.plaintext.remoteObject store hash =
        some content → reader.Sound content

def OpenFile.isLocal : OpenFile σ → Bool
  | .localFile _ _ _ => true
  | .lazy _ _ _ => false

section

variable {store : ContentStore} {before after : StagedFile}

theorem placeFile_staging {staged : Nat} (isStaged : before.staging = some staged)
    (content : Bytes) :
    (before.placeFile false content).staging = before.staging := by
  unfold StagedFile.placeFile
  rw [isStaged]

/-- The operation that a step belongs to. -/
def opId : FileEvent → Option Nat
  | .openStart id _ | .openEnter id | .openFill id _ | .openMark id
  | .openDone id _ | .setattr id _ | .setattrEnter id | .setattrApply id _
  | .pwrite id _ _ _ | .writeDone id => some id
  | .gcOne | .flushLock | .flushSnapshot | .uploadOk _ | .uploadFail
  | .flushUnlock | .flushUnchanged _ | .hubOk | .hubFail | .applyCommit _ =>
      none

/-- The operations that a step does not belong to are as they were. -/
def OthersKept (before after : StagedFile) (id : Nat) : Prop :=
  ∀ other, other ≠ id → after.op other = before.op other

theorem othersKept_setOp (file : StagedFile) (id : Nat)
    (next : Option FileOp) : OthersKept file (file.setOp id next) id :=
  fun _ distinct => Function.update_of_ne distinct _ _

theorem othersKept_placed (file : StagedFile) (replaced : Bool)
    (content : Bytes) (id : Nat) (next : Option FileOp) :
    OthersKept file ((file.placeFile replaced content).setOp id next) id := by
  intro other distinct
  rw [placed_op]
  exact Function.update_of_ne distinct _ _

theorem othersKept_step {event : FileEvent} {id : Nat}
    (mine : opId event = some id)
    (stepped : before.step store event = some after) :
    OthersKept before after id := by
  cases event with
  | openStart =>
      cases mine
      simp only [StagedFile.step, StagedFile.openStart] at stepped
      split at stepped
      · obtain rfl := Option.some.inj stepped
        exact othersKept_setOp _ _ _
      · cases stepped
  | openEnter =>
      cases mine
      simp only [StagedFile.step, StagedFile.openEnter] at stepped
      split at stepped
      · split at stepped <;> obtain rfl := Option.some.inj stepped <;>
          exact othersKept_setOp _ _ _
      · cases stepped
  | openFill =>
      cases mine
      simp only [StagedFile.step, StagedFile.openFill] at stepped
      split at stepped
      · split at stepped
        · split at stepped <;> obtain rfl := Option.some.inj stepped
          · exact othersKept_placed _ _ _ _ _
          · exact othersKept_setOp _ _ _
        · obtain rfl := Option.some.inj stepped
          exact othersKept_placed _ _ _ _ _
      · cases stepped
  | openMark =>
      cases mine
      simp only [StagedFile.step, StagedFile.openMark] at stepped
      split at stepped
      · obtain rfl := Option.some.inj stepped
        exact othersKept_setOp _ _ _
      · cases stepped
  | openDone =>
      cases mine
      simp only [StagedFile.step, StagedFile.openDone] at stepped
      split at stepped
      · obtain rfl := Option.some.inj stepped
        exact othersKept_setOp _ _ _
      · obtain rfl := Option.some.inj stepped
        exact othersKept_setOp _ _ _
      · cases stepped
  | setattr =>
      cases mine
      simp only [StagedFile.step, StagedFile.setattr] at stepped
      split at stepped
      · obtain rfl := Option.some.inj stepped
        exact othersKept_setOp _ _ _
      · cases stepped
  | setattrEnter =>
      cases mine
      simp only [StagedFile.step, StagedFile.setattrEnter] at stepped
      split at stepped
      · split at stepped
        · obtain rfl := Option.some.inj stepped
          exact othersKept_setOp _ _ _
        split at stepped
        · split at stepped <;> obtain rfl := Option.some.inj stepped
          · exact othersKept_placed _ _ _ _ _
          · exact othersKept_setOp _ _ _
        · obtain rfl := Option.some.inj stepped
          exact othersKept_placed _ _ _ _ _
      · cases stepped
  | setattrApply =>
      cases mine
      simp only [StagedFile.step, StagedFile.setattrApply] at stepped
      split at stepped
      · obtain rfl := Option.some.inj stepped
        exact othersKept_placed _ _ _ _ _
      · obtain rfl := Option.some.inj stepped
        exact othersKept_setOp _ _ _
      · cases stepped
  | pwrite =>
      cases mine
      simp only [StagedFile.step, StagedFile.pwrite] at stepped
      split at stepped
      · split at stepped
        · obtain rfl := Option.some.inj stepped
          exact othersKept_setOp _ _ _
        · cases stepped
      · cases stepped
  | writeDone =>
      cases mine
      simp only [StagedFile.step, StagedFile.writeDone] at stepped
      split at stepped
      · obtain rfl := Option.some.inj stepped
        exact othersKept_setOp _ _ _
      · cases stepped
  | _ => cases mine

end

end HfMount.Nfs
