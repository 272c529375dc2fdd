import Mathlib.Data.List.AList
import InvariantFs.DeltaSegment

namespace InvariantFs.DeltaIndex

variable {K V : Type} [DecidableEq K]

/-- `delta_slot`: where the newest record of a key lies, with the value a read through the slot
returns. -/
structure Slot (V : Type) where
  seg : Nat
  off : Nat
  seq : Nat
  del : Bool
  val : V
  deriving DecidableEq

abbrev Index (K V : Type) := AList (fun _ : K => Slot V)

/-- `delta_staged_rec`: a record no fence has covered, and the slot it shadowed when it was staged.
The source's absolute `off` is `seg * blockSize + off` here. -/
structure Staged (K V : Type) where
  key : K
  val : V
  del : Bool
  seg : Nat
  off : Nat
  len : Nat
  prev : Option (Slot V)
  deriving DecidableEq

/-- What the volume handle keeps about the recent tier. The first `doomed` staged records belong to
mutations that were reported as failed. -/
structure Ram (K V : Type) where
  index : Index K V
  seq : Nat
  staged : List (Staged K V)
  doomed : Nat
  pending : Nat
  pendingBytes : Nat
  rewriteNeeded : Bool

variable (r : Ram K V)

/-- `dl_staged_keep` and the pending counters of `vol_delta_append`. -/
def Ram.keep (key : K) (val : V) (del : Bool) (seg off len : Nat) : Ram K V :=
  { r with
    staged := r.staged ++ [⟨key, val, del, seg, off, len, r.index.lookup key⟩]
    pending := r.pending + 1
    pendingBytes := r.pendingBytes + len }

/-- `di_put` under the next sequence number. -/
def Ram.put (key : K) (val : V) (del : Bool) (seg off : Nat) : Ram K V :=
  { r with
    seq := r.seq + 1
    index := r.index.insert key ⟨seg, off, r.seq + 1, del, val⟩ }

/-- `dl_doom_entry`: the slot is rolled back when it names the record's position, where the position
is recomputed from the absolute offset by a division by the block size. -/
def doomEntry (e : Staged K V) (ix : Index K V) : Index K V :=
  let abs := e.seg * DeltaSegment.blockSize + e.off
  match ix.lookup e.key with
  | none => ix
  | some s =>
    if s.seg = abs / DeltaSegment.blockSize ∧ s.off = abs % DeltaSegment.blockSize then
      match e.prev with
      | some p => ix.insert e.key p
      | none => ix.erase e.key
    else ix

/-- `dl_doom_locked`: every live staged record is doomed, newest first. -/
def Ram.doom : Ram K V :=
  { r with
    index := (r.staged.drop r.doomed).foldr doomEntry r.index
    pending := r.pending - (r.staged.length - r.doomed)
    pendingBytes := r.pendingBytes - ((r.staged.drop r.doomed).map Staged.len).sum
    doomed := r.staged.length
    rewriteNeeded := true }

/-- `dl_staged_free` and the counters reset after a fence. -/
def Ram.close : Ram K V :=
  { r with staged := [], doomed := 0, pending := 0, pendingBytes := 0, rewriteNeeded := false }

def Ram.empty : Ram K V := ⟨∅, 0, [], 0, 0, 0, false⟩

end InvariantFs.DeltaIndex
