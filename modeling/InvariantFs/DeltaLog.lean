import InvariantFs.CachedStore
import InvariantFs.DeltaIndex

namespace InvariantFs.DeltaLog

open ByteCodec CachedStore DeltaRecord DeltaSegment DeltaIndex

structure Rt where
  rootSlot : UInt64 × UInt64
  seq : Nat
  deltaPba : Nat
  deriving DecidableEq, Repr

/-- The part of the device the log lives on: the descriptor and one 128 KiB image per segment. -/
structure Medium where
  rt : Store Unit Rt
  seg : Store Nat (List Byte)

/-- The answer of one barrier. A refused barrier has let some of the writes through and lost the
others. -/
inductive Barrier where
  | ok
  | refused (rtKept segKept : List Bool)

def Medium.fence (m : Medium) : Medium := ⟨m.rt.fence, m.seg.fence⟩

def Medium.tear (m : Medium) (rtKept segKept : List Bool) : Medium :=
  ⟨m.rt.tear rtKept, m.seg.tear segKept⟩

abbrev Recent := Ram (List Byte) (List Byte)

theorem page_lt : 4096 < 2 ^ 64 := by decide

/-- The recent tier of a mounted, writable volume. `taken` are the segments the allocator has handed
out, `anchor` says whether the volume carries a tail anchor. -/
structure Log where
  total : Nat
  total_lt : total < 2 ^ 64
  med : Medium
  rt : Rt
  anchor : Bool
  taken : List Nat
  segPba : Nat
  bump : Nat
  segGen : Nat
  segments : Nat
  groupMax : Nat
  groupBytes : Nat
  ram : Recent

structure Env where
  alloc : Option Nat
  header : Barrier
  anchor : Barrier
  publish : Barrier
  close : Barrier

/-- What a call does to the staged set: a record is staged, a barrier succeeds over the given medium, the set is
released as durable, the set is doomed and reported as failed. -/
inductive Event where
  | staged (r : Rec)
  | fenced (m : Medium)
  | closed
  | lost

def deltaMaxSegments : Nat := 2 ^ 20

variable (crc : List Byte → UInt32) (e : Staged (List Byte) (List Byte))

def stagedBytes : List Byte :=
  match Rec.make? (if e.del then .delete else .put) e.key e.val with
  | some r => recBytes crc r
  | none => []

def padSpan (s : Store Nat (List Byte)) : Store Nat (List Byte) :=
  if e.len < recHdrLen + 1 then s
  else s.write e.seg (splice e.off ((padBuild e.len).flatMap (recBytes crc)))

def rewriteSpan (s : Store Nat (List Byte)) : Store Nat (List Byte) :=
  s.write e.seg (splice e.off (stagedBytes crc e))

/-- `dl_staged_heal`: pads over the doomed spans, the live records once more. -/
def stagedHeal (ram : Recent) (m : Medium) : Medium :=
  { m with
    seg := (ram.staged.drop ram.doomed).foldl (fun s e => rewriteSpan crc e s)
      ((ram.staged.take ram.doomed).foldl (fun s e => padSpan crc e s) m.seg) }

def healed (ram : Recent) (m : Medium) : Medium :=
  if ram.rewriteNeeded ∧ ram.staged ≠ [] then stagedHeal crc ram m else m

variable (env : Env) (l : Log)

/-- `delta_new_segment`. The allocator hands out a segment that is free and lies on the volume. -/
def newSegment : List Event × Log × Option Nat :=
  match env.alloc with
  | none => ([], l, none)
  | some pba =>
    if pba = 0 ∨ l.total ≤ pba ∨ pba ∈ l.taken then ([], l, none)
    else
      let image := emptySegment crc (l.segGen + 1) l.segPba
      let med : Medium := { l.med with seg := l.med.seg.write pba fun _ => image }
      let l := { l with taken := pba :: l.taken, segGen := l.segGen + 1 }
      match env.header with
      | .refused a b => ([.lost], { l with med := med.tear a b, ram := l.ram.doom }, none)
      | .ok => ([.fenced med.fence], { l with med := med.fence }, some pba)

/-- `mbuf_rt30_store`: the descriptor write and, on a volume with a tail anchor, a barrier whose
answer is not looked at. -/
def rt30Store (anchor : Bool) (rt : Rt) (med : Medium) : List Event × Medium :=
  let med : Medium := { med with rt := med.rt.write () fun _ => rt }
  if anchor then
    match env.anchor with
    | .ok => ([.fenced med.fence], med.fence)
    | .refused a b => ([], med.tear a b)
  else ([], med)

/-- The rollover at the head of `vol_delta_append`. -/
def rollover : List Event × Log × Bool :=
  match newSegment crc env l with
  | (ev, l, none) => (ev, l, false)
  | (ev, l, some pba) =>
    let rt := { l.rt with deltaPba := pba }
    let (ev', med) := rt30Store env l.anchor rt l.med
    match env.publish with
    | .refused a b =>
      (ev ++ ev' ++ [.lost],
        { l with rt := { rt with deltaPba := l.segPba }, med := med.tear a b, ram := l.ram.doom },
        false)
    | .ok =>
      (ev ++ ev' ++ [.fenced med.fence, .closed],
        { l with
          rt := rt, med := med.fence, ram := l.ram.close
          segments := l.segments + 1, segPba := pba, bump := segHdrLen },
        true)

def groupFull (ram : Recent) : Bool :=
  l.groupMax = 0 ∨ l.groupBytes = 0 ∨ l.groupMax ≤ ram.pending ∨ l.groupBytes ≤ ram.pendingBytes

/-- The part of `vol_delta_append` after the rollover: write and retain the record, close the group
when it is full, publish the record in the index. -/
def stageRecord (r : Rec) : List Event × Log × Bool :=
  let del : Bool := r.kind = .delete
  let med : Medium := { l.med with seg := l.med.seg.write l.segPba (splice l.bump (recBytes crc r)) }
  let ram := l.ram.keep r.key r.val del l.segPba l.bump r.size
  if groupFull l ram then
    let med := healed crc ram med
    match env.close with
    | .refused a b =>
      ([.staged r, .lost],
        { l with med := med.tear a b, ram := ram.doom, bump := l.bump + r.size }, false)
    | .ok =>
      ([.staged r, .fenced med.fence, .closed],
        { l with
          med := med.fence, ram := ram.close.put r.key r.val del l.segPba l.bump
          bump := l.bump + r.size },
        true)
  else
    ([.staged r],
      { l with med := med, ram := ram.put r.key r.val del l.segPba l.bump, bump := l.bump + r.size },
      true)

def rollsOver (r : Rec) : Prop := l.segPba = 0 ∨ segBytes < l.bump + r.size

instance (l : Log) (r : Rec) : Decidable (rollsOver l r) := inferInstanceAs (Decidable (_ ∨ _))

/-- `vol_delta_append`: the events, the volume afterwards and whether the call returned 0. -/
def append (r : Rec) : List Event × Log × Bool :=
  if r.kind = .pad ∨ segBytes - segHdrLen < r.size then ([], l, false)
  else if rollsOver l r then
    match rollover crc env l with
    | (ev, l, false) => (ev, l, false)
    | (ev, l, true) =>
      let (ev', l, ok) := stageRecord crc env l r
      (ev ++ ev', l, ok)
  else stageRecord crc env l r

def drain : List Event × Log × Bool :=
  if l.ram.pending = 0 ∧ l.ram.staged = [] then
    ([], { l with ram := { l.ram with rewriteNeeded := false } }, true)
  else
    let med := healed crc l.ram l.med
    match env.close with
    | .ok => ([.fenced med.fence, .closed], { l with med := med.fence, ram := l.ram.close }, true)
    | .refused a b => ([.lost], { l with med := med.tear a b, ram := l.ram.doom }, false)

/-- The newest-first chain walk of `vol_delta_mount`. -/
def chainFrom (total : Nat) (m : Nat → List Byte) : Nat → Nat → List Nat
  | 0, _ => []
  | fuel + 1, cur =>
    if cur = 0 then []
    else
      match readHdr crc total m cur with
      | none => []
      | some h => cur :: (if h.prevPba = cur then [] else chainFrom total m fuel h.prevPba)

/-- `delta_replay_segment`: pads advance the offset and are not indexed. -/
def replayRecords (pba : Nat) : List Rec → Nat → Recent → Recent
  | [], _, ram => ram
  | r :: rs, off, ram =>
    replayRecords pba rs (off + r.size)
      (if r.kind = .pad then ram else ram.put r.key r.val (r.kind = .delete) pba off)

/-- The index `vol_delta_mount` builds, oldest segment first. -/
def mountRam (total : Nat) (m : Medium) : Recent :=
  ((chainFrom crc total m.seg.view deltaMaxSegments (m.rt.view ()).deltaPba).reverse).foldl
    (fun ram pba => replayRecords pba (segRecords crc (m.seg.view pba)) segHdrLen ram) Ram.empty

def answer (ram : Recent) (key : List Byte) : Option (Bool × List Byte) :=
  (ram.index.lookup key).map fun s => (s.del, s.val)

end InvariantFs.DeltaLog
