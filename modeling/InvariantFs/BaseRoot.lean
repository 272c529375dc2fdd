import InvariantFs.BtreeMap
import InvariantFs.CrashTrace
import InvariantFs.DeltaLog

namespace InvariantFs.BaseRoot

open ByteCodec CachedStore BtreePage Btree Fallible CrashTrace DeltaIndex DeltaLog

/-- A mounted, writable volume: the base tree, the blocks of the medium the bitmap lives in, and the recent tier
with the descriptor. `hold` are the blocks a save point keeps, `pinned` is the root it names. -/
structure Fs where
  vol : Vol
  bits : Store Nat (UInt64 → Bool)
  med : Medium
  rt : Rt
  anchor : Bool
  hold : UInt64 → Bool
  pinned : Ptr
  taken : List Nat
  segPba : Nat
  bump : Nat
  segGen : Nat
  segments : Nat
  groupMax : Nat
  groupBytes : Nat
  ram : Recent

/-- The buffered writes that reach the medium in a power cut, or when a barrier fails. -/
structure Loss where
  dev : List Bool
  bits : List Bool
  rt : List Bool
  seg : List Bool

inductive Answer where
  | ok
  | refused (kept : Loss)

def Fs.fence (s : Fs) : Fs :=
  { s with vol := { s.vol with dev := s.vol.dev.fence }, bits := s.bits.fence, med := s.med.fence }

def Fs.tear (s : Fs) (l : Loss) : Fs :=
  { s with
    vol := { s.vol with dev := s.vol.dev.tear l.dev }
    bits := s.bits.tear l.bits, med := s.med.tear l.rt l.seg }

def bitCell (p : UInt64) : Nat := p.toNat / (8 * pageSize)

def bitmapBlocks (total : UInt64) : Nat := (total.toNat / 8 + pageSize - 1) / pageSize

/-- The blocks of the bitmap `vol_bitmap_flush` writes: the dirty bytes, rounded out. -/
def dirtyCells (v : Vol) : List Nat :=
  let lo := v.bmLo / pageSize
  let hi := (min v.bmHi (bitmapBlocks v.total * pageSize) + pageSize - 1) / pageSize
  List.range' lo (hi - lo)

/-- `vol_bitmap_flush`. The range counts as clean from here on, with no barrier behind it. -/
def bitmapFlush (s : Fs) : Fs :=
  if s.vol.bmHi < s.vol.bmLo then s
  else
    { s with
      vol := { s.vol with bmLo := 1, bmHi := 0 }
      bits := (dirtyCells s.vol).foldl (fun b c => b.write c fun _ => s.vol.bit) s.bits }

/-- `vmux_barrier`. Between two barriers the writes of a call only add to the buffered ones, so a power
cut lets through some of the writes that are buffered right before a barrier. -/
def barrier : Answer → Act (Run Fs) Unit
  | .ok => do
    mark
    change Fs.fence
  | .refused l => do
    mark
    change fun s => s.tear l
    failure

/-- `vol_bitmap_flush` as a call: a clean bitmap needs no write. -/
def flush (ok : Bool) : Act (Run Fs) Unit := do
  look fun s => if s.vol.bmHi < s.vol.bmLo ∨ ok then some () else none
  change bitmapFlush

def rtWrite (s : Fs) : Fs := { s with med := { s.med with rt := s.med.rt.write () fun _ => s.rt } }

/-- `mbuf_rt30_store`: the descriptor goes to the medium, and to its mirror where the volume has one.
Nobody looks at the answer of the mirror's barrier. -/
def rt30Store (ok : Bool) (mirror : Answer) : Act (Run Fs) Unit := do
  demand ok
  change rtWrite
  let s ← look some
  if s.anchor then ignore (barrier mirror) else pure ()

def rtCommit (ok : Bool) (mirror final : Answer) : Act (Run Fs) Unit := do
  rt30Store ok mirror
  barrier final

/-- `mbuf_free`: a block that a save point holds stays allocated. -/
def mbufFree (s : Fs) (p : UInt64) : Fs :=
  if p = 0 ∨ s.vol.total ≤ p ∨ s.hold p = true then s else { s with vol := s.vol.setBit p false }

def Rt.slot (rt : Rt) (i : Nat) : UInt64 := if i % 2 = 0 then rt.rootSlot.1 else rt.rootSlot.2

/-- The descriptor a publish writes: the root goes to the slot the sequence number points at. -/
def Rt.publish (rt : Rt) (pba : UInt64) : Rt :=
  { rt with
    rootSlot := if rt.seq % 2 = 0 then (pba, rt.rootSlot.2) else (rt.rootSlot.1, pba)
    seq := rt.seq + 1 }

variable (crc : List Byte → UInt32)

/-- `mbuf_read` and `mbuf_page_validate` -/
def wholePage (v : Vol) (pba : UInt64) : Option (List Byte) :=
  if pba = 0 ∨ v.total ≤ pba ∨ (v.dev.view pba).length ≠ pageSize ∨ ¬ pageValidate crc (v.dev.view pba) then
    none
  else some (v.dev.view pba)

/-- The page of a root slot `mbuf_root_read` accepts: a block that the bitmap calls free is not
looked at. -/
def slotPage (v : Vol) (pba : UInt64) : Option (List Byte) :=
  if pba = 0 ∨ v.total ≤ pba ∨ v.bit pba = false then none else wholePage crc v pba

/-- `mbuf_root_read`: `none` is damage, `some none` a base that was never written. The second slot wins by a
higher generation, or by an equal one where the parity of the sequence number points at it. -/
def rootRead (v : Vol) (rt : Rt) : Option (Option UInt64) :=
  match slotPage crc v rt.rootSlot.1, slotPage crc v rt.rootSlot.2 with
  | none, none => if rt.rootSlot = (0, 0) then some none else none
  | some _, none => some (some rt.rootSlot.1)
  | none, some _ => some (some rt.rootSlot.2)
  | some a, some b =>
    if (pageHdr a).gen < (pageHdr b).gen ∨ (pageHdr b).gen = (pageHdr a).gen ∧ rt.seq % 2 = 1 then
      some (some rt.rootSlot.2)
    else some (some rt.rootSlot.1)

structure Publish where
  read : Bool
  flush : Bool
  store : Bool
  mirror : Answer
  barrier : Answer

def rootPublish (env : Publish) (pba gen : UInt64) : Act (Run Fs) Unit := do
  look fun s => if env.read ∧ ((wholePage crc s.vol pba).map fun page => (pageHdr page).gen) = some gen
    then some () else none
  flush env.flush
  change fun s => { s with rt := Rt.publish s.rt pba }
  rtCommit env.store env.mirror env.barrier

def baseRoot (v : Vol) (rt : Rt) : Option Ptr :=
  (rootRead crc v rt).map fun
    | none => .null
    | some pba => ptrSet pba (v.dev.view pba) bpRoot

def baseGet (v : Vol) (rt : Rt) (key : Key) : Option (Option Val) :=
  (baseRoot crc v rt).bind fun root => search crc v root key

def overlaid (recent : Option (Bool × Val)) (base : Option (Option Val)) : Option (Option Val) :=
  match recent with
  | some (true, _) => some none
  | some (false, x) => some (some x)
  | none => base

/-- `overlay_get_key` -/
def overlayGet (s : Fs) (key : Key) : Option (Option Val) :=
  overlaid (answer s.ram key) (baseGet crc s.vol s.rt key)

def segments (total : UInt64) (seg : Nat → List Byte) (head : Nat) : List Nat :=
  chainFrom crc total.toNat seg deltaMaxSegments head

def replayed (total : UInt64) (seg : Nat → List Byte) (head : Nat) : Recent :=
  (segments crc total seg head).reverse.foldl (fun ram pba =>
    replayRecords pba (DeltaSegment.segRecords crc (seg pba)) DeltaSegment.segHdrLen ram) Ram.empty

def segBlocks (total : UInt64) (pba : Nat) : List UInt64 :=
  ((List.range' pba 32).filter fun b => b < total.toNat).map UInt64.ofNat

def reserveSegment (v : Vol) (pba : Nat) : Vol :=
  (segBlocks v.total pba).foldl (fun v b => if v.bit b then v else v.setBit b true) v

def deltaClose (s : Fs) : Fs :=
  { s with ram := Ram.empty, segPba := 0, bump := 0, segGen := 0, segments := 0 }

/-- `vol_delta_mount`. The active segment is the newest one, up to where its records end. -/
def deltaMount (s : Fs) : Fs :=
  let segs := segments crc s.vol.total s.med.seg.view s.rt.deltaPba
  { s with
    vol := segs.foldl reserveSegment s.vol
    ram := replayed crc s.vol.total s.med.seg.view s.rt.deltaPba
    segPba := segs.headD 0
    bump :=
      match segs with
      | [] => 0
      | pba :: _ =>
        DeltaSegment.segHdrLen +
          ((DeltaSegment.segRecords crc (s.med.seg.view pba)).map DeltaRecord.Rec.size).sum
    segGen := (segs.filterMap fun pba =>
      (DeltaSegment.readHdr crc s.vol.total.toNat s.med.seg.view pba).map DeltaSegment.SegHdr.segSeq).foldl max 0
    segments := segs.length }

/-- A power cut that lets the given writes through, and the next `vol_open`. -/
def recover (l : Loss) (s : Fs) : Fs :=
  let s := s.tear l
  deltaMount crc
    { s with
      rt := s.med.rt.view ()
      vol := { s.vol with bit := fun p => s.bits.view (bitCell p) p, bmLo := 1, bmHi := 0 } }

end InvariantFs.BaseRoot
