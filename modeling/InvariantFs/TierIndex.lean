import InvariantFs.ByteCodec
import InvariantFs.CachedStore
import InvariantFs.SortedMap

namespace InvariantFs.TierIndex

open ByteCodec CachedStore SortedMap List

def blockSize : Nat := 4096

abbrev Block := Fin blockSize → Byte

/-- The zones of a volume on two devices: the raw zone and the tier arena lie on the first, the shadow
zone on the second. -/
structure Geo where
  rawStart : Nat
  rawBlocks : Nat
  arenaStart : Nat
  arenaBlocks : Nat
  shadowStart : Nat
  total : Nat
  rawMirror : Bool
  raw_pos : 0 < rawStart
  raw_arena : rawStart + rawBlocks ≤ arenaStart
  arena_shadow : arenaStart + arenaBlocks ≤ shadowStart
  shadow_total : shadowStart ≤ total

def Geo.raw (g : Geo) (pba : Nat) : Bool := g.rawStart ≤ pba ∧ pba < g.rawStart + g.rawBlocks

/-- `wp25_ent`, behind its key: a second copy of the segment at the key. -/
structure Copy where
  pba : Nat
  plen : Nat
  ord : Nat
  deriving DecidableEq

abbrev Index := List (Nat × Copy)

/-- A run of blocks that `alloc_blocks` handed out, for a segment or for a second copy. -/
structure Run where
  start : Nat
  len : Nat
  copy : Bool
  deriving DecidableEq

structure St where
  bit : Nat → Bool
  /-- the bitmap on the medium, and what has been written of it since the last barrier -/
  bitDisk : (Nat → Bool) × List (Nat → Bool)
  dev : Store Nat Block
  tier : Index
  rawm : Index
  tierDirty : Bool
  rawmDirty : Bool
  /-- the owner records that a mount would read, and those that no barrier has covered yet -/
  tierOwner : Index
  rawmOwner : Index
  tierStaged : Option Index
  rawmStaged : Option Index
  /-- which run a block belongs to, and the segment last written at a block -/
  own : Nat → Option Run
  last : Nat → Option (List Byte)

section

variable (dev : Nat → Block)

def byteAt (off : Nat) : Byte := dev (off / blockSize) ⟨off % blockSize, Nat.mod_lt _ (by decide)⟩

def bytes (off n : Nat) : List Byte := (range n).map fun k => byteAt dev (off + k)

def csize (pba : Nat) : Nat := leNat (bytes dev (pba * blockSize) 4)

def crcHdr (pba : Nat) : Nat := leNat (bytes dev (pba * blockSize + 4) 4)

def payload (pba : Nat) : List Byte := bytes dev (pba * blockSize + 8) (csize dev pba)

def segExtent (g : Geo) (pba : Nat) : Option Nat :=
  let plen := (csize dev pba + 8 + blockSize - 1) / blockSize
  if pba = 0 ∨ g.total ≤ pba ∨ csize dev pba = 0 ∨ g.total - pba < plen then none else some plen

end

variable (g : Geo) (crc : List Byte → UInt32)

/-- `seg_read_once`. A read can fail on the device or hit damaged bytes, and an error says whether the
bytes were bad. -/
def segReadOnce (dev : Nat → Block) (fault : Nat → Option Bool) (pba plen least : Nat) : Except Bool (List Byte) :=
  match fault pba with
  | some bad => .error bad
  | none =>
    let limit := if plen ≠ 0 then plen * blockSize else (g.total - pba) * blockSize
    if csize dev pba < least ∨ limit < csize dev pba + 8 then .error true
    else if crcHdr dev pba ≠ 0 ∧ (crc (payload dev pba)).toNat ≠ crcHdr dev pba then .error true
    else .ok (payload dev pba)

variable (s : St)

/-- The end of `seg_read_checked`, after the tier arena has been tried. -/
def readCanonical (fault : Nat → Option Bool) (rescue : Nat → Option (List Byte))
    (pba plen least : Nat) : Option (List Byte) :=
  match segReadOnce g crc s.dev.view fault pba plen least with
  | .ok blob => some blob
  | .error bad =>
    if g.raw pba then
      (lookup s.rawm pba).bind fun m => (segReadOnce g crc s.dev.view fault m.pba m.plen least).toOption
    else if bad then (rescue pba).filter fun blob => least ≤ blob.length
    else none

/-- `seg_read_checked` on two devices; `dev0` tells whether the first one is in use. -/
def segReadChecked (dev0 : Bool) (fault : Nat → Option Bool) (rescue : Nat → Option (List Byte))
    (pba plen least : Nat) : Option (List Byte) :=
  if dev0 = true ∧ g.shadowStart ≤ pba then
    match lookup s.tier pba with
    | none => readCanonical g crc s fault rescue pba plen least
    | some c =>
      match segReadOnce g crc s.dev.view fault c.pba c.plen least with
      | .ok blob => some blob
      | .error _ => readCanonical g crc s fault rescue pba plen least
  else readCanonical g crc s fault rescue pba plen least

def inRun (pba n b : Nat) : Bool := pba ≤ b ∧ b < pba + n

/-- `bit_clr` over a run -/
def St.clear (pba n : Nat) : St :=
  { s with
    bit := fun b => if inRun pba n b then false else s.bit b
    own := fun b => if inRun pba n b then none else s.own b }

def St.delTier (key : Nat) : St := { s with tier := del s.tier key, tierDirty := true }

def St.delRawm (key : Nat) : St := { s with rawm := del s.rawm key, rawmDirty := true }

/-- `spt0_block_pinned` over a run -/
def held (pin : Nat → Bool) (pba n : Nat) : Bool := (range n).any fun k => pin (pba + k)

/-- `vol_free_blocks`, with `wp25_on_free`: a segment takes its second copy with it. A copy has none of
its own, so the calls nest three deep at most. -/
def freeBlocks (pin : Nat → Bool) : Nat → Nat → Nat → St → St
  | 0, _, _, s => s
  | depth + 1, pba, len, s =>
    let n := min (pba + len) g.total - pba
    if held pin pba n then s
    else
      let s := if g.raw pba then
          (s.rawm.filter fun e => inRun pba n e.1).foldl
            (fun s e => (freeBlocks pin depth e.2.pba e.2.plen s).delRawm e.1) s
        else s
      let s := if g.shadowStart ≤ pba then
          (s.tier.filter fun e => inRun pba n e.1).foldl
            (fun s e => (freeBlocks pin depth e.2.pba e.2.plen s).delTier e.1) s
        else s
      s.clear pba n

def freeDepth : Nat := 3

/-- `alloc_blocks` has found the run. -/
def St.take (r : Run) : St :=
  { s with
    bit := fun b => if inRun r.start r.len b then true else s.bit b
    own := fun b => if inRun r.start r.len b then some r else s.own b }

def writeRun (dev : Store Nat Block) (pba : Nat) (block : Nat → Block) (n : Nat) : Store Nat Block :=
  (range n).foldl (fun d k => d.write (pba + k) fun _ => block k) dev

def St.write (pba : Nat) (block : Nat → Block) (n : Nat) : St :=
  { s with dev := writeRun s.dev pba block n }

def fresh (lo hi pba n : Nat) : Bool :=
  0 < n ∧ lo ≤ pba ∧ pba + n ≤ hi ∧ ∀ k < n, s.bit (pba + k) = false

/-- A segment as it is written: the frame, the payload, and zeros up to the block boundary. -/
def segmentBlocks (blob : List Byte) (k : Nat) : Block := fun i =>
  (leBytes 4 blob.length ++ leBytes 4 (crc blob).toNat ++ blob).getD (k * blockSize + i) 0

def maxCopies : Nat := 65535

/-- `wp25_rawm_write`. `mirror` is the allocator's answer, 0 where it finds no room. -/
def rawmWrite (pin : Nat → Bool) (s : St) (pba : Nat) (block : Nat → Block) (n mirror : Nat) : Option St :=
  let rel := pba - g.rawStart
  if 2 ^ 24 ≤ rel then some s
  else
    let s := match lookup s.rawm pba with
      | none => s
      | some old =>
        let t := freeBlocks g pin freeDepth old.pba old.plen s
        { t with rawm := del t.rawm pba }
    if maxCopies ≤ s.rawm.length ∨ mirror = 0 then some s
    else if fresh s g.shadowStart g.total mirror n then
      some { (s.take ⟨mirror, n, true⟩).write mirror block n with
        rawm := put s.rawm pba ⟨mirror, n, rel⟩, rawmDirty := true }
    else none

def freeOrd (idx : Index) : Nat → Nat → Nat
  | 0, ord => ord
  | tries + 1, ord => if idx.any fun e => e.2.ord = ord then freeOrd idx tries (ord + 1) else ord

/-- `tier_promote_one` on a segment that a live recipe names, with the extent from its header. -/
def promoteOne (cpba plen dpba : Nat) : Option St :=
  let ord := freeOrd s.tier maxCopies 0
  if (lookup s.tier cpba).isSome ∨ g.arenaBlocks = 0 ∨ plen = 0 ∨ maxCopies ≤ s.tier.length ∨
      64 * 1024 * 1024 < plen * blockSize ∨ ord = maxCopies ∨ dpba = 0 then some s
  else if fresh s g.arenaStart (g.arenaStart + g.arenaBlocks) dpba plen then
    some { (s.take ⟨dpba, plen, true⟩).write dpba (fun k => s.dev.view (cpba + k)) plen with
      tier := put s.tier cpba ⟨dpba, plen, ord⟩, tierDirty := true }
  else none

/-- `tier_demote_idx` -/
def demote (key : Nat) : St :=
  match lookup s.tier key with
  | none => s
  | some c => (freeBlocks g (fun _ => false) freeDepth c.pba c.plen s).delTier key

def St.barrier : St :=
  { s with
    bitDisk := (s.bitDisk.2.getLastD s.bitDisk.1, [])
    dev := s.dev.fence
    tierOwner := s.tierStaged.getD s.tierOwner
    rawmOwner := s.rawmStaged.getD s.rawmOwner
    tierStaged := none
    rawmStaged := none }

def St.ownerSync : St :=
  { s with
    rawmStaged := if s.rawmDirty then some s.rawm else s.rawmStaged
    rawmDirty := false
    tierStaged := if s.tierDirty then some s.tier else s.tierStaged
    tierDirty := false }

def St.bitmapFlush : St := { s with bitDisk := (s.bitDisk.1, s.bitDisk.2 ++ [s.bit]) }

def St.flush : St := s.bitmapFlush.barrier.ownerSync

/-- The entries that `wp25_index_load_v3` trusts. -/
def trusted (isRawm : Bool) (e : Nat × Copy) : Bool :=
  e.2.pba ≠ 0 ∧ e.2.plen ≠ 0 ∧ e.1 ≠ 0 ∧ e.1 < g.total ∧ e.2.pba < g.total ∧ e.2.plen ≤ g.total - e.2.pba ∧
    (isRawm = true → g.raw e.1 = true)

/-- `wp25_index_load_v3` -/
def load (isRawm : Bool) (idx : Index) : Index :=
  (idx.filter (trusted g isRawm)).foldl (fun t e => put t e.1 e.2) []

/-- What a power cut leaves open: which pending writes, which version of each block of the bitmap and which of the
owner records published last reached the medium, which runs no recipe names any more, and which freed ones are
named again. -/
structure Cut where
  mask : List Bool
  bitLate : Nat → Nat
  tierLate : Bool
  rawmLate : Bool
  lost : Run → Bool
  back : List Run

variable (c : Cut)

def Cut.tierOwner (s : St) : Index := if c.tierLate then s.tierStaged.getD s.tierOwner else s.tierOwner

def Cut.rawmOwner (s : St) : Index := if c.rawmLate then s.rawmStaged.getD s.rawmOwner else s.rawmOwner

def Cut.bit (s : St) (b : Nat) : Bool := s.bitDisk.2.getD (c.bitLate (b / (8 * blockSize))) s.bitDisk.1 b

def mentions (idx : Index) (r : Run) : Bool := idx.any fun e => r.start = e.1 ∨ r.start = e.2.pba

def kept (r : Run) : Bool :=
  (range r.len).all (fun k => c.bit s (r.start + k)) ∧
    (c.lost r = false ∨ mentions (load g false (c.tierOwner s)) r ∨ mentions (load g true (c.rawmOwner s)) r)

def St.keptOwn (b : Nat) : Option Run := (s.own b).filter (kept g s c)

/-- The segments that come back are marked on the medium and share no block with another run. -/
def backOk : Bool :=
  (∀ r ∈ c.back, r.copy = false ∧ r.start + r.len ≤ g.total ∧
    ∀ k < r.len, c.bit s (r.start + k) = true ∧ s.keptOwn g c (r.start + k) = none) ∧
  c.back.Pairwise fun r q => r.start + r.len ≤ q.start ∨ q.start + q.len ≤ r.start

def settled (r : Run) : Bool := s.dev.pending.all fun p => inRun r.start r.len p.cell = false

/-- A power cut and the mount after it. Of a segment with writes still pending nothing is known. -/
def St.crash : St :=
  { bit := c.bit s
    bitDisk := (c.bit s, [])
    dev := s.dev.tear c.mask
    tier := load g false (c.tierOwner s)
    rawm := load g true (c.rawmOwner s)
    tierDirty := false
    rawmDirty := false
    tierOwner := c.tierOwner s
    rawmOwner := c.rawmOwner s
    tierStaged := none
    rawmStaged := none
    own := fun b => (s.keptOwn g c b).or (c.back.find? fun r => inRun r.start r.len b)
    last := fun b => if (s.keptOwn g c b).any (settled s) then s.last b else none }

/-- What the volume does, with the answers of the allocator and the save point's pins. -/
inductive Op where
  | write (pba : Nat) (blob : List Byte) (dev0 : Bool) (mirror : Nat) (pin : Nat → Bool)
  | free (pba : Nat) (pin : Nat → Bool)
  | promote (cpba dpba : Nat)
  | demote (key : Nat)
  | flush
  | bitmapFlush
  | barrier
  | crash (cut : Cut)

/-- `write_segment_blocks` into a run just allocated. Where the first device refuses the write, the
mirror of a raw segment is written all the same. -/
def writeSegment (pba : Nat) (blob : List Byte) (dev0 : Bool) (mirror : Nat) (pin : Nat → Bool) : Option St :=
  let n := (blob.length + 8 + blockSize - 1) / blockSize
  let named := { s.take ⟨pba, n, false⟩ with last := fun b => if b = pba then some blob else s.last b }
  if 2 ^ 32 ≤ blob.length then none
  else if g.raw pba then
    if fresh s g.rawStart (g.rawStart + g.rawBlocks) pba n then
      let t := if dev0 then named.write pba (segmentBlocks crc blob) n else named
      if g.rawMirror then rawmWrite g pin t pba (segmentBlocks crc blob) n mirror
      else if dev0 then some t else none
    else none
  else if fresh s g.shadowStart g.total pba n then some (named.write pba (segmentBlocks crc blob) n)
  else none

def step : Op → Option St
  | .write pba blob dev0 mirror pin => writeSegment g crc s pba blob dev0 mirror pin
  | .free pba pin =>
    match s.own pba with
    | some ⟨start, n, false⟩ => if start = pba then some (freeBlocks g pin freeDepth pba n s) else none
    | _ => none
  | .promote cpba dpba =>
    match s.own cpba, segExtent s.dev.view g cpba with
    | some ⟨start, n, false⟩, some plen =>
      if start = cpba ∧ g.shadowStart ≤ cpba ∧ plen ≤ n then promoteOne g s cpba plen dpba else none
    | _, _ => none
  | .demote key => some (demote g s key)
  | .flush => some s.flush
  | .bitmapFlush => some s.bitmapFlush
  | .barrier => some s.barrier
  | .crash cut => if backOk g s cut then some (s.crash g cut) else none

def run (ops : List Op) : Option St := ops.foldlM (step g crc) s

end InvariantFs.TierIndex
