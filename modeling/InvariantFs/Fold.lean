import InvariantFs.BaseRoot

namespace InvariantFs.Fold

open ByteCodec BtreePage Btree Fallible CrashTrace DeltaLog BaseRoot

structure Env where
  /-- `vol_delta_heal` gets the lock. -/
  heal : Bool
  /-- `fold_space_ok` -/
  space : Bool
  /-- The values of the index can be read. -/
  collect : Bool
  flush : Bool
  pages : Answer
  /-- The walk over the merged tree hits no device error. -/
  walk : Bool
  publish : Publish
  resetStore : Bool
  resetMirror : Answer
  reset : Answer
  /-- `vol_reclaim_drain` does not give up. -/
  drained : Bool
  /-- The candidates of `btree_collect_orphans`, none where the collector is off or gives up. -/
  orphans : List UInt64
  orphansFlush : Bool

/-- The records of the index in key order, `fold_sort`. -/
def snapshot (ram : Recent) : List (Key × Bool × Val) :=
  (ram.index.entries.map fun e => (e.1, e.2.del, e.2.val)).insertionSort fun a b => a.1 ≤ b.1

variable (crc : List Byte → UInt32)

/-- The loop of `vol_fold` over the records: a copy-on-write edit of the base for each of them. -/
def merge : List (Key × Bool × Val) → Ptr → Act Vol Ptr
  | [], root => pure root
  | (k, true, _) :: rs, root => do
    let found ← act fun v => (search crc v root k, v)
    match found with
    | none => merge rs root
    | some _ =>
      let root ← delete crc root k
      merge rs root
  | (k, false, x) :: rs, root => do
    let root ← upsert crc root k x
    merge rs root

def rootPage (old root : Ptr) : Act Vol Ptr :=
  if root.pba = 0 then do
    let gen := (if old.pba = 0 then 0 else old.gen) + 1
    let pba ← place crc gen (pageBytes crc 0 gen [])
    pure (ptrSet pba (pageBytes crc 0 gen []) (bpLeaf ||| bpRoot))
  else pure root

/-- `vol_delta_heal`, where it gets the lock. -/
def deltaHeal (locked : Bool) (s : Fs) : Fs := if locked then { s with med := healed crc s.ram s.med } else s

variable (env : Env)

def deltaReset : Act (Run Fs) Unit := do
  change fun s => { deltaClose s with rt := { s.rt with deltaPba := 0 } }
  rtCommit env.resetStore env.resetMirror env.reset
  change (deltaMount crc)

/-- The walk of `vol_reclaim_delta_segments`. It looks at the magic of a header only. -/
def reclaimWalk (total : Nat) (m : Nat → List Byte) : Nat → Nat → List Nat
  | 0, _ => []
  | fuel + 1, pba =>
    if pba = 0 ∨ total ≤ pba ∨ (m pba).take 4 ≠ [0x44, 0x53, 0x47, 0x33] then []
    else
      let prev := rd64be (((m pba).drop 24).take 8)
      pba :: if prev = pba then [] else reclaimWalk total m fuel prev

def logBlocks (head : Nat) (s : Fs) : List UInt64 :=
  (reclaimWalk s.vol.total.toNat s.med.seg.view deltaMaxSegments head).flatMap (segBlocks s.vol.total)

/-- `vol_reclaim_delta_segments` of the whole chain -/
def reclaimSegments (head : Nat) (s : Fs) : Fs := (logBlocks head s).foldl mbufFree s

/-- The pages below a pointer, as `bt_mark_rec` marks them. -/
def reach (v : Vol) : Nat → Ptr → List UInt64
  | 0, _ => []
  | fuel + 1, p =>
    p.pba :: match readNode crc v p with
      | none => []
      | some (level, es) => if level = 0 then [] else es.flatMap fun e => reach v fuel e.child

def slotReach (v : Vol) (pba : UInt64) : List UInt64 :=
  if pba = 0 then [] else reach crc v (maxLevels + 1) (ptrSet pba (v.dev.view pba) (bpLeaf ||| bpRoot))

/-- `vol_reclaim_orphans`: a candidate that no root slot and no save point leads to is freed, and the
bitmap is written out. -/
def reclaimOrphans (s : Fs) : Fs :=
  let keep := slotReach crc s.vol s.rt.rootSlot.1 ++ slotReach crc s.vol s.rt.rootSlot.2 ++
    reach crc s.vol (maxLevels + 1) s.pinned
  let doomed := env.orphans.filter (· ∉ keep)
  let s := doomed.foldl mbufFree s
  if doomed ≠ [] ∧ env.orphansFlush then bitmapFlush s else s

/-- `btree_reclaim_pinned`: what only the old root leads to is freed. -/
def reclaimDiff (old root : Ptr) (s : Fs) : Fs :=
  if old.pba = 0 then s
  else
    let keep := reach crc s.vol (maxLevels + 1) root ++ reach crc s.vol (maxLevels + 1) s.pinned
    ((reach crc s.vol (maxLevels + 1) old).filter (· ∉ keep)).foldl mbufFree s

def reclaimHook (old root : Ptr) (s : Fs) : Fs :=
  if env.drained = false then s
  else if old.pba ≠ 0 ∧ (old.pba = s.rt.rootSlot.1 ∨ old.pba = s.rt.rootSlot.2) then reclaimOrphans crc env s
  else reclaimOrphans crc env (reclaimDiff crc old root s)

/-- The fold up to the point where the merged tree is durable and has been walked: the old root, the
new one, and what the walk says about it. -/
def prepare : Act (Run Fs) (Ptr × Ptr × Ck) := do
  change (deltaHeal crc env.heal)
  mark
  demand env.space
  demand env.collect
  let old ← look fun s => baseRoot crc s.vol s.rt
  let ram ← look fun s => some s.ram
  let root ← zoom Fs.vol (fun v s => { s with vol := v }) (do
    let root ← merge crc (snapshot ram) old
    rootPage crc old root)
  flush env.flush
  barrier env.pages
  demand env.walk
  let ck ← look fun s => (check crc s.vol root).toOption
  pure (old, root, ck)

def fold : Act (Run Fs) Unit := do
  let s ← look some
  if s.ram.index.entries = [] then pure ()
  else
    let (old, root, _) ← prepare crc env
    rootPublish crc env.publish root.pba root.gen
    let head ← look fun s => some s.rt.deltaPba
    let ok ← attempt (deltaReset crc env)
    change (reclaimSegments head)
    change (reclaimHook crc env old root)
    demand ok

end InvariantFs.Fold
