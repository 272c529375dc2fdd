import InvariantFs.DeltaRemount
import InvariantFs.FoldLookup

namespace InvariantFs.FoldDrained

open ByteCodec CachedStore BtreePage Btree SortedMap Fallible CrashTrace BtreeShape BtreeSupply BtreeMap
open DeltaRecord DeltaSegment DeltaIndex DeltaLog DeltaReplay DeltaSession DeltaRemount
open BaseRoot BaseCrash Fold FoldMerge FoldCrash FoldSafe FoldPublish RootHistory FoldLookup Option

variable (crc : List Byte → UInt32)

/-- The recent tier as a session has left it: a mount of an image that the appends do not disturb, appends
that all returned, and a drain. -/
structure Drained (s : Fs) (hd : Handle) (d : Image) (calls : List (Option Nat × Rec)) (l : Log) : Prop where
  run : session crc hd d calls = some l
  intact : Undisturbed crc hd.total d (calls.map Prod.snd)
  total : s.vol.total.toNat = hd.total
  med : s.med = l.med
  ram : s.ram = l.ram

variable {crc}

section

variable {s : Fs} {hd : Handle} {d : Image} {calls : List (Option Nat × Rec)} {l : Log}

theorem heal_quiet (h : s.ram.rewriteNeeded = false) (locked : Bool) : deltaHeal crc locked s = s := by
  rw [deltaHeal, healed_quiet crc h, ite_self]

theorem logged_drained (hs : Settled crc s) (h : Drained crc s hd d calls l) : Logged crc s := by
  intro locked b k
  have hhead : s.rt.deltaPba = ((s.med.tear [] b).rt.view ()).deltaPba := by
    change _ = ((s.med.rt.tear []).view ()).deltaPba
    rw [tear_idle hs.idle, Store.view, hs.idle, ← hs.home]
    rfl
  have hreplay : replayed crc s.vol.total (s.med.tear [] b).seg.view s.rt.deltaPba =
      mountRam crc hd.total (l.med.tear [] b) := by
    rw [hhead, ← h.total, ← h.med]
    rfl
  obtain ⟨hquiet, hanswer⟩ := session_ram crc h.run h.intact
  rw [← h.ram] at hquiet
  rw [heal_quiet hquiet, overlayGet, h.ram, ← hanswer [] b k, ← hreplay]
  rfl

end

/-- From a settled volume with a drained log, every fold keeps the merged lookups, whenever the power goes, if
its root prevails; and a fold that returns keeps them only then. -/
theorem fold_lookups {s : Fs} {hd : Handle} {d : Image} {calls : List (Option Nat × Rec)} {l : Log}
    (hs : Settled crc s) (hlog : Drained crc s hd d calls l) (hold : Holdable crc s) (env : Fold.Env) :
    (Prevails crc s → FoldKeeps crc env s) ∧
      ((runs (fold crc env) ⟨s, []⟩).1 = some () → FoldKeeps crc env s → Prevails crc s) := by
  obtain ⟨old, h, m, ps, he⟩ := entry_of_settled hs
  exact ⟨fun hwin => fold_keeps he (logged_drained hs hlog) hold hwin env,
    fun hdone hkeep => keeps_prevails he hold hdone hkeep⟩

/-- The blank volume with the blocks of one segment allocated. -/
def reservedFs : Fs := { blankFs with vol := { blankVol with bit := fun p => p ∈ BaseRoot.segBlocks 64 32 } }

theorem roomy_reservedFs : Roomy reservedFs where
  fresh := ⟨rfl, rfl⟩
  covered := roomy_blankFs.covered
  ample := ⟨blankVol.supply, [], (List.append_nil _).symm, rfl, by decide, by decide⟩
  anchor := rfl
  log := rfl

theorem blocks_lt : 64 < 2 ^ 64 := by decide

def handle : Handle := ⟨64, blocks_lt, false, [], 64, 262144⟩

theorem length_zeros (pba : Nat) : ((fun _ => List.replicate segBytes 0 : Nat → List Byte) pba).length = segBytes :=
  List.length_replicate

/-- A device with a descriptor and no log. -/
def unlogged (rt : Rt) : Image := ⟨{ rt with deltaPba := 0 }, fun _ => List.replicate segBytes 0, length_zeros⟩

def putOne : Rec := (Rec.make? .put [1] [1]).get rfl

def putTwo : Rec := (Rec.make? .put [2] [2]).get rfl

def deleteOne : Rec := (Rec.make? .delete [1] []).get rfl

/-- A log of one segment, behind the descriptor `rt`. -/
structure OneSegment (rt : Rt) (l : Log) : Prop where
  home : l.med.rt = ⟨fun _ => { rt with deltaPba := 32 }, []⟩
  magic : (l.med.seg.view 32).take 4 = [0x44, 0x53, 0x47, 0x33]
  prev : ((l.med.seg.view 32).drop 24).take 8 = wr64be 0
  quiet : l.ram.rewriteNeeded = false

variable (crc) in
theorem session_fill (rt : Rt) : ∃ l, session crc handle (unlogged rt) [(some 32, putOne)] = some l ∧
    OneSegment rt l ∧ snapshot l.ram = [([1], false, [1])] :=
  ⟨_, rfl, ⟨rfl, rfl, rfl, rfl⟩, rfl⟩

variable (crc) in
theorem session_refill (rt : Rt) :
    ∃ l, session crc handle (unlogged rt) [(some 32, deleteOne), (none, putTwo)] = some l ∧
      OneSegment rt l ∧ snapshot l.ram = [([1], true, []), ([2], false, [2])] :=
  ⟨_, rfl, ⟨rfl, rfl, rfl, rfl⟩, rfl⟩

theorem undisturbed_unlogged {rs : List Rec} (hlay : lay 0 rs = ([], [rs])) (rt : Rt) :
    Undisturbed crc 64 (unlogged rt) rs where
  stale _ key x _ hleft := by cases hleft
  within key hne := by
    have hlayout : layout crc 64 (unlogged rt) rs = [rs] := by
      change (lay 0 rs).2.reverse ++ [] = [rs]
      rw [hlay]
      rfl
    refine ⟨rs, ?_, fun hnone => hne ?_⟩
    · rw [hlayout]
      exact List.mem_cons_self
    · rw [hnone]
      rfl

/-- The volume `s` with the log `l`. -/
def withLog (s : Fs) (l : Log) : Fs := { s with med := l.med, rt := l.med.rt.durable (), ram := l.ram }

section

variable {s : Fs} {l : Log} (h : OneSegment s.rt l)

include h

theorem logBlocks_withLog {p : UInt64} {locked : Bool}
    (hp : p ∈ logBlocks (withLog s l).rt.deltaPba (deltaHeal crc locked (withLog s l))) :
    p ∈ BaseRoot.segBlocks s.vol.total 32 := by
  have hhead : (withLog s l).rt.deltaPba = 32 := by rw [withLog, h.home]
  rw [heal_quiet h.quiet, hhead, logBlocks] at hp
  obtain ⟨pba, hpba, hp⟩ := List.mem_flatMap.mp hp
  -- the header of the segment names none before it
  change pba ∈ reclaimWalk _ l.med.seg.view (1048575 + 1) 32 at hpba
  rw [reclaimWalk, h.prev, rd64be_wr64be (by decide)] at hpba
  split at hpba
  · cases hpba
  · obtain rfl := List.mem_singleton.mp hpba
    exact hp

theorem relogged_withLog {v : Vol} (hv : ∀ p ∈ BaseRoot.segBlocks s.vol.total 32, v.bit p = true) :
    Relogged crc v s (withLog s l) where
  vol := rfl
  bits := rfl
  slots := by rw [withLog, h.home]
  seq := by rw [withLog, h.home]
  idle := congrArg Store.pending h.home
  home := rfl
  log locked p hp := hv p (logBlocks_withLog h hp)

end

theorem drained_withLog {s : Fs} {l : Log} {calls : List (Option Nat × Rec)}
    (hrun : session crc handle (unlogged s.rt) calls = some l)
    (hlay : lay 0 (calls.map Prod.snd) = ([], [calls.map Prod.snd])) (htotal : s.vol.total = 64) :
    Drained crc (withLog s l) handle (unlogged s.rt) calls l :=
  ⟨hrun, undisturbed_unlogged hlay _, congrArg UInt64.toNat htotal, rfl, rfl⟩

/-- The first fold of a new volume: the base is empty and the log puts a record. -/
theorem fold_lookups_first : ∃ (s : Fs) (l : Log), Settled crc32c s ∧
    Drained crc32c s handle (unlogged reservedFs.rt) [(some 32, putOne)] l ∧ Holdable crc32c s ∧ Prevails crc32c s ∧
    baseGet crc32c s.vol s.rt [1] = some none ∧ overlayGet crc32c s [1] = some (some [1]) ∧
    (runs (fold crc32c obliging) ⟨s, []⟩).1 = some () ∧ FoldKeeps crc32c obliging s := by
  obtain ⟨l, hrun, hone, hsnap⟩ := session_fill crc32c reservedFs.rt
  let s : Fs := withLog reservedFs l
  have hr : Relogged crc32c reservedFs.vol reservedFs s := relogged_withLog hone fun p hp => decide_eq_true hp
  have hs : Settled crc32c s := settled_fresh hr roomy_reservedFs.fresh roomy_reservedFs.covered rfl
  have hlog : Drained crc32c s handle _ _ l := drained_withLog hrun rfl rfl
  have hread : baseRoot crc32c s.vol s.rt = some .null :=
    (relogged_root hr).trans (baseRoot_none roomy_reservedFs.fresh.slots)
  have hnull : Tree crc32c s.vol .null 0 [] [] := tree_null_root _ _
  have hsnap : snapshot s.ram = [([1], false, [1])] := hsnap
  have hold : Holdable crc32c s := holdable_of hread hnull (by rw [hsnap]; decide)
  have hwin : Prevails crc32c s := ⟨_, _, _, _, hread, hnull, .inl rfl⟩
  have hbase : baseGet crc32c s.vol s.rt [1] = some none := by
    rw [baseGet, hread]
    rfl
  have hmerged : overlayGet crc32c s [1] = some (some [1]) := by
    have hlook := lookup_snapshot s.ram [] [1]
    rw [hsnap] at hlook
    rw [overlayGet, hbase]
    exact hlook.symm
  obtain ⟨root, v, hup, h0, -, -, -, htree, -⟩ := upsert_single crc32c (n := 8) (k := [1]) (x := [1])
    roomy_reservedFs.ample (by decide) 0
  have hmerge : runs (merge crc32c (snapshot s.ram) .null) s.vol = (some root, v) := by
    rw [hsnap]
    exact bind_some.mpr ⟨root, v, hup, rfl⟩
  obtain ⟨r, hfold, -⟩ := fold_obliging (entries_ne (by simp [hsnap])) hread hmerge h0 htree
    (leaf_check (tree_agree (flushed_agree { s with vol := v } _) htree))
  exact ⟨s, l, hs, hlog, hold, hwin, hbase, hmerged, congrArg Prod.fst hfold,
    (fold_lookups hs hlog hold obliging).1 hwin⟩

/-- The base holds a key, the log deletes it and puts another one. The fold returns, and the key it has deleted
is back. -/
theorem refilled_key_back : ∃ (r r' : Run Fs) (root : Ptr) (l : Log),
    runs (round crc32c [.put [1] [1]] willing) ⟨reservedFs, []⟩ = (some (.null, root), r) ∧
      Settled crc32c (withLog r.now l) ∧
      Drained crc32c (withLog r.now l) handle (unlogged r.now.rt) [(some 32, deleteOne), (none, putTwo)] l ∧
      runs (fold crc32c obliging) ⟨withLog r.now l, []⟩ = (some (), r') ∧
      overlayGet crc32c (withLog r.now l) [1] = some none ∧ overlayGet crc32c r'.now [1] = some (some [1]) := by
  obtain ⟨r, root, hround, h0, hgen, hsettled, -, hread, hnode, htree, ha, htotal⟩ := first_settled crc32c
    roomy_reservedFs
  obtain ⟨l, hrun, hone, hsnap⟩ := session_refill crc32c r.now.rt
  have htotal : r.now.vol.total = 64 := htotal
  let s : Fs := withLog r.now l
  have hr : Relogged crc32c reservedFs.vol r.now s :=
    relogged_withLog hone fun p hp => decide_eq_true (htotal ▸ hp)
  have hs : Settled crc32c s := hsettled s hr
  have hlog : Drained crc32c s handle _ _ l := drained_withLog hrun rfl htotal
  have hread : baseRoot crc32c s.vol s.rt = some { root with flags := bpRoot } := (relogged_root hr).trans hread
  have hsnap : snapshot s.ram = [([1], true, []), ([2], false, [2])] := hsnap
  have htree : Tree crc32c s.vol { root with flags := bpRoot } 0 [([1], [1])] [root.pba] := tree_flags htree bpRoot
  obtain ⟨r', root', hfold, -⟩ := fold_refills hread h0
    ((readNode_flags crc32c r.now.vol root bpRoot).trans hnode) htree ha hsnap
  obtain ⟨old, h, m, ps, he⟩ := entry_of_settled hs
  obtain rfl : { root with flags := bpRoot } = old := some.inj (hread.symm.trans he.root)
  obtain rfl := tree_unique htree he.tree
  have happ : applied (snapshot s.ram) [([1], [1])] = [([2], [2])] := by
    rw [hsnap]
    decide
  have hold := holdable_of he.root he.tree ((congrArg List.length happ).trans_lt (by decide))
  refine ⟨r, r', root, l, hround, hs, hlog, hfold, ?_, ?_⟩
  · rw [overlay_merged he, happ]
    rfl
  obtain hempty | ⟨root1, h', ps', v, hm, ht, hrt, hram⟩ := fold_done he hfold
  · exact absurd hempty (entries_ne (by simp [hsnap]))
  · have hgen1 : root1.gen = 1 := by
      rw [hm.gen, hsnap]
      change genAfter _ root.gen _ = 1
      rw [hgen]
      decide
    rw [overlayGet, hram, hrt]
    change baseGet crc32c r'.now.vol (Rt.publish s.rt root1.pba) [1] = _
    rw [published_get he hm (depth_lt he hold hm) ht.alike, if_pos]
    · rfl
    · exact ⟨h0, UInt64.le_of_eq (hgen1.trans hgen.symm)⟩

end InvariantFs.FoldDrained
