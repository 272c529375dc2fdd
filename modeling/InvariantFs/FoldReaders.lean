import InvariantFs.FoldMerge
import InvariantFs.Orphans
import InvariantFs.ReaderEpoch
import InvariantFs.ReclaimDiff

namespace InvariantFs.FoldReaders

open ByteCodec CachedStore BtreePage Btree Fallible BtreeShape DeltaLog BaseRoot Fold Relation Prod
open ReclaimDiff (kids markRoots mbufFree Reaches)

inductive Pc where
  | idle
  /-- The records are merged into copies of the pages of the old root; the volume as it was before. -/
  | building (before : Vol) (recs : List (Key × Bool × Val)) (old : Ptr)
  /-- `mbuf_root_publish` has set the slot. -/
  | slotted (old root : Ptr)
  | published (old root : Ptr)
  /-- `vol_reclaim_delta_segments` with the blocks it still has to free. -/
  | unlogging (old root : Ptr) (todo : List UInt64)
  | draining (old root : Ptr)
  | sweeping (old root : Ptr)
  /-- `bt_free_rec` with the pointers it still has to visit and the pages it has seen. -/
  | diffing (old : Ptr) (stack : List Ptr) (seen : List UInt64)
  | collecting (old : Ptr) (todo : List UInt64)
  /-- A call of `fold_reclaim_hook` is over. `vol_fold_request` and `vol_reclaim_schedule` call it again with
  the root from before the fold. -/
  | resuming (old : Ptr)

def Pc.sweeps : Pc → Bool
  | .sweeping .. | .diffing .. | .collecting .. => true
  | _ => false

structure Sys where
  vol : Vol
  rt : Rt
  hold : UInt64 → Bool
  pinned : Ptr
  chain : List Nat
  pc : Pc

def Sys.log (s : Sys) : List UInt64 :=
  s.chain.flatMap (segBlocks s.vol.total) ++ match s.pc with
    | .unlogging _ _ todo => todo
    | _ => []

def InSlot (rt : Rt) (x : UInt64) : Prop := x = rt.rootSlot.1 ∨ x = rt.rootSlot.2

instance (rt : Rt) (x : UInt64) : Decidable (InSlot rt x) := inferInstanceAs (Decidable (_ ∨ _))

def Rt.name (rt : Rt) (pba : UInt64) : Rt :=
  { rt with rootSlot := if rt.seq % 2 = 0 then (pba, rt.rootSlot.2) else (rt.rootSlot.1, pba) }

def Rt.bump (rt : Rt) : Rt := { rt with seq := rt.seq + 1 }

structure Grows (v v' : Vol) (pba : Nat) : Prop where
  total : v'.total = v.total
  free : ∀ b ∈ segBlocks v.total pba, v.bit b = false
  taken : ∀ b ∈ segBlocks v.total pba, v'.bit b = true
  other : ∀ b, b ∉ segBlocks v.total pba → v'.bit b = v.bit b ∧ v'.dev.view b = v.dev.view b

variable (crc : List Byte → UInt32)

def copy (recs : List (Key × Bool × Val)) (old : Ptr) : Act Vol Ptr := do
  let root ← merge crc recs old
  rootPage crc old root

variable (v : Vol)

/-- The roots that `btree_collect_orphans` keeps, unless a slot in use does not read. -/
def liveRoots (rt : Rt) : Option (List Ptr) :=
  ([rt.rootSlot.1, rt.rootSlot.2].filter (· ≠ 0)).mapM fun x =>
    (slotPage crc v x).map fun page => ptrSet x page (bpLeaf ||| bpRoot)

/-- What `btree_collect_orphans` asks of a candidate before it looks at the marks. -/
def looksFreeable (roots : List Ptr) (b : UInt64) : Bool :=
  b ≠ 0 ∧ b < v.total ∧ v.bit b ∧ pageValidate crc (v.dev.view b) ∧ (pageHdr (v.dev.view b)).level ≤ 32 ∧
    (pageHdr (v.dev.view b)).gen ≤ Orphans.maxGen roots

/-- `btree_collect_orphans`: the candidates it frees. -/
def orphans (rt : Rt) (pinned : Ptr) (cand : List UInt64) : List UInt64 :=
  match liveRoots crc v rt with
  | none | some [] => []
  | some roots =>
    match markRoots crc v (roots ++ [pinned]) with
    | none => []
    | some marked => cand.filter fun b => looksFreeable crc v roots b ∧ b ∉ marked

/-- What `fold_reclaim_hook` does behind the drain, up to the first free. -/
def enter (s : Sys) (old root : Ptr) (cand : List UInt64) : Pc :=
  if old.pba = 0 ∨ InSlot s.rt old.pba then .collecting old (orphans crc s.vol s.rt s.pinned cand)
  else
    match markRoots crc s.vol [root, s.pinned] with
    | none => .collecting old (orphans crc s.vol s.rt s.pinned cand)
    | some seen => .diffing old [old] seen

/-- The next step of `bt_free_rec`. What it cannot read ends it. -/
def visit (s : Sys) (old p : Ptr) (stack : List Ptr) (seen : List UInt64) (cand : List UInt64) : Sys :=
  if p.pba ∈ seen then { s with pc := .diffing old stack seen }
  else
    match kids crc s.vol p with
    | none => { s with pc := .collecting old (orphans crc s.vol s.rt s.pinned cand) }
    | some ps =>
      { s with vol := mbufFree s.hold s.vol p.pba, pc := .diffing old (ps ++ stack) (p.pba :: seen) }

/-- `mbuf_page_validate` refuses the block. -/
def Plain (page : List Byte) : Prop := ¬ pageValidate crc page

variable (logs : List Byte → Prop)

/-- One step of the thread that folds, which sees `n` readers. The candidates of the collector are any blocks,
and `logs` is what is known of a block of the log. -/
inductive Folds : Nat → Sys → Sys → Prop
  /-- A session has filled a segment of the log. -/
  | grow {n s} {v' : Vol} {pba : Nat} (hpc : s.pc = .idle) (h : Grows s.vol v' pba)
      (hlogs : ∀ b ∈ segBlocks s.vol.total pba, logs (v'.dev.view b)) :
      Folds n s { s with vol := v', chain := pba :: s.chain }
  /-- `vol_fold` reads the root. The generation has room for one step per record. -/
  | start {n s} {old : Ptr} (recs : List (Key × Bool × Val)) (supply : List Ticket) (hpc : s.pc = .idle)
      (hold : baseRoot crc s.vol s.rt = some old) (hroom : old.gen.toNat + recs.length < 2 ^ 64) :
      Folds n s { s with
        vol := { s.vol with supply := supply }, pc := .building { s.vol with supply := supply } recs old }
  /-- Some pages of the copy are written. -/
  | place {n s} {v v' : Vol} {recs : List (Key × Bool × Val)} {old : Ptr} (hpc : s.pc = .building v recs old)
      (hf : Frame s.vol v') (hf' : Frame v' (runs (copy crc recs old) v).2) : Folds n s { s with vol := v' }
  | fail {n s} {v : Vol} {recs : List (Key × Bool × Val)} {old : Ptr} (hpc : s.pc = .building v recs old) :
      Folds n s { s with pc := .resuming old }
  | name {n s} {v : Vol} {recs : List (Key × Bool × Val)} {old root : Ptr} {ck : Ck}
      (hpc : s.pc = .building v recs old) (hrun : runs (copy crc recs old) v = (some root, s.vol))
      (hck : check crc s.vol root = .ok ck) :
      Folds n s { s with rt := Rt.name s.rt root.pba, pc := .slotted old root }
  | bump {n s} {old root : Ptr} (hpc : s.pc = .slotted old root) :
      Folds n s { s with rt := Rt.bump s.rt, pc := .published old root }
  /-- The descriptor cannot be stored. -/
  | unstored {n s} {old root : Ptr} (hpc : s.pc = .published old root) : Folds n s { s with pc := .resuming old }
  /-- `fold_delta_reset` -/
  | reset {n s} {old root : Ptr} (hpc : s.pc = .published old root) :
      Folds n s { s with
        rt := { s.rt with deltaPba := 0 }, chain := []
        pc := .unlogging old root (s.chain.flatMap (segBlocks s.vol.total)) }
  | unlog {n s} {old root : Ptr} {b : UInt64} {todo : List UInt64} (hpc : s.pc = .unlogging old root (b :: todo)) :
      Folds n s { s with vol := mbufFree s.hold s.vol b, pc := .unlogging old root todo }
  /-- The end of the chain, or a header that does not read. -/
  | unlogged {n s} {old root : Ptr} {todo : List UInt64} (hpc : s.pc = .unlogging old root todo) :
      Folds n s { s with pc := .draining old root }
  /-- `vol_reclaim_drain` sees no reader. -/
  | drained {s} {old root : Ptr} (hpc : s.pc = .draining old root) : Folds 0 s { s with pc := .sweeping old root }
  /-- `vol_reclaim_drain` gives up. -/
  | timeout {n s} {old root : Ptr} (hpc : s.pc = .draining old root) : Folds n s { s with pc := .resuming old }
  | enter {n s} {old root : Ptr} (cand : List UInt64) (hpc : s.pc = .sweeping old root) :
      Folds n s { s with pc := enter crc s old root cand }
  | visit {n s} {old p : Ptr} {stack : List Ptr} {seen : List UInt64} (cand : List UInt64)
      (hpc : s.pc = .diffing old (p :: stack) seen) : Folds n s (visit crc s old p stack seen cand)
  | visited {n s} {old : Ptr} {seen : List UInt64} (cand : List UInt64) (hpc : s.pc = .diffing old [] seen) :
      Folds n s { s with pc := .collecting old (orphans crc s.vol s.rt s.pinned cand) }
  | collect {n s} {old : Ptr} {b : UInt64} {todo : List UInt64} (hpc : s.pc = .collecting old (b :: todo)) :
      Folds n s { s with vol := mbufFree s.hold s.vol b, pc := .collecting old todo }
  | collected {n s} {old : Ptr} {todo : List UInt64} (hpc : s.pc = .collecting old todo) :
      Folds n s { s with pc := .resuming old }
  | again {n s} {old root : Ptr} (hpc : s.pc = .resuming old) (hroot : baseRoot crc s.vol s.rt = some root) :
      Folds n s { s with pc := .draining old root }
  | settle {n s} {old : Ptr} (hpc : s.pc = .resuming old) : Folds n s { s with pc := .idle }

/-- Where a reader stands: in the loop of `mbuf_root_read` with the best root so far, or on the walk below
the root it has captured. -/
inductive Local where
  | looking (i : Nat) (best : Option (UInt64 × UInt64))
  | peeked (i : Nat) (pba : UInt64) (best : Option (UInt64 × UInt64))
  | chosen (pba : UInt64)
  | walking (root : Ptr) (pages : Set UInt64)
  | rootless

/-- One round of the loop of `mbuf_root_read`. -/
def judge (rt : Rt) (i : Nat) (pba : UInt64) (best : Option (UInt64 × UInt64)) : Option (UInt64 × UInt64) :=
  match slotPage crc v pba with
  | none => best
  | some page =>
    match best with
    | none => some (pba, (pageHdr page).gen)
    | some (b, g) =>
      if g < (pageHdr page).gen ∨ (pageHdr page).gen = g ∧ rt.seq % 2 = i then some (pba, (pageHdr page).gen)
      else some (b, g)

/-- The root in a block, as `base_root` sets it. -/
def rootOf (x : UInt64) : Ptr := ptrSet x (v.dev.view x) bpRoot

inductive Looks (s : Sys) : Local → Local → Prop
  | peek {i : Nat} {best : Option (UInt64 × UInt64)} (hi : i < 2) :
      Looks s (.looking i best) (.peeked i (Rt.slot s.rt i) best)
  | judge (i : Nat) (pba : UInt64) (best : Option (UInt64 × UInt64)) :
      Looks s (.peeked i pba best) (.looking (i + 1) (judge crc s.vol s.rt i pba best))
  | choose (pba gen : UInt64) : Looks s (.looking 2 (some (pba, gen))) (.chosen pba)
  | lose : Looks s (.looking 2 none) .rootless
  | capture (pba : UInt64) :
      Looks s (.chosen pba) (.walking (rootOf s.vol pba) {b | Reaches crc s.vol (rootOf s.vol pba) b})

def protocol : ReaderEpoch.Protocol Sys Local where
  start := .looking 0 none
  look := Looks crc
  write := Folds crc logs

variable {crc} {logs}

variable {old : Ptr} {stack : List Ptr} {s : Sys} {p : Ptr} {seen cand : List UInt64}

theorem visit_seen (hp : p.pba ∈ seen) :
    visit crc s old p stack seen cand = { s with pc := .diffing old stack seen } := if_pos hp

theorem visit_free {ps : List Ptr} (hp : p.pba ∉ seen)
    (hps : kids crc s.vol p = some ps) : visit crc s old p stack seen cand =
      { s with vol := mbufFree s.hold s.vol p.pba, pc := .diffing old (ps ++ stack) (p.pba :: seen) } := by
  rw [visit, if_neg hp, hps]

variable {hold : UInt64 → Bool} {d d' : ReclaimDiff.Diff}

theorem folds_visitAll (n : Nat) {f : Ptr → Act ReclaimDiff.Diff Unit}
    (hf : ∀ {s : Sys} {p : Ptr} {stack : List Ptr} {d d' : ReclaimDiff.Diff}, s.hold = hold → s.vol = d.vol →
      s.pc = .diffing old (p :: stack) d.seen → runs (f p) d = (some (), d') →
      ReflTransGen (Folds crc logs n) s { s with vol := d'.vol, pc := .diffing old stack d'.seen })
    {ps : List Ptr} (hhold : s.hold = hold) (hvol : s.vol = d.vol)
    (hpc : s.pc = .diffing old (ps ++ stack) d.seen) (hrun : runs (ReclaimDiff.visitAll f ps) d = (some (), d')) :
    ReflTransGen (Folds crc logs n) s { s with vol := d'.vol, pc := .diffing old stack d'.seen } := by
  induction ps generalizing s d with
  | nil =>
    obtain ⟨-, rfl⟩ := mk.inj hrun
    rw [← hvol]
    change s.pc = .diffing old stack d.seen at hpc
    rw [← hpc]
  | cons p ps ih =>
    obtain ⟨_, d1, hone, hrest⟩ := bind_some.mp hrun
    exact (hf hhold hvol hpc hone).trans (ih hhold rfl rfl hrest)

theorem folds_freeRec (n fuel : Nat) (hhold : s.hold = hold) (hvol : s.vol = d.vol)
    (hpc : s.pc = .diffing old (p :: stack) d.seen)
    (hrun : runs (ReclaimDiff.freeRec crc hold fuel p) d = (some (), d')) :
    ReflTransGen (Folds crc logs n) s { s with vol := d'.vol, pc := .diffing old stack d'.seen } := by
  induction fuel generalizing s p stack d d' with
  | zero =>
    rw [ReclaimDiff.freeRec, runs_act] at hrun
    split_ifs at hrun with hp
    · obtain ⟨-, rfl⟩ := mk.inj hrun
      rw [← hvol, ← visit_seen hp]
      exact .single (.visit [] hpc)
    · cases hrun
  | succ fuel ih =>
    subst hhold
    obtain ⟨_, _, hget, hrun⟩ := bind_some.mp hrun
    obtain ⟨rfl, rfl⟩ := hget
    have hstep : Folds crc logs n s (visit crc s old p stack d.seen []) := .visit [] hpc
    split_ifs at hrun with hp
    · obtain ⟨-, rfl⟩ := mk.inj hrun
      rw [visit_seen hp] at hstep
      rw [← hvol]
      exact .single hstep
    · rw [← hvol] at hrun
      split at hrun
      · cases hrun
      rename_i ps hps
      rw [visit_free hp hps] at hstep
      obtain ⟨_, d1, hfree, hall⟩ := bind_some.mp hrun
      obtain ⟨-, rfl⟩ := mk.inj hfree
      exact .head hstep (folds_visitAll n ih rfl (by rw [hvol]) rfl hall)

/-- From the root of two leaves all pages go, one at a time. -/
theorem folds_freeRec_two : ∃ (s s' : Sys) (p leaf : Ptr), s.pc = .diffing p [p] [] ∧ p.pba ≠ leaf.pba ∧
    (s.vol.bit p.pba = true ∧ s.vol.bit leaf.pba = true) ∧ (s'.vol.bit p.pba = false ∧ s'.vol.bit leaf.pba = false) ∧
    ReflTransGen (Folds crc32c (Plain crc32c) 0) s s' := by
  obtain ⟨v, p, leaf, hp, -, ⟨hroot, hbit⟩, ⟨hleaf, hbit'⟩, hself, hno⟩ := ReclaimDiff.two_leaves crc32c
  have hmark : markRoots crc32c v [] = some [] := rfl
  obtain ⟨d, hrun, hd⟩ := ReclaimDiff.freeRec_bit (fun _ => false) (by simpa using hp) hroot.1 hmark
  have hfree : ∀ b, Reaches crc32c v p b → d.vol.bit b = false := fun b hb =>
    Bool.eq_false_iff.mpr fun h => ((hd b).mp h).2 ⟨hb, by simp, rfl⟩
  exact ⟨⟨v, ⟨(0, 0), 0, 0⟩, fun _ => false, .null, [], .diffing p [p] []⟩, _, p, leaf, rfl,
    fun h => hno (h ▸ hself), ⟨hbit, hbit'⟩, ⟨hfree _ hroot, hfree _ hleaf⟩, folds_freeRec 0 _ rfl rfl rfl hrun⟩

end InvariantFs.FoldReaders
