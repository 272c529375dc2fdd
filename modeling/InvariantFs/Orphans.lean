import InvariantFs.BaseRoot
import InvariantFs.Marking
import InvariantFs.SavePointPin

namespace InvariantFs.Orphans

open ByteCodec BtreePage Btree BtreeShape BaseRoot DeltaLog Marking List Option

/-- One pool of blocks: the files and the bitmap, the descriptor with the root slots of the base if there is
one, the root and the blocks that a save point holds, the live inodes and the segments of the delta. -/
structure Pool where
  disk : Retire.Disk
  fits : disk.vol.total < 2 ^ 64
  rt : Option Rt
  pinned : Ptr
  hold : Nat → Bool
  inodes : List Nat
  chain : List Nat

def Pool.total (s : Pool) : Nat := s.disk.vol.total

def Pool.crc (s : Pool) : List Byte → UInt32 := s.disk.vol.codecs.crc

def Pool.rows (s : Pool) : List FileRead.Row := s.inodes.filterMap s.disk.vol.row

def block (v : FileRead.Vol) (b : Nat) : List Byte := v.bytes (b * FileRead.blockSize) FileRead.blockSize

def Pool.base (s : Pool) : Vol where
  total := .ofNat s.total
  bit p := s.disk.bit p.toNat
  bmLo := 1
  bmHi := 0
  dev := ⟨fun p => block s.disk.vol p.toNat, []⟩
  supply := []

structure Orph where
  pba : List Nat
  seedCursor : Nat
  seedDone : Bool

def candAdd (total : Nat) (o : Orph) (b : Nat) : Orph :=
  if b = 0 ∨ total ≤ b ∨ b ∈ o.pba then o else { o with pba := o.pba ++ [b] }

/-- The block looks like a page of the base, `ORPHAN_MAX_LEVEL` included. -/
def basePage (s : Pool) (b : Nat) : Bool :=
  pageValidate s.crc (block s.disk.vol b) ∧ (pageHdr (block s.disk.vol b)).level ≤ 32

/-- The loop of `orph_seed_scan`: eight blocks are passed over where their byte of the bitmap is zero. -/
def seedLoop (s : Pool) (budget : Nat) : Nat → Nat → Nat → Orph → Nat × Orph
  | 0, b, _, o => (b, o)
  | fuel + 1, b, reads, o =>
    if s.total ≤ b ∨ budget ≤ reads then (b, o)
    else if (range' (b / 8 * 8) 8).all fun c => !s.disk.bit c then seedLoop s budget fuel (b + 8) reads o
    else seedLoop s budget fuel (b + 1) (reads + 1) (if basePage s b then candAdd s.total o b else o)

def seedScan (s : Pool) (budget : Nat) (o : Orph) : Orph :=
  if o.seedDone then o
  else
    let r := seedLoop s budget s.total (if o.seedCursor = 0 then 1 else o.seedCursor) 0 o
    if s.total ≤ r.1 then { r.2 with seedDone := true, seedCursor := 1 } else { r.2 with seedCursor := r.1 }

/-- `orphan_row_recipe`: the block pointer in a value that looks like an inode row. -/
def rowRecipe (x : Val) : Option UInt64 :=
  if x.length < 54 + 24 ∨ 114 + 4096 < x.length then none
  else if leNat (x.take 4) ≠ 1 ∧ leNat (x.take 4) ≠ 2 then none
  else if 6 < leNat ((x.drop 4).take 4) then none
  else some (.ofNat (leNat ((x.drop 54).take 8)))

/-- What `bt_mark_rec_deep` goes on to: the children of a node, and on a leaf the pointers of its rows. -/
def kids (s : Pool) (p : Ptr) : Option (List Ptr) :=
  (readNode s.crc s.base p).map fun n =>
    if n.1 = 0 then
      ((n.2.filterMap fun e => rowRecipe e.v).filter fun q => q ≠ 0 ∧ q < s.base.total).map (⟨·, 0, 0, 0⟩)
    else (n.2.map Ent.child).filter fun c => c.pba ≠ 0

def slotPtr (s : Pool) (pba : UInt64) : Option Ptr :=
  (slotPage s.crc s.base pba).map fun page => ptrSet pba page (bpLeaf ||| bpRoot)

/-- The roots in the slots of the descriptor; `none` if there is no descriptor or a slot in use does not
read. -/
def liveRoots (s : Pool) : Option (List Ptr) :=
  s.rt.bind fun rt => ([rt.rootSlot.1, rt.rootSlot.2].filter (· ≠ 0)).mapM (slotPtr s)

def pinnedRoots (s : Pool) : List Ptr := if s.pinned.pba = 0 then [] else [s.pinned]

def seen (s : Pool) (roots : List Ptr) : Option (List UInt64) :=
  markAll Ptr.pba (kids s) s.total (roots ++ pinnedRoots s)

def maxGen (roots : List Ptr) : UInt64 := (roots.map Ptr.gen).foldl max 0

def looksFreeable (s : Pool) (roots : List Ptr) (b : Nat) : Bool :=
  basePage s b ∧ (pageHdr (block s.disk.vol b)).gen ≤ maxGen roots

def mbufFree (s : Pool) (b : Nat) : Pool :=
  { s with
    disk := { s.disk with bit := SavePointPin.freeBlocks s.total false s.hold s.disk.bit (b, 1) }
    fits := s.fits }

structure Collected where
  pool : Pool
  orph : Orph
  settled : Bool
  rc : Int

/-- `btree_collect_orphans`. `flush` is the answer of the bitmap flush behind the frees. -/
def collectOrphans (s : Pool) (o : Orph) (budget : Nat) (flush : Bool) : Collected :=
  match liveRoots s with
  | none | some [] => ⟨s, o, true, 0⟩
  | some roots =>
    let o := seedScan s budget o
    let kept := o.pba.filter fun b => b ≠ 0 ∧ b < s.total ∧ s.disk.bit b
    let cand := kept.filter (looksFreeable s roots)
    if cand = [] then ⟨s, { o with pba := kept }, false, 0⟩
    else
      match seen s roots with
      | none => ⟨s, { o with pba := kept }, false, -1⟩
      | some marked =>
        let s' := (cand.filter fun b => UInt64.ofNat b ∉ marked).foldl mbufFree s
        let freed := (cand.filter fun b => ¬ s'.disk.bit b).length
        ⟨s', { o with pba := kept.filter s'.disk.bit }, o.seedDone ∧ freed = 0,
          if freed ≠ 0 ∧ ¬ flush then -1 else 0⟩

def drainMaxRounds : Nat := 0x400000

/-- The loop of `btree_collect_orphans_full`. -/
def drain (budget : Nat) (flush : Nat → Bool) : Nat → Pool → Orph → Pool × Int
  | 0, s, _ => (s, 0)
  | rounds + 1, s, o =>
    let r := collectOrphans s o budget (flush rounds)
    if r.rc ≠ 0 then (r.pool, r.rc)
    else if r.settled then (r.pool, 0)
    else drain budget flush rounds r.pool r.orph

def collectOrphansFull (s : Pool) (o : Orph) (budget : Nat) (flush : Nat → Bool) : Pool × Int :=
  drain budget flush drainMaxRounds s o

variable {s s' : Pool} {o : Orph} {b budget : Nat} {roots : List Ptr}

/-- The block can be reached from one of the roots, also through the pointers of rows. -/
def Reached (s : Pool) (roots : List Ptr) (b : Nat) : Prop :=
  ∃ p ∈ roots ++ pinnedRoots s, ∃ q, Relation.ReflTransGen (Edge (kids s)) p q ∧ q.pba.toNat = b

/-- The roots can be walked, and the block looks like a base page that none of them reaches and no save
point holds. -/
structure Collectable (s : Pool) (b : Nat) : Prop where
  pos : b ≠ 0
  inside : b < s.total
  free : s.hold b = false
  unreached : ∃ roots, liveRoots s = some roots ∧ roots ≠ [] ∧ (seen s roots).isSome ∧
    looksFreeable s roots b ∧ ¬ Reached s roots b

theorem kids_same (s : Pool) (p q : Ptr) (ps qs : List Ptr) (hkey : p.pba = q.pba)
    (hp : kids s p = some ps) (hq : kids s q = some qs) : ps = qs := by
  obtain ⟨n, hn, rfl⟩ := map_eq_some_iff.mp hp
  obtain ⟨m, hm, rfl⟩ := map_eq_some_iff.mp hq
  obtain ⟨page, hpage, hdec⟩ := readNode_some s.crc hn
  obtain ⟨page', hpage', hdec'⟩ := readNode_some s.crc hm
  obtain ⟨-, -, -, -, hview⟩ := readPage_some s.crc hpage
  obtain ⟨-, -, -, -, hview'⟩ := readPage_some s.crc hpage'
  rw [hview, hkey, ← hview', hdec'] at hdec
  rw [some.inj hdec]

theorem mem_seen {marked : List UInt64} (h : seen s roots = some marked) (hb : b < s.total) :
    UInt64.ofNat b ∈ marked ↔ Reached s roots b := by
  have hround : (UInt64.ofNat b).toNat = b := by simpa using Nat.mod_eq_of_lt (Nat.lt_trans hb s.fits)
  rw [mem_markAll (kids_same s) h]
  constructor
  · rintro ⟨p, hp, q, hreach, hq⟩
    exact ⟨p, hp, q, hreach, by rw [hq, hround]⟩
  · rintro ⟨p, hp, q, hreach, hq⟩
    exact ⟨p, hp, q, hreach, by rw [← hq, UInt64.ofNat_toNat]⟩

def withBits (s : Pool) (bit : Nat → Bool) : Pool :=
  { s with disk := { s.disk with bit := bit }, fits := s.fits }

theorem freeOne_bit {total : Nat} {hold bit : Nat → Bool} {c : Nat} :
    SavePointPin.freeBlocks total false hold bit (c, 1) b = true ↔
      bit b = true ∧ ¬ (b = c ∧ c < total ∧ hold c = false) := by
  have hrange : (c ≤ b ∧ b < min (c + 1) total) ↔ (b = c ∧ c < total) := by omega
  have hheld : (range' c (min (c + 1) total - c)).any hold = true ↔ c < total ∧ hold c = true := by
    by_cases hc : c < total
    · simp [hc]
    · have hlen : min (c + 1) total - c = 0 := by omega
      simp [hlen, hc]
  simp only [SavePointPin.freeBlocks]
  by_cases hh : c < total ∧ hold c = true
  · rw [if_pos ⟨by simp, hheld.mpr hh⟩]
    refine ⟨fun h => ⟨h, fun hno => ?_⟩, And.left⟩
    simp [hh.2] at hno
  · rw [if_neg fun h => hh (hheld.mp h.2)]
    by_cases hb : b = c ∧ c < total
    · rw [if_pos (hrange.mpr hb)]
      refine ⟨by simp, fun h => absurd ⟨hb.1, hb.2, ?_⟩ h.2⟩
      simpa [hb.2] using hh
    · rw [if_neg (mt hrange.mp hb)]
      exact ⟨fun h => ⟨h, fun hno => hb ⟨hno.1, hno.2.1⟩⟩, And.left⟩

variable {cs : List Nat}

theorem frees_bit : (cs.foldl mbufFree s).disk.bit b = true ↔
      s.disk.bit b = true ∧ ¬ (b ∈ cs ∧ b < s.total ∧ s.hold b = false) := by
  induction cs generalizing s with
  | nil => simp
  | cons c cs ih =>
    rw [foldl_cons, ih]
    change SavePointPin.freeBlocks s.total false s.hold s.disk.bit (c, 1) b = true ∧
      ¬ (b ∈ cs ∧ b < s.total ∧ s.hold b = false) ↔ _
    rw [freeOne_bit, mem_cons]
    constructor
    · rintro ⟨⟨hbit, hc⟩, hcs⟩
      refine ⟨hbit, ?_⟩
      rintro ⟨rfl | hmem, hrest⟩
      · exact hc ⟨rfl, hrest⟩
      · exact hcs ⟨hmem, hrest⟩
    · rintro ⟨hbit, hno⟩
      refine ⟨⟨hbit, ?_⟩, fun h => hno ⟨.inr h.1, h.2⟩⟩
      rintro ⟨rfl, hrest⟩
      exact hno ⟨.inl rfl, hrest⟩

theorem frees_freed (hbit : s.disk.bit b = true)
    (hfreed : (cs.foldl mbufFree s).disk.bit b = false) : b ∈ cs ∧ b < s.total ∧ s.hold b = false := by
  by_contra hno
  have := frees_bit.mpr ⟨hbit, hno⟩
  rw [hfreed] at this
  simp at this

theorem frees_same : cs.foldl mbufFree s = withBits s (cs.foldl mbufFree s).disk.bit := by
  induction cs generalizing s with
  | nil => rfl
  | cons c cs ih => exact ih

theorem collect_frees (s : Pool) (o : Orph) (budget : Nat) (flush : Bool) :
    (collectOrphans s o budget flush).pool = withBits s (collectOrphans s o budget flush).pool.disk.bit ∧
      (∀ b, (collectOrphans s o budget flush).pool.disk.bit b = true → s.disk.bit b = true) ∧
      ∀ b, s.disk.bit b = true → (collectOrphans s o budget flush).pool.disk.bit b = false → Collectable s b := by
  have hnone : s = withBits s s.disk.bit ∧ (∀ b, s.disk.bit b = true → s.disk.bit b = true) ∧
      ∀ b, s.disk.bit b = true → s.disk.bit b = false → Collectable s b :=
    ⟨rfl, fun _ h => h, fun b h h' => by simp [h] at h'⟩
  unfold collectOrphans
  split
  · exact hnone
  · exact hnone
  · rename_i roots hne hroots
    dsimp only
    split_ifs
    · exact hnone
    · split
      · exact hnone
      · rename_i marked hseen
        refine ⟨frees_same, fun b hb => (frees_bit.mp hb).1, fun b hbit hfreed => ?_⟩
        obtain ⟨hcand, hin, hfree⟩ := frees_freed hbit hfreed
        simp only [mem_filter, decide_eq_true_eq] at hcand
        obtain ⟨⟨⟨-, hpos, -⟩, hlooks⟩, hunseen⟩ := hcand
        exact ⟨hpos, hin, hfree, roots, hroots, hne, by simp [hseen], hlooks,
          fun h => hunseen ((mem_seen hseen hin).mpr h)⟩

variable {p : Ptr} {pba : UInt64} {ps : List Ptr}

section Rounds

variable {bit : Nat → Bool} (hfewer : ∀ b, bit b = true → s.disk.bit b = true)

include hfewer

theorem readNode_withBits {n : Nat × List Ent}
    (h : readNode s.crc (withBits s bit).base p = some n) : readNode s.crc s.base p = some n := by
  obtain ⟨page, hpage, hdec⟩ := readNode_some s.crc h
  obtain ⟨h0, hlt, hb, hm, hview⟩ := readPage_some s.crc hpage
  refine bind_eq_some_iff.mpr ⟨page, ?_, hdec⟩
  unfold readPage
  rw [if_neg]
  · exact congrArg some hview.symm
  · simp only [not_or, not_not]
    refine ⟨h0, UInt64.not_le.mpr hlt, ?_, hview ▸ hm⟩
    rw [Bool.not_eq_false]
    exact hfewer _ hb

theorem kids_withBits (h : kids (withBits s bit) p = some ps) : kids s p = some ps := by
  obtain ⟨n, hn, hps⟩ := map_eq_some_iff.mp h
  exact map_eq_some_iff.mpr ⟨n, readNode_withBits hfewer hn, hps⟩

theorem slotPtr_withBits (h : slotPtr (withBits s bit) pba = some p) : slotPtr s pba = some p := by
  obtain ⟨page, hpage, hp⟩ := map_eq_some_iff.mp h
  refine map_eq_some_iff.mpr ⟨page, ?_, hp⟩
  unfold slotPage at hpage ⊢
  rw [ite_none_left_eq_some] at hpage ⊢
  obtain ⟨hno, hwhole⟩ := hpage
  simp only [not_or, Bool.not_eq_false] at hno ⊢
  exact ⟨⟨hno.1, hno.2.1, hfewer _ hno.2.2⟩, hwhole⟩

theorem liveRoots_withBits (h : liveRoots (withBits s bit) = some roots) : liveRoots s = some roots := by
  obtain ⟨rt, hrt, hmap⟩ := bind_eq_some_iff.mp h
  refine bind_eq_some_iff.mpr ⟨rt, hrt, ?_⟩
  exact Spans.mapM_iff.mpr ((Spans.mapM_iff.mp hmap).imp fun _ _ => slotPtr_withBits hfewer)

theorem collectable_withBits (h : Collectable (withBits s bit) b) : Collectable s b := by
  obtain ⟨hpos, hin, hfree, roots, hroots, hne, hsome, hlooks, hunreached⟩ := h
  obtain ⟨marked, hmarked⟩ := isSome_iff_exists.mp hsome
  have hmarked' : seen s roots = some marked := markAll_mono (fun p ps => kids_withBits hfewer) hmarked
  refine ⟨hpos, hin, hfree, roots, liveRoots_withBits hfewer hroots, hne, by simp [hmarked'], hlooks, ?_⟩
  rw [← mem_seen hmarked' hin]
  rwa [← mem_seen hmarked hin] at hunreached

end Rounds

theorem drain_frees (flush : Nat → Bool) (rounds : Nat) (hbit : s.disk.bit b = true)
    (hfreed : (drain budget flush rounds s o).1.disk.bit b = false) : Collectable s b := by
  induction rounds generalizing s o with
  | zero =>
    change s.disk.bit b = false at hfreed
    simp [hbit] at hfreed
  | succ rounds ih =>
    obtain ⟨hsame, hfewer, hcoll⟩ := collect_frees s o budget (flush rounds)
    cases hmid : (collectOrphans s o budget (flush rounds)).pool.disk.bit b with
    | false => exact hcoll b hbit hmid
    | true =>
      unfold drain at hfreed
      dsimp only at hfreed
      split_ifs at hfreed
      · simp [hmid] at hfreed
      · simp [hmid] at hfreed
      · have := ih hmid hfreed
        rw [hsame] at this
        exact collectable_withBits hfewer this

def treeKids (s : Pool) (p : Ptr) : Option (List Ptr) :=
  (readNode s.crc s.base p).map fun n => if n.1 = 0 then [] else n.2.map Ent.child

inductive Stored (s : Pool) (b : Nat) : Prop where
  | delta {p : Nat} (hp : p ∈ s.chain) (hb : SavePointPin.within b (p, DeltaSegment.segBlocks))
  | named (h : SavePointPin.NamedBy FreshBlocks.Names s.disk.vol s.rows b)

inductive Protected (s : Pool) (b : Nat) : Prop where
  | live {rt : Rt} {root q : Ptr} (hrt : s.rt = some rt) (hroot : baseRoot s.crc s.base rt = some root)
      (hq : Relation.ReflTransGen (Edge (treeKids s)) root q) (hb : q.pba.toNat = b)
  | pinned {q : Ptr} (hq : Relation.ReflTransGen (Edge (treeKids s)) s.pinned q) (hb : q.pba.toNat = b)
  | stored (h : Stored s b)

theorem kids_pos (h : kids s p = some ps) : p.pba ≠ 0 := by
  obtain ⟨n, hn, -⟩ := map_eq_some_iff.mp h
  obtain ⟨page, hpage, -⟩ := readNode_some s.crc hn
  exact (readPage_some s.crc hpage).1

variable {q : Ptr}

theorem treeEdge_kids (h : Edge (treeKids s) p q) (hq : q.pba ≠ 0) : Edge (kids s) p q := by
  obtain ⟨ps, hps, hmem⟩ := h
  obtain ⟨n, hn, rfl⟩ := map_eq_some_iff.mp hps
  split_ifs at hmem with hlevel
  · simp at hmem
  · refine ⟨_, map_eq_some_iff.mpr ⟨n, hn, rfl⟩, ?_⟩
    rw [if_neg hlevel]
    exact mem_filter.mpr ⟨hmem, by simpa using hq⟩

theorem tree_reached (h : Relation.ReflTransGen (Edge (treeKids s)) p q) (hq : q.pba ≠ 0) :
    Relation.ReflTransGen (Edge (kids s)) p q := by
  induction h with
  | refl => exact .refl
  | tail _ hedge ih =>
    obtain ⟨ps, hps, hmem⟩ := treeEdge_kids hedge hq
    exact (ih (kids_pos hps)).tail ⟨ps, hps, hmem⟩

theorem reached_flags {page : List Byte} {flags : UInt32} (flags' : UInt32)
    (hp : ptrSet pba page flags' ∈ roots ++ pinnedRoots s)
    (h : Relation.ReflTransGen (Edge (kids s)) (ptrSet pba page flags) q) (hb : q.pba.toNat = b) :
    Reached s roots b := by
  have hkids : kids s (ptrSet pba page flags') = kids s (ptrSet pba page flags) :=
    congrArg (Option.map _) (readNode_flags s.crc s.base (ptrSet pba page flags) flags')
  obtain rfl | ⟨r, ⟨ps, hps, hr⟩, hrest⟩ := Relation.ReflTransGen.cases_head h
  · exact ⟨_, hp, _, .refl, hb⟩
  · exact ⟨_, hp, q, .head ⟨ps, hkids.trans hps, hr⟩ hrest, hb⟩

theorem rootRead_slot {v : Vol} {crc : List Byte → UInt32} {rt : Rt} (h : rootRead crc v rt = some (some pba)) :
    (pba = rt.rootSlot.1 ∨ pba = rt.rootSlot.2) ∧ slotPage crc v pba = some (v.dev.view pba) := by
  have hview : ∀ {p page}, slotPage crc v p = some page → slotPage crc v p = some (v.dev.view p) := by
    intro p page hp
    simp only [slotPage, wholePage, ite_none_left_eq_some, and_true] at hp ⊢
    exact ⟨hp.1, hp.2.1⟩
  unfold rootRead at h
  split at h
  · split_ifs at h
    simp at h
  · rename_i ha hb
    obtain rfl := some.inj (some.inj h)
    exact ⟨.inl rfl, hview ha⟩
  · rename_i ha hb
    obtain rfl := some.inj (some.inj h)
    exact ⟨.inr rfl, hview hb⟩
  · rename_i ha hb
    split_ifs at h
    · obtain rfl := some.inj (some.inj h)
      exact ⟨.inr rfl, hview hb⟩
    · obtain rfl := some.inj (some.inj h)
      exact ⟨.inl rfl, hview ha⟩

theorem live_reached {rt : Rt} {root : Ptr} (hrt : s.rt = some rt) (hroot : baseRoot s.crc s.base rt = some root)
    (hroots : liveRoots s = some roots) (hq : Relation.ReflTransGen (Edge (kids s)) root q) (hb : q.pba.toNat = b)
    (hpos : b ≠ 0) : Reached s roots b := by
  obtain ⟨slot, hread, hslot⟩ := map_eq_some_iff.mp hroot
  cases slot with
  | none =>
    obtain rfl : Ptr.null = root := hslot
    obtain rfl | ⟨r, ⟨ps, hps, -⟩, -⟩ := Relation.ReflTransGen.cases_head hq
    · exact absurd hb.symm hpos
    · exact absurd rfl (kids_pos hps)
  | some pba =>
    obtain rfl : ptrSet pba (s.base.dev.view pba) bpRoot = root := hslot
    obtain ⟨hmem, hpage⟩ := rootRead_slot hread
    have h0 : pba ≠ 0 := by
      rintro rfl
      simp [slotPage] at hpage
    have hmap : ([rt.rootSlot.1, rt.rootSlot.2].filter (· ≠ 0)).mapM (slotPtr s) = some roots := by
      simpa [liveRoots, hrt] using hroots
    obtain ⟨p', hp', hptr⟩ := Spans.forall₂_right (Spans.mapM_iff.mp hmap).flip (y := pba) (by simpa [h0] using hmem)
    obtain rfl : p' = ptrSet pba (s.base.dev.view pba) (bpLeaf ||| bpRoot) := by
      simpa [slotPtr, hpage] using hptr.symm
    exact reached_flags _ (mem_append_left _ hp') hq hb

theorem tree_uncollectable {root : Ptr}
    (hroot : (∃ rt, s.rt = some rt ∧ baseRoot s.crc s.base rt = some root) ∨ root = s.pinned)
    (hq : Relation.ReflTransGen (Edge (treeKids s)) root q) (hb : q.pba.toNat = b) : ¬ Collectable s b := by
  rintro ⟨hpos, -, -, roots, hroots, -, -, -, hunreached⟩
  have h0 : q.pba ≠ 0 := by
    intro h0
    exact hpos (by simpa [h0] using hb.symm)
  have hreach := tree_reached hq h0
  refine hunreached ?_
  obtain ⟨rt, hrt, hroot⟩ | rfl := hroot
  · exact live_reached hrt hroot hroots hreach hb hpos
  · have hp : s.pinned.pba ≠ 0 := by
      obtain rfl | ⟨r, ⟨ps, hps, -⟩, -⟩ := Relation.ReflTransGen.cases_head hreach
      · exact h0
      · exact kids_pos hps
    exact ⟨s.pinned, by simp [pinnedRoots, hp], q, hreach, hb⟩

theorem protected_stored (h : Protected s b) : Stored s b ∨ ¬ Collectable s b := by
  obtain ⟨hrt, hroot, hq, hb⟩ | ⟨hq, hb⟩ | h := h
  · exact .inr (tree_uncollectable (.inl ⟨_, hrt, hroot⟩) hq hb)
  · exact .inr (tree_uncollectable (.inr rfl) hq hb)
  · exact .inl h

theorem collect_takes (h : Collectable s b) (hbit : s.disk.bit b = true) (hb : b ∈ (seedScan s budget o).pba)
    (flush : Bool) : (collectOrphans s o budget flush).pool.disk.bit b = false := by
  obtain ⟨hpos, hin, hfree, roots, hroots, hne, hsome, hlooks, hunreached⟩ := h
  obtain ⟨root, rest, rfl⟩ := exists_cons_of_ne_nil hne
  obtain ⟨marked, hmarked⟩ := isSome_iff_exists.mp hsome
  have hunseen : UInt64.ofNat b ∉ marked := fun hm => hunreached ((mem_seen hmarked hin).mp hm)
  have hcand : b ∈ ((seedScan s budget o).pba.filter fun b => b ≠ 0 ∧ b < s.total ∧ s.disk.bit b).filter
      (looksFreeable s (root :: rest)) := mem_filter.mpr ⟨mem_filter.mpr ⟨hb, by simp [hpos, hin, hbit]⟩, hlooks⟩
  rw [← Bool.not_eq_true]
  simp only [collectOrphans, hroots, hmarked, if_neg (ne_nil_of_mem hcand), frees_bit]
  rintro ⟨-, hno⟩
  exact hno ⟨mem_filter.mpr ⟨hcand, by simpa using hunseen⟩, hin, hfree⟩

/-- The collector frees what looks like an old base page and is in no tree. Nothing else keeps it from the
blocks of files and of the delta, so they are safe only while none of them looks like that. -/
theorem collect_spares_iff (s : Pool) : (∀ o budget, (∀ flush b, Protected s b → s.disk.bit b = true →
        (collectOrphans s o budget flush).pool.disk.bit b = true) ∧
      ∀ flush b, Protected s b → s.disk.bit b = true → (collectOrphansFull s o budget flush).1.disk.bit b = true) ↔
      ∀ b, Stored s b → s.disk.bit b = true → ¬ Collectable s b := by
  constructor
  · intro hspares b hb hbit hcoll
    have hkept := (hspares ⟨[b], 0, true⟩ 0).1 true b (.stored hb) hbit
    rw [collect_takes hcoll hbit (by simp [seedScan])] at hkept
    simp at hkept
  · intro hsafe o budget
    have hno : ∀ b, Protected s b → s.disk.bit b = true → ¬ Collectable s b := fun b hb hbit =>
      (protected_stored hb).elim (fun h => hsafe b h hbit) id
    refine ⟨fun flush b hb hbit => ?_, fun flush b hb hbit => ?_⟩ <;> by_contra hfreed <;>
      rw [Bool.not_eq_true] at hfreed
    · exact hno b hb hbit ((collect_frees s o budget flush).2.2 b hbit hfreed)
    · exact hno b hb hbit (drain_frees flush drainMaxRounds hbit hfreed)

def leafPage (gen : UInt64) : List Byte := pageBytes crc32c 0 gen []

/-- A file of 8184 bytes whose last 4096 are those of an empty leaf. -/
def leafFile : List Byte := replicate 4088 0 ++ leafPage 1

/-- The base root is an empty leaf at block 5. The file fills blocks 10 and 11 as it is, behind the length and
the checksum of its segment. -/
def mimicry : Pool where
  disk :=
    { vol :=
        { codecs := { FileRead.bareCodecs with crc := crc32c }
          total := 32
          dev := fun n =>
            if n / 4096 = 5 then (leafPage 7).getD (n % 4096) 0
            else if n / 4096 = 10 then (leBytes 4 8184 ++ leBytes 4 (crc32c leafFile).toNat).getD (n % 4096) 0
            else if n / 4096 = 11 then (leafPage 1).getD (n % 4096) 0
            else 0
          row := fun i =>
            if i = 2 then some ⟨.file, 8184, .ast ⟨8184, [⟨0, 8184, .raw, .none, 0, 0, 10⟩], .none⟩, {}⟩
            else none
          named := fun _ => true
          sibling := fun _ _ => none }
      names := [([97], 2)]
      bit := fun b => b = 5 ∨ b = 10 ∨ b = 11
      seq := fun _ => 0
      retire := [] }
  fits := by decide
  rt := some ⟨(5, 0), 1, 0⟩
  pinned := .null
  hold := fun _ => false
  inodes := [2]
  chain := []

theorem leafPage_fields (gen : UInt64) : (leafPage gen).length = 4096 ∧ (pageHdr (leafPage gen)).gen = gen ∧
    (pageHdr (leafPage gen)).level = 0 ∧ pageValidate crc32c (leafPage gen) ∧
      decodeNode (leafPage gen) = some (0, []) := by
  obtain ⟨hgen, hlevel, -⟩ : _ ∧ (pageHdr (pageBytes crc32c 0 gen [])).level = 0 ∧ _ :=
    pageHdr_pageBytes crc32c (by decide) (by decide) gen
  exact ⟨length_pageBytes crc32c (by decide) gen, hgen, hlevel, pageValidate_pageBytes crc32c 0 gen [],
    decodeNode_pageBytes crc32c (by decide) (by decide) (by decide) (by simp) gen⟩

theorem block_leaf {v : FileRead.Vol} {gen : UInt64}
    (h : ∀ k < 4096, v.dev (b * 4096 + k) = (leafPage gen).getD k 0) :
    block v b = leafPage gen := by
  refine ext_getElem (by simp [block, FileRead.Vol.bytes, FileRead.blockSize, (leafPage_fields gen).1]) ?_
  intro k hk hk'
  have hlt : k < 4096 := (leafPage_fields gen).1 ▸ hk'
  simp [block, FileRead.Vol.bytes, FileRead.blockSize, h k hlt, getElem?_eq_getElem hk']

theorem mimicry_blocks : block mimicry.disk.vol (UInt64.toNat 5) = leafPage 7 ∧
    block mimicry.disk.vol 11 = leafPage 1 := by
  refine ⟨block_leaf fun k hk => ?_, block_leaf fun k hk => ?_⟩
  · have h1 : (5 * 4096 + k) / 4096 = 5 := by omega
    have h2 : (5 * 4096 + k) % 4096 = k := by omega
    simp [mimicry, h1, h2]
  · have h1 : (11 * 4096 + k) / 4096 = 11 := by omega
    have h2 : (11 * 4096 + k) % 4096 = k := by omega
    simp [mimicry, h1, h2]

theorem base_view (s : Pool) (p : UInt64) : s.base.dev.view p = block s.disk.vol p.toNat := by
  simp only [Pool.base, CachedStore.Store.view, CachedStore.settle, foldl_nil]

theorem mem_candAdd {total c : Nat} (h : b ∈ o.pba ∨ b = c ∧ b ≠ 0 ∧ b < total) : b ∈ (candAdd total o c).pba := by
  unfold candAdd
  grind

theorem seedLoop_keeps {fuel c reads : Nat} (h : b ∈ o.pba) : b ∈ (seedLoop s budget fuel c reads o).2.pba := by
  induction fuel generalizing c reads o with
  | zero => exact h
  | succ fuel ih =>
    rw [seedLoop]
    split_ifs
    · exact h
    · exact ih h
    · exact ih (mem_candAdd (.inl h))
    · exact ih h

theorem seedScan_pba (h : o.seedDone = false) : (seedScan s budget o).pba =
    (seedLoop s budget s.total (if o.seedCursor = 0 then 1 else o.seedCursor) 0 o).2.pba := by
  rw [seedScan, if_neg (by simp [h])]
  dsimp only
  split_ifs <;> rfl

/-- The scan comes to a block where no byte of the bitmap before it is zero. -/
theorem seedLoop_finds {fuel c reads : Nat} (hpos : b ≠ 0) (hin : b < s.total) (hpage : basePage s b = true)
    (hbits : ∀ c ≤ b, (range' (c / 8 * 8) 8).any s.disk.bit = true) (hc : c ≤ b) (hfuel : b < c + fuel)
    (hbudget : reads + (b - c) < budget) : b ∈ (seedLoop s budget fuel c reads o).2.pba := by
  induction fuel generalizing c reads o with
  | zero => omega
  | succ fuel ih =>
    have hbyte : ¬ ((range' (c / 8 * 8) 8).all fun d => !s.disk.bit d) = true := by
      obtain ⟨d, hd, hbit⟩ := any_eq_true.mp (hbits c hc)
      intro hall
      simpa [hbit] using all_eq_true.mp hall d hd
    rw [seedLoop, if_neg (by omega), if_neg hbyte]
    obtain rfl | hlt := Nat.eq_or_lt_of_le hc
    · rw [if_pos hpage]
      exact seedLoop_keeps (mem_candAdd (.inr ⟨rfl, hpos, hin⟩))
    · exact ih hlt (by omega) (by omega)

/-- Next to a base that is an empty leaf, the bytes of another one are taken for a page that is left over. -/
theorem leaf_collectable {rt : Rt} {pba gen gen' : UInt64} (hcrc : s.crc = crc32c) (hrt : s.rt = some rt)
    (hslots : rt.rootSlot = (pba, 0)) (hpin : s.pinned.pba = 0) (h0 : pba ≠ 0) (hin : pba < s.base.total)
    (hbit : s.base.bit pba = true) (hroot : block s.disk.vol pba.toNat = leafPage gen) (hpos : b ≠ 0)
    (hb : b < s.total) (hfree : s.hold b = false) (hleaf : block s.disk.vol b = leafPage gen') (hgen : gen' ≤ gen)
    (hne : pba.toNat ≠ b) : Collectable s b := by
  obtain ⟨hlen, hg, -, hvalid, hnode⟩ := leafPage_fields gen
  have hle := UInt64.not_le.mpr hin
  rw [← base_view] at hroot
  let root : Ptr := ptrSet pba (leafPage gen) (bpLeaf ||| bpRoot)
  have hslot : slotPtr s pba = some root := by
    simp [slotPtr, slotPage, wholePage, hcrc, h0, hle, hbit, hroot, hlen, hvalid, pageSize, root]
  have hkids : kids s root = some [] := by
    simp [kids, readNode, readPage, PtrMatches, ptrSet, hcrc, h0, hle, hbit, hroot, hlen, hvalid, hnode,
      pageSize, root]
  refine ⟨hpos, hb, hfree, [root], by simp [liveRoots, hrt, hslots, h0, hslot], by simp, ?_, ?_, ?_⟩
  · obtain ⟨n, hn⟩ := Nat.exists_eq_succ_of_ne_zero (Nat.ne_of_gt (Nat.zero_lt_of_lt hb))
    simp [seen, pinnedRoots, hpin, markAll, hn, markRec, hkids]
  · obtain ⟨-, hg', hlevel, hvalid', -⟩ := leafPage_fields gen'
    have hmax : max 0 gen = gen := if_pos UInt64.zero_le
    simpa [looksFreeable, basePage, hcrc, hleaf, hvalid', hlevel, hg', maxGen, root, ptrSet, hg, hmax] using hgen
  · rintro ⟨p, hp, q, hreach, hq⟩
    obtain rfl : p = root := by simpa [pinnedRoots, hpin] using hp
    obtain rfl | ⟨r, ⟨ps, hps, hr⟩, -⟩ := Relation.ReflTransGen.cases_head hreach
    · exact hne hq
    · simp [Option.some.inj (hps.symm.trans hkids)] at hr

/-- The first call after the volume is opened frees the second block of the file. -/
theorem collect_frees_file : Stored mimicry 11 ∧ mimicry.disk.bit 11 = true ∧
      (collectOrphans mimicry ⟨[], 0, false⟩ 1024 true).pool.disk.bit 11 = false := by
  obtain ⟨hroot, hfile⟩ := mimicry_blocks
  have hcoll : Collectable mimicry 11 := leaf_collectable rfl rfl rfl rfl (by decide) (by decide) (by decide) hroot
    (by decide) (by decide) rfl hfile (by decide) (by decide)
  refine ⟨.named ?_, by decide, collect_takes hcoll (by decide) ?_ true⟩
  · exact ⟨_, mem_singleton.mpr rfl, by decide, _, rfl, _, .top (mem_singleton.mpr rfl),
      by decide, .inr ⟨2, by decide +kernel, by decide⟩⟩
  · obtain ⟨-, -, hlevel, hvalid, -⟩ := leafPage_fields 1
    have hpage : basePage mimicry 11 = true := by
      rw [basePage, hfile]
      exact decide_eq_true ⟨hvalid, by rw [hlevel]; decide⟩
    rw [seedScan_pba rfl]
    exact seedLoop_finds (by decide) (by decide) hpage (by decide) (by decide) (by decide) (by decide)

end InvariantFs.Orphans
