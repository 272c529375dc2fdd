import InvariantFs.FoldCrash

namespace InvariantFs.FoldSafe

open ByteCodec CachedStore BtreePage Btree SortedMap Fallible CrashTrace BtreeShape BtreeWrite BtreeRow
open BtreeMap DeltaLog BaseRoot BaseCrash Fold FoldMerge FoldCrash List Option

def spare (rt : Rt) : List UInt64 := if Rt.slot rt rt.seq = 0 then [] else [Rt.slot rt rt.seq]

variable (crc : List Byte → UInt32)

/-- A volume at rest: the descriptor is on the medium, the root in its newer slot is the one that is read, its
tree passes the check and is not too deep for a search, a power cut does not touch its pages, and the log has
other blocks. Nothing is asked of the log itself. -/
structure Settled (s : Fs) : Prop where
  covered : Covered s.vol
  idle : s.med.rt.pending = []
  home : s.med.rt.durable () = s.rt
  spare : ∀ p ∈ spare s.rt, Firm s p
  base : ∃ root ck, baseRoot crc s.vol s.rt = some root ∧ root.pba = Rt.slot s.rt (s.rt.seq + 1) ∧
    check crc s.vol root = .ok ck ∧ ck.height ≤ maxDepth ∧ (∀ p ∈ ck.seen, Firm s p) ∧
    ∀ locked, ∀ p ∈ logBlocks s.rt.deltaPba (deltaHeal crc locked s), s.vol.bit p = true ∧ p ∉ ck.seen

structure Entry (s : Fs) (old : Ptr) (h : Nat) (m : List (Key × Val)) (ps : List UInt64) : Prop where
  covered : Covered s.vol
  idle : s.med.rt.pending = []
  home : s.med.rt.durable () = s.rt
  spare : ∀ p ∈ spare s.rt, Firm s p
  root : baseRoot crc s.vol s.rt = some old
  kept : old.pba = Rt.slot s.rt (s.rt.seq + 1)
  tree : Tree crc s.vol old h m ps
  depth : h < maxDepth
  firm : ∀ p ∈ ps, Firm s p
  log : ∀ locked, ∀ p ∈ logBlocks s.rt.deltaPba (deltaHeal crc locked s), s.vol.bit p = true ∧ p ∉ ps

variable {crc}

theorem entry_of_settled {s : Fs} (hs : Settled crc s) : ∃ old h m ps, Entry crc s old h m ps := by
  obtain ⟨root, ck, hroot, hslot, hck, hdepth, hfirm, hlog⟩ := hs.base
  obtain ⟨h, rs, m, hrt, hr, -, hheight, hzero, hseen⟩ := check_row hck
  refine ⟨root, h, m, rowPages rs, hs.covered, hs.idle, hs.home, hs.spare, hroot, hslot, ⟨rs, hrt, hr, rfl⟩, ?_,
    fun p hp => hfirm p ((hseen p).mpr hp), fun locked p hp => ?_⟩
  · by_cases hnil : rs = []
    · rw [hzero hnil]
      decide
    · have := hheight hnil
      omega
  · obtain ⟨hb, hn⟩ := hlog locked p hp
    exact ⟨hb, fun hm => hn ((hseen p).mpr hm)⟩

section

variable {s : Fs} {old : Ptr} {h : Nat} {m : List (Key × Val)} {ps : List UInt64} {p : UInt64} {v v' : Vol}

theorem slotPage_same {a : List Byte} (ht : v'.total = v.total) (hv : v'.dev.view p = v.dev.view p)
    (hb : v.bit p = true) (ha : slotPage crc v' p = some a) : slotPage crc v p = some a := by
  simp only [slotPage, wholePage, ht, hv, ite_none_left_eq_some, not_or, some.injEq] at ha ⊢
  exact ⟨⟨ha.1.1, ha.1.2.1, by simp [hb]⟩, ha.2⟩

section

variable (he : Entry crc s old h m ps) (hv : Alike ps (spare s.rt) s.vol v)

include he hv

theorem old_root : baseRoot crc v s.rt = some old := by
  obtain ⟨rfl, hz⟩ | ⟨h0, hflags, hlow⟩ := baseRoot_slots he.root he.kept
  · exact baseRoot_none hz
  · have hold : { old with flags := bpRoot } = old := by rw [← hflags]
    rw [baseRoot_kept (tree_agree hv.agree he.tree) h0 he.kept.symm, hold]
    intro a ha
    have hmem : Rt.slot s.rt s.rt.seq ∈ spare s.rt := by
      rw [spare, if_neg (slotPage_some ha).1]
      exact mem_cons_self
    exact hlow a (slotPage_same hv.agree.total (hv.same _ hmem) (he.spare _ hmem).set ha)

theorem old_get (k : Key) : baseGet crc v s.rt k = some (lookup m k) := by
  rw [baseGet, old_root he hv, Option.bind_some]
  exact tree_search (tree_agree hv.agree he.tree) he.depth k

end

theorem alike_self (v : Vol) (ps qs : List UInt64) : Alike ps qs v v :=
  ⟨⟨rfl, fun _ _ => rfl, fun _ _ => rfl⟩, fun _ _ => rfl⟩

theorem overlay_merged (he : Entry crc s old h m ps) (k : Key) :
    overlayGet crc s k = some (lookup (applied (snapshot s.ram) m) k) := by
  rw [lookup_snapshot, overlayGet, old_get he (alike_self _ _ _)]

theorem alike_spare {qs : List UInt64} (h : Alike (qs ++ ps) [] v v') : Alike ps qs v v' :=
  ⟨agree_mono h.agree fun _ hp => mem_append_right _ hp, fun _ hp => h.agree.view _ (mem_append_left _ hp)⟩

theorem idle_torn (he : Entry crc s old h m ps) (a : List Bool) : (s.med.rt.tear a).view () = s.rt := by
  rw [tear_idle he.idle, Store.view, he.idle]
  exact he.home

theorem fence_idle (he : Entry crc s old h m ps) : s.med.rt.fence = ⟨fun _ => s.rt, []⟩ := by
  have hview := idle_torn he []
  rw [tear_idle he.idle] at hview
  exact congrArg (fun f => (⟨f, []⟩ : Store Unit Rt)) (funext fun _ => hview)

variable (crc) in
/-- The merge has succeeded on the blocks of a volume, and then `f` has happened to it. -/
def Copied (locked : Bool) (s : Fs) (old root : Ptr) (f : Fs → Fs) (t : Fs) : Prop :=
  ∃ v, runs (do let root ← merge crc (snapshot s.ram) old; rootPage crc old root) s.vol = (some root, v) ∧
    t = f { deltaHeal crc locked s with vol := v }

variable (crc) in
theorem heal_frame (locked : Bool) (s : Fs) :
    (deltaHeal crc locked s).vol = s.vol ∧ (deltaHeal crc locked s).bits = s.bits ∧
      (deltaHeal crc locked s).rt = s.rt ∧ (deltaHeal crc locked s).ram = s.ram ∧
      (deltaHeal crc locked s).med.rt = s.med.rt := by
  unfold deltaHeal healed stagedHeal
  split_ifs <;> exact ⟨rfl, rfl, rfl, rfl, rfl⟩

theorem firm_heal (hp : Firm s p) (locked : Bool) : Firm (deltaHeal crc locked s) p := by
  obtain ⟨hv, hb, -⟩ := heal_frame crc locked s
  exact ⟨hv ▸ hp.set, hb ▸ hp.home, hb ▸ hp.kept, hv ▸ hp.still⟩

variable {ck : Ck} {root : Ptr}

theorem check_toOption (h : (check crc v root).toOption = some ck) : check crc v root = .ok ck := by
  cases hc : check crc v root with
  | ok x =>
    rw [hc] at h
    exact congrArg Except.ok (some.inj h)
  | error e =>
    rw [hc] at h
    exact absurd h (by simp [Except.toOption])

theorem prepare_triple (he : Entry crc s old h m ps) (env : Fold.Env) {S : Fs → Prop}
    {good : Rt → (Nat → List Byte) → Prop} (hsafe : ∀ t, Steady (spare s.rt ++ ps) [] s.vol good t → S t)
    (hs : Steady (spare s.rt ++ ps) [] s.vol good (deltaHeal crc env.heal s)) :
    Triple S (fun t => t = s) (prepare crc env)
      (fun r t => r.1 = old ∧ Copied crc env.heal s old r.2.1 (fun t => (bitmapFlush t).fence) t ∧
        check crc t.vol r.2.1 = .ok r.2.2 ∧ Steady (spare s.rt ++ ps) [] s.vol good t)
      (Steady (spare s.rt ++ ps) [] s.vol good) := by
  obtain ⟨hvol, -, hrt, hram, -⟩ := heal_frame crc env.heal s
  let s1 := deltaHeal crc env.heal s
  have hbase : baseRoot crc s1.vol s1.rt = some old := by rw [hvol, hrt, he.root]
  refine triple_bind (M := fun _ t => t = s1) (triple_change fun t ht => by rw [ht]) fun _ => ?_
  refine triple_bind (M := fun _ t => t = s1) (triple_mark (fun t ht => hsafe t (ht ▸ hs)) fun _ ht => ht)
    fun _ => ?_
  refine triple_bind (M := fun _ t => t = s1) (triple_demand (fun _ ht _ => ht) fun t ht => ht ▸ hs) fun _ => ?_
  refine triple_bind (M := fun _ t => t = s1) (triple_demand (fun _ ht _ => ht) fun t ht => ht ▸ hs) fun _ => ?_
  refine triple_bind (M := fun a t => a = old ∧ t = s1) (triple_look ?_ fun t ht _ => ht ▸ hs) fun a => ?_
  · rintro t a rfl ha
    exact ⟨some.inj (ha.symm.trans hbase), rfl⟩
  refine triple_bind (M := fun ram t => ram = s.ram ∧ a = old ∧ t = s1) (triple_look ?_ ?_) fun ram => ?_
  · rintro t b ⟨rfl, rfl⟩ hb
    exact ⟨(some.inj hb).symm.trans hram, rfl, rfl⟩
  · rintro t - hb
    exact absurd hb (by simp)
  -- from here on the volume is the healed one with new pages beside the old ones
  let M (root : Ptr) (f : Fs → Fs) (t : Fs) : Prop := a = old ∧ Copied crc env.heal s old root f t ∧
    Steady (spare s.rt ++ ps) [] s.vol good t
  refine triple_bind (M := fun root => M root id) (triple_zoom ?_) fun root => ?_
  · rintro t ⟨rfl, rfl, rfl⟩
    have hf : Frame s1.vol (runs (do let root ← merge crc (snapshot s.ram) a; rootPage crc a root) s1.vol).2 :=
      keeps_seq (merge_keeps _ _) (fun _ => rootPage_keeps _ _) s1.vol
    refine ⟨fun root hroot => ⟨rfl, ⟨_, ?_, rfl⟩, steady_frame hs hf⟩, fun _ => steady_frame hs hf⟩
    rw [← hvol]
    exact Prod.ext hroot rfl
  refine triple_bind (M := fun _ => M root bitmapFlush)
    (triple_mono (triple_flush env.flush) (fun _ ht => ht) ?_ fun t ht => ht.2.2) fun _ => ?_
  · rintro - _ ⟨t, ⟨ha, ⟨v, hrun, rfl⟩, ht⟩, rfl⟩
    exact ⟨ha, ⟨v, hrun, rfl⟩, steady_flush ht⟩
  refine triple_bind (M := fun _ => M root fun t => (bitmapFlush t).fence)
    (triple_mono (triple_barrier env.pages fun t ht => hsafe t ht.2.2) (fun _ ht => ht) ?_ ?_) fun _ => ?_
  · rintro - _ ⟨t, ⟨ha, ⟨v, hrun, rfl⟩, ht⟩, -, rfl⟩
    exact ⟨ha, ⟨v, hrun, rfl⟩, steady_fence ht⟩
  · rintro _ ⟨t, l, ⟨-, -, ht⟩, rfl⟩
    exact steady_tear ht l
  refine triple_bind (M := fun _ => M root fun t => (bitmapFlush t).fence)
    (triple_demand (fun _ ht _ => ht) fun t ht => ht.2.2) fun _ => ?_
  refine triple_bind (M := fun ck t => (M root fun t => (bitmapFlush t).fence) t ∧ check crc t.vol root = .ok ck)
    (triple_look (fun t ck ht hck => ⟨ht, check_toOption hck⟩) fun t ht _ => ht.2.2) fun ck => ?_
  exact triple_pure fun t ht => ⟨ht.1.1, ht.1.2.1, ht.2, ht.1.2.2⟩

theorem flushed_agree (t : Fs) (ps : List UInt64) : Agree ps t.vol (bitmapFlush t).fence.vol := by
  unfold bitmapFlush
  split_ifs <;> exact ⟨rfl, fun _ _ => rfl, fun _ _ => rfl⟩

variable {locked : Bool} {t : Fs}

theorem copy_merge {recs : List (Key × Bool × Val)}
    (hrun : runs (do let root ← merge crc recs old; rootPage crc old root) v = (some root, v'))
    (hne : readNode crc v' root ≠ some (0, [])) :
    root.pba ≠ 0 ∧ runs (merge crc recs old) v = (some root, v') := by
  obtain ⟨root1, v1, hmerge, hpage⟩ := bind_some.mp hrun
  obtain ⟨h0, rfl, rfl⟩ | ⟨hempty, -⟩ := rootPage_some hpage
  · exact ⟨h0, hmerge⟩
  · exact absurd hempty hne

theorem copied_root
    (hc : Copied crc locked s old root (fun t => (bitmapFlush t).fence) t) (hck : check crc t.vol root = .ok ck) :
    root.pba ≠ 0 ∧ ∃ v, runs (merge crc (snapshot s.ram) old) s.vol = (some root, v) ∧
      t = (bitmapFlush { deltaHeal crc locked s with vol := v }).fence := by
  obtain ⟨v, hrun, rfl⟩ := hc
  -- the walk refuses an empty leaf
  obtain ⟨h0, hmerge⟩ := copy_merge hrun fun hr =>
    empty_refused ((readNode_agree (flushed_agree _ _)).trans hr) ck hck
  exact ⟨h0, v, hmerge, rfl⟩

theorem firm_copied {ps' : List UInt64} (hc : Covered s.vol) (hf : Frame s.vol v)
    (hfirm : ∀ p ∈ ps, Firm s p) (hfrom : From s.vol ps ps') (hpages : ∀ p ∈ ps', p < v.total ∧ v.bit p = true) :
    ∀ p ∈ ps', Firm (bitmapFlush { s with vol := v }).fence p := by
  intro p hp
  obtain hp' | hfree := hfrom p hp
  · exact firm_fence (firm_flush (firm_frame (hfirm p hp') hf))
  · obtain ⟨hlt, hb⟩ := hpages p hp
    refine firm_fresh ?_ hlt hb (hf.fresh p hfree hb)
    change Covered v
    rw [Covered, hf.total]
    exact hc

theorem copied_tree (he : Entry crc s old h m ps)
    (hc : Copied crc locked s old root (fun t => (bitmapFlush t).fence) t) (hck : check crc t.vol root = .ok ck) :
    root.pba ≠ 0 ∧ root.gen = genAfter (snapshot s.ram) old.gen m ∧
      ∃ h' ps', Tree crc t.vol root h' (applied (snapshot s.ram) m) ps' ∧ ck.height = h' + 1 ∧
        From s.vol ps ps' ∧ ∀ p ∈ ps', Firm t p := by
  obtain ⟨h0, v, hmerge, rfl⟩ := copied_root hc hck
  obtain ⟨hf, hgen, h', ps', ht, hfrom⟩ := merge_tree he.tree hmerge
  have hagree := flushed_agree { deltaHeal crc locked s with vol := v } ps'
  have ht' := tree_agree hagree ht
  obtain ⟨hvol, -⟩ := heal_frame crc locked s
  refine ⟨h0, hgen, h', ps', ht', ?_, hfrom, firm_copied (hvol ▸ he.covered) (hvol ▸ hf)
    (fun p hp => firm_heal (he.firm p hp) locked) (hvol ▸ hfrom) fun p hp => (tree_pages ht p hp).2⟩
  exact (tree_check ht' hck h0).1

def Outranked (old root : Ptr) : Prop := old.pba ≠ 0 ∧ root.gen ≤ old.gen

structure Slots (rt : Rt) (old root : Ptr) : Prop where
  old : Rt.slot rt rt.seq = old.pba
  root : Rt.slot rt (rt.seq + 1) = root.pba

variable {h' : Nat} {m' : List (Key × Val)} {ps' : List UInt64} {rt : Rt}

theorem outranked_get (hslots : Slots rt old root) (ho : Outranked old root) (h0 : root.pba ≠ 0)
    (hold : Tree crc v old h m ps) (hnew : Tree crc v root h' m' ps') (hh : h < maxDepth) (k : Key) :
    baseGet crc v rt k = some (lookup m k) := by
  rw [baseGet, baseRoot_next hold ho.1 hslots.old, Option.bind_some]
  · exact tree_search (tree_flags hold bpRoot) hh k
  · intro b hb
    rw [hslots.root] at hb
    rw [(slotPage_some hb).2, tree_gen hnew h0]
    exact ho.2

theorem prevailing_get (hslots : Slots rt old root) (ho : ¬ Outranked old root) (h0 : root.pba ≠ 0)
    (hold : Tree crc v old h m ps) (hnew : Tree crc v root h' m' ps') (k : Key) :
    baseGet crc v rt k = search crc v { root with flags := bpRoot } k := by
  rw [baseGet, baseRoot_kept hnew h0 hslots.root, Option.bind_some]
  intro a ha
  rw [hslots.old] at ha
  obtain ⟨h1, rfl⟩ := slotPage_some ha
  rw [tree_gen hold h1]
  exact Or.inl (UInt64.not_le.mp fun hle => ho ⟨h1, hle⟩)

end

end InvariantFs.FoldSafe
