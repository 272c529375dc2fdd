import InvariantFs.FoldSafe

namespace InvariantFs.FoldPublish

open ByteCodec CachedStore BtreePage Btree Fallible CrashTrace BtreeShape BtreeRow
open BtreeMap DeltaIndex DeltaLog BaseRoot BaseCrash Fold FoldMerge FoldCrash FoldSafe List

variable {crc : List Byte → UInt32} {v : Vol}

theorem mem_reach {h fuel : Nat} (hle : h ≤ fuel) {t : Item (h + 1)}
    (ht : Holds crc v (h + 1) t) : ∀ p ∈ pages (h + 1) t, p ∈ reach crc v (fuel + 1) t.1 := by
  induction h generalizing fuel with
  | zero =>
    intro p hp
    obtain rfl | hp := mem_cons.mp hp
    · exact mem_cons_self
    · obtain ⟨r, -, hp⟩ := mem_flatMap.mp hp
      exact absurd hp not_mem_nil
  | succ h ih =>
    intro p hp
    obtain rfl | hp := mem_cons.mp hp
    · exact mem_cons_self
    · obtain ⟨r, hr, hp⟩ := mem_flatMap.mp hp
      obtain ⟨fuel, rfl⟩ := Nat.exists_eq_add_of_le' (Nat.one_le_of_lt hle)
      refine mem_cons_of_mem _ ?_
      rw [ht.1]
      refine mem_flatMap.mpr ⟨entOf (h + 1) r, mem_map_of_mem hr, ?_⟩
      exact ih (Nat.le_of_succ_le_succ hle) (ht.2 r hr) p hp

variable {root : Ptr}

theorem tree_reach {h : Nat} {m : List (Key × Val)} {ps : List UInt64}
    (ht : Tree crc v root h m ps) : ∀ p ∈ ps, p ∈ slotReach crc v root.pba := by
  intro p hp
  by_cases h0 : root.pba = 0
  · rw [(tree_null ht h0).2] at hp
    exact absurd hp not_mem_nil
  · rw [slotReach, if_neg h0, (tree_slot ht h0).2.2]
    obtain ⟨rs, ⟨h1, -⟩ | ⟨-, t, hroot, rfl⟩, hr, rfl⟩ := tree_flags ht (bpLeaf ||| bpRoot)
    · exact absurd h1 h0
    · have hheld := hr.held _ mem_cons_self
      rw [← hroot]
      refine mem_reach (Nat.le_of_lt_succ (readNode_level crc hheld.1)) hheld p ?_
      simpa [rowPages] using hp

variable {env : Fold.Env}

section

variable {ps qs : List UInt64} {good : Rt → (Nat → List Byte) → Prop} {S : Fs → Prop}
variable {rt : Rt} {seg : Nat → List Byte}

theorem steady_same {s t : Fs} (h : Steady ps qs v good s) (hvol : t.vol = s.vol) (hbits : t.bits = s.bits)
    (hmed : t.med = s.med) : Steady ps qs v good t := by
  refine ⟨fun p hp => ?_, hvol ▸ h.still, hvol ▸ h.alike, hmed ▸ h.good⟩
  obtain ⟨h1, h2, h3, h4⟩ := h.firm p hp
  exact ⟨hvol ▸ h1, hbits ▸ h2, hbits ▸ h3, hvol ▸ h4⟩

theorem calm_copied {good' : Rt → (Nat → List Byte) → Prop} {ps' : List UInt64} {t : Fs}
    (h : Steady (qs ++ ps) [] v good' t) (hfirm : ∀ p ∈ ps', Firm t p) (hrt : t.rt = rt)
    (hmed : t.med.rt = ⟨fun _ => rt, []⟩) (hseg : t.med.seg = ⟨seg, []⟩) (hgood : good rt seg) :
    Calm (ps ++ ps') qs t.vol good rt seg t := by
  refine ⟨⟨fun p hp => ?_, fun p hp => ?_, alike_self _ _ _, fun a b => ?_⟩, hrt, hseg⟩
  · obtain hp | hp := mem_append.mp hp
    · exact h.firm p (mem_append_right _ hp)
    · exact hfirm p hp
  · exact (h.firm p (mem_append_left _ hp)).still
  · rw [hmed, hseg, tear_idle rfl, tear_idle rfl]
    exact hgood

theorem calm_flush {s : Fs} (h : Calm ps qs v good rt seg s) : Calm ps qs v good rt seg (bitmapFlush s) := by
  have hsame : (bitmapFlush s).rt = s.rt ∧ (bitmapFlush s).med = s.med := by
    unfold bitmapFlush
    split_ifs <;> exact ⟨rfl, rfl⟩
  exact ⟨steady_flush h.1, hsame.1.trans h.2.rt, (congrArg Medium.seg hsame.2).trans h.2.seg⟩

variable (crc) in
theorem publish_triple (env : Publish) (pba gen : UInt64) (hsafe : ∀ s, Steady ps qs v good s → S s)
    (hgood : good (Rt.publish rt pba) seg) : Triple S (Calm ps qs v good rt seg) (rootPublish crc env pba gen)
      (fun _ => Calm ps qs v good (Rt.publish rt pba) seg) (Steady ps qs v good) := by
  refine triple_bind (M := fun _ => Calm ps qs v good rt seg)
    (triple_look (fun _ _ hs _ => hs) fun _ hs _ => hs.1) fun _ => ?_
  refine triple_bind (M := fun _ => Calm ps qs v good rt seg)
    (triple_mono (triple_flush env.flush) (fun _ hs => hs) ?_ fun _ hs => hs.1) fun _ => ?_
  · rintro - _ ⟨s, hs, rfl⟩
    exact calm_flush hs
  refine triple_bind (M := fun _ => Calm ps qs v good (Rt.publish rt pba) seg) (triple_change fun s hs => ?_)
    fun _ => ?_
  · exact ⟨steady_same hs.1 rfl rfl rfl, congrArg (Rt.publish · pba) hs.2.rt, hs.2.seg⟩
  · exact triple_mono (triple_commit _ _ _ hsafe hgood) (fun _ hs => hs) (fun _ _ hs => hs.1) fun _ hs => hs.1

def Rt.logless (rt : Rt) : Rt := { rt with deltaPba := 0 }

theorem chainFrom_zero (total : Nat) (seg : Nat → List Byte) (fuel : Nat) : chainFrom crc total seg fuel 0 = [] := by
  cases fuel <;> simp [chainFrom]

theorem replay_none (total : UInt64) (seg : Nat → List Byte) : replayed crc total seg 0 = Ram.empty := by
  rw [replayed, BaseRoot.segments, chainFrom_zero]
  rfl

theorem reset_triple (env : Fold.Env) (hsafe : ∀ s, Steady ps qs v good s → S s)
    (hgood : good (Rt.logless rt) seg) : Triple S (Calm ps qs v good rt seg) (deltaReset crc env)
      (fun _ t => Calm ps qs v good (Rt.logless rt) seg t ∧ t.ram = Ram.empty)
      (Calm ps qs v good (Rt.logless rt) seg) := by
  refine triple_bind (M := fun _ => Calm ps qs v good (Rt.logless rt) seg) (triple_change fun s hs => ?_)
    fun _ => ?_
  · exact ⟨steady_same hs.1 rfl rfl rfl, congrArg Rt.logless hs.2.rt, hs.2.seg⟩
  refine triple_bind (M := fun _ => Calm ps qs v good (Rt.logless rt) seg)
    (triple_mono (triple_commit _ _ _ hsafe hgood) (fun _ hs => hs) (fun _ _ hs => hs.1) fun _ hs => hs)
    fun _ => triple_change fun s hs => ?_
  -- there is no segment behind an empty head
  have hsegs : BaseRoot.segments crc s.vol.total s.med.seg.view s.rt.deltaPba = [] := by
    rw [hs.2.rt]
    exact chainFrom_zero _ _ _
  refine ⟨⟨steady_same hs.1 ?_ rfl rfl, hs.2.rt, hs.2.seg⟩, ?_⟩
  · change List.foldl reserveSegment s.vol _ = s.vol
    rw [hsegs]
    rfl
  · change replayed crc s.vol.total s.med.seg.view s.rt.deltaPba = Ram.empty
    rw [hs.2.rt]
    exact replay_none _ _

theorem freeAll_frame (bs : List UInt64) (s : Fs) :
    (bs.foldl mbufFree s).rt = s.rt ∧ (bs.foldl mbufFree s).med = s.med ∧ (bs.foldl mbufFree s).ram = s.ram := by
  induction bs generalizing s with
  | nil => exact ⟨rfl, rfl, rfl⟩
  | cons b bs ih =>
    obtain ⟨h1, h2, h3⟩ := ih (mbufFree s b)
    have hone : (mbufFree s b).rt = s.rt ∧ (mbufFree s b).med = s.med ∧ (mbufFree s b).ram = s.ram := by
      unfold mbufFree
      split_ifs <;> exact ⟨rfl, rfl, rfl⟩
    exact ⟨h1.trans hone.1, h2.trans hone.2.1, h3.trans hone.2.2⟩

variable (crc) in
theorem hook_frame (env : Fold.Env) (old root : Ptr) (s : Fs) :
    (reclaimHook crc env old root s).rt = s.rt ∧ (reclaimHook crc env old root s).ram = s.ram := by
  have horphans : ∀ s, (reclaimOrphans crc env s).rt = s.rt ∧ (reclaimOrphans crc env s).ram = s.ram := by
    intro s
    have hflush : ∀ t : Fs, (bitmapFlush t).rt = t.rt ∧ (bitmapFlush t).ram = t.ram := by
      intro t
      unfold bitmapFlush
      split_ifs <;> exact ⟨rfl, rfl⟩
    unfold reclaimOrphans
    dsimp only
    obtain ⟨h1, -, h3⟩ := freeAll_frame (env.orphans.filter (· ∉
      slotReach crc s.vol s.rt.rootSlot.1 ++ slotReach crc s.vol s.rt.rootSlot.2 ++
        reach crc s.vol (maxLevels + 1) s.pinned)) s
    split_ifs
    · exact ⟨(hflush _).1.trans h1, (hflush _).2.trans h3⟩
    · exact ⟨h1, h3⟩
  unfold reclaimHook
  split_ifs
  · exact ⟨rfl, rfl⟩
  · exact horphans s
  · obtain ⟨h1, h2⟩ := horphans (reclaimDiff crc old root s)
    have hdiff : (reclaimDiff crc old root s).rt = s.rt ∧ (reclaimDiff crc old root s).ram = s.ram := by
      unfold reclaimDiff
      split_ifs
      · exact ⟨rfl, rfl⟩
      · exact ⟨(freeAll_frame _ s).1, (freeAll_frame _ s).2.2⟩
    exact ⟨h1.trans hdiff.1, h2.trans hdiff.2⟩

theorem reclaim_steady {s : Fs} {old : Ptr} (h : Steady ps qs v good s)
    (hkeep : ∀ p ∈ ps, p ∈ slotReach crc s.vol s.rt.rootSlot.1 ++ slotReach crc s.vol s.rt.rootSlot.2)
    (hold : old.pba = 0 ∨ old.pba = s.rt.rootSlot.1 ∨ old.pba = s.rt.rootSlot.2) :
    Steady ps qs v good (reclaimHook crc env old root s) := by
  have horphans : Steady ps qs v good (reclaimOrphans crc env s) := by
    unfold reclaimOrphans
    let doomed := env.orphans.filter (· ∉ slotReach crc s.vol s.rt.rootSlot.1 ++
      slotReach crc s.vol s.rt.rootSlot.2 ++ reach crc s.vol (maxLevels + 1) s.pinned)
    have hdoomed : ∀ p ∈ doomed, p ∉ ps := by
      intro p hp hm
      have hnot := (mem_filter.mp hp).2
      rw [decide_eq_true_iff] at hnot
      exact hnot (mem_append_left _ (hkeep p hm))
    have hfreed := steady_freeAll h hdoomed
    dsimp only
    split_ifs
    · exact steady_flush hfreed
    · exact hfreed
  unfold reclaimHook
  split_ifs with hd hin
  · exact h
  · exact horphans
  · have h0 : old.pba = 0 := by
      by_contra h0
      exact hin ⟨h0, hold.resolve_left h0⟩
    rwa [reclaimDiff, if_pos h0]

variable (crc) in
theorem finish_triple (env : Fold.Env) (old root : Ptr) (hsafe : ∀ s, Steady ps qs v good s → S s)
    (hgood : good (Rt.logless rt) seg)
    (hlog : ∀ p ∈ (reclaimWalk v.total.toNat seg deltaMaxSegments rt.deltaPba).flatMap (segBlocks v.total), p ∉ ps)
    (hkeep : ∀ v', Alike ps qs v v' → ∀ p ∈ ps, p ∈ slotReach crc v' rt.rootSlot.1 ++ slotReach crc v' rt.rootSlot.2)
    (hold : old.pba = 0 ∨ old.pba = rt.rootSlot.1 ∨ old.pba = rt.rootSlot.2) :
    Triple S (Calm ps qs v good rt seg)
      (do let head ← look fun s => some s.rt.deltaPba
          let ok ← attempt (deltaReset crc env)
          change (reclaimSegments head)
          change (reclaimHook crc env old root)
          demand ok)
      (fun _ t => Steady ps qs v good t ∧ t.rt = Rt.logless rt ∧ t.ram = Ram.empty) (Steady ps qs v good) := by
  refine triple_bind (M := fun head t => head = rt.deltaPba ∧ Calm ps qs v good rt seg t) (triple_look ?_ ?_)
    fun head => ?_
  · intro s head hs hhead
    exact ⟨(Option.some.inj hhead).symm.trans (congrArg Rt.deltaPba hs.2.rt), hs⟩
  · exact fun _ hs _ => hs.1
  let M (ok : Bool) (t : Fs) : Prop := Calm ps qs v good (Rt.logless rt) seg t ∧ (ok = true → t.ram = Ram.empty)
  refine triple_bind (M := fun ok t => head = rt.deltaPba ∧ M ok t) ?_ fun ok => ?_
  · intro r hr
    refine triple_attempt (Q := fun ok t => head = rt.deltaPba ∧ M ok t) (reset_triple env hsafe hgood)
      (fun t ht => ⟨hr.1, ht.1, fun _ => ht.2⟩) (fun t ht => ⟨hr.1, ht, by simp⟩) r hr.2
  refine triple_bind (M := fun _ => M ok) (triple_change ?_) fun _ => ?_
  · rintro t ⟨rfl, ht, hram⟩
    have hblocks : ∀ p ∈ logBlocks rt.deltaPba t, p ∉ ps := by
      rw [logBlocks, ht.1.alike.agree.total, ht.2.seg]
      exact hlog
    obtain ⟨h1, h2, h3⟩ := freeAll_frame (logBlocks rt.deltaPba t) t
    exact ⟨⟨steady_freeAll ht.1 hblocks, h1.trans ht.2.rt, (congrArg Medium.seg h2).trans ht.2.seg⟩,
      fun hok => h3.trans (hram hok)⟩
  refine triple_bind (M := fun _ t => Steady ps qs v good t ∧ t.rt = Rt.logless rt ∧ (ok = true → t.ram = Ram.empty))
    (triple_change ?_) fun _ => ?_
  · rintro t ⟨ht, hram⟩
    obtain ⟨h1, h2⟩ := hook_frame crc env old root t
    refine ⟨reclaim_steady ht.1 ?_ ?_, h1.trans ht.2.rt, fun hok => h2.trans (hram hok)⟩
    · rw [ht.2.rt]
      exact hkeep _ ht.1.alike
    · rw [ht.2.rt]
      exact hold
  · exact triple_demand (fun t ht hok => ⟨ht.1, ht.2.1, ht.2.2 hok⟩) fun t ht => ht.1

end

section

variable {s : Fs} {old : Ptr} {h : Nat} {m : List (Key × Val)} {ps : List UInt64}

theorem checked_wide {ck : Ck} (hck : check crc v root = .ok ck)
    (ht : Tree crc v root h m ps) (h0 : root.pba ≠ 0) : 2 ^ h ≤ m.length := by
  obtain ⟨h', rs, m', hroot, hr, hwide, -⟩ := check_row hck
  obtain rfl := tree_height ht ⟨rs, hroot, hr, rfl⟩ h0
  obtain ⟨rs', hroot', hr', -⟩ := ht
  rw [row_unique hroot' hroot hr' hr]
  obtain ⟨h1, -⟩ | ⟨-, t, -, rfl⟩ := hroot
  · exact absurd h1 h0
  · have hlen := (wide_most hr.chain.1 (hwide _ mem_cons_self)).1
    have hm : contents (h + 1) [] t = m' := (append_nil _).symm.trans hr.contents
    rwa [hm] at hlen

variable (crc) in
structure Made (s : Fs) (old : Ptr) (m : List (Key × Val)) (ps : List UInt64) (root : Ptr) (h' : Nat)
    (ps' : List UInt64) (v : Vol) : Prop where
  run : (runs (do let root ← merge crc (snapshot s.ram) old; rootPage crc old root) s.vol).1 = some root
  nonzero : root.pba ≠ 0
  gen : root.gen = genAfter (snapshot s.ram) old.gen m
  tree : Tree crc v root h' (applied (snapshot s.ram) m) ps'
  wide : 2 ^ h' ≤ (applied (snapshot s.ram) m).length
  alike : Alike ps (spare s.rt) s.vol v
  fresh : From s.vol ps ps'

theorem slot_mem (rt : Rt) (i : Nat) : Rt.slot rt i = rt.rootSlot.1 ∨ Rt.slot rt i = rt.rootSlot.2 := by
  unfold Rt.slot
  split_ifs
  · exact .inl rfl
  · exact .inr rfl

theorem slots_keep {rt : Rt} {i : Nat} {p : UInt64} (hp : p ∈ slotReach crc v (Rt.slot rt i)) :
    p ∈ slotReach crc v rt.rootSlot.1 ++ slotReach crc v rt.rootSlot.2 := by
  obtain hs | hs := slot_mem rt i <;> rw [hs] at hp
  · exact mem_append_left _ hp
  · exact mem_append_right _ hp

/-- A fold from a settled volume. Up to the publish `good` is about the old descriptor, the only one; from there
on `good'` is about the descriptors with either root. -/
theorem fold_triple (he : Entry crc s old h m ps) (env : Fold.Env) {S : Fs → Prop}
    (good : Rt → (Nat → List Byte) → Prop) (good' : Ptr → List UInt64 → Vol → Rt → (Nat → List Byte) → Prop)
    (hsafe : ∀ t, Steady (spare s.rt ++ ps) [] s.vol good t → S t)
    (hs : ∀ a b, good (((deltaHeal crc env.heal s).med.rt.tear a).view ())
      ((deltaHeal crc env.heal s).med.seg.tear b).view)
    (hmade : ∀ {root h' ps' v}, Made crc s old m ps root h' ps' v →
      (∀ t, Steady (ps ++ ps') (spare s.rt) v (good' root ps' v) t → S t) ∧
        ∀ rt ∈ [s.rt, Rt.publish s.rt root.pba, Rt.logless (Rt.publish s.rt root.pba)],
          good' root ps' v rt (deltaHeal crc env.heal s).med.seg.view) : Triple S (fun t => t = s) (fold crc env)
      (fun _ t => s.ram.index.entries = [] ∧ t = s ∨ ∃ root h' ps' v, Made crc s old m ps root h' ps' v ∧
        Steady (ps ++ ps') (spare s.rt) v (good' root ps' v) t ∧
        t.rt = Rt.logless (Rt.publish s.rt root.pba) ∧ t.ram = Ram.empty) S := by
  refine triple_bind (M := fun a t => a = s ∧ t = s) (triple_look ?_ ?_) fun a => ?_
  · rintro t a rfl ha
    exact ⟨(Option.some.inj ha).symm, rfl⟩
  · exact fun t _ ht => absurd ht (by simp)
  by_cases hempty : a.ram.index.entries = []
  · rw [if_pos hempty]
    refine triple_pure ?_
    rintro t ⟨rfl, rfl⟩
    exact .inl ⟨hempty, rfl⟩
  rw [if_neg hempty]
  obtain ⟨hvol, hbits, hrt, hram, hmed⟩ := heal_frame crc env.heal s
  have hstart : Steady (spare s.rt ++ ps) [] s.vol good (deltaHeal crc env.heal s) := by
    refine ⟨fun p hp => ?_, by simp, by rw [hvol]; exact alike_self _ _ _, hs⟩
    obtain hp | hp := mem_append.mp hp
    · exact firm_heal (he.spare p hp) _
    · exact firm_heal (he.firm p hp) _
  refine triple_bind (triple_mono (prepare_triple he env hsafe hstart) (fun _ ht => ht.2) (fun _ _ ht => ht) hsafe) ?_
  rintro ⟨old', root, ck⟩ r ⟨hold, hcopied, hck, hsteady⟩
  obtain rfl : old' = old := hold
  obtain ⟨h0, hgen, h', ps', htree, -, hfrom, hfirm⟩ := copied_tree he hcopied hck
  obtain ⟨v, hrun, hnow⟩ := hcopied
  have hmk : Made crc s old' m ps root h' ps' r.now.vol :=
    ⟨congrArg Prod.fst hrun, h0, hgen, htree, checked_wide hck htree h0, alike_spare hsteady.alike, hfrom⟩
  obtain ⟨hsafe', hgood⟩ := hmade hmk
  have hnew := hgood (Rt.publish s.rt root.pba) (by simp)
  have hreset := hgood (Rt.logless (Rt.publish s.rt root.pba)) (by simp)
  -- the descriptor and the log are as they were healed, and fenced
  have hflush : (bitmapFlush { deltaHeal crc env.heal s with vol := v }).rt = s.rt ∧
      (bitmapFlush { deltaHeal crc env.heal s with vol := v }).med = (deltaHeal crc env.heal s).med := by
    unfold bitmapFlush
    split_ifs <;> exact ⟨hrt, rfl⟩
  have hrt' : r.now.rt = s.rt := by rw [hnow]; exact hflush.1
  have hseg : r.now.med.seg = ⟨(deltaHeal crc env.heal s).med.seg.view, []⟩ := by
    rw [hnow]
    exact congrArg (fun md : Medium => md.seg.fence) hflush.2
  have hmedrt : r.now.med.rt = ⟨fun _ => s.rt, []⟩ := by
    rw [hnow]
    refine (congrArg (fun md : Medium => md.rt.fence) hflush.2).trans ?_
    rw [hmed]
    exact fence_idle he
  have hcalm := calm_copied hsteady hfirm hrt' hmedrt hseg (hgood s.rt (by simp))
  have htotal : r.now.vol.total = s.vol.total := hsteady.alike.agree.total
  obtain ⟨hs1, hs2⟩ := slots_publish s.rt root.pba
  have hrest := triple_bind (publish_triple crc env.publish root.pba root.gen hsafe' hnew)
    fun _ => finish_triple crc env old' root hsafe' hreset ?_ ?_ ?_
  · obtain ⟨hpast, hsome, hnone⟩ := hrest r hcalm
    exact ⟨hpast, fun a ha => .inr ⟨root, h', ps', r.now.vol, hmk, hsome a ha⟩, fun hn => hsafe' _ (hnone hn)⟩
  · intro p hp hm
    have hlog := he.log env.heal p (by
      rw [htotal] at hp
      rw [logBlocks, hvol]
      exact hp)
    obtain hm | hm := mem_append.mp hm
    · exact hlog.2 hm
    · obtain hm | hfree := hfrom p hm
      · exact hlog.2 hm
      · exact absurd (hlog.1.symm.trans hfree) (by simp)
  · intro v' hv p hp
    obtain hp | hp := mem_append.mp hp
    · refine slots_keep (i := s.rt.seq + 1) ?_
      rw [hs1, ← he.kept]
      have hagree : Agree ps s.vol v' := agree_trans (alike_spare hsteady.alike).agree
        (agree_mono hv.agree fun _ hq => mem_append_left _ hq)
      exact tree_reach (tree_agree hagree he.tree) p hp
    · refine slots_keep (i := s.rt.seq + 1 + 1) ?_
      rw [hs2]
      exact tree_reach (tree_agree (agree_mono hv.agree fun _ hq => mem_append_right _ hq) htree) p hp
  · rw [he.kept, ← hs1]
    exact .inr (slot_mem _ _)

theorem fold_done (he : Entry crc s old h m ps) {r : Run Fs}
    (hrun : runs (fold crc env) ⟨s, []⟩ = (some (), r)) : s.ram.index.entries = [] ∨
      ∃ root h' ps' v, Made crc s old m ps root h' ps' v ∧ Steady (ps ++ ps') (spare s.rt) v (fun _ _ => True) r.now ∧
        r.now.rt = Rt.logless (Rt.publish s.rt root.pba) ∧ r.now.ram = Ram.empty := by
  have htriple := fold_triple he env (S := fun _ => True) (fun _ _ => True)
    (fun _ _ _ _ _ => True) (fun _ _ => trivial) (fun _ _ => trivial)
    fun _ => ⟨fun _ _ => trivial, fun _ _ => trivial⟩
  have hsome := (htriple ⟨s, []⟩ rfl).2.1 () (congrArg Prod.fst hrun)
  rw [hrun] at hsome
  exact hsome.imp_left And.left

end

end InvariantFs.FoldPublish
