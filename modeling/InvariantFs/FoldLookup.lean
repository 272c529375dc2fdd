import InvariantFs.RootPublish

namespace InvariantFs.FoldLookup

open ByteCodec CachedStore BtreePage Btree SortedMap Fallible CrashTrace BtreeShape BtreeSupply BtreeMap
open DeltaIndex DeltaLog BaseRoot BaseCrash Fold FoldMerge FoldCrash FoldSafe FoldPublish RootHistory
open BtreeCheck BtreeRow RootPublish Option

variable (crc : List Byte → UInt32)

/-- The log on the medium, laid over the base, gives the merged lookups, whatever of its last writes
gets through. -/
def Logged (s : Fs) : Prop :=
  ∀ locked b k, overlaid
    (answer (replayed crc s.vol.total ((deltaHeal crc locked s).med.seg.tear b).view s.rt.deltaPba) k)
    (baseGet crc s.vol s.rt k) = overlayGet crc s k

def Prevails (s : Fs) : Prop :=
  ∃ old h m ps, baseRoot crc s.vol s.rt = some old ∧ Tree crc s.vol old h m ps ∧
    (old.pba = 0 ∨ old.gen < genAfter (snapshot s.ram) old.gen m ∨
      ∀ k, lookup (applied (snapshot s.ram) m) k = lookup m k)

/-- A fold that returns leaves every merged lookup as it was, and so does a power cut at any point of a
fold, or after it, with the next mount. -/
structure FoldKeeps (env : Fold.Env) (s : Fs) : Prop where
  done : (runs (fold crc env) ⟨s, []⟩).1 = some () →
    ∀ k, overlayGet crc (runs (fold crc env) ⟨s, []⟩).2.now k = overlayGet crc s k
  cut : ∀ t ∈ (runs (fold crc env) ⟨s, []⟩).2.past, Safe crc (overlayGet crc s) t
  after : Safe crc (overlayGet crc s) (runs (fold crc env) ⟨s, []⟩).2.now

def Holdable (s : Fs) : Prop :=
  ∀ old h m ps, baseRoot crc s.vol s.rt = some old → Tree crc s.vol old h m ps →
    (applied (snapshot s.ram) m).length < 2 ^ maxDepth

variable {crc}

section

variable {s : Fs} {old root : Ptr} {h h' : Nat} {m : List (Key × Val)} {ps ps' : List UInt64} {v : Vol}

theorem overlaid_again {recent : Option (Bool × Val)} {base want : Option (Option Val)}
    (h : overlaid recent base = want) : overlaid recent want = want := by
  subst h
  unfold overlaid
  split <;> rfl

variable {seg : Nat → List Byte}

theorem good_before (he : Entry crc s old h m ps)
    (hseg : ∀ k, overlaid (answer (replayed crc s.vol.total seg s.rt.deltaPba) k) (baseGet crc s.vol s.rt k) =
      overlayGet crc s k) : Good crc (spare s.rt ++ ps) [] s.vol (overlayGet crc s) s.rt seg := by
  intro v hv k
  rw [old_get he (alike_spare hv), ← old_get he (alike_self _ _ _) k]
  exact hseg k

section

variable (he : Entry crc s old h m ps) (hm : Made crc s old m ps root h' ps' v) (hdepth : h' < maxDepth)

include he hm hdepth

theorem published_get {v' : Vol} (hv : Alike (ps ++ ps') (spare s.rt) v v') (k : Key) :
    baseGet crc v' (Rt.publish s.rt root.pba) k =
      some (lookup (if old.pba ≠ 0 ∧ root.gen ≤ old.gen then m else applied (snapshot s.ram) m) k) := by
  obtain ⟨h1, h2⟩ := slots_publish s.rt root.pba
  have hslots : Slots (Rt.publish s.rt root.pba) old root := ⟨h1.trans he.kept.symm, h2⟩
  have hold : Tree crc v' old h m ps := tree_agree (agree_trans hm.alike.agree
    (agree_mono hv.agree fun _ hp => List.mem_append_left _ hp)) he.tree
  have hnew : Tree crc v' root h' (applied (snapshot s.ram) m) ps' :=
    tree_agree (agree_mono hv.agree fun _ hp => List.mem_append_right _ hp) hm.tree
  by_cases ho : old.pba ≠ 0 ∧ root.gen ≤ old.gen
  · rw [if_pos ho, outranked_get hslots ho hm.nonzero hold hnew he.depth]
  · rw [if_neg ho, prevailing_get hslots ho hm.nonzero hold hnew]
    exact tree_search (tree_flags hnew bpRoot) hdepth k

theorem good_after (hseg : ∀ k, overlaid (answer (replayed crc s.vol.total seg s.rt.deltaPba) k)
      (baseGet crc s.vol s.rt k) = overlayGet crc s k)
    (hwin : old.pba = 0 ∨ old.gen < root.gen ∨ ∀ k, lookup (applied (snapshot s.ram) m) k = lookup m k) :
    ∀ rt ∈ [s.rt, Rt.publish s.rt root.pba, Rt.logless (Rt.publish s.rt root.pba)],
      Good crc (ps ++ ps') (spare s.rt) v (overlayGet crc s) rt seg := by
  have htotal : v.total = s.vol.total := hm.alike.agree.total
  intro rt hrt v' hv k
  simp only [List.mem_cons, List.not_mem_nil, or_false] at hrt
  obtain rfl | rfl | rfl := hrt
  · have ha : Alike ps (spare s.rt) s.vol v' := alike_trans hm.alike
      ⟨agree_mono hv.agree fun _ hp => List.mem_append_left _ hp, hv.same⟩
    rw [htotal, old_get he ha, ← old_get he (alike_self _ _ _) k]
    exact hseg k
  · change overlaid (answer (replayed crc v.total seg s.rt.deltaPba) k) _ = _
    rw [htotal, published_get he hm hdepth hv]
    split_ifs
    · rw [← old_get he (alike_self _ _ _) k]
      exact hseg k
    · rw [← overlay_merged he]
      exact overlaid_again (hseg k)
  · change overlaid (answer (replayed crc v.total seg 0) k) (baseGet crc v' (Rt.publish s.rt root.pba) k) = _
    rw [published_get he hm hdepth hv, overlay_merged he]
    change some _ = _
    split_ifs with ho
    · obtain h0 | hlt | hsame := hwin
      · exact absurd h0 ho.1
      · exact absurd ho.2 (UInt64.not_le.mpr hlt)
      · rw [hsame k]
    · rfl

end

end

theorem tree_unique {v : Vol} {root : Ptr} {h h' : Nat} {m m' : List (Key × Val)} {ps ps' : List UInt64}
    (ht : Tree crc v root h m ps) (ht' : Tree crc v root h' m' ps') : m = m' := by
  obtain ⟨rs, hroot, hr, -⟩ := ht
  obtain ⟨rs', hroot', hr', -⟩ := ht'
  exact row_unique hroot hroot' hr hr'

section

variable {s : Fs} {old : Ptr} {h : Nat} {m : List (Key × Val)} {ps : List UInt64}

theorem depth_lt (he : Entry crc s old h m ps) (hold : Holdable crc s) {root : Ptr} {h' : Nat} {ps' : List UInt64}
    {v : Vol} (hm : Made crc s old m ps root h' ps' v) : h' < maxDepth :=
  (Nat.pow_lt_pow_iff_right (by decide)).mp (hm.wide.trans_lt (hold _ _ _ _ he.root he.tree))

theorem fold_keeps (he : Entry crc s old h m ps) (hlog : Logged crc s) (hold : Holdable crc s)
    (hwin : Prevails crc s) (env : Fold.Env) : FoldKeeps crc env s := by
  obtain ⟨old', h', m', ps', hroot, htree, hwin⟩ := hwin
  obtain rfl : old' = old := some.inj (hroot.symm.trans he.root)
  obtain rfl := tree_unique htree he.tree
  obtain ⟨-, -, -, -, hmed⟩ := heal_frame crc env.heal s
  have hview : ∀ k, overlaid
      (answer (replayed crc s.vol.total (deltaHeal crc env.heal s).med.seg.view s.rt.deltaPba) k)
      (baseGet crc s.vol s.rt k) = overlayGet crc s k := by
    intro k
    have hk := hlog env.heal (List.replicate (deltaHeal crc env.heal s).med.seg.pending.length true) k
    rwa [tear_all] at hk
  have hafter : ∀ {root h' ps' v}, Made crc s old' m' ps root h' ps' v →
      ∀ rt ∈ [s.rt, Rt.publish s.rt root.pba, Rt.logless (Rt.publish s.rt root.pba)],
        Good crc (ps ++ ps') (spare s.rt) v (overlayGet crc s) rt (deltaHeal crc env.heal s).med.seg.view :=
    fun hm => good_after he hm (depth_lt he hold hm) hview (by rw [hm.gen]; exact hwin)
  have htriple := fold_triple he env (S := Safe crc (overlayGet crc s))
    (Good crc (spare s.rt ++ ps) [] s.vol (overlayGet crc s))
    (fun _ ps' v => Good crc (ps ++ ps') (spare s.rt) v (overlayGet crc s))
    (fun t ht => steady_safe ht) (fun a b => by
      rw [hmed, idle_torn he]
      exact good_before he (hlog env.heal b)) fun hm => ⟨fun t ht => steady_safe ht, hafter hm⟩
  obtain ⟨hpast, hsome, hnone⟩ := htriple ⟨s, []⟩ rfl
  have hstart : Safe crc (overlayGet crc s) s := by
    have hsteady : Steady (spare s.rt ++ ps) [] s.vol
        (Good crc (spare s.rt ++ ps) [] s.vol (overlayGet crc s)) s := by
      refine ⟨fun p hp => ?_, by simp, alike_self _ _ _, fun a b => ?_⟩
      · exact (List.mem_append.mp hp).elim (he.spare p) (he.firm p)
      · rw [idle_torn he]
        exact good_before he (hlog false b)
    exact steady_safe hsteady
  refine ⟨fun hdone k => ?_, fun t ht => (hpast t ht).resolve_left List.not_mem_nil, ?_⟩
  · obtain ⟨-, heq⟩ | ⟨root, h', ps', v, hm, ht, hrt, hram⟩ := hsome () hdone
    · rw [heq]
    · have hgood := hafter hm _ (by simp : Rt.logless (Rt.publish s.rt root.pba) ∈ _) _ ht.alike k
      change overlaid (answer (replayed crc v.total _ 0) k) _ = _ at hgood
      rw [replay_none] at hgood
      rw [overlayGet, hram, hrt, hgood]
  · cases hdone : (runs (fold crc env) ⟨s, []⟩).1 with
    | none => exact hnone hdone
    | some a =>
      obtain ⟨-, heq⟩ | ⟨root, h', ps', v, hm, ht, -⟩ := hsome a hdone
      · rw [heq]
        exact hstart
      · exact steady_safe ht

theorem keeps_prevails (he : Entry crc s old h m ps) (hold : Holdable crc s) {env : Fold.Env}
    (hdone : (runs (fold crc env) ⟨s, []⟩).1 = some ()) (hkeep : FoldKeeps crc env s) : Prevails crc s := by
  refine ⟨old, h, m, ps, he.root, he.tree, ?_⟩
  obtain hempty | ⟨root, h', ps', v, hm, ht, hrt, hram⟩ := fold_done he (Prod.ext hdone rfl)
  · refine .inr (.inr fun k => ?_)
    rw [snapshot, hempty]
    rfl
  · by_cases ho : old.pba ≠ 0 ∧ root.gen ≤ old.gen
    · refine .inr (.inr fun k => ?_)
      have hk := hkeep.done hdone k
      rw [overlay_merged he, overlayGet, hram, hrt] at hk
      change baseGet crc _ (Rt.publish s.rt root.pba) k = _ at hk
      rw [published_get he hm (depth_lt he hold hm) ht.alike, if_pos ho] at hk
      exact (some.inj hk).symm
    · by_cases h0 : old.pba = 0
      · exact .inl h0
      · refine .inr (.inl ?_)
        rw [← hm.gen]
        exact UInt64.not_le.mp fun hle => ho ⟨h0, hle⟩

end

def obliging : Fold.Env where
  heal := false
  space := true
  collect := true
  flush := true
  pages := .ok
  walk := true
  publish := willing.root
  resetStore := true
  resetMirror := .ok
  reset := .ok
  drained := false
  orphans := []
  orphansFlush := true

theorem fold_obliging {s : Fs} {old root : Ptr} {v : Vol} {h : Nat} {m : List (Key × Val)} {ps : List UInt64}
    (hne : s.ram.index.entries ≠ []) (hread : baseRoot crc s.vol s.rt = some old)
    (hmerge : runs (merge crc (snapshot s.ram) old) s.vol = (some root, v)) (h0 : root.pba ≠ 0)
    (htree : Tree crc v root h m ps)
    (hck : ∃ ck, check crc (bitmapFlush { s with vol := v }).fence.vol root = .ok ck) :
    ∃ r', runs (fold crc obliging) ⟨s, []⟩ = (some (), r') ∧ r'.now.med.rt = ⟨fun _ => r'.now.rt, []⟩ := by
  obtain ⟨ck, hck⟩ := hck
  let t : Fs := (bitmapFlush { s with vol := v }).fence
  let past : List Fs := [s] ++ [bitmapFlush { s with vol := v }]
  have hprepare : runs (prepare crc obliging) ⟨s, []⟩ = (some (old, root, ck), ⟨t, past⟩) := by
    have hcopy : runs (do let root ← merge crc (snapshot s.ram) old; rootPage crc old root) s.vol = (some root, v) :=
      bind_some.mpr ⟨root, v, hmerge, by simp [rootPage, h0]⟩
    have hopt : (check crc t.vol root).toOption = some ck := by rw [hck]; rfl
    refine bind_some.mpr ⟨(), ⟨s, []⟩, rfl, bind_some.mpr ⟨(), ⟨s, [s]⟩, rfl, ?_⟩⟩
    refine bind_some.mpr ⟨(), ⟨s, [s]⟩, rfl, bind_some.mpr ⟨(), ⟨s, [s]⟩, rfl, ?_⟩⟩
    refine bind_some.mpr ⟨old, ⟨s, [s]⟩, Prod.ext hread rfl, bind_some.mpr ⟨s.ram, ⟨s, [s]⟩, rfl, ?_⟩⟩
    refine bind_some.mpr ⟨root, ⟨{ s with vol := v }, [s]⟩, ?_, ?_⟩
    · change ((runs _ s.vol).1, (⟨{ s with vol := (runs _ s.vol).2 }, [s]⟩ : Run Fs)) = _
      rw [hcopy]
    refine bind_some.mpr ⟨(), ⟨bitmapFlush { s with vol := v }, [s]⟩, ?_, bind_some.mpr ⟨(), ⟨t, past⟩, rfl, ?_⟩⟩
    · simp [flush, runs_bind, look, change, obliging]
    · exact bind_some.mpr ⟨(), ⟨t, past⟩, rfl, bind_some.mpr ⟨ck, ⟨t, past⟩, Prod.ext hopt rfl, rfl⟩⟩
  have hpage : (wholePage crc t.vol root.pba).map (fun page => (pageHdr page).gen) = some root.gen :=
    wholePage_tree (tree_agree (flushed_agree _ _) htree) h0
  obtain ⟨r1, hpub⟩ := rootPublish_willing (r := ⟨t, past⟩) hpage
  obtain ⟨-, hvol1, -⟩ := rootPublish_some hpub rfl
  obtain ⟨-, -, hdev, -⟩ := flush_frame t
  let s2 : Fs := { deltaClose r1.now with rt := Rt.logless r1.now.rt }
  obtain ⟨r3, hcommit⟩ := commit_willing ⟨s2, r1.past⟩
  have hdev2 : s2.vol.dev.pending = [] := by
    change r1.now.vol.dev.pending = []
    rw [hvol1, hdev]
    rfl
  obtain ⟨-, hrt3, -, hhome⟩ := commit_some hcommit hdev2
  have hmed := hhome fun _ => rfl
  have hreset : runs (deltaReset crc obliging) r1 = (some (), ⟨deltaMount crc r3.now, r3.past⟩) :=
    bind_some.mpr ⟨(), ⟨s2, r1.past⟩, rfl, bind_some.mpr ⟨(), r3, hcommit, rfl⟩⟩
  refine ⟨⟨reclaimSegments r1.now.rt.deltaPba (deltaMount crc r3.now), r3.past⟩, ?_, ?_⟩
  · refine bind_some.mpr ⟨s, ⟨s, []⟩, rfl, ?_⟩
    rw [if_neg hne]
    refine bind_some.mpr ⟨_, _, hprepare, bind_some.mpr ⟨(), r1, hpub, ?_⟩⟩
    let r4 : Run Fs := ⟨deltaMount crc r3.now, r3.past⟩
    refine bind_some.mpr ⟨r1.now.rt.deltaPba, r1, rfl, bind_some.mpr ⟨true, r4, ?_, ?_⟩⟩
    · simp [attempt, hreset, r4]
    · exact bind_some.mpr ⟨(), _, rfl, bind_some.mpr ⟨(), _, rfl, rfl⟩⟩
  · obtain ⟨f1, f2, -⟩ := freeAll_frame (logBlocks r1.now.rt.deltaPba (deltaMount crc r3.now)) (deltaMount crc r3.now)
    refine (congrArg Medium.rt f2).trans (hmed.trans ?_)
    refine congrArg (fun f => (⟨f, []⟩ : Store Unit Rt)) (funext fun _ => ?_)
    exact hrt3.symm.trans f1.symm

theorem leaf_pages {v : Vol} {root : Ptr} {m : List (Key × Val)} {ps : List UInt64}
    (ht : Tree crc v root 0 m ps) (h0 : root.pba ≠ 0) : ps = [root.pba] := by
  obtain ⟨rs, ⟨h1, -⟩ | ⟨-, t, rfl, rfl⟩, -, rfl⟩ := ht
  · exact absurd h1 h0
  · exact (List.append_nil _).trans (pages_leaf t.1 t.2)

theorem leaf_check {v : Vol} {root : Ptr} {m : List (Key × Val)} {ps : List UInt64}
    (ht : Tree crc v root 0 m ps) : ∃ ck, check crc v root = .ok ck := by
  obtain ⟨rs, hroot, hr, -⟩ := ht
  obtain ⟨ck, hck, -⟩ := row_check (Nat.two_pow_pos 16) hroot hr
    fun r _ => ⟨fun h => absurd rfl h, fun _ _ => trivial⟩
  exact ⟨ck, hck⟩

theorem logBlocks_zero (s : Fs) : logBlocks 0 s = [] := rfl

/-- The volume `t` is `s` with another log, which lies in blocks that are allocated in `v`. -/
structure Relogged (crc : List Byte → UInt32) (v : Vol) (s t : Fs) : Prop where
  vol : t.vol = s.vol
  bits : t.bits = s.bits
  slots : t.rt.rootSlot = s.rt.rootSlot
  seq : t.rt.seq = s.rt.seq
  idle : t.med.rt.pending = []
  home : t.med.rt.durable () = t.rt
  log : ∀ locked, ∀ p ∈ logBlocks t.rt.deltaPba (deltaHeal crc locked t), v.bit p = true

section

variable {s t : Fs} {v : Vol} {root : Ptr} {ck : Ck} (hr : Relogged crc v s t)

include hr

theorem relogged_root : baseRoot crc t.vol t.rt = baseRoot crc s.vol s.rt := by
  simp only [baseRoot, rootRead, hr.vol, hr.slots, hr.seq]

theorem relogged_slot (i : Nat) : Rt.slot t.rt i = Rt.slot s.rt i := by
  rw [Rt.slot, Rt.slot, hr.slots]

theorem relogged_firm {p : UInt64} (h : Firm s p) : Firm t p :=
  ⟨hr.vol ▸ h.set, hr.bits ▸ h.home, hr.bits ▸ h.kept, hr.vol ▸ h.still⟩

theorem settled_relogged (hc : Covered s.vol) (hspare : Rt.slot s.rt s.rt.seq = 0)
    (hroot : baseRoot crc s.vol s.rt = some root) (hslot : root.pba = Rt.slot s.rt (s.rt.seq + 1))
    (hck : check crc s.vol root = .ok ck) (hdepth : ck.height ≤ maxDepth) (hfirm : ∀ p ∈ ck.seen, Firm s p)
    (hv : ∀ p, v.bit p = true → s.vol.bit p = true ∧ p ∉ ck.seen) : Settled crc t := by
  refine ⟨hr.vol ▸ hc, hr.idle, hr.home, fun p hp => ?_, root, ck, (relogged_root hr).trans hroot, ?_, hr.vol ▸ hck,
    hdepth, fun p hp => relogged_firm hr (hfirm p hp), fun locked p hp => hr.vol ▸ hv p (hr.log locked p hp)⟩
  · rw [FoldSafe.spare, hr.seq, relogged_slot hr, if_pos hspare] at hp
    exact absurd hp List.not_mem_nil
  · rw [hr.seq, relogged_slot hr, hslot]

/-- A volume without a base, and some log. -/
theorem settled_fresh (hf : Fresh s) (hc : Covered s.vol) (hv : v = s.vol) : Settled crc t := by
  subst hv
  have hck : check crc s.vol .null = .ok ⟨[], 0, 0, 0⟩ := rfl
  exact settled_relogged hr hc (slot_zero hf.slots _) (baseRoot_none hf.slots) (slot_zero hf.slots _).symm hck
    (Nat.zero_le _) (fun p hp => absurd hp List.not_mem_nil) fun p hp => ⟨hp, List.not_mem_nil⟩

end

/-- A volume on which nothing has been published, with room for nine pages. -/
structure Roomy (s : Fs) : Prop where
  fresh : Fresh s
  covered : Covered s.vol
  ample : Ample 9 s.vol
  anchor : s.anchor = false
  log : s.rt.deltaPba = 0

theorem roomy_blankFs : Roomy blankFs where
  fresh := fresh_blankFs
  covered := by
    unfold Covered
    decide
  ample := ample_blankVol
  anchor := rfl
  log := rfl

theorem relogged_ram {s : Fs} (hidle : s.med.rt = ⟨fun _ => s.rt, []⟩) (hlog : s.rt.deltaPba = 0) (v : Vol)
    (ram : Recent) : Relogged crc v s { s with ram := ram } where
  vol := rfl
  bits := rfl
  slots := rfl
  seq := rfl
  idle := congrArg Store.pending hidle
  home := congrFun (congrArg Store.durable hidle) ()
  log := by
    intro locked p hp
    change p ∈ logBlocks s.rt.deltaPba _ at hp
    rw [hlog, logBlocks_zero] at hp
    exact absurd hp List.not_mem_nil

variable (crc) in
theorem entry_roomy {s : Fs} (h : Roomy s) : Entry crc s .null 0 [] [] where
  covered := h.covered
  idle := congrArg Store.pending h.fresh.home
  home := congrFun (congrArg Store.durable h.fresh.home) ()
  spare := by simp [FoldSafe.spare, slot_zero h.fresh.slots]
  root := baseRoot_none h.fresh.slots
  kept := (slot_zero h.fresh.slots _).symm
  tree := tree_null_root _ _
  depth := by decide
  firm := by simp
  log := by
    intro locked p hp
    rw [h.log, logBlocks_zero] at hp
    exact absurd hp List.not_mem_nil

variable (crc) in
theorem first_settled {s : Fs} (hroomy : Roomy s) : ∃ (r : Run Fs) (root : Ptr),
    runs (round crc [.put [1] [1]] willing) ⟨s, []⟩ = (some (.null, root), r) ∧ root.pba ≠ 0 ∧ root.gen = 1 ∧
      (∀ t, Relogged crc s.vol r.now t → Settled crc t) ∧
      (∀ ram, Settled crc { r.now with ram := ram }) ∧
      baseRoot crc r.now.vol r.now.rt = some { root with flags := bpRoot } ∧
      readNode crc r.now.vol root = some (0, [⟨[1], [1], .null⟩]) ∧
      Tree crc r.now.vol root 0 [([1], [1])] [root.pba] ∧ Ample 8 r.now.vol ∧ r.now.vol.total = s.vol.total := by
  obtain ⟨r, root, hrun, h0, hgen, hnode, htree, ha, hkept⟩ := first_round crc hroomy.fresh hroomy.ample
  have hr := round_some hrun
  have hb := beside_of_rounded (current_fresh hroomy.fresh) hr
  have hhome := hr.home (by simp [hroomy.anchor])
  obtain ⟨-, hpage, hptr⟩ := tree_slot htree h0
  have hread : baseRoot crc r.now.vol r.now.rt = some { root with flags := bpRoot } := by
    rw [baseRoot, beside_read hb (.inl rfl) rfl (by rw [hpage]; simp)]
    exact congrArg some (hptr bpRoot)
  have hfirm : Firm r.now root.pba := by
    have htriple := round_triple (entry_roomy crc hroomy) (.put [1] [1]) willing (S := fun _ => True)
      (fun _ _ => True)
      (fun _ _ _ _ _ => True) (fun _ _ => trivial) (fun _ _ => trivial)
      fun _ => ⟨fun _ _ => trivial, fun _ _ => trivial⟩
    obtain ⟨-, hsome, -⟩ := htriple ⟨s, []⟩ rfl
    rw [hrun] at hsome
    obtain ⟨-, ps', v, hed, hst⟩ := hsome _ rfl
    exact hst.firm _ (sturdy_mem hed.sturdy hed.nonzero)
  have htotal : r.now.vol.total = s.vol.total := by
    obtain ⟨v, hmade, htotal, -⟩ := hr.made
    have hf := copies_keeps crc [.put [1] [1]] .null s.vol
    rw [hmade] at hf
    exact htotal.trans hf.total
  obtain ⟨ck, hck⟩ := leaf_check (tree_flags htree bpRoot)
  have hseen : ∀ p ∈ ck.seen, p = root.pba := by
    obtain ⟨-, m', ps', ht', hseen⟩ := tree_check (tree_flags htree bpRoot) hck h0
    intro p hp
    have hm := hseen p hp
    rw [leaf_pages ht' h0] at hm
    exact List.mem_singleton.mp hm
  have hsettled : ∀ t, Relogged crc s.vol r.now t → Settled crc t := by
    intro t ht
    refine settled_relogged ht ?_ hb.kept hread hb.slot.symm hck ?_ (fun p hp => hseen p hp ▸ hfirm) fun p hp => ?_
    · rw [Covered, htotal]
      exact hroomy.covered
    · rw [(tree_check (tree_flags htree bpRoot) hck h0).1]
      decide
    · exact ⟨(hkept p hp).1, fun hmem => (hkept p hp).2 (hseen p hmem)⟩
  have hz : r.now.rt.deltaPba = 0 := (congrArg Rt.deltaPba hr.rt).trans hroomy.log
  exact ⟨r, root, hrun, h0, hgen, hsettled, fun ram => hsettled _ (relogged_ram hhome hz _ ram), hread, hnode, htree,
    ha, htotal⟩

def refillLog : Recent :=
  { Ram.empty with index := AList.insert [2] ⟨0, 0, 0, false, [2]⟩ (AList.insert [1] ⟨0, 0, 0, true, []⟩ ∅) }

theorem snapshot_refillLog : snapshot refillLog = [([1], true, []), ([2], false, [2])] := by decide

theorem holdable_of {s : Fs} {old : Ptr} {h : Nat} {m : List (Key × Val)} {ps : List UInt64}
    (hroot : baseRoot crc s.vol s.rt = some old) (ht : Tree crc s.vol old h m ps)
    (hlen : (applied (snapshot s.ram) m).length < 2 ^ maxDepth) : Holdable crc s := by
  intro old' h' m' ps' hroot' ht'
  obtain rfl := some.inj (hroot.symm.trans hroot')
  rwa [tree_unique ht' ht]

theorem entries_ne {ram : Recent} (h : snapshot ram ≠ []) : ram.index.entries ≠ [] := by
  intro hnil
  rw [snapshot, hnil] at h
  exact h rfl

/-- A fold that empties a leaf and fills it again returns. -/
theorem fold_refills {s : Fs} {old : Ptr} (hread : baseRoot crc s.vol s.rt = some old) (h0 : old.pba ≠ 0)
    (hnode : readNode crc s.vol old = some (0, [⟨[1], [1], .null⟩]))
    (htree : Tree crc s.vol old 0 [([1], [1])] [old.pba]) (ha : Ample 8 s.vol)
    (hsnap : snapshot s.ram = [([1], true, []), ([2], false, [2])]) : ∃ (r : Run Fs) (root : Ptr),
      runs (fold crc obliging) ⟨s, []⟩ = (some (), r) ∧ r.now.med.rt = ⟨fun _ => r.now.rt, []⟩ ∧
      root.pba ≠ old.pba ∧
      (runs (do let root ← merge crc (snapshot s.ram) old
                rootPage crc old root) s.vol).1 = some root := by
  have hne : s.ram.index.entries ≠ [] := entries_ne (by simp [hsnap])
  obtain ⟨root, v, hup, h0', -, hfree, -, htree', -⟩ := upsert_single crc (n := 7) (k := [2]) (x := [2]) ha
    (by decide) (old.gen + 1)
  have hsearch : search crc s.vol old [1] = some (some [1]) := tree_search htree (by decide) [1]
  have hmerge : runs (merge crc (snapshot s.ram) old) s.vol = (some root, v) := by
    rw [hsnap]
    refine bind_some.mpr ⟨some [1], s.vol, Prod.ext hsearch rfl, ?_⟩
    exact bind_some.mpr ⟨_, _, delete_last h0 hnode, bind_some.mpr ⟨root, v, hup, rfl⟩⟩
  have hck : ∃ ck, check crc (bitmapFlush { s with vol := v }).fence.vol root = .ok ck :=
    leaf_check (tree_agree (flushed_agree { s with vol := v } _) htree')
  obtain ⟨r, hfold, hhome⟩ := fold_obliging hne hread hmerge h0' htree' hck
  refine ⟨r, root, hfold, hhome, fun heq => ?_, ?_⟩
  · rw [heq, (tree_pages htree old.pba List.mem_cons_self).2.2] at hfree
    cases hfree
  · have hcopy : runs (do let root ← merge crc (snapshot s.ram) old; rootPage crc old root) s.vol =
        (some root, v) := bind_some.mpr ⟨root, v, hmerge, by simp [rootPage, h0']⟩
    exact congrArg Prod.fst hcopy

variable (crc) in
theorem refill_folded : ∃ (r r' : Run Fs) (root root' : Ptr),
    runs (round crc [.put [1] [1]] willing) ⟨blankFs, []⟩ = (some (.null, root), r) ∧ root.pba ≠ 0 ∧ root.gen = 1 ∧
      Settled crc { r.now with ram := refillLog } ∧
      baseRoot crc r.now.vol r.now.rt = some { root with flags := bpRoot } ∧
      Tree crc r.now.vol root 0 [([1], [1])] [root.pba] ∧
      runs (fold crc obliging) ⟨{ r.now with ram := refillLog }, []⟩ = (some (), r') ∧
      r'.now.med.rt = ⟨fun _ => r'.now.rt, []⟩ ∧ root'.pba ≠ root.pba ∧
      (runs (do let root' ← merge crc (snapshot refillLog) { root with flags := bpRoot }
                rootPage crc { root with flags := bpRoot } root') r.now.vol).1 = some root' := by
  obtain ⟨r, root, hrun, h0, hgen, -, hs, hread, hnode, htree, ha, -⟩ := first_settled crc roomy_blankFs
  obtain ⟨r', root', hfold, hhome, hne, hmade⟩ := fold_refills (s := { r.now with ram := refillLog }) hread h0
    ((readNode_flags crc r.now.vol root bpRoot).trans hnode) (tree_flags htree bpRoot) ha snapshot_refillLog
  exact ⟨r, r', root, root', hrun, h0, hgen, hs refillLog, hread, htree, hfold, hhome, hne, hmade⟩

end InvariantFs.FoldLookup
