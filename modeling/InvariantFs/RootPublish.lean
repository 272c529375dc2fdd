import InvariantFs.FoldPublish
import InvariantFs.RootHistory

namespace InvariantFs.RootPublish

open ByteCodec CachedStore BtreePage Btree SortedMap Fallible CrashTrace BtreeShape BtreeWrite
open BtreeRow BtreeDelete BtreeMap DeltaLog BaseRoot BaseCrash Fold FoldMerge FoldCrash
open FoldSafe FoldPublish RootHistory List

variable (crc : List Byte → UInt32)

def Sturdy (v : Vol) (root : Ptr) (ps : List UInt64) : Prop :=
  (∃ h m, Tree crc v root h m ps) ∨ readNode crc v root = some (0, []) ∧ ps = [root.pba]

variable {crc}

variable {v v' : Vol} {root : Ptr} {ps : List UInt64}

theorem sturdy_agree (ha : Agree ps v v') (h : Sturdy crc v root ps) : Sturdy crc v' root ps := by
  obtain ⟨h, m, ht⟩ | ⟨hr, rfl⟩ := h
  · exact .inl ⟨h, m, tree_agree ha ht⟩
  · exact .inr ⟨(readNode_agree ha).trans hr, rfl⟩

theorem sturdy_flags (h : Sturdy crc v root ps) (flags : UInt32) : Sturdy crc v { root with flags := flags } ps := by
  obtain ⟨h, m, ht⟩ | ⟨hr, rfl⟩ := h
  · exact .inl ⟨h, m, tree_flags ht flags⟩
  · exact .inr ⟨(readNode_flags crc v root flags).trans hr, rfl⟩

theorem sturdy_mem (h : Sturdy crc v root ps) (h0 : root.pba ≠ 0) : root.pba ∈ ps := by
  obtain ⟨h, m, ht⟩ | ⟨-, rfl⟩ := h
  · exact (tree_slot ht h0).1
  · exact mem_cons_self

theorem sturdy_slot (h : Sturdy crc v root ps) (h0 : root.pba ≠ 0) :
    slotPage crc v root.pba = some (v.dev.view root.pba) ∧
      ∀ flags, ptrSet root.pba (v.dev.view root.pba) flags = { root with flags := flags } := by
  obtain ⟨h, m, ht⟩ | ⟨hr, -⟩ := h
  · exact (tree_slot ht h0).2
  · exact (node_slot hr).2

section

variable {s : Fs} {old : Ptr} {h : Nat} {m : List (Key × Val)} {e : Edit}

theorem edit_sturdy (he : Entry crc s old h m ps)
    (hrun : runs (do let root ← edits crc [e] old; rootPage crc old root) s.vol = (some root, v)) :
    Frame s.vol v ∧ root.pba ≠ 0 ∧ ∃ ps', Sturdy crc v root ps' ∧ From s.vol ps ps' ∧
      ∀ p ∈ ps', p < v.total ∧ v.bit p = true := by
  obtain ⟨_, _, hedit, hpage⟩ := bind_some.mp hrun
  obtain ⟨root1, v1, hcall, hpure⟩ := bind_some.mp hedit
  obtain ⟨rfl, rfl⟩ := ended hpure
  obtain ⟨hf, -, h', ps', ht, hfrom⟩ := edit_tree he.tree hcall
  obtain ⟨h0, rfl, rfl⟩ | ⟨hempty, gen, hplace⟩ := rootPage_some hpage
  · exact ⟨hf, h0, ps', .inl ⟨h', _, ht⟩, hfrom, fun p hp => (tree_pages ht p hp).2⟩
  · obtain ⟨hp0, hlt, hfree, hf', hbit, -⟩ := place_some crc hplace
    refine ⟨frame_trans hf hf', hp0, [root.pba], .inr ⟨hempty, rfl⟩, ?_, ?_⟩
    · intro p hp
      obtain rfl := mem_singleton.mp hp
      exact .inr (frame_free hf hfree)
    · intro p hp
      obtain rfl := mem_singleton.mp hp
      exact ⟨hf'.total ▸ hlt, by rw [hbit, Function.update_self]⟩

variable (crc) in
structure Edited (s : Fs) (old : Ptr) (e : Edit) (ps : List UInt64) (root : Ptr) (ps' : List UInt64) (v : Vol) :
    Prop where
  run : (runs (do let root ← edits crc [e] old; rootPage crc old root) s.vol).1 = some root
  nonzero : root.pba ≠ 0
  sturdy : Sturdy crc v root ps'
  alike : Alike ps (spare s.rt) s.vol v

/-- A publish of one edit from a settled volume. Up to the publish `good` is about the old descriptor, the only
one; from there on `good'` is about the descriptors with either root. -/
theorem round_triple (he : Entry crc s old h m ps) (e : Edit) (env : Commit) {S : Fs → Prop}
    (good : Rt → (Nat → List Byte) → Prop) (good' : Ptr → List UInt64 → Vol → Rt → (Nat → List Byte) → Prop)
    (hsafe : ∀ t, Steady (spare s.rt ++ ps) [] s.vol good t → S t)
    (hs : ∀ a b, good ((s.med.rt.tear a).view ()) (s.med.seg.tear b).view)
    (hmade : ∀ {root ps' v}, Edited crc s old e ps root ps' v →
      (∀ t, Steady (ps ++ ps') (spare s.rt) v (good' root ps' v) t → S t) ∧
        ∀ rt ∈ [s.rt, Rt.publish s.rt root.pba], good' root ps' v rt s.med.seg.view) :
    Triple S (fun t => t = s) (round crc [e] env) (fun r t => r.1 = old ∧ ∃ ps' v, Edited crc s old e ps r.2 ps' v ∧
        Steady (ps ++ ps') (spare s.rt) v (good' r.2 ps' v) t) S := by
  let R (t : Fs) : Prop := Steady (spare s.rt ++ ps) [] s.vol good t
  have hstart : R s := ⟨fun p hp => (mem_append.mp hp).elim (he.spare p) (he.firm p), by simp,
    alike_self _ _ _, hs⟩
  refine triple_bind (M := fun a t => a = old ∧ t = s) (triple_look ?_ ?_) fun a => ?_
  · rintro t a rfl ha
    exact ⟨Option.some.inj (ha.symm.trans he.root), rfl⟩
  · rintro t rfl -
    exact hsafe _ hstart
  refine triple_bind (M := fun root t => a = old ∧ ∃ v, runs (edits crc [e] old) s.vol = (some root, v) ∧
    t = { s with vol := v }) (triple_zoom ?_) fun root1 => ?_
  · rintro t ⟨rfl, rfl⟩
    exact ⟨fun root hr => ⟨rfl, _, Prod.ext hr rfl, rfl⟩,
      fun _ => hsafe _ (steady_frame hstart (edits_keeps _ _ _))⟩
  let Q (root : Ptr) (t : Fs) : Prop := a = old ∧ ∃ ps' v, Edited crc s old e ps root ps' v ∧
    Steady (ps ++ ps') (spare s.rt) v (good' root ps' v) t
  refine triple_bind (M := Q) ?_ fun _ => triple_pure fun _ ht => ht
  let M (root : Ptr) (f : Fs → Fs) (t : Fs) : Prop := a = old ∧
    ∃ v, runs (do let root ← edits crc [e] old; rootPage crc old root) s.vol = (some root, v) ∧
      t = f { s with vol := v }
  have hframe : ∀ {root v}, runs (do let root ← edits crc [e] old; rootPage crc old root) s.vol = (some root, v) →
      Frame s.vol v := fun hrun => by
    have hkeeps := copies_keeps crc [e] old s.vol
    rwa [hrun] at hkeeps
  refine triple_bind (M := fun root => M root id) (triple_zoom ?_) fun root => ?_
  · rintro t ⟨rfl, v, hrun, rfl⟩
    have hf : Frame s.vol v := by
      have hkeeps : Frame s.vol (runs (edits crc [e] a) s.vol).2 := edits_keeps [e] a s.vol
      rwa [hrun] at hkeeps
    refine ⟨fun root hr => ⟨rfl, _, bind_some.mpr ⟨root1, v, hrun, Prod.ext hr rfl⟩, rfl⟩, fun _ => ?_⟩
    exact hsafe _ (steady_frame (steady_frame hstart hf) (rootPage_keeps _ _ _))
  refine triple_bind (M := fun _ => M root bitmapFlush) (triple_mono (triple_flush env.flush) (fun _ ht => ht) ?_ ?_)
    fun _ => ?_
  · rintro - _ ⟨t, ⟨ha, v, hrun, rfl⟩, rfl⟩
    exact ⟨ha, v, hrun, rfl⟩
  · rintro t ⟨-, v, hrun, rfl⟩
    exact hsafe _ (steady_frame hstart (hframe hrun))
  refine triple_bind (M := fun _ => M root fun t => (bitmapFlush t).fence)
    (triple_mono (triple_barrier env.pages ?_) (fun _ ht => ht) ?_ ?_) fun _ => ?_
  · rintro t ⟨-, v, hrun, rfl⟩
    exact hsafe _ (steady_flush (steady_frame hstart (hframe hrun)))
  · rintro - _ ⟨t, ⟨ha, v, hrun, rfl⟩, -, rfl⟩
    exact ⟨ha, v, hrun, rfl⟩
  · rintro _ ⟨t, l, ⟨-, v, hrun, rfl⟩, rfl⟩
    exact hsafe _ (steady_tear (steady_flush (steady_frame hstart (hframe hrun))) l)
  refine triple_bind (M := fun _ => Q root) ?_ fun _ => triple_pure fun _ ht => ht
  -- the new tree is on the medium, and from here on either root may be read
  rintro r ⟨ha, v, hrun, hnow⟩
  obtain ⟨hf, h1, ps', hst, hfrom, hpages⟩ := edit_sturdy he hrun
  have hfirm := firm_copied he.covered hf he.firm hfrom hpages
  have hsteady : R r.now := by
    rw [hnow]
    exact steady_fence (steady_flush (steady_frame hstart hf))
  have hst' : Sturdy crc r.now.vol root ps' := by
    rw [hnow]
    exact sturdy_agree (flushed_agree { s with vol := v } ps') hst
  have hedited : Edited crc s old e ps root ps' r.now.vol :=
    ⟨congrArg Prod.fst hrun, h1, hst', alike_spare hsteady.alike⟩
  obtain ⟨hsafe', hgood⟩ := hmade hedited
  obtain ⟨-, -, -, f4, f5, -⟩ := flush_frame { s with vol := v }
  have hmed : r.now.med = s.med.fence := by
    rw [hnow]
    exact congrArg Medium.fence f4
  have hcalm := calm_copied hsteady (fun p hp => hnow ▸ hfirm p hp) (hnow ▸ f5)
    ((congrArg Medium.rt hmed).trans (fence_idle he)) (congrArg Medium.seg hmed) (hgood s.rt (by simp))
  obtain ⟨hpast, hsome, hnone⟩ := publish_triple crc env.root root.pba root.gen hsafe'
    (hgood (Rt.publish s.rt root.pba) (by simp)) r hcalm
  exact ⟨hpast, fun x hx => ⟨ha, ps', r.now.vol, hedited, (hsome x hx).1⟩, fun hn => hsafe' _ (hnone hn)⟩

end

end InvariantFs.RootPublish
