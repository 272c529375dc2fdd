import InvariantFs.BaseRoot

namespace InvariantFs.BaseCrash

open ByteCodec CachedStore BtreePage Btree SortedMap BtreeShape Nat
open BtreeRow BtreeInsert BtreeMap DeltaLog BaseRoot List Option Function

variable (crc : List Byte → UInt32)

/-- A tree of `h + 1` levels with its bindings and the blocks its pages lie in. -/
def Tree (v : Vol) (root : Ptr) (h : Nat) (m : List (Key × Val)) (ps : List UInt64) : Prop :=
  ∃ rs : List (Key × Item (h + 1)), Rooted root rs ∧ Row crc v [] ⊤ m rs ∧ rowPages rs = ps

structure Agree (ps : List UInt64) (v v' : Vol) : Prop where
  total : v'.total = v.total
  bit : ∀ p ∈ ps, v'.bit p = v.bit p
  view : ∀ p ∈ ps, v'.dev.view p = v.dev.view p

variable {crc}

variable {ps : List UInt64} {v v' : Vol}

theorem agree_frame (hf : Frame v v') (hps : ∀ p ∈ ps, v.bit p = true) : Agree ps v v' :=
  ⟨hf.total, fun p hp => (hf.bits p (hps p hp)).trans (hps p hp).symm, fun p hp => frame_view hf (hps p hp)⟩

theorem agree_trans {u w : Vol} (h : Agree ps u v) (h' : Agree ps v w) : Agree ps u w :=
  ⟨h'.total.trans h.total, fun p hp => (h'.bit p hp).trans (h.bit p hp),
    fun p hp => (h'.view p hp).trans (h.view p hp)⟩

theorem agree_mono {qs : List UInt64} (h : Agree qs v v') (hs : ∀ p ∈ ps, p ∈ qs) : Agree ps v v' :=
  ⟨h.total, fun p hp => h.bit p (hs p hp), fun p hp => h.view p (hs p hp)⟩

theorem readNode_agree {p : Ptr} (h : Agree [p.pba] v v') : readNode crc v' p = readNode crc v p := by
  have hb := h.bit _ mem_cons_self
  have hv := h.view _ mem_cons_self
  simp only [readNode, readPage, h.total, hb, hv]

variable {h : Nat}

theorem holds_agree {t : Item h} (ha : Agree (pages h t) v v') (ht : Holds crc v h t) : Holds crc v' h t := by
  induction h with
  | zero => trivial
  | succ h ih =>
    refine ⟨(readNode_agree (agree_mono ha ?_)).trans ht.1, fun r hr => ih (agree_mono ha ?_) (ht.2 r hr)⟩
    · intro p hp
      rw [mem_singleton.mp hp]
      exact mem_cons_self
    · intro p hp
      exact mem_cons_of_mem _ (mem_flatMap.mpr ⟨r, hr, hp⟩)

variable {root : Ptr} {m : List (Key × Val)}

theorem tree_agree (ha : Agree ps v v') (ht : Tree crc v root h m ps) : Tree crc v' root h m ps := by
  obtain ⟨rs, hroot, hr, rfl⟩ := ht
  refine ⟨rs, hroot, { hr with held := fun r hm => holds_agree (agree_mono ha fun p hp => ?_) (hr.held r hm) },
    rfl⟩
  exact mem_flatMap.mpr ⟨r, hm, hp⟩

section

variable (ht : Tree crc v root h m ps)

include ht

theorem tree_flags (flags : UInt32) : Tree crc v { root with flags := flags } h m ps := by
  obtain ⟨rs, ⟨h0, rfl⟩ | ⟨h0, t, rfl, rfl⟩, hr, rfl⟩ := ht
  · exact ⟨[], .inl ⟨h0, rfl⟩, hr, rfl⟩
  · obtain ⟨p, es⟩ := t
    refine ⟨[([], ({ p with flags := flags }, es))], .inr ⟨h0, _, rfl, rfl⟩,
      ⟨fun r hm => ?_, hr.chain, hr.low, hr.contents, hr.nodup⟩, rfl⟩
    rw [mem_singleton.mp hm]
    exact hr.held ([], (p, es)) mem_cons_self

theorem tree_null (h0 : root.pba = 0) : m = [] ∧ ps = [] := by
  obtain ⟨rs, ⟨-, rfl⟩ | ⟨h1, -⟩, hr, rfl⟩ := ht
  · exact ⟨hr.contents.symm, rfl⟩
  · exact absurd h0 h1

theorem tree_pages : ∀ p ∈ ps, p ≠ 0 ∧ p < v.total ∧ v.bit p = true := by
  obtain ⟨rs, -, hr, rfl⟩ := ht
  intro p hp
  obtain ⟨r, hm, hp⟩ := mem_flatMap.mp hp
  exact holds_pages crc (hr.held r hm) p hp

theorem tree_height {h' : Nat} {m' : List (Key × Val)} {ps' : List UInt64}
    (ht' : Tree crc v root h' m' ps') (h0 : root.pba ≠ 0) : h = h' := by
  obtain ⟨rs, ⟨h1, -⟩ | ⟨-, t, rfl, rfl⟩, hr, -⟩ := ht
  · exact absurd h1 h0
  obtain ⟨rs', ⟨h1, -⟩ | ⟨-, t', heq, rfl⟩, hr', -⟩ := ht'
  · exact absurd h1 h0
  have hread := (hr.held _ mem_cons_self).1
  have hread' := (hr'.held _ mem_cons_self).1
  rw [heq] at hread'
  exact (Prod.mk.inj (some.inj (hread.symm.trans hread'))).1

theorem tree_check {ck : Ck} (hck : check crc v root = .ok ck) (h0 : root.pba ≠ 0) :
    ck.height = h + 1 ∧ ∃ m' ps', Tree crc v root h m' ps' ∧ ∀ p ∈ ck.seen, p ∈ ps' := by
  obtain ⟨h', rs, m', hroot, hrow, -, hheight, -, hseen⟩ := check_row hck
  have ht' : Tree crc v root h' m' (rowPages rs) := ⟨rs, hroot, hrow, rfl⟩
  obtain rfl := tree_height ht ht' h0
  refine ⟨hheight ?_, m', _, ht', fun p => (hseen p).mp⟩
  obtain ⟨h1, -⟩ | ⟨-, t, -, rfl⟩ := hroot
  · exact absurd h1 h0
  · simp

theorem tree_search (hh : h < maxDepth) (k : Key) : search crc v root k = some (lookup m k) := by
  obtain ⟨rs, hroot, hr, -⟩ := ht
  exact (reads_row hh hroot hr).search k

end

theorem node_slot {level : Nat} {es : List Ent} (hr : readNode crc v root = some (level, es)) :
    root.pba ≠ 0 ∧ slotPage crc v root.pba = some (v.dev.view root.pba) ∧
      ∀ flags, ptrSet root.pba (v.dev.view root.pba) flags = { root with flags := flags } := by
  obtain ⟨page, hpage, -⟩ := readNode_some crc hr
  obtain ⟨h0, hlt, hb, ⟨hlen, hsum, hgen, hval⟩, rfl⟩ := readPage_some crc hpage
  refine ⟨h0, ?_, fun flags => ?_⟩
  · have hle := UInt64.not_le.mpr hlt
    simp [slotPage, wholePage, h0, hle, hb, hlen, hval]
  · rw [ptrSet, hsum, hgen]

theorem tree_slot (ht : Tree crc v root h m ps) (h0 : root.pba ≠ 0) :
    root.pba ∈ ps ∧ slotPage crc v root.pba = some (v.dev.view root.pba) ∧
      ∀ flags, ptrSet root.pba (v.dev.view root.pba) flags = { root with flags := flags } := by
  obtain ⟨rs, ⟨h1, -⟩ | ⟨-, t, rfl, rfl⟩, hr, rfl⟩ := ht
  · exact absurd h1 h0
  · exact ⟨mem_cons_self, (node_slot (hr.held _ mem_cons_self).1).2⟩

theorem tree_gen (ht : Tree crc v root h m ps) (h0 : root.pba ≠ 0) : (pageHdr (v.dev.view root.pba)).gen = root.gen :=
  congrArg Ptr.gen ((tree_slot ht h0).2.2 0)

/-- The slot that the next publish is going to overwrite wins unless the other one has the higher generation. -/
theorem rootRead_eq (v : Vol) (rt : Rt) : rootRead crc v rt =
      match slotPage crc v (Rt.slot rt rt.seq), slotPage crc v (Rt.slot rt (rt.seq + 1)) with
      | none, none => if rt.rootSlot = (0, 0) then some none else none
      | some _, none => some (some (Rt.slot rt rt.seq))
      | none, some _ => some (some (Rt.slot rt (rt.seq + 1)))
      | some a, some b => if (pageHdr a).gen < (pageHdr b).gen then some (some (Rt.slot rt (rt.seq + 1)))
        else some (some (Rt.slot rt rt.seq)) := by
  obtain hpar | hpar := mod_two_eq_zero_or_one rt.seq
  · have hcur : Rt.slot rt rt.seq = rt.rootSlot.1 := by simp [Rt.slot, hpar]
    have halt : Rt.slot rt (rt.seq + 1) = rt.rootSlot.2 := by simp [Rt.slot, add_mod, hpar]
    rw [hcur, halt, rootRead]
    cases slotPage crc v rt.rootSlot.1 <;> cases slotPage crc v rt.rootSlot.2 <;> simp [hpar]
  · have hcur : Rt.slot rt rt.seq = rt.rootSlot.2 := by simp [Rt.slot, hpar]
    have halt : Rt.slot rt (rt.seq + 1) = rt.rootSlot.1 := by simp [Rt.slot, add_mod, hpar]
    rw [hcur, halt, rootRead]
    cases slotPage crc v rt.rootSlot.1 <;> cases slotPage crc v rt.rootSlot.2 <;> dsimp only
    next a b =>
      by_cases h : (pageHdr b).gen < (pageHdr a).gen
      · rw [if_pos h, if_neg]
        rintro (h' | ⟨h', -⟩)
        · exact UInt64.lt_irrefl _ (UInt64.lt_trans h h')
        · exact UInt64.ne_of_lt h h'
      · rw [if_neg h, if_pos]
        obtain h' | h' := UInt64.lt_or_eq_of_le (UInt64.not_lt.mp h)
        · exact .inl h'
        · exact .inr ⟨h'.symm, hpar⟩

variable {rt : Rt} {page : List Byte} {pba : UInt64}

theorem rootRead_kept (hslot : Rt.slot rt (rt.seq + 1) = pba) (hpage : slotPage crc v pba = some page)
    (hlow : ∀ a, slotPage crc v (Rt.slot rt rt.seq) = some a →
      (pageHdr a).gen < (pageHdr page).gen ∨ Rt.slot rt rt.seq = pba) : rootRead crc v rt = some (some pba) := by
  rw [rootRead_eq, hslot, hpage]
  cases ha : slotPage crc v (Rt.slot rt rt.seq) with
  | none => rfl
  | some a =>
    dsimp only
    obtain hlt | heq := hlow a ha
    · rw [if_pos hlt]
    · rw [heq, ite_self]

theorem rootRead_next (hslot : Rt.slot rt rt.seq = pba) (hpage : slotPage crc v pba = some page)
    (hlow : ∀ b, slotPage crc v (Rt.slot rt (rt.seq + 1)) = some b → (pageHdr b).gen ≤ (pageHdr page).gen) :
    rootRead crc v rt = some (some pba) := by
  rw [rootRead_eq, hslot, hpage]
  cases hb : slotPage crc v (Rt.slot rt (rt.seq + 1)) with
  | none => rfl
  | some b =>
    dsimp only
    rw [if_neg (UInt64.not_lt.mpr (hlow b hb))]

theorem baseRoot_kept (ht : Tree crc v root h m ps) (h0 : root.pba ≠ 0) (hslot : Rt.slot rt (rt.seq + 1) = root.pba)
    (hlow : ∀ a, slotPage crc v (Rt.slot rt rt.seq) = some a →
      (pageHdr a).gen < root.gen ∨ Rt.slot rt rt.seq = root.pba) :
    baseRoot crc v rt = some { root with flags := bpRoot } := by
  obtain ⟨-, hpage, hptr⟩ := tree_slot ht h0
  rw [baseRoot, rootRead_kept hslot hpage (by rwa [tree_gen ht h0])]
  exact congrArg some (hptr bpRoot)

theorem baseRoot_next (ht : Tree crc v root h m ps) (h0 : root.pba ≠ 0) (hslot : Rt.slot rt rt.seq = root.pba)
    (hlow : ∀ b, slotPage crc v (Rt.slot rt (rt.seq + 1)) = some b → (pageHdr b).gen ≤ root.gen) :
    baseRoot crc v rt = some { root with flags := bpRoot } := by
  obtain ⟨-, hpage, hptr⟩ := tree_slot ht h0
  rw [baseRoot, rootRead_next hslot hpage (by rwa [tree_gen ht h0])]
  exact congrArg some (hptr bpRoot)

variable {p : UInt64}

theorem slotPage_some (h : slotPage crc v p = some page) : p ≠ 0 ∧ page = v.dev.view p := by
  simp only [slotPage, wholePage, ite_none_left_eq_some, not_or, some.injEq] at h
  exact ⟨h.1.1, h.2.2.symm⟩

theorem slotPage_zero (v : Vol) : slotPage crc v 0 = none := if_pos (.inl rfl)

theorem baseRoot_none (h : rt.rootSlot = (0, 0)) : baseRoot crc v rt = some .null := by
  rw [baseRoot, rootRead, h, slotPage_zero]
  rfl

theorem baseRoot_slots (hroot : baseRoot crc v rt = some root) (hslot : root.pba = Rt.slot rt (rt.seq + 1)) :
    root = .null ∧ rt.rootSlot = (0, 0) ∨ root.pba ≠ 0 ∧ root.flags = bpRoot ∧
      ∀ a, slotPage crc v (Rt.slot rt rt.seq) = some a →
        (pageHdr a).gen < root.gen ∨ Rt.slot rt rt.seq = root.pba := by
  obtain ⟨o, hread, rfl⟩ := map_eq_some_iff.mp hroot
  rw [rootRead_eq] at hread
  cases ha : slotPage crc v (Rt.slot rt rt.seq) <;> cases hb : slotPage crc v (Rt.slot rt (rt.seq + 1)) <;>
    rw [ha, hb] at hread <;> dsimp only at hread
  · split_ifs at hread with hz
    obtain rfl := some.inj hread
    exact .inl ⟨rfl, hz⟩
  · obtain rfl := some.inj hread
    exact .inr ⟨(slotPage_some hb).1, rfl, by simp⟩
  · obtain rfl := some.inj hread
    rw [← hslot] at hb
    exact absurd (ha.symm.trans hb) (by simp)
  · next a b =>
    split_ifs at hread with hlt <;> obtain rfl := some.inj hread
    · refine .inr ⟨(slotPage_some hb).1, rfl, fun a' ha' => .inl ?_⟩
      obtain rfl := some.inj ha'
      rwa [(slotPage_some hb).2] at hlt
    · exact .inr ⟨(slotPage_some ha).1, rfl, fun _ _ => .inr rfl⟩

/-- An allocated block that a power cut does not touch: no write to it is under way, and its bit is
set on the medium, whatever of the bitmap writes under way gets through. -/
structure Firm (s : Fs) (p : UInt64) : Prop where
  set : s.vol.bit p = true
  home : s.bits.durable (bitCell p) p = true
  kept : ∀ q ∈ s.bits.pending, q.cell = bitCell p → ∀ f, q.edit f p = true
  still : ∀ q ∈ s.vol.dev.pending, q.cell ≠ p

variable {s : Fs}

theorem firm_view (h : Firm s p) : s.bits.view (bitCell p) p = true :=
  view_keeps (fun f => f p = true) s.bits (bitCell p) h.home fun q hq hc f _ => h.kept q hq hc f

theorem firm_torn (h : Firm s p) (mask : List Bool) : (s.bits.tear mask).durable (bitCell p) p = true :=
  tear_keeps (fun f => f p = true) s.bits mask (bitCell p) h.home fun q hq hc f _ => h.kept q hq hc f

theorem dev_torn (h : ∀ q ∈ s.vol.dev.pending, q.cell ≠ p) (mask : List Bool) :
    (s.vol.dev.tear mask).view p = s.vol.dev.view p :=
  (settle_other p _ _ fun q hq => h q (mem_of_mem_marked hq)).trans (settle_other p _ _ h).symm

theorem firm_dev_torn (h : Firm s p) (mask : List Bool) :
    (s.vol.dev.tear mask).view p = s.vol.dev.view p := dev_torn h.still mask

theorem firm_fence (h : Firm s p) : Firm s.fence p :=
  ⟨h.set, firm_view h, by simp [Fs.fence], by simp [Fs.fence]⟩

theorem firm_tear (h : Firm s p) (l : Loss) : Firm (s.tear l) p :=
  ⟨h.set, firm_torn h l.bits, by simp [Fs.tear], by simp [Fs.tear]⟩

theorem firm_frame (h : Firm s p) (hf : Frame s.vol v) : Firm { s with vol := v } p := by
  refine ⟨hf.bits p h.set, h.home, h.kept, fun q hq => ?_⟩
  obtain ⟨qs, hqs, hfree⟩ := hf.pending
  rw [hqs] at hq
  obtain hq | hq := mem_append.mp hq
  · exact h.still q hq
  · intro hc
    have hb := hfree q hq
    rw [hc, h.set] at hb
    exact absurd hb (by simp)

theorem firm_free {q : UInt64} (h : Firm s p) (hne : p ≠ q) : Firm (mbufFree s q) p := by
  unfold mbufFree
  split_ifs
  · exact h
  · refine ⟨(update_of_ne hne _ _).trans h.set, h.home, h.kept, fun r hr => h.still r ?_⟩
    have hdev : (s.vol.setBit q false).dev = s.vol.dev := dev_bmDirty _ _
    rwa [hdev] at hr

theorem pending_cells (cells : List Nat) (f : UInt64 → Bool) (b : Store Nat (UInt64 → Bool)) :
    cells.foldl (fun b c => b.write c fun _ => f) b =
      ⟨b.durable, b.pending ++ cells.map fun c => ⟨c, fun _ => f⟩⟩ := by
  induction cells generalizing b with
  | nil => simp
  | cons c cells ih => simp [ih]

theorem view_cells {cells : List Nat} {f : UInt64 → Bool} {b : Store Nat (UInt64 → Bool)} {c : Nat}
    (hc : c ∈ cells) : (cells.foldl (fun b c => b.write c fun _ => f) b).view c = f := by
  induction cells generalizing b with
  | nil => simp at hc
  | cons d cells ih =>
    by_cases hm : c ∈ cells
    · exact ih hm
    · obtain rfl : c = d := by simpa [hm] using hc
      rw [foldl_cons, pending_cells, Store.view, settle_append]
      refine (settle_other c _ _ ?_).trans ?_
      · intro q hq hqc
        obtain ⟨e, he, rfl⟩ := mem_map.mp hq
        exact hm (hqc ▸ he)
      · exact view_write_self b c fun _ => f

theorem firm_flush (h : Firm s p) : Firm (bitmapFlush s) p := by
  unfold bitmapFlush
  split_ifs
  · exact h
  · rw [pending_cells]
    refine ⟨h.set, h.home, fun q hq hc f => ?_, h.still⟩
    obtain hq | hq := mem_append.mp hq
    · exact h.kept q hq hc f
    · obtain ⟨c, -, rfl⟩ := mem_map.mp hq
      exact h.set

def Covered (v : Vol) : Prop := v.total.toNat ≤ bitmapBlocks v.total * (8 * pageSize)

theorem mem_dirtyCells (hc : Covered v) (hp : p < v.total) (hd : Dirty v p) : bitCell p ∈ dirtyCells v := by
  have hlt : p.toNat < v.total.toNat := hp
  obtain ⟨hlo, hhi⟩ := hd
  simp only [Covered, pageSize] at hc
  have hcell : bitCell p = p.toNat / 8 / 4096 := by
    rw [bitCell, Nat.div_div_eq_div_mul]
    rfl
  have hbyte : p.toNat / 8 < min v.bmHi (bitmapBlocks v.total * 4096) := by omega
  rw [hcell, dirtyCells]
  dsimp only [pageSize]
  rw [mem_range'_1]
  omega

theorem firm_fresh (hc : Covered s.vol) (hp : p < s.vol.total) (hb : s.vol.bit p = true)
    (hd : Dirty s.vol p) : Firm (bitmapFlush s).fence p := by
  have hset : (bitmapFlush s).vol.bit p = true := by
    unfold bitmapFlush
    split_ifs <;> exact hb
  refine ⟨hset, ?_, by simp [Fs.fence], by simp [Fs.fence]⟩
  change (bitmapFlush s).bits.view (bitCell p) p = true
  have hclean : ¬ s.vol.bmHi < s.vol.bmLo := by
    obtain ⟨hlo, hhi⟩ := hd
    omega
  rw [bitmapFlush, if_neg hclean]
  exact (congrFun (view_cells (mem_dirtyCells hc hp hd)) p).trans hb

theorem reserve_frame (v : Vol) (pba : Nat) :
    (reserveSegment v pba).total = v.total ∧ (reserveSegment v pba).dev = v.dev ∧
      ∀ p, v.bit p = true → (reserveSegment v pba).bit p = true := by
  unfold reserveSegment
  generalize segBlocks v.total pba = bs
  induction bs generalizing v with
  | nil => exact ⟨rfl, rfl, fun _ h => h⟩
  | cons b bs ih =>
    rw [foldl_cons]
    by_cases hb : v.bit b = true
    · rw [if_pos hb]
      exact ih v
    · rw [if_neg hb]
      obtain ⟨h1, h2, h3⟩ := ih (v.setBit b true)
      refine ⟨h1.trans (total_bmDirty v b), h2.trans (dev_bmDirty v b), fun p hp => h3 p ?_⟩
      change update v.bit b true p = true
      by_cases hpb : p = b
      · rw [hpb, update_self]
      · rw [update_of_ne hpb, hp]

theorem reserveAll_frame (segs : List Nat) (v : Vol) :
    (segs.foldl reserveSegment v).total = v.total ∧ (segs.foldl reserveSegment v).dev = v.dev ∧
      ∀ p, v.bit p = true → (segs.foldl reserveSegment v).bit p = true := by
  induction segs generalizing v with
  | nil => exact ⟨rfl, rfl, fun _ h => h⟩
  | cons pba segs ih =>
    obtain ⟨h1, h2, h3⟩ := reserve_frame v pba
    obtain ⟨h4, h5, h6⟩ := ih (reserveSegment v pba)
    exact ⟨h4.trans h1, h5.trans h2, fun p hp => h6 p (h3 p hp)⟩

theorem dev_recover (l : Loss) (s : Fs) : (recover crc l s).vol.dev = s.vol.dev.tear l.dev :=
  (reserveAll_frame _ _).2.1

theorem firm_recover (h : ∀ p ∈ ps, Firm s p) (l : Loss) : Agree ps s.vol (recover crc l s).vol := by
  let t := s.tear l
  obtain ⟨h1, h2, h3⟩ := reserveAll_frame (segments crc t.vol.total t.med.seg.view (t.med.rt.view ()).deltaPba)
    { t.vol with bit := fun p => t.bits.view (bitCell p) p, bmLo := 1, bmHi := 0 }
  refine ⟨h1, fun p hp => ?_, fun p hp => ?_⟩
  · exact (h3 p (firm_torn (h p hp) l.bits)).trans (h p hp).set.symm
  · exact (congrFun (congrArg Store.view h2) p).trans (firm_dev_torn (h p hp) l.dev)

theorem overlay_recover (l : Loss) (s : Fs) (k : Key) : overlayGet crc (recover crc l s) k =
      overlaid (answer (replayed crc s.vol.total (s.med.seg.tear l.seg).view
        ((s.med.rt.tear l.rt).view ()).deltaPba) k)
        (baseGet crc (recover crc l s).vol ((s.med.rt.tear l.rt).view ()) k) := rfl

theorem slots_publish (rt : Rt) (pba : UInt64) : Rt.slot (Rt.publish rt pba) (rt.seq + 1) = Rt.slot rt (rt.seq + 1) ∧
      Rt.slot (Rt.publish rt pba) (rt.seq + 1 + 1) = pba := by
  obtain hpar | hpar := mod_two_eq_zero_or_one rt.seq <;>
    simp [Rt.slot, Rt.publish, hpar, add_mod]

theorem slotPage_agree (h : Agree [p] v v') : slotPage crc v' p = slotPage crc v p := by
  have hb := h.bit _ mem_cons_self
  have hv := h.view _ mem_cons_self
  simp only [slotPage, wholePage, h.total, hb, hv]

end InvariantFs.BaseCrash
