import InvariantFs.BtreeRoom
import InvariantFs.Marking

namespace InvariantFs.ReclaimDiff

open ByteCodec BtreePage Btree Fallible BtreeShape BtreeRow BtreeMap Marking List Option

variable (crc : List Byte → UInt32)

/-- Where `bt_mark_rec` and `bt_free_rec` go on to. The records of a leaf are not decoded. -/
def kids (v : Vol) (p : Ptr) : Option (List Ptr) :=
  (readPage crc v p).bind fun page =>
    if (pageHdr page).level = 0 then some []
    else (decodeNode page).map fun n => (n.2.map Ent.child).filter fun c => c.pba ≠ 0

/-- The pages that `bt_mark_rec` marks below the roots. Its recursion is no deeper than there are blocks. -/
def markRoots (v : Vol) (roots : List Ptr) : Option (List UInt64) :=
  markAll Ptr.pba (kids crc v) v.total.toNat (roots.filter fun r => r.pba ≠ 0)

/-- `mbuf_free`: a block that the pin of the save point holds stays allocated. -/
def mbufFree (hold : UInt64 → Bool) (v : Vol) (pba : UInt64) : Vol :=
  if hold pba then v else v.setBit pba false

/-- The state of `bt_free_rec`: the pages seen so far and the number of those given to `mbuf_free`. -/
structure Diff where
  vol : Vol
  seen : List UInt64
  freed : Nat

def visitAll (rec : Ptr → Act Diff Unit) : List Ptr → Act Diff Unit
  | [] => pure ()
  | p :: ps => do
    rec p
    visitAll rec ps

/-- `bt_free_rec`: a page is freed before its children are walked. -/
def freeRec (hold : UInt64 → Bool) : Nat → Ptr → Act Diff Unit
  | 0, p => act fun s => if p.pba ∈ s.seen then (some (), s) else (none, s)
  | fuel + 1, p => do
    let s ← act fun s => (some s, s)
    if p.pba ∈ s.seen then pure ()
    else
      match kids crc s.vol p with
      | none => failure
      | some ps => do
        act fun s => (some (), ⟨mbufFree hold s.vol p.pba, p.pba :: s.seen, s.freed + 1⟩)
        visitAll (freeRec hold fuel) ps

/-- `btree_reclaim_pinned`: the return code and the volume. -/
def reclaimPinned (hold : UInt64 → Bool) (v : Vol) (old keep pinned : Ptr) : Int × Vol :=
  if old.pba = 0 then (0, v)
  else
    match markRoots crc v [keep, pinned] with
    | none => (-1, v)
    | some seen =>
      match runs (freeRec crc hold v.total.toNat old) ⟨v, seen, 0⟩ with
      | (none, s) => (-1, s.vol)
      | (some _, s) => ((Int32.ofNat s.freed).toInt, s.vol)

def Reaches (v : Vol) (root : Ptr) (b : UInt64) : Prop :=
  root.pba ≠ 0 ∧ ∃ q, Relation.ReflTransGen (Edge (kids crc v)) root q ∧ q.pba = b

/-- The volume once the walk has seen some pages: those among them that were not marked before are
free, unless the pin holds them. -/
structure Cleared (hold : UInt64 → Bool) (v : Vol) (marked : List UInt64) (s : Diff) : Prop where
  total : s.vol.total = v.total
  dev : s.vol.dev = v.dev
  kept : marked ⊆ s.seen
  bit : ∀ b, s.vol.bit b = true ↔ v.bit b = true ∧ ¬ (b ∈ s.seen ∧ b ∉ marked ∧ hold b = false)

variable {crc} {hold : UInt64 → Bool} {v : Vol} {marked : List UInt64}

theorem kids_same (v : Vol) (p q : Ptr) (ps qs : List Ptr) (hkey : p.pba = q.pba)
    (hp : kids crc v p = some ps) (hq : kids crc v q = some qs) : ps = qs := by
  obtain ⟨page, hpage, hps⟩ := bind_eq_some_iff.mp hp
  obtain ⟨page', hpage', hqs⟩ := bind_eq_some_iff.mp hq
  obtain ⟨-, -, -, -, hview⟩ := readPage_some crc hpage
  obtain ⟨-, -, -, -, hview'⟩ := readPage_some crc hpage'
  rw [hview, hkey, ← hview'] at hps
  exact some.inj (hps.symm.trans hqs)

variable {s : Diff} {p : Ptr}

section

variable (hc : Cleared hold v marked s)

include hc

theorem kids_cleared (hp : p.pba ∉ s.seen) : kids crc s.vol p = kids crc v p := by
  have hbit : s.vol.bit p.pba = v.bit p.pba := by
    rw [Bool.eq_iff_iff, hc.bit]
    exact ⟨And.left, fun h => ⟨h, fun hno => hp hno.1⟩⟩
  have hread : readPage crc s.vol p = readPage crc v p := by
    unfold readPage
    rw [hc.total, hc.dev, hbit]
  rw [kids, kids, hread]

theorem cleared_free {p : UInt64} (hp : p ∉ s.seen) :
    Cleared hold v marked ⟨mbufFree hold s.vol p, p :: s.seen, s.freed + 1⟩ := by
  have hnew : p ∉ marked := fun h => hp (hc.kept h)
  refine ⟨?_, ?_, fun b hb => mem_cons_of_mem _ (hc.kept hb), fun b => ?_⟩
  · change (mbufFree hold s.vol p).total = v.total
    unfold mbufFree
    split
    · exact hc.total
    · exact (total_bmDirty _ _).trans hc.total
  · change (mbufFree hold s.vol p).dev = v.dev
    unfold mbufFree
    split
    · exact hc.dev
    · exact (dev_bmDirty _ _).trans hc.dev
  · change (mbufFree hold s.vol p).bit b = true ↔ _
    rw [mem_cons]
    by_cases hb : b = p
    · subst hb
      unfold mbufFree
      cases hh : hold b with
      | true =>
        rw [if_pos rfl, hc.bit]
        simp [hp]
      | false => simp [Vol.setBit, hnew]
    · have hsame : (mbufFree hold s.vol p).bit b = s.vol.bit b := by
        unfold mbufFree
        split
        · rfl
        · exact Function.update_of_ne hb _ _
      rw [hsame, hc.bit]
      simp [hb]

theorem freeRec_marks {fuel : Nat} {seen' : List UInt64}
    (h : markRec Ptr.pba (kids crc v) fuel s.seen p = some seen') :
    ∃ s', runs (freeRec crc hold fuel p) s = (some (), s') ∧ s'.seen = seen' ∧ Cleared hold v marked s' := by
  induction fuel generalizing s p seen' with
  | zero =>
    by_cases hp : p.pba ∈ s.seen
    · obtain rfl := some.inj ((markRec_seen hp).symm.trans h)
      exact ⟨s, by rw [freeRec, runs_act, if_pos hp], rfl, hc⟩
    · simp [markRec, hp] at h
  | succ fuel ih =>
    by_cases hp : p.pba ∈ s.seen
    · obtain rfl := some.inj ((markRec_seen hp).symm.trans h)
      refine ⟨s, bind_some.mpr ⟨s, s, rfl, ?_⟩, rfl, hc⟩
      rw [if_pos hp]
      rfl
    · rw [markRec, if_neg hp] at h
      obtain ⟨ps, hps, hfold⟩ := bind_eq_some_iff.mp h
      have hvisit : ∀ (ps : List Ptr) (s : Diff), Cleared hold v marked s →
          ps.foldlM (markRec Ptr.pba (kids crc v) fuel) s.seen = some seen' →
          ∃ s', runs (visitAll (freeRec crc hold fuel) ps) s = (some (), s') ∧ s'.seen = seen' ∧
            Cleared hold v marked s' := by
        intro ps
        induction ps with
        | nil =>
          intro s hc hfold
          exact ⟨s, rfl, some.inj hfold, hc⟩
        | cons q ps ihs =>
          intro s hc hfold
          rw [foldlM_cons] at hfold
          obtain ⟨mid, hmid, hrest⟩ := bind_eq_some_iff.mp hfold
          obtain ⟨s1, hrun, rfl, hc1⟩ := ih hc hmid
          obtain ⟨s2, hrun2, hseen, hc2⟩ := ihs s1 hc1 hrest
          exact ⟨s2, bind_some.mpr ⟨(), s1, hrun, hrun2⟩, hseen, hc2⟩
      obtain ⟨s', hrun, hseen, hc'⟩ := hvisit ps _ (cleared_free hc hp) hfold
      refine ⟨s', bind_some.mpr ⟨s, s, rfl, ?_⟩, hseen, hc'⟩
      rw [if_neg hp, kids_cleared hc hp, hps]
      exact bind_some.mpr ⟨(), _, rfl, hrun⟩

end

variable {h : Nat} {t : Item (h + 1)}

theorem held_child (ht : Holds crc v (h + 1) t) {c : Ptr} (hedge : Edge (kids crc v) t.1 c) :
    ∃ (g : Nat) (u : Item (g + 1)), Holds crc v (g + 1) u ∧ u.1 = c ∧ pages (g + 1) u ⊆ pages (h + 1) t := by
  obtain ⟨ps, hps, hmem⟩ := hedge
  obtain ⟨page, hpage, hkids⟩ := bind_eq_some_iff.mp hps
  obtain ⟨page', hpage', hdec⟩ := readNode_some crc ht.1
  obtain rfl := some.inj (hpage.symm.trans hpage')
  obtain ⟨hlevel, -⟩ := decodeNode_cases hdec
  rw [hlevel, hdec] at hkids
  obtain _ | g := h
  · obtain rfl := some.inj hkids
    exact absurd hmem not_mem_nil
  · rw [if_neg (Nat.succ_ne_zero g)] at hkids
    obtain rfl := some.inj hkids
    obtain ⟨e, he, rfl⟩ := mem_map.mp (mem_of_mem_filter hmem)
    obtain ⟨r, hr, rfl⟩ := mem_map.mp he
    exact ⟨g, r.2, ht.2 r hr, rfl, fun p hp => mem_cons_of_mem _ (mem_flatMap.mpr ⟨r, hr, hp⟩)⟩

theorem child_edge {g : Nat} {t : Item (g + 2)} (ht : Holds crc v (g + 2) t) {r : Key × Item (g + 1)}
    (hr : r ∈ t.2) : Edge (kids crc v) t.1 r.2.1 := by
  obtain ⟨page, hpage, hdec⟩ := readNode_some crc ht.1
  obtain ⟨hlevel, -⟩ := decodeNode_cases hdec
  have h0 : r.2.1.pba ≠ 0 := (holds_pages crc (ht.2 r hr) r.2.1.pba mem_cons_self).1
  have hkids : kids crc v t.1 = some (((t.2.map (entOf (g + 1))).map Ent.child).filter fun c => c.pba ≠ 0) := by
    rw [kids, hpage, Option.bind_some, hlevel, if_neg (Nat.succ_ne_zero g), hdec]
    rfl
  have hmem : r.2.1 ∈ (t.2.map (entOf (g + 1))).map Ent.child := mem_map.mpr ⟨entOf (g + 1) r, mem_map_of_mem hr, rfl⟩
  exact ⟨_, hkids, mem_filter.mpr ⟨hmem, decide_eq_true h0⟩⟩

variable {q : Ptr} {b : UInt64}

section

variable (ht : Holds crc v (h + 1) t)

include ht

theorem held_reached (hreach : Relation.ReflTransGen (Edge (kids crc v)) t.1 q) :
    ∃ (g : Nat) (u : Item (g + 1)), Holds crc v (g + 1) u ∧ u.1 = q ∧ pages (g + 1) u ⊆ pages (h + 1) t := by
  induction hreach with
  | refl => exact ⟨h, t, ht, rfl, fun _ hp => hp⟩
  | tail _ hedge ih =>
    obtain ⟨g, u, hu, rfl, hsub⟩ := ih
    obtain ⟨g', u', hu', hq, hsub'⟩ := held_child hu hedge
    exact ⟨g', u', hu', hq, fun p hp => hsub (hsub' hp)⟩

theorem reaches_held
    (hb : b ∈ pages (h + 1) t) : ∃ q, Relation.ReflTransGen (Edge (kids crc v)) t.1 q ∧ q.pba = b := by
  induction h with
  | zero =>
    obtain rfl | hb := mem_cons.mp hb
    · exact ⟨t.1, .refl, rfl⟩
    · obtain ⟨r, -, hb⟩ := mem_flatMap.mp hb
      exact absurd hb not_mem_nil
  | succ h ih =>
    obtain rfl | hb := mem_cons.mp hb
    · exact ⟨t.1, .refl, rfl⟩
    · obtain ⟨r, hr, hb⟩ := mem_flatMap.mp hb
      obtain ⟨q, hreach, hq⟩ := ih (ht.2 r hr) hb
      exact ⟨q, .head (child_edge ht hr) hreach, hq⟩

theorem held_kids : (kids crc v t.1).isSome ∧ t.1.pba < v.total := by
  obtain ⟨page, hpage, hdec⟩ := readNode_some crc ht.1
  refine ⟨?_, (readPage_some crc hpage).2.1⟩
  rw [kids, hpage, Option.bind_some]
  split
  · rfl
  · rw [hdec]
    rfl

end

theorem accepted_reads {root : Ptr} {ck : Ck} (hck : check crc v root = .ok ck) (h0 : root.pba ≠ 0)
    (hreach : Relation.ReflTransGen (Edge (kids crc v)) root q) :
    (kids crc v q).isSome ∧ q.pba ∈ (range v.total.toNat).map UInt64.ofNat := by
  obtain ⟨h, rs, m, hroot, hr, -⟩ := check_row hck
  obtain ⟨h1, -⟩ | ⟨-, t, rfl, rfl⟩ := hroot
  · exact absurd h1 h0
  obtain ⟨g, u, hu, rfl, -⟩ := held_reached (hr.held _ mem_cons_self) hreach
  obtain ⟨hsome, hlt⟩ := held_kids hu
  exact ⟨hsome, mem_map.mpr ⟨u.1.pba.toNat, mem_range.mpr (UInt64.lt_iff_toNat_lt.mp hlt), UInt64.ofNat_toNat⟩⟩

variable {roots : List Ptr}

theorem mem_markRoots (h : markRoots crc v roots = some marked) : b ∈ marked ↔ ∃ r ∈ roots, Reaches crc v r b := by
  rw [mem_markAll (kids_same v) h]
  constructor
  · rintro ⟨r, hr, q, hreach, hq⟩
    obtain ⟨hr, h0⟩ := mem_filter.mp hr
    exact ⟨r, hr, of_decide_eq_true h0, q, hreach, hq⟩
  · rintro ⟨r, hr, h0, q, hreach, hq⟩
    exact ⟨r, mem_filter.mpr ⟨hr, decide_eq_true h0⟩, q, hreach, hq⟩

theorem markRoots_accepted (h : ∀ r ∈ roots, ∃ ck, check crc v r = .ok ck) :
    ∃ marked, markRoots crc v roots = some marked := by
  have hlen : ((range v.total.toNat).map UInt64.ofNat).length ≤ v.total.toNat := by simp
  refine isSome_iff_exists.mp (markAll_total (fun r hr q hreach => ?_) hlen)
  obtain ⟨hr, h0⟩ := mem_filter.mp hr
  obtain ⟨ck, hck⟩ := h r hr
  exact accepted_reads hck (of_decide_eq_true h0) hreach

theorem freeRec_bit (hold : UInt64 → Bool) {old : Ptr} (hroots : ∀ r ∈ old :: roots, ∃ ck, check crc v r = .ok ck)
    (h0 : old.pba ≠ 0) (hseen : markRoots crc v roots = some marked) :
    ∃ s', runs (freeRec crc hold v.total.toNat old) ⟨v, marked, 0⟩ = (some (), s') ∧ ∀ b, s'.vol.bit b = true ↔
      v.bit b = true ∧ ¬ (Reaches crc v old b ∧ (∀ r ∈ roots, ¬ Reaches crc v r b) ∧ hold b = false) := by
  obtain ⟨seen', hseen'⟩ : ∃ seen, markRoots crc v (roots ++ [old]) = some seen :=
    markRoots_accepted fun r hr => hroots r (by simpa [or_comm] using hr)
  -- marking the old root last is what the freeing walk does
  have hwalk : markRec Ptr.pba (kids crc v) v.total.toNat marked old = some seen' := by
    rw [markRoots, markAll, filter_append, foldlM_append] at hseen'
    obtain ⟨mid, hmid, hrest⟩ := bind_eq_some_iff.mp hseen'
    obtain rfl := some.inj (hmid.symm.trans hseen)
    simpa [h0] using hrest
  have hstart : Cleared hold v marked ⟨v, marked, 0⟩ := ⟨rfl, rfl, fun _ h => h, fun b => by tauto⟩
  obtain ⟨s', hrun, hs', hc⟩ := freeRec_marks hstart hwalk
  refine ⟨s', hrun, fun b => ?_⟩
  rw [hc.bit, hs', mem_markRoots hseen, mem_markRoots hseen']
  simp only [mem_append, mem_singleton, or_and_right, exists_or, exists_eq_left, not_exists, not_and]
  have hor : (∃ r ∈ roots, Reaches crc v r b) → ¬ ∀ r ∈ roots, ¬ Reaches crc v r b :=
    fun ⟨r, hr, hreach⟩ hall => hall r hr hreach
  tauto

theorem reclaim_bit (hold : UInt64 → Bool) {old keep pinned : Ptr} (hold' : ∃ ck, check crc v old = .ok ck)
    (hkeep : ∃ ck, check crc v keep = .ok ck) (hpin : ∃ ck, check crc v pinned = .ok ck) (b : UInt64) :
    (reclaimPinned crc hold v old keep pinned).2.bit b = true ↔ v.bit b = true ∧
      ¬ (Reaches crc v old b ∧ ¬ Reaches crc v keep b ∧ ¬ Reaches crc v pinned b ∧ hold b = false) := by
  unfold reclaimPinned
  by_cases h0 : old.pba = 0
  · rw [if_pos h0]
    exact ⟨fun h => ⟨h, fun hno => hno.1.1 h0⟩, And.left⟩
  rw [if_neg h0]
  obtain ⟨seen, hseen⟩ : ∃ seen, markRoots crc v [keep, pinned] = some seen :=
    markRoots_accepted (by simpa using ⟨hkeep, hpin⟩)
  obtain ⟨s', hrun, hbit⟩ := freeRec_bit hold (by simpa using ⟨hold', hkeep, hpin⟩) h0 hseen
  rw [hseen]
  simp only [hrun, hbit, mem_cons, not_mem_nil, or_false, forall_eq_or_imp, forall_eq, and_assoc]

/-- Of three trees that the check accepts, whatever pages they share, `btree_reclaim_pinned` frees exactly the
pages of the old one that are in neither of the others and not held by the pin; where the marking fails it frees
nothing. -/
theorem reclaim_clears (hold : UInt64 → Bool) (v : Vol) (old keep pinned : Ptr) :
    ((∃ ck, check crc v old = .ok ck) → (∃ ck, check crc v keep = .ok ck) → (∃ ck, check crc v pinned = .ok ck) →
      ∀ b, (reclaimPinned crc hold v old keep pinned).2.bit b = true ↔ v.bit b = true ∧
        ¬ (Reaches crc v old b ∧ ¬ Reaches crc v keep b ∧ ¬ Reaches crc v pinned b ∧ hold b = false)) ∧
    (markRoots crc v [keep, pinned] = none → (reclaimPinned crc hold v old keep pinned).2 = v) := by
  refine ⟨fun hold' hkeep hpin b => reclaim_bit hold hold' hkeep hpin b, fun hfail => ?_⟩
  unfold reclaimPinned
  rw [hfail]
  split <;> rfl

/-- A root with two leaves, the second of which is accepted as a root of its own. -/
theorem two_leaves (crc : List Byte → UInt32) : ∃ (v : Vol) (root leaf : Ptr), (∃ ck, check crc v root = .ok ck) ∧
    (∃ ck, check crc v leaf = .ok ck) ∧ (Reaches crc v root root.pba ∧ v.bit root.pba = true) ∧
    (Reaches crc v root leaf.pba ∧ v.bit leaf.pba = true) ∧ Reaches crc v leaf leaf.pba ∧
    ¬ Reaches crc v leaf root.pba := by
  obtain ⟨r1, v1, -, hp1, hrow1, ha1⟩ := upsert_first crc ample_blankVol (by rw [(longKey_size 0).1]; omega)
  obtain ⟨root, v, A, B, -, h0, -, -, hrow, -⟩ := upsert_second (n := 5) ha1 hp1 hrow1
  obtain ⟨ck, hck, -⟩ := row_check (by decide) (.inr ⟨h0, _, rfl, rfl⟩) hrow (by simp [Wide])
  have hheld := hrow.held _ mem_cons_self
  have hleaves : Row crc v [] ⊤ _ ([(longKey 0, A)] ++ [(longKey 1, B)] ++ []) := (row_below hrow).1
  have hleaf := row_lower (row_mid hleaves le_rfl) (BtreeInsert.nil_le_key (longKey 1))
  have hB := hleaf.held _ mem_cons_self
  have hB0 := (holds_pages crc hB B.1.pba mem_cons_self).1
  obtain ⟨ck', hck', -⟩ := row_check (by decide) (.inr ⟨hB0, B, rfl, rfl⟩) hleaf (by simp [Wide])
  have hne : root.pba ≠ B.1.pba := by
    have hnodup := hrow.nodup
    simp only [rowPages, pages, flatMap_cons, flatMap_nil, append_nil, nodup_cons, mem_append, mem_cons, not_or]
      at hnodup
    exact hnodup.1.2.1
  have hmem : B.1.pba ∈ pages 2 (root, [(longKey 0, A), (longKey 1, B)]) := by simp [pages]
  refine ⟨v, root, B.1, ⟨ck, hck⟩, ⟨ck', hck'⟩, ⟨⟨h0, root, .refl, rfl⟩, (holds_pages crc hheld _ mem_cons_self).2.2⟩,
    ⟨⟨h0, reaches_held hheld hmem⟩, (holds_pages crc hheld _ hmem).2.2⟩, ⟨hB0, B.1, .refl, rfl⟩, ?_⟩
  rintro ⟨-, q, hreach, hq⟩
  obtain ⟨g, u, -, rfl, hsub⟩ := held_reached hB hreach
  have hin : root.pba ∈ pages 1 B := hq ▸ hsub mem_cons_self
  exact hne (by simpa [pages] using hin)

theorem null_accepted (v : Vol) : ∃ ck, check crc v .null = .ok ck := ⟨_, rfl⟩

/-- The root goes, and the leaf that the other root reaches too stays. -/
theorem reclaim_clears_shared : ∃ (v : Vol) (old keep : Ptr), v.bit old.pba = true ∧
    Reaches crc32c v old keep.pba ∧ (reclaimPinned crc32c (fun _ => false) v old keep .null).2.bit old.pba = false ∧
    (reclaimPinned crc32c (fun _ => false) v old keep .null).2.bit keep.pba = true := by
  obtain ⟨v, old, keep, hold, hkeep, ⟨hroot, hbit⟩, ⟨hleaf, hbit'⟩, hself, hno⟩ := two_leaves crc32c
  have hclears := (reclaim_clears (fun _ => false) v old keep .null).1 hold hkeep (null_accepted v)
  refine ⟨v, old, keep, hbit, hleaf, Bool.eq_false_iff.mpr fun h => ?_, (hclears _).mpr ⟨hbit', fun h => h.2.1 hself⟩⟩
  exact ((hclears _).mp h).2 ⟨hroot, hno, fun hr => hr.1 rfl, rfl⟩

/-- The pin of the save point holds the root, which only the old tree reaches. -/
theorem held_leaf_stays : ∃ (hold : UInt64 → Bool) (v : Vol) (old : Ptr),
    (∃ ck, check crc32c v old = .ok ck) ∧ (∃ ck, check crc32c v .null = .ok ck) ∧
    Reaches crc32c v old old.pba ∧ ¬ Reaches crc32c v .null old.pba ∧
    (reclaimPinned crc32c hold v old .null .null).2.bit old.pba = true := by
  obtain ⟨v, old, -, hck, -, ⟨hreach, hbit⟩, -⟩ := two_leaves crc32c
  refine ⟨fun _ => true, v, old, hck, null_accepted v, hreach, fun hr => hr.1 rfl, ?_⟩
  refine (reclaim_bit _ hck (null_accepted v) (null_accepted v) _).mpr ⟨hbit, fun hno => ?_⟩
  exact Bool.false_ne_true hno.2.2.2.symm

end InvariantFs.ReclaimDiff
