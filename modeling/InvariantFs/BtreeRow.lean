import InvariantFs.BtreeWrite

namespace InvariantFs.BtreeRow

open ByteCodec BtreePage Btree SortedMap SepChain Fallible BtreeShape BtreeWrite List

variable (crc : List Byte → UInt32)

def rowPages {h : Nat} (rs : List (Key × Item h)) : List UInt64 := rs.flatMap fun r => pages h r.2

/-- Records between two bounds which the volume holds, with the bindings under them. No page lies
under two of them. -/
structure Row (v : Vol) {h : Nat} (lo : Key) (hi : WithTop Key) (l : List (Key × Val))
    (rs : List (Key × Item h)) : Prop where
  held : ∀ r ∈ rs, Holds crc v h r.2
  chain : Chain (Ok h) rs hi
  low : (lo : WithTop Key) ≤ next rs hi
  contents : flat (contents h) rs = l
  nodup : (rowPages rs).Nodup

def Made (v : Vol) {h g : Nat} (old : List (Key × Item h)) (new : List (Key × Item g)) : Prop :=
  ∀ p ∈ rowPages new, p ∈ rowPages old ∨ v.bit p = false

variable {crc}

variable {h : Nat}

theorem rowPages_append (rs ss : List (Key × Item h)) :
    rowPages (rs ++ ss) = rowPages rs ++ rowPages ss := flatMap_append

theorem rowPages_single (k : Key) (t : Item h) : rowPages [(k, t)] = pages h t := append_nil _

variable {v : Vol} {rs : List (Key × Item h)}

theorem row_bit (hheld : ∀ r ∈ rs, Holds crc v h r.2) : ∀ p ∈ rowPages rs, v.bit p = true := by
  intro p hp
  obtain ⟨r, hr, hp⟩ := mem_flatMap.mp hp
  exact (holds_pages crc (hheld r hr) p hp).2.2

variable {v' : Vol} {l : List (Key × Val)} {hi : WithTop Key} {lo : Key}

theorem row_frame (hf : Frame v v') (hr : Row crc v lo hi l rs) : Row crc v' lo hi l rs :=
  { hr with held := fun r hm => holds_frame crc hf (hr.held r hm) }

theorem made_refl (v : Vol) (rs : List (Key × Item h)) : Made v rs rs := fun _ hp => .inl hp

theorem made_trans (hf : Frame v v') {h' h'' : Nat} {ss : List (Key × Item h')} {us : List (Key × Item h'')}
    (hs : Made v rs ss) (hu : Made v' ss us) : Made v rs us := by
  intro p hp
  obtain hp | hp := hu p hp
  · exact hs p hp
  · exact .inr (frame_free hf hp)

theorem row_sorted (hr : Row crc v lo hi l rs) : Sorted l := hr.contents ▸ (chain_flat (bounded h) hr.chain).1

variable {xs mid ys : List (Key × Item h)}

theorem row_mid (hr : Row crc v lo hi l (xs ++ mid ++ ys)) {k : Key}
    (hk : (k : WithTop Key) ≤ next mid (next ys hi)) : Row crc v k (next ys hi) (flat (contents h) mid) mid := by
  obtain ⟨hxm, -⟩ := chain_append.mp hr.chain
  refine ⟨fun r hm => hr.held r (by simp [hm]), (chain_append.mp hxm).2, hk, rfl, ?_⟩
  have := hr.nodup
  rw [rowPages_append, rowPages_append] at this
  exact (nodup_append.mp (nodup_append.mp this).1).2.1

variable {ss : List (Key × Item h)} {l' : List (Key × Val)}

theorem row_replace (hf : Frame v v') {lo' k : Key}
    (hr : Row crc v lo hi l (xs ++ mid ++ ys)) (hs : Row crc v' k (next ys hi) l' ss)
    (hm : Made v mid ss) (hle : xs ≠ [] → next mid (next ys hi) ≤ next ss (next ys hi))
    (hlo : (lo' : WithTop Key) ≤ next (xs ++ ss ++ ys) hi) :
    Row crc v' lo' hi (flat (contents h) xs ++ l' ++ flat (contents h) ys) (xs ++ ss ++ ys) ∧
      Made v (xs ++ mid ++ ys) (xs ++ ss ++ ys) := by
  obtain ⟨hxm, hys⟩ := chain_append.mp hr.chain
  obtain ⟨hxs, -⟩ := chain_append.mp hxm
  have hmade : Made v (xs ++ mid ++ ys) (xs ++ ss ++ ys) := by
    intro p hp
    simp only [rowPages_append, mem_append] at hp ⊢
    obtain (hp | hp) | hp := hp
    · exact .inl (.inl (.inl hp))
    · obtain hp | hp := hm p hp
      · exact .inl (.inl (.inr hp))
      · exact .inr hp
    · exact .inl (.inr hp)
  refine ⟨⟨?_, ?_, hlo, ?_, ?_⟩, hmade⟩
  · intro r hmem
    simp only [mem_append] at hmem
    obtain (hmem | hmem) | hmem := hmem
    · exact holds_frame crc hf (hr.held r (by simp [hmem]))
    · exact hs.held r hmem
    · exact holds_frame crc hf (hr.held r (by simp [hmem]))
  · refine chain_append.mpr ⟨chain_append.mpr ⟨?_, hs.chain⟩, hys⟩
    cases xs with
    | nil => trivial
    | cons x xs => exact chain_mono (bounded h) hxs (hle (by simp))
  · rw [flat_append, flat_append, hs.contents]
  · -- a page of the new window is an old page of the window or was free, so it is none of the others
    have hnd := hr.nodup
    have hbit := row_bit hr.held
    simp only [rowPages_append, nodup_append, mem_append] at hnd hbit ⊢
    obtain ⟨⟨hx, -, hxm⟩, hy, hxy⟩ := hnd
    have hother : ∀ p ∈ rowPages ss, ∀ q, v.bit q = true → (∀ a ∈ rowPages mid, a ≠ q) → p ≠ q := by
      rintro p hp q hq hne rfl
      obtain hp | hp := hm p hp
      · exact hne p hp rfl
      · rw [hp] at hq
        exact absurd hq (by simp)
    refine ⟨⟨hx, hs.nodup, fun a ha b hb => ?_⟩, hy, fun a ha b hb => ?_⟩
    · exact (hother b hb a (hbit a (.inl (.inl ha))) fun c hc => (hxm a ha c hc).symm).symm
    · obtain ha | ha := ha
      · exact hxy a (.inl ha) b hb
      · exact hother a ha b (hbit b (.inr hb)) fun c hc => hxy c (.inr hc) b hb

theorem row_swap (hf : Frame v v') {r : Key × Item h} (hr : Row crc v lo hi l (xs ++ r :: mid ++ ys))
    (hs : Row crc v' r.1 (next ys hi) l' ss) (hm : Made v (r :: mid) ss) :
    Row crc v' lo hi (flat (contents h) xs ++ l' ++ flat (contents h) ys) (xs ++ ss ++ ys) ∧
      Made v (xs ++ r :: mid ++ ys) (xs ++ ss ++ ys) := by
  refine row_replace hf hr hs hm (fun _ => hs.low) ?_
  have hlow := hr.low
  cases xs with
  | nil =>
    rw [nil_append, next_append]
    exact hlow.trans hs.low
  | cons x xs => exact hlow

theorem row_lower {k k' : Key} {t : Item (h + 1)} {rs : List (Key × Item (h + 1))}
    (hr : Row crc v lo hi l ((k, t) :: rs)) (hle : k' ≤ k) : Row crc v k' hi l ((k', t) :: rs) := by
  refine ⟨fun r hm => ?_, ⟨ok_lower hr.chain.1 hle, hr.chain.2⟩, le_rfl, hr.contents, hr.nodup⟩
  obtain rfl | hm := mem_cons.mp hm
  · exact hr.held (k, t) mem_cons_self
  · exact hr.held r (mem_cons_of_mem _ hm)

def below {h : Nat} (rs : List (Key × Item (h + 1))) : List (Key × Item h) := rs.flatMap fun r => r.2.2

theorem below_single (k : Key) (t : Item (h + 1)) : below [(k, t)] = t.2 := by simp [below]

theorem chain_below {rs : List (Key × Item (h + 1))} (hc : Chain (Ok (h + 1)) rs hi) :
    Chain (Ok h) (below rs) hi ∧ next rs hi ≤ next (below rs) hi ∧
      flat (contents h) (below rs) = flat (contents (h + 1)) rs := by
  induction rs with
  | nil => exact ⟨trivial, le_rfl, rfl⟩
  | cons r rs ih =>
    obtain ⟨⟨hne, hlo, hr⟩, hrs⟩ := hc
    obtain ⟨h1, h2, h3⟩ := ih hrs
    have hcons : below (r :: rs) = r.2.2 ++ below rs := rfl
    refine ⟨?_, ?_, ?_⟩
    · rw [hcons]
      exact chain_append.mpr ⟨chain_mono (bounded h) hr h2, h1⟩
    · obtain ⟨x, xs, hx⟩ := exists_cons_of_ne_nil hne
      rw [hcons, next_append]
      rw [hx] at hlo ⊢
      exact hlo
    · rw [hcons, flat_append, h3]
      rfl

theorem below_pages (rs : List (Key × Item (h + 1))) :
    (rowPages rs).Perm (rs.map (fun r => r.2.1.pba) ++ rowPages (below rs)) := by
  induction rs with
  | nil => exact List.Perm.refl _
  | cons r rs ih =>
    change (r.2.1.pba :: rowPages r.2.2 ++ rowPages rs).Perm
      (r.2.1.pba :: (rs.map (fun r => r.2.1.pba) ++ rowPages (r.2.2 ++ below rs)))
    rw [rowPages_append]
    exact List.Perm.cons _ ((ih.append_left _).trans (perm_append_comm_assoc _ _ _))

theorem row_below {rs : List (Key × Item (h + 1))} (hr : Row crc v lo hi l rs) :
    Row crc v lo hi l (below rs) ∧ Made v rs (below rs) := by
  obtain ⟨hc, hlo, hl⟩ := chain_below hr.chain
  have hperm := below_pages rs
  refine ⟨⟨fun x hx => ?_, hc, hr.low.trans hlo, hl.trans hr.contents, ?_⟩, fun p hp => .inl ?_⟩
  · obtain ⟨r, hrm, hx⟩ := mem_flatMap.mp hx
    exact (hr.held r hrm).2 x hx
  · exact (nodup_append.mp (hperm.nodup_iff.mp hr.nodup)).2.1
  · exact hperm.mem_iff.mpr (mem_append_right _ hp)

theorem below_asRecs (ts : List (Item (h + 1))) : below (asRecs ts) = (ts.map Prod.snd).flatten := by
  rw [below, asRecs, flatMap_map, flatMap_def]

variable {gen : UInt64} {ts : List (Item (h + 1))}

theorem row_above (hne : ∀ t ∈ ts, t.2 ≠ [])
    (hr : Row crc v lo hi l (ts.map Prod.snd).flatten) (hw : Written crc v v' gen ts) :
    Row crc v' lo hi l (asRecs ts) ∧ Made v (ts.map Prod.snd).flatten (asRecs ts) := by
  obtain ⟨hc, hnext, hl⟩ := chain_parts hne hr.chain
  have hperm := below_pages (asRecs ts)
  rw [below_asRecs, asRecs, map_map] at hperm
  refine ⟨⟨?_, hc, hnext ▸ hr.low, hl.trans hr.contents, ?_⟩, ?_⟩
  · intro r hm
    obtain ⟨t, ht, rfl⟩ := mem_map.mp hm
    exact hw.holds t ht
  · refine hperm.nodup_iff.mpr (nodup_append.mpr ⟨hw.nodup, hr.nodup, ?_⟩)
    rintro p hp q hq rfl
    obtain ⟨t, ht, rfl⟩ := mem_map.mp hp
    have hset : v.bit t.1.pba = true := row_bit hr.held _ hq
    rw [hw.fresh t ht] at hset
    exact absurd hset (by simp)
  · intro p hp
    obtain hp | hp := mem_append.mp (hperm.mem_iff.mp hp)
    · obtain ⟨t, ht, rfl⟩ := mem_map.mp hp
      exact .inr (hw.fresh t ht)
    · exact .inl hp

/-- Separators and records of a length the tree is made for, and no page above the leaves with
fewer than two children. -/
def Neat {h : Nat} (rs : List (Key × Item h)) : Prop :=
  ∀ r ∈ rs, r.1.length ≤ keyMax ∧ Short h r.2 ∧ Wide h r.2

theorem neat_append : Neat (rs ++ ss) ↔ Neat rs ∧ Neat ss := forall_mem_append

theorem neat_below {rs : List (Key × Item (h + 1))} (hn : Neat rs) : Neat (below rs) := by
  intro x hx
  obtain ⟨r, hr, hx⟩ := mem_flatMap.mp hx
  obtain ⟨-, hshort, hwide⟩ := hn r hr
  exact ⟨(hshort x hx).1, (hshort x hx).2, hwide.2 x hx⟩

theorem neat_above (hne : ∀ t ∈ ts, t.2 ≠ [])
    (hn : Neat (ts.map Prod.snd).flatten) (hw : h ≠ 0 → ∀ t ∈ ts, 2 ≤ t.2.length) : Neat (asRecs ts) := by
  intro r hr
  obtain ⟨t, ht, rfl⟩ := mem_map.mp hr
  have hrec : ∀ x ∈ t.2, x.1.length ≤ keyMax ∧ Short h x.2 ∧ Wide h x.2 := fun x hx =>
    hn x (mem_flatten.mpr ⟨t.2, mem_map_of_mem ht, hx⟩)
  refine ⟨?_, fun x hx => ⟨(hrec x hx).1, (hrec x hx).2.1⟩, fun h0 => hw h0 t ht, fun x hx => (hrec x hx).2.2⟩
  obtain ⟨x, xs, hx⟩ := exists_cons_of_ne_nil (hne t ht)
  have := (hrec x (by rw [hx]; exact mem_cons_self)).1
  simpa [minKey, hx] using this

/-- What a run of records has become once it is written out: up to three pages of the given
generation in free blocks. -/
structure Pieces (crc : List Byte → UInt32) (v v' : Vol) {h h' : Nat} (gen : UInt64) (lo : Key) (hi : WithTop Key)
    (l : List (Key × Val)) (old : List (Key × Item h')) (ts : List (Item (h + 1))) : Prop where
  frame : Frame v v'
  ne : ts ≠ []
  few : ts.length ≤ 3
  full : ∀ t ∈ ts, t.2 ≠ []
  gens : ∀ t ∈ ts, t.1.gen = gen
  row : Row crc v' lo hi l (asRecs ts)
  made : Made v old (asRecs ts)

theorem writePieces_row (hl : h < 2 ^ 16) (hne : rs ≠ []) (hr : Row crc v lo hi l rs)
    {ps : List Ptr} (hrun : runs (writePieces crc h gen (rs.map (entOf h))) v = (some ps, v')) :
    ∃ ts : List (Item (h + 1)), ts.map Prod.fst = ps ∧ Pieces crc v v' gen lo hi l rs ts ∧
      (Neat rs → (h ≠ 0 → 2 ≤ rs.length ∧ used h (rs.map (entOf h)) ≤ 7000) → Neat (asRecs ts)) := by
  obtain ⟨hf, ts, hfst, rfl, htne, hlen, hfull, hw, hwide⟩ := writePieces_items crc hl hne hr.held hrun
  obtain ⟨hrow, hmade⟩ := row_above hfull hr hw
  refine ⟨ts, hfst, ⟨hf, htne, hlen, hfull, hw.gens, hrow, hmade⟩, fun hn h2 => ?_⟩
  refine neat_above hfull hn fun h0 => ?_
  exact hwide h0 (fun r hr => (hn r hr).1) (h2 h0).1 (h2 h0).2

theorem flat_leaf (rs : List (Key × Item 0)) : flat (contents 0) rs = rs := flatMap_singleton' rs

theorem row_leaf (v : Vol) {rs : List (Key × Item 0)} (hs : Sorted rs)
    (hb : ∀ r ∈ rs, lo ≤ r.1 ∧ (r.1 : WithTop Key) < hi) (hlt : (lo : WithTop Key) ≤ hi) : Row crc v lo hi rs rs := by
  refine ⟨fun _ _ => trivial, ?_, ?_, flat_leaf rs, ?_⟩
  · clear hlt
    induction rs with
    | nil => trivial
    | cons r rs ih =>
      refine ⟨?_, ih hs.of_cons fun x hx => hb x (mem_cons_of_mem _ hx)⟩
      cases rs with
      | nil => exact (hb r mem_cons_self).2
      | cons x rs => exact WithTop.coe_lt_coe.mpr (rel_of_pairwise_cons hs mem_cons_self)
  · cases rs with
    | nil => exact hlt
    | cons r rs => exact WithTop.coe_le_coe.mpr (hb r mem_cons_self).1
  · have hnil : rowPages rs = [] := flatMap_eq_nil_iff.mpr fun _ _ => rfl
    rw [hnil]
    exact nodup_nil

end InvariantFs.BtreeRow
