import InvariantFs.BtreeDamage

namespace InvariantFs.ExciseTree

open ByteCodec BtreePage Btree SortedMap SepChain Fallible BtreeShape BtreeRead BtreeCheck BtreeWrite Prod
open BtreeRow BtreeInsert BtreeDelete BtreeMap BtreeExcise BtreeDamage
open BtreeSupply (Ample place_ample)
open List hiding span
open Option

variable (crc : List Byte → UInt32)

/-- A tree found behind the pointer shows that the damage below the page could be mended. -/
def Back (v : Vol) {h : Nat} (t : Item (h + 1)) (node : Ptr) : Prop :=
  ∀ (w : Vol) (g : Nat) (s : Item (g + 1)), Frame v w → Holds crc w (g + 1) s → s.1 = node →
    g ≤ h ∧ Mendable (h + 1) t ∧ (g = h → Stays (h + 1) t)

/-- A tree behind the pointer with the bindings that are left of the page. Its pages come from the
page or from free blocks. -/
def Grown (v v' : Vol) (lo : Key) (hi : WithTop Key) {h : Nat} (t : Item (h + 1)) (node : Ptr) : Prop :=
  ∃ (g : Nat) (s : Item (g + 1)), g ≤ h ∧ (Stays (h + 1) t → g = h) ∧ s.1 = node ∧ Wide (g + 1) s ∧
    Row crc v' (h := g + 1) lo hi (contents (h + 1) lo t) [(lo, s)] ∧
    ∀ p ∈ pages (g + 1) s, p ∈ pages (h + 1) t ∨ v.bit p = false

structure Spec (v v' : Vol) (lo : Key) (hi : WithTop Key) {h : Nat} (t : Item (h + 1)) (out : Excised) : Prop where
  frame : Frame v v'
  changed : out.changed = t.2.any fun r => gone h r.2
  same : out.changed = false → out.node = t.1
  null : out.node.pba = 0 ↔ gone (h + 1) t = true
  low : Stays (h + 1) t → out.minKey = []
  back : Back crc v' t out.node
  grown : gone (h + 1) t = false → Mendable (h + 1) t → Grown crc v v' lo hi t out.node

structure KidsSpec (v v' : Vol) (hi : WithTop Key) {h : Nat} (rs : List (Key × Item (h + 1))) (kept : Kept) :
    Prop where
  frame : Frame v v'
  changed : kept.changed = rs.any fun r => gone (h + 1) r.2
  count : kept.ents.length = (survivors rs).length
  ents : ∀ e ∈ kept.ents, e.v = [] ∧ e.child.pba ≠ 0
  back : ∀ r ∈ survivors rs, ∃ e ∈ kept.ents, Back crc v' r.2 e.child
  one : ∀ r, survivors rs = [r] → Mendable (h + 1) r.2 →
    ∃ e, kept.ents = [e] ∧ Grown crc v v' r.1 hi r.2 e.child
  row : (∀ r ∈ survivors rs, Mendable (h + 1) r.2 ∧ Stays (h + 1) r.2) →
    ∃ ss : List (Key × Item (h + 1)), kept.ents = ss.map (entOf (h + 1)) ∧ next rs hi ≤ next ss hi ∧
      (∀ s ∈ ss, Wide (h + 1) s.2) ∧ Row crc v' [] hi (flat (contents (h + 1)) rs) ss ∧
      ∀ p ∈ rowPages ss, p ∈ rowPages rs ∨ v.bit p = false

variable {crc}

variable {v v' : Vol}

theorem nil_le (hi : WithTop Key) : (([] : Key) : WithTop Key) ≤ hi := by
  cases hi with
  | top => exact le_top
  | coe k => exact WithTop.coe_le_coe.mpr (nil_le_key k)

variable {h : Nat}

variable {node : Ptr}

theorem back_frame (hf : Frame v v') {t : Item (h + 1)} (hb : Back crc v t node) : Back crc v' t node :=
  fun w g s hw => hb w g s (frame_trans hf hw)

variable {hi : WithTop Key} {lo : Key} {u : Vol}

theorem grown_frame {w : Vol} (hu : Frame u v) (hw : Frame v' w) {lo' : Key} {hi' : WithTop Key} {t : Item (h + 1)}
    (hg : Grown crc v v' lo hi t node) (hle : lo' ≤ lo) (hhi : hi ≤ hi') : Grown crc u w lo' hi' t node := by
  obtain ⟨g, s, hgh, hstay, hs, hwide, hrow, hp⟩ := hg
  refine ⟨g, s, hgh, hstay, hs, hwide, ⟨fun r hr => ?_, ⟨?_, trivial⟩, le_rfl, hrow.contents, hrow.nodup⟩,
    fun p hm => (hp p hm).imp_right (frame_free hu)⟩
  · obtain rfl := mem_singleton.mp hr
    exact holds_frame crc hw (hrow.held (lo, s) mem_cons_self)
  · exact ok_lower ((bounded (g + 1)).mono _ _ _ _ hrow.chain.1 hhi) hle

theorem grown_intact (hf : Frame v v') {t : Item (h + 1)} (hin : Intact (h + 1) t) (hh : Held crc v (h + 1) t)
    (hfit : Fits (h + 1) lo hi t) (hn : (pages (h + 1) t).Nodup) : Grown crc v v' lo hi t t.1 := by
  obtain ⟨hok, hwide⟩ := intact_ok hin hfit
  refine ⟨h, t, le_rfl, fun _ => rfl, rfl, hwide, ⟨fun r hr => ?_, ⟨hok, trivial⟩, le_rfl, append_nil _, ?_⟩,
    fun p hp => .inl hp⟩
  · obtain rfl := mem_singleton.mp hr
    exact holds_frame crc hf (intact_holds crc hin hh)
  · rwa [rowPages_single]

variable {kept rest : Kept} {r : Key × Item (h + 1)} {rs : List (Key × Item (h + 1))}

theorem kids_gone (hf : Frame u v) (hr : gone (h + 1) r.2 = true)
    (hlt : (r.1 : WithTop Key) ≤ next rs hi) (hk : KidsSpec crc v v' hi rs rest) (hents : kept.ents = rest.ents)
    (hch : kept.changed = true) : KidsSpec crc u v' hi (r :: rs) kept := by
  have hsur : survivors (r :: rs) = survivors rs := by rw [survivors_cons, if_pos hr]
  refine ⟨frame_trans hf hk.frame, ?_, ?_, hents ▸ hk.ents, ?_, ?_, ?_⟩
  · rw [hch, any_cons, hr, Bool.true_or]
  · rw [hsur, hents, hk.count]
  · rw [hsur, hents]
    exact hk.back
  · intro x hx hm
    rw [hsur] at hx
    obtain ⟨e, he, hg⟩ := hk.one x hx hm
    exact ⟨e, hents.trans he, grown_frame hf (frame_refl _) hg le_rfl le_rfl⟩
  · intro hall
    rw [hsur] at hall
    obtain ⟨ss, hss, hnext, hwide, hrow, hp⟩ := hk.row hall
    refine ⟨ss, hents.trans hss, hlt.trans hnext, hwide, ?_, fun p hm => ?_⟩
    · rw [flat_cons, contents_gone hr]
      exact hrow
    · obtain hm | hm := hp p hm
      · exact .inl (mem_append_right _ hm)
      · exact .inr (frame_free hf hm)

theorem row_cons (hf : Frame u v') {ss : List (Key × Item (h + 1))} {s : Item (h + 1)} {l m : List (Key × Val)}
    (hheld : ∀ x ∈ r :: rs, Held crc v (h + 1) x.2) (hn : (rowPages (r :: rs)).Nodup)
    (hs : Row crc u (h := h + 1) r.1 (next rs hi) l [(r.1, s)])
    (hsp : ∀ p ∈ pages (h + 1) s, p ∈ pages (h + 1) r.2 ∨ v.bit p = false)
    (hrow : Row crc v' [] hi m ss) (hnext : next rs hi ≤ next ss hi)
    (hssp : ∀ p ∈ rowPages ss, p ∈ rowPages rs ∨ u.bit p = false) :
    Row crc v' [] hi (l ++ m) ((r.1, s) :: ss) := by
  have hbit : ∀ p ∈ pages (h + 1) s, u.bit p = true := fun p hp =>
    (holds_pages crc (hs.held _ mem_cons_self) p hp).2.2
  have hnd : (pages (h + 1) s).Nodup := rowPages_single r.1 s ▸ hs.nodup
  have hnil : ([] : Key) ≤ r.1 := nil_le_key r.1
  refine ⟨forall_mem_cons.mpr ⟨holds_frame crc hf (hs.held _ mem_cons_self), hrow.held⟩,
    ⟨(bounded (h + 1)).mono _ _ _ _ hs.chain.1 hnext, hrow.chain⟩, WithTop.coe_le_coe.mpr hnil, ?_, ?_⟩
  · rw [flat_cons, hrow.contents, ← hs.contents, flat_cons, flat_nil, append_nil]
  · refine nodup_append.mpr ⟨hnd, hrow.nodup, ?_⟩
    rintro p hp _ hq rfl
    obtain hq | hq := hssp p hq
    · -- an old page of a later child is no page of this one and was in use
      obtain ⟨x, hx, hxp⟩ := mem_flatMap.mp hq
      have hin := held_pages crc (hheld x (mem_cons_of_mem _ hx)) p hxp
      obtain hp | hp := hsp p hp
      · exact (nodup_append.mp hn).2.2 p hp p hq rfl
      · rw [hp] at hin
        cases hin
    · rw [hbit p hp] at hq
      exact absurd hq (by simp)

theorem add_spec {t : Item (h + 1)} {sub : Excised} (hs : Spec crc v u lo hi t sub) (hne : t.2 ≠ []) (rest : Kept) :
    if gone (h + 1) t = true then (rest.add (entOf (h + 1) (lo, t)) sub).ents = rest.ents ∧
        (rest.add (entOf (h + 1) (lo, t)) sub).changed = true else
      ∃ k, (rest.add (entOf (h + 1) (lo, t)) sub).ents = ⟨k, [], sub.node⟩ :: rest.ents ∧
        (Stays (h + 1) t → k = lo) ∧ (rest.add (entOf (h + 1) (lo, t)) sub).changed = rest.changed := by
  split_ifs with hg
  · have hch : sub.changed = true := by
      obtain ⟨p, _ | ⟨r, rs⟩⟩ := t
      · exact absurd rfl hne
      · rw [gone_cons, Bool.and_eq_true] at hg
        rw [hs.changed, any_cons, hg.1, Bool.true_or]
    rw [Kept.add, if_neg (by simp [hch]), if_pos (hs.null.mpr hg)]
    exact ⟨rfl, rfl⟩
  · have hnull : ¬ sub.node.pba = 0 := fun h0 => hg (hs.null.mp h0)
    rw [Kept.add]
    cases hch : sub.changed with
    | false =>
      rw [if_pos rfl, hs.same hch]
      exact ⟨lo, rfl, fun _ => rfl, rfl⟩
    | true =>
      rw [if_neg hnull]
      refine ⟨_, rfl, fun hst => ?_, rfl⟩
      rw [hs.low hst, if_pos rfl]
      rfl

theorem kids_kept {sub : Excised} {k : Key} (hheld : ∀ x ∈ r :: rs, Held crc v (h + 1) x.2)
    (hn : (rowPages (r :: rs)).Nodup) (hc : Chain (Fits (h + 1)) rs hi) (hr : gone (h + 1) r.2 = false)
    (hs : Spec crc v u r.1 (next rs hi) r.2 sub) (hk : KidsSpec crc u v' hi rs rest)
    (hents : kept.ents = ⟨k, [], sub.node⟩ :: rest.ents) (hkey : Stays (h + 1) r.2 → k = r.1)
    (hch : kept.changed = rest.changed) : KidsSpec crc v v' hi (r :: rs) kept := by
  have hsur : survivors (r :: rs) = r :: survivors rs := by rw [survivors_cons, if_neg (by simp [hr])]
  refine ⟨frame_trans hs.frame hk.frame, ?_, ?_, ?_, ?_, ?_, ?_⟩
  · rw [hch, hk.changed, any_cons, hr, Bool.false_or]
  · rw [hsur, hents, length_cons, length_cons, hk.count]
  · rw [hents]
    refine forall_mem_cons.mpr ⟨⟨rfl, fun h0 => ?_⟩, hk.ents⟩
    rw [hs.null.mp h0] at hr
    cases hr
  · rw [hsur, hents]
    refine forall_mem_cons.mpr ⟨⟨_, mem_cons_self, back_frame hk.frame hs.back⟩, fun x hx => ?_⟩
    obtain ⟨e, he, hb⟩ := hk.back x hx
    exact ⟨e, mem_cons_of_mem _ he, hb⟩
  · intro x hx hm
    rw [hsur] at hx
    obtain ⟨rfl, hnil⟩ := cons_eq_cons.mp hx
    have hrest : rest.ents = [] := by
      rw [← length_eq_zero_iff, hk.count, hnil]
      rfl
    refine ⟨_, by rw [hents, hrest], ?_⟩
    exact grown_frame (frame_refl _) hk.frame (hs.grown hr hm) le_rfl (chain_next_le (fits_bounded (h + 1)) hc)
  · intro hall
    rw [hsur] at hall
    obtain ⟨⟨hm, hst⟩, hall⟩ := forall_mem_cons.mp hall
    obtain ⟨ss, hss, hnext, hwide, hrow, hp⟩ := hk.row hall
    obtain ⟨g, s, -, hg, hnode, hws, hrs, hsp⟩ := hs.grown hr hm
    obtain rfl := hg hst
    refine ⟨(r.1, s) :: ss, ?_, le_rfl, forall_mem_cons.mpr ⟨hws, hwide⟩,
      row_cons hk.frame hheld hn hrs hsp hrow hnext hp, fun p hm => ?_⟩
    · rw [hents, hss, hkey hst, ← hnode]
      rfl
    · obtain hm | hm := mem_append.mp hm
      · exact (hsp p hm).imp_left (mem_append_left _)
      · exact (hp p hm).imp (mem_append_right _) (frame_free hs.frame)

section

variable {q : List Range} {rec : Ptr → Key → Act Vol Excised}

theorem exciseKids_spec
    (hrec : ∀ {t : Item (h + 1)} {lo hi : Key} {v v' : Vol} {out : Excised}, Held crc v (h + 1) t →
      Fits (h + 1) lo (hiOf hi) t → (pages (h + 1) t).Nodup →
      Sharp (q.map span) (gaps (h + 1) lo (hiOf hi) t) lo (hiOf hi) →
      runs (rec t.1 hi) v = (some out, v') → Spec crc v v' lo (hiOf hi) t out) {hi : Key}
    (hheld : ∀ r ∈ rs, Held crc v (h + 1) r.2) (hc : Chain (Fits (h + 1)) rs (hiOf hi)) (hn : (rowPages rs).Nodup)
    (hs : Sharp (q.map span) (along (gaps (h + 1)) rs (hiOf hi)) (next rs (hiOf hi)) (hiOf hi))
    (hrun : runs (exciseKids rec q hi (rs.map (entOf (h + 1)))) v = (some kept, v')) :
    KidsSpec crc v v' (hiOf hi) rs kept := by
  induction rs generalizing v kept with
  | nil =>
    obtain ⟨rfl, rfl⟩ := ended hrun
    refine ⟨frame_refl _, rfl, rfl, by simp, by simp [survivors], fun r hr => ?_,
      fun _ => ⟨[], rfl, le_rfl, by simp, ?_, by simp [rowPages]⟩⟩
    · simp [survivors] at hr
    · exact ⟨by simp, trivial, nil_le _, rfl, nodup_nil⟩
  | cons r rs ih =>
    have hsort := chain_sorted (fits_bounded (h + 1)) hc
    have hlt := (fits_bounded (h + 1)).lt _ _ _ hc.1
    have hstep := exciseKids_cons.mp hrun
    rw [entOf_key] at hstep
    generalize hchi : ((rs.map (entOf (h + 1))).head?.map Ent.k).getD hi = chi at hstep
    have hnext : hiOf chi = next rs (hiOf hi) := by rw [← hchi, hiOf_next hsort]
    have hsharp := sharp_head hc hs
    have hfit := hc.1
    rw [← hnext] at hsharp hfit
    have hheld' := fun x hx => hheld x (mem_cons_of_mem _ hx)
    have hn' := (nodup_append.mp hn).2.1
    by_cases hcov : (q.any fun x => x.covers r.1 chi) = true
    · rw [if_pos hcov] at hstep
      obtain ⟨rest, hrest, rfl⟩ := hstep
      have hgone : gone (h + 1) r.2 = true := by
        rw [gone, (sharp_covers hfit hsharp).mp hcov]
        rfl
      exact kids_gone (frame_refl v) hgone hlt.le (ih hheld' hc.2 hn' (sharp_tail hc hs) hrest) rfl rfl
    · rw [if_neg hcov] at hstep
      obtain ⟨sub, u, rest, hsub, hrest, rfl⟩ := hstep
      have hne : r.2.2 ≠ [] := fun hnil => hcov ((sharp_covers hfit hsharp).mpr hnil)
      have hspec := hrec (hheld r mem_cons_self) hfit (nodup_append.mp hn).1 hsharp hsub
      have hkids := ih (fun x hx => held_frame crc hspec.frame (hheld' x hx)) hc.2 hn' (sharp_tail hc hs) hrest
      have hadd := add_spec hspec hne rest
      rw [hnext] at hspec
      by_cases hg : gone (h + 1) r.2 = true
      · rw [if_pos hg] at hadd
        exact kids_gone hspec.frame hg hlt.le hkids hadd.1 hadd.2
      · rw [if_neg hg] at hadd
        obtain ⟨k, hents, hkey, hch⟩ := hadd
        exact kids_kept hheld hn hc.2 (by simpa using hg) hspec hkids hents hkey hch

end

theorem null_back (t : Item (h + 1)) (h0 : node.pba = 0) : Back crc v t node := by
  intro w g s _ hs heq
  have := (holds_pages crc hs s.1.pba mem_cons_self).1
  rw [heq] at this
  exact absurd h0 this

theorem same_spec {t : Item (h + 1)} (hheld : Held crc v (h + 1) t) (hfit : Fits (h + 1) lo hi t)
    (hn : (pages (h + 1) t).Nodup) (hne : t.2 ≠ []) (hf : Frame v u) (hno : ¬ ∃ r ∈ t.2, gone h r.2 = true)
    (d : Nat) : Spec crc v u lo hi t ⟨t.1, [], d, false⟩ := by
  have hall := survivors_all hno
  have hpba : t.1.pba ≠ 0 := by
    have hread := hheld.1
    rw [if_neg hne] at hread
    obtain ⟨page, hpage, -⟩ := readNode_some crc hread
    exact (readPage_some crc hpage).1
  have hgone : ¬ gone (h + 1) t = true := by rwa [gone_iff, hall]
  have hstay : Stays (h + 1) t := by
    by_cases h0 : h = 0
    · exact .inl h0
    · refine .inr ?_
      rw [hall]
      exact hfit.2.2.2 h0 hne
  refine ⟨hf, ?_, fun _ => rfl, iff_of_false hpba hgone, fun _ => rfl, ?_, fun _ hm => ?_⟩
  · refine (any_eq_false.mpr fun r hr hg => hno ⟨r, hr, hg⟩).symm
  · intro w g s hw hs heq
    obtain ⟨rfl, hin⟩ := held_unique crc (held_frame crc (frame_trans hf hw) hheld) hs heq
    exact ⟨le_rfl, intact_mendable hin, fun _ => hstay⟩
  · rw [Mendable, if_neg hno] at hm
    exact grown_intact hf ⟨hne, hm⟩ hheld hfit hn

variable {gen : UInt64} {p : Ptr} {out : Excised}

section

variable {t : Item (h + 2)}

theorem not_stays (hs : (survivors t.2).length < 2) : ¬ Stays (h + 2) t := by
  rintro (h0 | h2)
  · exact absurd h0 (Nat.succ_ne_zero h)
  · omega

theorem none_spec (hf : Frame v u) (hch : (t.2.any fun r => gone (h + 1) r.2) = true)
    (hsur : survivors t.2 = []) : Spec crc v u lo hi t ⟨.null, [], 0, true⟩ := by
  have hgone : gone (h + 2) t = true := (gone_iff t).mpr hsur
  refine ⟨hf, hch.symm, fun h => absurd h (by simp), iff_of_true rfl hgone, fun _ => rfl, null_back t rfl,
    fun h => ?_⟩
  rw [hgone] at h
  cases h

theorem one_spec (hfit : Fits (h + 2) lo hi t) (hk : KidsSpec crc v u hi t.2 kept)
    (hch : (t.2.any fun r => gone (h + 1) r.2) = true) (hsur : survivors t.2 = [r])
    {e : Ent} (hents : kept.ents = [e]) (k : Key) (d : Nat) : Spec crc v u lo hi t ⟨e.child, k, d, true⟩ := by
  have hlen : (survivors t.2).length = 1 := by rw [hsur]; rfl
  have hst : ¬ Stays (h + 2) t := not_stays (by omega)
  have hex : ∃ r ∈ t.2, gone (h + 1) r.2 = true := any_eq_true.mp hch
  have hpba : e.child.pba ≠ 0 := (hk.ents e (by simp [hents])).2
  have hback : Back crc u r.2 e.child := by
    obtain ⟨e', he', hb⟩ := hk.back r (by simp [hsur])
    rw [hents, mem_singleton] at he'
    exact he' ▸ hb
  have hmem : r ∈ t.2 := (mem_survivors.mp (hsur ▸ mem_singleton.mpr rfl)).1
  have hgone : ¬ gone (h + 2) t = true := by simp [gone_iff, hsur]
  refine ⟨hk.frame, hch.symm, fun h => absurd h (by simp), iff_of_false hpba hgone, fun h => absurd h hst, ?_,
    fun _ hm => ?_⟩
  · intro w g s hw hs heq
    obtain ⟨hgh, hmend, -⟩ := hback w g s hw hs heq
    refine ⟨by omega, ?_, fun hgt => by omega⟩
    rw [Mendable, if_pos hex, hsur]
    exact forall_mem_singleton.mpr ⟨hmend, fun h2 => by simp at h2⟩
  · rw [Mendable, if_pos hex, hsur] at hm
    obtain ⟨e', he', hgrown⟩ := hk.one r hsur (forall_mem_singleton.mp hm).1
    obtain rfl : e = e' := by
      rw [hents] at he'
      exact (List.cons.inj he').1
    have hlow : lo ≤ r.1 :=
      WithTop.coe_le_coe.mp (hfit.2.1.trans (chain_next_mem (fits_bounded (h + 1)) hfit.2.2.1 r hmem))
    obtain ⟨g, s, hgh, -, hs, hwide, hrow, hp⟩ := grown_frame (frame_refl v) (frame_refl u) hgrown hlow le_rfl
    refine ⟨g, s, by omega, fun h => absurd h hst, hs, hwide, ?_, fun p hm => (hp p hm).imp_left fun hm => ?_⟩
    · have hcont : contents (h + 2) lo t = contents (h + 1) lo r.2 := by
        change flat (contents (h + 1)) t.2 = _
        rw [← contents_survivors, hsur, flat_cons, flat_nil, append_nil]
        rfl
      rw [hcont]
      exact hrow
    · exact mem_cons_of_mem _ (mem_flatMap.mpr ⟨r, hmem, hm⟩)

theorem page_spec (hl : h + 1 < 2 ^ 16) (hfit : Fits (h + 2) lo hi t) (hk : KidsSpec crc v u hi t.2 kept)
    (hch : (t.2.any fun r => gone (h + 1) r.2) = true) (hlen : 2 ≤ kept.ents.length)
    (hrun : runs (btWrite crc (h + 1) gen kept.ents) u = (some p, v')) (d : Nat) :
    Spec crc v v' lo hi t ⟨p, [], d, true⟩ := by
  have hsur : 2 ≤ (survivors t.2).length := hk.count ▸ hlen
  have hex : ∃ r ∈ t.2, gone (h + 1) r.2 = true := any_eq_true.mp hch
  have hplain : ∀ e ∈ kept.ents, Plain (h + 1) e := by
    intro e he
    exact (hk.ents e he).1
  obtain ⟨hf, hread, hfree, -⟩ := btWrite_read crc hl hplain hrun
  have hpba : p.pba ≠ 0 := by
    obtain ⟨page, hpage, -⟩ := readNode_some crc hread
    exact (readPage_some crc hpage).1
  have hgone : ¬ gone (h + 2) t = true := by
    rw [gone_iff]
    intro hnil
    rw [hnil] at hsur
    simp at hsur
  refine ⟨frame_trans hk.frame hf, hch.symm, fun h => absurd h (by simp), iff_of_false hpba hgone, fun _ => rfl,
    ?_, fun _ hm => ?_⟩
  · intro w g s hw hs heq
    have hread' := hs.1
    rw [heq, readNode_frame crc hw hread] at hread'
    obtain ⟨rfl, hes⟩ := mk.inj (some.inj hread')
    refine ⟨le_rfl, ?_, fun _ => .inr hsur⟩
    rw [Mendable, if_pos hex]
    intro r hr
    obtain ⟨e, he, hb⟩ := hk.back r hr
    rw [hes] at he
    obtain ⟨x, hx, rfl⟩ := mem_map.mp he
    obtain ⟨-, hm, hst⟩ := hb w h x.2 (frame_trans hf hw) (hs.2 x hx) rfl
    exact ⟨hm, fun _ => hst rfl⟩
  · rw [Mendable, if_pos hex] at hm
    obtain ⟨ss, hss, hnext, hwide, hrow, hp⟩ := hk.row fun r hr => ⟨(hm r hr).1, (hm r hr).2 hsur⟩
    have hlow : Row crc u lo hi (flat (contents (h + 1)) t.2) ss := { hrow with low := hfit.2.1.trans hnext }
    rw [hss] at hrun hlen
    rw [length_map] at hlen
    have hne : ss ≠ [] := by
      rintro rfl
      simp at hlen
    obtain ⟨-, -, hnew, hmade⟩ := btWrite_row hl hne hlow hrun
    refine ⟨h + 1, (p, ss), le_rfl, fun _ => rfl, rfl, ⟨fun _ => hlen, hwide⟩, hnew, fun x hx => ?_⟩
    have hpages : rowPages (h := h + 2) [(lo, (p, ss))] = pages (h + 2) (p, ss) := rowPages_single lo _
    obtain hx | hx := hmade x (hpages ▸ hx)
    · exact (hp x hx).imp_left (mem_cons_of_mem _)
    · exact .inr (frame_free hk.frame hx)

theorem finish_spec (hl : h + 1 < 2 ^ 16) (hheld : Held crc v (h + 2) t) (hfit : Fits (h + 2) lo hi t)
    (hn : (pages (h + 2) t).Nodup) (hne : t.2 ≠ []) (hk : KidsSpec crc v u hi t.2 kept)
    (hrun : runs (finish crc t.1 (h + 1) gen kept) u = (some out, v')) : Spec crc v v' lo hi t out := by
  have hch := hk.changed
  rw [finish] at hrun
  cases hc : kept.changed with
  | false =>
    rw [if_pos hc] at hrun
    obtain ⟨rfl, rfl⟩ := ended hrun
    rw [hc] at hch
    refine same_spec hheld hfit hn hne hk.frame (fun hex => ?_) _
    exact absurd (any_eq_true.mpr hex) (by simp [← hch])
  | true =>
    rw [if_neg (by simp [hc])] at hrun
    rw [hc] at hch
    have hcount := hk.count
    match hents : kept.ents with
    | [] =>
      rw [hents] at hrun hcount
      obtain ⟨rfl, rfl⟩ := ended hrun
      exact none_spec hk.frame hch.symm (length_eq_zero_iff.mp hcount.symm)
    | [e] =>
      rw [hents] at hrun hcount
      obtain ⟨rfl, rfl⟩ := ended hrun
      obtain ⟨r, hr⟩ := length_eq_one_iff.mp hcount.symm
      exact one_spec hfit hk hch.symm hr hents _ _
    | e :: f :: es =>
      rw [hents] at hrun
      obtain ⟨p, w, hwrite, hpure⟩ := bind_some.mp hrun
      obtain ⟨rfl, rfl⟩ := ended hpure
      rw [← hents] at hwrite
      exact page_spec hl hfit hk hch.symm (by simp [hents]) hwrite _

end

variable {fuel : Nat} {expect : Option Nat}

theorem exciseRec_spec {q : List Range} {t : Item (h + 1)} {hi : Key} (hheld : Held crc v (h + 1) t)
    (hfit : Fits (h + 1) lo (hiOf hi) t) (hn : (pages (h + 1) t).Nodup)
    (hs : Sharp (q.map span) (gaps (h + 1) lo (hiOf hi) t) lo (hiOf hi))
    (hrun : runs (exciseRec crc q gen fuel t.1 hi expect) v = (some out, v')) : Spec crc v v' lo (hiOf hi) t out := by
  induction h generalizing fuel lo hi expect v v' out
  all_goals
    obtain _ | fuel := fuel
    · simp [exciseRec] at hrun
    obtain ⟨level, es, hread, hexp⟩ := exciseRec_reads crc hrun
    have hpage := hheld.1
    rw [hread] at hpage
    split_ifs at hpage with hnil
    · exact absurd hpage.1 (by simp)
    obtain ⟨rfl, rfl⟩ := mk.inj (some.inj hpage)
  · rw [exciseRec_leaf crc hread hexp] at hrun
    obtain ⟨rfl, rfl⟩ := ended hrun
    exact same_spec hheld hfit hn hnil (frame_refl v) (by simp [gone]) 0
  · rename_i h ih
    rw [exciseRec_page crc hread hexp (Nat.succ_ne_zero h)] at hrun
    obtain ⟨kept, u, hkids, hfin⟩ := bind_some.mp hrun
    have hk := exciseKids_spec ih hheld.2 hfit.2.2.1 (nodup_cons.mp hn).2 (sharp_page hfit hnil hs) hkids
    exact finish_spec (readNode_level crc hread) hheld hfit hn hnil hk hfin

variable (crc) in
structure Damaged (v : Vol) (root : Ptr) {h : Nat} (rs : List (Key × Item (h + 1))) : Prop where
  rooted : Rooted root rs
  held : ∀ r ∈ rs, Held crc v (h + 1) r.2
  fits : ∀ r ∈ rs, Fits (h + 1) [] ⊤ r.2
  nodup : (rowPages rs).Nodup

variable (crc) in
/-- The root is accepted, it is read as the map, and the old pages are what they were. A search goes
down `maxDepth` levels. -/
structure Mended (v v' : Vol) (root : Ptr) (h : Nat) (m : List (Key × Val)) (ps : List UInt64) : Prop where
  accepted : ∃ ck, check crc v' root = .ok ck
  search : h < maxDepth → ∀ k, search crc v' root k = some (lookup m k)
  scan : ∀ {σ : Type} (cb : σ → Key → Val → σ × Int) (lo hi : Key) (s : σ),
    scan crc v' root lo hi cb s = visit cb (range m lo (hiOf hi)) s
  pages : ∀ p ∈ ps, v'.bit p = true ∧ v'.dev.view p = v.dev.view p

variable {ps : List UInt64}

theorem pages_kept (hf : Frame v v') (hps : ∀ p ∈ ps, v.bit p = true) :
    ∀ p ∈ ps, v'.bit p = true ∧ v'.dev.view p = v.dev.view p :=
  fun p hp => ⟨hf.bits p (hps p hp), frame_view hf (hps p hp)⟩

theorem row_mended (hf : Frame v v') {g : Nat} (hgh : g ≤ h) {s : Item (g + 1)}
    {m : List (Key × Val)} (hw : Wide (g + 1) s) (hrow : Row crc v' (h := g + 1) [] ⊤ m [([], s)])
    (hps : ∀ p ∈ ps, v.bit p = true) : Mended crc v v' s.1 h m ps := by
  have hs := hrow.held _ mem_cons_self
  have h0 : s.1.pba ≠ 0 := (holds_pages crc hs s.1.pba mem_cons_self).1
  have hroot : Rooted s.1 [([], s)] := .inr ⟨h0, s, rfl, rfl⟩
  have hlevel : g < 2 ^ 16 := readNode_level crc hs.1
  have hm : contents (g + 1) [] s = m := (append_nil _).symm.trans hrow.contents
  refine ⟨?_, fun hd => (reads_row (Nat.lt_of_le_of_lt hgh hd) hroot hrow).search, fun cb lo hi x => ?_,
    pages_kept hf hps⟩
  · obtain ⟨ck, hck, -⟩ := row_check hlevel hroot hrow (by simpa using hw)
    exact ⟨ck, hck⟩
  · rw [scan, if_neg h0, ← hm]
    refine scanRec_visit crc cb lo hi hs hrow.chain.1 ?_ x
    simp only [maxLevels]
    omega

theorem check_item {root : Ptr} (h0 : root.pba ≠ 0) {ck : Ck} (hck : check crc v root = .ok ck) :
    ∃ (g : Nat) (s : Item (g + 1)), s.1 = root ∧ Holds crc v (g + 1) s := by
  rw [check, if_neg h0] at hck
  obtain ⟨g, s, hs, -, hfine, -⟩ := checkRec_sound crc hck
  exact ⟨g, s, hs, hfine.holds⟩

variable {pba : UInt64}

section

variable {t : Item (h + 1)} {top : Excised} {root : Ptr}

section

variable (hheld : Held crc v (h + 1) t) (hspec : Spec crc v u [] ⊤ t top)

include hheld hspec

theorem mended_iff (hf : Frame u v')
    (hto : ∀ ck, check crc v' root = .ok ck → ∃ (g : Nat) (s : Item (g + 1)), s.1 = top.node ∧ Holds crc v' (g + 1) s)
    (hof : Grown crc v u [] ⊤ t top.node → ∃ (g : Nat) (s : Item (g + 1)), g ≤ h ∧ s.1 = root ∧ Wide (g + 1) s ∧
      Row crc v' (h := g + 1) [] ⊤ (contents (h + 1) [] t) [([], s)]) :
    Mended crc v v' root h (contents (h + 1) [] t) (pages (h + 1) t) ↔
      gone (h + 1) t = false ∧ Mendable (h + 1) t := by
  refine ⟨fun hm => ?_, fun ⟨hg, hm⟩ => ?_⟩
  · obtain ⟨ck, hck⟩ := hm.accepted
    obtain ⟨g, s, hs, hh⟩ := hto ck hck
    refine ⟨?_, (hspec.back v' g s hf hh hs).2.1⟩
    have h0 : s.1.pba ≠ 0 := (holds_pages crc hh s.1.pba mem_cons_self).1
    rw [hs] at h0
    simpa using fun hg => h0 (hspec.null.mpr hg)
  · obtain ⟨g, s, hgh, rfl, hw, hrow⟩ := hof (hspec.grown hg hm)
    exact row_mended (frame_trans hspec.frame hf) hgh hw hrow (held_pages crc hheld)

theorem node_mended_iff (h0 : top.node.pba ≠ 0) :
    Mended crc v u top.node h (contents (h + 1) [] t) (pages (h + 1) t) ↔
      gone (h + 1) t = false ∧ Mendable (h + 1) t := by
  refine mended_iff hheld hspec (frame_refl u) (fun ck hck => ?_) fun hg => ?_
  · exact check_item h0 hck
  · obtain ⟨g, s, hgh, -, hs, hw, hrow, -⟩ := hg
    exact ⟨g, s, hgh, hs, hw, hrow⟩

theorem copy_mended_iff (hrun : runs (recopy crc top.node gen) u = (some p, v')) :
    Mended crc v v' (Ptr.asRoot p) h (contents (h + 1) [] t) (pages (h + 1) t) ↔
      gone (h + 1) t = false ∧ Mendable (h + 1) t := by
  obtain ⟨hf, hread, hold, -⟩ := recopy_read hrun
  refine mended_iff hheld hspec hf (fun ck hck => ?_) fun hg => ?_
  · have h0 : (Ptr.asRoot p).pba ≠ 0 := by
      obtain ⟨page, w, -, hrest⟩ := bind_some.mp hrun
      obtain ⟨pba, w', hplace, hpure⟩ := bind_some.mp hrest
      obtain ⟨rfl, -⟩ := ended hpure
      exact (place_some crc hplace).1
    obtain ⟨g, s, hs, hh⟩ := check_item h0 hck
    refine ⟨g, (top.node, s.2), rfl, ?_, hh.2⟩
    have hsame := hh.1
    rw [hs, Ptr.asRoot, readNode_flags, hread, ← hold] at hsame
    exact hsame
  · obtain ⟨g, s, hgh, -, hs, hw, hrow, -⟩ := hg
    rw [← hs] at hrun
    obtain ⟨-, -, hcopy, -⟩ := recopy_row hrow hrun
    exact ⟨g, (Ptr.asRoot p, s.2), hgh, rfl, hw, (row_asRoot hcopy).2⟩

end

end

theorem root_mended_iff {t : Item (h + 1)} (h0 : t.1.pba ≠ 0)
    (hheld : Held crc v (h + 1) t) (hfit : Fits (h + 1) [] ⊤ t) (hn : (pages (h + 1) t).Nodup) {q : Quarantine}
    (hq : ∀ g, g ∈ q.ranges.map span ↔ g ∈ gaps (h + 1) [] ⊤ t) {dropped : Bool} {root : Ptr}
    (hrun : runs (excise crc t.1 q) v = (some (dropped, root), v')) :
    Mended crc v v' root h (contents (h + 1) [] t) (pages (h + 1) t) ↔
      gone (h + 1) t = false ∧ Mendable (h + 1) t := by
  rw [excise] at hrun
  by_cases hnil : q.ranges = []
  · -- nothing is missing, and the root is handed back
    rw [if_pos (.inr hnil)] at hrun
    obtain ⟨hr, rfl⟩ := mk.inj hrun
    cases hr
    have hgaps : gaps (h + 1) [] ⊤ t = [] := by
      refine eq_nil_iff_forall_not_mem.mpr fun g hg => ?_
      simpa [hnil] using (hq g).mpr hg
    have hin := intact_of_gaps hgaps
    have hno : ¬ ∃ r ∈ t.2, gone h r.2 = true := by
      rintro ⟨r, hr, hg⟩
      rw [intact_not_gone (hin.2 r hr)] at hg
      exact absurd hg (by simp)
    exact node_mended_iff hheld (same_spec hheld hfit hn hin.1 (frame_refl v) hno 0) h0
  rw [if_neg (by simp [h0, hnil])] at hrun
  by_cases hfull : q.qfull = true
  · rw [if_pos hfull] at hrun
    simp at hrun
  rw [if_neg hfull] at hrun
  obtain ⟨top, u, hrec, hrun⟩ := bind_some.mp hrun
  have hsharp : Sharp (q.ranges.map span) (gaps (h + 1) [] (hiOf []) t) (([] : Key) : WithTop Key) (hiOf []) :=
    ⟨fun g hg => (hq g).mpr hg, fun g hg => .inl ((hq g).mp hg)⟩
  have hspec : Spec crc v u [] ⊤ t top := exciseRec_spec hheld hfit hn hsharp hrec
  by_cases hidle : top.dropped = 0 ∧ top.changed = false
  · rw [if_pos hidle] at hrun
    obtain ⟨hr, rfl⟩ := mk.inj hrun
    obtain ⟨-, rfl⟩ := mk.inj (some.inj hr)
    have hsame := hspec.same hidle.2
    rw [← hsame]
    exact node_mended_iff hheld hspec (hsame ▸ h0)
  rw [if_neg hidle] at hrun
  by_cases hnull : top.node.pba = 0
  · rw [if_pos hnull] at hrun
    obtain ⟨pba, w, hplace, hpure⟩ := bind_some.mp hrun
    obtain ⟨hr, rfl⟩ := mk.inj hpure
    obtain ⟨-, rfl⟩ := mk.inj (some.inj hr)
    refine iff_of_false (fun hm => ?_) fun hc => ?_
    · obtain ⟨ck, hck⟩ := hm.accepted
      exact empty_refused (readNode_empty hplace _) ck hck
    · rw [hspec.null.mp hnull] at hc
      exact absurd hc.1 (by simp)
  rw [if_neg hnull] at hrun
  by_cases hmin : top.minKey ≠ []
  · rw [if_pos hmin] at hrun
    obtain ⟨p, w, hcopy, hpure⟩ := bind_some.mp hrun
    obtain ⟨hr, rfl⟩ := mk.inj hpure
    obtain ⟨-, rfl⟩ := mk.inj (some.inj hr)
    exact copy_mended_iff hheld hspec hcopy
  · rw [if_neg hmin] at hrun
    obtain ⟨hr, rfl⟩ := mk.inj hrun
    obtain ⟨-, rfl⟩ := mk.inj (some.inj hr)
    exact node_mended_iff hheld hspec hnull

/-- An excision that succeeds mends the tree just when the damage is of the kind it can get out. -/
theorem excise_mends_iff {v v' : Vol} {root root' : Ptr} {h : Nat} {rs : List (Key × Item (h + 1))}
    (hd : Damaged crc v root rs) {q : Quarantine}
    (hq : ∀ g, g ∈ q.ranges.map span ↔ ∃ r ∈ rs, g ∈ gaps (h + 1) [] ⊤ r.2) {dropped : Bool}
    (hrun : runs (excise crc root q) v = (some (dropped, root'), v')) :
    Mended crc v v' root' h (flat (contents (h + 1)) rs) (rowPages rs) ↔
      ∀ r ∈ rs, gone (h + 1) r.2 = false ∧ Mendable (h + 1) r.2 := by
  obtain ⟨h0, rfl⟩ | ⟨h0, t, rfl, rfl⟩ := hd.rooted
  · rw [excise, if_pos (.inl h0)] at hrun
    obtain ⟨hr, rfl⟩ := mk.inj hrun
    cases hr
    refine iff_of_true ⟨⟨_, if_pos h0⟩, fun _ k => ?_, fun cb lo hi s => ?_, by simp [rowPages]⟩ (by simp)
    · rw [search, if_pos h0]
      rfl
    · rw [scan, if_pos h0]
      rfl
  · rw [forall_mem_singleton, rowPages_single, flat_cons, flat_nil, append_nil]
    refine root_mended_iff h0 (hd.held _ mem_cons_self) (hd.fits _ mem_cons_self)
      (rowPages_single [] t ▸ hd.nodup) (fun g => ?_) hrun
    rw [hq]
    simp

section

section

variable (crc)

def ptrAt (pba : UInt64) (level : Nat) (es : List Ent) : Ptr :=
  ptrSet pba (pageBytes crc level 1 es) (if level = 0 then bpLeaf else bpInternal)

def leafAt (pba : UInt64) (k : Byte) : Item 1 :=
  (ptrAt crc pba 0 [⟨[k], [k], .null⟩], [([k], [k])])

def innerAt (pba : UInt64) {h : Nat} (rs : List (Key × Item (h + 1))) : Item (h + 2) :=
  (ptrAt crc pba (h + 1) (rs.map (entOf (h + 1))), rs)

def tornLeaf : Item 1 := (⟨4, 0, 1, bpLeaf⟩, [])

def leftPage : Item 2 := innerAt crc 2 [([0], tornLeaf), ([1], leafAt crc 5 1)]

def rightPage : Item 2 := innerAt crc 3 [([2], leafAt crc 6 2), ([3], leafAt crc 7 3)]

def rootPage : Item 3 := innerAt crc 1 [([0], leftPage crc), ([2], rightPage crc)]

def tornVol : Vol where
  total := 64
  bit := fun p => p < 8
  bmLo := 1
  bmHi := 0
  dev := ⟨fun p =>
    if p = 1 then pageBytes crc 2 1 ((rootPage crc).2.map (entOf 2))
    else if p = 2 then pageBytes crc 1 1 ((leftPage crc).2.map (entOf 1))
    else if p = 3 then pageBytes crc 1 1 ((rightPage crc).2.map (entOf 1))
    else if p = 5 then pageBytes crc 0 1 [⟨[1], [1], .null⟩]
    else if p = 6 then pageBytes crc 0 1 [⟨[2], [2], .null⟩]
    else if p = 7 then pageBytes crc 0 1 [⟨[3], [3], .null⟩]
    else [], []⟩
  supply := [⟨8, true, true⟩]

end

def tornRange : Quarantine := ⟨[⟨[0], [1]⟩], false⟩

theorem readNode_laid (hp : pba ≠ 0 ∧ pba < 8) {level : Nat} (hl : level < 2 ^ 16) {es : List Ent}
    (hn : es.length ≤ maxEntries) (hu : used level es ≤ pageSize) (hplain : ∀ e ∈ es, Plain level e)
    (hview : (tornVol crc).dev.view pba = pageBytes crc level 1 es) :
    readNode crc (tornVol crc) (ptrAt crc pba level es) = some (level, es) := by
  have hlt : pba < 64 := UInt64.lt_trans hp.2 (by decide)
  have hbit : (tornVol crc).bit pba = true := decide_eq_true hp.2
  have hpage : readPage crc (tornVol crc) (ptrAt crc pba level es) = some (pageBytes crc level 1 es) := by
    change (if pba = 0 ∨ 64 ≤ pba ∨ (tornVol crc).bit pba = false ∨
      ¬ PtrMatches crc _ ((tornVol crc).dev.view pba) then none else some ((tornVol crc).dev.view pba)) = _
    rw [hview, if_neg]
    simp only [not_or, not_not, hbit]
    exact ⟨hp.1, UInt64.not_le.mpr hlt, by simp, length_pageBytes crc hu 1, rfl, rfl,
      pageValidate_pageBytes crc level 1 es⟩
  exact bind_eq_some_iff.mpr ⟨_, hpage, decodeNode_pageBytes crc hl hn hu hplain 1⟩

variable {k : Byte}

theorem read_leaf (hp : pba ≠ 0 ∧ pba < 8)
    (hview : (tornVol crc).dev.view pba = pageBytes crc 0 1 [⟨[k], [k], .null⟩]) :
    readNode crc (tornVol crc) (leafAt crc pba k).1 = some (0, [⟨[k], [k], .null⟩]) :=
  readNode_laid hp (by decide) (by simp [maxEntries]) (by simp [used, recSize, pageHdrLen, pageSize])
    (by simp [Plain]) hview

variable {j : Byte} {a b : Item (h + 1)}

theorem read_pair (hp : pba ≠ 0 ∧ pba < 8) (hl : h + 1 < 2 ^ 16)
    (hview : (tornVol crc).dev.view pba = pageBytes crc (h + 1) 1 ([([j], a), ([k], b)].map (entOf (h + 1)))) :
    readNode crc (tornVol crc) (innerAt crc pba [([j], a), ([k], b)]).1 =
      some (h + 1, [⟨[j], [], a.1⟩, ⟨[k], [], b.1⟩]) :=
  readNode_laid hp hl (by simp [maxEntries]) (by simp [used, recSize, pageHdrLen, pageSize, entOf])
    (by simp [Plain, entOf]) hview

section

variable (crc)

theorem read_left : readNode crc (tornVol crc) (leftPage crc).1 =
    some (1, [⟨[0], [], tornLeaf.1⟩, ⟨[1], [], (leafAt crc 5 1).1⟩]) := read_pair (by decide) (by decide) rfl

theorem read_right : readNode crc (tornVol crc) (rightPage crc).1 =
    some (1, [⟨[2], [], (leafAt crc 6 2).1⟩, ⟨[3], [], (leafAt crc 7 3).1⟩]) := read_pair (by decide) (by decide) rfl

theorem read_root : readNode crc (tornVol crc) (rootPage crc).1 =
    some (2, [⟨[0], [], (leftPage crc).1⟩, ⟨[2], [], (rightPage crc).1⟩]) := read_pair (by decide) (by decide) rfl

theorem held_left : Held crc (tornVol crc) 2 (leftPage crc) := by
  refine ⟨(if_neg (by simp [leftPage, innerAt])).mpr (read_left crc), ?_⟩
  simp only [leftPage, innerAt, forall_mem_cons, not_mem_nil, IsEmpty.forall_iff, implies_true, and_true]
  exact ⟨⟨(if_pos rfl).mpr ⟨rfl, rfl⟩, fun _ _ => trivial⟩,
    ⟨(if_neg (by simp [leafAt])).mpr (read_leaf (by decide) rfl), fun _ _ => trivial⟩⟩

theorem held_right : Held crc (tornVol crc) 2 (rightPage crc) := by
  refine ⟨(if_neg (by simp [rightPage, innerAt])).mpr (read_right crc), ?_⟩
  simp only [rightPage, innerAt, forall_mem_cons, not_mem_nil, IsEmpty.forall_iff, implies_true, and_true]
  exact ⟨⟨(if_neg (by simp [leafAt])).mpr (read_leaf (by decide) rfl), fun _ _ => trivial⟩,
    ⟨(if_neg (by simp [leafAt])).mpr (read_leaf (by decide) rfl), fun _ _ => trivial⟩⟩

theorem held_root : Held crc (tornVol crc) 3 (rootPage crc) := by
  refine ⟨(if_neg (by simp [rootPage, innerAt])).mpr (read_root crc), ?_⟩
  simp only [rootPage, innerAt, forall_mem_cons, not_mem_nil, IsEmpty.forall_iff, implies_true, and_true]
  exact ⟨held_left crc, held_right crc⟩

end

theorem fits_leaf (hk : (([k] : Key) : WithTop Key) < hi) : Fits 1 [k] hi (leafAt crc pba k) :=
  ⟨hk, le_rfl, ⟨hk, trivial⟩, fun h => absurd rfl h⟩

theorem fits_pair (hlo : lo ≤ [j]) (ha : Fits (h + 1) [j] (([k] : Key) : WithTop Key) a)
    (hb : Fits (h + 1) [k] hi b) : Fits (h + 2) lo hi (innerAt crc pba [([j], a), ([k], b)]) := by
  have hlo' : (lo : WithTop Key) ≤ (([j] : Key) : WithTop Key) := WithTop.coe_le_coe.mpr hlo
  exact ⟨hlo'.trans_lt (ha.1.trans hb.1), hlo', ⟨ha, hb, trivial⟩, fun _ _ => le_rfl⟩

theorem byte_lt (h : j < k) : (([j] : Key) : WithTop Key) < (([k] : Key) : WithTop Key) :=
  WithTop.coe_lt_coe.mpr (List.Lex.rel h)

theorem fits_left (hlo : lo ≤ [0]) (hhi : (([1] : Key) : WithTop Key) < hi) : Fits 2 lo hi (leftPage crc) :=
  fits_pair hlo ⟨byte_lt (by decide), (byte_lt (by decide)).le, trivial, fun h => absurd rfl h⟩ (fits_leaf hhi)

theorem fits_root : Fits 3 [] ⊤ (rootPage crc) :=
  fits_pair (nil_le_key _) (fits_left le_rfl (byte_lt (by decide)))
    (fits_pair le_rfl (fits_leaf (byte_lt (by decide))) (fits_leaf (WithTop.coe_lt_top _)))

theorem left_excised {hi : Key} (hexp : ∀ x ∈ expect, 1 = x) (hhi : (⟨[0], [1]⟩ : Range).covers [1] hi = false) :
    runs (exciseRec crc tornRange.ranges gen (fuel + 2) (leftPage crc).1 hi expect) (tornVol crc) =
      (some ⟨(leafAt crc 5 1).1, [1], 1, true⟩, tornVol crc) := by
  have hleaf : runs (exciseRec crc tornRange.ranges gen (fuel + 1) (leafAt crc 5 1).1 hi (some 0)) (tornVol crc) =
      (some ⟨(leafAt crc 5 1).1, [], 0, false⟩, tornVol crc) :=
    exciseRec_leaf crc (read_leaf (by decide) rfl) (by simp)
  have hno : (tornRange.ranges.any fun r => r.covers [1] hi) = false := by simpa [tornRange] using hhi
  rw [exciseRec_page crc (read_left crc) hexp (by decide)]
  refine bind_some.mpr ⟨⟨[⟨[1], [], (leafAt crc 5 1).1⟩], 1, true⟩, tornVol crc, ?_, rfl⟩
  refine exciseKids_cons.mpr ((if_pos rfl).mpr ⟨⟨[⟨[1], [], (leafAt crc 5 1).1⟩], 0, false⟩, ?_, rfl⟩)
  exact exciseKids_cons.mpr ((if_neg (by simpa using hno)).mpr ⟨_, _, _, hleaf, rfl, rfl⟩)

theorem right_excised :
    runs (exciseRec crc tornRange.ranges gen (fuel + 2) (rightPage crc).1 [] (some 1)) (tornVol crc) =
      (some ⟨(rightPage crc).1, [], 0, false⟩, tornVol crc) := by
  have hleaf : ∀ {pba : UInt64} (k : Byte) (hi : Key),
    (tornVol crc).dev.view pba = pageBytes crc 0 1 [⟨[k], [k], .null⟩] →
      pba ≠ 0 ∧ pba < 8 →
      runs (exciseRec crc tornRange.ranges gen (fuel + 1) (leafAt crc pba k).1 hi (some 0)) (tornVol crc) =
        (some ⟨(leafAt crc pba k).1, [], 0, false⟩, tornVol crc) :=
    fun k hi hview hp => exciseRec_leaf crc (read_leaf hp hview) (by simp)
  rw [exciseRec_page crc (read_right crc) (by simp) (by decide)]
  refine bind_some.mpr ⟨⟨[⟨[2], [], (leafAt crc 6 2).1⟩, ⟨[3], [], (leafAt crc 7 3).1⟩], 0, false⟩,
    tornVol crc, ?_, rfl⟩
  refine exciseKids_cons.mpr ((if_neg fun h => Bool.false_ne_true h).mpr
    ⟨_, _, ⟨[⟨[3], [], (leafAt crc 7 3).1⟩], 0, false⟩,
    hleaf 2 [3] rfl (by decide), ?_, rfl⟩)
  exact exciseKids_cons.mpr ((if_neg fun h => Bool.false_ne_true h).mpr
    ⟨_, _, _, hleaf 3 [] rfl (by decide), rfl, rfl⟩)

theorem root_excised : runs (excise crc (rootPage crc).1 tornRange) (tornVol crc) =
    (some (true, (rootPage crc).1), tornVol crc) := by
  have hrec : ∀ gen, runs (exciseRec crc tornRange.ranges gen (maxLevels + 1) (rootPage crc).1 [] none)
    (tornVol crc) =
      (some ⟨(rootPage crc).1, [], 1, false⟩, tornVol crc) := by
    intro gen
    rw [exciseRec_page crc (read_root crc) (by simp) (by decide)]
    refine bind_some.mpr ⟨⟨[⟨[1], [], (leafAt crc 5 1).1⟩, ⟨[2], [], (rightPage crc).1⟩], 1, false⟩,
      tornVol crc, ?_, rfl⟩
    refine exciseKids_cons.mpr ((if_neg fun h => Bool.false_ne_true h).mpr
      ⟨_, _, ⟨[⟨[2], [], (rightPage crc).1⟩], 0, false⟩,
      left_excised (by simp) rfl, ?_, rfl⟩)
    exact exciseKids_cons.mpr ((if_neg fun h => Bool.false_ne_true h).mpr ⟨_, _, _, right_excised, rfl, rfl⟩)
  exact bind_some.mpr ⟨_, _, hrec _, rfl⟩

theorem left_tree_excised (crc : List Byte → UInt32) :
    ∃ root v', runs (excise crc (leftPage crc).1 tornRange) (tornVol crc) = (some (true, root), v') := by
  have hample : Ample 1 (tornVol crc) := by
    refine ⟨[⟨8, true, true⟩], [], rfl, rfl, by decide, fun t ht => ?_⟩
    obtain rfl := mem_singleton.mp ht
    exact ⟨(by decide : (8 : UInt64) ≠ 0), (by decide : (8 : UInt64) < 64), rfl, rfl, rfl⟩
  have hleaf : readNode crc (tornVol crc) (leafAt crc 5 1).1 = some (0, [⟨[1], [1], .null⟩]) :=
    read_leaf (by decide) rfl
  obtain ⟨page, hpage, -⟩ := readNode_some crc hleaf
  obtain ⟨pba, v', hplace, -⟩ := place_ample crc hample ((leftPage crc).1.gen + 1)
    (pageRegen crc ((leftPage crc).1.gen + 1) page)
  refine ⟨Ptr.asRoot (ptrSet pba (pageRegen crc ((leftPage crc).1.gen + 1) page) (leafAt crc 5 1).1.flags), v', ?_⟩
  refine bind_some.mpr ⟨_, _, left_excised (by simp) rfl, ?_⟩
  refine bind_some.mpr ⟨_, _, bind_some.mpr ⟨page, _, ?_, bind_some.mpr ⟨pba, v', hplace, rfl⟩⟩, rfl⟩
  rw [runs_act, hpage]

theorem left_mendable (crc : List Byte → UInt32) : Mendable 2 (leftPage crc) := by
  have hsur : survivors (leftPage crc).2 = [([1], leafAt crc 5 1)] := rfl
  rw [Mendable, hsur]
  refine forall_mem_singleton.mpr ⟨?_, fun h => by simp at h⟩
  rw [Mendable, if_neg (by simp [gone])]
  exact fun _ _ => trivial

end

theorem excise_mends_left : ∃ (root : Ptr) (v' : Vol),
    Damaged crc32c (tornVol crc32c) (leftPage crc32c).1 [([], leftPage crc32c)] ∧
      runs (excise crc32c (leftPage crc32c).1 tornRange) (tornVol crc32c) = (some (true, root), v') ∧
      Mended crc32c (tornVol crc32c) v' root 1 [([1], [1])] [2, 4, 5] := by
  obtain ⟨root, v', hrun⟩ := left_tree_excised crc32c
  have hd : Damaged crc32c (tornVol crc32c) (leftPage crc32c).1 [([], leftPage crc32c)] := by
    refine ⟨.inr ⟨(by decide : (2 : UInt64) ≠ 0), _, rfl, rfl⟩, by simpa using held_left crc32c,
      by simpa using fits_left (nil_le_key _) (WithTop.coe_lt_top _), ?_⟩
    decide
  refine ⟨root, v', hd, hrun, (excise_mends_iff hd (fun g => ?_) hrun).mpr ?_⟩
  · simp only [mem_singleton, exists_eq_left]
    rfl
  · exact forall_mem_singleton.mpr ⟨rfl, left_mendable crc32c⟩

/-- The excision reports success and hands back the root it was given; the check still meets the torn
leaf. -/
theorem torn_leaf_stays : ∃ (v v' : Vol) (root root' : Ptr) (h : Nat) (rs : List (Key × Item (h + 1)))
    (q : Quarantine),
    Damaged crc32c v root rs ∧ (∀ g, g ∈ q.ranges.map span ↔ ∃ r ∈ rs, g ∈ gaps (h + 1) [] ⊤ r.2) ∧
      runs (excise crc32c root q) v = (some (true, root'), v') ∧ ∀ ck, check crc32c v' root' ≠ .ok ck := by
  refine ⟨tornVol crc32c, tornVol crc32c, (rootPage crc32c).1, (rootPage crc32c).1, 2, [([], rootPage crc32c)],
    tornRange, ⟨.inr ⟨(by decide : (1 : UInt64) ≠ 0), _, rfl, rfl⟩, by simpa using held_root crc32c,
      by simpa using fits_root, ?_⟩, fun g => ?_, root_excised, fun ck hck => ?_⟩
  · change ([1, 2, 4, 5, 3, 6, 7] : List UInt64).Nodup
    decide
  · simp only [mem_singleton, exists_eq_left]
    rfl
  · obtain ⟨g, s, hs, hh⟩ := check_item (by decide : (1 : UInt64) ≠ 0) hck
    obtain ⟨-, hin⟩ := held_unique crc32c (held_root crc32c) hh hs
    have hleft := hin.2 ([0], leftPage crc32c) mem_cons_self
    exact (hleft.2 ([0], tornLeaf) mem_cons_self).1 rfl

end InvariantFs.ExciseTree
