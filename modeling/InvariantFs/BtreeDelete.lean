import InvariantFs.BtreeRebalance

namespace InvariantFs.BtreeDelete

open ByteCodec BtreePage BtreeSplit Btree SortedMap SepChain Fallible BtreeShape BtreeRead BtreeWrite
open BtreeRow BtreeInsert BtreeRebalance List Nat

variable {hi : WithTop Key} {rs : List (Key × Item 0)}

theorem leaf_del (hc : Chain (Ok 0) rs hi) (key : Key) :
    ((rs.map (entOf 0))[lowerBound (rs.map (entOf 0)) key]?.map Ent.k = some key →
      (rs.map (entOf 0)).take (lowerBound (rs.map (entOf 0)) key) ++
        (rs.map (entOf 0)).drop (lowerBound (rs.map (entOf 0)) key + 1) = (del rs key).map (entOf 0)) ∧
    ((rs.map (entOf 0))[lowerBound (rs.map (entOf 0)) key]?.map Ent.k ≠ some key → del rs key = rs) := by
  obtain ⟨a, hidx, ha, hcase⟩ := locate hc key
  rw [hidx]
  obtain ⟨w, c, rfl, hcgt⟩ | ⟨c, rfl, hcgt⟩ := hcase
  · rw [del_old ha hcgt]
    refine ⟨fun _ => ?_, fun hkey => absurd ?_ hkey⟩
    · rw [map_append, drop_append]
      simp
    · simp [entOf]
  · refine ⟨fun hkey => ?_, fun _ => del_absent fun r hr => ?_⟩
    · cases c with
      | nil => simp at hkey
      | cons r c => simp [entOf, (hcgt r mem_cons_self).ne'] at hkey
    · obtain hr | hr := mem_append.mp hr
      · exact (ha r hr).ne
      · exact (hcgt r hr).ne'

variable {crc : List Byte → UInt32} {v : Vol} {l : List (Key × Val)} {lo : Key}

theorem row_del (hr : Row crc v lo hi l rs) (hlt : (lo : WithTop Key) ≤ hi) (key : Key) :
    Row crc v lo hi (del l key) (del rs key) := by
  obtain rfl : rs = l := (flat_leaf rs).symm.trans hr.contents
  obtain ⟨-, hb⟩ := chain_flat (bounded 0) hr.chain
  rw [flat_leaf] at hb
  refine row_leaf v (sorted_del (row_sorted hr) key) (fun r hm => ?_) hlt
  obtain ⟨hlo, hhi⟩ := hb r (mem_of_mem_filter hm)
  exact ⟨WithTop.coe_le_coe.mp (hr.low.trans hlo), hhi⟩

variable {h : Nat} {t : Item (h + 1)}

theorem row_raise {k : Key} (hr : Row crc v lo hi l [(k, t)]) : Row crc v lo hi l [(minKey t, t)] := by
  obtain ⟨⟨hne, hlo, hc⟩, -⟩ := hr.chain
  have hmin : ((minKey t : Key) : WithTop Key) = next t.2 hi := by
    obtain ⟨p, _ | ⟨x, xs⟩⟩ := t
    · exact absurd rfl hne
    · rfl
  refine ⟨fun r hm => ?_, ⟨⟨hne, hmin.le, hc⟩, trivial⟩, ?_, hr.contents, hr.nodup⟩
  · rw [mem_singleton.mp hm]
    exact hr.held (k, t) mem_cons_self
  · exact hr.low.trans (hlo.trans hmin.symm.le)

theorem row_lt {rs : List (Key × Item h)} (hr : Row crc v lo hi l rs) (hne : rs ≠ []) : (lo : WithTop Key) < hi := by
  obtain ⟨r, rs', rfl⟩ := exists_cons_of_ne_nil hne
  exact hr.low.trans_lt (chain_lt (bounded h) hr.chain r mem_cons_self)

/-- What `bt_del_rec` reports about a node: nothing to delete, nothing left, or the node's new page.
A page that may have too few children is flagged, unless it is the root. -/
def Outcome (crc : List Byte → UInt32) (v v' : Vol) {h : Nat} (gen : UInt64) (isRoot : Bool) (lo : Key)
    (hi : WithTop Key) (l : List (Key × Val)) (old : List (Key × Item (h + 1))) : Dn → Prop
  | .same => l = flat (contents (h + 1)) old
  | .gone => l = []
  | .node p u => p.gen = gen ∧ ∃ t : Item (h + 1), t.1 = p ∧ Row crc v' lo hi l [(lo, t)] ∧
      Made v old [(lo, t)] ∧
      (Neat old → Neat t.2 ∧ (isRoot = false → u = false → h ≠ 0 → 2 ≤ t.2.length))

variable {gen : UInt64} {v' : Vol} {isRoot : Bool} {dn : Dn}

theorem delFinish_row (hl : h < 2 ^ 16) {rs : List (Key × Item h)} {v₀ : Vol} (hf : Frame v₀ v)
    (hr : Row crc v lo hi l rs) (old : List (Key × Item (h + 1))) (hm : Made v₀ old rs) (hn : Neat old → Neat rs)
    (hrun : runs (delFinish crc h gen isRoot (rs.map (entOf h))) v = (some dn, v')) :
    Frame v₀ v' ∧ Outcome crc v₀ v' gen isRoot lo hi l old dn := by
  unfold delFinish at hrun
  split_ifs at hrun with hnil
  · obtain ⟨rfl, rfl⟩ := ended hrun
    obtain rfl := map_eq_nil_iff.mp hnil
    exact ⟨hf, hr.contents.symm⟩
  · obtain ⟨p, v1, hwrite, hpure⟩ := bind_some.mp hrun
    obtain ⟨rfl, rfl⟩ := ended hpure
    obtain ⟨hf', hgen, hrow, hmade⟩ := btWrite_row hl (fun h => hnil (by simp [h])) hr hwrite
    refine ⟨frame_trans hf hf', hgen, (p, rs), rfl, hrow, made_trans hf hm hmade, fun ho => ⟨hn ho, ?_⟩⟩
    intro hroot hu h0
    have hlen := used_le_length (recSize_short h0 fun r hm => (hn ho r hm).1)
    have hbig : minFill ≤ used h (rs.map (entOf h)) := by simpa [hroot] using hu
    change 2 ≤ rs.length
    simp only [length_map, pageHdrLen, shortRec, minFill, pageSize] at hlen hbig
    omega

theorem way_ents {t : Item (h + 2)} {key : Key} {xs ys : List (Key × Item (h + 1))} {r : Key × Item (h + 1)}
    (hw : Way crc v key lo hi l t xs r ys) : (t.2.map (entOf (h + 1))).take xs.length ++
        (t.2.map (entOf (h + 1))).drop (xs.length + 1) = (xs ++ [] ++ ys).map (entOf (h + 1)) ∧
      ∀ t' k, (t.2.map (entOf (h + 1))).take xs.length ++ ⟨k, [], t'.1⟩ ::
        (t.2.map (entOf (h + 1))).drop (xs.length + 1) = (xs ++ [(k, t')] ++ ys).map (entOf (h + 1)) := by
  have hents := fun ss : List (Key × Item (h + 1)) =>
    window_ents [r] (ss.map (entOf (h + 1))) (n := xs.length + 1) (congrArg (List.map (entOf (h + 1))) hw.split) rfl
  simp only [← map_append] at hents
  exact ⟨hents [], fun t' k => hents [(k, t')]⟩

theorem delRec_row {key : Key} {fuel : Nat} (hfuel : fuel ≤ 2 ^ 16) (hr : Row crc v lo hi l [(lo, t)])
    (hk : (key : WithTop Key) < hi) (hrun : runs (delRec crc key gen fuel isRoot t.1) v = (some dn, v')) :
    h < fuel ∧ Frame v v' ∧ Outcome crc v v' gen isRoot lo hi (del l key) [(lo, t)] dn := by
  induction h generalizing fuel isRoot v v' lo hi l dn with
  | zero =>
    obtain _ | fuel := fuel
    · simp [delRec] at hrun
    obtain ⟨hbelow, hmade⟩ := row_below hr
    rw [below_single] at hbelow hmade
    obtain ⟨n, v1, hrd, hrest⟩ := bind_some.mp hrun
    obtain ⟨rfl, rfl⟩ := ended ((btRead_held (hr.held _ mem_cons_self)).symm.trans hrd)
    simp only [if_true] at hrest
    obtain ⟨hold, hnone⟩ := leaf_del hbelow.chain key
    split_ifs at hrest with hkey
    · rw [hold hkey] at hrest
      have hrow := row_del hbelow (row_lt hr (by simp)).le key
      obtain ⟨hf, hout⟩ := delFinish_row (Nat.two_pow_pos 16) (frame_refl v) hrow [(lo, t)] (fun p hp => by
          obtain ⟨r, -, hp⟩ := mem_flatMap.mp hp
          exact absurd hp not_mem_nil)
        (fun hn r hm => neat_below hn r (by rw [below_single]; exact mem_of_mem_filter hm)) hrest
      exact ⟨succ_pos _, hf, hout⟩
    · obtain ⟨rfl, rfl⟩ := ended hrest
      refine ⟨succ_pos _, frame_refl v, ?_⟩
      have hl : t.2 = l := (flat_leaf t.2).symm.trans hbelow.contents
      change del l key = flat (contents 1) [(lo, t)]
      rw [hr.contents, ← hl]
      exact hnone hkey
  | succ h ih =>
    obtain _ | fuel := fuel
    · simp [delRec] at hrun
    obtain ⟨n, v1, hrd, hrest⟩ := bind_some.mp hrun
    obtain ⟨rfl, rfl⟩ := ended ((btRead_held (hr.held _ mem_cons_self)).symm.trans hrd)
    obtain ⟨xs, r, ys, hw⟩ := way_down hr hk
    simp only [succ_ne_zero, if_false, hw.index, hw.get, entOf_key] at hrest
    obtain ⟨cd, v2, hrec, hrest⟩ := bind_some.mp hrest
    obtain ⟨hlt, hf, hout⟩ := ih (by omega) hw.child hw.upper hrec
    have hl : flat (contents (h + 1)) xs ++ contents (h + 1) r.1 r.2 ++ flat (contents (h + 1)) ys = l := by
      rw [← hw.row.contents, flat_append, flat_append, flat_cons, flat_nil, append_nil]
    have hdel : flat (contents (h + 1)) xs ++ del (contents (h + 1) r.1 r.2) key ++
        flat (contents (h + 1)) ys = del l key := by rw [← del_middle hw.below hw.above, hl]
    -- the child's place is taken by the rows its deletion left
    have hswap : ∀ ss, Row crc v2 r.1 (next ys hi) (del (contents (h + 1) r.1 r.2) key) ss →
        Made v [(r.1, r.2)] ss →
        Row crc v2 lo hi (del l key) (xs ++ ss ++ ys) ∧ Made v [(lo, t)] (xs ++ ss ++ ys) := by
      intro ss hss hms
      obtain ⟨h1, h2⟩ := row_swap hf hw.row hss hms
      exact ⟨hdel ▸ h1, made_trans (frame_refl v) hw.made h2⟩
    have hlt' : h + 1 < 2 ^ 16 := by omega
    cases cd with
    | same =>
      obtain ⟨rfl, rfl⟩ := ended hrest
      have hsame : del (contents (h + 1) r.1 r.2) key = flat (contents (h + 1)) [(r.1, r.2)] := hout
      rw [flat_cons, flat_nil, append_nil] at hsame
      refine ⟨by omega, hf, ?_⟩
      change del l key = flat (contents (h + 2)) [(lo, t)]
      rw [← hdel, hsame, hl, hr.contents]
    | gone =>
      have hnil : del (contents (h + 1) r.1 r.2) key = [] := hout
      obtain ⟨hrow, hm⟩ := hswap [] ⟨by simp, trivial, ((bounded (h + 1)).lt _ _ _ hw.child.chain.1).le, hnil.symm,
        nodup_nil⟩ (by simp [Made, rowPages])
      simp only [(way_ents hw).1] at hrest
      obtain ⟨hf', hout'⟩ := delFinish_row hlt' hf hrow _ hm (fun hn => by
        obtain ⟨hx, -, hy, -⟩ := hw.neat hn
        exact neat_append.mpr ⟨neat_append.mpr ⟨hx, by simp [Neat]⟩, hy⟩) hrest
      exact ⟨by omega, hf', hout'⟩
    | node p u =>
      obtain ⟨-, t', rfl, hrow', hmade', hneat'⟩ := hout
      have he := (way_ents hw).2 t'
      -- where the page is not flagged it has its children, under either separator
      have hfinish : ∀ k : Key, u = false → Row crc v2 r.1 (next ys hi) (del (contents (h + 1) r.1 r.2) key)
          [(k, t')] → (Neat [(lo, t)] → k.length ≤ keyMax) →
          runs (delFinish crc (h + 1) gen isRoot ((xs ++ [(k, t')] ++ ys).map (entOf (h + 1)))) v2 =
            (some dn, v') →
          h + 1 < fuel + 1 ∧ Frame v v' ∧ Outcome crc v v' gen isRoot lo hi (del l key) [(lo, t)] dn := by
        intro k hu hk' hkey hrun
        obtain ⟨hrow, hm⟩ := hswap _ hk' hmade'
        obtain ⟨hf', hout'⟩ := delFinish_row hlt' hf hrow _ hm (fun hn => by
          obtain ⟨hx, hnr, hy, -⟩ := hw.neat hn
          obtain ⟨hn', hwide⟩ := hneat' hnr
          exact neat_append.mpr ⟨neat_append.mpr ⟨hx, neat_page (hkey hn) hn' (hwide rfl hu)⟩, hy⟩) hrun
        exact ⟨by omega, hf', hout'⟩
      simp only [he] at hrest
      by_cases hu : u = true
      · simp only [hu, if_true] at hrest
        obtain ⟨es, v3, hreb, hrest⟩ := bind_some.mp hrest
        obtain ⟨hrow, hm⟩ := hswap _ hrow' hmade'
        obtain ⟨rs, rfl, -, hf2, hrow2, hmade2, hneat2⟩ := rebalance_row (by omega) hrow hreb
        obtain ⟨hf', hout'⟩ := delFinish_row hlt' (frame_trans hf hf2) hrow2 _ (made_trans hf hm hmade2)
          (fun hn => by
            obtain ⟨hx, hnr, hy, hlen⟩ := hw.neat hn
            exact hneat2 hx hy (hneat' hnr).1 (by simpa using hlen)) hrest
        exact ⟨by omega, hf', hout'⟩
      · have hu : u = false := by simpa using hu
        split_ifs at hrest with hkey
        · obtain ⟨k, v3, hfirst, hrest⟩ := bind_some.mp hrest
          obtain ⟨hne, -⟩ := hrow'.chain.1
          obtain ⟨p, _ | ⟨x, rs⟩⟩ := t'
          · exact absurd rfl hne
          have hread := (hrow'.held _ mem_cons_self).1
          obtain ⟨rfl, rfl⟩ := ended ((firstKey_node crc hread).symm.trans hfirst)
          rw [entOf_key] at hrest
          refine hfinish x.1 hu (row_raise hrow') (fun hn => ?_) hrest
          exact ((hneat' (hw.neat hn).2.1).1 x mem_cons_self).1
        · refine hfinish r.1 hu hrow' (fun hn => ?_) hrest
          exact ((hw.neat hn).2.1 _ mem_cons_self).1

theorem held_page (ht : Holds crc v (h + 1) t) :
    ∃ page, readPage crc v t.1 = some page ∧ decodeNode page = some (h, t.2.map (entOf h)) ∧
      (pageHdr page).level = h ∧ (pageHdr page).nentries = t.2.length := by
  obtain ⟨page, hpage, hdec⟩ := readNode_some crc ht.1
  obtain ⟨hlevel, -, hes⟩ := decodeNode_cases hdec
  refine ⟨page, hpage, hdec, hlevel, ?_⟩
  rw [← decodeEnts_length hes, length_map]

theorem collapse_row {guard : Nat} {r : Ptr}
    (hr : Row crc v [] ⊤ l [([], t)]) (hrun : runs (collapse crc guard t.1) v = (some r, v')) :
    v' = v ∧ ∃ (h' : Nat) (t' : Item (h' + 1)), h' ≤ h ∧ t'.1 = r ∧ Row crc v [] ⊤ l [([], t')] ∧
      Made v [([], t)] [([], t')] ∧ (Neat [([], t)] → Neat [([], t')]) ∧
      (guard ≠ 0 → Neat t.2 → Neat [([], t')]) := by
  induction guard generalizing h with
  | zero =>
    obtain ⟨hd, rfl⟩ := Prod.mk.inj hrun
    exact ⟨rfl, h, t, le_rfl, Option.some.inj hd, hr, made_refl v _, id, fun h => absurd rfl h⟩
  | succ guard ih =>
    have ht := hr.held _ mem_cons_self
    have h0 := (holds_pages crc ht t.1.pba mem_cons_self).1
    obtain ⟨page, hpage, hdec, hlevel, hn⟩ := held_page ht
    rw [collapse, if_neg h0] at hrun
    obtain ⟨pg, v1, hrd, hrest⟩ := bind_some.mp hrun
    rw [runs_act, hpage] at hrd
    obtain ⟨rfl, rfl⟩ := ended hrd
    rw [hlevel, hn] at hrest
    split_ifs at hrest with hstop
    · obtain ⟨hd, rfl⟩ := Prod.mk.inj hrest
      refine ⟨rfl, h, t, le_rfl, Option.some.inj hd, hr, made_refl v _, id, fun _ hn' => ?_⟩
      refine neat_page (Nat.zero_le _) hn' fun hh => ?_
      have hpos : 0 < t.2.length := length_pos_iff.mpr hr.chain.1.1
      have hone : t.2.length ≠ 1 := hstop.resolve_left hh
      change 2 ≤ t.2.length
      omega
    · simp only [not_or, not_not] at hstop
      obtain _ | h := h
      · exact absurd rfl hstop.1
      obtain ⟨p, rs⟩ := t
      obtain ⟨⟨k, c⟩, rfl⟩ := length_eq_one_iff.mp hstop.2
      rw [pageFirstChild_decode (succ_ne_zero h) hdec] at hrest
      obtain ⟨hb, hm⟩ := row_below hr
      have hc : Row crc v [] ⊤ l [([], c)] := row_lower hb (nil_le_key k)
      obtain ⟨rfl, h', t', hle, hr', hrow, hmade, hneat, -⟩ := ih hc hrest
      have hchild : Neat [(k, c)] → Neat [([], t')] := fun hn' => hneat (neat_root hn')
      refine ⟨rfl, h', t', by omega, hr', hrow, made_trans (frame_refl _) hm hmade, fun hn' => ?_, fun _ hn' =>
        hchild hn'⟩
      exact hchild (by simpa [below] using neat_below hn')

theorem recopy_read {p p' : Ptr} (hrun : runs (recopy crc p gen) v = (some p', v')) :
    Frame v v' ∧ readNode crc v' p' = readNode crc v p ∧ readNode crc v' p = readNode crc v p ∧
      v.bit p'.pba = false ∧ p'.gen = gen := by
  obtain ⟨page, u, hrd, hrest⟩ := bind_some.mp hrun
  obtain ⟨hpage, rfl⟩ := Prod.mk.inj hrd
  obtain ⟨pba, w, hplace, hpure⟩ := bind_some.mp hrest
  obtain ⟨rfl, rfl⟩ := ended hpure
  obtain ⟨-, -, -, hm, -⟩ := readPage_some crc hpage
  obtain ⟨hlen, hv, hgen, hdec⟩ := pageRegen_spec crc hm.1 hm.2.2.2 gen
  obtain ⟨-, -, hfree, hf, -⟩ := place_some crc hplace
  refine ⟨hf, ?_, ?_, hfree, hgen⟩
  · rw [readNode, readNode, readPage_placed crc hplace hlen hv p.flags, hpage]
    exact hdec
  · rw [readNode, readNode, readPage_frame crc hf hpage, hpage]

theorem recopy_row {p : Ptr} (hr : Row crc v [] ⊤ l [([], t)]) (hrun : runs (recopy crc t.1 gen) v = (some p, v')) :
    Frame v v' ∧ p.gen = gen ∧ Row crc v' (h := h + 1) [] ⊤ l [([], (p, t.2))] ∧
      Made v (g := h + 1) [([], t)] [([], (p, t.2))] := by
  have ht := hr.held _ mem_cons_self
  obtain ⟨hf, hread, -, hfree, hgen⟩ := recopy_read hrun
  obtain ⟨hb, hmb⟩ := row_below hr
  rw [below_single] at hb hmb
  have hheld : Holds crc v' (h + 1) (p, t.2) := ⟨hread.trans ht.1, fun y hy => holds_frame crc hf (ht.2 y hy)⟩
  obtain ⟨hrow, hmade⟩ := row_page hr.chain.1.1 hb hheld hfree
  exact ⟨hf, hgen, hrow, made_trans (frame_refl v) hmb hmade⟩

theorem delete_row {root root' : Ptr} {key : Key} {rs : List (Key × Item (h + 1))} (hroot : Rooted root rs)
    (hr : Row crc v [] ⊤ l rs) (hrun : runs (delete crc root key) v = (some root', v')) :
    Frame v v' ∧ (root' = root ∧ del l key = l ∨ root'.gen = root.gen + 1) ∧
      ∃ (h' : Nat) (rs' : List (Key × Item (h' + 1))), h' ≤ h ∧ Rooted root' rs' ∧
        Row crc v' [] ⊤ (del l key) rs' ∧ Made v rs rs' ∧ (Neat rs → Neat rs') := by
  have htop : (key : WithTop Key) < ⊤ := WithTop.coe_lt_top key
  unfold delete at hrun
  obtain ⟨h0, rfl⟩ | ⟨h0, t, rfl, rfl⟩ := hroot
  · rw [if_pos h0] at hrun
    obtain ⟨rfl, rfl⟩ := ended hrun
    obtain rfl : l = [] := hr.contents.symm
    exact ⟨frame_refl v, .inl ⟨rfl, rfl⟩, h, [], le_rfl, .inl ⟨h0, rfl⟩, hr, made_refl v _, id⟩
  · rw [if_neg h0] at hrun
    obtain ⟨dn, v1, hdel, hrest⟩ := bind_some.mp hrun
    obtain ⟨-, hf, hout⟩ := delRec_row (by simp [maxLevels]) hr htop hdel
    cases dn with
    | same =>
      obtain ⟨rfl, rfl⟩ := ended hrest
      have hsame : del l key = l := Eq.trans hout hr.contents
      refine ⟨hf, .inl ⟨rfl, hsame⟩, h, _, le_rfl, .inr ⟨h0, t, rfl, rfl⟩, ?_, made_refl v _, id⟩
      rw [hsame]
      exact row_frame hf hr
    | gone =>
      obtain ⟨rfl, rfl⟩ := ended hrest
      have hnil : del l key = [] := hout
      refine ⟨hf, .inr rfl, h, [], le_rfl, .inl ⟨rfl, rfl⟩, ?_, by simp [Made, rowPages], by simp [Neat]⟩
      rw [hnil]
      exact ⟨by simp, trivial, le_top, rfl, nodup_nil⟩
    | node p u =>
      obtain ⟨-, t', rfl, hrow, hmade, hneat⟩ := hout
      obtain ⟨r, v2, hcol, hrest⟩ := bind_some.mp hrest
      obtain ⟨rfl, h', t2, hle, rfl, hrow2, hmade2, -, hneat2⟩ := collapse_row hrow hcol
      have hn : Neat [([], t)] → Neat [([], t2)] := fun hn => hneat2 (by simp [maxDepth]) (hneat hn).1
      have hm := made_trans hf hmade hmade2
      split_ifs at hrest with hz hgen
      · simp at hrest
      · obtain ⟨r', v3, hcopy, hpure⟩ := bind_some.mp hrest
        obtain ⟨rfl, rfl⟩ := ended hpure
        obtain ⟨hf3, hgen', hrow3, hmade3⟩ := recopy_row hrow2 hcopy
        obtain ⟨hrt, hrow4⟩ := row_asRoot hrow3
        exact ⟨frame_trans hf hf3, .inr hgen', h', _, hle, hrt, hrow4, made_trans hf hm hmade3, fun h =>
          neat_root (hn h)⟩
      · obtain ⟨rfl, rfl⟩ := ended hrest
        obtain ⟨hrt, hrow4⟩ := row_asRoot hrow2
        exact ⟨hf, .inr (not_not.mp hgen), h', _, hle, hrt, hrow4, hm, fun h => neat_root (hn h)⟩

end InvariantFs.BtreeDelete
