import InvariantFs.BtreeRow

namespace InvariantFs.BtreeInsert

open ByteCodec BtreePage BtreeSplit Btree SortedMap SepChain Fallible BtreeShape BtreeRead BtreeWrite Prod
open BtreeRow List Nat

variable {hi : WithTop Key}

theorem leaf_put {rs : List (Key × Item 0)} (hc : Chain (Ok 0) rs hi) (key : Key) (val : Val) :
    ((rs.map (entOf 0))[lowerBound (rs.map (entOf 0)) key]?.map Ent.k = some key →
      (rs.map (entOf 0)).set (lowerBound (rs.map (entOf 0)) key) ⟨key, val, .null⟩ = (put rs key val).map (entOf 0)) ∧
    ((rs.map (entOf 0))[lowerBound (rs.map (entOf 0)) key]?.map Ent.k ≠ some key →
      (rs.map (entOf 0)).take (lowerBound (rs.map (entOf 0)) key) ++
        ⟨key, val, .null⟩ :: (rs.map (entOf 0)).drop (lowerBound (rs.map (entOf 0)) key) =
        (put rs key val).map (entOf 0)) := by
  obtain ⟨a, hidx, ha, hcase⟩ := locate hc key
  rw [hidx]
  obtain ⟨w, c, rfl, hcgt⟩ | ⟨c, rfl, hcgt⟩ := hcase
  · rw [put_old ha hcgt]
    simp [entOf]
  · rw [put_new ha hcgt]
    refine ⟨fun hkey => ?_, fun _ => by simp [entOf]⟩
    cases c with
    | nil => simp at hkey
    | cons r c => simp [entOf, (hcgt r mem_cons_self).ne'] at hkey

variable {v : Vol} {l : List (Key × Val)} {lo key : Key}

theorem row_put {crc : List Byte → UInt32} {rs : List (Key × Item 0)} (hr : Row crc v lo hi l rs)
    (hk : (key : WithTop Key) < hi) (val : Val) : Row crc v (min lo key) hi (put l key val) (put rs key val) := by
  obtain rfl : rs = l := (flat_leaf rs).symm.trans hr.contents
  obtain ⟨-, hb⟩ := chain_flat (bounded 0) hr.chain
  rw [flat_leaf] at hb
  refine row_leaf v (sorted_put (row_sorted hr) key val) (fun r hm => ?_) ?_
  · obtain rfl | hm := mem_put hm
    · exact ⟨min_le_right _ _, hk⟩
    · refine ⟨(min_le_left _ _).trans ?_, (hb r hm).2⟩
      exact WithTop.coe_le_coe.mp (hr.low.trans (hb r hm).1)
  · exact (WithTop.coe_le_coe.mpr (min_le_right lo key)).trans hk.le

variable {h : Nat} {xs ys : List (Key × Item (h + 1))} {r : Key × Item (h + 1)} {t : Item (h + 1)}

variable {k : Key} {more : List (Item (h + 1))}

theorem splice_ents {es : List Ent} (hes : es = (xs ++ [r] ++ ys).map (entOf (h + 1))) :
    es.take xs.length ++ ⟨k, [], t.1⟩ :: ((asRecs more).map (entOf (h + 1)) ++ es.drop (xs.length + 1)) =
      (xs ++ ((k, t) :: asRecs more) ++ ys).map (entOf (h + 1)) := by
  subst hes
  rw [← append_cons, map_append, take_left' (by simp), map_cons, drop_append]
  simp [entOf]

theorem splice_used {ss : List (Key × Item (h + 1))} (hn : Neat ss) (hlen : ss.length ≤ 3)
    (hused : used (h + 1) ((xs ++ [r] ++ ys).map (entOf (h + 1))) ≤ pageSize) :
    used (h + 1) ((xs ++ ss ++ ys).map (entOf (h + 1))) ≤ 7000 := by
  have hs := used_le_length (recSize_short (succ_ne_zero h) fun r hr => (hn r hr).1)
  rw [length_map] at hs
  rw [← append_cons] at hused
  have h1 := used_append (h + 1) (xs.map (entOf (h + 1))) (ys.map (entOf (h + 1)))
  have h2 := used_append (h + 1) ((xs ++ ss).map (entOf (h + 1))) (ys.map (entOf (h + 1)))
  have h3 := used_append (h + 1) (xs.map (entOf (h + 1))) (ss.map (entOf (h + 1)))
  have h4 := used_append (h + 1) (xs.map (entOf (h + 1))) ((r :: ys).map (entOf (h + 1)))
  rw [map_cons, used_cons] at h4
  simp only [map_append, map_cons] at h2 h3 h4 hused ⊢
  simp only [shortRec, pageHdrLen, pageSize, succ_eq_add_one] at *
  omega

theorem min_sep (a key : Key) : (if key < a then key else a) = min a key := by
  split
  · next h => exact (min_eq_right h.le).symm
  · next h => exact (min_eq_left (not_lt.mp h)).symm

variable {crc : List Byte → UInt32} {v' : Vol} {val : Val} {gen : UInt64}

theorem splice_row (hr : Row crc v lo hi l (xs ++ [r] ++ ys))
    (hxs : xs ≠ [] → r.1 ≤ key) (hlow : ∀ x ∈ flat (contents (h + 1)) xs, x.1 < key)
    (hhigh : ∀ x ∈ flat (contents (h + 1)) ys, key < x.1)
    (hp : Pieces crc v v' gen (min r.1 key) (next ys hi) (put (contents (h + 1) r.1 r.2) key val) [r]
      (t :: more)) : Row crc v' (min lo key) hi (put l key val) (xs ++ ((min r.1 key, t) :: asRecs more) ++ ys) ∧
      Made v (xs ++ [r] ++ ys) (xs ++ ((min r.1 key, t) :: asRecs more) ++ ys) := by
  have hsub := row_lower hp.row (WithTop.coe_le_coe.mp hp.row.low)
  have hput : put l key val = flat (contents (h + 1)) xs ++
      put (contents (h + 1) r.1 r.2) key val ++ flat (contents (h + 1)) ys := by
    rw [← put_middle hlow hhigh, ← hr.contents, flat_append, flat_append, flat_cons, flat_nil, append_nil]
  rw [hput]
  refine row_replace hp.frame hr hsub hp.made (fun hne => ?_) ?_
  · exact WithTop.coe_le_coe.mpr (le_min le_rfl (hxs hne))
  · have hlo := hr.low
    cases xs with
    | nil =>
      have hle : lo ≤ r.1 := WithTop.coe_le_coe.mp hlo
      exact WithTop.coe_le_coe.mpr (le_min ((min_le_left _ _).trans hle) (min_le_right _ _))
    | cons x xs => exact (WithTop.coe_le_coe.mpr (min_le_left lo key)).trans hlo

theorem insRec_leaf {t : Item 1} (ht : Holds crc v 1 t)
    (hc : Chain (Ok 0) t.2 hi) (key : Key) (val : Val) (gen : UInt64) (fuel : Nat) :
    maxEntries ≤ t.2.length ∧ runs (insRec crc key val gen (fuel + 1) t.1) v = (none, v) ∨
    runs (insRec crc key val gen (fuel + 1) t.1) v = runs (do
      let ps ← writePieces crc 0 gen ((put t.2 key val).map (entOf 0))
      pure (ps, 0)) v := by
  have hrun : runs (insRec crc key val gen (fuel + 1) t.1) v = _ := runs_bind _ _ v
  rw [btRead, runs_act, ht.1] at hrun
  simp only [if_true] at hrun
  obtain ⟨hold, hnew⟩ := leaf_put hc key val
  split_ifs at hrun with h1 h2
  · rw [hold h1] at hrun
    exact .inr hrun
  · exact .inl ⟨by simpa using h2, hrun⟩
  · rw [hnew h1] at hrun
    exact .inr hrun

/-- The way from an inner page down to the child of a key, between the children before and after it. -/
structure Way (crc : List Byte → UInt32) (v : Vol) (key lo : Key) (hi : WithTop Key) (l : List (Key × Val)) {h : Nat}
    (t : Item (h + 2)) (xs : List (Key × Item (h + 1))) (r : Key × Item (h + 1)) (ys : List (Key × Item (h + 1))) :
    Prop where
  split : t.2 = xs ++ [r] ++ ys
  index : childIndex (t.2.map (entOf (h + 1))) key = xs.length
  get : (t.2.map (entOf (h + 1)))[xs.length]? = some (entOf (h + 1) r)
  row : Row crc v lo hi l (xs ++ [r] ++ ys)
  made : Made v [(lo, t)] (xs ++ [r] ++ ys)
  child : Row crc v r.1 (next ys hi) (contents (h + 1) r.1 r.2) [(r.1, r.2)]
  sep : xs ≠ [] → r.1 ≤ key
  upper : (key : WithTop Key) < next ys hi
  below : ∀ x ∈ flat (contents (h + 1)) xs, x.1 < key
  above : ∀ x ∈ flat (contents (h + 1)) ys, key < x.1
  neat : Neat [(lo, t)] → Neat xs ∧ Neat [(r.1, r.2)] ∧ Neat ys ∧ 2 ≤ (xs ++ [r] ++ ys).length

theorem way_down {t : Item (h + 2)} (hr : Row crc v lo hi l [(lo, t)])
    (hk : (key : WithTop Key) < hi) : ∃ xs r ys, Way crc v key lo hi l t xs r ys := by
  obtain ⟨hbelow, hmade⟩ := row_below hr
  rw [below_single] at hbelow hmade
  have hok : Ok (h + 2) lo hi t := hr.chain.1
  obtain ⟨xs, r, ys, hrs, hidx, hxs, hhi, -, hlow, hhigh⟩ := route hok.1 hok.2.2 hk
  rw [append_cons] at hrs
  rw [hrs] at hbelow hmade
  refine ⟨xs, r, ys, hrs, hidx, by simp [hrs], hbelow, hmade, ?_, hxs, hhi, hlow, hhigh, fun hn => ?_⟩
  · have := row_mid hbelow (k := r.1) le_rfl
    simpa using this
  · have hall := neat_below hn
    have hlen := (hn _ mem_cons_self).2.2.1 (succ_ne_zero h)
    rw [below_single, hrs] at hall
    rw [hrs] at hlen
    obtain ⟨hxr, hny⟩ := neat_append.mp hall
    obtain ⟨hnx, hnr⟩ := neat_append.mp hxr
    exact ⟨hnx, hnr, hny, hlen⟩

theorem neat_min (hkey : key.length ≤ keyMax) (hr : Neat [(r.1, r.2)])
    (hts : Neat (asRecs (t :: more))) : Neat ((min r.1 key, t) :: asRecs more) := by
  intro x hx
  obtain rfl | hx := mem_cons.mp hx
  · refine ⟨?_, (hts _ mem_cons_self).2⟩
    obtain h' | h' := le_total r.1 key
    · rw [min_eq_left h']
      exact (hr _ mem_cons_self).1
    · rw [min_eq_right h']
      exact hkey
  · exact hts x (mem_cons_of_mem _ hx)

theorem insRec_row {fuel : Nat} (hfuel : fuel ≤ 2 ^ 16)
        (hr : Row crc v lo hi l [(lo, t)]) (hk : (key : WithTop Key) < hi) {ps : List Ptr} {level : Nat}
    (hrun : runs (insRec crc key val gen fuel t.1) v = (some (ps, level), v')) :
    level = h ∧ h < fuel ∧ ∃ ts : List (Item (h + 1)), ts.map fst = ps ∧
      Pieces crc v v' gen (min lo key) hi (put l key val) [(lo, t)] ts ∧
      (Neat [(lo, t)] → key.length ≤ keyMax → Neat (asRecs ts)) := by
  induction h generalizing fuel v v' lo hi l ps level with
  | zero =>
    obtain _ | fuel := fuel
    · simp [insRec] at hrun
    obtain ⟨hbelow, -⟩ := row_below hr
    rw [below_single] at hbelow
    obtain ⟨-, hnone⟩ | heq := insRec_leaf (hr.held _ mem_cons_self) hbelow.chain key val gen fuel
    · simp [hnone] at hrun
    obtain ⟨qs, v1, hwrite, hpure⟩ := bind_some.mp (heq.symm.trans hrun)
    obtain ⟨hps, rfl⟩ := mk.inj hpure
    obtain ⟨rfl, rfl⟩ := mk.inj (Option.some.inj hps)
    obtain ⟨ts, hfst, hp, hneat⟩ :=
      writePieces_row (Nat.two_pow_pos 16) (by simp [put]) (row_put hbelow hk val) hwrite
    refine ⟨rfl, succ_pos _, ts, hfst, { hp with made := ?_ }, fun hn hkey => hneat ?_ fun h => absurd rfl h⟩
    · intro p hpm
      obtain hpm | hpm := hp.made p hpm
      · obtain ⟨r, -, hpm⟩ := mem_flatMap.mp hpm
        exact absurd hpm not_mem_nil
      · exact .inr hpm
    · intro r hm
      obtain rfl | hm := mem_put hm
      · exact ⟨hkey, trivial, trivial⟩
      · exact neat_below hn r (by rw [below_single]; exact hm)
  | succ h ih =>
    obtain _ | fuel := fuel
    · simp [insRec] at hrun
    have ht := hr.held _ mem_cons_self
    obtain ⟨n, v1, hrd, hrest⟩ := bind_some.mp hrun
    rw [btRead, runs_act, ht.1] at hrd
    obtain ⟨rfl, rfl⟩ := ended hrd
    obtain ⟨xs, r, ys, hw⟩ := way_down hr hk
    simp only [succ_ne_zero, if_false, hw.index, hw.get] at hrest
    obtain ⟨⟨cs, lv⟩, v2, hrec, hrest⟩ := bind_some.mp hrest
    obtain ⟨-, hlt, ts, hfst, hp, hneat⟩ := ih (by omega) hw.child hw.upper hrec
    obtain _ | ⟨c, more⟩ := cs
    · simp at hrest
    obtain _ | ⟨t0, tm⟩ := ts
    · exact absurd rfl hp.ne
    obtain ⟨hc, rfl⟩ := List.cons.inj hfst
    subst hc
    obtain ⟨seps, v3, hsep, hrest⟩ := bind_some.mp hrest
    rw [separators_items crc (fun t' ht' => hp.row.held (minKey t', t')
      (mem_map_of_mem (mem_cons_of_mem _ ht')))
      fun t' ht' => hp.full t' (mem_cons_of_mem _ ht')] at hsep
    obtain ⟨rfl, rfl⟩ := ended hsep
    by_cases hbig : maxEntries < (t.2.map (entOf (h + 1))).length + (tm.map fst).length
    · rw [if_pos hbig] at hrest
      simp at hrest
    rw [if_neg hbig, entOf_key, min_sep, splice_ents (congrArg _ hw.split)] at hrest
    obtain ⟨qs, v4, hwrite, hpure⟩ := bind_some.mp hrest
    obtain ⟨hps, rfl⟩ := mk.inj hpure
    obtain ⟨rfl, rfl⟩ := mk.inj (Option.some.inj hps)
    obtain ⟨hrow', hmade'⟩ := splice_row hw.row hw.sep hw.below hw.above hp
    obtain ⟨us, husf, hpu, huneat⟩ := writePieces_row (by omega) (by simp) hrow' hwrite
    refine ⟨rfl, by omega, us, husf, { hpu with
      frame := frame_trans hp.frame hpu.frame
      made := made_trans (frame_refl v) hw.made (made_trans hp.frame hmade' hpu.made) }, fun hn hkey => ?_⟩
    obtain ⟨hnx, hnr, hny, hlen⟩ := hw.neat hn
    have hss := neat_min hkey hnr (hneat hnr hkey)
    refine huneat (neat_append.mpr ⟨neat_append.mpr ⟨hnx, hss⟩, hny⟩) fun _ => ⟨?_, ?_⟩
    · simp only [length_append, length_cons, length_nil] at hlen ⊢
      omega
    · have hused := holds_used crc ht
      rw [hw.split] at hused
      exact splice_used hss (by simpa [asRecs] using hp.few) hused

def Rooted (root : Ptr) {h : Nat} (rs : List (Key × Item (h + 1))) : Prop :=
  root.pba = 0 ∧ rs = [] ∨ root.pba ≠ 0 ∧ ∃ t : Item (h + 1), t.1 = root ∧ rs = [([], t)]

theorem contents_ne {t : Item h} (hok : Ok h lo hi t) : contents h lo t ≠ [] := by
  induction h generalizing lo hi with
  | zero => simp [contents]
  | succ h ih =>
    obtain ⟨hne, -, hc⟩ := hok
    obtain ⟨p, _ | ⟨r, rs⟩⟩ := t
    · exact absurd rfl hne
    · intro hnil
      exact ih hc.1 (append_eq_nil_iff.mp hnil).1

theorem rooted_nil {root : Ptr} {rs : List (Key × Item (h + 1))}
    (hroot : Rooted root rs) (hr : Row crc v [] ⊤ l rs) : root.pba = 0 ↔ l = [] := by
  obtain ⟨h0, rfl⟩ | ⟨h0, t, -, rfl⟩ := hroot
  · exact ⟨fun _ => hr.contents.symm, fun _ => h0⟩
  · refine ⟨fun h => absurd h h0, fun hnil => ?_⟩
    have hc := hr.contents
    rw [flat_cons, flat_nil, append_nil, hnil] at hc
    exact absurd hc (contents_ne hr.chain.1)

theorem nil_le_key (k : Key) : [] ≤ k := not_lt.mp (not_lt_nil k)

variable {p : Ptr} {rs : List (Key × Item h)}

theorem row_asRoot (hr : Row crc v (h := h + 1) lo hi l [(k, (p, rs))]) :
    Rooted (Ptr.asRoot p) (h := h) [([], (Ptr.asRoot p, rs))] ∧
      Row crc v (h := h + 1) [] hi l [([], (Ptr.asRoot p, rs))] := by
  have hheld := hr.held _ mem_cons_self
  refine ⟨.inr ⟨?_, _, rfl, rfl⟩, fun r hm => ?_, ⟨ok_lower hr.chain.1 (nil_le_key k), trivial⟩, le_rfl,
    hr.contents, hr.nodup⟩
  · exact (holds_pages crc hheld p.pba mem_cons_self).1
  · rw [mem_singleton.mp hm]
    exact hheld

theorem row_page (hne : rs ≠ []) (hr : Row crc v lo hi l rs) (hheld : Holds crc v' (h + 1) (p, rs))
    (hfree : v.bit p.pba = false) :
    Row crc v' (h := h + 1) lo hi l [(lo, (p, rs))] ∧ Made v (g := h + 1) rs [(lo, (p, rs))] := by
  have hw : Written crc v v' (h := h) p.gen [(p, rs)] :=
    ⟨by simpa using hheld, by simpa using hfree, by simp, by simp⟩
  have hflat : (([(p, rs)] : List (Item (h + 1))).map snd).flatten = rs := by simp
  obtain ⟨hrow, hmade⟩ := row_above (by simpa using hne) (by rwa [hflat]) hw
  rw [hflat] at hmade
  exact ⟨row_lower hrow (WithTop.coe_le_coe.mp hrow.low), hmade⟩

theorem btWrite_row (hl : h < 2 ^ 16) (hne : rs ≠ []) (hr : Row crc v lo hi l rs)
    (hrun : runs (btWrite crc h gen (rs.map (entOf h))) v = (some p, v')) :
    Frame v v' ∧ p.gen = gen ∧ Row crc v' (h := h + 1) lo hi l [(lo, (p, rs))] ∧
      Made v (g := h + 1) rs [(lo, (p, rs))] := by
  obtain ⟨hf, hheld, hfree, hgen⟩ := btWrite_item crc hl hr.held hrun
  exact ⟨hf, hgen, row_page hne hr hheld hfree⟩

theorem neat_root {q : Ptr} (hn : Neat (h := h + 1) [(k, (p, rs))]) : Neat (h := h + 1) [([], (q, rs))] := by
  intro r hm
  rw [mem_singleton.mp hm]
  exact ⟨zero_le _, (hn _ mem_cons_self).2⟩

theorem neat_page (hk : k.length ≤ keyMax)
    (hn : Neat rs) (hw : h ≠ 0 → 2 ≤ rs.length) : Neat (h := h + 1) [(k, (p, rs))] := by
  intro r hm
  rw [mem_singleton.mp hm]
  exact ⟨hk, fun x hx => ⟨(hn x hx).1, (hn x hx).2.1⟩, hw, fun x hx => (hn x hx).2.2⟩

theorem upsert_row {root root' : Ptr} {rs : List (Key × Item (h + 1))} (hroot : Rooted root rs)
    (hr : Row crc v [] ⊤ l rs) (hrun : runs (upsert crc root key val) v = (some root', v')) :
    Frame v v' ∧ root'.gen = (if root.pba = 0 then 0 else root.gen) + 1 ∧
      ∃ (h' : Nat) (rs' : List (Key × Item (h' + 1))), h' ≤ h + 1 ∧ h' < 2 ^ 16 ∧ Rooted root' rs' ∧
        Row crc v' [] ⊤ (put l key val) rs' ∧ Made v rs rs' ∧ (Neat rs → key.length ≤ keyMax → Neat rs') := by
  have htop : (key : WithTop Key) < ⊤ := WithTop.coe_lt_top key
  unfold upsert at hrun
  obtain ⟨h0, rfl⟩ | ⟨h0, t, rfl, rfl⟩ := hroot
  · simp only [h0, if_true] at hrun ⊢
    obtain ⟨p, v1, hwrite, hpure⟩ := bind_some.mp hrun
    obtain ⟨rfl, rfl⟩ := ended hpure
    obtain rfl : l = [] := hr.contents.symm
    have hleaf : Row crc v (h := 0) [] ⊤ [(key, val)] [(key, val)] :=
      row_leaf v (by simp [Sorted]) (by simpa using nil_le_key key) le_top
    obtain ⟨hf, hgen, hrow, hmade⟩ := btWrite_row (Nat.two_pow_pos 16) (by simp) hleaf hwrite
    obtain ⟨hrt, hrow'⟩ := row_asRoot hrow
    refine ⟨hf, hgen, 0, _, Nat.zero_le _, Nat.two_pow_pos 16, hrt, hrow', ?_, fun _ hkey => ?_⟩
    · intro q hq
      obtain hq | hq := hmade q hq
      · exact absurd hq not_mem_nil
      · exact .inr hq
    · refine neat_page (zero_le _) (fun x hx => ?_) fun h => absurd rfl h
      rw [mem_singleton.mp hx]
      exact ⟨hkey, trivial, trivial⟩
  · simp only [h0, if_false] at hrun ⊢
    obtain ⟨⟨ps, level⟩, v1, hins, hrest⟩ := bind_some.mp hrun
    obtain ⟨rfl, hlt, ts, rfl, hp, hneat⟩ := insRec_row (by simp [maxLevels]) hr htop hins
    have hlow : min ([] : Key) key = [] := min_eq_left (nil_le_key key)
    rw [hlow] at hp
    simp only [maxLevels] at hlt
    obtain _ | ⟨t0, _ | ⟨t1, tm⟩⟩ := ts
    · exact absurd rfl hp.ne
    · obtain ⟨rfl, rfl⟩ := ended hrest
      obtain ⟨hrt, hrow⟩ := row_asRoot hp.row
      exact ⟨hp.frame, hp.gens _ mem_cons_self, level, _, by omega, by omega, hrt, hrow, hp.made,
        fun hn hkey => neat_root (hneat hn hkey)⟩
    · obtain ⟨es, v2, hsep, hrest⟩ := bind_some.mp hrest
      have hall : ∀ t ∈ t0 :: t1 :: tm, Holds crc v1 (level + 1) t := fun t ht =>
        hp.row.held (minKey t, t) (mem_map_of_mem ht)
      have hsep' := separators_items crc hall hp.full
      obtain ⟨rfl, rfl⟩ := ended (hsep'.symm.trans hsep)
      obtain ⟨p, v3, hwrite, hpure⟩ := bind_some.mp hrest
      obtain ⟨rfl, rfl⟩ := ended hpure
      obtain ⟨hf, hgen, hrow, hmade⟩ := btWrite_row (by omega) (by simp [asRecs]) hp.row hwrite
      obtain ⟨hrt, hrow'⟩ := row_asRoot hrow
      refine ⟨frame_trans hp.frame hf, hgen, level + 1, _, le_rfl, by omega, hrt, hrow',
        made_trans hp.frame hp.made hmade, fun hn hkey => ?_⟩
      exact neat_page (zero_le _) (hneat hn hkey) fun _ => by simp [asRecs]

end InvariantFs.BtreeInsert
