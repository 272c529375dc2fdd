import Mathlib.Algebra.Order.BigOperators.Group.List
import InvariantFs.BtreeMap

namespace InvariantFs.BtreeRoom

open ByteCodec BtreePage BtreeSplit Btree SortedMap SepChain Fallible BtreeShape BtreeRead BtreeWrite Prod
open BtreeRow BtreeInsert BtreeRebalance BtreeSupply BtreeMap List Option Nat

theorem used_drop_le (level : Nat) (es : List Ent) {i j : Nat} (h : i ≤ j) :
    used level (es.drop j) ≤ used level (es.drop i) := by
  have hi := used_take_drop level es i
  have hj := used_take_drop level es j
  have hle := used_take_le level es h
  omega

variable {level : Nat} {es : List Ent}

theorem used_sublist {fs : List Ent} (h : es.Sublist fs) : used level es ≤ used level fs := by
  have := (h.map (recSize level)).sum_le_sum fun _ _ => zero_le _
  simp only [used]
  omega

theorem length_le_used (level : Nat) (es : List Ent) : pageHdrLen + 4 * es.length ≤ used level es := by
  induction es with
  | nil => exact le_rfl
  | cons e es ih =>
    have he : 4 ≤ recSize level e := by
      unfold recSize
      split_ifs <;> omega
    rw [used_cons, length_cons]
    omega

theorem shrink_fits (h1 : used level (es.take 1) ≤ pageSize) {s : Nat}
    (hs : 1 ≤ s) : 1 ≤ shrink level es s ∧ used level (es.take (shrink level es s)) ≤ pageSize := by
  induction s with
  | zero => omega
  | succ s ih =>
    rw [shrink]
    split
    · next hc => exact ih (by omega)
    · next hc =>
      refine ⟨by omega, ?_⟩
      by_cases hs : s = 0
      · rwa [hs]
      · exact not_lt.mp fun hlt => hc ⟨by omega, hlt⟩

theorem grow_ge (level : Nat) (es : List Ent) (fuel s : Nat) : s ≤ grow level es fuel s := by
  obtain h | ⟨t, h, hst, -⟩ := grow_stop level es fuel s
  · exact h.ge
  · omega

variable {fuel c : Nat}

theorem grow_fits (hc : c ≤ es.length - 1) (hfit : used level (es.drop c) ≤ pageSize) {s : Nat}
    (hf : c ≤ s + fuel) : used level (es.drop (grow level es fuel s)) ≤ pageSize := by
  induction fuel generalizing s with
  | zero => exact (used_drop_le level es (by omega : c ≤ s)).trans hfit
  | succ fuel ih =>
    rw [grow]
    split
    · exact ih (by omega)
    · next hno =>
      by_cases hs : s < es.length - 1
      · exact not_lt.mp fun hlt => hno ⟨hs, hlt⟩
      · exact (used_drop_le level es (by omega : c ≤ s)).trans hfit

theorem startPoint_pos (level : Nat) (h : 2 ≤ es.length) : 1 ≤ startPoint level es := by
  unfold startPoint
  dsimp only
  split_ifs <;> omega

theorem splitPoint_cut (h1 : 1 ≤ c) (hc : c < es.length) (hleft : used level (es.take c) ≤ pageSize)
    (hright : used level (es.drop c) ≤ pageSize) : ∃ s, splitPoint level es = some (s + 1) := by
  obtain ⟨hpos, hfit⟩ := shrink_fits ((used_take_le level es h1).trans hleft)
    (startPoint_pos level (by omega : 2 ≤ es.length))
  have hge := grow_ge level es es.length (shrink level es (startPoint level es))
  have hdrop := grow_fits (by omega : c ≤ es.length - 1) hright
    (by omega : c ≤ shrink level es (startPoint level es) + es.length)
  -- the second loop stops at the first loop's cut, or no later than at `c`
  have htake : used level (es.take (grow level es es.length (shrink level es (startPoint level es)))) ≤
      pageSize := by
    obtain he | ⟨t, he, -, ht⟩ := grow_stop level es es.length (shrink level es (startPoint level es))
    · rwa [he]
    · refine (used_take_le level es ?_).trans hleft
      by_contra hlt
      exact absurd ((used_drop_le level es (by omega : c ≤ t)).trans hright) (not_le.mpr ht)
  obtain ⟨s, hs⟩ := exists_eq_add_one.mpr (lt_of_lt_of_le hpos hge)
  refine ⟨s, ?_⟩
  rw [hs] at htake hdrop
  simp only [splitPoint, hs]
  rw [if_neg (by omega)]

theorem fitLoop_ge (fits : Nat → Bool) (fuel : Nat) {i best : Nat} (h : best ≤ i) :
    best ≤ fitLoop fits fuel i best := by
  induction fuel generalizing i best with
  | zero => exact le_rfl
  | succ fuel ih =>
    rw [fitLoop]
    split
    · exact h.trans (ih (le_succ i))
    · exact le_rfl

theorem fitLoop_reaches {fits : Nat → Bool} {i best m : Nat} (him : i ≤ m)
    (hfits : ∀ j, i ≤ j → j ≤ m → fits j = true) (hfuel : m < i + fuel) : m ≤ fitLoop fits fuel i best := by
  induction fuel generalizing i best with
  | zero => omega
  | succ fuel ih =>
    rw [fitLoop, if_pos (hfits i le_rfl him)]
    obtain rfl | hlt := him.eq_or_lt
    · exact fitLoop_ge fits fuel (le_succ i)
    · exact ih hlt (fun j hj hjm => hfits j (by omega) hjm) (by omega)

theorem fitLoop_fits (fits : Nat → Bool) (fuel i best : Nat) :
    fitLoop fits fuel i best = best ∨ fits (fitLoop fits fuel i best) = true := by
  induction fuel generalizing i best with
  | zero => exact .inl rfl
  | succ fuel ih =>
    rw [fitLoop]
    split
    · next hi =>
      obtain h | h := ih (i + 1) i
      · rw [h]
        exact .inr hi
      · exact .inr h
    · exact .inl rfl

theorem used_between {a b s i : Nat} (has : a ≤ s) (hsi : s ≤ i) (hib : i ≤ b) :
    used level ((es.drop s).take (i - s)) ≤ used level ((es.drop a).take (b - a)) := by
  apply used_sublist
  have hd : es.drop s = (es.drop a).drop (s - a) := by rw [drop_drop, Nat.add_sub_cancel' has]
  rw [hd, take_drop]
  refine (drop_sublist _ _).trans (take_sublist_take_left ?_)
  omega

theorem threePoint_cut {a b : Nat} (ha : 1 ≤ a) (hab : a < b) (hb : b < es.length)
    (h₁ : used level (es.take a) ≤ pageSize) (h₂ : used level ((es.drop a).take (b - a)) ≤ pageSize)
    (h₃ : used level (es.drop b) ≤ pageSize) : ∃ c, threePoint level es = some c := by
  have hsingle : ∀ e ∈ es, used level [e] ≤ pageSize := by
    intro e he
    rw [← take_append_drop a es, ← take_append_drop (b - a) (es.drop a), drop_drop,
      Nat.add_sub_cancel' hab.le] at he
    simp only [mem_append] at he
    obtain he | he | he := he
    · exact (used_sublist (singleton_sublist.mpr he)).trans h₁
    · exact (used_sublist (singleton_sublist.mpr he)).trans h₂
    · exact (used_sublist (singleton_sublist.mpr he)).trans h₃
  have hany : es.any (fun e => pageSize < used level [e]) = false := by simpa using hsingle
  have hs : a ≤ firstCut level es := by
    refine fitLoop_reaches ha (fun j _ hj => ?_) (by omega)
    exact decide_eq_true ((used_take_le level es hj).trans h₁)
  have hlast : firstCut level es ≤ es.length - 2 := by
    have : firstCut level es = 0 ∨ firstCut level es < 1 + (es.length - 2) := fitLoop_range _ _ _ _
    omega
  -- the second cut gets as far as `b`, and past the first cut in any case
  have ht : max (firstCut level es + 1) b ≤ secondCut level es (firstCut level es) := by
    refine fitLoop_reaches (le_max_left _ _) (fun j hj hjm => decide_eq_true ?_) (by omega)
    by_cases hjb : j ≤ b
    · exact (used_between hs (by omega) hjb).trans h₂
    · obtain rfl : j = firstCut level es + 1 := by omega
      have hlt : firstCut level es < es.length := by omega
      rw [Nat.add_sub_cancel_left, drop_eq_getElem_cons hlt, take_succ_cons, take_zero]
      exact hsingle _ (getElem_mem hlt)
  have hrest := (used_drop_le level es ((le_max_right _ _).trans ht)).trans h₃
  refine ⟨(firstCut level es, secondCut level es (firstCut level es)), ?_⟩
  rw [threePoint, if_neg (by omega), hany]
  simp only [Bool.false_eq_true, if_false]
  rw [if_neg (by omega), if_neg (by omega)]

theorem split3_around {as ms bs : List Ent} (hm : ms ≠ []) (hbig : pageSize < used level (as ++ ms ++ bs))
    (h₁ : used level as ≤ pageSize) (h₂ : used level ms ≤ pageSize) (h₃ : used level bs ≤ pageSize) :
    ∃ ps, split3 level (as ++ ms ++ bs) = some ps := by
  have hpos : 0 < ms.length := length_pos_iff.mpr hm
  have htwo : (∃ s, splitPoint level (as ++ ms ++ bs) = some (s + 1)) →
      ∃ ps, split3 level (as ++ ms ++ bs) = some ps := by
    rintro ⟨s, hs⟩
    unfold split3
    rw [hs]
    exact ⟨_, rfl⟩
  by_cases ha : as = []
  · subst ha
    have hb : bs ≠ [] := by
      rintro rfl
      rw [nil_append, append_nil] at hbig
      omega
    have hblen := length_pos_iff.mpr hb
    refine htwo (splitPoint_cut hpos ?_ ?_ ?_)
    · simpa using hblen
    · simpa using h₂
    · simpa using h₃
  · have halen := length_pos_iff.mpr ha
    by_cases hb : bs = []
    · subst hb
      refine htwo (splitPoint_cut halen ?_ ?_ ?_)
      · simpa using hpos
      · simpa using h₁
      · simpa using h₂
    · have hblen := length_pos_iff.mpr hb
      have hend : as.length + ms.length < (as ++ ms ++ bs).length := by simpa using hblen
      obtain ⟨c, hc⟩ := threePoint_cut halen (by omega) hend (by simpa using h₁) (by simpa using h₂)
        (by simpa using h₃)
      unfold split3
      rw [hc]
      split
      · exact ⟨_, rfl⟩
      · exact ⟨_, rfl⟩

theorem split3_fits {ps : List (List Ent)} (h : split3 level es = some ps) : ∀ p ∈ ps, used level p ≤ pageSize := by
  unfold split3 at h
  split at h
  · next s hs =>
    obtain rfl := some.inj h
    simp only [splitPoint, ite_none_left_eq_some, some.injEq] at hs
    rw [hs.2] at hs
    simpa using ⟨not_lt.mp fun h => hs.1 (.inl h), not_lt.mp fun h => hs.1 (.inr h)⟩
  · obtain ⟨⟨s, t⟩, hc, rfl⟩ := map_eq_some_iff.mp h
    simp only [threePoint, ite_none_left_eq_some, some.injEq] at hc
    obtain ⟨-, -, h1, ht, rfl, rfl⟩ := hc
    have hfirst : firstCut level es = 0 ∨ decide (used level (es.take (firstCut level es)) ≤ pageSize) = true :=
      fitLoop_fits _ _ _ _
    have hsecond : secondCut level es (firstCut level es) = firstCut level es ∨
        decide (used level ((es.drop (firstCut level es)).take
          (secondCut level es (firstCut level es) - firstCut level es)) ≤ pageSize) = true :=
      fitLoop_fits _ _ _ _
    rw [decide_eq_true_iff] at hfirst hsecond
    simpa using ⟨by omega, by omega, by omega⟩

variable {n : Nat} {v : Vol}

theorem ample_le {m : Nat} (ha : Ample m v) (h : n ≤ m) : Ample n v := by
  obtain ⟨ts, rest, hsup, hlen, hnd, hgood⟩ := ha
  refine ⟨ts.take n, ts.drop n ++ rest, ?_, ?_, ?_, fun t ht => hgood t (mem_of_mem_take ht)⟩
  · rw [hsup, ← append_assoc, take_append_drop]
  · rw [length_take]
    omega
  · rw [map_take]
    exact hnd.sublist (take_sublist _ _)

variable {crc : List Byte → UInt32} {h : Nat} {rs : List (Key × Item h)}

theorem fits_held (hheld : ∀ r ∈ rs, Holds crc v h r.2)
    (hsub : ∀ e ∈ es, e ∈ rs.map (entOf h)) (hused : used h es ≤ pageSize) : Fits h es := by
  refine ⟨?_, hused, fun h0 e he => ?_⟩
  · have := length_le_used h es
    simp only [pageSize, maxEntries] at *
    omega
  · obtain ⟨r, hr, rfl⟩ := mem_map.mp (hsub e he)
    obtain _ | h := h
    · exact absurd rfl h0
    · exact (holds_pages crc (hheld r hr) _ mem_cons_self).1

theorem writePieces_succeeds (hheld : ∀ r ∈ rs, Holds crc v h r.2) (gen : UInt64)
    (hcut : pageSize < used h (rs.map (entOf h)) → ∃ ps, split3 h (rs.map (entOf h)) = some ps)
    (ha : Ample (3 + n) v) :
    ∃ qs v', runs (writePieces crc h gen (rs.map (entOf h))) v = (some qs, v') ∧ Ample n v' := by
  by_cases hfit : used h (rs.map (entOf h)) ≤ pageSize
  · rw [writePieces, if_pos hfit]
    exact writeAll_ample crc gen (ample_le ha (by simp)) (by simpa using fits_held hheld (fun _ he => he) hfit)
  · obtain ⟨ps, hps⟩ := hcut (not_le.mp hfit)
    obtain ⟨hflat, -⟩ := split3_pieces hps
    have hlen := split3_length hps
    obtain ⟨qs, v', hrun, -, ha'⟩ := writePieces_ample crc gen h _ ps (not_le.mp hfit) hps
      (ample_le ha (by omega : ps.length + n ≤ 3 + n)) fun es hes => fits_held hheld
        (fun e he => hflat ▸ mem_flatten.mpr ⟨es, hes, he⟩) (split3_fits hps es hes)
    exact ⟨qs, v', hrun, ha'⟩

variable {hi : WithTop Key}

theorem put_stretches {t : Item 1} (ht : Holds crc v 1 t) (hc : Chain (Ok 0) t.2 hi) (key : Key) (val : Val) :
    ∃ a b : List (Key × Item 0), put t.2 key val = a ++ [(key, val)] ++ b ∧
      used 0 (a.map (entOf 0)) ≤ pageSize ∧ used 0 (b.map (entOf 0)) ≤ pageSize := by
  have hused := holds_used crc ht
  obtain ⟨a, -, ha, hcase⟩ := locate hc key
  obtain ⟨w, c, heq, hcgt⟩ | ⟨c, heq, hcgt⟩ := hcase
  · rw [heq] at hused ⊢
    refine ⟨a, c, by rw [put_old ha hcgt, append_assoc]; rfl, ?_, ?_⟩
    · exact (used_sublist ((sublist_append_left _ _).map _)).trans hused
    · refine (used_sublist (List.Sublist.map _ ?_)).trans hused
      exact (sublist_cons_self _ _).trans (sublist_append_right _ _)
  · rw [heq] at hused ⊢
    refine ⟨a, c, by rw [put_new ha hcgt, append_assoc]; rfl, ?_, ?_⟩
    · exact (used_sublist ((sublist_append_left _ _).map _)).trans hused
    · exact (used_sublist ((sublist_append_right _ _).map _)).trans hused

variable {t : Item (h + 1)} {lo : Key} {l : List (Key × Val)}

theorem insRec_succeeds {key : Key} {val : Val} (hkey : key.length ≤ keyMax)
    (hrec : used 0 [⟨key, val, .null⟩] ≤ pageSize) (gen : UInt64) (hfuel : fuel ≤ 2 ^ 16)
        (hr : Row crc v lo hi l [(lo, t)]) (hneat : Neat [(lo, t)]) (hk : (key : WithTop Key) < hi)
    (hlt : h < fuel) (ha : Ample (3 * (h + 1) + n) v) :
    ∃ r v', runs (insRec crc key val gen fuel t.1) v = (some r, v') ∧ Ample n v' := by
  induction h generalizing fuel n v lo hi l with
  | zero =>
    obtain _ | fuel := fuel
    · omega
    obtain ⟨hbelow, -⟩ := row_below hr
    rw [below_single] at hbelow
    have ht := hr.held _ mem_cons_self
    obtain ⟨hfull, -⟩ | heq := insRec_leaf ht hbelow.chain key val gen fuel
    · have h₁ := length_le_used 0 (t.2.map (entOf 0))
      have h2 := holds_used crc ht
      simp only [length_map, maxEntries, pageHdrLen, pageSize] at *
      omega
    obtain ⟨a, b, hput, h₁, h3⟩ := put_stretches ht hbelow.chain key val
    obtain ⟨qs, v', hrun, ha'⟩ := writePieces_succeeds (fun r (_ : r ∈ put t.2 key val) => trivial) gen
      (fun hbig => by
        rw [hput, map_append, map_append] at hbig ⊢
        exact split3_around (by simp) hbig h₁ hrec h3) ha
    exact ⟨(qs, 0), v', heq.trans (bind_some.mpr ⟨qs, v', hrun, rfl⟩), ha'⟩
  | succ h ih =>
    obtain _ | fuel := fuel
    · omega
    have ht := hr.held _ mem_cons_self
    obtain ⟨xs, r, ys, hw⟩ := way_down hr hk
    obtain ⟨hnx, hnr, hny, -⟩ := hw.neat hneat
    obtain ⟨⟨cs, lv⟩, v2, hrun, ha2⟩ := ih (n := 3 + n) (by omega : fuel ≤ 2 ^ 16) hw.child hnr hw.upper
      (by omega) (ample_le ha (by omega))
    obtain ⟨rfl, -, ts, hfst, hp, hneats⟩ := insRec_row (by omega : fuel ≤ 2 ^ 16) hw.child hw.upper hrun
    obtain _ | ⟨t0, tm⟩ := ts
    · exact absurd rfl hp.ne
    obtain rfl : t0.1 :: tm.map fst = cs := hfst
    have hss := neat_min hkey hnr (hneats hnr hkey)
    obtain ⟨hrow', -⟩ := splice_row hw.row hw.sep hw.below hw.above hp
    have hused := holds_used crc ht
    have hfew : ((min r.1 key, t0) :: asRecs tm).length ≤ 3 := by simpa [asRecs] using hp.few
    have hbound := splice_used hss hfew (by rwa [hw.split] at hused)
    obtain ⟨qs, v3, hwrite, ha3⟩ := writePieces_succeeds hrow'.held gen (fun hbig => by
      obtain ⟨s, hs⟩ := splitPoint_exists (recSize_short (succ_ne_zero lv) fun x hx =>
        (neat_append.mpr ⟨neat_append.mpr ⟨hnx, hss⟩, hny⟩ x hx).1) hbig hbound
      obtain ⟨h1, -⟩ := splitPoint_two (recSize_short (succ_ne_zero lv) fun x hx =>
        (neat_append.mpr ⟨neat_append.mpr ⟨hnx, hss⟩, hny⟩ x hx).1) hbig hs
      obtain ⟨s, rfl⟩ := Nat.exists_eq_add_one.mpr (Nat.lt_of_lt_of_le Nat.zero_lt_two h1)
      exact ⟨_, by rw [split3, hs]⟩) ha2
    refine ⟨(qs, lv + 1), v3, ?_, ha3⟩
    refine bind_some.mpr ⟨_, v, btRead_held (r := (lo, t)) ht, ?_⟩
    simp only [hw.index, hw.get]
    refine bind_some.mpr ⟨_, v2, hrun, bind_some.mpr ⟨_, v2, separators_items crc (fun t' ht' =>
      hp.row.held (minKey t', t') (mem_map_of_mem (mem_cons_of_mem _ ht')))
      fun t' ht' => hp.full t' (mem_cons_of_mem _ ht'), ?_⟩⟩
    have hcount : ¬ maxEntries < (t.2.map (entOf (lv + 1))).length + (tm.map fst).length := by
      have hlen := length_le_used (lv + 1) (t.2.map (entOf (lv + 1)))
      simp only [asRecs, length_cons, length_map, maxEntries, pageHdrLen, pageSize] at *
      omega
    rw [if_neg hcount, entOf_key, min_sep, splice_ents (congrArg _ hw.split)]
    exact bind_some.mpr ⟨qs, v3, hwrite, rfl⟩

theorem nodup_blocks {l : List UInt64} (h : l.Nodup) : l.length ≤ 2 ^ 64 := by
  have hinj : Function.Injective UInt64.toFin := fun a b hab => UInt64.toFin_inj.mp hab
  have := (h.map hinj).length_le_card
  rwa [length_map, Fintype.card_fin] at this

theorem row_height (hr : Row crc v [] ⊤ l [([], t)]) (hw : Wide (h + 1) t) : h ≤ 64 := by
  have hle := (wide_most hr.chain.1 hw).2.trans (nodup_blocks (rowPages_single [] t ▸ hr.nodup))
  exact (Nat.pow_le_pow_iff_right Nat.one_lt_two).mp hle

theorem plant (parts : List (List (Key × Item 0))) (hne : parts ≠ []) (hfull : ∀ p ∈ parts, p ≠ [])
    (hs : Sorted parts.flatten) (hfit : ∀ p ∈ parts, used 0 (p.map (entOf 0)) ≤ pageSize)
    (hroot : pageHdrLen + (parts.map fun p => 26 + ((p.head?.map fst).getD []).length).sum ≤ pageSize)
    (ha : Ample (parts.length + (n + 1)) v) :
    ∃ (root : Ptr) (ts : List (Item 1)) (v' : Vol), ts.map snd = parts ∧ root.pba ≠ 0 ∧
      Row crc v' (h := 2) [] ⊤ parts.flatten [([], (root, asRecs ts))] ∧ Ample n v' := by
  have hleaf : Row crc v (h := 0) [] ⊤ parts.flatten parts.flatten :=
    row_leaf v hs (fun r _ => ⟨nil_le_key r.1, WithTop.coe_lt_top r.1⟩) le_top
  have hheld : ∀ p ∈ parts, ∀ r ∈ p, Holds crc v 0 r.2 := fun _ _ _ _ => trivial
  have hfits : ∀ es ∈ parts.map (List.map (entOf 0)), Fits 0 es := by
    intro es hes
    obtain ⟨p, hp, rfl⟩ := mem_map.mp hes
    exact fits_held (hheld p hp) (fun _ he => he) (hfit p hp)
  obtain ⟨qs, v1, hall, ha1⟩ := writeAll_ample crc 1 (by rwa [length_map]) hfits
  obtain ⟨-, ts, -, hsnd, hw⟩ := writeAll_items crc (Nat.two_pow_pos 16) parts hheld hall
  have hfull' : ∀ t ∈ ts, t.2 ≠ [] := fun t ht => hfull _ (hsnd ▸ mem_map_of_mem ht)
  obtain ⟨hrow, -⟩ := row_above hfull' (by rwa [hsnd]) hw
  have hused : used 1 ((asRecs ts).map (entOf 1)) ≤ pageSize := by
    rw [← hsnd, List.map_map] at hroot
    rw [used, asRecs, List.map_map, List.map_map]
    refine le_trans (le_of_eq ?_) hroot
    congr 3
    funext t
    change 2 + (minKey t).length + 24 = 26 + (minKey t).length
    omega
  have hcons : asRecs ts ≠ [] := by
    rintro hnil
    obtain rfl := map_eq_nil_iff.mp hnil
    exact hne hsnd.symm
  obtain ⟨p, v', hwrite, ha'⟩ := btWrite_ample crc ha1 1 (fits_held hrow.held (fun _ he => he) hused)
  obtain ⟨-, -, hrow', -⟩ := btWrite_row (by decide) hcons hrow hwrite
  obtain ⟨-, htop⟩ := row_asRoot hrow'
  refine ⟨Ptr.asRoot p, ts, v', hsnd, ?_, htop, ha'⟩
  exact (holds_pages crc (hrow'.held _ mem_cons_self) p.pba mem_cons_self).1

def roomVol : Vol where
  total := 64
  bit := fun _ => false
  bmLo := 1
  bmHi := 0
  dev := ⟨fun _ => [], []⟩
  supply := [1, 2, 3, 4, 5, 6, 7, 8, 9, 10, 11, 12, 13, 14, 15, 16, 17, 18, 19, 20, 21, 22, 23, 24].map
    fun b => ⟨b, true, true⟩

theorem ample_roomVol : Ample 24 roomVol := ⟨roomVol.supply, [], (append_nil _).symm, rfl, by decide, by decide⟩

def zeros (n : Nat) : List Byte := replicate n 0

theorem zeros_length (n : Nat) : (zeros n).length = n := length_replicate

def padded (i : Byte) : Key := i :: zeros 271

theorem padded_length (i : Byte) : (padded i).length = 272 := by
  rw [padded, length_cons, zeros_length]

theorem padded_lt {i j : Byte} (h : i < j) : padded i < padded j := cons_lt_cons_iff.mpr (.inl h)

/-- The records of fourteen leaves: a short key and a long one with a large value on the first, one
long key on each of the others. -/
def padLeaves : List (List (Key × Item 0)) :=
  [([0], []), (padded 1, zeros 1800)] ::
    [2, 3, 4, 5, 6, 7, 8, 9, 10, 11, 12, 13, 14].map fun i => [(padded i, [])]

theorem padLeaves_sorted : Sorted padLeaves.flatten := by
  have hpad : ∀ js : List Byte, (0 :: 1 :: js).Pairwise (· < ·) →
      Sorted ((([0], []) : Key × Item 0) :: (padded 1, zeros 1800) :: js.map fun i => (padded i, [])) := by
    intro js hjs
    obtain ⟨h0, hjs⟩ := pairwise_cons.mp hjs
    obtain ⟨h1, hjs⟩ := pairwise_cons.mp hjs
    refine pairwise_cons.mpr ⟨fun r hr => ?_, pairwise_cons.mpr ⟨fun r hr => ?_, ?_⟩⟩
    · obtain rfl | hr := mem_cons.mp hr
      · exact cons_lt_cons_iff.mpr (.inl (by decide))
      · obtain ⟨j, hj, rfl⟩ := mem_map.mp hr
        exact cons_lt_cons_iff.mpr (.inl (h0 j (mem_cons_of_mem _ hj)))
    · obtain ⟨j, hj, rfl⟩ := mem_map.mp hr
      exact padded_lt (h1 j hj)
    · exact pairwise_map.mpr (hjs.imp padded_lt)
  exact hpad [2, 3, 4, 5, 6, 7, 8, 9, 10, 11, 12, 13, 14] (by decide)

theorem plant_padded (crc : List Byte → UInt32) : ∃ (root : Ptr) (ts : List (Item 1)) (v : Vol),
    ts.map snd = padLeaves ∧ root.pba ≠ 0 ∧
      Row crc v (h := 2) [] ⊤ padLeaves.flatten [([], (root, asRecs ts))] ∧ Ample 9 v := by
  refine plant padLeaves (by simp [padLeaves]) (by simp [padLeaves]) padLeaves_sorted ?_ ?_ ample_roomVol
  · simp [padLeaves, used, recSize, entOf, padded_length, zeros_length, pageHdrLen, pageSize]
  · simp [padLeaves, padded_length, pageHdrLen, pageSize]

/-- In a tree the check accepts, with keys no longer than `BT_QUARANTINE_KEY_MAX`, every such record that fits a
page goes in when three pages for every level and one for a new root can be written. -/
theorem upsert_succeeds {root : Ptr} {key : Key} {val : Val} {v : Vol} {ck : Ck}
    (hck : check crc v root = .ok ck) (hkeys : KeysWithin crc v keyMax (maxLevels + 1) root)
    (hkey : key.length ≤ keyMax) (hrec : used 0 [⟨key, val, .null⟩] ≤ pageSize)
    (ha : Ample (3 * ck.height + 1) v) : ∃ root' v', runs (upsert crc root key val) v = (some root', v') := by
  obtain ⟨h, rs, m, hroot, hr, hwide, hheight, -, -⟩ := check_row hck
  unfold upsert
  obtain ⟨h0, rfl⟩ | ⟨h0, t, rfl, rfl⟩ := hroot
  · have hleaf : Row crc v (h := 0) [] ⊤ [(key, val)] [(key, val)] :=
      row_leaf v (by simp [Sorted]) (by simpa using nil_le_key key) le_top
    have hone : Fits 0 [⟨key, val, .null⟩] := fits_held hleaf.held (fun _ he => he) hrec
    obtain ⟨p, v', hrun, -⟩ := btWrite_ample crc (ample_le ha (by omega : 0 + 1 ≤ _)) (0 + 1) hone
    simp only [h0, if_true]
    exact ⟨Ptr.asRoot p, v', bind_some.mpr ⟨p, v', hrun, rfl⟩⟩
  · have hw := hwide _ mem_cons_self
    have hle := row_height hr hw
    have hn : Neat [([], t)] := by
      intro x hx
      obtain rfl := mem_singleton.mp hx
      refine ⟨zero_le _, short_of_keysWithin (hr.held _ hx) le_rfl ?_ hkeys, hw⟩
      simp only [maxLevels]
      omega
    have htop : (key : WithTop Key) < ⊤ := WithTop.coe_lt_top key
    rw [hheight (by simp)] at ha
    obtain ⟨⟨ps, level⟩, v1, hins, ha1⟩ := insRec_succeeds hkey hrec (t.1.gen + 1)
      (by simp [maxLevels] : maxLevels ≤ 2 ^ 16) hr hn htop (by simp only [maxLevels]; omega) ha
    obtain ⟨rfl, -, ts, rfl, hp, hneat⟩ := insRec_row (by simp [maxLevels]) hr htop hins
    simp only [h0]
    obtain _ | ⟨t0, _ | ⟨t1, tm⟩⟩ := ts
    · exact absurd rfl hp.ne
    · exact ⟨_, v1, bind_some.mpr ⟨_, v1, hins, rfl⟩⟩
    · have hall : ∀ t ∈ t0 :: t1 :: tm, Holds crc v1 (level + 1) t := fun t ht =>
        hp.row.held (minKey t, t) (mem_map_of_mem ht)
      -- three short separators fit a page
      have hused := used_le_length (recSize_short (succ_ne_zero level) fun x hx => (hneat hn hkey x hx).1)
      have hlen : ((asRecs (t0 :: t1 :: tm)).map (entOf (level + 1))).length ≤ 3 := by
        simpa [asRecs] using hp.few
      have hfit := hused.trans (Nat.add_le_add_left (Nat.mul_le_mul_left shortRec hlen) pageHdrLen)
      obtain ⟨p, v2, hwrite, -⟩ := btWrite_ample crc ha1 (t.1.gen + 1)
        (fits_held hp.row.held (fun _ he => he) (hfit.trans (by decide)))
      exact ⟨Ptr.asRoot p, v2, bind_some.mpr ⟨_, v1, hins, bind_some.mpr ⟨_, v1,
        separators_items crc hall hp.full, bind_some.mpr ⟨p, v2, hwrite, rfl⟩⟩⟩⟩

theorem keysWithin_of_short (ht : Holds crc v (h + 1) t)
    (hs : Short (h + 1) t) (fuel : Nat) : KeysWithin crc v keyMax fuel t.1 := by
  induction fuel generalizing h with
  | zero => trivial
  | succ fuel ih =>
    intro level es hread e he
    obtain ⟨rfl, rfl⟩ := mk.inj (some.inj (ht.1.symm.trans hread))
    obtain ⟨r, hr, rfl⟩ := mem_map.mp he
    rw [entOf_key]
    refine ⟨(hs r hr).1, fun h0 => ?_⟩
    obtain _ | h := h
    · exact absurd rfl h0
    · exact ih (ht.2 r hr) (hs r hr).2

variable {root : Ptr} {ts : List (Item 1)}

theorem short_planted (h : ∀ p ∈ ts.map snd, ∀ r ∈ p, r.1.length ≤ keyMax) : Short 2 (root, asRecs ts) := by
  intro r hr
  obtain ⟨t, ht, rfl⟩ := mem_map.mp hr
  have hkeys := h _ (mem_map_of_mem ht)
  refine ⟨?_, fun x hx => ⟨hkeys x hx, trivial⟩⟩
  unfold minKey
  obtain ⟨p, _ | ⟨x, rs⟩⟩ := t
  · exact zero_le _
  · exact hkeys x mem_cons_self

theorem planted_check {parts : List (List (Key × Item 0))} (hts : ts.map snd = parts) (hlen : 2 ≤ parts.length)
    (hshort : ∀ p ∈ parts, ∀ r ∈ p, r.1.length ≤ keyMax) (h0 : root.pba ≠ 0)
    (hr : Row crc v (h := 2) [] ⊤ parts.flatten [([], (root, asRecs ts))]) :
    ∃ ck, check crc v root = .ok ck ∧ ck.height ≤ 2 ∧ ∀ fuel, KeysWithin crc v keyMax fuel root := by
  have hwide : Wide 2 (root, asRecs ts) := by
    refine ⟨fun _ => ?_, fun r _ => ⟨fun h => absurd rfl h, fun _ _ => trivial⟩⟩
    have := congrArg List.length hts
    simp only [asRecs, length_map] at this ⊢
    rw [this]
    exact hlen
  obtain ⟨ck, hck, hle⟩ := row_check (by decide) (Or.inr ⟨h0, (root, asRecs ts), rfl, rfl⟩) hr
    (by simpa using hwide)
  refine ⟨ck, hck, hle, fun fuel => keysWithin_of_short (hr.held _ mem_cons_self) (short_planted ?_) fuel⟩
  rwa [hts]

theorem padded_check (hts : ts.map snd = padLeaves)
    (h0 : root.pba ≠ 0) (hr : Row crc v (h := 2) [] ⊤ padLeaves.flatten [([], (root, asRecs ts))]) :
    ∃ ck, check crc v root = .ok ck ∧ ck.height ≤ 2 ∧ ∀ fuel, KeysWithin crc v keyMax fuel root := by
  refine planted_check hts (by decide) ?_ h0 hr
  simp only [padLeaves, forall_mem_cons, List.forall_mem_map, padded_length, keyMax]
  simp

/-- The tree over the fourteen leaves takes another record. -/
theorem upsert_succeeds_padded : ∃ (v : Vol) (root : Ptr) (ck : Ck), root.pba ≠ 0 ∧
    check crc32c v root = .ok ck ∧ KeysWithin crc32c v keyMax (maxLevels + 1) root ∧ Ample (3 * ck.height + 1) v ∧
    ∃ root' v', runs (upsert crc32c root (padded 20) (zeros 3800)) v = (some root', v') := by
  obtain ⟨root, ts, v, hts, h0, hr, ha⟩ := plant_padded crc32c
  obtain ⟨ck, hck, hle, hkeys⟩ := padded_check hts h0 hr
  have ha' := ample_le ha (by omega : 3 * ck.height + 1 ≤ 9)
  refine ⟨v, root, ck, h0, hck, hkeys _, ha', upsert_succeeds hck (hkeys _) (padded_length 20).le ?_ ha'⟩
  simp [used, recSize, padded_length, zeros_length, pageHdrLen, pageSize]

theorem split3_leaf {e f g : Ent} (he : recSize level e = 5) (hf : recSize level f = 4076)
    (hg : recSize level g = 3978) : split3 level [e, f, g] = some [[e], [f], [g]] := by
  simp [split3, splitPoint, startPoint, halfPoint, shrink, grow, threePoint, firstCut, secondCut, fitLoop, used,
    pageSize, pageHdrLen, he, hf, hg]

theorem split3_stuck {d e f g i : Ent} (hd : recSize level d = 3773) (he : recSize level e = 27)
    (hf : recSize level f = 298) (hg : recSize level g = 4000) (hi : recSize level i = 276) :
    split3 level [d, e, f, g, i] = none := by
  simp [split3, splitPoint, startPoint, halfPoint, shrink, grow, threePoint, firstCut, secondCut, fitLoop, used,
    pageSize, pageHdrLen, hd, he, hf, hg, hi]

/-- The records of three leaves; the separators are as long as they can be, and the root is full. -/
def stuckLeaves : List (List (Key × Item 0)) :=
  [[(zeros 3747, [])], [([1], []), (2 :: zeros 3973, [])], [(3 :: zeros 249, [])]]

theorem zeros_lt {i : Byte} {k : Key} (h : 0 < i) : zeros n < i :: k := by
  cases n with
  | zero => exact nil_lt_cons _ _
  | succ n => exact cons_lt_cons_iff.mpr (.inl h)

theorem stuckLeaves_sorted : Sorted stuckLeaves.flatten := by
  have h12 : ([1] : Key) < 2 :: zeros 3973 := cons_lt_cons_iff.mpr (.inl (by decide))
  have h13 : ([1] : Key) < 3 :: zeros 249 := cons_lt_cons_iff.mpr (.inl (by decide))
  have h23 : (2 : Byte) :: zeros 3973 < 3 :: zeros 249 := cons_lt_cons_iff.mpr (.inl (by decide))
  have h0 : ∀ i k, (0 : Byte) < i → zeros 3747 < i :: k := fun i k => zeros_lt
  refine pairwise_cons.mpr ⟨fun r hr => ?_, ?_⟩
  · change r ∈ [([1], []), (2 :: zeros 3973, []), (3 :: zeros 249, [])] at hr
    simp only [mem_cons, not_mem_nil, or_false] at hr
    obtain rfl | rfl | rfl := hr <;> exact h0 _ _ (by decide)
  · simp [h12, h13, h23]

theorem plant_stuck (crc : List Byte → UInt32) : ∃ (root : Ptr) (ts : List (Item 1)) (v : Vol),
    ts.map snd = stuckLeaves ∧ root.pba ≠ 0 ∧
      Row crc v (h := 2) [] ⊤ stuckLeaves.flatten [([], (root, asRecs ts))] ∧ Ample 20 v := by
  refine plant stuckLeaves (by simp [stuckLeaves]) (by simp [stuckLeaves]) stuckLeaves_sorted ?_ ?_ ample_roomVol
  · simp [stuckLeaves, used, recSize, entOf, zeros_length, pageHdrLen, pageSize]
  · simp [stuckLeaves, zeros_length, pageHdrLen, pageSize]

theorem insRec_apart (ha : Ample (3 + n) v) {t : Item 1} (ht : t.2 = [([1], []), (2 :: zeros 3973, [])])
    (hr : Row crc v lo hi [([1], []), (2 :: zeros 3973, [])] [(lo, t)]) (gen : UInt64) (fuel : Nat) :
    ∃ (P Q R : Item 1) (v' : Vol), P.2 = [([1], [])] ∧ Q.2 = [(padded 1, zeros 3800)] ∧
      R.2 = [(2 :: zeros 3973, [])] ∧ (∀ t ∈ [P, Q, R], Holds crc v' 1 t) ∧
      runs (insRec crc (padded 1) (zeros 3800) gen (fuel + 1) t.1) v = (some ([P.1, Q.1, R.1], 0), v') := by
  obtain ⟨hb, -⟩ := row_below hr
  rw [below_single] at hb
  have h12 : ([1] : Key) < padded 1 := cons_lt_cons_iff.mpr (.inr ⟨rfl, nil_lt_cons _ _⟩)
  have h23 : padded 1 < 2 :: zeros 3973 := cons_lt_cons_iff.mpr (.inl (by decide))
  have hput : put t.2 (padded 1) (zeros 3800) = [([1], []), (padded 1, zeros 3800), (2 :: zeros 3973, [])] := by
    rw [ht]
    exact put_new (a := [([1], [])]) (c := [(2 :: zeros 3973, [])]) (by simpa using h12) (by simpa using h23)
  have h1 : recSize 0 (entOf 0 ([1], [])) = 5 := rfl
  have h2 : recSize 0 (entOf 0 (padded 1, zeros 3800)) = 4076 := by simp [recSize, entOf, padded_length, zeros_length]
  have h3 : recSize 0 (entOf 0 (2 :: zeros 3973, [])) = 3978 := by simp [recSize, entOf, zeros_length]
  obtain ⟨hfull, -⟩ | heq := insRec_leaf (hr.held _ mem_cons_self) hb.chain (padded 1) (zeros 3800) gen fuel
  · simp [ht, maxEntries] at hfull
  rw [hput] at heq
  have hsplit := split3_leaf h1 h2 h3
  obtain ⟨qs, v', hpieces, hall, -⟩ := writePieces_ample crc gen 0
    ([([1], []), (padded 1, zeros 3800), (2 :: zeros 3973, [])].map (entOf 0))
    ([[([1], [])], [(padded 1, zeros 3800)], [(2 :: zeros 3973, [])]].map (List.map (entOf 0)))
    (by simp [used, h1, h2, h3, pageSize, pageHdrLen]) hsplit ha (fun es hes =>
      ⟨by
        simp only [map_cons, map_nil, mem_cons, not_mem_nil, or_false] at hes
        obtain rfl | rfl | rfl := hes <;> simp [maxEntries],
      split3_fits hsplit es hes, fun h => absurd rfl h⟩)
  obtain ⟨-, ts, rfl, hsnd, hw⟩ := writeAll_items crc (Nat.two_pow_pos 16) _ (fun _ _ _ _ => trivial) hall
  obtain ⟨P, ts, rfl, hP, hts⟩ := map_eq_cons_iff.mp hsnd
  obtain ⟨Q, ts, rfl, hQ, hts⟩ := map_eq_cons_iff.mp hts
  obtain ⟨R, ts, rfl, hR, hnil⟩ := map_eq_cons_iff.mp hts
  obtain rfl := map_eq_nil_iff.mp hnil
  exact ⟨P, Q, R, v', hP, hQ, hR, hw.holds, heq.trans (bind_some.mpr ⟨_, _, hpieces, rfl⟩)⟩

/-- A tree with long separators is accepted, and an insertion into it fails for want of a cut although
its key is short, its record fits a page, and every page could be written. -/
theorem long_separators_stuck : ∃ (v v' : Vol) (root : Ptr) (ck : Ck), check crc32c v root = .ok ck ∧
    (padded 1).length ≤ keyMax ∧ used 0 [⟨padded 1, zeros 3800, .null⟩] ≤ pageSize ∧
    Ample (3 * ck.height + 1) v ∧ runs (upsert crc32c root (padded 1) (zeros 3800)) v = (none, v') := by
  obtain ⟨root, ts, v, hts, h0, hr, ha⟩ := plant_stuck crc32c
  obtain ⟨A, ts, rfl, hA, hts⟩ := map_eq_cons_iff.mp hts
  obtain ⟨B, ts, rfl, hB, hts⟩ := map_eq_cons_iff.mp hts
  obtain ⟨C, ts, rfl, hC, hnil⟩ := map_eq_cons_iff.mp hts
  obtain rfl := map_eq_nil_iff.mp hnil
  have hrecs : asRecs [A, B, C] = [(zeros 3747, A), ([1], B), (3 :: zeros 249, C)] := by
    simp [asRecs, minKey, hA, hB, hC]
  rw [hrecs] at hr
  obtain ⟨ck, hck, hle⟩ := row_check (by decide : 1 < 2 ^ 16) (.inr ⟨h0, _, rfl, rfl⟩) hr (by simp [Wide])
  obtain ⟨hb, -⟩ := row_below hr
  rw [below_single] at hb
  have hrow : Row crc32c v (h := 1) [] ⊤ _ ([(zeros 3747, A)] ++ [([1], B)] ++ [(3 :: zeros 249, C)]) := hb
  have hsub := row_mid hrow (k := [1]) le_rfl
  have hcB : flat (contents 1) [([1], B)] = [([1], []), (2 :: zeros 3973, [])] := by
    rw [flat_cons, flat_nil, append_nil]
    exact (flat_leaf B.2).trans hB
  rw [hcB] at hsub
  have hlow : ([1] : Key) < padded 1 := cons_lt_cons_iff.mpr (.inr ⟨rfl, nil_lt_cons _ _⟩)
  have hhigh : padded 1 < 3 :: zeros 249 := cons_lt_cons_iff.mpr (.inl (by decide))
  obtain ⟨P, Q, R, v1, hP, hQ, hR, hheld, hins⟩ := insRec_apart (n := 17) ha hB hsub (root.gen + 1) 65533
  have hidx : childIndex ([(zeros 3747, A), ([1], B), (3 :: zeros 249, C)].map (entOf 1)) (padded 1) = 1 := by
    simp [childIndex, childIndexLoop, entOf, hlow.le, not_le.mpr hhigh]
  have hsep := separators_items crc32c (fun t (ht : t ∈ [Q, R]) => hheld t (mem_cons_of_mem _ ht))
    (by simp [hQ, hR])
  have hseps : asRecs [Q, R] = [(padded 1, Q), (2 :: zeros 3973, R)] := by simp [asRecs, minKey, hQ, hR]
  rw [hseps] at hsep
  have hstuck : split3 1 [⟨zeros 3747, [], A.1⟩, ⟨[1], [], P.1⟩, ⟨padded 1, [], Q.1⟩, ⟨2 :: zeros 3973, [], R.1⟩,
      ⟨3 :: zeros 249, [], C.1⟩] = none := by
    apply split3_stuck <;> simp [recSize, zeros_length, padded_length]
  refine ⟨v, v1, root, ck, hck, (padded_length 1).le, ?_, ample_le ha (by omega), ?_⟩
  · simp [used, recSize, padded_length, zeros_length, pageHdrLen, pageSize]
  · unfold upsert
    simp only [h0, if_false]
    refine bind_none.mpr (.inl (bind_none.mpr (.inr ⟨_, v, btRead_held
      (r := ([], (root, [(zeros 3747, A), ([1], B), (3 :: zeros 249, C)]))) (hr.held _ mem_cons_self), ?_⟩)))
    simp only [succ_ne_zero, if_false, hidx]
    refine bind_none.mpr (.inr ⟨([P.1, Q.1, R.1], 0), v1, hins, bind_none.mpr (.inr ⟨_, v1, hsep, ?_⟩)⟩)
    have hnot : ¬ padded 1 < ([1], B).1 := not_lt.mpr hlow.le
    rw [if_neg (by simp [maxEntries]), entOf_key, if_neg hnot]
    simp only [map_cons, map_nil, take_succ_cons, take_zero, drop_succ_cons, drop_zero,
      cons_append, nil_append, entOf]
    rw [writePieces, if_neg, hstuck]
    · rfl
    · simp [used, recSize, zeros_length, padded_length, pageHdrLen, pageSize]

end InvariantFs.BtreeRoom
