import InvariantFs.BtreeInsert

namespace InvariantFs.BtreeRebalance

open ByteCodec BtreePage BtreeSplit Btree SepChain Fallible BtreeShape BtreeWrite BtreeRow List Option Prod

variable {crc : List Byte → UInt32} {h : Nat} {es : List Ent}

theorem window_ents {xs ys : List (Key × Item h)} {n : Nat} (mid : List (Key × Item h)) (ss : List Ent)
    (hes : es = (xs ++ mid ++ ys).map (entOf h)) (hn : n = xs.length + mid.length) :
    es.take xs.length ++ (ss ++ es.drop n) = xs.map (entOf h) ++ ss ++ ys.map (entOf h) := by
  subst hes hn
  rw [map_append, drop_left' (by simp), append_assoc, map_append, append_assoc, take_left' (by simp)]

variable {l : List (Key × Val)} {xs ys : List (Key × Item (h + 1))} {v : Vol}

variable {lo : Key} {hi : WithTop Key} {gen : UInt64} {v' : Vol}

theorem rewrite_window (hl : h < 2 ^ 16) {mid : List (Key × Item (h + 1))}
    (hr : Row crc v lo hi l (xs ++ mid ++ ys)) (hmid : mid ≠ []) (parts : List (List (Key × Item h)))
    (hflat : parts.flatten = below mid) (hfull : ∀ p ∈ parts, p ≠ []) {ps : List Ptr}
    (hwrite : runs (writeAll crc h gen (parts.map (List.map (entOf h)))) v = (some ps, v')) :
    ∃ ts : List (Item (h + 1)), ts.map fst = ps ∧ ts.map snd = parts ∧ Frame v v' ∧
      Row crc v' lo hi l (xs ++ asRecs ts ++ ys) ∧ Made v (xs ++ mid ++ ys) (xs ++ asRecs ts ++ ys) ∧
      (Neat (below mid) → (h ≠ 0 → ∀ p ∈ parts, 2 ≤ p.length) → Neat (asRecs ts)) := by
  obtain ⟨a, mid, rfl⟩ := exists_cons_of_ne_nil hmid
  obtain ⟨hbelow, hmb⟩ := row_below (row_mid hr (k := a.1) le_rfl)
  have hheld : ∀ p ∈ parts, ∀ r ∈ p, Holds crc v h r.2 := fun p hp r hm =>
    hbelow.held r (hflat ▸ mem_flatten.mpr ⟨p, hp, hm⟩)
  obtain ⟨hf, ts, hfst, rfl, hw⟩ := writeAll_items crc hl parts hheld hwrite
  have hfull' : ∀ t ∈ ts, t.2 ≠ [] := fun t ht => hfull _ (mem_map_of_mem ht)
  obtain ⟨hrow, hmade⟩ := row_above hfull' (hflat ▸ hbelow) hw
  obtain ⟨hrow', hmade'⟩ := row_swap hf hr hrow (made_trans (frame_refl v) hmb (hflat ▸ hmade))
  rw [← flat_append, ← flat_append, hr.contents] at hrow'
  refine ⟨ts, hfst, rfl, hf, hrow', hmade', fun hn hw2 => ?_⟩
  exact neat_above hfull' (hflat ▸ hn) fun h0 t ht => hw2 h0 _ (mem_map_of_mem ht)

variable {a b : Key × Item (h + 1)}

theorem regroup_row (hl : h < 2 ^ 16) (hr : Row crc v lo hi l (xs ++ [a, b] ++ ys))
    (hrun : runs (regroup crc ((xs ++ [a, b] ++ ys).map (entOf (h + 1))) xs.length h gen
      ((below [a, b]).map (entOf h))) v = (some es, v')) :
    ∃ rs : List (Key × Item (h + 1)), es = rs.map (entOf (h + 1)) ∧ rs ≠ [] ∧ Frame v v' ∧
      Row crc v' lo hi l rs ∧ Made v (xs ++ [a, b] ++ ys) rs ∧
      (Neat xs → Neat ys → Neat (below [a, b]) → (h ≠ 0 → 2 ≤ (below [a, b]).length) → Neat rs) := by
  have hneat : ∀ {ts : List (Item (h + 1))}, Neat xs → Neat ys → Neat (asRecs ts) →
      Neat (xs ++ asRecs ts ++ ys) := fun hx hy ht => neat_append.mpr ⟨neat_append.mpr ⟨hx, ht⟩, hy⟩
  have hents : ∀ ss, _ = xs.map (entOf (h + 1)) ++ ss ++ ys.map (entOf (h + 1)) := fun ss =>
    window_ents [a, b] ss (n := xs.length + 2) rfl rfl
  unfold regroup at hrun
  split at hrun
  · simp at hrun
  · next e rest hcomb =>
    obtain ⟨r, comb, hr0, rfl, -⟩ := map_eq_cons_iff.mp hcomb
    split_ifs at hrun with hfit
    · obtain ⟨m, v1, hwrite, hpure⟩ := bind_some.mp hrun
      obtain ⟨hes, rfl⟩ := mk.inj hpure
      obtain ⟨ts, hfst, hsnd, hf, hrow, hmade, hn'⟩ := rewrite_window hl hr (by simp)
        [below [a, b]] (by simp) (by simp [hr0])
        (bind_some.mpr ⟨m, v1, hwrite, bind_some.mpr ⟨[], v1, rfl, rfl⟩⟩)
      obtain ⟨t, rfl, ht⟩ := map_eq_singleton_iff.mp hsnd
      refine ⟨_, ?_, by simp [asRecs], hf, hrow, hmade, fun hx hy hn h2 =>
        hneat hx hy (hn' hn (by simpa using h2))⟩
      have hm : t.1 = m := (List.cons.inj hfst).1
      have hk : minKey t = r.1 := by simp [minKey, ht, hr0]
      rw [← some.inj hes, ← singleton_append (l := List.drop _ _), hents, map_append,
        map_append, entOf_key, ← hk, ← hm]
      rfl
    · split at hrun
      · simp at hrun
      · next s hs =>
        split_ifs at hrun with hends
        · simp at hrun
        simp only [not_or, Nat.not_le] at hends
        obtain ⟨p, v1, hw1, hrest⟩ := bind_some.mp hrun
        obtain ⟨q, v2, hw2, hrest⟩ := bind_some.mp hrest
        rw [length_map] at hends
        have hget : ((below [a, b]).map (entOf h))[s]? = some (entOf h (below [a, b])[s]) := by simp [hends.2]
        simp only [hget] at hrest
        obtain ⟨hes, rfl⟩ := mk.inj hrest
        rw [← map_take] at hw1
        rw [← map_drop] at hw2
        obtain ⟨ts, hfst, hsnd, hf, hrow, hmade, hn'⟩ := rewrite_window hl hr (by simp)
          [(below [a, b]).take s, (below [a, b]).drop s] (by simp) (by
            intro p hp
            simp only [mem_cons, not_mem_nil, or_false] at hp
            obtain rfl | rfl := hp
            · simp [hends.1, hr0]
            · simp [hends.2])
          (bind_some.mpr ⟨p, v1, hw1, bind_some.mpr ⟨[q], v2,
            bind_some.mpr ⟨q, v2, hw2, bind_some.mpr ⟨[], v2, rfl, rfl⟩⟩, rfl⟩⟩)
        obtain ⟨t1, ts, rfl, ht1, hts⟩ := map_eq_cons_iff.mp hsnd
        obtain ⟨t2, ts, rfl, ht2, hnil⟩ := map_eq_cons_iff.mp hts
        obtain rfl := map_eq_nil_iff.mp hnil
        refine ⟨_, ?_, by simp [asRecs], hf, hrow, hmade, fun hx hy hn _ =>
          hneat hx hy (hn' hn fun h0 => ?_)⟩
        · obtain ⟨hp, hq⟩ := List.cons.inj hfst
          have hq : t2.1 = q := (List.cons.inj hq).1
          have hk1 : minKey t1 = r.1 := by
            rw [minKey, ht1, head?_take, if_neg hends.1, hr0]
            rfl
          have hk2 : minKey t2 = (below [a, b])[s].1 := by
            rw [minKey, ht2, head?_drop, getElem?_eq_getElem hends.2]
            rfl
          rw [← some.inj hes, entOf_key, entOf_key, ← hk1, ← hk2, ← hp, ← hq]
          refine (hents [⟨minKey t1, [], t1.1⟩, ⟨minKey t2, [], t2.1⟩]).trans ?_
          rw [map_append, map_append]
          rfl
        · have h2 := splitPoint_two (recSize_short h0 fun x hx => (hn x hx).1) (Nat.not_le.mp hfit) hs
          rw [length_map] at h2
          intro p hp
          simp only [mem_cons, not_mem_nil, or_false] at hp
          obtain rfl | rfl := hp
          · rw [length_take]
            omega
          · rw [length_drop]
            omega

theorem below_pair (a b : Key × Item (h + 1)) : below [a, b] = a.2.2 ++ b.2.2 := by
  simp [below]

theorem btRead_held {r : Key × Item (h + 1)} (hr : Holds crc v (h + 1) r.2) :
    runs (btRead crc (entOf (h + 1) r).child) v = (some (h, r.2.2.map (entOf h)), v) := by
  rw [btRead, runs_act]
  exact congrArg (·, v) hr.1

theorem siblings_eq (ha : Holds crc v (h + 1) a.2)
    (hb : Holds crc v (h + 1) b.2) {β : Type} (f : Nat → List Ent → List Ent → Act Vol β) : runs (do
      let (clevel, ce) ← btRead crc (entOf (h + 1) a).child let (slevel, se) ← btRead crc (entOf (h + 1) b).child
      if slevel ≠ clevel then failure else f clevel ce se) v =
      runs (f h (a.2.2.map (entOf h)) (b.2.2.map (entOf h))) v := by
  rw [runs_bind, btRead_held ha]
  change runs (_ >>= _) v = _
  rw [runs_bind, btRead_held hb]
  change runs (if h ≠ h then failure else _) v = _
  rw [if_neg (not_not.mpr rfl)]

variable {c : Key × Item (h + 1)}

/-- The deficient child is regrouped with its right sibling where there is one, otherwise with the left one. -/
theorem rebalance_window (hheld : ∀ r ∈ xs ++ [c] ++ ys, Holds crc v (h + 1) r.2) (gen : UInt64)
    (h2 : 2 ≤ (xs ++ [c] ++ ys).length) :
    ∃ zs a b ws, (xs = zs ∧ c = a ∧ ys = b :: ws ∨ xs = zs ++ [a] ∧ c = b ∧ ys = [] ∧ ws = []) ∧
      xs ++ [c] ++ ys = zs ++ [a, b] ++ ws ∧ runs (rebalance crc ((xs ++ [c] ++ ys).map (entOf (h + 1)))
        xs.length gen) v =
        runs (regroup crc ((zs ++ [a, b] ++ ws).map (entOf (h + 1))) zs.length h gen
          ((below [a, b]).map (entOf h))) v := by
  obtain _ | ⟨s, ys⟩ := ys
  · obtain rfl | ⟨xs, s, rfl⟩ := eq_nil_or_concat xs
    · simp at h2
    · have hpe : xs.concat s ++ [c] ++ [] = xs ++ [s, c] ++ [] := by simp
      refine ⟨xs, s, c, [], .inr ⟨concat_eq_append, rfl, rfl, rfl⟩, hpe, ?_⟩
      have hlen : ((xs ++ [s, c] ++ []).map (entOf (h + 1))).length = xs.length + 2 := by simp
      have hc : ((xs ++ [s, c] ++ []).map (entOf (h + 1)))[xs.length + 1]? = some (entOf (h + 1) c) := by simp
      have hs : ((xs ++ [s, c] ++ []).map (entOf (h + 1)))[xs.length]? = some (entOf (h + 1) s) := by simp
      rw [hpe, rebalance, hlen, if_neg (by omega), length_concat]
      simp only [if_neg (by omega : ¬ xs.length + 1 + 1 < xs.length + 2), Nat.add_sub_cancel, hc, hs,
        if_neg (by omega : ¬ xs.length + 1 < xs.length)]
      rw [siblings_eq (hheld c (by simp)) (hheld s (by simp)) fun n ce se => regroup crc _ _ n gen
        (if xs.length = xs.length + 1 + 1 then ce ++ se else se ++ ce), if_neg (by omega), ← map_append, ← below_pair]
  · have hpe : xs ++ [c] ++ s :: ys = xs ++ [c, s] ++ ys := by simp
    refine ⟨xs, c, s, ys, .inl ⟨rfl, rfl, rfl⟩, hpe, ?_⟩
    have hlen : ((xs ++ [c, s] ++ ys).map (entOf (h + 1))).length = xs.length + 2 + ys.length := by
      simp only [length_map, length_append, length_cons, length_nil]
    have hc : ((xs ++ [c, s] ++ ys).map (entOf (h + 1)))[xs.length]? = some (entOf (h + 1) c) := by simp
    have hs : ((xs ++ [c, s] ++ ys).map (entOf (h + 1)))[xs.length + 1]? = some (entOf (h + 1) s) := by simp
    rw [hpe, rebalance, hlen, if_neg (by omega)]
    simp only [if_pos (by omega : xs.length + 1 < xs.length + 2 + ys.length), Nat.lt_succ_self, if_true, hc, hs]
    rw [siblings_eq (hheld c (by simp)) (hheld s (by simp)) fun n ce se => regroup crc _ _ n gen (ce ++ se),
      ← map_append, ← below_pair]

theorem neat_child {s : Key × Item (h + 1)} (hs : Neat [s]) : Neat s.2.2 ∧ (h ≠ 0 → 2 ≤ s.2.2.length) :=
  ⟨below_single s.1 s.2 ▸ neat_below hs, (hs s mem_cons_self).2.2.1⟩

theorem rebalance_row (hl : h < 2 ^ 16) (hr : Row crc v lo hi l (xs ++ [c] ++ ys))
    (hrun : runs (rebalance crc ((xs ++ [c] ++ ys).map (entOf (h + 1))) xs.length gen) v = (some es, v')) :
    ∃ rs : List (Key × Item (h + 1)), es = rs.map (entOf (h + 1)) ∧ rs ≠ [] ∧ Frame v v' ∧
      Row crc v' lo hi l rs ∧ Made v (xs ++ [c] ++ ys) rs ∧
      (Neat xs → Neat ys → Neat c.2.2 → 2 ≤ (xs ++ [c] ++ ys).length → Neat rs) := by
  by_cases h2 : 2 ≤ (xs ++ [c] ++ ys).length
  · obtain ⟨zs, a, b, ws, hwin, hpe, heq⟩ := rebalance_window hr.held gen h2
    rw [heq] at hrun
    rw [hpe] at hr ⊢
    obtain ⟨rs, hes, hne, hf, hrow, hmade, hneat⟩ := regroup_row hl hr hrun
    refine ⟨rs, hes, hne, hf, hrow, hmade, fun hx hy hn _ => ?_⟩
    rw [below_pair] at hneat
    obtain ⟨rfl, rfl, rfl⟩ | ⟨rfl, rfl, rfl, rfl⟩ := hwin
    · obtain ⟨hs, hy⟩ := neat_append.mp (singleton_append (l := ws) ▸ hy)
      obtain ⟨hsn, hlen⟩ := neat_child hs
      refine hneat hx hy (neat_append.mpr ⟨hn, hsn⟩) fun h0 => ?_
      exact (hlen h0).trans (by simp)
    · obtain ⟨hx, hs⟩ := neat_append.mp hx
      obtain ⟨hsn, hlen⟩ := neat_child hs
      refine hneat hx hy (neat_append.mpr ⟨hsn, hn⟩) fun h0 => ?_
      exact (hlen h0).trans (by simp)
  · rw [rebalance, length_map, if_pos (Nat.not_le.mp h2)] at hrun
    obtain ⟨hes, rfl⟩ := mk.inj hrun
    exact ⟨_, (some.inj hes).symm, by simp, frame_refl v, hr, made_refl v _, fun _ _ _ h => absurd h h2⟩

end InvariantFs.BtreeRebalance
