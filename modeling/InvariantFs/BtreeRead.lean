import InvariantFs.BtreeShape

namespace InvariantFs.BtreeRead

open ByteCodec BtreePage BtreeSplit Btree SortedMap SepChain BtreeShape Nat
open List hiding lookup range

variable {rs : List (Key × Item 0)}

theorem key_leaf {x : Key × Val} (hx : x ∈ flat (contents 0) rs) : ∃ r ∈ rs, x.1 = r.1 := by
  obtain ⟨r, hr, hx⟩ := mem_flatMap.mp hx
  exact ⟨r, hr, by rw [mem_singleton.mp hx]⟩

variable {hi : WithTop Key}

theorem locate (hc : Chain (Ok 0) rs hi) (key : Key) :
    ∃ a, lowerBound (rs.map (entOf 0)) key = a.length ∧ (∀ r ∈ a, r.1 < key) ∧
      ((∃ w c, rs = a ++ (key, w) :: c ∧ ∀ r ∈ c, key < r.1) ∨ ∃ c, rs = a ++ c ∧ ∀ r ∈ c, key < r.1) := by
  obtain ⟨ea, eb, heq, hidx, hea, heb⟩ := lowerBound_spec (sorted_entOf hc) key
  obtain ⟨a, b, rfl, rfl, rfl⟩ := map_eq_append_iff.mp heq
  have hb : ∀ r ∈ b, key ≤ r.1 := fun r hr => heb (entOf 0 r) (mem_map_of_mem hr)
  have hs := (pairwise_append.mp (chain_sorted (bounded 0) hc)).2.1
  refine ⟨a, by rw [hidx, length_map], fun r hr => hea (entOf 0 r) (mem_map_of_mem hr), ?_⟩
  cases b with
  | nil => exact .inr ⟨[], rfl, by simp⟩
  | cons r b =>
    have hgt : ∀ x ∈ b, r.1 < x.1 := fun x hx => rel_of_pairwise_cons hs hx
    obtain hlt | heq := (hb r mem_cons_self).lt_or_eq
    · refine .inr ⟨r :: b, rfl, fun x hx => ?_⟩
      obtain rfl | hx := mem_cons.mp hx
      · exact hlt
      · exact hlt.trans (hgt x hx)
    · exact .inl ⟨r.2, b, by rw [heq], fun x hx => heq ▸ hgt x hx⟩

variable {key : Key} {a : List (Key × Item 0)}

theorem flat_lt (h : ∀ r ∈ a, r.1 < key) : ∀ x ∈ flat (contents 0) a, x.1 < key := fun _ hx => by
  obtain ⟨r, hr, he⟩ := key_leaf hx
  exact he ▸ h r hr

theorem flat_gt (h : ∀ r ∈ a, key < r.1) : ∀ x ∈ flat (contents 0) a, key < x.1 := fun _ hx => by
  obtain ⟨r, hr, he⟩ := key_leaf hx
  exact he ▸ h r hr

variable {h : Nat}

theorem route {rs : List (Key × Item h)} (hne : rs ≠ []) (hc : Chain (Ok h) rs hi) (hk : (key : WithTop Key) < hi) :
    ∃ xs r ys, rs = xs ++ r :: ys ∧ childIndex (rs.map (entOf h)) key = xs.length ∧
      (xs ≠ [] → r.1 ≤ key) ∧ (key : WithTop Key) < SepChain.next ys hi ∧ Ok h r.1 (next ys hi) r.2 ∧
      (∀ x ∈ flat (contents h) xs, x.1 < key) ∧ ∀ x ∈ flat (contents h) ys, key < x.1 := by
  obtain ⟨exs, ex, eys, heq, hidx, hx, hys⟩ := childIndex_spec (by simpa using hne : rs.map (entOf h) ≠ []) key
  obtain ⟨xs, rest, rfl, rfl, hrest⟩ := map_eq_append_iff.mp heq
  obtain ⟨r, ys, rfl, rfl, rfl⟩ := map_eq_cons_iff.mp hrest
  rw [entOf_key] at hx
  have hlo : xs ≠ [] → r.1 ≤ key := fun hne => hx (by simpa using hne)
  have hhi : (key : WithTop Key) < SepChain.next ys hi := by
    cases ys with
    | nil => exact hk
    | cons y ys =>
      have := hys (entOf h y) (by simp)
      rw [entOf_key] at this
      exact WithTop.coe_lt_coe.mpr this
  obtain ⟨hxs, hys'⟩ := chain_route (bounded h) hc hlo hhi
  refine ⟨xs, r, ys, rfl, by rw [hidx, length_map], hlo, hhi, ?_, hxs, hys'⟩
  exact (chain_append.mp hc).2.1

variable (crc : List Byte → UInt32) {lo : Key} {v : Vol} {depth : Nat} {t : Item (h + 1)}

section

variable (ht : Holds crc v (h + 1) t) (hok : Ok (h + 1) lo hi t) (hk : (key : WithTop Key) < hi)

include ht hok hk

theorem searchLoop_lookup (hd : h < depth) :
    searchLoop crc v key depth t.1 = some (lookup (contents (h + 1) lo t) key) := by
  induction h generalizing lo hi depth with
  | zero =>
    obtain ⟨depth, rfl⟩ := exists_eq_succ_of_ne_zero (Nat.ne_of_gt hd)
    obtain ⟨a, hidx, ha, hcase⟩ := locate hok.2.2 key
    simp only [searchLoop, ht.1, ne_eq, not_true, if_false, hidx]
    change _ = some (lookup (flat (contents 0) t.2) key)
    obtain ⟨w, c, hrs, hc⟩ | ⟨c, hrs, hc⟩ := hcase
    · rw [hrs, flat_append, flat_cons, ← append_assoc, lookup_middle (flat_lt ha) (flat_gt hc)]
      simp [lookup, entOf, contents]
    · have hget := lookup_middle (b := []) (flat_lt ha) (flat_gt hc)
      rw [append_nil] at hget
      rw [hrs, flat_append, hget]
      cases c with
      | nil => simp [lookup]
      | cons r c =>
        have hne : r.1 ≠ key := (hc r mem_cons_self).ne'
        simp [lookup, entOf, hne]
  | succ h ih =>
    obtain ⟨depth, rfl⟩ := exists_eq_succ_of_ne_zero (Nat.ne_of_gt (zero_lt_of_lt hd))
    obtain ⟨xs, r, ys, hrs, hidx, -, hhi, hr, hxs, hys⟩ := route hok.1 hok.2.2 hk
    have hrmem : r ∈ t.2 := by simp [hrs]
    have hrt := ht.2 r hrmem
    have hp := (holds_pages crc hrt r.2.1.pba mem_cons_self).1
    have hget : (t.2.map (entOf (h + 1)))[xs.length]? = some (entOf (h + 1) r) := by simp [hrs]
    simp only [searchLoop, ht.1, ne_eq, succ_ne_zero, not_false_eq_true, if_true, hidx, hget]
    change (if r.2.1.pba = 0 then _ else _) = some (lookup (flat (contents (h + 1)) t.2) key)
    rw [if_neg hp]
    rw [hrs, flat_append, flat_cons, ← append_assoc, lookup_middle hxs hys]
    exact ih hrt hr hhi (by omega)

theorem searchLoop_deep (hd : depth ≤ h) : searchLoop crc v key depth t.1 = none := by
  induction h generalizing lo hi depth with
  | zero =>
    obtain rfl := Nat.le_zero.mp hd
    rfl
  | succ h ih =>
    obtain _ | depth := depth
    · rfl
    obtain ⟨xs, r, ys, hrs, hidx, -, hhi, hr, -, -⟩ := route hok.1 hok.2.2 hk
    have hrt := ht.2 r (by simp [hrs])
    have hp := (holds_pages crc hrt r.2.1.pba mem_cons_self).1
    have hget : (t.2.map (entOf (h + 1)))[xs.length]? = some (entOf (h + 1) r) := by simp [hrs]
    simp only [searchLoop, ht.1, ne_eq, succ_ne_zero, not_false_eq_true, if_true, hidx, hget]
    change (if r.2.1.pba = 0 then _ else _) = none
    rw [if_neg hp]
    exact ih hrt hr hhi (by omega)

end

section

variable {σ : Type}

/-- The calls of a callback over bindings, up to the first one that does not return 0. -/
def visit (cb : σ → Key → Val → σ × Int) : List (Key × Val) → σ → σ × Int
  | [], s => (s, 0)
  | r :: l, s => if (cb s r.1 r.2).2 ≠ 0 then cb s r.1 r.2 else visit cb l (cb s r.1 r.2).1

def hiOf (hi : Key) : WithTop Key := if hi = [] then ⊤ else hi

theorem visit_append (cb : σ → Key → Val → σ × Int) (l l' : List (Key × Val)) (s : σ) : visit cb (l ++ l') s =
      if (visit cb l s).2 ≠ 0 then visit cb l s else visit cb l' (visit cb l s).1 := by
  induction l generalizing s with
  | nil => simp [visit]
  | cons r l ih =>
    rw [cons_append, visit, visit]
    split
    · simp
    · exact ih _

theorem le_hiOf (hi : Key) (k : Key) : hi ≠ [] ∧ hi ≤ k ↔ ¬ (k : WithTop Key) < hiOf hi := by
  unfold hiOf
  split
  · next h => simp [h]
  · next h => simp [h]

theorem lt_nil (lo k : Key) : lo ≠ [] ∧ k < lo ↔ ¬ lo ≤ k := by
  rw [not_le]
  refine ⟨fun h => h.2, fun h => ⟨?_, h⟩⟩
  rintro rfl
  exact absurd h (not_lt_nil k)

theorem range_append (l l' : List (Key × Val)) (lo : Key) (hi : WithTop Key) :
    range (l ++ l') lo hi = range l lo hi ++ range l' lo hi := filter_append ..

variable {l : List (Key × Val)}

theorem range_above (h : ∀ r ∈ l, hi ≤ (r.1 : WithTop Key)) : range l lo hi = [] :=
  filter_eq_nil_iff.mpr fun r hr => by simp [not_lt.mpr (h r hr)]

theorem range_below (h : ∀ r ∈ l, r.1 < lo) : range l lo hi = [] :=
  filter_eq_nil_iff.mpr fun r hr => by simp [h r hr]

variable {top : WithTop Key}

theorem scanLeaf_visit (cb : σ → Key → Val → σ × Int) (lo hi : Key) (hc : Chain (Ok 0) rs top) (s : σ) :
    scanLeaf cb lo hi (rs.map (entOf 0)) s = visit cb (range (flat (contents 0) rs) lo (hiOf hi)) s := by
  induction rs generalizing s with
  | nil => rfl
  | cons r rs ih =>
    rw [map_cons, scanLeaf]
    simp only [lt_nil, le_hiOf, entOf_key]
    split
    · next hlo =>
      have hskip : range (contents 0 r.1 r.2) lo (hiOf hi) = [] := by simp [range, contents, hlo]
      rw [flat_cons, range_append, hskip, nil_append]
      exact ih hc.2 s
    · next hlo =>
      split
      · next hhi =>
        have hnone : range (flat (contents 0) (r :: rs)) lo (hiOf hi) = [] := by
          apply range_above
          intro x hx
          exact (not_lt.mp hhi).trans ((chain_flat (bounded 0) hc).2 x hx).1
        rw [hnone]
        rfl
      · next hhi =>
        have hkeep : range (contents 0 r.1 r.2) lo (hiOf hi) = contents 0 r.1 r.2 := by
          simp [range, contents, not_not.mp hlo, not_not.mp hhi]
        rw [flat_cons, range_append, hkeep, visit_append, ← ih hc.2]
        simp only [contents, visit]
        split <;> simp_all [entOf]

theorem scanKids_visit (cb : σ → Key → Val → σ × Int) (lo hi : Key)
    {rec : Ptr → σ → σ × Int} {rs : List (Key × Item (h + 1))} (hrec : ∀ r ∈ rs, ∀ s, rec r.2.1 s =
      visit cb (range (contents (h + 1) r.1 r.2) lo (hiOf hi)) s) (hc : Chain (Ok (h + 1)) rs top) (s : σ) :
    scanKids rec lo hi (rs.map (entOf (h + 1))) s = visit cb (range (flat (contents (h + 1)) rs) lo (hiOf hi)) s := by
  induction rs generalizing s with
  | nil => rfl
  | cons r rs ih =>
    have hrest := fun s => ih (fun x hx => hrec x (mem_cons_of_mem _ hx)) hc.2 s
    rw [map_cons, scanKids]
    simp only [le_hiOf, entOf_key]
    split
    · next hhi =>
      have hnone : range (flat (contents (h + 1)) (r :: rs)) lo (hiOf hi) = [] := by
        apply range_above
        intro x hx
        exact (not_lt.mp hhi).trans ((chain_flat (bounded (h + 1)) hc).2 x hx).1
      rw [hnone]
      rfl
    · rw [flat_cons, range_append]
      split
      · next hskip =>
        obtain ⟨-, x, hx, hxlo⟩ := hskip
        cases rs with
        | nil => simp at hx
        | cons y rs =>
          obtain rfl : entOf (h + 1) y = x := by simpa using hx
          rw [entOf_key] at hxlo
          have hnone : range (contents (h + 1) r.1 r.2) lo (hiOf hi) = [] := by
            apply range_below
            intro z hz
            have := ((bounded (h + 1)).mem _ _ _ hc.1 z hz).2
            exact (WithTop.coe_lt_coe.mp this).trans_le hxlo
          rw [hnone, nil_append]
          exact hrest s
      · rw [visit_append, ← hrec r mem_cons_self s]
        simp only [← hrest]
        rfl

theorem scanRec_visit (cb : σ → Key → Val → σ × Int) (lo hi : Key) (ht : Holds crc v (h + 1) t) {k : Key}
    (hok : Ok (h + 1) k top t) {fuel : Nat} (hf : h < fuel) (s : σ) : scanRec crc v cb lo hi fuel t.1 s =
      visit cb (range (contents (h + 1) k t) lo (hiOf hi)) s := by
  induction h generalizing k top fuel s with
  | zero =>
    obtain ⟨fuel, rfl⟩ := exists_eq_succ_of_ne_zero (Nat.ne_of_gt hf)
    simp only [scanRec, ht.1, if_true]
    exact scanLeaf_visit cb lo hi hok.2.2 s
  | succ h ih =>
    obtain ⟨fuel, rfl⟩ := exists_eq_succ_of_ne_zero (Nat.ne_of_gt (zero_lt_of_lt hf))
    simp only [scanRec, ht.1, succ_ne_zero, if_false]
    refine scanKids_visit cb lo hi (fun r hr s => ?_) hok.2.2 s
    obtain ⟨xs, ys, hsplit⟩ := append_of_mem hr
    have hr' : Ok (h + 1) r.1 (next ys top) r.2 := by
      have hc := hok.2.2
      rw [hsplit] at hc
      exact (chain_append.mp hc).2.1
    exact ih (ht.2 r hr) hr' (by omega) s

end

end InvariantFs.BtreeRead
