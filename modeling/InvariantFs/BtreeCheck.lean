import InvariantFs.BtreeRead

namespace InvariantFs.BtreeCheck

open ByteCodec BtreePage Btree SepChain BtreeShape BtreeRead List Nat

variable {es : List Ent}

section

variable {ε α : Type} {a : α}

theorem ite_error_ok {p : Prop} [Decidable p] {e : ε} {x : Except ε α} :
    (if p then .error e else x) = .ok a ↔ ¬ p ∧ x = .ok a := by
  split_ifs with h <;> simp [h]

theorem seq_ok {x : Except ε Unit} {y : Except ε α} : (do x; y) = .ok a ↔ x = .ok () ∧ y = .ok a := by
  cases x <;> simp [bind, Except.bind]

end

variable {hi lo : Key}

theorem checkKeys_ok {order low high : CheckErr} {prev : Option Key} :
    checkKeys order low high lo hi prev es = .ok () ↔
      (∀ e ∈ es, (∀ k ∈ prev, k < e.k) ∧ lo ≤ e.k ∧ (e.k : WithTop Key) < hiOf hi) ∧
        es.Pairwise fun a b => a.k < b.k := by
  induction es generalizing prev with
  | nil => simp [checkKeys]
  | cons e es ih =>
    rw [checkKeys]
    simp only [lt_nil, le_hiOf, ite_error_ok, ih, not_exists, not_and, not_le, not_lt, pairwise_cons, forall_mem_cons]
    constructor
    · rintro ⟨hprev, hlo, hhi, hes, hs⟩
      refine ⟨⟨⟨hprev, hlo, hhi⟩, fun x hx => ⟨fun k hk => ?_, (hes x hx).2⟩⟩, fun x hx => (hes x hx).1 e.k rfl, hs⟩
      exact (hprev k hk).trans ((hes x hx).1 e.k rfl)
    · rintro ⟨⟨⟨hprev, hlo, hhi⟩, hes⟩, hlt, hs⟩
      exact ⟨hprev, hlo, hhi, fun x hx => ⟨fun k hk => Option.mem_some.mp hk ▸ hlt x hx, (hes x hx).2⟩, hs⟩

def after (ck : Ck) (ps : List UInt64) (n height : Nat) : Ck :=
  ⟨ps.reverse ++ ck.seen, ck.pages + ps.length, ck.keys + n, height⟩

theorem after_after (ck : Ck) (ps qs : List UInt64) (n m x y : Nat) :
    after (after ck ps n x) qs m y = after ck (ps ++ qs) (n + m) y := by
  simp [after, Nat.add_assoc]

theorem hiOf_next {h : Nat} {r : Key × Item h} {rs : List (Key × Item h)}
    (hs : (r :: rs).Pairwise fun a b => a.1 < b.1) :
    hiOf (((rs.map (entOf h)).head?.map Ent.k).getD hi) = next rs (hiOf hi) := by
  cases rs with
  | nil => rfl
  | cons x rs =>
    have hlt : r.1 < x.1 := rel_of_pairwise_cons hs mem_cons_self
    have hne : x.1 ≠ [] := fun he => absurd (he ▸ hlt) (not_lt_nil r.1)
    simp [hiOf, entOf_key, hne]

theorem kids_cons {h : Nat} {e : Ent} {t : Item (h + 1)} {rs : List (Key × Item (h + 1))} (hp : Plain (h + 1) e)
    (htp : t.1 = e.child) (hs : (e :: rs.map (entOf (h + 1))).Pairwise fun a b => a.k < b.k) :
    e = entOf (h + 1) (e.k, t) ∧ ((e.k, t) :: rs).Pairwise fun a b => a.1 < b.1 := by
  have hv : e.v = [] := by simpa [Plain] using hp
  have hent : e = entOf (h + 1) (e.k, t) := by rw [entOf, htp, ← hv]
  rw [hent, ← map_cons, pairwise_map] at hs
  exact ⟨hent, hs.imp fun hab => by rwa [entOf_key, entOf_key] at hab⟩

variable (crc : List Byte → UInt32)

/-- An item as a check accepts it: held, in order, wide, and on pages of its own that the walk has
not met. -/
structure Fine (v : Vol) (h : Nat) (lo : Key) (hi : WithTop Key) (seen : List UInt64) (t : Item h) : Prop where
  holds : Holds crc v h t
  ok : Ok h lo hi t
  wide : Wide h t
  nodup : (pages h t).Nodup
  fresh : ∀ p ∈ pages h t, p ∉ seen

variable {v : Vol} {ck : Ck} {ck' : Ck} {rec : Ptr → Key → Key → Ck → Except CheckErr Ck}

theorem checkKids_sound {h D : Nat} (hrec : ∀ p lo hi ck ck', rec p lo hi ck = .ok ck' → ∃ t : Item (h + 1), t.1 = p ∧
      Fine crc v (h + 1) lo (hiOf hi) ck.seen t ∧ ck' = after ck (pages (h + 1) t) (contents (h + 1) lo t).length D)
    (hp : ∀ e ∈ es, Plain (h + 1) e) (hs : es.Pairwise fun a b => a.k < b.k)
    (hok : checkKids rec hi es ck = .ok ck') : ∃ rs : List (Key × Item (h + 1)), es = rs.map (entOf (h + 1)) ∧
      (∀ r ∈ rs, Holds crc v (h + 1) r.2 ∧ Wide (h + 1) r.2) ∧ Chain (Ok (h + 1)) rs (hiOf hi) ∧
      (rs.flatMap fun r => pages (h + 1) r.2).Nodup ∧ (∀ p ∈ rs.flatMap (fun r => pages (h + 1) r.2), p ∉ ck.seen) ∧
      ∃ x, (if rs = [] then x = ck.height else x = D) ∧ ck' = after ck (rs.flatMap fun r => pages (h + 1) r.2)
        (flat (contents (h + 1)) rs).length x := by
  induction es generalizing ck with
  | nil =>
    obtain rfl : ck = ck' := by simpa [checkKids] using hok
    exact ⟨[], rfl, by simp, trivial, by simp, by simp, ck.height, by simp, by simp [after]⟩
  | cons e es ih =>
    rw [checkKids] at hok
    cases hfirst : rec e.child e.k ((es.head?.map Ent.k).getD hi) ck with
    | error err => simp [hfirst, bind, Except.bind] at hok
    | ok ck1 =>
      simp only [hfirst, bind, Except.bind] at hok
      obtain ⟨t, htp, hfine, hck1⟩ := hrec _ _ _ _ _ hfirst
      obtain ⟨rs, hes, hheld, hchain, hnodup, hfresh, x, hx, hck'⟩ :=
        ih (fun e' he' => hp e' (mem_cons_of_mem _ he')) hs.of_cons hok
      obtain ⟨hent, hsorted⟩ := kids_cons (hp e mem_cons_self) htp (hes ▸ hs)
      have hdisj : ∀ p ∈ pages (h + 1) t, p ∉ rs.flatMap fun r => pages (h + 1) r.2 := by
        intro p hpt hpr
        refine hfresh p hpr ?_
        rw [hck1]
        exact mem_append_left _ (mem_reverse.mpr hpt)
      refine ⟨(e.k, t) :: rs, by rw [map_cons, ← hes, ← hent], ?_, ⟨?_, hchain⟩, ?_, ?_, D, by simp, ?_⟩
      · intro r hr
        obtain rfl | hr := mem_cons.mp hr
        · exact ⟨hfine.holds, hfine.wide⟩
        · exact hheld r hr
      · have hbound := hfine.ok
        rw [hes, hiOf_next hsorted] at hbound
        exact hbound
      · rw [flatMap_cons]
        exact nodup_append.mpr ⟨hfine.nodup, hnodup, fun p hp q hq heq => hdisj p hp (heq ▸ hq)⟩
      · intro p hpm
        obtain hpm | hpm := mem_append.mp hpm
        · exact hfine.fresh p hpm
        · intro hseen
          refine hfresh p hpm ?_
          rw [hck1]
          exact mem_append_right _ hseen
      · rw [hck', hck1, after_after, flat_cons, length_append]
        have hxD : x = D := by
          split at hx
          · rw [hx, hck1]
            rfl
          · exact hx
        rw [hxD]
        rfl

variable {fuel depth : Nat} {expect : Option Nat} {p : Ptr}

theorem checkRec_reads (hok : checkRec crc v (fuel + 1) p expect lo hi depth ck = .ok ck') :
    ∃ level es, readNode crc v p = some (level, es) := by
  rw [checkRec] at hok
  cases hread : readNode crc v p with
  | none =>
    simp only [hread] at hok
    split_ifs at hok
  | some n => exact ⟨n.1, n.2, rfl⟩

theorem checkRec_step {level : Nat} (hread : readNode crc v p = some (level, es))
    : checkRec crc v (fuel + 1) p expect lo hi depth ck = .ok ck' ↔
      p.pba ∉ ck.seen ∧ (∀ x ∈ expect, level = x) ∧ (level = 0 ∧ (ck.height = 0 ∨ ck.height = depth) ∧ es ≠ [] ∧
            checkKeys .leafOrder .leafLow .leafHigh lo hi none es = .ok () ∧ ck' = after ck [p.pba] es.length depth ∨
          level ≠ 0 ∧ 2 ≤ es.length ∧ checkKeys .sepOrder .sepLow .sepHigh lo hi none es = .ok () ∧
            checkKids (fun q lo hi ck => checkRec crc v fuel q (some (level - 1)) lo hi (depth + 1) ck)
              hi es (after ck [p.pba] 0 ck.height) = .ok ck') := by
  obtain ⟨page, hpage, -⟩ := readNode_some crc hread
  obtain ⟨h0, hlt, -⟩ := readPage_some crc hpage
  rw [checkRec, if_neg (not_or.mpr ⟨h0, UInt64.not_le.mpr hlt⟩)]
  simp only [hread, ite_error_ok]
  refine and_congr_right fun _ => and_congr (by simp) ?_
  by_cases hleaf : level = 0
  · rw [if_pos hleaf, ite_error_ok, ite_error_ok, seq_ok, not_and_or, not_not, not_not]
    simp [hleaf, after, eq_comm]
  · rw [if_neg hleaf, ite_error_ok, seq_ok, not_lt]
    simp [hleaf, after]

theorem chain_leaf (hp : ∀ e ∈ es, Plain 0 e) {hi : WithTop Key} (hb : ∀ e ∈ es, lo ≤ e.k ∧ (e.k : WithTop Key) < hi)
    (hs : es.Pairwise fun a b => a.k < b.k) : ∃ rs : List (Key × Item 0), es = rs.map (entOf 0) ∧ Chain (Ok 0) rs hi ∧
      (es ≠ [] → (lo : WithTop Key) ≤ next rs hi) ∧ (flat (contents 0) rs).length = es.length := by
  induction es with
  | nil => exact ⟨[], rfl, trivial, fun h => absurd rfl h, rfl⟩
  | cons e es ih =>
    obtain ⟨rs, hes, hc, -, hlen⟩ := ih (fun x hx => hp x (mem_cons_of_mem _ hx))
      (fun x hx => hb x (mem_cons_of_mem _ hx)) hs.of_cons
    have hent : e = entOf 0 (e.k, e.v) := by
      have hchild : e.child = .null := hp e mem_cons_self
      rw [entOf, ← hchild]
    refine ⟨(e.k, e.v) :: rs, by rw [map_cons, ← hes, ← hent], ⟨?_, hc⟩, fun _ => ?_, ?_⟩
    · cases rs with
      | nil => exact (hb e mem_cons_self).2
      | cons r rs =>
        have := rel_of_pairwise_cons hs (hes ▸ mem_map_of_mem mem_cons_self)
        exact WithTop.coe_lt_coe.mpr this
    · exact WithTop.coe_le_coe.mpr (hb e mem_cons_self).1
    · rw [flat_cons, length_append, hlen, length_cons]
      exact Nat.add_comm _ _

theorem pages_leaf (p : Ptr) (rs : List (Key × Item 0)) : pages 1 (p, rs) = [p.pba] := by
  have hnil : rs.flatMap (fun r => pages 0 r.2) = [] := flatMap_eq_nil_iff.mpr fun _ _ => rfl
  change p.pba :: rs.flatMap (fun r => pages 0 r.2) = _
  rw [hnil]

theorem next_low {h : Nat} {rs : List (Key × Item (h + 1))} (hne : rs ≠ [])
    (hb : ∀ e ∈ rs.map (entOf (h + 1)), lo ≤ e.k) (hi : WithTop Key) : (lo : WithTop Key) ≤ next rs hi := by
  obtain ⟨r, rs, rfl⟩ := exists_cons_of_ne_nil hne
  exact WithTop.coe_le_coe.mpr (hb (entOf (h + 1) r) (by simp))

theorem checkRec_sound (hok : checkRec crc v fuel p expect lo hi depth ck = .ok ck') :
    ∃ (h : Nat) (t : Item (h + 1)), t.1 = p ∧ (∀ x ∈ expect, h = x) ∧ Fine crc v (h + 1) lo (hiOf hi) ck.seen t ∧
      ck' = after ck (pages (h + 1) t) (contents (h + 1) lo t).length (depth + h) := by
  induction fuel generalizing p expect lo hi depth ck ck' with
  | zero => simp [checkRec] at hok
  | succ fuel ih =>
    obtain ⟨level, es, hread⟩ := checkRec_reads crc hok
    obtain ⟨hseen, hexp, hcase⟩ := (checkRec_step crc hread).mp hok
    have hplain := (readNode_fits crc hread).2
    obtain ⟨rfl, -, hne, hkeys, rfl⟩ | ⟨hinner, htwo, hkeys, hkids⟩ := hcase
    · obtain ⟨hb, hs⟩ := checkKeys_ok.mp hkeys
      obtain ⟨rs, rfl, hc, hlo, hlen⟩ := chain_leaf hplain (fun e he => (hb e he).2) hs
      refine ⟨0, (p, rs), rfl, hexp, ⟨⟨hread, fun _ _ => trivial⟩, ⟨by simpa using hne, hlo hne, hc⟩,
          ⟨fun h => absurd rfl h, fun _ _ => trivial⟩, ?_, ?_⟩, ?_⟩
      · rw [pages_leaf]
        exact nodup_singleton _
      · rw [pages_leaf]
        simpa using hseen
      · rw [pages_leaf, ← hlen]
        rfl
    · obtain ⟨h, rfl⟩ := exists_eq_succ_of_ne_zero hinner
      obtain ⟨hb, hs⟩ := checkKeys_ok.mp hkeys
      obtain ⟨rs, rfl, hheld, hc, hnodup, hfresh, x, hx, rfl⟩ :=
        checkKids_sound crc (D := depth + 1 + h) (by
          intro q lo hi ck ck' hq
          obtain ⟨h', t, htp, hh, hfine, hck⟩ := ih hq
          obtain rfl : h' = h := hh _ rfl
          exact ⟨t, htp, hfine, hck⟩) hplain hs hkids
      have hne : rs ≠ [] := by
        rintro rfl
        simp at htwo
      rw [if_neg hne] at hx
      have hlo := next_low hne (fun e he => (hb e he).2.1) (hiOf hi)
      refine ⟨h + 1, (p, rs), rfl, hexp, ⟨⟨hread, fun r hr => (hheld r hr).1⟩, ⟨hne, hlo, hc⟩,
          ⟨fun _ => by simpa using htwo, fun r hr => (hheld r hr).2⟩, ?_, ?_⟩, ?_⟩
      · refine nodup_cons.mpr ⟨fun hmem => hfresh _ hmem ?_, hnodup⟩
        exact mem_cons_self
      · intro q hq
        obtain rfl | hq := mem_cons.mp hq
        · exact hseen
        · exact fun hmem => hfresh q hq (mem_cons_of_mem _ hmem)
      · rw [hx, after_after, Nat.zero_add, Nat.add_assoc, Nat.add_comm 1 h]
        rfl

theorem checkKids_complete {h D : Nat}
    (hrec : ∀ (t : Item (h + 1)) lo hi ck, Fine crc v (h + 1) lo (hiOf hi) ck.seen t → ck.height = 0 ∨ ck.height = D →
      rec t.1 lo hi ck = .ok (after ck (pages (h + 1) t) (contents (h + 1) lo t).length D))
    {rs : List (Key × Item (h + 1))} (hheld : ∀ r ∈ rs, Holds crc v (h + 1) r.2 ∧ Wide (h + 1) r.2)
    (hc : Chain (Ok (h + 1)) rs (hiOf hi)) (hnodup : (rs.flatMap fun r => pages (h + 1) r.2).Nodup)
    (hfresh : ∀ p ∈ rs.flatMap (fun r => pages (h + 1) r.2), p ∉ ck.seen) (hh : ck.height = 0 ∨ ck.height = D) :
    checkKids rec hi (rs.map (entOf (h + 1))) ck =
      .ok (after ck (rs.flatMap fun r => pages (h + 1) r.2) (flat (contents (h + 1)) rs).length
        (if rs = [] then ck.height else D)) := by
  induction rs generalizing ck with
  | nil => simp [checkKids, after]
  | cons r rs ih =>
    obtain ⟨hn1, hn2, hdisj⟩ := nodup_append.mp hnodup
    have hfine : Fine crc v (h + 1) r.1
        (hiOf (((rs.map (entOf (h + 1))).head?.map Ent.k).getD hi)) ck.seen r.2 := by
      rw [hiOf_next (chain_sorted (bounded (h + 1)) hc)]
      exact ⟨(hheld r mem_cons_self).1, hc.1, (hheld r mem_cons_self).2, hn1,
        fun p hp => hfresh p (mem_append_left _ hp)⟩
    have hfirst := hrec r.2 r.1 _ ck hfine hh
    have hfresh' : ∀ p ∈ rs.flatMap (fun r => pages (h + 1) r.2),
        p ∉ (after ck (pages (h + 1) r.2) (contents (h + 1) r.1 r.2).length D).seen := by
      intro p hp hseen
      obtain hseen | hseen := mem_append.mp hseen
      · exact hdisj p (mem_reverse.mp hseen) p hp rfl
      · exact hfresh p (mem_append_right _ hp) hseen
    have hrest := ih (fun x hx => hheld x (mem_cons_of_mem _ hx)) hc.2 hn2 hfresh' (.inr rfl)
    rw [map_cons, checkKids]
    simp only [entOf_key]
    change (rec r.2.1 r.1 _ ck >>= fun ck => checkKids rec hi (rs.map (entOf (h + 1))) ck) = _
    rw [hfirst]
    change checkKids rec hi (rs.map (entOf (h + 1))) _ = _
    rw [hrest, after_after, flat_cons, length_append, flatMap_cons]
    simp [after]

theorem checkRec_complete {h : Nat} {t : Item (h + 1)}
    (hf : Fine crc v (h + 1) lo (hiOf hi) ck.seen t) (hfuel : h < fuel) (hexp : ∀ x ∈ expect, h = x)
    (hh : ck.height = 0 ∨ ck.height = depth + h) : checkRec crc v fuel t.1 expect lo hi depth ck =
      .ok (after ck (pages (h + 1) t) (contents (h + 1) lo t).length (depth + h)) := by
  induction h generalizing lo hi ck fuel expect depth with
  | zero =>
    obtain ⟨fuel, rfl⟩ := exists_eq_succ_of_ne_zero (ne_of_gt hfuel)
    obtain ⟨p, rs⟩ := t
    obtain ⟨hne, hlo, hc⟩ := hf.ok
    have hlen : (flat (contents 0) rs).length = rs.length := by simp [flat, contents]
    refine (checkRec_step crc hf.holds.1).mpr ⟨hf.fresh _ mem_cons_self, hexp, .inl ⟨rfl, hh,
      by simpa using hne, checkKeys_ok.mpr ⟨?_, sorted_entOf hc⟩, ?_⟩⟩
    · intro e he
      obtain ⟨r, hr, rfl⟩ := mem_map.mp he
      have hmem : (r.1, r.2) ∈ flat (contents 0) rs := mem_flatMap.mpr ⟨r, hr, mem_singleton.mpr rfl⟩
      obtain ⟨h1, h2⟩ := (chain_flat (bounded 0) hc).2 _ hmem
      exact ⟨by simp, WithTop.coe_le_coe.mp (hlo.trans h1), h2⟩
    · change after ck (pages 1 (p, rs)) (flat (contents 0) rs).length _ = _
      rw [pages_leaf, hlen, length_map]
      rfl
  | succ h ih =>
    obtain ⟨fuel, rfl⟩ := exists_eq_succ_of_ne_zero (ne_of_gt (zero_lt_of_lt hfuel))
    obtain ⟨p, rs⟩ := t
    obtain ⟨hne, hlo, hc⟩ := hf.ok
    have hsort := chain_sorted (bounded (h + 1)) hc
    obtain ⟨hpn, hnodup⟩ := nodup_cons.mp hf.nodup
    refine (checkRec_step crc hf.holds.1).mpr ⟨hf.fresh _ mem_cons_self, hexp, .inr
      ⟨succ_ne_zero h, by simpa using hf.wide.1 (succ_ne_zero h),
        checkKeys_ok.mpr ⟨?_, sorted_entOf hc⟩, ?_⟩⟩
    · intro e he
      obtain ⟨r, hr, rfl⟩ := mem_map.mp he
      rw [entOf_key]
      refine ⟨by simp, ?_, chain_lt (bounded (h + 1)) hc r hr⟩
      obtain ⟨x, xs, rfl⟩ : ∃ x xs, rs = x :: xs := exists_cons_of_ne_nil hne
      obtain rfl | hr := mem_cons.mp hr
      · exact WithTop.coe_le_coe.mp hlo
      · exact (WithTop.coe_le_coe.mp hlo).trans (rel_of_pairwise_cons hsort hr).le
    · refine (checkKids_complete crc (v := v) (D := depth + 1 + h) ?_ ?_ hc hnodup ?_ ?_).trans ?_
      · exact fun t lo hi ck hfine hheight => ih hfine (by omega) (by simp) hheight
      · exact fun r hr => ⟨hf.holds.2 r hr, hf.wide.2 r hr⟩
      · intro q hq hseen
        obtain rfl | hseen := mem_cons.mp hseen
        · exact hpn hq
        · exact hf.fresh q (mem_cons_of_mem _ hq) hseen
      · change ck.height = 0 ∨ ck.height = _
        omega
      · rw [if_neg hne, after_after, Nat.zero_add, Nat.add_assoc, Nat.add_comm 1 h]
        rfl

end InvariantFs.BtreeCheck
