import InvariantFs.BtreeCheck

namespace InvariantFs.BtreeWrite

open ByteCodec CachedStore BtreePage BtreeSplit Btree SepChain BtreeShape Fallible List Function Prod

variable (crc : List Byte → UInt32) {v v' : Vol}

theorem frame_block {i : UInt64} (hfree : v.bit i = false) (htotal : v'.total = v.total)
    (hbit : ∀ p, p ≠ i → v'.bit p = v.bit p) (hdirty : Dirty v' i) (hmarks : ∀ p, Dirty v p → Dirty v' p)
    (hdurable : v'.dev.durable = v.dev.durable) {w : List (Patch UInt64 (List Byte))}
    (hpending : v'.dev.pending = v.dev.pending ++ w) (hqs : ∀ q ∈ w, q.cell = i) : Frame v v' := by
  refine ⟨htotal, fun p hp => ?_, hmarks, fun p hp hp' => ?_, hdurable, w, hpending, fun q hq => ?_⟩
  · rw [hbit p, hp]
    rintro rfl
    exact absurd (hfree.symm.trans hp) (by simp)
  · by_cases hi : p = i
    · exact hi ▸ hdirty
    · rw [hbit p hi, hp] at hp'
      exact absurd hp' (by simp)
  · rw [hqs q hq]
    exact hfree

theorem place_cases (gen : UInt64) (page : List Byte) (v : Vol) :
    (runs (place crc gen page) v).1 = none ∧ Frame v (runs (place crc gen page) v).2 ∨
    ∃ pba v', runs (place crc gen page) v = (some pba, v') ∧ pba ≠ 0 ∧ pba < v.total ∧
      v.bit pba = false ∧ Frame v v' ∧ v'.bit = update v.bit pba true ∧ v'.dev.view pba = page := by
  unfold place mbufAlloc
  rw [runs_bind, runs_act]
  cases hs : v.supply with
  | nil => exact .inl ⟨rfl, frame_refl v⟩
  | cons t ts =>
    dsimp only
    by_cases hbad : t.pba = 0 ∨ v.total ≤ t.pba ∨ v.bit t.pba = true
    · rw [if_pos hbad]
      exact .inl ⟨rfl, { frame_refl v with }⟩
    rw [if_neg hbad]
    simp only [not_or] at hbad
    obtain ⟨h0, hlt, hb⟩ := hbad
    have hfree : v.bit t.pba = false := by simpa using hb
    obtain ⟨hd, hm⟩ := dirty_bmDirty v t.pba
    by_cases hinit : t.initOk = false
    · obtain ⟨hd', hm'⟩ := dirty_bmDirty { v with supply := ts } t.pba
      rw [if_pos hinit]
      exact .inl ⟨rfl, frame_block (w := []) hfree (by simp) (by simp) hd' hm' (by simp) (by simp) (by simp)⟩
    rw [if_neg hinit]
    dsimp only
    rw [runs_bind, mbufWrite, runs_act]
    by_cases hw : t.writeOk = true
    · rw [if_pos hw]
      refine .inr ⟨t.pba, _, rfl, h0, UInt64.not_le.mp hlt, hfree, frame_block (i := t.pba)
        (w := [⟨t.pba, fun _ => pageBytes crc 0 gen []⟩, ⟨t.pba, fun _ => page⟩]) hfree
        (total_bmDirty v t.pba) ?_ hd hm rfl ?_ (by simp), rfl, view_write_self _ _ _⟩
      · exact fun p hp => update_of_ne hp _ _
      · simp [Store.write]
    · rw [if_neg hw]
      let v1 : Vol := { v.setBit t.pba true with
        supply := ts, dev := v.dev.write t.pba fun _ => pageBytes crc 0 gen [] }
      obtain ⟨hd', hm'⟩ := dirty_bmDirty v1 t.pba
      refine .inl ⟨rfl, frame_block (i := t.pba) (w := [⟨t.pba, fun _ => pageBytes crc 0 gen []⟩]) hfree
        ?_ ?_ hd' (fun p hp => hm' p (hm p hp)) ?_ ?_ (by simp)⟩
      · exact (total_bmDirty _ _).trans (total_bmDirty v t.pba)
      · intro p hp
        refine (update_of_ne hp _ _).trans ?_
        exact update_of_ne hp _ _
      · exact (congrArg Store.durable (dev_bmDirty v1 t.pba) :)
      · exact (congrArg Store.pending (dev_bmDirty v1 t.pba) :)

theorem place_keeps (gen : UInt64) (page : List Byte) : Keeps Frame (place crc gen page) := by
  intro v
  obtain ⟨-, hf⟩ | ⟨pba, v', hrun, -, -, -, hf, -⟩ := place_cases crc gen page v
  · exact hf
  · rw [hrun]
    exact hf

variable {gen : UInt64} {page : List Byte} {pba : UInt64}

theorem place_some (h : runs (place crc gen page) v = (some pba, v')) :
    pba ≠ 0 ∧ pba < v.total ∧ v.bit pba = false ∧ Frame v v' ∧
      v'.bit = update v.bit pba true ∧ v'.dev.view pba = page := by
  obtain ⟨hnone, -⟩ | ⟨pba', v'', hrun, hrest⟩ := place_cases crc gen page v
  · rw [h] at hnone
    exact absurd hnone (by simp)
  · obtain ⟨rfl, rfl⟩ := ended (hrun.symm.trans h)
    exact hrest

theorem readPage_placed (h : runs (place crc gen page) v = (some pba, v')) (hlen : page.length = pageSize)
    (hv : pageValidate crc page) (flags : UInt32) : readPage crc v' (ptrSet pba page flags) = some page := by
  obtain ⟨h0, hlt, -, hf, hbit, hview⟩ := place_some crc h
  have hb : v'.bit pba = true := by rw [hbit, update_self]
  change (if pba = 0 ∨ v'.total ≤ pba ∨ v'.bit pba = false ∨ ¬ PtrMatches crc _ (v'.dev.view pba)
    then none else some (v'.dev.view pba)) = _
  rw [hview, if_neg]
  rw [hf.total, hb]
  simp only [not_or, not_not]
  exact ⟨h0, UInt64.not_le.mpr hlt, by simp, hlen, rfl, rfl, hv⟩

theorem btWrite_keeps (level : Nat) (gen : UInt64) (es : List Ent) : Keeps Frame (btWrite crc level gen es) := by
  unfold btWrite
  split
  · exact keeps_failure
  · exact keeps_seq (place_keeps crc _ _) fun _ => keeps_pure _

theorem btWrite_read {level : Nat} (hl : level < 2 ^ 16) {es : List Ent} (hplain : ∀ e ∈ es, Plain level e)
    {p : Ptr} (hrun : runs (btWrite crc level gen es) v = (some p, v')) :
    Frame v v' ∧ readNode crc v' p = some (level, es) ∧ v.bit p.pba = false ∧ p.gen = gen := by
  unfold btWrite at hrun
  split at hrun
  · simp at hrun
  · next hc =>
    simp only [not_or, Nat.not_lt] at hc
    obtain ⟨hn, hu, -⟩ := hc
    obtain ⟨pba, t, hplace, hpure⟩ := bind_some.mp hrun
    obtain ⟨rfl, rfl⟩ := ended hpure
    obtain ⟨-, -, hfree, hf, -⟩ := place_some crc hplace
    have hread := readPage_placed crc hplace (length_pageBytes crc hu gen)
      (pageValidate_pageBytes crc level gen _) (if level = 0 then bpLeaf else bpInternal)
    refine ⟨hf, ?_, hfree, (pageHdr_pageBytes crc hl hn gen).1⟩
    exact Option.bind_eq_some_iff.mpr ⟨_, hread, decodeNode_pageBytes crc hl hn hu hplain gen⟩

variable {h : Nat} {rs : List (Key × Item h)}

theorem btWrite_item (hl : h < 2 ^ 16) (hheld : ∀ r ∈ rs, Holds crc v h r.2) {p : Ptr}
    (hrun : runs (btWrite crc h gen (rs.map (entOf h))) v = (some p, v')) :
    Frame v v' ∧ Holds crc v' (h + 1) (p, rs) ∧ v.bit p.pba = false ∧ p.gen = gen := by
  have hplain : ∀ e ∈ rs.map (entOf h), Plain h e := by
    intro e he
    obtain ⟨r, -, rfl⟩ := mem_map.mp he
    exact plain_entOf h r
  obtain ⟨hf, hread, hfree, hgen⟩ := btWrite_read crc hl hplain hrun
  exact ⟨hf, ⟨hread, fun r hr => holds_frame crc hf (hheld r hr)⟩, hfree, hgen⟩

theorem writeAll_keeps (level : Nat) (gen : UInt64) (ps : List (List Ent)) :
    Keeps Frame (writeAll crc level gen ps) := by
  induction ps with
  | nil => exact keeps_pure _
  | cons es ps ih =>
    exact keeps_seq (btWrite_keeps crc level gen es) fun _ =>
      keeps_seq ih fun _ => keeps_pure _

theorem writePieces_keeps (level : Nat) (gen : UInt64) (es : List Ent) :
    Keeps Frame (writePieces crc level gen es) := by
  unfold writePieces
  split
  · exact writeAll_keeps crc level gen _
  · split
    · exact keeps_failure
    · exact writeAll_keeps crc level gen _

/-- Freshly written items: their pages are new and distinct, and carry the generation. -/
structure Written (v v' : Vol) {h : Nat} (gen : UInt64) (ts : List (Item (h + 1))) : Prop where
  holds : ∀ t ∈ ts, Holds crc v' (h + 1) t
  fresh : ∀ t ∈ ts, v.bit t.1.pba = false
  nodup : (ts.map fun t => t.1.pba).Nodup
  gens : ∀ t ∈ ts, t.1.gen = gen

theorem writeAll_items (hl : h < 2 ^ 16) (parts : List (List (Key × Item h)))
    (hheld : ∀ rs ∈ parts, ∀ r ∈ rs, Holds crc v h r.2) {ps : List Ptr}
    (hrun : runs (writeAll crc h gen (parts.map (List.map (entOf h)))) v = (some ps, v')) :
    Frame v v' ∧ ∃ ts : List (Item (h + 1)), ts.map fst = ps ∧ ts.map snd = parts ∧ Written crc v v' gen ts := by
  induction parts generalizing v ps with
  | nil =>
    obtain ⟨rfl, rfl⟩ := ended hrun
    exact ⟨frame_refl v, [], rfl, rfl, ⟨by simp, by simp, by simp, by simp⟩⟩
  | cons rs parts ih =>
    obtain ⟨p, v1, hfirst, hrest⟩ := bind_some.mp hrun
    obtain ⟨qs, v2, hmore, hpure⟩ := bind_some.mp hrest
    obtain ⟨rfl, rfl⟩ := ended hpure
    obtain ⟨hf1, hp1, hfree, hgen⟩ := btWrite_item crc hl (hheld rs mem_cons_self) hfirst
    obtain ⟨hf2, ts, hfst, hsnd, hw⟩ := ih (fun rs' hrs' r hr =>
      holds_frame crc hf1 (hheld rs' (mem_cons_of_mem _ hrs') r hr)) hmore
    have hset := (holds_pages crc hp1 p.pba mem_cons_self).2.2
    refine ⟨frame_trans hf1 hf2, (p, rs) :: ts, congrArg (List.cons p) hfst,
      congrArg (List.cons rs) hsnd, ⟨?_, ?_, ?_, ?_⟩⟩
    · intro t ht
      obtain rfl | ht := mem_cons.mp ht
      · exact holds_frame crc hf2 hp1
      · exact hw.holds t ht
    · intro t ht
      obtain rfl | ht := mem_cons.mp ht
      · exact hfree
      · exact frame_free hf1 (hw.fresh t ht)
    · refine nodup_cons.mpr ⟨fun hmem => ?_, hw.nodup⟩
      obtain ⟨t, ht, heq⟩ := mem_map.mp hmem
      have := hw.fresh t ht
      rw [heq, hset] at this
      exact absurd this (by simp)
    · intro t ht
      obtain rfl | ht := mem_cons.mp ht
      · exact hgen
      · exact hw.gens t ht

theorem map_eq_flatten {α β : Type} {f : α → β} {l : List α} {ps : List (List β)}
    (h : l.map f = ps.flatten) : ∃ parts : List (List α), parts.flatten = l ∧ ps = parts.map (List.map f) := by
  induction ps generalizing l with
  | nil => exact ⟨[], by simpa using h.symm, rfl⟩
  | cons p ps ih =>
    obtain ⟨a, b, rfl, rfl, hb⟩ := map_eq_append_iff.mp h
    obtain ⟨parts, rfl, rfl⟩ := ih hb
    exact ⟨a :: parts, rfl, rfl⟩

theorem recSize_short (hh : h ≠ 0)
    (hs : ∀ r ∈ rs, r.1.length ≤ keyMax) : ∀ e ∈ rs.map (entOf h), recSize h e ≤ shortRec := by
  intro e he
  obtain ⟨r, hr, rfl⟩ := mem_map.mp he
  have := hs r hr
  rw [recSize, if_neg hh, entOf_key]
  simp only [keyMax, shortRec] at this ⊢
  omega

theorem writePieces_items (hl : h < 2 ^ 16) (hne : rs ≠ []) (hheld : ∀ r ∈ rs, Holds crc v h r.2) {ps : List Ptr}
    (hrun : runs (writePieces crc h gen (rs.map (entOf h))) v = (some ps, v')) :
    Frame v v' ∧ ∃ ts : List (Item (h + 1)), ts.map fst = ps ∧ (ts.map snd).flatten = rs ∧
      ts ≠ [] ∧ ts.length ≤ 3 ∧ (∀ t ∈ ts, t.2 ≠ []) ∧ Written crc v v' gen ts ∧
      (h ≠ 0 → (∀ r ∈ rs, r.1.length ≤ keyMax) → 2 ≤ rs.length →
        used h (rs.map (entOf h)) ≤ 7000 → ∀ t ∈ ts, 2 ≤ t.2.length) := by
  unfold writePieces at hrun
  split at hrun
  · obtain ⟨hf, ts, hfst, hsnd, hw⟩ := writeAll_items crc hl [rs] (by simpa using hheld) hrun
    obtain ⟨t, rfl⟩ : ∃ t, ts = [t] := length_eq_one_iff.mp (by
      have := congrArg List.length hsnd
      rwa [length_map] at this)
    have ht : t.2 = rs := List.cons.inj hsnd |>.1
    refine ⟨hf, [t], hfst, by rw [hsnd]; simp, by simp, by simp, ?_, hw, ?_⟩
    · intro t' ht'
      rw [mem_singleton.mp ht', ht]
      exact hne
    · intro _ _ h2 _ t' ht'
      rw [mem_singleton.mp ht', ht]
      exact h2
  · next hbig =>
    split at hrun
    · simp at hrun
    · next ps' hsplit =>
      obtain ⟨hflat, hps, hpne⟩ := split3_pieces hsplit
      obtain ⟨parts, rfl, rfl⟩ := map_eq_flatten hflat.symm
      obtain ⟨hf, ts, hfst, hsnd, hw⟩ := writeAll_items crc hl _ (fun rs hrs r hr =>
        hheld r (mem_flatten.mpr ⟨rs, hrs, hr⟩)) hrun
      have hmem : ∀ t ∈ ts, t.2 ∈ parts := fun t ht => hsnd ▸ mem_map_of_mem ht
      refine ⟨hf, ts, hfst, by rw [hsnd], ?_, ?_, ?_, hw, ?_⟩
      · rintro rfl
        exact hps (by rw [← hsnd]; rfl)
      · have := split3_length hsplit
        rwa [length_map, ← hsnd, length_map] at this
      · intro t ht hnil
        refine hpne _ (mem_map_of_mem (hmem t ht)) ?_
        rw [hnil]
        rfl
      · intro hh hshort _ hbound t ht
        have hrec := recSize_short hh hshort
        obtain ⟨s, hs⟩ := splitPoint_exists hrec (Nat.not_le.mp hbig) hbound
        obtain ⟨h2, hend⟩ := splitPoint_two hrec (Nat.not_le.mp hbig) hs
        obtain ⟨s, rfl⟩ := Nat.exists_eq_succ_of_ne_zero (by omega : s ≠ 0)
        simp only [split3, hs] at hsplit
        have hpart := Option.some.inj hsplit ▸ mem_map_of_mem (f := List.map (entOf h)) (hmem t ht)
        rw [← length_map (entOf h)]
        simp only [mem_cons, not_mem_nil, or_false] at hpart
        obtain hpart | hpart := hpart
        · rw [hpart, length_take]
          omega
        · rw [hpart, length_drop]
          omega

def minKey {h : Nat} (t : Item (h + 1)) : Key := (t.2.head?.map fst).getD []

def asRecs {h : Nat} (ts : List (Item (h + 1))) : List (Key × Item (h + 1)) :=
  ts.map fun t => (minKey t, t)

variable {ts : List (Item (h + 1))}

theorem separators_items (hheld : ∀ t ∈ ts, Holds crc v (h + 1) t) (hne : ∀ t ∈ ts, t.2 ≠ []) :
    runs (separators crc (ts.map fst)) v = (some ((asRecs ts).map (entOf (h + 1))), v) := by
  induction ts with
  | nil => rfl
  | cons t ts ih =>
    have hrest := ih (fun t' ht' => hheld t' (mem_cons_of_mem _ ht')) fun t' ht' =>
      hne t' (mem_cons_of_mem _ ht')
    obtain ⟨r, rs, hrs⟩ := exists_cons_of_ne_nil (hne t mem_cons_self)
    have hread := (hheld t mem_cons_self).1
    rw [hrs, map_cons] at hread
    have hkey := firstKey_node crc hread
    rw [entOf_key] at hkey
    have hmin : minKey t = r.1 := by simp [minKey, hrs]
    refine bind_some.mpr ⟨r.1, v, hkey, bind_some.mpr ⟨_, v, hrest, ?_⟩⟩
    rw [runs_pure, ← hmin]
    rfl

theorem chain_parts (hne : ∀ t ∈ ts, t.2 ≠ []) {hi : WithTop Key} (hc : Chain (Ok h) (ts.map snd).flatten hi) :
    Chain (Ok (h + 1)) (asRecs ts) hi ∧ next (asRecs ts) hi = next (ts.map snd).flatten hi ∧
      flat (contents (h + 1)) (asRecs ts) = flat (contents h) (ts.map snd).flatten := by
  induction ts with
  | nil => exact ⟨trivial, rfl, rfl⟩
  | cons t ts ih =>
    rw [map_cons, flatten_cons] at hc ⊢
    obtain ⟨hfirst, hrest⟩ := chain_append.mp hc
    obtain ⟨h1, h2, h3⟩ := ih (fun t' ht' => hne t' (mem_cons_of_mem _ ht')) hrest
    obtain ⟨r, rs, hrs⟩ := exists_cons_of_ne_nil (hne t mem_cons_self)
    have hmin : minKey t = r.1 := by simp [minKey, hrs]
    refine ⟨⟨⟨hne t mem_cons_self, ?_, ?_⟩, h1⟩, ?_, ?_⟩
    · change ((minKey t : Key) : WithTop Key) ≤ next t.2 _
      rw [hrs, hmin]
      exact le_rfl
    · change Chain (Ok h) t.2 (next (asRecs ts) hi)
      rw [h2]
      exact hfirst
    · change ((minKey t : Key) : WithTop Key) = next (t.2 ++ _) hi
      rw [hrs, hmin]
      rfl
    · rw [flat_append, ← h3]
      rfl

end InvariantFs.BtreeWrite
