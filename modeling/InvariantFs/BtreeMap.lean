import InvariantFs.BtreeDelete
import InvariantFs.BtreeSupply

namespace InvariantFs.BtreeMap

open ByteCodec BtreePage BtreeSplit Btree SortedMap SepChain Fallible BtreeShape BtreeRead BtreeCheck Nat
open BtreeWrite BtreeRow BtreeInsert BtreeRebalance BtreeDelete BtreeSupply
open List hiding after

inductive Edit where
  | put (key : Key) (val : Val)
  | del (key : Key)

def Edit.key : Edit → Key
  | .put k _ => k
  | .del k => k

def Edit.apply (m : List (Key × Val)) : Edit → List (Key × Val)
  | .put k x => SortedMap.put m k x
  | .del k => SortedMap.del m k

variable (crc : List Byte → UInt32)

def Edit.call (root : Ptr) : Edit → Act Vol Ptr
  | .put k x => upsert crc root k x
  | .del k => delete crc root k

structure Reads (v : Vol) (root : Ptr) (m : List (Key × Val)) : Prop where
  search : ∀ k, search crc v root k = some (lookup m k)
  scan : ∀ {σ : Type} (cb : σ → Key → Val → σ × Int) (lo hi : Key) (s : σ),
    scan crc v root lo hi cb s = visit cb (range m lo (hiOf hi)) s

/-- No key on the page behind a pointer or on the pages below it is longer than `n` bytes. -/
def KeysWithin (v : Vol) (n : Nat) : Nat → Ptr → Prop
  | 0, _ => True
  | fuel + 1, p => ∀ level es, readNode crc v p = some (level, es) →
      ∀ e ∈ es, e.k.length ≤ n ∧ (level ≠ 0 → KeysWithin v n fuel e.child)

variable {crc}

variable {v : Vol} {root : Ptr} {h : Nat} {m : List (Key × Val)} {rs : List (Key × Item (h + 1))}

theorem reads_row (hh : h < maxDepth) (hroot : Rooted root rs) (hr : Row crc v [] ⊤ m rs) : Reads crc v root m := by
  obtain ⟨h0, rfl⟩ | ⟨h0, t, rfl, rfl⟩ := hroot
  · obtain rfl : m = [] := hr.contents.symm
    refine ⟨fun k => ?_, fun cb lo hi s => ?_⟩
    · rw [search, if_pos h0]
      rfl
    · rw [scan, if_pos h0]
      rfl
  · have ht := hr.held _ mem_cons_self
    have hm : contents (h + 1) [] t = m := (append_nil _).symm.trans hr.contents
    refine ⟨fun k => ?_, fun cb lo hi s => ?_⟩
    · rw [search, if_neg h0, ← hm]
      exact searchLoop_lookup crc ht hr.chain.1 (WithTop.coe_lt_top k) hh
    · rw [scan, if_neg h0, ← hm]
      refine scanRec_visit crc cb lo hi ht hr.chain.1 ?_ s
      simp only [maxDepth, maxLevels] at hh ⊢
      omega

theorem check_row {ck : Ck} (hck : check crc v root = .ok ck) :
    ∃ (h : Nat) (rs : List (Key × Item (h + 1))) (m : List (Key × Val)), Rooted root rs ∧
      Row crc v [] ⊤ m rs ∧ (∀ r ∈ rs, Wide (h + 1) r.2) ∧ (rs ≠ [] → ck.height = h + 1) ∧
      (rs = [] → h = 0) ∧ ∀ p, p ∈ ck.seen ↔ p ∈ rowPages rs := by
  unfold check at hck
  split_ifs at hck with h0
  · cases hck
    exact ⟨0, [], [], .inl ⟨h0, rfl⟩, ⟨by simp, trivial, le_top, rfl, nodup_nil⟩, by simp, by simp,
      by simp, by simp [rowPages]⟩
  · obtain ⟨h, t, rfl, -, hfine, rfl⟩ := checkRec_sound crc hck
    refine ⟨h, [([], t)], contents (h + 1) [] t, .inr ⟨h0, t, rfl, rfl⟩, ⟨?_, ⟨hfine.ok, trivial⟩, le_rfl,
      append_nil _, (rowPages_single [] t).symm ▸ hfine.nodup⟩, by simpa using hfine.wide, fun _ => ?_, by simp, ?_⟩
    · simpa using hfine.holds
    · simp only [after]
      omega
    · intro p
      rw [rowPages_single]
      simp [after]

theorem empty_refused (hr : readNode crc v root = some (0, [])) (ck : Ck) : check crc v root ≠ .ok ck := by
  intro hck
  obtain ⟨page, hpage, -⟩ := readNode_some crc hr
  obtain ⟨h, rs, m, ⟨h0, -⟩ | ⟨-, t, rfl, rfl⟩, hrow, -⟩ := check_row hck
  · exact (readPage_some crc hpage).1 h0
  · have hheld := (hrow.held _ mem_cons_self).1
    rw [hr, Option.some_inj, Prod.mk_inj] at hheld
    exact hrow.chain.1.1 (map_eq_nil_iff.mp hheld.2.symm)

theorem readNode_empty {v' : Vol} {gen pba : UInt64}
    (hplace : runs (place crc gen (pageBytes crc 0 gen [])) v = (some pba, v')) (flags : UInt32) :
    readNode crc v' (ptrSet pba (pageBytes crc 0 gen []) flags) = some (0, []) := by
  have hpage := readPage_placed crc hplace (length_pageBytes crc (by decide) gen)
    (pageValidate_pageBytes crc 0 gen _) flags
  exact Option.bind_eq_some_iff.mpr
    ⟨_, hpage, decodeNode_pageBytes crc (by decide) (by decide) (by decide) (by simp) gen⟩

theorem row_check (hh : h < 2 ^ 16) (hroot : Rooted root rs) (hr : Row crc v [] ⊤ m rs)
    (hw : ∀ r ∈ rs, Wide (h + 1) r.2) : ∃ ck, check crc v root = .ok ck ∧ ck.height ≤ h + 1 := by
  unfold check
  obtain ⟨h0, rfl⟩ | ⟨h0, t, rfl, rfl⟩ := hroot
  · exact ⟨_, if_pos h0, zero_le _⟩
  · rw [if_neg h0]
    have hfine : Fine crc v (h + 1) [] (hiOf []) (⟨[], 0, 0, 0⟩ : Ck).seen t :=
      ⟨hr.held _ mem_cons_self, hr.chain.1, hw _ mem_cons_self, rowPages_single [] t ▸ hr.nodup, by simp⟩
    refine ⟨_, checkRec_complete crc hfine ?_ (by simp) (.inl rfl), ?_⟩
    · simp only [maxLevels]
      omega
    · simp only [after]
      omega

variable {n : Nat} {t : Item (h + 1)}

theorem short_of_keysWithin {fuel : Nat} (ht : Holds crc v (h + 1) t)
    (hn : n ≤ keyMax) (hf : h < fuel) (hk : KeysWithin crc v n fuel t.1) : Short (h + 1) t := by
  induction h generalizing fuel with
  | zero =>
    obtain _ | fuel := fuel
    · omega
    intro r hr
    have := (hk _ _ ht.1 _ (mem_map_of_mem hr)).1
    exact ⟨this.trans hn, trivial⟩
  | succ h ih =>
    obtain _ | fuel := fuel
    · omega
    intro r hr
    obtain ⟨hlen, hsub⟩ := hk _ _ ht.1 _ (mem_map_of_mem hr)
    rw [entOf_key] at hlen
    exact ⟨hlen.trans hn, ih (ht.2 r hr) (by omega) (hsub (succ_ne_zero h))⟩

theorem edit_row {e : Edit} {root' : Ptr} {v' : Vol} (hroot : Rooted root rs) (hr : Row crc v [] ⊤ m rs)
    (hh : h < maxDepth) (hrun : runs (e.call crc root) v = (some root', v')) :
    Frame v v' ∧ ∃ (h' : Nat) (rs' : List (Key × Item (h' + 1))), h' ≤ h + 1 ∧ h' < 2 ^ 16 ∧
      Rooted root' rs' ∧ Row crc v' [] ⊤ (e.apply m) rs' ∧ Made v rs rs' ∧
      (Neat rs → e.key.length ≤ keyMax → Neat rs') := by
  cases e with
  | put k x =>
    obtain ⟨hf, -, hrest⟩ := upsert_row hroot hr hrun
    exact ⟨hf, hrest⟩
  | del k =>
    obtain ⟨hf, -, h', rs', hle, hrt, hrow, hmade, hneat⟩ := delete_row hroot hr hrun
    refine ⟨hf, h', rs', by omega, ?_, hrt, hrow, hmade, fun hn _ => hneat hn⟩
    simp only [maxDepth] at hh
    omega

/-- The tree refines the ordered map. -/
theorem edit_refines {e : Edit} {root root' : Ptr} {v v' : Vol} {ck : Ck} (hck : check crc v root = .ok ck)
    (hdepth : ck.height < maxDepth) (hrun : runs (e.call crc root) v = (some root', v')) :
    ∃ m, Sorted m ∧ Reads crc v root m ∧ Reads crc v' root' (e.apply m) ∧
      (∀ p ∈ ck.seen, v'.dev.view p = v.dev.view p) ∧
      (KeysWithin crc v keyMax maxDepth root → e.key.length ≤ keyMax → ∃ ck', check crc v' root' = .ok ck') := by
  obtain ⟨h, rs, m, hroot, hr, hwide, hheight, hzero, hseen⟩ := check_row hck
  have hh : h + 1 < maxDepth := by
    by_cases hnil : rs = []
    · rw [hzero hnil]
      decide
    · rw [← hheight hnil]
      exact hdepth
  obtain ⟨hf, h', rs', hle, hlt, hroot', hr', -, hneat⟩ := edit_row hroot hr (by omega) hrun
  refine ⟨m, row_sorted hr, reads_row (by omega) hroot hr, reads_row (by omega) hroot' hr', ?_, ?_⟩
  · intro p hp
    exact frame_view hf (row_bit hr.held p ((hseen p).mp hp))
  · intro hkeys hkey
    have hn : Neat rs := by
      intro x hx
      obtain ⟨-, rfl⟩ | ⟨-, t, rfl, rfl⟩ := hroot
      · simp at hx
      · obtain rfl := mem_singleton.mp hx
        exact ⟨zero_le _, short_of_keysWithin (hr.held _ hx) le_rfl (by omega) hkeys, hwide _ hx⟩
    obtain ⟨ck', hck', -⟩ := row_check hlt hroot' hr' fun r hm => (hneat hn hkey r hm).2.2
    exact ⟨ck', hck'⟩

variable {lo : Key} {hi : WithTop Key}

theorem wide_most (hok : Ok (h + 1) lo hi t) (hw : Wide (h + 1) t) :
    2 ^ h ≤ (contents (h + 1) lo t).length ∧ 2 ^ h ≤ (pages (h + 1) t).length := by
  induction h generalizing lo hi with
  | zero => exact ⟨length_pos_iff.mpr (contents_ne hok), by simp [pages]⟩
  | succ h ih =>
    obtain ⟨p, _ | ⟨r, _ | ⟨s, rs⟩⟩⟩ := t
    · exact absurd rfl hok.1
    · have := hw.1 (succ_ne_zero h)
      simp at this
    · obtain ⟨-, -, hr, hs, -⟩ := hok
      have h1 := ih hr (hw.2 r (by simp))
      have h2 := ih hs (hw.2 s (by simp))
      have hlen : (contents (h + 2) lo (p, r :: s :: rs)).length = (contents (h + 1) r.1 r.2).length +
          ((contents (h + 1) s.1 s.2).length + (flat (contents (h + 1)) rs).length) := by
        change (flat (contents (h + 1)) (r :: s :: rs)).length = _
        rw [flat_cons, flat_cons, length_append, length_append]
      rw [hlen, pages, length_cons, flatMap_cons, flatMap_cons, length_append, length_append, Nat.pow_succ]
      omega

theorem row_unique {h' : Nat} {rs' : List (Key × Item (h' + 1))} {m' : List (Key × Val)} (hroot : Rooted root rs)
    (hroot' : Rooted root rs') (hr : Row crc v [] ⊤ m rs) (hr' : Row crc v [] ⊤ m' rs') : m = m' := by
  obtain ⟨h0, rfl⟩ | ⟨h0, t, rfl, rfl⟩ := hroot
  · rw [(rooted_nil hroot' hr').mp h0]
    exact hr.contents.symm
  · obtain ⟨h1, -⟩ | ⟨-, t', heq, rfl⟩ := hroot'
    · exact absurd h1 h0
    have ht := hr.held _ mem_cons_self
    have ht' := hr'.held _ mem_cons_self
    obtain ⟨rfl, -⟩ : h' = h ∧ _ := by
      have := ht'.1.symm.trans (heq ▸ ht.1)
      simpa using this
    obtain rfl : t' = t := holds_unique crc ht' ht heq
    exact hr.contents.symm.trans hr'.contents

theorem wide_checked {ck : Ck} (hck : check crc v t.1 = .ok ck) (h0 : t.1.pba ≠ 0)
    (ht : Holds crc v (h + 1) t) : Wide (h + 1) t := by
  obtain ⟨h', rs, m, hroot, hr, hwide, -⟩ := check_row hck
  obtain ⟨h1, -⟩ | ⟨-, t', heq, rfl⟩ := hroot
  · exact absurd h1 h0
  have ht' := hr.held _ mem_cons_self
  obtain ⟨rfl, -⟩ : h' = h ∧ _ := by
    have := ht'.1.symm.trans (heq ▸ ht.1)
    simpa using this
  rw [← holds_unique crc ht' ht heq]
  exact hwide _ mem_cons_self

def longKey (i : Byte) : Key := List.replicate 2009 0 ++ [i]

def longVal : Val := List.replicate 2000 0

variable {i j : Byte}

theorem long_lt (h : i < j) : List.replicate n (0 : Byte) ++ [i] < List.replicate n 0 ++ [j] := by
  induction n with
  | zero => exact cons_lt_cons_iff.mpr (.inl h)
  | succ n ih => exact cons_lt_cons_iff.mpr (.inr ⟨rfl, ih⟩)

theorem longKey_size (i : Byte) : recSize 0 (entOf 0 (longKey i, longVal)) = 4014 ∧
      ∀ (h : Nat) (t : Item (h + 1)), recSize (h + 1) (entOf (h + 1) (longKey i, t)) = 2036 := by
  have hlen : (longKey i).length = 2010 := by rw [longKey, length_append, length_replicate]; rfl
  have hval : longVal.length = 2000 := length_replicate
  exact ⟨by rw [recSize, if_pos rfl, entOf, hlen, hval], fun h t => by
    rw [recSize, if_neg (succ_ne_zero h), entOf_key, hlen]⟩

theorem split3_pair {level : Nat} {e f : Ent} (he : recSize level e = 4014) (hf : recSize level f = 4014) :
    split3 level [e, f] = some [[e], [f]] := by
  simp [split3, splitPoint, startPoint, halfPoint, shrink, grow, used, pageSize, pageHdrLen, he, hf]

theorem split3_triple {level : Nat} {e f g : Ent} (he : recSize level e = 2036)
    (hf : recSize level f = 2036) (hg : recSize level g = 2036) : split3 level [e, f, g] = some [[e, f], [g]] := by
  simp [split3, splitPoint, startPoint, halfPoint, shrink, grow, used, pageSize, pageHdrLen, he, hf, hg]

theorem split_long (ha : Ample (2 + n) v) (hij : i < j) (hj : (longKey j : WithTop Key) < hi) {t : Item 1}
    (ht : t.2 = [(longKey i, longVal)]) (hr : Row crc v lo hi [(longKey i, longVal)] [(lo, t)]) (gen : UInt64)
    (fuel : Nat) : ∃ (A B : Item 1) (v' : Vol), A.2 = [(longKey i, longVal)] ∧ B.2 = [(longKey j, longVal)] ∧
      runs (insRec crc (longKey j) longVal gen (fuel + 1) t.1) v = (some ([A.1, B.1], 0), v') ∧
      Frame v v' ∧ Row crc v' lo hi [(longKey i, longVal), (longKey j, longVal)] (asRecs [A, B]) ∧
      Made v [(lo, t)] (asRecs [A, B]) ∧ Ample n v' := by
  obtain ⟨hb, -⟩ := row_below hr
  rw [below_single] at hb
  have hlt : longKey i < longKey j := long_lt hij
  have hput : put t.2 (longKey j) longVal = [(longKey i, longVal), (longKey j, longVal)] := by
    rw [ht, ← append_nil [(longKey i, longVal)]]
    exact put_new (by simpa using hlt) (by simp)
  have hlo : lo ≤ longKey j := by
    have hlow := hb.low
    rw [ht] at hlow
    exact (WithTop.coe_le_coe.mp hlow).trans hlt.le
  have hrow := row_put hb hj longVal
  rw [min_eq_left hlo, ← ht, hput] at hrow
  obtain ⟨⟨hi0, -⟩, hj0, -⟩ := And.intro (longKey_size i) (longKey_size j)
  obtain ⟨hfull, -⟩ | heq := insRec_leaf (hr.held _ mem_cons_self) hb.chain (longKey j) longVal gen fuel
  · simp [ht, maxEntries] at hfull
  rw [hput] at heq
  obtain ⟨qs, v', hpieces, hall, ha'⟩ := writePieces_ample crc gen 0
    ([(longKey i, longVal), (longKey j, longVal)].map (entOf 0))
    ([[(longKey i, longVal)], [(longKey j, longVal)]].map (List.map (entOf 0)))
    (by simp [used, hi0, hj0, pageSize, pageHdrLen]) (split3_pair hi0 hj0) ha (by
      intro es hes
      simp only [map_cons, map_nil, mem_cons, not_mem_nil, or_false] at hes
      obtain rfl | rfl := hes
      · simp [Fits, used, hi0, pageSize, pageHdrLen, maxEntries]
      · simp [Fits, used, hj0, pageSize, pageHdrLen, maxEntries])
  obtain ⟨hf, ts, rfl, hsnd, hw⟩ := writeAll_items crc (Nat.two_pow_pos 16) _ (fun _ _ _ _ => trivial) hall
  obtain ⟨A, ts, rfl, hA, hts⟩ := map_eq_cons_iff.mp hsnd
  obtain ⟨B, ts, rfl, hB, hnil⟩ := map_eq_cons_iff.mp hts
  obtain rfl := map_eq_nil_iff.mp hnil
  have hfull : ∀ t ∈ [A, B], t.2 ≠ [] := by simp [hA, hB]
  obtain ⟨hrow', hmade⟩ := row_above hfull (by rwa [hsnd]) hw
  refine ⟨A, B, v', hA, hB, heq.trans (bind_some.mpr ⟨_, _, hpieces, rfl⟩), hf, hrow', fun p hp => ?_, ha'⟩
  obtain hp | hp := hmade p hp
  · obtain ⟨r, -, hp⟩ := mem_flatMap.mp hp
    cases hp
  · exact .inr hp

theorem root_long (ha : Ample (n + 1) v) (hh : h + 1 < 2 ^ 16)
    {l : List (Key × Val)} {A B : Item (h + 1)} (hA : minKey A = longKey i)
    (hB : minKey B = longKey j) (hr : Row crc v lo hi l (asRecs [A, B])) (gen : UInt64) :
    ∃ (p : Ptr) (v' : Vol), runs (do
        let es ← separators crc [A.1, B.1]
        let p ← btWrite crc (h + 1) gen es
        pure (Ptr.asRoot p)) v = (some (Ptr.asRoot p), v') ∧
      (Ptr.asRoot p).pba ≠ 0 ∧
      Row crc v' (h := h + 2) [] hi l [([], (Ptr.asRoot p, asRecs [A, B]))] ∧ Ample n v' := by
  have hheld : ∀ t ∈ [A, B], Holds crc v (h + 1) t := fun t ht =>
    hr.held (minKey t, t) (mem_map_of_mem ht)
  have hfull : ∀ t ∈ [A, B], t.2 ≠ [] := by
    obtain ⟨hA', hB', -⟩ := hr.chain
    simpa using ⟨hA'.1, hB'.1⟩
  have hsep := separators_items crc hheld hfull
  have hfits : Fits (h + 1) ((asRecs [A, B]).map (entOf (h + 1))) := by
    have hi0 := (longKey_size i).2 h A
    have hj0 := (longKey_size j).2 h B
    have hpA := (holds_pages crc (hheld A (by simp)) A.1.pba mem_cons_self).1
    have hpB := (holds_pages crc (hheld B (by simp)) B.1.pba mem_cons_self).1
    refine ⟨by simp [asRecs, maxEntries], ?_, fun _ => ?_⟩
    · simp [asRecs, hA, hB, used, hi0, hj0, pageSize, pageHdrLen]
    · simpa [asRecs, entOf] using ⟨hpA, hpB⟩
  obtain ⟨p, v', hwrite, ha'⟩ := btWrite_ample crc ha gen hfits
  obtain ⟨-, -, hrow, -⟩ := btWrite_row hh (by simp [asRecs]) hr hwrite
  obtain ⟨hrt, hrow'⟩ := row_asRoot hrow
  refine ⟨p, v', bind_some.mpr ⟨_, v, hsep, bind_some.mpr ⟨p, v', hwrite, rfl⟩⟩, ?_, hrow', ha'⟩
  exact (holds_pages crc (hrow.held _ mem_cons_self) p.pba mem_cons_self).1

theorem minKey_single {t : Item 1} {k : Key} {x : Val} (h : t.2 = [(k, x)]) : minKey t = k := by
  simp [minKey, h]

theorem upsert_second (ha : Ample (3 + n) v) (h0 : root.pba ≠ 0)
    (hr : Row crc v (h := 1) [] ⊤ [(longKey 0, longVal)] [([], (root, [(longKey 0, longVal)]))]) :
    ∃ (root' : Ptr) (v' : Vol) (A B : Item 1),
      runs (upsert crc root (longKey 1) longVal) v = (some root', v') ∧ root'.pba ≠ 0 ∧
      A.2 = [(longKey 0, longVal)] ∧ B.2 = [(longKey 1, longVal)] ∧
      Row crc v' (h := 2) [] ⊤ [(longKey 0, longVal), (longKey 1, longVal)]
        [([], (root', [(longKey 0, A), (longKey 1, B)]))] ∧ Ample n v' := by
  have hlt : (longKey 1 : WithTop Key) < ⊤ := WithTop.coe_lt_top _
  obtain ⟨A, B, v1, hA, hB, hins, -, hrow, -, ha1⟩ := split_long (n := n + 1)
    (by rwa [Nat.add_comm 2, ← Nat.add_comm 3])
    (by decide : (0 : Byte) < 1) hlt rfl hr (root.gen + 1) 65534
  obtain ⟨p, v', hrun, hp, hrow', ha'⟩ := root_long ha1 (by decide) (minKey_single hA) (minKey_single hB) hrow
    (root.gen + 1)
  refine ⟨Ptr.asRoot p, v', A, B, ?_, hp, hA, hB, ?_, ha'⟩
  · unfold upsert
    simp only [h0, if_false]
    exact bind_some.mpr ⟨_, v1, hins, hrun⟩
  · simpa [asRecs, minKey_single hA, minKey_single hB] using hrow'

/-- Three long separators go into two pages. -/
theorem pieces_long (ha : Ample (3 + n) v) {A B C : Item 1} (hr : Row crc v (h := 1) [] ⊤ m
      [(longKey 0, A), (longKey 1, B), (longKey 2, C)]) (gen : UInt64) :
    ∃ (P Q : Item 2) (v' : Vol), runs (writePieces crc 1 gen
        ([(longKey 0, A), (longKey 1, B), (longKey 2, C)].map (entOf 1))) v = (some [P.1, Q.1], v') ∧
      Ample (1 + n) v' ∧ P.2 = [(longKey 0, A), (longKey 1, B)] ∧ Q.2 = [(longKey 2, C)] ∧
      Row crc v' (h := 2) [] ⊤ m (asRecs [P, Q]) := by
  have hpba : ∀ r ∈ [(longKey 0, A), (longKey 1, B), (longKey 2, C)], r.2.1.pba ≠ 0 := fun r hm =>
    (holds_pages crc (hr.held r hm) r.2.1.pba mem_cons_self).1
  simp only [mem_cons, not_mem_nil, or_false, forall_eq_or_imp, forall_eq] at hpba
  have s0 := (longKey_size 0).2 0 A
  have s1 := (longKey_size 1).2 0 B
  have s2 := (longKey_size 2).2 0 C
  obtain ⟨qs, v', hpieces, hall, ha'⟩ := writePieces_ample crc gen 1
    ([(longKey 0, A), (longKey 1, B), (longKey 2, C)].map (entOf 1))
    ([[(longKey 0, A), (longKey 1, B)], [(longKey 2, C)]].map (List.map (entOf 1))) (n := 1 + n)
    (by simp [used, s0, s1, s2, pageSize, pageHdrLen]) (split3_triple s0 s1 s2)
    (by simpa [← Nat.add_assoc] using ha) (by
      intro es hes
      simp only [map_cons, map_nil, mem_cons, not_mem_nil, or_false] at hes
      obtain rfl | rfl := hes
      · exact ⟨by simp [maxEntries], by simp [used, s0, s1, pageSize, pageHdrLen], fun _ => by
          simpa [entOf] using ⟨hpba.1, hpba.2.1⟩⟩
      · exact ⟨by simp [maxEntries], by simp [used, s2, pageSize, pageHdrLen], fun _ => by
          simpa [entOf] using hpba.2.2⟩)
  obtain ⟨-, ts, rfl, hsnd, hw⟩ := writeAll_items crc (by decide) _ (fun rs hrs r hm =>
    hr.held r (by
      simp only [mem_cons, not_mem_nil, or_false] at hrs
      obtain rfl | rfl := hrs
      · exact mem_append_left [_] hm
      · exact mem_append_right [_, _] hm)) hall
  obtain ⟨P, ts, rfl, hP, hts⟩ := map_eq_cons_iff.mp hsnd
  obtain ⟨Q, ts, rfl, hQ, hnil⟩ := map_eq_cons_iff.mp hts
  obtain rfl := map_eq_nil_iff.mp hnil
  have hfull : ∀ t ∈ [P, Q], t.2 ≠ [] := by simp [hP, hQ]
  exact ⟨P, Q, v', hpieces, ha', hP, hQ, (row_above hfull (by rw [hsnd]; exact hr) hw).1⟩

theorem upsert_third (ha : Ample (5 + n) v) (h0 : root.pba ≠ 0) {A B : Item 1} (hB : B.2 = [(longKey 1, longVal)])
    (hr : Row crc v (h := 2) [] ⊤ [(longKey 0, longVal), (longKey 1, longVal)]
      [([], (root, [(longKey 0, A), (longKey 1, B)]))]) :
    ∃ (root' : Ptr) (v' : Vol) (P Q : Item 2), runs (upsert crc root (longKey 2) longVal) v = (some root', v') ∧
      root'.pba ≠ 0 ∧ Holds crc v' 3 (root', asRecs [P, Q]) ∧ Q.2.length = 1 := by
  have hlt : (longKey 2 : WithTop Key) < ⊤ := WithTop.coe_lt_top _
  obtain ⟨hb, -⟩ := row_below hr
  rw [below_single] at hb
  have hrow : Row crc v [] ⊤ _ ([(longKey 0, A)] ++ [(longKey 1, B)] ++ []) := hb
  have hsub := row_mid hrow (k := longKey 1) le_rfl
  have hcB : flat (contents 1) [(longKey 1, B)] = [(longKey 1, longVal)] := by
    rw [flat_cons, flat_nil, append_nil]
    exact (flat_leaf B.2).trans hB
  rw [hcB] at hsub
  obtain ⟨B', C, v1, hB', hC, hins, hf, hrow1, hmade1, ha1⟩ := split_long (n := 3 + n)
    (by rwa [← Nat.add_assoc]) (by decide : (1 : Byte) < 2) hlt hB hsub (root.gen + 1) 65533
  obtain ⟨hrow2, -⟩ := row_swap hf hrow hrow1 hmade1
  have hrs : [(longKey 0, A)] ++ asRecs [B', C] ++ [] = [(longKey 0, A), (longKey 1, B'), (longKey 2, C)] := by
    simp [asRecs, minKey_single hB', minKey_single hC]
  rw [hrs] at hrow2
  obtain ⟨P, Q, v2, hpieces, ha2, hP, hQ, hrow3⟩ := pieces_long ha1 hrow2 (root.gen + 1)
  obtain ⟨p, v', hrun, hp, hrow4, -⟩ := root_long (i := 0) (j := 2) (by rwa [Nat.add_comm]) (by decide)
    (by simp [minKey, hP]) (by simp [minKey, hQ]) hrow3 (root.gen + 1)
  have hidx : childIndex ([(longKey 0, A), (longKey 1, B)].map (entOf 1)) (longKey 2) = 1 := by
    have hle : longKey 1 ≤ longKey 2 := (long_lt (by decide)).le
    simp [childIndex, childIndexLoop, entOf, hle]
  have hC' : ∀ t ∈ [C], Holds crc v1 1 t := by simpa using hrow2.held (longKey 2, C) (by simp)
  have hsep := separators_items crc hC' (by simp [hC])
  refine ⟨Ptr.asRoot p, v', P, Q, ?_, hp, hrow4.held _ mem_cons_self, by rw [hQ]; rfl⟩
  unfold upsert
  simp only [h0, if_false]
  refine bind_some.mpr ⟨([P.1, Q.1], 1), v2, ?_, hrun⟩
  refine bind_some.mpr ⟨_, v, btRead_held (r := ([], (root, [(longKey 0, A), (longKey 1, B)])))
    (hr.held _ mem_cons_self), ?_⟩
  simp only [succ_ne_zero, if_false, hidx]
  refine bind_some.mpr ⟨([B'.1, C.1], 0), v1, hins, ?_⟩
  refine bind_some.mpr ⟨_, v1, hsep, ?_⟩
  have hnot : ¬ longKey 2 < (longKey 1, B).1 := not_lt.mpr (long_lt (by decide)).le
  rw [entOf_key, if_neg hnot]
  refine bind_some.mpr ⟨_, v2, ?_, rfl⟩
  have hes : asRecs [C] = [(longKey 2, C)] := by simp [asRecs, minKey_single hC]
  rw [hes]
  exact hpieces

def blankVol : Vol where
  total := 64
  bit := fun _ => false
  bmLo := 1
  bmHi := 0
  dev := ⟨fun _ => [], []⟩
  supply := [⟨1, true, true⟩, ⟨2, true, true⟩, ⟨3, true, true⟩, ⟨4, true, true⟩, ⟨5, true, true⟩,
    ⟨6, true, true⟩, ⟨7, true, true⟩, ⟨8, true, true⟩, ⟨9, true, true⟩]

theorem ample_blankVol : Ample 9 blankVol :=
  ⟨blankVol.supply, [], (append_nil _).symm, rfl, by decide, by decide⟩

theorem upsert_first (crc : List Byte → UInt32) (ha : Ample (n + 1) v) {k : Key} {x : Val}
    (hs : recSize 0 (entOf 0 (k, x)) ≤ 4076) :
    ∃ root v', runs (upsert crc .null k x) v = (some root, v') ∧ root.pba ≠ 0 ∧
      Row crc v' (h := 1) [] ⊤ [(k, x)] [([], (root, [(k, x)]))] ∧ Ample n v' := by
  have hfits : Fits 0 ([(k, x)].map (entOf 0)) := by
    refine ⟨by simp [maxEntries], ?_, fun h => absurd rfl h⟩
    simp only [map_cons, map_nil, used, sum_cons, sum_nil, pageHdrLen, pageSize]
    omega
  obtain ⟨p, v', hwrite, ha'⟩ := btWrite_ample crc ha 1 hfits
  have hleaf : Row crc v (h := 0) [] ⊤ [(k, x)] [(k, x)] :=
    row_leaf v (by simp [Sorted]) (by simpa using nil_le_key k) le_top
  obtain ⟨-, -, hrow, -⟩ := btWrite_row (Nat.two_pow_pos 16) (by simp) hleaf hwrite
  obtain ⟨-, hrow'⟩ := row_asRoot hrow
  refine ⟨Ptr.asRoot p, v', bind_some.mpr ⟨p, v', hwrite, rfl⟩, ?_, hrow', ha'⟩
  exact (holds_pages crc (hrow.held _ mem_cons_self) p.pba mem_cons_self).1

theorem upsert_leaf (ha : Ample (n + 1) v) (hr : Row crc v (h := 1) [] ⊤ m [([], (root, m))])
    (h0 : root.pba ≠ 0) {k : Key} {x : Val} (hroom : m.length < maxEntries)
    (hfits : Fits 0 ((SortedMap.put m k x).map (entOf 0))) :
    ∃ root' v', runs (upsert crc root k x) v = (some root', v') ∧ root'.pba ≠ 0 ∧ v.bit root'.pba = false ∧
      Row crc v' (h := 1) [] ⊤ (SortedMap.put m k x) [([], (root', SortedMap.put m k x))] ∧ Ample n v' := by
  obtain ⟨hb, -⟩ := row_below hr
  rw [below_single] at hb
  have hrow := row_put hb (WithTop.coe_lt_top k) x
  rw [min_eq_left (nil_le_key k)] at hrow
  obtain ⟨p, v', hwrite, ha'⟩ := btWrite_ample crc ha (root.gen + 1) hfits
  obtain ⟨-, -, hrow', hmade⟩ := btWrite_row (Nat.two_pow_pos 16) (by simp [SortedMap.put]) hrow hwrite
  obtain ⟨-, hroot⟩ := row_asRoot hrow'
  have hp := (holds_pages crc (hrow'.held _ mem_cons_self) p.pba mem_cons_self).1
  refine ⟨Ptr.asRoot p, v', ?_, hp, (hmade p.pba (by simp [rowPages, pages])).resolve_left ?_, hroot, ha'⟩
  swap
  · simp [rowPages, pages]
  obtain ⟨hfull, -⟩ | hins := insRec_leaf (hr.held _ mem_cons_self) hb.chain k x (root.gen + 1) 65534
  · exact absurd hroom (Nat.not_lt.mpr hfull)
  have hpieces : runs (writePieces crc 0 (root.gen + 1) ((SortedMap.put m k x).map (entOf 0))) v =
      (some [p], v') := by
    rw [writePieces, if_pos hfits.2.1]
    exact bind_some.mpr ⟨p, v', hwrite, rfl⟩
  unfold upsert
  simp only [h0, if_false]
  exact bind_some.mpr ⟨([p], 0), v', hins.trans (bind_some.mpr ⟨_, _, hpieces, rfl⟩), rfl⟩

/-- A second key next to the first one in the leaf. -/
theorem edit_refines_second : ∃ (v v' : Vol) (root root' : Ptr) (ck ck' : Ck), root.pba ≠ 0 ∧
    check crc32c v root = .ok ck ∧ ck.height < maxDepth ∧ KeysWithin crc32c v keyMax maxDepth root ∧
    runs ((Edit.put [2] [2]).call crc32c root) v = (some root', v') ∧ check crc32c v' root' = .ok ck' ∧
    ∃ m, Reads crc32c v root m ∧ Reads crc32c v' root' (put m [2] [2]) := by
  obtain ⟨r1, v1, -, hp1, hrow1, ha1⟩ := upsert_first crc32c (k := [1]) (x := [1]) ample_blankVol (by decide)
  obtain ⟨r2, v2, hrun, -⟩ := upsert_leaf (n := 7) ha1 hrow1 hp1 (k := [2]) (x := [2]) (by decide)
    ⟨by decide, by decide, by decide⟩
  have hroot : Rooted r1 (h := 0) [([], (r1, [([1], [1])]))] := .inr ⟨hp1, _, rfl, rfl⟩
  obtain ⟨ck, hck, hle⟩ := row_check (by decide) hroot hrow1 (by simp [Wide])
  have hdepth : ck.height < maxDepth := lt_of_le_of_lt hle (by decide)
  have hkeys : KeysWithin crc32c v1 keyMax maxDepth r1 := by
    intro level es hread e he
    obtain ⟨rfl, rfl⟩ : level = 0 ∧ es = [⟨[1], [1], .null⟩] := by
      simpa [eq_comm, entOf] using hread.symm.trans (hrow1.held _ mem_cons_self).1
    obtain rfl := mem_singleton.mp he
    exact ⟨by decide, fun h => absurd rfl h⟩
  obtain ⟨m, -, hm, hm', -, hok⟩ := edit_refines (e := .put [2] [2]) hck hdepth hrun
  obtain ⟨ck', hck'⟩ := hok hkeys (by decide)
  exact ⟨v1, v2, r1, r2, ck, ck', hp1, hck, hdepth, hkeys, hrun, hck', m, hm, hm'⟩

/-- The tree of two such records is accepted, the third one goes in, and the tree is refused. -/
theorem long_keys_refused : ∃ (v v' : Vol) (root root' : Ptr) (ck : Ck),
    check crc32c v root = .ok ck ∧ runs (upsert crc32c root (longKey 2) longVal) v = (some root', v') ∧
      ∀ ck', check crc32c v' root' ≠ .ok ck' := by
  obtain ⟨r1, v1, -, hp1, hrow1, ha1⟩ := upsert_first crc32c ample_blankVol (by rw [(longKey_size 0).1]; omega)
  obtain ⟨r2, v2, A, B, -, hp2, -, hB, hrow2, ha2⟩ := upsert_second (n := 5) ha1 hp1 hrow1
  obtain ⟨r3, v3, P, Q, hrun, hp3, hheld, hone⟩ := upsert_third (n := 0) ha2 hp2 hB hrow2
  have hroot : Rooted r2 (h := 1) [([], (r2, [(longKey 0, A), (longKey 1, B)]))] := .inr ⟨hp2, _, rfl, rfl⟩
  obtain ⟨ck, hck, -⟩ := row_check (by decide) hroot hrow2 (by simp [Wide])
  refine ⟨v2, v3, r2, r3, ck, hck, hrun, fun ck' hck' => ?_⟩
  -- the last page below the root has one record
  have hwide := (wide_checked hck' hp3 hheld).2 (minKey Q, Q) (by simp [asRecs])
  have hle : 2 ≤ Q.2.length := hwide.1 Nat.one_ne_zero
  omega

end InvariantFs.BtreeMap
