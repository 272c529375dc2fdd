import InvariantFs.FileRead

namespace InvariantFs.RangedRead

open ByteCodec Spans FileRead List Option Nat

variable {v : Vol} {e : Entry}

theorem hi_eq (h : e.lo ≤ e.hi) : e.hi = e.lo + e.len := by
  have h2 := e.length.toNat_lt
  simp only [Entry.lo, Entry.hi, Entry.len, UInt64.toNat_add] at *
  omega

variable {es : List Entry}

theorem laid_bounds {size : Nat} (h : laid size es = true) (he : e ∈ es) : e.lo ≤ e.hi ∧ e.hi ≤ size := by
  simp only [laid, Bool.and_eq_true, List.all_eq_true] at h
  have := h.1 e he
  simp only [inBounds, decide_eq_true_eq] at this
  exact ⟨this.2.2, this.2.1⟩

theorem laid_ordered {size : Nat} (h : laid size es = true) : Ordered Entry.lo Entry.hi es := by
  have hle : ∀ e ∈ es, e.lo ≤ e.hi := fun e he => (laid_bounds h he).1
  simp only [laid, Bool.and_eq_true, decide_eq_true_eq] at h
  obtain ⟨-, hchain⟩ := h
  refine ⟨?_, hle⟩
  induction es with
  | nil => exact .nil
  | cons x xs ih =>
    cases xs with
    | nil => simp
    | cons z zs =>
      obtain ⟨hxz, hchain⟩ := List.isChain_cons_cons.mp hchain
      have hrest := ih (fun y hy => hle y (by simp [hy])) hchain
      refine List.pairwise_cons.mpr ⟨fun y hy => ?_, hrest⟩
      obtain rfl | hy := List.mem_cons.mp hy
      · exact hxz
      · have hz := hle z (by simp)
        have hzy := List.rel_of_pairwise_cons hrest hy
        omega

theorem ordered_unique (h : Ordered Entry.lo Entry.hi es) {x y : Entry} {k : Nat}
    (hx : x ∈ es) (hy : y ∈ es) (hxk : x.lo ≤ k ∧ k < x.hi) (hyk : y.lo ≤ k ∧ k < y.hi) : x = y := by
  induction es with
  | nil => simp at hx
  | cons z zs ih =>
    obtain hxz | hxs := mem_cons.mp hx <;> obtain hyz | hys := mem_cons.mp hy
    · rw [hxz, hyz]
    · have := h.behind y hys
      subst hxz
      omega
    · have := h.behind x hxs
      subst hyz
      omega
    · exact ih h.tail hxs hys

theorem startIdx_before (h : Ordered Entry.lo Entry.hi es) {off j : Nat}
    (hj : j < es.length) (hs : j < startIdx es off) : es[j].hi ≤ off := by
  unfold startIdx at hs
  split at hs
  next =>
    have hp := bisect_before (fun i k hik hk hpk => ?_) (by simp) hs
    · simpa [hj] using hp
    · have hi : i < es.length := by omega
      simp only [hi, hk, getElem?_eq_getElem, map_some, getD_some, decide_eq_true_eq] at hpk ⊢
      obtain rfl | hlt := eq_or_lt_of_le hik
      · exact hpk
      · have hap := pairwise_iff_getElem.mp h.apart i k hi hk hlt
        have hle := h.whole es[k] (getElem_mem hk)
        omega
  next => omega

def textAt (v : Vol) (e : Entry) (k : Nat) : Option Byte :=
  (v.batch e).bind fun batch =>
    if e.algo = .zstdBcj then (v.codecs.bcj ((batch.drop e.blockOffset).take e.len))[k]?
    else batch[e.blockOffset + k]?

variable {bs : List Byte}

theorem textSlice_at {off want : Nat} (h : v.textSlice e off want = some bs) :
    bs.length = want ∧ ∀ j, j < want → bs[j]? = textAt v e (off + j) := by
  unfold Vol.textSlice at h
  split_ifs at h with h0 hlen halgo
  · cases h
    exact ⟨by simp [h0], by omega⟩
  · obtain ⟨batch, hb, h⟩ := bind_eq_some_iff.mp h
    split_ifs at h
    obtain rfl := some.inj h
    have hfull : ((batch.drop e.blockOffset).take e.len).length = e.len := by simp; omega
    refine ⟨?_, fun j hj => ?_⟩
    · rw [length_take, length_drop, v.codecs.bcj_length, hfull]
      omega
    · simp [textAt, hb, halgo, hj]
  · obtain ⟨batch, hb, h⟩ := bind_eq_some_iff.mp h
    split_ifs at h
    obtain rfl := some.inj h
    refine ⟨by simp; omega, fun j hj => ?_⟩
    simp [textAt, hb, halgo, hj, Nat.add_assoc]

variable {n : Nat}

theorem exactly_some {x : Option (List Byte)} (h : exactly n x = some bs) : x = some bs ∧ bs.length = n := by
  unfold exactly at h
  simpa using h

theorem behind_full (h : bs.length = n) : behind n bs = bs.map some := by
  rw [behind, h, Nat.sub_self, replicate_zero, append_nil]

/-- An LZ4 entry whose length no `int` takes for another one. -/
def Packed (e : Entry) : Prop := e.algo = .lz4 → e.len < 0xffffffff

theorem lz4Into_small (c : Codecs) {blob : List Byte} (hn : n < 0x80000000) :
    c.lz4Into blob n = exactly n (c.lz4 blob n) := by
  have hint : toInt n = n := by
    unfold toInt
    rw [Int.bmod_def]
    split <;> omega
  unfold Codecs.lz4Into
  rw [hint, Int.toNat_natCast, if_neg (by omega), if_neg (by omega)]

theorem lz4Into_length {blob : List Byte} (hn : n < 0xffffffff) (h : v.codecs.lz4Into blob n = some bs) :
    bs.length = n := by
  have hint : toInt n = n ∨ toInt n < -1 := by
    unfold toInt
    rw [Int.bmod_def]
    split <;> omega
  unfold Codecs.lz4Into at h
  split_ifs at h with hfail hneg
  · omega
  · have hlen := (exactly_some h).2
    omega

theorem plainSegment_length (hp : Packed e) (h : v.plainSegment e = some bs) : bs.length = e.len := by
  unfold Vol.plainSegment at h
  split at h
  · simp at h
  · obtain ⟨blob, -, h⟩ := bind_eq_some_iff.mp h
    split at h
    · next halgo => exact lz4Into_length (hp halgo) h
    · exact (exactly_some h).2
    · exact (exactly_some h).2
    · simp at h

def leafAt (v : Vol) (e : Entry) (k : Nat) : Option Byte :=
  if e.zone = .text ∧ batchAlgo e.algo then textAt v e k else (v.plainSegment e).bind fun bs => bs[k]?

variable {Q : Nat → Cell → Prop} {a b : Nat} {f f' : Filled Cell}

theorem serves_text (ha : e.lo ≤ a) (h : v.textSlice e (a - e.lo) (b - a) = some bs)
    (hQ : ∀ k x, a ≤ k → k < b → textAt v e (k - e.lo) = some x → Q k (some x)) :
    Serves Q a b f (f.put a (bs.map some)) := by
  obtain ⟨hlen, hat⟩ := textSlice_at h
  refine serves_put f (by simpa using hlen) fun j hj => ?_
  have hj' : j < bs.length := by simpa using hj
  have hx := hat j (by omega)
  rw [getElem?_eq_getElem hj'] at hx
  rw [getElem_map]
  refine hQ (a + j) _ (by omega) (by omega) ?_
  rw [hx]
  congr 1
  omega

theorem serves_plain (hp : Packed e) (ha : e.lo ≤ a) (hb : b ≤ e.lo + e.len) (h : v.plainSegment e = some bs)
    (hQ : ∀ k x, a ≤ k → k < b → bs[k - e.lo]? = some x → Q k (some x)) :
    Serves Q a b f (f.put a (((behind e.len bs).drop (a - e.lo)).take (b - a))) := by
  have hlen := plainSegment_length hp h
  rw [behind_full hlen]
  refine serves_put f (by simp; omega) fun j hj => ?_
  have hj' : j < b - a := by simp at hj; omega
  simp only [getElem_map, getElem_take, getElem_drop]
  refine hQ (a + j) _ (by omega) (by omega) ?_
  rw [getElem?_eq_getElem (by omega)]
  congr 2
  omega

theorem childStep_serves (hp : Packed e) (ha : e.lo ≤ a) (hb : b ≤ e.lo + e.len) (h : childStep v e a b f = some f')
    (hQ : ∀ k x, a ≤ k → k < b → leafAt v e (k - e.lo) = some x → Q k (some x)) : Serves Q a b f f' := by
  unfold childStep at h
  split_ifs at h with hc ht
  · obtain ⟨bs, hbs, rfl⟩ := map_eq_some_iff.mp h
    exact serves_text ha hbs fun k x hk hk' hx => hQ k x hk hk' (by rw [leafAt, if_pos ht, hx])
  · obtain ⟨bs, hbs, rfl⟩ := map_eq_some_iff.mp h
    refine serves_plain hp ha hb hbs fun k x hk hk' hx => hQ k x hk hk' ?_
    rw [leafAt, if_neg ht, hbs, bind_some, hx]

def childCell (v : Vol) (ents : List Entry) (k : Nat) : Cell :=
  (ents.find? fun e => e.lo ≤ k ∧ k < e.hi).bind fun e => leafAt v e (k - e.lo)

variable {ents : List Entry}

theorem childCell_at (h : Ordered Entry.lo Entry.hi ents) (he : e ∈ ents)
    {k : Nat} (hk : e.lo ≤ k ∧ k < e.hi) : childCell v ents k = leafAt v e (k - e.lo) := by
  unfold childCell
  cases hf : ents.find? fun e => e.lo ≤ k ∧ k < e.hi with
  | none => simpa [hk] using find?_eq_none.mp hf e he
  | some x =>
    have hx := find?_some hf
    simp only [decide_eq_true_eq] at hx
    rw [ordered_unique h (mem_of_find?_eq_some hf) he hx hk]
    rfl

theorem child_serves (h : Ordered Entry.lo Entry.hi ents) (hp : ∀ e ∈ ents, Packed e)
    (hf : fill Entry.lo Entry.hi (childStep v) a b (ents.drop (startIdx ents a)) f = some f') :
    Serves (fun k c => c = childCell v ents k ∧ c ≠ none) a b f f' := by
  rw [fill_drop h fun j hj hs => startIdx_before h hj hs] at hf
  refine fill_serves h (fun e he f f' hlt hstep => ?_) hf
  have hend := hi_eq (h.whole e he)
  refine childStep_serves (hp e he) (by omega) (by omega) hstep fun k x hk hk' hx => ?_
  rw [childCell_at h he (by omega), hx]
  simp

theorem decodeAll_cells {dec : Entry → Option (Nat × List Cell)} (h : Ordered Entry.lo Entry.hi es)
    (hdec : ∀ e ∈ es, ∀ p, dec e = some p → p.1 = e.lo ∧ p.2.length = e.hi - e.lo)
    {d d' : Nat → Cell} (hd : decodeAll dec es d = some d') :
    (∀ k, (∀ e ∈ es, ¬ (e.lo ≤ k ∧ k < e.hi)) → d' k = d k) ∧ ∀ e ∈ es, ∃ cs, dec e = some (e.lo, cs) ∧
      ∀ k, e.lo ≤ k → k < e.hi → cs[k - e.lo]? = some (d' k) := by
  induction es generalizing d with
  | nil =>
    obtain rfl : d = d' := by simpa [decodeAll] using hd
    simp
  | cons e es ih =>
    obtain ⟨⟨at', cs⟩, hp, hd⟩ := bind_eq_some_iff.mp hd
    obtain ⟨rfl, hlen : cs.length = e.hi - e.lo⟩ := hdec e (by simp) _ hp
    obtain ⟨hout, hin⟩ := ih h.tail (fun x hx => hdec x (by simp [hx])) hd
    refine ⟨fun k hk => ?_, fun x hx => ?_⟩
    · rw [hout k fun x hx => hk x (by simp [hx]), place_outside]
      have := hk e (by simp)
      change ¬ (e.lo ≤ k ∧ k < e.lo + cs.length)
      omega
    · obtain rfl | hx := mem_cons.mp hx
      · refine ⟨cs, hp, fun k hk hk' => ?_⟩
        rw [hout k fun y hy => ?_]
        · exact place_inside hk (by omega)
        · have := h.behind y hy
          omega
      · exact hin x hx

variable {cs : List Cell}

theorem determined_some (h : determined cs = some bs) : bs.length = cs.length := by
  unfold determined at h
  split_ifs at h with hall
  obtain rfl := some.inj h
  simpa using hall

theorem toInt_cases (n : Nat) : n < 0x80000000 ∧ toInt n = n ∨ 0x80000000 ≤ n ∧ toInt n < n := by
  unfold toInt
  rw [Int.bmod_def]
  split <;> omega

variable {whole : Nat → Option (List Cell)} {range : Nat → Nat → Nat → Option (List Cell)}
  {sib : String → Option (List Byte)} {i : Nat} {r : Recipe}

theorem windowBytes_length (h : windowBytes v range r e = some bs) : bs.length = e.len := by
  unfold windowBytes at h
  split at h
  · obtain ⟨w, -, h⟩ := bind_eq_some_iff.mp h
    split at h
    · simp at h
    · dsimp only at h
      by_cases hret : rangeRet (range e.pba w.srcOff w.srcLen) ≠ w.srcLen
      · simp [hret] at h
      · rw [if_neg hret] at h
        obtain ⟨src, hsrc, h⟩ := bind_eq_some_iff.mp h
        obtain ⟨cs, hcs, hdet⟩ := bind_eq_some_iff.mp hsrc
        have hlen := determined_some hdet
        split at h
        · split_ifs at h with hshort
          cases h
          -- the whole window came back, and it is no shorter than the entry
          rw [hcs, rangeRet, not_not] at hret
          have := toInt_cases cs.length
          rw [length_take, hlen]
          exact Nat.min_eq_left (by omega)
        · exact (exactly_some h).2
        · simp at h
  · simp at h

theorem segmentBytes_length (hp : Packed e) (h : segmentBytes v sib i e = some bs) : bs.length = e.len := by
  unfold segmentBytes at h
  split at h
  · simp at h
  · obtain ⟨blob, -, h⟩ := bind_eq_some_iff.mp h
    split at h
    · simp at h
    · rename_i hframe
      split at h
      · next halgo => exact lz4Into_length (hp halgo) h
      · exact (exactly_some h).2
      · rename_i halgo
        cases h
        simpa [frameOk, halgo] using hframe
      · split_ifs at h <;> exact (exactly_some h).2

theorem segmentBytes_plain {bs' : List Byte} (h : v.plainSegment e = some bs)
    (h' : segmentBytes v sib i e = some bs') : bs' = bs := by
  unfold Vol.plainSegment at h
  unfold segmentBytes at h'
  split at h
  · simp at h
  · rename_i hpba
    rw [if_neg hpba] at h'
    obtain ⟨blob, hblob, h⟩ := bind_eq_some_iff.mp h
    rw [hblob, bind_some] at h'
    split at h'
    · simp at h'
    · split at h <;> rename_i halgo <;> simp only [halgo] at h'
      · exact some.inj (h'.symm.trans h)
      · exact some.inj (h'.symm.trans h)
      · have hb := (exactly_some h).1
        exact some.inj (h'.symm.trans hb)
      · simp at h

def kids (tail : Tail) (e : Entry) : Option (List Entry) :=
  match tail with
  | .children cs => (cs[e.blockId]?).join
  | _ => none

variable {noMap : Bool}

theorem rangeStep_child {tail : Tail} (hc : e.algo = .child)
    (h : rangeStep v whole noMap i tail e a b f = some f') : ∃ ents, kids tail e = some ents ∧
      fill Entry.lo Entry.hi (childStep v) a b (ents.drop (startIdx ents a)) f = some f' := by
  unfold rangeStep at h
  rw [if_pos hc] at h
  split at h
  · split at h
    · rename_i hk
      exact ⟨_, by simp [kids, hk], h⟩
    · simp at h
  · simp at h

theorem rangeAst_cells {size off len : Nat} (hmap : v.hasMap i = false)
    (hord : Ordered Entry.lo Entry.hi r.ents) (h : v.rangeAst whole i r size off len = some cs)
    (hstep : ∀ noMap, ∀ e ∈ r.ents, ∀ f f', max off e.lo < min (off + len) e.hi →
      rangeStep v whole noMap i r.tail e (max off e.lo) (min (off + len) e.hi) f = some f' →
      Serves Q (max off e.lo) (min (off + len) e.hi) f f') :
    cs.length = len ∧ ∀ j, j < len → ∃ c, cs[j]? = some c ∧ Q (off + j) c := by
  unfold Vol.rangeAst at h
  split at h
  · simp at h
  · rw [hmap] at h
    simp only [Bool.and_false, Bool.false_eq_true, if_false] at h
    obtain ⟨f, hf, h⟩ := bind_eq_some_iff.mp h
    split_ifs at h with hgot
    cases h
    rw [fill_drop hord fun j hj hs => startIdx_before hord hj hs] at hf
    have hserve := fill_serves hord (hstep _) hf
    refine ⟨by simp, fun j hj => ⟨f.buf (off + j), by simp [hj], ?_⟩⟩
    exact hserve.full (by simpa using hgot) _ (by omega) (by omega)

def kidCell (v : Vol) (tail : Tail) (e : Entry) (k : Nat) : Cell :=
  (kids tail e).bind fun ents => childCell v ents k

/-- A file whose ranged reads can be held against a read of the whole: no sibling passes for a map, the entries
of each child lie one behind the other, no span of a child has the length that reads as a failure, no LZ4 entry
has a length that is another one as an `int`, and what is put together from the start of the file stands there. -/
structure Regular (v : Vol) (i : Nat) (r : Recipe) : Prop where
  unmapped : v.hasMap i = false
  sorted : ∀ e ents, kids r.tail e = some ents → Ordered Entry.lo Entry.hi ents
  spans : ∀ e ∈ r.ents, e.algo = .child → toInt e.len ≠ -1
  packed : ∀ e ∈ r.ents, Packed e
  packed_kids : ∀ e ents, kids r.tail e = some ents → ∀ x ∈ ents, Packed x
  start : ∀ e ∈ r.ents, e.algo = .exer → e.lo = 0

variable {row : Row} {off len : Nat}

theorem readRange_ast (hrow : v.row i = some row) (hblob : row.blob = .ast r)
    (htype : row.type ≠ .link) (hoff : off < row.size) (hlen : 0 < len) :
    v.readRange whole i off len = v.rangeAst whole i r row.size off (min len (row.size - off)) := by
  have hcond : ¬ (row.size = 0 ∨ row.blob = .zero ∨ row.size ≤ off ∨ min len (row.size - off) = 0) := by
    rw [hblob]
    simp only [reduceCtorEq, false_or]
    omega
  unfold Vol.readRange
  rw [hrow, bind_some]
  dsimp only
  cases ht : row.type <;> simp_all

section

variable (hreg : Regular v i r) (hrow : v.row i = some row) (hblob : row.blob = .ast r)
  (hsize : r.size = row.size) (hlaid : laid r.size r.ents = true)

include hreg

theorem rangeStep_kid (hc : e.algo = .child) (h : rangeStep v whole noMap i r.tail e a b f = some f') :
    Serves (fun k c => c = kidCell v r.tail e k ∧ c ≠ none) a b f f' := by
  obtain ⟨ents, hk, hf⟩ := rangeStep_child hc h
  have hserve := child_serves (hreg.sorted e ents hk) (hreg.packed_kids e ents hk) hf
  exact hserve.imp fun k c _ _ hc => by simpa [kidCell, hk] using hc

include hrow hblob hsize hlaid

theorem childCells_read (htype : row.type ≠ .link) (he : e ∈ r.ents) (hc : e.algo = .child)
    (h : childCells (v.readRange whole) i e = some cs) : cs.length = e.hi - e.lo ∧
      ∀ j, j < e.len → ∃ c, cs[j]? = some c ∧ c = kidCell v r.tail e (e.lo + j) ∧ c ≠ none := by
  have hord := laid_ordered hlaid
  obtain ⟨hle, hin⟩ := laid_bounds hlaid he
  have hend := hi_eq hle
  unfold childCells at h
  dsimp only at h
  split_ifs at h with h0 hret
  · cases h
    exact ⟨by simp; omega, by omega⟩
  · cases hgot : v.readRange whole i e.lo e.len with
    | none =>
      rw [hgot, rangeRet, not_not] at hret
      exact absurd hret.symm (hreg.spans e he hc)
    | some cs' =>
      rw [hgot] at h
      obtain rfl : cs' = cs := by simpa using h
      rw [readRange_ast hrow hblob htype (by omega) (by omega),
        min_eq_left (by omega : e.len ≤ row.size - e.lo)] at hgot
      have hcells := rangeAst_cells (Q := fun k c => c = kidCell v r.tail e k ∧ c ≠ none)
        hreg.unmapped hord hgot fun noMap x hx f f' hlt hstep => ?_
      · exact ⟨by omega, hcells.2⟩
      · -- no other entry reaches into the span
        obtain rfl : x = e := ordered_unique hord hx he (k := max e.lo x.lo) (by omega) (by omega)
        exact rangeStep_kid hreg hc hstep

variable {p : Nat × List Cell}

theorem decodeEntry_piece (htype : row.type ≠ .link) (he : e ∈ r.ents)
    (h : decodeEntry v (v.readRange whole) sib i r e = some p) : p.1 = e.lo ∧ p.2.length = e.hi - e.lo := by
  have hend := hi_eq (laid_bounds hlaid he).1
  unfold decodeEntry at h
  split_ifs at h with hc ht hw hx <;> obtain ⟨bs, hbs, rfl⟩ := map_eq_some_iff.mp h
  · exact ⟨rfl, (childCells_read hreg hrow hblob hsize hlaid htype he hc hbs).1⟩
  · have := (textSlice_at hbs).1
    exact ⟨rfl, by simp; omega⟩
  · have := windowBytes_length hbs
    exact ⟨rfl, by simp; omega⟩
  · have hlen := segmentBytes_length (hreg.packed e he) hbs
    rw [behind_full hlen, length_map]
    exact ⟨(hreg.start e he hx).symm, by omega⟩
  · have hlen := segmentBytes_length (hreg.packed e he) hbs
    rw [behind_full hlen, length_map]
    exact ⟨rfl, by omega⟩

omit hreg hrow hblob hsize hlaid in
theorem decodeEntry_bytes (hp : Packed e) (hc : e.algo ≠ .child)
    (h : decodeEntry v range sib i r e = some p) : ∃ bs : List Byte, p.2 = bs.map some := by
  unfold decodeEntry at h
  rw [if_neg hc] at h
  split_ifs at h <;> obtain ⟨bs, hbs, rfl⟩ := map_eq_some_iff.mp h
  · exact ⟨bs, rfl⟩
  · exact ⟨bs, rfl⟩
  · exact ⟨bs, behind_full (segmentBytes_length hp hbs)⟩
  · exact ⟨bs, behind_full (segmentBytes_length hp hbs)⟩

theorem rangeStep_whole {whole₀ : Nat → Option (List Cell)} {D : Nat → Cell} (htype : row.type ≠ .link)
    (hD : decodeAll (decodeEntry v (v.readRange whole₀) sib i r) r.ents (fun _ => none) = some D)
    (hwhole : whole i = some ((List.range r.size).map D)) (he : e ∈ r.ents) (ha : e.lo ≤ a) (hb : b ≤ e.hi)
    (h : rangeStep v whole noMap i r.tail e a b f = some f') : Serves (fun k c => c = D k ∧ c ≠ none) a b f f' := by
  obtain ⟨hle, hin⟩ := laid_bounds hlaid he
  have hend := hi_eq hle
  have hpieces := decodeAll_cells (laid_ordered hlaid)
    (fun x hx p hp => decodeEntry_piece hreg hrow hblob hsize hlaid htype hx hp) hD
  obtain ⟨cs, hcs, hcell⟩ := hpieces.2 e he
  by_cases hc : e.algo = .child
  · have hserve := rangeStep_kid hreg hc h
    refine hserve.imp fun k c hk hk' hkid => ⟨hkid.1.trans ?_, hkid.2⟩
    rw [decodeEntry, if_pos hc] at hcs
    obtain ⟨cs', hcs', hp⟩ := map_eq_some_iff.mp hcs
    obtain rfl : cs' = cs := (Prod.mk.inj hp).2
    obtain ⟨c', hc', hval, -⟩ :=
      (childCells_read hreg hrow hblob hsize hlaid htype he hc hcs').2 (k - e.lo) (by omega)
    rw [hcell k (by omega) (by omega), some.injEq] at hc'
    rw [hc', hval, Nat.add_sub_cancel' (by omega)]
  · unfold rangeStep at h
    rw [if_neg hc] at h
    by_cases ht : e.zone = .text ∧ batchAlgo e.algo
    · rw [if_pos ht] at h
      obtain ⟨bs, hbs, rfl⟩ := map_eq_some_iff.mp h
      refine serves_text ha hbs fun k x hk hk' hx => ⟨?_, by simp⟩
      rw [decodeEntry, if_neg hc, if_pos ht] at hcs
      obtain ⟨bs', hbs', hp⟩ := map_eq_some_iff.mp hcs
      have hkx := hcell k (by omega) (by omega)
      rw [← (Prod.mk.inj hp).2, List.getElem?_map, (textSlice_at hbs').2 _ (by omega), Nat.zero_add, hx] at hkx
      simpa using hkx
    · rw [if_neg ht] at h
      split_ifs at h with hunit
      · -- a unit is rebuilt with the rest of the file, and the window cut out
        rw [hwhole] at h
        cases h
        refine serves_put f (by simp; omega) fun j hj => ?_
        have hj' : j < b - a := by simp at hj; omega
        obtain ⟨bs, hbs : cs = bs.map some⟩ := decodeEntry_bytes (hreg.packed e he) hc hcs
        have hkx := hcell (a + j) (by omega) (by omega)
        rw [hbs, List.getElem?_map] at hkx
        obtain ⟨x, -, hx⟩ := map_eq_some_iff.mp hkx
        simp [← hx]
      · obtain ⟨bs, hbs, rfl⟩ := map_eq_some_iff.mp h
        refine serves_plain (hreg.packed e he) ha (by omega) hbs fun k x hk hk' hx => ⟨?_, by simp⟩
        have hw : e.algo ≠ .windowSrc := by
          intro hw
          simp [Vol.plainSegment, hw] at hbs
        rw [decodeEntry, if_neg hc, if_neg ht, if_neg hw] at hcs
        obtain ⟨bs', hbs', hp⟩ := map_eq_some_iff.mp hcs
        obtain rfl := segmentBytes_plain hbs hbs'
        have hkx := hcell k (by omega) (by omega)
        rw [← (Prod.mk.inj hp).2, behind_full (segmentBytes_length (hreg.packed e he) hbs'), getElem?_map, hx] at hkx
        simpa using hkx

end

/-- The bytes of a ranged read are those of the whole file, cut at its size, and all of them were
written. -/
def IsSlice (size off len : Nat) (d : List Cell) (ret : Int) (cs : List Cell) : Prop :=
  cs.take ret.toNat = ((d.take size).drop off).take len ∧ none ∉ cs.take ret.toNat

variable {d : List Cell}

theorem readInode_ast (hrow : v.row i = some row)
    (hblob : row.blob = .ast r) (hpos : row.size ≠ 0) (h : v.readInode (n + 1) i = some d) :
    row.type ≠ .link ∧ r.size = row.size ∧ laid r.size r.ents = true ∧
    ∃ D, decodeAll (decodeEntry v (v.readRange (v.readInode n))
        (fun s => ((v.sibling i s).bind (v.readInode n)).bind determined) i r) r.ents
        (fun _ => none) = some D ∧ d = (List.range r.size).map D := by
  rw [Vol.readInode, hrow, bind_some, if_neg (by simp [hblob, hpos]), hblob] at h
  split at h
  · simp_all
  · simp at h
  · rename_i hr htype
    cases hr
    split_ifs at h with hs
    unfold decodeEntries at h
    split_ifs at h with hl
    obtain ⟨D, hD, rfl⟩ := map_eq_some_iff.mp h
    exact ⟨htype, by simpa using hs, by simpa using hl, D, hD, rfl⟩
  · simp_all

theorem isSlice_iff (heq : cs = ((d.take row.size).drop off).take len) (hall : none ∉ cs) :
    IsSlice row.size off len d (toInt cs.length) cs ↔ cs.length < 0x80000000 := by
  constructor
  · intro h
    by_contra hlong
    have := toInt_cases cs.length
    have hcut := congrArg length (h.1.trans heq.symm)
    rw [length_take] at hcut
    omega
  · intro hshort
    have := toInt_cases cs.length
    rw [IsSlice, (by omega : toInt cs.length = cs.length), Int.toNat_natCast, take_length]
    exact ⟨heq, hall⟩

theorem slice_ast (hreg : Regular v i r) (hrow : v.row i = some row) (hblob : row.blob = .ast r)
    (hpos : row.size ≠ 0) (hd : v.readInode n i = some d) (hd' : v.readInode (n + 1) i = some d)
    (h : v.rangeAst (v.readInode n) i r row.size off (min len (row.size - off)) = some cs) :
    cs.length = min len (row.size - off) ∧ cs = ((d.take row.size).drop off).take len ∧ none ∉ cs := by
  obtain ⟨htype, hsize, hlaid, D, hD, hdD⟩ := readInode_ast hrow hblob hpos hd'
  have hcells := rangeAst_cells (Q := fun k c => c = D k ∧ c ≠ none) hreg.unmapped
    (laid_ordered hlaid) h fun noMap e he f f' hlt hstep =>
      rangeStep_whole hreg hrow hblob hsize hlaid htype hD (hd.trans (by rw [hdD])) he (by omega) (by omega) hstep
  obtain ⟨hlen, hcell⟩ := hcells
  refine ⟨hlen, ext_getElem? fun j => ?_, fun hnone => ?_⟩
  · by_cases hj : j < min len (row.size - off)
    · obtain ⟨c, hc, hval, -⟩ := hcell j hj
      have hsz : off + j < r.size := by omega
      have hjl : j < len := by omega
      rw [hc, hval, hdD, getElem?_take, if_pos hjl, getElem?_drop,
        getElem?_take, if_pos (by omega), getElem?_map, getElem?_range hsz]
      rfl
    · rw [getElem?_eq_none (by omega), getElem?_eq_none (by simp; omega)]
  · obtain ⟨j, hj⟩ := mem_iff_getElem?.mp hnone
    have hjl : j < cs.length := (List.getElem?_eq_some_iff.mp hj).1
    obtain ⟨c, hc, -, hne⟩ := hcell j (by omega)
    exact hne (some.inj (hc.symm.trans hj))

def zeroCodecs : Codecs where
  crc _ := 0
  lz4 _ _ := none
  zstd _ n := some (replicate n 0)
  ppmd _ _ := none
  bcj bs := bs
  bcj_length _ := rfl
  inflate _ _ := none
  packs _ := none
  lane _ _ _ _ := none
  mapRead _ _ _ _ := none
  rescue _ := none

def zeroEntry (size : UInt64) : Entry := ⟨0, size, .raw, .zstd, 0, 0, 1⟩

def zeroVol (size : UInt64) : Vol where
  codecs := zeroCodecs
  total := 2
  dev k := if k = 4096 then 1 else 0
  row i := if i = 5 then some ⟨.file, size.toNat, .ast ⟨size.toNat, [zeroEntry size], .none⟩, {}⟩ else none
  named _ := true
  sibling _ _ := none

variable {size : UInt64}

theorem zero_blob : (zeroVol size).segReadChecked 1 1 = some [0] := rfl

theorem zero_segment : (zeroVol size).plainSegment (zeroEntry size) = some (replicate size.toNat 0) := by
  have hblob : (zeroVol size).segReadChecked (zeroEntry size).pba 1 = some [0] := zero_blob
  unfold Vol.plainSegment
  rw [hblob]
  simp [zeroEntry, exactly, zeroVol, zeroCodecs, Entry.len]

theorem zero_behind : behind (zeroEntry size).len (replicate size.toNat 0) = replicate size.toNat (some 0) := by
  have hlen : (replicate size.toNat (0 : Byte)).length = (zeroEntry size).len := length_replicate
  rw [behind_full hlen, map_replicate]

theorem zero_decoded (hsize : 1 < size.toNat) : decodeEntry (zeroVol size) range sib 5 r (zeroEntry size) =
      some (0, replicate size.toNat (some 0)) := by
  have hblob : (zeroVol size).segReadChecked (zeroEntry size).pba 1 = some [0] := zero_blob
  have hseg : segmentBytes (zeroVol size) sib 5 (zeroEntry size) = some (replicate size.toNat 0) := by
    unfold segmentBytes
    rw [hblob]
    simp [zeroEntry, exactly, zeroVol, zeroCodecs, Entry.len, frameOk, hsize]
  have hplain : (zeroEntry size).algo = .zstd := rfl
  unfold decodeEntry
  rw [hseg, hplain, map_some, zero_behind]
  simp [zeroEntry, Entry.lo]

theorem zero_laid : laid size.toNat [zeroEntry size] = true := by
  simp [laid, inBounds, zeroEntry, Entry.lo, Entry.hi]

theorem zero_file (hsize : 1 < size.toNat) : (zeroVol size).ReadsFile 5 (replicate size.toNat (some 0)) := by
  refine ⟨1, fun n hn => ?_⟩
  obtain ⟨n, rfl⟩ : ∃ m, n = m + 1 := ⟨n - 1, by omega⟩
  have hrow : (zeroVol size).row 5 = some ⟨.file, size.toNat, .ast ⟨size.toNat, [zeroEntry size], .none⟩, {}⟩ := rfl
  rw [Vol.readInode, hrow, bind_some, if_neg (by simp; omega)]
  simp only [ne_eq, not_true_eq_false, if_false, decodeEntries, zero_laid]
  simp only [decodeAll, zero_decoded hsize, bind_some, map_some]
  congr 1
  refine ext_getElem? fun j => ?_
  by_cases hj : j < size.toNat
  · simp [hj, place]
  · rw [getElem?_eq_none (by simp; omega), getElem?_eq_none (by simp; omega)]

theorem zero_step (n a b : Nat) (f : Filled Cell) : rangeStep (zeroVol size)
    ((zeroVol size).readInode n) false 5 .none (zeroEntry size) a b f =
      some (f.put a (((replicate size.toNat 0).drop a).take (b - a) |>.map some)) := by
  unfold rangeStep
  rw [zero_segment, map_some, zero_behind]
  simp [zeroEntry, Vol.algoIsWholeFile, laneAlgo, Vol.codec, Entry.lo]

theorem zero_window (hlen : 0 < len) (hend : off + len ≤ size.toNat) :
    (zeroVol size).rangeAst ((zeroVol size).readInode n) 5 ⟨size.toNat, [zeroEntry size], .none⟩
      size.toNat off len = some (replicate len (some 0)) := by
  have hmap : (zeroVol size).hasMap 5 = false := rfl
  have hcodec : (zeroVol size).maybeMapped (zeroEntry size).algo = false := rfl
  have hlo : (zeroEntry size).lo = 0 := rfl
  have hhi : (zeroEntry size).hi = size.toNat := by simp [Entry.hi, zeroEntry]
  have hfill (f : Filled Cell) : fill Entry.lo Entry.hi
      (rangeStep (zeroVol size) ((zeroVol size).readInode n) false 5 .none) off (off + len)
      [zeroEntry size] f = some (f.put off (replicate len (some 0))) := by
    rw [fill, hlo, hhi, if_neg (by omega), if_neg (by omega), if_neg (by omega), Nat.max_zero,
      Nat.min_eq_left hend, zero_step, bind_some, fill, Nat.add_sub_cancel_left]
    congr 2
    simp
    omega
  unfold Vol.rangeAst
  rw [if_neg (by simp [inBounds, hlo, hhi])]
  simp only [hmap, hcodec, Bool.and_false, Bool.false_and]
  change (fill _ _ _ _ _ [zeroEntry size] _).bind _ = _
  rw [hfill, bind_some, if_pos (by simp [Filled.put])]
  congr 1
  refine ext_getElem? fun j => ?_
  by_cases hj : j < len
  · simp [hj, Filled.put, place]
  · rw [getElem?_eq_none (by simp; omega), getElem?_eq_none (by simp; omega)]

theorem zero_range (hoff : off < size.toNat) (hlen : 0 < len) :
    (zeroVol size).ReadsRange 5 off len (toInt (min len (size.toNat - off)))
      (replicate (min len (size.toNat - off)) (some 0)) := by
  refine ⟨0, fun n _ => ⟨some (replicate (min len (size.toNat - off)) (some 0)), ?_, ?_, rfl⟩⟩
  · have hrow : (zeroVol size).row 5 = some ⟨.file, size.toNat, .ast ⟨size.toNat, [zeroEntry size], .none⟩, {}⟩ := rfl
    rw [readRange_ast hrow rfl (by simp) hoff hlen]
    dsimp only
    exact zero_window (by omega) (by omega)
  · rw [rangeRet, length_replicate]

theorem zero_regular : Regular (zeroVol size) 5 ⟨size.toNat, [zeroEntry size], .none⟩ := by
  refine ⟨rfl, fun e ents hk => ?_, fun e he hc => ?_, fun e he hl => ?_, fun e ents hk => ?_, fun e he hx => ?_⟩
  · simp [kids] at hk
  · simp [mem_singleton.mp he, zeroEntry] at hc
  · simp [mem_singleton.mp he, zeroEntry] at hl
  · simp [kids] at hk
  · simp [mem_singleton.mp he, zeroEntry] at hx

end InvariantFs.RangedRead
