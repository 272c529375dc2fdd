import InvariantFs.Retire

namespace InvariantFs.FreshBlocks

open ByteCodec Spans FileRead Retire List Option Entry

def redev (v : Vol) (dev' : Nat → Byte) : Vol := { v with dev := dev' }

inductive Names (r : Recipe) (e : Entry) : Prop where
  | top (h : e ∈ r.ents)
  | child {cs : List (Option (List Entry))} {es : List Entry} (htail : r.tail = .children cs)
      (hc : some es ∈ cs) (he : e ∈ es)

def Same (v : Vol) (dev' : Nat → Byte) (e : Entry) : Prop :=
  e.algo ≠ .windowSrc → e.pba ≠ 0 → e.pba < v.total →
    ∀ least, (redev v dev').segReadChecked e.pba least = v.segReadChecked e.pba least

def Unseen (v : Vol) (dev' : Nat → Byte) : Prop :=
  ∀ i row r e, v.row i = some row → row.blob = .ast r → Names r e → Same v dev' e

variable {v : Vol} {dev' : Nat → Byte}

@[simp]
theorem redev_row : (redev v dev').row = v.row := rfl

@[simp]
theorem redev_total : (redev v dev').total = v.total := rfl

@[simp]
theorem redev_codecs : (redev v dev').codecs = v.codecs := rfl

@[simp]
theorem redev_sibling : (redev v dev').sibling = v.sibling := rfl

theorem redev_wholeFile : (redev v dev').algoIsWholeFile = v.algoIsWholeFile := rfl

section Entries

variable {e : Entry} (h : Same v dev' e)

include h

theorem textSlice_same (hb : batchAlgo e.algo) (off want : Nat) :
    (redev v dev').textSlice e off want = v.textSlice e off want := by
  have hbatch : (redev v dev').batch e = v.batch e := by
    unfold Vol.batch
    rw [redev_total]
    split_ifs with hbad
    · rfl
    · have hwin : e.algo ≠ .windowSrc := by
        intro heq
        simp [heq, batchAlgo] at hb
      rw [h hwin (by omega) (by omega)]
      rfl
  unfold Vol.textSlice
  rw [hbatch]
  rfl

theorem plainSegment_same : (redev v dev').plainSegment e = v.plainSegment e := by
  unfold Vol.plainSegment
  rw [redev_total]
  split_ifs with hbad
  · rfl
  · by_cases hwin : e.algo = .windowSrc
    · simp [hwin]
    · rw [h hwin (by omega) (by omega)]
      rfl

theorem segmentBytes_same (hwin : e.algo ≠ .windowSrc) (sib : String → Option (List Byte)) (i : Nat) :
    segmentBytes (redev v dev') sib i e = segmentBytes v sib i e := by
  unfold segmentBytes
  rw [redev_total]
  split_ifs with hbad
  · rfl
  · rw [h hwin (by omega) (by omega)]
    rfl

theorem childStep_same : childStep (redev v dev') e = childStep v e := by
  funext a b f
  unfold childStep
  rw [plainSegment_same h]
  split_ifs with hc ht
  · rfl
  · rw [textSlice_same h ht.2]
  · rfl

end Entries

theorem fill_congr {ι α : Type} {lo hi : ι → Nat} {step step' : ι → Nat → Nat → Filled α → Option (Filled α)}
    {es : List ι} (h : ∀ e ∈ es, step e = step' e) (a b : Nat) (f : Filled α) :
    fill lo hi step a b es f = fill lo hi step' a b es f := by
  induction es generalizing f with
  | nil => rfl
  | cons e es ih =>
    have hrest := ih fun x hx => h x (mem_cons_of_mem e hx)
    simp only [fill, h e mem_cons_self, funext hrest]

section Recipes

variable {whole : Nat → Option (List Cell)} {i : Nat} {r : Recipe}
variable (h : ∀ e, Names r e → Same v dev' e)

include h

theorem rangeStep_same (noMap : Bool) {e : Entry} (he : e ∈ r.ents) :
    rangeStep (redev v dev') whole noMap i r.tail e = rangeStep v whole noMap i r.tail e := by
  have hsame := h e (.top he)
  have hchild : ∀ cs es, r.tail = .children cs → cs[e.blockId]? = some (some es) → ∀ a b f,
      fill lo hi (childStep (redev v dev')) a b (es.drop (startIdx es a)) f =
        fill lo hi (childStep v) a b (es.drop (startIdx es a)) f := by
    intro cs es htail hes a b f
    exact fill_congr (fun x hx => childStep_same (h x (.child htail (mem_of_getElem? hes)
      (mem_of_mem_drop hx)))) a b f
  funext a b f
  unfold rangeStep
  rw [redev_wholeFile]
  split_ifs with hc ht hw
  · cases htail : r.tail with
    | none => rfl
    | windows ws => rfl
    | children cs =>
      dsimp only
      split
      next es hes => exact hchild cs es htail hes a b f
      next => rfl
  · rw [textSlice_same hsame ht.2]
  · rfl
  · rw [plainSegment_same hsame]

theorem rangeAst_same (size off len : Nat) :
    (redev v dev').rangeAst whole i r size off len = v.rangeAst whole i r size off len := by
  unfold Vol.rangeAst
  have hfill : ∀ noMap a b f, fill lo hi (rangeStep (redev v dev') whole noMap i r.tail) a b
      (r.ents.drop (startIdx r.ents off)) f =
        fill lo hi (rangeStep v whole noMap i r.tail) a b (r.ents.drop (startIdx r.ents off)) f :=
    fun noMap a b f => fill_congr (fun e he => rangeStep_same h noMap (mem_of_mem_drop he)) a b f
  simp only [hfill]
  rfl

variable {range : Nat → Nat → Nat → Option (List Cell)} {sib : String → Option (List Byte)}

theorem decodeEntry_same {e : Entry} (he : e ∈ r.ents) :
    decodeEntry (redev v dev') range sib i r e = decodeEntry v range sib i r e := by
  have hsame := h e (.top he)
  unfold decodeEntry
  split_ifs with hc ht hw
  · rfl
  · rw [textSlice_same hsame ht.2]
  · rfl
  · rw [segmentBytes_same hsame hw]
  · rw [segmentBytes_same hsame hw]

theorem decodeEntries_same : decodeEntries (redev v dev') range sib i r = decodeEntries v range sib i r := by
  have hall : ∀ es : List Entry, (∀ e ∈ es, e ∈ r.ents) → ∀ d,
      decodeAll (decodeEntry (redev v dev') range sib i r) es d = decodeAll (decodeEntry v range sib i r) es d := by
    intro es
    induction es with
    | nil => simp [decodeAll]
    | cons e es ih =>
      intro hes d
      have hrest := ih fun x hx => hes x (mem_cons_of_mem e hx)
      simp only [decodeAll, decodeEntry_same h (hes e mem_cons_self), hrest]
  unfold decodeEntries
  simp only [hall r.ents fun _ he => he]

end Recipes

theorem readRange_same (h : Unseen v dev') (whole : Nat → Option (List Cell)) :
    (redev v dev').readRange whole = v.readRange whole := by
  funext i off len
  unfold Vol.readRange
  rw [redev_row]
  cases hrow : v.row i with
  | none => simp only [bind_none]
  | some row =>
    obtain ⟨type, size, blob⟩ := row
    cases blob with
    | ast r =>
      have hast : ∀ n, (redev v dev').rangeAst whole i r size off n = v.rangeAst whole i r size off n :=
        fun n => rangeAst_same (fun e he => h i _ r e hrow rfl he) size off n
      cases type <;> simp only [bind_some, hast]
    | _ => cases type <;> simp only [bind_some]

theorem readInode_same (h : Unseen v dev') (n : Nat) : (redev v dev').readInode n = v.readInode n := by
  induction n with
  | zero => rfl
  | succ n ih =>
    funext i
    rw [Vol.readInode, Vol.readInode, ih, readRange_same h, redev_row, redev_sibling]
    cases hrow : v.row i with
    | none => simp only [bind_none]
    | some row =>
      obtain ⟨type, size, blob⟩ := row
      cases blob with
      | ast r =>
        have hdec : ∀ range sib, decodeEntries (redev v dev') range sib i r = decodeEntries v range sib i r :=
          fun range sib => decodeEntries_same fun e he => h i _ r e hrow rfl he
        cases type <;> simp only [bind_some, hdec]
      | _ => cases type <;> simp only [bind_some]

/-- The blocks of a segment are allocated: the one with its header, and if the header gives an extent,
all of it. -/
def Allocated (bit : Nat → Bool) (v : Vol) (pba : Nat) : Prop :=
  bit pba = true ∧ ∀ plen, segExtent v pba = some plen → ∀ b, pba ≤ b → b < pba + plen → bit b = true

def Held (d : Disk) : Prop :=
  ∀ i row r e, d.vol.row i = some row → row.blob = .ast r → Names r e → e.algo ≠ .windowSrc → e.pba ≠ 0 →
    e.pba < d.vol.total → Allocated d.bit d.vol e.pba

def Scribbled (bit : Nat → Bool) (dev dev' : Nat → Byte) : Prop :=
  ∀ a, bit (a / blockSize) = true → dev' a = dev a

variable {bit : Nat → Bool} {off n : Nat}

theorem bytes_scribbled (h : Scribbled bit v.dev dev')
    (hbit : ∀ k, k < n → bit ((off + k) / blockSize) = true) : (redev v dev').bytes off n = v.bytes off n := by
  unfold Vol.bytes
  refine map_congr_left fun k hk => ?_
  exact h (off + k) (hbit k (mem_range.mp hk))

variable {pba : Nat}

theorem header_scribbled (h : Scribbled bit v.dev dev') (hbit : bit pba = true) (hn : off + n ≤ 8) :
    (redev v dev').bytes (pba * blockSize + off) n = v.bytes (pba * blockSize + off) n := by
  refine bytes_scribbled h fun k hk => ?_
  have hdiv : (pba * blockSize + off + k) / blockSize = pba := by
    unfold blockSize
    omega
  rwa [hdiv]

theorem csize_scribbled (h : Scribbled bit v.dev dev') (hbit : bit pba = true) :
    (redev v dev').csize pba = v.csize pba := by
  unfold Vol.csize
  rw [← Nat.add_zero (pba * blockSize), header_scribbled h hbit (by decide)]

theorem segReadOnce_scribbled (h : Scribbled bit v.dev dev') (hp : pba ≠ 0) (hlt : pba < v.total)
    (ha : Allocated bit v pba) (least : Nat) : (redev v dev').segReadOnce pba least = v.segReadOnce pba least := by
  obtain ⟨hfirst, hall⟩ := ha
  unfold Vol.segReadOnce
  simp only [csize_scribbled h hfirst, header_scribbled h hfirst (by decide : 4 + 4 ≤ 8), redev_total, redev_codecs]
  by_cases hbad : v.csize pba < least ∨ (v.total - pba) * blockSize < v.csize pba + 8
  · rw [if_pos hbad, if_pos hbad]
  · have hblob : (redev v dev').bytes (pba * blockSize + 8) (v.csize pba) =
        v.bytes (pba * blockSize + 8) (v.csize pba) := by
      by_cases hzero : v.csize pba = 0
      · simp [hzero, Vol.bytes]
      · have hext : segExtent v pba = some ((v.csize pba + 8 + blockSize - 1) / blockSize) := by
          unfold segExtent
          refine if_neg ?_
          unfold blockSize at hbad ⊢
          omega
        refine bytes_scribbled h fun k hk => ?_
        refine hall _ hext _ ?_ ?_
        · unfold blockSize
          omega
        · unfold blockSize
          omega
    rw [hblob]

theorem unseen_scribbled {d : Disk} (h : Scribbled d.bit d.vol.dev dev') (hheld : Held d) : Unseen d.vol dev' := by
  intro i row r e hrow hblob he hwin hp hlt least
  unfold Vol.segReadChecked
  rw [segReadOnce_scribbled h hp hlt (hheld i row r e hrow hblob he hwin hp hlt)]
  rfl

end InvariantFs.FreshBlocks
