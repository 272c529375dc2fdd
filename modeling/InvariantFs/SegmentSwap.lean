import InvariantFs.FileRead

namespace InvariantFs.SegmentSwap

open ByteCodec Spans FileRead List

variable {v : Vol}

structure Swap (v : Vol) (e e' : Entry) : Prop where
  rest : e' = { e with pba := e'.pba }
  same : e'.pba = e.pba ∨
    (e.zone ≠ .text ∧ e.algo ≠ .windowSrc ∧ e.algo ≠ .child) ∧
    (e.pba ≠ 0 ∧ e.pba < v.total) ∧ (e'.pba ≠ 0 ∧ e'.pba < v.total) ∧
    v.segReadChecked e'.pba 1 = v.segReadChecked e.pba 1

theorem Swap.refl (e : Entry) : Swap v e e := ⟨rfl, .inl rfl⟩

variable {e e' : Entry}

theorem Swap.cases (h : Swap v e e') : e' = e ∨ (e.zone ≠ .text ∧ e.algo ≠ .windowSrc ∧ e.algo ≠ .child) ∧
      (∃ p, e' = { e with pba := p }) ∧ v.plainSegment e' = v.plainSegment e ∧
      ∀ sib i, segmentBytes v sib i e' = segmentBytes v sib i e := by
  obtain ⟨hrest, heq | ⟨hplain, hp, hp', hseg⟩⟩ := h
  · left
    rw [hrest, heq]
  · right
    have hne : ¬ (e.pba = 0 ∨ v.total ≤ e.pba) := by omega
    have hne' : ¬ (e'.pba = 0 ∨ v.total ≤ e'.pba) := by omega
    rw [hrest] at hne' hseg ⊢
    refine ⟨hplain, ⟨_, rfl⟩, ?_, fun sib i => ?_⟩
    · unfold Vol.plainSegment
      rw [if_neg hne, if_neg hne', hseg]
      rfl
    · unfold segmentBytes
      rw [if_neg hne, if_neg hne', hseg]
      rfl

theorem Swap.lo (h : Swap v e e') : e'.lo = e.lo := by
  rw [h.rest]
  rfl

theorem Swap.hi (h : Swap v e e') : e'.hi = e.hi := by
  rw [h.rest]
  rfl

theorem Swap.algo (h : Swap v e e') : e'.algo = e.algo := by
  rw [h.rest]

variable {whole : Nat → Option (List Cell)} {noMap : Bool} {i : Nat} {tail : Tail}

theorem rangeStep_swap (h : Swap v e e') : rangeStep v whole noMap i tail e' = rangeStep v whole noMap i tail e := by
  obtain rfl | ⟨⟨hz, -, hc⟩, ⟨p, rfl⟩, hseg, -⟩ := h.cases
  · rfl
  · funext a b f
    unfold rangeStep
    rw [hseg]
    simp only [hc, hz, false_and, if_false]
    rfl

variable {range : Nat → Nat → Nat → Option (List Cell)} {sib : String → Option (List Byte)}

theorem decodeEntry_swap {r r' : Recipe} (htail : r'.tail = r.tail)
    (h : Swap v e e') : decodeEntry v range sib i r' e' = decodeEntry v range sib i r e := by
  obtain rfl | ⟨⟨hz, hw, hc⟩, ⟨p, rfl⟩, -, hseg⟩ := h.cases
  · unfold decodeEntry windowBytes
    rw [htail]
  · unfold decodeEntry
    rw [hseg]
    simp only [hc, hz, hw, false_and, if_false]
    rfl

variable {es es' : List Entry}

section

variable (h : Forall₂ (Swap v) es es')

include h

theorem map_hi_swap : es'.map Entry.hi = es.map Entry.hi := by
  induction h with
  | nil => rfl
  | cons hx _ ih => simp [hx.hi, ih]

theorem startIdx_swap (off : Nat) : startIdx es' off = startIdx es off := by
  unfold startIdx
  simp only [h.length_eq, ← getElem?_map, map_hi_swap h]

theorem fill_swap (a b : Nat) (f : Filled Cell) : fill Entry.lo Entry.hi (rangeStep v whole noMap i tail) a b es' f =
      fill Entry.lo Entry.hi (rangeStep v whole noMap i tail) a b es f := by
  induction h generalizing f with
  | nil => rfl
  | cons hx _ ih =>
    rw [fill, fill, hx.lo, hx.hi, rangeStep_swap hx, funext ih]

theorem inBounds_swap (size : Nat) : es'.all (inBounds size) = es.all (inBounds size) := by
  induction h with
  | nil => rfl
  | cons hx _ ih => simp only [all_cons, inBounds, hx.lo, hx.hi, ih]

theorem laid_swap (size : Nat) : laid size es' = laid size es := by
  have hchain : (es'.IsChain fun x y => x.hi ≤ y.lo) ↔ es.IsChain fun x y => x.hi ≤ y.lo := by
    induction h with
    | nil => rfl
    | cons hx hrest ih =>
      cases hrest with
      | nil => simp
      | cons hy _ => simp only [isChain_cons_cons, hx.hi, hy.lo, ih]
  unfold laid
  simp only [inBounds_swap h, hchain]

theorem decodeAll_swap {dec dec' : Entry → Option (Nat × List Cell)} (hdec : ∀ e e', Swap v e e' → dec' e' = dec e)
    (d : Nat → Cell) : decodeAll dec' es' d = decodeAll dec es d := by
  induction h generalizing d with
  | nil => rfl
  | cons hx _ ih => simp only [decodeAll, hdec _ _ hx, ih]

end

inductive RowSwap (v : Vol) : Option Row → Option Row → Prop where
  | same (o : Option Row) : RowSwap v o o
  | swap (type : Kind) (size size' : Nat) (tail : Tail) (attrs : Attrs) {es es' : List Entry}
      (h : Forall₂ (Swap v) es es') :
      RowSwap v (some ⟨type, size, .ast ⟨size', es, tail⟩, attrs⟩)
        (some ⟨type, size, .ast ⟨size', es', tail⟩, attrs⟩)

theorem RowSwap.none_iff {o o' : Option Row} (h : RowSwap v o o') : o' = none ↔ o = none := by
  cases h <;> simp

theorem rangeAst_swap (h : Forall₂ (Swap v) es es') (size size' off len : Nat) :
    v.rangeAst whole i ⟨size', es', tail⟩ size off len = v.rangeAst whole i ⟨size', es, tail⟩ size off len := by
  unfold Vol.rangeAst
  dsimp only
  rw [inBounds_swap h, startIdx_swap h]
  simp only [fill_swap (forall₂_drop (startIdx es off) h)]
  cases h with
  | nil => rfl
  | cons hx _ => simp only [hx.algo]

section

variable {row' : Nat → Option Row} (h : ∀ i, RowSwap v (v.row i) (row' i))

include h

theorem readRange_swap (i off len : Nat) :
    { v with row := row' }.readRange whole i off len = v.readRange whole i off len := by
  have hi := h i
  unfold Vol.readRange
  change (row' i).bind _ = _
  generalize v.row i = o, row' i = o' at hi ⊢
  cases hi with
  | same => rfl
  | swap type size size' tail attrs hes =>
    simp only [Option.bind_some, reduceCtorEq, false_or]
    split_ifs
    · rfl
    · cases type
      · exact rangeAst_swap hes size size' off _
      · exact rangeAst_swap hes size size' off _
      · rfl

theorem decodeEntry_rows (r : Recipe) (e : Entry) :
    decodeEntry { v with row := row' } range sib i r e = decodeEntry v range sib i r e := by
  have hnone : ({ v with row := row' } : Vol).row e.pba = none ↔ v.row e.pba = none := (h e.pba).none_iff
  unfold decodeEntry windowBytes
  simp only [hnone]
  rfl

theorem decodeEntries_swap (hes : Forall₂ (Swap v) es es') (size : Nat) :
    decodeEntries { v with row := row' } range sib i ⟨size, es', tail⟩ =
      decodeEntries v range sib i ⟨size, es, tail⟩ := by
  have hdec : ∀ e e', Swap v e e' →
      decodeEntry { v with row := row' } range sib i ⟨size, es', tail⟩ e' =
        decodeEntry v range sib i ⟨size, es, tail⟩ e :=
    fun e e' he => (decodeEntry_rows h _ e').trans (decodeEntry_swap rfl he)
  unfold decodeEntries
  dsimp only
  rw [laid_swap hes, decodeAll_swap hes hdec]

theorem readInode_swap (n i : Nat) : { v with row := row' }.readInode n i = v.readInode n i := by
  induction n generalizing i with
  | zero => rfl
  | succ n ih =>
    have hwhole : ({ v with row := row' } : Vol).readInode n = v.readInode n := funext ih
    have hrange : ({ v with row := row' } : Vol).readRange (v.readInode n) =
        v.readRange (v.readInode n) := by
      funext j off len
      exact readRange_swap h j off len
    have hi := h i
    rw [Vol.readInode, Vol.readInode, hwhole, hrange]
    change (row' i).bind _ = _
    generalize v.row i = o, row' i = o' at hi ⊢
    cases hi with
    | same =>
      -- the sources of its windows may have changed
      have hrefl : ∀ r sib, decodeEntries { v with row := row' } (v.readRange (v.readInode n)) sib i
          r = decodeEntries v (v.readRange (v.readInode n)) sib i r :=
        fun r sib => decodeEntries_swap h (forall₂_same.mpr fun e _ => Swap.refl e) r.size
      simp only [hrefl]
    | swap type size size' tail attrs hes =>
      simp only [Option.bind_some, reduceCtorEq, or_false]
      split_ifs
      · rfl
      · cases type <;> simp only [decodeEntries_swap h hes]

end

end InvariantFs.SegmentSwap
