import InvariantFs.RangedRead

namespace InvariantFs.ReadFrame

open ByteCodec Spans FileRead RangedRead List Option

variable {v : Vol} {e : Entry} {i n : Nat} {row : Row} {r : Recipe}

theorem readInode_entries (hrow : v.row i = some row) (hblob : row.blob = .ast r) : v.readInode (n + 1) i =
      if row.size = 0 then some [] else if row.type = .link ∨ r.size ≠ row.size then none
      else decodeEntries v (v.readRange (v.readInode n))
        (fun s => ((v.sibling i s).bind (v.readInode n)).bind determined) i r := by
  obtain ⟨type, size, blob⟩ := row
  subst hblob
  rw [Vol.readInode, hrow, bind_some]
  by_cases hz : size = 0
  · simp [hz]
  · rw [if_neg (by simp [hz]), if_neg hz]
    cases type <;> simp

theorem readInode_bare (hrow : v.row i = some row) (hblob : ∀ r, row.blob ≠ .ast r) : v.readInode (n + 1) i =
      if row.size = 0 ∨ row.blob = .zero then some [] else match row.type, row.blob with
        | .link, .raw bs => some (bs.map some)
        | _, _ => none := by
  obtain ⟨type, size, blob⟩ := row
  rw [Vol.readInode, hrow, bind_some]
  cases blob with
  | ast r => exact absurd rfl (hblob r)
  | zero => simp
  | lost => cases type <;> rfl
  | raw bs => cases type <;> rfl

variable {dec : Entry → Option (Nat × List Cell)} {es : List Entry}

theorem tiles_laid {q : Nat} (h : Tiles Entry.lo Entry.hi 0 q es) : laid q es = true := by
  simp only [laid, Bool.and_eq_true, List.all_eq_true, decide_eq_true_eq, inBounds, Bool.decide_and]
  refine ⟨fun e he => ?_, h.chain⟩
  obtain ⟨-, h1, h2⟩ := h.inside he
  exact ⟨Nat.le_trans h1 h2, h2, h1⟩

theorem decodeAll_tiles {bytes : Entry → List Byte} {p q : Nat} (h : Tiles Entry.lo Entry.hi p q es)
    (hdec : ∀ e ∈ es, dec e = some (e.lo, (bytes e).map some) ∧ (bytes e).length = e.len)
    (d : Nat → Cell) : ∃ d', decodeAll dec es d = some d' ∧ (∀ k, k < p → d' k = d k) ∧
      (range' p (q - p)).map d' = (es.flatMap bytes).map some := by
  induction es generalizing p d with
  | nil =>
    obtain rfl : p = q := h
    exact ⟨d, rfl, fun _ _ => rfl, by simp⟩
  | cons e es ih =>
    obtain ⟨hlo, hle, hrest⟩ := h
    obtain ⟨he, hlen⟩ := hdec e (by simp)
    obtain ⟨d', hd', hbelow, hcells⟩ := ih hrest (fun x hx => hdec x (by simp [hx]))
      (place d e.lo ((bytes e).map some))
    have hhi := hi_eq (hlo.trans_le hle)
    have hq := hrest.le
    refine ⟨d', by rw [decodeAll, he, bind_some, hd'], fun k hk => ?_, ?_⟩
    · rw [hbelow k (by omega), place_outside (by omega)]
    · have hsplit : q - p = e.len + (q - e.hi) := by omega
      have hend : p + e.len = e.hi := by omega
      rw [hsplit, ← range'_append_1, map_append, hend, hcells, flatMap_cons, map_append]
      congr 1
      apply ext_getElem?
      intro k
      by_cases hk : k < e.len
      · have hin : ((bytes e).map some)[e.lo + k - e.lo]? = some (place d e.lo ((bytes e).map some) (e.lo + k)) :=
          place_inside (by omega) (by simp; omega)
        rw [Nat.add_sub_cancel_left] at hin
        rw [hin, getElem?_map, getElem?_range' (by omega), map_some, hbelow _ (by omega)]
        congr 2
        omega
      · rw [getElem?_eq_none (by simp; omega), getElem?_eq_none (by simp; omega)]

/-- Files that take their bytes from nobody outside: no container is read through its map, and the
siblings and the sources of windows belong to the set as well. -/
structure Apart (v : Vol) (S : Set Nat) : Prop where
  unmapped : ∀ j ∈ S, v.hasMap j = false
  sibling : ∀ j ∈ S, ∀ s k, v.sibling j s = some k → k ∈ S
  window : ∀ j ∈ S, ∀ row r, v.row j = some row → row.blob = .ast r →
    ∀ e ∈ r.ents, e.algo = .windowSrc → e.pba ∈ S

variable {S : Set Nat} {f : Nat → Option Row} {whole whole' : Nat → Option (List Cell)}

section

variable (h : whole' i = whole i)

include h

theorem rangeStep_row (noMap : Bool) (tail : Tail) :
    rangeStep { v with row := f } whole' noMap i tail = rangeStep v whole noMap i tail := by
  funext e a b g
  unfold rangeStep
  rw [h]
  rfl

theorem rangeAst_row (size off len : Nat) :
    Vol.rangeAst { v with row := f } whole' i r size off len = v.rangeAst whole i r size off len := by
  unfold Vol.rangeAst
  simp only [rangeStep_row h]
  rfl

theorem readRange_row (hrow : f i = v.row i) (off len : Nat) :
    Vol.readRange { v with row := f } whole' i off len = v.readRange whole i off len := by
  unfold Vol.readRange
  simp only [hrow, rangeAst_row h]

end

theorem decodeAll_congr {dec' : Entry → Option (Nat × List Cell)}
    (h : ∀ e ∈ es, dec' e = dec e) (d : Nat → Cell) : decodeAll dec' es d = decodeAll dec es d := by
  induction es generalizing d with
  | nil => rfl
  | cons e es ih =>
    rw [decodeAll, decodeAll, h e (by simp)]
    congr 1
    funext p
    exact ih (fun x hx => h x (by simp [hx])) _

variable {range range' : Nat → Nat → Nat → Option (List Cell)} {sib : String → Option (List Byte)}

theorem decodeEntry_row (hown : range' i = range i)
    (hsrc : e.algo = .windowSrc → range' e.pba = range e.pba ∧ f e.pba = v.row e.pba) :
    decodeEntry { v with row := f } range' sib i r e = decodeEntry v range sib i r e := by
  unfold decodeEntry
  by_cases hchild : e.algo = .child
  · rw [if_pos hchild, if_pos hchild, childCells, childCells, hown]
  rw [if_neg hchild, if_neg hchild]
  by_cases htext : e.zone = .text ∧ batchAlgo e.algo = true
  · rw [if_pos htext, if_pos htext]
    rfl
  rw [if_neg htext, if_neg htext]
  by_cases hwin : e.algo = .windowSrc
  · obtain ⟨hr, hf⟩ := hsrc hwin
    rw [if_pos hwin, if_pos hwin, windowBytes, windowBytes]
    simp only [hr, hf]
  · rw [if_neg hwin, if_neg hwin]
    rfl

theorem decodeEntries_row (hown : range' i = range i)
    (hsrc : ∀ e ∈ r.ents, e.algo = .windowSrc → range' e.pba = range e.pba ∧ f e.pba = v.row e.pba) :
    decodeEntries { v with row := f } range' sib i r = decodeEntries v range sib i r := by
  unfold decodeEntries
  rw [decodeAll_congr fun e he => decodeEntry_row hown (hsrc e he)]

theorem Apart.readInode (h : Apart v S) (hrow : ∀ j ∈ S, f j = v.row j) (n : Nat) :
    ∀ j ∈ S, Vol.readInode { v with row := f } n j = v.readInode n j := by
  induction n with
  | zero =>
    intro j _
    rw [Vol.readInode, Vol.readInode]
  | succ n ih =>
    intro j hj
    have hsib : (fun s => ((v.sibling j s).bind (Vol.readInode { v with row := f } n)).bind
        determined) = fun s => ((v.sibling j s).bind (v.readInode n)).bind determined := by
      funext s
      cases hk : v.sibling j s with
      | none => simp only [bind_none]
      | some k => rw [bind_some, bind_some, ih k (h.sibling j hj s k hk)]
    have hrange : ∀ k ∈ S, Vol.readRange { v with row := f } (Vol.readInode { v with row := f } n) k =
        v.readRange (v.readInode n) k := fun k hk => by
      funext off len
      exact readRange_row (ih k hk) (hrow k hk) off len
    have hast : ∀ row r, v.row j = some row → row.blob = .ast r →
        decodeEntries { v with row := f }
          (Vol.readRange { v with row := f } (Vol.readInode { v with row := f } n))
          (fun s => ((v.sibling j s).bind (v.readInode n)).bind determined) j r =
        decodeEntries v (v.readRange (v.readInode n))
          (fun s => ((v.sibling j s).bind (v.readInode n)).bind determined) j r := by
      intro row r hr hblob
      refine decodeEntries_row (hrange j hj) fun e he hwin => ?_
      have hs := h.window j hj row r hr hblob e he hwin
      exact ⟨hrange _ hs, hrow _ hs⟩
    cases hr : v.row j with
    | none =>
      have hr' : Vol.row { v with row := f } j = none := (hrow j hj).trans hr
      rw [Vol.readInode, Vol.readInode, hr, hr', bind_none, bind_none]
    | some row =>
      have hr' : Vol.row { v with row := f } j = some row := (hrow j hj).trans hr
      by_cases hblob : ∃ r, row.blob = .ast r
      · obtain ⟨r, hblob⟩ := hblob
        rw [readInode_entries hr hblob, readInode_entries hr' hblob, hsib, hast row r hr hblob]
      · rw [readInode_bare hr (not_exists.mp hblob), readInode_bare hr' (not_exists.mp hblob)]

end InvariantFs.ReadFrame
