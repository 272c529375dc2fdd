import InvariantFs.BtreePage

namespace InvariantFs.BtreeSplit

open BtreePage List Option

def lowerBoundLoop (es : List Ent) (key : Key) : Nat → Nat → Nat → Nat
  | 0, lo, _ => lo
  | fuel + 1, lo, hi =>
    if lo < hi then
      let mid := lo + (hi - lo) / 2
      match es[mid]? with
      | none => lo
      | some e => if e.k < key then lowerBoundLoop es key fuel (mid + 1) hi
        else lowerBoundLoop es key fuel lo mid
    else lo

/-- `bt_lower_bound`: the first record whose key is not below the target. -/
def lowerBound (es : List Ent) (key : Key) : Nat := lowerBoundLoop es key es.length 0 es.length

def childIndexLoop (key : Key) : Nat → Nat → List Ent → Nat
  | i, _, [] => i
  | i, j, e :: es => if e.k ≤ key then childIndexLoop key j (j + 1) es else i

def childIndex (es : List Ent) (key : Key) : Nat := childIndexLoop key 0 1 es.tail

def halfPoint (level half : Nat) : Nat → Nat → List Ent → Option Nat
  | _, _, [] => none
  | acc, i, e :: es =>
    let acc := acc + recSize level e
    if half ≤ acc then some (i + 1) else halfPoint level half acc (i + 1) es

def shrink (level : Nat) (es : List Ent) : Nat → Nat
  | 0 => 0
  | s + 1 => if 1 < s + 1 ∧ pageSize < used level (es.take (s + 1)) then shrink level es s else s + 1

def grow (level : Nat) (es : List Ent) : Nat → Nat → Nat
  | 0, s => s
  | fuel + 1, s =>
    if s < es.length - 1 ∧ pageSize < used level (es.drop s) then grow level es fuel (s + 1) else s

section

variable (level : Nat) (es : List Ent)

/-- The balanced cut of `bt_split_point`, before the halves are checked against the page. -/
def startPoint : Nat :=
  let s := (halfPoint level (used level es / 2) pageHdrLen 0 es.dropLast).getD (es.length / 2)
  let s := if s < 1 then 1 else s
  if es.length - 1 < s then es.length - 1 else s

def splitPoint : Option Nat :=
  let s := grow level es es.length (shrink level es (startPoint level es))
  if pageSize < used level (es.take s) ∨ pageSize < used level (es.drop s) then none else some s

def fitLoop (fits : Nat → Bool) : Nat → Nat → Nat → Nat
  | 0, _, best => best
  | fuel + 1, i, best => if fits i then fitLoop fits fuel (i + 1) i else best

def firstCut : Nat :=
  fitLoop (fun i => used level (es.take i) ≤ pageSize) (es.length - 2) 1 0

/-- The largest piece behind `s` that fits a page and leaves one record behind. -/
def secondCut (s : Nat) : Nat :=
  fitLoop (fun i => used level ((es.drop s).take (i - s)) ≤ pageSize) (es.length - 1 - s) (s + 1) s

/-- The greedy three-piece part of `bt_split3_point`. -/
def threePoint : Option (Nat × Nat) :=
  if es.length < 3 then none
  else if es.any fun e => pageSize < used level [e] then none
  else
    let s := firstCut level es
    if s < 1 then none
    else
      let t := secondCut level es s
      if t < s + 1 ∨ pageSize < used level (es.drop t) then none else some (s, t)

/-- The pieces at the cut indices of `bt_split3_point`. -/
def split3 : Option (List (List Ent)) :=
  match splitPoint level es with
  | some (s + 1) => some [es.take (s + 1), es.drop (s + 1)]
  | _ => (threePoint level es).map fun c => [es.take c.1, (es.drop c.1).take (c.2 - c.1), es.drop c.2]

end

variable {es : List Ent}

theorem lowerBoundLoop_spec (hs : es.Pairwise fun a b => a.k < b.k) (key : Key)
    (fuel lo hi : Nat) (hf : hi - lo ≤ fuel) (hlh : lo ≤ hi) (hhi : hi ≤ es.length)
    (hlow : ∀ e ∈ es.take lo, e.k < key) (hup : ∀ e ∈ es.drop hi, key ≤ e.k) :
    lowerBoundLoop es key fuel lo hi ≤ es.length ∧ (∀ e ∈ es.take (lowerBoundLoop es key fuel lo hi), e.k < key) ∧
      ∀ e ∈ es.drop (lowerBoundLoop es key fuel lo hi), key ≤ e.k := by
  induction fuel generalizing lo hi with
  | zero =>
    obtain rfl : lo = hi := by omega
    exact ⟨hhi, hlow, hup⟩
  | succ fuel ih =>
    rw [lowerBoundLoop]
    split
    · next hlt =>
      have hmid : lo + (hi - lo) / 2 < es.length := by omega
      simp only [List.getElem?_eq_getElem hmid]
      have hsplit := pairwise_append.mp (by
        rw [take_append_drop (lo + (hi - lo) / 2) es]
        exact hs)
      split
      · next hk =>
        refine ih _ _ (by omega) (by omega) hhi ?_ hup
        intro e he
        rw [take_succ_eq_append_getElem hmid] at he
        obtain he | he := mem_append.mp he
        · refine lt_trans (hsplit.2.2 e he _ ?_) hk
          rw [drop_eq_getElem_cons hmid]
          exact mem_cons_self
        · rw [mem_singleton.mp he]
          exact hk
      · next hk =>
        refine ih _ _ (by omega) (by omega) (by omega) hlow ?_
        intro e he
        rw [drop_eq_getElem_cons hmid] at he hsplit
        obtain rfl | he := mem_cons.mp he
        · exact not_lt.mp hk
        · exact (not_lt.mp hk).trans (rel_of_pairwise_cons hsplit.2.1 he).le
    · obtain rfl : lo = hi := by omega
      exact ⟨hhi, hlow, hup⟩

theorem lowerBound_spec (hs : es.Pairwise fun a b => a.k < b.k) (key : Key) :
    ∃ a b, es = a ++ b ∧ lowerBound es key = a.length ∧ (∀ e ∈ a, e.k < key) ∧ ∀ e ∈ b, key ≤ e.k := by
  obtain ⟨hle, ha, hb⟩ := lowerBoundLoop_spec hs key es.length 0 es.length (by omega) (by omega)
    le_rfl (by simp) (by simp)
  refine ⟨es.take (lowerBound es key), es.drop (lowerBound es key), ?_, ?_, ha, hb⟩
  · exact (take_append_drop _ _).symm
  · exact (length_take_of_le hle).symm

theorem childIndexLoop_spec (key : Key) (pre : List Ent) (e : Ent) (es : List Ent) (hpre : pre ≠ [] → e.k ≤ key) :
    ∃ xs x ys, pre ++ e :: es = xs ++ x :: ys ∧
      childIndexLoop key pre.length (pre.length + 1) es = xs.length ∧ (xs ≠ [] → x.k ≤ key) ∧
      ∀ y ∈ ys.head?, key < y.k := by
  induction es generalizing pre e with
  | nil => exact ⟨pre, e, [], rfl, rfl, hpre, by simp⟩
  | cons y es ih =>
    rw [childIndexLoop]
    split
    · next hy =>
      obtain ⟨xs, x, ys, heq, hidx, hx, hys⟩ := ih (pre ++ [e]) y fun _ => hy
      refine ⟨xs, x, ys, ?_, ?_, hx, hys⟩
      · rw [← heq, append_assoc]
        rfl
      · rw [← hidx, length_append]
        rfl
    · next hy => exact ⟨pre, e, y :: es, rfl, rfl, hpre, by simpa using hy⟩

theorem childIndex_spec (hne : es ≠ []) (key : Key) :
    ∃ xs x ys, es = xs ++ x :: ys ∧ childIndex es key = xs.length ∧ (xs ≠ [] → x.k ≤ key) ∧
      ∀ y ∈ ys.head?, key < y.k := by
  cases es with
  | nil => exact absurd rfl hne
  | cons e es => exact childIndexLoop_spec key [] e es (by simp)

theorem used_append (level : Nat) (es fs : List Ent) :
    used level (es ++ fs) + pageHdrLen = used level es + used level fs := by
  simp only [used, map_append, sum_append]
  omega

theorem used_take_drop (level : Nat) (es : List Ent) (i : Nat) :
    used level (es.take i) + used level (es.drop i) = used level es + pageHdrLen := by
  rw [← used_append, take_append_drop]

theorem shrink_le (level : Nat) (es : List Ent) (s : Nat) : shrink level es s ≤ s := by
  induction s with
  | zero => exact le_rfl
  | succ s ih =>
    rw [shrink]
    split <;> omega

theorem grow_le (level : Nat) (es : List Ent) (fuel s : Nat) (h : s ≤ es.length - 1) :
    grow level es fuel s ≤ es.length - 1 := by
  induction fuel generalizing s with
  | zero => exact h
  | succ fuel ih =>
    rw [grow]
    split
    · exact ih (s + 1) (by omega)
    · exact h

theorem startPoint_le (level : Nat) (es : List Ent) : startPoint level es ≤ es.length - 1 := by
  unfold startPoint
  dsimp only
  split_ifs <;> omega

variable {level : Nat} {s : Nat}

theorem splitPoint_le (h : splitPoint level es = some s) : s ≤ es.length - 1 := by
  simp only [splitPoint, ite_none_left_eq_some, some.injEq] at h
  rw [← h.2]
  exact grow_le _ _ _ _ ((shrink_le _ _ _).trans (startPoint_le _ _))

theorem fitLoop_range (fits : Nat → Bool) (fuel i best : Nat) :
    fitLoop fits fuel i best = best ∨ fitLoop fits fuel i best < i + fuel := by
  induction fuel generalizing i best with
  | zero => exact .inl rfl
  | succ fuel ih =>
    rw [fitLoop]
    split
    · obtain h | h := ih (i + 1) i
      · rw [h]
        omega
      · omega
    · exact .inl rfl

theorem threePoint_range {t : Nat} (h : threePoint level es = some (s, t)) : 1 ≤ s ∧ s < t ∧ t < es.length := by
  simp only [threePoint, ite_none_left_eq_some, some.injEq, Prod.mk.injEq] at h
  obtain ⟨h3, -, h1, ht, rfl, rfl⟩ := h
  have ht' : secondCut level es (firstCut level es) = firstCut level es ∨ secondCut level es (firstCut level es) <
        firstCut level es + 1 + (es.length - 1 - firstCut level es) := fitLoop_range _ _ _ _
  omega

variable {ps : List (List Ent)}

theorem split3_pieces (h : split3 level es = some ps) : ps.flatten = es ∧ ps ≠ [] ∧ ∀ p ∈ ps, p ≠ [] := by
  unfold split3 at h
  split at h
  · next s hs =>
    obtain rfl := some.inj h
    have hle := splitPoint_le hs
    refine ⟨by simp, by simp, ?_⟩
    intro p hp hnil
    simp only [mem_cons, not_mem_nil, or_false] at hp
    obtain rfl | rfl := hp
    · have hlen := congrArg List.length hnil
      simp only [length_take, length_nil] at hlen
      omega
    · have hlen := congrArg List.length hnil
      simp only [length_drop, length_nil] at hlen
      omega
  · obtain ⟨⟨s, t⟩, hc, rfl⟩ := map_eq_some_iff.mp h
    obtain ⟨h1, hst, ht⟩ := threePoint_range hc
    refine ⟨?_, by simp, ?_⟩
    · have hmid : (es.drop s).take (t - s) ++ es.drop t = es.drop s := by
        conv_rhs => rw [← take_append_drop (t - s) (es.drop s)]
        rw [drop_drop, Nat.add_sub_cancel' hst.le]
      simp only [flatten_cons, flatten_nil, append_nil]
      rw [hmid, take_append_drop]
    · intro p hp hnil
      have hlen := congrArg List.length hnil
      simp only [mem_cons, not_mem_nil, or_false] at hp
      obtain rfl | rfl | rfl := hp
      · simp only [length_take, length_nil] at hlen
        omega
      · simp only [length_take, length_drop, length_nil] at hlen
        omega
      · simp only [length_drop, length_nil] at hlen
        omega

theorem split3_length (h : split3 level es = some ps) : ps.length ≤ 3 := by
  unfold split3 at h
  split at h
  · obtain rfl := some.inj h
    simp
  · obtain ⟨c, -, rfl⟩ := map_eq_some_iff.mp h
    simp

variable {i half acc : Nat}

theorem halfPoint_some (h : halfPoint level half acc i es = some s) :
    ∃ j, j < es.length ∧ s = i + j + 1 ∧ half ≤ acc + ((es.take (j + 1)).map (recSize level)).sum ∧
      (acc < half → acc + ((es.take j).map (recSize level)).sum < half) := by
  induction es generalizing acc i with
  | nil => simp [halfPoint] at h
  | cons e es ih =>
    rw [halfPoint] at h
    split at h
    · next hle =>
      exact ⟨0, by simp, by simpa using h.symm, by simpa using hle, by simp⟩
    · next hlt =>
      obtain ⟨j, hj, rfl, hge, hbelow⟩ := ih h
      refine ⟨j + 1, by simpa using hj, by omega, ?_, fun _ => ?_⟩
      · simp only [take_succ_cons, map_cons, sum_cons] at hge ⊢
        omega
      · have := hbelow (by omega)
        simp only [take_succ_cons, map_cons, sum_cons]
        omega

theorem halfPoint_reaches (hne : es ≠ [])
    (h : half ≤ acc + (es.map (recSize level)).sum) : ∃ s, halfPoint level half acc i es = some s := by
  induction es generalizing acc i with
  | nil => exact absurd rfl hne
  | cons e es ih =>
    rw [halfPoint]
    split
    · exact ⟨_, rfl⟩
    · next hlt =>
      simp only [map_cons, sum_cons] at h
      refine ih ?_ (by omega)
      rintro rfl
      simp at h
      omega

theorem shrink_stop (level : Nat) (es : List Ent) (s : Nat) :
    shrink level es s = s ∨ pageSize < used level (es.take (shrink level es s + 1)) := by
  induction s with
  | zero => exact .inl rfl
  | succ s ih =>
    rw [shrink]
    split
    · next hc =>
      obtain h | h := ih
      · rw [h]
        exact .inr hc.2
      · exact .inr h
    · exact .inl rfl

theorem grow_stop (level : Nat) (es : List Ent) (fuel s : Nat) : grow level es fuel s = s ∨
      ∃ t, grow level es fuel s = t + 1 ∧ s ≤ t ∧ pageSize < used level (es.drop t) := by
  induction fuel generalizing s with
  | zero => exact .inl rfl
  | succ fuel ih =>
    rw [grow]
    split
    · next hc =>
      obtain h | ⟨t, h, hst, ht⟩ := ih (s + 1)
      · exact .inr ⟨s, h, le_rfl, hc.2⟩
      · exact .inr ⟨t, h, by omega, ht⟩
    · exact .inl rfl

/-- The longest record an inner page holds when no key is longer than `BT_QUARANTINE_KEY_MAX`. -/
def shortRec : Nat := 298

theorem used_le_length (h : ∀ e ∈ es, recSize level e ≤ shortRec) :
    used level es ≤ pageHdrLen + shortRec * es.length := by
  induction es with
  | nil => simp [used]
  | cons e es ih =>
    have he := h e mem_cons_self
    have hes := ih fun x hx => h x (mem_cons_of_mem _ hx)
    rw [used_cons, length_cons, Nat.mul_succ]
    omega

theorem used_take_succ (h : ∀ e ∈ es, recSize level e ≤ shortRec)
    (i : Nat) : used level (es.take (i + 1)) ≤ used level (es.take i) + shortRec := by
  by_cases hi : i < es.length
  · have := used_append level (es.take i) [es[i]]
    have he := h _ (getElem_mem hi)
    rw [take_succ_eq_append_getElem hi]
    simp only [used, map_cons, map_nil, sum_cons, sum_nil] at this ⊢
    omega
  · rw [take_of_length_le (by omega), take_of_length_le (by omega)]
    omega

theorem used_take_le (level : Nat) (es : List Ent) {j : Nat} (h : i ≤ j) :
    used level (es.take i) ≤ used level (es.take j) := by
  have hsplit := used_take_drop level (es.take j) i
  rw [take_take, min_eq_left h] at hsplit
  have : pageHdrLen ≤ used level ((es.take j).drop i) := Nat.le_add_right _ _
  omega

section

variable (h : ∀ e ∈ es, recSize level e ≤ shortRec) (hbig : pageSize < used level es)

include h hbig

theorem startPoint_balanced :
    1 ≤ startPoint level es ∧ used level es / 2 ≤ used level (es.take (startPoint level es)) ∧
      used level (es.take (startPoint level es)) < used level es / 2 + shortRec := by
  have hlen : 13 < es.length := by
    have := used_le_length h
    simp only [pageSize, pageHdrLen, shortRec] at hbig this
    omega
  have hlast : used level es ≤ used level es.dropLast + shortRec := by
    have := used_take_succ h (es.length - 1)
    rwa [Nat.sub_add_cancel (by omega), take_length, ← dropLast_eq_take] at this
  have hreach : used level es / 2 ≤ pageHdrLen + (es.dropLast.map (recSize level)).sum := by
    simp only [used, pageSize, shortRec] at hbig hlast ⊢
    omega
  obtain ⟨s, hs⟩ := halfPoint_reaches (i := 0) (ne_nil_of_length_pos (by rw [length_dropLast]; omega)) hreach
  obtain ⟨j, hj, hsj, hge, hbelow⟩ := halfPoint_some hs
  rw [length_dropLast] at hj
  have hstart : startPoint level es = j + 1 := by
    simp only [startPoint, hs, getD_some]
    split_ifs <;> omega
  have htake : ∀ i, i ≤ es.length - 1 → es.dropLast.take i = es.take i := by
    intro i hi
    rw [dropLast_eq_take, take_take, min_eq_left hi]
  rw [htake _ (by omega)] at hge
  rw [htake _ (by omega)] at hbelow
  have hstep := used_take_succ h j
  have hlow := hbelow (by
    simp only [pageSize, pageHdrLen] at hbig ⊢
    omega)
  rw [hstart]
  simp only [used] at hge hlow hstep ⊢
  omega

theorem splitPoint_two (hs : splitPoint level es = some s) : 2 ≤ s ∧ s + 2 ≤ es.length := by
  obtain ⟨h1, hge, hlt⟩ := startPoint_balanced h hbig
  simp only [splitPoint, ite_none_left_eq_some, some.injEq] at hs
  have hsle := shrink_le level es (startPoint level es)
  -- the left piece: at least half a page before the second loop, which only lets it grow
  have hleft : pageHdrLen + shortRec < used level (es.take (shrink level es (startPoint level es))) := by
    obtain he | he := shrink_stop level es (startPoint level es)
    · rw [he]
      simp only [pageSize, pageHdrLen, shortRec] at *
      omega
    · have := used_take_succ h (shrink level es (startPoint level es))
      simp only [pageSize, pageHdrLen, shortRec] at *
      omega
  have hright : pageHdrLen + shortRec < used level (es.drop (shrink level es (startPoint level es))) := by
    have h₁ := used_take_drop level es (shrink level es (startPoint level es))
    have h2 := used_take_le level es hsle
    simp only [pageSize, pageHdrLen, shortRec] at *
    omega
  have hdrop : pageHdrLen + shortRec < used level (es.drop s) ∧ shrink level es (startPoint level es) ≤ s := by
    obtain he | ⟨t, he, hst, ht⟩ := grow_stop level es es.length (shrink level es (startPoint level es))
    · rw [← hs.2, he]
      exact ⟨hright, le_rfl⟩
    · have hsucc : s = t + 1 := by rw [← hs.2, he]
      have h₁ := used_take_drop level es t
      have h2 := used_take_drop level es (t + 1)
      have h3 := used_take_succ h t
      rw [hsucc]
      simp only [pageSize, pageHdrLen, shortRec] at *
      omega
  have hcount1 : used level (es.take (shrink level es (startPoint level es))) ≤ _ :=
    used_le_length fun e he => h e (mem_of_mem_take he)
  have hcount2 : used level (es.drop s) ≤ _ := used_le_length fun e he => h e (mem_of_mem_drop he)
  rw [length_take] at hcount1
  rw [length_drop] at hcount2
  simp only [pageHdrLen, shortRec] at *
  omega

theorem splitPoint_exists (hbound : used level es ≤ 7000) : ∃ s, splitPoint level es = some s := by
  obtain ⟨h1, hge, hlt⟩ := startPoint_balanced h hbig
  have hsum := used_take_drop level es (startPoint level es)
  have hfit : ¬ pageSize < used level (es.take (startPoint level es)) ∧
      ¬ pageSize < used level (es.drop (startPoint level es)) := by
    simp only [pageSize, pageHdrLen, shortRec] at *
    omega
  have hshrink : shrink level es (startPoint level es) = startPoint level es := by
    cases hsp : startPoint level es with
    | zero => rfl
    | succ s =>
      rw [hsp] at hfit
      rw [shrink, if_neg fun hc => hfit.1 hc.2]
  have hgrow : ∀ fuel, grow level es fuel (startPoint level es) = startPoint level es := by
    intro fuel
    cases fuel with
    | zero => rfl
    | succ fuel => rw [grow, if_neg fun hc => hfit.2 hc.2]
  refine ⟨startPoint level es, ?_⟩
  simp only [splitPoint, hshrink, hgrow]
  rw [if_neg (not_or.mpr hfit)]

end

end InvariantFs.BtreeSplit
