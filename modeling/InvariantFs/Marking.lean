import Mathlib.Data.Set.Card

namespace InvariantFs.Marking

open List Option Relation

variable {α κ : Type} [DecidableEq κ] (key : α → κ) (kids : α → Option (List α))

/-- Depth first over nodes that may fail to be read. What is marked already is not read again. -/
def markRec : Nat → List κ → α → Option (List κ)
  | 0, seen, p => if key p ∈ seen then some seen else none
  | fuel + 1, seen, p =>
    if key p ∈ seen then some seen
    else (kids p).bind fun ps => ps.foldlM (markRec fuel) (key p :: seen)

def markAll (fuel : Nat) (roots : List α) : Option (List κ) := roots.foldlM (markRec key kids fuel) []

def Edge (p q : α) : Prop := ∃ ps, kids p = some ps ∧ q ∈ ps

/-- What is marked in the end: the roots, what was marked before, and nodes that can be reached from
the roots and whose kids are marked. -/
structure Marks (ps : List α) (seen seen' : List κ) : Prop where
  grows : ∀ x ∈ seen, x ∈ seen'
  roots : ∀ p ∈ ps, key p ∈ seen'
  fresh : ∀ x ∈ seen', x ∉ seen → ∃ p ∈ ps, ∃ q, ReflTransGen (Edge kids) p q ∧ key q = x ∧
    ∃ rs, kids q = some rs ∧ ∀ r ∈ rs, key r ∈ seen'

variable {key kids} {p q : α} {ps : List α} {seen seen' seen'' : List κ} {fuel : Nat}

omit [DecidableEq κ] in
theorem marks_seen (h : ∀ p ∈ ps, key p ∈ seen) : Marks key kids ps seen seen :=
  ⟨fun _ hx => hx, h, fun _ hx hnew => absurd hx hnew⟩

theorem Marks.cons (h : Marks key kids [p] seen seen') (h' : Marks key kids ps seen' seen'') :
    Marks key kids (p :: ps) seen seen'' := by
  refine ⟨fun x hx => h'.grows x (h.grows x hx), fun q hq => ?_, fun x hx hnew => ?_⟩
  · obtain rfl | hq := mem_cons.mp hq
    · exact h'.grows _ (h.roots q (by simp))
    · exact h'.roots q hq
  · by_cases hmid : x ∈ seen'
    · obtain ⟨r, hr, q, hreach, hkey, rs, hrs, hall⟩ := h.fresh x hmid hnew
      exact ⟨r, mem_cons.mpr (.inl (mem_singleton.mp hr)), q, hreach, hkey, rs, hrs,
        fun y hy => h'.grows _ (hall y hy)⟩
    · obtain ⟨r, hr, q, hq⟩ := h'.fresh x hx hmid
      exact ⟨r, mem_cons_of_mem p hr, q, hq⟩

variable {f : List κ → α → Option (List κ)}

theorem foldlM_marks (hf : ∀ seen p seen', f seen p = some seen' → Marks key kids [p] seen seen')
    (h : ps.foldlM f seen = some seen') : Marks key kids ps seen seen' := by
  induction ps generalizing seen with
  | nil =>
    obtain rfl : seen = seen' := some.inj h
    exact marks_seen (by simp)
  | cons p ps ih =>
    rw [foldlM_cons] at h
    obtain ⟨mid, hmid, hrest⟩ := bind_eq_some_iff.mp h
    exact (hf seen p mid hmid).cons (ih hrest)

theorem markRec_seen (hp : key p ∈ seen) : markRec key kids fuel seen p = some seen := by
  cases fuel <;> simp [markRec, hp]

theorem markRec_marks (h : markRec key kids fuel seen p = some seen') : Marks key kids [p] seen seen' := by
  induction fuel generalizing seen p seen' with
  | zero =>
    by_cases hp : key p ∈ seen
    · obtain rfl : seen = seen' := some.inj ((markRec_seen hp).symm.trans h)
      exact marks_seen (by simpa using hp)
    · simp [markRec, hp] at h
  | succ fuel ih =>
    by_cases hp : key p ∈ seen
    · obtain rfl : seen = seen' := some.inj ((markRec_seen hp).symm.trans h)
      exact marks_seen (by simpa using hp)
    · rw [markRec, if_neg hp] at h
      obtain ⟨ps, hps, hfold⟩ := bind_eq_some_iff.mp h
      have hkids : Marks key kids ps (key p :: seen) seen' := foldlM_marks (fun _ _ _ => ih) hfold
      refine ⟨fun x hx => hkids.grows x (by simp [hx]), fun r hr => ?_, fun x hx hnew => ?_⟩
      · obtain rfl := mem_singleton.mp hr
        exact hkids.grows _ (by simp)
      · refine ⟨p, by simp, ?_⟩
        by_cases hxp : x = key p
        · exact ⟨p, .refl, hxp.symm, ps, hps, hkids.roots⟩
        · obtain ⟨r, hr, q, hreach, hq⟩ := hkids.fresh x hx (by simp [hxp, hnew])
          exact ⟨q, .head ⟨ps, hps, hr⟩ hreach, hq⟩

variable {roots : List α}

theorem mem_markAll (hsame : ∀ p q ps qs, key p = key q → kids p = some ps → kids q = some qs → ps = qs)
    (h : markAll key kids fuel roots = some seen) {x : κ} :
    x ∈ seen ↔ ∃ p ∈ roots, ∃ q, ReflTransGen (Edge kids) p q ∧ key q = x := by
  have hmarks : Marks key kids roots [] seen := foldlM_marks (fun _ _ _ => markRec_marks) h
  constructor
  · intro hx
    obtain ⟨p, hp, q, hreach, hkey, -⟩ := hmarks.fresh x hx (by simp)
    exact ⟨p, hp, q, hreach, hkey⟩
  · rintro ⟨p, hp, q, hreach, rfl⟩
    induction hreach with
    | refl => exact hmarks.roots p hp
    | tail _ hedge ih =>
      obtain ⟨ps, hps, hmem⟩ := hedge
      obtain ⟨-, -, q', -, hkey, rs, hrs, hall⟩ := hmarks.fresh _ ih (by simp)
      obtain rfl := hsame _ _ _ _ hkey hrs hps
      exact hall _ hmem

omit [DecidableEq κ] in
theorem foldlM_mono {f' : List κ → α → Option (List κ)}
    (h : ∀ seen p seen', f seen p = some seen' → f' seen p = some seen')
    (hfold : ps.foldlM f seen = some seen') : ps.foldlM f' seen = some seen' := by
  induction ps generalizing seen with
  | nil => exact hfold
  | cons p ps ih =>
    rw [foldlM_cons] at hfold ⊢
    obtain ⟨mid, hmid, hrest⟩ := bind_eq_some_iff.mp hfold
    exact bind_eq_some_iff.mpr ⟨mid, h _ _ _ hmid, ih hrest⟩

theorem markRec_mono {kids' : α → Option (List α)} (h : ∀ p ps, kids p = some ps → kids' p = some ps)
    (hrec : markRec key kids fuel seen p = some seen') : markRec key kids' fuel seen p = some seen' := by
  induction fuel generalizing seen p seen' with
  | zero => exact hrec
  | succ fuel ih =>
    unfold markRec at hrec ⊢
    split_ifs at hrec ⊢ with hp
    · exact hrec
    · obtain ⟨ps, hps, hfold⟩ := bind_eq_some_iff.mp hrec
      exact bind_eq_some_iff.mpr ⟨ps, h p ps hps, foldlM_mono (fun _ _ _ => ih) hfold⟩

theorem markAll_mono {kids' : α → Option (List α)} (h : ∀ p ps, kids p = some ps → kids' p = some ps)
    (hall : markAll key kids fuel roots = some seen) : markAll key kids' fuel roots = some seen :=
  foldlM_mono (fun _ _ _ => markRec_mono h) hall

structure Extends (U seen seen' : List κ) : Prop where
  nodup : seen'.Nodup
  inside : seen' ⊆ U
  grows : seen.length ≤ seen'.length

omit [DecidableEq κ] in
theorem foldlM_total {U : List κ} (hf : ∀ p ∈ ps, ∀ seen, seen.Nodup → seen ⊆ U → U.length ≤ fuel + seen.length →
      ∃ seen', f seen p = some seen' ∧ Extends U seen seen')
    (hnodup : seen.Nodup) (hsub : seen ⊆ U) (hfuel : U.length ≤ fuel + seen.length) :
    ∃ seen', ps.foldlM f seen = some seen' ∧ Extends U seen seen' := by
  induction ps generalizing seen with
  | nil => exact ⟨seen, rfl, hnodup, hsub, Nat.le_refl _⟩
  | cons p ps ih =>
    obtain ⟨mid, hmid, hext⟩ := hf p (by simp) seen hnodup hsub hfuel
    obtain ⟨seen', hrest, hext'⟩ := ih (fun q hq => hf q (by simp [hq])) hext.nodup hext.inside
      (Nat.le_trans hfuel (Nat.add_le_add_left hext.grows fuel))
    refine ⟨seen', by simp [foldlM_cons, hmid, hrest], hext'.nodup, hext'.inside, ?_⟩
    exact Nat.le_trans hext.grows hext'.grows

theorem markRec_total {U : List κ} (hread : ∀ q, ReflTransGen (Edge kids) p q →
      (kids q).isSome ∧ key q ∈ U) (hnodup : seen.Nodup) (hsub : seen ⊆ U) (hfuel : U.length ≤ fuel + seen.length) :
    ∃ seen', markRec key kids fuel seen p = some seen' ∧ Extends U seen seen' := by
  induction fuel generalizing seen p with
  | zero =>
    have hp : key p ∈ seen := by
      by_contra hp
      have := (subperm_of_subset (nodup_cons.mpr ⟨hp, hnodup⟩)
        (cons_subset.mpr ⟨(hread p .refl).2, hsub⟩)).length_le
      simp only [length_cons] at this
      omega
    exact ⟨seen, markRec_seen hp, hnodup, hsub, Nat.le_refl _⟩
  | succ fuel ih =>
    by_cases hp : key p ∈ seen
    · exact ⟨seen, markRec_seen hp, hnodup, hsub, Nat.le_refl _⟩
    · obtain ⟨hsome, hU⟩ := hread p .refl
      obtain ⟨ps, hps⟩ := isSome_iff_exists.mp hsome
      have hkids : ∀ q ∈ ps, ∀ s : List κ, s.Nodup → s ⊆ U → U.length ≤ fuel + s.length →
          ∃ s', markRec key kids fuel s q = some s' ∧ Extends U s s' :=
        fun q hq s hn hs hlen => ih (fun r hr => hread r (.head ⟨ps, hps, hq⟩ hr)) hn hs hlen
      obtain ⟨seen', hfold, hext⟩ := foldlM_total hkids (nodup_cons.mpr ⟨hp, hnodup⟩)
        (cons_subset.mpr ⟨hU, hsub⟩) (by simp only [length_cons]; omega)
      refine ⟨seen', by simp [markRec, hp, hps, hfold], hext.nodup, hext.inside, ?_⟩
      exact Nat.le_of_succ_le hext.grows

theorem markAll_total {U : List κ} (hread : ∀ p ∈ roots, ∀ q,
      ReflTransGen (Edge kids) p q → (kids q).isSome ∧ key q ∈ U) (hfuel : U.length ≤ fuel) :
    (markAll key kids fuel roots).isSome := by
  obtain ⟨seen', h, -⟩ := foldlM_total (fun p hp s => markRec_total (hread p hp)) nodup_nil
    (nil_subset U) (by simpa using hfuel)
  exact isSome_of_eq_some h

end InvariantFs.Marking
