import Mathlib.Data.Set.Card

namespace InvariantFs.SortedMap

open List Option

variable {K V : Type} [LinearOrder K]

def Sorted (l : List (K × V)) : Prop := l.Pairwise fun a b => a.1 < b.1

def lookup (l : List (K × V)) (k : K) : Option V := (l.find? fun r => r.1 = k).map Prod.snd

def put (l : List (K × V)) (k : K) (v : V) : List (K × V) :=
  l.filter (fun r => r.1 < k) ++ (k, v) :: l.filter (fun r => k < r.1)

def del (l : List (K × V)) (k : K) : List (K × V) := l.filter fun r => r.1 ≠ k

/-- The bindings from `lo` on and below `hi`. -/
def range (l : List (K × V)) (lo : K) (hi : WithTop K) : List (K × V) :=
  l.filter fun r => lo ≤ r.1 ∧ (r.1 : WithTop K) < hi

variable {a b c : List (K × V)} {k : K} {v : V}

theorem length_put_le (l : List (K × V)) (k : K) (v : V) : (put l k v).length ≤ l.length + 1 := by
  rw [put]
  induction l <;> grind

section

variable (ha : ∀ r ∈ a, r.1 < k) (hc : ∀ r ∈ c, k < r.1)

include ha hc

theorem put_middle : put (a ++ b ++ c) k v = a ++ put b k v ++ c := by
  have h1 : a.filter (fun r => r.1 < k) = a := filter_eq_self.mpr fun r hr => by simp [ha r hr]
  have h2 : a.filter (fun r => k < r.1) = [] := filter_eq_nil_iff.mpr fun r hr => by simp [(ha r hr).le]
  have h3 : c.filter (fun r => r.1 < k) = [] := filter_eq_nil_iff.mpr fun r hr => by simp [(hc r hr).le]
  have h4 : c.filter (fun r => k < r.1) = c := filter_eq_self.mpr fun r hr => by simp [hc r hr]
  simp only [put, filter_append, h1, h2, h3, h4, append_nil, nil_append, append_assoc, cons_append]

theorem put_new : put (a ++ c) k v = a ++ (k, v) :: c := by
  have h := put_middle (b := []) (v := v) ha hc
  simpa [put] using h

theorem put_old {w : V} : put (a ++ (k, w) :: c) k v = a ++ (k, v) :: c := by
  have h := put_middle (b := [(k, w)]) (v := v) ha hc
  simpa [put] using h

theorem del_middle : del (a ++ b ++ c) k = a ++ del b k ++ c := by
  have h1 : a.filter (fun r => r.1 ≠ k) = a := filter_eq_self.mpr fun r hr => by simp [(ha r hr).ne]
  have h2 : c.filter (fun r => r.1 ≠ k) = c := filter_eq_self.mpr fun r hr => by simp [(hc r hr).ne']
  simp only [del, filter_append, h1, h2]

theorem del_old {w : V} : del (a ++ (k, w) :: c) k = a ++ c := by
  have h := del_middle (b := [(k, w)]) ha hc
  simpa [del] using h

end

variable {l : List (K × V)}

theorem del_absent (h : ∀ r ∈ l, r.1 ≠ k) : del l k = l := filter_eq_self.mpr fun r hr => by simp [h r hr]

theorem lookup_absent (h : ∀ r ∈ l, r.1 ≠ k) : lookup l k = none := by
  have hf : l.find? (fun r => r.1 = k) = none := List.find?_eq_none.mpr fun r hr => by simp [h r hr]
  rw [lookup, hf, map_none]

theorem lookup_middle (ha : ∀ r ∈ a, r.1 < k) (hc : ∀ r ∈ c, k < r.1) : lookup (a ++ b ++ c) k = lookup b k := by
  have h1 : a.find? (fun r => r.1 = k) = none := List.find?_eq_none.mpr fun r hr => by simp [(ha r hr).ne]
  have h2 : c.find? (fun r => r.1 = k) = none := List.find?_eq_none.mpr fun r hr => by simp [(hc r hr).ne']
  simp only [lookup, find?_append, h1, h2, none_or, or_none]

theorem lookup_put (l : List (K × V)) (k k' : K) (v : V) :
    lookup (put l k v) k' = if k' = k then some v else lookup l k' := by
  have hfilter : ∀ p : K × V → Bool, (∀ r : K × V, r.1 = k' → p r = true) →
      (l.filter p).find? (fun r => r.1 = k') = l.find? fun r => r.1 = k' := by
    intro p hp
    rw [find?_filter]
    congr 1
    funext r
    by_cases hr : r.1 = k' <;> simp [hr, hp r]
  have hnone : ∀ p : K × V → Bool, (∀ r : K × V, r.1 = k' → p r = false) →
      (l.filter p).find? (fun r => r.1 = k') = none := by
    intro p hp
    refine List.find?_eq_none.mpr fun r hr he => ?_
    have hpr := hp r (by simpa using he)
    simp [hpr] at hr
  simp only [lookup, put, find?_append]
  obtain hlt | rfl | hgt := lt_trichotomy k' k
  · have h1 := hfilter (fun r => r.1 < k) fun r hr => by simp [hr, hlt]
    have h2 := hnone (fun r => k < r.1) fun r hr => by simp [hr, hlt.le]
    simp [h1, h2, hlt.ne, hlt.ne']
  · have h1 := hnone (fun r => r.1 < k') fun r hr => by simp [hr]
    simp [h1]
  · have h1 := hnone (fun r => r.1 < k) fun r hr => by simp [hr, hgt.le]
    have h2 := hfilter (fun r => k < r.1) fun r hr => by simp [hr, hgt]
    simp [h1, h2, hgt.ne, hgt.ne']

theorem lookup_del (l : List (K × V)) (k k' : K) : lookup (del l k) k' = if k' = k then none else lookup l k' := by
  by_cases hk : k' = k
  · subst hk
    rw [if_pos rfl]
    exact lookup_absent fun r hr => by simpa using (mem_filter.mp hr).2
  · rw [if_neg hk, lookup, lookup, del, find?_filter]
    congr 2
    funext r
    by_cases hr : r.1 = k' <;> simp [hr, hk]

theorem mem_put {r : K × V} (h : r ∈ put l k v) : r = (k, v) ∨ r ∈ l := by
  obtain h | h := mem_append.mp h
  · exact .inr (mem_of_mem_filter h)
  · obtain h | h := mem_cons.mp h
    · exact .inl h
    · exact .inr (mem_of_mem_filter h)

theorem sorted_put (h : Sorted l) (k : K) (v : V) : Sorted (put l k v) := by
  refine pairwise_append.mpr ⟨List.Pairwise.filter _ h, pairwise_cons.mpr ⟨?_, ?_⟩, ?_⟩
  · intro r hr
    simpa using (mem_filter.mp hr).2
  · exact List.Pairwise.filter _ h
  · intro a ha b hb
    have hak : a.1 < k := by simpa using (mem_filter.mp ha).2
    obtain rfl | hb := mem_cons.mp hb
    · exact hak
    · have hkb : k < b.1 := by simpa using (mem_filter.mp hb).2
      exact hak.trans hkb

theorem sorted_del (h : Sorted l) (k : K) : Sorted (del l k) := List.Pairwise.filter _ h

end InvariantFs.SortedMap
