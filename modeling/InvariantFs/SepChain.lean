import InvariantFs.SortedMap

namespace InvariantFs.SepChain

open SortedMap List WithTop

variable {K V α : Type}

/-- The bound in front of a list of separated items: its first separator, or the outer bound. -/
def next : List (K × α) → WithTop K → WithTop K
  | [], hi => hi
  | r :: _, _ => r.1

/-- Items behind separators: each item lives between its own separator and the next one. -/
def Chain (P : K → WithTop K → α → Prop) : List (K × α) → WithTop K → Prop
  | [], _ => True
  | r :: rs, hi => P r.1 (next rs hi) r.2 ∧ Chain P rs hi

def flat (f : K → α → List (K × V)) (rs : List (K × α)) : List (K × V) :=
  rs.flatMap fun r => f r.1 r.2

def along {β : Type} (f : K → WithTop K → α → List β) : List (K × α) → WithTop K → List β
  | [], _ => []
  | r :: rs, hi => f r.1 (next rs hi) r.2 ++ along f rs hi

@[simp]
theorem next_nil (hi : WithTop K) : next ([] : List (K × α)) hi = hi := rfl

@[simp]
theorem next_cons (r : K × α) (rs : List (K × α)) (hi : WithTop K) : next (r :: rs) hi = r.1 := rfl

theorem next_append (rs ss : List (K × α)) (hi : WithTop K) : next (rs ++ ss) hi = next rs (next ss hi) := by
  cases rs <;> rfl

@[simp]
theorem flat_nil (f : K → α → List (K × V)) : flat f [] = [] := rfl

@[simp]
theorem flat_cons (f : K → α → List (K × V)) (r : K × α) (rs : List (K × α)) :
    flat f (r :: rs) = f r.1 r.2 ++ flat f rs := rfl

@[simp]
theorem flat_append (f : K → α → List (K × V)) (rs ss : List (K × α)) :
    flat f (rs ++ ss) = flat f rs ++ flat f ss := flatMap_append

variable {P : K → WithTop K → α → Prop} {f : K → α → List (K × V)}

theorem chain_append {rs ss : List (K × α)} {hi : WithTop K} :
    Chain P (rs ++ ss) hi ↔ Chain P rs (next ss hi) ∧ Chain P ss hi := by
  induction rs with
  | nil => simp [Chain]
  | cons r rs ih => simp [Chain, ih, next_append, and_assoc]

variable [LinearOrder K]

/-- What the results below ask of an item between two bounds: the bounds are apart, the item's
bindings are sorted and lie between them, and the upper bound may be raised. -/
structure Bounded (P : K → WithTop K → α → Prop) (f : K → α → List (K × V)) : Prop where
  lt : ∀ lo hi a, P lo hi a → (lo : WithTop K) < hi
  sorted : ∀ lo hi a, P lo hi a → Sorted (f lo a)
  mem : ∀ lo hi a, P lo hi a → ∀ r ∈ f lo a, lo ≤ r.1 ∧ (r.1 : WithTop K) < hi
  mono : ∀ lo hi hi' a, P lo hi a → hi ≤ hi' → P lo hi' a

section

variable (hP : Bounded P f)

include hP

theorem chain_mono {rs : List (K × α)}
    {hi hi' : WithTop K} (h : Chain P rs hi) (hle : hi ≤ hi') : Chain P rs hi' := by
  induction rs with
  | nil => trivial
  | cons r rs ih =>
    refine ⟨?_, ih h.2⟩
    cases rs with
    | nil => exact hP.mono _ _ _ _ h.1 hle
    | cons s rs => exact h.1

theorem chain_lt {rs : List (K × α)} {hi : WithTop K} (h : Chain P rs hi) : ∀ r ∈ rs, (r.1 : WithTop K) < hi := by
  induction rs with
  | nil => simp
  | cons r rs ih =>
    intro x hx
    have hr := hP.lt _ _ _ h.1
    obtain rfl | hx := mem_cons.mp hx
    · cases rs with
      | nil => exact hr
      | cons s rs => exact hr.trans (ih h.2 s mem_cons_self)
    · exact ih h.2 x hx

theorem chain_sorted {rs : List (K × α)} {hi : WithTop K} (h : Chain P rs hi) : rs.Pairwise fun a b => a.1 < b.1 := by
  induction rs with
  | nil => exact List.Pairwise.nil
  | cons r rs ih =>
    have hrs := ih h.2
    refine pairwise_cons.mpr ⟨?_, hrs⟩
    intro x hx
    cases rs with
    | nil => simp at hx
    | cons s rs =>
      have hr : r.1 < s.1 := coe_lt_coe.mp (hP.lt _ _ _ h.1)
      obtain rfl | hx := mem_cons.mp hx
      · exact hr
      · exact hr.trans (rel_of_pairwise_cons hrs hx)

theorem chain_next_le {rs : List (K × α)} {hi : WithTop K} (h : Chain P rs hi) : next rs hi ≤ hi := by
  cases rs with
  | nil => exact le_rfl
  | cons r rs => exact (chain_lt hP h r mem_cons_self).le

theorem chain_next_mem {rs : List (K × α)} {hi : WithTop K} (h : Chain P rs hi) :
    ∀ r ∈ rs, next rs hi ≤ (r.1 : WithTop K) := by
  intro r hr
  have hsort := chain_sorted hP h
  obtain _ | ⟨x, xs⟩ := rs
  · simp at hr
  · obtain rfl | hr := mem_cons.mp hr
    · exact le_rfl
    · exact coe_le_coe.mpr (rel_of_pairwise_cons hsort hr).le

theorem chain_flat {rs : List (K × α)} {hi : WithTop K} (h : Chain P rs hi) :
    Sorted (flat f rs) ∧ ∀ r ∈ flat f rs, next rs hi ≤ (r.1 : WithTop K) ∧ (r.1 : WithTop K) < hi := by
  induction rs with
  | nil => simp [Sorted]
  | cons s rs ih =>
    have hs := hP.sorted _ _ _ h.1
    have hb := hP.mem _ _ _ h.1
    obtain ⟨hs', hb'⟩ := ih h.2
    have hsep := hP.lt _ _ _ h.1
    refine ⟨pairwise_append.mpr ⟨hs, hs', ?_⟩, ?_⟩
    · intro x hx y hy
      exact coe_lt_coe.mp ((hb x hx).2.trans_le (hb' y hy).1)
    · intro r hr
      obtain hr | hr := mem_append.mp hr
      · refine ⟨coe_le_coe.mpr (hb r hr).1, (hb r hr).2.trans_le ?_⟩
        cases rs with
        | nil => exact le_rfl
        | cons t rs => exact (chain_lt hP h.2 t mem_cons_self).le
      · exact ⟨hsep.le.trans (hb' r hr).1, (hb' r hr).2⟩

theorem chain_route {xs ys : List (K × α)} {s : K × α} {hi : WithTop K}
    (h : Chain P (xs ++ s :: ys) hi) {key : K} (hlo : xs ≠ [] → s.1 ≤ key) (hhi : (key : WithTop K) < next ys hi) :
    (∀ r ∈ flat f xs, r.1 < key) ∧ ∀ r ∈ flat f ys, key < r.1 := by
  obtain ⟨hxs, hs, hys⟩ := chain_append.mp h
  refine ⟨fun r hr => ?_, fun r hr => ?_⟩
  · have hne : xs ≠ [] := by
      rintro rfl
      simp at hr
    have hr' := ((chain_flat hP hxs).2 r hr).2
    exact (coe_lt_coe.mp hr').trans_le (hlo hne)
  · exact coe_lt_coe.mp (hhi.trans_le ((chain_flat hP hys).2 r hr).1)

end

end InvariantFs.SepChain
