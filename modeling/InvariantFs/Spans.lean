import Mathlib.Data.Set.Card

namespace InvariantFs.Spans

open List Option

variable {ι α : Type}

/-- Values put at the positions from `a` on. -/
def place (f : Nat → α) (a : Nat) (xs : List α) : Nat → α :=
  fun k => if a ≤ k then xs.getD (k - a) (f k) else f k

variable {a : Nat} {xs : List α} {k : Nat}

theorem place_inside {f : Nat → α} (ha : a ≤ k) (hk : k < a + xs.length) : xs[k - a]? = some (place f a xs k) := by
  have hlt : k - a < xs.length := by omega
  simp [place, ha, hlt]

theorem place_outside {f : Nat → α} (hk : ¬ (a ≤ k ∧ k < a + xs.length)) : place f a xs k = f k := by
  unfold place
  split
  next ha =>
    have hle : xs.length ≤ k - a := by omega
    simp [hle]
  next => rfl

structure Filled (α : Type) where
  buf : Nat → α
  got : Nat

def Filled.put (f : Filled α) (a : Nat) (xs : List α) : Filled α :=
  ⟨place f.buf a xs, f.got + xs.length⟩

/-- What a copy into the positions `[a, b)` may do: it counts no more than there are and leaves the others
alone, and if it counts all, then each one is as `Q` asks. -/
structure Serves (Q : Nat → α → Prop) (a b : Nat) (f f' : Filled α) : Prop where
  most : f'.got ≤ f.got + (b - a)
  frame : ∀ k, ¬ (a ≤ k ∧ k < b) → f'.buf k = f.buf k
  full : f'.got = f.got + (b - a) → ∀ k, a ≤ k → k < b → Q k (f'.buf k)

variable {b : Nat} {f' : Filled α} {f : Filled α}

theorem Serves.imp {Q Q' : Nat → α → Prop} (h : Serves Q a b f f')
    (hQ : ∀ k c, a ≤ k → k < b → Q k c → Q' k c) : Serves Q' a b f f' :=
  ⟨h.most, h.frame, fun hg k ha hb => hQ k _ ha hb (h.full hg k ha hb)⟩

theorem serves_put {Q : Nat → α → Prop} (f : Filled α) (hlen : xs.length = b - a)
    (hQ : ∀ j, (h : j < xs.length) → Q (a + j) xs[j]) : Serves Q a b f (f.put a xs) where
  most := by simp [Filled.put, hlen]
  frame k hk := place_outside (by omega)
  full _ k ha hb := by
    have hlt : k - a < xs.length := by omega
    have hk := hQ (k - a) hlt
    have hcell := place_inside (f := f.buf) ha (by omega : k < a + xs.length)
    rw [getElem?_eq_getElem hlt, some.injEq] at hcell
    rwa [Nat.add_sub_cancel' ha, hcell] at hk

variable (lo hi : ι → Nat)

structure Ordered (es : List ι) : Prop where
  apart : es.Pairwise fun x y => hi x ≤ lo y
  whole : ∀ e ∈ es, lo e ≤ hi e

/-- Copy what lies in the window `[a, b)`, span by span, up to the first one that starts behind it. -/
def fill (step : ι → Nat → Nat → Filled α → Option (Filled α)) (a b : Nat) : List ι → Filled α → Option (Filled α)
  | [], f => some f
  | e :: es, f =>
    if b ≤ lo e then some f
    else if hi e ≤ a then fill step a b es f
    else if min b (hi e) ≤ max a (lo e) then fill step a b es f
    else (step e (max a (lo e)) (min b (hi e)) f).bind (fill step a b es)

def clips (a b : Nat) (es : List ι) : Nat := (es.map fun e => min b (hi e) - max a (lo e)).sum

/-- Spans that follow each other without a gap, from `p` to `q`. -/
def Tiles : Nat → Nat → List ι → Prop
  | p, q, [] => p = q
  | p, q, e :: es => lo e = p ∧ p ≤ hi e ∧ Tiles (hi e) q es

variable {lo hi} {es : List ι} {e : ι}

theorem Ordered.tail (h : Ordered lo hi (e :: es)) : Ordered lo hi es :=
  ⟨h.apart.of_cons, fun x hx => h.whole x (mem_cons_of_mem e hx)⟩

theorem Ordered.behind (h : Ordered lo hi (e :: es)) :
    ∀ x ∈ es, hi e ≤ lo x := fun _ hx => rel_of_pairwise_cons h.apart hx

theorem clips_cons (a b : Nat) (e : ι) (es : List ι) :
    clips lo hi a b (e :: es) = (min b (hi e) - max a (lo e)) + clips lo hi a b es := by
  simp [clips]

theorem clips_from {c : Nat} (hac : a ≤ c) (h : ∀ x ∈ es, c ≤ lo x) : clips lo hi a b es = clips lo hi c b es := by
  induction es with
  | nil => rfl
  | cons e es ih =>
    have he := h e (by simp)
    rw [clips_cons, clips_cons, ih fun x hx => h x (by simp [hx])]
    congr 2
    omega

theorem clips_le (h : Ordered lo hi es) (a b : Nat) : clips lo hi a b es ≤ b - a := by
  induction es generalizing a with
  | nil => simp [clips]
  | cons e es ih =>
    have hle := h.whole e (by simp)
    rw [clips_cons]
    by_cases ha : hi e ≤ a
    · have hrest := ih h.tail a
      omega
    · -- the spans behind `e` see the window from the end of `e` on
      have hrest := ih h.tail (hi e)
      rw [clips_from (by omega : a ≤ hi e) h.behind]
      omega

theorem clips_split (ha : a ≤ k) (hb : k < b) (h : ∀ e ∈ es, ¬ (lo e ≤ k ∧ k < hi e)) :
    clips lo hi a b es = clips lo hi a k es + clips lo hi (k + 1) b es := by
  induction es with
  | nil => rfl
  | cons e es ih =>
    have he := h e (by simp)
    rw [clips_cons, clips_cons, clips_cons, ih fun x hx => h x (by simp [hx])]
    omega

theorem covered (h : Ordered lo hi es) (hall : clips lo hi a b es = b - a) (ha : a ≤ k) (hb : k < b) :
    ∃ e ∈ es, lo e ≤ k ∧ k < hi e := by
  by_contra hno
  push Not at hno
  have hout : ∀ e ∈ es, ¬ (lo e ≤ k ∧ k < hi e) := by
    intro e he hk
    have hle := hno e he hk.1
    omega
  have hsplit := clips_split (b := b) ha hb hout
  have hl := clips_le h a k
  have hr := clips_le h (k + 1) b
  omega

variable {step : ι → Nat → Nat → Filled α → Option (Filled α)} {Q : Nat → α → Prop}

section

variable (h : Ordered lo hi es)
  (hstep : ∀ e ∈ es, ∀ f f', max a (lo e) < min b (hi e) →
    step e (max a (lo e)) (min b (hi e)) f = some f' → Serves Q (max a (lo e)) (min b (hi e)) f f')
  (hf : fill lo hi step a b es f = some f')

include h hstep hf

theorem fill_counts : f'.got ≤ f.got + clips lo hi a b es ∧
    (∀ k, (∀ e ∈ es, ¬ (max a (lo e) ≤ k ∧ k < min b (hi e))) → f'.buf k = f.buf k) ∧
    (f'.got = f.got + clips lo hi a b es → ∀ e ∈ es, ∀ k, max a (lo e) ≤ k → k < min b (hi e) → Q k (f'.buf k)) := by
  induction es generalizing f with
  | nil =>
    obtain rfl : f = f' := by simpa [fill] using hf
    simp [clips]
  | cons e es ih =>
    have hstep' := fun x hx => hstep x (mem_cons_of_mem e hx)
    rw [fill] at hf
    split_ifs at hf with hb ha hm
    · -- the first span behind the window: so are the others
      obtain rfl : f = f' := by simpa using hf
      have hle := h.whole e (by simp)
      have hout : ∀ x ∈ e :: es, b ≤ lo x := by
        intro x hx
        obtain rfl | hx := mem_cons.mp hx
        · exact hb
        · exact Nat.le_trans hb (Nat.le_trans hle (h.behind x hx))
      refine ⟨by omega, fun _ _ => rfl, fun _ x hx k hk hk' => ?_⟩
      have hx' := hout x hx
      omega
    iterate 2
      · obtain ⟨hmost, hframe, hfull⟩ := ih h.tail hstep' hf
        have hzero : min b (hi e) - max a (lo e) = 0 := by omega
        rw [clips_cons, hzero, Nat.zero_add]
        refine ⟨hmost, fun k hk => hframe k fun x hx => hk x (by simp [hx]), fun hg x hx k hk hk' => ?_⟩
        obtain rfl | hx := mem_cons.mp hx
        · omega
        · exact hfull hg x hx k hk hk'
    · obtain ⟨f1, h1, hrest⟩ := bind_eq_some_iff.mp hf
      have hone := hstep e (by simp) f f1 (by omega) h1
      obtain ⟨hmost, hframe, hfull⟩ := ih h.tail hstep' hrest
      have hle := hone.most
      rw [clips_cons]
      refine ⟨by omega, fun k hk => ?_, fun hg x hx k hk hk' => ?_⟩
      · rw [hframe k fun x hx => hk x (by simp [hx]), hone.frame k (hk e (by simp))]
      · obtain rfl | hx := mem_cons.mp hx
        · -- nothing behind this span comes back to it
          have hkeep : f'.buf k = f1.buf k := by
            refine hframe k fun y hy hk2 => ?_
            have := h.behind y hy
            omega
          rw [hkeep]
          exact hone.full (by omega) k hk hk'
        · exact hfull (by omega) x hx k hk hk'

theorem fill_serves : Serves Q a b f f' := by
  obtain ⟨hmost, hframe, hfull⟩ := fill_counts h hstep hf
  have hle := clips_le h a b
  refine ⟨by omega, fun k hk => hframe k fun e _ hke => hk (by omega), fun hg k ha hb => ?_⟩
  obtain ⟨e, he, hlo, hhi⟩ := covered h (by omega : clips lo hi a b es = b - a) ha hb
  exact hfull (by omega) e he k (by omega) (by omega)

end

theorem fill_drop {n : Nat} (h : Ordered lo hi es) (hpre : ∀ j, (hj : j < es.length) → j < n → hi es[j] ≤ a)
    (f : Filled α) : fill lo hi step a b (es.drop n) f = fill lo hi step a b es f := by
  induction es generalizing n with
  | nil => simp
  | cons e es ih =>
    cases n with
    | zero => rfl
    | succ n =>
      have he : hi e ≤ a := hpre 0 (by simp) (by omega)
      rw [drop_succ_cons, ih h.tail fun j hj hn => hpre (j + 1) (by simpa using hj) (by omega)]
      rw [fill.eq_2]
      split_ifs with hb
      · -- the loop ends at `e`; without it, it ends at the next span or runs out of them
        cases es with
        | nil => rfl
        | cons x xs =>
          have hx := h.behind x (by simp)
          have hle := h.whole e (by simp)
          rw [fill, if_pos (by omega)]
      · rfl

variable {p q : Nat}

theorem Tiles.le (h : Tiles lo hi p q es) : p ≤ q := by
  induction es generalizing p with
  | nil => exact Nat.le_of_eq h
  | cons e es ih =>
    obtain ⟨-, hle, hrest⟩ := h
    exact Nat.le_trans hle (ih hrest)

theorem tiles_append {xs ys : List ι} :
    Tiles lo hi p q (xs ++ ys) ↔ ∃ m, Tiles lo hi p m xs ∧ Tiles lo hi m q ys := by
  induction xs generalizing p with
  | nil => simp [Tiles]
  | cons e es ih => simp [Tiles, ih, and_assoc]

theorem Tiles.inside (h : Tiles lo hi p q es) (he : e ∈ es) : p ≤ lo e ∧ lo e ≤ hi e ∧ hi e ≤ q := by
  induction es generalizing p with
  | nil => simp at he
  | cons x xs ih =>
    obtain ⟨rfl, hle, hrest⟩ := h
    obtain rfl | he := mem_cons.mp he
    · exact ⟨Nat.le_refl _, hle, hrest.le⟩
    · obtain ⟨h1, h2, h3⟩ := ih hrest he
      exact ⟨Nat.le_trans hle h1, h2, h3⟩

theorem Tiles.chain (h : Tiles lo hi p q es) : es.IsChain fun x y => hi x ≤ lo y := by
  induction es generalizing p with
  | nil => exact .nil
  | cons x xs ih =>
    obtain ⟨-, -, hrest⟩ := h
    cases xs with
    | nil => simp
    | cons y ys => exact isChain_cons_cons.mpr ⟨Nat.le_of_eq hrest.1.symm, ih hrest⟩

/-- The first index at which a test fails, by bisection between `l` and `r`. -/
def bisect (p : Nat → Bool) : Nat → Nat → Nat → Nat
  | 0, l, _ => l
  | n + 1, l, r =>
    if l < r then
      if p (l + (r - l) / 2) then bisect p n (l + (r - l) / 2 + 1) r
      else bisect p n l (l + (r - l) / 2)
    else l

theorem bisect_before {p : Nat → Bool} {n l r j : Nat} (hmono : ∀ i k, i ≤ k → k < r → p k = true → p i = true)
    (hl : ∀ i, i < l → p i = true) (hj : j < bisect p n l r) : p j = true := by
  induction n generalizing l r with
  | zero => exact hl j hj
  | succ n ih =>
    rw [bisect] at hj
    split_ifs at hj with hlt hp
    · refine ih hmono (fun i hi => ?_) hj
      exact hmono i _ (by omega) (by omega) hp
    · exact ih (fun i k hik hk => hmono i k hik (by omega)) hl hj
    · exact hl j hj

theorem bisect_found {p : Nat → Bool} {n l r : Nat} (hn : r ≤ l + n) (hlr : l ≤ r) :
    bisect p n l r ≤ r ∧ (bisect p n l r < r → p (bisect p n l r) = false) := by
  induction n generalizing l r with
  | zero =>
    rw [bisect]
    exact ⟨hlr, fun h => by omega⟩
  | succ n ih =>
    rw [bisect]
    split_ifs with hlt hp
    · exact ih (by omega) (by omega)
    · obtain ⟨hle, hfail⟩ := ih (l := l) (r := l + (r - l) / 2) (by omega) (by omega)
      refine ⟨by omega, fun _ => ?_⟩
      obtain h | h := Nat.lt_or_eq_of_le hle
      · exact hfail h
      · rw [h]
        simpa using hp
    · exact ⟨hlr, fun h => by omega⟩

theorem bisect_mem {xs : List Nat} (hs : xs.Pairwise (· ≤ ·)) (x : Nat) :
    xs[bisect (fun m => decide (xs[m]?.getD 0 < x)) xs.length 0 xs.length]? = some x ↔ x ∈ xs := by
  constructor
  · exact mem_of_getElem?
  · intro hx
    obtain ⟨i, hi, rfl⟩ := getElem_of_mem hx
    have hle : ∀ a b (hb : b < xs.length) (hab : a ≤ b), xs[a] ≤ xs[b] := fun a b hb hab => by
      obtain h | rfl := Nat.lt_or_eq_of_le hab
      · exact pairwise_iff_getElem.mp hs a b _ hb h
      · exact Nat.le_refl _
    obtain ⟨hr, hfail⟩ := bisect_found (p := fun m => decide (xs[m]?.getD 0 < xs[i])) (n := xs.length) (l := 0)
      (r := xs.length) (by omega) (Nat.zero_le _)
    have hki : bisect (fun m => decide (xs[m]?.getD 0 < xs[i])) xs.length 0 xs.length ≤ i := by
      by_contra hlt
      have hbefore := bisect_before (p := fun m => decide (xs[m]?.getD 0 < xs[i]))
        (n := xs.length) (l := 0) (r := xs.length) (j := i) (fun a b hab hb h => by
          have hmono := hle a b hb hab
          have ha : a < xs.length := Nat.lt_of_le_of_lt hab hb
          simp only [getElem?_eq_getElem ha, getElem?_eq_getElem hb, getD_some, decide_eq_true_eq] at h ⊢
          omega) (by simp) (by omega)
      simp [getElem?_eq_getElem hi] at hbefore
    generalize bisect (fun m => decide (xs[m]?.getD 0 < xs[i])) xs.length 0 xs.length = k at *
    have hk : k < xs.length := Nat.lt_of_le_of_lt hki hi
    have hge := hfail hk
    have hmono := hle k i hi hki
    simp only [getElem?_eq_getElem hk, getD_some, decide_eq_false_iff_not] at hge ⊢
    exact congrArg some (by omega)

theorem mapM_iff {β : Type} {f : α → Option β} {ys : List β} :
    xs.mapM f = some ys ↔ Forall₂ (fun x y => f x = some y) xs ys := by
  induction xs generalizing ys with
  | nil => simp [eq_comm]
  | cons x xs ih => simp [mapM_cons, forall₂_cons_left_iff, bind_eq_some_iff, ih, @eq_comm _ ys]

theorem forall₂_right {β : Type} {R : α → β → Prop} {ys : List β}
    (h : Forall₂ R xs ys) {y : β} (hy : y ∈ ys) : ∃ x ∈ xs, R x y := by
  induction h with
  | nil => simp at hy
  | @cons a b xs ys hab _ ih =>
    obtain rfl | hy := mem_cons.mp hy
    · exact ⟨a, by simp, hab⟩
    · obtain ⟨x, hx, hxy⟩ := ih hy
      exact ⟨x, by simp [hx], hxy⟩

end InvariantFs.Spans
