import Mathlib.Data.Set.Card

namespace InvariantFs.CachedStore

open List Function

variable {K V : Type} [DecidableEq K]

structure Patch (K V : Type) where
  cell : K
  edit : V → V

def Patch.apply (p : Patch K V) (m : K → V) : K → V :=
  update m p.cell (p.edit (m p.cell))

/-- A medium behind a volatile write cache: the content a power cut leaves, and the writes that no
barrier has covered yet, oldest first. -/
structure Store (K V : Type) where
  durable : K → V
  pending : List (Patch K V)

def settle (ps : List (Patch K V)) (m : K → V) : K → V :=
  ps.foldl (fun m p => p.apply m) m

def Store.view (s : Store K V) : K → V := settle s.pending s.durable

def Store.write (s : Store K V) (cell : K) (edit : V → V) : Store K V :=
  ⟨s.durable, s.pending ++ [⟨cell, edit⟩]⟩

def Store.fence (s : Store K V) : Store K V := ⟨s.view, []⟩

/-- The elements of a list that a mask marks; a mask that is too short drops the rest. -/
def marked {α : Type} : List Bool → List α → List α
  | b :: mask, x :: xs => if b then x :: marked mask xs else marked mask xs
  | _, _ => []

/-- A power cut or a barrier that failed: the marked writes reached the medium, the others are gone. -/
def Store.tear (s : Store K V) (mask : List Bool) : Store K V :=
  ⟨settle (marked mask s.pending) s.durable, []⟩

variable {α : Type} {mask : List Bool}

theorem mem_of_mem_marked {x : α} {xs : List α} (h : x ∈ marked mask xs) : x ∈ xs := by
  induction xs generalizing mask with
  | nil => cases mask <;> simp [marked] at h
  | cons y ys ih =>
    cases mask with
    | nil => simp [marked] at h
    | cons b mask =>
      cases b with
      | false => exact mem_cons_of_mem _ (ih (by simpa [marked] using h))
      | true =>
        obtain rfl | h := mem_cons.mp (by simpa [marked] using h)
        · exact mem_cons_self
        · exact mem_cons_of_mem _ (ih h)

theorem settle_append (ps qs : List (Patch K V)) (m : K → V) : settle (ps ++ qs) m = settle qs (settle ps m) := by
  simp [settle]

theorem settle_keeps (P : V → Prop) (c : K) (ps : List (Patch K V)) (m : K → V) (hm : P (m c))
    (hp : ∀ p ∈ ps, p.cell = c → ∀ v, P v → P (p.edit v)) : P (settle ps m c) := by
  induction ps generalizing m with
  | nil => exact hm
  | cons p ps ih =>
    refine ih (p.apply m) ?_ fun q hq => hp q (mem_cons_of_mem _ hq)
    by_cases hc : p.cell = c
    · subst hc
      simpa [Patch.apply] using hp p mem_cons_self rfl _ hm
    · simpa [Patch.apply, Ne.symm hc] using hm

theorem settle_other (c : K) (ps : List (Patch K V)) (m : K → V) (h : ∀ p ∈ ps, p.cell ≠ c) : settle ps m c = m c :=
  settle_keeps (fun v => v = m c) c ps m rfl fun p hp hc => absurd hc (h p hp)

omit [DecidableEq K] in
@[simp]
theorem durable_write (s : Store K V) (c : K) (f : V → V) : (s.write c f).durable = s.durable := rfl

omit [DecidableEq K] in
@[simp]
theorem pending_write (s : Store K V) (c : K) (f : V → V) : (s.write c f).pending = s.pending ++ [⟨c, f⟩] := rfl

theorem view_write (s : Store K V) (c : K) (f : V → V) : (s.write c f).view = update s.view c (f (s.view c)) := by
  simp [Store.view, Store.write, settle, Patch.apply]

@[simp]
theorem view_write_self (s : Store K V) (c : K) (f : V → V) : (s.write c f).view c = f (s.view c) := by
  rw [view_write, update_self]

theorem view_write_ne (s : Store K V) {c d : K} (h : d ≠ c) (f : V → V) : (s.write c f).view d = s.view d := by
  rw [view_write, update_of_ne h]

@[simp]
theorem durable_fence (s : Store K V) : s.fence.durable = s.view := rfl

@[simp]
theorem pending_fence (s : Store K V) : s.fence.pending = [] := rfl

@[simp]
theorem view_fence (s : Store K V) : s.fence.view = s.view := rfl

@[simp]
theorem pending_tear (s : Store K V) (mask : List Bool) : (s.tear mask).pending = [] := rfl

@[simp]
theorem view_tear (s : Store K V) (mask : List Bool) : (s.tear mask).view = (s.tear mask).durable := rfl

theorem tear_keeps (P : V → Prop) (s : Store K V) (mask : List Bool) (c : K) (hd : P (s.durable c))
    (hp : ∀ p ∈ s.pending, p.cell = c → ∀ v, P v → P (p.edit v)) : P ((s.tear mask).durable c) :=
  settle_keeps P c _ _ hd fun p hm => hp p (mem_of_mem_marked hm)

theorem view_keeps (P : V → Prop) (s : Store K V) (c : K) (hd : P (s.durable c))
    (hp : ∀ p ∈ s.pending, p.cell = c → ∀ v, P v → P (p.edit v)) : P (s.view c) :=
  settle_keeps P c _ _ hd hp

variable {s : Store K V}

theorem tear_idle (h : s.pending = []) (mask : List Bool) : s.tear mask = s := by
  obtain ⟨d, p⟩ := s
  obtain rfl : p = [] := h
  cases mask <;> rfl

theorem fence_idle (h : s.pending = []) : s.fence = s := by
  obtain ⟨d, p⟩ := s
  obtain rfl : p = [] := h
  rfl

theorem tear_all (s : Store K V) : s.tear (replicate s.pending.length true) = s.fence := by
  have hall : ∀ {α : Type} (xs : List α), marked (replicate xs.length true) xs = xs := by
    intro α xs
    induction xs with
    | nil => rfl
    | cons x xs ih => simp [replicate_succ, marked, ih]
  simp only [Store.tear, hall]
  rfl

theorem tear_marked (h : marked mask s.pending = s.pending) : s.tear mask = s.fence := by
  rw [Store.tear, h]
  rfl

theorem marked_snoc (mask : List Bool) (xs : List α) (x : α) :
    marked mask (xs ++ [x]) = if mask.getD xs.length false then marked mask xs ++ [x] else marked mask xs := by
  induction xs generalizing mask with
  | nil =>
    obtain _ | ⟨_ | _, _ | ⟨_, _⟩⟩ := mask <;> simp [marked]
  | cons y xs ih =>
    obtain _ | ⟨b, mask⟩ := mask
    · simp [marked]
    · rw [length_cons, getD_cons_succ, cons_append, marked, ih, marked]
      cases b <;> split_ifs <;> rfl

theorem tear_write (s : Store K V) (c : K) (f : V → V) (mask : List Bool) : (s.write c f).tear mask =
      if mask.getD s.pending.length false then ((s.tear mask).write c f).fence else s.tear mask := by
  rw [Store.tear, pending_write, marked_snoc]
  split_ifs
  · rw [settle_append]
    rfl
  · rfl

end InvariantFs.CachedStore
