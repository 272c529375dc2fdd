import Mathlib.Data.Set.Card

namespace InvariantFs.Fallible

variable {σ α β : Type}

/-- Code that threads a state and can fail; a failure keeps the state reached so far. -/
abbrev Act (σ α : Type) := OptionT (StateM σ) α

def runs (x : Act σ α) (s : σ) : Option α × σ := Id.run (x.run.run s)

def act (f : σ → Option α × σ) : Act σ α := OptionT.mk fun s => f s

@[simp]
theorem runs_act (f : σ → Option α × σ) (s : σ) : runs (act f) s = f s := rfl

@[simp]
theorem runs_pure (a : α) (s : σ) : runs (pure a : Act σ α) s = (some a, s) := rfl

@[simp]
theorem runs_failure (s : σ) : runs (failure : Act σ α) s = (none, s) := rfl

theorem runs_bind (x : Act σ α) (f : α → Act σ β) (s : σ) : runs (x >>= f) s = match runs x s with
      | (some a, s') => runs (f a) s'
      | (none, s') => (none, s') := by
  simp only [runs, OptionT.run_bind, Option.elimM, StateT.run_bind, Id.run_bind]
  obtain ⟨o, t⟩ := Id.run (x.run.run s)
  cases o <;> rfl

theorem ended {a b : α} {s t : σ} (h : (some a, s) = (some b, t)) : a = b ∧ s = t :=
  ⟨Option.some.inj (Prod.mk.inj h).1, (Prod.mk.inj h).2⟩

variable {x : Act σ α} {f : α → Act σ β}

theorem runs_fst {s : σ} {o : Option α} (h : (runs x s).1 = o) : runs x s = (o, (runs x s).2) := Prod.ext h rfl

theorem bind_some {s s' : σ} {b : β} :
    runs (x >>= f) s = (some b, s') ↔ ∃ a t, runs x s = (some a, t) ∧ runs (f a) t = (some b, s') := by
  rw [runs_bind]
  cases h : runs x s with
  | mk o t =>
    cases o with
    | none => simp
    | some a =>
      refine ⟨fun hf => ⟨a, t, rfl, hf⟩, ?_⟩
      rintro ⟨a', t', heq, hf⟩
      obtain ⟨rfl, rfl⟩ := ended heq
      exact hf

theorem bind_none {s s' : σ} : runs (x >>= f) s = (none, s') ↔
      runs x s = (none, s') ∨ ∃ a t, runs x s = (some a, t) ∧ runs (f a) t = (none, s') := by
  rw [runs_bind]
  cases h : runs x s with
  | mk o t =>
    cases o with
    | none => simp
    | some a =>
      refine ⟨fun hf => Or.inr ⟨a, t, rfl, hf⟩, ?_⟩
      rintro (hno | ⟨a', t', heq, hf⟩)
      · cases hno
      · obtain ⟨rfl, rfl⟩ := ended heq
        exact hf

def Keeps (R : σ → σ → Prop) (x : Act σ α) : Prop := ∀ s, R s (runs x s).2

section

variable {R : σ → σ → Prop}

theorem keeps_pure [Std.Refl R] (a : α) : Keeps R (pure a : Act σ α) := Std.Refl.refl

theorem keeps_failure [Std.Refl R] : Keeps R (failure : Act σ α) := Std.Refl.refl

theorem keeps_bind (ht : ∀ s t u, R s t → R t u → R s u)
    (hx : Keeps R x) (hf : ∀ a, Keeps R (f a)) : Keeps R (x >>= f) := by
  intro s
  have h := hx s
  rw [runs_bind]
  cases hrun : runs x s with
  | mk o t =>
    rw [hrun] at h
    cases o with
    | none => exact h
    | some a => exact ht _ _ _ h (hf a t)

end

end InvariantFs.Fallible
