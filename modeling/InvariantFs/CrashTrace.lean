import InvariantFs.Fallible

namespace InvariantFs.CrashTrace

open Fallible List

variable {σ τ α β : Type}

structure Run (σ : Type) where
  now : σ
  past : List σ

def look (f : σ → Option α) : Act (Run σ) α := act fun r => (f r.now, r)

def change (f : σ → σ) : Act (Run σ) Unit := act fun r => (some (), { r with now := f r.now })

def demand (b : Bool) : Act (Run σ) Unit := look fun _ => if b then some () else none

def mark : Act (Run σ) Unit := act fun r => (some (), ⟨r.now, r.past ++ [r.now]⟩)

def attempt (x : Act (Run σ) Unit) : Act (Run σ) Bool :=
  act fun r => (some (runs x r).1.isSome, (runs x r).2)

def ignore (x : Act (Run σ) Unit) : Act (Run σ) Unit := act fun r => (some (), (runs x r).2)

def zoom (part : σ → τ) (put : τ → σ → σ) (x : Act τ α) : Act (Run σ) α :=
  act fun r => ((runs x (part r.now)).1, { r with now := put (runs x (part r.now)).2 r.now })

/-- From a state with `P`, every state the call can be cut short in has `S`, a success ends in `Q`,
and a failure in `E`. -/
def Triple (S P : σ → Prop) (x : Act (Run σ) α) (Q : α → σ → Prop) (E : σ → Prop) : Prop :=
  ∀ r, P r.now → (∀ t ∈ (runs x r).2.past, t ∈ r.past ∨ S t) ∧
    (∀ a, (runs x r).1 = some a → Q a (runs x r).2.now) ∧ ((runs x r).1 = none → E (runs x r).2.now)

variable {x : Act (Run σ) α} {f : α → Act (Run σ) β}

section

variable {S P : σ → Prop} {Q : α → σ → Prop} {E : σ → Prop}

theorem triple_pure {a : α} (h : ∀ s, P s → Q a s) : Triple S P (pure a) Q E := by
  intro r hr
  refine ⟨fun t ht => .inl ht, fun b hb => ?_, fun hn => absurd hn (by simp)⟩
  obtain rfl := Option.some.inj hb
  exact h _ hr

theorem triple_look {f : σ → Option α} (hq : ∀ s a, P s → f s = some a → Q a s)
    (he : ∀ s, P s → f s = none → E s) : Triple S P (look f) Q E :=
  fun _ hr => ⟨fun _ ht => .inl ht, fun a ha => hq _ a hr ha, fun hn => he _ hr hn⟩

theorem triple_change {f : σ → σ} {Q : Unit → σ → Prop} (h : ∀ s, P s → Q () (f s)) : Triple S P (change f) Q E :=
  fun _ hr => ⟨fun _ ht => .inl ht, fun _ _ => h _ hr, fun hn => absurd hn (by simp [change])⟩

theorem triple_demand {b : Bool} {Q : Unit → σ → Prop} (hq : ∀ s, P s → b = true → Q () s)
    (he : ∀ s, P s → E s) : Triple S P (demand b) Q E := by
  refine triple_look (fun s _ hs hb => hq s hs ?_) fun s hs _ => he s hs
  by_contra hne
  simp [hne] at hb

theorem triple_mark {Q : Unit → σ → Prop} (hs : ∀ s, P s → S s) (hq : ∀ s, P s → Q () s) : Triple S P mark Q E := by
  intro r hr
  refine ⟨fun t ht => ?_, fun _ _ => hq _ hr, fun hn => absurd hn (by simp [mark])⟩
  obtain ht | ht := mem_append.mp ht
  · exact .inl ht
  · rw [mem_singleton.mp ht]
    exact .inr (hs _ hr)

theorem triple_bind {M : α → σ → Prop} {Q : β → σ → Prop}
    (hx : Triple S P x M E) (hf : ∀ a, Triple S (M a) (f a) Q E) : Triple S P (x >>= f) Q E := by
  intro r hr
  obtain ⟨hpast, hsome, hnone⟩ := hx r hr
  rw [runs_bind]
  cases hrun : runs x r with
  | mk o r' =>
    rw [hrun] at hpast hsome hnone
    cases o with
    | none => exact ⟨hpast, fun b hb => absurd hb (by simp), fun _ => hnone rfl⟩
    | some a =>
      obtain ⟨hpast', hrest⟩ := hf a r' (hsome a rfl)
      refine ⟨fun t ht => ?_, hrest⟩
      obtain ht | ht := hpast' t ht
      · exact hpast t ht
      · exact .inr ht

variable {E' : σ → Prop} {M : Unit → σ → Prop}

theorem triple_attempt {x : Act (Run σ) Unit} {Q : Bool → σ → Prop} (hx : Triple S P x M E')
    (hq : ∀ s, M () s → Q true s) (he : ∀ s, E' s → Q false s) : Triple S P (attempt x) Q E := by
  intro r hr
  obtain ⟨hpast, hsome, hnone⟩ := hx r hr
  refine ⟨hpast, fun b hb => ?_, fun hn => absurd hn (by simp [attempt])⟩
  obtain rfl := Option.some.inj hb
  change Q (runs x r).1.isSome (runs x r).2.now
  cases ho : (runs x r).1 with
  | none => exact he _ (hnone ho)
  | some a => exact hq _ (hsome a ho)

theorem triple_ignore {x : Act (Run σ) Unit} {Q : Unit → σ → Prop} (hx : Triple S P x M E')
    (hq : ∀ s, M () s → Q () s) (he : ∀ s, E' s → Q () s) : Triple S P (ignore x) Q E := by
  intro r hr
  obtain ⟨hpast, hsome, hnone⟩ := hx r hr
  refine ⟨hpast, fun _ _ => ?_, fun hn => absurd hn (by simp [ignore])⟩
  change Q () (runs x r).2.now
  cases ho : (runs x r).1 with
  | none => exact he _ (hnone ho)
  | some a => exact hq _ (hsome a ho)

theorem triple_zoom {part : σ → τ} {put : τ → σ → σ} {x : Act τ α}
    (h : ∀ s, P s → (∀ a, (runs x (part s)).1 = some a → Q a (put (runs x (part s)).2 s)) ∧
      ((runs x (part s)).1 = none → E (put (runs x (part s)).2 s))) : Triple S P (zoom part put x) Q E :=
  fun _ hr => ⟨fun _ ht => .inl ht, (h _ hr).1, (h _ hr).2⟩

theorem triple_mono {P' : σ → Prop} {Q' : α → σ → Prop} (hx : Triple S P x Q E) (hp : ∀ s, P' s → P s)
    (hq : ∀ a s, Q a s → Q' a s) (he : ∀ s, E s → E' s) : Triple S P' x Q' E' := by
  intro r hr
  obtain ⟨hpast, hsome, hnone⟩ := hx r (hp _ hr)
  exact ⟨hpast, fun a ha => hq a _ (hsome a ha), fun hn => he _ (hnone hn)⟩

end

def Grows (r r' : Run σ) : Prop := ∀ t ∈ r.past, t ∈ r'.past

theorem grows_bind (hx : Keeps Grows x) (hf : ∀ a, Keeps Grows (f a)) : Keeps Grows (x >>= f) :=
  keeps_bind (R := Grows) (fun _ _ _ h h' t ht => h' t (h t ht)) hx hf

theorem grows_past {r : Run σ} {t : σ} (ht : t ∈ (runs x r).2.past)
    (hf : ∀ a, Keeps Grows (f a)) : t ∈ (runs (x >>= f) r).2.past := by
  rw [runs_bind]
  cases hrun : runs x r with
  | mk o r' =>
    rw [hrun] at ht
    cases o with
    | none => exact ht
    | some a => exact hf a r' t ht

theorem grows_look (f : σ → Option α) : Keeps Grows (look f) := fun _ _ ht => ht

theorem grows_change (f : σ → σ) : Keeps Grows (change f) := fun _ _ ht => ht

theorem grows_mark : Keeps Grows (mark : Act (Run σ) Unit) := fun _ _ ht => mem_append_left _ ht

theorem grows_attempt {x : Act (Run σ) Unit} (hx : Keeps Grows x) : Keeps Grows (attempt x) := hx

theorem grows_zoom (part : σ → τ) (put : τ → σ → σ) (x : Act τ α) : Keeps Grows (zoom part put x) :=
  fun _ _ ht => ht

end InvariantFs.CrashTrace
