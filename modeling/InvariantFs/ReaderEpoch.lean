import Mathlib.Data.Set.Card

namespace InvariantFs.ReaderEpoch

open List

/-- Readers of a shared state, each with a state of its own, and a writer that can see how many readers have
announced themselves. -/
structure Protocol (σ τ : Type) where
  start : τ
  look : σ → τ → τ → Prop
  write : Nat → σ → σ → Prop

structure State (σ τ : Type) where
  shared : σ
  readers : List τ
  inFlight : Nat

variable {σ τ : Type} (P : Protocol σ τ)

inductive Step : State σ τ → State σ τ → Prop
  | announce (s : σ) (rs : List τ) (n : Nat) : Step ⟨s, rs, n⟩ ⟨s, P.start :: rs, n + 1⟩
  | look {s : σ} {l l' : τ} (as bs : List τ) (n : Nat) (h : P.look s l l') :
      Step ⟨s, as ++ l :: bs, n⟩ ⟨s, as ++ l' :: bs, n⟩
  | release (s : σ) (l : τ) (as bs : List τ) (n : Nat) : Step ⟨s, as ++ l :: bs, n⟩ ⟨s, as ++ bs, n - 1⟩
  | write {s s' : σ} {n : Nat} (rs : List τ) (h : P.write n s s') : Step ⟨s, rs, n⟩ ⟨s', rs, n⟩

/-- What holds of the shared state, and what it owes to each reader. A writer that sees no reader owes
nothing. -/
structure Guards (Inv : σ → Prop) (Safe : σ → τ → Prop) : Prop where
  start : ∀ s, Inv s → Safe s P.start
  look : ∀ s l l', Inv s → Safe s l → P.look s l l' → Safe s l'
  write : ∀ n s s', Inv s → P.write n s s' → Inv s'
  keep : ∀ n s s', Inv s → P.write n s s' → n ≠ 0 → ∀ l, Safe s l → Safe s' l

structure Served (Inv : σ → Prop) (Safe : σ → τ → Prop) (t : State σ τ) : Prop where
  inv : Inv t.shared
  count : t.inFlight = t.readers.length
  safe : ∀ l ∈ t.readers, Safe t.shared l

variable {P} {Inv : σ → Prop} {Safe : σ → τ → Prop} {t t' : State σ τ}

theorem served_step (hg : Guards P Inv Safe) (hs : Served Inv Safe t) (h : Step P t t') : Served Inv Safe t' := by
  obtain ⟨hinv, hcount, hsafe⟩ := hs
  cases h with
  | announce s rs n =>
    refine ⟨hinv, congrArg (· + 1) hcount, fun l hl => ?_⟩
    obtain rfl | hl := mem_cons.mp hl
    · exact hg.start s hinv
    · exact hsafe l hl
  | @look s l l' as bs n h =>
    refine ⟨hinv, by simpa using hcount, fun k hk => ?_⟩
    obtain hk | hk := mem_append.mp hk
    · exact hsafe k (mem_append_left _ hk)
    · obtain rfl | hk := mem_cons.mp hk
      · exact hg.look s l k hinv (hsafe l (by simp)) h
      · exact hsafe k (mem_append_right _ (mem_cons_of_mem l hk))
  | release s l as bs n =>
    refine ⟨hinv, ?_, fun k hk => ?_⟩
    · have hn : n = (as ++ l :: bs).length := hcount
      change n - 1 = (as ++ bs).length
      simp only [length_append, length_cons] at hn ⊢
      omega
    · obtain hk | hk := mem_append.mp hk
      · exact hsafe k (mem_append_left _ hk)
      · exact hsafe k (mem_append_right _ (mem_cons_of_mem l hk))
  | @write s s' n rs h =>
    refine ⟨hg.write n s s' hinv h, hcount, fun l hl => ?_⟩
    have hn : n ≠ 0 := by
      have hpos : 0 < rs.length := length_pos_of_mem hl
      have hlen : n = rs.length := hcount
      omega
    exact hg.keep n s s' hinv h hn l (hsafe l hl)

theorem served_run (hg : Guards P Inv Safe) {s : σ} (h0 : Inv s)
    (h : Relation.ReflTransGen (Step P) ⟨s, [], 0⟩ t) : Served Inv Safe t := by
  induction h with
  | refl => exact ⟨h0, rfl, by simp⟩
  | tail _ hstep ih => exact served_step hg ih hstep

end InvariantFs.ReaderEpoch
