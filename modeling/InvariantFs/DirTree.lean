import Mathlib.Data.Set.Card

namespace InvariantFs.DirTree

open Relation Option

variable {I N : Type}

structure DirGraph (I N : Type) where
  root : I
  dir : I → Prop
  entry : I → N → Option I

namespace DirGraph

def Edge (G : DirGraph I N) (a b : I) : Prop := ∃ n, G.entry a n = some b

/-- Only directories have entries. The root has no name, every other directory has one, and all hang under the
root. What is not a directory may have any number of names. -/
structure IsTree (G : DirGraph I N) : Prop where
  parent : ∀ p n c, G.entry p n = some c → G.dir p
  unnamed : ∀ p n, G.entry p n ≠ some G.root
  once : ∀ p n p' n' c, G.dir c → G.entry p n = some c → G.entry p' n' = some c → p = p' ∧ n = n'
  reach : ∀ d, G.dir d → ReflTransGen G.Edge G.root d

variable {G : DirGraph I N} {d : I}

namespace IsTree

theorem acyclic (h : G.IsTree) (hd : G.dir d) : ¬ TransGen G.Edge d d := by
  have hpath := h.reach d hd
  induction hpath with
  | refl =>
    intro hcycle
    obtain ⟨b, -, n, hn⟩ := TransGen.tail'_iff.mp hcycle
    exact h.unnamed b n hn
  | tail hpath hedge ih =>
    -- The cycle enters the directory through its one name, so the parent lies on it.
    intro hcycle
    obtain ⟨n, hn⟩ := hedge
    obtain ⟨b, hb, m, hm⟩ := TransGen.tail'_iff.mp hcycle
    obtain ⟨rfl, rfl⟩ := h.once _ _ _ _ _ hd hm hn
    exact ih (h.parent _ _ _ hn) (TransGen.head' ⟨_, hn⟩ hb)

theorem named (h : G.IsTree) (hd : G.dir d) (hroot : d ≠ G.root) : ∃ p n, G.entry p n = some d := by
  obtain heq | ⟨p, -, n, hn⟩ := (h.reach d hd).cases_tail
  · exact absurd heq hroot
  · exact ⟨p, n, hn⟩

theorem congr_dirs (h : G.IsTree) {G' : DirGraph I N} (hroot : G'.root = G.root) (hdir : ∀ i, G'.dir i ↔ G.dir i)
    (hrootdir : G.dir G.root) (hparent : ∀ p n c, G'.entry p n = some c → G.dir p)
    (hsame : ∀ p n c, G.dir c → (G'.entry p n = some c ↔ G.entry p n = some c)) : G'.IsTree := by
  refine ⟨fun p n c he => (hdir p).mpr (hparent p n c he), fun p n he => ?_, fun p n p' n' c hc he he' => ?_,
    fun d hd => ?_⟩
  · rw [hroot] at he
    exact h.unnamed p n ((hsame p n _ hrootdir).mp he)
  · have hc' := (hdir c).mp hc
    exact h.once p n p' n' c hc' ((hsame _ _ _ hc').mp he) ((hsame _ _ _ hc').mp he')
  · rw [hroot]
    have hd' := (hdir d).mp hd
    clear hd
    have hpath := h.reach d hd'
    induction hpath with
    | refl => exact ReflTransGen.refl
    | tail hpath hedge ih =>
      obtain ⟨n, hn⟩ := hedge
      exact (ih (h.parent _ _ _ hn)).tail ⟨n, (hsame _ _ _ hd').mpr hn⟩

end IsTree

variable [DecidableEq I] [DecidableEq N]

def set (G : DirGraph I N) (p : I) (n : N) (x : Option I) : DirGraph I N :=
  { G with entry := fun p' n' => if p' = p ∧ n' = n then x else G.entry p' n' }

def moved (G : DirGraph I N) (f tp : I) (tn : N) (q : I) (n : N) : DirGraph I N := (G.set tp tn (some f)).set q n none

variable {f tp q : I} {tn n : N}

theorem moved_entry {p : I} {m : N} {c : I} : (G.moved f tp tn q n).entry p m = some c ↔
    ¬ (p = q ∧ m = n) ∧ (p = tp ∧ m = tn ∧ c = f ∨ ¬ (p = tp ∧ m = tn) ∧ G.entry p m = some c) := by
  change (if p = q ∧ m = n then none else if p = tp ∧ m = tn then some f else G.entry p m) = some c ↔ _
  split_ifs with hold hnew
  · simp [hold]
  · constructor
    · intro heq
      exact ⟨hold, .inl ⟨hnew.1, hnew.2, (some.inj heq).symm⟩⟩
    · rintro ⟨-, ⟨-, -, rfl⟩ | ⟨hno, -⟩⟩
      · rfl
      · exact absurd hnew hno
  · simp only [hold, not_false_eq_true, true_and, hnew]
    refine ⟨.inr, ?_⟩
    rintro (⟨hp, hm, -⟩ | he)
    · exact absurd ⟨hp, hm⟩ hnew
    · exact he

theorem moved_self (hfree : G.entry tp tn = none) : G.moved f tp tn tp tn = G := by
  have hentry : (G.moved f tp tn tp tn).entry = G.entry := by
    funext p m
    change (if p = tp ∧ m = tn then none else if p = tp ∧ m = tn then some f else G.entry p m) = _
    split_ifs with heq
    · rw [heq.1, heq.2, hfree]
    · rfl
  cases G
  exact congrArg (DirGraph.mk _ _) hentry

section Move

variable (h : G.IsTree) (hf : G.dir f) (hold : G.entry q n = some f) (hfree : G.entry tp tn = none)

include h hf hold hfree in
theorem moved_below (hpath : ReflTransGen G.Edge f d) : ReflTransGen (G.moved f tp tn q n).Edge f d := by
  induction hpath with
  | refl => exact ReflTransGen.refl
  | tail hpath hedge ih =>
    obtain ⟨m, hm⟩ := hedge
    refine ih.tail ⟨m, moved_entry.mpr ⟨?_, .inr ⟨?_, hm⟩⟩⟩
    · -- The removed name on the way would lead back to the directory itself.
      rintro ⟨rfl, rfl⟩
      exact h.acyclic hf (TransGen.tail' hpath ⟨_, hold⟩)
    · rintro ⟨rfl, rfl⟩
      rw [hfree] at hm
      cases hm

include hold hfree in
theorem moved_apart (hpath : ReflTransGen G.Edge G.root d) (hapart : ¬ ReflTransGen G.Edge f d) :
    ReflTransGen (G.moved f tp tn q n).Edge G.root d := by
  induction hpath with
  | refl => exact ReflTransGen.refl
  | tail hpath hedge ih =>
    obtain ⟨m, hm⟩ := hedge
    refine (ih fun hb => hapart (hb.tail ⟨m, hm⟩)).tail ⟨m, moved_entry.mpr ⟨?_, .inr ⟨?_, hm⟩⟩⟩
    · rintro ⟨rfl, rfl⟩
      rw [hold] at hm
      exact hapart (some.inj hm ▸ ReflTransGen.refl)
    · rintro ⟨rfl, rfl⟩
      rw [hfree] at hm
      cases hm

include h hf hold hfree in
theorem moved_isTree_iff (htp : G.dir tp) : (G.moved f tp tn q n).IsTree ↔ ¬ ReflTransGen G.Edge f tp := by
  have hne : ¬ (tp = q ∧ tn = n) := by
    rintro ⟨rfl, rfl⟩
    rw [hfree] at hold
    cases hold
  have hnew : (G.moved f tp tn q n).Edge tp f := ⟨tn, moved_entry.mpr ⟨hne, .inl ⟨rfl, rfl, rfl⟩⟩⟩
  constructor
  · intro h' hpath
    exact h'.acyclic hf (TransGen.tail' (moved_below h hf hold hfree hpath) hnew)
  · intro hapart
    refine ⟨fun p m c he => ?_, fun p m he => ?_, fun p m p' m' c hc he he' => ?_, fun d hd => ?_⟩
    · obtain ⟨-, ⟨rfl, -, -⟩ | ⟨-, he⟩⟩ := moved_entry.mp he
      · exact htp
      · exact h.parent p m c he
    · obtain ⟨-, ⟨-, -, heq⟩ | ⟨-, he⟩⟩ := moved_entry.mp he
      · exact h.unnamed q n (hold.trans (congrArg some heq.symm))
      · exact h.unnamed p m he
    · obtain ⟨hq, ⟨rfl, rfl, rfl⟩ | ⟨-, hent⟩⟩ := moved_entry.mp he
      · obtain ⟨hq', ⟨rfl, rfl, -⟩ | ⟨-, hent'⟩⟩ := moved_entry.mp he'
        · exact ⟨rfl, rfl⟩
        · exact absurd (h.once _ _ _ _ _ hf hent' hold) hq'
      · obtain ⟨-, ⟨rfl, rfl, rfl⟩ | ⟨-, hent'⟩⟩ := moved_entry.mp he'
        · exact absurd (h.once _ _ _ _ _ hf hent hold) hq
        · exact h.once _ _ _ _ _ hc hent hent'
    · by_cases hbelow : ReflTransGen G.Edge f d
      · exact ((moved_apart hold hfree (h.reach tp htp) hapart).tail hnew).trans (moved_below h hf hold hfree hbelow)
      · exact moved_apart hold hfree (h.reach d hd) hbelow

end Move

theorem moved_twice (h : G.IsTree) (hf : G.dir f) (hfree : G.entry tp tn = none) (hne : ¬ (tp = q ∧ tn = n))
    (hold : G.entry q n ≠ some f) : ¬ (G.moved f tp tn q n).IsTree := by
  intro h'
  have hnew : (G.moved f tp tn q n).entry tp tn = some f := moved_entry.mpr ⟨hne, .inl ⟨rfl, rfl, rfl⟩⟩
  have hroot : f ≠ G.root := fun heq => h'.unnamed tp tn (hnew.trans (congrArg some heq))
  obtain ⟨p, m, hm⟩ := h.named hf hroot
  have hother : ¬ (p = tp ∧ m = tn) := by
    rintro ⟨rfl, rfl⟩
    rw [hfree] at hm
    cases hm
  have hkept : (G.moved f tp tn q n).entry p m = some f := by
    refine moved_entry.mpr ⟨?_, .inr ⟨hother, hm⟩⟩
    rintro ⟨rfl, rfl⟩
    exact hold hm
  exact hother (h'.once _ _ _ _ _ hf hkept hnew)

theorem moved_other_iff (h : G.IsTree) (hroot : G.dir G.root) (hf : ¬ G.dir f)
    (hvictim : ∀ c, G.entry tp tn = some c → ¬ G.dir c) (htp : G.dir tp) :
    (G.moved f tp tn q n).IsTree ↔ ∀ c, (G.set tp tn (some f)).entry q n = some c → ¬ G.dir c := by
  have hmid : ∀ c, G.dir c → ((G.set tp tn (some f)).entry q n = some c ↔ G.entry q n = some c) := by
    intro c hc
    change (if q = tp ∧ n = tn then some f else G.entry q n) = some c ↔ _
    split_ifs with heq
    · refine iff_of_false (fun hfc => hf (some.inj hfc ▸ hc)) fun he => ?_
      exact hvictim c (heq.1 ▸ heq.2 ▸ he) hc
    · exact Iff.rfl
  constructor
  · intro h' c he hc
    have hent := (hmid c hc).mp he
    have hcroot : c ≠ G.root := fun heq => h.unnamed q n (hent.trans (congrArg some heq))
    obtain ⟨p, m, hm⟩ := h'.named (G := G.moved f tp tn q n) hc hcroot
    obtain ⟨hq, ⟨-, -, rfl⟩ | ⟨-, hm⟩⟩ := moved_entry.mp hm
    · exact hf hc
    · exact hq (h.once _ _ _ _ _ hc hm hent)
  · intro hnone
    refine h.congr_dirs rfl (fun _ => Iff.rfl) hroot (fun p m c he => ?_) fun p m c hc => ?_
    · obtain ⟨-, ⟨rfl, -, -⟩ | ⟨-, he⟩⟩ := moved_entry.mp he
      · exact htp
      · exact h.parent p m c he
    · rw [moved_entry]
      constructor
      · rintro ⟨-, ⟨-, -, rfl⟩ | ⟨-, he⟩⟩
        · exact absurd hc hf
        · exact he
      · intro he
        refine ⟨?_, .inr ⟨?_, he⟩⟩
        · rintro ⟨rfl, rfl⟩
          exact hnone c ((hmid c hc).mpr he) hc
        · rintro ⟨rfl, rfl⟩
          exact hvictim c he hc

end DirGraph

end InvariantFs.DirTree
