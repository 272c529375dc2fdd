import Mathlib.Data.Set.Card

/-!
Threads that call `blkio_flush` on one handle share device fsyncs through `write_gen` and `flushed_gen`.
A write is completed by its bump of `write_gen`, the last thing it does to the handle.
-/

namespace InvariantFs.FlushGroup

open Relation Function Nat

structure Policy where
  commitBytes : Nat
  commitMs : Nat
  idleMs : Nat

def strict : Policy := ⟨0, 0, 0⟩

def pfShouldFlush (p : Policy) (force : Bool) (dirty elapsed : Nat) : Prop :=
  force ∨ p.commitBytes = 0 ∧ p.commitMs = 0 ∧ p.idleMs = 0 ∨ p.commitBytes ≠ 0 ∧ p.commitBytes ≤ dirty ∨
    p.commitMs ≠ 0 ∧ p.commitMs ≤ elapsed ∨ p.idleMs ≠ 0 ∧ p.idleMs ≤ elapsed

/-- Where a thread is in `blkio_flush`. `since` is the number of writes completed when it was called. -/
inductive Pc
  | idle
  | called (since : Nat)
  | waiting (since myGen : Nat)
  | flusher (since : Nat)
  | sampled (since cover : Nat)
  | syncing (since cover start : Nat)
  | synced (since cover : Nat) (ok : Bool)
  | stored (since : Nat) (ok : Bool)
  | returned (since : Nat) (ok : Bool)

/-- `completed` counts the writes and `syncs` lists the successful fsyncs, each by the count at its start;
the code has neither. -/
structure Io (T : Type) where
  writeGen : Nat := 0
  flushedGen : Nat := 0
  flushBusy : Bool := false
  completed : Nat := 0
  syncs : List Nat := []
  pc : T → Pc := fun _ => .idle

variable {T : Type} {p : Policy} {fdOk : Bool} {s s' : Io T} {q q' : Pc}

def blkioPwrite (s : Io T) (len : Nat) : Io T :=
  if len = 0 then s
  else { s with writeGen := (s.writeGen + 1) % 2 ^ 64, completed := s.completed + 1 }

/-- What a thread in `blkio_flush` does next to the handle. The counters that the policy reads are arbitrary,
and so is the outcome of an fsync. -/
inductive Act (p : Policy) (fdOk : Bool) (s : Io T) : Pc → Io T → Pc → Prop
  | call : Act p fdOk s .idle s (.called s.completed)
  | load {n : Nat} : Act p fdOk s (.called n) s (.waiting n s.writeGen)
  | defer {n my dirty elapsed : Nat} {force : Bool} (h : ¬ pfShouldFlush p force dirty elapsed) :
      Act p fdOk s (.waiting n my) s (.returned n true)
  | skip {n my : Nat} (hfd : fdOk = true) (h : my ≤ s.flushedGen) : Act p fdOk s (.waiting n my) s (.returned n true)
  | win {n my : Nat} (h : s.flushBusy = false) :
      Act p fdOk s (.waiting n my) { s with flushBusy := true } (.flusher n)
  | sample {n : Nat} : Act p fdOk s (.flusher n) s (.sampled n s.writeGen)
  | start {n cover : Nat} : Act p fdOk s (.sampled n cover) s (.syncing n cover s.completed)
  | fail {n cover start : Nat} : Act p fdOk s (.syncing n cover start) s (.synced n cover false)
  | sync {n cover start : Nat} (hfd : fdOk = true) :
      Act p fdOk s (.syncing n cover start) { s with syncs := start :: s.syncs } (.synced n cover true)
  | store {n cover : Nat} {ok : Bool} : Act p fdOk s (.synced n cover ok)
      { s with flushedGen := if ok ∧ s.flushedGen < cover then cover else s.flushedGen } (.stored n ok)
  | release {n : Nat} {ok : Bool} : Act p fdOk s (.stored n ok) { s with flushBusy := false } (.returned n ok)
  | leave {n : Nat} {ok : Bool} : Act p fdOk s (.returned n ok) s .idle

inductive Step [DecidableEq T] (p : Policy) (fdOk : Bool) (s : Io T) : Io T → Prop
  | write (len : Nat) : Step p fdOk s (blkioPwrite s len)
  | thread {t : T} {s' : Io T} {q : Pc} (h : Act p fdOk s (s.pc t) s' q) :
      Step p fdOk s { s' with pc := update s.pc t q }

/-- Some successful fsync started with at least `n` writes completed. -/
def Synced (s : Io T) (n : Nat) : Prop := n = 0 ∨ ∃ c ∈ s.syncs, n ≤ c

def Io.Holds (s : Io T) : Pc → Prop
  | .idle => True
  | .called since => since ≤ s.completed
  | .waiting since myGen => since ≤ myGen ∧ myGen ≤ s.completed
  | .flusher since => since ≤ s.completed
  | .sampled since cover => since ≤ cover ∧ cover ≤ s.completed
  | .syncing since cover start => since ≤ cover ∧ cover ≤ start
  | .synced since cover ok => since ≤ cover ∧ (ok → Synced s cover)
  | .stored since ok => ok → Synced s since
  | .returned since ok => ok → Synced s since

structure Inv (s : Io T) : Prop where
  gen : s.writeGen = s.completed
  flushed : Synced s s.flushedGen
  pcs : ∀ t, s.Holds (s.pc t)

theorem Io.Holds.mono (h : s.Holds q) (hc : s.completed ≤ s'.completed) (hs : ∀ c ∈ s.syncs, c ∈ s'.syncs) :
    s'.Holds q := by
  cases q <;> grind [Io.Holds, Synced]

theorem Act.completed_eq (h : Act p fdOk s q s' q') : s'.completed = s.completed := by
  cases h <;> rfl

theorem Act.inv (h : Act strict fdOk s q s' q') (hi : Inv s) (hq : s.Holds q) :
    s'.writeGen = s.writeGen ∧ (∀ c ∈ s.syncs, c ∈ s'.syncs) ∧ Synced s' s'.flushedGen ∧ s'.Holds q' := by
  have hg := hi.gen
  have hf := hi.flushed
  cases h with
  | defer h => exact absurd (.inr (.inl ⟨rfl, rfl, rfl⟩)) h
  | @sync n cover start hfd =>
    refine ⟨rfl, fun _ => List.mem_cons_of_mem _, hf.imp_right ?_, hq.1, fun _ => .inr ⟨start, by simp, hq.2⟩⟩
    exact fun ⟨c, hc, hle⟩ => ⟨c, List.mem_cons_of_mem _ hc, hle⟩
  | _ => grind [Io.Holds, Synced]

variable [DecidableEq T]

theorem Step.inv (h : Step strict fdOk s s') (hw : s'.completed < 2 ^ 64) (hi : Inv s) : Inv s' := by
  cases h with
  | write len =>
    unfold blkioPwrite at hw ⊢
    split
    · exact hi
    next hlen =>
    rw [if_neg hlen] at hw
    refine ⟨?_, hi.flushed, fun t => (hi.pcs t).mono (le_succ _) fun _ => id⟩
    change (s.writeGen + 1) % 2 ^ 64 = s.completed + 1
    rw [hi.gen, mod_eq_of_lt hw]
  | @thread t s₁ q h =>
    obtain ⟨hg, hs, hf, hq⟩ := h.inv hi (hi.pcs t)
    have hc := h.completed_eq.symm
    refine ⟨(hg.trans hi.gen).trans hc, hf, fun t' => ?_⟩
    change s₁.Holds (update s.pc t q t')
    by_cases ht : t' = t
    · rwa [ht, update_self]
    · rw [update_of_ne ht]
      exact (hi.pcs t').mono (Nat.le_of_eq hc) hs

theorem Step.completed_le (h : Step p fdOk s s') : s.completed ≤ s'.completed := by
  cases h with
  | write len => unfold blkioPwrite; split <;> simp
  | thread h => exact Nat.le_of_eq h.completed_eq.symm

theorem run_inv (h : ReflTransGen (Step strict fdOk) {} s) (hw : s.completed < 2 ^ 64) : Inv s := by
  induction h with
  | refl => exact ⟨rfl, .inl rfl, fun _ => trivial⟩
  | tail _ hstep ih =>
    exact hstep.inv hw (ih (Nat.lt_of_le_of_lt hstep.completed_le hw))

/-- A barrier that returns `0` after a write was completed follows a successful fsync that started after every write
completed before the call. -/
theorem flush_covered {t : T} {n : Nat} (h : ReflTransGen (Step strict fdOk) {} s) (hw : s.completed < 2 ^ 64)
    (hr : s.pc t = .returned n true) (hn : 0 < n) : ∃ c ∈ s.syncs, n ≤ c := by
  have hret := (run_inv h hw).pcs t
  rw [hr] at hret
  exact (hret rfl).resolve_left (Nat.ne_of_gt hn)

/-- One thread does the fsync, and the other finds it done: both were called after the write. -/
theorem flush_covered_shared : ∃ s : Io Bool, s.pc true = .returned 1 true ∧ s.pc false = .returned 1 true ∧
    s.syncs = [1] ∧ ∃ c ∈ s.syncs, 1 ≤ c := by
  obtain ⟨s, hrun, htrue, hfalse, hs, hw⟩ : ∃ s : Io Bool, ReflTransGen (Step strict true) {} s ∧
      s.pc true = .returned 1 true ∧ s.pc false = .returned 1 true ∧ s.syncs = [1] ∧ s.completed < 2 ^ 64 :=
    ⟨_, .head (.write 8) <| .head (.thread (t := true) .call) <| .head (.thread (t := false) .call) <|
      .head (.thread (t := true) .load) <| .head (.thread (t := false) .load) <|
      .head (.thread (t := true) (.win rfl)) <| .head (.thread (t := true) .sample) <|
      .head (.thread (t := true) .start) <| .head (.thread (t := true) (.sync rfl)) <|
      .head (.thread (t := true) .store) <| .head (.thread (t := true) .release) <|
      .single (.thread (t := false) (.skip rfl le_rfl)), rfl, rfl, rfl, by decide⟩
  exact ⟨s, htrue, hfalse, hs, flush_covered hrun hw hfalse (by decide)⟩

/-- With no write before the call the barrier returns without an fsync. -/
theorem flush_covered_fresh : ¬ ∀ (s : Io Unit) (t : Unit) (n : Nat), ReflTransGen (Step strict true) {} s →
    s.completed < 2 ^ 64 → s.pc t = .returned n true → ∃ c ∈ s.syncs, n ≤ c := by
  intro h
  obtain ⟨c, hc, -⟩ := h _ () 0 (.head (.thread (t := ()) .call) <| .head (.thread (t := ()) .load) <|
    .single (.thread (t := ()) (.skip rfl (zero_le _)))) (by decide) rfl
  cases hc

end InvariantFs.FlushGroup
