import InvariantFs.Orphans

namespace InvariantFs.OrphanRounds

open ByteCodec BtreePage Orphans List Option Bool Nat

/-- The pool and the candidates after some calls of `btree_collect_orphans` in a row. -/
def calls (budget : Nat) : Nat → Pool → Orph → Pool × Orph
  | 0, s, o => (s, o)
  | n + 1, s, o =>
    calls budget n (collectOrphans s o budget true).pool (collectOrphans s o budget true).orph

def Still (budget : Nat) (s : Pool) (o : Orph) : Prop := ∀ n, (calls budget n s o).1.disk.bit = s.disk.bit

def ahead (s : Pool) (o : Orph) : Nat := if o.seedDone then 0 else s.total - max 1 o.seedCursor

structure Quiet (s : Pool) (o : Orph) : Prop where
  done : o.seedDone = true
  none : ∀ b ∈ o.pba, s.disk.bit b = true → ¬ Collectable s b

variable {s : Pool} {o : Orph} {budget : Nat}

theorem candAdd_seed (total b : Nat) (o : Orph) :
    (candAdd total o b).seedDone = o.seedDone ∧ (candAdd total o b).seedCursor = o.seedCursor := by
  unfold candAdd
  split <;> exact ⟨rfl, rfl⟩

theorem seedLoop_advances (s : Pool) (fuel b reads : Nat) (o : Orph) (hfuel : s.total ≤ b + fuel)
    (hreads : reads ≤ budget) : (seedLoop s budget fuel b reads o).2.seedDone = o.seedDone ∧
      (s.total ≤ (seedLoop s budget fuel b reads o).1 ∨
        b + (budget - reads) ≤ (seedLoop s budget fuel b reads o).1) := by
  induction fuel generalizing b reads o with
  | zero => exact ⟨rfl, .inl hfuel⟩
  | succ fuel ih =>
    rw [seedLoop]
    split_ifs with hstop hzero hpage
    · exact ⟨rfl, hstop.imp id fun h => by simp [Nat.sub_eq_zero_of_le h]⟩
    · obtain ⟨hdone, hle⟩ := ih (b + 8) reads o (by omega) hreads
      exact ⟨hdone, hle.imp id fun h => by omega⟩
    · obtain ⟨hdone, hle⟩ := ih (b + 1) (reads + 1) (candAdd s.total o b) (by omega) (by omega)
      exact ⟨hdone.trans (candAdd_seed _ _ _).1, hle.imp id fun h => by omega⟩
    · obtain ⟨hdone, hle⟩ := ih (b + 1) (reads + 1) o (by omega) (by omega)
      exact ⟨hdone, hle.imp id fun h => by omega⟩

theorem seedScan_advances (s : Pool) (o : Orph) (budget : Nat) :
    (seedScan s budget o).seedDone = true ∨ ahead s (seedScan s budget o) + budget ≤ ahead s o := by
  by_cases hdone : o.seedDone = true
  · left
    rw [seedScan, if_pos hdone, hdone]
  · have hstart : (if o.seedCursor = 0 then 1 else o.seedCursor) = max 1 o.seedCursor := by split <;> omega
    obtain ⟨hsame, hle⟩ := seedLoop_advances s s.total (max 1 o.seedCursor) 0 o (by omega) (zero_le budget)
    rw [seedScan, if_neg hdone, hstart]
    dsimp only
    split_ifs with hend
    · exact .inl rfl
    · have hahead := hle.resolve_left hend
      refine .inr ?_
      unfold ahead
      rw [if_neg hdone]
      dsimp only
      rw [hsame, if_neg hdone]
      omega

theorem seedScan_done (h : o.seedDone = true) : seedScan s budget o = o := if_pos h

variable {roots : List Ptr}

/-- A call that gets as far as the candidates: they come from the seed pass, what can be collected among
them is freed, and what is freed is among them. -/
theorem collect_live (o : Orph) (budget : Nat) (hlive : liveRoots s = some roots) (hne : roots ≠ []) (flush : Bool) :
    (collectOrphans s o budget flush).orph.seedDone = (seedScan s budget o).seedDone ∧
      (collectOrphans s o budget flush).orph.seedCursor = (seedScan s budget o).seedCursor ∧
      (∀ b ∈ (collectOrphans s o budget flush).orph.pba, b ∈ (seedScan s budget o).pba) ∧
      (∀ b ∈ (seedScan s budget o).pba, s.disk.bit b = true → Collectable s b →
        (collectOrphans s o budget flush).pool.disk.bit b = false) ∧
      (∀ b, s.disk.bit b = true → (collectOrphans s o budget flush).pool.disk.bit b = false →
        b ∈ (seedScan s budget o).pba) ∧
      ((collectOrphans s o budget flush).settled = true → (seedScan s budget o).seedDone = true) ∧
      ((collectOrphans s o budget true).rc ≠ 0 → seen s roots = none) := by
  have htakes := fun b (hb : b ∈ (seedScan s budget o).pba) hbit (hcoll : Collectable s b) =>
    collect_takes hcoll hbit hb flush
  obtain ⟨root, rest, rfl⟩ := exists_cons_of_ne_nil hne
  simp only [collectOrphans, hlive] at htakes ⊢
  split_ifs at htakes ⊢ with hcand
  · exact ⟨rfl, rfl, fun b hb => mem_of_mem_filter hb, htakes,
      fun b hbit hfreed => absurd (hbit.symm.trans hfreed) (by simp), by simp, by simp⟩
  · cases hseen : seen s (root :: rest) with
    | none =>
      rw [hseen] at htakes
      exact ⟨rfl, rfl, fun b hb => mem_of_mem_filter hb, htakes,
        fun b hbit hfreed => absurd (hbit.symm.trans hfreed) (by simp), by simp, by simp⟩
    | some marked =>
      rw [hseen] at htakes
      refine ⟨rfl, rfl, fun b hb => mem_of_mem_filter (mem_of_mem_filter hb), htakes,
        fun b hbit hfreed => ?_, fun h => (of_decide_eq_true h).1, by simp⟩
      obtain ⟨hmem, -⟩ := frees_freed hbit hfreed
      exact mem_of_mem_filter (mem_of_mem_filter (mem_of_mem_filter hmem))

theorem collect_dead (o : Orph) (budget : Nat) (hdead : liveRoots s = none ∨ liveRoots s = some []) (flush : Bool) :
    collectOrphans s o budget flush = ⟨s, o, true, 0⟩ ∧ ∀ b, ¬ Collectable s b := by
  refine ⟨?_, ?_⟩
  · unfold collectOrphans
    obtain h | h := hdead <;> rw [h]
  · rintro b ⟨-, -, -, roots, hroots, hne, -⟩
    obtain h | h := hdead
    · rw [h] at hroots
      simp at hroots
    · rw [h] at hroots
      exact hne (some.inj hroots).symm

theorem dead_or_live (s : Pool) : (liveRoots s = none ∨ liveRoots s = some []) ∨
    ∃ roots, liveRoots s = some roots ∧ roots ≠ [] := by
  cases h : liveRoots s with
  | none => exact .inl (.inl rfl)
  | some roots =>
    by_cases hne : roots = []
    · exact .inl (.inr (by rw [hne]))
    · exact .inr ⟨roots, rfl, hne⟩

theorem pool_same {flush : Bool}
    (h : ∀ b, s.disk.bit b = true → (collectOrphans s o budget flush).pool.disk.bit b = true) :
    (collectOrphans s o budget flush).pool = s := by
  obtain ⟨hsame, hfewer, -⟩ := collect_frees s o budget flush
  have hbit : (collectOrphans s o budget flush).pool.disk.bit = s.disk.bit := by
    funext b
    exact Bool.eq_iff_iff.mpr ⟨hfewer b, h b⟩
  rw [hsame, hbit]
  rfl

theorem barren_still (h : ∀ b, ¬ Collectable s b) (o : Orph) : Still budget s o := by
  intro n
  induction n generalizing o with
  | zero => rfl
  | succ n ih =>
    have hpool : (collectOrphans s o budget true).pool = s := by
      refine pool_same fun b hb => ?_
      by_contra hfreed
      exact h b ((collect_frees s o budget true).2.2 b hb (not_eq_true _ ▸ hfreed))
    rw [calls, hpool]
    exact ih _

theorem quiet_still (h : Quiet s o) : Still budget s o := by
  intro n
  induction n generalizing o with
  | zero => rfl
  | succ n ih =>
    obtain hdead | ⟨roots, hlive, hne⟩ := dead_or_live s
    · exact barren_still (collect_dead o budget hdead true).2 o (n + 1)
    obtain ⟨hdone, -, hsub, -, hfrom, -⟩ := collect_live o budget hlive hne true
    rw [seedScan_done h.done] at hdone hsub hfrom
    have hpool : (collectOrphans s o budget true).pool = s := by
      refine pool_same fun b hb => ?_
      by_contra hfreed
      rw [not_eq_true] at hfreed
      exact h.none b (hfrom b hb hfreed) hb ((collect_frees s o budget true).2.2 b hb hfreed)
    rw [calls, hpool]
    exact ih ⟨hdone.trans h.done, fun b hb => h.none b (hsub b hb)⟩

theorem quiet_after (hlive : liveRoots s = some roots) (hne : roots ≠ [])
    (hdone : (seedScan s budget o).seedDone = true) :
    Quiet (collectOrphans s o budget true).pool (collectOrphans s o budget true).orph := by
  obtain ⟨hseed, -, hsub, htakes, -⟩ := collect_live o budget hlive hne true
  obtain ⟨hsame, hfewer, -⟩ := collect_frees s o budget true
  refine ⟨hseed.trans hdone, fun b hb hbit hcoll => ?_⟩
  rw [hsame] at hcoll
  have hfreed := htakes b (hsub b hb) (hfewer b hbit) (collectable_withBits hfewer hcoll)
  rw [hbit] at hfreed
  simp at hfreed

theorem still_call (h : Still budget s o) : (collectOrphans s o budget true).pool.disk.bit = s.disk.bit ∧
      Still budget (collectOrphans s o budget true).pool (collectOrphans s o budget true).orph :=
  ⟨h 1, fun n => (h (n + 1)).trans (h 1).symm⟩

theorem drain_calls {rounds : Nat} (h : Still budget s o ∨ ahead s o < budget * rounds) :
    ∃ n, (calls budget n s o).1.disk.bit = (drain budget (fun _ => true) rounds s o).1.disk.bit ∧
      Still budget (calls budget n s o).1 (calls budget n s o).2 := by
  induction rounds generalizing s o with
  | zero => exact ⟨0, rfl, h.resolve_right (by simp)⟩
  | succ rounds ih =>
    obtain hdead | ⟨roots, hlive, hne⟩ := dead_or_live s
    · obtain ⟨hcall, hbarren⟩ := collect_dead o budget hdead true
      refine ⟨0, ?_, barren_still hbarren o⟩
      simp [drain, hcall, calls]
    obtain ⟨hdone, hcursor, -, -, -, hsettled, hrc⟩ := collect_live o budget hlive hne true
    unfold drain
    dsimp only
    split_ifs with hfail hend
    · -- the mark walk failed, and it will again
      have hbarren : ∀ b, ¬ Collectable s b := by
        rintro b ⟨-, -, -, roots', hroots, -, hsome, -⟩
        obtain rfl := some.inj (hlive.symm.trans hroots)
        rw [hrc hfail] at hsome
        simp at hsome
      have hstill : Still budget s o := barren_still hbarren o
      exact ⟨0, (hstill 1).symm, hstill⟩
    · exact ⟨1, rfl, quiet_still (quiet_after hlive hne (hsettled hend))⟩
    · have hnext : Still budget (collectOrphans s o budget true).pool (collectOrphans s o budget true).orph ∨
          ahead (collectOrphans s o budget true).pool (collectOrphans s o budget true).orph < budget * rounds := by
        obtain hstill | hahead := h
        · exact .inl (still_call hstill).2
        obtain hseed | hseed := seedScan_advances s o budget
        · exact .inl (quiet_still (quiet_after hlive hne hseed))
        · have hsame : ahead (collectOrphans s o budget true).pool (collectOrphans s o budget true).orph =
              ahead s (seedScan s budget o) := by
            unfold ahead
            rw [hdone, hcursor, (collect_frees s o budget true).1]
            rfl
          rw [hsame]
          rw [mul_succ] at hahead
          exact .inr (by omega)
      obtain ⟨n, hbit, hstill⟩ := ih hnext
      exact ⟨n + 1, hbit, hstill⟩

theorem calls_add (budget n m : Nat) (s : Pool) (o : Orph) :
    calls budget (n + m) s o = calls budget m (calls budget n s o).1 (calls budget n s o).2 := by
  induction n generalizing s o with
  | zero => rw [Nat.zero_add, calls]
  | succ n ih => rw [Nat.succ_add, calls, ih, calls]

/-- There is an end to what repeated calls free, and there the bitmap is that of one
`btree_collect_orphans_full`, provided the rounds of the latter are enough to look at every block. -/
theorem repeated_full (s : Pool) (o : Orph) (budget : Nat) (hbudget : 0 < budget)
    (hsize : s.total ≤ budget * drainMaxRounds) :
    (∃ n, Still budget (calls budget n s o).1 (calls budget n s o).2) ∧
      ∀ n, Still budget (calls budget n s o).1 (calls budget n s o).2 →
        (calls budget n s o).1.disk.bit = (collectOrphansFull s o budget fun _ => true).1.disk.bit := by
  have hahead : ahead s o < budget * drainMaxRounds := by
    have hpos : 0 < budget * drainMaxRounds := Nat.mul_pos hbudget (by decide)
    unfold ahead
    split_ifs <;> omega
  obtain ⟨N, hfull, hstill⟩ := drain_calls (.inr hahead)
  refine ⟨⟨N, hstill⟩, fun n hn => ?_⟩
  have h1 := hn N
  have h2 := hstill n
  rw [← calls_add] at h1 h2
  rw [← h1, Nat.add_comm, h2]
  exact hfull

/-- The bytes of an empty leaf of a small generation, for a checksum that is always zero. -/
def leafByte (gen : Byte) (k : Nat) : Byte :=
  if k < 4 then pageMagic.getD k 0 else if k = 4 then gen else 0

/-- The base root is an empty leaf at block 1, and a fold that crashed has left an older one at block 2. -/
def leftover : Pool where
  disk :=
    { vol :=
        { codecs := FileRead.bareCodecs
          total := 3
          dev := fun n =>
            if n / 4096 = 1 then leafByte 7 (n % 4096)
            else if n / 4096 = 2 then leafByte 1 (n % 4096)
            else 0
          row := fun _ => none
          named := fun _ => true
          sibling := fun _ _ => none }
      names := []
      bit := fun b => b = 1 ∨ b = 2
      seq := fun _ => 0
      retire := [] }
  fits := by decide
  rt := some ⟨(1, 0), 1, 0⟩
  pinned := .null
  hold := fun _ => false
  inodes := []
  chain := []

theorem repeated_full_leftover : ∃ n,
    Still 1 (calls 1 n leftover ⟨[], 0, false⟩).1 (calls 1 n leftover ⟨[], 0, false⟩).2 ∧
    (calls 1 n leftover ⟨[], 0, false⟩).1.disk.bit =
      (collectOrphansFull leftover ⟨[], 0, false⟩ 1 fun _ => true).1.disk.bit := by
  obtain ⟨⟨n, hstill⟩, hfull⟩ := repeated_full leftover ⟨[], 0, false⟩ 1 (by decide) (by decide)
  exact ⟨n, hstill, hfull n hstill⟩

/-- With a budget of one read the first call looks at the root only and frees nothing. -/
theorem first_call_frees_nothing : (collectOrphans leftover ⟨[], 0, false⟩ 1 true).rc = 0 ∧
    (collectOrphans leftover ⟨[], 0, false⟩ 1 true).pool.disk.bit = leftover.disk.bit ∧
    leftover.disk.bit 2 = true ∧
    (collectOrphansFull leftover ⟨[], 0, false⟩ 1 fun _ => true).1.disk.bit 2 = false := by
  have hseed : (seedScan leftover 1 ⟨[], 0, false⟩).pba = [1] := by decide +kernel
  have hroot : (collectOrphans leftover ⟨[], 0, false⟩ 1 true).pool.disk.bit 1 = true := by decide +kernel
  refine ⟨by decide +kernel, ?_, by decide, by decide +kernel⟩
  obtain hdead | ⟨roots, hlive, hne⟩ := dead_or_live leftover
  · rw [(collect_dead ⟨[], 0, false⟩ 1 hdead true).1]
  obtain ⟨-, -, -, -, hfrom, -⟩ := collect_live ⟨[], 0, false⟩ 1 hlive hne true
  rw [pool_same fun b hb => ?_]
  by_contra hfreed
  have hmem := hfrom b hb (not_eq_true _ ▸ hfreed)
  rw [hseed, mem_singleton] at hmem
  rw [hmem] at hfreed
  exact hfreed hroot

end InvariantFs.OrphanRounds
