import InvariantFs.TextZone

namespace InvariantFs.TextGc

open ByteCodec Spans FileRead TextZone List Nat

/-- An inode that the walk over the live inodes delivers, with the path that it found for it. -/
structure Visit where
  id : Nat
  path : Option (List Byte)

/-- The name that the walk hands on: a path that does not fit its buffer is the empty name. -/
def iterName (path : Option (List Byte)) : Option (List Byte) :=
  path.map fun p => if p.length < 256 then p else []

/-- `collect_sweepables_cb` passes over inodes without a name and over those of the engine. -/
def sweepable (x : Visit) : Bool :=
  match iterName x.path with
  | some (b :: _) => b ≠ 1
  | _ => false

/-- `vol_collect_sweepables`: the walk ends early when the array is full. What it returns does not
tell whether the walk failed. -/
def collectSweepables (max : Nat) : List Visit → List Nat → List Nat
  | [], ids => ids
  | x :: xs, ids =>
    if sweepable x then
      if max ≤ ids.length then ids else collectSweepables max xs (ids ++ [x.id])
    else collectSweepables max xs ids

/-- The loop of `tz_gc` around the walk: walk number `k` has room for `4096 * 2 ^ k` inodes. It is
repeated as long as the array is full and a larger one can be had. -/
def gather (walks : Nat → List Visit) : Nat → Nat → Option (List Nat)
  | 0, _ => none
  | m + 1, k =>
    let got := collectSweepables (4096 * 2 ^ k) (walks k) []
    if got.length < 4096 * 2 ^ k then some got else gather walks m (k + 1)

/-- The rows of the volume as they are now, as they were at the last fence, and the registry. -/
structure GcVol where
  row : Nat → Option Row
  durable : Nat → Option Row
  owner : Option (List Byte)

/-- What the rest of the volume answers to the pass. `arrays` is for how many arrays of inodes there is memory,
`row` and `recipe` tell for which inodes the reads succeed. -/
structure GcAnswers where
  load : RegAnswers
  writable : Bool
  walks : Nat → List Visit
  arrays : Nat
  row : Nat → Bool
  recipe : Nat → Bool
  marks : Bool
  store : RegAnswers

def marksOf (v : GcVol) (a : GcAnswers) (i : Nat) : List Nat :=
  match if a.row i then v.row i else none with
  | none => []
  | some row =>
    if row.type = .link then []
    else match row.blob with
      | .ast r =>
        if a.recipe i then (r.ents.filter fun e => e.zone = .text ∧ e.pba ≠ 0).map Entry.pba else []
      | _ => []

def keeps (live : List Nat) (e : RegEnt) : Bool :=
  live[bisect (fun m => decide (live[m]?.getD 0 < e.pba.toNat)) live.length 0 live.length]? =
    some e.pba.toNat

structure GcResult where
  ret : Int
  freed : List RegEnt
  owner : Option (List Byte)

def tzGc (v : GcVol) (a : GcAnswers) : GcResult :=
  match regLoad v.owner a.load with
  | none => ⟨-1, [], v.owner⟩
  | some reg =>
    if reg = [] ∨ ¬ a.writable then ⟨0, [], v.owner⟩
    else match gather a.walks a.arrays 0 with
      | none => ⟨-1, [], v.owner⟩
      | some ids =>
        if ¬ a.marks then ⟨-1, [], v.owner⟩
        else
          let live := (ids.flatMap (marksOf v a)).mergeSort
          let freed := reg.filter fun e => !keeps live e
          if freed = [] then ⟨0, [], v.owner⟩
          else match regStore (reg.filter (keeps live)) a.store with
            | none => ⟨-1, freed, v.owner⟩
            | some buf => ⟨freed.length, freed, some buf⟩

section Collect

variable {walks : Nat → List Visit}

theorem collectSweepables_eq (max : Nat) (xs : List Visit) (ids : List Nat) (h : ids.length ≤ max) :
    collectSweepables max xs ids = ids ++ ((xs.filter sweepable).map Visit.id).take (max - ids.length) := by
  induction xs generalizing ids with
  | nil => simp [collectSweepables]
  | cons x xs ih =>
    rw [collectSweepables]
    split_ifs with hs hfull
    · have hz : max - ids.length = 0 := by omega
      simp [hz]
    · have hlen : (ids ++ [x.id]).length ≤ max := by
        simp only [length_append, length_singleton]
        omega
      have hstep : max - ids.length = (max - (ids ++ [x.id]).length) + 1 := by
        simp only [length_append, length_singleton]
        omega
      rw [ih _ hlen, filter_cons_of_pos hs, map_cons, hstep, take_succ_cons]
      simp
    · rw [ih _ h, filter_cons_of_neg hs]

/-- Walk `k` is the first that does not fill its array. -/
def Settles (walks : Nat → List Visit) (k : Nat) : Prop :=
  (∀ j, j < k → 4096 * 2 ^ j ≤ ((walks j).filter sweepable).length) ∧
    ((walks k).filter sweepable).length < 4096 * 2 ^ k

theorem collect_length (k : Nat) : (collectSweepables (4096 * 2 ^ k) (walks k) []).length =
    min (4096 * 2 ^ k) ((walks k).filter sweepable).length := by
  rw [collectSweepables_eq _ _ _ (zero_le _)]
  simp

theorem gather_iff {m k : Nat} {ids : List Nat}
    (hbefore : ∀ j, j < k → 4096 * 2 ^ j ≤ ((walks j).filter sweepable).length) :
    gather walks m k = some ids ↔ ∃ k', k ≤ k' ∧ k' < k + m ∧ Settles walks k' ∧
      ids = ((walks k').filter sweepable).map Visit.id := by
  induction m generalizing k with
  | zero => exact iff_of_false (by simp [gather]) fun ⟨k', hle, hlt, _⟩ => by omega
  | succ m ih =>
    rw [gather]
    rw [collect_length]
    by_cases hlt : ((walks k).filter sweepable).length < 4096 * 2 ^ k
    · rw [if_pos (by omega), collectSweepables_eq _ _ _ (zero_le _), nil_append, take_of_length_le (by
        rw [length_map, length_nil]
        omega), Option.some.injEq]
      constructor
      · rintro rfl
        exact ⟨k, le_rfl, by omega, ⟨hbefore, hlt⟩, rfl⟩
      · rintro ⟨k', hle, -, hs, rfl⟩
        obtain rfl | hk := eq_or_lt_of_le hle
        · rfl
        · exact absurd (hs.1 k hk) (by omega)
    · rw [if_neg (by omega), ih fun j hj => by
        obtain hj | rfl := Nat.lt_or_eq_of_le (Nat.lt_succ_iff.mp hj)
        · exact hbefore j hj
        · omega]
      refine exists_congr fun k' => ⟨fun ⟨h₁, h₂, h⟩ => ⟨by omega, by omega, h⟩, fun ⟨h₁, h₂, h⟩ => ⟨?_, by omega, h⟩⟩
      obtain rfl | hk := eq_or_lt_of_le h₁
      · exact absurd h.1.2 hlt
      · exact hk

end Collect

section Frees

variable {v : GcVol} {a : GcAnswers}

def Named (v : GcVol) (pba : Nat) : Prop :=
  ∃ i row, (v.row i = some row ∨ v.durable i = some row) ∧ pba ∈ rowNames row

def Sees (v : GcVol) (a : GcAnswers) (x : Visit) (pba : Nat) : Prop :=
  sweepable x = true ∧ a.row x.id = true ∧ a.recipe x.id = true ∧
    ∃ row r, v.row x.id = some row ∧ row.type ≠ .link ∧ row.blob = .ast r ∧ pba ≠ 0 ∧
      pba ∈ textEnts r.ents

theorem mem_marksOf {i pba : Nat} : pba ∈ marksOf v a i ↔ a.row i = true ∧ a.recipe i = true ∧
      ∃ row r, v.row i = some row ∧ row.type ≠ .link ∧ row.blob = .ast r ∧ pba ≠ 0 ∧ pba ∈ textEnts r.ents := by
  unfold marksOf
  cases hread : a.row i with
  | false => simp
  | true =>
    cases hrow : v.row i with
    | none => simp
    | some row =>
      cases hblob : row.blob with
      | ast r =>
        have hmem : pba ∈ (r.ents.filter fun e => e.zone = .text ∧ e.pba ≠ 0).map Entry.pba ↔
            pba ≠ 0 ∧ pba ∈ textEnts r.ents := by
          simp only [textEnts, mem_map, mem_filter, decide_eq_true_eq]
          constructor
          · rintro ⟨e, ⟨he, ht, h0⟩, rfl⟩
            exact ⟨h0, e, ⟨he, ht⟩, rfl⟩
          · rintro ⟨h0, e, ⟨he, ht⟩, rfl⟩
            exact ⟨e, ⟨he, ht, h0⟩, rfl⟩
        by_cases hlink : row.type = .link
        · simp [hlink]
        · cases hload : a.recipe i with
          | false => simp [hblob]
          | true => simpa [hlink, hblob] using hmem
      | _ => simp [hblob]

variable {e : RegEnt}

theorem keeps_iff {live : List Nat} : keeps live.mergeSort e = true ↔ e.pba.toNat ∈ live := by
  have hs : live.mergeSort.Pairwise (· ≤ ·) := by
    have h : (live.mergeSort fun x y => decide (x ≤ y)).Pairwise fun x y => decide (x ≤ y) = true :=
      pairwise_mergeSort (by simp; omega) (by simp; omega) live
    simpa using h
  unfold keeps
  rw [decide_eq_true_iff, bisect_mem hs, mem_mergeSort]

theorem kept_iff {k : Nat} :
    keeps ((((a.walks k).filter sweepable).map Visit.id).flatMap (marksOf v a)).mergeSort e = true ↔
      ∃ x ∈ a.walks k, Sees v a x e.pba.toNat := by
  rw [keeps_iff, mem_flatMap]
  constructor
  · rintro ⟨i, hi, hmark⟩
    obtain ⟨x, hx, rfl⟩ := mem_map.mp hi
    obtain ⟨hmem, hs⟩ := mem_filter.mp hx
    obtain ⟨hread, hload, hrest⟩ := mem_marksOf.mp hmark
    exact ⟨x, hmem, hs, hread, hload, hrest⟩
  · rintro ⟨x, hx, hs, hread, hload, hrest⟩
    refine ⟨x.id, mem_map.mpr ⟨x, mem_filter.mpr ⟨hx, hs⟩, rfl⟩, ?_⟩
    exact mem_marksOf.mpr ⟨hread, hload, hrest⟩

theorem mem_freed : e ∈ (tzGc v a).freed ↔
    ∃ reg k, regLoad v.owner a.load = some reg ∧ a.writable = true ∧ a.marks = true ∧
      Settles a.walks k ∧ k < a.arrays ∧ e ∈ reg ∧ ¬ ∃ x ∈ a.walks k, Sees v a x e.pba.toNat := by
  constructor
  · intro h
    unfold tzGc at h
    split at h
    · simp at h
    next reg hload =>
      by_cases hstop : reg = [] ∨ ¬ a.writable
      · rw [if_pos hstop] at h
        simp at h
      rw [if_neg hstop] at h
      rw [not_or, not_not] at hstop
      split at h
      · simp at h
      next ids hids =>
        obtain ⟨k, -, hk, hset, rfl⟩ := (gather_iff (by simp)).mp hids
        by_cases hmarks : a.marks = true
        · rw [if_neg (by simp [hmarks])] at h
          have hfreed : e ∈ reg.filter fun e => !keeps
              ((((a.walks k).filter sweepable).map Visit.id).flatMap (marksOf v a)).mergeSort e := by
            dsimp only at h
            split_ifs at h
            · simp at h
            · split at h <;> exact h
          obtain ⟨hmem, hkeep⟩ := mem_filter.mp hfreed
          refine ⟨reg, k, hload, hstop.2, hmarks, hset, by omega, hmem, fun hsees => ?_⟩
          rw [kept_iff.mpr hsees] at hkeep
          simp at hkeep
        · rw [if_pos hmarks] at h
          simp at h
  · rintro ⟨reg, k, hload, hwrite, hmarks, hset, hk, hmem, hsees⟩
    have hkeep : keeps ((((a.walks k).filter sweepable).map Visit.id).flatMap
        (marksOf v a)).mergeSort e = false := by
      rw [← Bool.not_eq_true, kept_iff]
      exact hsees
    have hfreed : e ∈ reg.filter fun e => !keeps
        ((((a.walks k).filter sweepable).map Visit.id).flatMap (marksOf v a)).mergeSort e :=
      mem_filter.mpr ⟨hmem, by simp [hkeep]⟩
    have hne : ¬ (reg = [] ∨ ¬ a.writable) := by
      rintro (rfl | h)
      · simp at hmem
      · exact h hwrite
    unfold tzGc
    rw [hload]
    dsimp only
    rw [if_neg hne, (gather_iff (by simp)).mpr ⟨k, zero_le _, by omega, hset, rfl⟩]
    dsimp only
    rw [if_neg (by simp [hmarks]), if_neg (ne_nil_of_mem hfreed)]
    split <;> exact hfreed

end Frees

/-- The pass frees no batch that is named if and only if, in case it gets to the point where it
frees, its last walk has brought it to a current recipe for each of them. -/
theorem gc_frees_iff (v : GcVol) (a : GcAnswers) : (∀ e ∈ (tzGc v a).freed, ¬ Named v e.pba.toNat) ↔
    ∀ reg k, regLoad v.owner a.load = some reg → a.writable = true → a.marks = true →
      Settles a.walks k → k < a.arrays → ∀ e ∈ reg, Named v e.pba.toNat →
        ∃ x ∈ a.walks k, Sees v a x e.pba.toNat := by
  constructor
  · intro h reg k hload hwrite hmarks hset hk e he hnamed
    by_contra hsees
    exact h e (mem_freed.mpr ⟨reg, k, hload, hwrite, hmarks, hset, hk, he, hsees⟩) hnamed
  · intro h e he hnamed
    obtain ⟨reg, k, hload, hwrite, hmarks, hset, hk, hmem, hsees⟩ := mem_freed.mp he
    exact hsees (h reg k hload hwrite hmarks hset hk e hmem hnamed)

def gcYes : RegAnswers := ⟨true, true⟩

/-- A pass in which no call fails and whose walks deliver the visits `xs`. -/
def gcCalm (xs : List Visit) : GcAnswers :=
  ⟨gcYes, true, fun _ => xs, 1, fun _ => true, fun _ => true, true, gcYes⟩

def batchedRow : Row := ⟨.file, 4, .ast ⟨4, [⟨0, 4, .text, .ppmd, 1, 0, 9⟩], .none⟩, {}⟩

def batchNine : RegEnt := ⟨1, 2, 9, 1⟩

def gcVol (now durable : Option Row) : GcVol where
  row i := if i = 5 then now else none
  durable i := if i = 5 then durable else none
  owner := some (regBytes [batchNine])

/-- The batch of a live file is freed if its path has 256 bytes and every call succeeds, and if the walk fails
before it gets there. One that only the last durable version of a row names is freed as well. -/
theorem named_batch_freed : ∃ v w : GcVol, Named v 9 ∧ Named w 9 ∧ v.row 5 = some batchedRow ∧
      batchNine ∈ (tzGc v (gcCalm [⟨5, some (List.replicate 256 97)⟩])).freed ∧
      batchNine ∈ (tzGc v (gcCalm [])).freed ∧ batchNine ∈ (tzGc w (gcCalm [⟨5, some [97]⟩])).freed := by
  refine ⟨gcVol (some batchedRow) (some batchedRow), gcVol (some ⟨.file, 0, .zero, {}⟩) (some batchedRow),
    ⟨5, batchedRow, .inl rfl, by decide⟩, ⟨5, batchedRow, .inr rfl, by decide⟩, rfl, ?_, ?_, ?_⟩
  · decide +kernel
  · decide +kernel
  · decide +kernel

end InvariantFs.TextGc
