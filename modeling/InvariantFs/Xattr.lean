import InvariantFs.LinkCount

namespace InvariantFs.Xattr

open ByteCodec Fallible DeltaGroup Namespace NamespaceSpec LinkCount List Function Nat

def chunkData : Nat := 1024

def maxChunks : Nat := 130

def maxTotal : Nat := 64 * 1024

/-- `xattr_key` and, for the chunks after the first, `xattr_chunk_key` -/
def xattrKey (id : Nat) (name : Name) (idx : Nat) : Key :=
  .xattr id (wr16be name.length ++ name ++ if idx = 0 then [] else 0 :: wr16be idx)

/-- `xattr_inline_cap`: a page less its header, the lengths of the record, and the key. -/
def inlineCap (nlen : Nat) : Nat := 4096 - (20 + 4 + (11 + nlen))

/-- `xattr_chunk_cap`, and the bound the setter puts on it -/
def chunkCap (nlen : Nat) : Nat := min (inlineCap nlen - 3) chunkData

/-- The records of the setter's loop from chunk `idx` on, and the bytes it ends without. -/
def chunkPuts (id : Nat) (name : Name) : Nat → Nat → List Byte → List Change × List Byte
  | 0, _, val => ([], val)
  | fuel + 1, idx, val =>
    let c := (xattrKey id name idx, some (.blob (val.take (chunkCap name.length))))
    let rest := val.drop (chunkCap name.length)
    if rest = [] then ([c], []) else
      let r := chunkPuts id name fuel (idx + 1) rest
      (c :: r.1, r.2)

def shadowTail (id : Nat) (name : Name) : Nat → Nat → Act Ns Unit
  | 0, _ => pure ()
  | fuel + 1, idx => do
    let old ← read fun s => some (s.view (xattrKey id name idx))
    match old with
    | none => pure ()
    | some _ =>
      append (xattrKey id name idx, none)
      shadowTail id name fuel (idx + 1)

def xattrDeltaSet (id : Nat) (name : Name) (val : List Byte) : Act Ns Unit :=
  if name = [] ∨ maxName < name.length ∨ maxTotal < val.length ∨ chunkCap name.length = 0 then failure
  else do
    let r := chunkPuts id name (maxChunks + 1) 0 val
    appendAll r.1
    if r.2 ≠ [] then failure else shadowTail id name (maxChunks + 1 - r.1.length) r.1.length

/-- `vol_xattr_delta_del`: whether the attribute was there. -/
def xattrDeltaDel (id : Nat) (name : Name) : Act Ns Bool :=
  if name = [] ∨ maxName < name.length then failure
  else do
    let old ← read fun s => some (s.view (xattrKey id name 0))
    match old with
    | none => pure false
    | some _ =>
      append (xattrKey id name 0, none)
      shadowTail id name maxChunks 1
      pure true

inductive XErr where
  | inval
  | io
  | nodata
  | range
  deriving DecidableEq

def bytes : Val → List Byte
  | .blob b => b
  | _ => []

/-- The loop of `vol_xattr_get` over the chunks, from `idx` on. -/
def chain (g : View) (id : Nat) (name : Name) : Nat → Nat → List Byte → Except XErr (List Byte)
  | 0, _, acc => .ok acc
  | fuel + 1, idx, acc =>
    match g (xattrKey id name idx) with
    | none => if idx = 0 then .error .nodata else .ok acc
    | some v =>
      if chunkData + 1 < (bytes v).length ∨ maxTotal < acc.length + (bytes v).length then .error .io
      else chain g id name fuel (idx + 1) (acc ++ bytes v)

/-- `vol_xattr_get`: the length and what is copied out. A buffer of no bytes asks for the length only. -/
def xattrGet (g : View) (id : Nat) (name : Name) (vlen : Nat) : Except XErr (Nat × List Byte) :=
  if name = [] ∨ maxName < name.length then .error .inval
  else match chain g id name (maxChunks + 1) 0 [] with
    | .error e => .error e
    | .ok val =>
      if vlen = 0 then .ok (val.length, []) else if vlen < val.length then .error .range else .ok (val.length, val)

section

variable {id id' : Nat} {name name' : Name} {i j : Nat}

theorem wr16be_inj (hi : i < 2 ^ 16) (hj : j < 2 ^ 16) (h : wr16be i = wr16be j) : i = j := by
  obtain ⟨ha, hrest⟩ := List.cons.inj h
  rw [← rd16be_wr16be hi, ← rd16be_wr16be hj, ha, (List.cons.inj hrest).1]

theorem xattrKey_name (hn : name.length ≤ maxName) (hn' : name'.length ≤ maxName)
    (h : xattrKey id name i = xattrKey id' name' j) : id = id' ∧ name = name' := by
  obtain ⟨rfl, hkey⟩ := Key.xattr.inj h
  rw [append_assoc, append_assoc] at hkey
  obtain ⟨hlen, hrest⟩ := append_inj hkey rfl
  have hbound : maxName < 2 ^ 16 := by decide
  exact ⟨rfl, (append_inj hrest (wr16be_inj (by omega) (by omega) hlen)).1⟩

theorem xattrKey_idx (hi : i < 2 ^ 16) (hj : j < 2 ^ 16) (h : xattrKey id name i = xattrKey id name j) : i = j := by
  have htail := append_cancel_left (Key.xattr.inj h).2
  split_ifs at htail with h0 h1 h1
  · omega
  · exact wr16be_inj hi hj (List.cons.inj htail).2

variable {f : Nat → Option Val} {g : View} {n m : Nat}

/-- The records of chunks `0 .. n-1`. -/
def chunks (id : Nat) (name : Name) (f : Nat → Option Val) (n : Nat) : List Change :=
  (range n).map fun i => (xattrKey id name i, f i)

theorem view_chunks (hn : n ≤ 2 ^ 16) (hi : i < 2 ^ 16) :
    replay g (chunks id name f n) (xattrKey id name i) = if i < n then f i else g (xattrKey id name i) := by
  induction n with
  | zero => rfl
  | succ n ih =>
    rw [chunks, range_succ, map_append, replay_append]
    change update _ _ _ _ = _
    by_cases h : i = n
    · rw [h, update_self, if_pos (lt_succ_self n)]
    · rw [update_of_ne fun e => h (xattrKey_idx hi (by omega) e)]
      refine (ih (by omega)).trans (if_congr (by omega) rfl rfl)

end

def count (val : List Byte) : Nat := max 1 ((val.length + 1023) / chunkData)

def slot (val : List Byte) (i : Nat) : List Byte := (val.drop (i * chunkData)).take chunkData

/-- What the setter leaves in chunk `i`, where the old value had as many chunks. -/
def setTo (val : List Byte) (i : Nat) : Option Val := if i < count val then some (.blob (slot val i)) else none

section

variable {id : Nat} {name : Name} {val : List Byte} {s t : Ns} {g : View}

theorem flatMap_slot (n : Nat) : (range n).flatMap (slot val) = val.take (n * chunkData) := by
  induction n with
  | zero => simp
  | succ n ih => rw [range_succ, flatMap_append, ih, succ_mul, take_add, flatMap_singleton, slot]

theorem count_pos (val : List Byte) : 0 < count val := lt_of_lt_of_le one_pos (le_max_left _ _)

theorem le_count (val : List Byte) : val.length ≤ count val * chunkData := by
  unfold count chunkData
  omega

theorem count_le (h : val.length ≤ maxTotal) : count val ≤ 64 := by
  unfold count chunkData maxTotal at *
  omega

theorem chunkPuts_eq (hname : name.length ≤ maxName) {fuel : Nat} (hfuel : 0 < fuel) (idx : Nat)
    (h : val.length ≤ fuel * chunkData) : chunkPuts id name fuel idx val =
      ((range (count val)).map fun i => (xattrKey id name (idx + i), some (.blob (slot val i))), []) := by
  have hcap : chunkCap name.length = chunkData := by
    unfold chunkCap inlineCap chunkData maxName at *
    omega
  induction fuel generalizing idx val with
  | zero => cases hfuel
  | succ fuel ih =>
    have hlen : (val.drop chunkData).length = val.length - chunkData := length_drop
    rw [chunkPuts, hcap]
    split_ifs with hrest
    · have hone : count val = 1 := by
        rw [hrest, length_nil] at hlen
        unfold count chunkData at *
        omega
      rw [hone]
      simp [slot]
    · have hmore : count val = count (val.drop chunkData) + 1 := by
        have := length_pos_iff.mpr hrest
        unfold count chunkData at *
        omega
      have hpos := length_pos_iff.mpr hrest
      rw [ih (pos_of_ne_zero fun h0 => by rw [h0] at h; omega) _ (by rw [succ_mul] at h; omega), hmore,
        range_succ_eq_map, map_cons, map_map]
      refine Prod.ext (congrArg₂ List.cons (by simp [slot]) (map_congr_left fun i _ => ?_)) rfl
      simp only [comp_apply, slot, drop_drop, succ_mul, succ_eq_add_one, add_comm, add_left_comm]

theorem shadowTail_some {fuel idx : Nat} (h : runs (shadowTail id name fuel idx) s = (some (), t)) :
    ∃ n ≤ fuel, Wrote s t ((range n).map fun i => (xattrKey id name (idx + i), none)) ∧
      (n = 0 → fuel = 0 ∨ s.view (xattrKey id name idx) = none) := by
  induction fuel generalizing s idx with
  | zero =>
    obtain ⟨-, rfl⟩ := ended h
    exact ⟨0, le_rfl, wrote_same (same_refl s), fun _ => .inl rfl⟩
  | succ fuel ih =>
    obtain ⟨o, s1, hread, hrest⟩ := bind_some.mp h
    obtain ⟨ho, hs⟩ := read_some hread
    cases o with
    | none =>
      obtain ⟨-, rfl⟩ := ended hrest
      exact ⟨0, zero_le _, wrote_same hs, fun _ => .inr (Option.some.inj ho)⟩
    | some v =>
      obtain ⟨_, s2, happend, htail⟩ := bind_some.mp hrest
      obtain ⟨n, hn, w, -⟩ := ih htail
      refine ⟨n + 1, succ_le_succ hn, ?_, nofun⟩
      convert wrote_after hs (wrote_trans (append_some happend) w) using 1
      rw [range_succ_eq_map, map_cons, map_map]
      exact congrArg (_ :: ·) (map_congr_left fun i _ => by rw [comp_apply, succ_eq_one_add, add_assoc])

theorem xattrDeltaSet_some (h : runs (xattrDeltaSet id name val) s = (some (), t)) :
    name ≠ [] ∧ name.length ≤ maxName ∧ val.length ≤ maxTotal ∧ ∃ n, count val + n ≤ maxChunks + 1 ∧
      Wrote s t (chunks id name (setTo val) (count val + n)) ∧
        (n = 0 → s.view (xattrKey id name (count val)) = none) := by
  unfold xattrDeltaSet at h
  split_ifs at h with hbad
  · cases h
  simp only [not_or, not_lt] at hbad
  obtain ⟨hne, hname, hval, -⟩ := hbad
  have hcount := count_le hval
  rw [chunkPuts_eq hname (succ_pos _) 0 (by unfold maxTotal maxChunks chunkData at *; omega)] at h
  obtain ⟨_, s1, hputs, htail⟩ := bind_some.mp h
  rw [if_neg (by simp), length_map, length_range] at htail
  obtain ⟨n, hn, w, hzero⟩ := shadowTail_some htail
  have hw : Wrote s s1 (chunks id name (setTo val) (count val)) := by
    convert appendAll_some hputs using 1
    refine map_congr_left fun i hi => ?_
    rw [setTo, if_pos (mem_range.mp hi), zero_add]
  refine ⟨hne, hname, hval, n, by unfold maxChunks at *; omega, ?_, fun h0 => ?_⟩
  · convert wrote_trans hw w using 1
    rw [chunks, range_add, map_append, map_map]
    refine congrArg (_ ++ ·) (map_congr_left fun i _ => ?_)
    rw [comp_apply, setTo, if_neg (by omega)]
  · obtain hfull | hnone := hzero h0
    · unfold maxChunks at hfull
      omega
    · rwa [hw.view, view_chunks (by omega) (by omega), if_neg (lt_irrefl _)] at hnone

theorem xattrDeltaDel_some {b : Bool} (h : runs (xattrDeltaDel id name) s = (some b, t)) :
    name ≠ [] ∧ name.length ≤ maxName ∧ ∃ n ≤ maxChunks + 1, Wrote s t (chunks id name (fun _ => none) n) ∧
      (n = 0 → s.view (xattrKey id name 0) = none) := by
  unfold xattrDeltaDel at h
  split_ifs at h with hbad
  · cases h
  rw [not_or, not_lt] at hbad
  refine ⟨hbad.1, hbad.2, ?_⟩
  obtain ⟨o, s1, hread, hrest⟩ := bind_some.mp h
  obtain ⟨ho, hs⟩ := read_some hread
  cases o with
  | none =>
    obtain ⟨-, rfl⟩ := ended hrest
    exact ⟨0, zero_le _, wrote_same hs, fun _ => Option.some.inj ho⟩
  | some v =>
    obtain ⟨_, s2, happend, hrest⟩ := bind_some.mp hrest
    obtain ⟨_, s3, htail, hend⟩ := bind_some.mp hrest
    obtain ⟨-, rfl⟩ := ended hend
    obtain ⟨n, hn, w, -⟩ := shadowTail_some htail
    refine ⟨n + 1, succ_le_succ hn, ?_, nofun⟩
    convert wrote_after hs (wrote_trans (append_some happend) w) using 1
    rw [chunks, range_succ_eq_map, map_cons, map_map]
    exact congrArg (_ :: ·) (map_congr_left fun i _ => by rw [comp_apply, succ_eq_one_add])

theorem chain_reads {f : Nat → List Byte} {n fuel : Nat} (idx : Nat) (acc : List Byte) (hn : n ≤ fuel)
    (hf : ∀ i < n, g (xattrKey id name (idx + i)) = some (.blob (f i)) ∧ (f i).length ≤ chunkData)
    (hend : g (xattrKey id name (idx + n)) = none) (hidx : idx + n ≠ 0)
    (htotal : (acc ++ (range n).flatMap f).length ≤ maxTotal) :
    chain g id name fuel idx acc = .ok (acc ++ (range n).flatMap f) := by
  induction n generalizing f fuel idx acc with
  | zero =>
    cases fuel with
    | zero => simp [chain]
    | succ fuel => simp [chain, show g (xattrKey id name idx) = none from hend, show idx ≠ 0 from hidx]
  | succ n ih =>
    obtain ⟨fuel, rfl⟩ : ∃ k, fuel = k + 1 := ⟨fuel - 1, by omega⟩
    obtain ⟨hkey, hlen⟩ := hf 0 (succ_pos n)
    rw [range_succ_eq_map, flatMap_cons, flatMap_map, ← append_assoc] at htotal ⊢
    have hfit := htotal
    rw [length_append, length_append] at hfit
    rw [chain, show g (xattrKey id name idx) = _ from hkey]
    refine (if_neg (by simp only [bytes]; omega)).trans ?_
    refine ih (idx + 1) _ (le_of_succ_le_succ hn) (fun i hi => ?_) ?_ (by omega) htotal
    · rw [show idx + 1 + i = idx + (i + 1) by omega]
      exact hf (i + 1) (succ_lt_succ hi)
    · rwa [show idx + 1 + n = idx + (n + 1) by omega]

variable {n : Nat}

theorem slot_length (i : Nat) : (slot val i).length ≤ chunkData := length_take_le _ _

theorem chain_set (hval : val.length ≤ maxTotal) (hn : count val ≤ n) (hmax : n ≤ maxChunks + 1)
    (hend : n = count val → g (xattrKey id name n) = none) :
    chain (replay g (chunks id name (setTo val) n)) id name (maxChunks + 1) 0 [] = .ok val := by
  have hall : (range (count val)).flatMap (slot val) = val :=
    (flatMap_slot _).trans (take_of_length_le (le_count val))
  unfold maxChunks at *
  refine (chain_reads (f := slot val) (n := count val) 0 [] (by omega) (fun i hi => ⟨?_, slot_length i⟩) ?_
    (Nat.add_pos_right 0 (count_pos val)).ne' (by simpa [hall])).trans (congrArg Except.ok hall)
  · rw [zero_add, view_chunks (by omega) (by omega), if_pos (by omega), setTo, if_pos hi]
  · rw [zero_add, view_chunks (by omega) (by omega)]
    split_ifs with h
    · rw [setTo, if_neg (lt_irrefl _)]
    · obtain rfl : n = count val := by omega
      exact hend rfl

theorem xattrGet_ok {vlen : Nat} (hname : name ≠ [] ∧ name.length ≤ maxName) (hv : vlen = 0 ∨ val.length ≤ vlen)
    (h : chain g id name (maxChunks + 1) 0 [] = .ok val) :
    xattrGet g id name vlen = .ok (val.length, if vlen = 0 then [] else val) := by
  rw [xattrGet, if_neg (by simpa using hname), h]
  change ite _ _ _ = _
  split_ifs with h0 h1
  · rfl
  · omega
  · rfl

theorem xattrGet_frame {id' vlen : Nat} {name' : Name} {f : Nat → Option Val} (hname : name.length ≤ maxName)
    (hne : (id', name') ≠ (id, name)) :
    xattrGet (replay g (chunks id name f n)) id' name' vlen = xattrGet g id' name' vlen := by
  by_cases hbad : name' = [] ∨ maxName < name'.length
  · rw [xattrGet, xattrGet, if_pos hbad, if_pos hbad]
  have hname' := not_lt.mp (not_or.mp hbad).2
  have hkeep (i : Nat) : replay g (chunks id name f n) (xattrKey id' name' i) = g (xattrKey id' name' i) := by
    refine replay_notMem fun c hc e => hne ?_
    obtain ⟨j, -, rfl⟩ := mem_map.mp hc
    obtain ⟨rfl, rfl⟩ := xattrKey_name hname' hname e
    rfl
  have hchain (fuel idx : Nat) (acc : List Byte) :
      chain (replay g (chunks id name f n)) id' name' fuel idx acc = chain g id' name' fuel idx acc := by
    induction fuel generalizing idx acc with
    | zero => rfl
    | succ fuel ih => simp only [chain, hkeep, ih]
  rw [xattrGet, xattrGet, hchain]

/-- A writable volume whose device answers every lookup and takes the next `n` records. -/
structure Serves (s : Ns) (n : Nat) : Prop where
  writable : s.readonly = false
  reads : ∀ b ∈ s.reads, b = true
  enough : n ≤ s.replies.length
  replies : ∀ a ∈ s.replies.take n, a.Served

section

variable {n : Nat}

theorem serves_read {α : Type} (h : Serves s n) (f : Ns → Option α) :
    (runs (read f) s).1 = f s ∧ Serves (runs (read f) s).2 n := by
  refine ⟨?_, h.writable, fun b hb => h.reads b (mem_of_mem_tail hb), h.enough, h.replies⟩
  change (if s.reads.headD true then f s else none) = f s
  cases hr : s.reads with
  | nil => rfl
  | cons b bs =>
    obtain rfl := h.reads b (hr ▸ mem_cons_self)
    rfl

theorem serves_append {c : Change} (h : Serves s (n + 1))
    (hsize : c.size ≤ DeltaSegment.segBytes - DeltaSegment.segHdrLen) :
    (runs (append c) s).1 = some () ∧ Serves (runs (append c) s).2 n := by
  have henough := h.enough
  obtain ⟨a, as, hr⟩ : ∃ a as, s.replies = a :: as := exists_cons_of_length_pos (by omega)
  have hgood := h.replies
  rw [hr, take_succ_cons] at hgood
  have hok : (runs (append c) s).1 = some () := by
    refine append_takes.mpr ⟨h.writable, takes_of_served ?_ _ hsize⟩
    rw [hr]
    exact hgood a mem_cons_self
  rw [hr, length_cons] at henough
  refine ⟨hok, ?_⟩
  rw [append, runs_act, if_neg (by simp [h.writable])]
  refine ⟨h.writable, h.reads, ?_, ?_⟩
  · change n ≤ s.replies.tail.length
    rw [hr, tail_cons]
    omega
  · change ∀ a ∈ s.replies.tail.take n, a.Served
    rw [hr, tail_cons]
    exact fun b hb => hgood b (mem_cons_of_mem _ hb)

theorem size_xattr (hname : name.length ≤ maxName) (id idx : Nat) {o : Option Val}
    (ho : (o.map Val.len).getD 0 ≤ chunkData) :
    Change.size (xattrKey id name idx, o) ≤ DeltaSegment.segBytes - DeltaSegment.segHdrLen := by
  have hkey : (xattrKey id name idx).len ≤ 9 + (2 + name.length + 3) := by
    unfold xattrKey Key.len
    split_ifs <;> simp [wr16be] <;> omega
  have hseg : DeltaSegment.segBytes - DeltaSegment.segHdrLen = 131028 := by decide
  rw [hseg]
  unfold Change.size DeltaRecord.recHdrLen chunkData maxName at *
  dsimp only
  omega

theorem serves_appendAll {cs : List Change} (h : Serves s (cs.length + n))
    (hsize : ∀ c ∈ cs, c.size ≤ DeltaSegment.segBytes - DeltaSegment.segHdrLen) :
    (runs (appendAll cs) s).1 = some () ∧ Serves (runs (appendAll cs) s).2 n := by
  induction cs generalizing s with
  | nil =>
    rw [length_nil, Nat.zero_add] at h
    exact ⟨rfl, h⟩
  | cons c cs ih =>
    rw [length_cons, add_right_comm] at h
    obtain ⟨hok, hs⟩ := serves_append h (hsize c mem_cons_self)
    obtain ⟨hrest, hs'⟩ := ih hs fun c hc => hsize c (mem_cons_of_mem _ hc)
    have hrun : runs (appendAll (c :: cs)) s = runs (appendAll cs) (runs (append c) s).2 := by
      rw [appendAll, runs_bind]
      generalize runs (append c) s = r at hok
      obtain ⟨o, u⟩ := r
      obtain rfl : o = some () := hok
      rfl
    rw [hrun]
    exact ⟨hrest, hs'⟩

theorem serves_shadowTail {fuel : Nat} (id idx : Nat) (hname : name.length ≤ maxName) (h : Serves s fuel) :
    (runs (shadowTail id name fuel idx) s).1 = some () := by
  induction fuel generalizing s idx with
  | zero => rfl
  | succ fuel ih =>
    obtain ⟨hread, hs⟩ := serves_read h fun s => some (s.view (xattrKey id name idx))
    rw [shadowTail, runs_bind]
    generalize runs (read fun s => some (s.view (xattrKey id name idx))) s = r at hread hs ⊢
    obtain ⟨o, u⟩ := r
    obtain rfl : o = _ := hread
    dsimp only at hs ⊢
    cases s.view (xattrKey id name idx) with
    | none => rfl
    | some v =>
      obtain ⟨hok, hs⟩ := serves_append hs (size_xattr hname id idx (o := none) (Nat.zero_le _))
      change (runs (append _ >>= _) u).1 = _
      rw [runs_bind]
      generalize runs (append (xattrKey id name idx, none)) u = r at hok hs ⊢
      obtain ⟨o, w⟩ := r
      obtain rfl : o = some () := hok
      exact ih _ hs

/-- A device that answers lets the setter store every value it accepts. -/
theorem xattrDeltaSet_served (hne : name ≠ []) (hname : name.length ≤ maxName) (hval : val.length ≤ maxTotal)
    (h : Serves s (maxChunks + 1)) : (runs (xattrDeltaSet id name val) s).1 = some () := by
  have hcount := count_le hval
  have hcap : chunkCap name.length ≠ 0 := by
    unfold chunkCap inlineCap chunkData maxName at *
    omega
  unfold xattrDeltaSet
  rw [if_neg (by simp [hne, hname, hval, hcap])]
  rw [chunkPuts_eq hname (succ_pos _) 0 (by unfold maxTotal maxChunks chunkData at *; omega)]
  dsimp only
  rw [length_map, length_range, if_neg (by simp)]
  set cs := (range (count val)).map fun i => (xattrKey id name (0 + i), some (Val.blob (slot val i)))
  have hlen : cs.length + (maxChunks + 1 - count val) = maxChunks + 1 := by
    rw [length_map, length_range]
    unfold maxChunks
    omega
  obtain ⟨hok, hs⟩ := serves_appendAll (hlen ▸ h : Serves s (cs.length + _)) fun c hc => by
    obtain ⟨i, -, rfl⟩ := mem_map.mp hc
    exact size_xattr hname id _ (slot_length i)
  rw [runs_bind]
  generalize runs (appendAll cs) s = r at hok hs ⊢
  obtain ⟨o, u⟩ := r
  obtain rfl : o = some () := hok
  exact serves_shadowTail id _ hname hs

theorem xattrDeltaDel_served (hne : name ≠ []) (hname : name.length ≤ maxName) (h : Serves s (maxChunks + 1)) :
    (runs (xattrDeltaDel id name) s).1 = some (s.view (xattrKey id name 0)).isSome := by
  obtain ⟨hread, hs⟩ := serves_read h fun s => some (s.view (xattrKey id name 0))
  unfold xattrDeltaDel
  rw [if_neg (by simp [hne, hname]), runs_bind]
  generalize runs (read fun s => some (s.view (xattrKey id name 0))) s = r at hread hs ⊢
  obtain ⟨o, u⟩ := r
  obtain rfl : o = _ := hread
  dsimp only at hs ⊢
  cases s.view (xattrKey id name 0) with
  | none => rfl
  | some v =>
    obtain ⟨hok, hs⟩ := serves_append hs (size_xattr hname id 0 (o := none) (Nat.zero_le _))
    have htail := serves_shadowTail id 1 hname hs
    change (runs (append _ >>= _) u).1 = _
    rw [runs_bind]
    generalize runs (append (xattrKey id name 0, none)) u = r at hok hs htail ⊢
    obtain ⟨o, w⟩ := r
    obtain rfl : o = some () := hok
    dsimp only at htail ⊢
    rw [runs_bind]
    generalize runs (shadowTail id name maxChunks 1) w = r at htail ⊢
    obtain ⟨o, z⟩ := r
    obtain rfl : o = some () := htail
    rfl

end

/-- An attribute that has been set reads back, one that has been removed is gone, and the attributes under
other names and numbers read as before. On a device that answers, both calls succeed. -/
theorem xattr_set_del_get (s t : Ns) (id : Nat) (name : Name) :
    (∀ val, runs (xattrDeltaSet id name val) s = (some (), t) → ∀ vlen, vlen = 0 ∨ val.length ≤ vlen →
      xattrGet t.view id name vlen = .ok (val.length, if vlen = 0 then [] else val)) ∧
    (∀ b, runs (xattrDeltaDel id name) s = (some b, t) → ∀ vlen, xattrGet t.view id name vlen = .error .nodata) ∧
    ((∃ val, runs (xattrDeltaSet id name val) s = (some (), t)) ∨
      (∃ b, runs (xattrDeltaDel id name) s = (some b, t)) →
      ∀ id' name', (id', name') ≠ (id, name) → ∀ vlen,
        xattrGet t.view id' name' vlen = xattrGet s.view id' name' vlen) ∧
    (Serves s (maxChunks + 1) → name ≠ [] → name.length ≤ maxName →
      (∀ val, val.length ≤ maxTotal → (runs (xattrDeltaSet id name val) s).1 = some ()) ∧
      (runs (xattrDeltaDel id name) s).1 = some (s.view (xattrKey id name 0)).isSome) := by
  refine ⟨fun val h vlen hv => ?_, fun b h vlen => ?_, ?_, fun h hne hname =>
    ⟨fun val hval => xattrDeltaSet_served hne hname hval h, xattrDeltaDel_served hne hname h⟩⟩
  · obtain ⟨hne, hname, hval, n, hn, w, hzero⟩ := xattrDeltaSet_some h
    refine xattrGet_ok ⟨hne, hname⟩ hv (w.view ▸ chain_set hval (le_add_right _ _) hn fun h0 => ?_)
    rw [h0]
    exact hzero (by omega)
  · obtain ⟨hne, hname, n, hn, w, hzero⟩ := xattrDeltaDel_some h
    have hgone : t.view (xattrKey id name 0) = none := by
      rw [w.view, view_chunks (hn.trans (by decide)) (by decide)]
      split_ifs with h0
      · rfl
      · exact hzero (by omega)
    simp [xattrGet, hne, hname, chain, hgone]
  · rintro (⟨val, h⟩ | ⟨b, h⟩) id' name' hne vlen
    · obtain ⟨-, hname, -, n, -, w, -⟩ := xattrDeltaSet_some h
      exact w.view ▸ xattrGet_frame hname hne
    · obtain ⟨-, hname, n, -, w, -⟩ := xattrDeltaDel_some h
      exact w.view ▸ xattrGet_frame hname hne

def settled : Ns where
  readonly := false
  lazyReclaim := true
  tier := ⟨100, DeltaSegment.segHdrLen, 1000, 100000, DeltaIndex.Ram.empty⟩
  base := (AList.insert (.dirent rootIno [0x61]) (.child 2)
    (AList.insert (.row 2) (.row { Row.zero with nlink := 1 }) ∅) :
    AList fun _ : Key => Val)
  store := .empty
  log := []
  recovered := false
  nextId := 0
  reads := []
  replies := []

def tagged : Ns := (runs (xattrDeltaSet 2 [0x61] [7]) settled).2

/-- An attribute of two chunks, on a device that answers. -/
def long : Ns :=
  { (runs (xattrDeltaSet 2 [0x61] (replicate 1025 0)) settled).2 with
    replies := replicate 131 ⟨true, some 200, true, true, true, true⟩ }

/-- A delete of a value of two chunks, and a set of a shorter one over it. -/
theorem xattr_set_del_get_long : (runs (xattrDeltaDel 2 [0x61]) long).1 = some true ∧
      xattrGet (runs (xattrDeltaDel 2 [0x61]) long).2.view 2 [0x61] 5 = .error .nodata ∧
      xattrGet (runs (xattrDeltaSet 2 [0x61] [8]) long).2.view 2 [0x61] 5 = .ok (1, [8]) := by
  have hserves : Serves long (maxChunks + 1) := by
    refine ⟨?_, ?_, ?_, ?_⟩ <;> decide +kernel
  have hthere : (long.view (xattrKey 2 [0x61] 0)).isSome = true := by decide +kernel
  obtain ⟨-, hgone, -, hserved⟩ := xattr_set_del_get long (runs (xattrDeltaDel 2 [0x61]) long).2 2 [0x61]
  obtain ⟨hget, -⟩ := xattr_set_del_get long (runs (xattrDeltaSet 2 [0x61] [8]) long).2 2 [0x61]
  obtain ⟨hset, hdel⟩ := hserved hserves (by decide) (by decide)
  rw [hthere] at hdel
  exact ⟨hdel, hgone true (runs_fst hdel) 5, hget [8] (runs_fst (hset [8] (by decide))) 5 (.inr (by decide))⟩

def Stored (g : View) (id : Nat) (name : Name) (val : List Byte) : Prop :=
  ∀ i ≤ maxChunks, g (xattrKey id name i) = setTo val i

/-- What a reader gets once the first `m` chunks of the new value are in place of the old ones. -/
def mixed (old new : List Byte) (m : Nat) : List Byte := new.take (m * chunkData) ++ old.drop (m * chunkData)

variable {old new : List Byte} {m : Nat}

theorem flatMap_mixed (hm : m ≤ n) (hn : count old ≤ n) :
    (range n).flatMap (fun i => if i < m then slot new i else slot old i) = mixed old new m := by
  obtain ⟨d, rfl⟩ := Nat.exists_eq_add_of_le hm
  rw [range_add, flatMap_append, flatMap_map]
  refine congrArg₂ (· ++ ·) ?_ ?_
  · rw [← flatMap_slot]
    exact flatMap_congr fun i hi => if_pos (mem_range.mp hi)
  · have hlen : (old.drop (m * chunkData)).length ≤ d * chunkData := by
      have := (le_count old).trans (mul_le_mul_right chunkData hn)
      rw [add_mul] at this
      rw [length_drop]
      omega
    rw [← take_of_length_le hlen, ← flatMap_slot]
    refine flatMap_congr fun i _ => ?_
    rw [if_neg (by omega), slot, slot, drop_drop, add_mul]

theorem length_mixed (ho : old.length ≤ maxTotal) (hnew : new.length ≤ maxTotal) :
    (mixed old new m).length ≤ maxTotal := by
  rw [mixed, length_append, length_take, length_drop]
  omega

theorem chain_mixed (hold : Stored g id name old) (ho : old.length ≤ maxTotal) (hnew : new.length ≤ maxTotal)
    (hm : m ≤ count new) : chain (replay g (chunks id name (setTo new) m)) id name (maxChunks + 1) 0 [] =
      .ok (mixed old new m) := by
  have hco := count_le ho
  have hcn := count_le hnew
  have hflat : (range (max m (count old))).flatMap (fun i => if i < m then slot new i else slot old i) =
      mixed old new m := flatMap_mixed (le_max_left _ _) (le_max_right _ _)
  have hview {i : Nat} (hi : i ≤ maxChunks) :
      replay g (chunks id name (setTo new) m) (xattrKey id name i) = if i < m then setTo new i else setTo old i := by
    unfold maxChunks at hi
    rw [view_chunks (by omega) (by omega), hold i hi]
  have hpos := count_pos old
  unfold maxChunks at *
  refine (chain_reads (f := fun i => if i < m then slot new i else slot old i) 0 [] (by omega) (fun i hi => ?_) ?_
    (by omega) ?_).trans (congrArg Except.ok hflat)
  · rw [zero_add, hview (by omega)]
    split_ifs with h
    · exact ⟨if_pos (by omega), slot_length i⟩
    · exact ⟨if_pos (by omega), slot_length i⟩
  · rw [zero_add, hview (by omega), if_neg (by omega)]
    exact if_neg (by omega)
  · rw [hflat]
    exact length_mixed ho hnew

def OneChunk (old new : List Byte) : Prop :=
  (∃ i, old.take (i * chunkData) = new.take (i * chunkData) ∧
    old.drop ((i + 1) * chunkData) = new.drop ((i + 1) * chunkData)) ∨ ∃ k > 0, new = old.take (k * chunkData)

theorem mixed_old_iff : mixed old new m = old ↔ new.take (m * chunkData) = old.take (m * chunkData) := by
  conv_lhs => rhs; rw [← take_append_drop (m * chunkData) old]
  exact append_left_inj _

theorem mixed_new_iff : mixed old new m = new ↔ old.drop (m * chunkData) = new.drop (m * chunkData) := by
  conv_lhs => rhs; rw [← take_append_drop (m * chunkData) new]
  exact append_right_inj _

theorem mixed_iff : (∀ m ≤ count new, mixed old new m = old ∨ mixed old new m = new) ↔ OneChunk old new := by
  simp only [mixed_old_iff, mixed_new_iff]
  refine ⟨fun h => ?_, ?_⟩
  · by_cases hall : new.take (count new * chunkData) = old.take (count new * chunkData)
    · rw [take_of_length_le (le_count new)] at hall
      exact .inr ⟨count new, count_pos new, hall⟩
    · -- the first chunk that changes the value makes it the new one
      have hex : ∃ m, m ≤ count new ∧ new.take (m * chunkData) ≠ old.take (m * chunkData) := ⟨_, le_rfl, hall⟩
      obtain ⟨hm, hne⟩ := Nat.find_spec hex
      obtain ⟨i, hi⟩ : ∃ i, Nat.find hex = i + 1 := Nat.exists_eq_succ_of_ne_zero fun h0 => by simp [h0] at hne
      refine .inl ⟨i, ?_, hi ▸ (h _ hm).resolve_left hne⟩
      by_contra hbefore
      exact Nat.find_min hex (m := i) (by omega) ⟨by omega, Ne.symm hbefore⟩
  · rintro (⟨i, htake, hdrop⟩ | ⟨k, hk, rfl⟩) m hm
    · obtain hmi | hmi := Nat.lt_or_ge i m
      · refine .inr ?_
        obtain ⟨d, rfl⟩ := Nat.exists_eq_add_of_le (Nat.succ_le_of_lt hmi)
        simpa [Nat.add_mul, Nat.succ_eq_add_one, drop_drop] using congrArg (List.drop (d * chunkData)) hdrop
      · have := congrArg (List.take (m * chunkData)) htake
        rw [take_take, take_take, min_eq_left (Nat.mul_le_mul_right _ hmi)] at this
        exact .inl this.symm
    · refine .inl ?_
      rw [take_take]
      obtain hmk | hmk := lt_or_ge k m
      · -- the cut is past the end of the old value
        have hshort : old.length ≤ k * chunkData := by
          by_contra hlong
          have hlen : (old.take (k * chunkData)).length = k * chunkData := length_take_of_le (by omega)
          rw [count] at hm
          unfold chunkData at *
          omega
        have hmul := mul_le_mul_right chunkData hmk.le
        rw [min_eq_right hmul, take_of_length_le hshort, take_of_length_le (hshort.trans hmul)]
      · rw [min_eq_left (mul_le_mul_right _ hmk)]

theorem take_chunks {f : Nat → Option Val} (k : Nat) : (chunks id name f n).take k = chunks id name f (min k n) := by
  rw [chunks, ← map_take, take_range, chunks]

/-- A replacement cut off anywhere leaves the old value or the new one just where they differ in one chunk, or
the new one is the old one cut after a chunk. -/
theorem set_prefix_iff {cs : List Change} (hold : Stored s.view id name old) (ho : old.length ≤ maxTotal)
    (h : runs (xattrDeltaSet id name new) s = (some (), t)) (hcs : t.log = s.log ++ cs) :
    (∀ pre, pre <+: cs → xattrGet (replay s.view pre) id name maxTotal = .ok (old.length, old) ∨
      xattrGet (replay s.view pre) id name maxTotal = .ok (new.length, new)) ↔ OneChunk old new := by
  obtain ⟨hne, hname, hnew, n, hn, w, -⟩ := xattrDeltaSet_some h
  obtain rfl : cs = chunks id name (setTo new) (count new + n) := append_cancel_left (hcs.symm.trans w.log)
  have hget {g : View} {v : List Byte} (x : List Byte) (hv : v.length ≤ maxTotal)
      (hc : chain g id name (maxChunks + 1) 0 [] = .ok v) :
      xattrGet g id name maxTotal = .ok (x.length, x) ↔ v = x := by
    rw [xattrGet_ok ⟨hne, hname⟩ (.inr hv) hc, Except.ok.injEq, Prod.mk.injEq]
    exact ⟨fun h => h.2, fun h => h ▸ ⟨rfl, rfl⟩⟩
  have hmixed {m : Nat} (hm : m ≤ count new) (x : List Byte) :=
    hget x (length_mixed ho hnew) (chain_mixed (m := m) hold ho hnew hm)
  rw [← mixed_iff]
  refine ⟨fun hall m hm => ?_, fun hall pre hpre => ?_⟩
  · have := hall ((chunks id name (setTo new) (count new + n)).take m) ( take_prefix _ _)
    rwa [take_chunks, min_eq_left (by omega), hmixed hm, hmixed hm] at this
  · rw [prefix_iff_eq_take.mp hpre, take_chunks]
    generalize hm : min pre.length _ = m
    obtain hle | hgt := lt_or_ge (count new) m
    · exact .inr ((hget _ hnew (chain_set hnew hle.le (by omega) (by omega))).mpr rfl)
    · rw [hmixed hgt, hmixed hgt]
      exact hall m hgt

end

/-- Half of the new value and half of the old one. -/
theorem torn_value : (runs (xattrDeltaSet 2 [0x61] (replicate 1025 1)) long).1 = some () ∧
      xattrGet long.view 2 [0x61] maxTotal = .ok (1025, replicate 1025 0) ∧
      [(xattrKey 2 [0x61] 0, some (.blob (replicate 1024 1)))] <+:
        (runs (xattrDeltaSet 2 [0x61] (replicate 1025 1)) long).2.log.drop long.log.length ∧
      xattrGet (replay long.view [(xattrKey 2 [0x61] 0, some (.blob (replicate 1024 1)))]) 2 [0x61] maxTotal =
        .ok (1025, replicate 1024 1 ++ [0]) := by
  decide +kernel

def zeros : List Byte := replicate 1025 0

def zerosOne : List Byte := replicate 1024 0 ++ [1]

def firstChunk : Change := (xattrKey 2 [0x61] 0, some (.blob (replicate 1024 0)))

/-- Two values of two chunks that differ in the second one. -/
theorem set_prefix_long : xattrGet (replay long.view [firstChunk]) 2 [0x61] maxTotal = .ok (zeros.length, zeros) ∨
      xattrGet (replay long.view [firstChunk]) 2 [0x61] maxTotal = .ok (zerosOne.length, zerosOne) := by
  have hold : Stored long.view 2 [0x61] zeros := by
    unfold Stored
    decide +kernel
  have hlog : (runs (xattrDeltaSet 2 [0x61] zerosOne) long).2.log =
      long.log ++ [firstChunk, (xattrKey 2 [0x61] 1, some (.blob [1]))] := by
    decide +kernel
  have hset : (runs (xattrDeltaSet 2 [0x61] zerosOne) long).1 = some () := by decide +kernel
  have hone : OneChunk zeros zerosOne := .inl ⟨1, by decide +kernel, by decide +kernel⟩
  exact (set_prefix_iff hold (by decide +kernel) (runs_fst hset) hlog).mpr hone _ ( prefix_append [firstChunk] _)

section

variable {id : Nat} {s t : Ns} {cs : List Change}

theorem mem_xattrKeys (hid : id + 1 ≠ 2 ^ 64) {c : List Byte} (h : s.view (.xattr id c) ≠ none) :
    .xattr id c ∈ s.xattrKeys id := by
  rw [Ns.xattrKeys, if_neg hid, mem_filter, mem_append]
  refine ⟨?_, by simp [Key.isXattr]⟩
  by_contra hnone
  rw [not_or, ← AList.mem_keys, ← AList.mem_keys, ← AList.lookup_eq_none, ← AList.lookup_eq_none] at hnone
  exact h (by rw [Ns.view, Tier.view, hnone.2, hnone.1])

variable {g : View} {k : Key}

theorem replay_deletes (h : ∀ c ∈ cs, c.2 = none) (hk : g k = none) : replay g cs k = none := by
  by_contra hsome
  obtain hg | ⟨v, hv⟩ := replay_some hsome
  · exact hg hk
  · exact absurd (h _ hv) (by simp)

theorem replay_deleted (h : ∀ c ∈ cs, c.2 = none) (hk : (k, none) ∈ cs) : replay g cs k = none := by
  obtain ⟨as, bs, rfl⟩ := append_of_mem hk
  rw [replay_append]
  exact replay_deletes (g := apply (replay g as) (k, none)) (fun c hc => h c (by simp [hc])) (update_self _ _ _)

/-- A row whose deletion is cut off has all its attributes or is gone, just where there is no row, it has no
attributes, or it has the last number. -/
theorem inodeDelete_prefix_iff (h : runs (inodeDelete id) s = (some (), t)) (hcs : t.log = s.log ++ cs) :
    (∀ pre, pre <+: cs → replay s.view pre (.row id) = none ∨
      ∀ c, replay s.view pre (.xattr id c) = s.view (.xattr id c)) ↔
    s.view (.row id) = none ∨ (∀ c, s.view (.xattr id c) = none) ∨ id + 1 = 2 ^ 64 := by
  obtain ⟨hno, w⟩ | ⟨hrow, w⟩ := inodeDelete_some h
  · obtain rfl : cs = [] := append_cancel_left (hcs.symm.trans w.log)
    refine iff_of_true (fun pre hpre => ?_) (.inl hno)
    obtain rfl := prefix_nil.mp hpre
    exact .inl hno
  obtain rfl := append_cancel_left (hcs.symm.trans w.log)
  rw [or_iff_right hrow]
  refine ⟨fun hall => or_iff_not_imp_right.mpr fun hid c => ?_, ?_⟩
  · -- the prefix with all the attributes' records and without the row's
    by_contra hlive
    obtain hgone | hkept := hall _ (prefix_append _ _)
    · exact hrow ((replay_xattrs (fun _ => isXattr_of_mem) rfl).symm.trans hgone)
    · refine hlive ((hkept c).symm.trans (replay_deleted (by simp) ?_))
      exact mem_map_of_mem (mem_xattrKeys hid hlive)
  · rintro (hnone | hid) pre hpre
    · refine .inr fun c => ?_
      rw [hnone c]
      refine replay_deletes (fun d hd => ?_) (hnone c)
      obtain hd | hd := mem_append.mp (hpre.subset hd)
      · obtain ⟨k, -, rfl⟩ := mem_map.mp hd
        rfl
      · rw [mem_singleton.mp hd]
    · rw [Ns.xattrKeys, if_pos hid] at hpre
      refine .inr fun c => replay_notMem fun d hd => ?_
      rw [mem_singleton.mp (hpre.subset hd)]
      intro hx
      cases hx

end

theorem inodeDelete_prefix_tagged : ¬ ∀ pre, pre <+: [(xattrKey 2 [0x61] 0, none), (.row 2, none)] →
    replay tagged.view pre (.row 2) = none ∨ ∀ c, replay tagged.view pre (.xattr 2 c) = tagged.view (.xattr 2 c) := by
  rw [inodeDelete_prefix_iff (t := (runs (inodeDelete 2) tagged).2) (Prod.ext (by decide +kernel) rfl)
    (by decide +kernel)]
  rintro (h | h | h)
  · exact absurd h (by decide +kernel)
  · exact absurd (h [0, 1, 0x61]) (by decide +kernel)
  · exact absurd h (by decide)

/-- The file without its attribute. -/
theorem row_without_xattr : (runs (inodeDelete 2) tagged).1 = some () ∧
      (runs (inodeDelete 2) tagged).2.log = tagged.log ++ [(xattrKey 2 [0x61] 0, none), (.row 2, none)] ∧
      replay tagged.view [(xattrKey 2 [0x61] 0, none)] (.row 2) ≠ none ∧
      tagged.view (xattrKey 2 [0x61] 0) = some (.blob [7]) ∧
      replay tagged.view [(xattrKey 2 [0x61] 0, none)] (xattrKey 2 [0x61] 0) = none := by
  decide +kernel

end InvariantFs.Xattr
