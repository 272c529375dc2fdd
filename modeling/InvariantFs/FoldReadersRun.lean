import InvariantFs.FoldReadersSafe

namespace InvariantFs.FoldReaders

open ByteCodec CachedStore BtreePage Btree Fallible SepChain BtreeShape BtreeRow BtreeMap BtreeSupply Nat Rt
open DeltaLog BaseRoot BaseCrash Fold FoldMerge FoldSafe Marking
open ReclaimDiff (kids markRoots mbufFree Reaches held_reached reaches_held mem_markRoots)
open List Option Relation

variable {crc : List Byte → UInt32} {s : Sys} {v v' : Vol}

variable (crc) in
/-- Block 1 of 64 is a leaf with one record. -/
structure Leaf (v : Vol) : Prop where
  total : v.total = 64
  tree : Tree crc v (rootOf v 1) 0 [(longKey 0, longVal)] [1]
  gen : (rootOf v 1).gen = 1

theorem leaf_agree (hv : Leaf crc v) (ha : Agree [1] v v') : Leaf crc v' := by
  have hroot : rootOf v' 1 = rootOf v 1 := by rw [rootOf, rootOf, ha.view 1 mem_cons_self]
  exact ⟨ha.total.trans hv.total, hroot ▸ tree_agree ha hv.tree, hroot ▸ hv.gen⟩

theorem leaf_slot (hv : Leaf crc v) : slotPage crc v 1 = some (v.dev.view 1) :=
  (tree_slot hv.tree (by decide : (1 : UInt64) ≠ 0)).2.1

/-- The blocks of a segment of the log are free. -/
theorem exists_leaf (crc : List Byte → UInt32) :
    ∃ v : Vol, Leaf crc v ∧ ∀ b, v.bit b = true ↔ b ∉ segBlocks 64 32 := by
  let v₀ : Vol := { blankVol with bit := fun b => b ≠ 1, supply := [⟨1, true, true⟩] }
  have ha : Ample 1 v₀ := ⟨v₀.supply, [], (append_nil _).symm, rfl, by decide, by decide⟩
  obtain ⟨root, v, hrun, h0, hrow, -⟩ := upsert_first crc ha (by rw [(longKey_size 0).1]; omega)
  have ht : Tree crc v root 0 [(longKey 0, longVal)] [root.pba] :=
    ⟨_, .inr ⟨h0, _, rfl, rfl⟩, hrow, by simp [rowPages, pages]⟩
  obtain ⟨hf, hgen, h', ps, ht', hfrom⟩ := upsert_tree (tree_empty v₀) hrun
  -- block 1 was the only free one
  have hone : root.pba = 1 := by
    obtain hmem | hfree := hfrom root.pba (tree_slot ht' h0).1
    · cases hmem
    · simpa [v₀] using hfree
  have hroot : rootOf v 1 = { root with flags := bpRoot } := by
    rw [rootOf, ← hone]
    exact (tree_slot ht h0).2.2 bpRoot
  have hv : Leaf crc v := by
    refine ⟨hf.total, ?_, by rw [hroot, hgen]; rfl⟩
    rw [hroot, ← hone]
    exact tree_flags ht bpRoot
  refine ⟨{ v with bit := fun b => b ∉ segBlocks 64 32 }, leaf_agree hv ⟨rfl, ?_, fun _ _ => rfl⟩,
    fun b => decide_eq_true_iff⟩
  rintro b hb
  obtain rfl := mem_singleton.mp hb
  rw [(tree_pages hv.tree 1 hb).2.2]
  exact (by decide : decide ((1 : UInt64) ∉ segBlocks 64 32) = true)

/-- The volume with that leaf as its base. -/
def leafSys (v : Vol) : Sys := ⟨v, ⟨(1, 0), 1, 0⟩, fun _ => false, .null, [], .idle⟩

theorem settled_leaf (hv : Leaf crc v) : Settled crc (leafSys v) := by
  have hi : Intact crc v [] 1 := ⟨by decide, ⟨_, _, _, hv.tree⟩, fun b _ => not_mem_nil⟩
  refine ⟨⟨fun x hx => ?_, fun b hb => absurd hb not_mem_nil, fun b hb => absurd hb not_mem_nil⟩, rfl,
    fun w hw => .inl ?_⟩
  · obtain rfl | rfl := hx
    · exact intact_held hi
    · exact .inl rfl
  · change rootRead crc v ⟨(1, 0), 1, 0⟩ = _ at hw
    rw [rootRead, leaf_slot hv, slotPage_zero] at hw
    exact (some.inj (some.inj hw)).symm.trans (by decide : (1 : UInt64) = last ⟨(1, 0), 1, 0⟩)

/-- A fold puts a second record next to the first. -/
theorem copy_leaf (hv : Leaf crc v) (ha : Ample 3 v) : ∃ (root : Ptr) (v' : Vol) (ck : Ck),
    runs (copy crc [(longKey 1, false, longVal)] (rootOf v 1)) v = (some root, v') ∧ check crc v' root = .ok ck ∧
      Frame v v' ∧ v.bit root.pba = false ∧ slotPage crc v' root.pba = some (v'.dev.view root.pba) ∧
      (rootOf v' root.pba).gen = 2 := by
  obtain ⟨rs, ⟨h1, -⟩ | ⟨h0, ⟨_, es⟩, rfl, rfl⟩, hr, -⟩ := hv.tree
  · exact absurd h1 (by decide : (1 : UInt64) ≠ 0)
  obtain rfl : es = [(longKey 0, longVal)] := by simpa [flat, contents, flat_leaf] using hr.contents
  obtain ⟨root, v', A, B, hrun, hp, -, -, hrow, -⟩ := upsert_second (n := 0) ha h0 hr
  obtain ⟨ck, hck, -⟩ := row_check (by decide) (.inr ⟨hp, _, rfl, rfl⟩) hrow (by simp [Wide])
  obtain ⟨hf, hgen, h', ps', ht', hfrom⟩ := upsert_tree hv.tree hrun
  obtain ⟨hmem, hpage, hroot⟩ := tree_slot ht' hp
  have htwo : (rootOf v' root.pba).gen = 2 := by
    rw [rootOf, hroot]
    exact hgen.trans (by rw [if_neg (by simp), hv.gen]; rfl)
  refine ⟨root, v', ck, bind_some.mpr ⟨root, v', bind_some.mpr ⟨root, v', hrun, rfl⟩, ?_⟩, hck, hf, ?_, hpage, htwo⟩
  · rw [rootPage, if_neg hp]
    rfl
  · refine (hfrom root.pba hmem).resolve_left fun hone => ?_
    rw [mem_singleton.mp hone, rootOf, frame_view hf (tree_pages hv.tree 1 mem_cons_self).2.2] at htwo
    exact absurd (hv.gen.symm.trans htwo) (by decide)

variable {logs : List Byte → Prop} {n : Nat}

theorem steps_of_folds {s' : Sys} (rs : List Local) (h : ReflTransGen (Folds crc logs n) s s') :
    ReflTransGen (ReaderEpoch.Step (protocol crc logs)) ⟨s, rs, n⟩ ⟨s', rs, n⟩ := by
  induction h with
  | refl => exact .refl
  | tail _ hstep ih => exact ih.tail (.write rs hstep)

theorem leaf_base (hv : Leaf crc s.vol) (hrt : s.rt = ⟨(1, 0), 1, 0⟩) :
    baseRoot crc s.vol s.rt = some (rootOf s.vol 1) := by
  rw [baseRoot, rootRead, hrt, leaf_slot hv, slotPage_zero]
  rfl

def tickets : List Ticket := [⟨33, true, true⟩, ⟨34, true, true⟩, ⟨35, true, true⟩]

/-- The tickets lie in the segment at block 32. -/
theorem tickets_range {b : UInt64} (hb : b ∈ tickets.map Ticket.pba) :
    (b ≠ 0 ∧ b ≠ 1 ∧ b < 64) ∧ b ∈ segBlocks 64 32 := by
  simp only [tickets, map_cons, map_nil, mem_cons, not_mem_nil, or_false] at hb
  obtain rfl | rfl | rfl := hb <;> decide

/-- The fold of the second record up to the bump. -/
theorem publish_leaf (hv : Leaf crc s.vol) (hpc : s.pc = .idle) (hrt : s.rt = ⟨(1, 0), 1, 0⟩)
    (hfree : ∀ b ∈ tickets.map Ticket.pba, s.vol.bit b = false) : ∃ (root : Ptr) (v' : Vol),
      Frame { s.vol with supply := tickets } v' ∧ s.vol.bit root.pba = false ∧
      slotPage crc v' root.pba = some (v'.dev.view root.pba) ∧ (rootOf v' root.pba).gen = 2 ∧
      ReflTransGen (Folds crc logs n) s
        { s with vol := v', rt := ⟨(1, root.pba), 2, 0⟩, pc := .published (rootOf s.vol 1) root } := by
  have hv' : Leaf crc { s.vol with supply := tickets } := leaf_agree hv ⟨rfl, fun _ _ => rfl, fun _ _ => rfl⟩
  have ha : Ample 3 { s.vol with supply := tickets } := by
    refine ⟨tickets, [], (append_nil _).symm, rfl, by decide, fun t ht => ?_⟩
    have hin : t.pba ≠ 0 ∧ t.pba < 64 ∧ t.initOk = true ∧ t.writeOk = true := by
      revert t
      decide
    exact ⟨hin.1, hv.total.symm ▸ hin.2.1, hfree _ (mem_map_of_mem ht), hin.2.2⟩
  obtain ⟨root, v', ck, hrun, hck, hf, hroot, hpage, hgen⟩ := copy_leaf hv' ha
  change runs (copy crc _ (rootOf s.vol 1)) _ = _ at hrun
  have hroom : (rootOf s.vol 1).gen.toNat + [(longKey 1, false, longVal)].length < 2 ^ 64 := by
    rw [hv.gen]
    decide
  refine ⟨root, v', hf, hroot, hpage, hgen, ?_⟩
  refine .head (.start [(longKey 1, false, longVal)] tickets hpc (leaf_base hv hrt) hroom) ?_
  refine .head (.place rfl hf (by rw [hrun]; exact frame_refl v')) ?_
  refine .head (.name rfl hrun hck) ?_
  have hslots : bump (name s.rt root.pba) = ⟨(1, root.pba), 2, 0⟩ := by
    rw [hrt]
    rfl
  rw [← hslots]
  exact .single (.bump rfl)

variable (crc) in
/-- What a reader has once it is through the loop, chooses the root it found and captures it. -/
def captured (s : Sys) (x : UInt64) : Local := .walking (rootOf s.vol x) {b | Reaches crc s.vol (rootOf s.vol x) b}

theorem reader_captures {x gen : UInt64} (h : judge crc s.vol s.rt 1 (Rt.slot s.rt 1)
      (judge crc s.vol s.rt 0 (Rt.slot s.rt 0) none) = some (x, gen)) :
    ReflTransGen (ReaderEpoch.Step (protocol crc logs)) ⟨s, [], 0⟩ ⟨s, [captured crc s x], 1⟩ := by
  have hlook : ∀ {l l' : Local}, Looks crc s l l' →
      ReaderEpoch.Step (protocol crc logs) ⟨s, [l], 1⟩ ⟨s, [l'], 1⟩ := fun h => .look [] [] 1 h
  refine .head (.announce s [] 0) ?_
  refine .head (hlook (.peek Nat.zero_lt_two)) ?_
  refine .head (hlook (.judge 0 _ none)) ?_
  refine .head (hlook (.peek Nat.one_lt_two)) ?_
  refine .head (hlook (.judge 1 _ _)) ?_
  rw [h]
  refine .head (hlook (.choose x gen)) ?_
  exact .single (hlook (.capture x))

/-- A reader captures the leaf, a fold publishes a second record and cannot store the descriptor. -/
theorem leaf_run (crc : List Byte → UInt32) : ∃ (s : Sys) (t : ReaderEpoch.State Sys Local), Settled crc s ∧
    ReflTransGen (ReaderEpoch.Step (protocol crc (Plain crc))) ⟨s, [], 0⟩ t ∧ t.shared.pc = .idle ∧
    t.shared.rt.rootSlot ≠ s.rt.rootSlot ∧ captured crc s 1 ∈ t.readers ∧
    Reaches crc s.vol (rootOf s.vol 1) 1 := by
  obtain ⟨v, hv, hbit⟩ := exists_leaf crc
  have hfree : ∀ b ∈ tickets.map Ticket.pba, (leafSys v).vol.bit b = false := by
    intro b hb
    rw [Bool.eq_false_iff, ne_eq, leafSys, hbit, not_not]
    exact (tickets_range hb).2
  obtain ⟨root, v', -, hroot, -, -, hrun⟩ := @publish_leaf crc (leafSys v) (Plain crc) 1 hv rfl rfl hfree
  have hread : judge crc v ⟨(1, 0), 1, 0⟩ 1 0 (judge crc v ⟨(1, 0), 1, 0⟩ 0 1 none) =
      some (1, (pageHdr (v.dev.view 1)).gen) := by
    rw [judge, slotPage_zero, judge, leaf_slot hv]
  have hreach := (tree_reaches hv.tree).mpr (mem_singleton_self 1)
  refine ⟨leafSys v, _, settled_leaf hv, (reader_captures hread).trans (steps_of_folds _
    ((hrun.tail (.unstored rfl)).tail (.settle rfl))), rfl, fun heq => ?_, mem_singleton_self _, hreach⟩
  have hzero : root.pba = 0 := congrArg Prod.snd heq
  rw [hzero, leafSys, Bool.eq_false_iff, ne_eq, hbit] at hroot
  exact hroot (by decide)

theorem settled_run {t : ReaderEpoch.State Sys Local} (hs : Settled crc s)
    (hrun : ReflTransGen (ReaderEpoch.Step (protocol crc (Plain crc))) ⟨s, [], 0⟩ t) (hpc : t.shared.pc = .idle) :
    Settled crc t.shared := by
  have hserved := ReaderEpoch.served_run (guards crc) (settled_inv.mp hs).2 hrun
  exact settled_inv.mpr ⟨hpc, hserved.inv⟩

theorem settled_run_publish : ∃ (s : Sys) (t : ReaderEpoch.State Sys Local), Settled crc32c s ∧
    t.readers ≠ [] ∧ t.shared.rt.rootSlot ≠ s.rt.rootSlot ∧ Settled crc32c t.shared := by
  obtain ⟨s, t, hs, hrun, hpc, hslots, hl, -⟩ := leaf_run crc32c
  exact ⟨s, t, hs, ne_nil_of_mem hl, hslots, settled_run hs hrun hpc⟩

theorem freed_bit (bs : List UInt64) (v : Vol) : Fewer v (bs.foldl (mbufFree fun _ => false) v) ∧
    ∀ b, (bs.foldl (mbufFree fun _ => false) v).bit b = true ↔ v.bit b = true ∧ b ∉ bs := by
  induction bs generalizing v with
  | nil => exact ⟨⟨rfl, fun _ => rfl, fun _ h => h⟩, fun b => by simp⟩
  | cons c bs ih =>
    obtain ⟨hf, hbit⟩ := ih (mbufFree (fun _ => false) v c)
    have hfirst := fewer_free (fun _ => false) v c
    refine ⟨⟨hf.total.trans hfirst.total, fun b => (hf.view b).trans (hfirst.view b),
      fun b hb => hfirst.bit b (hf.bit b hb)⟩, fun b => ?_⟩
    rw [foldl_cons, hbit]
    by_cases hb : b = c <;> simp [ReclaimDiff.mbufFree, Vol.setBit, hb]

/-- Steps that free a block each, and the list of them. -/
theorem frees_all {pc : List UInt64 → Pc} (hstep : ∀ {s : Sys} {b : UInt64} {bs : List UInt64}, s.pc = pc (b :: bs) →
      Folds crc logs n s { s with vol := mbufFree s.hold s.vol b, pc := pc bs }) {bs : List UInt64}
    (hpc : s.pc = pc bs) :
    ReflTransGen (Folds crc logs n) s { s with vol := bs.foldl (mbufFree s.hold) s.vol, pc := pc [] } := by
  induction bs generalizing s with
  | nil =>
    rw [← hpc]
    exact .refl
  | cons b bs ih => exact .head (hstep hpc) (ih rfl)

/-- Other blocks that hold the bytes of the leaf pass for orphans. -/
theorem orphans_leaf (hv : Leaf crc v) {bs : List UInt64}
    (hbs : ∀ b ∈ bs, (b ≠ 0 ∧ b ≠ 1 ∧ b < 64) ∧ v.bit b = true ∧ v.dev.view b = v.dev.view 1) :
    orphans crc v ⟨(1, 0), 1, 0⟩ .null bs = bs := by
  have hroots : liveRoots crc v ⟨(1, 0), 1, 0⟩ = some [{ rootOf v 1 with flags := bpLeaf ||| bpRoot }] := by
    simp [liveRoots, leaf_slot hv, rootOf, ptrSet]
  have ht := tree_flags hv.tree (bpLeaf ||| bpRoot)
  obtain ⟨rs, ⟨h1, -⟩ | ⟨h0, t, htop, rfl⟩, hr, -⟩ := ht
  · exact absurd h1 (by decide : (1 : UInt64) ≠ 0)
  obtain ⟨ck, hck, -⟩ := row_check (by decide) (.inr ⟨h0, t, htop, rfl⟩) hr (by simp [Wide])
  obtain ⟨marked, hmarked⟩ : ∃ marked, markRoots crc v
      ([{ rootOf v 1 with flags := bpLeaf ||| bpRoot }] ++ [.null]) = some marked :=
    ReclaimDiff.markRoots_accepted (by simpa using ⟨⟨ck, hck⟩, ReclaimDiff.null_accepted v⟩)
  obtain ⟨page, hpage, hdec⟩ := readNode_some crc (hr.held _ mem_cons_self).1
  obtain ⟨-, -, -, ⟨-, -, -, hval⟩, hview⟩ := readPage_some crc hpage
  rw [htop] at hview
  have hlevel : (pageHdr page).level = 0 := by
    obtain ⟨es, -, hes⟩ := map_eq_some_iff.mp (ite_none_left_eq_some.mp hdec).2
    exact congrArg Prod.fst hes
  unfold orphans
  rw [hroots]
  dsimp only
  rw [hmarked]
  refine filter_eq_self.mpr fun b hb => decide_eq_true ⟨decide_eq_true ?_, fun hmem => ?_⟩
  · obtain ⟨⟨h0, -, hlt⟩, hbit, hsame⟩ := hbs b hb
    have hbytes : v.dev.view b = page := hsame.trans hview.symm
    rw [hbytes, hv.total, hlevel]
    refine ⟨h0, hlt, hbit, hval, Nat.zero_le _, ?_⟩
    rw [hview]
    exact le_max_right 0 _
  · obtain ⟨r, hr, hreach⟩ := (mem_markRoots hmarked).mp hmem
    obtain rfl | hr := mem_cons.mp hr
    · exact (hbs b hb).1.2.1 (mem_singleton.mp ((tree_reaches (tree_flags hv.tree _)).mp hreach))
    · obtain rfl := mem_singleton.mp hr
      exact hreach.1 rfl

/-- A fold that fails, and the hook behind it. -/
theorem collects_leaf (hv : Leaf crc v)
    (hbs : ∀ b ∈ tickets.map Ticket.pba, v.bit b = true ∧ v.dev.view b = v.dev.view 1)
    (chain : List Nat) : ReflTransGen (Folds crc logs 0) { leafSys v with chain := chain }
      { leafSys ((tickets.map Ticket.pba).foldl (mbufFree fun _ => false) { v with supply := [] }) with
        chain := chain } := by
  have hv' : Leaf crc { v with supply := [] } := leaf_agree hv ⟨rfl, fun _ _ => rfl, fun _ _ => rfl⟩
  have horphans := orphans_leaf hv' fun b hb => ⟨(tickets_range hb).1, hbs b hb⟩
  let at' (pc : Pc) : Sys := ⟨{ v with supply := [] }, ⟨(1, 0), 1, 0⟩, fun _ => false, .null, chain, pc⟩
  have henter : Folds crc logs 0 (at' (.sweeping (rootOf v 1) (rootOf v 1)))
      (at' (.collecting (rootOf v 1) (tickets.map Ticket.pba))) := by
    have hpc : enter crc (at' (.sweeping (rootOf v 1) (rootOf v 1))) (rootOf v 1) (rootOf v 1)
        (tickets.map Ticket.pba) = .collecting (rootOf v 1) (tickets.map Ticket.pba) := by
      rw [enter, if_pos (.inr (.inl rfl)), horphans]
    rw [← hpc]
    exact .enter (tickets.map Ticket.pba) rfl
  have hfail : Folds crc logs 0 (at' (.building { v with supply := [] } [] (rootOf v 1)))
      (at' (.resuming (rootOf v 1))) := .fail rfl
  have hagain : Folds crc logs 0 (at' (.resuming (rootOf v 1))) (at' (.draining (rootOf v 1) (rootOf v 1))) :=
    .again rfl (leaf_base hv' rfl)
  have hfrees := @frees_all crc (at' (.collecting (rootOf v 1) (tickets.map Ticket.pba))) logs 0
    (.collecting (rootOf v 1)) .collect _ rfl
  refine .head (.start [] [] rfl (leaf_base hv rfl) (UInt64.toNat_lt _)) (.head hfail (.head hagain ?_))
  refine .head (.drained rfl) (.head henter (hfrees.trans ?_))
  exact .head (.collected rfl) (.single (.settle rfl))

/-- All blocks are allocated, and three of them hold the bytes of block 1. -/
def mimicking (v : Vol) : Vol :=
  { v with
    bit := fun _ => true
    dev := ⟨fun b => if b ∈ tickets.map Ticket.pba then v.dev.view 1 else v.dev.view b, []⟩ }

theorem mimicking_view (v : Vol) (b : UInt64) : (mimicking v).dev.view b =
    if b ∈ tickets.map Ticket.pba then v.dev.view 1 else v.dev.view b := rfl

end InvariantFs.FoldReaders
