import InvariantFs.DedupeSafe

namespace InvariantFs.DedupeKeeps

open ByteCodec FileRead Retire Dedupe SegmentSwap DedupeSafe List Option Function Entry
open Spans (forall₂_right)

variable {H : Type} [LinearOrder H] {hash : List Byte → H} {d d₀ : Disk}

def groups (hash : List Byte → H) (d : Disk) : List (List Merge) :=
  (sortMerges (merges hash d)).splitBy fun a b => a.inode = b.inode

variable {ms : List Merge} {m : Merge}

theorem mem_sortMerges : m ∈ sortMerges ms ↔ m ∈ ms := (perm_insertionSort _ _).mem_iff

theorem mem_groups {g : List Merge} (hg : g ∈ groups hash d) (hm : m ∈ g) :
    m ∈ merges hash d ∧ ∀ x ∈ g.head?, m.inode = x.inode := by
  constructor
  · have : m ∈ (groups hash d).flatten := mem_flatten.mpr ⟨g, hg, hm⟩
    rw [groups, flatten_splitBy] at this
    exact mem_sortMerges.mp this
  · have hchain := isChain_of_mem_splitBy hg
    cases g with
    | nil => simp at hm
    | cons x g =>
      have hpair : (x :: g).Pairwise fun a b => a.inode = b.inode := isChain_iff_pairwise.mp (by simpa using hchain)
      intro y hy
      obtain rfl : x = y := by simpa using hy
      obtain rfl | hm := mem_cons.mp hm
      · rfl
      · exact (rel_of_pairwise_cons hpair hm).symm

theorem groups_flatten : (groups hash d).flatten = sortMerges (merges hash d) := flatten_splitBy _ _

variable {envs : List Env}

theorem inv_sweep (hd : Healthy d) (hinj : Injective hash)
    (hstay : WindowsStay d) : Inv hash d (sweepDedupe hash envs d) :=
  inv_remapAll hd hinj hstay (fun _ hg _ hm => mem_groups hg hm) (inv_init hash d)

def KeepsNamed (d d' : Disk) : Prop :=
  ∀ i row r, d'.vol.row i = some row → row.blob = .ast r →
    ∀ q qlen, q ∈ mentions r → segExtent d'.vol q = some qlen →
    ∀ b, q ≤ b → b < q + qlen → d.bit b = true → d'.bit b = true

variable {i : Nat} {row : Row} {r : Recipe} {q : Nat}

section

variable (hd : Healthy d₀) (hinj : Injective hash) (hinv : Inv hash d₀ d)

include hd hinj hinv

theorem keepsNamed_of_inv : KeepsNamed d₀ d := by
  intro i row r hrow hblob q qlen hq hext b hlo hhi hb
  by_contra hfree
  rw [Bool.not_eq_true] at hfree
  obtain ⟨p, plen, htarget, hpext, ⟨hplo, hphi⟩, hgone, -⟩ := hinv.freed b hb hfree
  have hne : q ≠ p := by
    rintro rfl
    exact hgone i row r hrow hblob hq
  have hext' : segExtent d₀.vol q = some qlen := by
    rw [hinv.vol] at hext
    exact hext
  exact hd.apart p plen htarget hpext q qlen (wanted_of_mentions hd hinv hinj hrow hblob hq) hext' hne
    b hplo hphi ⟨hlo, hhi⟩

end

/-- What the pass may not change: the bytes of the files, and the blocks of their segments, up to and
behind the fence that frees what it has retired. -/
def Keeps (d d' : Disk) : Prop :=
  (∀ i x, d'.vol.ReadsFile i x ↔ d.vol.ReadsFile i x) ∧ KeepsNamed d d' ∧ ∀ map, KeepsNamed d (fence map d')

theorem keeps_sweep (envs : List Env) (hd : Healthy d) (hinj : Injective hash)
    (hstay : WindowsStay d) : Keeps d (sweepDedupe hash envs d) := by
  have hinv : Inv hash d (sweepDedupe hash envs d) := inv_sweep hd hinj hstay
  refine ⟨fun i x => ?_, keepsNamed_of_inv hd hinj hinv, fun map => keepsNamed_of_inv hd hinj
    (inv_fence hd hinv hinj map)⟩
  have hsame : ∀ n, (sweepDedupe hash envs d).vol.readInode n i = d.vol.readInode n i := by
    intro n
    rw [hinv.vol]
    exact readInode_swap (fun j => rowMoved_swap hd hinj hstay (hinv.rows j)) n i
  simp only [Vol.ReadsFile, hsame]

theorem mem_scan {v : Vol} {ss : List (Seg H)} {c s c' : Seg H}
    (hsort : (c :: ss).Pairwise fun a b => a.hash ≤ b.hash) (hs : s ∈ ss)
    (hc : (c :: ss).find? (fun x => x.hash = s.hash) = some c') (hne : c' ≠ s)
    (hm : m ∈ mergeOf v c' s) : m ∈ scan v (some c) ss := by
  induction ss generalizing c with
  | nil => simp at hs
  | cons t ss ih =>
    have hct : c.hash ≤ t.hash := rel_of_pairwise_cons hsort (by simp)
    rw [scan]
    split_ifs with heq
    · obtain rfl | hs := mem_cons.mp hs
      · obtain rfl : c = c' := by simpa [find?_cons, heq] using hc
        exact mem_append.mpr (.inl hm)
      · refine mem_append.mpr (.inr (ih ?_ hs ?_))
        · exact hsort.sublist ((sublist_cons_self t ss).cons_cons c)
        · by_cases hcs : c.hash = s.hash
          · simpa [find?_cons, hcs] using hc
          · simpa [find?_cons, hcs, heq] using hc
    · have hcs : c.hash ≠ s.hash := by
        intro hcs
        obtain rfl | hs := mem_cons.mp hs
        · exact heq hcs.symm
        · have hts : t.hash ≤ s.hash := rel_of_pairwise_cons hsort.of_cons hs
          exact heq (le_antisymm (hcs ▸ hts) hct)
      have hc' : (t :: ss).find? (fun x => x.hash = s.hash) = some c' := by simpa [hcs] using hc
      obtain rfl | hs := mem_cons.mp hs
      · exact absurd (by simpa using hc'.symm) hne
      · exact ih hsort.of_cons hs hc'

variable {e : Entry}

theorem merge_of_givesWay (hd : Healthy d)
    (hinj : Injective hash) (hcand : Candidate d i row r e) (hway : GivesWay d e) :
    ∃ m ∈ merges hash d, m.inode = i ∧ m.lba = e.blockId ∧ m.cur = e.pba ∧ m.cur ≠ m.canon := by
  obtain ⟨ci, crow, cr, c, hprior, hne⟩ := hway
  have hs : (⟨hash (stored d.vol e.pba), i, e.blockId, e.pba⟩ : Seg H) ∈ sorted hash d := candidate_sorted hcand
  generalize hseg : (⟨hash (stored d.vol e.pba), i, e.blockId, e.pba⟩ : Seg H) = s at hs
  have hhash : s.hash = hash (stored d.vol e.pba) := hseg ▸ rfl
  have hin : s.inode = i := hseg ▸ rfl
  have hlba : s.lba = e.blockId := hseg ▸ rfl
  have hpba : s.pba = e.pba := hseg ▸ rfl
  -- the first one with this hash is the candidate the entry gives way to
  obtain ⟨f, hf⟩ : ∃ f, (sorted hash d).find? (fun x => x.hash = s.hash) = some f := by
    refine isSome_iff_exists.mp (List.find?_isSome.mpr ⟨s, hs, by simp⟩)
  obtain ⟨frow, fr, fe, hfcand, hfeq⟩ := segOf_sorted (mem_of_find?_eq_some hf)
  have hfhash : f.hash = s.hash := by simpa using find?_some hf
  have hflba : f.lba = fe.blockId := congrArg Seg.lba hfeq
  have hfbytes : stored d.vol fe.pba = stored d.vol e.pba := by
    refine hinj ?_
    rw [← hhash, ← hfhash]
    exact (congrArg Seg.hash hfeq).symm
  have hle := find_least sorted_key hf (candidate_sorted hprior.cand)
    (by rw [hhash]; exact congrArg hash hprior.bytes)
  have hge := hprior.least _ _ _ _ hfcand hfbytes
  dsimp only at hle
  have hci : f.inode = ci := by omega
  obtain ⟨-, rfl⟩ := (hci ▸ hfcand).unique hd hprior.cand (by omega)
  have hfpba : f.pba = fe.pba := congrArg Seg.pba hfeq
  have hm : (⟨i, e.blockId, e.pba, fe.pba⟩ : Merge) ∈ mergeOf d.vol f s := by
    unfold mergeOf
    rw [hin, hlba, curPba_candidate hd hcand, hfpba]
    dsimp only
    rw [if_neg (not_or.mpr ⟨hcand.pba.2.1, hne.symm⟩)]
    simp
  have hfs : f ≠ s := by
    rintro rfl
    exact hne (by rw [← hfpba, hpba])
  refine ⟨⟨i, e.blockId, e.pba, fe.pba⟩, ?_, rfl, rfl, rfl, hne.symm⟩
  change _ ∈ scan d.vol none (sorted hash d)
  have hsort : (sorted hash d).Pairwise fun a b => a.hash ≤ b.hash := sorted_hash
  generalize sorted hash d = L at hs hf hsort ⊢
  cases L with
  | nil => simp at hs
  | cons x xs =>
    obtain rfl | hs := mem_cons.mp hs
    · exact absurd (by simpa using hf.symm) hfs
    · exact mem_scan hsort hs hf hfs hm

variable {es : List Entry}

theorem patch_of_not_applies (h : applies m es = false) : patch m es = es := by
  induction es with
  | nil => rfl
  | cons e es ih =>
    unfold applies at h ih
    rw [find?_cons] at h
    rw [patch]
    by_cases hid : e.blockId = m.lba
    · simp only [hid, decide_true, any_some, decide_eq_false_iff_not] at h
      rw [if_pos hid, if_neg h]
    · simp only [hid] at h
      rw [if_neg hid, ih h]

theorem patchAll_applies (hm : m ∈ ms) (happ : applies m es = true) : (patchAll ms es).2 ≠ [] := by
  unfold patchAll
  induction ms with
  | nil => simp at hm
  | cons x xs ih =>
    rw [foldl_cons]
    cases hx : applies x es with
    | true =>
      refine foldlRecOn (motive := fun p : List Entry × List Merge => p.2 ≠ []) xs _ (by simp) fun p hp y _ => ?_
      dsimp only
      split_ifs
      · simp
      · exact hp
    | false =>
      obtain rfl | hm := mem_cons.mp hm
      · simp [happ] at hx
      · simpa [hx, patch_of_not_applies hx] using ih hm

theorem patch_algo (m : Merge) (es : List Entry) : (patch m es).map algo = es.map algo := by
  induction es with
  | nil => rfl
  | cons e es ih =>
    rw [patch]
    split_ifs <;> simp [ih]

theorem patchAll_algo (ms : List Merge) (es : List Entry) : (patchAll ms es).1.map algo = es.map algo :=
  patchAll_rule (P := fun p => p.1.map algo = es.map algo) rfl
    fun p hp m _ => (patch_algo m p.1).trans hp

def Torn (row : Row) : Prop :=
  row.type ≠ .link ∧ row.size ≠ 0 ∧
    ∃ r, row.blob = .ast r ∧ r.tail = .none ∧ .windowSrc ∈ r.ents.map algo

theorem torn_unread {v : Vol} (hrow : v.row i = some row) (htorn : Torn row) (n : Nat) : v.readInode n i = none := by
  obtain ⟨hlink, hsize, r, hblob, htail, hwin⟩ := htorn
  obtain ⟨e, he, halgo⟩ := mem_map.mp hwin
  cases n with
  | zero => rfl
  | succ n =>
    have hdec : ∀ range sib, decodeEntries v range sib i r = none := by
      intro range sib
      have hnone : decodeEntry v range sib i r e = none := by simp [decodeEntry, halgo, batchAlgo, windowBytes, htail]
      unfold decodeEntries
      rw [decodeAll_none he hnone]
      simp
    unfold Vol.readInode
    rw [hrow]
    obtain ⟨type, size, blob⟩ := row
    subst hblob
    cases type <;> simp_all

def Spoiled (i : Nat) (d : Disk) : Prop := ∃ row, d.vol.row i = some row ∧ Torn row

def Ready (hash : List Byte → H) (d₀ d : Disk) : Prop :=
  ∀ m ∈ merges hash d₀, ∃ row r, d.vol.row m.inode = some row ∧ row.type ≠ .link ∧ row.blob = .ast r

theorem ready_init (hd : Healthy d) : Ready hash d d := by
  intro m hm
  obtain ⟨row, r, e, ci, crow, cr, ce, hint⟩ := merges_intent hd hm
  refine ⟨row, r, hint.moved.has, ?_, hint.moved.blob⟩
  have := hint.moved.counted
  simp only [countedRow, decide_eq_true_eq] at this
  simp [this.1]

variable {env : Env}

theorem remapFile_row (ms : List Merge)
    (hput : env.put = true) (hrow : d.vol.row i = some row) (hlink : row.type ≠ .link) (hblob : row.blob = .ast r) :
    ∃ d', remapFile env d i ms = some d' ∧ (∀ j, j ≠ i → d'.vol.row j = d.vol.row j) ∧
      d'.vol.row i = some (if (patchAll ms r.ents).2 = [] then row
        else { row with blob := .ast ⟨row.size, (patchAll ms r.ents).1, .none⟩ }) := by
  obtain ⟨type, size, blob, attrs⟩ := row
  subst hblob
  have hfile : remapFile env d i ms = some (if (patchAll ms r.ents).2 = [] then d else
      retirePbas (putRow d i ⟨type, size, .ast ⟨size, (patchAll ms r.ents).1, .none⟩, attrs⟩) i
        ((patchAll ms r.ents).2.map Merge.cur) ((patchAll ms r.ents).2.map Merge.canon)) := by
    unfold remapFile
    rw [hrow]
    cases type <;> simp_all <;> split_ifs <;> rfl
  refine ⟨_, hfile, fun j hj => ?_, ?_⟩
  · split_ifs with hnone
    · rfl
    · rw [retirePbas, if_neg (by simpa using hnone)]
      simp [putRow, hj]
  · split_ifs with hnone
    · exact hrow
    · rw [retirePbas, if_neg (by simpa using hnone)]
      simp [putRow]

variable {j : Nat} {d' : Disk}

theorem remapFile_other (h : remapFile env d i ms = some d') (hj : j ≠ i) : d'.vol.row j = d.vol.row j := by
  obtain ⟨row, -, h⟩ := bind_eq_some_iff.mp h
  split at h
  · rw [← some.inj h]
  · dsimp only at h
    split_ifs at h with hnone
    · rw [← some.inj h]
    · rw [← some.inj h, retirePbas, if_neg (by simpa using hnone)]
      simp [putRow, hj]
  · simp at h

theorem torn_remap (ms : List Merge) (hlink : row.type ≠ .link)
    (hsize : row.size ≠ 0) (hwin : .windowSrc ∈ r.ents.map algo) :
    Torn { row with blob := .ast ⟨row.size, (patchAll ms r.ents).1, .none⟩ } :=
  ⟨hlink, hsize, _, rfl, rfl, by rw [patchAll_algo]; exact hwin⟩

def Windowed (i : Nat) (row₀ : Row) (d : Disk) : Prop := d.vol.row i = some row₀ ∨ Spoiled i d

theorem ready_remap (hput : env.put = true) (hm : m ∈ merges hash d₀) (hready : Ready hash d₀ d) :
    ∃ d', remapFile env d m.inode ms = some d' ∧ Ready hash d₀ d' := by
  obtain ⟨row, r, hrow, hlink, hblob⟩ := hready m hm
  obtain ⟨d', hfile, hother, hthis⟩ := remapFile_row ms hput hrow hlink hblob
  refine ⟨d', hfile, fun m' hm' => ?_⟩
  by_cases hi : m'.inode = m.inode
  · rw [hi, hthis]
    split_ifs
    · exact ⟨_, r, rfl, hlink, hblob⟩
    · exact ⟨_, _, rfl, hlink, rfl⟩
  · rw [hother _ hi]
    exact hready m' hm'

theorem spoiled_remap (hput : env.put = true)
    (hspoiled : Spoiled i d) (hfile : remapFile env d j ms = some d') : Spoiled i d' := by
  by_cases hj : j = i
  · subst hj
    obtain ⟨row, hrow, hl, hs, r, hb, ht, hwr⟩ := hspoiled
    obtain ⟨d'', hfile', -, hthis⟩ := remapFile_row ms hput hrow hl hb
    obtain rfl := some.inj (hfile.symm.trans hfile')
    split_ifs at hthis with hnone
    · exact ⟨row, hthis, hl, hs, r, hb, ht, hwr⟩
    · exact ⟨_, hthis, torn_remap ms hl hs hwr⟩
  · unfold Spoiled
    rwa [remapFile_other hfile (Ne.symm hj)]

variable {row₀ : Row} {r₀ : Recipe}

theorem windowed_remap (hput : env.put = true) (hlink : row₀.type ≠ .link) (hsize : row₀.size ≠ 0)
    (hblob : row₀.blob = .ast r₀) (hwin : .windowSrc ∈ r₀.ents.map algo)
    (hw : Windowed i row₀ d) (hfile : remapFile env d j ms = some d') : Windowed i row₀ d' ∧
      ((∃ m ∈ ms, applies m r₀.ents = true) → j = i → Spoiled i d') := by
  obtain hrow | hspoiled := hw
  · by_cases hj : j = i
    · subst hj
      obtain ⟨d'', hfile', -, hthis⟩ := remapFile_row ms hput hrow hlink hblob
      obtain rfl := some.inj (hfile.symm.trans hfile')
      split_ifs at hthis with hnone
      · refine ⟨.inl hthis, fun ⟨m, hm, happ⟩ _ => ?_⟩
        exact absurd hnone (patchAll_applies hm happ)
      · have hspoiled : Spoiled j d' := ⟨_, hthis, torn_remap ms hlink hsize hwin⟩
        exact ⟨.inr hspoiled, fun _ _ => hspoiled⟩
    · refine ⟨.inl ?_, fun _ h => absurd h hj⟩
      rwa [remapFile_other hfile (Ne.symm hj)]
  · have hspoiled' := spoiled_remap hput hspoiled hfile
    exact ⟨.inr hspoiled', fun _ _ => hspoiled'⟩

theorem spoiled_remapAll {gs : List (List Merge)} {m₀ : Merge} (hlink : row₀.type ≠ .link) (hsize : row₀.size ≠ 0)
    (hblob : row₀.blob = .ast r₀) (hwin : .windowSrc ∈ r₀.ents.map algo) (happ : applies m₀ r₀.ents = true)
    (hgs : ∀ g ∈ gs, ∀ m ∈ g, m ∈ merges hash d₀ ∧ ∀ x ∈ g.head?, m.inode = x.inode) (hlen : gs.length ≤ envs.length)
    (hput : ∀ env ∈ envs, env.put = true) (hready : Ready hash d₀ d) (hw : Windowed m₀.inode row₀ d)
    (hm₀ : m₀ ∈ gs.flatten ∨ Spoiled m₀.inode d) : Spoiled m₀.inode (remapAll gs envs d) := by
  induction gs generalizing envs d with
  | nil =>
    exact hm₀.resolve_left (by simp)
  | cons g gs ih =>
    have hrest := fun g' hg' => hgs g' (mem_cons_of_mem g hg')
    cases envs with
    | nil => simp at hlen
    | cons env envs =>
      have hlen' : gs.length ≤ envs.length := by simpa using hlen
      have hput' := fun env' h => hput env' (mem_cons_of_mem env h)
      cases g with
      | nil => exact ih hrest hlen' hput' hready hw (by simpa using hm₀)
      | cons m ms =>
        have hm := hgs (m :: ms) mem_cons_self m mem_cons_self
        obtain ⟨d', hfile, hready'⟩ := ready_remap (hput env (by simp)) hm.1 hready
        obtain ⟨hw', htear⟩ := windowed_remap (hput env (by simp)) hlink hsize hblob hwin hw hfile
        have hm0' : m₀ ∈ gs.flatten ∨ Spoiled m₀.inode d' := by
          obtain hm₀ | hspoiled := hm₀
          · obtain hmem | hmem := mem_append.mp (flatten_cons ▸ hm₀)
            · have hi := (hgs _ (by simp) m₀ hmem).2 m (by simp)
              exact .inr (htear ⟨m₀, hmem, happ⟩ hi.symm)
            · exact .inl hmem
          · exact .inr (spoiled_remap (hput env (by simp)) hspoiled hfile)
        -- a fence changes no row
        have hvol : (if env.fence then fence env.map d' else d').vol = d'.vol := by
          split_ifs
          · exact fence_vol env.map d'
          · rfl
        rw [remapAll]
        simp only [hfile]
        refine ih hrest hlen' hput' ?_ ?_ ?_
        · rwa [Ready, hvol]
        · rwa [Windowed, Spoiled, hvol]
        · rwa [Spoiled, hvol]

structure Completes (hash : List Byte → H) (envs : List Env) (d : Disk) : Prop where
  enough : (groups hash d).length ≤ envs.length
  puts : ∀ env ∈ envs, env.put = true

theorem spoiled_sweep {x : Entry} (hd : Healthy d) (hinj : Injective hash) (hend : Completes hash envs d)
    (hcand : Candidate d i row r e) (hway : GivesWay d e) (hx : x ∈ r.ents)
    (hwin : x.algo = .windowSrc) : Spoiled i (sweepDedupe hash envs d) := by
  obtain ⟨m, hm, rfl, hlba, hcur, hne⟩ := merge_of_givesWay hd hinj hcand hway
  have hc := hcand.counted
  simp only [countedRow, ne_eq, decide_eq_true_eq] at hc
  have happ : applies m r.ents = true := by
    unfold applies
    rw [hlba, find_candidate hd hcand]
    simp [hcur, hcur ▸ hne]
  have hmem : m ∈ (groups hash d).flatten := by
    rw [groups_flatten]
    exact mem_sortMerges.mpr hm
  refine spoiled_remapAll (by simp [hc.1]) hc.2.2 hcand.blob
    (mem_map.mpr ⟨x, hx, hwin⟩) happ (fun _ hg _ hm => mem_groups hg hm) hend.enough hend.puts
    (ready_init hd) (.inl hcand.has) (.inl hmem)

/-- On a volume in order, a pass that runs to its end keeps the files and their segments if and only if
no entry of a file with windows gives way to another one. -/
theorem dedupe_keeps_iff {envs : List Env} (hd : Healthy d) (hinj : Injective hash)
    (hend : Completes hash envs d) : Keeps d (sweepDedupe hash envs d) ↔ WindowsStay d := by
  refine ⟨fun hkeeps i row r e hcand hway x hx hwin => ?_, keeps_sweep envs hd hinj⟩
  obtain ⟨bs, hbs⟩ := hd.reads i row r e hcand
  obtain ⟨N, hN⟩ := (hkeeps.1 i bs).mpr hbs
  obtain ⟨row', hrow', htorn⟩ := spoiled_sweep hd hinj hend hcand hway hx hwin
  have := hN N le_rfl
  rw [torn_unread hrow' htorn] at this
  simp at this

def byteEntry (algo : Algo) (pba : Nat) : Entry := ⟨0, 1, .raw, algo, 0, 0, pba⟩

def byteRow (algo : Algo) (pba : Nat) (tail : Tail) : Row := ⟨.file, 1, .ast ⟨1, [byteEntry algo pba], tail⟩, {}⟩

/-- Two files with the same byte, at blocks 10 and 7, and one that may have a window on it, the file of inode 7.
A whole recipe with a segment at block 15 waits for a fence. -/
def sample (window : Bool) : Disk where
  vol :=
    { codecs := bareCodecs
      total := 32
      dev := fun n =>
        if n = 7 * 4096 ∨ n = 10 * 4096 ∨ n = 15 * 4096 ∨ n = 20 * 4096 then 1
        else if n = 7 * 4096 + 8 ∨ n = 10 * 4096 + 8 then 65
        else if n = 20 * 4096 + 8 then 66
        else 0
      row := fun i =>
        if i = 2 then some (byteRow .none 10 .none)
        else if i = 3 then some (byteRow .none 7 .none)
        else if i = 7 then some (byteRow .none 20 .none)
        else if i = 9 ∧ window then some (byteRow .windowSrc 7 (.windows [⟨0, 1, 0, 0⟩]))
        else none
      named := fun _ => true
      sibling := fun _ _ => none }
  names := [([97], 2), ([98], 3), ([99], 7)] ++ if window then [([100], 9)] else []
  bit := fun _ => true
  seq := fun _ => 0
  retire := [⟨5, 0, true, [15], []⟩]

variable {window : Bool}

theorem sample_row (h : (sample window).vol.row i = some row) :
    (∃ p, (i, p) ∈ [(2, 10), (3, 7), (7, 20)] ∧ row = byteRow .none p .none) ∨
      window = true ∧ i = 9 ∧ row = byteRow .windowSrc 7 (.windows [⟨0, 1, 0, 0⟩]) := by
  simp only [sample] at h
  split_ifs at h with h2 h3 h7 h9
  · exact .inl ⟨10, by simp [h2], (some.inj h).symm⟩
  · exact .inl ⟨7, by simp [h3], (some.inj h).symm⟩
  · exact .inl ⟨20, by simp [h7], (some.inj h).symm⟩
  · exact .inr ⟨h9.2, h9.1, (some.inj h).symm⟩

theorem sample_cand (h : Candidate (sample window) i row r e) :
    (∃ p, (i, p) ∈ [(2, 10), (3, 7), (7, 20)] ∧ row = byteRow .none p .none ∧ r = ⟨1, [byteEntry .none p], .none⟩ ∧
      e = byteEntry .none p) ∨
      window = true ∧ i = 9 ∧ row = byteRow .windowSrc 7 (.windows [⟨0, 1, 0, 0⟩]) ∧
        r = ⟨1, [byteEntry .windowSrc 7], .windows [⟨0, 1, 0, 0⟩]⟩ ∧ e = byteEntry .windowSrc 7 := by
  have hblob := h.blob
  have hmem := h.mem
  obtain ⟨p, hp, rfl⟩ | ⟨hw, rfl, rfl⟩ := sample_row h.has
  · obtain rfl := Blob.ast.inj hblob
    exact .inl ⟨p, hp, rfl, rfl, by simpa using hmem⟩
  · obtain rfl := Blob.ast.inj hblob
    exact .inr ⟨hw, rfl, rfl, rfl, by simpa using hmem⟩

theorem row_cand (hrow : (sample window).vol.row i = some row) (hblob : row.blob = .ast r) (he : e ∈ r.ents) :
    Candidate (sample window) i row r e := by
  have hnamed (path : List Byte) (h : (path, i) ∈ [([97], 2), ([98], 3), ([99], 7)]) :
      (path, i) ∈ (sample window).names := mem_append_left _ h
  obtain ⟨p, hp, rfl⟩ | ⟨rfl, rfl, rfl⟩ := sample_row hrow
  · obtain rfl := Blob.ast.inj hblob
    obtain rfl := mem_singleton.mp he
    simp only [mem_cons, Prod.mk.injEq, not_mem_nil, or_false] at hp
    obtain ⟨rfl, rfl⟩ | ⟨rfl, rfl⟩ | ⟨rfl, rfl⟩ := hp
    · exact ⟨⟨[97], hnamed _ (by simp), rfl⟩, hrow, rfl, rfl, by simp, by cases window <;> decide +kernel⟩
    · exact ⟨⟨[98], hnamed _ (by simp), rfl⟩, hrow, rfl, rfl, by simp, by cases window <;> decide +kernel⟩
    · exact ⟨⟨[99], hnamed _ (by simp), rfl⟩, hrow, rfl, rfl, by simp, by cases window <;> decide +kernel⟩
  · obtain rfl := Blob.ast.inj hblob
    obtain rfl := mem_singleton.mp he
    exact ⟨⟨[100], by decide, rfl⟩, hrow, rfl, rfl, by simp, by decide +kernel⟩

set_option maxRecDepth 20000 in
theorem sample_reads (hrow : (sample window).vol.row i = some row) :
    (sample window).vol.ReadsFile i [some (if i = 2 ∨ i = 3 then 65 else 66)] := by
  refine ⟨2, fun n hn => ?_⟩
  obtain ⟨n, rfl⟩ : ∃ m, n = m + 2 := ⟨n - 2, by omega⟩
  obtain ⟨p, hp, -⟩ | ⟨rfl, rfl, -⟩ := sample_row hrow
  · simp only [mem_cons, Prod.mk.injEq, not_mem_nil, or_false] at hp
    obtain ⟨rfl, -⟩ | ⟨rfl, -⟩ | ⟨rfl, -⟩ := hp <;> cases window <;> rfl
  · rfl

theorem sample_extent {p : Nat} (h : p ∈ [7, 10, 15, 20]) :
    segExtent (sample window).vol p = some 1 ∧ (p ≠ 15 → ((sample window).vol.segReadOnce p 1).isSome) := by
  simp only [mem_cons, not_mem_nil, or_false] at h
  obtain rfl | rfl | rfl | rfl := h <;> cases window <;> decide +kernel

theorem place_mem {p : Nat} (h : (i, p) ∈ [(2, 10), (3, 7), (7, 20)]) : p ∈ [7, 10, 20] := by
  simp only [mem_cons, Prod.mk.injEq, not_mem_nil, or_false] at h ⊢
  omega

theorem sample_mentions (hrow : (sample window).vol.row i = some row)
    (hblob : row.blob = .ast r) : childPbas r = [] ∧ (q ∈ mentions r → q ∈ [7, 10, 20]) := by
  obtain ⟨p, hp, rfl⟩ | ⟨-, -, rfl⟩ := sample_row hrow
  · cases hblob
    refine ⟨rfl, fun hq => ?_⟩
    obtain rfl : q = p := by simpa [mentions, childPbas, byteEntry] using hq
    exact place_mem hp
  · cases hblob
    exact ⟨rfl, fun hq => by simp [mentions, childPbas, byteEntry] at hq⟩

theorem sample_wanted (h : Wanted (sample window) q) : q ∈ [7, 10, 20] := by
  obtain ⟨i, row, r, hrow, hblob, hmem⟩ | ⟨i, row, r, e, -, ci, crow, cr, c, hprior, -, rfl⟩ := h
  · exact (sample_mentions hrow hblob).2 hmem
  · obtain ⟨p, hp, rfl, rfl, rfl⟩ | ⟨-, rfl, rfl, rfl, rfl⟩ := sample_cand hprior.cand
    · exact place_mem hp
    · decide

theorem sample_target {p : Nat} (h : Target (sample window) p) : p ∈ [7, 10, 15, 20] := by
  obtain ⟨i, row, r, e, hcand, -, rfl⟩ | ⟨x, hx, hp⟩ := h
  · obtain ⟨p, hp, rfl, rfl, rfl⟩ | ⟨-, rfl, rfl, rfl, rfl⟩ := sample_cand hcand
    · have := place_mem hp
      simp only [mem_cons, not_mem_nil, or_false, byteEntry] at this ⊢
      omega
    · decide
  · obtain rfl := mem_singleton.mp hx
    obtain rfl := mem_singleton.mp hp
    decide

theorem sample_healthy (window : Bool) : Healthy (sample window) where
  flat i row r e h x hx := by
    obtain ⟨p, -, rfl, rfl, rfl⟩ | ⟨-, rfl, rfl, rfl, rfl⟩ := sample_cand h <;>
    · obtain rfl := mem_singleton.mp hx
      simp [byteEntry]
  tailed i row r e h htail := by
    obtain ⟨p, -, rfl, rfl, rfl⟩ | ⟨-, rfl, rfl, rfl, rfl⟩ := sample_cand h
    · exact absurd rfl htail
    · exact ⟨_, mem_singleton_self _, rfl⟩
  sized i row r e h := by
    obtain ⟨p, -, rfl, rfl, rfl⟩ | ⟨-, rfl, rfl, rfl, rfl⟩ := sample_cand h <;> rfl
  numbered i row r e h := by
    obtain ⟨p, -, rfl, rfl, rfl⟩ | ⟨-, rfl, rfl, rfl, rfl⟩ := sample_cand h <;> simp
  sound i row r e h halgo := by
    obtain ⟨p, hp, rfl, rfl, rfl⟩ | ⟨-, rfl, rfl, rfl, rfl⟩ := sample_cand h
    · have hmem := place_mem hp
      simp only [mem_cons, not_mem_nil, or_false] at hmem
      exact (sample_extent (by simp only [mem_cons, byteEntry]; tauto)).2 (by simp only [byteEntry]; omega)
    · exact absurd rfl halgo
  counted p _ i row r hrow hblob hmem := by
    have hone : ∃ e, r.ents = [e] ∧ e.zone ≠ .text := by
      obtain ⟨p, -, rfl⟩ | ⟨-, -, rfl⟩ := sample_row hrow <;>
      · obtain rfl := Blob.ast.inj hblob
        exact ⟨_, rfl, by simp [byteEntry]⟩
    obtain ⟨e, hents, hzone⟩ := hone
    have hcand := row_cand hrow hblob (hents ▸ mem_singleton_self e)
    refine ⟨hcand.named, hcand.counted, by simp [(sample_mentions (q := p) hrow hblob).1], fun x hx _ => ?_⟩
    obtain rfl := mem_singleton.mp (hents ▸ hx)
    exact hzone
  apart p plen hp hplen q qlen hq hqlen hne b hlo hhi hin := by
    have hq' : q ∈ [7, 10, 15, 20] := by
      have := sample_wanted hq
      simp only [mem_cons, not_mem_nil, or_false] at this ⊢
      omega
    rw [(sample_extent (sample_target hp)).1] at hplen
    rw [(sample_extent hq').1] at hqlen
    cases hplen
    obtain rfl := some.inj hqlen
    omega
  reads i row r e h := ⟨_, sample_reads h.has⟩
  whole x hx _ p hp hw := by
    obtain rfl := mem_singleton.mp hx
    obtain rfl := mem_singleton.mp hp
    exact absurd (sample_wanted hw) (by decide)

def answers : List Env := [⟨true, false, none⟩, ⟨true, true, some []⟩]

theorem sample_completes (window : Bool) : Completes id answers (sample window) :=
  ⟨by cases window <;> decide +kernel, by simp [answers]⟩

/-- Without the window the pass keeps everything, and the second file has gone to the block of the first. -/
theorem dedupe_keeps_merged : Keeps (sample false) (sweepDedupe id answers (sample false)) ∧
    (sweepDedupe id answers (sample false)).vol.row 3 = some (byteRow .none 10 .none) := by
  refine ⟨(dedupe_keeps_iff (sample_healthy false) injective_id (sample_completes false)).mpr ?_, by decide +kernel⟩
  intro i row r e hcand _ x hx
  obtain ⟨p, -, rfl, rfl, rfl⟩ | ⟨hw, -⟩ := sample_cand hcand
  · obtain rfl := mem_singleton.mp hx
    simp [byteEntry]
  · cases hw

/-- The block the window's source is numbered like holds the bytes of an older file, so the window is
merged with it, and its table is lost. -/
theorem window_lost : (sample true).vol.ReadsFile 9 [some 66] ∧
    ∀ n, (sweepDedupe id answers (sample true)).vol.readInode n 9 = none := by
  refine ⟨sample_reads rfl, fun n => ?_⟩
  have hway : GivesWay (sample true) (byteEntry .windowSrc 7) := by
    refine ⟨2, _, _, _, ⟨row_cand rfl rfl (mem_singleton_self _), by decide +kernel, fun i row r c hc _ => ?_⟩,
      by simp [byteEntry]⟩
    obtain ⟨p, hp, rfl, rfl, rfl⟩ | ⟨-, rfl, rfl, rfl, rfl⟩ := sample_cand hc
    · simp only [mem_cons, Prod.mk.injEq, not_mem_nil, or_false] at hp
      simp only [byteEntry]
      omega
    · simp
  obtain ⟨row, hrow, htorn⟩ := spoiled_sweep (sample_healthy true) injective_id (sample_completes true)
    (row_cand (i := 9) rfl rfl (mem_singleton_self _)) hway (mem_singleton_self _) rfl
  exact torn_unread hrow htorn n

end InvariantFs.DedupeKeeps
