import InvariantFs.FoldLookup

namespace InvariantFs.RootCrash

open ByteCodec CachedStore BtreePage Btree SortedMap Fallible CrashTrace
open BtreeMap DeltaLog BaseRoot BaseCrash Fold FoldMerge FoldCrash FoldSafe
open FoldPublish RootHistory RootPublish FoldLookup List Option

variable (crc : List Byte → UInt32)

/-- After a power cut the next mount reads one of two roots. Every page below it is intact and marked
allocated in the bitmap on the medium. -/
def Survives (old : UInt64) (new : Option UInt64) (s : Fs) : Prop :=
  ∀ l, ∃ pba ps, rootRead crc (recover crc l s).vol (recover crc l s).rt = some (some pba) ∧
    (pba = old ∨ new = some pba) ∧
    Sturdy crc (recover crc l s).vol (ptrSet pba ((recover crc l s).vol.dev.view pba) bpRoot) ps ∧
    ∀ p ∈ ps, (s.tear l).bits.view (bitCell p) p = true

variable {crc}

theorem rootRead_either {v : Vol} {rt : Rt} {old new : UInt64} {a b : List Byte} (hold : Rt.slot rt rt.seq = old)
    (hnew : Rt.slot rt (rt.seq + 1) = new) (ha : slotPage crc v old = some a) (hb : slotPage crc v new = some b) :
    rootRead crc v rt = some (some old) ∨ rootRead crc v rt = some (some new) := by
  rw [rootRead_eq, hold, hnew, ha, hb]
  dsimp only
  split_ifs
  · exact .inr rfl
  · exact .inl rfl

variable {t : Fs}

section

variable {s : Fs} {old root : Ptr} {h : Nat} {m : List (Key × Val)} {ps ps' qs : List UInt64} {v : Vol}
variable {good : Rt → (Nat → List Byte) → Prop} {new : Option UInt64} {l : Loss}

theorem survives_root (hfirm : ∀ p ∈ ps, Firm t p) (hst : Sturdy crc t.vol root ps)
    (h0 : root.pba ≠ 0) (hnew : root.pba = old.pba ∨ new = some root.pba)
    (hread : rootRead crc (recover crc l t).vol (recover crc l t).rt = some (some root.pba)) :
    ∃ pba ps, rootRead crc (recover crc l t).vol (recover crc l t).rt = some (some pba) ∧
      (pba = old.pba ∨ new = some pba) ∧
      Sturdy crc (recover crc l t).vol (ptrSet pba ((recover crc l t).vol.dev.view pba) bpRoot) ps ∧
      ∀ p ∈ ps, (t.tear l).bits.view (bitCell p) p = true := by
  have hst' : Sturdy crc (recover crc l t).vol root ps := sturdy_agree (firm_recover hfirm l) hst
  refine ⟨root.pba, ps, hread, hnew, ?_, fun p hp => firm_torn (hfirm p hp) l.bits⟩
  rw [(sturdy_slot hst' h0).2]
  exact sturdy_flags hst' bpRoot

theorem survives_old (he : Entry crc s old h m ps) (h0 : old.pba ≠ 0)
    (hfirm : ∀ p ∈ ps, Firm t p) (hstill : ∀ p ∈ spare s.rt, ∀ q ∈ t.vol.dev.pending, q.cell ≠ p)
    (ha : Alike ps (spare s.rt) s.vol t.vol) (hrt : (recover crc l t).rt = s.rt) :
    rootRead crc (recover crc l t).vol (recover crc l t).rt = some (some old.pba) := by
  have hroot : baseRoot crc (recover crc l t).vol s.rt = some old :=
    old_root he (alike_trans ha (alike_recover hfirm hstill l))
  rw [hrt]
  obtain ⟨o, hread, ho⟩ := map_eq_some_iff.mp hroot
  cases o with
  | none => exact absurd (congrArg Ptr.pba ho).symm h0
  | some pba =>
    obtain rfl : pba = old.pba := congrArg Ptr.pba ho
    exact hread

theorem survives_before (he : Entry crc s old h m ps) (h0 : old.pba ≠ 0)
    (ht : Steady (spare s.rt ++ ps) [] s.vol (fun rt _ => rt = s.rt) t) : Survives crc old.pba new t := by
  intro l
  have hfirm : ∀ p ∈ ps, Firm t p := fun p hp => ht.firm p (mem_append_right _ hp)
  have ha := alike_spare ht.alike
  refine survives_root hfirm (sturdy_agree ha.agree (.inl ⟨h, m, he.tree⟩)) h0 (.inl rfl) ?_
  exact survives_old he h0 hfirm (fun p hp => (ht.firm p (mem_append_left _ hp)).still) ha (ht.good l.rt l.seg)

def Named (rt : Rt) (pba : UInt64) (rt' : Rt) : Prop :=
  rt' ∈ [rt, Rt.publish rt pba, Rt.logless (Rt.publish rt pba)]

theorem survives_after (he : Entry crc s old h m ps) (h0 : old.pba ≠ 0) (h1 : root.pba ≠ 0)
    (ha : Alike ps (spare s.rt) s.vol v) (hst : Sturdy crc v root ps')
    (ht : Steady (ps ++ ps') (spare s.rt) v (fun rt _ => Named s.rt root.pba rt) t) :
    Survives crc old.pba (some root.pba) t := by
  intro l
  have hfirm : ∀ p ∈ ps, Firm t p := fun p hp => ht.firm p (mem_append_left _ hp)
  have hfirm' : ∀ p ∈ ps', Firm t p := fun p hp => ht.firm p (mem_append_right _ hp)
  have ha' : Alike ps (spare s.rt) s.vol t.vol := alike_trans ha
    ⟨agree_mono ht.alike.agree fun _ hp => mem_append_left _ hp, ht.alike.same⟩
  have hold : Sturdy crc t.vol old ps := sturdy_agree ha'.agree (.inl ⟨h, m, he.tree⟩)
  have hnew : Sturdy crc t.vol root ps' :=
    sturdy_agree (agree_mono ht.alike.agree fun _ hp => mem_append_right _ hp) hst
  have hnamed : Named s.rt root.pba (recover crc l t).rt := ht.good l.rt l.seg
  by_cases hrt : (recover crc l t).rt = s.rt
  · exact survives_root hfirm hold h0 (.inl rfl) (survives_old he h0 hfirm ht.still ha' hrt)
  obtain ⟨hs1, hs2⟩ := slots_publish s.rt root.pba
  have hslots : Rt.slot (recover crc l t).rt (recover crc l t).rt.seq = old.pba ∧
      Rt.slot (recover crc l t).rt ((recover crc l t).rt.seq + 1) = root.pba := by
    simp only [Named, mem_cons, not_mem_nil, or_false] at hnamed
    obtain heq | heq | heq := hnamed
    · exact absurd heq hrt
    all_goals
      rw [heq]
      exact ⟨hs1.trans he.kept.symm, hs2⟩
  obtain hread | hread := rootRead_either (v := (recover crc l t).vol) hslots.1 hslots.2
    (sturdy_slot (sturdy_agree (firm_recover hfirm l) hold) h0).1
    (sturdy_slot (sturdy_agree (firm_recover hfirm' l) hnew) h1).1
  · exact survives_root hfirm hold h0 (.inl rfl) hread
  · exact survives_root hfirm' hnew h1 (.inr rfl) hread

def foldRoot (crc : List Byte → UInt32) (s : Fs) (old : Ptr) : Option UInt64 :=
  (runs (do let root ← merge crc (snapshot s.ram) old; rootPage crc old root) s.vol).1.map Ptr.pba

theorem fold_survives (he : Entry crc s old h m ps) (h0 : old.pba ≠ 0) (env : Fold.Env) :
    Triple (Survives crc old.pba (foldRoot crc s old)) (fun t => t = s) (fold crc env)
      (fun _ => Survives crc old.pba (foldRoot crc s old)) (Survives crc old.pba (foldRoot crc s old)) := by
  obtain ⟨-, -, -, -, hmed⟩ := heal_frame crc env.heal s
  have hafter : ∀ {root h' ps' v}, Made crc s old m ps root h' ps' v → ∀ t,
      Steady (ps ++ ps') (spare s.rt) v (fun rt _ => Named s.rt root.pba rt) t →
        Survives crc old.pba (foldRoot crc s old) t := by
    intro root h' ps' v hm t ht
    have hroot : foldRoot crc s old = some root.pba := by rw [foldRoot, hm.run, map_some]
    rw [hroot]
    exact survives_after he h0 hm.nonzero hm.alike (.inl ⟨_, _, hm.tree⟩) ht
  refine triple_mono (fold_triple he env (fun rt _ => rt = s.rt)
    (fun root _ _ rt _ => Named s.rt root.pba rt) (fun t ht => survives_before he h0 ht) ?_
    fun hm => ⟨hafter hm, fun rt hrt => hrt⟩) (fun _ ht => ht) ?_ fun _ ht => ht
  · intro a _
    rw [hmed]
    exact idle_torn he a
  · rintro - t (⟨-, rfl⟩ | ⟨root, h', ps', v, hm, ht, -⟩)
    · refine survives_before he h0 ⟨fun p hp => ?_, by simp, alike_self _ _ _, fun a _ => idle_torn he a⟩
      exact (mem_append.mp hp).elim (he.spare p) (he.firm p)
    · exact hafter hm t ht

def editRoot (crc : List Byte → UInt32) (s : Fs) (old : Ptr) (e : Edit) : Option UInt64 :=
  (runs (do let root ← edits crc [e] old; rootPage crc old root) s.vol).1.map Ptr.pba

theorem round_survives (he : Entry crc s old h m ps) (h0 : old.pba ≠ 0) (e : Edit) (env : Commit) :
    Triple (Survives crc old.pba (editRoot crc s old e)) (fun t => t = s) (round crc [e] env)
      (fun _ => Survives crc old.pba (editRoot crc s old e)) (Survives crc old.pba (editRoot crc s old e)) := by
  have hafter : ∀ {root ps' v}, Edited crc s old e ps root ps' v → ∀ t,
      Steady (ps ++ ps') (spare s.rt) v (fun rt _ => Named s.rt root.pba rt) t →
        Survives crc old.pba (editRoot crc s old e) t := by
    intro root ps' v hm t ht
    have hroot : editRoot crc s old e = some root.pba := by rw [editRoot, hm.run, map_some]
    rw [hroot]
    exact survives_after he h0 hm.nonzero hm.alike hm.sturdy ht
  refine triple_mono (round_triple he e env (fun rt _ => rt = s.rt) (fun root _ _ rt _ => Named s.rt root.pba rt)
    (fun t ht => survives_before he h0 ht) (fun a _ => idle_torn he a) fun hm => ⟨hafter hm, fun rt hrt => ?_⟩)
    (fun _ ht => ht) ?_ fun _ ht => ht
  · simp only [mem_cons, not_mem_nil, or_false] at hrt
    simp only [Named, mem_cons, not_mem_nil, or_false]
    exact hrt.imp_right .inl
  · rintro a t ⟨-, ps', v, hm, ht⟩
    exact hafter hm t ht

end

theorem visited {α : Type} {S : Fs → Prop} {x : Act (Run Fs) α} {s : Fs}
    (h : Triple S (fun t => t = s) x (fun _ => S) S) :
    t ∈ (runs x ⟨s, []⟩).2.past ∨ t = (runs x ⟨s, []⟩).2.now → S t := by
  obtain ⟨hpast, hsome, hnone⟩ := h ⟨s, []⟩ rfl
  rintro (ht | rfl)
  · exact (hpast t ht).resolve_left not_mem_nil
  · cases ho : (runs x ⟨s, []⟩).1 with
    | none => exact hnone ho
    | some a => exact hsome a ho

theorem grows_commit (ok : Bool) (mirror final : Answer) : Keeps Grows (rtCommit ok mirror final) := by
  refine grows_bind (grows_bind (grows_look _) fun _ => grows_bind (grows_change _) fun _ => ?_)
    fun _ => grows_barrier final
  refine grows_bind (grows_look _) fun s => ?_
  split_ifs
  · exact grows_barrier mirror
  · exact fun _ _ ht => ht

theorem grows_flush (ok : Bool) : Keeps Grows (flush ok) := grows_bind (grows_look _) fun _ => grows_change _

variable (crc) in
theorem first_visited (env : Fold.Env) {s : Fs} (hne : s.ram.index.entries ≠ []) :
    deltaHeal crc env.heal s ∈ (runs (fold crc env) ⟨s, []⟩).2.past := by
  let s1 := deltaHeal crc env.heal s
  have hprepare : s1 ∈ (runs (prepare crc env) ⟨s, []⟩).2.past := by
    rw [prepare, runs_bind, change, runs_act]
    dsimp only
    rw [runs_bind, mark, runs_act]
    refine (?_ : Keeps Grows _) ⟨s1, [s1]⟩ s1 mem_cons_self
    refine grows_bind (grows_look _) fun _ => grows_bind (grows_look _) fun _ => grows_bind (grows_look _) fun _ =>
      grows_bind (grows_look _) fun _ => grows_bind (grows_zoom _ _ _) fun _ => ?_
    refine grows_bind (grows_flush _) fun _ => grows_bind (grows_barrier _) fun _ => ?_
    exact grows_bind (grows_look _) fun _ => grows_bind (grows_look _) fun _ _ _ ht => ht
  rw [fold, runs_bind, look, runs_act]
  dsimp only
  rw [if_neg hne]
  refine grows_past hprepare fun _ => ?_
  refine grows_bind (grows_bind (grows_look _) fun _ => grows_bind (grows_flush _) fun _ =>
    grows_bind (grows_change _) fun _ => grows_commit _ _ _) fun _ => ?_
  refine grows_bind (grows_look _) fun _ => grows_bind (grows_attempt ?_) fun _ => ?_
  · exact grows_bind (grows_change _) fun _ => grows_bind (grows_commit _ _ _) fun _ => grows_change _
  · exact grows_bind (grows_change _) fun _ => grows_bind (grows_change _) fun _ => grows_look _

/-- From a settled volume, a power cut in a fold or in the publish of one edit, or right after it, leaves
the root that was published before or the new one. -/
theorem root_survives {s : Fs} (hs : Settled crc s) {old : Ptr} (hold : baseRoot crc s.vol s.rt = some old)
    (h0 : old.pba ≠ 0) :
    (∀ env t, t ∈ (runs (fold crc env) ⟨s, []⟩).2.past ∨ t = (runs (fold crc env) ⟨s, []⟩).2.now →
      Survives crc old.pba (foldRoot crc s old) t) ∧
    ∀ e env t, t ∈ (runs (round crc [e] env) ⟨s, []⟩).2.past ∨ t = (runs (round crc [e] env) ⟨s, []⟩).2.now →
      Survives crc old.pba (editRoot crc s old e) t := by
  obtain ⟨old', h, m, ps, he⟩ := entry_of_settled hs
  obtain rfl := some.inj (hold.symm.trans he.root)
  exact ⟨fun env t => visited (fold_survives he h0 env), fun e env t => visited (round_survives he h0 e env)⟩

/-- The volume with one record, while a record is deleted from it. -/
theorem root_survives_first : ∃ (s : Fs) (old : Ptr), Settled crc32c s ∧ baseRoot crc32c s.vol s.rt = some old ∧
    old.pba ≠ 0 ∧ Survives crc32c old.pba (foldRoot crc32c s old) (runs (fold crc32c obliging) ⟨s, []⟩).2.now ∧
      Survives crc32c old.pba (editRoot crc32c s old (.del [1]))
        (runs (round crc32c [.del [1]] willing) ⟨s, []⟩).2.now := by
  obtain ⟨r, root, -, h0, -, -, hs, hread, -⟩ := first_settled crc32c roomy_blankFs
  have hall := root_survives (hs refillLog) hread h0
  exact ⟨_, _, hs refillLog, hread, h0, hall.1 obliging _ (.inr rfl), hall.2 (.del [1]) willing _ (.inr rfl)⟩

def lateLog : DeltaLog.Recent := { DeltaIndex.Ram.empty with index := AList.insert [3] ⟨0, 0, 0, false, [3]⟩ ∅ }

theorem snapshot_lateLog : snapshot lateLog = [([3], false, [3])] := by decide

theorem late_root {s : Fs} {old : Ptr} {h : Nat} {m : List (Key × Val)} {ps : List UInt64}
    (ht : Tree crc s.vol old h m ps) (h0 : old.pba ≠ 0) (hgen : old.gen = 1) (hm : m ≠ []) (hram : s.ram = lateLog) :
    foldRoot crc s old ≠ some old.pba := by
  rw [foldRoot, hram, snapshot_lateLog]
  intro hroot
  obtain ⟨root, hrun, hpba⟩ := map_eq_some_iff.mp hroot
  obtain ⟨root1, v1, hmerge, hpage⟩ := bind_some.mp (Prod.ext hrun rfl)
  obtain ⟨root2, v2, hup, hpure⟩ := bind_some.mp hmerge
  obtain ⟨rfl, rfl⟩ := ended hpure
  obtain ⟨hf, hgen', h', ps', ht', -⟩ := upsert_tree ht hup
  have hne : root2.pba ≠ 0 := by
    intro hz
    have hk := lookup_put m [3] [3] [3]
    rw [(tree_null ht' hz).1, if_pos rfl] at hk
    exact absurd hk (by simp [SortedMap.lookup])
  rw [rootPage, if_neg hne] at hpage
  obtain rfl := some.inj (Prod.mk.inj hpage).1
  have hold : Tree crc v2 old h m ps := tree_agree (agree_frame hf fun p hp => (tree_pages ht p hp).2.2) ht
  have hsame : root2.gen = old.gen := by rw [← tree_gen ht' hne, hpba, tree_gen hold h0]
  rw [hgen', if_neg hm, hgen] at hsame
  exact absurd hsame (by decide)

/-- The root of a fold that emptied and refilled the base is gone after a power cut in the next fold,
before this has written anything: the one before it is read. -/
theorem stale_root_back : ∃ (r r' : Run Fs) (root root' : Ptr) (t : Fs) (l : Loss),
    runs (round crc32c [.put [1] [1]] willing) ⟨blankFs, []⟩ = (some (.null, root), r) ∧
      runs (fold crc32c obliging) ⟨{ r.now with ram := refillLog }, []⟩ = (some (), r') ∧
      Rt.slot r'.now.rt (r'.now.rt.seq + 1) = root'.pba ∧
      t ∈ (runs (fold crc32c obliging) ⟨{ r'.now with ram := lateLog }, []⟩).2.past ∧
      rootRead crc32c (recover crc32c l t).vol (recover crc32c l t).rt = some (some root.pba) ∧
      root.pba ≠ root'.pba ∧
      foldRoot crc32c { r'.now with ram := lateLog } { root with flags := bpRoot } ≠ some root.pba := by
  obtain ⟨r, r', root, root', hrun, h0, hgen, hs, hread, htree, hfold, hhome, hne, hmade⟩ := refill_folded crc32c
  obtain ⟨old, h, m, ps, he⟩ := entry_of_settled hs
  obtain rfl : { root with flags := bpRoot } = old := some.inj (hread.symm.trans he.root)
  obtain rfl := tree_unique (tree_flags htree bpRoot) he.tree
  obtain hempty | ⟨root1, h', ps', v, hm, ht, hrt, -⟩ := fold_done he hfold
  · exact absurd hempty (by decide : refillLog.index.entries ≠ [])
  obtain rfl : root1 = root' := some.inj (hm.run.symm.trans hmade)
  have hgen1 : root1.gen = 1 := by
    rw [hm.gen]
    change genAfter (snapshot refillLog) root.gen _ = 1
    rw [snapshot_refillLog, hgen]
    decide
  obtain ⟨hs1, hs2⟩ := slots_publish r.now.rt root1.pba
  let t : Fs := { r'.now with ram := lateLog }
  let l : Loss := ⟨[], [], [], []⟩
  have hfirm : ∀ p ∈ ps ++ ps', Firm t p := fun p hp => by
    obtain ⟨h1, h2, h3, h4⟩ := ht.firm p hp
    exact ⟨h1, h2, h3, h4⟩
  have hagree : Agree (ps ++ ps') v (recover crc32c l t).vol := agree_trans ht.alike.agree (firm_recover hfirm l)
  have hold : Tree crc32c (recover crc32c l t).vol { root with flags := bpRoot } h [([1], [1])] ps :=
    tree_agree (agree_trans hm.alike.agree (agree_mono hagree fun _ hp => mem_append_left _ hp)) he.tree
  have hnew : Tree crc32c (recover crc32c l t).vol root1 h' _ ps' :=
    tree_agree (agree_mono hagree fun _ hp => mem_append_right _ hp) hm.tree
  have hrt' : (recover crc32c l t).rt = Rt.logless (Rt.publish r.now.rt root1.pba) := by
    change (r'.now.med.rt.tear []).view () = _
    rw [hhome, tear_idle rfl]
    exact hrt
  have hentries : lateLog.index.entries ≠ [] := by decide
  refine ⟨r, r', root, root1, t, l, hrun, hfold, ?_, first_visited crc32c obliging hentries, ?_, hne.symm, ?_⟩
  · rw [hrt]
    exact hs2
  · rw [hrt']
    refine rootRead_next (hs1.trans he.kept.symm) (tree_slot hold h0).2.1 fun b hb => ?_
    have hslot : Rt.slot (Rt.logless (Rt.publish r.now.rt root1.pba))
        ((Rt.logless (Rt.publish r.now.rt root1.pba)).seq + 1) = root1.pba := hs2
    rw [hslot] at hb
    rw [(slotPage_some hb).2, tree_gen hnew hm.nonzero, tree_gen hold h0, hgen1]
    exact UInt64.le_of_eq hgen.symm
  · have hnow : Tree crc32c t.vol { root with flags := bpRoot } h [([1], [1])] ps :=
      tree_agree (agree_trans hm.alike.agree
        (agree_mono ht.alike.agree fun _ hp => mem_append_left _ hp)) he.tree
    exact late_root hnow h0 hgen (by simp) rfl

end InvariantFs.RootCrash
