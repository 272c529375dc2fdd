import InvariantFs.BaseCrash
import InvariantFs.BtreeKeeps
import InvariantFs.Fold

namespace InvariantFs.FoldMerge

open ByteCodec BtreePage Btree SortedMap Fallible BtreeShape BtreeRead BtreeWrite BtreeRow Prod
open BtreeInsert BtreeDelete BtreeKeeps DeltaLog BaseRoot BaseCrash Fold Option

def applyRec (m : List (Key × Val)) (r : Key × Bool × Val) : List (Key × Val) :=
  if r.2.1 then del m r.1 else put m r.1 r.2.2

def applied (recs : List (Key × Bool × Val)) (m : List (Key × Val)) : List (Key × Val) :=
  recs.foldl applyRec m

/-- The generation of the root after the records of a log. It starts anew once the tree is empty. -/
def genAfter : List (Key × Bool × Val) → UInt64 → List (Key × Val) → UInt64
  | [], g, _ => g
  | (k, true, _) :: rs, g, m => if lookup m k = none then genAfter rs g m else genAfter rs (g + 1) (del m k)
  | (k, false, x) :: rs, g, m => genAfter rs ((if m = [] then 0 else g) + 1) (put m k x)

theorem lookup_applyRec (m : List (Key × Val)) (r : Key × Bool × Val) (k : Key) :
    lookup (applyRec m r) k = if k = r.1 then (if r.2.1 then none else some r.2.2) else lookup m k := by
  unfold applyRec
  by_cases hk : k = r.1
  · split <;> simp [lookup_del, lookup_put, hk]
  · split <;> simp [lookup_del, lookup_put, hk]

variable {recs : List (Key × Bool × Val)} {k : Key}

theorem lookup_applied_other (h : ∀ r ∈ recs, r.1 ≠ k)
    (m : List (Key × Val)) : lookup (applied recs m) k = lookup m k := by
  induction recs generalizing m with
  | nil => rfl
  | cons r recs ih =>
    have hne : k ≠ r.1 := (h r List.mem_cons_self).symm
    refine (ih (fun x hx => h x (List.mem_cons_of_mem _ hx)) _).trans ?_
    rw [lookup_applyRec, if_neg hne]

variable {r : Key × Bool × Val}

theorem lookup_applied (hnd : (recs.map fst).Nodup) (hr : r ∈ recs) (m : List (Key × Val)) :
    lookup (applied recs m) r.1 = if r.2.1 then none else some r.2.2 := by
  induction recs generalizing m with
  | nil => simp at hr
  | cons x recs ih =>
    obtain ⟨hx, hnd⟩ := List.nodup_cons.mp hnd
    obtain rfl | hr := List.mem_cons.mp hr
    · have hrest : ∀ y ∈ recs, y.1 ≠ r.1 := by
        intro y hy he
        exact hx (he ▸ List.mem_map_of_mem (f := fst) hy)
      refine (lookup_applied_other hrest _).trans ?_
      rw [lookup_applyRec, if_pos rfl]
    · exact ih hnd hr _

theorem mem_snapshot {ram : Recent} :
    r ∈ snapshot ram ↔ ∃ s, ram.index.lookup r.1 = some s ∧ s.del = r.2.1 ∧ s.val = r.2.2 := by
  rw [snapshot, List.mem_insertionSort, List.mem_map]
  constructor
  · rintro ⟨⟨k, s⟩, hm, rfl⟩
    exact ⟨s, AList.mem_lookup_iff.mpr hm, rfl, rfl⟩
  · rintro ⟨s, hs, hd, hv⟩
    exact ⟨⟨r.1, s⟩, AList.mem_lookup_iff.mp hs, by rw [hd, hv]⟩

theorem nodup_snapshot (ram : Recent) : ((snapshot ram).map fst).Nodup := by
  have hperm := (List.perm_insertionSort (fun a b : Key × Bool × Val => a.1 ≤ b.1)
    (ram.index.entries.map fun e => (e.1, e.2.del, e.2.val))).map fst
  refine hperm.nodup_iff.mpr ?_
  rw [List.map_map]
  exact ram.index.nodupKeys

theorem lookup_snapshot (ram : Recent) (m : List (Key × Val)) (k : Key) :
    some (lookup (applied (snapshot ram) m) k) = overlaid (answer ram k) (some (lookup m k)) := by
  cases hk : ram.index.lookup k with
  | none =>
    rw [answer, hk, lookup_applied_other]
    · rfl
    · rintro r hr rfl
      obtain ⟨s, hs, -⟩ := mem_snapshot.mp hr
      exact absurd (hk.symm.trans hs) (by simp)
  | some s =>
    have hr : (k, s.del, s.val) ∈ snapshot ram := mem_snapshot.mpr ⟨s, hk, rfl, rfl⟩
    rw [answer, hk, lookup_applied (nodup_snapshot ram) hr]
    cases hd : s.del <;> simp [overlaid, hd]

variable {crc : List Byte → UInt32} {v : Vol} {root : Ptr} {m : List (Key × Val)} {ps : List UInt64} {h : Nat}

theorem search_found (ht : Tree crc v root h m ps) {o : Option Val} (hs : search crc v root k = some o) :
    o = lookup m k := by
  by_cases hh : h < maxDepth
  · exact some.inj (hs.symm.trans (tree_search ht hh k))
  · obtain ⟨rs, ⟨h0, rfl⟩ | ⟨h0, t, rfl, rfl⟩, hr, -⟩ := ht
    · rw [search, if_pos h0] at hs
      obtain rfl := some.inj hs
      rw [← hr.contents]
      rfl
    · rw [search, if_neg h0, searchLoop_deep crc (hr.held _ List.mem_cons_self) hr.chain.1
        (WithTop.coe_lt_top k) (Nat.not_lt.mp hh)] at hs
      exact absurd hs (by simp)

theorem merge_keeps (recs : List (Key × Bool × Val)) (root : Ptr) : Keeps Frame (merge crc recs root) := by
  induction recs generalizing root with
  | nil => exact keeps_pure _
  | cons r recs ih =>
    obtain ⟨k, _ | _, x⟩ := r
    · exact keeps_seq (upsert_keeps crc _ _ _) fun _ => ih _
    · refine keeps_seq (peek_keeps _) fun found => ?_
      cases found with
      | none => exact ih _
      | some y => exact keeps_seq (delete_keeps crc _ _) fun _ => ih _

theorem rootPage_keeps (old root : Ptr) : Keeps Frame (rootPage crc old root) := by
  unfold rootPage
  split
  · exact keeps_seq (place_keeps crc _ _) fun _ => keeps_pure _
  · exact keeps_pure _

def From (v : Vol) (ps ps' : List UInt64) : Prop := ∀ p ∈ ps', p ∈ ps ∨ v.bit p = false

variable {v' : Vol}

theorem from_trans (hf : Frame v v') {qs rs : List UInt64} (h : From v ps qs)
    (h' : From v' qs rs) : From v ps rs := by
  intro p hp
  obtain hp | hp := h' p hp
  · exact h p hp
  · exact .inr (frame_free hf hp)

variable {root' : Ptr} {key : Key}

theorem rootPage_some {old : Ptr} (h : runs (rootPage crc old root) v = (some root', v')) :
    (root.pba ≠ 0 ∧ root = root' ∧ v = v') ∨ readNode crc v' root' = some (0, []) ∧
      ∃ gen, runs (place crc gen (pageBytes crc 0 gen [])) v = (some root'.pba, v') := by
  unfold rootPage at h
  by_cases h0 : root.pba = 0
  · rw [if_pos h0] at h
    obtain ⟨pba, v2, hplace, hpure⟩ := bind_some.mp h
    obtain ⟨rfl, rfl⟩ := ended hpure
    exact .inr ⟨BtreeMap.readNode_empty hplace _, _, hplace⟩
  · rw [if_neg h0] at h
    exact .inl ⟨h0, ended h⟩

section

variable (ht : Tree crc v root h m ps)

include ht

theorem upsert_tree {val : Val} (hrun : runs (upsert crc root key val) v = (some root', v')) :
    Frame v v' ∧ root'.gen = (if m = [] then 0 else root.gen) + 1 ∧
      ∃ h' ps', Tree crc v' root' h' (put m key val) ps' ∧ From v ps ps' := by
  obtain ⟨rs, hroot, hr, rfl⟩ := ht
  obtain ⟨hf, hgen, h', rs', -, -, hroot', hr', hmade, -⟩ := upsert_row hroot hr hrun
  refine ⟨hf, ?_, h', rowPages rs', ⟨rs', hroot', hr', rfl⟩, hmade⟩
  simp only [hgen, rooted_nil hroot hr]

theorem delete_tree (hkey : lookup m key ≠ none) (hrun : runs (delete crc root key) v = (some root', v')) :
    Frame v v' ∧ root'.gen = root.gen + 1 ∧ ∃ h' ps', Tree crc v' root' h' (del m key) ps' ∧ From v ps ps' := by
  obtain ⟨rs, hroot, hr, rfl⟩ := ht
  obtain ⟨hf, hgen, h', rs', -, hroot', hr', hmade, -⟩ := delete_row hroot hr hrun
  refine ⟨hf, hgen.resolve_left ?_, h', rowPages rs', ⟨rs', hroot', hr', rfl⟩, hmade⟩
  rintro ⟨-, hdel⟩
  have := lookup_del m key key
  rw [hdel, if_pos rfl] at this
  exact hkey this

theorem merge_cons (hrun : runs (merge crc (r :: recs) root) v = (some root', v')) :
    r.2.1 = true ∧ lookup m r.1 = none ∧ runs (merge crc recs root) v = (some root', v') ∨
      (r.2.1 = true → lookup m r.1 ≠ none) ∧ ∃ root₁ v₁ h₁ ps₁, Frame v v₁ ∧
        root₁.gen = (if m = [] then 0 else root.gen) + 1 ∧ Tree crc v₁ root₁ h₁ (applyRec m r) ps₁ ∧
        From v ps ps₁ ∧ runs (merge crc recs root₁) v₁ = (some root', v') := by
  obtain ⟨k, _ | _, x⟩ := r
  · obtain ⟨root₁, v₁, hup, hrest⟩ := bind_some.mp hrun
    obtain ⟨hf, hgen, h₁, ps₁, ht1, hfrom⟩ := upsert_tree ht hup
    exact .inr ⟨by simp, root₁, v₁, h₁, ps₁, hf, hgen, ht1, hfrom, hrest⟩
  · obtain ⟨found, v₁, hsearch, hrest⟩ := bind_some.mp hrun
    obtain ⟨hs, rfl⟩ := mk.inj hsearch
    have hfound := search_found ht hs
    cases found with
    | none => exact .inl ⟨rfl, hfound.symm, hrest⟩
    | some y =>
      have hkey : lookup m k ≠ none := by simp [← hfound]
      have hne : m ≠ [] := by
        rintro rfl
        exact hkey rfl
      obtain ⟨root₁, v2, hdelete, hrest⟩ := bind_some.mp hrest
      obtain ⟨hf, hgen, h₁, ps₁, ht1, hfrom⟩ := delete_tree ht hkey hdelete
      exact .inr ⟨fun _ => hkey, root₁, v2, h₁, ps₁, hf, by rw [hgen, if_neg hne], ht1, hfrom, hrest⟩

theorem merge_tree
    (hrun : runs (merge crc recs root) v = (some root', v')) : Frame v v' ∧ root'.gen = genAfter recs root.gen m ∧
      ∃ h' ps', Tree crc v' root' h' (applied recs m) ps' ∧ From v ps ps' := by
  induction recs generalizing root v h m ps with
  | nil =>
    obtain ⟨rfl, rfl⟩ := ended hrun
    exact ⟨frame_refl v, rfl, h, ps, ht, fun p hp => .inl hp⟩
  | cons r recs ih =>
    obtain ⟨hdel, hnone, hrest⟩ | ⟨hkey, root1, v1, h1, ps1, hf, hgen, ht1, hfrom, hrest⟩ := merge_cons ht hrun
    · obtain ⟨k, _ | _, x⟩ := r
      · cases hdel
      have hsame : del m k = m := by
        refine del_absent fun r hr he => ?_
        rw [lookup, map_eq_none_iff, List.find?_eq_none] at hnone
        exact hnone r hr (by simpa using he)
      have happ : applied ((k, true, x) :: recs) m = applied recs m := by
        change applied recs (del m k) = _
        rw [hsame]
      rw [happ, genAfter, if_pos hnone]
      exact ih ht hrest
    · obtain ⟨hf', hgen', h', ps', ht', hfrom'⟩ := ih ht1 hrest
      refine ⟨frame_trans hf hf', ?_, h', ps', ht', from_trans hf hfrom hfrom'⟩
      obtain ⟨k, _ | _, x⟩ := r
      · rw [hgen', hgen, genAfter]
        rfl
      · have hne : m ≠ [] := by
          rintro rfl
          exact hkey rfl rfl
        rw [hgen', hgen, if_neg hne, genAfter, if_neg (hkey rfl)]
        rfl

end

end InvariantFs.FoldMerge
