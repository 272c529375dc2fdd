import InvariantFs.LinkHistory

namespace InvariantFs.LinkPrefix

open ByteCodec Fallible Namespace NamespaceSpec LinkCount LinkHistory List Option Function Set

structure Safe (g : View) : Prop where
  rooted : ∀ p n id, g (.dirent p n) = some (.child id) → ∃ row, g (.row id) = some (.row row)
  within : ∀ id row, g (.row id) = some (.row row) → (links g id).encard ≤ row.nlink

variable {k : Key} {v : Option Val}

section

variable {g g' : View} {id p : Nat} {n : Name} {row : Row}

section

variable (h : Safe g)

include h

theorem safe_step (id : Nat) (hrow : ∀ i, i ≠ id → g' (.row i) = g (.row i))
    (hlinks : ∀ i, i ≠ id → links g' i ⊆ links g i) (hroot : (∃ r, g' (.row id) = some (.row r)) ∨ links g' id = ∅)
    (hid : ∀ r, g' (.row id) = some (.row r) → (links g' id).encard ≤ r.nlink) : Safe g' := by
  refine ⟨fun p n i hk => ?_, fun i r hr => ?_⟩
  · by_cases hi : i = id
    · obtain rfl := hi
      exact hroot.resolve_right (nonempty_of_mem (mem_links.mpr hk)).ne_empty
    · rw [hrow i hi]
      exact h.rooted p n i (mem_links.mp (hlinks i hi (mem_links.mpr hk)))
  · by_cases hi : i = id
    · obtain rfl := hi
      exact hid r hr
    · exact (encard_le_encard (hlinks i hi)).trans (h.within i r (hrow i hi ▸ hr))

theorem safe_row (hle : (links g id).encard ≤ row.nlink) : Safe (update g (.row id) (some (.row row))) := by
  refine safe_step h id (fun i hi => update_of_ne (by simp [hi]) _ _) (fun i _ => (links_row _).subset)
    (.inl ⟨row, update_self ..⟩) fun r hr => ?_
  rw [update_self] at hr
  obtain rfl := Val.row.inj (some.inj hr)
  rw [links_row]
  exact hle

theorem safe_bind (hrow : g (.row id) = some (.row row))
    (hle : (insert (.dirent p n) (links g id)).encard ≤ row.nlink) :
    Safe (update g (.dirent p n) (some (.child id))) := by
  have hrows : ∀ i, update g (.dirent p n) (some (.child id)) (.row i) = g (.row i) := fun i =>
    update_of_ne (by simp) _ _
  refine safe_step h id (fun i _ => hrows i) (fun i hi => ?_) (.inl ⟨row, (hrows id).trans hrow⟩) fun r hr => ?_
  · rw [links_other (by simp [hi.symm])]
    exact sdiff_subset
  · obtain rfl := Val.row.inj (some.inj (((hrows id).trans hrow).symm.trans hr))
    rw [links_bind]
    exact hle

theorem safe_unbind : Safe (update g (.dirent p n) none) := by
  refine ⟨fun q m i hk => ?_, fun i r hr => ?_⟩
  · rw [update_of_ne (by simp)]
    have hmem := mem_links.mpr hk
    rw [links_other (by simp)] at hmem
    exact h.rooted q m i (mem_links.mp hmem.1)
  · rw [update_of_ne (by simp)] at hr
    rw [links_other (by simp)]
    exact (encard_le_encard sdiff_subset).trans (h.within i r hr)

theorem safe_delete (hno : links g id = ∅) : Safe (update g (.row id) none) := by
  refine safe_step h id (fun i hi => update_of_ne (by simp [hi]) _ _) (fun i _ => (links_row _).subset)
    (.inr ((links_row _).trans hno)) fun r hr => ?_
  rw [update_self] at hr
  cases hr

theorem safe_xattr (hk : k.isXattr id = true) : Safe (update g k v) := by
  cases k with
  | row i => cases hk
  | dirent p n => cases hk
  | xattr i c =>
    refine ⟨fun q m i hk => ?_, fun i r hr => ?_⟩
    · rw [update_of_ne (by simp)] at hk ⊢
      exact h.rooted q m i hk
    · rw [update_of_ne (by simp)] at hr
      rw [links_congr fun q m => update_of_ne (by simp) _ _]
      exact h.within i r hr

theorem safe_new (hempty : links g id = ∅) (hone : 1 ≤ row.nlink) : Safe (update g (.row id) (some (.row row))) ∧
      Safe (update (update g (.row id) (some (.row row))) (.dirent p n) (some (.child id))) := by
  have hput : Safe (update g (.row id) (some (.row row))) := safe_row h (by rw [hempty, encard_empty]; exact zero_le)
  refine ⟨hput, safe_bind hput (update_self ..) ?_⟩
  rw [links_row, hempty, insert_empty_eq, encard_singleton]
  exact_mod_cast hone

theorem safe_second {q : Nat} {m : Name} (hempty : links g id = ∅) (htwo : 2 ≤ row.nlink) :
    Safe (update (update (update g (.row id) (some (.row row))) (.dirent p n) (some (.child id)))
      (.dirent q m) (some (.child id))) := by
  refine safe_bind (safe_new h hempty (by omega)).2 ((update_of_ne (by simp) _ _).trans (update_self ..)) ?_
  rw [links_bind, links_row, hempty, insert_empty_eq]
  refine (encard_insert_le _ _).trans ?_
  rw [encard_singleton, one_add_one_eq_two]
  exact_mod_cast htwo

end

end

def Prefixes (g : View) (cs : List Change) : Prop := ∀ pre, pre <+: cs → Safe (replay g pre)

section

variable {g : View} {cs ds : List Change}

theorem prefixes_nil (h : Safe g) : Prefixes g [] := by
  intro pre hpre
  obtain rfl := prefix_nil.mp hpre
  exact h

theorem prefixes_cons (h : Safe g) (hcs : Prefixes (update g k v) cs) : Prefixes g ((k, v) :: cs) := by
  intro pre hpre
  obtain rfl | ⟨pre', rfl, hpre'⟩ := prefix_cons_iff.mp hpre
  · exact h
  · exact hcs pre' hpre'

theorem prefixes_append (hcs : Prefixes g cs) (hds : Prefixes (replay g cs) ds) : Prefixes g (cs ++ ds) := by
  intro pre hpre
  obtain h | ⟨pre', rfl⟩ := prefix_or_prefix_of_prefix hpre (prefix_append cs ds) |>.imp_right id
  · exact hcs pre h
  · rw [replay_append]
    exact hds pre' ((prefix_append_right_inj cs).mp hpre)

theorem prefixes_end (h : Prefixes g cs) : Safe (replay g cs) := h cs prefix_rfl

theorem prefixes_xattrs {id : Nat} {keys : List Key} (h : Safe g) (hkeys : ∀ k ∈ keys, k.isXattr id = true) :
    Prefixes g (keys.map fun k => (k, none)) := by
  induction keys generalizing g with
  | nil => exact prefixes_nil h
  | cons k keys ih =>
    exact prefixes_cons h (ih (safe_xattr h (hkeys k mem_cons_self))
      fun k' hk' => hkeys k' (mem_cons_of_mem _ hk'))

end

section

variable {g : View} {id p : Nat} {n : Name} {row : Row} {cs : List Change}

theorem prefixes_drops (hb : Books g) (h : Safe g) (hk : g (.dirent p n) = some (.child id))
    (hrow : g (.row id) = some (.row row)) (hd : row.type ≠ .dir) (hcs : Drops id row cs) :
    Prefixes g ((.dirent p n, none) :: cs) := by
  refine prefixes_cons h ?_
  have hcut : Safe (update g (.dirent p n) none) := safe_unbind h
  change Prefixes (update g (.dirent p n) none) cs
  obtain ⟨hn, rfl⟩ | ⟨hn, keys, hkeys, rfl⟩ := hcs
  · refine prefixes_cons hcut (prefixes_nil (safe_row hcut ?_))
    exact (encard_less hb hk hrow hd).le
  · have hmid := prefixes_xattrs hcut hkeys
    refine prefixes_append hmid (prefixes_cons (prefixes_end hmid)
      (prefixes_nil (safe_delete (prefixes_end hmid) ?_)))
    rw [links_congr fun q m => replay_xattrs hkeys rfl]
    exact links_last hb hk hrow hd hn

theorem effect_prefixes (h : Effect true g cs) (hb : Books g) (hs : Safe g) : Prefixes g cs := by
  induction h with
  | idle g => exact prefixes_nil hs
  | @rewrite g id old new entry cs hold hnew hentry hcs =>
    have hcount := hs.within id old hold
    have hle : (links g id).encard ≤ new.nlink ∧ cs = [] := by
      obtain ⟨-, hstrict⟩ | ⟨-, hd, hn⟩ := hnew
      · obtain ⟨hle, hnil⟩ := hstrict rfl
        exact ⟨hcount.trans (by exact_mod_cast hle), hnil⟩
      · rw [hn]
        exact ⟨hcount, hcs.resolve_right fun h => hd h.1⟩
    obtain ⟨hle, rfl⟩ := hle
    have hrow := safe_row hs hle
    rw [append_nil]
    refine prefixes_cons hs ?_
    obtain rfl | ⟨p, n, hk, rfl⟩ := hentry
    · exact prefixes_nil hrow
    · refine prefixes_cons hrow (prefixes_nil (safe_bind hrow (update_self ..) ?_))
      rw [links_row, insert_eq_of_mem (mem_links.mpr hk)]
      exact hle
  | @create g id p n row cs hfresh hfree hn hrow hcs =>
    have hempty := links_empty hb hfresh
    have hone : 1 ≤ row.nlink := by
      obtain ⟨-, hstrict⟩ | ⟨-, hn⟩ := hrow
      · have := hstrict rfl
        omega
      · omega
    obtain ⟨hput, hbind⟩ := safe_new hs hempty hone (p := p) (n := n)
    refine prefixes_cons hs (prefixes_cons hput ?_)
    obtain rfl | ⟨hd, rfl⟩ := hcs
    · exact prefixes_nil hbind
    · have htwo : 2 ≤ row.nlink := (hrow.resolve_right fun h => h.1 hd).2 rfl
      exact prefixes_cons hbind (prefixes_nil (safe_second hs hempty htwo))
  | @mkdir g id p n row hfresh hfree hn hd htwo =>
    have hempty := links_empty hb hfresh
    have hone : 1 ≤ row.nlink := by omega
    obtain ⟨hput, hbind⟩ := safe_new hs hempty hone (p := id) (n := [])
    exact prefixes_cons hs (prefixes_cons hput (prefixes_cons hbind (prefixes_nil (safe_second hs hempty htwo.ge))))
  | @link g id p n row hrow hd hfree hn =>
    have hcount := hs.within id row hrow
    have hput : Safe (update g (.row id) (some (.row { row with nlink := row.nlink + 1 }))) := by
      refine safe_row hs (hcount.trans ?_)
      change (row.nlink : ℕ∞) ≤ ((row.nlink + 1 : ℕ) : ℕ∞)
      exact_mod_cast Nat.le_succ _
    refine prefixes_cons hs (prefixes_cons hput (prefixes_nil (safe_bind hput (update_self ..) ?_)))
    rw [links_row]
    refine (encard_insert_le _ _).trans ?_
    change _ ≤ ((row.nlink + 1 : ℕ) : ℕ∞)
    rw [Nat.cast_add, Nat.cast_one]
    gcongr
  | unlink hk hrow hd hcs => exact prefixes_drops hb hs hk hrow hd hcs
  | move hno => cases hno
  | seq h1 _ ih1 ih2 =>
    have hfirst := ih1 hb hs
    exact prefixes_append hfirst (ih2 (effect_books h1 hb) (prefixes_end hfirst))

end

theorem safe_blank : Safe blank.view := by
  refine ⟨fun p n id h => ?_, fun id row h => ?_⟩
  · cases h
  · cases h

def renamed : Act Ns Unit := do
  Op.call id (fun _ => true) (.createNode 0 nameA none)
  Op.call id (fun _ => true) (.rename nameA nameB)

end InvariantFs.LinkPrefix
