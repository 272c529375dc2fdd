import InvariantFs.NamespaceSpec

namespace InvariantFs.LinkCount

open Namespace NamespaceSpec List Option Function Set

def links (g : View) (id : Nat) : Set Key := {k | (∃ p n, k = .dirent p n) ∧ g k = some (.child id)}

section

variable {g g' : View} {id i j p : Nat} {n : Name}

theorem mem_links : .dirent p n ∈ links g id ↔ g (.dirent p n) = some (.child id) :=
  ⟨fun h => h.2, fun h => ⟨⟨p, n, rfl⟩, h⟩⟩

theorem links_congr (h : ∀ p n, g' (.dirent p n) = g (.dirent p n)) : links g' id = links g id := by
  ext k
  constructor
  · rintro ⟨⟨p, n, rfl⟩, hk⟩
    exact mem_links.mpr ((h p n).symm.trans hk)
  · rintro ⟨⟨p, n, rfl⟩, hk⟩
    exact mem_links.mpr ((h p n).trans hk)

theorem links_row (v : Option Val) : links (update g (.row i) v) j = links g j :=
  links_congr fun _ _ => update_of_ne (by simp) _ _

theorem links_bind : links (update g (.dirent p n) (some (.child i))) i = insert (.dirent p n) (links g i) := by
  ext k
  by_cases hk : k = .dirent p n
  · obtain rfl := hk
    simp [links]
  · simp [links, hk]

theorem links_other {v : Option Val} (h : v ≠ some (.child j)) :
    links (update g (.dirent p n) v) j = links g j \ {.dirent p n} := by
  ext k
  by_cases hk : k = .dirent p n
  · obtain rfl := hk
    simp [links, h]
  · simp [links, hk]

theorem unbind_some {k : Key} {v : Val} (h : update g (.dirent p n) none k = some v) : g k = some v := by
  by_cases hk : k = .dirent p n
  · rw [hk, update_self] at h
    cases h
  · rwa [update_of_ne hk] at h

end

def LinkCounts (g : View) : Prop :=
  ∀ id row, g (.row id) = some (.row row) → row.type ≠ .dir → (links g id).encard = row.nlink

/-- The books of the namespace are right: besides the counts, no entry dangles, no file has a row without a
link, and an entry with the empty name is a directory's own. -/
structure Books (g : View) : Prop where
  counts : LinkCounts g
  rooted : ∀ p n id, g (.dirent p n) = some (.child id) → ∃ row, g (.row id) = some (.row row)
  positive : ∀ id row, g (.row id) = some (.row row) → row.type ≠ .dir → row.nlink ≠ 0
  anchored : ∀ i id, g (.dirent i []) = some (.child id) → id = i

section

variable {g g' : View} {id i p q : Nat} {n m : Name} {row old new : Row}

theorem books_congr (hrow : ∀ i, g' (.row i) = g (.row i)) (hdirent : ∀ p n, g' (.dirent p n) = g (.dirent p n))
    (hb : Books g) : Books g' := by
  refine ⟨fun i r hr hd => ?_, fun p n i hk => ?_, fun i r hr => ?_, fun i j hk => ?_⟩
  · rw [links_congr hdirent]
    exact hb.counts i r ((hrow i).symm.trans hr) hd
  · rw [hrow]
    exact hb.rooted p n i ((hdirent p n).symm.trans hk)
  · exact hb.positive i r ((hrow i).symm.trans hr)
  · exact hb.anchored i j ((hdirent i []).symm.trans hk)

theorem links_empty (hb : Books g) (hfresh : g (.row id) = none) : links g id = ∅ := by
  refine Set.eq_empty_iff_forall_notMem.mpr ?_
  rintro k ⟨⟨p, n, rfl⟩, hk⟩
  obtain ⟨row, hrow⟩ := hb.rooted p n id hk
  rw [hfresh] at hrow
  cases hrow

theorem notMem_links (h : g (.dirent p n) = none) : Key.dirent p n ∉ links g i := by
  rw [mem_links, h]
  simp

theorem books_step (id : Nat) (hb : Books g) (hrow : ∀ i, i ≠ id → g' (.row i) = g (.row i))
    (hlinks : ∀ i, i ≠ id → links g' i = links g i)
    (hid : ∀ r, g' (.row id) = some (.row r) → r.type ≠ .dir → r.nlink ≠ 0 ∧ (links g' id).encard = r.nlink)
    (hroot : (∃ r, g' (.row id) = some (.row r)) ∨ links g' id = ∅)
    (hanchor : ∀ i j, g' (.dirent i []) = some (.child j) → j = i) : Books g' := by
  refine ⟨fun i r hr hd => ?_, fun p n i hk => ?_, fun i r hr hd => ?_, hanchor⟩
  · by_cases hi : i = id
    · obtain rfl := hi
      exact (hid r hr hd).2
    · rw [hlinks i hi]
      exact hb.counts i r (hrow i hi ▸ hr) hd
  · have hmem := mem_links.mpr hk
    by_cases hi : i = id
    · obtain rfl := hi
      exact hroot.resolve_right (nonempty_of_mem hmem).ne_empty
    · rw [hlinks i hi] at hmem
      rw [hrow i hi]
      exact hb.rooted p n i (mem_links.mp hmem)
  · by_cases hi : i = id
    · obtain rfl := hi
      exact (hid r hr hd).1
    · exact hb.positive i r (hrow i hi ▸ hr) hd

theorem books_row (hb : Books g) (hold : g (.row id) = some (.row old))
    (hnew : new.type = .dir ∨ old.type ≠ .dir ∧ new.nlink = old.nlink) :
    Books (update g (.row id) (some (.row new))) := by
  refine books_step id hb (fun i hi => update_of_ne (by simp [hi]) _ _) (fun i _ => links_row _) (fun r hr hd => ?_)
    (.inl ⟨new, update_self ..⟩) fun i j hk => hb.anchored i j hk
  rw [update_self] at hr
  obtain rfl := Val.row.inj (some.inj hr)
  obtain ⟨hd', hn⟩ := hnew.resolve_left hd
  rw [links_row, hn]
  exact ⟨hb.positive id old hold hd', hb.counts id old hold hd'⟩

theorem books_bind (hb : Books g) (hfree : g (.dirent p n) = none) (hn : n ≠ [])
    (hrow : row.type = .dir ∨ (links g id).encard + 1 = row.nlink) :
    Books (update (update g (.row id) (some (.row row))) (.dirent p n) (some (.child id))) := by
  have hself : update (update g (.row id) (some (.row row))) (.dirent p n) (some (.child id)) (.row id) =
      some (.row row) := (update_of_ne (by simp) _ _).trans (update_self ..)
  refine books_step id hb (fun i hi => ?_) (fun i hi => ?_) (fun r hr hd => ?_) (.inl ⟨row, hself⟩) fun i j hk => ?_
  · rw [update_of_ne (by simp), update_of_ne (by simp [hi])]
  · rw [links_other (by simp [hi.symm]), links_row, sdiff_singleton_eq_self (notMem_links hfree)]
  · obtain rfl := Val.row.inj (some.inj (hself.symm.trans hr))
    have hcount := hrow.resolve_left hd
    rw [links_bind, links_row, encard_insert_of_notMem (notMem_links hfree)]
    refine ⟨fun h0 => ?_, hcount⟩
    rw [h0] at hcount
    exact absurd hcount (by simp)
  · rw [update_of_ne (by simp [hn.symm])] at hk
    exact hb.anchored i j hk

theorem books_new (hb : Books g) (hfresh : g (.row id) = none) (hfree : g (.dirent p n) = none) (hn : n ≠ [])
    (hrow : row.type = .dir ∨ row.nlink = 1) :
    Books (update (update g (.row id) (some (.row row))) (.dirent p n) (some (.child id))) := by
  refine books_bind hb hfree hn (hrow.imp_right fun h => ?_)
  rw [links_empty hb hfresh, h]
  simp

theorem books_anchor (hb : Books g) (hrow : g (.row id) = some (.row row)) (hd : row.type = .dir) :
    Books (update g (.dirent id []) (some (.child id))) := by
  refine books_step id hb (fun i _ => update_of_ne (by simp) _ _) (fun i hi => ?_) (fun r hr hd' => ?_)
    (.inl ⟨row, (update_of_ne (by simp) _ _).trans hrow⟩) fun i j hk => ?_
  · rw [links_other (by simp [hi.symm]), sdiff_singleton_eq_self fun h => hi (hb.anchored id i (mem_links.mp h))]
  · rw [update_of_ne (by simp), hrow] at hr
    obtain rfl := Val.row.inj (some.inj hr)
    exact absurd hd hd'
  · by_cases hi : i = id
    · rw [hi, update_self] at hk
      exact (Val.child.inj (some.inj hk)).symm.trans hi.symm
    · rw [update_of_ne (by simp [hi])] at hk
      exact hb.anchored i j hk

theorem books_link (hb : Books g) (hrow : g (.row id) = some (.row row)) (hd : row.type ≠ .dir)
    (hfree : g (.dirent p n) = none) (hn : n ≠ []) :
    Books (update (update g (.row id) (some (.row { row with nlink := row.nlink + 1 })))
      (.dirent p n) (some (.child id))) := by
  refine books_bind hb hfree hn (.inr ?_)
  rw [hb.counts id row hrow hd]
  rfl

theorem links_drop (hk : g (.dirent p n) = some (.child id)) (h : i ≠ id) :
    links (update g (.dirent p n) none) i = links g i := by
  rw [links_other (by simp), sdiff_singleton_eq_self]
  rw [mem_links, hk]
  simpa using h.symm

theorem encard_drop (hk : g (.dirent p n) = some (.child id)) :
    (links (update g (.dirent p n) none) id).encard + 1 = (links g id).encard := by
  rw [links_other (by simp)]
  exact encard_sdiff_singleton_add_one (mem_links.mpr hk)

section

variable (hb : Books g) (hk : g (.dirent p n) = some (.child id)) (hrow : g (.row id) = some (.row row))
  (hd : row.type ≠ .dir)

include hb hk hrow hd

theorem encard_less : (links (update g (.dirent p n) none) id).encard = ((row.nlink - 1 : ℕ) : ℕ∞) := by
  have hpos := hb.positive id row hrow hd
  refine WithTop.add_right_cancel ENat.one_ne_top ((encard_drop hk).trans ((hb.counts id row hrow hd).trans ?_))
  change (row.nlink : ℕ∞) = ((row.nlink - 1 : ℕ) : ℕ∞) + 1
  norm_cast
  omega

theorem links_last (hle : row.nlink ≤ 1) : links (update g (.dirent p n) none) id = ∅ := by
  refine Set.encard_eq_zero.mp ((encard_less hb hk hrow hd).trans ?_)
  rw [Nat.sub_eq_zero_of_le hle]
  rfl

theorem books_unlink {v : Option Val}
    (hv : 1 < row.nlink ∧ v = some (.row { row with nlink := row.nlink - 1 }) ∨ row.nlink ≤ 1 ∧ v = none) :
    Books (update (update g (.dirent p n) none) (.row id) v) := by
  refine books_step id hb (fun i hi => ?_) (fun i hi => ?_) (fun r hr hd' => ?_) ?_ fun i j hk' => ?_
  · rw [update_of_ne (by simp [hi]), update_of_ne (by simp)]
  · rw [links_row, links_drop hk hi]
  · rw [update_self] at hr
    obtain ⟨hlt, rfl⟩ | ⟨-, rfl⟩ := hv
    · obtain rfl := Val.row.inj (some.inj hr)
      rw [links_row]
      exact ⟨Nat.sub_ne_zero_of_lt hlt, encard_less hb hk hrow hd⟩
    · cases hr
  · rw [update_self, links_row]
    obtain ⟨-, rfl⟩ | ⟨hle, -⟩ := hv
    · exact .inl ⟨_, rfl⟩
    · exact .inr (links_last hb hk hrow hd hle)
  · rw [update_of_ne (by simp)] at hk'
    exact hb.anchored i j (unbind_some hk')

end

theorem books_move (hb : Books g) (hk : g (.dirent p n) = some (.child id)) (hfree : g (.dirent q m) = none)
    (hm : m ≠ []) : Books (update (update g (.dirent q m) (some (.child id))) (.dirent p n) none) := by
  have hne : Key.dirent p n ≠ .dirent q m := by
    intro h
    rw [h, hfree] at hk
    cases hk
  have hput : update g (.dirent q m) (some (.child id)) (.dirent p n) = some (.child id) :=
    (update_of_ne hne _ _).trans hk
  have hrows : ∀ i, update (update g (.dirent q m) (some (.child id))) (.dirent p n) none (.row i) = g (.row i) :=
    fun i => by rw [update_of_ne (by simp), update_of_ne (by simp)]
  refine books_step id hb (fun i _ => hrows i) (fun i hi => ?_) (fun r hr hd => ?_)
    (.inl (hrows id ▸ hb.rooted p n id hk))
    fun i j hk' => ?_
  · rw [links_drop hput hi, links_other (by simp [Ne.symm hi]), sdiff_singleton_eq_self (notMem_links hfree)]
  · rw [hrows] at hr
    have hcount := encard_drop hput
    rw [links_bind, encard_insert_of_notMem (notMem_links hfree)] at hcount
    rw [WithTop.add_right_cancel ENat.one_ne_top hcount]
    exact ⟨hb.positive id r hr hd, hb.counts id r hr hd⟩
  · have hput' := unbind_some hk'
    rw [update_of_ne (by simp [hm.symm])] at hput'
    exact hb.anchored i j hput'

end

theorem replay_append (g : View) (cs ds : List Change) : replay g (cs ++ ds) = replay (replay g cs) ds :=
  foldl_append

variable {k : Key} {cs : List Change}

theorem replay_some {g : View} (h : replay g cs k ≠ none) : g k ≠ none ∨ ∃ v, (k, some v) ∈ cs := by
  induction cs generalizing g with
  | nil => exact .inl h
  | cons c cs ih =>
    obtain hk | ⟨v, hv⟩ := ih h
    · by_cases hc : k = c.1
      · obtain ⟨ck, cv⟩ := c
        obtain rfl := hc
        rw [apply, update_self] at hk
        obtain ⟨v, rfl⟩ := ne_none_iff_exists'.mp hk
        exact .inr ⟨v, mem_cons_self⟩
      · rw [apply, update_of_ne hc] at hk
        exact .inl hk
    · exact .inr ⟨v, mem_cons_of_mem _ hv⟩

theorem replay_notMem {g : View} (h : ∀ c ∈ cs, k ≠ c.1) : replay g cs k = g k := by
  induction cs generalizing g with
  | nil => rfl
  | cons c cs ih =>
    exact (ih fun d hd => h d (mem_cons_of_mem _ hd)).trans (update_of_ne (h c mem_cons_self) _ _)

theorem replay_xattrs {g : View} {id : Nat} {keys : List Key} (h : ∀ k ∈ keys, k.isXattr id = true)
    (hk : k.isXattr id = false) : replay g (keys.map fun k => (k, none)) k = g k := by
  refine replay_notMem ?_
  rintro _ hc rfl
  obtain ⟨x, hx, rfl⟩ := mem_map.mp hc
  exact absurd (h x hx) (by simp [hk])

section

variable {g : View} {id : Nat} {row : Row}

def lessOne (row : Row) : Option Val :=
  if 1 < row.nlink then some (.row { row with nlink := row.nlink - 1 }) else none

theorem drops_row (h : Drops id row cs) (i : Nat) :
    replay g cs (.row i) = update g (.row id) (lessOne row) (.row i) := by
  obtain ⟨hn, rfl⟩ | ⟨hn, keys, hkeys, rfl⟩ := h
  · rw [lessOne, if_pos hn]
    rfl
  · rw [lessOne, if_neg (by omega), replay_append]
    change update (replay g _) (.row id) none (.row i) = _
    by_cases hi : i = id
    · rw [hi, update_self, update_self]
    · rw [update_of_ne (by simp [hi]), update_of_ne (by simp [hi]), replay_xattrs hkeys rfl]

theorem drops_dirent (h : Drops id row cs) (p : Nat) (n : Name) : replay g cs (.dirent p n) = g (.dirent p n) := by
  obtain ⟨hn, rfl⟩ | ⟨hn, keys, hkeys, rfl⟩ := h
  · simp [replay, apply]
  · rw [replay_append]
    change update (replay g _) (.row id) none (.dirent p n) = _
    rw [update_of_ne (by simp), replay_xattrs hkeys rfl]

theorem books_drops {p : Nat} {n : Name} (hb : Books g) (hk : g (.dirent p n) = some (.child id))
    (hrow : g (.row id) = some (.row row)) (hd : row.type ≠ .dir) (h : Drops id row cs) :
    Books (replay g ((.dirent p n, none) :: cs)) := by
  have hbooks := books_unlink hb hk hrow hd (v := lessOne row) (by
    unfold lessOne
    split_ifs with hn
    · exact .inl ⟨hn, rfl⟩
    · exact .inr ⟨by omega, rfl⟩)
  refine books_congr (fun i => drops_row h i) (fun p' n' => ?_) hbooks
  exact drops_dirent h p' n'

end

def Anchor (row : Row) (id : Nat) (cs : List Change) : Prop :=
  cs = [] ∨ row.type = .dir ∧ cs = [(.dirent id [], some (.child id))]

/-- The records of calls that keep the books. The strict ones never have more names than a row counts, not even
between two records: they move no name, and count both entries of a new directory. -/
inductive Effect (strict : Bool) : View → List Change → Prop where
  | idle (g : View) : Effect strict g []
  | rewrite {g : View} {id : Nat} {old new : Row} {entry cs : List Change} :
      g (.row id) = some (.row old) →
      (new.type = .dir ∧ (strict = true → old.nlink ≤ new.nlink ∧ cs = []) ∨
        old.type ≠ .dir ∧ new.type ≠ .dir ∧ new.nlink = old.nlink) →
      (entry = [] ∨ ∃ p n, g (.dirent p n) = some (.child id) ∧ entry = [(.dirent p n, some (.child id))]) →
      Anchor new id cs → Effect strict g ((.row id, some (.row new)) :: entry ++ cs)
  | create {g : View} {id p : Nat} {n : Name} {row : Row} {cs : List Change} :
      g (.row id) = none → g (.dirent p n) = none → n ≠ [] →
      (row.type = .dir ∧ (strict = true → 2 ≤ row.nlink) ∨ row.type ≠ .dir ∧ row.nlink = 1) → Anchor row id cs →
      Effect strict g ((.row id, some (.row row)) :: (.dirent p n, some (.child id)) :: cs)
  | mkdir {g : View} {id p : Nat} {n : Name} {row : Row} :
      g (.row id) = none → g (.dirent p n) = none → n ≠ [] → row.type = .dir → row.nlink = 2 →
      Effect strict g
        [(.row id, some (.row row)), (.dirent id [], some (.child id)), (.dirent p n, some (.child id))]
  | link {g : View} {id p : Nat} {n : Name} {row : Row} :
      g (.row id) = some (.row row) → row.type ≠ .dir → g (.dirent p n) = none → n ≠ [] →
      Effect strict g
        [(.row id, some (.row { row with nlink := row.nlink + 1 })), (.dirent p n, some (.child id))]
  | unlink {g : View} {id p : Nat} {n : Name} {row : Row} {cs : List Change} :
      g (.dirent p n) = some (.child id) → g (.row id) = some (.row row) → row.type ≠ .dir → Drops id row cs →
      Effect strict g ((.dirent p n, none) :: cs)
  | move {g : View} {id p q : Nat} {n m : Name} :
      strict = false → g (.dirent p n) = some (.child id) → g (.dirent q m) = none → m ≠ [] →
      Effect strict g [(.dirent q m, some (.child id)), (.dirent p n, none)]
  | seq {g : View} {cs ds : List Change} :
      Effect strict g cs → Effect strict (replay g cs) ds → Effect strict g (cs ++ ds)

theorem books_anchored {g : View} {id : Nat} {row : Row} (hb : Books g)
    (hrow : g (.row id) = some (.row row)) (h : Anchor row id cs) : Books (replay g cs) := by
  obtain rfl | ⟨hd, rfl⟩ := h
  · exact hb
  · exact books_anchor hb hrow hd

theorem effect_books {strict : Bool} {g : View} (h : Effect strict g cs) (hb : Books g) : Books (replay g cs) := by
  induction h with
  | idle g => exact hb
  | @rewrite g id old new entry cs hold hnew hentry hcs =>
    have hrow := books_row hb hold (hnew.imp And.left fun h => ⟨h.1, h.2.2⟩)
    have hself : update g (.row id) (some (.row new)) (.row id) = some (.row new) := update_self ..
    obtain rfl | ⟨p, n, hk, rfl⟩ := hentry
    · change Books (replay (update g (.row id) (some (.row new))) cs)
      exact books_anchored hrow hself hcs
    · -- the entry is there already
      have hsame : replay g [(.row id, some (.row new)), (.dirent p n, some (.child id))] =
          update g (.row id) (some (.row new)) := by
        refine update_eq_self_iff.mpr ?_
        change some (Val.child id) = update g _ _ _
        rw [update_of_ne (by simp), hk]
      rw [replay_append]
      rw [hsame]
      exact books_anchored hrow hself hcs
  | @create g id p n row cs hfresh hfree hn hrow hcs =>
    have hnew := books_new hb hfresh hfree hn (hrow.imp And.left And.right)
    change Books (replay (update (update g _ _) _ _) cs)
    refine books_anchored hnew ?_ hcs
    rw [update_of_ne (by simp), update_self]
  | @mkdir g id p n row hfresh hfree hn hd _ =>
    have hnew := books_new hb hfresh hfree hn (.inl hd)
    have hrow : update (update g (.row id) (some (.row row))) (.dirent p n) (some (.child id))
        (.row id) = some (.row row) := by
      rw [update_of_ne (by simp), update_self]
    have hbooks := books_anchor hnew hrow hd
    rw [update_comm (by simp [hn])] at hbooks
    exact hbooks
  | link hrow hd hfree hn => exact books_link hb hrow hd hfree hn
  | unlink hk hrow hd hcs => exact books_drops hb hk hrow hd hcs
  | move _ hk hfree hm => exact books_move hb hk hfree hm
  | seq _ _ ih1 ih2 =>
    rw [replay_append]
    exact ih2 (ih1 hb)

end InvariantFs.LinkCount
