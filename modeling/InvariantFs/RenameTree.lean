import InvariantFs.DirTree
import InvariantFs.LinkCount

namespace InvariantFs.RenameTree

open ByteCodec Fallible DeltaIndex Namespace NamespaceSpec LinkCount DirTree Relation Option Function Prod
open AList

def graph (g : View) : DirGraph Nat Name where
  root := rootIno
  dir i := i = rootIno ∨ ∃ row, g (.row i) = some (.row row) ∧ row.type = .dir
  entry p n :=
    match g (.dirent p n) with
    | some (.child c) => some c
    | _ => none

/-- The entries form a tree of directories, with links and files in it. A row of the root, if there is one,
is a directory's. -/
structure WellFormed (g : View) : Prop where
  tree : (graph g).IsTree
  root : ∀ row, g (.row rootIno) = some (.row row) → row.type = .dir

/-- The view once the new name of `f` is there: a name that was there before is taken from its inode
first. -/
def claimed (g : View) (tp : Nat) (tleaf : Name) (f : Nat) : View :=
  match direntAt g tp tleaf with
  | some (some tid) =>
    match rowAt g tid with
    | some (some trow) =>
      update (update g (.row tid) (lessOne trow)) (.dirent tp tleaf) (some (.child f))
    | _ => update g (.dirent tp tleaf) (some (.child f))
  | _ => update g (.dirent tp tleaf) (some (.child f))

/-- What two different spellings have to lead to. The entry to remove is looked for by the text of the source's
directory, without following a link at its end. For a directory it has to be the directory's name, and the
target must not lie below it; for anything else it must not name a directory. -/
def Apart (g : View) (store : Store) (src dst : Name) : Prop :=
  ∀ fparent fleaf tparent tleaf f tp q, splitPath src = some (fparent, fleaf) →
    splitPath dst = some (tparent, tleaf) → ¬ (fparent = tparent ∧ fleaf = tleaf) →
    pathLookup g store src = some (some f) → pathLookup g store tparent = some (some tp) →
    pathLookup (claimed g tp tleaf f) store fparent = some (some q) →
    ((graph g).dir f → tp = q ∧ tleaf = fleaf ∨
      (graph g).entry q fleaf = some f ∧ ¬ ReflTransGen (graph g).Edge f tp) ∧
    (¬ (graph g).dir f → ∀ c, ((graph g).set tp tleaf (some f)).entry q fleaf = some c → ¬ (graph g).dir c)

variable {g : View} {g' : View}

theorem graph_congr (hrow : ∀ i, g' (.row i) = g (.row i))
    (hdirent : ∀ p n, g' (.dirent p n) = g (.dirent p n)) : graph g' = graph g := by
  unfold graph
  simp only [hrow, hdirent]

variable {store : Store}

theorem pathLookup_congr (hrow : ∀ i, g' (.row i) = g (.row i)) (hdirent : ∀ p n, g' (.dirent p n) = g (.dirent p n))
    (name : Name) : pathLookup g' store name = pathLookup g store name := by
  have hat : ∀ p n, direntAt g' p n = direntAt g p n := fun p n => by rw [direntAt, direntAt, hdirent]
  have hrowAt : ∀ i, rowAt g' i = rowAt g i := fun i => by rw [rowAt, rowAt, hrow]
  have hdirs : dirs g' store.blobs = dirs g store.blobs := by
    have hd : direntAt g' = direntAt g := by
      funext p n
      exact hat p n
    have hr : rowAt g' = rowAt g := funext hrowAt
    unfold dirs
    rw [hd, hr]
  rw [pathLookup, pathLookup, hdirs]

variable {i : Nat} {row : Row}

theorem dir_row (h : g (.row i) = some (.row row)) : (graph g).dir i ↔ i = rootIno ∨ row.type = .dir := by
  change (i = rootIno ∨ ∃ row, g (.row i) = some (.row row) ∧ row.type = .dir) ↔ _
  simp [h]

theorem graph_row (h : g (.row i) = some (.row row)) (hd : row.type ≠ .dir) :
    graph (update g (.row i) (lessOne row)) = graph g := by
  have hdir : (graph (update g (.row i) (lessOne row))).dir = (graph g).dir := by
    funext j
    apply propext
    change (j = rootIno ∨ ∃ r, update g (.row i) (lessOne row) (.row j) = some (.row r) ∧ r.type = .dir) ↔
      (j = rootIno ∨ ∃ r, g (.row j) = some (.row r) ∧ r.type = .dir)
    refine or_congr Iff.rfl ?_
    by_cases hj : j = i
    · subst hj
      rw [update_self, h, lessOne]
      split_ifs
      · simp [hd]
      · simp [hd]
    · rw [update_of_ne (by simpa using hj)]
  have hentry : (graph (update g (.row i) (lessOne row))).entry = (graph g).entry := by
    funext p n
    unfold graph
    simp only [update_of_ne (show Key.dirent p n ≠ .row i by simp)]
  exact congrArg₂ (DirGraph.mk rootIno) hdir hentry

theorem graph_bind (g : View) (p : Nat) (n : Name) (x : Option Nat) :
    graph (update g (.dirent p n) (x.map Val.child)) = (graph g).set p n x := by
  have hdir : (graph (update g (.dirent p n) (x.map Val.child))).dir = (graph g).dir := by
    funext i
    unfold graph
    simp only [update_of_ne (show Key.row i ≠ .dirent p n by simp)]
  have hentry : (graph (update g (.dirent p n) (x.map Val.child))).entry = ((graph g).set p n x).entry := by
    funext p' n'
    change _ = if p' = p ∧ n' = n then x else (graph g).entry p' n'
    unfold graph
    dsimp only
    split_ifs with hk
    · rw [hk.1, hk.2, update_self]
      cases x <;> rfl
    · rw [update_of_ne (by simpa using hk)]
  exact congrArg₂ (DirGraph.mk rootIno) hdir hentry

theorem graph_unbind (g : View) (p : Nat) (n : Name) : graph (replay g (unbind g p n)) = (graph g).set p n none := by
  rw [← graph_bind g p n none]
  unfold unbind
  split
  · next hnone =>
    change graph g = graph (update g _ none)
    rw [← hnone, update_eq_self]
  · rfl

variable {s t : Ns} {src dst : Name} {p : Plan}

section

variable (hp : Planned s src dst p)

include hp

theorem claimed_free (hv : p.victim = none) : claimed s.view p.tpino p.tleaf p.fid =
    update s.view (.dirent p.tpino p.tleaf) (some (.child p.fid)) := by
  simp only [claimed, hp.free hv]

theorem claimed_taken {tid : Nat} {trow : Row} (hv : p.victim = some (tid, trow)) :
    claimed s.view p.tpino p.tleaf p.fid = update (update s.view (.row tid) (lessOne trow))
      (.dirent p.tpino p.tleaf) (some (.child p.fid)) := by
  obtain ⟨hat, hrow, -⟩ := hp.victim tid trow hv
  simp only [claimed, hat, rowAt_some.mpr hrow]

theorem claims_view {cs : List Change} (hcs : Claims p cs) :
    (∀ i, replay s.view cs (.row i) = claimed s.view p.tpino p.tleaf p.fid (.row i)) ∧
      ∀ q n, replay s.view cs (.dirent q n) = claimed s.view p.tpino p.tleaf p.fid (.dirent q n) := by
  cases hcs with
  | free hv =>
    rw [claimed_free hp hv]
    exact ⟨fun _ => rfl, fun _ _ => rfl⟩
  | @taken tid trow ds hv hdrops =>
    have hreplay : replay s.view ((Key.dirent p.tpino p.tleaf, none) :: ds ++
        [(.dirent p.tpino p.tleaf, some (.child p.fid))]) = update
        (replay (update s.view (.dirent p.tpino p.tleaf) none) ds) (.dirent p.tpino p.tleaf)
        (some (.child p.fid)) := replay_append (apply s.view _) ds _
    rw [claimed_taken hp hv, hreplay]
    have hrd : ∀ i q n, Key.row i ≠ .dirent q n := fun _ _ _ hno => Key.noConfusion hno
    refine ⟨fun i => ?_, fun q n => ?_⟩
    · rw [update_of_ne (hrd i _ _), update_of_ne (hrd i _ _), drops_row hdrops]
      by_cases hi : i = tid
      · rw [hi, update_self, update_self]
      · have hne : Key.row i ≠ .row tid := fun heq => hi (Key.row.inj heq)
        rw [update_of_ne hne, update_of_ne hne, update_of_ne (hrd i _ _)]
    · by_cases hk : Key.dirent q n = .dirent p.tpino p.tleaf
      · rw [hk, update_self, update_self]
      · rw [update_of_ne hk, update_of_ne hk, drops_dirent hdrops, update_of_ne hk, update_of_ne (hrd _ _ _).symm]

theorem graph_claimed :
    graph (claimed s.view p.tpino p.tleaf p.fid) = (graph s.view).set p.tpino p.tleaf (some p.fid) := by
  cases hv : p.victim with
  | none =>
    rw [claimed_free hp hv]
    exact graph_bind s.view _ _ (some p.fid)
  | some victim =>
    obtain ⟨tid, trow⟩ := victim
    obtain ⟨-, hrow, hd⟩ := hp.victim tid trow hv
    rw [claimed_taken hp hv, ← graph_row hrow hd]
    exact graph_bind _ _ _ (some p.fid)

end

theorem pathIsDir_dir {name : Name} {id : Nat}
    (hdir : pathIsDir g store name = true) (hlook : pathLookup g store name = some (some id)) : (graph g).dir id := by
  unfold pathIsDir at hdir
  split_ifs at hdir with hroot
  · left
    exact pathLookup_root hroot hlook
  · rw [hlook] at hdir
    dsimp only at hdir
    split at hdir
    · next row hrow =>
      right
      exact ⟨row, rowAt_some.mp hrow, by simpa using hdir⟩
    · cases hdir

theorem rename_moved (h : runs (rename src dst) s = (some 0, t)) :
    (t.view = s.view ∧ ∃ p, splitPath src = some p ∧ splitPath dst = some p) ∨
      ∃ p q, Planned s src dst p ∧ (graph s.view).dir p.tpino ∧
        (∃ row, s.view (.row p.fid) = some (.row row) ∧ (row.type = .dir → p.victim = none)) ∧
        pathLookup (claimed s.view p.tpino p.tleaf p.fid) s.store p.fparent = some (some q) ∧
        graph t.view = (graph s.view).moved p.fid p.tpino p.tleaf q p.fleaf := by
  obtain ⟨o, s1, hplan, h1⟩ := bind_some.mp h
  obtain ⟨⟨r, hr, rfl⟩, ⟨rfl, hsame⟩ | rfl | ⟨p, rfl, hp, ⟨tparent, hdir, hlook⟩, hrow⟩⟩ := renamePlan_cases hplan
  · obtain ⟨-, rfl⟩ := mk.inj h1
    exact .inl ⟨rfl, hsame⟩
  · obtain ⟨heq, -⟩ := mk.inj h1
    cases heq
  · obtain ⟨_, s2, happly, hpure⟩ := bind_some.mp h1
    obtain ⟨-, rfl⟩ := mk.inj hpure
    have hp' : Planned { s with reads := r } src dst p := ⟨hp.source, hp.dest, hp.free, hp.victim⟩
    obtain ⟨cs, q, hcs, hfrom, w⟩ := renameApply_some hp' happly
    obtain ⟨hrows, hdirents⟩ := claims_view hp hcs
    refine .inr ⟨p, q, hp, pathIsDir_dir hdir hlook, hrow, ?_, ?_⟩
    · rw [← hfrom]
      exact (pathLookup_congr hrows hdirents p.fparent).symm
    · rw [w.view, replay_append, graph_unbind]
      change (graph (replay s.view cs)).set q p.fleaf none = _
      rw [graph_congr hrows hdirents, graph_claimed hp]
      rfl

theorem planned_free (hp : Planned s src dst p) (hv : p.victim = none) :
    (graph s.view).entry p.tpino p.tleaf = none := by
  have hnone := direntAt_none (hp.free hv)
  unfold graph
  dsimp only
  rw [hnone]

theorem planned_victim (htree : (graph s.view).IsTree) (hp : Planned s src dst p) (c : Nat)
    (hc : (graph s.view).entry p.tpino p.tleaf = some c) : ¬ (graph s.view).dir c := by
  cases hv : p.victim with
  | none =>
    rw [planned_free hp hv] at hc
    cases hc
  | some victim =>
    obtain ⟨tid, trow⟩ := victim
    obtain ⟨hat, hrow, hd⟩ := hp.victim tid trow hv
    have hself : (graph s.view).entry p.tpino p.tleaf = some tid := by
      unfold graph
      dsimp only
      rw [direntAt_some hat]
    obtain rfl : tid = c := some.inj (hself.symm.trans hc)
    rw [dir_row hrow, not_or]
    exact ⟨fun heq => htree.unnamed _ _ (heq ▸ hself), hd⟩

/-- A volume with one directory, called `a`. -/
def nested : Ns where
  readonly := false
  lazyReclaim := true
  tier := ⟨100, DeltaSegment.segHdrLen, 1000, 100000, Ram.empty⟩
  base := (AList.insert (.dirent rootIno [0x61]) (.child 2)
    (AList.insert (.row 2) (.row { Row.zero with type := .dir, nlink := 2 }) ∅) : AList fun _ : Key => Val)
  store := .empty
  log := []
  recovered := false
  nextId := 0
  reads := []
  replies := []

theorem nested_view (k : Key) : nested.view k = if k = .dirent rootIno [0x61] then some (.child 2)
    else if k = .row 2 then some (.row { Row.zero with type := .dir, nlink := 2 }) else none := by
  change lookup k nested.base = _
  unfold nested
  dsimp only
  split_ifs with h1 h2
  · rw [h1]
    exact lookup_insert _
  · rw [lookup_insert_ne h1, h2]
    exact lookup_insert _
  · rw [lookup_insert_ne h1, lookup_insert_ne h2]
    exact lookup_empty k

theorem nested_wellFormed : WellFormed nested.view := by
  have hentry : ∀ {p n c}, (graph nested.view).entry p n = some c ↔ (p = rootIno ∧ n = [0x61]) ∧ c = 2 := by
    intro p n c
    unfold graph
    simp only [nested_view, Key.dirent.injEq, reduceCtorEq, if_false]
    by_cases hk : p = rootIno ∧ n = [0x61]
    · simp [hk, eq_comm]
    · simp [hk]
  have hdir : ∀ {i}, (graph nested.view).dir i ↔ i = rootIno ∨ i = 2 := by
    intro i
    unfold graph
    simp only [nested_view, reduceCtorEq, if_false, Key.row.injEq]
    by_cases hi : i = 2
    · simp [hi]
    · simp [hi]
  refine ⟨⟨fun p n c he => ?_, fun p n he => ?_, fun p n p' n' c _ he he' => ?_, fun d hd => ?_⟩, fun row hrow => ?_⟩
  · exact hdir.mpr (.inl (hentry.mp he).1.1)
  · exact absurd (hentry.mp he).2 (by decide)
  · obtain ⟨⟨rfl, rfl⟩, -⟩ := hentry.mp he
    obtain ⟨⟨rfl, rfl⟩, -⟩ := hentry.mp he'
    exact ⟨rfl, rfl⟩
  · obtain rfl | rfl := hdir.mp hd
    · exact ReflTransGen.refl
    · exact ReflTransGen.single ⟨[0x61], hentry.mpr ⟨⟨rfl, rfl⟩, rfl⟩⟩
  · rw [nested_view] at hrow
    simp [rootIno] at hrow

end InvariantFs.RenameTree
