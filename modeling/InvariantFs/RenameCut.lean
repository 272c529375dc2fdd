import InvariantFs.LinkHistory

namespace InvariantFs.RenameCut

open ByteCodec Fallible Namespace NamespaceSpec LinkHistory List Option Function

/-- The inode a name names, found the way `vol_rename` finds its target: the directory first, and then
the entry in it. -/
def resolved (g : View) (store : Store) (name : Name) : Option (Option Nat) :=
  match splitPath name with
  | none => none
  | some (parent, leaf) =>
    match pathLookup g store parent with
    | none => none
    | some none => some none
    | some (some pino) => direntAt g pino leaf

section

variable {g : View} {store : Store} {q : Nat} {m : Name}

theorem direntAt_unbind (p : Nat) (n : Name) : direntAt (update g (.dirent q m) none) p n = direntAt g p n ∨
      direntAt (update g (.dirent q m) none) p n = some none := by
  unfold direntAt
  by_cases hlen : maxName < n.length
  · rw [if_pos hlen, if_pos hlen]
    exact .inl rfl
  rw [if_neg hlen, if_neg hlen]
  by_cases hk : Key.dirent p n = .dirent q m
  · rw [hk, update_self]
    exact .inr rfl
  · rw [update_of_ne hk]
    exact .inl rfl

theorem rowAt_unbind (id : Nat) : rowAt (update g (.dirent q m) none) id = rowAt g id := by
  unfold rowAt
  rw [update_of_ne (by simp)]

theorem pathLookup_unbind (store : Store) (name : Name) :
    pathLookup (update g (.dirent q m) none) store name = pathLookup g store name ∨
      pathLookup (update g (.dirent q m) none) store name = some none := by
  have hlink : (dirs (update g (.dirent q m) none) store.blobs).link = (dirs g store.blobs).link := by
    funext i
    unfold dirs
    dsimp only
    rw [rowAt_unbind]
  have hroot : (dirs (update g (.dirent q m) none) store.blobs).root = (dirs g store.blobs).root := rfl
  obtain h | h := PathLookup.volPathLookup_fewer hroot hlink direntAt_unbind (store.stack name) name
  · exact .inl (congrArg answer h)
  · exact .inr (congrArg answer h)

theorem resolved_unbind {name parent leaf : Name} {pino : Nat} (hsplit : splitPath name = some (parent, leaf))
    (hparent : pathLookup g store parent = some (some pino)) (hleaf : leaf.length ≤ maxName) :
    resolved (update g (.dirent pino leaf) none) store name = some none := by
  unfold resolved
  rw [hsplit]
  dsimp only
  obtain h | h := pathLookup_unbind (g := g) (q := pino) (m := leaf) store parent
  · rw [h, hparent]
    dsimp only
    unfold direntAt
    rw [if_neg (by omega), update_self]
  · rw [h]

end

/-- Whatever part of the records survives, the name names the old target with its row, or the source. -/
def Atomic (s : Ns) (src dst : Name) (cs : List Change) : Prop :=
  ∀ pre, pre <+: cs → ∃ id, resolved (replay s.view pre) s.store dst = some (some id) ∧
    (resolved s.view s.store dst = some (some id) ∧ replay s.view pre (.row id) = s.view (.row id) ∨
      pathLookup s.view s.store src = some (some id))

/-- The device answers the next `n` lookups. -/
def Answered (n : Nat) (reads : List Bool) : Prop := ∀ b ∈ reads.take n, b = true

instance (n : Nat) (reads : List Bool) : Decidable (Answered n reads) := inferInstanceAs (Decidable (∀ b ∈ _, _))

/-- The lookups that the walk of a path takes: the root is found without one. -/
def looksFor (name : Name) : Nat := if skipSlash name = [] then 0 else 1

/-- A rename of a file over the file `tid` that nothing stops before its first record: the volume takes writes,
the two names are different ones, the lookups are answered, and the log takes the record. -/
structure Replaces (s : Ns) (src dst : Name) (tid : Nat) where
  fparent : Name
  fleaf : Name
  fid : Nat
  frow : Row
  tparent : Name
  tleaf : Name
  tpino : Nat
  trow : Row
  writable : s.readonly = false
  plain : bang ∉ dst
  source : splitPath src = some (fparent, fleaf)
  dest : splitPath dst = some (tparent, tleaf)
  apart : ¬ (fparent = tparent ∧ fleaf = tleaf)
  found : pathLookup s.view s.store src = some (some fid)
  file : s.view (.row fid) = some (.row frow)
  notDir : frow.type ≠ .dir
  within : pathLookup s.view s.store tparent = some (some tpino)
  within_dir : pathIsDir s.view s.store tparent = true
  victim : s.view (.row tid) = some (.row trow)
  victim_notDir : trow.type ≠ .dir
  answered : Answered (looksFor src + 1 + 2 * looksFor tparent + 3) s.reads
  taken : s.tier.Takes (s.replies.headD willing) (Change.size (.dirent tpino tleaf, none))

section

variable {m n : Nat} {r : List Bool}

theorem answered_zero : Answered 0 r := by simp [Answered]

theorem answered_add : Answered (m + n) r ↔ Answered m r ∧ Answered n (r.drop m) := by
  unfold Answered
  rw [take_add]
  simp only [mem_append, or_imp, forall_and]

theorem answered_one : Answered 1 r ↔ r.headD true = true := by
  cases r <;> simp [Answered]

end

variable {s : Ns}

section

variable {α β : Type} {t : Ns} {a : α} {name : Name}

theorem read_answered {g : Ns → Option β} {f : β → Act Ns α} : runs (read g >>= f) s = (some a, t) ↔
      Answered 1 s.reads ∧ ∃ b, g s = some b ∧ runs (f b) { s with reads := s.reads.drop 1 } = (some a, t) := by
  rw [answered_one, drop_one, runs_bind, Namespace.read, runs_act]
  generalize s.reads.headD true = ok
  cases ok with
  | false => simp
  | true => cases g s <;> simp

theorem must_iff {o : Option β} {f : β → Act Ns α} : runs (must o >>= f) s = (some a, t) ↔
      ∃ b, o = some b ∧ runs (f b) s = (some a, t) := by
  refine ⟨must_bind, ?_⟩
  rintro ⟨b, rfl, h⟩
  exact h

theorem demand_iff {b : Bool} {f : Unit → Act Ns α} : runs (demand b >>= f) s = (some a, t) ↔
      b = true ∧ runs (f ()) s = (some a, t) := by
  refine ⟨demand_bind, ?_⟩
  rintro ⟨rfl, h⟩
  exact h

theorem lookupPath_answered {f : Nat → Act Ns α} : runs (lookupPath name >>= f) s = (some a, t) ↔
      Answered (looksFor name) s.reads ∧ ∃ id, pathLookup s.view s.store name = some (some id) ∧
        runs (f id) { s with reads := s.reads.drop (looksFor name) } = (some a, t) := by
  rw [lookupPath, LawfulMonad.bind_assoc]
  unfold looksFor
  split_ifs with hroot
  · rw [runs_bind, peek, runs_act]
    cases hp : pathLookup s.view s.store name with
    | none => simp
    | some o =>
      dsimp only
      rw [must_iff]
      simp [answered_zero]
  · rw [read_answered]
    apply and_congr_right
    intro _
    constructor
    · rintro ⟨o, ho, h⟩
      obtain ⟨id, rfl, h⟩ := must_iff.mp h
      exact ⟨id, ho, h⟩
    · rintro ⟨id, hid, h⟩
      exact ⟨_, hid, must_iff.mpr ⟨id, rfl, h⟩⟩

theorem isDir_answered {f : Unit → Act Ns α} : runs (isDir name >>= f) s = (some a, t) ↔
      Answered (looksFor name) s.reads ∧ pathIsDir s.view s.store name = true ∧
        runs (f ()) { s with reads := s.reads.drop (looksFor name) } = (some a, t) := by
  unfold isDir looksFor
  split_ifs with hroot
  · have hdir : pathIsDir s.view s.store name = true := if_pos hroot
    simp [answered_zero, hdir]
  · rw [LawfulMonad.bind_assoc, runs_bind, readOr, runs_act, answered_one, drop_one]
    dsimp only
    rw [demand_iff]
    generalize s.reads.headD true = ok
    cases ok <;> simp

theorem inodeGet_answered {id : Nat} {f : Row → Act Ns α} :
    runs (inodeGet id >>= fun o => must o >>= f) s = (some a, t) ↔ Answered 1 s.reads ∧
      ∃ row, s.view (.row id) = some (.row row) ∧ runs (f row) { s with reads := s.reads.drop 1 } = (some a, t) := by
  rw [inodeGet, read_answered]
  apply and_congr_right
  intro _
  constructor
  · rintro ⟨o, ho, h⟩
    obtain ⟨row, rfl, h⟩ := must_iff.mp h
    exact ⟨row, rowAt_some.mp ho, h⟩
  · rintro ⟨row, hrow, h⟩
    exact ⟨_, rowAt_some.mpr hrow, must_iff.mpr ⟨row, rfl, h⟩⟩

end

section

variable {α : Type}

/-- Code that appends at most. -/
abbrev Appends (x : Act Ns α) : Prop := Keeps (fun s t => s.log <+: t.log) x

variable {x : Act Ns α}

theorem appends_bind {β : Type} {f : α → Act Ns β} (hx : Appends x) (hf : ∀ a, Appends (f a)) : Appends (x >>= f) :=
  keeps_bind (fun _ _ _ h h' => h.trans h') hx hf

theorem appends_of_looks (h : Looks x) : Appends x := by
  intro s
  obtain ⟨r, -, hr⟩ := h s
  rw [hr]

theorem append_log (c : Change) (s : Ns) :
    (runs (append c) s).2.log = if (runs (append c) s).1 = none then s.log else s.log ++ [c] := by
  rw [append, runs_act]
  by_cases hro : s.readonly = true
  · rw [if_pos hro]
    rfl
  · rw [if_neg hro]
    dsimp only
    split_ifs <;> simp_all

theorem appends_append (c : Change) : Appends (append c) := by
  intro s
  rw [append_log]
  split_ifs
  · exact prefix_rfl
  · exact prefix_append ..

theorem appends_direntPut (parent : Nat) (name : Name) (child : Nat) : Appends (direntPut parent name child) := by
  unfold direntPut
  split_ifs
  · exact appends_of_looks looks_failure
  · exact appends_append _

theorem appends_direntDel (parent : Nat) (name : Name) : Appends (direntDel parent name) := by
  unfold direntDel
  split_ifs
  · exact appends_of_looks looks_failure
  · refine appends_bind (appends_of_looks (looks_read _)) fun o => ?_
    cases o with
    | none => exact appends_of_looks (looks_pure _)
    | some v => exact appends_append _

theorem appends_inodePut (id : Nat) (row : Row) : Appends (inodePut id row) := by
  unfold inodePut
  split_ifs
  · exact appends_of_looks looks_failure
  · exact appends_append _

theorem appends_appendAll (cs : List Change) : Appends (appendAll cs) := by
  induction cs with
  | nil => exact appends_of_looks (looks_pure ())
  | cons c cs ih => exact appends_bind (appends_append c) fun _ => ih

theorem appends_inodeDelete (id : Nat) : Appends (inodeDelete id) := by
  refine appends_bind (appends_of_looks (looks_read _)) fun o => ?_
  cases o with
  | none => exact appends_of_looks (looks_pure _)
  | some v =>
    exact appends_bind (appends_of_looks (looks_read _)) fun _ => appends_bind (appends_appendAll _)
      fun _ => appends_append _

theorem appends_onFail (h : Appends x) : Appends (onFail Ns.doom x) := by
  intro s
  change s.log <+: (if (runs x s).1.isSome then (runs x s).2 else (runs x s).2.doom).log
  split_ifs
  · exact h s
  · exact h s

theorem appends_dropSource (fparent fleaf : Name) : Appends (dropSource fparent fleaf) :=
  appends_bind (appends_of_looks (looks_lookupPath _)) fun _ => appends_direntDel _ _

theorem appends_dropLink (id : Nat) (row : Row) : Appends (dropLink id row) := by
  unfold dropLink
  split_ifs
  · exact appends_inodePut _ _
  · exact appends_inodeDelete _

theorem direntDel_refused {parent : Nat} {name : Name} (h : (runs (direntDel parent name) s).1 = none) :
    (runs (direntDel parent name) s).2.log = s.log := by
  unfold direntDel at h ⊢
  split_ifs at h ⊢
  · rfl
  · rw [runs_bind] at h ⊢
    generalize hread : runs (read fun s => some (s.view (.dirent parent name))) s = r at h ⊢
    have hlog : r.2.log = s.log := by
      rw [← hread]
      rfl
    obtain ⟨_ | _ | v, u⟩ := r
    · exact hlog
    · exact hlog
    · dsimp only at h ⊢
      rw [append_log, if_pos h]
      exact hlog

end

variable {tid : Nat} {src dst : Name}

theorem atomic_nil (h : resolved s.view s.store dst = some (some tid)) : Atomic s src dst [] := by
  intro pre hpre
  obtain rfl := prefix_nil.mp hpre
  exact ⟨tid, h, .inl ⟨h, rfl⟩⟩

theorem appends_rest (p : Plan) (tid : Nat) (trow : Row) : Appends (onFail Ns.doom (do
      dropLink tid trow
      direntPut p.tpino p.tleaf p.fid
      dropSource p.fparent p.fleaf)) :=
  appends_onFail (appends_bind (appends_dropLink _ _) fun _ => appends_bind (appends_direntPut _ _ _)
    fun _ => appends_dropSource _ _)

theorem resolved_dirent {tparent tleaf : Name} {tpino : Nat} (h : resolved s.view s.store dst = some (some tid))
    (hdest : splitPath dst = some (tparent, tleaf))
    (hwithin : pathLookup s.view s.store tparent = some (some tpino)) :
    direntAt s.view tpino tleaf = some (some tid) := by
  unfold resolved at h
  rw [hdest] at h
  dsimp only at h
  rw [hwithin] at h
  exact h

theorem planned_taken {p : Plan} (hp : Planned s src dst p) (h : resolved s.view s.store dst = some (some tid)) :
    (∃ trow, p.victim = some (tid, trow)) ∧ direntAt s.view p.tpino p.tleaf = some (some tid) := by
  obtain ⟨tparent, hsplit, hlook, -⟩ := hp.dest
  have hat := resolved_dirent h hsplit hlook
  refine ⟨?_, hat⟩
  cases hv : p.victim with
  | none =>
    rw [hp.free hv] at hat
    cases hat
  | some victim =>
    obtain ⟨tid', trow⟩ := victim
    have hat' := (hp.victim tid' trow hv).1
    rw [hat] at hat'
    obtain rfl := some.inj (some.inj hat')
    exact ⟨trow, rfl⟩

theorem direntAt_length {g : View} {p id : Nat} {n : Name} (h : direntAt g p n = some (some id)) :
    n.length ≤ maxName := by
  by_contra hlong
  unfold direntAt at h
  rw [if_pos (by omega)] at h
  cases h

/-- The run comes to the first record of a rename, and the log takes it. -/
def Proceeds (s : Ns) (src dst : Name) : Prop :=
  ∃ p u, runs (renamePlan src dst) s = (some (.inr p), u) ∧ (runs (direntDel p.tpino p.tleaf) u).1 = some ()

theorem direntDel_taken {parent : Nat} {name : Name} {reads : List Bool}
    (hat : direntAt s.view parent name = some (some tid)) :
    (runs (direntDel parent name) { s with reads := reads }).1 = some () ↔ Answered 1 reads ∧ s.readonly = false ∧
      s.tier.Takes (s.replies.headD willing) (Change.size (.dirent parent name, none)) := by
  have hlen := direntAt_length hat
  have hview : Ns.view { s with reads := reads } (.dirent parent name) = _ := direntAt_some hat
  unfold direntDel
  rw [if_neg (by omega), runs_bind, Namespace.read, runs_act, answered_one, hview]
  dsimp only
  generalize reads.headD true = ok
  cases ok with
  | false => simp
  | true =>
    change (runs (append (.dirent parent name, none)) { s with reads := reads.tail }).1 = some () ↔ _
    rw [append_takes]
    exact (and_iff_right rfl).symm

section

variable (h : resolved s.view s.store dst = some (some tid))

include h

theorem proceeds_of_replaces (r : Replaces s src dst tid) : Proceeds s src dst := by
  have hanswered := r.answered
  rw [two_mul, ← Nat.add_assoc, show 3 = 1 + 1 + 1 from rfl, ← Nat.add_assoc, ← Nat.add_assoc] at hanswered
  simp only [answered_add, ← drop_drop] at hanswered
  obtain ⟨⟨⟨⟨⟨⟨hsrc, hfile⟩, hparent⟩, hisDir⟩, hdirent⟩, hvictim⟩, hdel⟩ := hanswered
  have hat := resolved_dirent h r.dest r.within
  set left := drop 1 (drop 1 (drop (looksFor r.tparent) (drop (looksFor r.tparent) (drop 1
    (drop (looksFor src) s.reads)))))
  have hfirst := (@direntDel_taken s tid r.tpino r.tleaf left hat).mpr ⟨hdel, r.writable, r.taken⟩
  refine ⟨⟨r.fparent, r.fleaf, r.fid, r.tpino, r.tleaf, some (tid, r.trow)⟩, _, ?_, hfirst⟩
  have hnames : ¬ (src = [] ∨ dst = []) := by
    rintro (rfl | rfl)
    · exact nomatch r.source
    · exact nomatch r.dest
  refine demand_iff.mpr ⟨decide_eq_true hnames, demand_iff.mpr ⟨decide_eq_true ⟨r.writable, r.plain⟩,
    must_iff.mpr ⟨_, r.source, must_iff.mpr ⟨_, r.dest, lookupPath_answered.mpr ⟨hsrc, _, r.found,
    inodeGet_answered.mpr ⟨hfile, _, r.file, lookupPath_answered.mpr ⟨hparent, _, r.within,
    isDir_answered.mpr ⟨hisDir, r.within_dir, ?_⟩⟩⟩⟩⟩⟩⟩⟩
  rw [if_neg r.apart]
  refine demand_iff.mpr ⟨decide_eq_true fun hd => r.notDir hd.1, read_answered.mpr ⟨hdirent, _, hat,
    inodeGet_answered.mpr ⟨hvictim, _, r.victim, ?_⟩⟩⟩
  rw [if_neg r.victim_notDir]
  exact demand_iff.mpr ⟨decide_eq_true r.notDir, rfl⟩

theorem replaces_of_proceeds (hgo : Proceeds s src dst) : Nonempty (Replaces s src dst tid) := by
  obtain ⟨p, u, hplan, hdel⟩ := hgo
  obtain ⟨-, h1⟩ := demand_iff.mp hplan
  obtain ⟨hwrite, h2⟩ := demand_iff.mp (current_bind h1)
  obtain ⟨⟨fparent, fleaf⟩, hsource, h3⟩ := must_iff.mp h2
  obtain ⟨⟨tparent, tleaf⟩, hdest, h4⟩ := must_iff.mp h3
  obtain ⟨hsrc, fid, hfound, h5⟩ := lookupPath_answered.mp h4
  obtain ⟨hfile, frow, hrow, h6⟩ := inodeGet_answered.mp h5
  obtain ⟨hparent, tpino, hwithin, h7⟩ := lookupPath_answered.mp h6
  obtain ⟨hisDir, hdir, h8⟩ := isDir_answered.mp h7
  have hat := resolved_dirent h hdest hwithin
  by_cases hsame : fparent = tparent ∧ fleaf = tleaf
  · rw [if_pos hsame] at h8
    cases h8
  rw [if_neg hsame] at h8
  obtain ⟨-, h9⟩ := demand_iff.mp h8
  obtain ⟨hdirent, existing, hexisting, h10⟩ := read_answered.mp h9
  obtain rfl := some.inj (hat.symm.trans hexisting)
  obtain ⟨hvictim, trow, htrow, h11⟩ := inodeGet_answered.mp h10
  by_cases htdir : trow.type = .dir
  · rw [if_pos htdir] at h11
    cases h11
  rw [if_neg htdir] at h11
  obtain ⟨hfdir, h12⟩ := demand_iff.mp h11
  cases h12
  obtain ⟨hfirst, -, htaken⟩ := (direntDel_taken hat).mp hdel
  refine ⟨⟨fparent, fleaf, fid, frow, tparent, tleaf, tpino, trow, (of_decide_eq_true hwrite).1,
    (of_decide_eq_true hwrite).2, hsource, hdest, hsame, hfound, hrow, of_decide_eq_true hfdir, hwithin, hdir, htrow,
    htdir, ?_, htaken⟩⟩
  rw [two_mul, ← Nat.add_assoc, show 3 = 1 + 1 + 1 from rfl, ← Nat.add_assoc, ← Nat.add_assoc]
  simp only [answered_add, ← drop_drop]
  exact ⟨⟨⟨⟨⟨⟨hsrc, hfile⟩, hparent⟩, hisDir⟩, hdirent⟩, hvictim⟩, hfirst⟩

theorem rename_stops (hno : ¬ Proceeds s src dst) : (runs (rename src dst) s).2.log = s.log := by
  have hsilent : (runs (renamePlan src dst) s).2.log = s.log := by
    obtain ⟨r, -, hr⟩ := looks_renamePlan src dst s
    rw [hr]
  unfold rename
  rw [runs_bind]
  cases hplan : runs (renamePlan src dst) s with
  | mk o u =>
    rw [hplan] at hsilent
    obtain _ | _ | p := o
    · exact hsilent
    · exact hsilent
    · obtain ⟨⟨trow, hvictim⟩, -⟩ := planned_taken ((renamePlan_some hplan).2 p rfl) h
      have hdel : (runs (direntDel p.tpino p.tleaf) u).1 = none := by
        by_contra hsome
        obtain ⟨_, hsome⟩ := ne_none_iff_exists'.mp hsome
        exact hno ⟨p, u, hplan, hsome⟩
      have hlog := (direntDel_refused hdel).trans hsilent
      change (runs (renameApply p >>= fun _ => pure 0) u).2.log = s.log
      rw [runs_bind]
      unfold renameApply
      rw [hvictim]
      dsimp only
      rw [runs_bind]
      generalize runs (direntDel p.tpino p.tleaf) u = r at hdel hlog ⊢
      obtain ⟨o, w⟩ := r
      obtain rfl : o = none := hdel
      exact hlog

theorem rename_starts (hgo : Proceeds s src dst) :
    ∃ p ds, Planned s src dst p ∧ direntAt s.view p.tpino p.tleaf = some (some tid) ∧
      (runs (rename src dst) s).2.log = s.log ++ (.dirent p.tpino p.tleaf, none) :: ds := by
  obtain ⟨p, u, hplan, hdel⟩ := hgo
  obtain ⟨⟨r, hr, rfl⟩, hplanned⟩ := renamePlan_some hplan
  have hp := hplanned p rfl
  obtain ⟨⟨trow, hvictim⟩, hat⟩ := planned_taken hp h
  have hw := direntDel_some (Prod.ext hdel rfl)
  set w := (runs (direntDel p.tpino p.tleaf) { s with reads := r }).2 with hwdef
  have hlog : w.log = s.log ++ [(.dirent p.tpino p.tleaf, none)] := by
    have hunbind : unbind s.view p.tpino p.tleaf = [(.dirent p.tpino p.tleaf, none)] := by
      unfold unbind
      rw [direntAt_some hat]
    rw [hw.log]
    exact congrArg (s.log ++ ·) hunbind
  obtain ⟨ds, hds⟩ := appends_rest p tid trow w
  refine ⟨p, ds, hp, hat, ?_⟩
  unfold rename
  rw [runs_bind, hplan]
  change (runs (renameApply p >>= fun _ => pure 0) _).2.log = _
  rw [runs_bind]
  unfold renameApply
  rw [hvictim]
  dsimp only
  rw [runs_bind, (Prod.ext hdel hwdef.symm : runs (direntDel p.tpino p.tleaf) { s with reads := r } = (some (), w))]
  dsimp only
  generalize runs (onFail Ns.doom _) w = z at hds ⊢
  have hz : z.2.log = s.log ++ (.dirent p.tpino p.tleaf, none) :: ds := by
    rw [← hds, hlog, append_assoc]
    rfl
  obtain ⟨_ | _, z'⟩ := z
  · exact hz
  · exact hz

end

def twoFiles : Ns :=
  (runs (do
    Op.call id (fun _ => true) (.createNode 0 nameA none)
    Op.call id (fun _ => true) (.createNode 0 nameB none)) blank).2

/-- The same volume on a device that refuses the next record. -/
def twoFilesFull : Ns := { twoFiles with replies := [⟨true, none, true, true, false, true⟩] }

end InvariantFs.RenameCut
