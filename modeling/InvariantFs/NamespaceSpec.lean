import Mathlib.Data.List.TakeWhile
import InvariantFs.Namespace

namespace InvariantFs.NamespaceSpec

open ByteCodec Fallible DeltaGroup Namespace List Option Function Prod

def Same (s t : Ns) : Prop := ∃ r, r <:+ s.reads ∧ t = { s with reads := r }

theorem same_refl (s : Ns) : Same s s := ⟨s.reads, suffix_rfl, rfl⟩

variable {s t u : Ns}

theorem same_trans (h : Same s t) (h' : Same t u) : Same s u := by
  obtain ⟨r, hr, rfl⟩ := h
  obtain ⟨r', hr', rfl⟩ := h'
  exact ⟨r', hr'.trans hr, rfl⟩

structure Wrote (s t : Ns) (cs : List Change) : Prop where
  view : t.view = replay s.view cs
  log : t.log = s.log ++ cs
  recovered : t.recovered = s.recovered
  nextId : t.nextId = s.nextId
  store : t.store = s.store
  lazy : t.lazyReclaim = s.lazyReclaim
  reads : t.reads <:+ s.reads
  replies : t.replies <:+ s.replies

theorem wrote_same (h : Same s t) : Wrote s t [] := by
  obtain ⟨r, hr, rfl⟩ := h
  exact ⟨rfl, (append_nil _).symm, rfl, rfl, rfl, rfl, hr, suffix_rfl⟩

variable {cs : List Change}

theorem wrote_trans {ds : List Change} (h : Wrote s t cs) (h' : Wrote t u ds) : Wrote s u (cs ++ ds) := by
  refine ⟨?_, ?_, h'.recovered.trans h.recovered, h'.nextId.trans h.nextId, h'.store.trans h.store,
    h'.lazy.trans h.lazy, h'.reads.trans h.reads, h'.replies.trans h.replies⟩
  · rw [h'.view, h.view, replay, replay, replay, foldl_append]
  · rw [h'.log, h.log, append_assoc]

theorem wrote_after (h : Same s t) (h' : Wrote t u cs) : Wrote s u cs := wrote_trans (wrote_same h) h'

section

variable {α : Type}

theorem read_some {f : Ns → Option α} {a : α} (h : runs (read f) s = (some a, t)) : f s = some a ∧ Same s t := by
  obtain ⟨ha, rfl⟩ := mk.inj h
  refine ⟨?_, _, tail_suffix _, rfl⟩
  split_ifs at ha
  exact ha

theorem peek_some {f : Ns → Option α} {a : α} (h : runs (peek f) s = (some a, t)) : f s = some a ∧ Same s t := by
  obtain ⟨ha, rfl⟩ := mk.inj h
  exact ⟨ha, same_refl s⟩

theorem readOr_some {f : Ns → Option α} {o : Option α} (h : runs (readOr f) s = (some o, t)) :
    ((∀ b ∈ s.reads, b = true) → o = f s) ∧ Same s t := by
  obtain ⟨ho, rfl⟩ := mk.inj h
  refine ⟨fun hgood => ?_, _, tail_suffix _, rfl⟩
  cases ho
  have hhead : s.reads.headD true = true := by
    cases hr : s.reads with
    | nil => rfl
    | cons b bs => exact hgood b (hr ▸ mem_cons_self)
  rw [if_pos hhead]

theorem must_some {o : Option α} {a : α} (h : runs (must o) s = (some a, t)) : o = some a ∧ t = s := by
  cases o with
  | none => exact absurd (mk.inj h).1 (by simp)
  | some b => exact ⟨(mk.inj h).1, (mk.inj h).2.symm⟩

theorem demand_some {b : Bool} (h : runs (demand b) s = (some (), t)) : b = true ∧ t = s := by
  cases b with
  | false => exact absurd (mk.inj h).1 (by simp)
  | true => exact ⟨rfl, (mk.inj h).2.symm⟩

theorem onFail_some {f : Ns → Ns} {x : Act Ns α} {a : α} (h : runs (onFail f x) s = (some a, t)) :
    runs x s = (some a, t) := by
  obtain ⟨ha, ht⟩ := mk.inj h
  rw [ha] at ht
  exact Prod.ext ha ht

end

/-- Code that only looks. -/
abbrev Looks {α : Type} (x : Act Ns α) : Prop := Keeps Same x

section

variable {α β : Type}

theorem looks_run {x : Act Ns α} {o : Option α} (hx : Looks x) (h : runs x s = (o, t)) : Same s t := by
  have hs := hx s
  rw [h] at hs
  exact hs

theorem looks_bind {x : Act Ns α} {f : α → Act Ns β} (hx : Looks x) (hf : ∀ a, Looks (f a)) : Looks (x >>= f) :=
  keeps_bind (R := Same) (fun _ _ _ h h' => same_trans h h') hx hf

theorem looks_pure (a : α) : Looks (pure a : Act Ns α) := same_refl

theorem looks_failure : Looks (failure : Act Ns α) := same_refl

theorem looks_current : Looks current := same_refl

theorem looks_read (f : Ns → Option α) : Looks (read f) := fun _ => ⟨_, tail_suffix _, rfl⟩

theorem looks_readOr (f : Ns → Option α) : Looks (readOr f) := fun _ => ⟨_, tail_suffix _, rfl⟩

theorem looks_must (o : Option α) : Looks (must o) := by
  cases o with
  | none => exact looks_failure
  | some a => exact looks_pure a

theorem looks_demand (b : Bool) : Looks (demand b) := by
  cases b with
  | false => exact looks_failure
  | true => exact looks_pure ()

theorem looks_lookupPath (name : Name) : Looks (lookupPath name) := by
  unfold lookupPath
  split_ifs
  · exact looks_bind same_refl looks_must
  · exact looks_bind (looks_read _) looks_must

theorem looks_isDir (name : Name) : Looks (isDir name) := by
  unfold isDir
  split_ifs
  · exact looks_pure ()
  · exact looks_bind (looks_readOr _) fun _ => looks_demand _

theorem looks_renamePlan (src dst : Name) : Looks (renamePlan src dst) := by
  refine looks_bind (looks_demand _) fun _ => looks_bind looks_current fun _ => looks_bind (looks_demand _)
    fun _ => looks_bind (looks_must _) ?_
  rintro ⟨fparent, fleaf⟩
  refine looks_bind (looks_must _) ?_
  rintro ⟨tparent, tleaf⟩
  refine looks_bind (looks_lookupPath _) fun fid => looks_bind (looks_read _) fun _ => looks_bind (looks_must _)
    fun frow => looks_bind (looks_lookupPath _) fun tpino => looks_bind (looks_isDir _) fun _ => ?_
  split_ifs
  · exact looks_pure _
  · refine looks_bind (looks_demand _) fun _ => looks_bind (looks_read _) ?_
    rintro (_ | tid)
    · exact looks_pure _
    · refine looks_bind (looks_read _) fun _ => looks_bind (looks_must _) fun trow => ?_
      split_ifs
      · exact looks_pure _
      · exact looks_bind (looks_demand _) fun _ => looks_pure _

end

variable {id : Nat} {name : Name}

theorem lookupPath_some (h : runs (lookupPath name) s = (some id, t)) :
    pathLookup s.view s.store name = some (some id) ∧ Same s t := by
  obtain ⟨o, s1, hread, hmust⟩ := bind_some.mp h
  obtain ⟨rfl, rfl⟩ := must_some hmust
  split_ifs at hread
  · exact peek_some hread
  · exact read_some hread

/-- A path of slashes leads to the root. -/
theorem pathLookup_root {g : View} {store : Store} (hroot : skipSlash name = [])
    (h : pathLookup g store name = some (some id)) : id = rootIno := by
  have hname : name = replicate name.length slash := by
    apply eq_replicate_of_mem
    intro b hb
    have hall := dropWhile_eq_nil_iff.mp hroot b hb
    simpa using hall
  unfold pathLookup PathLookup.volPathLookup at h
  split_ifs at h
  · cases h
  · have hwork : splice 0 (name ++ [0]) (store.stack name) =
        replicate name.length slash ++ 0 :: (store.stack name).drop (name.length + 1) := by
      rw [← hname]
      simp [splice]
    rw [hwork, PathLookup.lookupFrom_root] at h
    exact (some.inj (some.inj h)).symm

theorem isDir_some (h : runs (isDir name) s = (some (), t)) : pathIsDir s.view s.store name = true ∧ Same s t := by
  unfold isDir at h
  split_ifs at h with hroot
  · obtain ⟨-, rfl⟩ := ended h
    exact ⟨if_pos hroot, same_refl _⟩
  obtain ⟨o, s1, hread, hdemand⟩ := bind_some.mp h
  obtain ⟨hb, rfl⟩ := demand_some hdemand
  refine ⟨?_, (readOr_some hread).2⟩
  obtain ⟨rfl, -⟩ := ended hread
  split_ifs at hb
  · exact hb
  · cases hb

variable {g : View}

section

variable {α β : Type} {f : β → Act Ns α} {a : α}

theorem current_bind {f : Ns → Act Ns α} {o : Option α × Ns} (h : runs (current >>= f) s = o) : runs (f s) s = o := h

theorem demand_bind {b : Bool} {f : Unit → Act Ns α} (h : runs (demand b >>= f) s = (some a, t)) :
    b = true ∧ runs (f ()) s = (some a, t) := by
  obtain ⟨_, s1, hdemand, hrest⟩ := bind_some.mp h
  obtain ⟨hb, rfl⟩ := demand_some hdemand
  exact ⟨hb, hrest⟩

theorem must_bind {o : Option β} (h : runs (must o >>= f) s = (some a, t)) :
    ∃ b, o = some b ∧ runs (f b) s = (some a, t) := by
  obtain ⟨b, s1, hmust, hrest⟩ := bind_some.mp h
  obtain ⟨hb, rfl⟩ := must_some hmust
  exact ⟨b, hb, hrest⟩

theorem read_bind {g : Ns → Option β} (h : runs (read g >>= f) s = (some a, t)) :
    ∃ b, g s = some b ∧ ∃ r, r <:+ s.reads ∧ runs (f b) { s with reads := r } = (some a, t) := by
  obtain ⟨b, s1, hread, hrest⟩ := bind_some.mp h
  obtain ⟨hb, r, hr, rfl⟩ := read_some hread
  exact ⟨b, hb, r, hr, hrest⟩

theorem lookupPath_bind {f : Nat → Act Ns α} (h : runs (lookupPath name >>= f) s = (some a, t)) :
    ∃ id, pathLookup s.view s.store name = some (some id) ∧
      ∃ r, r <:+ s.reads ∧ runs (f id) { s with reads := r } = (some a, t) := by
  obtain ⟨id, s1, hlook, hrest⟩ := bind_some.mp h
  obtain ⟨hid, r, hr, rfl⟩ := lookupPath_some hlook
  exact ⟨id, hid, r, hr, hrest⟩

theorem isDir_bind {f : Unit → Act Ns α} (h : runs (isDir name >>= f) s = (some a, t)) :
    pathIsDir s.view s.store name = true ∧ ∃ r, r <:+ s.reads ∧ runs (f ()) { s with reads := r } = (some a, t) := by
  obtain ⟨_, s1, hdir, hrest⟩ := bind_some.mp h
  obtain ⟨hd, r, hr, rfl⟩ := isDir_some hdir
  exact ⟨hd, r, hr, hrest⟩

theorem rowAt_some {row : Row} : rowAt g id = some (some row) ↔ g (.row id) = some (.row row) := by
  unfold rowAt
  split <;> simp_all

theorem row_bind {f : Row → Act Ns α} (h : runs (inodeGet id >>= fun o => must o >>= f) s = (some a, t)) :
    ∃ row, s.view (.row id) = some (.row row) ∧
      ∃ r, r <:+ s.reads ∧ runs (f row) { s with reads := r } = (some a, t) := by
  obtain ⟨o, hget, r, hr, hrest⟩ := read_bind h
  obtain ⟨row, rfl, hrest⟩ := must_bind hrest
  exact ⟨row, rowAt_some.mp hget, r, hr, hrest⟩

end

variable {parent : Nat}

theorem append_some {c : Change} (h : runs (append c) s = (some (), t)) : Wrote s t [c] := by
  rw [append, runs_act] at h
  by_cases hro : s.readonly = true
  · rw [if_pos hro] at h
    cases h
  · rw [if_neg hro] at h
    obtain ⟨hok, rfl⟩ := mk.inj h
    generalize hr : s.tier.append (s.replies.headD willing) c.size c.1 (c.2.getD (.blob [])) c.2.isNone = r at hok ⊢
    obtain ⟨tier, ok⟩ := r
    cases ok with
    | false => exact absurd hok (by simp)
    | true =>
      refine ⟨?_, rfl, rfl, rfl, rfl, rfl, suffix_rfl, tail_suffix _⟩
      refine (append_view hr fun k => s.base.lookup k).trans ?_
      change update s.view c.1 _ = update s.view c.1 c.2
      cases c.2 <;> rfl

theorem append_takes {c : Change} : (runs (append c) s).1 = some () ↔
      s.readonly = false ∧ s.tier.Takes (s.replies.headD willing) c.size := by
  rw [append, runs_act]
  by_cases hro : s.readonly = true
  · simp [hro]
  · rw [if_neg hro]
    dsimp only
    rw [← DeltaGroup.append_takes]
    generalize hr : s.tier.append _ c.size c.1 _ _ = r
    cases h : r.2 <;> simp_all

theorem appendAll_some (h : runs (appendAll cs) s = (some (), t)) : Wrote s t cs := by
  induction cs generalizing s with
  | nil =>
    obtain ⟨-, rfl⟩ := mk.inj h
    exact wrote_same (same_refl s)
  | cons c cs ih =>
    obtain ⟨_, s1, hfirst, hrest⟩ := bind_some.mp h
    exact wrote_trans (append_some hfirst) (ih hrest)

theorem direntPut_some {child : Nat} (h : runs (direntPut parent name child) s = (some (), t)) :
    name.length ≤ maxName ∧ child ≠ 0 ∧ Wrote s t [(.dirent parent name, some (.child child))] := by
  unfold direntPut at h
  split at h
  · cases h
  · next hok =>
    rw [not_or, Nat.not_lt] at hok
    exact ⟨hok.1, hok.2, append_some h⟩

def unbind (g : View) (parent : Nat) (name : Name) : List Change :=
  match g (.dirent parent name) with
  | none => []
  | some _ => [(.dirent parent name, none)]

theorem direntDel_some (h : runs (direntDel parent name) s = (some (), t)) :
    Wrote s t (unbind s.view parent name) := by
  unfold direntDel at h
  split at h
  · cases h
  · obtain ⟨o, s1, hread, hrest⟩ := bind_some.mp h
    obtain ⟨hr, hs⟩ := read_some hread
    have ho : s.view (.dirent parent name) = o := some.inj hr
    unfold unbind
    rw [ho]
    cases o with
    | none =>
      cases hrest
      exact wrote_same hs
    | some v => exact wrote_trans (wrote_same hs) (append_some hrest)

variable {row : Row}

theorem inodePut_some (h : runs (inodePut id row) s = (some (), t)) :
    row.nlink ≠ 0 ∧ Wrote s t [(.row id, some (.row row))] := by
  unfold inodePut at h
  split at h
  · cases h
  · next hne => exact ⟨hne, append_some h⟩

theorem isXattr_of_mem {k : Key} (h : k ∈ s.xattrKeys id) : k.isXattr id = true := by
  unfold Ns.xattrKeys at h
  split_ifs at h
  · cases h
  · exact (mem_filter.mp h).2

theorem inodeDelete_some (h : runs (inodeDelete id) s = (some (), t)) :
    (s.view (.row id) = none ∧ Wrote s t []) ∨ (s.view (.row id) ≠ none ∧
      Wrote s t ((s.xattrKeys id).map (fun k => (k, none)) ++ [(.row id, none)])) := by
  obtain ⟨o, s1, hread, hrest⟩ := bind_some.mp h
  obtain ⟨hr, hs⟩ := read_some hread
  have ho : s.view (.row id) = o := some.inj hr
  cases o with
  | none =>
    cases hrest
    exact .inl ⟨ho, wrote_same hs⟩
  | some v =>
    obtain ⟨keys, s2, hkeys, hrest⟩ := bind_some.mp hrest
    obtain ⟨hk, hs2⟩ := read_some hkeys
    obtain rfl := some.inj hk
    obtain ⟨_, s3, hall, hlast⟩ := bind_some.mp hrest
    have hkeys : s1.xattrKeys id = s.xattrKeys id := by
      obtain ⟨r, -, rfl⟩ := hs
      rfl
    refine .inr ⟨by simp [ho], hkeys ▸ wrote_after (same_trans hs hs2) ?_⟩
    exact wrote_trans (appendAll_some hall) (append_some hlast)

variable {leaf : Name}

theorem splitPath_leaf {parent : Name} (h : splitPath name = some (parent, leaf)) : leaf ≠ [] := by
  unfold splitPath at h
  dsimp only at h
  split_ifs at h with hbad
  cases h
  exact (not_or.mp hbad).1

def Placed (s : Ns) (name : Name) (pino : Nat) (leaf : Name) (existing : Option Nat) : Prop :=
  ∃ parent, splitPath name = some (parent, leaf) ∧ pathLookup s.view s.store parent = some (some pino) ∧
    direntAt s.view pino leaf = some existing

variable {existing : Option Nat} {pino : Nat}

theorem placed_leaf (h : Placed s name pino leaf existing) : leaf ≠ [] := by
  obtain ⟨parent, hsplit, -⟩ := h
  exact splitPath_leaf hsplit

theorem placed_dirent (h : Placed s name pino leaf existing) : direntAt s.view pino leaf = some existing := by
  obtain ⟨parent, -, -, hat⟩ := h
  exact hat

theorem place_some (h : runs (place name) s = (some (pino, leaf, existing), t)) :
    Placed s name pino leaf existing ∧ Same s t := by
  obtain ⟨⟨parent, leaf'⟩, hleaf, h1⟩ := must_bind h
  obtain ⟨pino', hpino, r2, hr2, h2⟩ := lookupPath_bind h1
  obtain ⟨-, r3, hr3, h3⟩ := isDir_bind h2
  obtain ⟨existing', hat, r4, hr4, h4⟩ := read_bind h3
  cases h4
  exact ⟨⟨parent, hleaf, hpino, hat⟩, r4, hr4.trans (hr3.trans hr2), rfl⟩

theorem inodeAlloc_some (h : runs inodeAlloc s = (some id, t)) :
    t.view = s.view ∧ t.log = s.log ∧ t.replies = s.replies ∧ t.recovered = true ∧ t.nextId = id + 1 ∧
      (s.recovered = true ∧ id = s.nextId ∨ s.recovered = false ∧ s.nextId ≤ id ∧ s.maxId < id) := by
  rw [inodeAlloc, runs_act] at h
  by_cases hr : s.recovered = true
  · rw [if_pos hr] at h
    obtain ⟨rfl, rfl⟩ := ended h
    exact ⟨rfl, rfl, rfl, hr, rfl, .inl ⟨hr, rfl⟩⟩
  · rw [if_neg hr] at h
    by_cases hread : s.reads.headD true = false
    · rw [if_pos hread] at h
      cases h
    · rw [if_neg hread] at h
      obtain ⟨rfl, rfl⟩ := ended h
      exact ⟨rfl, rfl, rfl, rfl, rfl, .inr ⟨by simpa using hr, by omega, by omega⟩⟩

theorem le_foldl_max (l : List Nat) (a : Nat) : a ≤ l.foldl max a ∧ ∀ x ∈ l, x ≤ l.foldl max a := by
  induction l generalizing a with
  | nil => simp
  | cons y l ih =>
    obtain ⟨h1, h2⟩ := ih (max a y)
    refine ⟨by simp only [foldl_cons]; omega, fun x hx => ?_⟩
    simp only [foldl_cons]
    obtain rfl | hx := mem_cons.mp hx
    · omega
    · exact h2 x hx

theorem row_le_maxId (h : s.view (.row id) ≠ none) : id ≤ s.maxId := by
  have hkey : .row id ∈ s.base.keys ++ s.tier.ram.index.keys := by
    by_contra hno
    rw [mem_append, not_or] at hno
    refine h ?_
    have hb : s.base.lookup (.row id) = none := AList.lookup_eq_none.mpr (by simpa [AList.mem_keys] using hno.1)
    have hi : s.tier.ram.index.lookup (.row id) = none :=
      AList.lookup_eq_none.mpr (by simpa [AList.mem_keys] using hno.2)
    simp only [Ns.view, Tier.view, hi, hb]
  exact (le_foldl_max _ 0).2 id (mem_filterMap.mpr ⟨.row id, hkey, rfl⟩)

def Chosen (s t : Ns) (existing : Option Nat) (id : Nat) (old : Row) : Prop :=
  existing = some id ∧ old = (rowAt s.view id).join.getD .zero ∧ t.recovered = s.recovered ∧ t.nextId = s.nextId ∨
    existing = none ∧ old = .zero ∧ t.recovered = true ∧ t.nextId = id + 1 ∧
      (s.recovered = true ∧ id = s.nextId ∨ s.recovered = false ∧ s.nextId ≤ id ∧ s.maxId < id)

theorem target_some {old : Row} (hreads : ∀ b ∈ s.reads, b = true)
    (h : runs (target existing) s = (some (id, old), t)) :
    Chosen s t existing id old ∧ t.view = s.view ∧ t.log = s.log ∧ t.replies = s.replies := by
  cases existing with
  | some i =>
    obtain ⟨o, s1, hread, hpure⟩ := bind_some.mp h
    obtain ⟨heq, rfl⟩ := mk.inj hpure
    cases heq
    obtain ⟨ho, r, -, rfl⟩ := readOr_some hread
    exact ⟨.inl ⟨rfl, by rw [ho hreads], rfl, rfl⟩, rfl, rfl, rfl⟩
  | none =>
    obtain ⟨i, s1, halloc, hrest⟩ := bind_some.mp h
    obtain ⟨-, hpure⟩ := demand_bind hrest
    obtain ⟨heq, rfl⟩ := mk.inj hpure
    obtain ⟨rfl, rfl⟩ := mk.inj (some.inj heq)
    obtain ⟨hv, hl, hrep, hrec, hnext, hid⟩ := inodeAlloc_some halloc
    exact ⟨.inr ⟨rfl, rfl, hrec, hnext, hid⟩, hv, hl, hrep⟩

def Reply.Good (a : Reply) : Prop := a.header = true ∧ a.publish = true ∧ a.write = true ∧ a.close = true

theorem good_willing : Reply.Good willing := ⟨rfl, rfl, rfl, rfl⟩

theorem tier_append_good {a : Reply} (ha : Reply.Good a) (tier : Tier Key Val) (size : Nat) (key : Key) (val : Val)
    (del : Bool) :
    tier.append a size key val del = (tier, false) ∨ ∃ t', tier.append a size key val del = (t', true) := by
  obtain ⟨hh, hp, hw, hc⟩ := ha
  have hstage : ∀ u : Tier Key Val, ∃ t', u.stage a size key val del = (t', true) := by
    intro u
    unfold Tier.stage
    rw [if_neg (by simp [hw])]
    dsimp only
    split_ifs <;> exact ⟨_, rfl⟩
  unfold Tier.append
  by_cases hsize : DeltaSegment.segBytes - DeltaSegment.segHdrLen < size ∨ a.ready = false
  · rw [if_pos hsize]
    exact .inl rfl
  rw [if_neg hsize]
  by_cases hroll : tier.segPba = 0 ∨ DeltaSegment.segBytes < tier.bump + size
  · rw [if_pos hroll]
    cases a.alloc with
    | none => exact .inl rfl
    | some pba =>
      dsimp only
      rw [if_neg (by simp [hh, hp])]
      exact .inr (hstage _)
  · rw [if_neg hroll]
    exact .inr (hstage _)

theorem append_good {c : Change} (hgood : ∀ a ∈ s.replies, Reply.Good a) :
    (∃ t, runs (append c) s = (some (), t)) ∨ Wrote s (runs (append c) s).2 [] := by
  rw [append, runs_act]
  by_cases hro : s.readonly = true
  · rw [if_pos hro]
    exact .inr (wrote_same (same_refl s))
  · rw [if_neg hro]
    have ha : Reply.Good (s.replies.headD willing) := by
      cases hr : s.replies with
      | nil => exact good_willing
      | cons a as => exact hgood a (hr ▸ mem_cons_self)
    obtain h | ⟨t', h⟩ := tier_append_good ha s.tier c.size c.1 (c.2.getD (.blob [])) c.2.isNone
    · rw [h]
      exact .inr ⟨rfl, (append_nil _).symm, rfl, rfl, rfl, rfl, suffix_rfl, tail_suffix _⟩
    · rw [h]
      exact .inl ⟨_, rfl⟩

theorem anchor_some (hgood : ∀ a ∈ s.replies, Reply.Good a)
    (h : runs (ignore (direntPut id [] id)) s = (some (), t)) :
    ∃ cs, (cs = [] ∨ cs = [(.dirent id [], some (.child id))]) ∧ Wrote s t cs := by
  cases h
  unfold direntPut
  split_ifs
  · exact ⟨[], .inl rfl, wrote_same (same_refl s)⟩
  · obtain ⟨u, hu⟩ | hw := append_good (c := (.dirent id [], some (.child id))) hgood
    · rw [hu]
      exact ⟨_, .inr rfl, append_some hu⟩
    · exact ⟨[], .inl rfl, hw⟩

variable {blake3 : List Byte → List Byte} {parses : List Byte → Bool} {addr : List Byte}

theorem recipeStore_some {blob : List Byte} (h : runs (recipeStore blake3 blob) s = (some addr, t)) :
    addr = blake3 blob ∧ t = { s with
      reads := s.reads.tail
      store := { s.store with blobs := update s.store.blobs (blake3 blob) (some blob) } } := by
  rw [recipeStore, runs_act] at h
  by_cases hbad : blob = [] ∨ s.reads.headD true = false
  · rw [if_pos hbad] at h
    cases h
  · rw [if_neg hbad] at h
    exact ⟨(some.inj (mk.inj h).1).symm, (mk.inj h).2.symm⟩

variable {info : Option Meta}

theorem content_some {old : Row} (h : runs (content blake3 info old) s = (some row, t)) :
    row.type = old.type ∧ row.nlink = old.nlink ∧ t.view = s.view ∧ t.log = s.log ∧ t.replies = s.replies ∧
      t.recovered = s.recovered ∧ t.nextId = s.nextId := by
  unfold content at h
  dsimp only at h
  split_ifs at h
  · cases h
  · obtain ⟨addr, s1, hstore, hpure⟩ := bind_some.mp h
    obtain ⟨rfl, rfl⟩ := ended hpure
    obtain rfl := (recipeStore_some hstore).2
    exact ⟨rfl, rfl, rfl, rfl, rfl, rfl, rfl⟩
  · obtain ⟨rfl, rfl⟩ := ended h
    exact ⟨rfl, rfl, rfl, rfl, rfl, rfl, rfl⟩

variable {now : Nat}

theorem createNode_some (hreads : ∀ b ∈ s.reads, b = true)
    (hgood : ∀ a ∈ s.replies, Reply.Good a) (h : runs (createNode blake3 now name info) s = (some id, t)) :
    ∃ pino leaf existing old row cs, Placed s name pino leaf existing ∧ Chosen s t existing id old ∧
      row.type = (old.with now info).type ∧ row.nlink = (old.with now info).nlink ∧
      (cs = [] ∨ row.type = .dir ∧ cs = [(.dirent id [], some (.child id))]) ∧
      t.view = replay s.view ([(.row id, some (.row row)), (.dirent pino leaf, some (.child id))] ++ cs) ∧
      t.log = s.log ++ ([(.row id, some (.row row)), (.dirent pino leaf, some (.child id))] ++ cs) := by
  obtain ⟨⟨pino, leaf, existing⟩, s1, hplace, h1⟩ := bind_some.mp h
  obtain ⟨hat, r, hr, rfl⟩ := place_some hplace
  obtain ⟨⟨id', old⟩, s2, htarget, h2⟩ := bind_some.mp h1
  obtain ⟨hchosen, hv2, hl2, hr2⟩ := target_some (fun b hb => hreads b (hr.mem hb)) htarget
  obtain ⟨row, s3, hcontent, h3⟩ := bind_some.mp h2
  obtain ⟨htype, hnlink, hv3, hl3, hr3, hrec3, hnext3⟩ := content_some hcontent
  obtain ⟨_, s4, hput, h4⟩ := bind_some.mp h3
  obtain ⟨_, s5, hdirent, h5⟩ := bind_some.mp h4
  have w := wrote_trans (inodePut_some hput).2 (direntPut_some hdirent).2.2
  have hend : id' = id ∧ ∃ cs, (cs = [] ∨ row.type = .dir ∧ cs = [(.dirent id' [], some (.child id'))]) ∧
      Wrote s5 t cs := by
    by_cases hd : row.type = .dir
    · rw [if_pos hd] at h5
      obtain ⟨_, s6, hlast, hpure⟩ := bind_some.mp h5
      obtain ⟨heq, rfl⟩ := ended hpure
      have hgood5 : ∀ a ∈ s5.replies, Reply.Good a := by
        intro a ha
        have ha := w.replies.mem ha
        rw [hr3, hr2] at ha
        exact hgood a ha
      obtain ⟨cs, hcs, hw⟩ := anchor_some hgood5 hlast
      exact ⟨heq, cs, hcs.imp_right fun h => ⟨hd, h⟩, hw⟩
    · rw [if_neg hd] at h5
      obtain ⟨heq, rfl⟩ := ended h5
      exact ⟨heq, [], .inl rfl, wrote_same (same_refl _)⟩
  obtain ⟨rfl, cs, hcs, w6⟩ := hend
  have wall := wrote_trans w w6
  refine ⟨pino, leaf, existing, old, row, cs, hat, ?_, htype, hnlink, hcs, ?_, ?_⟩
  · unfold Chosen at hchosen ⊢
    rw [wall.recovered, hrec3, wall.nextId, hnext3]
    exact hchosen
  · rw [wall.view, hv3, hv2]
    rfl
  · rw [wall.log, hl3, hl2]
    rfl

theorem createContentNode_some {size : Nat}
    (hreads : ∀ b ∈ s.reads, b = true) (h : runs (createContentNode now name size addr) s = (some id, t)) :
    ∃ pino leaf existing old cs, Placed s name pino leaf existing ∧ Chosen s t existing id old ∧
      (cs = if existing = none then [(.dirent pino leaf, some (.child id))] else []) ∧
      t.view = replay s.view ((.row id, some (.row (old.filled now size addr))) :: cs) ∧
      t.log = s.log ++ (.row id, some (.row (old.filled now size addr))) :: cs := by
  obtain ⟨⟨pino, leaf, existing⟩, s1, hplace, h1⟩ := bind_some.mp h
  obtain ⟨hat, r, hr, rfl⟩ := place_some hplace
  obtain ⟨⟨id', old⟩, s2, htarget, h2⟩ := bind_some.mp h1
  obtain ⟨hchosen, hv, hl, -⟩ := target_some (fun b hb => hreads b (hr.mem hb)) htarget
  obtain ⟨_, s3, hput, h3⟩ := bind_some.mp h2
  have hend : id' = id ∧
      Wrote s3 t (if existing = none then [(.dirent pino leaf, some (.child id'))] else []) := by
    by_cases hex : existing = none
    · rw [if_pos hex] at h3 ⊢
      obtain ⟨_, s4, hlast, hpure⟩ := bind_some.mp h3
      obtain ⟨heq, rfl⟩ := ended hpure
      exact ⟨heq, (direntPut_some hlast).2.2⟩
    · rw [if_neg hex] at h3 ⊢
      obtain ⟨heq, rfl⟩ := ended h3
      exact ⟨heq, wrote_same (same_refl _)⟩
  obtain ⟨rfl, hend⟩ := hend
  have wall := wrote_trans (inodePut_some hput).2 hend
  refine ⟨pino, leaf, existing, old, _, hat, ?_, rfl, ?_, ?_⟩
  · unfold Chosen at hchosen ⊢
    rw [wall.recovered, wall.nextId]
    exact hchosen
  · rw [wall.view, hv]
    rfl
  · rw [wall.log, hl]
    rfl

def dirRow (now : Nat) : Row := { Row.zero with type := .dir, mode := 0o755, nlink := 2, mtime := now, atime := now }

theorem mkdir_some (hreads : ∀ b ∈ s.reads, b = true) (h : runs (mkdir now name) s = (some id, t)) :
    ∃ pino leaf, Placed s name pino leaf none ∧ Chosen s t none id .zero ∧
      t.view = replay s.view [(.row id, some (.row (dirRow now))), (.dirent id [], some (.child id)),
        (.dirent pino leaf, some (.child id))] ∧
      t.log = s.log ++ [(.row id, some (.row (dirRow now))), (.dirent id [], some (.child id)),
        (.dirent pino leaf, some (.child id))] := by
  obtain ⟨-, h0⟩ := demand_bind h
  obtain ⟨⟨pino, leaf, existing⟩, s1, hplace, h1⟩ := bind_some.mp h0
  obtain ⟨hat, r, hr, rfl⟩ := place_some hplace
  obtain ⟨hnone, h2⟩ := demand_bind h1
  obtain rfl : existing = none := of_decide_eq_true hnone
  obtain ⟨⟨id', old⟩, s3, htarget, h3⟩ := bind_some.mp h2
  obtain ⟨hchosen, hv, hl, -⟩ := target_some (fun b hb => hreads b (hr.mem hb)) htarget
  obtain ⟨_, s4, hput, h4⟩ := bind_some.mp h3
  obtain ⟨_, s5, hanchor, h5⟩ := bind_some.mp h4
  obtain ⟨_, s6, hdirent, hpure⟩ := bind_some.mp h5
  obtain ⟨rfl, rfl⟩ := ended hpure
  have wall := wrote_trans (wrote_trans (inodePut_some hput).2 (direntPut_some hanchor).2.2)
    (direntPut_some hdirent).2.2
  obtain rfl : old = .zero := by
    obtain ⟨hno, -⟩ | ⟨-, hold, -⟩ := hchosen
    · cases hno
    · exact hold
  refine ⟨pino, leaf, hat, ?_, ?_, ?_⟩
  · unfold Chosen at hchosen ⊢
    rw [wall.recovered, wall.nextId]
    exact hchosen
  · rw [wall.view, hv]
    rfl
  · rw [wall.log, hl]
    rfl

def Drops (id : Nat) (row : Row) (cs : List Change) : Prop :=
  1 < row.nlink ∧ cs = [(.row id, some (.row { row with nlink := row.nlink - 1 }))] ∨
    row.nlink ≤ 1 ∧ ∃ keys : List Key, (∀ k ∈ keys, k.isXattr id = true) ∧
      cs = keys.map (fun k => (k, none)) ++ [(.row id, none)]

theorem unbind_row (g : View) (parent : Nat) (name : Name) (id : Nat) :
    replay g (unbind g parent name) (.row id) = g (.row id) := by
  unfold unbind
  split
  · rfl
  · change update g (.dirent parent name) none (.row id) = _
    rw [update_of_ne (by simp)]

theorem direntAt_some (h : direntAt g parent name = some (some id)) : g (.dirent parent name) = some (.child id) := by
  unfold direntAt at h
  split_ifs at h
  split at h <;> simp_all

theorem direntAt_none (h : direntAt g parent name = some none) : g (.dirent parent name) = none := by
  unfold direntAt at h
  split_ifs at h
  split at h <;> simp_all

theorem inodeDelete_drops (hrow : s.view (.row id) = some (.row row)) (hn : row.nlink ≤ 1)
    (h : runs (inodeDelete id) s = (some (), t)) : ∃ cs, Drops id row cs ∧ Wrote s t cs := by
  obtain ⟨hno, -⟩ | ⟨-, w⟩ := inodeDelete_some h
  · rw [hrow] at hno
    cases hno
  · exact ⟨_, .inr ⟨hn, _, fun _ => isXattr_of_mem, rfl⟩, w⟩

theorem dropLink_some (hrow : s.view (.row id) = some (.row row))
    (h : runs (dropLink id row) s = (some (), t)) : ∃ cs, Drops id row cs ∧ Wrote s t cs := by
  unfold dropLink at h
  split_ifs at h with hn
  · exact ⟨_, .inl ⟨hn, rfl⟩, (inodePut_some h).2⟩
  · exact inodeDelete_drops hrow (by omega) h

theorem resolves_some {ok : Bool} (h : runs (resolves parses row) s = (some ok, t)) : Same s t := by
  unfold resolves at h
  rw [runs_act] at h
  split_ifs at h
  · cases h
    exact same_refl s
  · cases h
    exact ⟨_, tail_suffix _, rfl⟩

theorem unlinkName_some (h : runs (unlinkName parses name) s = (some row, t)) :
    ∃ parent leaf id pino cs, splitPath name = some (parent, leaf) ∧
      pathLookup s.view s.store name = some (some id) ∧ s.view (.row id) = some (.row row) ∧ row.type ≠ .dir ∧
      pathLookup s.view s.store parent = some (some pino) ∧ Drops id row cs ∧
      Wrote s t (unbind s.view pino leaf ++ cs) := by
  obtain ⟨⟨parent, leaf⟩, hsplit, h0⟩ := must_bind h
  obtain ⟨id, hlook, r1, hr1, h1⟩ := lookupPath_bind h0
  obtain ⟨row', hrow, r2, hr2, h3⟩ := row_bind h1
  obtain ⟨hdir, h4⟩ := demand_bind h3
  obtain ⟨pino, hparent, r5, hr5, h5⟩ := lookupPath_bind h4
  have hbase : Same s { s with reads := r5 } := ⟨r5, hr5.trans (hr2.trans hr1), rfl⟩
  suffices hcall : row' = row ∧ ∃ cs, Drops id row' cs ∧
      Wrote { s with reads := r5 } t (unbind s.view pino leaf ++ cs) by
    obtain ⟨rfl, cs, hdrops, w⟩ := hcall
    exact ⟨parent, leaf, id, pino, cs, hsplit, hlook, hrow, of_decide_eq_true hdir, hparent, hdrops,
      wrote_after hbase w⟩
  have hkept : ∀ u, Wrote { s with reads := r5 } u (unbind s.view pino leaf) →
      u.view (.row id) = some (.row row') := by
    intro u hu
    rw [hu.view]
    exact (unbind_row _ _ _ _).trans hrow
  by_cases hn : row'.nlink ≤ 1
  · rw [if_pos hn] at h5
    obtain ⟨_, s6, hdel, h6⟩ := bind_some.mp h5
    have w6 := direntDel_some hdel
    obtain ⟨_, s7, hrm, h7⟩ := bind_some.mp h6
    obtain ⟨cs, hdrops, w7⟩ := inodeDelete_drops (hkept _ w6) hn (onFail_some hrm)
    replace h7 := current_bind h7
    suffices hend : row' = row ∧ Same s7 t by
      have := wrote_trans (wrote_trans w6 w7) (wrote_same hend.2)
      rw [append_nil] at this
      exact ⟨hend.1, cs, hdrops, this⟩
    split_ifs at h7
    · obtain ⟨ok, s9, hres, h9⟩ := bind_some.mp h7
      have hs9 := resolves_some hres
      cases ok with
      | true =>
        obtain ⟨heq, rfl⟩ := ended h9
        exact ⟨heq, hs9⟩
      | false =>
        obtain ⟨_, s10, -, hfail⟩ := bind_some.mp h9
        cases hfail
    · obtain ⟨heq, rfl⟩ := ended h7
      exact ⟨heq, same_refl _⟩
  · rw [if_neg hn] at h5
    obtain ⟨_, s6, hdel, h6⟩ := bind_some.mp h5
    have w6 := direntDel_some hdel
    obtain ⟨_, s7, hput, h7⟩ := bind_some.mp h6
    obtain ⟨-, w7⟩ := inodePut_some (onFail_some hput)
    obtain ⟨heq, rfl⟩ := ended h7
    exact ⟨heq, _, .inl ⟨by omega, rfl⟩, wrote_trans w6 w7⟩

structure Planned (s : Ns) (src dst : Name) (p : Plan) : Prop where
  source : splitPath src = some (p.fparent, p.fleaf) ∧ pathLookup s.view s.store src = some (some p.fid)
  dest : ∃ tparent, splitPath dst = some (tparent, p.tleaf) ∧
    pathLookup s.view s.store tparent = some (some p.tpino) ∧
    ¬ (p.fparent = tparent ∧ p.fleaf = p.tleaf)
  free : p.victim = none → direntAt s.view p.tpino p.tleaf = some none
  victim : ∀ tid trow, p.victim = some (tid, trow) → direntAt s.view p.tpino p.tleaf = some (some tid) ∧
    s.view (.row tid) = some (.row trow) ∧ trow.type ≠ .dir

variable {src dst : Name}

theorem renamePlan_cases {o : Int ⊕ Plan} (h : runs (renamePlan src dst) s = (some o, t)) :
    Same s t ∧ ((o = .inl 0 ∧ ∃ p, splitPath src = some p ∧ splitPath dst = some p) ∨ o = .inl (-2) ∨
      ∃ p, o = .inr p ∧ Planned s src dst p ∧ (∃ tparent, pathIsDir s.view s.store tparent = true ∧
          pathLookup s.view s.store tparent = some (some p.tpino)) ∧
        ∃ row, s.view (.row p.fid) = some (.row row) ∧ (row.type = .dir → p.victim = none)) := by
  obtain ⟨-, h0⟩ := demand_bind h
  obtain ⟨-, h2⟩ := demand_bind h0
  obtain ⟨⟨fparent, fleaf⟩, hsrc, h3⟩ := must_bind h2
  obtain ⟨⟨tparent, tleaf⟩, hdst, h4⟩ := must_bind h3
  obtain ⟨fid, hfid, r5, hr5, h5⟩ := lookupPath_bind h4
  obtain ⟨frow, hrow, r6, hr6, h7⟩ := row_bind h5
  obtain ⟨tpino, htpino, r8, hr8, h8⟩ := lookupPath_bind h7
  obtain ⟨hdir, r9, hr9, h9⟩ := isDir_bind h8
  have hbase : Same s { s with reads := r9 } := ⟨r9, hr9.trans (hr8.trans (hr6.trans hr5)), rfl⟩
  by_cases hsame : fparent = tparent ∧ fleaf = tleaf
  · rw [if_pos hsame] at h9
    obtain ⟨heq, rfl⟩ := ended h9
    obtain ⟨rfl, rfl⟩ := hsame
    exact ⟨hbase, .inl ⟨heq.symm, _, hsrc, hdst⟩⟩
  rw [if_neg hsame] at h9
  obtain ⟨-, h10⟩ := demand_bind h9
  obtain ⟨existing, hget, r11, hr11, h11⟩ := read_bind h10
  cases existing with
  | none =>
    obtain ⟨heq, rfl⟩ := ended h11
    refine ⟨same_trans hbase ⟨r11, hr11, rfl⟩, .inr (.inr ⟨_, heq.symm, ?_,
      ⟨tparent, hdir, htpino⟩, frow, hrow, fun _ => rfl⟩)⟩
    exact ⟨⟨hsrc, hfid⟩, ⟨tparent, hdst, htpino, hsame⟩, fun _ => hget, fun _ _ hno => by cases hno⟩
  | some tid =>
    obtain ⟨trow, htrow, r12, hr12, h13⟩ := row_bind h11
    have hend : Same { s with reads := r9 } { s with reads := r12 } := ⟨r12, hr12.trans hr11, rfl⟩
    split_ifs at h13 with hd
    · obtain ⟨heq, rfl⟩ := ended h13
      exact ⟨same_trans hbase hend, .inr (.inl heq.symm)⟩
    · obtain ⟨hkind, hpure⟩ := demand_bind h13
      obtain ⟨heq, rfl⟩ := ended hpure
      refine ⟨same_trans hbase hend, .inr (.inr ⟨_, heq.symm, ?_,
        ⟨tparent, hdir, htpino⟩, frow, hrow, fun habs => absurd habs (by simpa using hkind)⟩)⟩
      refine ⟨⟨hsrc, hfid⟩, ⟨tparent, hdst, htpino, hsame⟩, (fun hno => by cases hno), fun i r hv => ?_⟩
      cases hv
      exact ⟨hget, htrow, hd⟩

theorem renamePlan_some {o : Int ⊕ Plan} (h : runs (renamePlan src dst) s = (some o, t)) :
    Same s t ∧ ∀ p, o = .inr p → Planned s src dst p := by
  obtain ⟨hsame, hcase⟩ := renamePlan_cases h
  refine ⟨hsame, fun p hp => ?_⟩
  obtain ⟨rfl, -⟩ | rfl | ⟨q, rfl, hplanned, -⟩ := hcase
  · cases hp
  · cases hp
  · cases hp
    exact hplanned

/-- The records of a rename up to the new name: those that take the target name from the victim go
first. -/
inductive Claims (p : Plan) : List Change → Prop where
  | free : p.victim = none → Claims p [(.dirent p.tpino p.tleaf, some (.child p.fid))]
  | taken {tid : Nat} {trow : Row} {cs : List Change} : p.victim = some (tid, trow) → Drops tid trow cs →
      Claims p ((.dirent p.tpino p.tleaf, none) :: cs ++ [(.dirent p.tpino p.tleaf, some (.child p.fid))])

theorem dropSource_some {fparent fleaf : Name} (h : runs (dropSource fparent fleaf) s = (some (), t)) :
    ∃ fpino, pathLookup s.view s.store fparent = some (some fpino) ∧ Wrote s t (unbind s.view fpino fleaf) := by
  obtain ⟨fpino, hlook, r, hr, hdel⟩ := lookupPath_bind h
  exact ⟨fpino, hlook, wrote_after ⟨r, hr, rfl⟩ (direntDel_some hdel)⟩

theorem renameApply_some {p : Plan} (hp : Planned s src dst p) (h : runs (renameApply p) s = (some (), t)) :
    ∃ cs fpino, Claims p cs ∧ pathLookup (replay s.view cs) s.store p.fparent = some (some fpino) ∧
      Wrote s t (cs ++ unbind (replay s.view cs) fpino p.fleaf) := by
  unfold renameApply at h
  cases hv : p.victim with
  | none =>
    rw [hv] at h
    obtain ⟨_, s1, hput, hdrop⟩ := bind_some.mp h
    obtain ⟨-, -, w⟩ := direntPut_some hput
    obtain ⟨fpino, hlook, w'⟩ := dropSource_some (onFail_some hdrop)
    rw [w.view, w.store] at hlook
    rw [w.view] at w'
    exact ⟨_, fpino, .free hv, hlook, wrote_trans w w'⟩
  | some victim =>
    obtain ⟨tid, trow⟩ := victim
    obtain ⟨hat, hrow, -⟩ := hp.victim tid trow hv
    rw [hv] at h
    obtain ⟨_, s1, hdel, h1⟩ := bind_some.mp h
    have w1 := direntDel_some hdel
    have hunbind : unbind s.view p.tpino p.tleaf = [(.dirent p.tpino p.tleaf, none)] := by
      unfold unbind
      rw [direntAt_some hat]
    obtain ⟨_, s2, hlink, h2⟩ := bind_some.mp (onFail_some h1)
    have hrow1 : s1.view (.row tid) = some (.row trow) := by
      rw [w1.view]
      exact (unbind_row _ _ _ _).trans hrow
    obtain ⟨cs, hdrops, w2⟩ := dropLink_some hrow1 hlink
    obtain ⟨_, s3, hput, h3⟩ := bind_some.mp h2
    obtain ⟨-, -, w3⟩ := direntPut_some hput
    have w := wrote_trans (wrote_trans w1 w2) w3
    rw [hunbind] at w
    obtain ⟨fpino, hlook, w'⟩ := dropSource_some h3
    rw [w.view, w.store] at hlook
    rw [w.view] at w'
    exact ⟨_, fpino, .taken hv hdrops, hlook, wrote_trans w w'⟩

theorem rename_some {code : Int} (h : runs (rename src dst) s = (some code, t)) :
    Wrote s t [] ∨ ∃ p cs fpino, Planned s src dst p ∧ Claims p cs ∧
      pathLookup (replay s.view cs) s.store p.fparent = some (some fpino) ∧
      Wrote s t (cs ++ unbind (replay s.view cs) fpino p.fleaf) := by
  obtain ⟨o, s1, hplan, h1⟩ := bind_some.mp h
  obtain ⟨⟨r, hr, rfl⟩, hplanned⟩ := renamePlan_some hplan
  cases o with
  | inl code' =>
    cases h1
    exact .inl (wrote_same ⟨r, hr, rfl⟩)
  | inr p =>
    obtain ⟨_, s2, happly, hpure⟩ := bind_some.mp h1
    cases hpure
    have hp := hplanned p rfl
    have hp' : Planned { s with reads := r } src dst p := ⟨hp.source, hp.dest, hp.free, hp.victim⟩
    obtain ⟨cs, fpino, hcs, hlook, w⟩ := renameApply_some hp' happly
    exact .inr ⟨p, cs, fpino, hp, hcs, hlook, wrote_after ⟨r, hr, rfl⟩ w⟩

theorem hardlink_some {code : Int} (h : runs (hardlink src dst) s = (some code, t)) :
    Wrote s t [] ∨ ∃ id row tpino tleaf, s.view (.row id) = some (.row row) ∧ row.type ≠ .dir ∧ row.nlink ≠ 0 ∧
      Placed s dst tpino tleaf none ∧
      Wrote s t [(.row id, some (.row { row with nlink := row.nlink + 1 })),
        (.dirent tpino tleaf, some (.child id))] := by
  obtain ⟨-, h0⟩ := demand_bind h
  replace h0 := current_bind h0
  obtain ⟨-, h2⟩ := demand_bind h0
  obtain ⟨⟨tparent, tleaf⟩, hdst, h4⟩ := must_bind h2
  obtain ⟨id, -, r5, hr5, h5⟩ := lookupPath_bind h4
  obtain ⟨row, hrow, r6, hr6, h7⟩ := row_bind h5
  have hbase6 : Same s { s with reads := r6 } := ⟨r6, hr6.trans hr5, rfl⟩
  by_cases hd : row.type = .dir
  · rw [if_pos hd] at h7
    obtain ⟨-, rfl⟩ := mk.inj h7
    exact .inl (wrote_same hbase6)
  rw [if_neg hd] at h7
  obtain ⟨tpino, hdir, r8, hr8, h8⟩ := lookupPath_bind h7
  obtain ⟨-, r9, hr9, h9⟩ := isDir_bind h8
  obtain ⟨existing, hget, r10, hr10, h10⟩ := read_bind h9
  have hbase : Wrote s { s with reads := r10 } [] :=
    wrote_same (same_trans hbase6 ⟨r10, hr10.trans (hr9.trans hr8), rfl⟩)
  by_cases hex : existing = none
  · obtain rfl := hex
    obtain ⟨hlinks, h11⟩ := demand_bind h10
    obtain ⟨_, s12, hput, h12⟩ := bind_some.mp h11
    obtain ⟨-, w⟩ := inodePut_some hput
    replace h12 := current_bind h12
    generalize hcall : runs (direntPut tpino tleaf id) s12 = r at h12
    obtain ⟨_ | _, u⟩ := r
    · cases h12
    · obtain ⟨-, rfl⟩ := mk.inj h12
      exact .inr ⟨id, row, tpino, tleaf, hrow, hd, (of_decide_eq_true hlinks).1,
        ⟨tparent, hdst, hdir, hget⟩, wrote_trans hbase (wrote_trans w (direntPut_some hcall).2.2)⟩
  · rw [if_pos hex] at h10
    obtain ⟨-, rfl⟩ := mk.inj h10
    exact .inl hbase

def Row.rewritten (row : Row) (now size : Nat) (addr : List Byte) : Row :=
  { row with size := size, addr := addr, nlink := if row.nlink = 0 then 1 else row.nlink, mtime := now }

theorem writeRow_some {i size : Nat} (h : runs (writeRow now (some i) name size addr) s = (some id, t)) :
    ∃ row, s.view (.row i) = some (.row row) ∧
      Wrote s t [(.row i, some (.row (Row.rewritten row now size addr)))] := by
  obtain ⟨row, hget, r, hr, h2⟩ := row_bind h
  obtain ⟨_, s3, hput, hpure⟩ := bind_some.mp h2
  cases hpure
  exact ⟨row, hget, wrote_after ⟨r, hr, rfl⟩ (inodePut_some hput).2⟩

end InvariantFs.NamespaceSpec
