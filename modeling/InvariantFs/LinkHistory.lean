import InvariantFs.LinkCount

namespace InvariantFs.LinkHistory

open ByteCodec Fallible DeltaIndex DeltaGroup Namespace NamespaceSpec LinkCount List Option Function

structure Sound (s : Ns) : Prop where
  books : Books s.view
  ids : s.recovered = true → ∀ id, s.view (.row id) ≠ none → id < s.nextId

inductive Op where
  | createNode (now : Nat) (name : Name) (info : Option Meta)
  | createContentNode (now : Nat) (name : Name) (size : Nat) (addr : List Byte)
  | mkdir (now : Nat) (name : Name)
  | hardlink (src dst : Name)
  | unlink (siblings : List Name) (name : Name)
  | rename (src dst : Name)
  | writeCommit (now : Nat) (old : Option Nat) (name : Name) (size : Nat) (addr : List Byte) (owns : Bool)
    (siblings : List Name)

section

variable (blake3 : List Byte → List Byte) (parses : List Byte → Bool)

def Op.call : Op → Act Ns Unit
  | .createNode now name info => do let _ ← Namespace.createNode blake3 now name info
  | .createContentNode now name size addr => do let _ ← Namespace.createContentNode now name size addr
  | .mkdir now name => do let _ ← Namespace.mkdir now name
  | .hardlink src dst => do let _ ← Namespace.hardlink src dst
  | .unlink siblings name => Namespace.unlink parses siblings name
  | .rename src dst => do let _ ← Namespace.rename src dst
  | .writeCommit now old name size addr owns siblings => do
    let _ ← Namespace.writeCommit parses now old name size addr owns siblings

end

def Linked (s : Ns) (name : Name) : Prop :=
  ∀ parent leaf id pino, splitPath name = some (parent, leaf) → pathLookup s.view s.store name = some (some id) →
    pathLookup s.view s.store parent = some (some pino) → s.view (.dirent pino leaf) = some (.child id)

/-- A create makes a file with one name, and over a file only one with the count of that file. -/
def Counted (strict : Bool) (s : Ns) (now : Nat) (info : Option Meta) : Option Nat → Prop
  | none =>
    (Row.zero.with now info).type = .dir ∧ (strict = true → 2 ≤ (Row.zero.with now info).nlink) ∨
      (Row.zero.with now info).type ≠ .dir ∧ (Row.zero.with now info).nlink = 1
  | some id => ∀ old, s.view (.row id) = some (.row old) →
    strict = false ∧ (old.with now info).type = .dir ∨
      old.type ≠ .dir ∧ (old.with now info).type ≠ .dir ∧ (old.with now info).nlink = old.nlink

def Departs (s : Ns) (src dst : Name) : Prop :=
  ∀ p cs fpino, Planned s src dst p → Claims p cs →
    pathLookup (replay s.view cs) s.store p.fparent = some (some fpino) →
      s.view (.dirent fpino p.fleaf) = some (.child p.fid) ∧
        Key.dirent fpino p.fleaf ≠ .dirent p.tpino p.tleaf

section

variable (parses : List Byte → Bool)

def Cleared : List Name → Ns → Prop
  | [], _ => True
  | n :: ns, s =>
    (Linked s n ∧ (runs (unlinkName parses n) s).1.isSome = true ∨
      ∀ id, pathLookup s.view s.store n ≠ some (some id)) ∧ Cleared ns (runs (unlinkName parses n) s).2

def Clean (strict : Bool) (s : Ns) : Op → Prop
  | .createNode now name info => ∀ pino leaf existing, Placed s name pino leaf existing →
    Counted strict s now info existing
  | .unlink siblings name => Linked s name ∧
    (bang ∉ name → Cleared parses (siblings.filter (bang ∈ ·)) (runs (unlinkName parses name) s).2)
  | .rename src dst => if strict then ∀ p, ¬ Planned s src dst p else Departs s src dst
  | .writeCommit now old name size addr owns siblings => owns = true →
    Cleared parses (siblings.filter (bang ∈ ·)) (runs (writeRow now old name size addr) s).2
  | _ => True

end

section

variable {strict : Bool} {s t : Ns} {id : Nat} {old : Row}

theorem chosen_fresh (hs : Sound s) (h : Chosen s t none id old) : s.view (.row id) = none ∧ old = .zero := by
  obtain ⟨hno, -⟩ | ⟨-, hold, -, -, ⟨hrec, hid⟩ | ⟨-, -, hmax⟩⟩ := h
  · cases hno
  · refine ⟨by_contra fun hrow => ?_, hold⟩
    have := hs.ids hrec id hrow
    omega
  · refine ⟨by_contra fun hrow => ?_, hold⟩
    have := row_le_maxId hrow
    omega

theorem chosen_ids {existing : Option Nat} {cs : List Change} (hs : Sound s) (h : Chosen s t existing id old)
    (hview : t.view = replay s.view cs) (hnew : ∀ j v, (Key.row j, some v) ∈ cs → j = id)
    (hid : existing = some id → s.view (.row id) ≠ none) :
    t.recovered = true → ∀ j, t.view (.row j) ≠ none → j < t.nextId := by
  have hrows : ∀ j, t.view (.row j) ≠ none → j = id ∨ s.view (.row j) ≠ none := fun j hj =>
    (replay_some (hview ▸ hj)).symm.imp_left fun ⟨v, hv⟩ => hnew j v hv
  intro hrec j hj
  obtain ⟨hex, -, hr, hn⟩ | ⟨-, -, -, hn, hid'⟩ := h
  · rw [hn]
    refine hs.ids (hr ▸ hrec) j ?_
    obtain rfl | hj := hrows j hj
    · exact hid hex
    · exact hj
  · rw [hn]
    obtain rfl | hj := hrows j hj
    · omega
    · obtain ⟨hrec', hid'⟩ | ⟨-, -, hmax⟩ := hid'
      · have := hs.ids hrec' j hj
        omega
      · have := row_le_maxId hj
        omega

variable {row : Row}

theorem chosen_row (h : Chosen s t (some id) id old) (hrow : s.view (.row id) = some (.row row)) : old = row := by
  obtain ⟨-, hold, -⟩ | ⟨hno, -⟩ := h
  · rw [hold, rowAt_some.mpr hrow]
    rfl
  · cases hno

variable {i : Nat}

theorem chosen_self (h : Chosen s t (some i) id old) : i = id := by
  obtain ⟨heq, -⟩ | ⟨hno, -⟩ := h
  · exact some.inj heq
  · cases hno

def Did (strict : Bool) (s t : Ns) : Prop :=
  ∃ cs, Effect strict s.view cs ∧ t.view = replay s.view cs ∧ t.log = s.log ++ cs ∧
    (t.recovered = true → ∀ id, t.view (.row id) ≠ none → id < t.nextId)

theorem did_sound (hs : Sound s) (h : Did strict s t) : Sound t := by
  obtain ⟨cs, heffect, hview, -, hids⟩ := h
  refine ⟨?_, hids⟩
  rw [hview]
  exact effect_books heffect hs.books

theorem did_trans {u : Ns} (h : Did strict s t) (h' : Did strict t u) : Did strict s u := by
  obtain ⟨cs, he, hv, hl, -⟩ := h
  obtain ⟨ds, he', hv', hl', hids⟩ := h'
  refine ⟨cs ++ ds, .seq he (hv ▸ he'), ?_, ?_, hids⟩
  · rw [hv', hv, replay_append]
  · rw [hl', hl, append_assoc]

variable {cs : List Change}

theorem did_wrote (hs : Sound s) (he : Effect strict s.view cs) (w : Wrote s t cs)
    (hrows : ∀ id v, (Key.row id, some v) ∈ cs → s.view (.row id) ≠ none) : Did strict s t := by
  refine ⟨cs, he, w.view, w.log, fun hrec id hid => ?_⟩
  rw [w.nextId]
  refine hs.ids (w.recovered ▸ hrec) id ?_
  rw [w.view] at hid
  obtain h | ⟨v, hv⟩ := replay_some hid
  · exact h
  · exact hrows id v hv

theorem did_idle (hs : Sound s) (w : Wrote s t []) : Did strict s t :=
  did_wrote hs (.idle _) w fun _ _ h => absurd h not_mem_nil

variable {blake3 : List Byte → List Byte} {parses : List Byte → Bool} {name : Name} {now : Nat}

theorem createNode_did {info : Option Meta} (hs : Sound s)
    (hreads : ∀ b ∈ s.reads, b = true) (hgood : ∀ a ∈ s.replies, Reply.Good a)
    (hclean : ∀ pino leaf existing, Placed s name pino leaf existing → Counted strict s now info existing)
    (h : runs (createNode blake3 now name info) s = (some id, t)) : Did strict s t := by
  obtain ⟨pino, leaf, existing, old, row, cs, hplaced, hchosen, htype, hnlink, hcs, hview, hlog⟩ :=
    createNode_some hreads hgood h
  have hcount := hclean pino leaf existing hplaced
  have hat := placed_dirent hplaced
  have hids := chosen_ids hs hchosen hview fun j v hv => by
    obtain rfl | ⟨-, rfl⟩ := hcs <;> simp at hv <;> exact hv.1
  cases existing with
  | none =>
    obtain ⟨hfresh, rfl⟩ := chosen_fresh hs hchosen
    refine ⟨_, ?_, hview, hlog, hids (fun hno => by cases hno)⟩
    refine .create hfresh (direntAt_none hat) (placed_leaf hplaced) ?_ hcs
    rw [htype, hnlink]
    exact hcount
  | some i =>
    obtain rfl := chosen_self hchosen
    have hk := direntAt_some hat
    obtain ⟨r, hr⟩ := hs.books.rooted pino leaf i hk
    obtain rfl := chosen_row hchosen hr
    refine ⟨_, ?_, hview, hlog, hids (fun _ => by simp [hr])⟩
    refine @Effect.rewrite strict _ i old row [(.dirent pino leaf, some (.child i))] cs hr ?_
      (.inr ⟨pino, leaf, hk, rfl⟩) hcs
    rw [htype, hnlink]
    exact (hcount old hr).imp_left fun h => ⟨h.2, fun hstrict => by simp [h.1] at hstrict⟩

theorem refilled_counts {new : Row} (hs : Sound s) (hrow : s.view (.row id) = some (.row old))
    (htype : new.type = old.type)
    (hnlink : new.nlink = if old.nlink = 0 then 1 else old.nlink) :
    new.type = .dir ∧ (strict = true → old.nlink ≤ new.nlink ∧ ([] : List Change) = []) ∨
      old.type ≠ .dir ∧ new.type ≠ .dir ∧ new.nlink = old.nlink := by
  rw [htype, hnlink]
  by_cases hd : old.type = .dir
  · exact .inl ⟨hd, fun _ => ⟨by split_ifs <;> omega, rfl⟩⟩
  · exact .inr ⟨hd, hd, if_neg (hs.books.positive id old hrow hd)⟩

variable {addr : List Byte} {size : Nat}

theorem createContentNode_did (hs : Sound s) (hreads : ∀ b ∈ s.reads, b = true)
    (h : runs (createContentNode now name size addr) s = (some id, t)) : Did strict s t := by
  obtain ⟨pino, leaf, existing, old, cs, hplaced, hchosen, hcs, hview, hlog⟩ := createContentNode_some hreads h
  have hat := placed_dirent hplaced
  have hids := chosen_ids hs hchosen hview fun j v hv => by
    rw [hcs] at hv
    split_ifs at hv <;> simp at hv <;> exact hv.1
  cases existing with
  | none =>
    rw [if_pos rfl] at hcs
    obtain rfl := hcs
    obtain ⟨hfresh, rfl⟩ := chosen_fresh hs hchosen
    refine ⟨_, ?_, hview, hlog, hids (fun hno => by cases hno)⟩
    exact .create hfresh (direntAt_none hat) (placed_leaf hplaced) (.inr ⟨by simp [Row.filled, Row.zero], rfl⟩)
      (.inl rfl)
  | some i =>
    obtain rfl := hcs
    obtain rfl := chosen_self hchosen
    obtain ⟨r, hr⟩ := hs.books.rooted pino leaf i (direntAt_some hat)
    obtain rfl := chosen_row hchosen hr
    refine ⟨_, ?_, hview, hlog, hids (fun _ => by simp [hr])⟩
    exact @Effect.rewrite strict _ i old _ [] [] hr (refilled_counts hs hr rfl rfl) (.inl rfl) (.inl rfl)

theorem mkdir_did (hs : Sound s) (hreads : ∀ b ∈ s.reads, b = true)
    (h : runs (mkdir now name) s = (some id, t)) : Did strict s t := by
  obtain ⟨pino, leaf, hplaced, hchosen, hview, hlog⟩ := mkdir_some hreads h
  obtain ⟨hfresh, -⟩ := chosen_fresh hs hchosen
  refine ⟨_, .mkdir hfresh (direntAt_none (placed_dirent hplaced)) (placed_leaf hplaced) rfl rfl, hview, hlog,
    chosen_ids hs hchosen hview (fun j v hv => ?_) (fun hno => by cases hno)⟩
  simp at hv
  exact hv.1

variable {src dst : Name} {code : Int}

theorem hardlink_did (hs : Sound s) (h : runs (hardlink src dst) s = (some code, t)) : Did strict s t := by
  obtain w | ⟨id, row, tpino, tleaf, hrow, hd, -, hplaced, w⟩ := hardlink_some h
  · exact did_idle hs w
  · refine did_wrote hs (.link hrow hd (direntAt_none (placed_dirent hplaced)) (placed_leaf hplaced)) w ?_
    intro i v hv
    simp at hv
    simp [hv.1, hrow]

variable {v : Val}

theorem drops_rows (h : Drops id row cs) (hv : (Key.row i, some v) ∈ cs) : i = id := by
  obtain ⟨-, rfl⟩ | ⟨-, keys, -, rfl⟩ := h <;> simp at hv
  exact hv.1

theorem unlinkName_did (hs : Sound s) (hlinked : Linked s name)
    (h : runs (unlinkName parses name) s = (some row, t)) : Did strict s t := by
  obtain ⟨parent, leaf, id, pino, cs, hsplit, hlook, hrow, hd, hparent, hdrops, w⟩ := unlinkName_some h
  have hk := hlinked parent leaf id pino hsplit hlook hparent
  have hunbind : unbind s.view pino leaf = [(.dirent pino leaf, none)] := by
    unfold unbind
    rw [hk]
  rw [hunbind] at w
  refine did_wrote hs (.unlink hk hrow hd hdrops) w fun i v hv => ?_
  obtain hno | hv := mem_cons.mp hv
  · cases hno
  · rw [drops_rows hdrops hv, hrow]
    simp

theorem unlinkName_absent (h : ∀ id, pathLookup s.view s.store name ≠ some (some id)) :
    Same s (runs (unlinkName parses name) s).2 := by
  unfold unlinkName
  rw [runs_bind]
  cases hsplit : splitPath name with
  | none => exact same_refl s
  | some q =>
    change Same s (runs (lookupPath name >>= _) s).2
    rw [runs_bind]
    cases hrun : runs (lookupPath name) s with
    | mk o u =>
      cases o with
      | some id => exact absurd (lookupPath_some hrun).1 (h id)
      | none => exact looks_run (looks_lookupPath name) hrun

theorem cascade_did {names : List Name} (hs : Sound s) (hcleared : Cleared parses names s)
    (h : runs (cascade parses names) s = (some (), t)) : Did strict s t := by
  induction names generalizing s with
  | nil =>
    obtain ⟨-, rfl⟩ := Prod.mk.inj h
    exact did_idle hs (wrote_same (same_refl s))
  | cons n ns ih =>
    obtain ⟨_, s1, hone, hrest⟩ := bind_some.mp h
    cases hone
    obtain ⟨hn, hns⟩ := hcleared
    have hdid : Did strict s (runs (unlinkName parses n) s).2 := by
      obtain ⟨hlinked, hsome⟩ | habsent := hn
      · obtain ⟨row, hrow⟩ := isSome_iff_exists.mp hsome
        exact unlinkName_did hs hlinked (Prod.ext hrow rfl)
      · exact did_idle hs (wrote_same (unlinkName_absent habsent))
    exact did_trans hdid (ih (did_sound hs hdid) hns hrest)

theorem unlink_did {siblings : List Name} (hs : Sound s) (hlinked : Linked s name)
    (hcleared : bang ∉ name → Cleared parses (siblings.filter (bang ∈ ·)) (runs (unlinkName parses name) s).2)
    (h : runs (unlink parses siblings name) s = (some (), t)) : Did strict s t := by
  obtain ⟨row, s1, hone, hrest⟩ := bind_some.mp h
  have hdid : Did strict s s1 := unlinkName_did hs hlinked hone
  split_ifs at hrest with hc
  · refine did_trans hdid (cascade_did (did_sound hs hdid) ?_ hrest)
    rw [hone] at hcleared
    exact hcleared hc.2.2.2
  · cases hrest
    exact hdid

theorem claims_rows {p : Plan} (hp : Planned s src dst p) (h : Claims p cs)
    (hv : (Key.row i, some v) ∈ cs) : s.view (.row i) ≠ none := by
  cases h with
  | free hvictim => simp at hv
  | @taken tid trow cs hvictim hdrops =>
    simp at hv
    rw [drops_rows hdrops hv, (hp.victim tid trow hvictim).2.1]
    simp

theorem rename_effect {p : Plan} {fpino : Nat} (hp : Planned s src dst p)
    (hcs : Claims p cs) (hk : s.view (.dirent fpino p.fleaf) = some (.child p.fid))
    (hne : Key.dirent fpino p.fleaf ≠ .dirent p.tpino p.tleaf) :
    Effect false s.view (cs ++ unbind (replay s.view cs) fpino p.fleaf) := by
  have hleaf : p.tleaf ≠ [] := by
    obtain ⟨tparent, hsplit, -⟩ := hp.dest
    exact splitPath_leaf hsplit
  have hunbind : ∀ g : View, g (.dirent fpino p.fleaf) = some (.child p.fid) →
      unbind (update g (.dirent p.tpino p.tleaf) (some (.child p.fid))) fpino p.fleaf =
        [(.dirent fpino p.fleaf, none)] := by
    intro g hg
    unfold unbind
    rw [update_of_ne hne, hg]
  cases hcs with
  | free hvictim =>
    change Effect false s.view (_ ++ unbind (update s.view _ _) _ _)
    rw [hunbind _ hk]
    exact .move rfl hk (direntAt_none (hp.free hvictim)) hleaf
  | @taken tid trow cs hvictim hdrops =>
    obtain ⟨hat, hrow, hd⟩ := hp.victim tid trow hvictim
    set g1 := replay s.view ((.dirent p.tpino p.tleaf, none) :: cs) with hg1
    have hdirent : ∀ q m, g1 (.dirent q m) = update s.view (.dirent p.tpino p.tleaf) none (.dirent q m) :=
      fun q m => drops_dirent hdrops q m
    have hk1 : g1 (.dirent fpino p.fleaf) = some (.child p.fid) := by rw [hdirent, update_of_ne hne, hk]
    rw [replay_append]
    change Effect false s.view (_ ++ _ ++ unbind (update g1 _ _) _ _)
    rw [hunbind g1 hk1, append_assoc]
    refine .seq (.unlink (direntAt_some hat) hrow hd hdrops) (.move rfl hk1 ?_ hleaf)
    exact (hdirent _ _).trans (update_self ..)

theorem unbind_rows {g : View} {q : Nat} {m : Name} (h : (Key.row i, some v) ∈ unbind g q m) : False := by
  unfold unbind at h
  split at h <;> simp at h

theorem rename_did (hs : Sound s) (hclean : if strict then ∀ p, ¬ Planned s src dst p else Departs s src dst)
    (h : runs (rename src dst) s = (some code, t)) : Did strict s t := by
  obtain w | ⟨p, cs, fpino, hp, hcs, hlook, w⟩ := rename_some h
  · exact did_idle hs w
  · cases strict with
    | true => exact absurd hp (hclean p)
    | false =>
      obtain ⟨hk, hne⟩ := hclean p cs fpino hp hcs hlook
      refine did_wrote hs (rename_effect hp hcs hk hne) w fun i v hv => ?_
      obtain hv | hv := mem_append.mp hv
      · exact claims_rows hp hcs hv
      · exact (unbind_rows hv).elim

theorem writeRow_did {old : Option Nat} (hs : Sound s) (hreads : ∀ b ∈ s.reads, b = true)
    (h : runs (writeRow now old name size addr) s = (some id, t)) : Did strict s t := by
  cases old with
  | none => exact createContentNode_did hs hreads h
  | some i =>
    obtain ⟨row, hrow, w⟩ := writeRow_some h
    refine did_wrote hs (@Effect.rewrite strict _ i row (Row.rewritten row now size addr) [] [] hrow
      (refilled_counts hs hrow rfl rfl) (.inl rfl) (.inl rfl)) w fun j v hv => ?_
    simp at hv
    simp [hv.1, hrow]

theorem writeCommit_did {old : Option Nat} {owns : Bool} {siblings : List Name} (hs : Sound s)
    (hreads : ∀ b ∈ s.reads, b = true)
    (hcleared : owns = true →
      Cleared parses (siblings.filter (bang ∈ ·)) (runs (writeRow now old name size addr) s).2)
    (h : runs (writeCommit parses now old name size addr owns siblings) s = (some id, t)) : Did strict s t := by
  obtain ⟨id', s1, hrow, hrest⟩ := bind_some.mp h
  have hdid : Did strict s s1 := writeRow_did hs hreads hrow
  rw [hrow] at hcleared
  cases owns with
  | false =>
    cases hrest
    exact hdid
  | true =>
    obtain ⟨_, s2, hcascade, hpure⟩ := bind_some.mp hrest
    cases hpure
    exact did_trans hdid (cascade_did (did_sound hs hdid) (hcleared rfl) hcascade)

theorem result_some {α : Type} {x : Act Ns α} (h : runs (do let _ ← x) s = (some (), t)) :
    ∃ a, runs x s = (some a, t) := by
  obtain ⟨a, u, hcall, hpure⟩ := bind_some.mp h
  cases hpure
  exact ⟨a, hcall⟩

theorem call_did {op : Op} (hs : Sound s) (hreads : ∀ b ∈ s.reads, b = true) (hgood : ∀ a ∈ s.replies, Reply.Good a)
    (hclean : Clean parses strict s op) (h : runs (op.call blake3 parses) s = (some (), t)) : Did strict s t := by
  cases op with
  | createNode now name info =>
    obtain ⟨id, hcall⟩ := result_some h
    exact createNode_did hs hreads hgood hclean hcall
  | createContentNode now name size addr =>
    obtain ⟨id, hcall⟩ := result_some h
    exact createContentNode_did hs hreads hcall
  | mkdir now name =>
    obtain ⟨id, hcall⟩ := result_some h
    exact mkdir_did hs hreads hcall
  | hardlink src dst =>
    obtain ⟨code, hcall⟩ := result_some h
    exact hardlink_did hs hcall
  | unlink siblings name => exact unlink_did hs hclean.1 hclean.2 h
  | rename src dst =>
    obtain ⟨code, hcall⟩ := result_some h
    exact rename_did hs hclean hcall
  | writeCommit now old name size addr owns siblings =>
    obtain ⟨id, hcall⟩ := result_some h
    exact writeCommit_did hs hreads hclean hcall

end

section

variable (blake3 : List Byte → List Byte) (parses : List Byte → Bool) (strict : Bool)

/-- The states that successful calls reach. Every lookup is answered, and the device refuses records
only in ways that harm no others. -/
inductive History (s₀ : Ns) : Ns → Prop where
  | start : History s₀ s₀
  | step {s t : Ns} (op : Op) (reads : List Bool) (replies : List Reply) : History s₀ s →
      (∀ b ∈ reads, b = true) → (∀ a ∈ replies, Reply.Good a) →
      Clean parses strict { s with reads := reads, replies := replies } op →
      runs (op.call blake3 parses) { s with reads := reads, replies := replies } = (some (), t) → History s₀ t

end

section

variable {blake3 : List Byte → List Byte} {parses : List Byte → Bool} {strict : Bool} {s₀ s t : Ns}

theorem history_did (h₀ : Sound s₀) (h : History blake3 parses strict s₀ s) : Did strict s₀ s := by
  induction h with
  | start => exact did_idle h₀ (wrote_same (same_refl s₀))
  | @step s t op reads replies hrun hreads hgood hclean hcall ih =>
    have hs := did_sound h₀ ih
    exact did_trans ih (call_did (s := { s with reads := reads, replies := replies }) ⟨hs.books, hs.ids⟩ hreads hgood
      hclean hcall)

end

def blank : Ns where
  readonly := false
  lazyReclaim := true
  tier := ⟨100, DeltaSegment.segHdrLen, 1000, 100000, Ram.empty⟩
  base := ∅
  store := .empty
  log := []
  recovered := false
  nextId := 0
  reads := []
  replies := []

theorem sound_blank : Sound blank := by
  refine ⟨⟨fun _ _ h => ?_, fun _ _ _ h => ?_, fun _ _ h => ?_, fun _ _ h => ?_⟩, fun h => ?_⟩
  · cases h
  · cases h
  · cases h
  · cases h
  · cases h

def nameA : Name := [0x61]

def nameB : Name := [0x62]

def twoNames : Act Ns Unit := do
  Op.call id (fun _ => true) (.createNode 0 nameA none)
  Op.call id (fun _ => true) (.hardlink nameA nameB)

theorem history_create (strict : Bool) : History id (fun _ => true) strict blank
    (runs (Op.call id (fun _ => true) (.createNode 0 nameA none)) blank).2 := by
  refine .step (.createNode 0 nameA none) [] [] .start (by simp) (by simp) ?_ (Prod.ext (by decide) rfl)
  intro pino leaf existing hplaced
  have hat : direntAt (fun _ => none) pino leaf = some existing := placed_dirent hplaced
  unfold direntAt at hat
  split_ifs at hat
  obtain rfl := some.inj hat
  exact .inr ⟨by decide, rfl⟩

theorem two_links {g : View} {id : Nat} (ha : g (.dirent rootIno nameA) = some (.child id))
    (hb : g (.dirent rootIno nameB) = some (.child id)) : 2 ≤ (links g id).encard := by
  have hsub : {Key.dirent rootIno nameA, .dirent rootIno nameB} ⊆ links g id := by
    rintro k (rfl | rfl)
    · exact mem_links.mpr ha
    · exact mem_links.mpr hb
  rw [← Set.encard_pair (show Key.dirent rootIno nameA ≠ .dirent rootIno nameB by decide)]
  exact Set.encard_le_encard hsub

def recreated : Act Ns Unit := do
  twoNames
  Op.call id (fun _ => true) (.createNode 0 nameA none)

end InvariantFs.LinkHistory
