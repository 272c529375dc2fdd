import InvariantFs.PathResolve
import InvariantFs.SiblingNames

namespace InvariantFs.SiblingPurge

open ByteCodec Namespace SiblingNames List Option Function

structure Volume where
  names : AList fun _ : Name => Nat
  row : Nat → Option Row

def canon (text : Name) : Name := [slash].intercalate ((text.splitOn slash).filter (· ≠ []))

/-- `vol_path_lookup`, for a path whose directories are live names: there is no link on its way. -/
def lookup (v : Volume) (text : Name) : Option Nat :=
  if canon text = [] then some rootIno else v.names.lookup (canon text)

def rowOf (v : Volume) (name : Name) : Option Row := (v.names.lookup name).bind v.row

def isDir (v : Volume) (name : Name) : Bool := (rowOf v name).any (·.type = .dir)

section

variable (tags : List Tag) (lazyReclaim : Bool) (parses : List Byte → Bool)

/-- `vol_unlink` up to the cascade: the row as it was. A regular file whose recipe does not resolve is put
back. -/
def unlinkName (v : Volume) (name : Name) : Option (Volume × Row) :=
  (splitPath name).bind fun p => (lookup v name).bind fun id => (v.row id).bind fun row =>
    if row.type = .dir ∨ lookup v p.1 = none then none
    else if row.nlink ≤ 1 then
      if row.type = .reg ∧ lazyReclaim = false ∧ row.addr ≠ [] ∧ parses row.addr = false then none
      else some (⟨v.names.erase (canon name), update v.row id none⟩, row)
    else some (⟨v.names.erase (canon name), update v.row id (some { row with nlink := row.nlink - 1 })⟩,
      row)

def below (parent n : Name) : Bool := parent = [] ∨ (parent ++ [slash]).isPrefixOf n

def rel (parent n : Name) : Name := if parent = [] then n else n.drop (parent.length + 1)

/-- `vol_walk_strict_dir`. It does not complete when a path outgrows its buffer of 600 bytes or when a
directory lies more than 64 levels down. -/
def walkStrictDir (v : Volume) (parent : Name) : Option (List Name) :=
  let l := v.names.keys.filter (below parent)
  if ∀ n ∈ l, n.length < 600 ∧ (isDir v n = true → (rel parent n).count slash < 64) then some l else none

/-- `sib_fast_scan_cb` over the entries of the parent. -/
def hasCandidate (v : Volume) (parent leaf : Name) : Bool :=
  v.names.keys.any fun n => below parent n ∧ slash ∉ rel parent n ∧ (leaf ++ [bang]).isPrefixOf (rel parent n)

/-- `del_siblings_cb`: whether a path is collected. -/
def collects (name path : Name) : Bool :=
  (name ++ [bang]).isPrefixOf path ∧ path.length < 256 ∧ sibSuffixIsInternal tags (path.drop (name.length + 1))

/-- `vol_unlink` of a sibling. Its name has a mark, so it does not go on to siblings of its own. -/
def drop (v : Volume) (name : Name) : Volume := ((unlinkName lazyReclaim parses v name).map Prod.fst).getD v

def deleteSiblings (v : Volume) (name : Name) : Volume :=
  match splitPath (skipSlash name) with
  | none => v
  | some (parent, leaf) =>
    if skipSlash parent ≠ [] ∧ lookup v parent = none then v
    else if hasCandidate v parent leaf = false then v
    else
      match walkStrictDir v parent with
      | none => v
      | some l => (l.filter (collects tags (skipSlash name))).foldl (drop lazyReclaim parses) v

def unlink (v : Volume) (name : Name) : Option Volume :=
  (unlinkName lazyReclaim parses v name).map fun p =>
    if p.2.nlink ≤ 1 ∧ p.2.type = .reg ∧ 0 < p.2.size ∧ bang ∉ name then
      deleteSiblings tags lazyReclaim parses p.1 name
    else p.1

def volNameIsContainerSibling (v : Volume) (name : Name) : Bool :=
  let pre := name.takeWhile (· ≠ bang)
  let suf := (name.dropWhile (· ≠ bang)).tail
  bang ∈ name ∧ suf ≠ [] ∧ suf.length < 256 ∧ sibSuffixIsInternal tags suf ∧ pre ≠ [] ∧ pre.length ≤ maxName ∧
    lookup v pre ≠ none

end

def Canonical (n : Name) : Prop := ∀ c ∈ n.splitOn slash, c ≠ []

/-- A namespace as the operations keep it: every name is spelled plainly and lies in live directories, has
a row, and has been counted, and the recipes resolve. -/
structure WellFormed (parses : List Byte → Bool) (v : Volume) : Prop where
  plain : ∀ n id, v.names.lookup n = some id → Canonical n
  dirs : ∀ n id d r, v.names.lookup n = some id → n = d ++ slash :: r → isDir v d = true
  rows : ∀ n id, v.names.lookup n = some id → ∃ row, v.row id = some row
  links : ∀ id row, v.row id = some row → row.type ≠ .dir → {n | v.names.lookup n = some id}.ncard ≤ row.nlink
  whole : ∀ id row, v.row id = some row → row.type = .reg → row.addr = [] ∨ parses row.addr = true

def Container (v : Volume) (c : Name) : Prop :=
  bang ∉ c ∧ ∃ row, rowOf v c = some row ∧ row.type = .reg ∧ 0 < row.size ∧ row.nlink ≤ 1

def Completes (v : Volume) (c : Name) : Prop :=
  ∃ parent leaf, splitPath c = some (parent, leaf) ∧
    ∀ n id, v.names.lookup n = some id → n ≠ c → below parent n = true →
      n.length < 600 ∧ (isDir v n = true → (rel parent n).count slash < 64)

section

variable (tags : List Tag) (lazyReclaim : Bool) (parses : List Byte → Bool)

def Removes (v : Volume) (c m : Name) : Prop :=
  ∃ v', unlink tags lazyReclaim parses v c = some v' ∧ m ≠ c ∧ v.names.lookup m ≠ none ∧ v'.names.lookup m = none

def Exact (v : Volume) : Prop :=
  ∀ c m, Container v c → v.names.lookup m ≠ none →
    (Removes tags lazyReclaim parses v c m ↔ Minted c m)

def Agree (v : Volume) : Prop :=
  ∀ m, v.names.lookup m ≠ none →
    (volNameIsContainerSibling tags v m = true ↔ ∃ c, Container v c ∧ Removes tags lazyReclaim parses v c m)

end

/-- The names on which the two agree with the lanes. What is minted behind a container has the shape, so no member
index has more than four digits, and is no directory. Behind anything that can be looked up, a name of the shape
has been minted for a container, unless it is too long for the question. -/
def Plain (tags : List Tag) (v : Volume) : Prop :=
  ∀ p suf, bang ∉ p → v.names.lookup (p ++ bang :: suf) ≠ none →
    (Container v p → Minted p (p ++ bang :: suf) → Shaped tags suf ∧ isDir v (p ++ bang :: suf) = false) ∧
    (Shaped tags suf → suf.length < 256 → p ≠ [] → p.length ≤ maxName → lookup v p ≠ none →
      Container v p ∧ Minted p (p ++ bang :: suf) ∧ isDir v (p ++ bang :: suf) = false)

theorem canonical_split {a b : Name} (h : Canonical (a ++ slash :: b)) : Canonical a ∧ Canonical b := by
  have hsplit : (a ++ slash :: b).splitOn slash = a.splitOn slash ++ b.splitOn slash :=
    PathResolve.splitOn_append_slash a b
  unfold Canonical at h
  rw [hsplit] at h
  exact ⟨fun c hc => h c (mem_append_left _ hc), fun c hc => h c (mem_append_right _ hc)⟩

theorem not_canonical_nil : ¬ Canonical [] := fun h => h [] (by simp) rfl

variable {n : Name}

theorem canon_canonical (h : Canonical n) : canon n = n := by
  have hall : (n.splitOn slash).filter (· ≠ []) = n.splitOn slash :=
    filter_eq_self.mpr fun c hc => decide_eq_true (h c hc)
  rw [canon, hall]
  exact intercalate_splitOn slash

theorem skipSlash_canonical (h : Canonical n) : skipSlash n = n := by
  cases n with
  | nil => rfl
  | cons b n =>
    refine dropWhile_cons_of_neg fun hb => ?_
    obtain rfl : b = slash := of_decide_eq_true hb
    exact not_canonical_nil (canonical_split (a := []) h).1

theorem stripSlash_canonical (h : Canonical n) : stripSlash n = n := by
  unfold stripSlash
  obtain ⟨a, b, rfl⟩ | rfl : (∃ a b, n = a ++ [b]) ∨ n = [] := by
    obtain rfl | hne := eq_or_ne n []
    · exact .inr rfl
    · exact .inl ⟨n.dropLast, n.getLast hne, (dropLast_append_getLast hne).symm⟩
  · rw [reverse_append, reverse_singleton, singleton_append, dropWhile_cons_of_neg, reverse_cons, reverse_reverse]
    intro hb
    obtain rfl : b = slash := of_decide_eq_true hb
    exact not_canonical_nil (canonical_split h).2
  · rfl

theorem last_slash (n : Name) : slash ∉ n ∨ ∃ a b, n = a ++ slash :: b ∧ slash ∉ b := by
  induction n with
  | nil => exact .inl not_mem_nil
  | cons x n ih =>
    obtain hno | ⟨a, b, rfl, hb⟩ := ih
    · by_cases hx : slash = x
      · exact .inr ⟨[], n, by rw [hx]; rfl, hno⟩
      · exact .inl fun hmem => (mem_cons.mp hmem).elim hx hno
    · exact .inr ⟨x :: a, b, rfl, hb⟩

variable {leaf : Name}

theorem takeWhile_leaf (h : slash ∉ leaf) (rest : Name) (hrest : rest = [] ∨ ∃ r, rest = slash :: r) :
    (leaf.reverse ++ rest).takeWhile (· ≠ slash) = leaf.reverse := by
  rw [takeWhile_append_of_pos (PathResolve.all_ne fun hb => h (mem_reverse.mp hb))]
  obtain rfl | ⟨r, rfl⟩ := hrest
  · simp
  · simp

theorem splitPath_canonical (h : Canonical n) : ∃ parent leaf, slash ∉ leaf ∧
    (parent = [] ∧ n = leaf ∨ parent ≠ [] ∧ n = parent ++ slash :: leaf) ∧
    splitPath n = if maxName < leaf.length ∨ 600 ≤ parent.length then none else some (parent, leaf) := by
  have hp : stripSlash (skipSlash n) = n := by rw [skipSlash_canonical h, stripSlash_canonical h]
  obtain hno | ⟨a, b, rfl, hb⟩ := last_slash n
  · have hleaf : (n.reverse.takeWhile (· ≠ slash)).reverse = n := by
      have := takeWhile_leaf hno [] (.inl rfl)
      rw [append_nil] at this
      rw [this, reverse_reverse]
    have hne : n ≠ [] := fun heq => not_canonical_nil (heq ▸ h)
    refine ⟨[], n, hno, .inl ⟨rfl, rfl⟩, ?_⟩
    unfold splitPath
    simp only [hp, hleaf, Nat.sub_self, hne, false_or]
    rfl
  · obtain ⟨ha, hbc⟩ := canonical_split h
    have hleaf : ((a ++ slash :: b).reverse.takeWhile (· ≠ slash)).reverse = b := by
      have hrev : (a ++ slash :: b).reverse = b.reverse ++ slash :: a.reverse := by simp
      rw [hrev, takeWhile_leaf hb _ (.inr ⟨_, rfl⟩), reverse_reverse]
    have hparent : stripSlash ((a ++ slash :: b).take ((a ++ slash :: b).length - b.length)) = a := by
      have hlen : (a ++ slash :: b).length - b.length = (a ++ [slash]).length := by simp; omega
      have happ : a ++ slash :: b = (a ++ [slash]) ++ b := by simp
      rw [hlen, happ, take_left]
      have hstrip : stripSlash (a ++ [slash]) = stripSlash a := by
        unfold stripSlash
        rw [reverse_append, reverse_singleton, singleton_append, dropWhile_cons_of_pos (by simp)]
      rw [hstrip, stripSlash_canonical ha]
    have hne : b ≠ [] := fun heq => not_canonical_nil (heq ▸ hbc)
    have hane : a ≠ [] := fun heq => not_canonical_nil (heq ▸ ha)
    refine ⟨a, b, hb, .inr ⟨hane, rfl⟩, ?_⟩
    unfold splitPath
    simp only [hp, hleaf, hparent, hne, false_or]

theorem splitPath_short (h : Canonical n) (hlen : n.length < 256) : ∃ p, splitPath n = some p := by
  obtain ⟨parent, leaf, -, hn, hsplit⟩ := splitPath_canonical h
  have hlens : leaf.length ≤ n.length ∧ parent.length ≤ n.length := by
    obtain ⟨rfl, rfl⟩ | ⟨-, rfl⟩ := hn
    · simp
    · simp only [length_append, length_cons]
      omega
  exact ⟨(parent, leaf), by rw [hsplit, if_neg (by unfold maxName; omega)]⟩

variable {tags : List Tag} {lazyReclaim : Bool} {parses : List Byte → Bool} {v : Volume}

theorem lookup_canonical (h : Canonical n) : lookup v n = v.names.lookup n := by
  have hne : n ≠ [] := fun heq => not_canonical_nil (heq ▸ h)
  rw [lookup, canon_canonical h, if_neg hne]

theorem lookup_dir (hwf : WellFormed parses v) {d : Name} (hdir : isDir v d = true) : lookup v d ≠ none := by
  intro hnone
  cases hlook : v.names.lookup d with
  | none => simp [isDir, rowOf, hlook] at hdir
  | some i =>
    rw [lookup_canonical (hwf.plain d i hlook), hlook] at hnone
    cases hnone

variable {id : Nat}

theorem mem_keys (hn : v.names.lookup n = some id) : n ∈ v.names.keys :=
  AList.mem_keys.mp (AList.lookup_isSome.mp (by rw [hn]; rfl))

variable {parent : Name}

theorem lookup_parent (hwf : WellFormed parses v)
    (hn : v.names.lookup n = some id) (hsplit : splitPath n = some (parent, leaf)) : lookup v parent ≠ none := by
  obtain ⟨a, b, -, hab, hs⟩ := splitPath_canonical (hwf.plain n id hn)
  rw [hsplit] at hs
  split_ifs at hs
  cases hs
  obtain ⟨rfl, -⟩ | ⟨-, rfl⟩ := hab
  · simp [lookup, canon]
  · exact lookup_dir hwf (hwf.dirs _ id parent leaf hn rfl)

theorem finite_names (v : Volume) (id : Nat) : {n | v.names.lookup n = some id}.Finite := by
  exact v.names.keys.finite_toSet.subset fun n hn => mem_keys hn

theorem lookup_erased (v : Volume) (n k : Name) :
    (v.names.erase n).lookup k = if k = n then none else v.names.lookup k := by
  split_ifs with hk
  · rw [hk, AList.lookup_erase]
  · exact AList.lookup_erase_ne hk

theorem wellFormed_erase (hwf : WellFormed parses v) {row : Row}
    (hn : v.names.lookup n = some id) (hrow : v.row id = some row) (hd : row.type ≠ .dir) {x : Option Row}
    (hx : row.nlink ≤ 1 ∧ x = none ∨ 1 < row.nlink ∧ x = some { row with nlink := row.nlink - 1 }) :
    WellFormed parses ⟨v.names.erase n, update v.row id x⟩ ∧
      ∀ k, k ≠ n → isDir ⟨v.names.erase n, update v.row id x⟩ k = isDir v k := by
  have hlinks := hwf.links id row hrow hd
  -- With one link no other name has the inode.
  have hother : ∀ k i, k ≠ n → v.names.lookup k = some i → x = none → i ≠ id := by
    rintro k i hk hi rfl rfl
    obtain ⟨hle, -⟩ | ⟨-, hno⟩ := hx
    · have hone := (Set.ncard_le_one (finite_names v i)).mp (hlinks.trans hle)
      exact hk (hone k hi n hn)
    · cases hno
  have hrowOf : ∀ k, k ≠ n → (rowOf ⟨v.names.erase n, update v.row id x⟩ k).map Row.type =
      (rowOf v k).map Row.type := by
    intro k hk
    unfold rowOf
    dsimp only
    rw [lookup_erased, if_neg hk]
    cases hi : v.names.lookup k with
    | none => rfl
    | some i =>
      rw [Option.bind_some, Option.bind_some]
      by_cases hid : i = id
      · obtain ⟨-, rfl⟩ | ⟨-, rfl⟩ := hx
        · exact absurd hid (hother k i hk hi rfl)
        · rw [hid, update_self, hrow]
          rfl
      · rw [update_of_ne hid]
  have hdir : ∀ k, k ≠ n → isDir ⟨v.names.erase n, update v.row id x⟩ k = isDir v k := by
    intro k hk
    have := congrArg (Option.any fun t => decide (t = IType.dir)) (hrowOf k hk)
    simpa [isDir, Option.any_map] using this
  have hself : isDir v n = false := by simp [isDir, rowOf, hn, hrow, hd]
  have hback : ∀ i r, update v.row id x i = some r →
      v.row i = some r ∨ i = id ∧ r = { row with nlink := row.nlink - 1 } := by
    intro i r hr
    by_cases hid : i = id
    · rw [hid, update_self] at hr
      obtain ⟨-, rfl⟩ | ⟨-, rfl⟩ := hx
      · cases hr
      · exact .inr ⟨hid, (some.inj hr).symm⟩
    · rw [update_of_ne hid] at hr
      exact .inl hr
  refine ⟨⟨fun k i hk => ?_, fun k i d r hk heq => ?_, fun k i hk => ?_, fun i r hr hrd => ?_,
    fun i r hr hreg => ?_⟩, hdir⟩
  · rw [lookup_erased] at hk
    split_ifs at hk
    exact hwf.plain k i hk
  · rw [lookup_erased] at hk
    split_ifs at hk with hkn
    have hdv := hwf.dirs k i d r hk heq
    rw [hdir d fun hdn => ?_]
    · exact hdv
    · rw [hdn, hself] at hdv
      cases hdv
  · rw [lookup_erased] at hk
    split_ifs at hk with hkn
    by_cases hid : i = id
    · obtain ⟨-, rfl⟩ | ⟨-, rfl⟩ := hx
      · exact absurd hid (hother k i hkn hk rfl)
      · exact ⟨_, by dsimp only; rw [hid, update_self]⟩
    · obtain ⟨r, hr⟩ := hwf.rows k i hk
      exact ⟨r, by dsimp only; rw [update_of_ne hid, hr]⟩
  · have hset : {k | (v.names.erase n).lookup k = some i} = {k | v.names.lookup k = some i} \ {n} := by
      ext k
      by_cases hk : k = n
      · simp [hk]
      · simp [hk]
    dsimp only
    rw [hset]
    obtain hr | ⟨rfl, rfl⟩ := hback i r hr
    · exact (Set.ncard_sdiff_singleton_le _ _).trans (hwf.links i r hr hrd)
    · rw [Set.ncard_sdiff_singleton_of_mem (show n ∈ {k | v.names.lookup k = some i} from hn)]
      exact Nat.sub_le_sub_right hlinks 1
  · obtain hr | ⟨rfl, rfl⟩ := hback i r hr
    · exact hwf.whole i r hr hreg
    · exact hwf.whole i row hrow hreg

theorem unlinkName_live (lazyReclaim : Bool) (hwf : WellFormed parses v) {row : Row} (hn : v.names.lookup n = some id)
    (hrow : v.row id = some row) (hd : row.type ≠ .dir) {p : Name × Name} (hsplit : splitPath n = some p) :
    ∃ v', unlinkName lazyReclaim parses v n = some (v', row) ∧ WellFormed parses v' ∧
      (∀ k, v'.names.lookup k = if k = n then none else v.names.lookup k) ∧ ∀ k, k ≠ n → isDir v' k = isDir v k := by
  have hplain := hwf.plain n id hn
  have hparent : lookup v p.1 ≠ none := lookup_parent hwf hn hsplit
  have hwhole : ¬ (row.type = .reg ∧ lazyReclaim = false ∧ row.addr ≠ [] ∧ parses row.addr = false) := by
    rintro ⟨hreg, -, hne, hbad⟩
    obtain hnil | hok := hwf.whole id row hrow hreg
    · exact hne hnil
    · rw [hbad] at hok
      cases hok
  have hguard : ¬ (row.type = .dir ∨ lookup v p.1 = none) := not_or.mpr ⟨hd, hparent⟩
  by_cases hnl : row.nlink ≤ 1
  · obtain ⟨hwf', hdir⟩ := wellFormed_erase hwf hn hrow hd (.inl ⟨hnl, rfl⟩)
    refine ⟨_, ?_, hwf', lookup_erased v n, hdir⟩
    simp only [unlinkName, hsplit, lookup_canonical hplain, hn, hrow, bind_some, if_neg hguard, if_pos hnl,
      if_neg hwhole, canon_canonical hplain]
  · obtain ⟨hwf', hdir⟩ := wellFormed_erase hwf hn hrow hd (.inr ⟨Nat.not_le.mp hnl, rfl⟩)
    refine ⟨_, ?_, hwf', lookup_erased v n, hdir⟩
    simp only [unlinkName, hsplit, lookup_canonical hplain, hn, hrow, bind_some, if_neg hguard, if_neg hnl,
      canon_canonical hplain]

theorem drop_names (lazyReclaim : Bool) (hwf : WellFormed parses v) (hc : Canonical n) (hlen : n.length < 256) :
    WellFormed parses (drop lazyReclaim parses v n) ∧ (∀ k, (drop lazyReclaim parses v n).names.lookup k =
        if k = n ∧ isDir v n = false then none else v.names.lookup k) ∧
      ∀ k, k ≠ n ∨ isDir v n = true → isDir (drop lazyReclaim parses v n) k = isDir v k := by
  obtain ⟨p, hsplit⟩ := splitPath_short hc hlen
  obtain ⟨hnone, hwhy⟩ | ⟨id, row, hn, hrow, hd⟩ : (unlinkName lazyReclaim parses v n = none ∧
      (v.names.lookup n = none ∨ isDir v n = true)) ∨
      ∃ id row, v.names.lookup n = some id ∧ v.row id = some row ∧ row.type ≠ .dir := by
    cases hn : v.names.lookup n with
    | none => exact .inl ⟨by simp [unlinkName, hsplit, lookup_canonical hc, hn], .inl rfl⟩
    | some id =>
      obtain ⟨row, hrow⟩ := hwf.rows n id hn
      by_cases hd : row.type = .dir
      · exact .inl ⟨by simp [unlinkName, hsplit, lookup_canonical hc, hn, hrow, hd],
          .inr (by simp [isDir, rowOf, hn, hrow, hd])⟩
      · exact .inr ⟨id, row, rfl, hrow, hd⟩
  · have hsame : drop lazyReclaim parses v n = v := by rw [drop, hnone]; rfl
    rw [hsame]
    refine ⟨hwf, fun k => ?_, fun _ _ => rfl⟩
    split_ifs with hk
    · obtain ⟨rfl, hkd⟩ := hk
      exact hwhy.resolve_right (by simp [hkd])
    · rfl
  · obtain ⟨v', hun, hwf', hnames, hdir⟩ := unlinkName_live lazyReclaim hwf hn hrow hd hsplit
    have hdrop : drop lazyReclaim parses v n = v' := by rw [drop, hun]; rfl
    have hself : isDir v n = false := by simp [isDir, rowOf, hn, hrow, hd]
    rw [hdrop, hself]
    exact ⟨hwf', fun k => by simpa using hnames k, fun k hk => hdir k (hk.resolve_right (by simp))⟩

theorem cascade_names (hwf : WellFormed parses v) {l : List Name} (hl : ∀ n ∈ l, Canonical n ∧ n.length < 256) :
    ∀ k, (l.foldl (drop lazyReclaim parses) v).names.lookup k =
      if k ∈ l ∧ isDir v k = false then none else v.names.lookup k := by
  induction l generalizing v with
  | nil => simp
  | cons n l ih =>
    intro k
    obtain ⟨⟨hc, hlen⟩, hl'⟩ := forall_mem_cons.mp hl
    obtain ⟨hwf', hnames, hdir⟩ := drop_names lazyReclaim hwf hc hlen
    rw [foldl_cons, ih hwf' hl', hnames]
    by_cases hk : k = n
    · subst hk
      cases hd : isDir v k with
      | false => simp
      | true => simp [hdir k (.inr hd), hd]
    · rw [hdir k (.inl hk)]
      simp [hk]

variable {c : Name}

theorem collects_iff {k : Name} : collects tags c k = true ↔
    ∃ suf, k = c ++ bang :: suf ∧ k.length < 256 ∧ Shaped tags suf := by
  simp only [collects, decide_eq_true_eq, sibSuffixIsInternal_iff, isPrefixOf_iff_prefix]
  have hdrop : ∀ suf, (c ++ [bang] ++ suf).drop (c.length + 1) = suf := fun suf => drop_left' (by simp)
  constructor
  · rintro ⟨⟨suf, rfl⟩, hlen, hg⟩
    rw [hdrop] at hg
    exact ⟨suf, by simp, hlen, hg⟩
  · rintro ⟨suf, rfl, hlen, hg⟩
    rw [append_cons c bang suf] at hlen ⊢
    rw [hdrop]
    exact ⟨⟨suf, rfl⟩, hlen, hg⟩

theorem below_extends (hc : parent = [] ∧ c = leaf ∨ parent ≠ [] ∧ c = parent ++ slash :: leaf) (suf : Name) :
    below parent (c ++ suf) = true ∧ rel parent (c ++ suf) = leaf ++ suf := by
  obtain ⟨rfl, rfl⟩ | ⟨hne, rfl⟩ := hc
  · simp [below, rel]
  · have happ : parent ++ slash :: leaf ++ suf = (parent ++ [slash]) ++ (leaf ++ suf) := by simp
    refine ⟨?_, ?_⟩
    · rw [happ]
      simp [below, isPrefixOf_iff_prefix]
    · rw [rel, if_neg hne, happ]
      exact drop_left' (by simp)

variable {suf : Name}

theorem hasCandidate_extends (hwf : WellFormed parses v)
    (hleaf : slash ∉ leaf) (hc : parent = [] ∧ c = leaf ∨ parent ≠ [] ∧ c = parent ++ slash :: leaf)
    (hn : v.names.lookup (c ++ bang :: suf) = some id) : hasCandidate v parent leaf = true := by
  -- The part of the suffix up to its first slash is a name of the directory itself.
  obtain ⟨a, ha, i, hi⟩ : ∃ a, slash ∉ a ∧ ∃ i, v.names.lookup (c ++ bang :: a) = some i := by
    by_cases hs : slash ∈ suf
    · obtain ⟨a, r, rfl, ha⟩ := eq_append_cons_of_mem hs
      have hdir := hwf.dirs _ id (c ++ bang :: a) r hn (by simp)
      cases hi : v.names.lookup (c ++ bang :: a) with
      | none => simp [isDir, rowOf, hi] at hdir
      | some i => exact ⟨a, ha, i, hi⟩
    · exact ⟨suf, hs, id, hn⟩
  obtain ⟨hbelow, hrel⟩ := below_extends hc (bang :: a)
  refine any_eq_true.mpr ⟨_, mem_keys hi, decide_eq_true ⟨hbelow, ?_, ?_⟩⟩
  · rw [hrel]
    intro hmem
    obtain hmem | hmem := mem_append.mp hmem
    · exact hleaf hmem
    · obtain hmem | hmem := mem_cons.mp hmem
      · exact absurd hmem (by decide)
      · exact ha hmem
  · rw [hrel, isPrefixOf_iff_prefix]
    exact ⟨a, by simp⟩

theorem unlink_names (tags : List Tag) (lazyReclaim : Bool) (hwf : WellFormed parses v) (hc : Container v c)
    (hwalk : Completes v c) : ∃ v', unlink tags lazyReclaim parses v c = some v' ∧ ∀ k, k ≠ c →
      v'.names.lookup k = if collects tags c k = true ∧ isDir v k = false then none else v.names.lookup k := by
  obtain ⟨hbang, row, hrowOf, hreg, hsize, hnl⟩ := hc
  obtain ⟨id, hid, hrow⟩ := bind_eq_some_iff.mp hrowOf
  obtain ⟨parent, leaf, hsplit, hdone⟩ := hwalk
  have hd : row.type ≠ .dir := by rw [hreg]; decide
  have hplain := hwf.plain c id hid
  obtain ⟨v1, hun, hwf1, hnames, hdir⟩ := unlinkName_live lazyReclaim hwf hid hrow hd hsplit
  refine ⟨deleteSiblings tags lazyReclaim parses v1 c, ?_, fun k hk => ?_⟩
  · rw [unlink, hun, map_some, if_pos ⟨hnl, hreg, hsize, hbang⟩]
  have hk1 : v1.names.lookup k = v.names.lookup k := by rw [hnames, if_neg hk]
  obtain ⟨parent', leaf', hleaf, hjoin, hs⟩ := splitPath_canonical hplain
  rw [hsplit] at hs
  split_ifs at hs
  cases hs
  have hparent : lookup v1 parent ≠ none := by
    obtain ⟨rfl, -⟩ | ⟨-, heq⟩ := hjoin
    · simp [lookup, canon]
    · have hne : parent ≠ c := by
        rintro rfl
        simp at heq
      exact lookup_dir hwf1 ((hdir parent hne).trans (hwf.dirs c id parent leaf hid heq))
  have hguard : ¬ (skipSlash parent ≠ [] ∧ lookup v1 parent = none) := fun habs => hparent habs.2
  rw [deleteSiblings, skipSlash_canonical hplain, hsplit]
  dsimp only
  rw [if_neg hguard]
  -- Without a candidate in the directory no live name is collected.
  cases hcand : hasCandidate v1 parent leaf with
  | false =>
    rw [if_pos rfl, hk1]
    split_ifs with hcol
    · obtain ⟨suf, rfl, -, -⟩ := collects_iff.mp hcol.1
      cases hlook : v.names.lookup (c ++ bang :: suf) with
      | none => rfl
      | some i =>
        rw [hlook] at hk1
        rw [hasCandidate_extends hwf1 hleaf hjoin hk1] at hcand
        cases hcand
    · rfl
  | true =>
    have hlive : ∀ n ∈ v1.names.keys, n ≠ c ∧ ∃ i, v.names.lookup n = some i := by
      intro n hn
      obtain ⟨i, hi⟩ := isSome_iff_exists.mp (AList.lookup_isSome.mpr (AList.mem_keys.mpr hn))
      rw [hnames] at hi
      split_ifs at hi with hnc
      exact ⟨hnc, i, hi⟩
    have hwalk1 : walkStrictDir v1 parent = some (v1.names.keys.filter (below parent)) := by
      refine if_pos fun n hn => ?_
      obtain ⟨hkey, hbelow⟩ := mem_filter.mp hn
      obtain ⟨hnc, i, hi⟩ := hlive n hkey
      rw [hdir n hnc]
      exact hdone n i hi hnc hbelow
    rw [if_neg (by decide), hwalk1]
    dsimp only
    rw [cascade_names hwf1 fun n hn => ?_, hk1, hdir k hk]
    · by_cases hcol : collects tags c k = true
      · cases hlook : v.names.lookup k with
        | none => simp
        | some i =>
          obtain ⟨suf, rfl, -, -⟩ := collects_iff.mp hcol
          have hbelow := (below_extends hjoin (bang :: suf)).1
          have hkey := mem_keys (hk1.trans hlook)
          simp [hcol, hbelow, hkey]
      · simp [hcol]
    · obtain ⟨hwalked, hcol⟩ := mem_filter.mp hn
      obtain ⟨-, i, hi⟩ := hlive n (mem_of_mem_filter hwalked)
      obtain ⟨-, -, hlen, -⟩ := collects_iff.mp hcol
      exact ⟨hwf.plain n i hi, hlen⟩

theorem removes_iff (hwf : WellFormed parses v) {m : Name} (hc : Container v c) (hwalk : Completes v c) :
    Removes tags lazyReclaim parses v c m ↔ v.names.lookup m ≠ none ∧ isDir v m = false ∧
      ∃ suf, m = c ++ bang :: suf ∧ m.length < 256 ∧ Shaped tags suf := by
  obtain ⟨v', hv', hnames⟩ := unlink_names tags lazyReclaim hwf hc hwalk
  constructor
  · rintro ⟨v'', hv'', hmc, hlive, hgone⟩
    obtain rfl : v' = v'' := some.inj (hv'.symm.trans hv'')
    rw [hnames m hmc] at hgone
    split_ifs at hgone with hcol
    · exact ⟨hlive, hcol.2, collects_iff.mp hcol.1⟩
    · exact absurd hgone hlive
  · rintro ⟨hlive, hdir, hcol⟩
    have hmc : m ≠ c := by
      obtain ⟨suf, rfl, -, -⟩ := hcol
      simp
    exact ⟨v', hv', hmc, hlive, by rw [hnames m hmc, if_pos ⟨collects_iff.mpr hcol, hdir⟩]⟩

theorem first_bang {p : Name} (hp : bang ∉ p) (suf : Name) :
    (p ++ bang :: suf).takeWhile (· ≠ bang) = p ∧ (p ++ bang :: suf).dropWhile (· ≠ bang) = bang :: suf := by
  have hall := PathResolve.all_ne hp
  rw [takeWhile_append_of_pos hall, dropWhile_append_of_pos hall]
  simp

theorem shaped_ne_nil (h : Shaped tags suf) : suf ≠ [] := by
  rintro rfl
  have hshape := (sibSuffixIsInternal_iff tags []).mpr h
  simp [sibSuffixIsInternal, suffixLoop, shape_nil] at hshape

theorem isContainerSibling_iff {m : Name} : volNameIsContainerSibling tags v m = true ↔
    ∃ p suf, m = p ++ bang :: suf ∧ bang ∉ p ∧ Shaped tags suf ∧ suf.length < 256 ∧ p ≠ [] ∧
      p.length ≤ maxName ∧ lookup v p ≠ none := by
  simp only [volNameIsContainerSibling, decide_eq_true_eq, sibSuffixIsInternal_iff]
  constructor
  · rintro ⟨hmark, -, hlen, hg, hne, hplen, hlook⟩
    obtain ⟨p, suf, rfl, hp⟩ := eq_append_cons_of_mem hmark
    obtain ⟨htake, hdrop⟩ := first_bang hp suf
    rw [htake] at hne hplen hlook
    rw [hdrop] at hlen hg
    exact ⟨p, suf, rfl, hp, hg, hlen, hne, hplen, hlook⟩
  · rintro ⟨p, suf, rfl, hp, hg, hlen, hne, hplen, hlook⟩
    obtain ⟨htake, hdrop⟩ := first_bang hp suf
    rw [htake, hdrop, tail_cons]
    exact ⟨by simp, shaped_ne_nil hg, hlen, hg, hne, hplen, hlook⟩

theorem bang_unique {p q a b : Name} (hp : bang ∉ p) (hq : bang ∉ q) (h : p ++ bang :: a = q ++ bang :: b) :
    p = q ∧ a = b := by
  obtain ⟨htake, hdrop⟩ := first_bang hp a
  obtain ⟨htake', hdrop'⟩ := first_bang hq b
  rw [h] at htake hdrop
  exact ⟨htake.symm.trans htake', (List.cons.inj (hdrop.symm.trans hdrop')).2⟩

theorem container_lookup (hwf : WellFormed parses v) (hc : Container v c) : c ≠ [] ∧ lookup v c ≠ none := by
  obtain ⟨-, row, hrowOf, -⟩ := hc
  obtain ⟨id, hid, -⟩ := bind_eq_some_iff.mp hrowOf
  have hplain := hwf.plain c id hid
  refine ⟨fun heq => not_canonical_nil (heq ▸ hplain), ?_⟩
  rw [lookup_canonical hplain, hid]
  simp

def sampleRow : Row := { Row.zero with nlink := 1, size := 1 }

/-- The file `a` and one more behind a mark. -/
def sample (suf : Name) : Volume where
  names := (AList.insert (0x61 :: bang :: suf) 3 ∅).insert [0x61] 2
  row id := if id = 2 ∨ id = 3 then some sampleRow else none

theorem sample_lookup (suf n : Name) (id : Nat) : (sample suf).names.lookup n = some id ↔
    n = [0x61] ∧ id = 2 ∨ n = 0x61 :: bang :: suf ∧ id = 3 := by
  unfold sample
  dsimp only
  by_cases hn : n = [0x61]
  · subst hn
    simp [eq_comm]
  · rw [AList.lookup_insert_ne hn]
    by_cases hs : n = 0x61 :: bang :: suf
    · subst hs
      rw [AList.lookup_insert]
      simp [eq_comm]
    · rw [AList.lookup_insert_ne hs, AList.lookup_empty]
      simp [hn, hs]

theorem sample_isDir (suf n : Name) : isDir (sample suf) n = false := by
  unfold isDir rowOf
  cases hn : (sample suf).names.lookup n with
  | none => rfl
  | some id =>
    obtain ⟨-, rfl⟩ | ⟨-, rfl⟩ := (sample_lookup suf n id).mp hn
    · rfl
    · rfl

theorem sample_wellFormed (hsuf : slash ∉ suf) : WellFormed (fun _ => true) (sample suf) := by
  have hmem : slash ∉ 0x61 :: bang :: suf := by
    simp only [mem_cons, not_or]
    exact ⟨by decide, by decide, hsuf⟩
  have hno : ∀ n id, (sample suf).names.lookup n = some id → slash ∉ n ∧ n ≠ [] := by
    intro n id hn
    obtain ⟨rfl, -⟩ | ⟨rfl, -⟩ := (sample_lookup suf n id).mp hn
    · decide
    · exact ⟨hmem, by simp⟩
  have hids : ∀ n m id, (sample suf).names.lookup n = some id → (sample suf).names.lookup m = some id → n = m := by
    intro n m id hn hm
    obtain ⟨rfl, rfl⟩ | ⟨rfl, rfl⟩ := (sample_lookup suf n id).mp hn
    · simpa [eq_comm] using (sample_lookup suf m 2).mp hm
    · simpa [eq_comm] using (sample_lookup suf m 3).mp hm
  have hrows : ∀ id row, (sample suf).row id = some row → row = sampleRow := by
    intro id row hrow
    simp only [sample] at hrow
    split_ifs at hrow
    exact (some.inj hrow).symm
  refine ⟨fun n id hn c hc => ?_, fun n id d r hn heq => ?_, fun n id hn => ?_, fun id row hrow _ => ?_,
    fun id row hrow _ => ?_⟩
  · obtain ⟨hn', hne⟩ := hno n id hn
    have hsplit : n.splitOn slash = [n] := splitOnP_eq_singleton fun x hx => beq_false_of_ne fun heq => hn' (heq ▸ hx)
    rw [hsplit, mem_singleton] at hc
    exact hc ▸ hne
  · exact absurd (heq ▸ (by simp : slash ∈ d ++ slash :: r)) (hno n id hn).1
  · obtain ⟨-, rfl⟩ | ⟨-, rfl⟩ := (sample_lookup suf n id).mp hn
    · exact ⟨sampleRow, rfl⟩
    · exact ⟨sampleRow, rfl⟩
  · rw [hrows id row hrow]
    exact (Set.ncard_le_one (finite_names _ id)).mpr fun n hn m hm => hids n m id hn hm
  · rw [hrows id row hrow]
    exact .inl rfl

theorem sample_container (hc : Container (sample suf) c) : c = [0x61] := by
  obtain ⟨hbang, row, hrowOf, -⟩ := hc
  obtain ⟨id, hid, -⟩ := bind_eq_some_iff.mp hrowOf
  obtain ⟨rfl, -⟩ | ⟨rfl, -⟩ := (sample_lookup suf c id).mp hid
  · rfl
  · simp at hbang

theorem sample_completes (hlen : suf.length < 256) (c : Name) (hc : Container (sample suf) c) :
    Completes (sample suf) c := by
  obtain rfl := sample_container hc
  refine ⟨[], [0x61], by decide, fun n id hn _ _ => ⟨?_, fun hd => ?_⟩⟩
  · obtain ⟨rfl, -⟩ | ⟨rfl, -⟩ := (sample_lookup suf n id).mp hn
    · decide
    · simp only [length_cons]
      omega
  · rw [sample_isDir] at hd
    cases hd

end InvariantFs.SiblingPurge
