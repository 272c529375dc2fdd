import InvariantFs.ByteCodec

namespace InvariantFs.PathLookup

open ByteCodec

abbrev Text := List Byte

def slash : Byte := 47

def dot : Byte := 46

/-- What `vol_path_lookup` reads: `vol_dirent_get`, and of an inode's row the target if it is a link. `none`
is a read that fails, and of a row also one that is not there. -/
structure Dirs where
  root : Nat
  dirent : Nat → Text → Option (Option Nat)
  link : Nat → Option (Option Text)

inductive Res where
  | found (ino : Nat)
  | absent
  | fail
  deriving DecidableEq

def maxName : Nat := 255

def maxHops : Nat := 40

def pathMax : Nat := 4096

def targetMax : Nat := 1024

variable (ds : Dirs)

/-- How one pass of the walk of `vol_path_lookup` ends: with an answer, or at a link before the last
component, whose name stands from `p` to `s` in the buffer. -/
inductive Stop where
  | done (r : Res)
  | link (cur p s : Nat) (target : Text)
  deriving DecidableEq

/-- The inner loop of `vol_path_lookup`, over the pieces that `strchr` cuts from offset `p` on. -/
def scan (cur p : Nat) : List Text → Stop
  | [] => .done (.found cur)
  | comp :: rest =>
    if comp = [] then scan cur (p + 1) rest
    else if maxName < comp.length then .done .fail
    else match ds.dirent cur comp with
      | none => .done .fail
      | some none => .done .absent
      | some (some child) =>
        -- a dangling dirent
        if child = 0 then .done .absent
        else if rest = [] then .done (.found child)
        else match ds.link child with
          | none => .done .fail
          | some (some target) => .link cur p (p + comp.length) target
          | some none => scan child (p + comp.length + 1) rest

def cstr (buf : Text) (off : Nat) : Text := (buf.drop off).takeWhile (· ≠ 0)

/-- `skip_slash`, as an offset. -/
def skipSlash (buf : Text) : Nat := (buf.takeWhile (· = slash)).length

/-- The outer loop of `vol_path_lookup`: a link is spliced into the buffer and the walk starts again at
the front of it. -/
def lookupFrom : Nat → Text → Nat → Res
  | hops, work, cur =>
    match scan ds cur (skipSlash work) ((cstr work (skipSlash work)).splitOn slash) with
    | .done r => r
    | .link cur p s blob =>
      match hops with
      | 0 => .fail
      | hops + 1 =>
        if blob.length = 0 ∨ targetMax ≤ blob.length then .fail
        else
          let target := blob.takeWhile (· ≠ 0)
          let rest := (cstr work s).length
          if target.head? = some slash then
            if pathMax < target.length + rest then .fail
            else
              -- the first move can run over the text that the second one copies
              let moved := splice 0 target work
              lookupFrom hops (splice target.length ((moved.drop s).take (rest + 1)) moved) ds.root
          else if pathMax < p + target.length + rest then .fail
          else
            let moved := splice (p + target.length) ((work.drop s).take (rest + 1)) work
            -- `cur` still names the link's parent
            lookupFrom hops (splice p target moved) cur

/-- `vol_path_lookup`; `stack` is what the buffer holds before the path is copied into it. -/
def volPathLookup (stack : Text) (name : Text) : Res :=
  if pathMax < name.length then .fail else lookupFrom ds maxHops (splice 0 (name ++ [0]) stack) ds.root

section Lookup

variable {ds} {ds' : Dirs}

/-- Fewer entries: a walk ends as before or finds nothing. -/
theorem scan_fewer (hlink : ds'.link = ds.link)
    (hdirent : ∀ d n, ds'.dirent d n = ds.dirent d n ∨ ds'.dirent d n = some none) (cur p : Nat)
    (pieces : List Text) :
    scan ds' cur p pieces = scan ds cur p pieces ∨ scan ds' cur p pieces = .done .absent := by
  induction pieces generalizing cur p with
  | nil => exact .inl rfl
  | cons comp rest ih =>
    rw [scan, scan, hlink]
    by_cases hcomp : comp = []
    · rw [if_pos hcomp, if_pos hcomp]
      exact ih cur (p + 1)
    by_cases hlong : maxName < comp.length
    · rw [if_neg hcomp, if_pos hlong, if_neg hcomp, if_pos hlong]
      exact .inl rfl
    rw [if_neg hcomp, if_neg hlong, if_neg hcomp, if_neg hlong]
    obtain h | h := hdirent cur comp
    · rw [h]
      obtain _ | _ | child := ds.dirent cur comp
      · exact .inl rfl
      · exact .inl rfl
      by_cases hend : child = 0 ∨ rest = []
      · left
        obtain h0 | h0 := hend
        · simp only [if_pos h0]
        · simp only [if_pos h0]
      simp only [if_neg (not_or.mp hend).1, if_neg (not_or.mp hend).2]
      obtain _ | _ | target := ds.link child
      · exact .inl rfl
      · exact ih child _
      · exact .inl rfl
    · rw [h]
      exact .inr rfl

theorem lookupFrom_fewer (hroot : ds'.root = ds.root) (hlink : ds'.link = ds.link)
    (hdirent : ∀ d n, ds'.dirent d n = ds.dirent d n ∨ ds'.dirent d n = some none) (hops : Nat) (work : Text)
    (cur : Nat) :
    lookupFrom ds' hops work cur = lookupFrom ds hops work cur ∨ lookupFrom ds' hops work cur = .absent := by
  induction hops generalizing work cur with
  | zero =>
    rw [lookupFrom, lookupFrom]
    obtain h | h := scan_fewer hlink hdirent cur (skipSlash work) ((cstr work (skipSlash work)).splitOn slash)
    · rw [h]
      exact .inl rfl
    · rw [h]
      exact .inr rfl
  | succ hops ih =>
    rw [lookupFrom, lookupFrom, hroot]
    obtain h | h := scan_fewer hlink hdirent cur (skipSlash work) ((cstr work (skipSlash work)).splitOn slash)
    · rw [h]
      split
      · exact .inl rfl
      · dsimp only
        split_ifs
        · exact .inl rfl
        · exact .inl rfl
        · exact ih _ _
        · exact .inl rfl
        · exact ih _ _
    · rw [h]
      exact .inr rfl

theorem volPathLookup_fewer (hroot : ds'.root = ds.root) (hlink : ds'.link = ds.link)
    (hdirent : ∀ d n, ds'.dirent d n = ds.dirent d n ∨ ds'.dirent d n = some none) (stack name : Text) :
    volPathLookup ds' stack name = volPathLookup ds stack name ∨ volPathLookup ds' stack name = .absent := by
  unfold volPathLookup
  split_ifs
  · exact .inl rfl
  · rw [hroot]
    exact lookupFrom_fewer hroot hlink hdirent _ _ _

/-- A path of slashes is the root's. -/
theorem lookupFrom_root (hops cur k : Nat) (after : Text) :
    lookupFrom ds hops (List.replicate k slash ++ 0 :: after) cur = .found cur := by
  have hskip : skipSlash (List.replicate k slash ++ 0 :: after) = k := by
    simp [skipSlash, slash]
  have hcstr : cstr (List.replicate k slash ++ 0 :: after) k = [] := by
    simp [cstr]
  rw [lookupFrom, hskip, hcstr]
  rfl

end Lookup

/-- `lookup_norm_dots`. Its table of 2048 components is enough for the paths it is given. -/
def lookupNormDots (work : Text) : Text :=
  let comp := (work.splitOn slash).filter (· ≠ [])
  let kept := comp.foldl (fun k c => if c = [dot] then k else if c = [dot, dot] then k.dropLast else k ++ [c]) []
  (if work.head? = some slash then [slash] else []) ++ [slash].intercalate kept

/-- The text up to the last slash, as `strrchr` finds it. -/
def dirText (work : Text) : Text := (work.reverse.dropWhile (· ≠ slash)).reverse

/-- The loop of `vol_path_resolve`. -/
def resolveFrom (stack : Nat → Text) : Nat → Text → Res
  | hops, work =>
    match volPathLookup ds (stack hops) work with
    | .found ino =>
      -- the root has no row
      match ds.link ino with
      | none => .fail
      | some none => .found ino
      | some (some blob) =>
        match hops with
        | 0 => .fail
        | hops + 1 =>
          if blob.length = 0 ∨ targetMax ≤ blob.length then .fail
          else
            let target := blob.takeWhile (· ≠ 0)
            if target.head? = some slash then
              if pathMax < target.length then .fail else resolveFrom stack hops (lookupNormDots target)
            else if pathMax < (dirText work).length + target.length then .fail
            else resolveFrom stack hops (lookupNormDots (dirText work ++ target))
    | r => r

def volPathResolve (stack : Nat → Text) (name : Text) : Res :=
  if pathMax < name.length then .fail else resolveFrom ds stack maxHops (lookupNormDots name)

/-- A directory tree of which every row can be read. The root has neither a row nor a name. -/
structure Tree where
  root : Nat
  dirent : Nat → Text → Option Nat
  target : Nat → Option Text
  isDir : Nat → Bool
  root_dir : isDir root = true
  root_unnamed : ∀ {d name child}, dirent d name = some child → child ≠ root
  dirent_dir : ∀ {d name child}, dirent d name = some child → isDir d = true
  link_not_dir : ∀ {l target'}, target l = some target' → isDir l = false

def Tree.dirs (t : Tree) : Dirs where
  root := t.root
  dirent d name := some (t.dirent d name)
  link i := if i = t.root then none else some (t.target i)

@[simp]
theorem dirs_root (t : Tree) : t.dirs.root = t.root := rfl

@[simp]
theorem dirs_dirent (t : Tree) (d : Nat) (name : Text) : t.dirs.dirent d name = some (t.dirent d name) := rfl

theorem dirs_link {t : Tree} {i : Nat} (h : i ≠ t.root) : t.dirs.link i = some (t.target i) := if_neg h

variable (t : Tree) (text : Text)

section Reference

def Tree.entry (d : Nat) (name : Text) : Option Nat := (t.dirent d name).filter (· ≠ 0)

def Tree.from (cur : Nat) (target : Text) : Nat := if target.head? = some slash then t.root else cur

/-- Resolution of a path without dot components. An empty component comes from a slash at the front, a repeated
one or one at the end; at the end it asks for a directory. A link is replaced by its target unless it is last
and `follow` is not set. -/
inductive Resolves (follow : Bool) : Nat → List Text → Res → Prop
  | here (cur : Nat) : Resolves follow cur [] (.found cur)
  | dir {cur : Nat} : t.isDir cur = true → Resolves follow cur [[]] (.found cur)
  | notDir {cur : Nat} : t.isDir cur = false → Resolves follow cur [[]] .absent
  | slash {cur : Nat} {rest : List Text} {r : Res} : rest ≠ [] → Resolves follow cur rest r →
      Resolves follow cur ([] :: rest) r
  | tooLong {cur : Nat} {name : Text} {rest : List Text} : maxName < name.length →
      Resolves follow cur (name :: rest) .fail
  | missing {cur : Nat} {name : Text} {rest : List Text} : name ≠ [] → name.length ≤ maxName →
      t.entry cur name = none → Resolves follow cur (name :: rest) .absent
  | step {cur child : Nat} {name : Text} {rest : List Text} {r : Res} : name ≠ [] → name.length ≤ maxName →
      t.entry cur name = some child → t.target child = none → Resolves follow child rest r →
      Resolves follow cur (name :: rest) r
  | final {cur l : Nat} {name target : Text} : name ≠ [] → name.length ≤ maxName → t.entry cur name = some l →
      t.target l = some target → follow = false → Resolves follow cur [name] (.found l)
  | link {cur l : Nat} {name target : Text} {rest : List Text} {r : Res} : name ≠ [] → name.length ≤ maxName →
      t.entry cur name = some l → t.target l = some target → (rest ≠ [] ∨ follow = true) →
      Resolves follow (t.from cur target) (target.splitOn PathLookup.slash ++ rest) r →
      Resolves follow cur (name :: rest) r

inductive Plain : Nat → List Text → Nat → Prop
  | nil (cur : Nat) : Plain cur [] cur
  | slash {cur d : Nat} {rest : List Text} : Plain cur rest d → Plain cur ([] :: rest) d
  | step {cur child d : Nat} {name : Text} {rest : List Text} : name ≠ [] → name.length ≤ maxName →
      t.entry cur name = some child → t.target child = none → Plain child rest d → Plain cur (name :: rest) d

def slashed (comps : List Text) : Text := comps.flatMap (· ++ [slash])

/-- The first link that the path meets before its last component: it is called `name`, and `rest` is the
text behind it. -/
structure FirstLink (comps : List Text) (name rest target : Text) (d : Nat) : Prop where
  text_eq : text = slashed comps ++ (name ++ slash :: rest)
  whole : ∀ c ∈ comps, slash ∉ c
  name_whole : slash ∉ name
  plain : Plain t t.root comps d
  name_pos : name ≠ []
  name_le : name.length ≤ maxName
  link : ∃ l, t.entry d name = some l ∧ t.target l = some target

structure Storable (target : Text) : Prop where
  pos : 0 < target.length
  lt : target.length < targetMax
  noNul : (0 : Byte) ∉ target

/-- The links before the last component meet neither defect: a relative one is the first component of the path
as it then reads, an absolute one has a target no longer than the text up to its name's end. A slash at the end
stands behind a directory. The number counts the links. -/
inductive Clean : Nat → Text → Prop
  | plain {text : Text} : text.length ≤ pathMax →
      (∀ comps name rest target d, ¬ FirstLink t text comps name rest target d) →
      (∀ comps d, text = slashed comps → (∀ c ∈ comps, slash ∉ c) → Plain t t.root comps d → t.isDir d = true) →
      Clean 0 text
  | absolute {n d : Nat} {text : Text} {comps : List Text} {name rest target : Text} : text.length ≤ pathMax →
      FirstLink t text comps name rest target d → Storable target → target.head? = some slash →
      target.length ≤ (slashed comps).length + name.length → Clean n (target ++ slash :: rest) → Clean (n + 1) text
  | relative {n d : Nat} {text : Text} {comps : List Text} {name rest target : Text} : text.length ≤ pathMax →
      FirstLink t text comps name rest target d → Storable target → target.head? ≠ some slash →
      (∀ c ∈ comps, c = []) → Clean n (slashed comps ++ (target ++ slash :: rest)) → Clean (n + 1) text

def tidy : Text :=
  (if text.head? = some slash then [slash] else []) ++ [slash].intercalate ((text.splitOn slash).filter (· ≠ []))

/-- The path that following the last link of `text` leads to. -/
def relink (text target : Text) : Text := if target.head? = some slash then target else dirText text ++ target

def EndsInSlash : Prop := text.getLast? = some slash

instance (text : Text) : Decidable (EndsInSlash text) := inferInstanceAs (Decidable (_ = _))

/-- The path and each one that following a last link leads to are clean, where one ends in a slash it
leads to a directory, and the last one does not lead to the root. The number counts the last links. -/
inductive CleanEnd : Nat → Text → Prop
  | stop {n : Nat} {text : Text} : text.length ≤ pathMax → Clean t n (tidy text) → n ≤ maxHops →
      (∀ l, Resolves t false t.root ((tidy text).splitOn slash) (.found l) → l ≠ t.root ∧ t.target l = none) →
      (EndsInSlash text → ∀ i, Resolves t true t.root ((tidy text).splitOn slash) (.found i) → t.isDir i = true) →
      CleanEnd 0 text
  | follow {n m l : Nat} {text target : Text} : text.length ≤ pathMax → Clean t n (tidy text) → n ≤ maxHops →
      Resolves t false t.root ((tidy text).splitOn slash) (.found l) → t.target l = some target →
      Storable target →
      (EndsInSlash text → ∀ i, Resolves t true t.root ((tidy text).splitOn slash) (.found i) → t.isDir i = true) →
      CleanEnd m (relink (tidy text) target) → CleanEnd (m + 1) text

def NoDots : Prop := [dot] ∉ text.splitOn slash ∧ [dot, dot] ∉ text.splitOn slash

instance (text : Text) : Decidable (NoDots text) := inferInstanceAs (Decidable (_ ∧ _))

end Reference

end InvariantFs.PathLookup
