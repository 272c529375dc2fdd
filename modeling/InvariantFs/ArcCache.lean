import InvariantFs.ByteCodec

/-!
`T1` and `T2` hold the cached contents and `B1` and `B2` the keys of what was evicted. The hash table is the map
from keys to nodes.
-/

namespace InvariantFs.ArcCache

open ByteCodec List Function

inductive Which
  | none
  | t1
  | t2
  | b1
  | b2
  deriving DecidableEq

structure Node where
  len : Nat
  data : Option (List Byte)
  list : Which

/-- The keys of a list, the one used last first. -/
structure Lst where
  keys : List Nat := []
  bytes : Nat := 0

structure Arc where
  c : Nat
  p : Nat
  node : Nat → Option Node
  lst : Which → Lst

def arcCreate (budget : Nat) : Arc := ⟨budget, budget / 2, fun _ => none, fun _ => {}⟩

def lstUnlink (a : Arc) (k : Nat) (n : Node) : Arc :=
  if n.list = .none then a
  else { a with lst := update a.lst n.list ⟨(a.lst n.list).keys.erase k, (a.lst n.list).bytes - n.len⟩ }

def lstPushMru (a : Arc) (k : Nat) (n : Node) : Arc :=
  if n.list = .none then a
  else { a with lst := update a.lst n.list ⟨k :: (a.lst n.list).keys, (a.lst n.list).bytes + n.len⟩ }

def moveTo (a : Arc) (k : Nat) (n : Node) (w : Which) : Arc :=
  let a := lstUnlink a k n
  lstPushMru { a with node := update a.node k (some { n with list := w }) } k { n with list := w }

def nodeFree (a : Arc) (k : Nat) : Arc :=
  match a.node k with
  | none => a
  | some n => { lstUnlink a k n with node := update a.node k none }

def arcGetCopy (a : Arc) (k off want : Nat) : Arc × Option (List Byte) :=
  match a.node k with
  | some ⟨len, some d, l⟩ => (moveTo a k ⟨len, some d, l⟩ .t2, some ((d.drop off).take want))
  | _ => (a, none)

/-- The victim at the end of a list gives its data up and goes to a ghost list. -/
def demote (a : Arc) (w ghost : Which) : Arc :=
  match (a.lst w).keys.getLast? with
  | none => a
  | some k => match a.node k with
    | none => a
    | some n => moveTo a k { n with data := none } ghost

/-- The loop of `arc_replace`, for as many rounds as there are live entries. -/
def arcReplace (need : Nat) (fromB2 : Bool) : Nat → Arc → Arc
  | 0, a => a
  | rounds + 1, a =>
    let t1 := a.lst .t1
    if t1.bytes + (a.lst .t2).bytes + need ≤ a.c then a
    else if t1.keys ≠ [] ∧ (a.p < t1.bytes ∨ fromB2 ∧ t1.bytes = a.p) then
      arcReplace need fromB2 rounds (demote a .t1 .b1)
    else if (a.lst .t2).keys ≠ [] then arcReplace need fromB2 rounds (demote a .t2 .b2)
    else if t1.keys ≠ [] then arcReplace need fromB2 rounds (demote a .t1 .b1)
    else a

def live (a : Arc) : Nat := (a.lst .t1).keys.length + (a.lst .t2).keys.length

def trim (full : Arc → Bool) (w : Which) : Nat → Arc → Arc
  | 0, a => a
  | rounds + 1, a =>
    match (a.lst w).keys.getLast? with
    | some k => if full a then trim full w rounds (nodeFree a k) else a
    | none => a

def arcTrimGhosts (a : Arc) : Arc :=
  let a := trim (fun a => a.c < (a.lst .t1).bytes + (a.lst .b1).bytes) .b1 (a.lst .b1).keys.length a
  trim (fun a => 2 * a.c < (a.lst .t1).bytes + (a.lst .t2).bytes + (a.lst .b1).bytes + (a.lst .b2).bytes) .b2
    (a.lst .b2).keys.length a

/-- The target after a ghost hit, with the step that the sizes of the ghost lists give. -/
def adapt (a : Arc) (hit : Which) (len : Nat) : Nat :=
  let n1 := (a.lst .b1).keys.length
  let n2 := (a.lst .b2).keys.length
  if hit = .b1 then min a.c ((a.p + len * if n1 ≠ 0 ∧ n1 < n2 then n2 / n1 else 1) % 2 ^ 64)
  else a.p - (len * if n2 ≠ 0 ∧ n2 < n1 then n1 / n2 else 1) % 2 ^ 64

/-- `mem` is whether there is memory for a node. -/
def arcPut (a : Arc) (k : Nat) (data : List Byte) (mem : Bool) : Arc :=
  let len := data.length
  if a.c < len * 2 then a
  else match a.node k with
    | some ⟨oldLen, some _, l⟩ =>
      let a := moveTo a k ⟨oldLen, none, l⟩ .none
      let a := arcReplace len false (live a) a
      arcTrimGhosts (moveTo a k ⟨len, some data, .none⟩ .t2)
    | some ⟨oldLen, none, l⟩ =>
      let a := { a with p := adapt a l len }
      let a := arcReplace len (l ≠ .b1) (live a) a
      let a := moveTo a k ⟨oldLen, none, l⟩ .none
      arcTrimGhosts (moveTo a k ⟨len, some data, .none⟩ .t2)
    | none =>
      let a := arcReplace len false (live a) a
      if mem then arcTrimGhosts (moveTo a k ⟨len, some data, .none⟩ .t1) else a

inductive Op
  | get (k off want : Nat)
  | put (k : Nat) (data : List Byte) (mem : Bool)
  | invalidate (k : Nat)

def step (a : Arc) : Op → Arc
  | .get k off want => (arcGetCopy a k off want).1
  | .put k data mem => arcPut a k data mem
  | .invalidate k => nodeFree a k

/-- The bytes of the latest put for a key that `taken` lets through, unless the key was invalidated since. -/
def latest (taken : List Byte → Bool) (k : Nat) (last : Option (List Byte)) : Op → Option (List Byte)
  | .get _ _ _ => last
  | .put k' data _ => if k' = k ∧ taken data then some data else last
  | .invalidate k' => if k' = k then none else last

def Arc.data (a : Arc) (k : Nat) : Option (List Byte) := (a.node k).bind Node.data

/-- The cached bytes are those that `last` tells for each key. -/
def Tells (c : Nat) (last : Nat → Option (List Byte)) (a : Arc) : Prop :=
  a.c = c ∧ ∀ k d, a.data k = some d → last k = some d

variable {c k : Nat} {last : Nat → Option (List Byte)} {a : Arc} {n : Node} {w : Which}

/-- What becomes of the node of one key is all that matters, not what becomes of the lists. -/
theorem tells_set {x : Option Node} {l : Which → Lst} (hc : a.c = c)
    (h : ∀ k' d, k' ≠ k → a.data k' = some d → last k' = some d)
    (hx : ∀ d, x.bind Node.data = some d → last k = some d) :
    Tells c last { a with node := update a.node k x, lst := l } := by
  refine ⟨hc, fun k' d hd => ?_⟩
  by_cases hk : k' = k
  · subst hk
    exact hx d (by simpa [Arc.data] using hd)
  · exact h k' d hk (by simpa [Arc.data, hk] using hd)

theorem lstUnlink_eq (a : Arc) (k : Nat) (n : Node) : ∃ l, lstUnlink a k n = { a with lst := l } := by
  unfold lstUnlink
  split_ifs
  · exact ⟨a.lst, rfl⟩
  · exact ⟨_, rfl⟩

section

variable (hc : a.c = c) (h : ∀ k' d, k' ≠ k → a.data k' = some d → last k' = some d)

include hc h

theorem tells_moveTo (hn : ∀ d, n.data = some d → last k = some d) : Tells c last (moveTo a k n w) := by
  obtain ⟨l, hl⟩ := lstUnlink_eq a k n
  unfold moveTo lstPushMru
  rw [hl]
  split_ifs
  · exact tells_set hc h hn
  · exact tells_set hc h hn

theorem tells_nodeFree : Tells c last (nodeFree a k) := by
  unfold nodeFree
  split
  next hnone =>
    refine ⟨hc, fun k' d hd => h k' d ?_ hd⟩
    rintro rfl
    simp [Arc.data, hnone] at hd
  next n _ =>
    obtain ⟨l, hl⟩ := lstUnlink_eq a k n
    rw [hl]
    exact tells_set hc h (by simp)

end

theorem tells_demote (h : Tells c last a) (w ghost : Which) : Tells c last (demote a w ghost) := by
  unfold demote
  split
  · exact h
  split
  · exact h
  · exact tells_moveTo h.1 (fun k' d _ => h.2 k' d) (by simp)

theorem tells_arcReplace (h : Tells c last a) (need : Nat) (fromB2 : Bool) (rounds : Nat) :
    Tells c last (arcReplace need fromB2 rounds a) := by
  fun_induction arcReplace need fromB2 rounds a with
  | case3 _ _ _ _ _ ih | case4 _ _ _ _ _ _ ih | case5 _ _ _ _ _ _ _ ih => exact ih (tells_demote h _ _)
  | _ => exact h

theorem tells_trim (h : Tells c last a) (full : Arc → Bool) (w : Which) (rounds : Nat) :
    Tells c last (trim full w rounds a) := by
  fun_induction trim full w rounds a with
  | case2 _ _ _ _ _ ih => exact ih (tells_nodeFree h.1 fun k' d _ => h.2 k' d)
  | _ => exact h

variable {data : List Byte}

theorem tells_store (h : Tells c last a) (hk : last k = some data) (w : Which) :
    Tells c last (arcTrimGhosts (moveTo a k ⟨data.length, some data, .none⟩ w)) := by
  refine tells_trim (tells_trim (tells_moveTo h.1 (fun k' d _ => h.2 k' d) ?_) ..) ..
  rintro d ⟨⟩
  exact hk

theorem tells_arcPut (hfit : data.length * 2 ≤ c) (mem : Bool) (hc : a.c = c)
    (h : ∀ k' d, k' ≠ k → a.data k' = some d → last k' = some d) (hk : last k = some data) :
    Tells c last (arcPut a k data mem) := by
  have hnone : a.data k = none → Tells c last a := by
    refine fun hno => ⟨hc, fun k' d hd => h k' d ?_ hd⟩
    rintro rfl
    cases hno.symm.trans hd
  unfold arcPut
  rw [if_neg (by omega)]
  split
  · exact tells_store (tells_arcReplace (tells_moveTo hc h (by simp)) ..) hk .t2
  next l hnode =>
    have ha := tells_arcReplace (a := { a with p := adapt a l data.length }) (hnone (by simp [Arc.data, hnode]))
      data.length (l ≠ .b1) (live a)
    exact tells_store (tells_moveTo ha.1 (fun k' d _ => ha.2 k' d) (by simp)) hk .t2
  next hnode =>
    have ha := tells_arcReplace (hnone (by simp [Arc.data, hnode])) data.length false (live a)
    split_ifs
    · exact tells_store ha hk .t1
    · exact ha

def taken (c : Nat) (data : List Byte) : Bool := data.length * 2 ≤ c

theorem tells_step (h : Tells c last a) (op : Op) :
    Tells c (fun k => latest (taken c) k (last k) op) (step a op) := by
  cases op with
  | get k off want =>
    simp only [step, arcGetCopy, latest]
    split
    next hk => exact tells_moveTo h.1 (fun k' d _ => h.2 k' d) fun d hd => h.2 k d (by simpa [Arc.data, hk] using hd)
    next => exact h
  | put k data mem =>
    by_cases hfit : data.length * 2 ≤ c
    · refine tells_arcPut hfit mem h.1 (fun k' d hk hd => ?_) (by simp [latest, taken, hfit])
      simpa [latest, Ne.symm hk] using h.2 k' d hd
    · have hsame : step a (.put k data mem) = a := if_pos (h.1 ▸ Nat.lt_of_not_le hfit)
      rw [hsame]
      simpa [latest, taken, hfit] using h
  | invalidate k =>
    refine tells_nodeFree h.1 fun k' d hk hd => ?_
    simpa [latest, Ne.symm hk] using h.2 k' d hd

theorem tells_run (h : Tells c last a) (ops : List Op) :
    Tells c (fun k => ops.foldl (latest (taken c) k) (last k)) (ops.foldl step a) := by
  induction ops generalizing a last with
  | nil => exact h
  | cons op ops ih => exact ih (tells_step h op)

/-- A hit gives bytes of the latest put for the key that was not refused for its size, with no invalidation since. -/
theorem getCopy_latest (c : Nat) (ops : List Op) (k off want : Nat) (out : List Byte)
    (h : (arcGetCopy (ops.foldl step (arcCreate c)) k off want).2 = some out) :
    ∃ d, ops.foldl (latest (taken c) k) none = some d ∧ out = (d.drop off).take want := by
  have hnew : Tells c (fun _ => none) (arcCreate c) := ⟨rfl, fun _ _ hd => by cases hd⟩
  have hrun := tells_run hnew ops
  unfold arcGetCopy at h
  split at h
  next len d l hk =>
    cases h
    exact ⟨d, hrun.2 k d (by simp [Arc.data, hk]), rfl⟩
  next => cases h

def putSeq : List Op :=
  [.put 1 [7] true, .put 2 [9, 9, 9] true, .put 1 [8, 5] true, .put 4 [6, 6] true, .put 3 [4, 4] true]

/-- The second put of key 1 replaces the first, and the last put evicts key 2. -/
theorem getCopy_latest_second : (arcGetCopy (putSeq.foldl step (arcCreate 8)) 2 0 4).2 = none ∧
    ∃ d, putSeq.foldl (latest (taken 8) 1) none = some d ∧ [5] = (d.drop 1).take 4 :=
  ⟨by decide +kernel, getCopy_latest 8 putSeq 1 1 4 [5] (by decide +kernel)⟩

/-- A put that is refused for its size leaves the bytes of the one before it. -/
theorem getCopy_refused : ¬ ∀ (c : Nat) (ops : List Op) (k off want : Nat) (out : List Byte),
    (arcGetCopy (ops.foldl step (arcCreate c)) k off want).2 = some out →
      ∃ d, ops.foldl (latest (fun _ => true) k) none = some d ∧ out = (d.drop off).take want := by
  intro h
  obtain ⟨d, hd, hout⟩ := h 2 [.put 1 [7] true, .put 1 [8, 8] true] 1 0 4 [7] (by decide +kernel)
  cases hd
  cases hout

end InvariantFs.ArcCache
