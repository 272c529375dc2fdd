import Mathlib.Data.Set.Card

namespace InvariantFs.LinearProbe

open List Option Function Nat

variable {K S : Type}

/-- The first position at or behind `i` where the walk around the table stops. `none` is a walk that goes
round for ever. -/
def probe (stop : Nat → Bool) (cap : Nat) : Nat → Nat → Option Nat
  | 0, _ => none
  | fuel + 1, i => if stop i then some i else probe stop cap fuel ((i + 1) % cap)

structure Table (K S : Type) where
  cap : Nat
  slot : Nat → Option (K × S)

namespace Table

def empty (cap : Nat) : Table K S := ⟨cap, fun _ => none⟩

def set (t : Table K S) (i : Nat) (x : Option (K × S)) : Table K S := { t with slot := update t.slot i x }

def entries (t : Table K S) : List (K × S) := (range t.cap).filterMap t.slot

variable [DecidableEq K] (hash : K → Nat)

def seek (t : Table K S) (k : K) : Option Nat :=
  probe (fun i => (t.slot i).all fun e => e.1 = k) t.cap t.cap (hash k % t.cap)

section

omit [DecidableEq K]

def place (t : Table K S) (e : K × S) : Option (Table K S) :=
  (probe (fun i => (t.slot i).isNone) t.cap t.cap (hash e.1 % t.cap)).map fun i => t.set i (some e)

def rehash (t : Table K S) (cap : Nat) : Option (Table K S) := t.entries.foldlM (place hash) (empty cap)

/-- The entries behind a slot that has been emptied are taken out and placed again, up to the next empty
slot. -/
def shift : Nat → Nat → Table K S → Option (Table K S)
  | 0, _, _ => none
  | fuel + 1, i, t =>
    match t.slot ((i + 1) % t.cap) with
    | none => some t
    | some e => ((t.set ((i + 1) % t.cap) none).place hash e).bind (shift fuel ((i + 1) % t.cap))

def eraseAt (t : Table K S) (i : Nat) : Option (Table K S) := shift hash t.cap i (t.set i none)

/-- Nothing is empty between the home of a key and the slot `d` behind it. -/
def Reaches (t : Table K S) (k : K) (d : Nat) : Prop := ∀ d' < d, t.slot ((hash k + d') % t.cap) ≠ none

/-- The table stands for a map. Every entry can be reached from its home, no key is there twice, and some
slot is empty. -/
structure Rep (t : Table K S) (f : K → Option S) : Prop where
  reach : ∀ k s d, d < t.cap → t.slot ((hash k + d) % t.cap) = some (k, s) → Reaches hash t k d
  once : ∀ i < t.cap, ∀ j < t.cap, ∀ k s s', t.slot i = some (k, s) → t.slot j = some (k, s') → i = j
  map : ∀ k s, f k = some s ↔ ∃ i < t.cap, t.slot i = some (k, s)
  room : t.entries.length < t.cap

end

end Table

section Walk

variable {stop : Nat → Bool} {cap fuel i j h d d' : Nat}

theorem offset_exists (h : Nat) (hj : j < cap) : ∃ d < cap, (h + d) % cap = j := by
  have hpos : 0 < cap := zero_lt_of_lt hj
  refine ⟨(j + (cap - h % cap)) % cap, mod_lt _ hpos, ?_⟩
  have hlt := mod_lt h hpos
  have hsum : h + (j + (cap - h % cap)) = j + cap + cap * (h / cap) := by
    have := div_add_mod h cap
    omega
  rw [add_mod_mod, hsum, add_mul_mod_self_left, add_mod_right, mod_eq_of_lt hj]

theorem offset_inj (hd : d < cap) (hd' : d' < cap) (heq : (h + d) % cap = (h + d') % cap) : d = d' :=
  Nat.ModEq.eq_of_lt_of_lt (Nat.ModEq.add_left_cancel' h heq) hd hd'

theorem probe_some (hi : i < cap) : probe stop cap fuel i = some j ↔
    ∃ d < fuel, (i + d) % cap = j ∧ stop j = true ∧ ∀ d' < d, stop ((i + d') % cap) = false := by
  induction fuel generalizing i with
  | zero => simp [probe]
  | succ fuel ih =>
    have hself : (i + 0) % cap = i := mod_eq_of_lt hi
    have hstep : ∀ d, ((i + 1) % cap + d) % cap = (i + (d + 1)) % cap := fun d => by
      rw [mod_add_mod, add_right_comm, add_assoc]
    rw [probe]
    split_ifs with hstop
    · constructor
      · intro h
        cases h
        exact ⟨0, succ_pos fuel, hself, hstop, fun d' hd' => absurd hd' (not_lt_zero d')⟩
      · rintro ⟨_ | d, -, rfl, -, hbefore⟩
        · rw [hself]
        · have := hbefore 0 (succ_pos d)
          rw [hself, hstop] at this
          simp at this
    · rw [ih (mod_lt _ (zero_lt_of_lt hi))]
      constructor
      · rintro ⟨d, hd, rfl, hj, hbefore⟩
        refine ⟨d + 1, succ_lt_succ hd, (hstep d).symm, hj, fun d' hd' => ?_⟩
        obtain _ | d' := d'
        · rw [hself]
          simpa using hstop
        · rw [← hstep]
          exact hbefore d' (lt_of_succ_lt_succ hd')
      · rintro ⟨_ | d, hd, rfl, hj, hbefore⟩
        · rw [hself] at hj
          exact absurd hj hstop
        · refine ⟨d, lt_of_succ_lt_succ hd, hstep d, hj, fun d' hd' => ?_⟩
          rw [hstep]
          exact hbefore (d' + 1) (succ_lt_succ hd')

theorem probe_stops (stop : Nat → Bool) (h : Nat) (hd : d < cap) (hstop : stop ((h + d) % cap) = true) :
    ∃ d₀ ≤ d, probe stop cap cap (h % cap) = some ((h + d₀) % cap) ∧ stop ((h + d₀) % cap) = true ∧
      ∀ d' < d₀, stop ((h + d') % cap) = false := by
  have hex : ∃ d, stop ((h + d) % cap) = true := ⟨d, hstop⟩
  refine ⟨Nat.find hex, Nat.find_min' hex hstop, ?_, Nat.find_spec hex, fun d' hd' => ?_⟩
  · refine (probe_some (mod_lt _ (zero_lt_of_lt hd))).mpr
      ⟨Nat.find hex, Nat.lt_of_le_of_lt (Nat.find_min' hex hstop) hd, mod_add_mod .., Nat.find_spec hex,
        fun d' hd' => ?_⟩
    simpa using Nat.find_min hex hd'
  · simpa using Nat.find_min hex hd'

end Walk

namespace Table

variable {t : Table K S} {i : Nat} {k : K} {s : S}

theorem set_slot (t : Table K S) (i j : Nat) (x : Option (K × S)) :
    (t.set i x).slot j = if j = i then x else t.slot j := update_apply ..

@[simp]
theorem set_cap (t : Table K S) (i : Nat) (x : Option (K × S)) : (t.set i x).cap = t.cap := rfl

variable {e : K × S}

theorem mem_entries : e ∈ t.entries ↔ ∃ i < t.cap, t.slot i = some e := by
  simp [entries, mem_filterMap]

theorem entries_length (t : Table K S) : t.entries.length = (range t.cap).countP fun i => (t.slot i).isSome := by
  rw [entries, length_filterMap_eq_countP]

theorem exists_empty (h : t.entries.length < t.cap) : ∃ i < t.cap, t.slot i = none := by
  by_contra hno
  push Not at hno
  rw [entries_length, countP_eq_length.mpr] at h
  · simp at h
  · intro i hi
    exact isSome_iff_ne_none.mpr (hno i (mem_range.mp hi))

theorem countP_single {p q : Nat → Bool} (h : ∀ j, j ≠ i → p j = q j) (n : Nat) :
    (range n).countP p + (if i < n ∧ q i = true then 1 else 0) =
      (range n).countP q + (if i < n ∧ p i = true then 1 else 0) := by
  induction n with
  | zero => simp
  | succ n ih =>
    simp only [range_succ, countP_append, countP_singleton]
    by_cases hn : i = n
    · subst hn
      simp only [lt_irrefl, false_and, if_false] at ih
      simp only [lt_succ_self, true_and]
      omega
    · have hlt : i < n + 1 ↔ i < n := by omega
      rw [h n (Ne.symm hn)]
      simp only [hlt]
      omega

theorem length_set (hi : i < t.cap) (x : Option (K × S)) :
    (t.set i x).entries.length + (if (t.slot i).isSome then 1 else 0) =
      t.entries.length + (if x.isSome then 1 else 0) := by
  have hcount := countP_single (p := fun j => ((t.set i x).slot j).isSome) (q := fun j => (t.slot j).isSome)
    (i := i) (fun j hj => by rw [set_slot, if_neg hj]) t.cap
  rw [entries_length, entries_length]
  simpa [set_slot, hi] using hcount

variable {hash : K → Nat} {f : K → Option S} {d : Nat}

namespace Rep

theorem pos (h : Rep hash t f) : 0 < t.cap := zero_lt_of_lt h.room

theorem before_ne (h : Rep hash t f) (hd : d < t.cap) (hslot : t.slot ((hash k + d) % t.cap) = some (k, s))
    {d' : Nat} (hd' : d' < d) : ∃ e, t.slot ((hash k + d') % t.cap) = some e ∧ e.1 ≠ k := by
  obtain ⟨e, he⟩ := ne_none_iff_exists'.mp (h.reach k s d hd hslot d' hd')
  refine ⟨e, he, ?_⟩
  rintro rfl
  have heq := h.once _ (mod_lt _ h.pos) _ (mod_lt _ h.pos) e.1 e.2 s he hslot
  exact absurd (offset_inj (Nat.lt_trans hd' hd) hd heq) (Nat.ne_of_lt hd')

theorem entries_nodup (h : Rep hash t f) : t.entries.Pairwise fun a b => a.1 ≠ b.1 := by
  have hrange : (range t.cap).Pairwise fun i j => i < t.cap ∧ j < t.cap ∧ i ≠ j :=
    List.Pairwise.imp_of_mem (fun hi hj hne => ⟨mem_range.mp hi, mem_range.mp hj, hne⟩) nodup_range
  refine hrange.filterMap _ ?_
  rintro i j ⟨hi, hj, hne⟩ ⟨k, s⟩ he ⟨k', s'⟩ he' rfl
  exact hne (h.once i hi j hj k s s' he he')

theorem empty (hash : K → Nat) {cap : Nat} (hcap : 0 < cap) :
    Rep hash (Table.empty cap : Table K S) fun _ => none := by
  refine ⟨by simp [Table.empty], by simp [Table.empty], by simp [Table.empty], ?_⟩
  simpa [Table.empty, entries] using hcap

variable [DecidableEq K]

section

variable (h : Rep hash t f)

include h

theorem seek_some (hf : f k = some s) : ∃ i < t.cap, t.seek hash k = some i ∧ t.slot i = some (k, s) := by
  obtain ⟨i, hi, hslot⟩ := (h.map k s).mp hf
  obtain ⟨d, hd, rfl⟩ := offset_exists (hash k) hi
  refine ⟨_, hi, (probe_some (mod_lt _ h.pos)).mpr ⟨d, hd, mod_add_mod .., ?_, fun d' hd' => ?_⟩, hslot⟩
  · simp [hslot]
  · obtain ⟨e, he, hne⟩ := h.before_ne hd hslot hd'
    rw [mod_add_mod, he]
    simpa using hne

theorem seek_none (hf : f k = none) :
    ∃ d < t.cap, t.seek hash k = some ((hash k + d) % t.cap) ∧ t.slot ((hash k + d) % t.cap) = none ∧
      Reaches hash t k d := by
  obtain ⟨j, hj, hnone⟩ := exists_empty h.room
  obtain ⟨d, hd, rfl⟩ := offset_exists (hash k) hj
  obtain ⟨d0, hle, hprobe, hstop, hbefore⟩ :=
    probe_stops (fun i => (t.slot i).all fun e => e.1 = k) (hash k) hd (by simp [hnone])
  have hd0 : d0 < t.cap := lt_of_le_of_lt hle hd
  refine ⟨d0, hd0, hprobe, ?_, fun d' hd' hempty => ?_⟩
  · cases hslot : t.slot ((hash k + d0) % t.cap) with
    | none => rfl
    | some e =>
      obtain rfl : e.1 = k := by simpa [hslot] using hstop
      have := (h.map e.1 e.2).mpr ⟨_, mod_lt _ h.pos, hslot⟩
      rw [hf] at this
      simp at this
  · have := hbefore d' hd'
    simp [hempty] at this

/-- A slot on the way of a key that holds no other key, where no slot but this one holds the key. -/
theorem write (hd : d < t.cap) (hi : (hash k + d) % t.cap = i) (hreach : Reaches hash t k d)
    (hown : ∀ e ∈ t.slot i, e.1 = k) (honly : ∀ j < t.cap, ∀ s', t.slot j = some (k, s') → j = i)
    (hroom : (t.set i (some (k, s))).entries.length < t.cap) :
    Rep hash (t.set i (some (k, s))) (update f k (some s)) := by
  have hkeep : ∀ j, t.slot j ≠ none → (t.set i (some (k, s))).slot j ≠ none := fun j hj => by
    rw [set_slot]
    split_ifs
    · simp
    · exact hj
  refine ⟨fun k' s' d' hd' hslot => ?_, fun i' hi' j hj k' s1 s2 h1 h2 => ?_, fun k' s' => ?_, hroom⟩
  · change (t.set _ _).slot ((hash k' + d') % t.cap) = _ at hslot
    rw [set_slot] at hslot
    split_ifs at hslot with hpos
    · cases hslot
      obtain rfl := offset_inj hd' hd (hpos.trans hi.symm)
      exact fun d'' hd'' => hkeep _ (hreach d'' hd'')
    · exact fun d'' hd'' => hkeep _ (h.reach k' s' d' hd' hslot d'' hd'')
  · rw [set_slot] at h1 h2
    split_ifs at h1 h2 with hp1 hp2 hp2
    · rw [hp1, hp2]
    · obtain ⟨rfl, -⟩ := Prod.mk.inj (some.inj h1)
      exact absurd (honly j hj s2 h2) hp2
    · obtain ⟨rfl, -⟩ := Prod.mk.inj (some.inj h2)
      exact absurd (honly i' hi' s1 h1) hp1
    · exact h.once i' hi' j hj k' s1 s2 h1 h2
  · change _ ↔ ∃ j < t.cap, (t.set _ _).slot j = _
    by_cases hk : k' = k
    · subst hk
      rw [update_self]
      constructor
      · intro hs
        obtain rfl := some.inj hs
        exact ⟨i, hi ▸ mod_lt _ h.pos, by rw [set_slot, if_pos rfl]⟩
      · rintro ⟨j, hj, hslot⟩
        rw [set_slot] at hslot
        split_ifs at hslot with hne
        · exact congrArg some (Prod.mk.inj (some.inj hslot)).2
        · exact absurd (honly j hj s' hslot) hne
    · rw [update_of_ne hk, h.map]
      refine exists_congr fun j => and_congr_right fun hj => ?_
      rw [set_slot]
      split_ifs with hpos
      · exact iff_of_false (fun hslot => hk (hown _ (hpos ▸ hslot))) (by simp [Ne.symm hk])
      · rfl

theorem fill (hd : d < t.cap) (hnone : t.slot ((hash k + d) % t.cap) = none)
    (hreach : Reaches hash t k d) (hf : f k = none) (hroom : t.entries.length + 1 < t.cap) (s : S) :
    Rep hash (t.set ((hash k + d) % t.cap) (some (k, s))) (update f k (some s)) := by
  refine h.write hd rfl hreach (by simp [hnone]) (fun j hj s' hs' => ?_) ?_
  · have := (h.map k s').mpr ⟨j, hj, hs'⟩
    rw [hf] at this
    simp at this
  · have hlen := length_set (t := t) (mod_lt (hash k + d) h.pos) (some (k, s))
    rw [hnone] at hlen
    simp only [isSome_none, isSome_some, if_true, Bool.false_eq_true, if_false, add_zero] at hlen
    rw [hlen]
    exact hroom

theorem replace (hi : i < t.cap) (hslot : t.slot i = some (k, s)) (s' : S) :
    Rep hash (t.set i (some (k, s'))) (update f k (some s')) := by
  obtain ⟨d, hd, rfl⟩ := offset_exists (hash k) hi
  refine h.write hd rfl (h.reach k s d hd hslot) (by simp [hslot]) (fun j hj s0 h0 => ?_) ?_
  · exact h.once j hj _ hi k s0 s h0 hslot
  · have hlen := length_set (t := t) hi (some (k, s'))
    rw [hslot] at hlen
    simp only [isSome_some, if_true, add_right_cancel_iff] at hlen
    rw [hlen]
    exact h.room

end

theorem place (h : Rep hash t f) (hroom : t.entries.length + 1 < t.cap) (hf : f k = none) (s : S) :
    ∃ t', t.place hash (k, s) = some t' ∧ Rep hash t' (update f k (some s)) ∧ t'.cap = t.cap ∧
      t'.entries.length = t.entries.length + 1 := by
  obtain ⟨j, hj, hempty⟩ := exists_empty h.room
  obtain ⟨d, hd, rfl⟩ := offset_exists (hash k) hj
  obtain ⟨d0, hle, hprobe, hstop, hbefore⟩ := probe_stops (fun i => (t.slot i).isNone) (hash k) hd (by simp [hempty])
  have hd0 : d0 < t.cap := lt_of_le_of_lt hle hd
  have hnone : t.slot ((hash k + d0) % t.cap) = none := isNone_iff_eq_none.mp hstop
  have hreach : Reaches hash t k d0 := fun d' hd' hno => by
    have := hbefore d' hd'
    simp [hno] at this
  refine ⟨_, congrArg (Option.map _) hprobe, h.fill hd0 hnone hreach hf hroom s, rfl, ?_⟩
  have hlen := length_set (t := t) (mod_lt (hash k + d0) h.pos) (some (k, s))
  rw [hnone] at hlen
  simpa using hlen

theorem placeAll {es : List (K × S)} (h : Rep hash t f) (hroom : t.entries.length + es.length < t.cap)
    (hes : es.Pairwise fun a b => a.1 ≠ b.1) (hnew : ∀ e ∈ es, f e.1 = none) :
    ∃ t' f', es.foldlM (Table.place hash) t = some t' ∧ Rep hash t' f' ∧ t'.cap = t.cap ∧
      t'.entries.length = t.entries.length + es.length ∧ ∀ k s, f' k = some s ↔ f k = some s ∨ (k, s) ∈ es := by
  induction es generalizing t f with
  | nil => exact ⟨t, f, rfl, h, rfl, rfl, by simp⟩
  | cons e es ih =>
    obtain ⟨hne, hes⟩ := pairwise_cons.mp hes
    simp only [length_cons] at hroom
    obtain ⟨t1, hplace, h1, hcap, hlen⟩ := h.place (by omega) (hnew e mem_cons_self) e.2
    have hnew' : ∀ x ∈ es, update f e.1 (some e.2) x.1 = none := fun x hx => by
      rw [update_of_ne (Ne.symm (hne x hx))]
      exact hnew x (mem_cons_of_mem _ hx)
    obtain ⟨t', f', hfold, h', hcap', hlen', hmap⟩ := ih h1 (by omega) hes hnew'
    refine ⟨t', f', ?_, h', hcap'.trans hcap, by rw [hlen', length_cons]; omega, fun k s => ?_⟩
    · rw [foldlM_cons]
      exact bind_eq_some_iff.mpr ⟨t1, hplace, hfold⟩
    · rw [hmap, mem_cons]
      by_cases hk : k = e.1
      · subst hk
        rw [update_self, hnew e mem_cons_self]
        simp only [some.injEq, reduceCtorEq, false_or, Prod.ext_iff, true_and]
        exact or_congr_left eq_comm
      · rw [update_of_ne hk]
        simp [Prod.ext_iff, hk]

theorem rehash (h : Rep hash t f) {cap : Nat} (hroom : t.entries.length < cap) :
    ∃ t', t.rehash hash cap = some t' ∧ Rep hash t' f ∧ t'.cap = cap ∧ t'.entries.length = t.entries.length := by
  have hpos : 0 < cap := zero_lt_of_lt hroom
  have hlen0 : (Table.empty cap : Table K S).entries.length = 0 := by simp [Table.empty, entries]
  obtain ⟨t', f', hfold, h', hcap, hlen, hmap⟩ := (Rep.empty (S := S) hash hpos).placeAll
    (by rw [hlen0, zero_add]; exact hroom) h.entries_nodup (fun _ _ => rfl)
  have hsame : f' = f := by
    funext k
    refine Option.ext fun s => ?_
    rw [hmap, h.map, mem_entries]
    simp
  refine ⟨t', hfold, hsame ▸ h', hcap, by rw [hlen, hlen0, zero_add]⟩

end Rep

/-- The loop of the deletion is about to look at the slot behind `i`. From there `m` slots are taken and the
next one is empty. An entry that cannot be reached from its home is in one of these, and the empty slot is on no
entry's way. -/
structure Shifting (hash : K → Nat) (t : Table K S) (i m : Nat) : Prop where
  lt : m < t.cap
  run : ∀ j < m, t.slot ((i + 1 + j) % t.cap) ≠ none
  stop : t.slot ((i + 1 + m) % t.cap) = none
  apart : ∀ k s d, d < t.cap → t.slot ((hash k + d) % t.cap) = some (k, s) →
    ∀ d' < d, (hash k + d') % t.cap ≠ (i + 1 + m) % t.cap
  reach : ∀ k s d, d < t.cap → t.slot ((hash k + d) % t.cap) = some (k, s) →
    Reaches hash t k d ∨ ∃ j < m, (hash k + d) % t.cap = (i + 1 + j) % t.cap

theorem crossing {q m d' : Nat} (hlt : d' < d) (hat : (hash k + d') % t.cap = q % t.cap)
    (hreach : Reaches hash t k d) {x : K × S} (hslot : t.slot ((hash k + d) % t.cap) = some x)
    (hstop : t.slot ((q + 1 + m) % t.cap) = none) : ∃ j < m, (hash k + d) % t.cap = (q + 1 + j) % t.cap := by
  have hshift : ∀ j, (hash k + (d' + (j + 1))) % t.cap = (q + 1 + j) % t.cap := fun j => by
    rw [← add_assoc, ← mod_add_mod, hat, mod_add_mod, add_assoc, add_comm 1 j]
  have hbound : d < d' + (m + 1) := by
    by_contra hge
    have hnone : t.slot ((hash k + (d' + (m + 1))) % t.cap) = none := by rw [hshift, hstop]
    obtain hlt | heq := lt_or_eq_of_le (not_lt.mp hge)
    · exact hreach _ hlt hnone
    · rw [heq, hslot] at hnone
      simp at hnone
  refine ⟨d - d' - 1, by omega, ?_⟩
  rw [← hshift]
  congr 2
  omega

theorem Shifting.step {m : Nat} (h : Shifting hash t i (m + 1))
    (he : t.slot ((i + 1) % t.cap) = some e) : ∃ p < t.cap, (t.set ((i + 1) % t.cap) none).place hash e =
        some ((t.set ((i + 1) % t.cap) none).set p (some e)) ∧ (p = (i + 1) % t.cap ∨ t.slot p = none) ∧
      Shifting hash ((t.set ((i + 1) % t.cap) none).set p (some e)) ((i + 1) % t.cap) m := by
  obtain ⟨k, s⟩ := e
  have hpos : 0 < t.cap := zero_lt_of_lt h.lt
  have hi : (i + 1) % t.cap < t.cap := mod_lt _ hpos
  obtain ⟨d, hd, hhome⟩ := offset_exists (hash k) hi
  -- the walk from the home stops at the slot just emptied, or before it
  obtain ⟨d0, hle, hprobe, hstop, hbefore⟩ := probe_stops
    (fun j => ((t.set ((i + 1) % t.cap) none).slot j).isNone) (hash k) hd (by simp [hhome, set_slot])
  have hd0 : d0 < t.cap := lt_of_le_of_lt hle hd
  have hlater : ∀ j, ((i + 1) % t.cap + 1 + j) % t.cap = (i + 1 + (j + 1)) % t.cap := fun j => by
    rw [add_assoc, mod_add_mod, add_comm 1 j]
  have hother : ∀ j ≤ m, (i + 1 + (j + 1)) % t.cap ≠ (i + 1) % t.cap := fun j hj heq => by
    have hlt := h.lt
    have hzero : (i + 1 + (j + 1)) % t.cap = (i + 1 + 0) % t.cap := heq
    have := offset_inj (by omega) (by omega) hzero
    omega
  generalize hp : (hash k + d0) % t.cap = p at hprobe hstop hbefore
  have hpc : p < t.cap := hp ▸ mod_lt _ hpos
  have hpnone : p = (i + 1) % t.cap ∨ t.slot p = none := by
    rw [set_slot] at hstop
    split_ifs at hstop with heq
    · exact .inl heq
    · exact .inr (isNone_iff_eq_none.mp hstop)
  have hslot : t.slot ((hash k + d) % t.cap) = some (k, s) := hhome ▸ he
  have hpend : p ≠ (i + 1 + (m + 1)) % t.cap := by
    intro heq
    obtain hlt | rfl := lt_or_eq_of_le hle
    · exact h.apart k s d hd hslot d0 hlt (hp.trans heq)
    · exact hother m le_rfl (by rw [← heq, ← hp, hhome])
  have hnew : ∀ j, ((t.set ((i + 1) % t.cap) none).set p (some (k, s))).slot j =
      if j = p then some (k, s) else if j = (i + 1) % t.cap then none else t.slot j := fun j => by
    rw [set_slot, set_slot]
  -- an entry of the new table is the one placed, or it is where it was
  have hold : ∀ k' s' d', d' < t.cap →
      ((t.set ((i + 1) % t.cap) none).set p (some (k, s))).slot ((hash k' + d') % t.cap) = some (k', s') →
      (k' = k ∧ d' = d0) ∨ ((hash k' + d') % t.cap ≠ (i + 1) % t.cap ∧
        t.slot ((hash k' + d') % t.cap) = some (k', s')) := by
    intro k' s' d' hd' hs'
    rw [hnew] at hs'
    split_ifs at hs' with h1 h2
    · cases hs'
      exact .inl ⟨rfl, offset_inj hd' hd0 (h1.trans hp.symm)⟩
    · exact .inr ⟨h2, hs'⟩
  refine ⟨p, hpc, ?_, hpnone, ⟨lt_of_succ_lt h.lt, fun j hj => ?_, ?_, fun k' s' d' hd' hs' d'' hd'' => ?_,
    fun k' s' d' hd' hs' => ?_⟩⟩
  · exact congrArg (Option.map _) hprobe
  · change ((t.set _ none).set p _).slot (((i + 1) % t.cap + 1 + j) % t.cap) ≠ none
    rw [hlater, hnew]
    split_ifs with h1 h2
    · simp
    · exact absurd h2 (hother j (le_of_lt hj))
    · exact h.run (j + 1) (succ_lt_succ hj)
  · change ((t.set _ none).set p _).slot (((i + 1) % t.cap + 1 + m) % t.cap) = none
    rw [hlater, hnew, if_neg (Ne.symm hpend), if_neg (hother m le_rfl)]
    exact h.stop
  · change (hash k' + d'') % t.cap ≠ ((i + 1) % t.cap + 1 + m) % t.cap
    rw [hlater]
    obtain ⟨rfl, rfl⟩ | ⟨-, hs⟩ := hold k' s' d' hd' hs'
    · exact h.apart k' s d hd hslot d'' (lt_of_lt_of_le hd'' hle)
    · exact h.apart k' s' d' hd' hs d'' hd''
  · change Reaches hash _ k' d' ∨ ∃ j < m, (hash k' + d') % t.cap = ((i + 1) % t.cap + 1 + j) % t.cap
    simp only [hlater]
    obtain ⟨rfl, rfl⟩ | ⟨hne, hs⟩ := hold k' s' d' hd' hs'
    · refine .inl fun d'' hd'' => ?_
      have htaken : ((t.set ((i + 1) % t.cap) none).slot ((hash k' + d'') % t.cap)).isNone = false := hbefore d'' hd''
      rw [set_slot] at htaken
      have hne : (hash k' + d'') % t.cap ≠ (i + 1) % t.cap := fun heq => by
        rw [if_pos heq] at htaken
        simp at htaken
      rw [if_neg hne] at htaken
      change ((t.set _ none).set p _).slot ((hash k' + d'') % t.cap) ≠ none
      rw [hnew, if_neg hne]
      split_ifs
      · simp
      · intro hno
        simp [hno] at htaken
    obtain hreach | ⟨_ | j, hj, heq⟩ := h.reach k' s' d' hd' hs
    · by_cases hcross : ∃ d'' < d', (hash k' + d'') % t.cap = (i + 1) % t.cap
      · -- its way leads over the emptied slot, so it is one of the entries behind
        obtain ⟨d'', hlt, hat⟩ := hcross
        have hstop' : t.slot ((i + 1 + 1 + m) % t.cap) = none := by rw [add_assoc (i + 1), add_comm 1 m, h.stop]
        obtain ⟨j, hj, heq⟩ := crossing hlt hat hreach hs hstop'
        exact .inr ⟨j, hj, by rw [heq, add_assoc (i + 1), add_comm 1 j]⟩
      · refine .inl fun d'' hd'' => ?_
        change ((t.set _ none).set p _).slot ((hash k' + d'') % t.cap) ≠ none
        rw [hnew, if_neg fun heq => hcross ⟨d'', hd'', heq⟩]
        split_ifs
        · simp
        · exact hreach d'' hd''
    · exact absurd heq hne
    · exact .inr ⟨j, lt_of_succ_lt_succ hj, heq⟩

structure Moved (t t' : Table K S) : Prop where
  cap : t'.cap = t.cap
  same : ∀ e, (∃ j < t.cap, t'.slot j = some e) ↔ ∃ j < t.cap, t.slot j = some e
  once : (∀ i < t.cap, ∀ j < t.cap, ∀ k s s', t.slot i = some (k, s) → t.slot j = some (k, s') → i = j) →
    ∀ i < t.cap, ∀ j < t.cap, ∀ k s s', t'.slot i = some (k, s) → t'.slot j = some (k, s') → i = j
  length : t'.entries.length = t.entries.length

theorem Moved.refl (t : Table K S) : Moved t t := ⟨rfl, fun _ => Iff.rfl, id, rfl⟩

theorem Moved.trans {t₁ t₂ t₃ : Table K S} (h : Moved t₁ t₂) (h' : Moved t₂ t₃) : Moved t₁ t₃ := by
  have hcap := h.cap
  refine ⟨h'.cap.trans hcap, fun e => ?_, fun honce => ?_, h'.length.trans h.length⟩
  · have := h'.same e
    rw [hcap] at this
    exact this.trans (h.same e)
  · have := h'.once
    rw [hcap] at this
    exact this (h.once honce)

theorem moved_set {p q : Nat} (hq : q < t.cap) (he : t.slot q = some e) (hp : p < t.cap)
    (hfree : p = q ∨ t.slot p = none) : Moved t ((t.set q none).set p (some e)) := by
  obtain rfl | hnone := hfree
  · have hsame : (t.set p none).set p (some e) = t := by
      unfold set
      rw [update_idem, ← he, update_eq_self]
    rw [hsame]
    exact Moved.refl t
  have hpq : p ≠ q := by
    rintro rfl
    rw [he] at hnone
    simp at hnone
  have hnew : ∀ j, ((t.set q none).set p (some e)).slot j =
      if j = p then some e else if j = q then none else t.slot j := fun j => by rw [set_slot, set_slot]
  refine ⟨rfl, fun x => ⟨?_, ?_⟩, fun honce i hi j hj k s s' h1 h2 => ?_, ?_⟩
  · rintro ⟨j, hj, hx⟩
    rw [hnew] at hx
    split_ifs at hx with h1 h2
    · exact ⟨q, hq, he.trans hx⟩
    · exact ⟨j, hj, hx⟩
  · rintro ⟨j, hj, hx⟩
    by_cases hjq : j = q
    · subst hjq
      exact ⟨p, hp, by rw [hnew, if_pos rfl, ← he, hx]⟩
    · have hjp : j ≠ p := by
        rintro rfl
        rw [hx] at hnone
        simp at hnone
      exact ⟨j, hj, by rw [hnew, if_neg hjp, if_neg hjq, hx]⟩
  · rw [hnew] at h1 h2
    split_ifs at h1 h2 with hip hjp hjq hiq hjp hjq
    · rw [hip, hjp]
    · obtain rfl := some.inj h1
      exact absurd (honce j hj q hq k s' s h2 he) hjq
    · obtain rfl := some.inj h2
      exact absurd (honce i hi q hq k s s' h1 he) hiq
    · exact honce i hi j hj k s s' h1 h2
  · have hlen := length_set (t := t) hq none
    have hlen' := length_set (t := t.set q none) hp (some e)
    rw [he] at hlen
    rw [set_slot, if_neg hpq, hnone] at hlen'
    omega

theorem Shifting.loop {fuel m : Nat} (h : Shifting hash t i m) (hfuel : m < fuel) :
    ∃ t', shift hash fuel i t = some t' ∧ Moved t t' ∧
      ∀ k s d, d < t'.cap → t'.slot ((hash k + d) % t'.cap) = some (k, s) → Reaches hash t' k d := by
  induction m generalizing t i fuel with
  | zero =>
    obtain ⟨fuel, rfl⟩ := exists_eq_succ_of_ne_zero (ne_of_gt hfuel)
    have hstop : t.slot ((i + 1) % t.cap) = none := h.stop
    refine ⟨t, by rw [shift, hstop], Moved.refl t, fun k s d hd hslot => ?_⟩
    exact (h.reach k s d hd hslot).resolve_right (by simp)
  | succ m ih =>
    obtain ⟨fuel, rfl⟩ := exists_eq_succ_of_ne_zero (ne_of_gt (zero_lt_of_lt hfuel))
    obtain ⟨e, he⟩ : ∃ e, t.slot ((i + 1) % t.cap) = some e := ne_none_iff_exists'.mp (h.run 0 (succ_pos m))
    obtain ⟨p, hp, hplace, hfree, hnext⟩ := h.step he
    obtain ⟨t', hshift, hmoved, hreach⟩ := ih hnext (lt_of_succ_lt_succ hfuel)
    refine ⟨t', ?_, (moved_set (mod_lt _ (zero_lt_of_lt h.lt)) he hp hfree).trans hmoved, hreach⟩
    rw [shift, he]
    exact bind_eq_some_iff.mpr ⟨_, hplace, hshift⟩

theorem Rep.shifting (h : Rep hash t f) (hi : i < t.cap) (htaken : t.slot i ≠ none) :
    ∃ m < t.cap, Shifting hash (t.set i none) i m := by
  obtain ⟨j, hj, hempty⟩ := exists_empty h.room
  have hji : j ≠ i := fun heq => htaken (heq ▸ hempty)
  obtain ⟨d, hd, hdj⟩ := offset_exists (i + 1) hj
  have hex : ∃ m, (t.set i none).slot ((i + 1 + m) % t.cap) = none := ⟨d, by rw [hdj, set_slot, if_neg hji, hempty]⟩
  have hle : Nat.find hex ≤ d := Nat.find_min' hex (by rw [hdj, set_slot, if_neg hji, hempty])
  generalize hm : Nat.find hex = m at hle
  have hstop : (t.set i none).slot ((i + 1 + m) % t.cap) = none := hm ▸ Nat.find_spec hex
  have hrun : ∀ j < m, (t.set i none).slot ((i + 1 + j) % t.cap) ≠ none := fun j hj => Nat.find_min hex (hm ▸ hj)
  -- going once round leads back to the emptied slot, but there is an empty one before
  have hround : (i + 1 + (t.cap - 1)) % t.cap = i := by
    have : i + 1 + (t.cap - 1) = i + t.cap := by omega
    rw [this, add_mod_right, mod_eq_of_lt hi]
  have hend : (i + 1 + m) % t.cap ≠ i := fun heq => by
    have hmd : m = t.cap - 1 := offset_inj (by omega) (by omega) (heq.trans hround.symm)
    obtain rfl : d = t.cap - 1 := by omega
    exact hji (hdj.symm.trans hround)
  have hstop' : t.slot ((i + 1 + m) % t.cap) = none := by rwa [set_slot, if_neg hend] at hstop
  have hold : ∀ {p : Nat} {x : K × S}, (t.set i none).slot p = some x → t.slot p = some x := fun {p x} hx => by
    rw [set_slot] at hx
    split_ifs at hx
    exact hx
  refine ⟨m, by omega, ⟨by change m < t.cap; omega, hrun, hstop, fun k s d' hd' hslot d'' hd'' heq => ?_,
    fun k s d' hd' hslot => ?_⟩⟩
  · exact h.reach k s d' hd' (hold hslot) d'' hd'' (heq ▸ hstop')
  · have hslot' : t.slot ((hash k + d') % t.cap) = some (k, s) := hold hslot
    have hreach := h.reach k s d' hd' hslot'
    by_cases hcross : ∃ d'' < d', (hash k + d'') % t.cap = i
    · obtain ⟨d'', hlt, hat⟩ := hcross
      have hrun' : ∃ j < m, (hash k + d') % t.cap = (i + 1 + j) % t.cap :=
        crossing hlt (by rw [hat, mod_eq_of_lt hi]) hreach hslot' hstop'
      exact .inr hrun'
    · refine .inl fun d'' hd'' => ?_
      change (t.set i none).slot ((hash k + d'') % t.cap) ≠ none
      rw [set_slot, if_neg fun heq => hcross ⟨d'', hd'', heq⟩]
      exact hreach d'' hd''

theorem Rep.eraseAt [DecidableEq K] (h : Rep hash t f) (hi : i < t.cap) (hslot : t.slot i = some (k, s)) :
    ∃ t', t.eraseAt hash i = some t' ∧ Rep hash t' (update f k none) ∧ t'.cap = t.cap ∧
      t'.entries.length + 1 = t.entries.length := by
  obtain ⟨m, hm, hshifting⟩ := h.shifting hi (by simp [hslot])
  obtain ⟨t', hshift, hmoved, hreach⟩ := hshifting.loop hm
  have hcap : t'.cap = t.cap := hmoved.cap
  have hlen : t'.entries.length + 1 = t.entries.length := by
    have := length_set (t := t) hi none
    rw [hslot] at this
    rw [hmoved.length]
    simpa using this
  have hold : ∀ {p : Nat} {x : K × S}, (t.set i none).slot p = some x ↔ p ≠ i ∧ t.slot p = some x := fun {p x} => by
    rw [set_slot]
    split_ifs with hp
    · simp [hp]
    · simp [hp]
  have hroom := h.room
  refine ⟨t', hshift, ⟨hreach, ?_, fun k' s' => ?_, by omega⟩, hcap, hlen⟩
  · rw [hcap]
    refine hmoved.once fun i' hi' j hj k' s1 s2 h1 h2 => ?_
    exact h.once i' hi' j hj k' s1 s2 (hold.mp h1).2 (hold.mp h2).2
  · have hsame : (∃ j < t'.cap, t'.slot j = some (k', s')) ↔ ∃ j < t.cap, j ≠ i ∧ t.slot j = some (k', s') := by
      rw [hcap]
      exact (hmoved.same (k', s')).trans (exists_congr fun j => and_congr_right fun _ => hold)
    rw [hsame]
    by_cases hk : k' = k
    · subst hk
      refine iff_of_false (by simp) ?_
      rintro ⟨j, hj, hne, hs'⟩
      exact hne (h.once j hj i hi k' s' s hs' hslot)
    · rw [update_of_ne hk, h.map]
      refine exists_congr fun j => and_congr_right fun _ => ⟨fun hs' => ⟨?_, hs'⟩, And.right⟩
      rintro rfl
      rw [hslot] at hs'
      exact hk (Prod.mk.inj (some.inj hs')).1.symm

end Table

end InvariantFs.LinearProbe
