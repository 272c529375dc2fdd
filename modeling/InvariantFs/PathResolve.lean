import InvariantFs.PathLookup

namespace InvariantFs.PathResolve

open ByteCodec PathLookup List Option

variable {c : Text} {comps : List Text} {text : Text}

section Texts

theorem all_ne {b : Byte} (h : b ∉ text) : ∀ x ∈ text, decide (x ≠ b) = true := fun _ hx =>
  decide_eq_true (ne_of_mem_of_not_mem hx h)

theorem splitOn_slash (h : slash ∉ c) : (c ++ slash :: text).splitOn slash = c :: text.splitOn slash := by
  apply splitOnP_append_cons_of_forall_mem
  · intro x hx
    rw [beq_eq_false_iff_ne]
    exact fun he => h (he ▸ hx)
  · exact beq_self_eq_true slash

theorem splitOn_cons_ne {b : Byte} (text : Text) (h : b ≠ slash) :
    (b :: text).splitOn slash = (text.splitOn slash).modifyHead (List.cons b) := by
  rw [splitOn, splitOnP_cons_eq_if_modifyHead, if_neg (by simpa using h)]
  rfl

theorem splitOn_cons_slash (text : Text) : (slash :: text).splitOn slash = [] :: text.splitOn slash :=
  splitOn_slash (c := []) not_mem_nil

theorem splitOn_append_slash (a b : Text) : (a ++ slash :: b).splitOn slash = a.splitOn slash ++ b.splitOn slash := by
  induction a with
  | nil => rw [nil_append, splitOn_cons_slash, splitOn_nil, singleton_append]
  | cons x a ih =>
    by_cases hx : x = slash
    · rw [hx, cons_append, splitOn_cons_slash, splitOn_cons_slash, ih, cons_append]
    · rw [cons_append, splitOn_cons_ne _ hx, splitOn_cons_ne _ hx, ih]
      obtain ⟨c, cs, hc⟩ := exists_cons_of_ne_nil (splitOn_ne_nil slash a)
      rw [hc]
      rfl

theorem splitOn_piece (h : c ∈ text.splitOn slash) : slash ∉ c ∧ c ⊆ text := by
  induction text generalizing c with
  | nil =>
    rw [splitOn_nil, mem_singleton] at h
    rw [h]
    exact ⟨not_mem_nil, Subset.refl _⟩
  | cons x text ih =>
    by_cases hx : x = slash
    · rw [hx, splitOn_cons_slash, mem_cons] at h
      obtain rfl | h := h
      · exact ⟨not_mem_nil, nil_subset _⟩
      · exact ⟨(ih h).1, subset_cons_of_subset _ (ih h).2⟩
    · rw [splitOn_cons_ne _ hx] at h
      obtain ⟨d, ds, hd⟩ := exists_cons_of_ne_nil (splitOn_ne_nil slash text)
      rw [hd, modifyHead_cons, mem_cons] at h
      obtain rfl | h := h
      · obtain ⟨hno, hsub⟩ := ih (hd ▸ mem_cons_self)
        rw [mem_cons, not_or]
        exact ⟨⟨Ne.symm hx, hno⟩, cons_subset_cons x hsub⟩
      · obtain ⟨hno, hsub⟩ := ih (hd ▸ mem_cons_of_mem _ h)
        exact ⟨hno, subset_cons_of_subset _ hsub⟩

theorem whole_of_splitOn {rest : List Text} (h : text.splitOn slash = comps ++ rest) :
    (∀ c ∈ comps, slash ∉ c) ∧ ∀ c ∈ rest, slash ∉ c :=
  forall_mem_append.mp (h ▸ fun _ hc => (splitOn_piece hc).1)

theorem slashed_cons (c : Text) (comps : List Text) : slashed (c :: comps) = c ++ slash :: slashed comps := by
  simp [slashed]

theorem splitOn_slashed (h : ∀ c ∈ comps, slash ∉ c) (text : Text) :
    (slashed comps ++ text).splitOn slash = comps ++ text.splitOn slash := by
  induction comps with
  | nil => rfl
  | cons c comps ih =>
    rw [slashed_cons, append_assoc, cons_append, splitOn_slash (h c mem_cons_self),
      ih fun d hd => h d (mem_cons_of_mem _ hd), cons_append]

theorem join_splitOn (text : Text) : [slash].intercalate (text.splitOn slash) = text := intercalate_splitOn slash

theorem eq_slashed_of_splitOn {last : Text} (h : text.splitOn slash = comps ++ [last]) :
    text = slashed comps ++ last := by
  obtain ⟨hw, hl⟩ := whole_of_splitOn h
  have hsplit : (slashed comps ++ last).splitOn slash = text.splitOn slash := by
    rw [splitOn_slashed hw, splitOn_eq_singleton (hl last mem_cons_self), h]
  rw [← join_splitOn text, ← hsplit, join_splitOn]

end Texts

variable {child : Nat}

section Reference

variable {t : Tree} {follow : Bool} {cur d l : Nat} {name target : Text} {rest : List Text} {r : Res}

theorem Resolves.empty_inv (h : Resolves t follow cur ([] :: rest) r) :
    if rest = [] then r = if t.isDir cur then .found cur else .absent else Resolves t follow cur rest r := by
  cases h with
  | dir hd => rw [if_pos rfl, if_pos hd]
  | notDir hn => rw [if_pos rfl, hn, if_neg Bool.false_ne_true]
  | slash hne hr => rwa [if_neg hne]
  | tooLong hlong => exact absurd hlong (by decide)
  | missing hne => exact absurd rfl hne
  | step hne => exact absurd rfl hne
  | final hne => exact absurd rfl hne
  | link hne => exact absurd rfl hne

theorem Resolves.name_inv (hne : name ≠ []) (h : Resolves t follow cur (name :: rest) r) :
    if maxName < name.length then r = .fail
    else match t.entry cur name with
      | none => r = .absent
      | some l => match t.target l with
        | none => Resolves t follow l rest r
        | some target =>
          if rest = [] ∧ follow = false then r = .found l
          else Resolves t follow (t.from cur target) (target.splitOn slash ++ rest) r := by
  cases h with
  | dir _ => exact absurd rfl hne
  | notDir _ => exact absurd rfl hne
  | slash _ _ => exact absurd rfl hne
  | tooLong hlong => rw [if_pos hlong]
  | missing _ hlen hno => simp only [if_neg (not_lt.mpr hlen), hno]
  | step _ hlen he ht hr => simpa only [if_neg (not_lt.mpr hlen), he, ht] using hr
  | final _ hlen he ht hf => simp only [if_neg (not_lt.mpr hlen), he, ht, hf, and_self, if_true]
  | link _ hlen he ht hf hr =>
    have hgo : ¬ (rest = [] ∧ follow = false) := by simpa [imp_iff_not_or] using hf
    simpa only [if_neg (not_lt.mpr hlen), he, ht, if_neg hgo] using hr

theorem Resolves.slash_iff (h : rest ≠ []) : Resolves t follow cur ([] :: rest) r ↔ Resolves t follow cur rest r := by
  refine ⟨fun hr => ?_, Resolves.slash h⟩
  simpa only [if_neg h] using Resolves.empty_inv hr

theorem Resolves.step_iff (hne : name ≠ []) (hlen : name.length ≤ maxName) (he : t.entry cur name = some child)
    (ht : t.target child = none) : Resolves t follow cur (name :: rest) r ↔ Resolves t follow child rest r := by
  refine ⟨fun hr => ?_, Resolves.step hne hlen he ht⟩
  simpa only [if_neg (not_lt.mpr hlen), he, ht] using Resolves.name_inv hne hr

theorem Resolves.link_iff (hne : name ≠ []) (hlen : name.length ≤ maxName) (he : t.entry cur name = some l)
    (ht : t.target l = some target) (hf : rest ≠ [] ∨ follow = true) : Resolves t follow cur (name :: rest) r ↔
      Resolves t follow (t.from cur target) (target.splitOn slash ++ rest) r := by
  refine ⟨fun hr => ?_, Resolves.link hne hlen he ht hf⟩
  have hgo : ¬ (rest = [] ∧ follow = false) := by simpa [imp_iff_not_or] using hf
  simpa only [if_neg (not_lt.mpr hlen), he, ht, if_neg hgo] using Resolves.name_inv hne hr

theorem Resolves.unique {r' : Res} (h : Resolves t follow cur comps r) (h' : Resolves t follow cur comps r') :
    r = r' := by
  symm
  induction h with
  | here cur =>
    cases h'
    rfl
  | dir hd => simpa only [if_true, hd] using Resolves.empty_inv h'
  | notDir hn => simpa only [if_true, hn, Bool.false_eq_true, if_false] using Resolves.empty_inv h'
  | slash hne _ ih => exact ih ((Resolves.slash_iff hne).mp h')
  | tooLong hlong =>
    have hne : _ ≠ [] := length_pos_iff.mp (Nat.zero_lt_of_lt hlong)
    simpa only [if_pos hlong] using Resolves.name_inv hne h'
  | missing hne hlen hno => simpa only [if_neg (not_lt.mpr hlen), hno] using Resolves.name_inv hne h'
  | step hne hlen he ht _ ih => exact ih ((Resolves.step_iff hne hlen he ht).mp h')
  | final hne hlen he ht hfol =>
    simpa only [if_neg (not_lt.mpr hlen), he, ht, hfol, and_self, if_true] using Resolves.name_inv hne h'
  | link hne hlen he ht hf _ ih => exact ih ((Resolves.link_iff hne hlen he ht hf).mp h')

inductive Walks (t : Tree) : Nat → List Text → Nat → Prop
  | nil (cur : Nat) : Walks t cur [] cur
  | slash {cur d : Nat} {rest : List Text} : Walks t cur rest d → Walks t cur ([] :: rest) d
  | step {cur child d : Nat} {name : Text} {rest : List Text} : name ≠ [] → name.length ≤ maxName →
      t.entry cur name = some child → t.target child = none → Walks t child rest d → Walks t cur (name :: rest) d
  | link {cur l d : Nat} {name target : Text} {rest : List Text} : name ≠ [] → name.length ≤ maxName →
      t.entry cur name = some l → t.target l = some target →
      Walks t (t.from cur target) (target.splitOn PathLookup.slash ++ rest) d → Walks t cur (name :: rest) d

theorem Walks.resolves_iff (h : Walks t cur comps d) (hrest : rest ≠ []) :
    Resolves t follow cur (comps ++ rest) r ↔ Resolves t follow d rest r := by
  induction h with
  | nil => rfl
  | slash _ ih => rw [cons_append, Resolves.slash_iff (by simp [hrest]), ih]
  | step hpos hlen he ht _ ih => rw [cons_append, Resolves.step_iff hpos hlen he ht, ih]
  | link hpos hlen he ht _ ih =>
    rw [cons_append, Resolves.link_iff hpos hlen he ht (.inl (by simp [hrest])), ← append_assoc, ih]

theorem walks_plain (h : Plain t cur comps d) : Walks t cur comps d := by
  induction h with
  | nil => exact .nil _
  | slash _ ih => exact .slash ih
  | step hne hlen he ht _ ih => exact .step hne hlen he ht ih

end Reference

section Scan

variable {t : Tree} {cur d p : Nat} {rest : List Text} {name target : Text}

theorem entry_eq_some : t.entry d name = some child ↔ t.dirent d name = some child ∧ child ≠ 0 := by
  simp [Tree.entry, filter_eq_some_iff]

theorem link_entry (h : t.entry d name = some child) : t.dirs.link child = some (t.target child) :=
  dirs_link (t.root_unnamed (entry_eq_some.mp h).1)

theorem scan_step (hne : name ≠ []) (hlen : name.length ≤ maxName)
    (he : t.entry cur name = some child) (ht : t.target child = none) (hrest : rest ≠ []) :
    scan t.dirs cur p (name :: rest) = scan t.dirs child (p + name.length + 1) rest := by
  obtain ⟨hd, h0⟩ := entry_eq_some.mp he
  rw [scan, if_neg hne, if_neg (not_lt.mpr hlen)]
  simp only [dirs_dirent, hd, if_neg h0, if_neg hrest, link_entry he, ht]

theorem scan_plain (h : Plain t cur comps d) (hrest : rest ≠ []) :
    scan t.dirs cur p (comps ++ rest) = scan t.dirs d (p + (slashed comps).length) rest := by
  induction h generalizing p with
  | nil => rfl
  | slash h ih =>
    rw [cons_append, scan, if_pos rfl, ih, slashed_cons]
    congr 1
    simp only [nil_append, length_cons]
    omega
  | step hne hlen he ht h ih =>
    rw [cons_append, scan_step hne hlen he ht (by simp [hrest]), ih, slashed_cons]
    congr 1
    simp only [length_append, length_cons]
    omega

theorem scan_link (hne : name ≠ []) (hlen : name.length ≤ maxName) {l : Nat} (he : t.entry cur name = some l)
    (ht : t.target l = some target) (hrest : rest ≠ []) :
    scan t.dirs cur p (name :: rest) = .link cur p (p + name.length) target := by
  obtain ⟨hd, h0⟩ := entry_eq_some.mp he
  rw [scan, if_neg hne, if_neg (not_lt.mpr hlen)]
  simp only [dirs_dirent, hd, if_neg h0, if_neg hrest, link_entry he, ht]

theorem scan_cases (t : Tree) (cur p : Nat) (pieces : List Text) :
    (∃ r, scan t.dirs cur p pieces = .done r ∧ Resolves t false cur pieces r) ∨
    ∃ comps rest d, pieces = comps ++ rest ∧ Plain t cur comps d ∧ (rest = [[]] ∧ t.isDir d = false ∨
      ∃ name rest' target, rest = name :: rest' ∧ rest' ≠ [] ∧ name ≠ [] ∧ name.length ≤ maxName ∧
        ∃ l, t.entry d name = some l ∧ t.target l = some target) := by
  induction pieces generalizing cur p with
  | nil => exact .inl ⟨_, rfl, .here cur⟩
  | cons comp rest ih =>
    by_cases hcomp : comp = []
    · subst hcomp
      by_cases hrest : rest = []
      · subst hrest
        cases hdir : t.isDir cur with
        | true => exact .inl ⟨_, rfl, .dir hdir⟩
        | false => exact .inr ⟨[], _, cur, rfl, .nil cur, .inl ⟨rfl, hdir⟩⟩
      · obtain ⟨r, hr, hres⟩ | ⟨comps, rest', d, rfl, hp, hstuck⟩ := ih cur (p + 1)
        · exact .inl ⟨r, hr, .slash hrest hres⟩
        · exact .inr ⟨[] :: comps, rest', d, rfl, .slash hp, hstuck⟩
    · by_cases hlong : maxName < comp.length
      · rw [scan, if_neg hcomp, if_pos hlong]
        exact .inl ⟨_, rfl, .tooLong hlong⟩
      have hlen := not_lt.mp hlong
      cases he : t.entry cur comp with
      | none =>
        refine .inl ⟨.absent, ?_, .missing hcomp hlen he⟩
        rw [scan, if_neg hcomp, if_neg hlong, dirs_dirent]
        cases hd : t.dirent cur comp with
        | none => rfl
        | some child =>
          have h0 : child = 0 := by
            by_contra h0
            rw [entry_eq_some.mpr ⟨hd, h0⟩] at he
            cases he
          simp only [if_pos h0]
      | some child =>
        by_cases hrest : rest = []
        · subst hrest
          obtain ⟨hd, h0⟩ := entry_eq_some.mp he
          refine .inl ⟨.found child, ?_, ?_⟩
          · rw [scan, if_neg hcomp, if_neg hlong, dirs_dirent, hd]
            simp only [if_neg h0, if_pos]
          · cases ht : t.target child with
            | none => exact .step hcomp hlen he ht (.here child)
            | some target => exact .final hcomp hlen he ht rfl
        · cases ht : t.target child with
          | some target =>
            exact .inr ⟨[], _, cur, rfl, .nil cur,
              .inr ⟨comp, rest, target, rfl, hrest, hcomp, hlen, child, he, ht⟩⟩
          | none =>
            rw [scan_step hcomp hlen he ht hrest]
            obtain ⟨r, hr, hres⟩ | ⟨comps, rest', d, rfl, hp, hstuck⟩ := ih child (p + comp.length + 1)
            · exact .inl ⟨r, hr, .step hcomp hlen he ht hres⟩
            · exact .inr ⟨comp :: comps, rest', d, rfl, .step hcomp hlen he ht hp, hstuck⟩

end Scan

section Buffer

structure Holds (work text : Text) : Prop where
  noNul : (0 : Byte) ∉ text
  size : work.length = pathMax + 1
  tail : ∃ after, work = text ++ 0 :: after

variable {work : Text}

theorem cstr_holds (h : Holds work text) {off : Nat} (hoff : off ≤ text.length) : cstr work off = text.drop off := by
  obtain ⟨after, rfl⟩ := h.tail
  rw [cstr, drop_append_of_le_length hoff, takeWhile_append_of_pos (all_ne fun h0 => h.noNul (mem_of_mem_drop h0)),
    takeWhile_cons_of_neg (by simp), append_nil]

theorem skipSlash_cons (b : Byte) (text : Text) :
    skipSlash (b :: text) = if b = slash then skipSlash text + 1 else 0 := by
  rw [skipSlash, takeWhile_cons]
  by_cases hb : b = slash <;> simp [hb, skipSlash]

theorem skipSlash_append (text after : Text) : skipSlash (text ++ 0 :: after) = skipSlash text := by
  induction text with
  | nil => rfl
  | cons b text ih => rw [cons_append, skipSlash_cons, skipSlash_cons, ih]

theorem skipSlash_le (text : Text) : skipSlash text ≤ text.length := (takeWhile_sublist _).length_le

theorem scan_skipSlash (t : Tree) (cur p : Nat) (text : Text) :
    scan t.dirs cur (p + skipSlash text) ((text.drop (skipSlash text)).splitOn slash) =
      scan t.dirs cur p (text.splitOn slash) := by
  induction text generalizing p with
  | nil => rfl
  | cons b text ih =>
    by_cases hb : b = slash
    · rw [skipSlash_cons, if_pos hb, hb, splitOn_cons_slash, scan, if_pos rfl, ← ih (p + 1)]
      congr 1
      omega
    · rw [skipSlash_cons, if_neg hb]
      rfl

theorem scan_holds (t : Tree) (h : Holds work text) :
    scan t.dirs t.root (skipSlash work) ((cstr work (skipSlash work)).splitOn slash) =
      scan t.dirs t.root 0 (text.splitOn slash) := by
  have hskip : skipSlash work = skipSlash text := by
    obtain ⟨after, rfl⟩ := h.tail
    exact skipSlash_append text after
  have hscan := scan_skipSlash t t.root 0 text
  rw [Nat.zero_add] at hscan
  rw [hskip, cstr_holds h (skipSlash_le text), hscan]

variable {pre name rest target : Text}

theorem holds_splice (pre : Text) {data : Text} (hno : (0 : Byte) ∉ pre ++ data) (hsize : work.length = pathMax + 1)
    (hpre : work.take pre.length = pre) (hfit : (pre ++ data).length ≤ pathMax) :
    Holds (splice pre.length (data ++ [0]) work) (pre ++ data) := by
  rw [length_append] at hfit
  refine ⟨hno, ?_, work.drop (pre.length + (data ++ [0]).length), ?_⟩
  · rwa [length_splice (by rw [length_append, length_singleton]; omega)]
  · simp [splice, hpre]

theorem drop_to_slash (pre name rest after : Text) :
    (pre ++ (name ++ slash :: rest) ++ 0 :: after).drop (pre.length + name.length) =
      slash :: rest ++ [0] ++ after := by
  have hassoc : pre ++ (name ++ slash :: rest) ++ 0 :: after = (pre ++ name) ++ (slash :: rest ++ [0] ++ after) := by
    simp
  rw [hassoc, ← length_append, drop_left]

section

variable (h : Holds work (pre ++ (name ++ slash :: rest)))

include h

theorem cstr_to_slash : cstr work (pre.length + name.length) = slash :: rest := by
  rw [cstr_holds h (by simp), ← length_append, ← append_assoc, drop_left]

theorem noNul_target (hnul : (0 : Byte) ∉ target) :
    (0 : Byte) ∉ pre ++ (target ++ slash :: rest) ∧ (0 : Byte) ∉ target ++ slash :: rest := by
  have := h.noNul
  simp only [mem_append, not_or] at this ⊢
  tauto

theorem holds_relative (hnul : (0 : Byte) ∉ target) (hfit : (pre ++ (target ++ slash :: rest)).length ≤ pathMax) :
    Holds (splice pre.length target (splice (pre.length + target.length)
      ((work.drop (pre.length + name.length)).take ((slash :: rest).length + 1)) work))
      (pre ++ (target ++ slash :: rest)) := by
  obtain ⟨after, hw⟩ := h.tail
  have hsize := h.size
  have hcopy : (work.drop (pre.length + name.length)).take ((slash :: rest).length + 1) = slash :: rest ++ [0] := by
    rw [hw, drop_to_slash, take_left' (by simp)]
  have hpre : work.take pre.length = pre := by rw [hw, append_assoc, take_left]
  have hnew := holds_splice pre (noNul_target h hnul).1 hsize hpre hfit
  rw [length_append, length_append] at hfit
  rwa [hcopy, splice_before _ _ (by omega), ← append_assoc]

theorem holds_absolute (hnul : (0 : Byte) ∉ target)
    (hfit : (target ++ slash :: rest).length ≤ pathMax) (hle : target.length ≤ pre.length + name.length) :
    Holds (splice target.length (((splice 0 target work).drop (pre.length + name.length)).take
      ((slash :: rest).length + 1)) (splice 0 target work)) (target ++ slash :: rest) := by
  obtain ⟨after, hw⟩ := h.tail
  have hcopy : ((splice 0 target work).drop (pre.length + name.length)).take ((slash :: rest).length + 1) =
      slash :: rest ++ [0] := by
    obtain ⟨k, hk⟩ := Nat.exists_eq_add_of_le hle
    have hmoved : splice 0 target work = target ++ work.drop target.length := by simp [splice]
    rw [hmoved, hk, drop_length_add_append, drop_drop, ← hk, hw, drop_to_slash, take_left' (by simp)]
  have hnew := holds_splice [] (noNul_target h hnul).2 h.size rfl hfit
  have hjoin := splice_splice target (slash :: rest ++ [0]) (Nat.zero_le work.length)
  rw [Nat.zero_add, ← append_assoc] at hjoin
  rwa [hcopy, hjoin]

end

end Buffer

section Lookup

variable {t : Tree} {n : Nat} {work : Text}

section

variable {name rest target : Text} {d : Nat} (h : FirstLink t text comps name rest target d)

include h

theorem splitOn_firstLink : text.splitOn slash = comps ++ name :: rest.splitOn slash := by
  rw [h.text_eq, splitOn_slashed h.whole, splitOn_slash h.name_whole]

theorem scan_firstLink : scan t.dirs t.root 0 (text.splitOn slash) =
      .link d (slashed comps).length ((slashed comps).length + name.length) target := by
  obtain ⟨l, he, ht⟩ := h.link
  rw [splitOn_firstLink h, scan_plain h.plain (cons_ne_nil _ _), Nat.zero_add,
    scan_link h.name_pos h.name_le he ht (splitOn_ne_nil slash rest)]

theorem resolves_firstLink {follow : Bool} {r : Res} : Resolves t follow t.root (text.splitOn slash) r ↔
      Resolves t follow (t.from d target) (target.splitOn slash ++ rest.splitOn slash) r := by
  obtain ⟨l, he, ht⟩ := h.link
  rw [splitOn_firstLink h, (walks_plain h.plain).resolves_iff (cons_ne_nil _ _),
    Resolves.link_iff h.name_pos h.name_le he ht (.inl (splitOn_ne_nil slash rest))]

end

theorem Clean.length_le (h : Clean t n text) : text.length ≤ pathMax := by
  cases h with
  | plain hlen => exact hlen
  | absolute hlen => exact hlen
  | relative hlen => exact hlen

theorem Plain.of_empty {cur d : Nat} (h : Plain t cur comps d) (hall : ∀ c ∈ comps, c = []) : d = cur := by
  induction h with
  | nil => rfl
  | slash _ ih => exact ih fun c hc => hall c (mem_cons_of_mem _ hc)
  | step hne => exact absurd (hall _ mem_cons_self) hne

theorem storable_fits {target : Text} (h : Storable target) : ¬ (target.length = 0 ∨ targetMax ≤ target.length) := by
  have := h.pos
  have := h.lt
  omega

theorem takeWhile_noNul {target : Text} (h : (0 : Byte) ∉ target) : target.takeWhile (· ≠ 0) = target := by
  rw [← append_nil target, takeWhile_append_of_pos (all_ne h), takeWhile_nil]

theorem lookupFrom_firstLink {hops d : Nat} {name rest target : Text} (hw : Holds work text)
    (hlink : FirstLink t text comps name rest target d) (hst : Storable target) :
    lookupFrom t.dirs (hops + 1) work t.root =
      let p := (slashed comps).length
      let tail := fun buf : Text => (buf.drop (p + name.length)).take ((slash :: rest).length + 1)
      if target.head? = some slash then
        if pathMax < target.length + (slash :: rest).length then .fail
        else lookupFrom t.dirs hops (splice target.length (tail (splice 0 target work)) (splice 0 target work)) t.root
      else if pathMax < p + target.length + (slash :: rest).length then .fail
      else lookupFrom t.dirs hops (splice p target (splice (p + target.length) (tail work) work)) d := by
  conv_lhs => rw [lookupFrom, scan_holds t hw, scan_firstLink hlink]
  simp only [if_neg (storable_fits hst), takeWhile_noNul hst.noNul, cstr_to_slash (hlink.text_eq ▸ hw), dirs_root]

theorem lookupFrom_clean (h : Clean t n text) {hops : Nat} (hn : n ≤ hops) (hw : Holds work text) :
    Resolves t false t.root (text.splitOn slash) (lookupFrom t.dirs hops work t.root) := by
  induction h generalizing hops work with
  | @plain text hlen hno hdir =>
    obtain ⟨r, hr, hres⟩ | ⟨comps, _, d, heq, hp, ⟨rfl, hd⟩ | ⟨name, rest, target, rfl, hne, hpos, hlen', hl⟩⟩ :=
      scan_cases t t.root 0 (text.splitOn slash)
    · rwa [lookupFrom, scan_holds t hw, hr]
    · have htext := eq_slashed_of_splitOn heq
      rw [append_nil] at htext
      rw [hdir comps d htext (whole_of_splitOn heq).1 hp] at hd
      cases hd
    · exfalso
      obtain ⟨hw', hright⟩ := whole_of_splitOn heq
      obtain ⟨hname, hpieces⟩ := forall_mem_cons.mp hright
      have htext : text = slashed comps ++ (name ++ slash :: [slash].intercalate rest) := by
        have hrest : ([slash].intercalate rest).splitOn slash = rest := splitOn_intercalate slash hpieces hne
        rw [← join_splitOn text, heq, ← join_splitOn (slashed comps ++ (name ++ slash :: [slash].intercalate rest)),
          splitOn_slashed hw', splitOn_slash hname, hrest]
      exact hno comps name _ target d ⟨htext, hw', hname, hp, hpos, hlen', hl⟩
  | @absolute n d text comps name rest target hlen hlink hst habs hle hclean ih =>
    obtain ⟨hops, rfl⟩ : ∃ k, hops = k + 1 := ⟨hops - 1, by omega⟩
    have hfit := Clean.length_le hclean
    have hnew := holds_absolute (hlink.text_eq ▸ hw) hst.noNul hfit hle
    rw [length_append] at hfit
    rw [lookupFrom_firstLink hw hlink hst, if_pos habs, if_neg (not_lt.mpr hfit), resolves_firstLink hlink, Tree.from,
      if_pos habs, ← splitOn_append_slash]
    exact ih (by omega) hnew
  | @relative n d text comps name rest target hlen hlink hst hrel hempty hclean ih =>
    obtain ⟨hops, rfl⟩ : ∃ k, hops = k + 1 := ⟨hops - 1, by omega⟩
    have hfit := Clean.length_le hclean
    have hd : d = t.root := Plain.of_empty hlink.plain hempty
    have hplain : Plain t t.root comps t.root := hd ▸ hlink.plain
    have hres := ih (by omega : n ≤ hops) (holds_relative (hlink.text_eq ▸ hw) hst.noNul hfit)
    rw [splitOn_slashed hlink.whole, splitOn_append_slash, (walks_plain hplain).resolves_iff (by simp)] at hres
    rw [length_append, length_append, ← Nat.add_assoc] at hfit
    rw [lookupFrom_firstLink hw hlink hst, if_neg hrel, if_neg (not_lt.mpr hfit), resolves_firstLink hlink, Tree.from,
      if_neg hrel, hd]
    exact hres

theorem lookup_resolves (h : Clean t n text) (hn : n ≤ maxHops) (hnul : (0 : Byte) ∉ text) {stack : Text}
    (hsize : stack.length = pathMax + 1) :
    Resolves t false t.root (text.splitOn slash) (volPathLookup t.dirs stack text) := by
  rw [volPathLookup, if_neg (not_lt.mpr (Clean.length_le h))]
  exact lookupFrom_clean h hn (holds_splice [] hnul hsize rfl (Clean.length_le h))

end Lookup

section Tidy

variable {t : Tree} {follow : Bool} {cur : Nat} {pieces thin : List Text} {r : Res}

inductive Thin : List Text → List Text → Prop
  | nil : Thin [] []
  | keep (c : Text) {pieces thin : List Text} : Thin pieces thin → Thin (c :: pieces) (c :: thin)
  | drop {pieces thin : List Text} : Thin pieces thin → pieces ≠ [] → Thin ([] :: pieces) thin

theorem Thin.append (front : List Text) (h : Thin pieces thin) : Thin (front ++ pieces) (front ++ thin) := by
  induction front with
  | nil => exact h
  | cons c front ih => exact .keep c ih

theorem Thin.eq_nil_iff (h : Thin pieces thin) : pieces = [] ↔ thin = [] := by
  induction h with
  | nil => simp
  | keep c h ih => simp
  | drop h hne ih => simpa using fun hnil => hne (ih.mpr hnil)

theorem Thin.cons_inv (h : Thin pieces (c :: thin)) :
    ∃ k rest, pieces = replicate k [] ++ c :: rest ∧ Thin rest thin := by
  generalize hthin : c :: thin = whole at h
  induction h with
  | nil => cases hthin
  | keep c' h _ =>
    cases hthin
    exact ⟨0, _, rfl, h⟩
  | drop _ _ ih =>
    obtain ⟨k, rest, rfl, h⟩ := ih hthin
    exact ⟨k + 1, rest, rfl, h⟩

theorem resolves_replicate (k : Nat) (hne : pieces ≠ []) :
    Resolves t follow cur (replicate k [] ++ pieces) r ↔ Resolves t follow cur pieces r := by
  induction k with
  | zero => rfl
  | succ k ih => rw [replicate_succ, cons_append, Resolves.slash_iff (by simp [hne]), ih]

theorem Thin.resolves_cons (h : Thin pieces (c :: thin))
    (hr : ∀ rest, Thin rest thin → Resolves t follow cur (c :: rest) r) : Resolves t follow cur pieces r := by
  obtain ⟨k, rest, rfl, hrest⟩ := h.cons_inv
  rw [resolves_replicate k (cons_ne_nil _ _)]
  exact hr rest hrest

theorem Thin.resolves (hr : Resolves t follow cur thin r) (h : Thin pieces thin) :
    Resolves t follow cur pieces r := by
  have hnil : ∀ {rest : List Text}, Thin rest [] → rest = [] := fun hrest => hrest.eq_nil_iff.mpr rfl
  induction hr generalizing pieces with
  | here cur =>
    rw [hnil h]
    exact .here cur
  | dir hd => exact h.resolves_cons fun _ hrest => hnil hrest ▸ .dir hd
  | notDir hn => exact h.resolves_cons fun _ hrest => hnil hrest ▸ .notDir hn
  | slash hne _ ih => exact h.resolves_cons fun _ hrest => .slash (mt hrest.eq_nil_iff.mp hne) (ih hrest)
  | tooLong hlong => exact h.resolves_cons fun _ _ => .tooLong hlong
  | missing hpos hlen hno => exact h.resolves_cons fun _ _ => .missing hpos hlen hno
  | step hpos hlen he ht _ ih =>
    exact h.resolves_cons fun _ hrest => .step hpos hlen he ht (ih hrest)
  | final hpos hlen he ht hfol =>
    exact h.resolves_cons fun _ hrest => hnil hrest ▸ .final hpos hlen he ht hfol
  | link hpos hlen he ht hf _ ih =>
    exact h.resolves_cons fun _ hrest =>
      .link hpos hlen he ht (hf.imp_left (mt hrest.eq_nil_iff.mp)) (ih (hrest.append _))

theorem resolves_endSlash (hr : Resolves t true cur pieces r) (hdir : ∀ i, r = .found i → t.isDir i = true)
    (k : Nat) : Resolves t true cur (pieces ++ replicate (k + 1) []) r := by
  have hend : ∀ {follow : Bool} {cur : Nat} {r : Res}, Resolves t follow cur [[]] r →
      Resolves t follow cur (replicate (k + 1) []) r := fun h => by
    rw [replicate_succ', resolves_replicate k (cons_ne_nil _ _)]
    exact h
  have hne : replicate (k + 1) ([] : Text) ≠ [] := by simp [replicate_succ]
  generalize hf : true = follow at hr
  induction hr with
  | here cur => exact hend (.dir (hdir cur rfl))
  | dir hd => exact .slash hne (hend (.dir hd))
  | notDir hn => exact .slash hne (hend (.notDir hn))
  | slash _ _ ih => exact Resolves.slash (by simp [hne]) (ih hdir)
  | tooLong hlong => exact .tooLong hlong
  | missing hpos hlen hno => exact .missing hpos hlen hno
  | step hpos hlen he ht _ ih => exact .step hpos hlen he ht (ih hdir)
  | final _ _ _ _ hfol =>
    rw [← hf] at hfol
    cases hfol
  | link hpos hlen he ht _ _ ih =>
    have hlong := ih hdir
    rw [append_assoc] at hlong
    exact Resolves.link hpos hlen he ht (.inl (by simp [hne])) hlong

theorem exists_names (pieces : List Text) (h : pieces.filter (· ≠ []) ≠ []) :
    ∃ front k, pieces = front ++ replicate k [] ∧ Thin front (pieces.filter (· ≠ [])) := by
  induction pieces with
  | nil => exact absurd rfl h
  | cons c pieces ih =>
    by_cases hrest : pieces.filter (· ≠ []) = []
    · have hall : ∀ d ∈ pieces, d = [] := by simpa using filter_eq_nil_iff.mp hrest
      have hc : c ≠ [] := fun hc => h (by rw [filter_cons_of_neg (by simpa using hc), hrest])
      refine ⟨[c], pieces.length, ?_, ?_⟩
      · rw [singleton_append, ← eq_replicate_of_mem hall]
      · rw [filter_cons_of_pos (by simpa using hc), hrest]
        exact .keep c .nil
    · obtain ⟨front, k, hp, hthin⟩ := ih hrest
      refine ⟨c :: front, k, by rw [cons_append, ← hp], ?_⟩
      by_cases hc : c = []
      · rw [hc]
        exact .drop hthin fun hnil => hrest (hthin.eq_nil_iff.mp hnil)
      · rw [filter_cons_of_pos (by simpa using hc)]
        exact .keep c hthin

def names (text : Text) : List Text := (text.splitOn slash).filter (· ≠ [])

theorem slash_notMem_of_mem_names (h : c ∈ names text) : slash ∉ c := (splitOn_piece (mem_filter.mp h).1).1

theorem splitOn_join (h : ∀ c ∈ comps, slash ∉ c) (abs : Prop) [Decidable abs] :
    ∃ k, ((if abs then [slash] else []) ++ [slash].intercalate comps).splitOn slash = replicate k [] ++ comps := by
  obtain ⟨k, hk⟩ : ∃ k, ([slash].intercalate comps).splitOn slash = replicate k [] ++ comps := by
    by_cases hnil : comps = []
    · exact ⟨1, by rw [hnil]; rfl⟩
    · exact ⟨0, splitOn_intercalate slash h hnil⟩
  by_cases habs : abs
  · refine ⟨k + 1, ?_⟩
    rw [if_pos habs, singleton_append, splitOn_cons_slash, hk]
    rfl
  · exact ⟨k, by rwa [if_neg habs]⟩

theorem noNul_join (h : ∀ c ∈ comps, (0 : Byte) ∉ c) (abs : Prop) [Decidable abs] :
    (0 : Byte) ∉ (if abs then [slash] else []) ++ [slash].intercalate comps := by
  have hjoin : (0 : Byte) ∉ [slash].intercalate comps := by
    induction comps with
    | nil => exact not_mem_nil
    | cons c comps ih => cases comps <;> simp_all [intercalate, slash]
  rw [mem_append, not_or]
  exact ⟨by split_ifs <;> decide, hjoin⟩

theorem splitOn_tidy (text : Text) : ∃ k, (tidy text).splitOn slash = replicate k [] ++ names text :=
  splitOn_join (fun _ hc => slash_notMem_of_mem_names hc) _

theorem slashed_getLast (h : comps ≠ []) : (slashed comps).getLast? = some slash := by
  obtain ⟨front, c, rfl⟩ : ∃ front c, comps = front ++ [c] := ⟨_, _, (dropLast_append_getLast h).symm⟩
  simp [slashed]

theorem resolves_root_empty (k : Nat) : Resolves t follow t.root (replicate (k + 1) []) (.found t.root) := by
  rw [replicate_succ', resolves_replicate k (cons_ne_nil _ _)]
  exact .dir t.root_dir

theorem resolves_of_tidy (hr : Resolves t true t.root ((tidy text).splitOn slash) r)
    (hdir : EndsInSlash text → ∀ i, Resolves t true t.root ((tidy text).splitOn slash) (.found i) →
      t.isDir i = true) : Resolves t true t.root (text.splitOn slash) r := by
  by_cases hnames : names text = []
  · -- only slashes: the root
    have hall : ∀ d ∈ text.splitOn slash, d = [] := by simpa using filter_eq_nil_iff.mp hnames
    have hroot : Resolves t true t.root ((tidy text).splitOn slash) (.found t.root) := by
      rw [names] at hnames
      rw [tidy, hnames]
      split_ifs
      · exact resolves_root_empty 1
      · exact resolves_root_empty 0
    rw [Resolves.unique hr hroot, eq_replicate_of_mem hall]
    obtain ⟨c, cs, hc⟩ := exists_cons_of_ne_nil (splitOn_ne_nil slash text)
    rw [hc]
    exact resolves_root_empty cs.length
  · obtain ⟨j, hj⟩ := splitOn_tidy text
    obtain ⟨front, k, hp, hthin⟩ := exists_names (text.splitOn slash) hnames
    have hnamed : Resolves t true t.root (names text) r := by rwa [hj, resolves_replicate j hnames] at hr
    have hfront := hthin.resolves hnamed
    cases k with
    | zero =>
      rw [replicate_zero, append_nil] at hp
      rwa [hp]
    | succ k =>
      have hends : EndsInSlash text := by
        have hsplit : text.splitOn slash = (front ++ replicate k []) ++ [[]] := by
          rw [hp, replicate_succ', append_assoc]
        have htext := eq_slashed_of_splitOn hsplit
        rw [append_nil] at htext
        rw [htext]
        exact slashed_getLast fun hnil => hnames (hthin.eq_nil_iff.mp (append_eq_nil_iff.mp hnil).1)
      rw [hp]
      exact resolves_endSlash hfront (fun i hi => hdir hends i (hi ▸ hr)) k

end Tidy

section Resolve

variable {t : Tree} {follow : Bool} {cur d l : Nat} {rest : List Text} {name target : Text} {r : Res}

theorem resolves_follow (h : Resolves t false cur comps r) (hlink : ∀ l, r = .found l → t.target l = none) :
    Resolves t true cur comps r := by
  induction h with
  | here cur => exact .here cur
  | dir hd => exact .dir hd
  | notDir hn => exact .notDir hn
  | slash hne _ ih => exact .slash hne (ih hlink)
  | tooLong hlong => exact .tooLong hlong
  | missing hpos hlen hno => exact .missing hpos hlen hno
  | step hpos hlen he ht _ ih => exact .step hpos hlen he ht (ih hlink)
  | final _ _ _ ht _ =>
    rw [hlink _ rfl] at ht
    cases ht
  | link hpos hlen he ht _ _ ih => exact .link hpos hlen he ht (.inr rfl) (ih hlink)

theorem target_root (t : Tree) : t.target t.root = none := by
  cases h : t.target t.root with
  | none => rfl
  | some target =>
    have hdir := t.link_not_dir h
    rw [t.root_dir] at hdir
    cases hdir

theorem resolves_last (h : Resolves t false cur comps (.found l)) (hl : t.target l = some target)
    (hcur : t.target cur = none) : ∃ front name d, comps = front ++ [name] ∧ Walks t cur front d ∧ name ≠ [] ∧
      name.length ≤ maxName ∧ t.entry d name = some l := by
  generalize hr : Res.found l = r at h
  generalize hf : false = follow at h
  induction h with
  | here cur =>
    cases hr
    rw [hcur] at hl
    cases hl
  | dir hd =>
    cases hr
    rw [hcur] at hl
    cases hl
  | notDir _ => cases hr
  | slash _ _ ih =>
    obtain ⟨front, name, d, rfl, hw, hname⟩ := ih hcur hr
    exact ⟨[] :: front, name, d, rfl, .slash hw, hname⟩
  | tooLong _ => cases hr
  | missing _ _ _ => cases hr
  | step hpos hlen he ht _ ih =>
    obtain ⟨front, name, d, rfl, hw, hname⟩ := ih ht hr
    exact ⟨_ :: front, name, d, rfl, .step hpos hlen he ht hw, hname⟩
  | @final cur _ name _ hpos hlen he _ _ =>
    obtain rfl := Res.found.inj hr
    exact ⟨[], name, cur, rfl, .nil cur, hpos, hlen, he⟩
  | @link cur _ name target' rest _ hpos hlen he ht hfol _ ih =>
    have hne : rest ≠ [] := hfol.resolve_right (by rw [← hf]; exact Bool.false_ne_true)
    have hfrom : t.target (t.from cur target') = none := by
      rw [Tree.from]
      split_ifs
      · exact target_root t
      · exact hcur
    obtain ⟨front, last, d, happ, hw, hname⟩ := ih hfrom hr
    obtain ⟨init, c, rfl⟩ : ∃ init c, rest = init ++ [c] := ⟨_, _, (dropLast_append_getLast hne).symm⟩
    rw [← append_assoc] at happ
    obtain ⟨hfront, hlast⟩ := append_inj' happ rfl
    obtain rfl := (List.cons.inj hlast).1
    exact ⟨name :: init, c, d, rfl, .link hpos hlen he ht (hfront ▸ hw), hname⟩

theorem dirText_slashed (hname : slash ∉ name) : dirText (slashed comps ++ name) = slashed comps := by
  rw [dirText, reverse_append, dropWhile_append_of_pos (all_ne fun h => hname (mem_reverse.mp h))]
  by_cases hnil : comps = []
  · subst hnil
    rfl
  · obtain ⟨init, c, rfl⟩ : ∃ init c, comps = init ++ [c] := ⟨_, _, (dropLast_append_getLast hnil).symm⟩
    have hend : slashed (init ++ [c]) = slashed init ++ c ++ [slash] := by simp [slashed]
    rw [hend]
    simp

theorem foldl_noDots (names kept : List Text) (h₁ : [dot] ∉ names) (h₂ : [dot, dot] ∉ names) :
    names.foldl (fun k c => if c = [dot] then k else if c = [dot, dot] then k.dropLast else k ++ [c]) kept =
      kept ++ names := by
  induction names generalizing kept with
  | nil => simp
  | cons c names ih =>
    rw [mem_cons, not_or] at h₁ h₂
    rw [foldl_cons, if_neg (Ne.symm h₁.1), if_neg (Ne.symm h₂.1), ih _ h₁.2 h₂.2, append_assoc]
    rfl

theorem normDots_eq_tidy (h : NoDots text) : lookupNormDots text = tidy text := by
  have h1 : [dot] ∉ (text.splitOn slash).filter (· ≠ []) := fun hm => h.1 (mem_filter.mp hm).1
  have h2 : [dot, dot] ∉ (text.splitOn slash).filter (· ≠ []) := fun hm => h.2 (mem_filter.mp hm).1
  simp only [lookupNormDots, tidy, foldl_noDots _ [] h1 h2, nil_append]

theorem noNul_tidy (h : (0 : Byte) ∉ text) : (0 : Byte) ∉ tidy text :=
  noNul_join (fun _ hc h0 => h ((splitOn_piece (mem_filter.mp hc).1).2 h0)) _

theorem noDots_tidy (h : NoDots text) : NoDots (tidy text) := by
  obtain ⟨k, hk⟩ := splitOn_tidy text
  have hmem : ∀ c ≠ [], c ∈ (tidy text).splitOn slash → c ∈ text.splitOn slash := fun c hne hc => by
    rw [hk, mem_append] at hc
    obtain hc | hc := hc
    · exact absurd (eq_of_mem_replicate hc) hne
    · exact (mem_filter.mp hc).1
  exact ⟨fun hc => h.1 (hmem _ (by decide) hc), fun hc => h.2 (hmem _ (by decide) hc)⟩

theorem splitOn_relink (hsplit : text.splitOn slash = comps ++ [name]) (hrel : target.head? ≠ some slash) :
    (relink text target).splitOn slash = comps ++ target.splitOn slash := by
  obtain ⟨hw, hname⟩ := whole_of_splitOn hsplit
  rw [relink, if_neg hrel, eq_slashed_of_splitOn hsplit, dirText_slashed (hname name mem_cons_self),
    splitOn_slashed hw]

theorem noDots_relink (hsplit : text.splitOn slash = comps ++ [name]) (h : NoDots text) (ht : NoDots target) :
    NoDots (relink text target) := by
  by_cases habs : target.head? = some slash
  · rwa [relink, if_pos habs]
  · rw [NoDots, hsplit] at h
    rw [NoDots, splitOn_relink hsplit habs]
    simp only [mem_append, not_or] at h ⊢
    exact ⟨⟨h.1.1, ht.1⟩, h.2.1, ht.2⟩

theorem noNul_relink (h : (0 : Byte) ∉ text) (ht : (0 : Byte) ∉ target) : (0 : Byte) ∉ relink text target := by
  rw [relink]
  split_ifs
  · exact ht
  · rw [mem_append, not_or]
    refine ⟨fun h0 => h ?_, ht⟩
    rw [dirText, mem_reverse] at h0
    exact mem_reverse.mp ((dropWhile_sublist _).subset h0)

theorem CleanEnd.length_le {m : Nat} (h : CleanEnd t m text) : text.length ≤ pathMax := by
  cases h with
  | stop hlen => exact hlen
  | follow hlen => exact hlen

theorem resolves_relink (hres : Resolves t false t.root (text.splitOn slash) (.found l))
    (hl : t.target l = some target) (hr : Resolves t true t.root ((relink text target).splitOn slash) r) :
    Resolves t true t.root (text.splitOn slash) r := by
  obtain ⟨front, name, d, hsplit, hw, hpos, hlen, he⟩ := resolves_last hres hl (target_root t)
  rw [hsplit, hw.resolves_iff (cons_ne_nil _ _), Resolves.link_iff hpos hlen he hl (.inr rfl),
    append_nil, Tree.from]
  by_cases habs : target.head? = some slash
  · rw [relink, if_pos habs] at hr
    rwa [if_pos habs]
  · rw [splitOn_relink hsplit habs, hw.resolves_iff (splitOn_ne_nil slash target)] at hr
    rwa [if_neg habs]

theorem resolveFrom_clean {m hops : Nat} (h : CleanEnd t m text) (hm : m ≤ hops) {stack : Nat → Text}
    (hsize : ∀ k, (stack k).length = pathMax + 1) (hnul : (0 : Byte) ∉ text) (hdots : NoDots text)
    (htargets : ∀ l target, t.target l = some target → NoDots target) :
    Resolves t true t.root (text.splitOn slash) (resolveFrom t.dirs stack hops (lookupNormDots text)) := by
  induction h generalizing hops with
  | @stop n text hlen hclean hn hlast hdir =>
    rw [normDots_eq_tidy hdots]
    refine resolves_of_tidy ?_ hdir
    have hres := lookup_resolves hclean hn (noNul_tidy hnul) (hsize hops)
    have hgo : resolveFrom t.dirs stack hops (tidy text) = volPathLookup t.dirs (stack hops) (tidy text) := by
      rw [resolveFrom]
      cases hlook : volPathLookup t.dirs (stack hops) (tidy text) with
      | found ino =>
        rw [hlook] at hres
        obtain ⟨hne, hnone⟩ := hlast ino hres
        simp only [dirs_link hne, hnone]
      | absent => rfl
      | fail => rfl
    rw [hgo]
    exact resolves_follow hres fun l hl => (hlast l (hl ▸ hres)).2
  | @follow n m l text target hlen hclean hn hfound hl hst hdir hrest ih =>
    obtain ⟨hops, rfl⟩ : ∃ k, hops = k + 1 := ⟨hops - 1, by omega⟩
    have hlook : volPathLookup t.dirs (stack (hops + 1)) (tidy text) = .found l :=
      Resolves.unique (lookup_resolves hclean hn (noNul_tidy hnul) (hsize (hops + 1))) hfound
    obtain ⟨front, name, d, hsplit, -⟩ := resolves_last hfound hl (target_root t)
    have hgo : resolveFrom t.dirs stack (hops + 1) (tidy text) =
        resolveFrom t.dirs stack hops (lookupNormDots (relink (tidy text) target)) := by
      have hfit := CleanEnd.length_le hrest
      conv_lhs => rw [resolveFrom, hlook]
      have hne : l ≠ t.root := fun h => by rw [h, target_root] at hl; cases hl
      simp only [dirs_link hne, hl, if_neg (storable_fits hst), takeWhile_noNul hst.noNul]
      rw [relink] at hfit ⊢
      by_cases habs : target.head? = some slash
      · simp only [if_pos habs] at hfit ⊢
        rw [if_neg (not_lt.mpr hfit)]
      · simp only [if_neg habs] at hfit ⊢
        rw [length_append] at hfit
        rw [if_neg (not_lt.mpr hfit)]
    rw [normDots_eq_tidy hdots, hgo]
    refine resolves_of_tidy (resolves_relink hfound hl ?_) hdir
    exact ih (by omega) (noNul_relink (noNul_tidy hnul) hst.noNul)
      (noDots_relink hsplit (noDots_tidy hdots) (htargets l target hl))

end Resolve

section Whole

variable {t : Tree}

/-- On clean paths both functions answer as the resolution does, with the last link unfollowed or
followed. -/
theorem path_lookup_resolve {n m : Nat} {path : Text} {stack : Nat → Text}
    (hsize : ∀ k, (stack k).length = pathMax + 1) (hnul : (0 : Byte) ∉ path) (hdots : NoDots path)
    (htargets : ∀ l target, t.target l = some target → NoDots target)
    (hclean : Clean t n path) (hn : n ≤ maxHops) (hend : CleanEnd t m path) (hm : m ≤ maxHops) (r : Res) :
    (volPathLookup t.dirs (stack 0) path = r ↔ Resolves t false t.root (path.splitOn slash) r) ∧
      (volPathResolve t.dirs stack path = r ↔ Resolves t true t.root (path.splitOn slash) r) := by
  have hlook := lookup_resolves hclean hn hnul (hsize 0)
  have hres := resolveFrom_clean hend hm hsize hnul hdots htargets
  have hgo : volPathResolve t.dirs stack path = resolveFrom t.dirs stack maxHops (lookupNormDots path) := by
    rw [volPathResolve, if_neg (not_lt.mpr (CleanEnd.length_le hend))]
  rw [hgo]
  exact ⟨⟨fun h => h ▸ hlook, fun h => Resolves.unique hlook h⟩, fun h => h ▸ hres, fun h => Resolves.unique hres h⟩

theorem clean_of_scan {path : Text} {r : Res} (hlen : path.length ≤ pathMax)
    (hscan : scan t.dirs t.root 0 (path.splitOn slash) = .done r) (hne : path ≠ []) (hend : ¬ EndsInSlash path) :
    Clean t 0 path := by
  refine .plain hlen (fun comps name rest target d h => ?_) fun comps d htext _ _ => ?_
  · rw [scan_firstLink h] at hscan
    cases hscan
  · have hcomps : comps ≠ [] := fun hnil => hne (by rw [htext, hnil]; rfl)
    exact absurd (htext ▸ slashed_getLast hcomps) hend

/-- The directories 1, 2 = /a and 4 = /a/t with the files 5 = /a/t/x and 7 = /a/x, and the links
/l to "a", /a/l to "t" and /m to "/a/t". -/
def sampleTree : Tree where
  root := 1
  dirent d name :=
    if d = 1 ∧ name = [97] then some 2
    else if d = 1 ∧ name = [108] then some 6
    else if d = 1 ∧ name = [109] then some 8
    else if d = 2 ∧ name = [108] then some 3
    else if d = 2 ∧ name = [116] then some 4
    else if d = 2 ∧ name = [120] then some 7
    else if d = 4 ∧ name = [120] then some 5
    else none
  target i := if i = 3 then some [116] else if i = 6 then some [97] else if i = 8 then
    some [47, 97, 47, 116] else none
  isDir i := i = 1 ∨ i = 2 ∨ i = 4
  root_dir := rfl
  root_unnamed := by
    intro d name child h
    split_ifs at h <;> simp_all <;> omega
  dirent_dir := by
    intro d name child h
    split_ifs at h <;> simp_all
  link_not_dir := by
    intro l target' h
    split_ifs at h <;> simp_all

def zeroStack : Nat → Text := fun _ => replicate (pathMax + 1) 0

theorem sampleTree_targets (l : Nat) (target : Text) (h : sampleTree.target l = some target) : NoDots target := by
  simp only [sampleTree] at h
  split_ifs at h <;> cases h <;> decide

/-- /l/x, where /l stands for /a. -/
theorem path_lookup_resolve_first : volPathLookup sampleTree.dirs (zeroStack 0) [108, 47, 120] = .found 7 ∧
    (volPathLookup sampleTree.dirs (zeroStack 0) [108, 47, 120] = .found 7 ↔
      Resolves sampleTree false 1 [[108], [120]] (.found 7)) ∧
    (volPathResolve sampleTree.dirs zeroStack [108, 47, 120] = .found 7 ↔
      Resolves sampleTree true 1 [[108], [120]] (.found 7)) := by
  have hsize : ∀ k, (zeroStack k).length = pathMax + 1 := fun _ => length_replicate
  have hplain : Clean sampleTree 0 [97, 47, 120] :=
    clean_of_scan (r := .found 7) (by decide) (by decide +kernel) (by decide) (by decide)
  have hlink : FirstLink sampleTree [108, 47, 120] [] [108] [120] [97] 1 :=
    ⟨rfl, by simp, by decide, .nil 1, by decide, by decide, 6, by decide, by decide⟩
  have hclean : Clean sampleTree 1 [108, 47, 120] :=
    .relative (by decide) hlink ⟨by decide, by decide, by decide⟩ (by decide) (by simp) hplain
  have hfound : volPathLookup sampleTree.dirs (zeroStack 0) [108, 47, 120] = .found 7 := by decide +kernel
  have hres : Resolves sampleTree false 1 [[108], [120]] (.found 7) :=
    hfound ▸ lookup_resolves hclean (by decide) (by decide) (hsize 0)
  have htidy : tidy [108, 47, 120] = [108, 47, 120] := by decide
  have hend : CleanEnd sampleTree 0 [108, 47, 120] := by
    refine .stop (by decide) (htidy ▸ hclean) (by decide) (fun l hl => ?_) fun hslash => ?_
    · rw [htidy] at hl
      rw [Res.found.inj (Resolves.unique hl hres)]
      exact ⟨by decide, rfl⟩
    · exact absurd hslash (by decide)
  exact ⟨hfound, path_lookup_resolve hsize (by decide) (by decide) sampleTree_targets hclean (by decide) hend
    (by decide) (.found 7)⟩

/-- /a/l/x and /m/x are the file 5, but a relative target below the root is looked up from the wrong
place, and an absolute one is moved over the text that is still to be copied. The root itself has no row for
the second function to read. -/
theorem spliced_link_lost : (Resolves sampleTree false 1 [[97], [108], [120]] (.found 5) ∧
      volPathLookup sampleTree.dirs (zeroStack 0) [97, 47, 108, 47, 120] = .absent ∧
      volPathResolve sampleTree.dirs zeroStack [97, 47, 108, 47, 120] = .absent) ∧
    (Resolves sampleTree false 1 [[109], [120]] (.found 5) ∧
      volPathLookup sampleTree.dirs (zeroStack 0) [109, 47, 120] = .absent) ∧
    (Resolves sampleTree true 1 [[], []] (.found 1) ∧ volPathResolve sampleTree.dirs zeroStack [47] = .fail) := by
  have hx : Resolves sampleTree false 4 [[120]] (.found 5) :=
    .step (by decide) (by decide) (by decide) (by decide) (.here 5)
  have htx : Resolves sampleTree false 2 [[116], [120]] (.found 5) :=
    .step (by decide) (by decide) (by decide) (by decide) hx
  refine ⟨⟨?_, by decide +kernel, by decide +kernel⟩, ⟨?_, by decide +kernel⟩,
    .slash (by decide) (.dir rfl), by decide +kernel⟩
  · have hl : Resolves sampleTree false 2 [[108], [120]] (.found 5) :=
      .link (l := 3) (by decide) (by decide) (by decide) rfl (.inl (by decide)) htx
    exact .step (by decide) (by decide) (by decide) (by decide) hl
  · refine .link (l := 8) (by decide) (by decide) (by decide) rfl (.inl (by decide)) ?_
    refine .slash (by decide) ?_
    exact .step (by decide) (by decide) (by decide) (by decide) htx

end Whole

end InvariantFs.PathResolve
