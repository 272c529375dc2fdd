import InvariantFs.PathResolve

namespace InvariantFs.PathNorm

open ByteCodec PathLookup PathResolve List Option

/-- The first loop of `lookup_norm_dots`, over what stands between the slashes from `p` on; `comp` has `room`
slots left. -/
def cutDots (work : Text) (p : Nat) : Nat → List Text → Text × Option (List Nat)
  | _, [] => (work, some [])
  | room, [] :: cs => cutDots work (p + 1) room cs
  | 0, _ :: _ => (work, none)
  | room + 1, c :: cs =>
    let q := p + c.length
    let r := cutDots (work.set q 0) (q + 1) room cs
    (r.1, r.2.map (p :: ·))

def keepDots {α : Type} (name : α → Text) (kept : List α) (c : α) : List α :=
  if name c = [dot] then kept else if name c = [dot, dot] then kept.dropLast else kept ++ [c]

/-- The last loop: `sep` is what goes before the next component. -/
def slideDots (sep work : Text) (d : Nat) : List Nat → Text
  | [] => splice d [0] work
  | c :: cs =>
    let work := splice d sep work
    let d := d + sep.length
    let name := cstr work c
    slideDots [slash] (splice d name work) (d + name.length) cs

def lookupNormDotsBuf (work : Text) : Text :=
  let abs := if work.head? = some slash then [slash] else []
  match cutDots work abs.length 2048 ((cstr work abs.length).splitOn slash) with
  | (work, none) => work
  | (work, some comp) => slideDots [] (splice 0 abs work) abs.length (comp.foldl (keepDots (cstr work)) [])

/-- The components that remain of those read so far. -/
inductive Cancels : List Text → List Text → Prop
  | nil : Cancels [] []
  | skip {cs ks : List Text} {c : Text} : c = [] ∨ c = [dot] → Cancels cs ks → Cancels (cs ++ [c]) ks
  | up {cs ks : List Text} {k : Text} : Cancels cs (ks ++ [k]) → Cancels (cs ++ [[dot, dot]]) ks
  | top {cs : List Text} : Cancels cs [] → Cancels (cs ++ [[dot, dot]]) []
  | name {cs ks : List Text} {c : Text} : c ≠ [] → c ≠ [dot] → c ≠ [dot, dot] → Cancels cs ks →
      Cancels (cs ++ [c]) (ks ++ [c])

/-- The components stand from `lo` up to `hi`, one after the other. -/
def Placed (name : Nat → Text) (lo hi : Nat) (comp : List Nat) : Prop :=
  comp.Pairwise (fun c c' => c + (name c).length < c') ∧ ∀ c ∈ comp, lo ≤ c ∧ c + (name c).length < hi

variable {text work : Text} {d hi : Nat} {cs ks : List Text} {comp : List Nat} {name : Nat → Text}

theorem cstr_name (pre : Text) {name : Text} (h0 : (0 : Byte) ∉ name) (rest : Text) :
    cstr (pre ++ (name ++ 0 :: rest)) pre.length = name := by
  rw [cstr, drop_left, takeWhile_append_of_pos (all_ne h0)]
  simp

/-- The pieces `qs` stand behind `pre`, each with the byte that follows it. -/
theorem cut_placed (qs : List (Text × Byte)) (pre after : Text) (room : Nat) (h0 : ∀ q ∈ qs, (0 : Byte) ∉ q.1)
    (hroom : (qs.flatMap fun q => q.1 ++ [q.2]).length ≤ 2 * room + 1) :
    ∃ cut comp, cutDots (pre ++ ((qs.flatMap fun q => q.1 ++ [q.2]) ++ after)) pre.length room (qs.map Prod.fst) =
        (pre ++ (cut ++ after), some comp) ∧ cut.length = (qs.flatMap fun q => q.1 ++ [q.2]).length ∧
      comp.map (cstr (pre ++ (cut ++ after))) = (qs.map Prod.fst).filter (· ≠ []) ∧
      Placed (cstr (pre ++ (cut ++ after))) pre.length (pre.length + cut.length) comp := by
  induction qs generalizing pre room with
  | nil => exact ⟨[], [], by simp [cutDots, Placed]⟩
  | cons q qs ih =>
    obtain ⟨c, b⟩ := q
    obtain ⟨hc, hqs⟩ := forall_mem_cons.mp h0
    cases c with
    | nil =>
      obtain ⟨cut, comp, hcut, hlen, hname, hpl⟩ := ih (pre ++ [b]) room hqs (by simp at hroom ⊢; omega)
      simp at hcut hname hpl
      refine ⟨b :: cut, comp, by simpa [cutDots] using hcut, by simp [hlen], by simpa using hname, hpl.1,
        fun x hx => ?_⟩
      have := hpl.2 x hx
      simp
      omega
    | cons a c =>
      cases room with
      | zero => simp at hroom
      | succ room =>
        obtain ⟨cut, comp, hcut, hlen, hname, hpl⟩ := ih (pre ++ (a :: c ++ [0])) room hqs (by simp at hroom ⊢; omega)
        have hread := cstr_name pre hc (cut ++ after)
        simp at hcut hname hpl hread
        refine ⟨a :: c ++ 0 :: cut, pre.length :: comp, ?_, by simp [hlen], by simpa [hread] using hname, ?_⟩
        · simp [cutDots, Nat.add_assoc, hcut]
        · simp [Placed, hread]
          exact ⟨⟨fun x hx => (hpl.2 x hx).1, hpl.1⟩, fun x hx => by have := hpl.2 x hx; omega⟩

def joined (sep : Text) : List Text → Text
  | [] => []
  | w :: ws => sep ++ w ++ joined [slash] ws

theorem joined_eq (ws : List Text) : joined [] ws = [slash].intercalate ws := by
  cases ws with
  | nil => rfl
  | cons w ws =>
    rw [joined, nil_append]
    induction ws generalizing w with
    | nil => simp [joined]
    | cons v ws ih => simp [joined, ih v, intercalate]

theorem cstr_splice {c : Nat} {data : Text} (hd : d ≤ work.length) (hc : d + data.length ≤ c) :
    cstr (splice d data work) c = cstr work c := by
  obtain ⟨k, rfl⟩ := Nat.exists_eq_add_of_le hc
  have hlen : (work.take d ++ data).length = d + data.length := by simp [hd]
  rw [cstr, cstr, splice, ← hlen, drop_length_add_append, hlen, drop_drop]

theorem slide_placed (sep : Text) (hd : d < hi) (hhi : hi ≤ work.length) (h : Placed name (d + sep.length) hi comp)
    (hname : ∀ c ∈ comp, cstr work c = name c) :
    slideDots sep work d comp = splice d (joined sep (comp.map name) ++ [0]) work ∧
      d + (joined sep (comp.map name)).length < hi := by
  induction comp generalizing sep work d with
  | nil => exact ⟨rfl, hd⟩
  | cons c comp ih =>
    obtain ⟨⟨hlt, hpair⟩, ⟨hc, hend⟩, h⟩ := h.imp pairwise_cons.mp forall_mem_cons.mp
    obtain ⟨hread, hname⟩ := forall_mem_cons.mp hname
    rw [← cstr_splice (by omega) hc] at hread
    have hle : d ≤ work.length := by omega
    obtain ⟨hslide, hfit⟩ := @ih (splice d (sep ++ name c) work) (d + (sep ++ name c).length) [slash]
      (by simp; omega) (by rwa [length_splice (by simp; omega)])
      ⟨hpair, fun x hx => ⟨by have := hlt x hx; simp; omega, (h x hx).2⟩⟩
      fun x hx => by rw [cstr_splice hle (by have := hlt x hx; simp; omega), hname x hx]
    rw [splice_splice _ _ hle] at hslide
    rw [slideDots, hread, splice_splice _ _ hle, Nat.add_assoc, ← length_append, hslide, map_cons, joined]
    simp at hfit ⊢
    omega

theorem keepDots_sublist {α : Type} (name : α → Text) (l kept : List α) :
    l.foldl (keepDots name) kept <+ kept ++ l := by
  induction l generalizing kept with
  | nil => simp
  | cons c l ih =>
    have hstep : keepDots name kept c <+ kept ++ [c] := by
      rw [keepDots]
      split_ifs
      · simp
      · exact (dropLast_sublist kept).trans (sublist_append_left ..)
      · simp
    simpa using (ih _).trans (hstep.append_right l)

theorem keepDots_map {α : Type} (name : α → Text) (l : List α) :
    (l.map name).foldl (keepDots id) [] = (l.foldl (keepDots name) []).map name := by
  rw [foldl_map]
  change foldl _ (map name []) l = _
  refine foldl_hom (map name) fun ks c => ?_
  simp only [keepDots, id]
  split_ifs <;> simp

theorem Cancels.step {c : Text} (hc : c ≠ []) (h : Cancels cs ks) : Cancels (cs ++ [c]) (keepDots id ks c) := by
  rw [keepDots]
  split_ifs with hdot hup
  · exact .skip (.inr hdot) h
  · obtain rfl : c = [dot, dot] := hup
    by_cases hks : ks = []
    · subst hks
      exact .top h
    · exact .up (dropLast_append_getLast hks ▸ h)
  · exact .name hc hdot hup h

theorem Cancels.run (h : Cancels cs ks) (l : List Text) :
    Cancels (cs ++ l) ((l.filter (· ≠ [])).foldl (keepDots id) ks) := by
  induction l generalizing cs ks with
  | nil => simpa using h
  | cons c l ih =>
    by_cases hc : c = []
    · simpa [hc] using ih (h.skip (.inl hc))
    · simpa [hc] using ih (h.step hc)

theorem Cancels.remaining (h : Cancels cs ks) : ∀ k ∈ ks, k ∈ cs ∧ k ≠ [] ∧ k ≠ [dot] ∧ k ≠ [dot, dot] := by
  induction h with
  | nil => simp
  | skip _ _ ih => exact fun k hk => (ih k hk).imp_left (mem_append_left _)
  | up _ ih => exact fun k hk => (ih k (mem_append_left _ hk)).imp_left (mem_append_left _)
  | top => simp
  | name h1 h2 h3 _ ih =>
    intro k hk
    obtain hk | hk := mem_append.mp hk
    · exact (ih k hk).imp_left (mem_append_left _)
    · rw [mem_singleton.mp hk]
      exact ⟨mem_append_right _ mem_cons_self, h1, h2, h3⟩

def kept (text : Text) : List Text := (names text).foldl (keepDots id) []

theorem cancels_kept (text : Text) : Cancels (text.splitOn slash) (kept text) := Cancels.nil.run _

theorem of_mem_kept {c : Text} (h : c ∈ kept text) : (slash ∉ c ∧ c ⊆ text) ∧ c ≠ [] ∧ c ≠ [dot] ∧ c ≠ [dot, dot] :=
  ((cancels_kept text).remaining c h).imp_left splitOn_piece

theorem normDots_normDots (text : Text) : lookupNormDots (lookupNormDots text) = lookupNormDots text := by
  obtain ⟨k, hk⟩ := splitOn_join (fun c (hc : c ∈ kept text) => (of_mem_kept hc).1.1) (text.head? = some slash)
  have hne : (kept text).filter (· ≠ []) = kept text :=
    filter_eq_self.mpr fun c hc => by simpa using (of_mem_kept hc).2.1
  have hnone : (replicate k ([] : Text)).filter (· ≠ []) = [] := by simp
  have hfold := foldl_noDots (kept text) [] (fun hc => (of_mem_kept hc).2.2.1 rfl) fun hc =>
    (of_mem_kept hc).2.2.2 rfl
  have hhead : ((if text.head? = some slash then [slash] else []) ++ [slash].intercalate (kept text)).head? =
      some slash ↔ text.head? = some slash := by
    by_cases habs : text.head? = some slash
    · simp [habs]
    · rw [if_neg habs, nil_append, iff_false_right habs]
      cases hc : kept text with
      | nil => simp
      | cons c cs =>
        obtain ⟨⟨hslash, -⟩, hne, -⟩ := of_mem_kept (hc ▸ mem_cons_self)
        obtain ⟨b, c, rfl⟩ := exists_cons_of_ne_nil hne
        cases cs <;> simpa [intercalate] using Ne.symm (ne_of_not_mem_cons hslash)
  change lookupNormDots (_ ++ [slash].intercalate (kept text)) = _
  simp only [lookupNormDots, hhead, hk, filter_append, hnone, hne, nil_append, hfold]
  rfl

theorem normDotsBuf_eq (hlen : text.length ≤ pathMax) (h0 : (0 : Byte) ∉ text) (after : Text) :
    ∃ rest, lookupNormDotsBuf (text ++ 0 :: after) = lookupNormDots text ++ 0 :: (rest ++ after) ∧
      (lookupNormDots text ++ rest).length = text.length := by
  have hhead : (text ++ 0 :: after).head? = some slash ↔ text.head? = some slash := by cases text <;> simp [slash]
  obtain ⟨lead, body, hlead, htext, hnames⟩ : ∃ lead body,
      (if text.head? = some slash then [slash] else []) = lead ∧ text = lead ++ body ∧
        names text = names body := by
    split_ifs with habs
    · obtain ⟨body, rfl⟩ := head?_eq_some_iff.mp habs
      exact ⟨_, body, rfl, rfl, by simp [names, splitOn_cons_slash]⟩
    · exact ⟨_, text, rfl, rfl, rfl⟩
  obtain ⟨qs, hqs, hbody⟩ : ∃ qs : List (Text × Byte), qs.map Prod.fst = body.splitOn slash ∧
      (qs.flatMap fun q => q.1 ++ [q.2]) = body ++ [0] := by
    obtain ⟨comps, last, hsplit⟩ : ∃ comps last, body.splitOn slash = comps ++ [last] :=
      ⟨_, _, (dropLast_append_getLast (splitOn_ne_nil slash body)).symm⟩
    refine ⟨comps.map (·, slash) ++ [(last, 0)], by simp [hsplit, Function.comp_def], ?_⟩
    simp [eq_slashed_of_splitOn hsplit, slashed, flatMap_map]
  have hbody0 : (0 : Byte) ∉ body := fun h => h0 (htext ▸ mem_append_right _ h)
  obtain ⟨cut, comp, hcut, hcutlen, hname, hpl⟩ := cut_placed qs lead after 2048
    (fun q hq h => hbody0 ((splitOn_piece (hqs ▸ mem_map_of_mem hq)).2 h))
    (by
      have := congrArg length htext
      rw [hbody]
      simp [pathMax] at this hlen ⊢
      omega)
  rw [hqs, hbody, append_assoc] at hcut
  rw [hbody] at hcutlen
  have hsub := keepDots_sublist (cstr (lead ++ (cut ++ after))) comp []
  obtain ⟨hslide, hfit⟩ := @slide_placed (lead ++ (cut ++ after)) lead.length _ _ _ [] (by simp [hcutlen]) (by simp)
    ⟨hpl.1.sublist hsub, fun x hx => hpl.2 x (hsub.subset hx)⟩ fun _ _ => rfl
  have hkept : kept text = ((body.splitOn slash).filter (· ≠ [])).foldl (keepDots id) [] := by
    rw [kept, hnames, names]
  rw [← keepDots_map, hname, hqs, ← hkept, joined_eq] at hslide hfit
  have hwork : text ++ 0 :: after = lead ++ (body ++ 0 :: after) := by rw [htext, append_assoc]
  have hn : lookupNormDots text = lead ++ [slash].intercalate (kept text) := by rw [← hlead]; rfl
  have hstart : splice 0 lead (lead ++ (cut ++ after)) = lead ++ (cut ++ after) := by simp [splice]
  refine ⟨cut.drop (([slash].intercalate (kept text)).length + 1), ?_, ?_⟩
  · simp only [lookupNormDotsBuf, hhead, hlead]
    simp only [hwork, cstr_name lead hbody0, singleton_append] at hcut ⊢
    rw [hcut]
    simp only [hstart, hslide, hn]
    rw [splice, take_left, drop_length_add_append, drop_append_of_le_length (by simp; omega)]
    simp
  · have := congrArg length htext
    simp at hcutlen hfit this
    simp [hn, hcutlen]
    omega

/-- `lookup_norm_dots` leaves the path without its dots, and a second call leaves the whole buffer as it is. -/
theorem normDots_normal (hlen : text.length ≤ pathMax) (h0 : (0 : Byte) ∉ text) (after : Text) :
    (∃ ks, cstr (lookupNormDotsBuf (text ++ 0 :: after)) 0 =
        (if text.head? = some slash then [slash] else []) ++ [slash].intercalate ks ∧
      Cancels (text.splitOn slash) ks ∧ ∀ k ∈ ks, slash ∉ k ∧ k ≠ [] ∧ k ≠ [dot] ∧ k ≠ [dot, dot]) ∧
    lookupNormDotsBuf (lookupNormDotsBuf (text ++ 0 :: after)) = lookupNormDotsBuf (text ++ 0 :: after) := by
  have hn0 : (0 : Byte) ∉ lookupNormDots text := noNul_join (fun c hc h => h0 ((of_mem_kept hc).1.2 h)) _
  obtain ⟨rest, hbuf, hle⟩ := normDotsBuf_eq hlen h0 after
  rw [hbuf]
  refine ⟨⟨kept text, cstr_name [] hn0 _, cancels_kept text, fun k hk => (of_mem_kept hk).imp_left And.left⟩, ?_⟩
  obtain ⟨rest', hbuf', hle'⟩ := normDotsBuf_eq (by simp at hle; omega) hn0 (rest ++ after)
  rw [normDots_normDots, length_append, Nat.add_eq_left, length_eq_zero_iff] at hle'
  rw [hbuf', normDots_normDots, hle', nil_append]

theorem normDots_normal_up : cstr (lookupNormDotsBuf [46, 46, 47, 97, 0]) 0 = [97] ∧
    lookupNormDotsBuf (lookupNormDotsBuf [46, 46, 47, 97, 0]) = lookupNormDotsBuf [46, 46, 47, 97, 0] :=
  ⟨by decide, (@normDots_normal [46, 46, 47, 97] (by decide) (by decide) []).2⟩

end InvariantFs.PathNorm
