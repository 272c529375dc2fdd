import InvariantFs.BtreeWrite

namespace InvariantFs.BtreeSupply

open ByteCodec BtreePage BtreeSplit Btree Fallible BtreeShape List

/-- The allocator is going to hand out `n` different free blocks, and the writes into them go
through. -/
def Ample (n : Nat) (v : Vol) : Prop :=
  ∃ ts rest, v.supply = ts ++ rest ∧ ts.length = n ∧ (ts.map Ticket.pba).Nodup ∧
    ∀ t ∈ ts, t.pba ≠ 0 ∧ t.pba < v.total ∧ v.bit t.pba = false ∧ t.initOk = true ∧ t.writeOk = true

def Fits (level : Nat) (es : List Ent) : Prop :=
  es.length ≤ maxEntries ∧ used level es ≤ pageSize ∧ (level ≠ 0 → ∀ e ∈ es, e.child.pba ≠ 0)

variable (crc : List Byte → UInt32) {n : Nat} {v : Vol}

theorem place_ample (ha : Ample (n + 1) v) (gen : UInt64) (page : List Byte) :
    ∃ pba v', runs (place crc gen page) v = (some pba, v') ∧ Ample n v' := by
  obtain ⟨_ | ⟨t, ts⟩, rest, hsup, hlen, hnd, hgood⟩ := ha
  · simp at hlen
  obtain ⟨h0, hlt, hfree, hinit, hwrite⟩ := hgood t mem_cons_self
  obtain ⟨hnew, hnd⟩ := nodup_cons.mp hnd
  have halloc : runs (mbufAlloc crc gen) v = (some t,
      { v.setBit t.pba true with
        supply := ts ++ rest, dev := v.dev.write t.pba fun _ => pageBytes crc 0 gen [] }) := by
    rw [mbufAlloc, runs_act, hsup]
    simp [h0, UInt64.not_le.mpr hlt, hfree, hinit]
  have hput : ∀ u, runs (mbufWrite t page) u =
      (some (), { u with dev := u.dev.write t.pba fun _ => page }) := by
    intro u
    rw [mbufWrite, runs_act, if_pos hwrite]
  refine ⟨t.pba, _, bind_some.mpr ⟨t, _, halloc, bind_some.mpr ⟨(), _, hput _, rfl⟩⟩, ts, rest, rfl,
    Nat.succ.inj hlen, hnd, fun t' ht' => ?_⟩
  obtain ⟨h0', hlt', hfree', hok'⟩ := hgood t' (mem_cons_of_mem _ ht')
  refine ⟨h0', hlt'.trans_eq (total_bmDirty v t.pba).symm, ?_, hok'⟩
  have hne : t'.pba ≠ t.pba := fun h => hnew (h ▸ mem_map_of_mem ht')
  exact (Function.update_of_ne hne _ _).trans hfree'

theorem btWrite_ample (ha : Ample (n + 1) v) (gen : UInt64) {level : Nat} {es : List Ent} (hf : Fits level es) :
    ∃ p v', runs (btWrite crc level gen es) v = (some p, v') ∧ Ample n v' := by
  obtain ⟨hn, hu, hc⟩ := hf
  obtain ⟨pba, v', hplace, ha'⟩ := place_ample crc ha gen (pageBytes crc level gen es)
  refine ⟨ptrSet pba (pageBytes crc level gen es) (if level = 0 then bpLeaf else bpInternal), v', ?_, ha'⟩
  rw [btWrite, if_neg]
  · exact bind_some.mpr ⟨pba, v', hplace, rfl⟩
  · simp only [not_or, Nat.not_lt, not_and, not_exists]
    exact ⟨hn, hu, fun hl e he => hc hl e he⟩

theorem writeAll_ample (gen : UInt64) {level : Nat} {ps : List (List Ent)} (ha : Ample (ps.length + n) v)
    (hf : ∀ es ∈ ps, Fits level es) : ∃ qs v', runs (writeAll crc level gen ps) v = (some qs, v') ∧ Ample n v' := by
  induction ps generalizing v with
  | nil => exact ⟨[], v, rfl, by simpa using ha⟩
  | cons es ps ih =>
    rw [length_cons, Nat.add_right_comm] at ha
    obtain ⟨p, v1, hp, ha1⟩ := btWrite_ample crc ha gen (hf es mem_cons_self)
    obtain ⟨qs, v2, hqs, ha2⟩ := ih ha1 fun x hx => hf x (mem_cons_of_mem _ hx)
    exact ⟨p :: qs, v2, bind_some.mpr ⟨p, v1, hp, bind_some.mpr ⟨qs, v2, hqs, rfl⟩⟩, ha2⟩

theorem writePieces_ample (gen : UInt64) (level : Nat) (es : List Ent) (ps : List (List Ent))
    (hbig : pageSize < used level es) (hs : split3 level es = some ps) (ha : Ample (ps.length + n) v)
    (hf : ∀ es ∈ ps, Fits level es) : ∃ qs v', runs (writePieces crc level gen es) v = (some qs, v') ∧
      runs (writeAll crc level gen ps) v = (some qs, v') ∧ Ample n v' := by
  obtain ⟨qs, v', hrun, ha'⟩ := writeAll_ample crc gen ha hf
  refine ⟨qs, v', ?_, hrun, ha'⟩
  rw [writePieces, if_neg (Nat.not_le.mpr hbig), hs]
  exact hrun

end InvariantFs.BtreeSupply
