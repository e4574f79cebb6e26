import StoreBuffer.Memory.Addr

/-! # Heap objects

The live objects of a heap by base address. `containing?` looks at one object only, the one with the
greatest base at or below the pointer, which is enough as long as objects are disjoint. -/

namespace StoreBuffer

/-- Live objects, greatest base first. -/
structure Objects where
  regions : List Region := []
deriving DecidableEq, Inhabited, Repr

namespace Objects

/-- Puts `r` in its place; an object with the same base is replaced. -/
def insertInto (r : Region) : List Region → List Region
  | [] => [r]
  | s :: rest =>
    if s.base = r.base then r :: rest
    else if s.base.val < r.base.val then r :: s :: rest
    else s :: insertInto r rest

def insert (o : Objects) (r : Region) : Objects := ⟨insertInto r o.regions⟩

/-- The object that starts at `base`. -/
def find? (o : Objects) (base : Addr) : Option Region := o.regions.find? (·.base = base)

def erase (o : Objects) (base : Addr) : Objects := ⟨o.regions.filter (·.base ≠ base)⟩

/-- The object that `ptr` points into. -/
def containing? (o : Objects) (ptr : Addr) : Option Region :=
  (o.regions.find? (·.base.val ≤ ptr.val)).filter (·.contains ptr)

/-- No base occurs twice, and bases descend. -/
def Descending (o : Objects) : Prop := o.regions.Pairwise fun r s => s.base.val < r.base.val

theorem mem_insertInto {r s : Region} {rs : List Region} (h : s ∈ insertInto r rs) :
    s = r ∨ s ∈ rs := by
  induction rs with
  | nil => exact Or.inl (List.mem_singleton.mp h)
  | cons q rest ih =>
    rw [insertInto] at h
    split at h
    · rcases List.mem_cons.mp h with rfl | h
      · exact Or.inl rfl
      · exact Or.inr (List.mem_cons_of_mem _ h)
    · split at h
      · rcases List.mem_cons.mp h with rfl | h
        · exact Or.inl rfl
        · exact Or.inr h
      · rcases List.mem_cons.mp h with rfl | h
        · exact Or.inr (List.mem_cons_self ..)
        · exact (ih h).imp_right (List.mem_cons_of_mem _)

theorem pairwise_insertInto {r : Region} {rs : List Region}
    (h : rs.Pairwise fun r s => s.base.val < r.base.val) :
    (insertInto r rs).Pairwise fun r s => s.base.val < r.base.val := by
  induction rs with
  | nil => exact List.pairwise_singleton ..
  | cons q rest ih =>
    obtain ⟨hq, hrest⟩ := List.pairwise_cons.mp h
    rw [insertInto]
    split
    · rename_i hb
      exact List.pairwise_cons.mpr ⟨fun s hs => hb ▸ hq s hs, hrest⟩
    · split
      · rename_i hlt
        refine List.pairwise_cons.mpr ⟨?_, h⟩
        intro s hs
        rcases List.mem_cons.mp hs with rfl | hs
        · exact hlt
        · exact UInt64.lt_trans (hq s hs) hlt
      · rename_i hne hlt
        refine List.pairwise_cons.mpr ⟨?_, ih hrest⟩
        intro s hs
        rcases mem_insertInto hs with rfl | hs
        · have hne' : q.base.val ≠ s.base.val := fun e => hne (by
            cases hqb : q.base; cases hsb : s.base; simp_all)
          exact UInt64.lt_of_le_of_ne (UInt64.not_lt.mp hlt) (Ne.symm hne')
        · exact hq s hs

theorem descending_insert {o : Objects} (h : o.Descending) (r : Region) :
    (o.insert r).Descending := pairwise_insertInto h

theorem descending_erase {o : Objects} (h : o.Descending) (base : Addr) :
    (o.erase base).Descending := List.Pairwise.filter _ h

theorem contains_of_containing? {o : Objects} {ptr : Addr} {r : Region}
    (h : o.containing? ptr = some r) : r ∈ o.regions ∧ r.contains ptr = true := by
  rw [containing?, Option.filter_eq_some_iff] at h
  exact ⟨List.mem_of_find?_eq_some h.1, h.2⟩

end Objects

end StoreBuffer
