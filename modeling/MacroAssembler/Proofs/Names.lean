import MacroAssembler.Names

/-!
# Growing name tables

A name table only grows: a number keeps its name, and a name keeps its number. What carries this is
that the parts of a table are inverse to each other, so that a number that is found under a name is
read as that name.
-/

namespace MacroAssembler

namespace NameStore

variable {t : NameStore} {name : String} {id : NameId}

/-- Inserting a known name changes nothing. -/
theorem insert_of_find? (h : t.find? name = some id) : t.insert name = (id, t) := by
  simp [insert, h]

/-- An inserted name is found under the number that the insertion answers with. -/
theorem find?_insert (t : NameStore) (name : String) :
    (t.insert name).2.find? name = some (t.insert name).1 := by
  cases h : t.find? name with
  | some id => simp [insert, h]
  | none =>
      rw [find?_insert_of_none h, if_pos rfl]
      simp [insert, h]

/-- A name is added at the end if it is not there. -/
theorem Inverse.names_insert (h : t.Inverse) (name : String) :
    (t.insert name).2.names = if name ∈ t.names then t.names else t.names ++ [name] := by
  cases hfind : t.find? name with
  | some id =>
      have hmem : name ∈ t.names := List.mem_of_getElem? ((h name id).1 hfind)
      rw [insert_of_find? hfind, if_pos hmem]
  | none =>
      have hnot : name ∉ t.names := fun hmem => by
        obtain ⟨i, hi⟩ := List.getElem?_of_mem hmem
        have hfound : t.find? name = some ⟨i⟩ := (h name ⟨i⟩).2 hi
        rw [hfind] at hfound
        cases hfound
      simp [NameStore.insert, hfind, hnot]

/-- A name table is as good as the list of its names: a name has the number of its first place
there. -/
theorem Inverse.find?_eq (h : t.Inverse) (name : String) :
    t.find? name = (t.names.idxOf? name).map NameId.mk := by
  cases hfirst : t.names.idxOf? name with
  | some i =>
      obtain ⟨hlt, hat, -⟩ := List.idxOf?_eq_some_iff.1 hfirst
      exact (h name ⟨i⟩).2 (List.getElem?_eq_some_iff.2 ⟨hlt, hat⟩)
  | none =>
      refine Option.eq_none_iff_forall_ne_some.2 fun id hfind => ?_
      have hmem : name ∈ t.names := List.mem_of_getElem? ((h name id).1 hfind)
      exact List.idxOf?_eq_none_iff.1 hfirst hmem

end NameStore

namespace NameTable

/-- The second table has all names of the first, under the same numbers. -/
structure Grows (t t' : NameTable) : Prop where
  names : t.names <+: t'.names

variable {t t' t'' : NameTable} {name name' : String} {id : NameId}

/-- The number of a known name has that name. -/
theorem get?_of_find? (h : t.find? name = some id) : t.get? id = some name :=
  (t.inverse name id).1 h

/-- The number of a known name is in use. -/
theorem lt_size_of_find? (h : t.find? name = some id) : id.index < t.size :=
  (List.getElem?_eq_some_iff.1 (get?_of_find? h)).1

/-- The text of the number of a known name is that name. -/
theorem nameOf_of_find? (h : t.find? name = some id) : t.nameOf id = name := by
  simp [NameStore.nameOf, get?_of_find? h]

/-- Two names with one number are the same name. -/
theorem eq_of_find? (h : t.find? name = some id) (h' : t.find? name' = some id) : name = name' := by
  rw [← nameOf_of_find? h, nameOf_of_find? h']

namespace Grows

theorem refl (t : NameTable) : t.Grows t := ⟨List.prefix_rfl⟩

theorem trans (h : t.Grows t') (h' : t'.Grows t'') : t.Grows t'' := ⟨h.names.trans h'.names⟩

/-- A number stays in use. -/
theorem lt_size (h : t.Grows t') (hid : id.index < t.size) : id.index < t'.size :=
  Nat.lt_of_lt_of_le hid h.names.length_le

/-- A number keeps its name. -/
theorem get? (h : t.Grows t') (hid : t.get? id = some name) : t'.get? id = some name := by
  obtain ⟨rest, hrest⟩ := h.names
  have hlt : id.index < t.names.length := (List.getElem?_eq_some_iff.1 hid).1
  rw [NameStore.get?, ← hrest, List.getElem?_append_left hlt]
  exact hid

/-- A number that is in use keeps its text. -/
theorem nameOf (h : t.Grows t') (hid : id.index < t.size) : t'.nameOf id = t.nameOf id := by
  have hget : t.get? id = some t.names[id.index] := List.getElem?_eq_getElem hid
  simp [NameStore.nameOf, hget, h.get? hget]

/-- A name keeps its number. -/
theorem find? (h : t.Grows t') (hname : t.find? name = some id) : t'.find? name = some id :=
  (t'.inverse name id).2 (h.get? (get?_of_find? hname))

end Grows

/-- Inserting a name lets a table grow. -/
theorem insert_grows (t : NameTable) (name : String) : t.Grows (t.insert name).2 := by
  have hnames : (t.insert name).2.names = if name ∈ t.names then t.names else t.names ++ [name] :=
    t.inverse.names_insert name
  refine ⟨?_⟩
  rw [hnames]
  split
  · exact List.prefix_rfl
  · exact List.prefix_append _ _

/-- An inserted name is known. -/
theorem find?_insert (t : NameTable) (name : String) :
    (t.insert name).2.find? name = some (t.insert name).1 :=
  t.toNameStore.find?_insert name

/-- The number that an insertion answers with has the inserted name. -/
theorem get?_insert (t : NameTable) (name : String) :
    (t.insert name).2.get? (t.insert name).1 = some name :=
  get?_of_find? (t.find?_insert name)

/-- Inserting a known name changes nothing. -/
theorem insert_of_find? (h : t.find? name = some id) : t.insert name = (id, t) := by
  simp [insert, NameStore.insert_of_find? h]

/-- The table of names that are inserted one after the other. -/
def ofList (names : List String) : NameTable := names.foldl (fun t name => (t.insert name).2) {}

end NameTable

end MacroAssembler
