import MacroAssembler.Bindings

/-!
# The name table

Every name an assembly meets gets a number, in the order of first insertion. The number stands
for the name from then on: equal names have equal numbers, and a number keeps its name.

The numbers of the names and the names of the numbers are kept apart, and insertion changes the
one after the other. It keeps each the inverse of the other (`NameStore.Inverse.insert`).
-/

namespace MacroAssembler

/-- The number of a name. -/
structure NameId where
  index : Nat
  deriving DecidableEq, Inhabited

/-- A number that no name has. -/
structure UnknownName where
  id : NameId
  deriving DecidableEq

/-- The text of the failure. -/
def UnknownName.message (e : UnknownName) : String :=
  "StringId " ++ toString e.id.index ++ " Not Found"

/-- The names met so far, kept twice: by name, and by number. -/
structure NameStore where
  /-- The numbers of the names. -/
  numbers : Bindings String NameId := []
  /-- The names in the order of their numbers, which count from 0. -/
  names : List String := []
  deriving DecidableEq, Inhabited

namespace NameStore

/-- How many names are known. -/
def size (t : NameStore) : Nat := t.names.length

/-- The number of a name, if it is known. -/
def find? (t : NameStore) (name : String) : Option NameId := t.numbers.get? name

/-- The number of a name. A new name goes to the end of the names, and is bound to its place
there. -/
def insert (t : NameStore) (name : String) : NameId × NameStore :=
  match t.find? name with
  | some id => (id, t)
  | none =>
      let id : NameId := ⟨t.names.length⟩
      (id, { numbers := t.numbers.set name id, names := t.names ++ [name] })

/-- The name with a number. -/
def get? (t : NameStore) (id : NameId) : Option String := t.names[id.index]?

/-- The name with a number, or the failure that names the number. -/
def get (t : NameStore) (id : NameId) : Except UnknownName String :=
  match t.get? id with
  | some name => .ok name
  | none => .error ⟨id⟩

/-- The name with a number, or the number itself as text. -/
def nameOf (t : NameStore) (id : NameId) : String :=
  (t.get? id).getD (toString id.index)

/-- The two parts undo each other: a number is found under a name just if the name is read under
the number. -/
def Inverse (t : NameStore) : Prop :=
  ∀ (name : String) (id : NameId), t.find? name = some id ↔ t.get? id = some name

variable {t : NameStore} {name name' : String} {id : NameId}

/-- An insertion that adds a name binds it, and changes no other binding. -/
theorem find?_insert_of_none (hnew : t.find? name = none) :
    (t.insert name).2.find? name' =
      if name = name' then some ⟨t.names.length⟩ else t.find? name' := by
  unfold insert
  rw [hnew]
  exact Bindings.get?_set

/-- An insertion that adds a name puts it at the end. -/
theorem get?_insert_of_none (hnew : t.find? name = none) :
    (t.insert name).2.get? id =
      if id.index = t.names.length then some name else t.get? id := by
  unfold insert
  rw [hnew]
  show (t.names ++ [name])[id.index]? = _
  split
  · rename_i hlast
    rw [hlast, List.getElem?_concat_length]
  · rename_i hother
    rcases Nat.lt_or_gt_of_ne hother with hbefore | hbehind
    · exact List.getElem?_append_left hbefore
    · have hlong : (t.names ++ [name]).length ≤ id.index := by
        rwa [List.length_append, List.length_singleton]
      rw [get?, List.getElem?_eq_none hlong, List.getElem?_eq_none (Nat.le_of_lt hbehind)]

theorem Inverse.empty : Inverse {} := by
  intro name id
  simp [find?, get?, Bindings.get?]

/-- Insertion keeps the two parts inverse to each other. -/
theorem Inverse.insert (h : t.Inverse) (name : String) : (t.insert name).2.Inverse := by
  cases hfind : t.find? name with
  | some id =>
      have hsame : (t.insert name).2 = t := by simp [NameStore.insert, hfind]
      rw [hsame]
      exact h
  | none =>
      intro name' id
      rw [find?_insert_of_none hfind, get?_insert_of_none hfind]
      -- the number is the new one or not, and so is the name
      by_cases hid : id.index = t.names.length
      · have hunread : t.get? id = none := List.getElem?_eq_none (Nat.le_of_eq hid.symm)
        have hunfound : t.find? name' ≠ some id := by simp [h name' id, hunread]
        obtain rfl : id = ⟨t.names.length⟩ := congrArg NameId.mk hid
        by_cases hname : name = name' <;> simp [hname, hunfound]
      · have hother : NameId.mk t.names.length ≠ id := fun heq => hid (heq ▸ rfl)
        rw [if_neg hid]
        by_cases hname : name = name'
        · subst hname
          have hunread : t.get? id ≠ some name := by simp [← h name id, hfind]
          simp [hother, hunread]
        · rw [if_neg hname]
          exact h name' id

end NameStore

/-- A name store whose parts are inverse to each other. -/
structure NameTable extends NameStore where
  inverse : toNameStore.Inverse := by exact NameStore.Inverse.empty
  deriving DecidableEq

namespace NameTable

instance : Inhabited NameTable := ⟨{}⟩

/-- The number of a name, which is added at the end if it is new. -/
def insert (t : NameTable) (name : String) : NameId × NameTable :=
  ((t.toNameStore.insert name).1,
    { toNameStore := (t.toNameStore.insert name).2, inverse := t.inverse.insert name })

end NameTable

end MacroAssembler
