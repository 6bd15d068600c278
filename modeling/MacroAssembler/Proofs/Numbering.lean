import MacroAssembler.Proofs.Names

/-!
# The numbering of names

Names that are inserted one after the other into a new store are numbered in the order of their
first insertions, and from then on a name and its number stand for each other
(`insertEach_bijective`). The number is found in one part of the store and the name is read in the
other; each insertion keeps the parts inverse to each other, and so does a run of them.
-/

namespace MacroAssembler.NameStore

variable {t t' : NameStore} {name name' : String} {id id' : NameId}

/-! ## Names and numbers -/

theorem get_eq_ok_iff : t.get id = .ok name ↔ t.get? id = some name := by
  unfold get
  cases t.get? id <;> simp

/-- A name is found under every number that it has. -/
theorem Inverse.find?_eq_some_iff (h : t.Inverse) :
    t.find? name = some id ↔ t.get id = .ok name :=
  (h name id).trans get_eq_ok_iff.symm

/-- A number that is read keeps its name when names are added behind the others. -/
theorem get_of_prefix (h : t.names <+: t'.names) (hid : t.get id = .ok name) :
    t'.get id = .ok name := by
  rw [get_eq_ok_iff] at hid ⊢
  obtain ⟨rest, hrest⟩ := h
  have hlt : id.index < t.names.length := (List.getElem?_eq_some_iff.1 hid).1
  rw [get?, ← hrest, List.getElem?_append_left hlt]
  exact hid

/-- Numbers are equal just if their names are, also if one of them was read before names were
added. -/
theorem Inverse.eq_iff (ht' : t'.Inverse) (h : t.names <+: t'.names) (hid : t.get id = .ok name)
    (hid' : t'.get id' = .ok name') : id = id' ↔ name = name' := by
  have hread := get_of_prefix h hid
  have hfind := ht'.find?_eq_some_iff.2 hread
  have hfind' := ht'.find?_eq_some_iff.2 hid'
  constructor
  · rintro rfl
    exact Except.ok.inj (hread.symm.trans hid')
  · rintro rfl
    exact Option.some.inj (hfind.symm.trans hfind')

/-! ## Insertions one after the other -/

/-- The numbers that a list of insertions answers with, and the store behind them. -/
def insertEach (t : NameStore) : List String → List NameId × NameStore
  | [] => ([], t)
  | name :: names =>
      let (id, t) := t.insert name
      let (ids, t) := t.insertEach names
      (id :: ids, t)

/-- A list of insertions keeps the parts of a store inverse to each other. -/
theorem Inverse.insertEach (h : t.Inverse) (names : List String) :
    (t.insertEach names).2.Inverse := by
  induction names generalizing t with
  | nil => exact h
  | cons name names ih => exact ih (h.insert name)

/-- The names of a store are followed by those that it did not have, each at its first place. -/
theorem Inverse.names_insertEach (h : t.Inverse) (names : List String) :
    (t.insertEach names).2.names = t.names ++ (names.removeAll t.names).eraseDups := by
  induction names generalizing t with
  | nil => simp [NameStore.insertEach]
  | cons name names ih =>
      show ((t.insert name).2.insertEach names).2.names = _
      rw [ih (h.insert name), h.names_insert, List.cons_removeAll]
      by_cases hmem : name ∈ t.names
      · simp [hmem]
      · have hrest : names.removeAll (t.names ++ [name]) =
            (names.removeAll t.names).filter fun other => !other == name := by
          rw [List.removeAll, List.removeAll, List.filter_filter]
          exact List.filter_congr fun other _ => by grind
        simp [hmem, hrest, List.eraseDups_cons]

/-- A list of insertions adds names behind those of a store. -/
theorem Inverse.names_prefix (h : t.Inverse) (names : List String) :
    t.names <+: (t.insertEach names).2.names := by
  rw [h.names_insertEach]
  exact List.prefix_append _ _

/-- A name that was found keeps its number. -/
theorem Inverse.find?_insertEach (h : t.Inverse) (names : List String)
    (hfind : t.find? name = some id) : (t.insertEach names).2.find? name = some id := by
  rw [(h.insertEach names).find?_eq_some_iff]
  exact get_of_prefix (h.names_prefix names) (h.find?_eq_some_iff.1 hfind)

/-- Every insertion answers with the number under which its name is found in the end. -/
theorem Inverse.answers_insertEach (h : t.Inverse) (names : List String) :
    (t.insertEach names).1.map some = names.map (t.insertEach names).2.find? := by
  induction names generalizing t with
  | nil => rfl
  | cons name names ih =>
      have hlater : ((t.insert name).2.insertEach names).2.find? name = some (t.insert name).1 :=
        (h.insert name).find?_insertEach names (t.find?_insert name)
      show some (t.insert name).1 :: ((t.insert name).2.insertEach names).1.map some =
        ((t.insert name).2.insertEach names).2.find? name ::
          names.map ((t.insert name).2.insertEach names).2.find?
      rw [hlater, ih (h.insert name)]

/-- Insertions into a new store number the different names from 0 on, in the order in which they
first came, and each of them answers with the number of its name. The search in the one part of the
store and the reading in the other undo each other; the insertion of a name that came before answers
with its number and leaves the store as it is. Whatever is inserted later, a name that was found
keeps its number and a number that was read keeps its name, so numbers are equal just if their names
are. The numbers of up to 2 ^ 32 names stay the same when they are cut to 32 bits. -/
theorem insertEach_bijective (names later : List String) :
    let ids := (insertEach {} names).1
    let t := (insertEach {} names).2
    let t' := (t.insertEach later).2
    t.size = names.eraseDups.length ∧
    (∀ id name, t.get id = .ok name ↔ names.eraseDups[id.index]? = some name) ∧
    (∀ name, t.find? name = (names.eraseDups.idxOf? name).map NameId.mk) ∧
    ids.map some = names.map t.find? ∧
    (∀ id name, t.find? name = some id ↔ t.get id = .ok name) ∧
    (∀ name ∈ names, ∃ id, t.find? name = some id ∧ t.insert name = (id, t)) ∧
    (∀ id name, t.find? name = some id → t'.find? name = some id) ∧
    (∀ id name, t.get id = .ok name → t'.get id = .ok name) ∧
    (∀ id id' name name', t.get id = .ok name → t'.get id' = .ok name' →
      (id = id' ↔ name = name')) ∧
    (t.size ≤ UInt32.size → ∀ id name, t.get id = .ok name →
      id.index.toUInt32.toNat = id.index) := by
  intro ids t t'
  have hinverse : t.Inverse := Inverse.empty.insertEach names
  have hnames : t.names = names.eraseDups := by simpa using Inverse.empty.names_insertEach names
  have hprefix : t.names <+: t'.names := hinverse.names_prefix later
  refine ⟨congrArg List.length hnames, fun id name => ?_, fun name => ?_,
    Inverse.empty.answers_insertEach names, fun id name => hinverse.find?_eq_some_iff,
    fun name hname => ?_, fun id name => hinverse.find?_insertEach later,
    fun id name => get_of_prefix hprefix,
    fun id id' name name' => (hinverse.insertEach later).eq_iff hprefix,
    fun hsize id name hget => ?_⟩
  · rw [get_eq_ok_iff, get?, hnames]
  · rw [hinverse.find?_eq, hnames]
  · have hmem : name ∈ t.names := hnames ▸ List.mem_eraseDups.2 hname
    obtain ⟨i, hi⟩ := List.getElem?_of_mem hmem
    have hfind : t.find? name = some ⟨i⟩ := (hinverse name ⟨i⟩).2 hi
    exact ⟨⟨i⟩, hfind, insert_of_find? hfind⟩
  · have hlt : id.index < t.size := (List.getElem?_eq_some_iff.1 (get_eq_ok_iff.1 hget)).1
    exact UInt32.toNat_ofNat_of_lt' (Nat.lt_of_lt_of_le hlt hsize)

/-- Two names that come again, and one that differs from the first in letter case only. -/
theorem insertEach_bijective_repeated :
    let t := (insertEach {} ["LOOP", "é", "LOOP", "loop", "é"]).2
    let t' := (t.insertEach ["B", "loop"]).2
    t.find? "é" = some ⟨1⟩ ∧ t.insert "é" = (⟨1⟩, t) ∧ t'.find? "é" = some ⟨1⟩ ∧
    t.get ⟨0⟩ = .ok "LOOP" ∧ t'.get ⟨0⟩ = .ok "LOOP" ∧ t'.get ⟨2⟩ = .ok "loop" ∧
    ((⟨0⟩ : NameId) = ⟨2⟩ ↔ "LOOP" = "loop") := by
  intro t t'
  obtain ⟨-, -, -, -, -, hinsert, hfind, hget, heq, -⟩ :=
    insertEach_bijective ["LOOP", "é", "LOOP", "loop", "é"] ["B", "loop"]
  have hfound : t.find? "é" = some ⟨1⟩ := by decide
  have hread : t.get ⟨0⟩ = .ok "LOOP" := rfl
  have hread' : t'.get ⟨2⟩ = .ok "loop" := rfl
  obtain ⟨id, hid, hsame⟩ := hinsert "é" (by simp)
  obtain rfl : id = ⟨1⟩ := Option.some.inj (hid.symm.trans hfound)
  exact ⟨hfound, hsame, hfind _ _ hfound, hread, hget _ _ hread, hread',
    heq _ _ _ _ hread hread'⟩

end MacroAssembler.NameStore
