import MacroAssembler.Bindings

/-!
# What is bound

To bind a key changes what is found under that key and nothing else. After several entries are
bound, one after the other, the last entry of a key counts (`get?_setAll`), and no key stands in the
bindings twice (`nodup_keys_setAll`).
-/

namespace MacroAssembler.Bindings

variable {Key Value : Type} [DecidableEq Key] {b : Bindings Key Value} {key key' : Key}
  {value : Value} {entries entries' : List (Key × Value)}

/-- The keys that are bound, in the order in which they were first bound. -/
def keys (b : Bindings Key Value) : List Key := b.map Prod.fst

/-! ## One entry -/

theorem mem_keys_set : key' ∈ (b.set key value).keys ↔ key' = key ∨ key' ∈ b.keys := by
  induction b with
  | nil => simp [set, keys]
  | cons entry rest ih =>
      unfold set
      by_cases hentry : entry.1 = key
      · subst hentry
        simp [keys]
      · simp only [if_neg hentry, keys, List.map_cons, List.mem_cons] at ih ⊢
        rw [ih]
        exact or_left_comm

theorem nodup_keys_set (h : b.keys.Nodup) : (b.set key value).keys.Nodup := by
  induction b with
  | nil => simp [set, keys]
  | cons entry rest ih =>
      obtain ⟨hentry, hrest⟩ := List.nodup_cons.1 h
      unfold set
      by_cases heq : entry.1 = key
      · rw [if_pos heq, ← heq]
        exact h
      · rw [if_neg heq]
        refine List.nodup_cons.2 ⟨fun hmem => ?_, ih hrest⟩
        exact (mem_keys_set.1 hmem).elim heq hentry

/-! ## Several entries -/

/-- Bind several entries, one after the other. -/
def setAll (b : Bindings Key Value) (entries : List (Key × Value)) : Bindings Key Value :=
  entries.foldl (fun b entry => b.set entry.1 entry.2) b

/-- The values that entries have for a key, in order. -/
def valuesOf (entries : List (Key × Value)) (key : Key) : List Value :=
  entries.filterMap fun entry => if entry.1 = key then some entry.2 else none

theorem setAll_setAll : (b.setAll entries).setAll entries' = b.setAll (entries ++ entries') :=
  List.foldl_append.symm

/-- The last entry of a key counts, and without one what was bound before. -/
theorem get?_setAll :
    (b.setAll entries).get? key = ((valuesOf entries key).getLast?).or (b.get? key) := by
  induction entries generalizing b with
  | nil => simp [setAll, valuesOf]
  | cons entry rest ih =>
      have hstep : (b.setAll (entry :: rest)).get? key =
          ((valuesOf rest key).getLast?).or ((b.set entry.1 entry.2).get? key) := ih
      rw [hstep, get?_set]
      by_cases hentry : entry.1 = key
      · simp [valuesOf, hentry, List.getLast?_cons, Option.or_some]
      · simp [valuesOf, hentry]

theorem mem_keys_setAll :
    key ∈ (b.setAll entries).keys ↔ key ∈ b.keys ∨ key ∈ entries.map Prod.fst := by
  induction entries generalizing b with
  | nil => simp [setAll]
  | cons entry rest ih =>
      have hstep : key ∈ (b.setAll (entry :: rest)).keys ↔
          key ∈ (b.set entry.1 entry.2).keys ∨ key ∈ rest.map Prod.fst := ih
      rw [hstep, mem_keys_set, List.map_cons, List.mem_cons, or_assoc, or_left_comm]

theorem nodup_keys_setAll (h : b.keys.Nodup) : (b.setAll entries).keys.Nodup := by
  induction entries generalizing b with
  | nil => exact h
  | cons entry rest ih => exact ih (nodup_keys_set h)

theorem valuesOf_append :
    valuesOf (entries ++ entries') key = valuesOf entries key ++ valuesOf entries' key :=
  List.filterMap_append

/-- Entries that are left out by their keys do not matter to a key that is kept. -/
theorem valuesOf_filter {f : Key → Bool} (h : f key = true) :
    valuesOf (entries.filter fun entry => f entry.1) key = valuesOf entries key := by
  unfold valuesOf
  rw [List.filterMap_filter]
  congr 1
  funext entry
  by_cases hentry : entry.1 = key <;> simp [hentry, h]

/-- Entries have no value for a key that is not theirs. -/
theorem valuesOf_eq_nil (h : key ∉ entries.map Prod.fst) : valuesOf entries key = [] := by
  refine List.filterMap_eq_nil_iff.2 fun entry hentry => if_neg ?_
  rintro rfl
  exact h (List.mem_map_of_mem hentry)

/-- Entries with different keys have one value for each. -/
theorem valuesOf_of_nodup (h : (entries.map Prod.fst).Nodup) (hmem : (key, value) ∈ entries) :
    valuesOf entries key = [value] := by
  obtain ⟨before, after, rfl⟩ := List.append_of_mem hmem
  simp only [List.map_append, List.map_cons] at h
  have hbefore : key ∉ before.map Prod.fst := fun hkey =>
    (List.nodup_append.1 h).2.2 key hkey key List.mem_cons_self rfl
  have hafter : key ∉ after.map Prod.fst := (List.nodup_cons.1 (List.nodup_append.1 h).2.1).1
  have hnil := valuesOf_eq_nil hbefore
  have hnil' := valuesOf_eq_nil hafter
  unfold valuesOf at hnil hnil' ⊢
  simp [hnil, hnil']

end MacroAssembler.Bindings
