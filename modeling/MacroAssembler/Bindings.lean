/-!
# Bindings

Values bound to keys, in the order in which the keys were first bound. Binding a key again
replaces its value.
-/

namespace MacroAssembler

/-- Values by their keys. -/
abbrev Bindings (Key Value : Type) := List (Key × Value)

namespace Bindings

variable {Key Value : Type} [DecidableEq Key]

/-- The value bound to a key. -/
def get? (b : Bindings Key Value) (key : Key) : Option Value :=
  (b.find? fun entry => entry.1 == key).map Prod.snd

/-- A value is bound to the key. -/
def binds (b : Bindings Key Value) (key : Key) : Bool := (b.get? key).isSome

/-- Bind a value to a key. -/
def set (b : Bindings Key Value) (key : Key) (value : Value) : Bindings Key Value :=
  match b with
  | [] => [(key, value)]
  | entry :: rest =>
      if entry.1 = key then (key, value) :: rest else entry :: Bindings.set rest key value

variable {b : Bindings Key Value} {key key' : Key} {value : Value}

/-- The first entry of a key counts. -/
theorem get?_cons (entry : Key × Value) (b : Bindings Key Value) (key : Key) :
    Bindings.get? (entry :: b) key = if entry.1 = key then some entry.2 else b.get? key := by
  by_cases h : entry.1 = key <;> simp [get?, h]

/-- A key that is bound has the value, and the others have what they had. -/
theorem get?_set :
    (b.set key value).get? key' = if key = key' then some value else b.get? key' := by
  induction b with
  | nil => exact get?_cons (key, value) [] key'
  | cons entry rest ih =>
      unfold set
      by_cases hentry : entry.1 = key
      · subst hentry
        simp only [if_true, get?_cons]
        split <;> rfl
      · rw [if_neg hentry, get?_cons, get?_cons, ih]
        by_cases hkey : key = key'
        · subst hkey
          simp [hentry]
        · simp [hkey]

end Bindings

end MacroAssembler
