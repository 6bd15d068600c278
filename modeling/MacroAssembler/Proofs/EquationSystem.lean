import MacroAssembler.Proofs.Reachability
import MacroAssembler.Symbol.Expr

/-!
# Systems of equations

A system of equations lets names stand for expressions over names. In its least solution a name has
a value if all that its expression needs has one. A name has no value exactly if it needs, directly
or through other names, a name without an equation or a name that needs itself
(`exists_denotes_iff`).
-/

namespace MacroAssembler

open Relation (ReflTransGen TransGen)

/-- Names with the expressions that they stand for. -/
abbrev EquationSystem := List (String × OrdinaryExpr String)

namespace EquationSystem

/-- The value of an expression in the least solution of a system of equations. -/
inductive Denotes (equations : EquationSystem) : OrdinaryExpr String → Int32 → Prop where
  | constant (i : Int32) (r : Range) : Denotes equations (.constant i r) i
  | symbol {name : String} {e : OrdinaryExpr String} {i : Int32} (r : Range) :
      (name, e) ∈ equations → Denotes equations e i → Denotes equations (.symbol name r) i
  | negate {e : OrdinaryExpr String} {i : Int32} (r : Range) :
      Denotes equations e i → Denotes equations (.negate e r) (-i)
  | binary {left right : OrdinaryExpr String} {i j : Int32} (op : ArithmeticOp) (r : Range) :
      Denotes equations left i → Denotes equations right j →
      Denotes equations (.binary op left right r) (op.apply i j)

/-- The equation of the first name mentions the second. -/
def Needs (equations : EquationSystem) (name name' : String) : Prop :=
  ∃ e, (name, e) ∈ equations ∧ name' ∈ e.names

/-- The name needs, directly or through other names, a name without an equation or a name that
needs itself. -/
def Blocked (equations : EquationSystem) (name : String) : Prop :=
  ∃ name', ReflTransGen equations.Needs name name' ∧
    ((∀ e, (name', e) ∉ equations) ∨ TransGen equations.Needs name' name')

variable {equations : EquationSystem} {name : String} {e e' : OrdinaryExpr String} {i j : Int32}

section Distinct

variable (hdistinct : (equations.map Prod.fst).Nodup)
include hdistinct

/-- A name has one equation. -/
theorem eq_of_mem (h : (name, e) ∈ equations) (h' : (name, e') ∈ equations) : e = e' :=
  congrArg Prod.snd (List.inj_on_of_nodup_map hdistinct h h' rfl)

/-- An expression has one value. -/
theorem Denotes.unique (hi : equations.Denotes e i) (hj : equations.Denotes e j) : i = j := by
  induction hi generalizing j with
  | constant i r =>
      cases hj
      rfl
  | symbol r hmem _ ih =>
      cases hj with
      | symbol _ hmem' hj => exact ih (eq_of_mem hdistinct hmem hmem' ▸ hj)
  | negate r _ ih =>
      cases hj with
      | negate _ hj => rw [ih hj]
  | binary op r _ _ ihl ihr =>
      cases hj with
      | binary _ _ hl hr => rw [ihl hl, ihr hr]

/-- A name is blocked if its equation mentions a blocked name, and only then. -/
theorem blocked_iff (hmem : (name, e) ∈ equations) :
    equations.Blocked name ↔ ∃ name' ∈ e.names, equations.Blocked name' := by
  have hneeded {name' : String} (h : equations.Needs name name') : name' ∈ e.names := by
    obtain ⟨e', hmem', h⟩ := h
    rwa [eq_of_mem hdistinct hmem hmem']
  constructor
  · rintro ⟨last, hpath, hlast⟩
    rcases hpath.cases_head with rfl | ⟨next, hnext, hpath⟩
    · rcases hlast with hnone | hcycle
      · exact absurd hmem (hnone e)
      · obtain ⟨next, hnext, hback⟩ := TransGen.head'_iff.1 hcycle
        exact ⟨next, hneeded hnext, name, hback, .inr hcycle⟩
    · exact ⟨next, hneeded hnext, last, hpath, hlast⟩
  · rintro ⟨next, hnext, last, hpath, hlast⟩
    exact ⟨last, .head ⟨e, hmem, hnext⟩ hpath, hlast⟩

/-- What has a value mentions no blocked name. -/
theorem Denotes.not_blocked (hi : equations.Denotes e i) :
    ∀ name ∈ e.names, ¬ equations.Blocked name := by
  induction hi with
  | constant => simp [OrdinaryExpr.names]
  | symbol r hmem _ ih =>
      intro name hname hblocked
      obtain rfl := List.mem_singleton.1 hname
      obtain ⟨name', hname', hblocked'⟩ := (blocked_iff hdistinct hmem).1 hblocked
      exact ih name' hname' hblocked'
  | negate r _ ih => exact ih
  | binary op r _ _ ihl ihr =>
      exact fun name hname => (List.mem_append.1 hname).elim (ihl name) (ihr name)

omit hdistinct in
/-- An expression has a value if all names that it mentions have one. -/
theorem exists_denotes (h : ∀ name ∈ e.names, ∃ e' i, (name, e') ∈ equations ∧
    equations.Denotes e' i) : ∃ i, equations.Denotes e i := by
  induction e with
  | constant i r => exact ⟨i, .constant i r⟩
  | symbol name r =>
      obtain ⟨e', i, hmem, hi⟩ := h name (by simp [OrdinaryExpr.names])
      exact ⟨i, .symbol r hmem hi⟩
  | negate e r ih =>
      obtain ⟨i, hi⟩ := ih h
      exact ⟨-i, .negate r hi⟩
  | binary op left right r ihl ihr =>
      obtain ⟨i, hi⟩ := ihl fun name hname => h name (List.mem_append_left _ hname)
      obtain ⟨j, hj⟩ := ihr fun name hname => h name (List.mem_append_right _ hname)
      exact ⟨op.apply i j, .binary op r hi hj⟩

/-- A name has a value if it is not blocked. -/
theorem exists_denotes_of_not_blocked (h : ¬ equations.Blocked name) :
    ∃ e i, (name, e) ∈ equations ∧ equations.Denotes e i := by
  -- the needed names lie in finitely many equations, so without a cycle every walk ends
  have hfinite : ∀ a b, equations.Needs a b → b ∈ equations.flatMap fun p => p.2.names :=
    fun a b ⟨e, hmem, hb⟩ => List.mem_flatMap.2 ⟨(a, e), hmem, hb⟩
  have hacc : Acc (flip equations.Needs) name := by
    refine (acc_or_cycle _ hfinite name).resolve_right ?_
    exact fun ⟨name', hpath, hcycle⟩ => h ⟨name', hpath, .inr hcycle⟩
  induction hacc with
  | intro name _ ih =>
      have hequation : ∃ e, (name, e) ∈ equations := by
        by_contra hnone
        exact h ⟨name, .refl, .inl (not_exists.1 hnone)⟩
      obtain ⟨e, hmem⟩ := hequation
      obtain ⟨i, hi⟩ := exists_denotes fun name' hname' =>
        ih name' ⟨e, hmem, hname'⟩ fun hblocked =>
          h ((blocked_iff hdistinct hmem).2 ⟨name', hname', hblocked⟩)
      exact ⟨e, i, hmem, hi⟩

/-- A name has a value exactly if it is not blocked. -/
theorem exists_denotes_iff (hmem : (name, e) ∈ equations) :
    (∃ i, equations.Denotes e i) ↔ ¬ equations.Blocked name := by
  constructor
  · rintro ⟨i, hi⟩
    rw [blocked_iff hdistinct hmem]
    rintro ⟨name', hname', hblocked⟩
    exact hi.not_blocked hdistinct name' hname' hblocked
  · intro h
    obtain ⟨e', i, hmem', hi⟩ := exists_denotes_of_not_blocked hdistinct h
    exact ⟨i, eq_of_mem hdistinct hmem' hmem ▸ hi⟩

end Distinct

end EquationSystem

end MacroAssembler
