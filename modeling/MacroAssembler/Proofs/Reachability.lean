import Mathlib.Data.Fintype.Card
import Mathlib.Data.List.Chain
import Mathlib.Data.Set.Finite.Basic
import Mathlib.Logic.Relation
import MacroAssembler.Reachability

/-!
# Reachability

What the search in a finite graph finds: only nodes that can be reached (`mem_reachFrom`), and all
of them that lie in the list it may visit (`subset_reachFrom`, `reachFrom_closed`). In a finite
graph every walk from a node ends, or a cycle can be reached (`acc_or_cycle`). A path lists the
states that steps lead through (`Path`).
-/

namespace MacroAssembler

open Relation (ReflTransGen TransGen)

variable {α : Type}

section Search

variable [DecidableEq α] {next : α → List α}

/-- A node that the search finds can be reached from a pending one, and may be visited. -/
theorem mem_reachFrom {unvisited pending : List α} {a : α}
    (h : a ∈ reachFrom next unvisited pending) :
    a ∈ unvisited ∧ ∃ p ∈ pending, ReflTransGen (fun a b => b ∈ next a) p a := by
  induction unvisited, pending using reachFrom.induct next with
  | case1 unvisited => simp [reachFrom] at h
  | case2 unvisited b pending hb ih =>
      rw [reachFrom, dif_pos hb] at h
      rcases List.mem_cons.1 h with rfl | h
      · exact ⟨hb, a, List.mem_cons_self, .refl⟩
      · obtain ⟨ha, p, hp, hpath⟩ := ih h
        refine ⟨List.mem_of_mem_erase ha, ?_⟩
        rcases List.mem_append.1 hp with hp | hp
        · exact ⟨b, List.mem_cons_self, .head hp hpath⟩
        · exact ⟨p, List.mem_cons_of_mem _ hp, hpath⟩
  | case3 unvisited b pending hb ih =>
      rw [reachFrom, dif_neg hb] at h
      obtain ⟨ha, p, hp, hpath⟩ := ih h
      exact ⟨ha, p, List.mem_cons_of_mem _ hp, hpath⟩

/-- The search finds every pending node it may visit. -/
theorem subset_reachFrom {unvisited pending : List α} {a : α} (hp : a ∈ pending)
    (ha : a ∈ unvisited) : a ∈ reachFrom next unvisited pending := by
  induction unvisited, pending using reachFrom.induct next with
  | case1 unvisited => simp at hp
  | case2 unvisited b pending hb ih =>
      rw [reachFrom, dif_pos hb]
      by_cases hab : a = b
      · exact hab ▸ List.mem_cons_self
      · have hmem : a ∈ pending := (List.mem_cons.1 hp).resolve_left hab
        exact List.mem_cons_of_mem _
          (ih (List.mem_append_right _ hmem) ((List.mem_erase_of_ne hab).2 ha))
  | case3 unvisited b pending hb ih =>
      rw [reachFrom, dif_neg hb]
      rcases List.mem_cons.1 hp with rfl | hp
      · exact absurd ha hb
      · exact ih hp ha

/-- The search goes on from every node it finds. -/
theorem reachFrom_closed {unvisited pending : List α} {a b : α}
    (ha : a ∈ reachFrom next unvisited pending) (hab : b ∈ next a) (hb : b ∈ unvisited) :
    b ∈ reachFrom next unvisited pending := by
  induction unvisited, pending using reachFrom.induct next with
  | case1 unvisited => simp [reachFrom] at ha
  | case2 unvisited c pending hc ih =>
      rw [reachFrom, dif_pos hc] at ha ⊢
      by_cases hbc : b = c
      · exact hbc ▸ List.mem_cons_self
      · have hunvisited := (List.mem_erase_of_ne hbc).2 hb
        refine List.mem_cons_of_mem _ ?_
        rcases List.mem_cons.1 ha with rfl | ha
        · exact subset_reachFrom (List.mem_append_left _ hab) hunvisited
        · exact ih ha hunvisited
  | case3 unvisited c pending hc ih =>
      rw [reachFrom, dif_neg hc] at ha ⊢
      exact ih ha hb

end Search

/-- If the edges of a graph lead to finitely many nodes, then every walk from a node ends, or the
node reaches a cycle. -/
theorem acc_or_cycle {r : α → α → Prop} (nodes : List α) (h : ∀ a b, r a b → b ∈ nodes) (a : α) :
    Acc (flip r) a ∨ ∃ b, ReflTransGen r a b ∧ TransGen r b b := by
  by_cases hcycle : ∃ b, ReflTransGen r a b ∧ TransGen r b b
  · exact .inr hcycle
  refine .inl ?_
  -- the nodes behind `a` are finitely many, and no path leads from one of them to itself
  let Behind := { b // b ∈ nodes ∧ ReflTransGen r a b }
  have hfinite : Finite Behind :=
    ((List.finite_toSet nodes).subset fun b (hb : b ∈ nodes ∧ ReflTransGen r a b) => hb.1)
  let path (b c : Behind) : Prop := TransGen r c.1 b.1
  have htrans : IsTrans Behind path := ⟨fun b c d hbc hcd => hcd.trans hbc⟩
  have hirrefl : Std.Irrefl path := ⟨fun b hb => hcycle ⟨b.1, b.2.2, hb⟩⟩
  have hwf : WellFounded path := Finite.wellFounded_of_trans_of_irrefl path
  have hbehind (b : Behind) : Acc (flip r) b.1 := by
    induction b using hwf.induction with
    | _ b ih =>
        refine ⟨_, fun c (hbc : r b.1 c) => ?_⟩
        exact ih ⟨c, h _ _ hbc, b.2.2.tail hbc⟩ (.single hbc)
  exact ⟨_, fun b (hab : r a b) => hbehind ⟨b, h _ _ hab, .single hab⟩⟩

/-- A node from which every walk ends lies on no cycle, and reaches none. -/
theorem not_cycle_of_acc {r : α → α → Prop} {a b : α} (h : Acc (flip r) a)
    (hpath : ReflTransGen r a b) : ¬ TransGen r b b := by
  have hacc : Acc (flip r) b := by
    induction hpath with
    | refl => exact h
    | tail _ hstep ih => exact ih.inv hstep
  induction hacc with
  | intro b _ ih =>
      intro hcycle
      obtain ⟨c, hbc, hcb⟩ := TransGen.head'_iff.1 hcycle
      exact ih c hbc (hpath.tail hbc) (.tail' hcb hbc)

/-- Edges that are added at one node close no cycle if no old path leads from where one of them
ends back to that node. -/
theorem transGen_of_added {r r' : α → α → Prop} {d : α} (ends : α → Prop)
    (hadded : ∀ a b, r' a b → r a b ∨ a = d ∧ ends b)
    (hends : ∀ b, ends b → ¬ ReflTransGen r b d) {a : α} (h : TransGen r' a a) :
    TransGen r a a := by
  -- a path is old, or leads to `d` by old edges and goes on from the end of an added one
  have hpath {b c : α} (h : ReflTransGen r' b c) :
      ReflTransGen r b c ∨ ReflTransGen r b d ∧ ∃ e, ends e ∧ ReflTransGen r e c := by
    induction h with
    | refl => exact .inl .refl
    | tail _ hlast ih =>
        rcases hadded _ _ hlast with hold | ⟨rfl, hnew⟩
        · exact ih.imp (·.tail hold) fun ⟨hbd, e, he, hec⟩ => ⟨hbd, e, he, hec.tail hold⟩
        · exact .inr ⟨ih.elim id And.left, _, hnew, .refl⟩
  obtain ⟨b, hab, hba⟩ := TransGen.head'_iff.1 h
  rcases hadded a b hab with hold | ⟨rfl, hnew⟩
  · rcases hpath hba with hba | ⟨hbd, e, he, hea⟩
    · exact .head' hold hba
    · exact absurd ((hea.tail hold).trans hbd) (hends e he)
  · exact absurd ((hpath hba).elim id And.left) (hends b hnew)

/-! ## Paths -/

/-- Steps of a relation lead from one state to another, through the listed ones. -/
inductive Path (r : α → α → Prop) : α → List α → α → Prop where
  | nil (a : α) : Path r a [] a
  | cons {a b c : α} {bs : List α} : r a b → Path r b bs c → Path r a (b :: bs) c

namespace Path

variable {r : α → α → Prop} {a b c : α} {as bs : List α}

/-- A path in two parts. -/
theorem append (h : Path r a as b) (h' : Path r b bs c) : Path r a (as ++ bs) c := by
  induction h with
  | nil => exact h'
  | cons hfirst _ ih => exact .cons hfirst (ih h')

/-- From one state of a path to the next there is a step. -/
theorem isChain (h : Path r a as b) : (a :: as).IsChain r := by
  induction h with
  | nil a => exact .singleton a
  | cons hfirst _ ih => exact .cons_cons hfirst ih

/-- A path leads to its last state. -/
theorem getLast (h : Path r a as b) : (a :: as).getLast (List.cons_ne_nil _ _) = b := by
  induction h with
  | nil => rfl
  | cons _ _ ih => rw [List.getLast_cons_cons, ih]

end Path

end MacroAssembler
