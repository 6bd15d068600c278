/-!
# Search in a finite graph

The nodes that can be reached from others along the edges of a graph, which is given by the
successors of each node. The search keeps a list of nodes it has not visited yet; a node outside
that list is passed over, so that the search ends whatever the edges are.
-/

namespace MacroAssembler

/-- The nodes of `unvisited` that a search finds which still has to follow up `pending`. -/
def reachFrom {α : Type} [DecidableEq α] (next : α → List α) (unvisited : List α) :
    (pending : List α) → List α
  | [] => []
  | a :: pending =>
      if _h : a ∈ unvisited then
        a :: reachFrom next (unvisited.erase a) (next a ++ pending)
      else reachFrom next unvisited pending
  termination_by pending => (unvisited.length, pending.length)
  decreasing_by
    · have := List.length_erase_of_mem _h
      have := List.length_pos_of_mem _h
      exact Prod.Lex.left _ _ (by omega)
    · exact Prod.Lex.right _ (by simp)

end MacroAssembler
