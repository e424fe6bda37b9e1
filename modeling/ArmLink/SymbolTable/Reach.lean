import ArmLink.SymbolTable.Containment

/-!
# Reachability

Only what the output needs is kept: the roots, and whatever a kept symbol refers to. A symbol
refers to the targets of its relocations, to the symbol that contains it, and to the symbols within
it, which are parts of its bytes.
-/

namespace ArmLink.SymbolTable

/-- The symbols that a symbol refers to. -/
def references (t : SymbolTable) (id : SymbolId) : List SymbolId :=
  let s := t.get id
  s.relocations.filterMap (·.target?) ++ (s.outer.map (·.symbol)).toList ++ t.subs id

/-- Marks the symbols of a worklist and all that they refer to. A symbol is taken from the list at
most once for each reference to it, so that `steps` need not exceed the number of references. -/
def flood (t : SymbolTable) : (steps : Nat) → List SymbolId → Array Bool → Array Bool
  | 0, _, marks => marks
  | _, [], marks => marks
  | steps + 1, id :: rest, marks =>
    if marks.getD id true then t.flood steps rest marks
    else t.flood steps (t.references id ++ rest) (marks.setIfInBounds id true)

/-- The number of references between symbols. -/
def referenceCount (t : SymbolTable) : Nat :=
  t.ids.foldl (fun count id => count + (t.references id).length) 0

/-- The table with the roots, and all that they refer to, marked as reachable. -/
def markReachable (t : SymbolTable) (roots : List SymbolId) : SymbolTable :=
  let marks := t.flood (roots.length + t.referenceCount) roots (Array.replicate t.size false)
  ⟨t.symbols.mapIdx fun id s => { s with reachable := s.reachable || marks.getD id false }⟩

end ArmLink.SymbolTable
