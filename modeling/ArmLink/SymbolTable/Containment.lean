import ArmLink.SymbolTable

/-!
# Containment

A symbol may lie within another one. It names its container, the container names the latest of the
symbols within it, and each of those names the next older one. The links form a forest: `contain`
refuses a second container and any link that would close a cycle, so that following the links in
either direction ends after at most as many steps as there are symbols.
-/

namespace ArmLink

inductive ContainmentError where
  | alreadyContained (sub existing : String)
  | cyclic (sub outer : String)
  | pastEnd (sub : String) (offset size : Nat) (outer : String) (outerSize : Nat)
  deriving DecidableEq, Repr

def ContainmentError.message : ContainmentError → String
  | alreadyContained sub existing => s!"{sub} is already contained in {existing}"
  | cyclic sub outer => s!"{sub} cannot be contained in {outer}: containment would be cyclic"
  | pastEnd sub offset size outer outerSize =>
    s!"{sub} at offset {offset} with size {size} extends past the end of {outer} " ++
      s!"(size {outerSize})"

namespace SymbolTable

/-- Whether `id` is `target` or lies within it, as far as `steps` links tell. -/
def liesWithin (t : SymbolTable) (target : SymbolId) : (steps : Nat) → SymbolId → Bool
  | 0, _ => false
  | steps + 1, id =>
    id = target ||
      match (t.get id).outer with
      | some container => t.liesWithin target steps container.symbol
      | none => false

/-- Follows at most `steps` links outward, from a place at `offset` in a symbol. Offsets are added
up in 64 bits. -/
def walkOut (t : SymbolTable) : (steps : Nat) → SymbolId → (offset : Nat) → SymbolId × Nat
  | 0, id, offset => (id, offset)
  | steps + 1, id, offset =>
    match (t.get id).outer with
    | some container => t.walkOut steps container.symbol (Word64.wrap (offset + container.offset))
    | none => (id, offset)

/-- The symbol that contains `id` and lies within no other, and the offset there. -/
def outermost (t : SymbolTable) (id : SymbolId) : SymbolId × Nat := t.walkOut t.size id 0

/-- Follows at most `steps` links from a symbol to the next older one within the same container. -/
def subsFrom (t : SymbolTable) : (steps : Nat) → Option SymbolId → List SymbolId
  | steps + 1, some id => id :: t.subsFrom steps (t.get id).nextSub
  | _, _ => []

/-- The symbols directly within one, the latest first. -/
def subs (t : SymbolTable) (id : SymbolId) : List SymbolId := t.subsFrom t.size (t.get id).sub

/-- Makes `sub` a part of `outer` from `offset` on. The same link may be made again. -/
def contain (t : SymbolTable) (sub outer : SymbolId) (offset : Nat) :
    Except ContainmentError SymbolTable :=
  let s := t.get sub
  let o := t.get outer
  match s.outer with
  | some existing =>
    if existing = ⟨outer, offset⟩ then .ok t
    else .error (.alreadyContained s.text (t.get existing.symbol).text)
  | none =>
    if t.liesWithin sub t.size outer then .error (.cyclic s.text o.text)
    else if o.size < offset + s.size ∧ o.isDefined then
      .error (.pastEnd s.text offset s.size o.text o.size)
    else
      .ok ((t.modify outer fun o => { o with sub := some sub }).modify sub fun s =>
        { s with outer := some ⟨outer, offset⟩, nextSub := o.sub })

end SymbolTable

end ArmLink
