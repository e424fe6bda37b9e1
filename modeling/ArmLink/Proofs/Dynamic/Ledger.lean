import ArmLink.Proofs.Dynamic.Entries

/-!
# Requests to the tables of the dynamic loader

Symbols ask for entries in any order and any number of times, and one request may lead to others. A
ledger notes who asked for what, in the order in which it was asked for first.
-/

namespace ArmLink.DynamicTables

open SymbolTable List

variable {t : SymbolTable} {id : SymbolId} {l l' : Ledger}

/-! ## Requests -/

inductive Call where
  | index (id : SymbolId)
  | stub (id : SymbolId)
  | slot (id : SymbolId)
  | need (library : String)
  | exports
  deriving DecidableEq, Repr

/-- Requests are about symbols that are there, and stubs are for imports. -/
def Call.Valid (t : SymbolTable) : Call → Prop
  | index id | slot id => id < t.size
  | stub id => id < t.size ∧ (t.get id).isImport = true
  | need _ | exports => True

instance (t : SymbolTable) : DecidablePred (Call.Valid t)
  | .index _ | .slot _ => inferInstanceAs (Decidable (_ < _))
  | .stub _ => inferInstanceAs (Decidable (_ ∧ _))
  | .need _ | .exports => inferInstanceAs (Decidable True)

def perform : Call → DynamicTables × SymbolTable → Option Nat × DynamicTables × SymbolTable
  | .index id, (d, t) => let (index, s) := d.ensureIndex t id; (some index, s)
  | .stub id, (d, t) => let (stub, s) := d.ensureStub t id; (some stub, s)
  | .slot id, (d, t) => let (slot, s) := d.ensureSlot t id; (some slot, s)
  | .need library, (d, t) => (none, d.addNeeded t library)
  | .exports, (d, t) => (none, d.exportSymbols t)

def run (calls : List Call) (s : DynamicTables × SymbolTable) : DynamicTables × SymbolTable :=
  calls.foldl (fun s call => (perform call s).2) s

/-! ## The ledger -/

/-- What was asked for, in the order in which it was asked for first. -/
structure Ledger where
  /-- the symbols that asked for an entry in the dynamic symbol table -/
  indexed : List SymbolId := []
  stubs : List SymbolId := []
  slots : List SymbolId := []
  libraries : List String := []
  deriving DecidableEq, Repr

namespace Ledger

/-- A library is needed. -/
def need (l : Ledger) (library : String) : Ledger :=
  { l with libraries := extend l.libraries library }

variable (t)

/-- A symbol asks for an entry in the dynamic symbol table; its library is then needed. -/
def index (l : Ledger) (id : SymbolId) : Ledger :=
  let l := { l with indexed := extend l.indexed id }
  match libraryOf (t.get id) with
  | some library => l.need library
  | none => l

/-- What a request asks for: a stub and the slot of an import also need an entry in the dynamic
symbol table. -/
def record (l : Ledger) : Call → Ledger
  | .index id => l.index t id
  | .stub id => let l := l.index t id; { l with stubs := extend l.stubs id }
  | .slot id =>
    let l := if (t.get id).isImport then l.index t id else l
    { l with slots := extend l.slots id }
  | .need library => l.need library
  | .exports => t.exported.foldl (index t) l

/-- What requests ask for. -/
def ofCalls (calls : List Call) : Ledger := calls.foldl (record t) {}

/-- More was asked for. -/
structure Le (l l' : Ledger) : Prop where
  indexed : l.indexed <+: l'.indexed
  stubs : l.stubs <+: l'.stubs
  slots : l.slots <+: l'.slots
  libraries : l.libraries <+: l'.libraries

theorem Le.refl (l : Ledger) : Le l l := by
  constructor <;> exact prefix_rfl

theorem Le.trans {l'' : Ledger} (h : Le l l') (h' : Le l' l'') : Le l l'' :=
  ⟨h.indexed.trans h'.indexed, h.stubs.trans h'.stubs, h.slots.trans h'.slots,
    h.libraries.trans h'.libraries⟩

theorem le_index (l : Ledger) (id : SymbolId) : Le l (l.index t id) := by
  simp only [index]
  split
  · exact ⟨prefix_extend _ _, prefix_rfl, prefix_rfl, prefix_extend _ _⟩
  · exact ⟨prefix_extend _ _, prefix_rfl, prefix_rfl, prefix_rfl⟩

theorem le_foldl_index (l : Ledger) (ids : List SymbolId) : Le l (ids.foldl (index t) l) :=
  foldl_induction (.refl l) fun l' id _ h => h.trans (l'.le_index t id)

theorem le_record (l : Ledger) (call : Call) : Le l (l.record t call) := by
  have hrfl {α : Type} (xs : List α) : xs <+: xs := prefix_rfl
  cases call with
  | index id => exact l.le_index t id
  | stub id => exact (l.le_index t id).trans ⟨hrfl _, prefix_extend _ _, hrfl _, hrfl _⟩
  | slot id =>
    simp only [record]
    split
    · exact (l.le_index t id).trans ⟨hrfl _, hrfl _, prefix_extend _ _, hrfl _⟩
    · exact ⟨hrfl _, hrfl _, prefix_extend _ _, hrfl _⟩
  | need library => exact ⟨hrfl _, hrfl _, hrfl _, prefix_extend _ _⟩
  | exports => exact l.le_foldl_index t _

theorem le_foldl_record (l : Ledger) (calls : List Call) : l.Le (calls.foldl (record t) l) :=
  foldl_induction (.refl l) fun l' call _ h => h.trans (l'.le_record t call)

/-- Whatever a request leads to has been asked for. -/
structure Closed (t : SymbolTable) (l : Ledger) : Prop where
  libraries : ∀ id ∈ l.indexed, ∀ library, libraryOf (t.get id) = some library →
    library ∈ l.libraries
  slots : ∀ id ∈ l.slots, (t.get id).isImport = true → id ∈ l.indexed

/-- Asking for an index is asking for nothing else, the library apart. -/
theorem index_lists (l : Ledger) (id : SymbolId) :
    (l.index t id).indexed = extend l.indexed id ∧ (l.index t id).stubs = l.stubs ∧
      (l.index t id).slots = l.slots := by
  simp only [index]
  split <;> exact ⟨rfl, rfl, rfl⟩

variable {t}

theorem mem_foldl_index {ids : List SymbolId} (hid : id ∈ ids) (t : SymbolTable) (l : Ledger) :
    id ∈ (ids.foldl (index t) l).indexed := by
  induction ids generalizing l with
  | nil => cases hid
  | cons j ids ih =>
    rcases mem_cons.mp hid with rfl | hid
    · refine ((l.index t id).le_foldl_index t ids).indexed.subset ?_
      exact (l.index_lists t id).1 ▸ mem_extend.mpr (.inr rfl)
    · exact ih hid (l.index t j)

theorem Closed.index (h : Closed t l) (id : SymbolId) : Closed t (l.index t id) := by
  obtain ⟨hindexed, -, hslots⟩ := l.index_lists t id
  refine ⟨fun j hj library hlibrary => ?_, fun j hj himport => ?_⟩
  · rcases mem_extend.mp (hindexed ▸ hj) with hj | rfl
    · exact (l.le_index t id).libraries.subset (h.libraries j hj library hlibrary)
    · simp only [Ledger.index, hlibrary, need]
      exact mem_extend.mpr (.inr rfl)
  · exact (l.le_index t id).indexed.subset (h.slots j (hslots ▸ hj) himport)

/-- A symbol that has asked for an index asks for nothing new. -/
theorem Closed.index_of_mem (h : Closed t l) (hmem : id ∈ l.indexed) : l.index t id = l := by
  simp only [Ledger.index, extend_of_mem hmem]
  split
  · rename_i library hlibrary
    simp only [need, extend_of_mem (h.libraries id hmem library hlibrary)]
  · rfl

theorem Closed.record (h : Closed t l) (call : Call) : Closed t (l.record t call) := by
  cases call with
  | index id => exact h.index id
  | stub id => exact ⟨(h.index id).libraries, (h.index id).slots⟩
  | slot id =>
    simp only [Ledger.record]
    split
    · refine ⟨(h.index id).libraries, fun j hj himport => ?_⟩
      rcases mem_extend.mp hj with hj | rfl
      · exact (h.index id).slots j hj himport
      · exact (l.index_lists t j).1 ▸ mem_extend.mpr (.inr rfl)
    · rename_i hid
      refine ⟨h.libraries, fun j hj himport => ?_⟩
      rcases mem_extend.mp hj with hj | rfl
      · exact h.slots j hj himport
      · exact absurd himport hid
  | need library =>
    exact ⟨fun j hj library' hlibrary => mem_extend.mpr (.inl (h.libraries j hj library' hlibrary)),
      h.slots⟩
  | exports => exact foldl_induction h fun l' id _ h => h.index id

end Ledger

end ArmLink.DynamicTables
