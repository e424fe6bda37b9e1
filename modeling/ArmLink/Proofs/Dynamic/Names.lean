import ArmLink.Proofs.Dynamic.Steps
import ArmLink.Proofs.Dynamic.Tabulated
import ArmLink.Proofs.Elf.StringTable

/-!
# The names that the dynamic loader reads

The names for the dynamic loader are a string table like any other: the bytes of their symbol, with
the offsets that are known. Adding a name adds it there, and whatever else the tables are used for
leaves the names alone.
-/

namespace ArmLink.DynamicTables

open SymbolTable
open Elf (StringTable)

variable {d : DynamicTables} {t : SymbolTable} {f : Symbol → Symbol}
  {s s' s'' : DynamicTables × SymbolTable}

/-! ## The names as a string table -/

/-- The names, with the offsets that are known. -/
def strings (s : DynamicTables × SymbolTable) : StringTable where
  bytes := (s.2.get s.1.dynStr).data
  offsets := s.1.nameOffsets.map fun e => (Bytes.ofString e.1, e.2)

theorem lookup_map_ofString (offsets : List (String × Nat)) (name : String) :
    (offsets.map fun e => (Bytes.ofString e.1, e.2)).lookup (Bytes.ofString name) =
      offsets.lookup name := by
  induction offsets with
  | nil => rfl
  | cons e offsets ih =>
    have hsame : (Bytes.ofString name == Bytes.ofString e.1) = (name == e.1) := by
      rw [Bool.eq_iff_iff, beq_iff_eq, beq_iff_eq, Bytes.ofString_inj]
    rw [List.map_cons, List.lookup_cons, List.lookup_cons, hsame, ih]

/-- Adding a name is adding it to the string table. -/
theorem strings_addName (hlt : d.dynStr < t.size) (name : String) :
    ((d.addName t name).1, strings (d.addName t name).2) = (strings (d, t)).addString name := by
  have hlookup := lookup_map_ofString d.nameOffsets name
  simp only [StringTable.addString, StringTable.add, strings, hlookup, addName]
  cases d.nameOffsets.lookup name with
  | some offset => rfl
  | none =>
    simp only [get_modify_self hlt, List.map_cons]
    rfl

/-! ## Names that stay -/

/-- If the names have their symbol, they still have it, and all of them are there. -/
def Retains (s s' : DynamicTables × SymbolTable) : Prop :=
  s.1.dynStr < s.2.size → s'.1.dynStr < s'.2.size ∧ (strings s).Remembers (strings s')

theorem Retains.refl (s : DynamicTables × SymbolTable) : Retains s s := fun h => ⟨h, .refl _⟩

theorem Retains.trans (h : Retains s s') (h' : Retains s' s'') : Retains s s'' := by
  intro hlt
  obtain ⟨hlt', hrem⟩ := h hlt
  obtain ⟨hlt'', hrem'⟩ := h' hlt'
  exact ⟨hlt'', hrem.trans hrem'⟩

theorem Grown.prefix_data {P : SymbolId → Prop} {s s' : Symbol} (h : Grown P s s') :
    s.data <+: s'.data := by
  obtain ⟨bytes, patches, size, rfl, -⟩ := h
  exact List.prefix_append ..

/-- Bytes are put at the end of a symbol, or something is noted at it. -/
theorem Retains.modify (h : Retains s (d, t)) (id : SymbolId) (hf : ∀ s, s.data <+: (f s).data) :
    Retains s (d, t.modify id f) := by
  refine h.trans fun hlt => ⟨by simpa only [size_modify] using hlt, ?_⟩
  refine .grow ?_
  rw [get_modify]
  split
  · rename_i heq
    exact heq.1 ▸ hf _
  · exact List.prefix_rfl

theorem Growth.retains {P : SymbolId → Prop} {start : DynamicTables × SymbolTable}
    (h : Growth P start s s') : Retains s s' := by
  cases h with
  | @record d d' t hall hcount hnames =>
    intro hlt
    have hdynStr : d'.dynStr = d.dynStr := by
      simp only [all, List.cons.injEq] at hall
      exact hall.2.1
    refine ⟨hdynStr ▸ hlt, ?_⟩
    simp only [strings, hdynStr]
    rcases hnames hlt with hsame | ⟨name, offset, hnone, hnew, hhere⟩
    · rw [hsame]
      exact .refl _
    · rw [hnew, List.map_cons]
      exact .cons ((lookup_map_ofString ..).trans hnone) hhere
  | extend id hid hf => exact (Retains.refl _).modify id fun s => (hf s).prefix_data
  | index | stub | slot => exact (Retains.refl _).modify _ fun _ => List.prefix_rfl

theorem Growths.retains {P : SymbolId → Prop} (h : Growths P s s s') : Retains s s' := by
  induction h with
  | refl => exact .refl s
  | tail _ hstep ih => exact ih.trans hstep.retains

/-- What the tables are used for once they are made. -/
inductive Use where
  | name (text : String)
  | call (call : Call)
  /-- the loader is asked to patch a word of a symbol -/
  | patch (owner : SymbolId) (offset index type : Nat)
  | finish (runPath : Option String)
  deriving DecidableEq, Repr

def use (s : DynamicTables × SymbolTable) : Use → DynamicTables × SymbolTable
  | .name text => (s.1.addName s.2 text).2
  | .call call => (perform call s).2
  | .patch owner offset index type => s.1.addRelocation s.2 owner offset index type
  | .finish runPath => s.1.finish s.2 runPath

/-- **Step.** No use of the tables touches the names. -/
theorem retains_use (s : DynamicTables × SymbolTable) (u : Use) : Retains s (use s u) := by
  have htables : ∀ table ∈ s.1.all, True := fun _ _ => trivial
  cases u with
  | name text => exact Growths.retains (growths_addName (P := fun _ => True) s.1 s.2 text)
  | call call => exact Growths.retains (growths_perform call s)
  | patch owner offset index type =>
    exact Growths.retains (growths_addRelocation (P := fun _ => True) s.1 s.2 trivial ..)
  | finish runPath => exact Growths.retains (growths_finish s.2 runPath htables)

/-- **Run.** -/
theorem retains_uses (s : DynamicTables × SymbolTable) (uses : List Use) :
    Retains s (uses.foldl use s) :=
  foldl_induction (P := Retains s) (.refl s) fun s' u _ h => h.trans (retains_use s' u)

/-- The names are in order as soon as the tables are made. -/
theorem strings_of_setup {t₀ : SymbolTable} (hfresh : ∀ id, Fresh (t.get id))
    (hsetup : setup t = .ok (d, t₀)) : d.dynStr < t₀.size ∧ (strings (d, t₀)).Valid := by
  have hfirst := firstContents_of_setup hfresh hsetup
  obtain ⟨-, hoffsets, -⟩ := setup_made hsetup
  have hdata : (t₀.get d.dynStr).data = [0] := congrArg Prod.fst hfirst.dynStr
  refine ⟨hfirst.tables d.dynStr (by simp [all]), ?_⟩
  have hempty : strings (d, t₀) = .empty := by
    rw [strings, hdata, hoffsets]
    decide +kernel
  exact hempty ▸ StringTable.valid_empty

/-- **String tables.** Names are added to a string table one after the other, none of them with a
NUL inside, and the table stays below 2³² bytes. Then from each addition on no byte changes, the
name is found at the offset that was given for it, and the same offset is given for the same name
only. So it is with the names for the dynamic loader, whatever its tables are used for in the
meantime: adding one of them is adding it to a string table. -/
theorem names_kept : (∀ (before after : List Bytes) (name : Bytes),
      let t := StringTable.empty.addAll before
      0 ∉ name → ((t.add name).2.addAll after).bytes.length < 2 ^ 32 →
        StringTable.Keeps name (.ofNat 32 (t.add name).1) (t.add name).2
          ((t.add name).2.addAll after)) ∧
    ∀ (t : SymbolTable) (d : DynamicTables) (t₀ : SymbolTable) (before after : List Use)
      (name : String),
      let s := before.foldl use (d, t₀)
      let added := s.1.addName s.2 name
      let s' := after.foldl use added.2
      (∀ id, Fresh (t.get id)) → setup t = .ok (d, t₀) → 0 ∉ Bytes.ofString name →
        (strings s').bytes.length < 2 ^ 32 →
        StringTable.Keeps (Bytes.ofString name) (.ofNat 32 added.1) (strings added.2) (strings s') ∧
        ∀ name', ((s'.1.addName s'.2 name').1, strings (s'.1.addName s'.2 name').2) =
          (strings s').addString name' := by
  refine ⟨fun before after name => ?_, fun t d t₀ before after name => ?_⟩
  · intro t hnul hsize
    have hvalid : t.Valid := (StringTable.remembers_addAll _ before).valid StringTable.valid_empty
    exact StringTable.keeps_of_remembers hvalid hnul (StringTable.remembers_addAll _ after) hsize
  · intro s added s' hfresh hsetup hnul hsize
    obtain ⟨hlt, hvalid⟩ := strings_of_setup hfresh hsetup
    obtain ⟨hltBefore, hbefore⟩ := retains_uses (d, t₀) before hlt
    have hadd := strings_addName hltBefore name
    obtain ⟨hltAdded, -⟩ := retains_use s (.name name) hltBefore
    obtain ⟨hltAfter, hafter⟩ := retains_uses added.2 after hltAdded
    have hoffset : added.1 = ((strings s).addString name).1 := congrArg Prod.fst hadd
    have hstrings : strings added.2 = ((strings s).addString name).2 := congrArg Prod.snd hadd
    refine ⟨?_, strings_addName hltAfter⟩
    rw [hoffset, hstrings]
    exact StringTable.keeps_of_remembers (hbefore.valid hvalid) hnul (hstrings ▸ hafter) hsize

/-- The name of an import is still where it was put when its stub is asked for and the tables are
completed. -/
theorem names_kept_sample : StringTable.Keeps [97] 1 ⟨[0, 97, 0], [([97], 1), ([], 0)]⟩
      ⟨[0, 97, 0, 98, 0], [([98], 3), ([97], 1), ([], 0)]⟩ ∧
    ∃ d t₀, setup requestSample = .ok (d, t₀) ∧
      let added := d.addName t₀ "puts"
      StringTable.Keeps (Bytes.ofString "puts") 1 (strings added.2)
        (strings ([.call (.stub 20), .finish none].foldl use added.2)) := by
  have hfresh : ∀ id, Fresh (requestSample.get id) := forall_get (by decide +kernel) fresh_default
  obtain ⟨d, t₀, hsetup, hoffset, hsize⟩ : ∃ d t₀, setup requestSample = .ok (d, t₀) ∧
      (d.addName t₀ "puts").1 = 1 ∧ (strings ([.call (.stub 20), .finish none].foldl use
        (d.addName t₀ "puts").2)).bytes.length < 2 ^ 32 := by
    decide +kernel
  have hkept := (names_kept.2 requestSample d t₀ [] [.call (.stub 20), .finish none] "puts" hfresh
    hsetup (by decide +kernel) hsize).1
  rw [List.foldl_nil, hoffset] at hkept
  exact ⟨names_kept.1 [] [[98]] [97] (by decide) (by decide), d, t₀, hsetup, hkept⟩

end ArmLink.DynamicTables
