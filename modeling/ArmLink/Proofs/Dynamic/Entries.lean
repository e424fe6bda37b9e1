import ArmLink.Proofs.Bytes
import ArmLink.Proofs.Dynamic.Setup

/-!
# Entries in the tables of the dynamic loader

Each table is a list of entries, one for each symbol that asked for one, in the order in which they
asked first. What a symbol has been given follows from its position in that list, and so do the
lengths of the tables.
-/

namespace ArmLink.DynamicTables

open SymbolTable List Bytes Elf.RelocationType

variable {d d' : DynamicTables} {t t' : SymbolTable} {id : SymbolId} {α β : Type}
  {offset n index : Nat} {indexed stubs slots ids : List SymbolId} {f : Symbol → Symbol}
  {libraries : List String} {name : String}

/-! ## Requests in order -/

section Extend

variable [DecidableEq α] {xs : List α} {x y : α}

/-- A list with one more element, unless it is there. -/
def extend (xs : List α) (x : α) : List α := if x ∈ xs then xs else xs ++ [x]

theorem extend_of_mem (h : x ∈ xs) : extend xs x = xs := if_pos h

theorem extend_of_not_mem (h : x ∉ xs) : extend xs x = xs ++ [x] := if_neg h

theorem mem_extend : y ∈ extend xs x ↔ y ∈ xs ∨ y = x := by
  by_cases h : x ∈ xs
  · rw [extend_of_mem h]
    exact ⟨.inl, fun hy => hy.elim (fun hy => hy) fun hy => hy ▸ h⟩
  · simp [extend_of_not_mem h]

theorem prefix_extend (xs : List α) (x : α) : xs <+: extend xs x := by
  by_cases h : x ∈ xs
  · exact (extend_of_mem h).symm ▸ prefix_rfl
  · exact ⟨[x], (extend_of_not_mem h).symm⟩

end Extend

theorem eq_or_eq_of_getElem?_snoc {xs : List α} {x y : α} {k : Nat}
    (h : (xs ++ [x])[k]? = some y) : xs[k]? = some y ∨ k = xs.length ∧ y = x := by
  by_cases hk : k < xs.length
  · rw [getElem?_append_left hk] at h
    exact .inl h
  · rw [getElem?_append_right (Nat.le_of_not_lt hk), getElem?_singleton] at h
    split at h
    · exact .inr ⟨by omega, (Option.some.inj h).symm⟩
    · cases h

/-- The `k`-th of these symbols has been given the number `place k`, and no other symbol has one. -/
structure Assigned (read : Symbol → Option Nat) (place : Nat → Nat) (ids : List SymbolId)
    (t : SymbolTable) : Prop where
  nodup : ids.Nodup
  read_iff : ∀ id n, read (t.get id) = some n ↔ ∃ k, ids[k]? = some id ∧ n = place k

namespace Assigned

variable {read : Symbol → Option Nat} {place : Nat → Nat} {ids' : List SymbolId}

theorem nil (h : ∀ id, read (t.get id) = none) : Assigned read place [] t :=
  ⟨.nil, fun id n => by simp [h]⟩

variable (h : Assigned read place ids t)
include h

theorem keeps (hkeeps : Keeps read t t') : Assigned read place ids t' :=
  ⟨h.nodup, fun id n => by rw [hkeeps.2]; exact h.read_iff id n⟩

theorem mem_of_some (hn : read (t.get id) = some n) : id ∈ ids := by
  obtain ⟨k, hk, -⟩ := (h.read_iff id n).mp hn
  exact mem_of_getElem? hk

theorem isSome_of_mem (hid : id ∈ ids) : (read (t.get id)).isSome := by
  obtain ⟨k, hk⟩ := mem_iff_getElem?.mp hid
  rw [(h.read_iff id _).mpr ⟨k, hk, rfl⟩]
  rfl

theorem not_mem_of_none (hn : read (t.get id) = none) : id ∉ ids := by
  intro hmem
  have hsome := h.isSome_of_mem hmem
  rw [hn] at hsome
  cases hsome

theorem none_of_not_mem (hid : id ∉ ids) : read (t.get id) = none := by
  cases hread : read (t.get id) with
  | none => rfl
  | some n => exact absurd (h.mem_of_some hread) hid

theorem mono (h' : Assigned read place ids' t') (hle : ids <+: ids')
    (hn : read (t.get id) = some n) : read (t'.get id) = some n := by
  obtain ⟨k, hk, rfl⟩ := (h.read_iff id n).mp hn
  obtain ⟨more, rfl⟩ := hle
  refine (h'.read_iff id _).mpr ⟨k, ?_, rfl⟩
  exact (List.getElem?_append_left (List.getElem?_eq_some_iff.mp hk).1).trans hk

theorem snoc (hlt : id < t.size) (hnone : read (t.get id) = none)
    (hf : read (f (t.get id)) = some (place ids.length)) :
    Assigned read place (ids ++ [id]) (t.modify id f) := by
  have hnew := h.not_mem_of_none hnone
  refine ⟨nodup_append.mpr ⟨h.nodup, by simp, ?_⟩, fun j n => ?_⟩
  · rintro x hx y hy rfl
    exact hnew (mem_singleton.mp hy ▸ hx)
  · simp only [getElem?_append, getElem?_singleton]
    by_cases hj : j = id
    · subst hj
      rw [get_modify_self hlt, hf]
      constructor
      · intro hn
        exact ⟨ids.length, by simp, (Option.some.inj hn).symm⟩
      · rintro ⟨k, hk, rfl⟩
        split at hk
        · exact absurd (mem_of_getElem? hk) hnew
        · split at hk
          · rw [show k = ids.length by omega]
          · cases hk
    · rw [get_modify_ne hj, h.read_iff]
      refine exists_congr fun k => and_congr_left fun _ => ?_
      split
      · rfl
      · rename_i hk
        rw [getElem?_eq_none (Nat.le_of_not_lt hk)]
        split
        · exact ⟨nofun, fun heq => absurd (Option.some.inj heq).symm hj⟩
        · exact ⟨nofun, nofun⟩

end Assigned

/-! ## What stays -/

/-- From `t` to `t'` these tables keep their contents, and `p` reads the same of every symbol. -/
structure Frame (tables : List SymbolId) (p : Symbol → α) (t t' : SymbolTable) : Prop where
  tables : ∀ id ∈ tables, contents (t'.get id) = contents (t.get id)
  entries : Keeps p t t'

namespace Frame

variable {tables tables' : List SymbolId} {p : Symbol → α}

theorem refl (tables : List SymbolId) (p : Symbol → α) (t : SymbolTable) : Frame tables p t t :=
  ⟨fun _ _ => rfl, .refl t⟩

variable (h : Frame tables p t t')
include h

theorem mono (hsub : ∀ id ∈ tables', id ∈ tables) (g : α → β) :
    Frame tables' (fun s => g (p s)) t t' :=
  ⟨fun id hid => h.tables id (hsub id hid), h.entries.map g⟩

theorem write (hid : id ∉ tables) (hp : ∀ s, p (f s) = p s) :
    Frame tables p t (t'.modify id f) := by
  refine ⟨fun j hj => ?_, h.entries.andModify (hp _)⟩
  rw [get_modify_ne fun heq : j = id => hid (heq ▸ hj)]
  exact h.tables j hj

theorem note (hc : ∀ s, contents (f s) = contents s) (hp : ∀ s, p (f s) = p s) :
    Frame tables p t (t'.modify id f) := by
  refine ⟨fun j hj => ?_, h.entries.andModify (hp _)⟩
  have hkeeps : Keeps contents t' (t'.modify id f) := .modify (hc _)
  exact (hkeeps.2 j).trans (h.tables j hj)

theorem data (id : SymbolId) (hid : id ∈ tables) : (t'.get id).data = (t.get id).data :=
  congrArg (·.1) (h.tables id hid)

theorem relocations (id : SymbolId) (hid : id ∈ tables) :
    (t'.get id).relocations = (t.get id).relocations :=
  congrArg (·.2.2) (h.tables id hid)

end Frame

/-- The sizes of the tables are those of their bytes. -/
def Sized (d : DynamicTables) (t : SymbolTable) : Prop :=
  ∀ id ∈ d.all, (t.get id).size = (t.get id).data.length

theorem Sized.write (h : Sized d t) (hf : ∀ s, (f s).size = (f s).data.length) :
    Sized d (t.modify id f) := by
  intro j hj
  rw [get_modify]
  split
  · exact hf _
  · exact h j hj

theorem Sized.note (h : Sized d t) (hc : ∀ s, contents (f s) = contents s) :
    Sized d (t.modify id f) := by
  have hkeeps : Keeps contents t (t.modify id f) := .modify (hc _)
  intro j hj
  have hsize := (hkeeps.map (·.2.1)).2 j
  have hdata := (hkeeps.map (·.1)).2 j
  simp only [contents] at hsize hdata
  rw [hsize, hdata]
  exact h j hj

theorem size_appendWord {s : Symbol} {w : Word} :
    (s.appendWord w).size = (s.appendWord w).data.length :=
  length_append.symm

/-! ## Names -/

/-- At an offset of a string table there is a name, and a NUL behind it. -/
def IsNameAt (data : Bytes) (offset : Nat) (name : String) : Prop :=
  data.slice? offset ((ofString name).length + 1) = some (ofString name ++ [0])

theorem IsNameAt.mono {data data' : Bytes} (h : IsNameAt data offset name) (hle : data <+: data') :
    IsNameAt data' offset name := by
  obtain ⟨more, rfl⟩ := hle
  exact slice?_append_left h more

/-- The names whose offsets are known are there. -/
def Names (d : DynamicTables) (t : SymbolTable) : Prop :=
  ∀ e ∈ d.nameOffsets, IsNameAt (t.get d.dynStr).data e.2 e.1

/-- The tables are the same, whatever is noted about their entries. -/
def Renoted (d d' : DynamicTables) : Prop :=
  ∃ nameOffsets needed neededNames count,
    d' = { d with nameOffsets, needed, neededNames, count }

/-- From `t` to `t'` the string table has grown, and nothing else has changed. -/
structure NamesAdded (d : DynamicTables) (t : SymbolTable) (d' : DynamicTables)
    (t' : SymbolTable) : Prop where
  renoted : Renoted d d' ∧ d'.count = d.count
  names : Names d' t'
  grown : (t.get d.dynStr).data <+: (t'.get d.dynStr).data
  sized : (t.get d.dynStr).size = (t.get d.dynStr).data.length →
    (t'.get d.dynStr).size = (t'.get d.dynStr).data.length
  other : ∀ id, id ≠ d.dynStr → t'.get id = t.get id
  kept : Keeps (fun s => (shell s, entriesOf s)) t t'

theorem NamesAdded.refl (h : Names d t) : NamesAdded d t d t :=
  ⟨⟨⟨_, _, _, _, rfl⟩, rfl⟩, h, prefix_rfl, id, fun _ _ => rfl, .refl t⟩

theorem NamesAdded.frame (h : NamesAdded d t d' t') {tables : List SymbolId}
    (hne : d.dynStr ∉ tables) : Frame tables entriesOf t t' :=
  ⟨fun j hj => congrArg contents (h.other j fun heq => hne (heq ▸ hj)), h.kept.map (·.2)⟩

theorem addName_spec (hlt : d.dynStr < t.size) (hnames : Names d t)
    (h : d.addName t name = (offset, d', t')) :
    NamesAdded d t d' t' ∧ IsNameAt (t'.get d.dynStr).data offset name ∧
      d'.needed = d.needed ∧ d'.neededNames = d.neededNames := by
  simp only [addName] at h
  split at h
  · rename_i found hfound
    cases h
    have hmem : (name, offset) ∈ d.nameOffsets := by
      obtain ⟨before, after, heq, -⟩ := lookup_eq_some_iff.mp hfound
      simp [heq]
    exact ⟨.refl hnames, hnames _ hmem, rfl, rfl⟩
  · cases h
    let t' := t.modify d.dynStr fun s => (s.append (ofString name)).append [0]
    have hget : t'.get d.dynStr =
        ((t.get d.dynStr).append (ofString name)).append [0] := get_modify_self hlt
    have hdata : (t'.get d.dynStr).data =
        (t.get d.dynStr).data ++ (ofString name ++ [0]) := by
      rw [hget]
      exact append_assoc _ _ _
    have hgrown : (t.get d.dynStr).data <+: (t'.get d.dynStr).data :=
      hdata ▸ prefix_append _ _
    have hhere : IsNameAt (t'.get d.dynStr).data (t.get d.dynStr).data.length name := by
      have hslice := slice?_append_self (t.get d.dynStr).data (ofString name ++ [0]) []
      rw [append_nil, ← hdata, length_append] at hslice
      exact hslice
    have hkept : Keeps (fun s => (shell s, entriesOf s)) t t' := .modify (by simp)
    refine ⟨⟨⟨⟨_, _, _, _, rfl⟩, rfl⟩, ?_, hgrown, fun _ => ?_, fun j hj => get_modify_ne hj,
      hkept⟩, hhere, rfl, rfl⟩
    · rintro e he
      rcases mem_cons.mp he with rfl | he
      · exact hhere
      · exact (hnames e he).mono hgrown
    · show (t'.get d.dynStr).size = (t'.get d.dynStr).data.length
      rw [hget]
      exact length_append.symm

/-! ## Libraries -/

/-- Each of these libraries is noted once, by the offset of its name. -/
structure Libraries (d : DynamicTables) (t : SymbolTable) (libraries : List String) : Prop where
  names : d.neededNames = libraries.reverse
  nodup : libraries.Nodup
  offsets : Forall₂ (fun offset library => IsNameAt (t.get d.dynStr).data offset library)
    d.needed libraries

theorem Libraries.namesAdded (h : Libraries d t libraries) (hadded : NamesAdded d t d' t')
    (hneeded : d'.needed = d.needed) (hnames : d'.neededNames = d.neededNames) :
    Libraries d' t' libraries := by
  obtain ⟨_, _, _, _, rfl⟩ := hadded.renoted.1
  refine ⟨hnames.trans h.names, h.nodup, ?_⟩
  rw [hneeded]
  exact h.offsets.imp fun _ _ hname => hname.mono hadded.grown

theorem addNeeded_spec {library : String} (hlt : d.dynStr < t.size) (hnames : Names d t)
    (hlibraries : Libraries d t libraries) (h : d.addNeeded t library = (d', t')) :
    NamesAdded d t d' t' ∧ Libraries d' t' (extend libraries library) := by
  have hknown : d.neededNames.contains library = true ↔ library ∈ libraries := by
    rw [hlibraries.names, contains_iff_mem, mem_reverse]
  simp only [addNeeded] at h
  split at h
  · rename_i hmem
    cases h
    rw [extend_of_mem (hknown.mp hmem)]
    exact ⟨.refl hnames, hlibraries⟩
  · rename_i hnew
    have hnew : library ∉ libraries := fun hmem => hnew (hknown.mpr hmem)
    let d₁ : DynamicTables := { d with neededNames := library :: d.neededNames }
    rcases hadd : d₁.addName t library with ⟨offset, d₂, t₂⟩
    obtain ⟨hadded, hhere, hneeded, hneededNames⟩ := addName_spec (d := d₁) hlt hnames hadd
    rw [hadd] at h
    cases h
    obtain ⟨⟨_, _, _, _, rfl⟩, hcount⟩ := hadded.renoted
    refine ⟨⟨⟨⟨_, _, _, _, rfl⟩, hcount⟩, hadded.names, hadded.grown, hadded.sized, hadded.other,
      hadded.kept⟩, ?_⟩
    rw [extend_of_not_mem hnew]
    refine ⟨?_, ?_, ?_⟩
    · rw [hneededNames]
      simp [d₁, hlibraries.names]
    · simp only [nodup_append, hlibraries.nodup, mem_singleton, true_and]
      refine ⟨by simp, ?_⟩
      rintro x hx y rfl rfl
      exact hnew hx
    · rw [hneeded]
      refine rel_append ?_ (.cons hhere .nil)
      exact hlibraries.offsets.imp fun _ _ hname => hname.mono hadded.grown

/-! ## Dynamic symbols -/

/-- The dynamic symbol table has an entry of 16 bytes for each of these symbols, behind the null
symbol, and each entry starts with the offset of the symbol's name. -/
structure Indexed (d : DynamicTables) (t : SymbolTable) (ids : List SymbolId) : Prop where
  index : Assigned Symbol.dynamicIndex (· + 1) ids t
  length : (t.get d.dynSym).data.length = 16 * (ids.length + 1)
  entry : ∀ k id, ids[k]? = some id → ∃ offset,
    (t.get d.dynSym).data.slice? (16 * (k + 1)) 4 = some (ofWord (.ofNat 32 offset)) ∧
    IsNameAt (t.get d.dynStr).data offset (t.get id).dynamicName

theorem Indexed.namesAdded (h : Indexed d t ids) (hadded : NamesAdded d t d' t')
    (hne : d.dynSym ≠ d.dynStr) : Indexed d' t' ids := by
  obtain ⟨_, _, _, _, rfl⟩ := hadded.renoted.1
  have hsame : t'.get d.dynSym = t.get d.dynSym := hadded.other _ hne
  refine ⟨h.index.keeps (hadded.kept.map (·.2.1)), hsame ▸ h.length, fun k id hk => ?_⟩
  obtain ⟨offset, hslice, hname⟩ := h.entry k id hk
  have hnamed : (t'.get id).dynamicName = (t.get id).dynamicName :=
    (hadded.kept.map (·.1.dynamicName)).2 id
  exact ⟨offset, hsame ▸ hslice, hnamed ▸ hname.mono hadded.grown⟩

theorem Indexed.frame (h : Indexed d t ids) (hshell : Keeps shell t t')
    (hframe : Frame [d.dynSym, d.dynStr] Symbol.dynamicIndex t t') : Indexed d t' ids := by
  have hdynSym := hframe.data d.dynSym (by simp)
  have hdynStr := hframe.data d.dynStr (by simp)
  refine ⟨h.index.keeps hframe.entries, hdynSym ▸ h.length, fun k id hk => ?_⟩
  have hnamed := (hshell.read Symbol.dynamicName fun _ => rfl).2 id
  rw [hdynSym, hdynStr, hnamed]
  exact h.entry k id hk

theorem Indexed.renoted (h : Indexed d t ids) (hd : Renoted d d') : Indexed d' t ids := by
  obtain ⟨_, _, _, _, rfl⟩ := hd
  exact ⟨h.index, h.length, h.entry⟩

theorem appendEntry_spec (entry : Symbol) (id : SymbolId) (s : Symbol) (offset : Nat) :
    ∃ rest : Bytes, rest.length = 12 ∧
      (appendEntry entry id s offset).data =
        entry.data ++ (ofWord (.ofNat 32 offset) ++ rest) ∧
      (appendEntry entry id s offset).size = (appendEntry entry id s offset).data.length := by
  let type : UInt8 := if s.exported && s.kind.isText then 2 else 1
  refine ⟨ofWord 0 ++ (ofWord 0 ++ ([0x10 ||| type, 0] ++ [0, 0])), ?_, ?_, ?_⟩
  · simp
  -- the two kinds of entries differ in their relocations only
  all_goals
    cases himport : s.isImport <;>
      simp [appendEntry, himport, Symbol.append, Symbol.appendWord, Symbol.appendPatched, type]

theorem Indexed.enter (h : Indexed d t ids) (hne : d.dynSym ≠ d.dynStr) (htable : d.dynSym < t.size)
    (hlt : id < t.size) (hnone : (t.get id).dynamicIndex = none)
    (hname : IsNameAt (t.get d.dynStr).data offset (t.get id).dynamicName) :
    Indexed d (d.enter t id offset (ids.length + 1)) (ids ++ [id]) := by
  obtain ⟨rest, hrest, hdata, -⟩ := appendEntry_spec (t.get d.dynSym) id (t.get id) offset
  let t₁ := t.modify d.dynSym fun entry => appendEntry entry id (t.get id) offset
  have hnote : Keeps (fun s => (contents s, shell s)) t₁ (d.enter t id offset (ids.length + 1)) :=
    .modify rfl
  have hself : ((d.enter t id offset (ids.length + 1)).get d.dynSym).data =
      (t.get d.dynSym).data ++ (ofWord (.ofNat 32 offset) ++ rest) := by
    refine ((hnote.map (·.1.1)).2 d.dynSym).trans ?_
    rw [← hdata]
    exact congrArg Symbol.data (get_modify_self htable)
  have hdynStr : ((d.enter t id offset (ids.length + 1)).get d.dynStr).data =
      (t.get d.dynStr).data := by
    refine ((hnote.map (·.1.1)).2 d.dynStr).trans ?_
    exact congrArg Symbol.data (get_modify_ne (Ne.symm hne))
  have hnamed (j : SymbolId) : ((d.enter t id offset (ids.length + 1)).get j).dynamicName =
      (t.get j).dynamicName := by
    have hshell : Keeps shell t t₁ := .modify (congrArg (·.1) (kept_appendEntry ..))
    exact ((hnote.map (·.2.dynamicName)).2 j).trans ((hshell.map Symbol.dynamicName).2 j)
  have hindex : Keeps Symbol.dynamicIndex t t₁ := .modify (congrArg (·.2.1) (kept_appendEntry ..))
  refine ⟨?_, ?_, fun k j hk => ?_⟩
  · refine (h.index.keeps hindex).snoc ?_ ((hindex.2 id).trans hnone) rfl
    rwa [size_modify]
  · simp only [hself, length_append, h.length, length_ofWord, hrest,
      length_singleton]
    omega
  · rw [hself, hdynStr, hnamed]
    rcases eq_or_eq_of_getElem?_snoc hk with hk | ⟨rfl, rfl⟩
    · obtain ⟨offset', hslice, hname'⟩ := h.entry k j hk
      exact ⟨offset', slice?_append_left hslice _, hname'⟩
    · have hslice := slice?_append_self (t.get d.dynSym).data
        (ofWord (.ofNat 32 offset)) rest
      rw [h.length] at hslice
      exact ⟨offset, hslice, hname⟩

/-! ## Stubs -/

/-- The tables of the stubs and of their slots have an entry for each of these imports, behind the
code and the slots that are reserved, and the loader is asked to fill each slot. -/
structure Stubs (d : DynamicTables) (t : SymbolTable) (indexed stubs : List SymbolId) : Prop where
  offset : Assigned Symbol.pltOffset (20 + 12 * ·) stubs t
  slot : Assigned Symbol.gotPltOffset (12 + 4 * ·) stubs t
  plt : (t.get d.plt).data.length = 20 + 12 * stubs.length
  gotPlt : (t.get d.gotPlt).data.length = 12 + 4 * stubs.length
  relPlt : (t.get d.relPlt).data.length = 8 * stubs.length
  site : (t.get d.relPlt).relocations = (range stubs.length).map fun k =>
    .pending (8 * k) 4 .absolute (some d.gotPlt) (.ofNat 64 (12 + 4 * k))
  entry : ∀ k id, stubs[k]? = some id → ∃ j, indexed[j]? = some id ∧
    (t.get d.relPlt).data.slice? (8 * k + 4) 4 = some (ofWord
      (info (.ofNat 32 (j + 1)) (.ofNat 32 jumpSlot)))

theorem Stubs.frame {indexed' : List SymbolId} (h : Stubs d t indexed stubs)
    (hframe : Frame [d.plt, d.gotPlt, d.relPlt] (fun s => (s.pltOffset, s.gotPltOffset)) t t')
    (hle : indexed <+: indexed') : Stubs d t' indexed' stubs := by
  have hplt := hframe.data d.plt (by simp)
  have hgotPlt := hframe.data d.gotPlt (by simp)
  have hrelPlt := hframe.data d.relPlt (by simp)
  refine ⟨h.offset.keeps (hframe.entries.map (·.1)), h.slot.keeps (hframe.entries.map (·.2)),
    hplt ▸ h.plt, hgotPlt ▸ h.gotPlt, hrelPlt ▸ h.relPlt,
    (hframe.relocations d.relPlt (by simp)).trans h.site, fun k id hk => ?_⟩
  obtain ⟨j, hj, hslice⟩ := h.entry k id hk
  obtain ⟨more, rfl⟩ := hle
  exact ⟨j, (List.getElem?_append_left (List.getElem?_eq_some_iff.mp hj).1).trans hj,
    hrelPlt ▸ hslice⟩

theorem Stubs.renoted (h : Stubs d t indexed stubs) (hd : Renoted d d') :
    Stubs d' t indexed stubs := by
  obtain ⟨_, _, _, _, rfl⟩ := hd
  exact ⟨h.offset, h.slot, h.plt, h.gotPlt, h.relPlt, h.site, h.entry⟩

/-- The relocation of a slot at an offset. -/
def slotEntry (d : DynamicTables) (slot index : Nat) (s : Symbol) : Symbol :=
  (s.appendPatched .absolute d.gotPlt (.ofNat 64 slot)).appendWord
    (info (.ofNat 32 index) (.ofNat 32 jumpSlot))

/-- The table with a slot, a stub for it and its relocation. -/
def fillStub (d : DynamicTables) (t : SymbolTable) (slot index : Nat) : SymbolTable :=
  ((t.modify d.gotPlt (·.appendPatched .absolute d.plt 0)).modify d.plt (d.stubCode slot)).modify
    d.relPlt (d.slotEntry slot index)

/-- The table with a stub noted at its import. -/
def noteStub (t : SymbolTable) (id : SymbolId) (stub slot : Nat) : SymbolTable :=
  t.modify id fun s => { s with pltOffset := some stub, gotPltOffset := some slot }

theorem ensureStub_of_none (hne : d'.plt ≠ d'.gotPlt) (hnone : (t.get id).pltOffset = none)
    (hindex : d.ensureIndex t id = (index, d', t')) : d.ensureStub t id = ((t'.get d'.plt).size, d',
      noteStub (d'.fillStub t' (t'.get d'.gotPlt).data.length index) id (t'.get d'.plt).size
        (t'.get d'.gotPlt).data.length) := by
  simp only [ensureStub, hnone, hindex, get_modify_ne hne]
  rfl

theorem frame_fillStub (hnodup : d.all.Nodup) (t : SymbolTable) (slot index : Nat) :
    Frame [d.dynSym, d.dynStr, d.rel, d.got, d.hash, d.dynamic] entriesOf t
      (d.fillStub t slot index) := by
  refine .write (.write (.write (.refl _ _ t) (not_mem_of_all hnodup 5 rfl (by simp [all])) ?_)
    (not_mem_of_all hnodup 6 rfl (by simp [all])) ?_)
    (not_mem_of_all hnodup 7 rfl (by simp [all])) ?_
  · simp
  · simp [stubCode]
  · simp [slotEntry]

theorem get_fillStub (hnodup : d.all.Nodup) (htables : ∀ id ∈ d.all, id < t.size)
    (slot index : Nat) : (d.fillStub t slot index).get d.gotPlt =
        (t.get d.gotPlt).appendPatched .absolute d.plt 0 ∧
      (d.fillStub t slot index).get d.plt = d.stubCode slot (t.get d.plt) ∧
      (d.fillStub t slot index).get d.relPlt = d.slotEntry slot index (t.get d.relPlt) := by
  have hgp : d.gotPlt ≠ d.plt := ne_of_all hnodup 5 6 rfl rfl (by decide)
  have hgr : d.gotPlt ≠ d.relPlt := ne_of_all hnodup 5 7 rfl rfl (by decide)
  have hpr : d.plt ≠ d.relPlt := ne_of_all hnodup 6 7 rfl rfl (by decide)
  have hgotPlt := htables d.gotPlt (by simp [all])
  have hplt := htables d.plt (by simp [all])
  have hrelPlt := htables d.relPlt (by simp [all])
  simp only [fillStub]
  refine ⟨?_, ?_, ?_⟩
  · rw [get_modify_ne hgr, get_modify_ne hgp, get_modify_self hgotPlt]
  · rw [get_modify_ne hpr, get_modify_self (by rwa [size_modify]), get_modify_ne (Ne.symm hgp)]
  · rw [get_modify_self (by rwa [size_modify, size_modify]), get_modify_ne (Ne.symm hpr),
      get_modify_ne (Ne.symm hgr)]

theorem Stubs.snoc {j : Nat} (h : Stubs d t indexed stubs) (hnodup : d.all.Nodup)
    (htables : ∀ id ∈ d.all, id < t.size) (hlt : id < t.size) (hnone : (t.get id).pltOffset = none)
    (hnone' : (t.get id).gotPltOffset = none) (hj : indexed[j]? = some id) :
    Stubs d (noteStub (d.fillStub t (12 + 4 * stubs.length) (j + 1)) id (20 + 12 * stubs.length)
      (12 + 4 * stubs.length)) indexed (stubs ++ [id]) := by
  obtain ⟨hgotPlt, hplt, hrelPlt⟩ := get_fillStub hnodup htables (12 + 4 * stubs.length) (j + 1)
  have hentries := (frame_fillStub hnodup t (12 + 4 * stubs.length) (j + 1)).entries
  generalize d.fillStub t (12 + 4 * stubs.length) (j + 1) = t₁ at hgotPlt hplt hrelPlt hentries ⊢
  have hlt₁ : id < t₁.size := hentries.1.symm ▸ hlt
  have hnote : Keeps contents t₁
      (noteStub t₁ id (20 + 12 * stubs.length) (12 + 4 * stubs.length)) := .modify rfl
  have hdata (j : SymbolId) := (hnote.map (·.1)).2 j
  have hrelocations (j : SymbolId) := (hnote.map (·.2.2)).2 j
  simp only [contents] at hdata hrelocations
  have hslot : (d.slotEntry (12 + 4 * stubs.length) (j + 1) (t.get d.relPlt)).data =
      (t.get d.relPlt).data ++ (ofWord 0 ++ ofWord
        (info (.ofNat 32 (j + 1)) (.ofNat 32 jumpSlot))) := by
    simp [slotEntry, Symbol.appendPatched, Symbol.appendWord, Symbol.append]
  refine ⟨?_, ?_, ?_, ?_, ?_, ?_, fun k i hk => ?_⟩
  · exact (h.offset.keeps (hentries.map (·.2.1))).snoc hlt₁
      (((hentries.map (·.2.1)).2 id).trans hnone) rfl
  · exact (h.slot.keeps (hentries.map (·.2.2.1))).snoc hlt₁
      (((hentries.map (·.2.2.1)).2 id).trans hnone') rfl
  · simp only [hdata, hplt, stubCode, length_data_appendPatched, h.plt, length_append,
      length_singleton]
    omega
  · simp only [hdata, hgotPlt, length_data_appendPatched, h.gotPlt, length_append,
      length_singleton]
    omega
  · simp only [hdata, hrelPlt, hslot, h.relPlt, length_append, length_ofWord,
      length_singleton]
    omega
  · rw [hrelocations, hrelPlt, length_append, length_singleton, range_succ,
      map_append, ← h.site, map_singleton, ← h.relPlt]
    rfl
  · rw [hdata, hrelPlt, hslot]
    rcases eq_or_eq_of_getElem?_snoc hk with hk | ⟨rfl, rfl⟩
    · obtain ⟨j', hj', hslice⟩ := h.entry k i hk
      exact ⟨j', hj', slice?_append_left hslice _⟩
    · have hslice := slice?_append_self ((t.get d.relPlt).data ++ ofWord 0)
        (ofWord (info (.ofNat 32 (j + 1))
          (.ofNat 32 jumpSlot))) []
      rw [append_nil, append_assoc, length_append, length_ofWord,
        length_ofWord, h.relPlt] at hslice
      exact ⟨j, hj, hslice⟩

/-! ## Slots -/

/-- The global offset table has a word for each of these symbols. -/
structure Slots (d : DynamicTables) (t : SymbolTable) (slots : List SymbolId) : Prop where
  offset : Assigned Symbol.gotOffset (4 * ·) slots t
  length : (t.get d.got).data.length = 4 * slots.length

theorem Slots.frame (h : Slots d t slots) (hframe : Frame [d.got] Symbol.gotOffset t t') :
    Slots d t' slots :=
  ⟨h.offset.keeps hframe.entries, hframe.data d.got (by simp) ▸ h.length⟩

theorem Slots.renoted (h : Slots d t slots) (hd : Renoted d d') : Slots d' t slots := by
  obtain ⟨_, _, _, _, rfl⟩ := hd
  exact ⟨h.offset, h.length⟩

/-- The table with a slot that is not noted yet. -/
def fillSlot (d : DynamicTables) (t : SymbolTable) (id : SymbolId) (slot : Nat) :
    Option Nat → SymbolTable
  | some index =>
    appendRel d.rel (t.modify d.got (·.appendWord 0)) d.got slot index globDat
  | none => t.modify d.got (·.appendPatched .absolute id 0)

/-- The table with a slot noted at its symbol. -/
def noteSlot (t : SymbolTable) (id : SymbolId) (slot : Nat) : SymbolTable :=
  t.modify id fun s => { s with gotOffset := some slot }

theorem ensureSlot_of_import (hnone : (t.get id).gotOffset = none)
    (himport : (t.get id).isImport = true) (hindex : d.ensureIndex t id = (index, d', t')) :
    d.ensureSlot t id = ((t'.get d'.got).data.length, d',
      noteSlot (d'.fillSlot t' id (t'.get d'.got).data.length (some index)) id
        (t'.get d'.got).data.length) := by
  simp only [ensureSlot, hnone, himport, if_true, hindex]
  rfl

theorem ensureSlot_of_not_import (hnone : (t.get id).gotOffset = none)
    (himport : (t.get id).isImport = false) : d.ensureSlot t id = ((t.get d.got).data.length, d,
      noteSlot (d.fillSlot t id (t.get d.got).data.length none) id (t.get d.got).data.length) := by
  simp only [ensureSlot, hnone, himport]
  rfl

/-- A slot changes the global offset table and the relocations only. -/
theorem frame_fillSlot (hnodup : d.all.Nodup) (t : SymbolTable) (id : SymbolId) (slot : Nat)
    (index? : Option Nat) :
    Frame [d.dynSym, d.dynStr, d.relPlt, d.plt, d.gotPlt, d.hash, d.dynamic] entriesOf t
      (d.fillSlot t id slot index?) := by
  cases index? with
  | none => exact .write (.refl _ _ t) (not_mem_of_all hnodup 3 rfl (by simp [all])) (by simp)
  | some index =>
    exact .write (.write (.refl _ _ t) (not_mem_of_all hnodup 3 rfl (by simp [all])) (by simp))
      (not_mem_of_all hnodup 2 rfl (by simp [all])) (by simp)

theorem Slots.snoc (h : Slots d t slots) (hnodup : d.all.Nodup) (htable : d.got < t.size)
    (hlt : id < t.size) (hnone : (t.get id).gotOffset = none) (index? : Option Nat) :
    Slots d (noteSlot (d.fillSlot t id (4 * slots.length) index?) id (4 * slots.length))
      (slots ++ [id]) := by
  have hentries := (frame_fillSlot hnodup t id (4 * slots.length) index?).entries
  have hlength : ((d.fillSlot t id (4 * slots.length) index?).get d.got).data.length =
      4 * (slots.length + 1) := by
    cases index? with
    | none =>
      rw [fillSlot, get_modify_self htable, length_data_appendPatched, h.length]
      omega
    | some index =>
      have hne : d.got ≠ d.rel := ne_of_all hnodup 3 2 rfl rfl (by decide)
      rw [fillSlot, appendRel, get_modify_ne hne, get_modify_self htable,
        length_data_appendWord, h.length]
      omega
  generalize d.fillSlot t id (4 * slots.length) index? = t₁ at hentries hlength ⊢
  have hnote : Keeps contents t₁ (noteSlot t₁ id (4 * slots.length)) := .modify rfl
  have hdata := (hnote.map (·.1)).2 d.got
  simp only [contents] at hdata
  refine ⟨(h.offset.keeps (hentries.map (·.2.2.2))).snoc (hentries.1.symm ▸ hlt)
    (((hentries.map (·.2.2.2)).2 id).trans hnone) rfl, ?_⟩
  simp only [hdata, hlength, length_append, length_singleton]

end ArmLink.DynamicTables
