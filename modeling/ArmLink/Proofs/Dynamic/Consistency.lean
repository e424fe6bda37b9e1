import ArmLink.Proofs.Dynamic.Ledger

/-!
# The tables of the dynamic loader stay consistent

After any number of requests the tables are those of the ledger: each table has an entry for each
symbol that asked for one, in the order of the ledger, and what is noted at the symbol tells where
it is. A request that was made before changes nothing.
-/

namespace ArmLink.DynamicTables

open SymbolTable List

variable {d d' : DynamicTables} {t t' t₀ : SymbolTable} {id : SymbolId} {l l' : Ledger}
  {answer : Option Nat} {call : Call}

/-! ## The tables of a ledger -/

/-- The tables hold the entries of the ledger. -/
structure Holds (d : DynamicTables) (t : SymbolTable) (l : Ledger) : Prop where
  nodup : d.all.Nodup
  tables : ∀ id ∈ d.all, id < t.size
  sized : Sized d t
  names : Names d t
  indexed : Indexed d t l.indexed
  stubs : Stubs d t l.indexed l.stubs
  slots : Slots d t l.slots
  libraries : Libraries d t l.libraries

theorem Holds.namesAdded {libraries : List String} (h : Holds d t l)
    (hadded : NamesAdded d t d' t') (hlibraries : Libraries d' t' libraries) :
    Holds d' t' { l with libraries } := by
  -- no name goes to another table
  have hframe : Frame [d.plt, d.gotPlt, d.relPlt, d.got] entriesOf t t' :=
    hadded.frame (not_mem_of_all h.nodup 1 rfl (by simp [all]))
  have hindexed := h.indexed.namesAdded hadded (ne_of_all h.nodup 0 1 rfl rfl (by decide))
  have hsize := hadded.kept.1
  have hsized : Sized d t' := by
    intro id hid
    by_cases heq : id = d.dynStr
    · exact heq ▸ hadded.sized (h.sized d.dynStr (by simp [all]))
    · rw [hadded.other id heq]
      exact h.sized id hid
  have hstubs := (h.stubs.frame (hframe.mono (by simp) fun e => (e.2.1, e.2.2.1))
    prefix_rfl).renoted hadded.renoted.1
  have hslots := (h.slots.frame (hframe.mono (by simp) (·.2.2.2))).renoted hadded.renoted.1
  obtain ⟨_, _, _, _, rfl⟩ := hadded.renoted.1
  exact ⟨h.nodup, fun id hid => hsize.symm ▸ h.tables id hid, hsized, hadded.names, hindexed,
    hstubs, hslots, hlibraries⟩

theorem Holds.recount (h : Holds d t l) (count : Nat) : Holds { d with count } t l :=
  ⟨h.nodup, h.tables, h.sized, h.names, h.indexed.renoted ⟨_, _, _, _, rfl⟩,
    h.stubs.renoted ⟨_, _, _, _, rfl⟩, h.slots.renoted ⟨_, _, _, _, rfl⟩,
    ⟨h.libraries.names, h.libraries.nodup, h.libraries.offsets⟩⟩

theorem Holds.written {ids indexed stubs slots : List SymbolId} {α : Type} {g : Symbol → α}
    (h : Holds d t l) (hframe : Frame (d.dynStr :: ids) g t t') (hsized : Sized d t')
    (hindexed : Indexed d t' indexed) (hstubs : Stubs d t' indexed stubs)
    (hslots : Slots d t' slots) : Holds d t' { l with indexed, stubs, slots } := by
  have hdynStr := hframe.data d.dynStr (by simp)
  refine ⟨h.nodup, fun id hid => hframe.entries.1.symm ▸ h.tables id hid, hsized, ?_, hindexed,
    hstubs, hslots, ⟨h.libraries.names, h.libraries.nodup, ?_⟩⟩
  · intro e he
    rw [hdynStr]
    exact h.names e he
  · rw [hdynStr]
    exact h.libraries.offsets

theorem Holds.enter {offset : Nat} (h : Holds d t l) (hlt : id < t.size)
    (hnone : (t.get id).dynamicIndex = none)
    (hname : IsNameAt (t.get d.dynStr).data offset (t.get id).dynamicName) :
    Holds d (d.enter t id offset (l.indexed.length + 1))
      { l with indexed := l.indexed ++ [id] } := by
  have htable := h.tables d.dynSym (by simp [all])
  have hne : d.dynSym ≠ d.dynStr := ne_of_all h.nodup 0 1 rfl rfl (by decide)
  have hindexed := h.indexed.enter hne htable hlt hnone hname
  have hframe : Frame [d.dynStr, d.relPlt, d.plt, d.got, d.gotPlt] (fun s => (entriesOf s).2) t
      (d.enter t id offset (l.indexed.length + 1)) :=
    .note (.write (.refl _ _ t) (not_mem_of_all h.nodup 0 rfl (by simp [all]))
      fun s => congrArg (·.2.2) (kept_appendEntry ..)) (fun _ => rfl) fun _ => rfl
  have hsized : Sized d (d.enter t id offset (l.indexed.length + 1)) := by
    refine .note (h.sized.write fun s => ?_) fun _ => rfl
    obtain ⟨-, -, -, hsize⟩ := appendEntry_spec s id (t.get id) offset
    exact hsize
  exact h.written hframe hsized hindexed
    (h.stubs.frame (hframe.mono (by simp) fun e => (e.1, e.2.1)) (prefix_append _ _))
    (h.slots.frame (hframe.mono (by simp) (·.2.2)))

theorem Holds.addStub {j : Nat} (h : Holds d t l) (hlt : id < t.size)
    (hnone : (t.get id).pltOffset = none) (hj : l.indexed[j]? = some id) :
    Holds d (noteStub (d.fillStub t (12 + 4 * l.stubs.length) (j + 1)) id
      (20 + 12 * l.stubs.length) (12 + 4 * l.stubs.length))
      { l with stubs := l.stubs ++ [id] } := by
  have hnone' : (t.get id).gotPltOffset = none :=
    h.stubs.slot.none_of_not_mem (h.stubs.offset.not_mem_of_none hnone)
  have hstubs := h.stubs.snoc h.nodup h.tables hlt hnone hnone' hj
  have hframe := frame_fillStub h.nodup t (12 + 4 * l.stubs.length) (j + 1)
  have hsized : Sized d (d.fillStub t (12 + 4 * l.stubs.length) (j + 1)) := by
    refine .write (.write (h.sized.write fun s => ?_) fun s => ?_) fun s => ?_
    · exact size_appendPatched ..
    · exact size_appendPatched ..
    · exact size_appendWord ..
  have hshell : Keeps shell t (d.fillStub t (12 + 4 * l.stubs.length) (j + 1)) :=
    .andModify (.andModify (.modify (by simp)) (by simp [stubCode])) (by simp [slotEntry])
  generalize d.fillStub t (12 + 4 * l.stubs.length) (j + 1) = t₁ at hstubs hframe hsized hshell ⊢
  have hnoted : Frame [d.dynStr, d.dynSym, d.got] (fun s => (s.dynamicIndex, s.gotOffset)) t
      (noteStub t₁ id (20 + 12 * l.stubs.length) (12 + 4 * l.stubs.length)) :=
    .note (hframe.mono (by simp) fun e => (e.1, e.2.2.2)) (fun _ => rfl) fun _ => rfl
  have hindexed := h.indexed.frame (hshell.trans (.modify rfl)) (hnoted.mono (by simp) (·.1))
  exact h.written hnoted (hsized.note fun _ => rfl) hindexed hstubs
    (h.slots.frame (hnoted.mono (by simp) (·.2)))

theorem Holds.addSlot (h : Holds d t l) (hlt : id < t.size)
    (hnone : (t.get id).gotOffset = none) (index? : Option Nat) :
    Holds d (noteSlot (d.fillSlot t id (4 * l.slots.length) index?) id (4 * l.slots.length))
      { l with slots := l.slots ++ [id] } := by
  have hslots := h.slots.snoc h.nodup (h.tables d.got (by simp [all])) hlt hnone index?
  have hframe := frame_fillSlot h.nodup t id (4 * l.slots.length) index?
  have hsized : Sized d (d.fillSlot t id (4 * l.slots.length) index?) := by
    cases index? with
    | none => exact h.sized.write fun s => size_appendPatched ..
    | some index =>
      exact (h.sized.write fun s => size_appendWord ..).write fun s => size_appendWord ..
  have hshell : Keeps shell t (d.fillSlot t id (4 * l.slots.length) index?) := by
    cases index? with
    | none => exact .modify (by simp)
    | some index => exact .andModify (.modify (by simp)) (by simp)
  generalize d.fillSlot t id (4 * l.slots.length) index? = t₁ at hslots hframe hsized hshell ⊢
  have hnoted : Frame [d.dynStr, d.dynSym, d.plt, d.gotPlt, d.relPlt]
      (fun s => (s.dynamicIndex, s.pltOffset, s.gotPltOffset)) t
      (noteSlot t₁ id (4 * l.slots.length)) :=
    .note (hframe.mono (by simp) fun e => (e.1, e.2.1, e.2.2.1)) (fun _ => rfl) fun _ => rfl
  have hindexed := h.indexed.frame (hshell.trans (.modify rfl)) (hnoted.mono (by simp) (·.1))
  exact h.written hnoted (hsized.note fun _ => rfl) hindexed
    (h.stubs.frame (hnoted.mono (by simp) (·.2)) prefix_rfl) hslots

/-! ## One request -/

/-- The tables hold the entries of the ledger, and the symbols are those of the table `t₀`. -/
structure Consistent (t₀ : SymbolTable) (d : DynamicTables) (t : SymbolTable) (l : Ledger) :
    Prop where
  holds : Holds d t l
  /-- the dynamic symbols are counted, and the null symbol with them -/
  count : d.count = l.indexed.length + 1
  shell : Keeps shell t₀ t
  closed : l.Closed t₀

namespace Consistent

variable (h : Consistent t₀ d t l)
include h

theorem libraryOf_eq (id : SymbolId) : libraryOf (t.get id) = libraryOf (t₀.get id) :=
  (h.shell.map libraryOf).2 id

theorem isImport_eq (id : SymbolId) : (t.get id).isImport = (t₀.get id).isImport :=
  (h.shell.map Symbol.isImport).2 id

theorem lt_size (hlt : id < t₀.size) : id < t.size := h.shell.1.symm ▸ hlt

theorem addNeeded {library : String} (hrun : d.addNeeded t library = (d', t')) :
    Consistent t₀ d' t' (l.need library) := by
  obtain ⟨hadded, hlibraries⟩ := addNeeded_spec (h.holds.tables d.dynStr (by simp [all]))
    h.holds.names h.holds.libraries hrun
  exact ⟨h.holds.namesAdded hadded hlibraries, hadded.renoted.2.trans h.count,
    h.shell.trans (hadded.kept.map (·.1)), h.closed.record (.need library)⟩

theorem ensureIndex {index : Nat} (hlt : id < t₀.size)
    (hrun : d.ensureIndex t id = (index, d', t')) :
    Consistent t₀ d' t' (l.index t₀ id) ∧ (t'.get id).dynamicIndex = some index := by
  cases hindex : (t.get id).dynamicIndex with
  | some i =>
    simp only [DynamicTables.ensureIndex, hindex] at hrun
    cases hrun
    rw [h.closed.index_of_mem (h.holds.indexed.index.mem_of_some hindex)]
    exact ⟨h, hindex⟩
  | none =>
    have hnew := h.holds.indexed.index.not_mem_of_none hindex
    rcases hadd : addName { d with count := d.count + 1 } t (t.get id).dynamicName with
      ⟨offset, d₁, t₁⟩
    -- the name is added, the entry is made, and the library is noted
    have hcounted := h.holds.recount (d.count + 1)
    obtain ⟨hadded, hname, hneeded, hneededNames⟩ :=
      addName_spec (d := { d with count := d.count + 1 }) (hcounted.tables d.dynStr (by simp [all]))
        hcounted.names hadd
    have hholds₁ := hcounted.namesAdded hadded
      (hcounted.libraries.namesAdded hadded hneeded hneededNames)
    have hsame : (t₁.get id).dynamicName = (t.get id).dynamicName :=
      (hadded.kept.map (·.1.dynamicName)).2 id
    have hindex₁ : (t₁.get id).dynamicIndex = none :=
      ((hadded.kept.map (·.2.1)).2 id).trans hindex
    have hlt₁ : id < t₁.size := hadded.kept.1.symm ▸ h.lt_size hlt
    have hdynStr : d₁.dynStr = d.dynStr := by
      obtain ⟨_, _, _, _, rfl⟩ := hadded.renoted.1
      rfl
    have hholds₂ := hholds₁.enter hlt₁ hindex₁ (hdynStr.symm ▸ hsame.symm ▸ hname)
    have hshell₂ : Keeps DynamicTables.shell t (d₁.enter t₁ id offset d.count) :=
      (hadded.kept.map (·.1)).trans
        (.andModify (.modify (congrArg (·.1) (kept_appendEntry ..))) rfl)
    have hself : ((d₁.enter t₁ id offset d.count).get id).dynamicIndex = some d.count := by
      rw [enter, get_modify_self (by rwa [size_modify])]
    rw [ensureIndex_of_none hindex hadd] at hrun
    rw [← h.count] at hholds₂
    have hmid : Holds d₁ (d₁.enter t₁ id offset d.count)
        { l with indexed := extend l.indexed id } := by
      rw [extend_of_not_mem hnew]
      exact hholds₂
    have hcount : d₁.count = (extend l.indexed id).length + 1 := by
      rw [extend_of_not_mem hnew, length_append, hadded.renoted.2, h.count]
      rfl
    have hlibrary : libraryOf (t₁.get id) = libraryOf (t₀.get id) :=
      ((hadded.kept.map (libraryOf ·.1)).2 id).trans (h.libraryOf_eq id)
    have hclosed := h.closed.index id
    rw [hlibrary] at hrun
    simp only [Ledger.index] at hclosed ⊢
    cases hlib : libraryOf (t₀.get id) with
    | none =>
      simp only [hlib, addLibrary] at hrun hclosed ⊢
      cases hrun
      exact ⟨⟨hmid, hcount, h.shell.trans hshell₂, hclosed⟩, hself⟩
    | some library =>
      simp only [hlib, addLibrary, Prod.mk.injEq] at hrun hclosed ⊢
      obtain ⟨rfl, hrun⟩ := hrun
      obtain ⟨hadded', hlibraries⟩ := addNeeded_spec (hmid.tables d₁.dynStr (by simp [all]))
        hmid.names hmid.libraries hrun
      exact ⟨⟨hmid.namesAdded hadded' hlibraries, hadded'.renoted.2.trans hcount,
        h.shell.trans (hshell₂.trans (hadded'.kept.map (·.1))), hclosed⟩,
        ((hadded'.kept.map (·.2.1)).2 id).trans hself⟩

theorem ensureStub {stub : Nat} (hlt : id < t₀.size) (hrun : d.ensureStub t id = (stub, d', t')) :
    Consistent t₀ d' t' (l.record t₀ (.stub id)) ∧ (t'.get id).pltOffset = some stub := by
  have hshell := (grows_ensureStub [] d t id).shell
  have hclosed := h.closed.record (.stub id)
  rw [hrun] at hshell
  rcases hindex : d.ensureIndex t id with ⟨index, d₁, t₁⟩
  obtain ⟨h₁, hindexed⟩ := h.ensureIndex hlt hindex
  obtain ⟨j, hj, rfl⟩ := (h₁.holds.indexed.index.read_iff id _).mp hindexed
  obtain ⟨-, hstubs, -⟩ := l.index_lists t₀ id
  simp only [Ledger.record, hstubs] at hclosed ⊢
  cases hstub : (t.get id).pltOffset with
  | some n =>
    simp only [DynamicTables.ensureStub, hstub] at hrun
    cases hrun
    have hmem := h.holds.stubs.offset.mem_of_some hstub
    -- an import that has a stub has an index already, so that asking for one changes nothing
    obtain ⟨k, hk⟩ := mem_iff_getElem?.mp hmem
    obtain ⟨i, hi, -⟩ := h.holds.stubs.entry k id hk
    have hi := (h.holds.indexed.index.read_iff id _).mpr ⟨i, hi, rfl⟩
    simp only [DynamicTables.ensureIndex, hi] at hindex
    cases hindex
    rw [extend_of_mem hmem, ← hstubs]
    exact ⟨h₁, hstub⟩
  | none =>
    have hnew := h.holds.stubs.offset.not_mem_of_none hstub
    have hnone₁ : (t₁.get id).pltOffset = none :=
      h₁.holds.stubs.offset.none_of_not_mem (hstubs.symm ▸ hnew)
    have hplt : (t₁.get d₁.plt).size = 20 + 12 * l.stubs.length := by
      rw [h₁.holds.sized d₁.plt (by simp [all]), h₁.holds.stubs.plt, hstubs]
    have hgotPlt : (t₁.get d₁.gotPlt).data.length = 12 + 4 * l.stubs.length := by
      rw [h₁.holds.stubs.gotPlt, hstubs]
    have hholds := h₁.holds.addStub (h₁.lt_size hlt) hnone₁ hj
    have hne := ne_of_all h₁.holds.nodup 6 5 rfl rfl (by decide)
    rw [ensureStub_of_none hne hstub hindex, hplt, hgotPlt] at hrun
    rw [hstubs] at hholds
    cases hrun
    rw [extend_of_not_mem hnew] at hclosed ⊢
    refine ⟨⟨hholds, h₁.count, h.shell.trans hshell, hclosed⟩, ?_⟩
    rw [hholds.stubs.offset.read_iff]
    exact ⟨l.stubs.length, by simp, rfl⟩

theorem ensureSlot {slot : Nat} (hlt : id < t₀.size) (hrun : d.ensureSlot t id = (slot, d', t')) :
    Consistent t₀ d' t' (l.record t₀ (.slot id)) ∧ (t'.get id).gotOffset = some slot := by
  have hshell := (grows_ensureSlot [] d t id).shell
  have hclosed := h.closed.record (.slot id)
  rw [hrun] at hshell
  obtain ⟨-, -, hslots⟩ := l.index_lists t₀ id
  -- what is done before the slot is made, and the slot itself
  obtain ⟨l₁, hl₁, hrecord⟩ : ∃ l₁ : Ledger,
      l₁ = (if (t₀.get id).isImport then l.index t₀ id else l) ∧
      l.record t₀ (.slot id) = { l₁ with slots := extend l.slots id } := by
    refine ⟨_, rfl, ?_⟩
    simp only [Ledger.record]
    split
    · rw [hslots]
    · rfl
  rw [hrecord] at hclosed ⊢
  have hslots₁ : l₁.slots = l.slots := by
    rw [hl₁]
    split
    · exact hslots
    · rfl
  cases hslot : (t.get id).gotOffset with
  | some n =>
    simp only [DynamicTables.ensureSlot, hslot] at hrun
    cases hrun
    have hmem := h.holds.slots.offset.mem_of_some hslot
    have hsame : l₁ = l := by
      rw [hl₁]
      split
      · exact h.closed.index_of_mem (h.closed.slots id hmem ‹_›)
      · rfl
    rw [extend_of_mem hmem, hsame]
    exact ⟨h, hslot⟩
  | none =>
    have hnew := h.holds.slots.offset.not_mem_of_none hslot
    obtain ⟨d₁, t₁, index?, h₁, heq⟩ : ∃ d₁ t₁ index?, Consistent t₀ d₁ t₁ l₁ ∧
        d.ensureSlot t id = ((t₁.get d₁.got).data.length, d₁,
          noteSlot (d₁.fillSlot t₁ id (t₁.get d₁.got).data.length index?) id
            (t₁.get d₁.got).data.length) := by
      cases himport : (t₀.get id).isImport with
      | true =>
        rcases hindex : d.ensureIndex t id with ⟨index, d₁, t₁⟩
        simp only [himport, if_true] at hl₁
        exact ⟨d₁, t₁, some index, hl₁ ▸ (h.ensureIndex hlt hindex).1,
          ensureSlot_of_import hslot ((h.isImport_eq id).trans himport) hindex⟩
      | false =>
        simp only [himport] at hl₁
        exact ⟨d, t, none, hl₁ ▸ h,
          ensureSlot_of_not_import hslot ((h.isImport_eq id).trans himport)⟩
    have hnone₁ : (t₁.get id).gotOffset = none :=
      h₁.holds.slots.offset.none_of_not_mem (hslots₁.symm ▸ hnew)
    have hholds := h₁.holds.addSlot (h₁.lt_size hlt) hnone₁ index?
    rw [heq, h₁.holds.slots.length] at hrun
    cases hrun
    rw [extend_of_not_mem hnew, ← hslots₁] at hclosed ⊢
    refine ⟨⟨hholds, h₁.count, h.shell.trans hshell, hclosed⟩, ?_⟩
    rw [hholds.slots.offset.read_iff]
    exact ⟨l₁.slots.length, by simp, rfl⟩

theorem exportSymbols {ids : List SymbolId} (hids : ∀ id ∈ ids, id < t₀.size)
    (hrun : ids.foldl (fun s id => (s.1.ensureIndex s.2 id).2) (d, t) = (d', t')) :
    Consistent t₀ d' t' (ids.foldl (Ledger.index t₀) l) := by
  induction ids generalizing d t l with
  | nil =>
    cases hrun
    exact h
  | cons id ids ih =>
    obtain ⟨hid, hids⟩ := forall_mem_cons.mp hids
    rcases hindex : d.ensureIndex t id with ⟨index, d₁, t₁⟩
    rw [foldl_cons, hindex] at hrun
    exact ih (h.ensureIndex hid hindex).1 hids hrun

end Consistent

/-! ## Any requests -/

/-- The request was made and had this answer. -/
def Settled (answer : Option Nat) (d : DynamicTables) (t : SymbolTable) : Call → Prop
  | .index id => answer.isSome ∧ (t.get id).dynamicIndex = answer
  | .stub id => answer.isSome ∧ (t.get id).pltOffset = answer
  | .slot id => answer.isSome ∧ (t.get id).gotOffset = answer
  | .need library => answer = none ∧ library ∈ d.neededNames
  | .exports => answer = none ∧ ∀ id ∈ t.exported, (t.get id).dynamicIndex.isSome

theorem exported_eq (h : Keeps shell t t') : t'.exported = t.exported := by
  have hexported : Keeps (fun s => s.exported && s.isDefined) t t' :=
    h.map fun s => s.exported && s.isDefined
  rw [exported, exported, h.ids]
  exact filter_congr fun id _ => hexported.2 id

theorem exported_lt (h : id ∈ t.exported) : id < t.size :=
  mem_ids.mp (mem_filter.mp h).1

/-- A request that was made before has the same answer and changes nothing. -/
theorem Settled.perform (h : Settled answer d t call) : perform call (d, t) = (answer, d, t) := by
  cases call with
  | index id =>
    obtain ⟨index, rfl⟩ := Option.isSome_iff_exists.mp h.1
    simp only [DynamicTables.perform, ensureIndex, h.2]
  | stub id =>
    obtain ⟨stub, rfl⟩ := Option.isSome_iff_exists.mp h.1
    simp only [DynamicTables.perform, ensureStub, h.2]
  | slot id =>
    obtain ⟨slot, rfl⟩ := Option.isSome_iff_exists.mp h.1
    simp only [DynamicTables.perform, ensureSlot, h.2]
  | need library =>
    obtain ⟨rfl, hmem⟩ := h
    simp only [DynamicTables.perform, addNeeded, contains_iff_mem, hmem, if_true]
  | exports =>
    obtain ⟨rfl, hall⟩ := h
    refine congrArg (none, ·) ?_
    refine foldl_induction (P := fun s => s = (d, t)) rfl fun s id hid hs => ?_
    obtain ⟨index, hindex⟩ := Option.isSome_iff_exists.mp (hall id hid)
    simp only [hs, ensureIndex, hindex]

theorem Settled.mono (hs : Settled answer d t call) (h : Consistent t₀ d t l)
    (h' : Consistent t₀ d' t' l') (hle : l.Le l') : Settled answer d' t' call := by
  cases call with
  | index id =>
    obtain ⟨index, rfl⟩ := Option.isSome_iff_exists.mp hs.1
    exact ⟨rfl, h.holds.indexed.index.mono h'.holds.indexed.index hle.indexed hs.2⟩
  | stub id =>
    obtain ⟨stub, rfl⟩ := Option.isSome_iff_exists.mp hs.1
    exact ⟨rfl, h.holds.stubs.offset.mono h'.holds.stubs.offset hle.stubs hs.2⟩
  | slot id =>
    obtain ⟨slot, rfl⟩ := Option.isSome_iff_exists.mp hs.1
    exact ⟨rfl, h.holds.slots.offset.mono h'.holds.slots.offset hle.slots hs.2⟩
  | need library =>
    obtain ⟨rfl, hmem⟩ := hs
    simp only [Settled, h.holds.libraries.names, h'.holds.libraries.names, mem_reverse]
      at hmem ⊢
    exact ⟨trivial, hle.libraries.subset hmem⟩
  | exports =>
    obtain ⟨rfl, hall⟩ := hs
    refine ⟨rfl, fun id hid => ?_⟩
    rw [exported_eq h'.shell, ← exported_eq h.shell] at hid
    obtain ⟨index, hindex⟩ := Option.isSome_iff_exists.mp (hall id hid)
    rw [h.holds.indexed.index.mono h'.holds.indexed.index hle.indexed hindex]
    rfl

namespace Consistent

/-- **Step.** One more request. -/
theorem perform (h : Consistent t₀ d t l) (hvalid : call.Valid t₀)
    (hrun : DynamicTables.perform call (d, t) = (answer, d', t')) :
    Consistent t₀ d' t' (l.record t₀ call) ∧ Settled answer d' t' call := by
  cases call with
  | index id =>
    rcases hindex : d.ensureIndex t id with ⟨index, d₁, t₁⟩
    simp only [DynamicTables.perform, hindex] at hrun
    cases hrun
    obtain ⟨h', hsome⟩ := h.ensureIndex hvalid hindex
    exact ⟨h', rfl, hsome⟩
  | stub id =>
    rcases hstub : d.ensureStub t id with ⟨stub, d₁, t₁⟩
    simp only [DynamicTables.perform, hstub] at hrun
    cases hrun
    obtain ⟨h', hsome⟩ := h.ensureStub hvalid.1 hstub
    exact ⟨h', rfl, hsome⟩
  | slot id =>
    rcases hslot : d.ensureSlot t id with ⟨slot, d₁, t₁⟩
    simp only [DynamicTables.perform, hslot] at hrun
    cases hrun
    obtain ⟨h', hsome⟩ := h.ensureSlot hvalid hslot
    exact ⟨h', rfl, hsome⟩
  | need library =>
    simp only [DynamicTables.perform, Prod.mk.injEq] at hrun
    obtain ⟨rfl, hneed⟩ := hrun
    have h' := h.addNeeded hneed
    refine ⟨h', rfl, ?_⟩
    rw [h'.holds.libraries.names, mem_reverse]
    exact mem_extend.mpr (.inr rfl)
  | exports =>
    simp only [DynamicTables.perform, DynamicTables.exportSymbols, exported_eq h.shell,
      Prod.mk.injEq] at hrun
    obtain ⟨rfl, hexport⟩ := hrun
    have h' := h.exportSymbols (fun id hid => exported_lt hid) hexport
    refine ⟨h', rfl, fun id hid => ?_⟩
    rw [exported_eq h'.shell] at hid
    exact h'.holds.indexed.index.isSome_of_mem (Ledger.mem_foldl_index hid t₀ l)

/-- **Run.** Any number of requests. -/
theorem run {calls : List Call} (h : Consistent t₀ d t l)
    (hvalid : ∀ call ∈ calls, call.Valid t₀) (hrun : DynamicTables.run calls (d, t) = (d', t')) :
    Consistent t₀ d' t' (calls.foldl (Ledger.record t₀) l) := by
  induction calls generalizing d t l with
  | nil =>
    cases hrun
    exact h
  | cons call calls ih =>
    obtain ⟨hcall, hvalid⟩ := forall_mem_cons.mp hvalid
    rcases hstep : DynamicTables.perform call (d, t) with ⟨answer, d₁, t₁⟩
    rw [DynamicTables.run, foldl_cons, hstep] at hrun
    exact ih (h.perform hcall hstep).1 hvalid hrun

end Consistent

/-- A request that was made is settled from then on. -/
theorem Consistent.settled {before after : List Call} {d₁ d₂ : DynamicTables} {t₁ t₂ : SymbolTable}
    (h : Consistent t₀ d t l) (hvalid : ∀ c ∈ before ++ call :: after, c.Valid t₀)
    (hbefore : DynamicTables.run before (d, t) = (d₁, t₁))
    (hcall : DynamicTables.perform call (d₁, t₁) = (answer, d₂, t₂))
    (hafter : DynamicTables.run after (d₂, t₂) = (d', t')) : Settled answer d' t' call := by
  obtain ⟨hvalid₁, hvalid⟩ := forall_mem_append.mp hvalid
  obtain ⟨hvalidCall, hvalid₂⟩ := forall_mem_cons.mp hvalid
  have h₁ := h.run hvalid₁ hbefore
  obtain ⟨h₂, hsettled⟩ := h₁.perform hvalidCall hcall
  exact hsettled.mono h₂ (h₂.run hvalid₂ hafter) (Ledger.le_foldl_record t₀ _ after)

/-! ## The first tables -/

/-- No table holds anything for the symbol, and nothing is known of its contents if nothing defines
it. -/
structure Fresh (s : Symbol) : Prop where
  entries : entriesOf s = (none, none, none, none)
  empty : s.isDefined = false → contents s = ([], 0, [])

instance (s : Symbol) : Decidable (Fresh s) :=
  decidable_of_iff (entriesOf s = (none, none, none, none) ∧
    (s.isDefined = false → contents s = ([], 0, [])))
    ⟨fun h => ⟨h.1, h.2⟩, fun h => ⟨h.entries, h.empty⟩⟩

theorem fresh_default : Fresh default := by decide

theorem Made.empty {made : List (String × SymbolId)} (hmade : Made made t t')
    (hfresh : ∀ id, Fresh (t.get id)) :
    ∀ id ∈ made.map (·.2), id < t'.size ∧ contents (t'.get id) = ([], 0, []) := by
  intro id hid
  obtain ⟨e, he, rfl⟩ := mem_map.mp hid
  refine ⟨(find?_eq_some (hmade.found e he)).1, ?_⟩
  exact (congrArg Prod.fst (hmade.start e.2)).trans ((hfresh e.2).empty (hmade.undefined e he))

/-- What the tables hold as soon as they are made. -/
structure FirstContents (d : DynamicTables) (t : SymbolTable) : Prop where
  nodup : d.all.Nodup
  tables : ∀ id ∈ d.all, id < t.size
  dynSym : contents (t.get d.dynSym) = (Bytes.zeros 16, 16, [])
  dynStr : contents (t.get d.dynStr) = ([0], 1, [])
  gotPlt : contents (t.get d.gotPlt) = (Bytes.zeros 12, 12, [])
  /-- the code that calls the loader and finds its slots by a relocation -/
  plt : ∃ code : Bytes, code.length = 20 ∧
    contents (t.get d.plt) = (code, 20, [.pending 16 4 .pcRelative (some d.gotPlt) 4])
  others : ∀ id ∈ [d.rel, d.relPlt, d.got, d.hash, d.dynamic], contents (t.get id) = ([], 0, [])

theorem contents_append {s : Symbol} (h : contents s = ([], 0, [])) (bytes : Bytes) :
    contents (s.append bytes) = (bytes, bytes.length, []) := by
  simp only [contents, Prod.mk.injEq] at h
  simp [contents, Symbol.append, h]

theorem firstContents_of_setup (hfresh : ∀ id, Fresh (t.get id)) (hsetup : setup t = .ok (d, t')) :
    FirstContents d t' := by
  obtain ⟨⟨t₁, hmade, rfl⟩, -⟩ := setup_made hsetup
  have hnodup : d.all.Nodup := hmade.nodup d.nodup_names
  have hempty : ∀ id ∈ d.all, id < t₁.size ∧ contents (t₁.get id) = ([], 0, []) :=
    hmade.empty hfresh
  have htables : ∀ id ∈ d.all, id < t₁.size := fun id hid => (hempty id hid).1
  obtain ⟨hdynSym, hdynStr, hplt, hgotPlt, hrest⟩ := get_fill_table hnodup htables
  refine ⟨hnodup, fun id hid => (d.keeps_fill t₁).1.symm ▸ htables id hid, ?_, ?_, ?_, ?_,
    fun id hid => ?_⟩
  · rw [hdynSym]
    exact contents_append (hempty _ (by simp [all])).2 _
  · rw [hdynStr]
    exact contents_append (hempty _ (by simp [all])).2 _
  · rw [hgotPlt]
    exact contents_append (hempty _ (by simp [all])).2 _
  · have hstart := (hempty _ d.plt_mem_all).2
    simp only [contents, Prod.mk.injEq] at hstart
    have hlength : ((d.fill t₁).get d.plt).data.length = 20 := by
      rw [hplt, length_data_appendPatched, length_data_appendWords, hstart.1]
      rfl
    refine ⟨_, hlength, Prod.ext rfl (Prod.ext ?_ ?_)⟩
    · simp only [contents]
      rw [hplt, size_appendPatched, ← hplt, hlength]
    · simp [hplt, contents, Arm.Machine.pltHeader, Symbol.appendPatched, Symbol.appendWord,
        Symbol.append, hstart]
  · rw [hrest id hid]
    refine (hempty id ?_).2
    simp only [all, mem_cons, not_mem_nil, or_false] at hid ⊢
    grind

namespace FirstContents

variable (h : FirstContents d t)
include h

/-- Only the code that calls the loader has a relocation. -/
theorem cases (hid : id ∈ d.all) : ∃ data rs, contents (t.get id) = (data, data.length, rs) ∧
      (rs = [] ∨ data.length = 20 ∧ rs = [.pending 16 4 .pcRelative (some d.gotPlt) 4]) := by
  have hcases : id ∈ [d.rel, d.relPlt, d.got, d.hash, d.dynamic] ∨ id = d.dynSym ∨
      id = d.dynStr ∨ id = d.gotPlt ∨ id = d.plt := by
    simp only [all, mem_cons, not_mem_nil, or_false] at hid ⊢
    grind
  rcases hcases with hid | rfl | rfl | rfl | rfl
  · exact ⟨_, _, h.others id hid, .inl rfl⟩
  · exact ⟨_, _, h.dynSym, .inl rfl⟩
  · exact ⟨_, _, h.dynStr, .inl rfl⟩
  · exact ⟨_, _, h.gotPlt, .inl rfl⟩
  · obtain ⟨code, hlength, hplt⟩ := h.plt
    exact ⟨_, _, hlength.symm ▸ hplt, .inr ⟨hlength, rfl⟩⟩

theorem sized : Sized d t := by
  intro id hid
  obtain ⟨data, rs, hcontents, -⟩ := h.cases hid
  simp only [contents, Prod.mk.injEq] at hcontents
  rw [hcontents.1, hcontents.2.1]

end FirstContents

/-- The tables are consistent as soon as they are made. -/
theorem consistent_of_setup (hfresh : ∀ id, Fresh (t.get id)) (hsetup : setup t = .ok (d, t')) :
    Consistent t' d t' {} := by
  have hfirst := firstContents_of_setup hfresh hsetup
  obtain ⟨⟨t₁, hmade, rfl⟩, hnameOffsets, hneeded, hneededNames, hcount, -⟩ := setup_made hsetup
  have hkeeps : Keeps entriesOf t₁ (d.fill t₁) := (d.keeps_fill t₁).map (·.2)
  have hentries (id : SymbolId) : ((d.fill t₁).get id).dynamicIndex = none ∧
      ((d.fill t₁).get id).pltOffset = none ∧ ((d.fill t₁).get id).gotPltOffset = none ∧
      ((d.fill t₁).get id).gotOffset = none := by
    have hnone : entriesOf ((d.fill t₁).get id) = (none, none, none, none) := by
      rw [hkeeps.2, ← (hfresh id).entries]
      exact congrArg Prod.snd (hmade.start id)
    simpa only [entriesOf, Prod.mk.injEq] using hnone
  generalize d.fill t₁ = t at *
  have hdata {id : SymbolId} {data : Bytes} {size : Nat} {rs : List (Relocation SymbolId)}
      (h : contents (t.get id) = (data, size, rs)) : (t.get id).data = data := congrArg Prod.fst h
  have hnames : Names d t := by
    intro e he
    rw [hnameOffsets, mem_singleton] at he
    rw [he, hdata hfirst.dynStr, IsNameAt]
    decide +kernel
  obtain ⟨code, hlength, hplt⟩ := hfirst.plt
  have hrelPlt := hfirst.others d.relPlt (by simp)
  have hindexed : Indexed d t [] := by
    refine ⟨.nil fun id => (hentries id).1, ?_, (by simp)⟩
    rw [hdata hfirst.dynSym]
    rfl
  have hstubs : Stubs d t [] [] := by
    refine ⟨.nil fun id => (hentries id).2.1, .nil fun id => (hentries id).2.2.1,
      (hdata hplt).symm ▸ hlength, hdata hfirst.gotPlt ▸ rfl, ?_, ?_, (by simp)⟩
    · rw [hdata hrelPlt]
      rfl
    · exact congrArg (·.2.2) hrelPlt
  have hslots : Slots d t [] := by
    refine ⟨.nil fun id => (hentries id).2.2.2, ?_⟩
    rw [hdata (hfirst.others d.got (by simp))]
    rfl
  have hlibraries : Libraries d t [] := by
    refine ⟨hneededNames, .nil, ?_⟩
    rw [hneeded]
    exact .nil
  exact ⟨⟨hfirst.nodup, hfirst.tables, hfirst.sized, hnames, hindexed, hstubs, hslots, hlibraries⟩,
    hcount, .refl _, (by simp), (by simp)⟩

end ArmLink.DynamicTables
