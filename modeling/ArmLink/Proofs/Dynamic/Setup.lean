import ArmLink.Proofs.Dynamic.Tables

/-!
# Setting up the tables of the dynamic loader

Each table is a symbol that nothing defines. Nine of them with nine names are nine symbols, and
whatever was defined before stays as it is.
-/

namespace ArmLink.DynamicTables

open SymbolTable List

variable {t t' t'' : SymbolTable} {made : List (String × SymbolId)} {d : DynamicTables} {s : Symbol}
  {id : SymbolId}

/-- Whether a symbol is laid out like one of the inputs. -/
def isReady (s : Symbol) : Bool := s.reachable && s.kind.isPlaced && !s.special

theorem isReady_shell : isReady (shell s) = isReady s := rfl

def tableKind (name : String) : SymbolKind :=
  open Elf in
  if name = SectionName.plt then .codeTable
  else if name ∈ [SectionName.got, SectionName.gotPlt, SectionName.dynamic] then .writableTable
  else .readOnlyTable

theorem isPlaced_tableKind (name : String) : (tableKind name).isPlaced = true := by
  simp only [tableKind]
  split
  · rfl
  · split <;> rfl

/-- From `t` to `t'` the tables with these names were made. -/
structure Made (made : List (String × SymbolId)) (t t' : SymbolTable) : Prop where
  found : ∀ e ∈ made, t'.find? e.1 0 = some e.2
  undefined : ∀ e ∈ made, (t.get e.2).isDefined = false
  other : ∀ id, id ∉ made.map (·.2) → t'.get id = t.get id
  kept : ∀ name version id, t.find? name version = some id → t'.find? name version = some id
  start : ∀ id, (contents (t'.get id), entriesOf (t'.get id)) =
    (contents (t.get id), entriesOf (t.get id))
  imports : ∀ id, (t'.get id).isImport = (t.get id).isImport
  ready : ∀ e ∈ made, isReady (t'.get e.2) = true
  kind : ∀ e ∈ made, (t'.get e.2).kind = tableKind e.1

theorem isImport_of_isDefined (h : s.isDefined = false) : s.isImport = false := by
  have hkind : s.kind = .undefined := by
    simpa using (Bool.or_eq_false_iff.mp h).1
  rw [Symbol.isImport, hkind]
  rfl

theorem Made.nil (t : SymbolTable) : Made [] t t :=
  ⟨nofun, nofun, fun _ _ => rfl, fun _ _ _ h => h, fun _ => rfl, fun _ => rfl, nofun, nofun⟩

theorem isDefined_of_isReady (h : isReady s = true) : s.isDefined = true := by
  simp only [isReady, Bool.and_eq_true] at h
  cases hkind : s.kind <;> simp_all [Symbol.isDefined, SymbolKind.isPlaced]

theorem Made.newTable (h : Made made t t') {name : String} {kind : SymbolKind}
    {alignment : Alignment} (hnew : DynamicTables.newTable t' name kind alignment = .ok (id, t''))
    (hkindName : kind = tableKind name) : Made (made ++ [(name, id)]) t t'' := by
  have hplaced : kind.isPlaced = true := hkindName ▸ isPlaced_tableKind name
  have hkind : kind ≠ .dynamicImport := by
    rintro rfl
    cases hplaced
  unfold DynamicTables.newTable at hnew
  dsimp only at hnew
  split at hnew
  · cases hnew
  · rename_i hdefined
    cases hnew
    let found := t'.lookup name 0
    let define (s : Symbol) : Symbol :=
      { s with kind, alignment := some alignment, reachable := true }
    have hfind (name' : String) (version : Nat) :
        (found.2.modify found.1 define).find? name' version = found.2.find? name' version :=
      Keeps.find? (.modify rfl) name' version
    have hundefined : (t'.get found.1).isDefined = false :=
      (read_lookup Symbol.isDefined (fun _ _ => rfl) t' name 0 _).symm.trans
        (Bool.eq_false_iff.mpr hdefined)
    have hlt : found.1 < found.2.size := (find?_eq_some (find?_lookup_self t' name 0)).1
    refine ⟨?_, ?_, ?_, ?_, ?_, ?_, ?_, ?_⟩
    · intro e he
      refine (hfind e.1 0).trans ?_
      rcases mem_append.mp he with he | he
      · exact find?_lookup (h.found e he)
      · cases mem_singleton.mp he
        exact find?_lookup_self t' name 0
    · intro e he
      rcases mem_append.mp he with he | he
      · exact h.undefined e he
      · cases mem_singleton.mp he
        by_cases hmade : found.1 ∈ made.map (·.2)
        · obtain ⟨e, he, heq⟩ := mem_map.mp hmade
          exact heq ▸ h.undefined e he
        · rw [← h.other _ hmade]
          exact hundefined
    · intro j hj
      rw [map_append, mem_append, not_or, map_singleton, mem_singleton] at hj
      rw [get_modify_ne hj.2, ← h.other j hj.1]
      exact get_lookup_ne hj.2
    · exact fun name' version j hj =>
        (hfind name' version).trans (find?_lookup (h.kept name' version j hj))
    · intro j
      have hkeeps : Keeps (fun s => (contents s, entriesOf s)) found.2
          (found.2.modify found.1 define) := .modify rfl
      refine (hkeeps.2 j).trans (Eq.trans ?_ (h.start j))
      exact read_lookup (fun s => (contents s, entriesOf s)) (fun _ _ => rfl) ..
    · intro j
      rw [← h.imports j, get_modify]
      split
      · rename_i hj
        rw [hj.1]
        exact (decide_eq_false hkind).trans (isImport_of_isDefined hundefined).symm
      · exact read_lookup Symbol.isImport (fun _ _ => rfl) ..
    · intro e he
      by_cases heq : e.2 = found.1
      · have hspecial : (found.2.get found.1).special = false :=
          (Bool.or_eq_false_iff.mp (Bool.eq_false_iff.mpr hdefined)).2
        rw [heq, get_modify_self hlt]
        simp [isReady, hplaced, hspecial]
      · rcases mem_append.mp he with he | he
        · rw [get_modify_ne heq, get_lookup_ne heq]
          exact h.ready e he
        · cases mem_singleton.mp he
          exact absurd rfl heq
    · intro e he
      rcases mem_append.mp he with he | he
      · -- a table that was made before is defined, so it is another one
        have heq : e.2 ≠ found.1 := fun heq => by
          rw [← heq, isDefined_of_isReady (h.ready e he)] at hundefined
          cases hundefined
        rw [get_modify_ne heq, get_lookup_ne heq]
        exact h.kind e he
      · cases mem_singleton.mp he
        rw [get_modify_self hlt]
        exact hkindName

/-- Tables with different names are different symbols. -/
theorem Made.nodup (h : Made made t t') (hnames : (made.map (·.1)).Nodup) :
    (made.map (·.2)).Nodup := by
  have hmap : (made.map (·.2)).map (fun id => (t'.get id).name) = made.map (·.1) := by
    rw [map_map]
    exact map_congr_left fun e he => (find?_eq_some (h.found e he)).2.1
  rw [← hmap] at hnames
  exact Pairwise.of_map _ (fun _ _ hne heq => hne (heq ▸ rfl)) hnames

def named (d : DynamicTables) : List (String × SymbolId) :=
  open Elf in
  [(SectionName.dynSym, d.dynSym), (SectionName.dynStr, d.dynStr), (SectionName.rel, d.rel),
   (SectionName.got, d.got), (SectionName.hash, d.hash), (SectionName.gotPlt, d.gotPlt),
   (SectionName.plt, d.plt), (SectionName.relPlt, d.relPlt), (SectionName.dynamic, d.dynamic)]

theorem nodup_names (d : DynamicTables) : (d.named.map (·.1)).Nodup := by
  show [Elf.SectionName.dynSym, Elf.SectionName.dynStr, Elf.SectionName.rel, Elf.SectionName.got,
    Elf.SectionName.hash, Elf.SectionName.gotPlt, Elf.SectionName.plt, Elf.SectionName.relPlt,
    Elf.SectionName.dynamic].Nodup
  decide

/-- From `t` to `t'` the tables `d` were made. -/
structure IsSetUp (t : SymbolTable) (d : DynamicTables) (t' : SymbolTable) : Prop where
  nodup : d.all.Nodup
  found : ∀ e ∈ d.named, t'.find? e.1 0 = some e.2
  kind : ∀ e ∈ d.named, (t'.get e.2).kind = tableKind e.1
  undefined : ∀ id ∈ d.all, (t.get id).isDefined = false
  other : ∀ id, id ∉ d.all → t'.get id = t.get id
  kept : ∀ name version id, t.find? name version = some id → t'.find? name version = some id
  imports : ∀ id, (t'.get id).isImport = (t.get id).isImport
  ready : ∀ id ∈ d.all, isReady (t'.get id) = true
  inWords : (∀ id, (t.get id).pltOffset = none) →
    (∀ id, (t.get id).isDefined = false → (t.get id).data = []) → InWords d t'

theorem length_data_appendWords {words : List Word} :
    (words.foldl Symbol.appendWord s).data.length = s.data.length + 4 * words.length := by
  induction words generalizing s with
  | nil => rfl
  | cons w words ih =>
    rw [foldl_cons, ih, length_cons, length_data_appendWord]
    omega

theorem keeps_fill (d : DynamicTables) (t : SymbolTable) :
    Keeps (fun s => (shell s, entriesOf s)) t (d.fill t) := by
  refine .andModify (.andModify (.andModify (.modify ?_) ?_) ?_) ?_
  · rw [shell_append, entriesOf_append]
  · rw [shell_append, entriesOf_append]
  · rw [shell_appendPatched, entriesOf_appendPatched]
    exact (Grown.appendWords (P := fun _ => True) _ _).kept
  · rw [shell_append, entriesOf_append]

theorem get_fill (h : id ∉ d.all) : (d.fill t).get id = t.get id := by
  simp only [all, mem_cons, not_mem_nil, or_false, not_or] at h
  obtain ⟨hdynSym, hdynStr, -, -, -, hgotPlt, hplt, -, -⟩ := h
  unfold fill
  rw [get_modify_ne hgotPlt, get_modify_ne hplt, get_modify_ne hdynStr, get_modify_ne hdynSym]

/-- What the first contents of the tables are put behind. -/
theorem get_fill_table (hnodup : d.all.Nodup) (htables : ∀ id ∈ d.all, id < t.size) :
    (d.fill t).get d.dynSym = (t.get d.dynSym).append (Bytes.zeros 16) ∧
      (d.fill t).get d.dynStr = (t.get d.dynStr).append [0] ∧
      (d.fill t).get d.plt =
        (Arm.Machine.pltHeader.foldl Symbol.appendWord (t.get d.plt)).appendPatched .pcRelative
          d.gotPlt 4 ∧
      (d.fill t).get d.gotPlt =
        (t.get d.gotPlt).append (Bytes.zeros (4 * Arm.Machine.reservedSlots)) ∧
      ∀ id ∈ [d.rel, d.relPlt, d.got, d.hash, d.dynamic], (d.fill t).get id = t.get id := by
  have hdynSym := htables d.dynSym (by simp [all])
  have hdynStr := htables d.dynStr (by simp [all])
  have hplt := htables d.plt (by simp [all])
  have hgotPlt := htables d.gotPlt (by simp [all])
  have hne : d.dynSym ≠ d.dynStr ∧ d.dynSym ≠ d.plt ∧ d.dynSym ≠ d.gotPlt ∧ d.dynStr ≠ d.plt ∧
      d.dynStr ≠ d.gotPlt ∧ d.plt ≠ d.gotPlt ∧ ∀ id ∈ [d.rel, d.relPlt, d.got, d.hash, d.dynamic],
        id ≠ d.dynSym ∧ id ≠ d.dynStr ∧ id ≠ d.plt ∧ id ≠ d.gotPlt := by
    simp only [all, nodup_cons, mem_cons, not_mem_nil, or_false] at hnodup ⊢
    grind
  obtain ⟨h₁, h₂, h₃, h₄, h₅, h₆, hrest⟩ := hne
  simp only [fill]
  refine ⟨?_, ?_, ?_, ?_, fun id hid => ?_⟩
  · rw [get_modify_ne h₃, get_modify_ne h₂, get_modify_ne h₁, get_modify_self hdynSym]
  · rw [get_modify_ne h₅, get_modify_ne h₄, get_modify_self (by rwa [size_modify]),
      get_modify_ne (Ne.symm h₁)]
  · rw [get_modify_ne h₆, get_modify_self (by rwa [size_modify, size_modify]),
      get_modify_ne (Ne.symm h₄), get_modify_ne (Ne.symm h₂)]
  · rw [get_modify_self (by rwa [size_modify, size_modify, size_modify]),
      get_modify_ne (Ne.symm h₆), get_modify_ne (Ne.symm h₅), get_modify_ne (Ne.symm h₃)]
  · obtain ⟨hi₁, hi₂, hi₃, hi₄⟩ := hrest id hid
    rw [get_modify_ne hi₄, get_modify_ne hi₃, get_modify_ne hi₂, get_modify_ne hi₁]

theorem length_fill (hnodup : d.all.Nodup) (htables : ∀ id ∈ d.all, id < t.size)
    (hdata : (t.get d.plt).data = []) : 4 ∣ ((d.fill t).get d.plt).data.length ∧
      ((d.fill t).get d.plt).size = ((d.fill t).get d.plt).data.length := by
  obtain ⟨-, -, hplt, -⟩ := get_fill_table hnodup htables
  rw [hplt, size_appendPatched, length_data_appendPatched, length_data_appendWords, hdata]
  exact ⟨by decide, rfl⟩

theorem setup_made (h : setup t = .ok (d, t')) : (∃ t₁, Made d.named t t₁ ∧ t' = d.fill t₁) ∧
      d.nameOffsets = [("", 0)] ∧ d.needed = [] ∧ d.neededNames = [] ∧ d.count = 1 ∧
      d.textRel = false := by
  obtain ⟨⟨dynSym, t₁⟩, h₁, h⟩ := bind_eq_ok.mp h
  obtain ⟨⟨dynStr, t₂⟩, h₂, h⟩ := bind_eq_ok.mp h
  obtain ⟨⟨rel, t₃⟩, h₃, h⟩ := bind_eq_ok.mp h
  obtain ⟨⟨got, t₄⟩, h₄, h⟩ := bind_eq_ok.mp h
  obtain ⟨⟨hash, t₅⟩, h₅, h⟩ := bind_eq_ok.mp h
  obtain ⟨⟨gotPlt, t₆⟩, h₆, h⟩ := bind_eq_ok.mp h
  obtain ⟨⟨plt, t₇⟩, h₇, h⟩ := bind_eq_ok.mp h
  obtain ⟨⟨relPlt, t₈⟩, h₈, h⟩ := bind_eq_ok.mp h
  obtain ⟨⟨dynamic, t₉⟩, h₉, ⟨⟩⟩ := bind_pure_eq_ok.mp h
  have hmade₃ := (((Made.nil t).newTable h₁ rfl).newTable h₂ rfl).newTable h₃ rfl
  have hmade₆ := ((hmade₃.newTable h₄ rfl).newTable h₅ rfl).newTable h₆ rfl
  exact ⟨⟨t₉, ((hmade₆.newTable h₇ rfl).newTable h₈ rfl).newTable h₉ rfl, rfl⟩, rfl, rfl,
    rfl, rfl, rfl⟩

/-- All tables are there, and nothing else has changed. -/
theorem setup_ok (h : setup t = .ok (d, t')) : IsSetUp t d t' := by
  obtain ⟨⟨t₁, hmade, rfl⟩, -⟩ := setup_made h
  have hnodup : d.all.Nodup := hmade.nodup d.nodup_names
  have hkeeps := d.keeps_fill t₁
  have hfind (name : String) (version : Nat) :
      (d.fill t₁).find? name version = t₁.find? name version :=
    Keeps.find? (hkeeps.map fun s => (s.1.name, s.1.version)) name version
  have htables : ∀ id ∈ d.all, id < t₁.size ∧ (t.get id).isDefined = false := by
    intro id hid
    obtain ⟨e, he, rfl⟩ := mem_map.mp (show id ∈ d.named.map (·.2) from hid)
    exact ⟨(find?_eq_some (hmade.found e he)).1, hmade.undefined e he⟩
  have hkind : Keeps Symbol.kind t₁ (d.fill t₁) := hkeeps.map fun s => s.1.kind
  refine ⟨hnodup, fun e he => (hfind _ 0).trans (hmade.found e he),
    fun e he => (hkind.2 e.2).trans (hmade.kind e he),
    fun id hid => (htables id hid).2,
    fun id hid => (get_fill hid).trans (hmade.other id hid),
    fun name version id h => (hfind name version).trans (hmade.kept name version id h),
    fun id => ?_, fun id hid => ?_, fun hnone hempty => ?_⟩
  · have himports : Keeps Symbol.isImport t₁ (d.fill t₁) := hkeeps.map fun s => s.1.isImport
    exact (himports.2 id).trans (hmade.imports id)
  · obtain ⟨e, he, rfl⟩ := mem_map.mp (show id ∈ d.named.map (·.2) from hid)
    have hshell : Keeps shell t₁ (d.fill t₁) := hkeeps.map Prod.fst
    rw [← isReady_shell, hshell.2 e.2, isReady_shell]
    exact hmade.ready e he
  have hdata : (t₁.get d.plt).data = [] :=
    (congrArg (·.1.1) (hmade.start d.plt)).trans (hempty _ (htables _ d.plt_mem_all).2)
  obtain ⟨hlength, hsize⟩ := length_fill hnodup (fun id hid => (htables id hid).1) hdata
  refine ⟨hlength, hsize, fun id stub hstub => ?_⟩
  have hstubs : Keeps (·.pltOffset) t₁ (d.fill t₁) := hkeeps.map (·.2.2.1)
  have hnew : (t₁.get id).pltOffset = some stub := (hstubs.2 id).symm.trans hstub
  have hold : (t₁.get id).pltOffset = (t.get id).pltOffset := congrArg (·.2.2.1) (hmade.start id)
  rw [hold, hnone] at hnew
  cases hnew

end ArmLink.DynamicTables
