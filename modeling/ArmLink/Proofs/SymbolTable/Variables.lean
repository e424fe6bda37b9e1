import ArmLink.Proofs.SymbolTable.Merge

/-!
# String variables

Setting a string variable gives two symbols their contents: the bytes of the value, and a pair that
leads to them. Whatever the two symbols were before, only what the contents do not decide is left of
it.
-/

namespace ArmLink

/-- What contents decide of a symbol: that it is not the linker's, its kind, its bytes, its size and
its relocations. -/
def Symbol.body (s : Symbol) : Bool × SymbolKind × Bytes × Nat × List (Relocation SymbolId) :=
  (s.special, s.kind, s.data, s.size, s.relocations)

namespace SymbolTable

variable {t t' t'' : SymbolTable} {name name' value value' : String} {names names' : List String}
  {id id' bytesId bytesId' : SymbolId}

/-! ## Other symbols -/

/-- From `t` to `t'` symbols that all files see stay where and what they are, unless they have one
of the names. -/
def Spares (names : List String) (t t' : SymbolTable) : Prop :=
  ∀ name id, name ∉ names → t.find? name 0 = some id →
    t'.find? name 0 = some id ∧ t'.get id = t.get id

namespace Spares

theorem trans (h : Spares names t t') (h' : Spares names' t' t'') :
    Spares (names ++ names') t t'' := by
  intro name id hname hfind
  rw [List.mem_append, not_or] at hname
  obtain ⟨hfind₁, hget₁⟩ := h name id hname.1 hfind
  obtain ⟨hfind₂, hget₂⟩ := h' name id hname.2 hfind₁
  exact ⟨hfind₂, hget₂.trans hget₁⟩

theorem lookup (t : SymbolTable) (name : String) (version : Nat) :
    Spares [] t (t.lookup name version).2 := by
  intro name' id _ hfind
  exact ⟨find?_lookup hfind, get_lookup_of_lt name version (find?_eq_some hfind).1⟩

theorem modify {f : Symbol → Symbol} (hfind : t.find? name 0 = some id)
    (hf : ∀ s, ((f s).name, (f s).version) = (s.name, s.version)) :
    Spares [name] t (t.modify id f) := by
  intro name' id' hname hfind'
  have hkeeps : Keeps (fun s => (s.name, s.version)) t (t.modify id f) := .modify (hf _)
  refine ⟨(hkeeps.find? name' 0).trans hfind', get_modify_ne ?_⟩
  rintro rfl
  have hsame : name' = name := (find?_eq_some hfind').2.1.symm.trans (find?_eq_some hfind).2.1
  exact hname (List.mem_singleton.mpr hsame)

end Spares

/-! ## Changes -/

/-- **Setting.** Setting a variable looks up two names and gives the symbols contents. What these
changes preserve is preserved. -/
theorem addStringVariable_induction {Q : SymbolTable → Prop}
    (h : t.addStringVariable name value = .ok (id, t')) (ht : Q t)
    (hlookup : ∀ t name, Q t → Q (t.lookup name 0).2)
    (hset : ∀ t id kind data size relocations, Q t → (t.get id).special = false →
      (kind = .readOnlyData ∧ relocations = [] ∨
        kind = .data ∧ ∃ target, relocations = [.pending 0 4 .absolute (some target) 0]) →
      Q (t.modify id fun s => { s with kind, data, size, relocations })) : Q t' := by
  simp only [addStringVariable] at h
  have h₁ := hlookup t (name ++ ".str") ht
  generalize t.lookup (name ++ ".str") 0 = found at h h₁
  split at h
  · cases h
  · rename_i hspecial
    have h₂ := hset _ found.1 .readOnlyData (Bytes.ofString value) (Bytes.ofString value).length []
      h₁ (Bool.eq_false_iff.mpr hspecial) (.inl ⟨rfl, rfl⟩)
    have h₃ := hlookup _ name h₂
    split at h
    · cases h
    · rename_i hspecial'
      cases h
      exact hset _ _ .data
        (Bytes.ofWord 0 ++ Bytes.ofWord (.ofNat 32 (Bytes.ofString value).length)) 8
        [.pending 0 4 .absolute (some found.1) 0] h₃ (Bool.eq_false_iff.mpr hspecial')
        (.inr ⟨rfl, found.1, rfl⟩)

/-! ## The symbols of a variable -/

/-- The contents of the bytes of a value. -/
def bytesBody (value : String) : Bool × SymbolKind × Bytes × Nat × List (Relocation SymbolId) :=
  (false, .readOnlyData, Bytes.ofString value, (Bytes.ofString value).length, [])

/-- The contents of a pair of the address and the length of these bytes. -/
def pairBody (bytesId : SymbolId) (value : String) :
    Bool × SymbolKind × Bytes × Nat × List (Relocation SymbolId) :=
  (false, .data, Bytes.ofWord 0 ++ Bytes.ofWord (.ofNat 32 (Bytes.ofString value).length), 8,
    [.pending 0 4 .absolute (some bytesId) 0])

/-- The variable stands for the value: `id` is the pair with its name, and `bytesId` are the bytes
that it leads to. -/
structure StandsFor (t : SymbolTable) (name value : String) (id bytesId : SymbolId) : Prop where
  found : t.find? name 0 = some id
  foundBytes : t.find? (name ++ ".str") 0 = some bytesId
  pair : (t.get id).body = pairBody bytesId value
  bytes : (t.get bytesId).body = bytesBody value

namespace StandsFor

variable (h : StandsFor t name value id bytesId)
include h

theorem kind : (t.get id).kind = .data := congrArg (·.2.1) h.pair

theorem relocations : (t.get id).relocations = [.pending 0 4 .absolute (some bytesId) 0] :=
  congrArg (·.2.2.2.2) h.pair

theorem kind_bytes : (t.get bytesId).kind = .readOnlyData := congrArg (·.2.1) h.bytes

theorem data_bytes : (t.get bytesId).data = Bytes.ofString value := congrArg (·.2.2.1) h.bytes

theorem relocations_bytes : (t.get bytesId).relocations = [] := congrArg (·.2.2.2.2) h.bytes

end StandsFor

theorem ne_derived (name : String) : name ≠ name ++ ".str" := by
  intro h
  have hlength := congrArg String.length h
  rw [String.length_append] at hlength
  have hderived : 0 < ".str".length := by decide
  omega

/-- Neither of two variables has the other's name, or the one that is derived from it. -/
def Apart (name name' : String) : Prop :=
  name' ≠ name ∧ name' ≠ name ++ ".str" ∧ name ≠ name' ++ ".str"

theorem StandsFor.spares (h : StandsFor t name' value' id' bytesId')
    (hspares : Spares [name, name ++ ".str"] t t') (hapart : Apart name name') :
    StandsFor t' name' value' id' bytesId' := by
  obtain ⟨hname, hderived, hderives⟩ := hapart
  obtain ⟨hfind, hget⟩ := hspares name' id' (by simp [hname, hderived]) h.found
  obtain ⟨hfindBytes, hgetBytes⟩ := hspares (name' ++ ".str") bytesId'
    (by simp [hderives.symm, String.append_left_inj, hname]) h.foundBytes
  exact ⟨hfind, hfindBytes, hget ▸ h.pair, hgetBytes ▸ h.bytes⟩

/-- **Variables.** A variable that is set stands for its value, and symbols with other names are
left alone. -/
theorem addStringVariable_ok (h : t.addStringVariable name value = .ok (id, t')) :
    (∃ bytesId, StandsFor t' name value id bytesId) ∧ Spares [name, name ++ ".str"] t t' := by
  simp only [addStringVariable] at h
  have hfind₀ := find?_lookup_self t (name ++ ".str") 0
  have hspares₀ := Spares.lookup t (name ++ ".str") 0
  generalize t.lookup (name ++ ".str") 0 = found at h hfind₀ hspares₀
  obtain ⟨bytesId, t₀⟩ := found
  split at h
  · cases h
  · rename_i hspecial
    generalize hset : t₀.modify bytesId _ = t₁ at h
    have hspares₁ : Spares [name ++ ".str"] t₀ t₁ := by
      rw [← hset]
      exact .modify hfind₀ fun _ => rfl
    have hkeeps₁ : Keeps (fun s => (s.name, s.version)) t₀ t₁ := by
      rw [← hset]
      exact .modify rfl
    have hbytes₁ : (t₁.get bytesId).body = bytesBody value := by
      rw [← hset, get_modify_self (find?_eq_some hfind₀).1]
      simp only [Symbol.body, bytesBody, Bool.eq_false_iff.mpr hspecial]
    have hfind₁ : t₁.find? (name ++ ".str") 0 = some bytesId := (hkeeps₁.find? _ _).trans hfind₀
    have hfind₂ := find?_lookup_self t₁ name 0
    have hspares₂ := Spares.lookup t₁ name 0
    generalize t₁.lookup name 0 = found at h hfind₂ hspares₂
    obtain ⟨id', t₂⟩ := found
    split at h
    · cases h
    · rename_i hspecial'
      obtain ⟨rfl, hpair⟩ := Prod.mk.inj (Except.ok.inj h)
      have hspares₃ : Spares [name] t₂ t' := by
        rw [← hpair]
        exact .modify hfind₂ fun _ => rfl
      have hkeeps₃ : Keeps (fun s => (s.name, s.version)) t₂ t' := by
        rw [← hpair]
        exact .modify rfl
      obtain ⟨hbytesFind, hbytesGet⟩ := hspares₂ _ _ List.not_mem_nil hfind₁
      obtain ⟨hlastFind, hlastGet⟩ := hspares₃ _ _ (by simp [(ne_derived name).symm]) hbytesFind
      refine ⟨⟨bytesId, (hkeeps₃.find? _ _).trans hfind₂, hlastFind, ?_, ?_⟩, ?_⟩
      · rw [← hpair, get_modify_self (find?_eq_some hfind₂).1]
        simp only [Symbol.body, pairBody, Symbol.appendPatched, Symbol.appendWord, Symbol.append,
          Bool.eq_false_iff.mpr hspecial']
        rfl
      · rw [hlastGet, hbytesGet, hbytes₁]
      · intro name' j hname hfind
        refine ((hspares₀.trans hspares₁).trans hspares₂).trans hspares₃ name' j ?_ hfind
        simpa [and_comm] using hname

end SymbolTable

end ArmLink
