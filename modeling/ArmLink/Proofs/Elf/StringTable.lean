import ArmLink.Elf.StringTable
import ArmLink.Proofs.Except
import Mathlib.Algebra.Group.Nat.Defs
import Mathlib.Data.List.Infix

/-!
# Names in string tables

String tables only grow, so a name that was added to one is found at its offset in every table that
was made from it. Whatever else is added, the same name is given the same offset, and other names
are given other ones.
-/

namespace ArmLink.Elf.StringTable

open List

variable {t t' t'' : StringTable} {name : Bytes} {offset : Nat}

/-- The name stands at the offset, and a NUL behind it. -/
def Has (t : StringTable) (offset : Nat) (name : Bytes) : Prop :=
  name ++ [0] <+: t.bytes.drop offset

/-- The table knows where its names stand. -/
def Valid (t : StringTable) : Prop := ∀ e ∈ t.offsets, t.Has e.2 e.1

theorem valid_empty : empty.Valid := by
  rintro e he
  cases mem_singleton.mp he
  exact prefix_refl _

/-- A table that was made from another one by adding names. -/
structure Extends (t t' : StringTable) : Prop where
  bytes : t.bytes <+: t'.bytes
  valid : t.Valid → t'.Valid

namespace Extends

theorem refl (t : StringTable) : t.Extends t := ⟨prefix_refl _, id⟩

theorem trans (h : t.Extends t') (h' : t'.Extends t'') : t.Extends t'' :=
  ⟨h.bytes.trans h'.bytes, h'.valid ∘ h.valid⟩

end Extends

theorem Has.extends (h : t.Has offset name) (hext : t.Extends t') : t'.Has offset name :=
  IsPrefix.trans h (hext.bytes.drop offset)

/-- A table that was made from another one, and gives for its names what that one gave. -/
structure Remembers (t t' : StringTable) : Prop extends t.Extends t' where
  known : ∀ name offset, t.offsets.lookup name = some offset → t'.offsets.lookup name = some offset

namespace Remembers

variable {bytes bytes' : Bytes} {offsets : List (Bytes × Nat)}

theorem refl (t : StringTable) : t.Remembers t := ⟨.refl t, fun _ _ h => h⟩

theorem trans (h : t.Remembers t') (h' : t'.Remembers t'') : t.Remembers t'' :=
  ⟨h.toExtends.trans h'.toExtends, fun name offset hknown =>
    h'.known name offset (h.known name offset hknown)⟩

theorem grow (h : bytes <+: bytes') : Remembers ⟨bytes, offsets⟩ ⟨bytes', offsets⟩ :=
  ⟨⟨h, fun hvalid e he => IsPrefix.trans (hvalid e he) (h.drop _)⟩, fun _ _ hknown => hknown⟩

theorem cons (hnew : offsets.lookup name = none) (hhas : name ++ [0] <+: bytes.drop offset) :
    Remembers ⟨bytes, offsets⟩ ⟨bytes, (name, offset) :: offsets⟩ := by
  refine ⟨⟨prefix_rfl, fun hvalid => forall_mem_cons.mpr ⟨hhas, hvalid⟩⟩, fun other _ hknown => ?_⟩
  have hne : other ≠ name := by
    rintro rfl
    cases hnew.symm.trans hknown
  rw [lookup_cons, beq_false_of_ne hne]
  exact hknown

end Remembers

variable (t) (name)

theorem lookup_add : (t.add name).2.offsets.lookup name = some (t.add name).1 := by
  unfold add
  split
  · assumption
  · exact lookup_cons_self

theorem remembers_add : t.Remembers (t.add name).2 := by
  unfold add
  split
  · exact .refl t
  · rename_i hnew
    rw [append_assoc]
    refine (Remembers.grow (prefix_append ..)).trans (.cons hnew ?_)
    rw [drop_left]

theorem extends_add : t.Extends (t.add name).2 := (remembers_add t name).toExtends

/-- A name that was added stands at the offset that was given for it, whether it was there before or
not. -/
theorem has_add (h : t.Valid) : (t.add name).2.Has (t.add name).1 name := by
  obtain ⟨before, after, heq, -⟩ := lookup_eq_some_iff.mp (lookup_add t name)
  exact (extends_add t name).valid h (name, _) (heq ▸ mem_append_right _ mem_cons_self)

variable {t name}

theorem extends_addString (t : StringTable) (name : String) : t.Extends (t.addString name).2 :=
  extends_add ..

theorem has_addString (h : t.Valid) (name : String) :
    (t.addString name).2.Has (t.addString name).1 (Bytes.ofString name) :=
  has_add t _ h

theorem nameAt_of_has (h : t.Has offset name) (hnul : 0 ∉ name) : nameAt t.bytes offset = name := by
  obtain ⟨rest, hrest⟩ := h
  have hname : ∀ b ∈ name, (decide (b ≠ 0)) = true := fun b hb =>
    decide_eq_true fun hzero => hnul (hzero ▸ hb)
  rw [nameAt, ← hrest, append_assoc, takeWhile_append_of_pos hname]
  exact append_nil name

/-! ## Later tables -/

variable (t)

/-- The table after these names were added, one after the other. -/
def addAll (names : List Bytes) : StringTable :=
  names.foldl (fun t name => (t.add name).2) t

theorem remembers_addAll (names : List Bytes) : t.Remembers (t.addAll names) :=
  foldl_induction (P := t.Remembers) (.refl t) fun t' name _ h => h.trans (remembers_add t' name)

variable {t}

/-- **Kept.** From the table `t` on, in which a name was given its offset, to the table `t'` no byte
has changed, and the name stands at its offset. A name that is added to `t'` is given that offset if
and only if it is that name. -/
structure Keeps (name : Bytes) (offset : Word) (t t' : StringTable) : Prop where
  bytes : t.bytes <+: t'.bytes
  has : t'.Has offset.toNat name
  nameAt : nameAt t'.bytes offset.toNat = name
  same_iff : ∀ name', 0 ∉ name' → (t'.add name').2.bytes.length < 2 ^ 32 →
    (.ofNat 32 (t'.add name').1 = offset ↔ name' = name)

/-- Where a name stands, there is room for it. -/
theorem Has.lt (h : t.Has offset name) : offset < t.bytes.length := by
  have hle := h.length_le
  simp only [length_append, length_singleton, length_drop] at hle
  omega

/-- A table that needs no more than 32 bits for its offsets loses none of them. -/
theorem toNat_ofNat (h : t.Has offset name) (hsize : t.bytes.length < 2 ^ 32) :
    (BitVec.ofNat 32 offset).toNat = offset := by
  rw [BitVec.toNat_ofNat, Nat.mod_eq_of_lt (Nat.lt_trans h.lt hsize)]

theorem keeps_of_remembers (hvalid : t.Valid) (hnul : 0 ∉ name)
    (h : (t.add name).2.Remembers t') (hsize : t'.bytes.length < 2 ^ 32) :
    Keeps name (.ofNat 32 (t.add name).1) (t.add name).2 t' := by
  have hvalid' := h.valid ((extends_add ..).valid hvalid)
  have hhas := (has_add t name hvalid).extends h.toExtends
  have hoffset := toNat_ofNat hhas hsize
  refine ⟨h.bytes, hoffset.symm ▸ hhas, hoffset.symm ▸ nameAt_of_has hhas hnul,
    fun name' hnul' hsize' => ⟨fun heq => ?_, ?_⟩⟩
  · -- one offset holds one name
    have hhas' := has_add t' name' hvalid'
    have heq := congrArg BitVec.toNat heq
    rw [toNat_ofNat hhas' hsize', hoffset] at heq
    rw [← nameAt_of_has hhas' hnul', ← nameAt_of_has (hhas.extends (extends_add ..)) hnul, heq]
  · rintro rfl
    have hknown := h.known _ _ (lookup_add t name')
    have hagain := (remembers_add t' name').known _ _ hknown
    rw [lookup_add] at hagain
    rw [Option.some.inj hagain]

end ArmLink.Elf.StringTable
