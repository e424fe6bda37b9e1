import ArmLink.Proofs.Resolve.HostLink
import ArmLink.Proofs.Resolve.Once
import Mathlib.Data.BitVec

/-!
# Numbers that are read back

A number of 64 bits is written to the bytes of a relocation, of which there may be fewer. Read as
unsigned or as two's complement, they give the number back if and only if it lies in their range
(`readBack_ofNat`). That is what is checked of the value of a relocation with a target
(`checkFit_eq_ok`), and of nothing else: constants, relocations without a target and addends for the
host linker are cut off.
-/

namespace ArmLink

open Relocation (Kind)

/-- The two's complement number that a string of little-endian bytes stands for. -/
def Bytes.toInt (bytes : Bytes) : Int := (bytes.toNat : Int).bmod (256 ^ bytes.length)

namespace Resolve

open SymbolTable

variable {t t' : SymbolTable} {c : Context} {owner : SymbolId} {r : Relocation SymbolId}
  {kind : Kind} {kind? : Option Kind} {v : Word64} {size : Nat} {x : Resolved} {l : Layout}
  {external : Bool}

/-! ## Ranges -/

/-- Whether bytes are read as two's complement only: distances of four bytes are. -/
def isSignedOnly (kind? : Option Kind) (size : Nat) : Bool := kind? = some .pcRelative && size = 4

/-- The number is read back from the bytes. -/
def ReadBack (kind? : Option Kind) (v : Word64) (bytes : Bytes) : Prop :=
  bytes.toInt = v.toInt ∨ isSignedOnly kind? bytes.length = false ∧ bytes.toNat = v.toNat

/-- The number lies in the range of that many bytes. -/
def InRange (kind? : Option Kind) (size : Nat) (v : Word64) : Prop :=
  (-256 ^ size ≤ 2 * v.toInt ∧ 2 * v.toInt < 256 ^ size) ∨
    isSignedOnly kind? size = false ∧ v.toNat < 256 ^ size

instance (kind? : Option Kind) (v : Word64) (bytes : Bytes) : Decidable (ReadBack kind? v bytes) :=
  inferInstanceAs (Decidable (_ ∨ _))

instance (kind? : Option Kind) (size : Nat) (v : Word64) : Decidable (InRange kind? size v) :=
  inferInstanceAs (Decidable (_ ∨ _))

/-- As long as the number is no shorter, its low bytes stand for it up to their range. -/
theorem toInt_ofNat (hsize : size ≤ 8) (v : Word64) :
    (Bytes.ofNat size v.toNat).toInt = v.toInt.bmod (256 ^ size) := by
  have hdvd : 256 ^ size ∣ 2 ^ 64 := Nat.pow_dvd_pow 256 hsize
  rw [Bytes.toInt, Bytes.length_ofNat, Bytes.toNat_ofNat, BitVec.toInt_eq_toNat_bmod,
    Int.bmod_bmod_of_dvd hdvd, Int.natCast_emod, Int.emod_bmod]

theorem bmod_eq_self {m : Nat} {a : Int} (hm : 0 < m) : a.bmod m = a ↔ -m ≤ 2 * a ∧ 2 * a < m := by
  rw [Int.bmod_eq_iff hm, Int.sub_self]
  constructor
  · rintro ⟨hle, hlt, -⟩
    omega
  · rintro ⟨hle, hlt⟩
    exact ⟨by omega, by omega, Int.dvd_zero _⟩

/-- Only from as many bytes as it needs is a number read back. -/
theorem readBack_ofNat : ReadBack kind? v (.ofNat size v.toNat) ↔ InRange kind? size v := by
  have hpos : 0 < 256 ^ size := Nat.pow_pos (by decide)
  unfold ReadBack InRange
  rw [Bytes.length_ofNat, Bytes.toNat_ofNat, Nat.mod_eq_iff_lt (Nat.ne_of_gt hpos)]
  by_cases hsize : size ≤ 8
  · rw [toInt_ofNat hsize, bmod_eq_self hpos, Int.natCast_pow, Int.cast_ofNat_Int]
  · -- more bytes than the number has hold it unsigned
    have hlt : v.toNat < 256 ^ size :=
      Nat.lt_of_lt_of_le v.isLt
        (Nat.pow_le_pow_right (n := 256) (by decide) (Nat.le_of_not_le hsize))
    have hunsigned : isSignedOnly kind? size = false := by
      rw [isSignedOnly, decide_eq_false (p := size = 4) (by omega), Bool.and_false]
    exact iff_of_true (.inr ⟨hunsigned, hlt⟩) (.inr ⟨hunsigned, hlt⟩)

/-- Numbers have one, two, four or eight bytes, and a value is checked against their range. -/
theorem checkFit_eq_ok :
    checkFit kind size v = .ok () ↔ size ∈ [1, 2, 4, 8] ∧ InRange (some kind) size v := by
  unfold checkFit InRange isSignedOnly
  split
  · exact iff_of_true rfl ⟨by decide, .inl ⟨v.le_two_mul_toInt, v.two_mul_toInt_lt⟩⟩
  · by_cases hkind : kind = .pcRelative
    · simp [hkind]
      omega
    · simp [hkind]
      omega
  · simp
    omega
  · simp
    omega
  · rename_i hne₈ hne₄ hne₂ hne₁
    refine iff_of_false nofun fun ⟨hsize, _⟩ => ?_
    simp only [List.mem_cons, List.not_mem_nil, or_false] at hsize
    exact hsize.elim hne₁ (Or.elim · hne₂ (Or.elim · hne₄ hne₈))

/-! ## Sites -/

/-- Whether the number that a relocation amounts to has bounds: the value of a relocation with a
target has, and so has the instruction of a branch, whoever resolves it. -/
def isBounded (r : Relocation SymbolId) (x : Resolved) : Bool :=
  match r.outcome, x with
  | .pending _ (some _) _, .value _ => true
  | .pending .call (some _) _, .deferred .. => true
  | _, _ => false

theorem inRange_of_isBounded (h : ResolvesTo c t owner r x) (hbounded : isBounded r x = true) :
    r.size ∈ [1, 2, 4, 8] ∧ InRange r.kind? r.size x.word := by
  unfold isBounded at hbounded
  split at hbounded
  · rename_i kind target addend v hr
    have hkind : r.kind? = some kind := by rw [Relocation.kind?, hr]
    rcases resolve_pending hr h.resolve with ⟨-, hrestate⟩ | ⟨_, ⟨⟩, -, hfits⟩
    · obtain ⟨_, ⟨⟩, -⟩ := restate_some hrestate
    · exact hkind ▸ checkFit_eq_ok.mp hfits
  · rename_i target addend kind' root addend' hr
    obtain ⟨type, htype⟩ := h.hostType _ _ _ rfl
    rcases resolve_pending hr h.resolve with ⟨-, hrestate⟩ | ⟨_, ⟨⟩, -⟩
    obtain ⟨_, ⟨⟩, -, ⟨⟩⟩ := restate_some hrestate
    -- an instruction is a word, and only words are passed on
    have hkind : r.kind? = some .call := by rw [Relocation.kind?, hr]
    rw [size_of_hostType htype, hkind]
    refine ⟨by decide, .inr ⟨rfl, ?_⟩⟩
    rw [Resolved.word, BitVec.toNat_setWidth_of_le (by decide)]
    exact BitVec.isLt _
  · cases hbounded

/-- Relocations that are applied amount to something, and it is written where they stand. -/
theorem resolvesTo_of_apply {hosts : List HostRelocation}
    {before after : List (Relocation SymbolId)}
    (h : apply t l external = .ok (t', hosts)) (hsite : isSite (t.get owner) = true)
    (hr : (t.get owner).relocations = before ++ r :: after) :
    ∃ x, ResolvesTo ⟨l, external, gotAddress t⟩ t owner r x ∧ ((∀ r' ∈ after, ¬ Overlap r r') →
      (t'.get owner).data.slice? r.offset r.size = some (.ofNat r.size x.word.toNat)) := by
  obtain ⟨-, hall⟩ := apply_ok h
  obtain ⟨done, happlied, -⟩ := (hall owner).site hsite
  obtain ⟨_, hsettle, -, -, hslice⟩ := happlied.site hr
  obtain ⟨x, hx, rfl⟩ := settle_eq_ok.mp hsettle
  exact ⟨x, hx, hslice⟩

/-- **Numbers that fit.** What a relocation amounts to is read back from the bytes where it stands
if and only if it lies in their range, given that no later relocation overlaps them. If it has
bounds it does, and a relocation with a target whose value does not makes application fail. -/
theorem values_read_back (t : SymbolTable) (l : Layout) (external : Bool) :
    (∀ t' hosts, apply t l external = .ok (t', hosts) →
      ∀ owner r before after, isSite (t.get owner) = true →
        (t.get owner).relocations = before ++ r :: after →
        ∃ x, resolve ⟨l, external, gotAddress t⟩ t owner r = .ok x ∧
          (isBounded r x = true → r.size ∈ [1, 2, 4, 8] ∧ InRange r.kind? r.size x.word) ∧
          ((∀ r' ∈ after, ¬ Overlap r r') →
            ∃ bytes, (t'.get owner).data.slice? r.offset r.size = some bytes ∧
              (ReadBack r.kind? x.word bytes ↔ InRange r.kind? r.size x.word))) ∧
    ∀ owner r kind target addend v, isSite (t.get owner) = true → r ∈ (t.get owner).relocations →
      r.outcome = .pending kind (some target) addend →
      (external = true →
        restate t owner kind target addend r.size (siteOf t owner r kind target) = .ok none) →
      valueOf ⟨l, external, gotAddress t⟩ t owner r kind target addend
        (siteOf t owner r kind target) = .ok v →
      ¬ (r.size ∈ [1, 2, 4, 8] ∧ InRange (some kind) r.size v) →
      ∃ failure, apply t l external = .error failure := by
  constructor
  · intro t' hosts happly owner r before after hsite hr
    obtain ⟨x, hx, hslice⟩ := resolvesTo_of_apply happly hsite hr
    exact ⟨x, hx.resolve, inRange_of_isBounded hx, fun hafter => ⟨_, hslice hafter, readBack_ofNat⟩⟩
  · intro owner r kind target addend v hsite hmem hr hrestate hv hrange
    cases happly : apply t l external with
    | error failure => exact ⟨failure, rfl⟩
    | ok result =>
      obtain ⟨before, after, hsplit⟩ := List.append_of_mem hmem
      obtain ⟨x, hx, -⟩ := resolvesTo_of_apply happly hsite hsplit
      rcases resolve_pending hr hx.resolve with ⟨hexternal, hsome⟩ | ⟨v', -, hv', hfits⟩
      · cases (hrestate hexternal).symm.trans hsome
      · cases hv.symm.trans hv'
        exact absurd (checkFit_eq_ok.mp hfits) hrange

/-- A symbol with a constant, a number without a target and an address, none of which fits the bytes
where it stands, and with a size that does. -/
def wideSample : SymbolTable :=
  ⟨SymbolTable.initial.symbols ++ (
    [{ name := "main", version := 0, kind := .text, size := 14, value := some 4096,
       sectionId := some 0, reachable := true
       relocations :=
         [⟨0, 1, .constant 300⟩, .pending 4 4 .absolute none (2 ^ 32),
          .pending 8 4 .absolute (some 20) (2 ^ 32), .pending 12 2 .size (some 20) (-5)] },
     { name := "table", version := 0, kind := .data, size := 4, value := some 8192,
       sectionId := some 1, reachable := true }] : List Symbol)⟩

theorem values_read_back_sample : (∃ t' hosts, apply wideSample default true = .ok (t', hosts) ∧
      (t'.get 19).data.slice? 12 2 = some [0xff, 0xff] ∧
      ReadBack (some .size) (-1) [0xff, 0xff]) ∧
    valueOf ⟨default, false, gotAddress wideSample⟩ wideSample 19
      (.pending 8 4 .absolute (some 20) (2 ^ 32)) .absolute 20 (2 ^ 32)
      (siteOf wideSample 19 (.pending 8 4 .absolute (some 20) (2 ^ 32)) .absolute 20) =
        .ok 0x100002000 ∧
    ∃ failure, apply wideSample default false = .error failure := by
  obtain ⟨t', hosts, happly, hdata⟩ :
      ∃ t' hosts, apply wideSample default true = .ok (t', hosts) ∧
        (t'.get 19).data.slice? 12 2 = some [0xff, 0xff] := by
    decide +kernel
  obtain ⟨hsite, hrelocations, hresolve, hv⟩ : isSite (wideSample.get 19) = true ∧
      (wideSample.get 19).relocations =
        [⟨0, 1, .constant 300⟩, .pending 4 4 .absolute none (2 ^ 32),
          .pending 8 4 .absolute (some 20) (2 ^ 32)] ++ [.pending 12 2 .size (some 20) (-5)] ∧
      resolve ⟨default, true, gotAddress wideSample⟩ wideSample 19
        (.pending 12 2 .size (some 20) (-5)) = .ok (.value (-1)) ∧
      valueOf ⟨default, false, gotAddress wideSample⟩ wideSample 19
        (.pending 8 4 .absolute (some 20) (2 ^ 32)) .absolute 20 (2 ^ 32)
        (siteOf wideSample 19 (.pending 8 4 .absolute (some 20) (2 ^ 32)) .absolute 20) =
          .ok 0x100002000 := by
    decide +kernel
  obtain ⟨x, hx, hbounds, hbytes⟩ :=
    (values_read_back _ _ _).1 t' hosts happly 19 _ _ _ hsite hrelocations
  cases hresolve.symm.trans hx
  obtain ⟨bytes, hslice, hiff⟩ := hbytes nofun
  cases hdata.symm.trans hslice
  refine ⟨⟨t', hosts, happly, hdata, hiff.mpr (hbounds rfl).2⟩, hv, ?_⟩
  exact (values_read_back _ _ _).2 19 _ .absolute 20 _ _ hsite (hrelocations ▸ by decide) rfl nofun
    hv (by decide)

/-- Not all numbers are read back: the constant, the number without a target and the address that is
left to the host linker are cut off. -/
theorem values_cut_off : ∃ t' hosts, apply wideSample default true = .ok (t', hosts) ∧
      (t'.get 19).data.slice? 0 1 = some [44] ∧ ¬ ReadBack none 300 [44] ∧
      (t'.get 19).data.slice? 4 8 = some [0, 0, 0, 0, 0, 0, 0, 0] ∧
      (t'.get 19).relocations.take 3 = [⟨0, 1, .constant 300⟩, ⟨4, 4, .constant (2 ^ 32)⟩,
        ⟨8, 4, .deferred .absolute 20 (2 ^ 32)⟩] ∧
      ¬ ReadBack (some .absolute) (2 ^ 32) [0, 0, 0, 0] := by
  decide +kernel

end Resolve

end ArmLink
