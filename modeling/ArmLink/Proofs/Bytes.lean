import ArmLink.Bytes
import Mathlib.Algebra.Group.Nat.Defs

/-!
# Reading bytes back

What was written into bytes is read back, and what shares no byte with it is still there.
-/

namespace ArmLink.Bytes

open List

/-- A number read back from its low bytes has lost its high ones. -/
theorem toNat_ofNat {n v : Nat} : toNat (ofNat n v) = v % 256 ^ n := by
  induction n generalizing v with
  | zero => exact (Nat.mod_one v).symm
  | succ n ih =>
    rw [ofNat, toNat, ih, UInt8.toNat_ofNat']
    show v % 256 + 256 * (v / 256 % 256 ^ n) = v % 256 ^ (n + 1)
    rw [Nat.pow_succ', Nat.mod_mul]

/-- The low bytes of a number do not tell its high ones. -/
theorem ofNat_mod (n v : Nat) : ofNat n (v % 256 ^ n) = ofNat n v := by
  induction n generalizing v with
  | zero => rfl
  | succ n ih =>
    have hbyte : UInt8.ofNat (v % 256 ^ (n + 1)) = UInt8.ofNat v := by
      apply UInt8.toNat.inj
      rw [UInt8.toNat_ofNat', UInt8.toNat_ofNat', Nat.pow_succ']
      exact Nat.mod_mul_right_mod v 256 _
    rw [ofNat, ofNat, hbyte, Nat.pow_succ', Nat.mod_mul_right_div_self, ih]

/-- Zeros behind a string do not change what is read from it. -/
theorem getElem?_append_zeros {data : Bytes} {n i : Nat} (h : i < data.length + n) :
    (data ++ zeros n)[i]? = some (data.getD i 0) := by
  by_cases hi : i < data.length
  · rw [getElem?_append_left hi, getD_eq_getElem?_getD, getElem?_eq_getElem hi,
      Option.getD_some]
  · have hle := Nat.le_of_not_lt hi
    rw [getElem?_append_right hle, zeros, getElem?_replicate, if_pos (by omega),
      getD_eq_getElem?_getD, getElem?_eq_none hle, Option.getD_none]

/-! ## Patches -/

variable {data bytes slice : Bytes} {offset i n : Nat}

theorem getElem?_patch_of_lt (h : i < bytes.length) :
    (patch data offset bytes)[offset + i]? = bytes[i]? := by
  have hlength : ((data ++ zeros (offset + bytes.length - data.length)).take offset).length =
      offset := by
    rw [length_take, length_append, length_zeros]
    omega
  rw [patch, append_assoc, getElem?_append_right (by omega), hlength,
    Nat.add_sub_cancel_left, getElem?_append_left h]

theorem getElem?_patch_of_not_mem (hi : i < data.length)
    (h : ¬ (offset ≤ i ∧ i < offset + bytes.length)) :
    (patch data offset bytes)[i]? = data[i]? := by
  let padded := data ++ zeros (offset + bytes.length - data.length)
  have hpadded : padded[i]? = data[i]? := getElem?_append_left hi
  have hle : offset + bytes.length ≤ padded.length := by
    show _ ≤ (data ++ zeros _).length
    rw [length_append, length_zeros]
    omega
  have hfront : (padded.take offset ++ bytes).length = offset + bytes.length := by
    rw [length_append, length_take, Nat.min_eq_left (by omega)]
  show (padded.take offset ++ bytes ++ padded.drop (offset + bytes.length))[i]? = data[i]?
  by_cases hlt : i < offset
  · rw [append_assoc, getElem?_append_left (by rw [length_take]; omega),
      getElem?_take_of_lt hlt, hpadded]
  · rw [getElem?_append_right (by omega), hfront, getElem?_drop, ← hpadded]
    congr 1
    omega

theorem slice?_eq_some : slice? data offset n = some slice ↔
    offset + n ≤ data.length ∧ slice.length = n ∧ ∀ i, i < n → data[offset + i]? = slice[i]? := by
  constructor
  · intro h
    unfold slice? at h
    split at h
    · rename_i hle
      cases h
      refine ⟨hle, ?_, fun i hi => ?_⟩
      · rw [length_take, length_drop]
        omega
      · rw [getElem?_take_of_lt hi, getElem?_drop]
    · cases h
  · rintro ⟨hle, hlength, hget⟩
    rw [slice?, if_pos hle]
    congr 1
    refine ext_getElem? fun i => ?_
    by_cases hi : i < n
    · rw [getElem?_take_of_lt hi, getElem?_drop, hget i hi]
    · rw [getElem?_eq_none (by rw [length_take]; omega), getElem?_eq_none (by omega)]

theorem slice?_patch_self (data : Bytes) (offset : Nat) (bytes : Bytes) :
    slice? (patch data offset bytes) offset bytes.length = some bytes := by
  refine Iff.mpr slice?_eq_some ⟨?_, rfl, fun i hi => getElem?_patch_of_lt hi⟩
  rw [length_patch]
  exact Nat.le_max_right _ _

theorem slice?_patch_of_apart {offset' : Nat} (h : slice? data offset n = some slice)
    (hapart : ∀ i, offset ≤ i → i < offset + n → ¬ (offset' ≤ i ∧ i < offset' + bytes.length)) :
    slice? (patch data offset' bytes) offset n = some slice := by
  obtain ⟨hle, hlength, hget⟩ := Iff.mp slice?_eq_some h
  refine Iff.mpr slice?_eq_some ⟨?_, hlength, fun i hi => ?_⟩
  · rw [length_patch]
    omega
  · rw [getElem?_patch_of_not_mem (by omega) (hapart _ (by omega) (by omega)), hget i hi]

/-! ## Growing strings -/

theorem slice?_append_left (h : slice? data offset n = some slice) (more : Bytes) :
    slice? (data ++ more) offset n = some slice := by
  obtain ⟨hle, hlength, hget⟩ := Iff.mp slice?_eq_some h
  refine Iff.mpr slice?_eq_some ⟨?_, hlength, fun i hi => ?_⟩
  · rw [length_append]
    omega
  · rw [getElem?_append_left (by omega), hget i hi]

theorem slice?_append_self (data bytes more : Bytes) :
    slice? (data ++ (bytes ++ more)) data.length bytes.length = some bytes := by
  refine Iff.mpr slice?_eq_some ⟨?_, rfl, fun i hi => ?_⟩
  · simp only [length_append]
    omega
  · rw [getElem?_append_right (by omega), Nat.add_sub_cancel_left,
      getElem?_append_left hi]

theorem slice?_append_right {front data : Bytes} :
    slice? (front ++ data) (front.length + offset) n = slice? data offset n := by
  have hiff : front.length + offset + n ≤ (front ++ data).length ↔ offset + n ≤ data.length := by
    rw [length_append]
    omega
  simp only [slice?, hiff, drop_length_add_append]

/-- The number in the four bytes at an offset. -/
def wordAt? (data : Bytes) (offset : Nat) : Option Nat := (slice? data offset 4).map toNat

/-- The low four bytes of a number of 64 bits are those of its low half. -/
theorem ofNat_eq_ofWord (v : BitVec 64) : ofNat 4 v.toNat = ofWord (v.setWidth 32) := by
  rw [ofWord, BitVec.toNat_setWidth, ← ofNat_mod]
  rfl

theorem toNat_ofWord {w : Word} : toNat (ofWord w) = w.toNat := by
  rw [ofWord, toNat_ofNat]
  exact Nat.mod_eq_of_lt w.isLt

theorem wordAt?_eq_some {w : Word} (h : slice? data offset 4 = some (ofWord w)) :
    wordAt? data offset = some w.toNat := by
  rw [wordAt?, h, Option.map_some, toNat_ofWord]

/-! ## Texts -/

theorem toList_loop (bytes : ByteArray) (i : Nat) (read : List UInt8) :
    ByteArray.toList.loop bytes i read = read.reverse ++ bytes.data.toList.drop i := by
  fun_induction ByteArray.toList.loop bytes i read with
  | case1 i read hlt ih =>
    have hlt' : i < bytes.data.toList.length := hlt
    rw [ih, reverse_cons, append_assoc, singleton_append,
      drop_eq_getElem_cons hlt']
    congr 2
    show bytes.data[i]! = _
    rw [getElem!_pos bytes.data i hlt]
    rfl
  | case2 i read hle =>
    have hle : bytes.data.toList.length ≤ i := Nat.le_of_not_lt hle
    rw [drop_eq_nil_of_le hle, append_nil]

theorem ofString_inj {a b : String} : ofString a = ofString b ↔ a = b := by
  refine ⟨fun h => ?_, congrArg _⟩
  simp only [ofString, ByteArray.toList, toList_loop, reverse_nil, nil_append,
    drop_zero] at h
  exact String.toByteArray_inj.mp (ByteArray.ext (Array.toList_inj.mp h))

end ArmLink.Bytes
