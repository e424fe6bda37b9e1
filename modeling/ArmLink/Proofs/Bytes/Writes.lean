import ArmLink.Proofs.Bytes

/-!
# Several writes

Of several writes, the last that reaches a byte decides what it is. A string that grows with each of
them ends like one that grows first, to the end of the furthest, and is written in place then
(`foldl_patch`); and nothing changes if all of them are done again (`foldl_patch_again`).
-/

namespace ArmLink.Bytes

open List

/-- Some bytes, and the offset at which they are written. -/
structure Write where
  /-- where the bytes go -/
  offset : Nat
  /-- the bytes -/
  bytes : Bytes
  deriving DecidableEq, Repr

def Write.stop (w : Write) : Nat := w.offset + w.bytes.length

/-- The byte that is written at a position, if the bytes reach there. -/
def Write.at? (w : Write) (i : Nat) : Option UInt8 :=
  if w.offset ≤ i then w.bytes[i - w.offset]? else none

/-- `data` followed by zeros up to an end, if it does not reach there. -/
def extend (data : Bytes) (stop : Nat) : Bytes := data ++ zeros (stop - data.length)

/-- Bytes written in place, into a string that holds all of them. -/
def overwrite (data : Bytes) (w : Write) : Bytes :=
  data.take w.offset ++ w.bytes ++ data.drop w.stop

def furthest (stops : List Nat) : Nat := stops.foldr max 0

variable {data : Bytes} {w : Write} {ws : List Write} {n : Nat}

/-! ## Growing -/

theorem length_extend {stop : Nat} : (data.extend stop).length = max data.length stop := by
  rw [extend, length_append, length_zeros]
  omega

theorem extend_of_le (h : n ≤ data.length) : data.extend n = data := by
  rw [extend, Nat.sub_eq_zero_of_le h]
  exact append_nil data

theorem extend_extend {m : Nat} : (data.extend m).extend n = data.extend (max m n) := by
  have hzeros : m - data.length + (n - max data.length m) = max m n - data.length := by omega
  rw [extend, length_extend, extend, extend, append_assoc, zeros, zeros, zeros,
    replicate_append_replicate, hzeros]

theorem length_overwrite (h : w.stop ≤ data.length) : (data.overwrite w).length = data.length := by
  rw [Write.stop] at h
  simp only [overwrite, Write.stop, length_append, length_take, length_drop]
  omega

/-- What is written in place does not care for what comes behind. -/
theorem extend_overwrite (h : w.stop ≤ data.length) (n : Nat) :
    (data.overwrite w).extend n = (data.extend n).overwrite w := by
  have hoffset : w.offset ≤ data.length := Nat.le_trans (Nat.le_add_right ..) h
  rw [extend, length_overwrite h, overwrite, overwrite, extend, take_append_of_le_length hoffset,
    drop_append_of_le_length h, append_assoc (data.take w.offset ++ w.bytes)]

/-- A patch grows the string just enough and is written in place then. -/
theorem patch_eq : data.patch w.offset w.bytes = (data.extend w.stop).overwrite w := rfl

/-- **Growing first.** A string that grows with each write ends like one that grows at once. -/
theorem foldl_patch (data : Bytes) (ws : List Write) :
    ws.foldl (fun data w => data.patch w.offset w.bytes) data =
      ws.foldl overwrite (data.extend (furthest (ws.map Write.stop))) := by
  induction ws generalizing data with
  | nil => exact (extend_of_le (Nat.zero_le _)).symm
  | cons w ws ih =>
    have hstop : w.stop ≤ (data.extend w.stop).length := by
      rw [length_extend]
      exact Nat.le_max_right _ _
    rw [foldl_cons, foldl_cons, ih, patch_eq, extend_overwrite hstop, extend_extend]
    rfl

/-! ## The last write -/

/-- The byte that the last write to reach a position leaves there. -/
def lastAt? : List Write → Nat → Option UInt8
  | [], _ => none
  | w :: ws, i => (lastAt? ws i).or (w.at? i)

theorem getElem?_overwrite (h : w.stop ≤ data.length) (i : Nat) :
    (data.overwrite w)[i]? = (w.at? i).or data[i]? := by
  rw [Write.stop] at h
  have htake : (data.take w.offset).length = w.offset := by
    rw [length_take]
    omega
  have hfront : (data.take w.offset ++ w.bytes).length = w.stop := by
    rw [length_append, htake, Write.stop]
  rw [overwrite, Write.at?]
  by_cases hbefore : i < w.offset
  · rw [if_neg (by omega), append_assoc, getElem?_append_left (by omega),
      getElem?_take_of_lt hbefore]
    rfl
  · rw [if_pos (by omega)]
    by_cases hwithin : i < w.stop
    · have hi : i - w.offset < w.bytes.length := by
        rw [Write.stop] at hwithin
        omega
      rw [getElem?_append_left (by omega), getElem?_append_right (by omega), htake,
        getElem?_eq_getElem hi]
      rfl
    · have hi : w.bytes.length ≤ i - w.offset := by
        rw [Write.stop] at hwithin
        omega
      rw [getElem?_append_right (by omega), hfront, getElem?_drop,
        getElem?_eq_none hi, Nat.add_sub_cancel' (by omega)]
      rfl

/-- Writes that reach no further than the string leave its length as it is. -/
theorem length_foldl_overwrite (h : furthest (ws.map Write.stop) ≤ data.length) :
    (ws.foldl overwrite data).length = data.length := by
  induction ws generalizing data with
  | nil => rfl
  | cons w ws ih =>
    obtain ⟨hfirst, hrest⟩ := Nat.max_le.mp h
    have hlength := length_overwrite hfirst
    rw [foldl_cons, ih (hlength.symm ▸ hrest), hlength]

/-- **The last write wins.** -/
theorem getElem?_foldl_overwrite (h : furthest (ws.map Write.stop) ≤ data.length) (i : Nat) :
    (ws.foldl overwrite data)[i]? = (lastAt? ws i).or data[i]? := by
  induction ws generalizing data with
  | nil => rfl
  | cons w ws ih =>
    obtain ⟨hfirst, hrest⟩ := Nat.max_le.mp h
    rw [foldl_cons, ih ((length_overwrite hfirst).symm ▸ hrest), getElem?_overwrite hfirst,
      lastAt?, Option.or_assoc]

theorem length_foldl_patch (data : Bytes) (ws : List Write) :
    (ws.foldl (fun data w => data.patch w.offset w.bytes) data).length =
      max data.length (furthest (ws.map Write.stop)) := by
  rw [foldl_patch, length_foldl_overwrite, length_extend]
  rw [length_extend]
  exact Nat.le_max_right _ _

/-- **Again.** The same writes, overlapping or not, change nothing the second time. -/
theorem foldl_patch_again : ws.foldl (fun data w => data.patch w.offset w.bytes)
        (ws.foldl (fun data w => data.patch w.offset w.bytes) data) =
      ws.foldl (fun data w => data.patch w.offset w.bytes) data := by
  have hlength := length_foldl_patch data ws
  have hfirst : furthest (ws.map Write.stop) ≤
      (data.extend (furthest (ws.map Write.stop))).length := by
    rw [length_extend]
    exact Nat.le_max_right _ _
  have hagain : furthest (ws.map Write.stop) ≤
      (ws.foldl (fun data w => data.patch w.offset w.bytes) data).length := by
    rw [hlength]
    exact Nat.le_max_right _ _
  rw [foldl_patch (ws.foldl _ data), extend_of_le hagain]
  refine ext_getElem? fun i => ?_
  rw [getElem?_foldl_overwrite hagain, foldl_patch data, getElem?_foldl_overwrite hfirst]
  cases lastAt? ws i with
  | none => rfl
  | some b => rfl

end ArmLink.Bytes
