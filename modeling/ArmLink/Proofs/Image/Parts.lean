import ArmLink.Image.Write
import ArmLink.Proofs.Except
import ArmLink.Proofs.Span
import Mathlib.Data.List.Pairwise

/-!
# Parts of files

What a file holds once its parts have been put in place. The parts need not be written in their
order in the file, nor each in one piece: what matters is that no two of them overlap.
-/

namespace ArmLink.Image

open ArmLink.Span List

variable {part piece : Part} {q offset n : Nat} {b : UInt8} {image image' : Array UInt8}
  {bytes a : Bytes} {parts : List Part}

/-! ## Bytes of parts -/

def Part.span (part : Part) : Span := .ofLength part.offset part.bytes.length

/-- The byte that a part has at an offset of the file, if it reaches there. -/
def Part.at? (part : Part) (q : Nat) : Option UInt8 :=
  if part.offset ≤ q then part.bytes[q - part.offset]? else none

/-- The file has the bytes of the part in its place. -/
def Holds (image : Array UInt8) (part : Part) : Prop :=
  ∀ q b, part.at? q = some b → image[q]? = some b

theorem Part.within_of_at? (h : part.at? q = some b) :
    part.span.start ≤ q ∧ q < part.span.stop := by
  unfold Part.at? at h
  split at h
  · rename_i hle
    have hlt := (List.getElem?_eq_some_iff.mp h).1
    refine ⟨hle, ?_⟩
    show q < part.offset + part.bytes.length
    omega
  · cases h

theorem Part.at?_add (part : Part) (i : Nat) : part.at? (part.offset + i) = part.bytes[i]? := by
  rw [Part.at?, if_pos (Nat.le_add_right ..), Nat.add_sub_cancel_left]

theorem Holds.getElem? (h : Holds image part) {i : Nat} (hi : i < part.bytes.length) :
    image[part.offset + i]? = some part.bytes[i] := by
  refine h _ _ ?_
  rw [Part.at?_add, getElem?_eq_getElem hi]

/-! ## Writing -/

theorem size_overwrite : (overwrite bytes offset image).size = image.size := by
  induction bytes generalizing offset image with
  | nil => rfl
  | cons b bytes ih => rw [overwrite, ih, Array.size_setIfInBounds]

theorem getElem?_overwrite (hfits : offset + bytes.length ≤ image.size) (q : Nat) :
    (overwrite bytes offset image)[q]? = ((⟨offset, bytes⟩ : Part).at? q).or image[q]? := by
  induction bytes generalizing offset image with
  | nil =>
    simp [overwrite, Part.at?]
  | cons b bytes ih =>
    rw [length_cons] at hfits
    rw [overwrite, ih (by rw [Array.size_setIfInBounds]; omega), Array.getElem?_setIfInBounds]
    simp only [Part.at?]
    rcases Nat.lt_trichotomy q offset with hlt | rfl | hgt
    · rw [if_neg (by omega), if_neg (by omega), if_neg (by omega)]
    · rw [if_neg (by omega), if_pos rfl, if_pos (by omega), if_pos (Nat.le_refl _), Nat.sub_self]
      rfl
    · obtain ⟨k, rfl⟩ := Nat.exists_eq_add_of_lt hgt
      have hhead : offset + k + 1 - offset = k + 1 := by omega
      have htail : offset + k + 1 - (offset + 1) = k := by omega
      rw [if_pos (by omega), if_neg (by omega), if_pos (by omega), hhead, htail,
        getElem?_cons_succ]

theorem put_ok (h : put image offset bytes = .ok image') :
    image'.size = image.size ∧ offset + bytes.length ≤ image.size ∧
      ∀ q, image'[q]? = ((⟨offset, bytes⟩ : Part).at? q).or image[q]? := by
  unfold put put? at h
  split at h
  · rename_i heq
    split at heq
    · rename_i hfits
      cases heq
      cases h
      exact ⟨size_overwrite .., hfits, getElem?_overwrite hfits⟩
    · cases heq
  · cases h

theorem exists_put (hsize : image.size = n) (hfits : offset + bytes.length ≤ n) :
    ∃ image', put image offset bytes = .ok image' ∧ image'.size = n := by
  refine ⟨overwrite bytes offset image, ?_, (size_overwrite ..).trans hsize⟩
  rw [put, put?, if_pos (hsize ▸ hfits)]

theorem putAll_append {parts' : List Part} : putAll image (parts ++ parts') = .ok image' ↔
      ∃ image₁, putAll image parts = .ok image₁ ∧ putAll image₁ parts' = .ok image' := by
  unfold putAll
  rw [foldlM_append]
  exact bind_eq_ok

theorem putAll_cons : putAll image (part :: parts) = .ok image' ↔
      ∃ image₁, put image part.offset part.bytes = .ok image₁ ∧
        putAll image₁ parts = .ok image' := by
  exact bind_eq_ok

/-- Parts that could be put in place have room, and leave the size of the file as it is. -/
theorem putAll_size (h : putAll image parts = .ok image') :
    image'.size = image.size ∧ ∀ part ∈ parts, part.span.stop ≤ image.size := by
  induction parts generalizing image with
  | nil =>
    cases pure_eq_ok.mp h
    exact ⟨rfl, fun _ hpart => nomatch hpart⟩
  | cons part parts ih =>
    obtain ⟨image₁, hput, hrest⟩ := putAll_cons.mp h
    obtain ⟨hsize, hfits, -⟩ := put_ok hput
    obtain ⟨hsize', hfits'⟩ := ih hrest
    rw [hsize] at hsize' hfits'
    exact ⟨hsize', forall_mem_cons.mpr ⟨hfits, hfits'⟩⟩

theorem exists_putAll (hsize : image.size = n) (hfits : ∀ part ∈ parts, part.span.stop ≤ n) :
    ∃ image', putAll image parts = .ok image' ∧ image'.size = n := by
  induction parts generalizing image with
  | nil => exact ⟨image, rfl, hsize⟩
  | cons part parts ih =>
    obtain ⟨hhead, htail⟩ := forall_mem_cons.mp hfits
    obtain ⟨image₁, hput, hsize₁⟩ := exists_put hsize hhead
    obtain ⟨image', hrest, hsize'⟩ := ih hsize₁ htail
    exact ⟨image', putAll_cons.mpr ⟨image₁, hput, hrest⟩, hsize'⟩

/-- **A byte of the file.** It has the value that all parts over it agree on, or that it had. -/
theorem putAll_get (h : putAll image parts = .ok image')
    (hagree : ∀ part ∈ parts, ∀ b', part.at? q = some b' → b' = b)
    (hsome : image[q]? = some b ∨ ∃ part ∈ parts, (part.at? q).isSome = true) :
    image'[q]? = some b := by
  induction parts generalizing image with
  | nil =>
    cases pure_eq_ok.mp h
    exact hsome.resolve_right fun ⟨_, hpart, _⟩ => nomatch hpart
  | cons part parts ih =>
    obtain ⟨image₁, hput, hrest⟩ := putAll_cons.mp h
    obtain ⟨-, -, hget⟩ := put_ok hput
    obtain ⟨hhead, htail⟩ := forall_mem_cons.mp hagree
    refine ih hrest htail ?_
    rw [hget]
    -- either the first part decides, or it leaves the byte alone
    cases hat : (⟨part.offset, part.bytes⟩ : Part).at? q with
    | some b' =>
      left
      rw [Option.some_or, hhead b' hat]
    | none =>
      refine hsome.imp_right ?_
      rintro ⟨other, hother, hisSome⟩
      rcases mem_cons.mp hother with rfl | hother
      · have hnone : other.at? q = none := hat
        rw [hnone] at hisSome
        cases hisSome
      · exact ⟨other, hother, hisSome⟩

/-! ## Parts in pieces -/

/-- The part `piece` is a stretch of `part`. -/
def Part.Piece (piece part : Part) : Prop :=
  ∃ front back, part.bytes = front ++ piece.bytes ++ back ∧
    piece.offset = part.offset + front.length

/-- The pieces are stretches of the part, and what they leave out are zeros. -/
structure Part.MadeOf (part : Part) (pieces : List Part) : Prop where
  piece : ∀ piece ∈ pieces, piece.Piece part
  zero : ∀ q b, part.at? q = some b →
    b = 0 ∨ ∃ piece ∈ pieces, (piece.at? q).isSome = true

theorem Part.Piece.at? (h : piece.Piece part) (hat : piece.at? q = some b) :
    part.at? q = some b := by
  obtain ⟨front, back, hbytes, hoffset⟩ := h
  obtain ⟨hstart, -⟩ := within_of_at? hat
  change piece.offset ≤ q at hstart
  obtain ⟨i, rfl⟩ := Nat.exists_eq_add_of_le hstart
  rw [Part.at?_add] at hat
  have hi := (List.getElem?_eq_some_iff.mp hat).1
  rw [hoffset, Nat.add_assoc, Part.at?_add, hbytes, append_assoc,
    getElem?_append_right (Nat.le_add_right ..), Nat.add_sub_cancel_left,
    getElem?_append_left hi, hat]

theorem Part.Piece.stop_le (h : piece.Piece part) : piece.span.stop ≤ part.span.stop := by
  obtain ⟨front, back, hbytes, hoffset⟩ := h
  show piece.offset + piece.bytes.length ≤ part.offset + part.bytes.length
  rw [hbytes, hoffset, length_append, length_append]
  omega

theorem Part.Piece.refl (part : Part) : part.Piece part := ⟨[], [], by simp, rfl⟩

theorem Part.MadeOf.self (part : Part) : part.MadeOf [part] := by
  refine ⟨fun piece hpiece => ?_, fun q b hat => .inr ⟨part, mem_singleton_self _, ?_⟩⟩
  · rw [mem_singleton.mp hpiece]
    exact .refl part
  · rw [hat]
    rfl

/-- Zeros need not be written. -/
theorem Part.MadeOf.zeros (offset n : Nat) : (⟨offset, Bytes.zeros n⟩ : Part).MadeOf [] := by
  refine ⟨fun _ hpiece => (nomatch hpiece), fun q b hat => .inl ?_⟩
  unfold Part.at? at hat
  split at hat
  · exact eq_of_mem_replicate (mem_of_getElem? hat)
  · cases hat

theorem Part.Piece.append_left (h : piece.Piece ⟨offset, a⟩) (b : Bytes) :
    piece.Piece ⟨offset, a ++ b⟩ := by
  obtain ⟨front, back, hbytes, hoffset⟩ := h
  change a = front ++ piece.bytes ++ back at hbytes
  exact ⟨front, back ++ b, by rw [← append_assoc, ← hbytes], hoffset⟩

theorem Part.Piece.append_right {b : Bytes} (h : piece.Piece ⟨offset + a.length, b⟩) :
    piece.Piece ⟨offset, a ++ b⟩ := by
  obtain ⟨front, back, hbytes, hoffset⟩ := h
  change b = front ++ piece.bytes ++ back at hbytes
  refine ⟨a ++ front, back, by rw [hbytes]; simp only [append_assoc], ?_⟩
  rw [hoffset, length_append, Nat.add_assoc]

theorem Part.MadeOf.append {b : Bytes} {pieces pieces' : List Part}
    (ha : (⟨offset, a⟩ : Part).MadeOf pieces) (hb : (⟨offset + a.length, b⟩ : Part).MadeOf pieces')
    : (⟨offset, a ++ b⟩ : Part).MadeOf (pieces ++ pieces') := by
  refine ⟨fun piece hpiece => ?_, fun q x hat => ?_⟩
  · rcases mem_append.mp hpiece with hpiece | hpiece
    · exact (ha.piece piece hpiece).append_left b
    · exact (hb.piece piece hpiece).append_right
  · obtain ⟨hstart, -⟩ := Part.within_of_at? hat
    change offset ≤ q at hstart
    obtain ⟨i, rfl⟩ := Nat.exists_eq_add_of_le hstart
    have hi : (a ++ b)[i]? = some x := (Part.at?_add ⟨offset, a ++ b⟩ i).symm.trans hat
    by_cases hlt : i < a.length
    · rw [getElem?_append_left hlt] at hi
      refine (ha.zero _ x ((Part.at?_add ⟨offset, a⟩ i).trans hi)).imp_right ?_
      exact fun ⟨piece, hpiece, hsome⟩ => ⟨piece, mem_append_left _ hpiece, hsome⟩
    · obtain ⟨j, rfl⟩ := Nat.exists_eq_add_of_le (Nat.le_of_not_lt hlt)
      rw [getElem?_append_right (Nat.le_add_right ..), Nat.add_sub_cancel_left] at hi
      rw [← Nat.add_assoc]
      refine (hb.zero _ x ((Part.at?_add ⟨offset + a.length, b⟩ j).trans hi)).imp_right ?_
      exact fun ⟨piece, hpiece, hsome⟩ => ⟨piece, mem_append_right _ hpiece, hsome⟩

/-- Parts of which each is made of some of the pieces, and pieces of which each is part of one. -/
structure MadeOfAll (parts pieces : List Part) : Prop where
  made : ∀ part ∈ parts, ∃ own, part.MadeOf own ∧ ∀ piece ∈ own, piece ∈ pieces
  piece : ∀ piece ∈ pieces, ∃ part ∈ parts, piece.Piece part

namespace MadeOfAll

variable {parts' pieces pieces' : List Part}

theorem of_madeOf (h : part.MadeOf pieces) : MadeOfAll [part] pieces := by
  refine ⟨fun part' hpart' => ?_, fun piece hpiece => ⟨part, mem_singleton_self _, ?_⟩⟩
  · rw [mem_singleton.mp hpart']
    exact ⟨pieces, h, fun _ => id⟩
  · exact h.piece piece hpiece

theorem self (parts : List Part) : MadeOfAll parts parts := by
  refine ⟨fun part hpart => ⟨[part], .self part, fun piece hpiece => ?_⟩, fun piece hpiece => ?_⟩
  · rwa [mem_singleton.mp hpiece]
  · exact ⟨piece, hpiece, .refl piece⟩

theorem append (h : MadeOfAll parts pieces) (h' : MadeOfAll parts' pieces') :
    MadeOfAll (parts ++ parts') (pieces ++ pieces') := by
  constructor
  · intro part hpart
    rcases mem_append.mp hpart with hpart | hpart
    · obtain ⟨own, hmade, hown⟩ := h.made part hpart
      exact ⟨own, hmade, fun piece hpiece => mem_append_left _ (hown piece hpiece)⟩
    · obtain ⟨own, hmade, hown⟩ := h'.made part hpart
      exact ⟨own, hmade, fun piece hpiece => mem_append_right _ (hown piece hpiece)⟩
  · intro piece hpiece
    rcases mem_append.mp hpiece with hpiece | hpiece
    · obtain ⟨part, hpart, hstretch⟩ := h.piece piece hpiece
      exact ⟨part, mem_append_left _ hpart, hstretch⟩
    · obtain ⟨part, hpart, hstretch⟩ := h'.piece piece hpiece
      exact ⟨part, mem_append_right _ hpart, hstretch⟩

theorem of_perm (h : MadeOfAll parts pieces) (hperm : pieces.Perm pieces') :
    MadeOfAll parts pieces' := by
  constructor
  · intro part hpart
    obtain ⟨own, hmade, hown⟩ := h.made part hpart
    exact ⟨own, hmade, fun piece hpiece => hperm.mem_iff.mp (hown piece hpiece)⟩
  · exact fun piece hpiece => h.piece piece (hperm.mem_iff.mpr hpiece)

end MadeOfAll

/-- **The file holds its parts.** If the parts do not overlap, and what was written are the pieces
of them, then the file holds each part. -/
theorem holds_of_putAll {writes : List Part} (h : putAll (Array.replicate n 0) writes = .ok image)
    (hmade : MadeOfAll parts writes) (hpacked : Packed 0 n (parts.map Part.span)) :
    ∀ part ∈ parts, Holds image part := by
  intro part hpart q b hat
  have hq := Part.within_of_at? hat
  obtain ⟨own, hown, hwritten⟩ := hmade.made part hpart
  refine putAll_get h (fun w hw b' hwat => ?_) ?_
  · obtain ⟨part', hpart', hpiece⟩ := hmade.piece w hw
    have hat' := hpiece.at? hwat
    by_cases heq : part' = part
    · rw [heq, hat] at hat'
      exact (Option.some.inj hat').symm
    · -- a byte of two parts lies in two spans that are apart
      have : Std.Symm fun a b : Part => Apart a.span b.span := ⟨fun _ _ => Or.symm⟩
      have hq' := Part.within_of_at? hat'
      have hspans : Apart part'.span part.span :=
        (pairwise_map.mp hpacked.apart).forall hpart' hpart heq
      unfold Apart at hspans
      omega
  · rcases hown.zero q b hat with rfl | ⟨piece, hpiece, hisSome⟩
    · left
      have hlt : q < n := Nat.lt_of_lt_of_le hq.2 (hpacked.within (mem_map_of_mem hpart)).2.2
      rw [Array.getElem?_replicate, if_pos hlt]
    · exact .inr ⟨piece, hwritten piece hpiece, hisSome⟩

end ArmLink.Image
