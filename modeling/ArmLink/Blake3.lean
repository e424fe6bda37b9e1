import ArmLink.Bytes

/-!
# BLAKE3

The hash that build ids are made of. The input is cut into chunks of 1024 bytes, which are the
leaves of a binary tree; a node joins the chaining values of its two halves, the left one of which
is a power of two of chunks, as large as it can be. The root gives the hash.

* `hash_length` — a hash has 32 bytes.
-/

namespace ArmLink.Blake3

/-- The chaining value of a node. -/
abbrev Chaining := Vector UInt32 8

/-- A message block, or the state of a compression. -/
abbrev Block := Vector UInt32 16

/-- The initial chaining value. -/
def initial : Chaining :=
  #v[0x6a09e667, 0xbb67ae85, 0x3c6ef372, 0xa54ff53a, 0x510e527f, 0x9b05688c, 0x1f83d9ab, 0x5be0cd19]

/-- The order in which a round takes the words of the previous round's message. -/
def schedule : Vector (Fin 16) 16 := #v[2, 6, 3, 10, 7, 0, 4, 13, 1, 11, 12, 5, 9, 14, 15, 8]

/-- Marks the first block of a chunk. -/
def chunkStart : UInt32 := 1

/-- Marks the last block of a chunk. -/
def chunkEnd : UInt32 := 2

/-- Marks a node that joins two others. -/
def parent : UInt32 := 4

/-- Marks the root. -/
def root : UInt32 := 8

def rotate (w : UInt32) (n : UInt32) : UInt32 := (w >>> n) ||| (w <<< (32 - n))

/-- Mixes two words of the message into four words of the state. -/
def mix (s : Block) (a b c d : Fin 16) (x y : UInt32) : Block :=
  let a₁ := s[a] + s[b] + x
  let d₁ := rotate (s[d] ^^^ a₁) 16
  let c₁ := s[c] + d₁
  let b₁ := rotate (s[b] ^^^ c₁) 12
  let a₂ := a₁ + b₁ + y
  let d₂ := rotate (d₁ ^^^ a₂) 8
  let c₂ := c₁ + d₂
  let b₂ := rotate (b₁ ^^^ c₂) 7
  (((s.set a a₂).set b b₂).set c c₂).set d d₂

/-- A round: the columns of the state, then its diagonals. -/
def round (m : Block) (s : Block) : Block :=
  let s := mix s 0 4 8 12 m[0] m[1]
  let s := mix s 1 5 9 13 m[2] m[3]
  let s := mix s 2 6 10 14 m[4] m[5]
  let s := mix s 3 7 11 15 m[6] m[7]
  let s := mix s 0 5 10 15 m[8] m[9]
  let s := mix s 1 6 11 12 m[10] m[11]
  let s := mix s 2 7 8 13 m[12] m[13]
  mix s 3 4 9 14 m[14] m[15]

/-- Rounds, each on the permuted message of the one before. -/
def rounds : Nat → Block → Block → Block
  | 0, _, s => s
  | n + 1, m, s => rounds n (schedule.map fun i => m[i]) (round m s)

/-- A node whose compression is still to be done, so that it can be marked as the root. -/
structure Node where
  chaining : Chaining
  block : Block
  /-- the index of the chunk -/
  counter : Nat
  /-- the number of message bytes in the block -/
  length : Nat
  flags : UInt32

/-- The chaining value that comes out of a node with marks added. -/
def Node.compress (n : Node) (marks : UInt32) : Chaining :=
  let start : Block :=
    n.chaining ++ #v[initial[0], initial[1], initial[2], initial[3], UInt32.ofNat n.counter,
      UInt32.ofNat (n.counter / 0x100000000), UInt32.ofNat n.length, n.flags ||| marks]
  let s := rounds 7 n.block start
  Vector.ofFn fun i : Fin 8 => s[i.val] ^^^ s[i.val + 8]

/-! ## Chunks -/

/-- Up to 64 bytes as a block, filled with zeros. -/
def blockOf (bytes : Bytes) : Block :=
  let a := bytes.toArray
  Vector.ofFn fun i : Fin 16 =>
    UInt32.ofNat (Bytes.toNat ((List.range 4).map fun j => a.getD (4 * i.val + j) 0))

/-- The node of a chunk, block after block. -/
def chunkNode (counter : Nat) (chaining : Chaining) (flags : UInt32) (bytes : Bytes) : Node :=
  if bytes.length ≤ 64 then
    ⟨chaining, blockOf bytes, counter, bytes.length, flags ||| chunkEnd⟩
  else
    let first : Node := ⟨chaining, blockOf (bytes.take 64), counter, 64, flags⟩
    chunkNode counter (first.compress 0) 0 (bytes.drop 64)
termination_by bytes.length
decreasing_by simp; omega

/-! ## The tree -/

/-- The bytes cut into chunks. There is always one. -/
def chunksOf (bytes : Bytes) : List Bytes :=
  if bytes.length ≤ 1024 then [bytes]
  else bytes.take 1024 :: chunksOf (bytes.drop 1024)
termination_by bytes.length
decreasing_by simp; omega

/-- The node that joins two others. -/
def join (left right : Node) : Node :=
  ⟨initial, left.compress 0 ++ right.compress 0, 0, 64, parent⟩

/-- The number of chunks in the left half of a tree: a power of two, as large as it can be. -/
def leftCount (count : Nat) : Nat := Nat.pow 2 (count - 1).log2

theorem leftCount_lt (count : Nat) (h : 1 < count) : leftCount count < count :=
  Nat.lt_of_le_of_lt (Nat.log2_self_le (by omega)) (Nat.sub_lt (by omega) (by omega))

theorem leftCount_pos (count : Nat) : 0 < leftCount count := Nat.two_pow_pos _

/-- The tree over chunks, the first of which has the given index. -/
def tree (chunks : List Bytes) (index : Nat) : Node :=
  match chunks with
  | [] => chunkNode index initial chunkStart []
  | [chunk] => chunkNode index initial chunkStart chunk
  | first :: second :: rest =>
    let count := leftCount (rest.length + 2)
    join (tree ((first :: second :: rest).take count) index)
      (tree ((first :: second :: rest).drop count) (index + count))
termination_by chunks.length
decreasing_by
  all_goals
    have := leftCount_lt (rest.length + 2) (by omega)
    have := leftCount_pos (rest.length + 2)
    simp
    omega

/-- The 32 bytes of the root's chaining value. -/
def hash (bytes : Bytes) : Bytes :=
  ((tree (chunksOf bytes) 0).compress root).toList.flatMap fun w => Bytes.ofNat 4 w.toNat

theorem hash_length (bytes : Bytes) : (hash bytes).length = 32 := by
  simp [hash, List.length_flatMap, List.map_const']

end ArmLink.Blake3
