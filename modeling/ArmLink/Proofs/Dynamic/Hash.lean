import ArmLink.Proofs.Dynamic.Steps
import Mathlib.Data.List.Nodup
import Mathlib.Data.List.Perm.Subperm

/-!
# The hash table finds every dynamic symbol

The hash table is a list for each bucket, threaded through one array: the bucket has the index of
the first symbol, and each symbol the index of the next one. A symbol goes to the front of its
list, so that a list grows without any other being touched, as long as indices are different.
-/

namespace ArmLink

open List Bytes

variable {n i m j : Nat} {list numbers : List Nat} {h : HashChains} {done : List (Nat × Word)}
  {e : Nat × Word}

namespace Bytes

/-- Numbers as words. -/
def ofNumbers (numbers : List Nat) : Bytes := numbers.flatMap fun n => ofWord (.ofNat 32 n)

theorem length_ofNumbers : (ofNumbers numbers).length = 4 * numbers.length := by
  simp [ofNumbers, length_flatMap, Nat.mul_comm]

/-- The numbers in `n` words from an offset on. -/
def wordsAt? (data : Bytes) (offset : Nat) : Nat → Option (List Nat)
  | 0 => some []
  | n + 1 => do
    let w ← data.wordAt? offset
    let rest ← data.wordsAt? (offset + 4) n
    return w :: rest

theorem wordAt?_append_self (h : n < 2 ^ 32) (front back : Bytes) :
    (front ++ (ofWord (.ofNat 32 n) ++ back)).wordAt? front.length = some n := by
  rw [wordAt?_eq_some (slice?_append_self front (ofWord (.ofNat 32 n)) back)]
  exact congrArg some (Nat.mod_eq_of_lt h)

theorem wordsAt?_ofNumbers (h : ∀ n ∈ numbers, n < 2 ^ 32) (front back : Bytes) :
    (front ++ (ofNumbers numbers ++ back)).wordsAt? front.length numbers.length =
      some numbers := by
  induction numbers generalizing front with
  | nil => rfl
  | cons n numbers ih =>
    obtain ⟨hn, h⟩ := forall_mem_cons.mp h
    have hfirst := wordAt?_append_self hn front (ofNumbers numbers ++ back)
    have hrest := ih h (front ++ ofWord (.ofNat 32 n))
    simp only [length_append, length_ofWord, append_assoc] at hrest
    simp only [ofNumbers, flatMap_cons, append_assoc, length_cons, wordsAt?]
      at hfirst hrest ⊢
    rw [hfirst, hrest]
    rfl

end Bytes

namespace DynamicTables

open SymbolTable

variable {d d' : DynamicTables} {t t' : SymbolTable} {id : SymbolId}

/-! ## The numbers of dynamic symbols -/

/-- Dynamic symbols have different indices, from one up to their number. -/
structure Numbered (d : DynamicTables) (t : SymbolTable) : Prop where
  pos : 0 < d.count
  bounds : ∀ id i, (t.get id).dynamicIndex = some i → 0 < i ∧ i < d.count
  injective : ∀ id id' i, (t.get id).dynamicIndex = some i →
    (t.get id').dynamicIndex = some i → id = id'

theorem Numbered.keeps (h : Numbered d t) (hcount : d'.count = d.count)
    (hkeeps : Keeps Symbol.dynamicIndex t t') : Numbered d' t' := by
  refine ⟨hcount ▸ h.pos, fun id i hi => ?_, fun id id' i hi hi' => ?_⟩
  · rw [hkeeps.2] at hi
    exact hcount ▸ h.bounds id i hi
  · rw [hkeeps.2] at hi hi'
    exact h.injective id id' i hi hi'

theorem Numbered.index (h : Numbered d t) : Numbered { d with count := d.count + 1 }
      (t.modify id fun s => { s with dynamicIndex := some d.count }) := by
  have hcases (j : SymbolId) (i : Nat)
      (hi : ((t.modify id fun s => { s with dynamicIndex := some d.count }).get j).dynamicIndex =
        some i) : j = id ∧ i = d.count ∨ (t.get j).dynamicIndex = some i ∧ i < d.count := by
    rw [get_modify] at hi
    split at hi
    · rename_i hj
      exact .inl ⟨hj.1, (Option.some.inj hi).symm⟩
    · exact .inr ⟨hi, (h.bounds j i hi).2⟩
  refine ⟨Nat.succ_pos _, fun j i hi => ?_, fun j j' i hi hi' => ?_⟩
  · rcases hcases j i hi with ⟨-, rfl⟩ | ⟨hold, hlt⟩
    · exact ⟨h.pos, Nat.lt_succ_self _⟩
    · exact ⟨(h.bounds j i hold).1, Nat.lt_succ_of_lt hlt⟩
  · -- an index that was given before is smaller than the next one
    rcases hcases j i hi with ⟨rfl, rfl⟩ | ⟨hold, hlt⟩
    · rcases hcases j' _ hi' with ⟨rfl, -⟩ | ⟨-, hlt⟩
      · rfl
      · exact absurd hlt (Nat.lt_irrefl _)
    · rcases hcases j' i hi' with ⟨-, rfl⟩ | ⟨hold', -⟩
      · exact absurd hlt (Nat.lt_irrefl _)
      · exact h.injective j j' i hold hold'

theorem Numbered.step {s s' : DynamicTables × SymbolTable} (h : Numbered s.1 s.2)
    (hstep : Step s s') : Numbered s'.1 s'.2 := by
  cases hstep with
  | replace => exact h.keeps rfl (.modify rfl)
  | growth hstep =>
    cases hstep with
    | record hall hcount => exact h.keeps hcount (.refl _)
    | extend id hid hf => exact h.keeps rfl (.modify (congrArg (·.2.1) (hf _).kept))
    | index => exact h.index
    | stub | slot => exact h.keeps rfl (.modify rfl)

theorem Reached.numbered (h : Reached d t) : Numbered d t := by
  refine h.invariant (P := fun s => Numbered s.1 s.2) (fun t d t' hfresh hsetup => ?_)
    fun s s' hstep hs => hs.step hstep
  have hconsistent := consistent_of_setup hfresh hsetup
  have hnone (id : SymbolId) : (t'.get id).dynamicIndex = none :=
    hconsistent.holds.indexed.index.none_of_not_mem not_mem_nil
  refine ⟨hconsistent.count ▸ Nat.succ_pos _, fun id i hi => ?_, fun id id' i hi => ?_⟩
  · rw [hnone] at hi
    cases hi
  · rw [hnone] at hi
    cases hi

/-! ## Lists that are threaded through an array -/

/-- From `i` on, links lead through these symbols, and then to zero. -/
def Linked (chains : Array Nat) : Nat → List Nat → Prop
  | i, [] => i = 0
  | i, j :: rest => i = j ∧ j ≠ 0 ∧ j < chains.size ∧ Linked chains (chains.getD j 0) rest

theorem getD_setIfInBounds {xs : Array Nat} {v : Nat} :
    (xs.setIfInBounds i v).getD j 0 = if j = i ∧ i < xs.size then v else xs.getD j 0 := by
  simp only [Array.getD_eq_getD_getElem?, Array.getElem?_setIfInBounds]
  grind

theorem Linked.set {chains : Array Nat} (h : Linked chains i list) (hj : j ∉ list) (v : Nat) :
    Linked (chains.setIfInBounds j v) i list := by
  induction list generalizing i with
  | nil => exact h
  | cons k rest ih =>
    obtain ⟨rfl, hne, hlt, hrest⟩ := h
    obtain ⟨hjk, hj⟩ := not_or.mp (mt mem_cons.mpr hj)
    refine ⟨rfl, hne, by simpa using hlt, ?_⟩
    rw [getD_setIfInBounds, if_neg fun heq => hjk heq.1.symm]
    exact ih hrest hj

namespace HashChains

/-- The symbols that a lookup visits from a symbol on, until it comes to zero: none if it leaves the
table or takes more steps than these. -/
def walk (h : HashChains) : (steps : Nat) → Nat → Option (List Nat)
  | _, 0 => some []
  | 0, _ + 1 => none
  | steps + 1, i + 1 =>
    if i + 1 < h.chains.size then (h.walk steps (h.chains.getD (i + 1) 0)).map ((i + 1) :: ·)
    else none

/-- The symbols that are visited in search of a name with this hash. -/
def lookup (h : HashChains) (hash : Word) : Option (List Nat) :=
  h.walk h.chains.size (h.buckets.getD (hash.toNat % h.buckets.size) 0)

theorem walk_of_linked {steps : Nat} (hlinked : Linked h.chains i list)
    (hsteps : list.length ≤ steps) : h.walk steps i = some list := by
  induction list generalizing i steps with
  | nil =>
    obtain rfl : i = 0 := hlinked
    cases steps <;> rfl
  | cons j rest ih =>
    obtain ⟨rfl, hne, hlt, hrest⟩ := hlinked
    obtain ⟨i, rfl⟩ := Nat.exists_eq_succ_of_ne_zero hne
    obtain ⟨steps, rfl⟩ := Nat.exists_eq_succ_of_ne_zero (by simp at hsteps; omega : steps ≠ 0)
    simp only [walk, hlt, if_true, ih hrest (Nat.le_of_succ_le_succ hsteps), Option.map_some]

end HashChains

/-! ## Insertions -/

/-- The symbols of a bucket, the last of those that were put in first. -/
def bucket (n b : Nat) (done : List (Nat × Word)) : List Nat :=
  ((done.filter fun e => e.2.toNat % n = b).map (·.1)).reverse

theorem bucket_snoc {b : Nat} : bucket n b (done ++ [e]) =
      if e.2.toNat % n = b then e.1 :: bucket n b done else bucket n b done := by
  simp only [bucket, filter_append, map_append, reverse_append]
  split <;> simp_all

theorem mem_bucket {b : Nat} : i ∈ bucket n b done ↔ ∃ w, (i, w) ∈ done ∧ w.toNat % n = b := by
  simp [bucket]

theorem nodup_bucket (h : (done.map (·.1)).Nodup) (n b : Nat) : (bucket n b done).Nodup :=
  nodup_reverse.mpr (h.sublist (filter_sublist.map _))

/-- The table has `n` buckets and `m` links, and each bucket leads to the symbols of `done` that
belong there. -/
structure Chained (n m : Nat) (done : List (Nat × Word)) (h : HashChains) : Prop where
  buckets : h.buckets.size = n
  chains : h.chains.size = m
  bucket_lt : ∀ b, h.buckets.getD b 0 < m
  chain_lt : ∀ i, h.chains.getD i 0 < m
  linked : ∀ b, b < n → Linked h.chains (h.buckets.getD b 0) (bucket n b done)

theorem chained_replicate (n : Nat) (hm : 0 < m) :
    Chained n m [] ⟨Array.replicate n 0, Array.replicate m 0⟩ := by
  have hzero (k i : Nat) : (Array.replicate k 0).getD i 0 = 0 := by
    rw [Array.getD_eq_getD_getElem?, Array.getElem?_replicate]
    split <;> rfl
  refine ⟨by simp, by simp, fun b => ?_, fun i => ?_, fun b _ => hzero n b⟩
  · exact (hzero n b).symm ▸ hm
  · exact (hzero m i).symm ▸ hm

/-- **Step.** A symbol goes to the front of its bucket. -/
theorem Chained.insert (hc : Chained n m done h) (hn : 0 < n) (hne : e.1 ≠ 0) (hlt : e.1 < m)
    (hnew : e.1 ∉ done.map (·.1)) : Chained n m (done ++ [e]) (h.insert e.1 e.2) := by
  have hbucket : e.2.toNat % n < h.buckets.size := hc.buckets.symm ▸ Nat.mod_lt _ hn
  have hself : (h.chains.setIfInBounds e.1 (h.buckets.getD (e.2.toNat % n) 0)).getD e.1 0 =
      h.buckets.getD (e.2.toNat % n) 0 := by
    rw [getD_setIfInBounds, if_pos ⟨rfl, hc.chains.symm ▸ hlt⟩]
  have hold (b : Nat) : e.1 ∉ bucket n b done := by
    intro hmem
    obtain ⟨w, hw, -⟩ := mem_bucket.mp hmem
    exact hnew (mem_map.mpr ⟨_, hw, rfl⟩)
  simp only [HashChains.insert, hc.buckets]
  refine ⟨by simp [hc.buckets], by simp [hc.chains], fun b => ?_, fun i => ?_, fun b hb => ?_⟩
  · rw [getD_setIfInBounds]
    split
    · exact hlt
    · exact hc.bucket_lt b
  · rw [getD_setIfInBounds]
    by_cases hi : i = e.1 ∧ e.1 < h.chains.size
    · rw [if_pos hi]
      exact hc.bucket_lt _
    · rw [if_neg hi]
      exact hc.chain_lt i
  · rw [bucket_snoc, getD_setIfInBounds]
    by_cases hmine : e.2.toNat % n = b
    · -- the bucket of the symbol: what it led to comes next
      subst hmine
      rw [if_pos rfl, if_pos ⟨rfl, hbucket⟩]
      refine ⟨rfl, hne, by simpa [hc.chains] using hlt, ?_⟩
      rw [hself]
      exact (hc.linked _ hb).set (hold _) _
    · rw [if_neg hmine, if_neg fun heq => hmine heq.1.symm]
      exact (hc.linked b hb).set (hold b) _

/-- **Run.** Any number of symbols are put in. -/
theorem Chained.foldl {entries : List (Nat × Word)} (hc : Chained n m done h) (hn : 0 < n)
    (hbounds : ∀ e ∈ entries, e.1 ≠ 0 ∧ e.1 < m) (hnodup : ((done ++ entries).map (·.1)).Nodup) :
    Chained n m (done ++ entries) (entries.foldl (fun h e => h.insert e.1 e.2) h) := by
  induction entries generalizing done h with
  | nil => simpa using hc
  | cons e entries ih =>
    obtain ⟨⟨hne, hlt⟩, hbounds⟩ := forall_mem_cons.mp hbounds
    have hnew : e.1 ∉ done.map (·.1) := by
      simp only [map_append, map_cons] at hnodup
      intro hmem
      exact (nodup_append.mp hnodup).2.2 _ hmem _ mem_cons_self rfl
    have hstep := ih (hc.insert hn hne hlt hnew) hbounds (by simpa using hnodup)
    simpa using hstep

/-! ## The symbols of the table -/

/-- The hash of the name that the loader knows a symbol by. -/
def nameHash (s : Symbol) : Word := Elf.hash (ofString s.dynamicName)

theorem mem_hashedSymbols {w : Word} : (i, w) ∈ hashedSymbols t ↔
    ∃ id, (t.get id).dynamicIndex = some i ∧ w = nameHash (t.get id) := by
  simp only [hashedSymbols, mem_mergeSort, toList_symbols, mem_filterMap, mem_map]
  constructor
  · rintro ⟨s, ⟨id, -, rfl⟩, hs⟩
    obtain ⟨j, hj, heq⟩ := Option.map_eq_some_iff.mp hs
    cases heq
    exact ⟨id, hj, rfl⟩
  · rintro ⟨id, hi, rfl⟩
    have hid : id ∈ t.ids := mem_ids.mpr (lt_size_of_get (P := (·.dynamicIndex = some i)) hi nofun)
    exact ⟨t.get id, ⟨id, hid, rfl⟩, by simp [hi, nameHash]⟩

theorem Numbered.nodup_hashedSymbols (h : Numbered d t) : ((hashedSymbols t).map (·.1)).Nodup := by
  refine ((mergeSort_perm _ _).map _).nodup_iff.mpr ?_
  rw [toList_symbols, filterMap_map, map_filterMap]
  refine Nodup.filterMap (fun id id' i hi hi' => ?_) nodup_range
  simp only [Function.comp, Option.map_map, Option.mem_def, Option.map_eq_some_iff] at hi hi'
  obtain ⟨j, hj, rfl⟩ := hi
  obtain ⟨j', hj', heq⟩ := hi'
  cases heq
  exact h.injective id id' _ hj hj'

theorem Numbered.bounds_hashedSymbols (h : Numbered d t) :
    ∀ e ∈ hashedSymbols t, e.1 ≠ 0 ∧ e.1 < d.count := by
  rintro ⟨i, w⟩ he
  obtain ⟨id, hi, -⟩ := mem_hashedSymbols.mp he
  obtain ⟨hpos, hlt⟩ := h.bounds id i hi
  exact ⟨Nat.pos_iff_ne_zero.mp hpos, hlt⟩

/-! ## What a loader reads -/

namespace HashChains

/-- The table that a loader reads from bytes: two counts, the buckets, the links. -/
def ofBytes? (bytes : Bytes) : Option HashChains := do
  let bucketCount ← bytes.wordAt? 0
  let chainCount ← bytes.wordAt? 4
  let buckets ← bytes.wordsAt? 8 bucketCount
  let chains ← bytes.wordsAt? (8 + 4 * bucketCount) chainCount
  return ⟨buckets.toArray, chains.toArray⟩

def bytes (h : HashChains) : Bytes := h.words.flatMap ofWord

theorem bytes_eq (h : HashChains) :
    h.bytes = ofWord (.ofNat 32 h.buckets.size) ++ (ofWord (.ofNat 32 h.chains.size) ++
      (ofNumbers h.buckets.toList ++ (ofNumbers h.chains.toList ++ []))) := by
  simp [bytes, words, ofNumbers, flatMap_map]

theorem length_bytes (h : HashChains) :
    h.bytes.length = 4 * (2 + h.buckets.size + h.chains.size) := by
  simp only [bytes_eq, length_append, length_ofNumbers, length_ofWord,
    length_nil, Array.length_toList]
  omega

/-- A loader reads the table that was written, if its numbers fit words. -/
theorem ofBytes?_bytes (hbuckets : h.buckets.size < 2 ^ 32) (hchains : h.chains.size < 2 ^ 32)
    (hbucket : ∀ n ∈ h.buckets.toList, n < 2 ^ 32) (hchain : ∀ n ∈ h.chains.toList, n < 2 ^ 32) :
    ofBytes? h.bytes = some h := by
  let counts := ofWord (.ofNat 32 h.buckets.size) ++ ofWord (.ofNat 32 h.chains.size)
  have hfirst : h.bytes.wordAt? 0 = some h.buckets.size := by
    exact wordAt?_append_self hbuckets [] _
  have hsecond : h.bytes.wordAt? 4 = some h.chains.size := by
    exact wordAt?_append_self hchains (ofWord _) _
  have hthird : h.bytes.wordsAt? 8 h.buckets.size = some h.buckets.toList := by
    rw [bytes_eq, ← append_assoc]
    exact wordsAt?_ofNumbers hbucket counts _
  have hfourth : h.bytes.wordsAt? (8 + 4 * h.buckets.size) h.chains.size =
      some h.chains.toList := by
    have hlength : (counts ++ ofNumbers h.buckets.toList).length = 8 + 4 * h.buckets.size := by
      simp only [counts, length_append, length_ofWord, length_ofNumbers,
        Array.length_toList]
    rw [bytes_eq, ← append_assoc, ← append_assoc, ← hlength]
    exact wordsAt?_ofNumbers hchain _ _
  simp [ofBytes?, hfirst, hsecond, hthird, hfourth]

end HashChains

/-! ## Lookups -/

/-- The table before any symbol is put in. -/
def emptyChains (d : DynamicTables) : HashChains :=
  ⟨Array.replicate (bucketCount d.count) 0, Array.replicate d.count 0⟩

/-- The table after some symbols were put in. -/
def insertAll (d : DynamicTables) (entries : List (Nat × Word)) : HashChains :=
  entries.foldl (fun h e => h.insert e.1 e.2) d.emptyChains

theorem bucketCount_pos (n : Nat) : 0 < bucketCount n := Nat.lt_add_right _ Nat.zero_lt_one

theorem hashChains_eq : d.hashChains t = d.insertAll (hashedSymbols t) := rfl

theorem Numbered.chained (h : Numbered d t) {before after : List (Nat × Word)}
    (hsplit : hashedSymbols t = before ++ after) :
    Chained (bucketCount d.count) d.count before (d.insertAll before) := by
  have hnodup := h.nodup_hashedSymbols
  have hbounds := h.bounds_hashedSymbols
  rw [hsplit] at hnodup hbounds
  exact (chained_replicate (bucketCount d.count) h.pos).foldl (bucketCount_pos _)
    (forall_mem_append.mp hbounds).1 (hnodup.sublist ((sublist_append_left _ _).map _))

/-- A lookup in the table visits the dynamic symbols of its bucket, each of them once, and ends. -/
structure Finds (d : DynamicTables) (t : SymbolTable) (h : HashChains) : Prop where
  buckets : 0 < h.buckets.size
  /-- there is a link for each dynamic symbol, the null symbol included -/
  chains : h.chains.size = d.count
  /-- a bucket leads to the dynamic symbols whose names belong there, and to each of them once -/
  visits : ∀ b, b < h.buckets.size → ∃ chain,
    h.walk h.chains.size (h.buckets.getD b 0) = some chain ∧ chain.Nodup ∧
    ∀ i, i ∈ chain ↔ ∃ id, (t.get id).dynamicIndex = some i ∧
      (nameHash (t.get id)).toNat % h.buckets.size = b
  finds : ∀ id i, (t.get id).dynamicIndex = some i →
    ∃ chain, h.lookup (nameHash (t.get id)) = some chain ∧ i ∈ chain

/-- A list of different numbers below `m` is not longer than that. -/
theorem length_le_of_nodup (hnodup : list.Nodup) (hlt : ∀ i ∈ list, i < m) : list.length ≤ m := by
  have hsub : list ⊆ range m := fun i hi => mem_range.mpr (hlt i hi)
  simpa using (subperm_of_subset hnodup hsub).length_le

theorem Numbered.finds (h : Numbered d t) : Finds d t (d.hashChains t) := by
  have hc := h.chained (append_nil (hashedSymbols t)).symm
  rw [← hashChains_eq] at hc
  have hvisits (b : Nat) (hb : b < (d.hashChains t).buckets.size) : ∃ chain,
      (d.hashChains t).walk (d.hashChains t).chains.size ((d.hashChains t).buckets.getD b 0) =
        some chain ∧ chain.Nodup ∧ ∀ i, i ∈ chain ↔ ∃ id, (t.get id).dynamicIndex = some i ∧
          (nameHash (t.get id)).toNat % (d.hashChains t).buckets.size = b := by
    have hnodup := nodup_bucket h.nodup_hashedSymbols (bucketCount d.count) b
    refine ⟨_, HashChains.walk_of_linked (hc.linked b (hc.buckets ▸ hb)) ?_, hnodup, fun i => ?_⟩
    · rw [hc.chains]
      refine length_le_of_nodup hnodup fun i hi => ?_
      obtain ⟨w, hw, -⟩ := mem_bucket.mp hi
      exact (h.bounds_hashedSymbols _ hw).2
    · simp only [mem_bucket, mem_hashedSymbols, hc.buckets]
      constructor
      · rintro ⟨w, ⟨id, hi, rfl⟩, hb⟩
        exact ⟨id, hi, hb⟩
      · rintro ⟨id, hi, hb⟩
        exact ⟨_, ⟨id, hi, rfl⟩, hb⟩
  have hpos : 0 < (d.hashChains t).buckets.size :=
    hc.buckets.symm ▸ bucketCount_pos _
  refine ⟨hpos, hc.chains, hvisits, fun id i hi => ?_⟩
  obtain ⟨chain, hwalk, -, hmem⟩ := hvisits _ (Nat.mod_lt (nameHash (t.get id)).toNat hpos)
  exact ⟨chain, hwalk, (hmem i).mpr ⟨id, hi, rfl⟩⟩

theorem bucketCount_lt (h : n < 2 ^ 32) : bucketCount n < 2 ^ 32 := by
  have hlog : n.log2 < 32 := by
    by_cases hn : n = 0
    · simp [hn]
    · exact (Nat.log2_lt hn).mpr h
  simp only [bucketCount]
  omega

/-- **The hash table finds every dynamic symbol.** Whatever was done to the tables, the bytes that
are put at the end of the hash table are those of a table in which a lookup visits the dynamic
symbols of its bucket, each of them once, and ends. No symbol is put in out of bounds. -/
theorem finds_of_writeHash (h : Reached d t) (hcount : d.count < 2 ^ 32) :
    ∃ bytes table, (d.writeHash t).get d.hash = (t.get d.hash).append bytes ∧
      (∀ id, id ≠ d.hash → (d.writeHash t).get id = t.get id) ∧
      HashChains.ofBytes? bytes = some table ∧
      bytes.length = 4 * (2 + table.buckets.size + table.chains.size) ∧ Finds d t table ∧
      ∀ before e after, hashedSymbols t = before ++ e :: after →
        e.2.toNat % (d.insertAll before).buckets.size < (d.insertAll before).buckets.size ∧
        e.1 < (d.insertAll before).chains.size := by
  have hnumbered := h.numbered
  have hc := hnumbered.chained (List.append_nil (hashedSymbols t)).symm
  have hall {xs : Array Nat} (hlt : ∀ i, xs.getD i 0 < d.count) : ∀ n ∈ xs.toList, n < 2 ^ 32 := by
    intro n hn
    obtain ⟨i, hi, rfl⟩ := List.getElem_of_mem hn
    refine Nat.lt_trans ?_ hcount
    simpa [Array.getD, show i < xs.size by simpa using hi] using hlt i
  refine ⟨(d.hashChains t).bytes, d.hashChains t, ?_, fun id hid => get_modify_ne hid, ?_,
    HashChains.length_bytes _, hnumbered.finds, fun before e after hsplit => ?_⟩
  · exact get_modify_self (h.tables.2 d.hash (by simp [all]))
  · rw [hashChains_eq]
    refine HashChains.ofBytes?_bytes ?_ ?_ (hall hc.bucket_lt) (hall hc.chain_lt)
    · exact hc.buckets.symm ▸ bucketCount_lt hcount
    · exact hc.chains.symm ▸ hcount
  · have hbefore := hnumbered.chained hsplit
    rw [hbefore.buckets, hbefore.chains]
    refine ⟨Nat.mod_lt _ (bucketCount_pos _), ?_⟩
    exact (hnumbered.bounds_hashedSymbols e (by simp [hsplit])).2

/-- Imports of which two have one name and a third belongs to their bucket, and exported data. -/
def hashSample : SymbolTable :=
  ⟨SymbolTable.initial.symbols ++ (
    [{ name := "puts", version := 0, kind := .dynamicImport, importLibrary := some "libc.so",
       reachable := true },
     { name := "_puts", version := 0, kind := .dynamicImport, importName := some "puts",
       importLibrary := some "libs.so", reachable := true },
     { name := "gets", version := 0, kind := .dynamicImport, importLibrary := some "libc.so",
       reachable := true },
     { name := "exit", version := 0, kind := .dynamicImport, importLibrary := some "libc.so",
       reachable := true },
     { name := "table", version := 0, kind := .data, size := 8, exported := true,
       reachable := true }] : List Symbol)⟩

theorem finds_of_writeHash_sample : ∃ d t, Reached d t ∧ d.count = 6 ∧
    ∃ bytes table chain, (d.writeHash t).get d.hash = (t.get d.hash).append bytes ∧
      HashChains.ofBytes? bytes = some table ∧ Finds d t table ∧
      table.lookup (Elf.hash (Bytes.ofString "puts")) = some chain ∧ 2 ∈ chain ∧ 3 ∈ chain := by
  let calls : List Call := [.exports, .slot 20, .stub 19, .index 22, .stub 21]
  let puts := Elf.hash (Bytes.ofString "puts")
  have hfresh : ∀ id, Fresh (hashSample.get id) := forall_get (by decide +kernel) fresh_default
  obtain ⟨d, t, hsetup, hcount, ⟨hsecond, hname⟩, hthird, hname'⟩ :
      ∃ d t, setup hashSample = .ok (d, t) ∧
        let s := run calls (d, t)
        s.1.count = 6 ∧ ((s.2.get 20).dynamicIndex = some 2 ∧ nameHash (s.2.get 20) = puts) ∧
          (s.2.get 19).dynamicIndex = some 3 ∧ nameHash (s.2.get 19) = puts := by
    decide +kernel
  have hreached := (Reached.setup hfresh hsetup).run calls
  have hlt : (run calls (d, t)).1.count < 2 ^ 32 := hcount ▸ by decide
  obtain ⟨bytes, table, hbytes, -, htable, -, hfinds, -⟩ := finds_of_writeHash hreached hlt
  -- both symbols of that name are in one chain
  obtain ⟨chain, hchain, hmem⟩ := hfinds.finds 20 2 hsecond
  obtain ⟨chain', hchain', hmem'⟩ := hfinds.finds 19 3 hthird
  rw [hname] at hchain
  rw [hname', hchain] at hchain'
  cases hchain'
  exact ⟨_, _, hreached, hcount, bytes, table, chain, hbytes, htable, hfinds, hchain, hmem, hmem'⟩

end DynamicTables

end ArmLink
