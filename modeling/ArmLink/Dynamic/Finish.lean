import ArmLink.Dynamic
import ArmLink.Elf.Hash
import ArmLink.SymbolTable.Containment

/-!
# Completion of the tables for the dynamic loader

* `addRelative` — an entry for each word of a relocatable output that holds an address;
* `writeHash` — the hash table over the dynamic symbols;
* `finish` — the hash table, and the table from which the loader finds the others.
-/

namespace ArmLink

namespace DynamicTables

/-- The tables whose addresses the loader adjusts by itself. -/
def exempt (d : DynamicTables) : List SymbolId :=
  [d.dynSym, d.rel, d.relPlt, d.gotPlt, d.dynamic]

/-- Whether a relocation fills a word with an address that moves with the output. -/
def isRelativeSite (t : SymbolTable) (r : Relocation SymbolId) : Bool :=
  match r.outcome with
  | .pending .absolute (some target) _ =>
    let root := t.get (t.outermost target).1
    r.size = 4 && (root.kind.isPlaced || root.special)
  | _ => false

/-- The offsets of the words of a symbol that hold an address. -/
def relativeSites (d : DynamicTables) (t : SymbolTable) (id : SymbolId) : List Nat :=
  let s := t.get id
  if s.reachable && s.kind.isPlaced && !d.exempt.contains id then
    (s.relocations.filter (isRelativeSite t)).map (·.offset)
  else []

/-- Asks the loader to adjust every word that holds an address. -/
def addRelative (d : DynamicTables) (t : SymbolTable) : DynamicTables × SymbolTable :=
  t.ids.foldl (fun (d, t) id =>
    (d.relativeSites t id).foldl (fun (d, t) offset =>
      d.addRelocation t id offset 0 Elf.RelocationType.relative) (d, t)) (d, t)

/-! ## The hash table -/

/-- A hash table: the first symbol of each bucket, and the next symbol after each symbol. -/
structure HashChains where
  /-- the first symbol of each bucket, or zero -/
  buckets : Array Nat
  /-- the symbol that follows each symbol in its bucket, or zero -/
  chains : Array Nat
  deriving DecidableEq, Repr

/-- Puts a symbol at the head of its bucket. -/
def HashChains.insert (h : HashChains) (index : Nat) (hash : Word) : HashChains :=
  let bucket := hash.toNat % h.buckets.size
  ⟨h.buckets.setIfInBounds bucket index,
   h.chains.setIfInBounds index (h.buckets.getD bucket 0)⟩

/-- The dynamic symbols with their hashes, in the order of their indices. -/
def hashedSymbols (t : SymbolTable) : List (Nat × Word) :=
  let found := t.symbols.toList.filterMap fun s =>
    s.dynamicIndex.map (·, Elf.hash (Bytes.ofString s.dynamicName))
  found.mergeSort fun a b => a.1 ≤ b.1

/-- The number of buckets: one more than the bits of the number of symbols. -/
def bucketCount (symbols : Nat) : Nat := 1 + (symbols.log2 + 1)

def hashChains (d : DynamicTables) (t : SymbolTable) : HashChains :=
  (hashedSymbols t).foldl (fun h (index, hash) => h.insert index hash)
    ⟨Array.replicate (bucketCount d.count) 0, Array.replicate d.count 0⟩

/-- The words of a hash table: the two counts, the buckets, the chains. -/
def HashChains.words (h : HashChains) : List Word :=
  ([h.buckets.size, h.chains.size] ++ h.buckets.toList ++ h.chains.toList).map (.ofNat 32)

/-- Writes the hash table. -/
def writeHash (d : DynamicTables) (t : SymbolTable) : SymbolTable :=
  let words := (d.hashChains t).words
  t.modify d.hash fun s => s.append (words.flatMap Bytes.ofWord)

/-! ## The dynamic section -/

inductive Entry where
  | number (tag value : Nat)
  | address (tag : Nat) (table : SymbolId)
  | size (tag : Nat) (table : SymbolId)
  deriving DecidableEq, Repr

/-- The dynamic section with one more entry. -/
def Entry.append (s : Symbol) : Entry → Symbol
  | number tag value => (s.appendWord (.ofNat 32 tag)).appendWord (.ofNat 32 value)
  | address tag table => (s.appendWord (.ofNat 32 tag)).appendPatched .absolute table 0
  | size tag table => (s.appendWord (.ofNat 32 tag)).appendPatched .size table 0

def entries (d : DynamicTables) (runPath : Option Nat) : List Entry :=
  d.needed.map (.number 1)                                -- DT_NEEDED
    ++ [.address 4 d.hash,                                -- DT_HASH
        .address 6 d.dynSym,                              -- DT_SYMTAB
        .number 11 16,                                    -- DT_SYMENT
        .address 5 d.dynStr,                              -- DT_STRTAB
        .size 10 d.dynStr,                                -- DT_STRSZ
        .address 17 d.rel,                                -- DT_REL
        .size 18 d.rel,                                   -- DT_RELSZ
        .number 19 8]                                     -- DT_RELENT
    ++ (runPath.map (.number 29)).toList                  -- DT_RUNPATH
    ++ [.address 3 d.gotPlt,                              -- DT_PLTGOT
        .number 20 17,                                    -- DT_PLTREL
        .size 2 d.relPlt,                                 -- DT_PLTRELSZ
        .address 23 d.relPlt]                             -- DT_JMPREL
    ++ (if d.textRel then [.number 22 0] else [])         -- DT_TEXTREL
    ++ [.number 21 0,                                     -- DT_DEBUG
        .number 0 0]                                      -- DT_NULL

/-- Fills in the hash table and the dynamic section. Nothing may be added to the other tables
afterwards. -/
def finish (d : DynamicTables) (t : SymbolTable) (runPath : Option String) :
    DynamicTables × SymbolTable :=
  let t := d.writeHash t
  let (runPath, d, t) : Option Nat × DynamicTables × SymbolTable :=
    match runPath with
    | some path =>
      let (offset, d, t) := d.addName t path
      (some offset, d, t)
    | none => (none, d, t)
  (d, t.modify d.dynamic fun s => (d.entries runPath).foldl Entry.append s)

end DynamicTables

end ArmLink
