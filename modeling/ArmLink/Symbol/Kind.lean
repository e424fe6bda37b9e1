/-!
# Kinds of symbols

What a symbol is decides where it goes. The kinds are listed in the order in which their symbols
are laid out; the last three have no place in the output.
-/

namespace ArmLink

/-- What a symbol is. -/
inductive SymbolKind where
  | undefined
  | text
  /-- a table of code made by the linker -/
  | codeTable
  | readOnlyData
  | typeLink
  | symbolTable
  | pcLineTable
  /-- a table made by the linker that is only read -/
  | readOnlyTable
  /-- a table made by the linker that may be written -/
  | writableTable
  | noPtrData
  | data
  /-- data that starts as zeros -/
  | bss
  /-- data without pointers that starts as zeros -/
  | noPtrBss
  | tlsBss
  /-- an absolute value -/
  | constant
  | dynamicImport
  | hostObject
  deriving DecidableEq, Repr, Inhabited

namespace SymbolKind

/-- The position of a kind in the order of layout. -/
def rank : SymbolKind → Nat
  | undefined => 0
  | text => 1
  | codeTable => 2
  | readOnlyData => 3
  | typeLink => 4
  | symbolTable => 5
  | pcLineTable => 6
  | readOnlyTable => 7
  | writableTable => 8
  | noPtrData => 9
  | data => 10
  | bss => 11
  | noPtrBss => 12
  | tlsBss => 13
  | constant => 14
  | dynamicImport => 15
  | hostObject => 16

/-- Symbols of these kinds are laid out in a section and get an address. -/
def isPlaced : SymbolKind → Bool
  | undefined | constant | dynamicImport | hostObject => false
  | _ => true

/-- Symbols of these kinds are executed. -/
def isText : SymbolKind → Bool
  | text | codeTable => true
  | _ => false

/-- Symbols of these kinds may be written. -/
def isWritable : SymbolKind → Bool
  | writableTable | noPtrData | data | bss | noPtrBss => true
  | _ => false

end SymbolKind

end ArmLink
