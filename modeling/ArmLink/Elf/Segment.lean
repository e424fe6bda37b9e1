import ArmLink.Alignment

/-!
# Program segments

A program header describes a segment: a part of the file that matters to the loader. The segments
that this linker writes are known beforehand, and their headers always stand in the same order.
-/

namespace ArmLink.Elf

namespace SegmentType

def load : Nat := 1

def dynamic : Nat := 2

def interp : Nat := 3

def note : Nat := 4

def phdr : Nat := 6

def tls : Nat := 7

def gnuStack : Nat := 0x6474e551

def names : List (Nat × String) :=
  [(0, "PT_NULL"), (load, "PT_LOAD"), (dynamic, "PT_DYNAMIC"), (interp, "PT_INTERP"),
   (note, "PT_NOTE"), (5, "PT_SHLIB"), (phdr, "PT_PHDR"), (tls, "PT_TLS"),
   (gnuStack, "PT_GNU_STACK")]

/-- The name of a type of segments, or its number if it has none. -/
def name (type : Nat) : String :=
  match names.lookup type with
  | some text => text
  | none => s!"UNKNOWN_P_TYPE_{type}"

end SegmentType

namespace SegmentFlags

def executable : Nat := 1

def writable : Nat := 2

def readable : Nat := 4

/-- Permissions by their letters. -/
def text (flags : Nat) : String :=
  (if flags &&& readable ≠ 0 then "R" else "") ++ (if flags &&& writable ≠ 0 then "W" else "")
    ++ (if flags &&& executable ≠ 0 then "X" else "")

end SegmentFlags

inductive Segment where
  | phdr
  | interp
  | note
  | text
  | rodata
  | data
  | dynamic
  | tls
  /-- the stack, which holds no sections -/
  | stack
  deriving DecidableEq, Repr, Inhabited

namespace Segment

/-- The segments, in the order of their headers. -/
def all : List Segment := [phdr, interp, note, text, rodata, data, dynamic, tls, stack]

/-- The segments that sections are laid out in, in the order of their addresses. -/
def loads : List Segment := [text, rodata, data]

def name : Segment → String
  | phdr => "phdr"
  | interp => "interp"
  | note => "note"
  | text => "text"
  | rodata => "rodata"
  | data => "data"
  | dynamic => "dynamic"
  | tls => "tls"
  | stack => "stack"

def type : Segment → Nat
  | phdr => SegmentType.phdr
  | interp => SegmentType.interp
  | note => SegmentType.note
  | text | rodata | data => SegmentType.load
  | dynamic => SegmentType.dynamic
  | tls => SegmentType.tls
  | stack => SegmentType.gnuStack

def flags : Segment → Nat
  | phdr | interp | note | rodata | tls => SegmentFlags.readable
  | text => SegmentFlags.readable ||| SegmentFlags.executable
  | data | dynamic | stack => SegmentFlags.readable ||| SegmentFlags.writable

/-- The alignment of a segment: mapped segments are aligned to pages. -/
def alignment : Segment → Alignment
  | text | rodata | data => .page
  | _ => .word

/-- How messages name a segment. -/
def label (s : Segment) : String :=
  s.name ++ " (" ++ SegmentType.name s.type ++ ", " ++ SegmentFlags.text s.flags ++ ")"

end Segment

end ArmLink.Elf
