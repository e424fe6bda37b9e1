import ArmLink.Word

/-!
# Condition codes

Every A32 instruction carries a condition in its four highest bits; it takes effect only if the
condition holds. `Condition.field` is that field in place.
-/

namespace ArmLink.Arm

/-- When an instruction takes effect. -/
inductive Condition where
  | eq | ne | cs | cc | mi | pl | vs | vc | hi | ls | ge | lt | gt | le | al
  deriving DecidableEq, Repr, Inhabited

namespace Condition

def code : Condition → Word
  | eq => 0x0
  | ne => 0x1
  | cs => 0x2
  | cc => 0x3
  | mi => 0x4
  | pl => 0x5
  | vs => 0x6
  | vc => 0x7
  | hi => 0x8
  | ls => 0x9
  | ge => 0xa
  | lt => 0xb
  | gt => 0xc
  | le => 0xd
  | al => 0xe

/-- The code in its place, bits 28 to 31. -/
def field (c : Condition) : Word := c.code <<< 28

def name : Condition → String
  | eq => "Eq"
  | ne => "Ne"
  | cs => "Cs"
  | cc => "Cc"
  | mi => "Mi"
  | pl => "Pl"
  | vs => "Vs"
  | vc => "Vc"
  | hi => "Hi"
  | ls => "Ls"
  | ge => "Ge"
  | lt => "Lt"
  | gt => "Gt"
  | le => "Le"
  | al => "Al"

/-- How object files spell conditions; two of them have a second spelling. -/
def spellings : List (String × Condition) :=
  [("EQ", eq), ("NE", ne), ("CS", cs), ("HS", cs), ("CC", cc), ("LO", cc), ("MI", mi), ("PL", pl),
   ("VS", vs), ("VC", vc), ("HI", hi), ("LS", ls), ("GE", ge), ("LT", lt), ("GT", gt), ("LE", le),
   ("AL", al)]

end Condition

end ArmLink.Arm
