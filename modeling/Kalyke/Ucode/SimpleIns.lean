-- SUMMARY: The simple instructions: their one-byte opcodes and the tree the opcodes encode.
import Mathlib.Tactic.Common

/-!
# Simple Instructions

A simple instruction carries its opcode in the second byte and the low part of its element number
in the first. The opcodes are laid out regularly, operation in the high nibble and element class in
the low one, so an instruction is modelled by those two parts and not by the flat enumeration of
`plc_instruction.h`.
-/

namespace Kalyke

/-- The global bit elements a contact can read (`X_ELEMENT` and so on). -/
inductive BitElement where
  | X | Y | C | T | SM | M | S
deriving DecidableEq, Repr

/-- The global bit elements a coil can drive. -/
inductive CoilElement where
  | Y | SM | M
deriving DecidableEq, Repr

/-- The contacts: load, serial and parallel connection, each also negated. -/
inductive Contact where
  | ld | ldi | and | ani | or | ori
deriving DecidableEq, Repr

/-- The coils. -/
inductive Coil where
  | out | set | rst
deriving DecidableEq, Repr

/-- The edge contacts and coils with an operand of their own. -/
inductive Pulse where
  | ldp | ldf | andp | andf | orp | orf | plp | plf
deriving DecidableEq, Repr

/-- The simple instructions of `plc_instruction.h`. The extended forms carry the high part of the
element number in a second halfword; the local elements `LM` have a short form only. -/
inductive SimpleIns where
  | contact (k : Contact) (e : BitElement) (ext : Bool)
  | contactLm (k : Contact)
  | coil (k : Coil) (e : CoilElement) (ext : Bool)
  | coilLm (k : Coil)
  | inv | anb | orb | mps | mrd | mpp | nop
  | eu | ed
  | pulse (k : Pulse)
deriving DecidableEq, Repr

/-- The low nibble of a contact on a global element. -/
def BitElement.nibble : BitElement → Nat
  | X => 0 | Y => 1 | C => 2 | T => 3 | SM => 4 | M => 5 | S => 6

def BitElement.ofNibble : Nat → Option BitElement
  | 0 => some X | 1 => some Y | 2 => some C | 3 => some T | 4 => some SM | 5 => some M | 6 => some S
  | _ => none

def CoilElement.toBitElement : CoilElement → BitElement
  | Y => .Y | SM => .SM | M => .M

def CoilElement.ofNibble : Nat → Option CoilElement
  | 1 => some Y | 4 => some SM | 5 => some M
  | _ => none

/-- The high nibble of a contact's opcode. -/
def Contact.nibble : Contact → Nat
  | ld => 1 | ldi => 2 | and => 3 | ani => 4 | or => 5 | ori => 6

def Contact.ofNibble : Nat → Option Contact
  | 1 => some ld | 2 => some ldi | 3 => some and | 4 => some ani | 5 => some or | 6 => some ori
  | _ => none

/-- The high nibble of a coil's opcode. -/
def Coil.nibble : Coil → Nat
  | out => 7 | set => 8 | rst => 9

def Coil.ofNibble : Nat → Option Coil
  | 7 => some out | 8 => some set | 9 => some rst
  | _ => none

def Pulse.code : Pulse → Nat
  | ldp => 0xB0 | ldf => 0xB1 | andp => 0xB2 | andf => 0xB3
  | orp => 0xB4 | orf => 0xB5 | plp => 0xB6 | plf => 0xB7

/-- `SI_MAX_INS`: the first byte past the simple opcodes. -/
def siMaxIns : Nat := 0xB8

namespace SimpleIns

/-- The opcode byte of a simple instruction. The extended forms stand eight above the short ones. -/
def code : SimpleIns → Nat
  | contact k e ext => 16 * k.nibble + e.nibble + if ext then 8 else 0
  | contactLm k => 16 * k.nibble + 7
  | coil k e ext => 16 * k.nibble + e.toBitElement.nibble + if ext then 8 else 0
  | coilLm k => 16 * k.nibble + 7
  | inv => 0xA0 | anb => 0xA1 | orb => 0xA2 | mps => 0xA3 | mrd => 0xA4 | mpp => 0xA5
  | nop => 0xA6 | eu => 0xA7 | ed => 0xA8
  | pulse k => k.code

private def contactOf (k : Contact) (lo : Nat) : Option SimpleIns :=
  if lo = 7 then some (contactLm k)
  else if lo < 7 then (BitElement.ofNibble lo).map (contact k · false)
  else (BitElement.ofNibble (lo - 8)).map (contact k · true)

private def coilOf (k : Coil) (lo : Nat) : Option SimpleIns :=
  if lo = 7 then some (coilLm k)
  else if lo < 7 then (CoilElement.ofNibble lo).map (coil k · false)
  else (CoilElement.ofNibble (lo - 8)).map (coil k · true)

/-- The instruction an opcode byte stands for, none for the holes of the enumeration. -/
def ofCode (n : Nat) : Option SimpleIns :=
  match Contact.ofNibble (n / 16), Coil.ofNibble (n / 16) with
  | some k, _ => contactOf k (n % 16)
  | none, some k => coilOf k (n % 16)
  | none, none =>
    match n with
    | 0xA0 => some inv | 0xA1 => some anb | 0xA2 => some orb | 0xA3 => some mps
    | 0xA4 => some mrd | 0xA5 => some mpp | 0xA6 => some nop | 0xA7 => some eu | 0xA8 => some ed
    | 0xB0 => some (pulse .ldp) | 0xB1 => some (pulse .ldf)
    | 0xB2 => some (pulse .andp) | 0xB3 => some (pulse .andf)
    | 0xB4 => some (pulse .orp) | 0xB5 => some (pulse .orf)
    | 0xB6 => some (pulse .plp) | 0xB7 => some (pulse .plf)
    | _ => none

theorem ofCode_code (i : SimpleIns) : ofCode i.code = some i := by
  cases i with
  | contact k e ext => cases k <;> cases e <;> cases ext <;> rfl
  | contactLm k => cases k <;> rfl
  | coil k e ext => cases k <;> cases e <;> cases ext <;> rfl
  | coilLm k => cases k <;> rfl
  | pulse k => cases k <;> rfl
  | _ => rfl

theorem code_lt (i : SimpleIns) : i.code < siMaxIns := by
  cases i with
  | contact k e ext => cases k <;> cases e <;> cases ext <;> decide
  | contactLm k => cases k <;> decide
  | coil k e ext => cases k <;> cases e <;> cases ext <;> decide
  | coilLm k => cases k <;> decide
  | pulse k => cases k <;> decide
  | _ => decide

end SimpleIns

end Kalyke
