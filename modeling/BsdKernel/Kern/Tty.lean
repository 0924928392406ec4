import Mathlib.Data.List.Basic
/-!
# Terminal characters

The characters of the line discipline: their classes in `char_type`, the
special characters of a `termios`, and the flags of a character that
`ttyinput` is given.
-/

namespace BsdKernel.Tty

/-! ## Character types -/

def ORDINARY : UInt8 := 0
def CONTROL : UInt8 := 1
def BACKSPACE : UInt8 := 2
def NEWLINE : UInt8 := 3
def TAB : UInt8 := 4
def VTAB : UInt8 := 5
def RETURN : UInt8 := 6

/-- Odd parity. -/
def O : UInt8 := 0x80

/-- Alpha or underscore. -/
def ALPHA : UInt8 := 0x40

def CCLASSMASK : UInt8 := 0x3f

/-- A control character, of even and of odd parity. -/
def ecc : UInt8 := CONTROL
def occ : UInt8 := O ||| CONTROL

/-- An ordinary character, of even and of odd parity. -/
def eno : UInt8 := ORDINARY
def ono : UInt8 := O ||| ORDINARY

/-- An alphameric character or underscore, of even and of odd parity. -/
def ena : UInt8 := ORDINARY ||| ALPHA
def ona : UInt8 := O ||| ORDINARY ||| ALPHA

/-- The table of classes and parities. The meta characters are all treated as normal characters. -/
def char_type : List UInt8 :=
  [ecc, occ, occ, ecc, occ, ecc, ecc, occ,
   O ||| BACKSPACE, TAB, NEWLINE, occ, VTAB, O ||| RETURN, occ, ecc,
   occ, ecc, ecc, occ, ecc, occ, occ, ecc,
   ecc, occ, occ, ecc, occ, ecc, ecc, occ,
   ono, eno, eno, ono, eno, ono, ono, eno,
   eno, ono, ono, eno, ono, eno, eno, ono,
   ena, ona, ona, ena, ona, ena, ena, ona,
   ona, ena, eno, ono, eno, ono, ono, eno,
   ono, ena, ena, ona, ena, ona, ona, ena,
   ena, ona, ona, ena, ona, ena, ena, ona,
   ena, ona, ona, ena, ona, ena, ena, ona,
   ona, ena, ena, ono, eno, ono, ono, ona,
   eno, ona, ona, ena, ona, ena, ena, ona,
   ona, ena, ena, ona, ena, ona, ona, ena,
   ona, ena, ena, ona, ena, ona, ona, ena,
   ena, ona, ona, eno, ono, eno, eno, occ] ++ List.replicate 128 ena

/-- The class of a character. -/
def CCLASS (c : UInt8) : UInt8 := (char_type[c.toNat]?.getD 0) &&& CCLASSMASK

def ISALPHA (c : UInt32) : Bool := ((char_type[c.toUInt8.toNat]?.getD 0) &&& ALPHA) != 0

/-! ## Flags of a character passed to `ttyinput` -/

def TTY_QUOTE : UInt32 := 0x00000100
def TTY_ERRORMASK : UInt32 := 0xff000000
def TTY_FE : UInt32 := 0x01000000
def TTY_PE : UInt32 := 0x02000000

def ISSET (t f : UInt32) : Bool := t &&& f != 0
def SET (t f : UInt32) : UInt32 := t ||| f
def CLR (t f : UInt32) : UInt32 := t &&& ~~~f

/-! ## Special characters -/

/-- The places of `c_cc` that the line discipline reads. -/
inductive Cc where
  | VEOF | VEOL | VEOL2 | VERASE | VWERASE | VKILL | VREPRINT | VINTR | VQUIT | VSUSP | VDSUSP
  | VSTART | VSTOP | VLNEXT | VDISCARD | VSTATUS
  deriving DecidableEq, Repr

/-- The value of a special character that is turned off. -/
def POSIX_VDISABLE : UInt8 := 0xff

/-- The character `c` is the special character `val`. -/
def CCEQ (val : UInt8) (c : UInt32) : Bool := c == val.toUInt32 && val != POSIX_VDISABLE

/-- The most characters the input queues take. -/
def TTYHOG : Nat := 1024

end BsdKernel.Tty
