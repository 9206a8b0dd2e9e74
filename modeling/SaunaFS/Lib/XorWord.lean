/-
Words under exclusive or. They form an additive group in which every word is its own inverse, so what has been added to
a checksum is taken out by adding it again, and a checksum over a table is a sum.
-/
import Mathlib.Tactic

/-- a word of `w` bits whose addition is exclusive or -/
def XorWord (w : ℕ) : Type := BitVec w

namespace XorWord

variable {w : ℕ}

instance : DecidableEq (XorWord w) := inferInstanceAs (DecidableEq (BitVec w))

instance : Add (XorWord w) := ⟨fun a b => BitVec.xor a b⟩

instance : Zero (XorWord w) := ⟨BitVec.zero w⟩

instance : Neg (XorWord w) := ⟨fun a => a⟩

instance : AddCommGroup (XorWord w) where
  add_assoc a b c := BitVec.xor_assoc (x := a) (y := b) (z := c)
  add_comm a b := BitVec.xor_comm (x := a) (y := b)
  zero_add a := BitVec.zero_xor (x := a)
  add_zero a := BitVec.xor_zero (x := a)
  neg_add_cancel a := BitVec.xor_self (x := a)
  nsmul := nsmulRec
  zsmul := zsmulRec

end XorWord
