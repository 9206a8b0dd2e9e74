/-
Decimal numbers in byte strings: printing as `%u` does, and reading as `strtoul` does, with white space, a sign, and an
answer for strings without digits.

- `strtoul_print`: a printed number is read back.
-/
import Mathlib.Tactic

namespace Decimal

open List

def isDigit (b : UInt8) : Bool := 48 ≤ b && b ≤ 57

def isSpace (b : UInt8) : Bool := b = 32 || (9 ≤ b && b ≤ 13)

def ofDigit (d : ℕ) : UInt8 := UInt8.ofNat (48 + d)

/-- the digits of `n` in front of `acc`; `fuel` bounds their number -/
def printOnto : ℕ → ℕ → List UInt8 → List UInt8
  | 0, n, acc => ofDigit n :: acc
  | fuel + 1, n, acc => if n < 10 then ofDigit n :: acc else printOnto fuel (n / 10) (ofDigit (n % 10) :: acc)

/-- the decimal digits of a number -/
def print (n : ℕ) : List UInt8 := printOnto n n []

/-- the number that digits stand for, after `v` has been read -/
def valueOnto (v : ℕ) (digits : List UInt8) : ℕ := digits.foldl (fun v b => 10 * v + (b.toNat - 48)) v

/-- the sign of a number, and what follows -/
def sign : List UInt8 → Bool × List UInt8
  | 45 :: rest => (true, rest)
  | 43 :: rest => (false, rest)
  | s => (false, s)

/-- the sign and the digits of a number at the start of a string, if there is one, and what follows -/
def scan (s : List UInt8) : Option (Bool × ℕ × List UInt8) :=
  let (negative, t) := sign (s.dropWhile isSpace)
  if (t.takeWhile isDigit).isEmpty then none
  else some (negative, valueOnto 0 (t.takeWhile isDigit), t.dropWhile isDigit)

/-- a number of 64 bits with its sign; too large numbers give the largest one -/
def wrap (negative : Bool) (v : ℕ) : UInt64 :=
  if v < 2 ^ 64 then (if negative then -UInt64.ofNat v else UInt64.ofNat v) else UInt64.ofNat (2 ^ 64 - 1)

/-- `strtoul` and `strtoull` in base 10 -/
def strtoul (s : List UInt8) : UInt64 × List UInt8 :=
  match scan s with
  | none => (0, s)
  | some (negative, v, rest) => (wrap negative v, rest)

/-! ## Digits -/

variable {d n : ℕ} {rest : List UInt8}

theorem toNat_ofDigit (hd : d < 10) : (ofDigit d).toNat = 48 + d := by
  unfold ofDigit
  rw [UInt8.toNat_ofNat']
  omega

theorem isDigit_ofDigit (hd : d < 10) : isDigit (ofDigit d) := by
  have h := toNat_ofDigit hd
  unfold isDigit
  simp only [Bool.and_eq_true, decide_eq_true_eq, UInt8.le_iff_toNat_le]
  rw [h]
  exact ⟨by simp, by simp; omega⟩

theorem valueOnto_printOnto (fuel n : ℕ) (acc : List UInt8) (hn : n ≤ fuel) :
    valueOnto 0 (printOnto fuel n acc) = valueOnto n acc := by
  induction fuel generalizing n acc with
  | zero =>
    obtain rfl : n = 0 := by omega
    rfl
  | succ fuel ih =>
    unfold printOnto
    split_ifs with hl
    · simp only [valueOnto, foldl_cons, toNat_ofDigit hl]
      congr 1
      omega
    · rw [ih (n / 10) _ (by omega)]
      simp only [valueOnto, foldl_cons, toNat_ofDigit (Nat.mod_lt n (by omega))]
      congr 1
      omega

theorem all_isDigit_printOnto (fuel n : ℕ) (acc : List UInt8) (hn : n ≤ fuel) (ha : ∀ b ∈ acc, isDigit b) :
    ∀ b ∈ printOnto fuel n acc, isDigit b := by
  induction fuel generalizing n acc with
  | zero =>
    intro b hb
    rcases mem_cons.1 hb with rfl | hb
    · exact isDigit_ofDigit (by omega)
    · exact ha b hb
  | succ fuel ih =>
    unfold printOnto
    split_ifs with hl
    · intro b hb
      rcases mem_cons.1 hb with rfl | hb
      · exact isDigit_ofDigit hl
      · exact ha b hb
    · refine ih (n / 10) _ (by omega) fun b hb => ?_
      rcases mem_cons.1 hb with rfl | hb
      · exact isDigit_ofDigit (Nat.mod_lt n (by omega))
      · exact ha b hb

theorem isDigit_of_mem_print {b : UInt8} (hb : b ∈ print n) : isDigit b :=
  all_isDigit_printOnto n n [] le_rfl (by simp) b hb

theorem printOnto_ne_nil (fuel n : ℕ) (acc : List UInt8) : printOnto fuel n acc ≠ [] := by
  induction fuel generalizing n acc with
  | zero => exact cons_ne_nil _ _
  | succ fuel ih =>
    unfold printOnto
    split_ifs
    · exact cons_ne_nil _ _
    · exact ih _ _

/-! ## Reading back -/

theorem dropWhile_isSpace_print : sign ((print n ++ rest).dropWhile isSpace) = (false, print n ++ rest) := by
  obtain ⟨b, l, hbl⟩ := exists_cons_of_ne_nil (printOnto_ne_nil n n [])
  have hb : isDigit b := isDigit_of_mem_print (n := n) (by rw [print, hbl]; exact mem_cons_self)
  -- a digit is neither white space nor a sign
  obtain ⟨hs, hm, hp⟩ : isSpace b = false ∧ b ≠ 45 ∧ b ≠ 43 := by
    unfold isDigit at hb
    unfold isSpace
    grind
  rw [print, hbl, cons_append, dropWhile_cons, hs]
  unfold sign
  split
  · rename_i he
    exact absurd (List.cons.inj he).1 hm
  · rename_i he
    exact absurd (List.cons.inj he).1 hp
  · rfl

theorem scan_print (hr : ∀ b, rest.head? = some b → isDigit b = false) :
    scan (print n ++ rest) = some (false, n, rest) := by
  have ha : ∀ b ∈ print n, isDigit b := fun b hb => isDigit_of_mem_print hb
  have hs : rest.takeWhile isDigit = [] ∧ rest.dropWhile isDigit = rest := by
    cases rest with
    | nil => exact ⟨rfl, rfl⟩
    | cons b l =>
      have hb := hr b rfl
      simp [hb]
  have ht : (print n ++ rest).takeWhile isDigit = print n := by
    rw [takeWhile_append_of_pos ha, hs.1, append_nil]
  have hd : (print n ++ rest).dropWhile isDigit = rest := by
    rw [dropWhile_append_of_pos ha, hs.2]
  have hv : valueOnto 0 (print n) = n := valueOnto_printOnto n n [] le_rfl
  have hn : (print n).isEmpty = false := by
    rw [isEmpty_eq_false_iff]
    exact printOnto_ne_nil n n []
  unfold scan
  simp only [dropWhile_isSpace_print, ht, hd, hv, hn, Bool.false_eq_true, if_false]

/-- **A printed number is read back**, up to the first byte that is no digit. -/
theorem strtoul_print (hn : n < 2 ^ 64)
    (hr : ∀ b, rest.head? = some b → isDigit b = false) : strtoul (print n ++ rest) = (UInt64.ofNat n, rest) := by
  rw [strtoul, scan_print hr]
  simp only [wrap, if_pos hn, Bool.false_eq_true, if_false]

end Decimal
