import Mathlib.Data.List.Basic
import Mathlib.Algebra.Order.Ring.Nat
import Mathlib.Tactic.Ring

/-! Fixed-width little-endian fields, and reading a byte string field by field. -/
namespace MangOH.Codec

variable {n k : Nat} {b rest file : List UInt8}

/-- The `k` low-order bytes of a number, lowest first. -/
def encodeLe : Nat → Nat → List UInt8
  | 0, _ => []
  | k + 1, n => UInt8.ofNat n :: encodeLe k (n / 256)

def decodeLe : List UInt8 → Nat
  | [] => 0
  | b :: bs => b.toNat + 256 * decodeLe bs

@[simp] theorem length_encodeLe (k n : Nat) : (encodeLe k n).length = k := by
  induction k generalizing n with
  | zero => rfl
  | succ k ih => simp [encodeLe, ih]

theorem decodeLe_encodeLe (k n : Nat) : decodeLe (encodeLe k n) = n % 256 ^ k := by
  induction k generalizing n with
  | zero => simp [encodeLe, decodeLe, Nat.mod_one]
  | succ k ih =>
    have hsplit : n % 256 ^ (k + 1) = n % 256 + 256 * (n / 256 % 256 ^ k) := by
      rw [pow_succ', Nat.mod_mul]
    simp only [encodeLe, decodeLe, ih, hsplit]
    simp

theorem decodeLe_encodeLe_of_lt (h : n < 256 ^ k) : decodeLe (encodeLe k n) = n := by
  rw [decodeLe_encodeLe, Nat.mod_eq_of_lt h]

theorem decodeLe_lt (b : List UInt8) : decodeLe b < 256 ^ b.length := by
  induction b with
  | nil => simp [decodeLe]
  | cons a b ih =>
    have ha : a.toNat < 256 := a.toNat_lt
    simp only [decodeLe, List.length_cons, pow_succ']
    omega

/-- The next `n` bytes and what follows them; `none` past the end of the file. -/
def takeBytes (n : Nat) (file : List UInt8) : Option (List UInt8 × List UInt8) :=
  if file.length < n then none else some (file.take n, file.drop n)

theorem takeBytes_append (h : b.length = n) : takeBytes n (b ++ rest) = some (b, rest) := by
  subst h
  simp [takeBytes]

theorem takeBytes_encodeLe : takeBytes k (encodeLe k n ++ rest) = some (encodeLe k n, rest) :=
  takeBytes_append (length_encodeLe k n)

end MangOH.Codec
