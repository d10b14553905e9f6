import Mathlib

namespace LittleEndian

def encode : Nat → Nat → List UInt8
  | 0, _ => []
  | w + 1, v => UInt8.ofNat (v % 256) :: encode w (v / 256)

def decode : List UInt8 → Nat
  | [] => 0
  | b :: bs => b.toNat + 256 * decode bs

@[simp] theorem length_encode (w v : Nat) : (encode w v).length = w := by
  induction w generalizing v with
  | zero => rfl
  | succ w ih => simp [encode, ih]

theorem decode_encode (w v : Nat) : decode (encode w v) = v % 256 ^ w := by
  induction w generalizing v with
  | zero => simp [encode, decode, Nat.mod_one]
  | succ w ih =>
    have hb : (UInt8.ofNat (v % 256)).toNat = v % 256 := by
      simp [UInt8.toNat_ofNat']
    rw [encode, decode, hb, ih, Nat.pow_succ', Nat.mod_mul]

theorem decode_append (a b : List UInt8) : decode (a ++ b) = decode a + 256 ^ a.length * decode b := by
  induction a with
  | nil => simp [decode]
  | cons x a ih =>
    rw [List.cons_append, decode, decode, ih, List.length_cons, Nat.pow_succ']
    ring

end LittleEndian
