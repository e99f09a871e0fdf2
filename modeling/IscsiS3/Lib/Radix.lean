import Mathlib.Algebra.Group.Nat.Defs
import Mathlib.Data.List.Induction

/-! Numbers written with a fixed count of digits, most significant digit first: the hexadecimal
names with leading zeros and the big-endian integers of the byte formats. -/

namespace Radix

/-- The last `w` digits of `n` in base `b`. -/
def encode (b : Nat) : (w n : Nat) → List Nat
  | 0, _ => []
  | w + 1, n => encode b w (n / b) ++ [n % b]

def decode (b : Nat) (digits : List Nat) : Nat := digits.foldl (fun n d => n * b + d) 0

@[simp] theorem length_encode (b w n : Nat) : (encode b w n).length = w := by
  induction w generalizing n with
  | zero => rfl
  | succ w ih => simp [encode, ih]

variable {b : Nat} {digits : List Nat}

theorem encode_lt (hb : 0 < b) (w n : Nat) : ∀ d ∈ encode b w n, d < b := by
  induction w generalizing n with
  | zero => simp [encode]
  | succ w ih =>
    intro d hd
    rcases List.mem_append.mp hd with hd | hd
    · exact ih (n / b) d hd
    · obtain rfl := List.mem_singleton.mp hd
      exact Nat.mod_lt n hb

theorem encode_mod (b w n : Nat) : encode b w (n % b ^ w) = encode b w n := by
  induction w generalizing n with
  | zero => rfl
  | succ w ih =>
    rw [encode, encode, Nat.pow_succ, Nat.mod_mul_left_div_self, Nat.mod_mul_left_mod, ih]

theorem decode_encode (hb : 0 < b) {w n : Nat} (h : n < b ^ w) :
    decode b (encode b w n) = n := by
  induction w generalizing n with
  | zero =>
    obtain rfl : n = 0 := by simpa using h
    rfl
  | succ w ih =>
    have hdiv : n / b < b ^ w := by
      rw [Nat.div_lt_iff_lt_mul hb]
      simpa [Nat.pow_succ] using h
    have := ih hdiv
    unfold decode at this ⊢
    rw [encode, List.foldl_append, this, List.foldl_cons, List.foldl_nil, Nat.mul_comm]
    exact Nat.div_add_mod n b

theorem decode_lt (h : ∀ d ∈ digits, d < b) :
    decode b digits < b ^ digits.length := by
  induction digits using List.reverseRecOn with
  | nil => exact Nat.one_pos
  | append_singleton digits d ih =>
    have hd : d < b := h d (by simp)
    have hrest := ih fun x hx => h x (by simp [hx])
    unfold decode at hrest ⊢
    rw [List.foldl_append, List.foldl_cons, List.foldl_nil, List.length_append,
      List.length_singleton, Nat.pow_succ]
    generalize List.foldl (fun n d => n * b + d) 0 digits = n at hrest ⊢
    calc n * b + d < n * b + b := by omega
      _ = (n + 1) * b := by rw [Nat.succ_mul]
      _ ≤ b ^ digits.length * b := Nat.mul_le_mul_right b hrest

theorem encode_decode (h : ∀ d ∈ digits, d < b) :
    encode b digits.length (decode b digits) = digits := by
  induction digits using List.reverseRecOn with
  | nil => rfl
  | append_singleton digits d ih =>
    have hd : d < b := h d (by simp)
    have hrest := ih fun x hx => h x (by simp [hx])
    have hdecode : decode b (digits ++ [d]) = decode b digits * b + d := by simp [decode]
    rw [List.length_append, List.length_singleton, encode, hdecode, Nat.mul_comm,
      Nat.mul_add_div (by omega), Nat.div_eq_of_lt hd, Nat.add_zero, hrest, Nat.mul_add_mod,
      Nat.mod_eq_of_lt hd]

theorem encode_injective (hb : 0 < b) {w m n : Nat} (hm : m < b ^ w) (hn : n < b ^ w)
    (h : encode b w m = encode b w n) : m = n := by
  rw [← decode_encode hb hm, h, decode_encode hb hn]

end Radix
