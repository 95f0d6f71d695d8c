import Mathlib.Data.List.Induction
import Mathlib.Tactic.Ring

/-!
# Big-endian numbers

Byte strings as numbers in base 256, most significant byte first. Byte strings of one length are
ordered as their values (`BigEndian.compare_eq_compare_toNat`), and `BigEndian.increment` adds one.
-/

namespace BigEndian

variable (bs : List UInt8)

def toNat : ℕ :=
  bs.foldl (fun n b => n * 256 + b.toNat) 0

/-- The last `w` base-256 digits of `n`. -/
def ofNat : ℕ → ℕ → List UInt8
  | 0, _ => []
  | w + 1, n => ofNat w (n / 256) ++ [UInt8.ofNat n]

@[simp] theorem toNat_nil : toNat [] = 0 := rfl

@[simp] theorem toNat_append_singleton (b : UInt8) :
    toNat (bs ++ [b]) = toNat bs * 256 + b.toNat := by
  simp [toNat]

@[simp] theorem toNat_cons (b : UInt8) (bs : List UInt8) :
    toNat (b :: bs) = b.toNat * 256 ^ bs.length + toNat bs := by
  induction bs using List.reverseRecOn with
  | nil => simp [toNat]
  | append_singleton bs x ih =>
    rw [← List.cons_append, toNat_append_singleton, toNat_append_singleton, ih,
      List.length_append, List.length_singleton]
    ring

theorem toNat_lt : toNat bs < 256 ^ bs.length := by
  induction bs using List.reverseRecOn with
  | nil => simp
  | append_singleton bs x ih =>
    have := x.toNat_lt
    rw [toNat_append_singleton, List.length_append, List.length_singleton, pow_succ]
    omega

@[simp] theorem length_ofNat (w n : ℕ) : (ofNat w n).length = w := by
  induction w generalizing n with
  | zero => rfl
  | succ w ih => simp [ofNat, ih]

theorem toNat_ofNat (w n : ℕ) : toNat (ofNat w n) = n % 256 ^ w := by
  induction w generalizing n with
  | zero => simp [ofNat, Nat.mod_one]
  | succ w ih =>
    rw [ofNat, toNat_append_singleton, ih, pow_succ, Nat.mul_comm (256 ^ w) 256, Nat.mod_mul]
    simp
    ring

theorem toNat_ofNat_of_lt {w n : ℕ} (h : n < 256 ^ w) : toNat (ofNat w n) = n := by
  rw [toNat_ofNat, Nat.mod_eq_of_lt h]

theorem compare_byte (x y : UInt8) : compare x y = compare x.toNat y.toNat := by
  simp only [compare, compareOfLessAndEq, UInt8.lt_iff_toNat_lt, UInt8.toNat_inj]

theorem compare_eq_compare_toNat {xs ys : List UInt8} (hl : xs.length = ys.length) :
    compare xs ys = compare (toNat xs) (toNat ys) := by
  induction xs generalizing ys with
  | nil => cases ys <;> simp_all
  | cons x xs ih =>
    cases ys with
    | nil => simp at hl
    | cons y ys =>
      have hl' : xs.length = ys.length := by simpa using hl
      have hx := toNat_lt xs
      have hy := toNat_lt ys
      rw [hl'] at hx
      rw [List.compare_cons_cons, toNat_cons, toNat_cons, hl', ih hl', compare_byte]
      -- a difference in the first byte outweighs the rest
      rcases Nat.lt_trichotomy x.toNat y.toNat with h | h | h
      · have hm : (x.toNat + 1) * 256 ^ ys.length ≤ y.toNat * 256 ^ ys.length :=
          Nat.mul_le_mul_right _ h
        rw [Nat.compare_eq_lt.mpr h, Ordering.lt_then, eq_comm, Nat.compare_eq_lt]
        rw [Nat.add_mul, Nat.one_mul] at hm
        omega
      · rw [h, Nat.compare_eq_eq.mpr rfl, Ordering.eq_then]
        simp only [compare, compareOfLessAndEq, Nat.add_lt_add_iff_left, Nat.add_left_cancel_iff]
      · have hm : (y.toNat + 1) * 256 ^ ys.length ≤ x.toNat * 256 ^ ys.length :=
          Nat.mul_le_mul_right _ h
        rw [Nat.compare_eq_gt.mpr h, Ordering.gt_then, eq_comm, Nat.compare_eq_gt]
        rw [Nat.add_mul, Nat.one_mul] at hm
        omega

theorem toNat_injective {xs ys : List UInt8} (hl : xs.length = ys.length)
    (h : toNat xs = toNat ys) : xs = ys := by
  have hc : compare xs ys = .eq := by
    rw [compare_eq_compare_toNat hl, h]
    exact Nat.compare_eq_eq.mpr rfl
  exact Std.LawfulEqCmp.eq_of_compare hc

theorem ofNat_toNat : ofNat bs.length (toNat bs) = bs := by
  apply toNat_injective (length_ofNat _ _)
  exact toNat_ofNat_of_lt (toNat_lt bs)

/-! ### Increment -/

/-- Add one; the flag says that every byte wrapped around. -/
def increment : List UInt8 → Bool × List UInt8
  | [] => (true, [])
  | b :: bs =>
    match increment bs with
    | (true, bs') => (b + 1 == 0, (b + 1) :: bs')
    | (false, bs') => (false, b :: bs')

@[simp] theorem length_increment : (increment bs).2.length = bs.length := by
  induction bs with
  | nil => rfl
  | cons b bs ih =>
    rw [increment]
    rcases h : increment bs with ⟨_ | _, bs'⟩ <;> simp_all

theorem toNat_increment :
    (if (increment bs).1 then 256 ^ bs.length else 0) + toNat (increment bs).2 =
      toNat bs + 1 := by
  induction bs with
  | nil => simp [increment]
  | cons b bs ih =>
    have hlen := length_increment bs
    rw [increment]
    rcases h : increment bs with ⟨_ | _, bs'⟩
    · simp_all
      omega
    · simp only [h, if_true] at ih hlen
      have hb : (b + 1).toNat = (b.toNat + 1) % 256 := by simp [UInt8.toNat_add]
      have hlt := b.toNat_lt
      by_cases h255 : b.toNat = 255
      · have h0 : b + 1 = 0 := by
          apply UInt8.toNat_inj.mp
          rw [hb, h255]
          rfl
        simp only [h0, beq_self_eq_true, if_true, toNat_cons, hlen, List.length_cons, pow_succ]
        rw [h255]
        simp
        omega
      · have h1 : (b + 1).toNat = b.toNat + 1 := by omega
        have h0 : b + 1 ≠ 0 := by
          intro h0
          rw [h0] at h1
          simp at h1
        simp only [beq_eq_false_iff_ne.mpr h0, toNat_cons, hlen, h1]
        rw [Nat.add_mul]
        simp
        omega

end BigEndian
