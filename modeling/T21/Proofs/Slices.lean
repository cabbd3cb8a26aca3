import Mathlib.Algebra.Order.Floor.Div
import Mathlib.Data.List.Basic
import T21.Text

/-!
# Slices cover the array

The slices of an array, each with the position it is cut from, make up the array with its positions. None is empty,
and only the last may be shorter than the others.
-/

namespace T21

theorem size_slice_le {α : Type} (n : Nat) (a : Array α) (i : Nat) : (slice n a i).size ≤ n := by
  simp only [slice, Array.size_extract]
  omega

theorem lt_sliceCount_iff {n : Nat} (hn : 0 < n) {i size : Nat} : i < sliceCount n size ↔ i * n < size := by
  have succ : (i + 1) * n = i * n + n := Nat.succ_mul i n
  rw [sliceCount, Nat.lt_iff_add_one_le, Nat.le_div_iff_mul_le hn, succ]
  omega

theorem size_le_sliceCount_mul {n : Nat} (hn : 0 < n) (size : Nat) : size ≤ sliceCount n size * n := by
  by_contra h
  exact Nat.lt_irrefl _ ((lt_sliceCount_iff hn).mpr (Nat.lt_of_not_le h))

theorem sliceCount_eq_ceilDiv (n size : Nat) : sliceCount n size = size ⌈/⌉ n :=
  (Nat.ceilDiv_eq_add_pred_div size n).symm

theorem toList_slice {α : Type} (n : Nat) (a : Array α) (i : Nat) :
    (slice n a i).toList = (a.toList.drop (i * n)).take n := by
  rw [slice, Array.toList_extract, List.extract_eq_take_drop, Nat.add_sub_cancel_left]

theorem zipIdx_slices {α : Type} (n : Nat) (a : Array α) : ∀ k : Nat,
    (List.range k).flatMap (fun i => (slice n a i).toList.zipIdx (i * n)) = (a.toList.take (k * n)).zipIdx
  | 0 => by simp
  | k + 1 => by
    rw [List.range_succ, List.flatMap_append, zipIdx_slices n a k, List.flatMap_singleton, toList_slice,
      Nat.succ_mul, List.take_add, List.zipIdx_append, Nat.zero_add]
    by_cases hk : k * n ≤ a.toList.length
    · rw [List.length_take_of_le hk]
    · rw [List.drop_eq_nil_of_le (by omega)]
      simp

section
variable {α : Type} {n : Nat} (hn : 0 < n) {a : Array α} {i : Nat}
include hn

theorem size_slice_pos (hi : i < sliceCount n a.size) : 0 < (slice n a i).size := by
  have inside := (lt_sliceCount_iff hn).mp hi
  simp only [slice, Array.size_extract]
  omega

theorem size_slice_of_succ_lt (hi : i + 1 < sliceCount n a.size) : (slice n a i).size = n := by
  have inside := (lt_sliceCount_iff hn).mp hi
  rw [Nat.succ_mul] at inside
  simp only [slice, Array.size_extract]
  omega

variable (a)

theorem take_sliceCount_mul : a.toList.take (sliceCount n a.size * n) = a.toList := by
  apply List.take_of_length_le
  exact size_le_sliceCount_mul hn a.size

theorem flatMap_slices : (List.range (sliceCount n a.size)).flatMap (fun i => (slice n a i).toList) = a.toList := by
  have placed := congrArg (List.map Prod.fst) (zipIdx_slices n a (sliceCount n a.size))
  rw [take_sliceCount_mul hn, List.map_flatMap] at placed
  simpa only [List.zipIdx_map_fst] using placed

end

end T21
