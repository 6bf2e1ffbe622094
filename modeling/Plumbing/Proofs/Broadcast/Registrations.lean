import Mathlib.Data.List.Nodup
import Plumbing.Broadcast.Hub

/-!
# Removing a registration in the middle of an offer

`distribute` walks its deque of registrations by position, and a detached reader's registration
is removed by `swapRemoveFront`: the front registration takes its place. The walk stays sound
because the positions before the removed one still hold the registrations visited already, in
another order (`take_swapRemoveFront_perm`), and the positions from it on hold those not visited
yet, in the same order (`drop_swapRemoveFront`). So the deque loses exactly the removed
registration (`swapRemoveFront_perm`).
-/

namespace Plumbing.Broadcast

theorem take_swapRemoveFront_perm {l : List Nat} {i : Nat} (h : i < l.length) :
    ((swapRemoveFront l i).take i).Perm (l.take i) := by
  cases l with
  | nil => simp at h
  | cons f rest =>
    cases i with
    | zero => simp [swapRemoveFront]
    | succ j =>
      have hj : j < rest.length := by simpa using h
      simp only [swapRemoveFront, Nat.add_one_ne_zero, ↓reduceIte, Nat.add_sub_cancel,
        List.take_succ_cons]
      rw [List.set_eq_take_append_cons_drop, if_pos hj, List.take_append,
        List.take_of_length_le (l := rest.take j) (by simp only [List.length_take]; omega)]
      simp only [List.length_take, Nat.min_eq_left (Nat.le_of_lt hj),
        show j + 1 - j = 1 by omega, List.take_succ_cons, List.take_zero]
      -- the front registration now stands last among the visited ones
      exact List.perm_append_singleton f (rest.take j)

theorem drop_swapRemoveFront {l : List Nat} {i : Nat} (h : i < l.length) :
    (swapRemoveFront l i).drop i = l.drop (i + 1) := by
  cases l with
  | nil => simp at h
  | cons f rest =>
    cases i with
    | zero => simp [swapRemoveFront]
    | succ j =>
      have hj : j < rest.length := by simpa using h
      simp only [swapRemoveFront, Nat.add_one_ne_zero, ↓reduceIte, Nat.add_sub_cancel,
        List.drop_succ_cons]
      rw [List.set_eq_take_append_cons_drop, if_pos hj, List.drop_append,
        List.drop_of_length_le (by simp only [List.length_take]; omega)]
      simp only [List.length_take, Nat.min_eq_left (Nat.le_of_lt hj), Nat.add_sub_cancel_left,
        List.nil_append, List.drop_succ_cons, List.drop_zero]

/-- The deque after a removal holds the others, in some order. -/
theorem swapRemoveFront_perm {l : List Nat} {i : Nat} (h : i < l.length) :
    (swapRemoveFront l i).Perm (l.eraseIdx i) := by
  rw [← List.take_append_drop i (swapRemoveFront l i), drop_swapRemoveFront h,
    List.eraseIdx_eq_take_drop_succ]
  exact (take_swapRemoveFront_perm h).append_right _

theorem nodup_swapRemoveFront {l : List Nat} {i : Nat} (hl : l.Nodup) (h : i < l.length) :
    (swapRemoveFront l i).Nodup :=
  ((hl.sublist (List.eraseIdx_sublist l i))).perm (swapRemoveFront_perm h).symm

/-- A registration other than the removed one stays, and stays among the visited ones exactly
when it was. -/
theorem mem_swapRemoveFront {l : List Nat} {i R : Nat} (h : i < l.length)
    (hR : l[i] ≠ R) :
    (R ∈ swapRemoveFront l i ↔ R ∈ l) ∧
      (R ∈ (swapRemoveFront l i).take i ↔ R ∈ l.take i) := by
  refine ⟨?_, (take_swapRemoveFront_perm h).mem_iff⟩
  rw [(swapRemoveFront_perm h).mem_iff, List.mem_eraseIdx_iff_getElem]
  constructor
  · rintro ⟨j, hj, hne, rfl⟩
    exact List.getElem_mem hj
  · intro hmem
    obtain ⟨j, hj, rfl⟩ := List.getElem_of_mem hmem
    refine ⟨j, hj, ?_, rfl⟩
    rintro rfl
    exact hR rfl

theorem mem_take_succ_iff {l : List Nat} {i R : Nat} (h : i < l.length) :
    R ∈ l.take (i + 1) ↔ R ∈ l.take i ∨ l[i] = R := by
  rw [List.take_add_one, List.getElem?_eq_getElem h, Option.toList_some, List.mem_append,
    List.mem_singleton, eq_comm]

theorem getElem_not_mem_take {l : List Nat} (hl : l.Nodup) {i : Nat} (h : i < l.length) :
    l[i] ∉ l.take i := by
  rw [List.mem_take_iff_getElem]
  rintro ⟨j, hj, hji⟩
  have := (hl.getElem_inj_iff).1 hji
  omega

end Plumbing.Broadcast
