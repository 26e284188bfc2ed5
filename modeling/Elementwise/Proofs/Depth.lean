import Mathlib
import Elementwise.Program.Depth
import Elementwise.Proofs.Result

/-!
# Stack heights

What it means that instructions pass the depth analysis: every running sum of their deltas is
positive, the last one is one, and the depth is two more than the greatest one (`required_eq_ok`),
which is the `peak`.
-/

namespace Elementwise.Depth

/-- Heights that are run through are positive and at most the top, which is the greatest height so
far or one of them. -/
theorem run_eq_ok {position : Nat} {height peak final top : Int} {deltas : List Int}
    (h : run position height peak deltas = .ok (final, top)) :
    final = height + deltas.sum ∧ peak ≤ top ∧
      (∀ n, 0 < n → n ≤ deltas.length →
        0 < height + (deltas.take n).sum ∧ height + (deltas.take n).sum ≤ top) ∧
      (top = peak ∨ ∃ n, 0 < n ∧ n ≤ deltas.length ∧ top = height + (deltas.take n).sum) := by
  induction deltas generalizing position height peak with
  | nil =>
      rw [run, Except.ok.injEq, Prod.mk.injEq] at h
      obtain ⟨rfl, rfl⟩ := h
      refine ⟨by simp, Int.le_refl _, fun n hpos hle => ?_, .inl rfl⟩
      exact absurd hle (by simpa using Nat.pos_iff_ne_zero.mp hpos)
  | cons delta rest ih =>
      rw [run] at h
      split at h
      · cases h
      · rename_i hpositive
        obtain ⟨hfinal, hpeak, hbetween, htop⟩ := ih h
        refine ⟨?_, by omega, fun n hpos hle => ?_, ?_⟩
        · rw [hfinal, List.sum_cons]
          omega
        · obtain ⟨n, rfl⟩ : ∃ m, n = m + 1 := ⟨n - 1, by omega⟩
          rw [List.take_succ_cons, List.sum_cons]
          rcases Nat.eq_zero_or_pos n with rfl | hn
          · simp only [List.take_zero, List.sum_nil]
            omega
          · have := hbetween n hn (by simpa using hle)
            omega
        · rcases htop with htop | ⟨n, hn, hle, htop⟩
          · rcases Int.le_total peak (height + delta) with hle | hle
            · refine .inr ⟨1, Nat.one_pos, by simp, ?_⟩
              simp only [List.take_succ_cons, List.take_zero, List.sum_cons, List.sum_nil]
              omega
            · exact .inl (by omega)
          · refine .inr ⟨n + 1, Nat.succ_pos n, by simpa using hle, ?_⟩
            rw [List.take_succ_cons, List.sum_cons]
            omega

/-- Deltas that pass the analysis are a run that ends at one, and its top is two below the depth. -/
theorem run_of_required {limit depth : Nat} {deltas : List Int}
    (h : required limit deltas = .ok depth) :
    ∃ top : Int, run 0 0 0 deltas = .ok (1, top) ∧ depth = top.toNat + 2 ∧ depth ≤ limit := by
  unfold required at h
  obtain ⟨⟨height, top⟩, hrun, h⟩ := bind_eq_ok_iff.mp h
  dsimp only at h
  split at h
  · cases h
  · rename_i hone
    rw [ne_eq, Classical.not_not] at hone
    subst hone
    split at h
    · cases h
    · cases h
      exact ⟨top, hrun, rfl, by omega⟩

/-- A run that ends at one passes the analysis if the limit leaves room for two more than its top.
-/
theorem required_of_run {limit : Nat} {deltas : List Int} {top : Int}
    (h : run 0 0 0 deltas = .ok (1, top)) (hlimit : top.toNat + 2 ≤ limit) :
    required limit deltas = .ok (top.toNat + 2) := by
  unfold required
  rw [h, ok_bind]
  simp [Nat.not_lt.mpr hlimit]

/-- **Balance.** Every running sum is positive and two below the depth, one of them is exactly two
below it, and the last is one. -/
theorem required_eq_ok {limit depth : Nat} {deltas : List Int}
    (h : required limit deltas = .ok depth) :
    deltas.sum = 1 ∧
      (∀ n, 0 < n → n ≤ deltas.length →
        0 < (deltas.take n).sum ∧ (deltas.take n).sum + 2 ≤ depth) ∧
      ∃ n, 0 < n ∧ n ≤ deltas.length ∧ (deltas.take n).sum + 2 = depth := by
  obtain ⟨top, hrun, rfl, -⟩ := run_of_required h
  obtain ⟨hsum, hpeak, hbetween, htop⟩ := run_eq_ok hrun
  rw [Int.zero_add] at hsum
  refine ⟨hsum.symm, fun n hpos hle => ?_, ?_⟩
  · have := hbetween n hpos hle
    omega
  · rcases htop with rfl | ⟨n, hpos, hle, htop⟩
    · -- The last height is one, so the top is not where it started.
      have hne : deltas ≠ [] := by
        rintro rfl
        simp at hsum
      have hlength := List.length_pos_iff.mpr hne
      have := hbetween deltas.length hlength (Nat.le_refl _)
      omega
    · refine ⟨n, hpos, hle, ?_⟩
      have := hbetween n hpos hle
      omega

/-! ## The greatest height -/

/-- The heights of the stack after each instruction: the running sums of the deltas. -/
def heights (deltas : List Int) : List Int :=
  (List.range deltas.length).map fun n => (deltas.take (n + 1)).sum

/-- The greatest height. -/
def peak (deltas : List Int) : Int :=
  (heights deltas).max?.getD 0

/-- The heights are the sums of the first changes, of at least one of them. -/
theorem mem_heights {deltas : List Int} {height : Int} :
    height ∈ heights deltas ↔ ∃ n, 0 < n ∧ n ≤ deltas.length ∧ height = (deltas.take n).sum := by
  simp only [heights, List.mem_map, List.mem_range]
  constructor
  · rintro ⟨n, hn, rfl⟩
    exact ⟨n + 1, Nat.succ_pos n, hn, rfl⟩
  · rintro ⟨n, hpos, hle, rfl⟩
    exact ⟨n - 1, by omega, by rw [Nat.sub_add_cancel hpos]⟩

/-- A run that passes reaches its greatest height and no more. -/
theorem peak_of_run {deltas : List Int} {final top : Int}
    (h : run 0 0 0 deltas = .ok (final, top)) : peak deltas = top := by
  obtain ⟨-, hpeak, hbetween, htop⟩ := run_eq_ok h
  simp only [Int.zero_add] at hbetween htop
  have hbound : ∀ height ∈ heights deltas, height ≤ top := by
    intro height hheight
    obtain ⟨n, hpos, hle, rfl⟩ := mem_heights.mp hheight
    exact (hbetween n hpos hle).2
  rcases htop with rfl | ⟨n, hpos, hle, htop⟩
  · -- Heights are positive, so there are none.
    have hnil : heights deltas = [] := by
      rw [List.eq_nil_iff_forall_not_mem]
      intro height hheight
      obtain ⟨n, hpos, hle, rfl⟩ := mem_heights.mp hheight
      have := hbetween n hpos hle
      omega
    rw [peak, hnil]
    rfl
  · have hmax : (heights deltas).max? = some top :=
      List.max?_eq_some_iff.mpr ⟨mem_heights.mpr ⟨n, hpos, hle, htop⟩, hbound⟩
    rw [peak, hmax, Option.getD_some]

end Elementwise.Depth
