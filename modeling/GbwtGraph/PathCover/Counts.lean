import GbwtGraph.PathCover.Walks

/-! # `path_coverage` counts the windows of the paths

Each extension that completes a window of `k` handles increments the key of that window. So for
every key, `path_coverage` holds the number of windows of the paths so far with that key, modulo
`2 ^ 64` since the counters are `size_t`, and exactly while `n |C| < worst_coverage()`.
-/

namespace GbwtGraph

variable {H : Type} [LinearOrder H] {G : HandleGraph H} {S : StdSort (Int × Nat)} {n k : Nat}
  {comp : List Int} {s s' : CoverState H}

variable (G k) in
def windowCount (w : List H) (paths : List (List H)) : Nat :=
  (paths.map fun p => (windowKeys G k p).count w).sum

@[simp] theorem windowCount_nil (w : List H) : windowCount G k w [] = 0 := rfl

@[simp] theorem windowCount_cons (w p : List H) (paths : List (List H)) :
    windowCount G k w (p :: paths) = (windowKeys G k p).count w + windowCount G k w paths := by
  simp [windowCount]

@[simp] theorem windowCount_append (w : List H) (paths paths' : List (List H)) :
    windowCount G k w (paths ++ paths') = windowCount G k w paths + windowCount G k w paths' := by
  simp [windowCount]

theorem windowCount_le (hk : 0 < k) (w : List H) :
    ∀ paths : List (List H), windowCount G k w paths ≤ (paths.map List.length).sum
  | [] => le_refl _
  | p :: paths => by
    have h₁ := windowCount_le hk w paths
    have h₂ := (List.count_le_length w (windowKeys G k p)).trans_eq (length_windowKeys G hk p)
    simp only [windowCount_cons, List.map_cons, List.sum_cons]
    omega

variable (G k) in
/-- `path_coverage` counts the windows of the paths so far, modulo `2 ^ 64`. -/
def CountInv (s : CoverState H) : Prop :=
  ∀ w, s.pathCoverage w = windowCount G k w (s.paths ++ [s.path]) % 2 ^ 64

theorem countInv_init : CountInv G k (CoverState.init comp : CoverState H) := by
  intro w
  simp [CoverState.init, windowCount, windowKeys]

theorem countInv_increase {pc : List H → Nat} {c : List H → Nat} (h : ∀ w, pc w = c w % 2 ^ 64)
    (key w : List H) :
    increasePathCoverage pc key w = (c w + if key = w then 1 else 0) % 2 ^ 64 := by
  unfold increasePathCoverage increaseCoverage
  rw [Function.update_apply]
  split
  · subst_vars; simp [h, Nat.mod_add_mod]
  · simp [h, Ne.symm ‹_›]

theorem countInv_extend {pc c : List H → Nat} (h : ∀ w, pc w = c w % 2 ^ 64) {p q : Prop}
    [Decidable p] [Decidable q] (hpq : p ↔ q) (key w : List H) :
    (if p then increasePathCoverage pc key else pc) w =
      (c w + (if q then [key] else []).count w) % 2 ^ 64 := by
  by_cases hp : p
  · rw [if_pos hp, if_pos (hpq.1 hp), countInv_increase h, List.count_singleton]
    simp only [beq_iff_eq]
  · rw [if_neg hp, if_neg (mt hpq.2 hp), h]
    simp

theorem CountInv.next (hk : 2 ≤ k) (hi : SafeInv G n comp s) (hcnt : CountInv G k s)
    (h : StepCase G S n k s s') : CountInv G k s' := by
  have hk' : 0 < k := by omega
  cases h with
  | @choose front hloc =>
    intro w
    have hkeys : windowKeys G k [G.getHandle front.1 false] = [] :=
      windowKeys_of_length_lt G (by simp; omega)
    have := hcnt w
    rw [hi.path_nil (by rw [hloc]; rfl)] at this
    simpa [hkeys] using this
  | forwardStep =>
    intro w
    simp only [CountInv, windowCount_append, windowCount_cons, windowCount_nil, Nat.add_zero]
      at hcnt ⊢
    rw [windowKeys_append_singleton G hk', List.count_append, ← Nat.add_assoc]
    exact countInv_extend hcnt (by omega) _ w
  | backwardStep =>
    intro w
    simp only [CountInv, windowCount_append, windowCount_cons, windowCount_nil, Nat.add_zero]
      at hcnt ⊢
    rw [windowKeys_cons G hk', List.count_append, Nat.add_comm (List.count w (ite _ _ _)),
      ← Nat.add_assoc]
    exact countInv_extend hcnt (by omega) _ w
  | insert =>
    intro w
    simpa [Nat.add_assoc] using hcnt w
  | _ => exact hcnt

section Runs

variable (hG : G.WellFormed) (hc : ClosedComponent G comp) (hk : pathCoverMinK ≤ k)
include hG hc hk

theorem Reachable.countInv (hs : Reachable G S n k comp s) : CountInv G k s :=
  hs.induction hG hc (lt_of_lt_of_le (by decide) hk) countInv_init
    fun _ hi h hcnt => hcnt.next hk hi h

/-- `path_coverage[w]` counts the windows with key `w` of the paths so far. -/
theorem reachable_pathCoverage (hs : Reachable G S n k comp s) (w : List H) :
    s.pathCoverage w = windowCount G k w (s.paths ++ [s.path]) % 2 ^ 64 ∧
      (n * comp.length < worstCoverage →
        s.pathCoverage w = windowCount G k w (s.paths ++ [s.path])) ∧
      ∀ p : List H, (windowKeys G k p).length = p.length + 1 - k := by
  have hk' : 0 < k := lt_of_lt_of_le (by decide) hk
  refine ⟨hs.countInv hG hc hk w, fun hbound => ?_, length_windowKeys G hk'⟩
  rw [hs.countInv hG hc hk w, Nat.mod_eq_of_lt]
  -- There are no more windows than handles, and at most `n |C|` handles.
  calc windowCount G k w (s.paths ++ [s.path])
      ≤ ((s.paths ++ [s.path]).map List.length).sum := windowCount_le hk' w _
    _ = handleCount s := by simp [handleCount]
    _ ≤ n * comp.length := (hs.safeInv hG hc hk').handleCount_le
    _ < 2 ^ 64 := lt_of_lt_of_le hbound (by decide)

end Runs

theorem reachable_pathCoverage_twoSources :
    twoSourcesGraph.WellFormed ∧ ClosedComponent twoSourcesGraph [1, 3, 2] ∧ pathCoverMinK ≤ 2 ∧
      ∃ s, run twoSourcesGraph insertionStdSort 3 2 9 (CoverState.init [1, 3, 2]) = .ok s ∧
        Reachable twoSourcesGraph insertionStdSort 3 2 [1, 3, 2] s ∧
        (s.pathCoverage [2, 6] =
            windowCount twoSourcesGraph 2 [2, 6] (s.paths ++ [s.path]) % 2 ^ 64 ∧
          (3 * [1, 3, 2].length < worstCoverage →
            s.pathCoverage [2, 6] = windowCount twoSourcesGraph 2 [2, 6] (s.paths ++ [s.path])) ∧
          ∀ p : List Int, (windowKeys twoSourcesGraph 2 p).length = p.length + 1 - 2) := by
  have hc := closedComponent_of_mem twoSourcesGraph_wellFormed (by decide)
    (List.mem_singleton_self [1, 3, 2])
  obtain ⟨s, hs⟩ : ∃ s, run twoSourcesGraph insertionStdSort 3 2 9
      (CoverState.init [1, 3, 2]) = .ok s := ⟨_, rfl⟩
  have hr : Reachable twoSourcesGraph insertionStdSort 3 2 [1, 3, 2] s := Reachable.run .init hs
  exact ⟨twoSourcesGraph_wellFormed, hc, le_refl _, s, hs, hr,
    reachable_pathCoverage twoSourcesGraph_wellFormed hc (le_refl _) hr [2, 6]⟩

end GbwtGraph
