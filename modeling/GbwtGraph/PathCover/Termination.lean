import GbwtGraph.PathCover.Safety

/-! # The loop over the paths ends, and so does each `while` loop

Each step lowers `potential`: a `while` iteration that goes on grows the path, which has fewer
handles than the component has nodes, and each path takes at most `3 |C| + 1` steps. So the fuel
of `coverComponent` is enough to reach `done`, and each `while` loop reaches the insertion of its
path, unless a run reads an unassigned `best` on the way.
-/

namespace GbwtGraph

variable {H : Type} [LinearOrder H] {G : HandleGraph H} {S : StdSort (Int × Nat)} {n k : Nat}
  {comp : List Int} {s s' : CoverState H}

/-! ## The potential -/

/-- Steps left in the `while` loop of the current path and its insertion. -/
def loopPotential (s : CoverState H) : Nat :=
  let d := s.nodeCoverage.length - s.path.length
  match s.loc with
  | .test =>
    if (s.forwardSuccess || s.backwardSuccess) && s.path.length < s.nodeCoverage.length then
      3 * d + 2
    else 2
  | .forward => 3 * d + 1
  | .backward => 3 * d + if s.forwardSuccess then 3 else 0
  | .insert => 1
  | .seed | .done => 0

/-- Steps left in the run: `3 |C| + 1` for each path still to make, and one to stop. -/
def potential (n : Nat) (s : CoverState H) : Nat :=
  match s.loc with
  | .seed => (n - s.i) * (3 * s.nodeCoverage.length + 1) + 1
  | .done => 0
  | _ => (n - s.i - 1) * (3 * s.nodeCoverage.length + 1) + 1 + loopPotential s

omit [LinearOrder H] in
theorem potential_init : potential n (CoverState.init comp : CoverState H) =
    n * (3 * comp.length + 1) + 1 := by
  simp [potential, CoverState.init]

def Loc.inLoop : Loc → Bool
  | .test | .forward | .backward => true
  | .seed | .insert | .done => false

theorem StepCase.length_nodeCoverage (h : StepCase G S n k s s') :
    s'.nodeCoverage.length = s.nodeCoverage.length := by
  cases h <;> simp [(S.perm _ _ strictWeakOrder_idLess).length_eq,
    (S.perm _ _ strictWeakOrder_givePriorityNode).length_eq]

theorem StepCase.loopPotential_lt (hi : SafeInv G n comp s) (h : StepCase G S n k s s')
    (hloop : s.loc.inLoop) :
    s.path.length ≤ s'.path.length ∧ s.i = s'.i ∧ (s'.loc = .insert ∨ s'.loc.inLoop) ∧
      loopPotential s' < loopPotential s := by
  have hC := hi.length_nodeCoverage
  cases h with
  | choose hloc | finish hloc | insert hloc | done hloc => simp [hloc, Loc.inLoop] at hloop
  | extend hloc hguard => simp_all [loopPotential, Loc.inLoop]
  | stop hloc hguard => simp_all [loopPotential, Loc.inLoop]
  | forwardEnd hloc =>
    have := hi.path_lt (by rw [hloc]; rfl)
    simp [loopPotential, hloc, Loc.inLoop]
  | forwardStep hloc =>
    have := hi.path_lt (by rw [hloc]; rfl)
    simp only [loopPotential, hloc, List.length_append, List.length_singleton, length_bumpNode]
    split <;> simp [Loc.inLoop] <;> omega
  | backwardEnd hloc =>
    have : s.path.length < s.nodeCoverage.length := hC ▸ hi.path_lt (by rw [hloc]; rfl)
    simp only [loopPotential, hloc, Bool.or_false]
    cases hfs : s.forwardSuccess
    · simp [Loc.inLoop, this]; omega
    · simp [Loc.inLoop, this]
  | backwardStep hloc =>
    have := hi.path_lt (by rw [hloc]; rfl)
    simp only [loopPotential, hloc, List.length_cons, length_bumpNode, Bool.or_true, Bool.true_and]
    split <;> simp [Loc.inLoop] <;> omega

omit [LinearOrder H] in
theorem SafeInv.loopPotential_pos (hi : SafeInv G n comp s) (hloop : s.loc.inLoop) :
    0 < loopPotential s := by
  have hC := hi.length_nodeCoverage
  unfold loopPotential
  cases hloc : s.loc <;> simp only [hloc, Loc.inLoop, Bool.false_eq_true] at hloop ⊢
  · split <;> omega
  · omega
  · have := hi.path_lt (by rw [hloc]; rfl)
    split <;> omega

theorem StepCase.potential_lt (hi : SafeInv G n comp s) (hc : ClosedComponent G comp)
    (h : StepCase G S n k s s') (hne : s.loc ≠ .done) : potential n s' < potential n s := by
  have hC := hi.length_nodeCoverage
  have hC' := h.length_nodeCoverage
  have hpos := List.length_pos.2 hc.ne_nil
  by_cases hloop : s.loc.inLoop
  · -- Inside the loop only `loopPotential` changes.
    obtain ⟨-, hi', hloc', hlt⟩ := h.loopPotential_lt hi hloop
    have hs : potential n s = (n - s.i - 1) * (3 * s.nodeCoverage.length + 1) + 1 +
        loopPotential s := by
      unfold potential; split <;> simp_all [Loc.inLoop]
    have hs' : potential n s' = (n - s.i - 1) * (3 * s.nodeCoverage.length + 1) + 1 +
        loopPotential s' := by
      unfold potential; rw [← hi', hC']; split <;> simp_all [Loc.inLoop]
    omega
  cases h with
  | @choose front hloc hlt =>
    -- A new path costs at most `3 |C| - 1` steps of the loop and one of the insertion.
    have hmul : (n - s.i) * (3 * s.nodeCoverage.length + 1) =
        (n - s.i - 1) * (3 * s.nodeCoverage.length + 1) + (3 * s.nodeCoverage.length + 1) := by
      rw [← Nat.succ_mul]; congr 1; omega
    simp only [potential, loopPotential, hloc, List.length_singleton, hC'] at hmul ⊢
    split <;> omega
  | finish hloc => simp [potential, hloc]
  | insert hloc => simp [potential, loopPotential, hloc, Nat.sub_sub]
  | done hloc => exact absurd hloc hne
  | _ => simp_all [Loc.inLoop]

/-! ## Runs -/

section Runs

variable (hG : G.WellFormed) (hc : ClosedComponent G comp) (hk : 0 < k)
include hG hc hk

theorem run_of_potential_le :
    ∀ (fuel : Nat) (s : CoverState H), Reachable G S n k comp s → potential n s ≤ fuel →
      (run G S n k fuel s = .error .unassignedBest ∧
        ∃ t, Reachable G S n k comp t ∧ step G S n k t = .error .unassignedBest) ∨
        ∃ s', run G S n k fuel s = .ok s' ∧ Reachable G S n k comp s' ∧ s'.loc = .done
  | 0, s, hs, hp => by
    right; refine ⟨s, rfl, hs, ?_⟩
    unfold potential at hp; split at hp <;> first | assumption | omega
  | fuel + 1, s, hs, hp => by
    have hi := hs.safeInv hG hc hk
    unfold run
    split
    · exact .inr ⟨s, rfl, hs, ‹_›⟩
    rcases hstep : step G S n k s with f | s₁
    · obtain rfl := hi.step_error hc hk hstep
      exact .inl ⟨rfl, s, hs, hstep⟩
    · have h := hi.stepCase hc hk hstep
      exact run_of_potential_le fuel s₁ (.step hs hstep)
        (by have := h.potential_lt hi hc ‹_›; omega)

/-- The cover of a component ends at `done` with `n` paths, or a reachable state faults. -/
theorem coverComponent_eq :
    (coverComponent G S n k comp = .error .unassignedBest ∧
      ∃ t, Reachable G S n k comp t ∧ step G S n k t = .error .unassignedBest) ∨
      ∃ s, Reachable G S n k comp s ∧ s.loc = .done ∧ s.paths.length = n ∧
        coverComponent G S n k comp = .ok s.paths := by
  unfold coverComponent
  rcases run_of_potential_le hG hc hk _ _ .init (le_of_eq potential_init) with
    ⟨h, ht⟩ | ⟨s, h, hs, hd⟩
  · left; rw [h]; exact ⟨rfl, ht⟩
  · have hi := hs.safeInv hG hc hk
    right; exact ⟨s, hs, hd, hi.paths_length.trans (hi.i_done hd), by rw [h]; rfl⟩

end Runs

theorem coverComponent_eq_twoSources :
    twoSourcesGraph.WellFormed ∧ ClosedComponent twoSourcesGraph [1, 3, 2] ∧ 0 < 2 ∧
      ((coverComponent twoSourcesGraph insertionStdSort 3 2 [1, 3, 2] = .error .unassignedBest ∧
        ∃ t, Reachable twoSourcesGraph insertionStdSort 3 2 [1, 3, 2] t ∧
          step twoSourcesGraph insertionStdSort 3 2 t = .error .unassignedBest) ∨
      ∃ s, Reachable twoSourcesGraph insertionStdSort 3 2 [1, 3, 2] s ∧ s.loc = .done ∧
        s.paths.length = 3 ∧
        coverComponent twoSourcesGraph insertionStdSort 3 2 [1, 3, 2] = .ok s.paths) :=
  have hc := closedComponent_of_mem twoSourcesGraph_wellFormed (by decide)
    (List.mem_singleton_self [1, 3, 2])
  ⟨twoSourcesGraph_wellFormed, hc, by decide,
    coverComponent_eq twoSourcesGraph_wellFormed hc (by decide)⟩

/-! ## The `while` loop -/

/-- A failed extension leaves its end with no neighbour on that side. -/
structure EndsInv (G : HandleGraph H) (s : CoverState H) : Prop where
  forward_end : s.loc = .test ∨ s.loc = .backward → s.forwardSuccess = false →
    ∀ b, s.path.getLast? = some b → G.followEdges b false = []
  backward_end : s.loc = .test ∨ s.loc = .forward → s.backwardSuccess = false →
    ∀ f, s.path.head? = some f → G.followEdges f true = []
  insert_end : s.loc = .insert → s.path.length < s.nodeCoverage.length →
    (∀ b, s.path.getLast? = some b → G.followEdges b false = []) ∧
      ∀ f, s.path.head? = some f → G.followEdges f true = []

omit [LinearOrder H] in
theorem endsInv_init : EndsInv G (CoverState.init comp : CoverState H) :=
  ⟨by simp [CoverState.init], by simp [CoverState.init], by simp [CoverState.init]⟩

theorem EndsInv.next (hi : SafeInv G n comp s) (he : EndsInv G s) (h : StepCase G S n k s s') :
    EndsInv G s' := by
  cases h with
  | choose | finish | insert => exact ⟨by simp, by simp, by simp⟩
  | extend hloc => exact ⟨by simp, fun _ => he.backward_end (.inl hloc), by simp⟩
  | stop hloc hguard =>
    refine ⟨by simp, by simp, fun _ hlt => ?_⟩
    have hfs : s.forwardSuccess = false ∧ s.backwardSuccess = false := by
      simpa [hlt] using hguard
    exact ⟨he.forward_end (.inl hloc) hfs.1, he.backward_end (.inl hloc) hfs.2⟩
  | forwardEnd hloc hback hnil =>
    refine ⟨fun _ _ b hb => ?_, by simp, by simp⟩
    rw [hback] at hb; cases hb; exact hnil
  | forwardStep =>
    refine ⟨by simp, fun h => by dsimp only at h; split at h <;> simp at h, fun h hlt => ?_⟩
    dsimp only at h hlt
    split at h
    · simp at hlt; omega
    · cases h
  | backwardEnd hloc hfront hnil =>
    refine ⟨fun _ => he.forward_end (.inr hloc), fun _ _ f hf => ?_, by simp⟩
    rw [hfront] at hf; cases hf; exact hnil
  | backwardStep hloc =>
    refine ⟨fun _ hfs b hb => he.forward_end (.inr hloc) hfs b ?_, by simp, by simp⟩
    obtain ⟨x, rest, hp⟩ := List.exists_cons_of_ne_nil (hi.path_ne_nil (by rw [hloc]; rfl))
    simpa [hp] using hb
  | done => exact he

theorem StepCase.test_path (h : StepCase G S n k s s') (hloc : s.loc = .test) :
    s'.path = s.path := by
  cases h <;> simp_all

theorem StepCase.forward_length (h : StepCase G S n k s s') (hloc : s.loc = .forward) :
    s'.path.length = s.path.length + if s'.forwardSuccess then 1 else 0 := by
  cases h <;> simp_all

theorem StepCase.backward_length (h : StepCase G S n k s s') (hloc : s.loc = .backward) :
    s'.path.length = s.path.length + (if s'.backwardSuccess then 1 else 0) ∧
      s'.forwardSuccess = s.forwardSuccess := by
  cases h <;> simp_all

section Loop

variable (hG : G.WellFormed) (hc : ClosedComponent G comp) (hk : 0 < k)
include hG hc hk

theorem Reachable.endsInv (hs : Reachable G S n k comp s) : EndsInv G s :=
  hs.induction hG hc hk endsInv_init fun _ hi h he => he.next hi h

theorem run_loop_exits : ∀ (m : Nat) (s : CoverState H), loopPotential s = m →
    SafeInv G n comp s → EndsInv G s → s.loc.inLoop →
    ∃ m' ≤ m, run G S n k m' s = .error .unassignedBest ∨
      ∃ s', run G S n k m' s = .ok s' ∧ s'.loc = .insert ∧ s.path.length ≤ s'.path.length ∧
        SafeInv G n comp s' ∧ EndsInv G s' := by
  intro m
  induction m using Nat.strong_induction_on with
  | _ m ih =>
  intro s hm hi he hloop
  have hne : s.loc ≠ .done := fun h => by simp [h, Loc.inLoop] at hloop
  rcases hstep : step G S n k s with f | s₁
  · refine ⟨1, hm ▸ hi.loopPotential_pos hloop, .inl ?_⟩
    rw [hi.step_error hc hk hstep] at hstep
    simp [run, hne, hstep]
  have h := hi.stepCase hc hk hstep
  obtain ⟨hlen, -, hloc₁ | hloop₁, hlt⟩ := h.loopPotential_lt hi hloop
  · refine ⟨1, by omega, .inr ⟨s₁, by simp [run, hne, hstep, hloc₁], hloc₁, hlen,
      hi.next hG hc h, he.next hi h⟩⟩
  · obtain ⟨m', hm', hr⟩ := ih _ (hm ▸ hlt) s₁ rfl (hi.next hG hc h) (he.next hi h) hloop₁
    have hrun : run G S n k (m' + 1) s = run G S n k m' s₁ := by simp [run, hne, hstep]; rfl
    refine ⟨m' + 1, by omega, ?_⟩
    rw [hrun]
    exact hr.imp_right fun ⟨s', h₁, h₂, h₃, h₄⟩ => ⟨s', h₁, h₂, le_trans hlen h₃, h₄⟩

theorem iteration_length (hi : SafeInv G n comp s) (hloc : s.loc = .test) {s₁ s₂ s₃ : CoverState H}
    (h₁ : step G S n k s = .ok s₁) (hloc₁ : s₁.loc = .forward) (h₂ : step G S n k s₁ = .ok s₂)
    (hloc₂ : s₂.loc = .backward) (h₃ : step G S n k s₂ = .ok s₃) :
    s₃.path.length = s.path.length + (if s₃.forwardSuccess then 1 else 0) +
      (if s₃.backwardSuccess then 1 else 0) := by
  have c₁ := hi.stepCase hc hk h₁
  have hi₁ := hi.next hG hc c₁
  have c₂ := hi₁.stepCase hc hk h₂
  obtain ⟨e₃, f₃⟩ := ((hi₁.next hG hc c₂).stepCase hc hk h₃).backward_length hloc₂
  rw [e₃, c₂.forward_length hloc₁, c₁.test_path hloc, f₃]

end Loop

end GbwtGraph
