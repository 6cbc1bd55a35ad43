import GbwtGraph.PathCover.Termination

/-! # Paths are walks, and each extension takes the first least-covered candidate

No counter exceeds the number of handles placed so far. While `n |C| < worst_coverage()`, every
candidate's coverage is below the start value of `best_coverage`, so the fold of `update_best`
picks the first candidate of least coverage, never the `best` left by the other direction, and
every path is a walk of the graph. No reachable state faults then, so the `while` loop of every
path ends at its insertion. From an arbitrary coverage state it need not: once the candidates of
an extension all score `worst_coverage()`, nothing is assigned to `best` before it is read.
-/

namespace GbwtGraph

variable {H : Type} [LinearOrder H] {G : HandleGraph H} {S : StdSort (Int × Nat)} {n k : Nat}
  {comp : List Int} {s s' : CoverState H}

/-! ## Counters -/

def handleCount (s : CoverState H) : Nat := (s.paths.map List.length).sum + s.path.length

/-- No counter exceeds the number of handles placed so far. -/
structure Bounded (s : CoverState H) : Prop where
  node : ∀ e ∈ s.nodeCoverage, e.2 ≤ handleCount s
  window : ∀ w, s.pathCoverage w ≤ handleCount s

theorem increaseCoverage_le (c : Nat) : increaseCoverage c ≤ c + 1 := Nat.mod_le _ _

theorem exists_of_mem_modify {α : Type} {f : α → α} {l : List α} {j : Nat} {e : α}
    (h : e ∈ l.modify f j) : e ∈ l ∨ ∃ x ∈ l, e = f x := by
  obtain ⟨i, hi, rfl⟩ := List.getElem_of_mem h
  rw [List.getElem_modify]
  split
  · exact .inr ⟨_, List.getElem_mem _, rfl⟩
  · exact .inl (List.getElem_mem _)

theorem exists_of_mem_bumpNode {array : List (Int × Nat)} {id : Int} {e : Int × Nat}
    (h : e ∈ bumpNode array id) : e ∈ array ∨ ∃ x ∈ array, e = increaseCoverageNode x := by
  obtain ⟨x, hx, rfl⟩ := List.mem_map.1 h
  split
  · exact .inr ⟨x, hx, rfl⟩
  · exact .inl hx

theorem increasePathCoverage_le {pc : List H → Nat} {T : Nat} (hT : ∀ w, pc w ≤ T)
    (w₀ w : List H) : increasePathCoverage pc w₀ w ≤ T + 1 := by
  unfold increasePathCoverage
  rw [Function.update_apply]
  split
  · subst_vars; exact le_trans (increaseCoverage_le _) (Nat.succ_le_succ (hT _))
  · exact Nat.le_succ_of_le (hT w)

omit [LinearOrder H] in
theorem Bounded.succ (hb : Bounded s) (hcount : handleCount s' = handleCount s + 1)
    (hnode : ∀ e ∈ s'.nodeCoverage,
      e ∈ s.nodeCoverage ∨ ∃ x ∈ s.nodeCoverage, e = increaseCoverageNode x)
    (hwin : ∀ w, s'.pathCoverage w ≤ handleCount s + 1) : Bounded s' := by
  refine ⟨fun e he => hcount ▸ ?_, fun w => hcount ▸ hwin w⟩
  rcases hnode e he with h | ⟨x, hx, rfl⟩
  · exact Nat.le_succ_of_le (hb.node e h)
  · exact le_trans (increaseCoverage_le _) (Nat.succ_le_succ (hb.node x hx))

omit [LinearOrder H] in
theorem bounded_init : Bounded (CoverState.init comp : CoverState H) :=
  ⟨by simp [CoverState.init, noCoverage], fun _ => Nat.zero_le _⟩

theorem Bounded.next (hi : SafeInv G n comp s) (hb : Bounded s) (h : StepCase G S n k s s') :
    Bounded s' := by
  cases h with
  | choose hloc =>
    have hnil := hi.path_nil (by rw [hloc]; rfl)
    have hperm := S.perm _ s.nodeCoverage strictWeakOrder_givePriorityNode
    refine hb.succ (by simp [handleCount, hnil]) (fun e he => ?_)
      (fun w => Nat.le_succ_of_le (hb.window w))
    exact (exists_of_mem_modify ((S.perm _ _ strictWeakOrder_idLess).subset he)).imp
      (fun h => hperm.subset h) fun ⟨x, hx, h⟩ => ⟨x, hperm.subset hx, h⟩
  | forwardStep | backwardStep =>
    refine hb.succ (by simp [handleCount, Nat.add_assoc]) (fun e he => exists_of_mem_bumpNode he)
      (fun w => ?_)
    split
    · exact increasePathCoverage_le hb.window _ w
    · exact Nat.le_succ_of_le (hb.window w)
  | insert => exact ⟨by simpa [handleCount] using hb.node, by simpa [handleCount] using hb.window⟩
  | _ => exact ⟨hb.node, hb.window⟩

theorem coverageOf_le {array : List (Int × Nat)} {T : Nat} (h : ∀ e ∈ array, e.2 ≤ T)
    (id : Int) : coverageOf array id ≤ T := by
  unfold coverageOf
  cases hf : array.find? (fun e => e.1 = id) with
  | none => exact Nat.zero_le _
  | some e => exact h e (List.mem_of_find?_eq_some hf)

omit [LinearOrder H] in
theorem Bounded.candidateScore_le (hb : Bounded s)
    (window : List H → H → Nat → Option (List H)) (c : H) :
    candidateScore G k window s c ≤ handleCount s := by
  unfold candidateScore
  split
  · exact coverageOf_le hb.node _
  · exact hb.window _

omit [LinearOrder H] in
theorem SafeInv.sum_paths_le (hi : SafeInv G n comp s) :
    (s.paths.map List.length).sum ≤ s.i * comp.length := by
  have := List.sum_le_card_nsmul (s.paths.map List.length) comp.length (by
    simp only [List.mem_map]; rintro _ ⟨p, hp, rfl⟩; exact (hi.paths_mem p hp).2.2)
  simpa [hi.paths_length] using this

omit [LinearOrder H] in
theorem SafeInv.handleCount_lt (hi : SafeInv G n comp s) (hloc : s.loc.extending) :
    handleCount s < (s.i + 1) * comp.length := by
  have := hi.sum_paths_le
  have := hi.path_lt hloc
  unfold handleCount
  rw [Nat.succ_mul]
  omega

omit [LinearOrder H] in
theorem SafeInv.handleCount_le (hi : SafeInv G n comp s) : handleCount s ≤ n * comp.length := by
  have hsum := hi.sum_paths_le
  unfold handleCount
  by_cases hloc : s.loc.inPath
  · have h₁ : (s.i + 1) * comp.length ≤ n * comp.length := Nat.mul_le_mul_right _ (hi.i_lt hloc)
    rw [Nat.succ_mul] at h₁
    have := hi.path_le
    omega
  · have h₁ : s.i * comp.length ≤ n * comp.length := Nat.mul_le_mul_right _ hi.i_le
    rw [hi.path_nil (by simpa using hloc), List.length_nil]
    omega

omit [LinearOrder H] in
theorem bestAfter_of_lt {window : List H → H → Nat → Option (List H)} {candidates : List H}
    (hne : candidates ≠ [])
    (hlt : ∀ c ∈ candidates, candidateScore G k window s c < worstCoverage) :
    ∃ b, IsFirstMinimum (candidateScore G k window s) candidates b ∧
      bestAfter G k window s candidates = some b := by
  obtain ⟨b, hmin, hfold⟩ := foldl_updateBest_of_lt (candidateScore G k window s) s.best hne hlt
  exact ⟨b, hmin, by rw [bestAfter, hfold]⟩

/-! ## Walks -/

structure WalkInv (G : HandleGraph H) (s : CoverState H) : Prop where
  path : G.IsWalk s.path
  paths : ∀ p ∈ s.paths, G.IsWalk p

omit [LinearOrder H] in
theorem walkInv_init : WalkInv G (CoverState.init comp : CoverState H) :=
  ⟨trivial, by simp [CoverState.init]⟩

theorem WalkInv.next (hG : G.WellFormed) (hi : SafeInv G n comp s) (hw : WalkInv G s)
    (hlt : s.loc = .backward → ∀ c, candidateScore G k (backwardWindow G) s c < worstCoverage)
    (h : StepCase G S n k s s') : WalkInv G s' := by
  cases h with
  | choose => exact ⟨trivial, hw.paths⟩
  | forwardStep hloc hback _ hb =>
    have hbm := (bestAfter_mem hb).resolve_right (by rw [hi.best_none hloc]; simp)
    refine ⟨hw.path.append_singleton fun l hl => ?_, hw.paths⟩
    rw [hback] at hl; cases hl; exact hbm
  | backwardStep hloc hfront hne hb =>
    obtain ⟨b', hmin, hb'⟩ := bestAfter_of_lt hne fun c _ => hlt hloc c
    rw [hb'] at hb; cases hb
    refine ⟨hw.path.cons fun f hf => ?_, hw.paths⟩
    rw [hfront] at hf; cases hf
    exact (hG.mem_left_iff _ _).1 hmin.mem
  | insert =>
    exact ⟨trivial, fun p hp => (List.mem_append.1 hp).elim (hw.paths p) fun h => by
      rw [List.mem_singleton.1 h]; exact hw.path⟩
  | _ => exact ⟨hw.path, hw.paths⟩

/-! ## Runs -/

section Runs

variable (hG : G.WellFormed) (hc : ClosedComponent G comp) (hk : 0 < k)
include hG hc hk

theorem Reachable.bounded (hs : Reachable G S n k comp s) : Bounded s :=
  hs.induction hG hc hk bounded_init fun _ hi h hb => hb.next hi h

variable (hbound : n * comp.length < worstCoverage)
include hbound

theorem Reachable.score_lt (hs : Reachable G S n k comp s) (hloc : s.loc.extending)
    (window : List H → H → Nat → Option (List H)) (c : H) :
    candidateScore G k window s c < worstCoverage := by
  have hi := hs.safeInv hG hc hk
  calc candidateScore G k window s c ≤ handleCount s := (hs.bounded hG hc hk).candidateScore_le _ _
    _ < (s.i + 1) * comp.length := hi.handleCount_lt hloc
    _ ≤ n * comp.length := Nat.mul_le_mul_right _ (hi.i_lt (Loc.inPath_of_extending hloc))
    _ < worstCoverage := hbound

theorem Reachable.step_ne_error (hs : Reachable G S n k comp s) (f : Fault) :
    GbwtGraph.step G S n k s ≠ .error f := by
  intro h
  have hi := hs.safeInv hG hc hk
  rcases (step_error (fun hl => hi.ready hl) hk hc (hi.nodeCoverage_ne_nil hc) h).2 with
    ⟨hloc, _, -, hne, hb⟩ | ⟨hloc, _, -, hne, hb⟩ <;>
  · obtain ⟨b, -, hb'⟩ := bestAfter_of_lt hne fun c _ =>
      hs.score_lt hG hc hk hbound (by rw [hloc]; rfl) _ c
    rw [hb] at hb'; cases hb'

theorem Reachable.run_ne_error :
    ∀ (m : Nat) {s : CoverState H}, Reachable G S n k comp s → ∀ f,
      GbwtGraph.run G S n k m s ≠ .error f
  | 0, _, _, _, h => by cases h
  | m + 1, s, hs, f, h => by
    unfold GbwtGraph.run at h
    split at h
    · cases h
    rcases hstep : GbwtGraph.step G S n k s with f' | s₁ <;> rw [hstep] at h
    · exact hs.step_ne_error hG hc hk hbound f' hstep
    · exact Reachable.run_ne_error m (.step hs hstep) f h

/-- With `n |C| < worst_coverage()`, the `while` loop of a reachable path ends, fault-free. -/
theorem extension_loop_terminates (hs : Reachable G S n k comp s) (hloc : s.loc = .test) :
    (∃ m ≤ 3 * (comp.length - s.path.length) + 2, ∃ s',
        GbwtGraph.run G S n k m s = .ok s' ∧ s'.loc = .insert ∧
        s.path.length ≤ s'.path.length ∧ s'.path.length ≤ comp.length ∧
        (s'.path.length < comp.length →
          (∀ b, s'.path.getLast? = some b → G.followEdges b false = []) ∧
            ∀ f, s'.path.head? = some f → G.followEdges f true = [])) ∧
      (∀ m t, GbwtGraph.run G S n k m s = .ok t → t.path.length ≤ comp.length) ∧
      ∀ s₁ s₂ s₃, step G S n k s = .ok s₁ → s₁.loc = .forward → step G S n k s₁ = .ok s₂ →
        s₂.loc = .backward → step G S n k s₂ = .ok s₃ →
        s₃.path.length = s.path.length + (if s₃.forwardSuccess then 1 else 0) +
          (if s₃.backwardSuccess then 1 else 0) := by
  have hi := hs.safeInv hG hc hk
  refine ⟨?_, fun m t h => ((hs.run h).safeInv hG hc hk).path_le,
    fun s₁ s₂ s₃ h₁ hl₁ h₂ hl₂ h₃ => iteration_length hG hc hk hi hloc h₁ hl₁ h₂ hl₂ h₃⟩
  have hL : loopPotential s ≤ 3 * (comp.length - s.path.length) + 2 := by
    rw [← hi.length_nodeCoverage]; simp only [loopPotential, hloc]; split <;> omega
  obtain ⟨m, hm, hr | ⟨s', h₁, h₂, h₃, hi', he'⟩⟩ :=
    run_loop_exits hG hc hk _ s rfl hi (hs.endsInv hG hc hk) (by rw [hloc]; rfl)
  · exact absurd hr (hs.run_ne_error hG hc hk hbound m _)
  · exact ⟨m, le_trans hm hL, s', h₁, h₂, h₃, hi'.path_le,
      fun hlt => he'.insert_end h₂ (hi'.length_nodeCoverage ▸ hlt)⟩

theorem Reachable.walkInv (hs : Reachable G S n k comp s) : WalkInv G s := by
  induction hs with
  | init => exact walkInv_init
  | step hs' h ih =>
    have hi := hs'.safeInv hG hc hk
    exact ih.next hG hi (fun hloc => hs'.score_lt hG hc hk hbound (by rw [hloc]; rfl) _)
      (hi.stepCase hc hk h)

theorem coverComponent_ok :
    ∃ paths, coverComponent G S n k comp = .ok paths ∧ paths.length = n ∧
      ∀ p ∈ paths, p ≠ [] ∧ G.IsWalk p ∧ ∀ h ∈ p, G.getId h ∈ comp := by
  unfold coverComponent
  rcases run_of_potential_le (S := S) hG hc hk _ _ .init (le_of_eq potential_init) with
    ⟨-, t, ht, herr⟩ | ⟨s, h, hs, hd⟩
  · exact absurd herr (ht.step_ne_error hG hc hk hbound _)
  · have hi := hs.safeInv hG hc hk
    have hwk := hs.walkInv hG hc hk hbound
    exact ⟨s.paths, by rw [h]; rfl, hi.paths_length.trans (hi.i_done hd), fun p hp =>
      ⟨(hi.paths_mem p hp).1, hwk.paths p hp, (hi.paths_mem p hp).2.1⟩⟩

end Runs

theorem extension_loop_terminates_twoSources :
    twoSourcesGraph.WellFormed ∧ ClosedComponent twoSourcesGraph [1, 3, 2] ∧ 0 < 2 ∧
      3 * [1, 3, 2].length < worstCoverage ∧
      ∃ s, run twoSourcesGraph insertionStdSort 3 2 1 (CoverState.init [1, 3, 2]) = .ok s ∧
        Reachable twoSourcesGraph insertionStdSort 3 2 [1, 3, 2] s ∧ s.loc = .test ∧
        ∃ m ≤ 3 * ([1, 3, 2].length - s.path.length) + 2, ∃ s',
          run twoSourcesGraph insertionStdSort 3 2 m s = .ok s' ∧ s'.loc = .insert ∧
          s.path.length ≤ s'.path.length ∧ s'.path.length ≤ [1, 3, 2].length ∧
          (s'.path.length < [1, 3, 2].length →
            (∀ b, s'.path.getLast? = some b → twoSourcesGraph.followEdges b false = []) ∧
              ∀ f, s'.path.head? = some f → twoSourcesGraph.followEdges f true = []) := by
  have hc := closedComponent_of_mem twoSourcesGraph_wellFormed (by decide)
    (List.mem_singleton_self [1, 3, 2])
  obtain ⟨s, hs, hloc⟩ : ∃ s, run twoSourcesGraph insertionStdSort 3 2 1
      (CoverState.init [1, 3, 2]) = .ok s ∧ s.loc = .test := ⟨_, rfl, rfl⟩
  have hr : Reachable twoSourcesGraph insertionStdSort 3 2 [1, 3, 2] s := Reachable.run .init hs
  exact ⟨twoSourcesGraph_wellFormed, hc, by decide, by decide, s, hs, hr, hloc,
    (extension_loop_terminates twoSourcesGraph_wellFormed hc (by decide) (by decide) hr hloc).1⟩

omit [LinearOrder H] in
theorem SafeInv.setPathCoverage (hi : SafeInv G n comp s) (pc : List H → Nat) :
    SafeInv G n comp { s with pathCoverage := pc } := { hi with }

omit [LinearOrder H] in
theorem EndsInv.setPathCoverage (he : EndsInv G s) (pc : List H → Nat) :
    EndsInv G { s with pathCoverage := pc } := { he with }

/-- With every window at `worst_coverage()`, extending `[1+]` reads an unassigned `best`. -/
theorem extension_loop_saturated :
    ∃ s : CoverState Int, SafeInv twoSourcesGraph 3 [1, 3, 2] s ∧ EndsInv twoSourcesGraph s ∧
      s.loc = .test ∧ s.path = [twoSourcesGraph.getHandle 1 false] ∧
      (∀ w, s.pathCoverage w = worstCoverage) ∧
      ∀ m s', run twoSourcesGraph insertionStdSort 3 2 m s = .ok s' → s'.loc ≠ .insert := by
  have hc := closedComponent_of_mem twoSourcesGraph_wellFormed (by decide)
    (List.mem_singleton_self [1, 3, 2])
  have h₁ : run twoSourcesGraph insertionStdSort 3 2 1 (CoverState.init [1, 3, 2]) =
      .ok ⟨[(1, 0), (2, 1), (3, 0)], fun _ => 0, 0, [twoSourcesGraph.getHandle 1 false], true,
        true, none, [], .test⟩ := rfl
  have hr := Reachable.run .init h₁
  refine ⟨_, (hr.safeInv twoSourcesGraph_wellFormed hc (by decide)).setPathCoverage
      fun _ => worstCoverage,
    (hr.endsInv twoSourcesGraph_wellFormed hc (by decide)).setPathCoverage fun _ => worstCoverage,
    rfl, rfl, fun _ => rfl, ?_⟩
  rintro (_ | _ | m) s' h
  · cases h; decide
  · cases h; decide
  · change Except.error _ = _ at h
    cases h

/-! ## The paths of a component -/

/-- With `n |C| < worst_coverage()`, a component gets `n` paths, each a nonempty walk in it. -/
theorem coverComponent_walks (hG : G.WellFormed) {components : List (List Int)}
    (hw : weaklyConnectedComponents G = some components) (hcomp : comp ∈ components)
    (hk : pathCoverMinK ≤ k) (hbound : n * comp.length < worstCoverage) :
    ∃ paths, coverComponent G S n k comp = .ok paths ∧ paths.length = n ∧
      ∀ p ∈ paths, p ≠ [] ∧ G.IsWalk p ∧ ∀ h ∈ p, G.getId h ∈ comp :=
  coverComponent_ok hG (closedComponent_of_mem hG hw hcomp) (lt_of_lt_of_le (by decide) hk) hbound

theorem coverComponent_walks_twoSources :
    twoSourcesGraph.WellFormed ∧ weaklyConnectedComponents twoSourcesGraph = some [[1, 3, 2]] ∧
      pathCoverMinK ≤ 2 ∧ 3 * [1, 3, 2].length < worstCoverage ∧
      ∃ paths, coverComponent twoSourcesGraph insertionStdSort 3 2 [1, 3, 2] = .ok paths ∧
        paths.length = 3 ∧ ∀ p ∈ paths, p ≠ [] ∧ twoSourcesGraph.IsWalk p ∧
          ∀ h ∈ p, twoSourcesGraph.getId h ∈ [1, 3, 2] :=
  ⟨twoSourcesGraph_wellFormed, by decide, le_refl _, by decide,
    coverComponent_walks twoSourcesGraph_wellFormed (by decide) (List.mem_singleton_self _)
      (le_refl _) (by decide)⟩

/-- Each extension of a reachable state adds the first candidate of least coverage. -/
theorem extension_takes_first_minimum (hG : G.WellFormed) {components : List (List Int)}
    (hw : weaklyConnectedComponents G = some components) (hcomp : comp ∈ components)
    (hk : pathCoverMinK ≤ k) (hbound : n * comp.length < worstCoverage)
    (hs : Reachable G S n k comp s) :
    (s.loc = .forward → ∀ back, s.path.getLast? = some back → G.followEdges back false ≠ [] →
      ∃ b, IsFirstMinimum (candidateScore G k (forwardWindow G) s) (G.followEdges back false) b ∧
        ∃ s', step G S n k s = .ok s' ∧ s'.path = s.path ++ [b]) ∧
    (s.loc = .backward → ∀ front, s.path.head? = some front → G.followEdges front true ≠ [] →
      ∃ b, IsFirstMinimum (candidateScore G k (backwardWindow G) s) (G.followEdges front true) b ∧
        ∃ s', step G S n k s = .ok s' ∧ s'.path = b :: s.path) := by
  have hc := closedComponent_of_mem hG hw hcomp
  have hk' : 0 < k := lt_of_lt_of_le (by decide) hk
  have hi := hs.safeInv hG hc hk'
  refine ⟨fun hloc back hback hne => ?_, fun hloc front hfront hne => ?_⟩
  · obtain ⟨b, hmin, hb⟩ := bestAfter_of_lt hne fun c _ =>
      hs.score_lt hG hc hk' hbound (by rw [hloc]; rfl) _ c
    have h := extendForward_eq (hi.ready (by rw [hloc]; rfl)) hk' hc hback
    rw [if_neg hne, hb] at h
    exact ⟨b, hmin, _, by simp only [step, hloc]; exact h, rfl⟩
  · obtain ⟨b, hmin, hb⟩ := bestAfter_of_lt hne fun c _ =>
      hs.score_lt hG hc hk' hbound (by rw [hloc]; rfl) _ c
    have h := extendBackward_eq (hi.ready (by rw [hloc]; rfl)) hk' hc hfront
    rw [if_neg hne, hb] at h
    exact ⟨b, hmin, _, by simp only [step, hloc]; exact h, rfl⟩

theorem extension_takes_first_minimum_twoSources :
    twoSourcesGraph.WellFormed ∧ weaklyConnectedComponents twoSourcesGraph = some [[1, 3, 2]] ∧
      pathCoverMinK ≤ 2 ∧ 3 * [1, 3, 2].length < worstCoverage ∧
      ∃ s, run twoSourcesGraph insertionStdSort 3 2 2 (CoverState.init [1, 3, 2]) = .ok s ∧
        s.loc = .forward ∧ s.path.getLast? = some (twoSourcesGraph.getHandle 1 false) ∧
        twoSourcesGraph.followEdges (twoSourcesGraph.getHandle 1 false) false ≠ [] ∧
        ∃ b, IsFirstMinimum (candidateScore twoSourcesGraph 2 (forwardWindow twoSourcesGraph) s)
          (twoSourcesGraph.followEdges (twoSourcesGraph.getHandle 1 false) false) b ∧
          ∃ s', step twoSourcesGraph insertionStdSort 3 2 s = .ok s' ∧ s'.path = s.path ++ [b] := by
  obtain ⟨s, hs, hloc, hback⟩ : ∃ s, run twoSourcesGraph insertionStdSort 3 2 2
      (CoverState.init [1, 3, 2]) = .ok s ∧ s.loc = .forward ∧
      s.path.getLast? = some (twoSourcesGraph.getHandle 1 false) := ⟨_, rfl, rfl, rfl⟩
  have hne : twoSourcesGraph.followEdges (twoSourcesGraph.getHandle 1 false) false ≠ [] := by
    decide
  exact ⟨twoSourcesGraph_wellFormed, by decide, le_refl _, by decide, s, hs, hloc, hback, hne,
    (extension_takes_first_minimum twoSourcesGraph_wellFormed (by decide)
      (List.mem_singleton_self _) (le_refl _) (by decide) (Reachable.run .init hs)).1 hloc _
      hback hne⟩

end GbwtGraph
