import GbwtGraph.PathCover.Walks

/-! # The seed of each path

Each path starts from the front of the nodes sorted by coverage, which has the least coverage.
Equal coverages keep the order `std::sort` leaves them in, which for the first path is the order
of the search; and the coverage that grows at the seed is that of the back of the sorted nodes,
not the seed's.
-/

namespace GbwtGraph

variable {H : Type} [LinearOrder H] {G : HandleGraph H} {S : StdSort (Int × Nat)} {n k : Nat}
  {comp : List Int} {s : CoverState H}

theorem sort_givePriorityNode_eq_cons {l : List (Int × Nat)} {front : Int × Nat}
    (h : (S.sort givePriorityNode l).head? = some front) :
    ∃ t, S.sort givePriorityNode l = front :: t ∧ front ∈ l ∧ ∀ e ∈ l, front.2 ≤ e.2 := by
  have hperm := S.perm givePriorityNode l strictWeakOrder_givePriorityNode
  have hsorted := S.sorted givePriorityNode l strictWeakOrder_givePriorityNode
  obtain ⟨x, t, ht⟩ := List.exists_cons_of_ne_nil (l := S.sort givePriorityNode l)
    (fun hn => by simp [hn] at h)
  rw [ht, List.head?_cons, Option.some_inj] at h
  subst h
  rw [ht] at hperm hsorted
  refine ⟨t, ht, hperm.subset (List.mem_cons_self _ _), fun e he => ?_⟩
  rcases List.mem_cons.1 (hperm.symm.subset he) with rfl | he'
  · exact le_refl _
  · simpa [givePriorityNode, givePriority] using (List.sorted_cons.1 hsorted).1 e he'

theorem step_seed (hloc : s.loc = .seed) (hlt : s.i < n) {front : Int × Nat}
    (hfront : (S.sort givePriorityNode s.nodeCoverage).head? = some front) :
    step G S n k s = .ok { s with
      nodeCoverage := S.sort idLess ((S.sort givePriorityNode s.nodeCoverage).modify
        increaseCoverageNode ((S.sort givePriorityNode s.nodeCoverage).length - 1))
      path := [G.getHandle front.1 false]
      forwardSuccess := true
      backwardSuccess := true
      loc := .test } := by
  simp only [step, hloc, if_pos hlt, choosePath, hfront]
  rfl

/-- The seed of each path is a node of the component with the least coverage. -/
theorem seed_has_least_coverage (hG : G.WellFormed) {components : List (List Int)}
    (hw : weaklyConnectedComponents G = some components) (hcomp : comp ∈ components)
    (hk : pathCoverMinK ≤ k) (hs : Reachable G S n k comp s) (hloc : s.loc = .seed)
    (hlt : s.i < n) :
    ∃ front ∈ s.nodeCoverage, front.1 ∈ comp ∧ (∀ e ∈ s.nodeCoverage, front.2 ≤ e.2) ∧
      ∃ s', step G S n k s = .ok s' ∧ s'.path = [G.getHandle front.1 false] := by
  have hc := closedComponent_of_mem hG hw hcomp
  have hi := hs.safeInv hG hc (lt_of_lt_of_le (by decide) hk)
  obtain ⟨front, hfront⟩ := exists_head?_sort (S := S) (hi.nodeCoverage_ne_nil hc)
  obtain ⟨-, -, hmem, hle⟩ := sort_givePriorityNode_eq_cons hfront
  exact ⟨front, hmem, hi.ids.subset (List.mem_map_of_mem _ hmem), hle, _,
    step_seed hloc hlt hfront, rfl⟩

theorem seed_has_least_coverage_twoSources :
    twoSourcesGraph.WellFormed ∧ weaklyConnectedComponents twoSourcesGraph = some [[1, 3, 2]] ∧
      pathCoverMinK ≤ 2 ∧
      ∃ s, run twoSourcesGraph insertionStdSort 3 2 9 (CoverState.init [1, 3, 2]) = .ok s ∧
        s.loc = .seed ∧ s.i < 3 ∧ s.nodeCoverage = [(1, 0), (2, 1), (3, 1)] ∧
        ∃ front ∈ s.nodeCoverage, front.1 ∈ [1, 3, 2] ∧ (∀ e ∈ s.nodeCoverage, front.2 ≤ e.2) ∧
          ∃ s', step twoSourcesGraph insertionStdSort 3 2 s = .ok s' ∧
            s'.path = [twoSourcesGraph.getHandle front.1 false] := by
  obtain ⟨s, hs, hloc, hi, hcov⟩ : ∃ s, run twoSourcesGraph insertionStdSort 3 2 9
      (CoverState.init [1, 3, 2]) = .ok s ∧ s.loc = .seed ∧ s.i < 3 ∧
      s.nodeCoverage = [(1, 0), (2, 1), (3, 1)] := ⟨_, rfl, rfl, by decide, rfl⟩
  exact ⟨twoSourcesGraph_wellFormed, by decide, le_refl _, s, hs, hloc, hi, hcov,
    seed_has_least_coverage twoSourcesGraph_wellFormed (by decide) (List.mem_singleton_self _)
      (le_refl _) (Reachable.run .init hs) hloc hi⟩

/-- Equal coverages at the first seed: node `2`, which the search lists first, is the seed. -/
theorem seed_follows_search_order :
    twoNodesGraph.WellFormed ∧ weaklyConnectedComponents twoNodesGraph = some [[2, 1]] ∧
      (CoverState.init [2, 1] : CoverState Int).nodeCoverage = [(2, 0), (1, 0)] ∧
      (step twoNodesGraph insertionStdSort 1 2 (CoverState.init [2, 1])).map CoverState.path =
        .ok [twoNodesGraph.getHandle 2 false] :=
  ⟨twoNodesGraph_wellFormed, by decide, rfl, by decide⟩

/-- The coverage of the seed's node does not grow: `increase_coverage` goes to the back. -/
theorem seed_coverage_unchanged (hi : SafeInv G n comp s) (hc : ClosedComponent G comp)
    (hloc : s.loc = .seed) (hlt : s.i < n) (htwo : 2 ≤ comp.length) {front : Int × Nat}
    (hfront : (S.sort givePriorityNode s.nodeCoverage).head? = some front) :
    ∃ s', step G S n k s = .ok s' ∧ s'.path = [G.getHandle front.1 false] ∧
      coverageOf s'.nodeCoverage front.1 = front.2 := by
  obtain ⟨t, ht, -, -⟩ := sort_givePriorityNode_eq_cons hfront
  have hperm := S.perm _ s.nodeCoverage strictWeakOrder_givePriorityNode
  have hids := (hperm.map Prod.fst).trans hi.ids
  have hlen : t.length + 1 = comp.length := by
    simpa [ht, hi.length_nodeCoverage] using hperm.length_eq
  refine ⟨_, step_seed hloc hlt hfront, rfl, coverageOf_of_mem (sortedById_sort S ?_) ?_⟩
  · rw [map_fst_modify_increaseCoverageNode]; exact hids.nodup_iff.2 hc.nodup
  · -- The increment is at the last index, which is not the seed's.
    obtain ⟨j, hj⟩ : ∃ j, t.length = j + 1 := ⟨t.length - 1, by omega⟩
    rw [(S.perm _ _ strictWeakOrder_idLess).mem_iff, ht]
    simp [hj, List.modify_succ_cons]

theorem seed_coverage_unchanged_twoSources :
    ∃ s, run twoSourcesGraph insertionStdSort 3 2 9 (CoverState.init [1, 3, 2]) = .ok s ∧
      SafeInv twoSourcesGraph 3 [1, 3, 2] s ∧ ClosedComponent twoSourcesGraph [1, 3, 2] ∧
      s.loc = .seed ∧ s.i < 3 ∧ 2 ≤ [1, 3, 2].length ∧
      (insertionStdSort.sort givePriorityNode s.nodeCoverage).head? = some (1, 0) ∧
      ∃ s', step twoSourcesGraph insertionStdSort 3 2 s = .ok s' ∧
        s'.path = [twoSourcesGraph.getHandle 1 false] ∧ coverageOf s'.nodeCoverage 1 = 0 := by
  have hc := closedComponent_of_mem twoSourcesGraph_wellFormed (by decide)
    (List.mem_singleton_self [1, 3, 2])
  obtain ⟨s, hs, hloc, hlt, hfront⟩ : ∃ s, run twoSourcesGraph insertionStdSort 3 2 9
      (CoverState.init [1, 3, 2]) = .ok s ∧ s.loc = .seed ∧ s.i < 3 ∧
      (insertionStdSort.sort givePriorityNode s.nodeCoverage).head? = some (1, 0) :=
    ⟨_, rfl, rfl, by decide, by decide⟩
  have hi := (Reachable.run .init hs).safeInv twoSourcesGraph_wellFormed hc (by decide)
  exact ⟨s, hs, hi, hc, hloc, hlt, by decide, hfront,
    seed_coverage_unchanged hi hc hloc hlt (by decide) hfront⟩

/-- Every path of `twoSourcesGraph` starts at node `1`, so node `2` is on none. -/
theorem coverComponent_twoSources :
    coverComponent twoSourcesGraph insertionStdSort 3 2 [1, 3, 2] =
      .ok [[2, 6], [2, 6], [2, 6]] := by
  decide

/-- After the first path, node `1` has no coverage and node `2`, on no path, has one. -/
theorem nodeCoverage_after_first_path_twoSources :
    (run twoSourcesGraph insertionStdSort 3 2 9 (CoverState.init [1, 3, 2])).map
      (fun s => (s.i, s.paths, s.nodeCoverage)) = .ok (1, [[2, 6]], [(1, 0), (2, 1), (3, 1)]) := by
  decide

end GbwtGraph
