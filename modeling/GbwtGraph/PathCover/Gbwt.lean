import GbwtGraph.PathCover.Walks

/-! # What `generic_path_cover` gives the GBWT builder

The components are covered one after the other, in the order of the search: the paths of
component `c` go to the builder in order, each as the codes of its handles, and the path of
number `i` is named `(i, c, 0, 0)`.
-/

namespace GbwtGraph

variable {H : Type} [LinearOrder H] {G : HandleGraph H} {S : StdSort (Int × Nat)} {n k : Nat}

omit [LinearOrder H] in
theorem foldl_insertComponent (pathsOf : List Int → List (List H)) :
    ∀ (L : List (Nat × List Int)) (gbwt : PathCoverGBWT),
      (L.foldl (fun g c => insertComponent G g c.1 (pathsOf c.2)) gbwt).paths =
          gbwt.paths ++ (L.map fun c => (pathsOf c.2).map
            (List.map fun h => nodeEncode (G.getId h) (G.getIsReverse h))).flatten ∧
        (L.foldl (fun g c => insertComponent G g c.1 (pathsOf c.2)) gbwt).names =
          gbwt.names ++
            (L.map fun c => (List.range (pathsOf c.2).length).map fun i => (i, c.1, 0, 0)).flatten
  | [], _ => by simp
  | c :: L, gbwt => by
    obtain ⟨h₁, h₂⟩ := foldl_insertComponent pathsOf L (insertComponent G gbwt c.1 (pathsOf c.2))
    simp only [List.foldl_cons]
    rw [h₁, h₂]
    simp [insertComponent]

theorem foldlM_ok_or_error {α β ε : Type} (f : β → α → Except ε β) (e : ε) :
    ∀ (l : List α) (init : β), (∀ b, ∀ a ∈ l, (∃ b', f b a = .ok b') ∨ f b a = .error e) →
      (∃ b, l.foldlM f init = .ok b) ∨ l.foldlM f init = .error e
  | [], init, _ => .inl ⟨init, rfl⟩
  | a :: l, init, h => by
    rw [List.foldlM_cons]
    rcases h init a (List.mem_cons_self _ _) with ⟨b, hb⟩ | he
    · rw [hb]
      exact foldlM_ok_or_error f e l b fun b a' ha' => h b a' (List.mem_cons_of_mem _ ha')
    · rw [he]
      exact .inr rfl

/-- `generic_path_cover` returns a GBWT unless a run reads an unassigned `best`. -/
theorem genericPathCover_ok_or_unassignedBest (hG : G.WellFormed) :
    (∃ gbwt, genericPathCover G S n k = .ok gbwt) ∨
      genericPathCover G S n k = .error .unassignedBest := by
  unfold genericPathCover
  split_ifs with h₁ h₂ h₃
  -- The sanity checks return the empty GBWT.
  iterate 3 exact .inl ⟨_, rfl⟩
  obtain ⟨components, hw⟩ := weaklyConnectedComponents_isSome hG
  have hk : 0 < k := lt_of_lt_of_le (by decide) (not_lt.1 h₂)
  rw [hw]
  dsimp only
  -- Each component is covered, or its run reads an unassigned `best`.
  have hstep : ∀ (gbwt : PathCoverGBWT), ∀ x ∈ components.enum,
      (∃ gbwt', (coverComponent G S n k x.2 >>= fun paths =>
        pure (insertComponent G gbwt x.1 paths)) = .ok gbwt') ∨
      (coverComponent G S n k x.2 >>= fun paths =>
        pure (insertComponent G gbwt x.1 paths)) = .error .unassignedBest := by
    intro gbwt x hx
    rcases run_of_potential_le (S := S) hG (closedComponent_of_mem hG hw
        (List.snd_mem_of_mem_enum hx)) hk _ _ .init (le_of_eq potential_init) with
      ⟨h, -⟩ | ⟨s, h, -⟩
    · exact .inr (by rw [coverComponent, h]; rfl)
    · exact .inl ⟨_, by rw [coverComponent, h]; rfl⟩
  rcases foldlM_ok_or_error _ _ _ _ hstep with ⟨_, h⟩ | h
  · exact .inl ⟨_, by rw [h]; rfl⟩
  · exact .inr (by rw [h]; rfl)

theorem genericPathCover_ok_or_unassignedBest_twoSources :
    twoSourcesGraph.WellFormed ∧
      ((∃ gbwt, genericPathCover twoSourcesGraph insertionStdSort 3 2 = .ok gbwt) ∨
        genericPathCover twoSourcesGraph insertionStdSort 3 2 = .error .unassignedBest) :=
  ⟨twoSourcesGraph_wellFormed, genericPathCover_ok_or_unassignedBest twoSourcesGraph_wellFormed⟩

/-- With `n |V| < worst_coverage()`, each component gets `n` walks, named and in order. -/
theorem genericPathCover_paths (hG : G.WellFormed) (hnodes : G.getNodeCount ≠ 0) (hn : n ≠ 0)
    (hk : pathCoverMinK ≤ k) (hmin : 1 ≤ G.minNodeId)
    (hbound : n * G.getNodeCount < worstCoverage) :
    ∃ components gbwt, weaklyConnectedComponents G = some components ∧
      genericPathCover G S n k = .ok gbwt ∧
      ∃ pathsOf : List Int → List (List H),
        (∀ c ∈ components, (pathsOf c).length = n ∧
          ∀ p ∈ pathsOf c, p ≠ [] ∧ G.IsWalk p ∧ ∀ h ∈ p, G.getId h ∈ c) ∧
        gbwt.paths = (components.map fun c => (pathsOf c).map
          (List.map fun h => nodeEncode (G.getId h) (G.getIsReverse h))).flatten ∧
        gbwt.names =
          (components.enum.map fun c => (List.range n).map fun i => (i, c.1, 0, 0)).flatten ∧
        gbwt.samples = n ∧ gbwt.contigs = components.length ∧ gbwt.haplotypes = n := by
  obtain ⟨components, hw⟩ := weaklyConnectedComponents_isSome hG
  have hk' : 0 < k := lt_of_lt_of_le (by decide) hk
  -- Every component gets its `n` walks.
  have hok : ∀ c ∈ components, ∃ paths, coverComponent G S n k c = .ok paths ∧
      paths.length = n ∧ ∀ p ∈ paths, p ≠ [] ∧ G.IsWalk p ∧ ∀ h ∈ p, G.getId h ∈ c :=
    fun c hc => coverComponent_ok hG (closedComponent_of_mem hG hw hc) hk'
      (lt_of_le_of_lt (Nat.mul_le_mul_left _ ((closedComponent_of_mem hG hw hc).length_le hG))
        hbound)
  choose! pathsOf hpaths using hok
  obtain ⟨hpaths', hnames'⟩ :=
    foldl_insertComponent (G := G) pathsOf components.enum PathCoverGBWT.empty
  refine ⟨components, { components.enum.foldl (fun g c => insertComponent G g c.1 (pathsOf c.2))
    PathCoverGBWT.empty with samples := n, contigs := components.length, haplotypes := n }, hw,
    ?_, pathsOf, fun c hc => (hpaths c hc).2, ?_, ?_, rfl, rfl, rfl⟩
  · unfold genericPathCover
    rw [if_neg (by omega), if_neg (by omega), if_neg (by omega), hw]
    dsimp only
    rw [foldlM_eq_ok _ (fun g c => insertComponent G g c.1 (pathsOf c.2)) _ _ ?_]
    · rfl
    · rintro b ⟨contig, c⟩ hc
      simp only [(hpaths c (List.snd_mem_of_mem_enum hc)).1]
      rfl
  · conv_rhs => rw [← List.enum_map_snd components, List.map_map]
    exact hpaths'
  · rw [hnames']
    refine congrArg (fun l => [] ++ List.flatten l) (List.map_congr_left fun c hc => ?_)
    rw [(hpaths c.2 (List.snd_mem_of_mem_enum hc)).2.1]

example : genericPathCover twoNodesGraph insertionStdSort 1 2 =
    .ok ⟨[[2, 4]], [(0, 0, 0, 0)], 1, 1, 1⟩ := by
  decide

theorem genericPathCover_paths_twoSources :
    twoSourcesGraph.WellFormed ∧ twoSourcesGraph.getNodeCount ≠ 0 ∧ 3 ≠ 0 ∧ pathCoverMinK ≤ 2 ∧
      1 ≤ twoSourcesGraph.minNodeId ∧ 3 * twoSourcesGraph.getNodeCount < worstCoverage ∧
      ∃ components gbwt, weaklyConnectedComponents twoSourcesGraph = some components ∧
        genericPathCover twoSourcesGraph insertionStdSort 3 2 = .ok gbwt ∧
        ∃ pathsOf : List Int → List (List Int),
          (∀ c ∈ components, (pathsOf c).length = 3 ∧
            ∀ p ∈ pathsOf c, p ≠ [] ∧ twoSourcesGraph.IsWalk p ∧
              ∀ h ∈ p, twoSourcesGraph.getId h ∈ c) ∧
          gbwt.paths = (components.map fun c => (pathsOf c).map (List.map fun h =>
            nodeEncode (twoSourcesGraph.getId h) (twoSourcesGraph.getIsReverse h))).flatten ∧
          gbwt.names =
            (components.enum.map fun c => (List.range 3).map fun i => (i, c.1, 0, 0)).flatten ∧
          gbwt.samples = 3 ∧ gbwt.contigs = components.length ∧ gbwt.haplotypes = 3 :=
  ⟨twoSourcesGraph_wellFormed, by decide, by decide, le_refl _, by decide, by decide,
    genericPathCover_paths twoSourcesGraph_wellFormed (by decide) (by decide) (le_refl _)
      (by decide) (by decide)⟩

end GbwtGraph
