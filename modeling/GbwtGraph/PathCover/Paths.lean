import GbwtGraph.PathCover.Counts

/-! # The paths a component gets

Every path the loop inserts is maximal: it has a handle for each node of the component, or it
can grow at neither end. And while `n |C| < worst_coverage()`, the node counters add up to the
number of handles placed, although the increment of each seed lands on the back of the sorted
nodes and not on the seed.
-/

namespace GbwtGraph

variable {H : Type} [LinearOrder H] {G : HandleGraph H} {S : StdSort (Int × Nat)} {n k : Nat}
  {comp : List Int} {s s' : CoverState H}

/-! ## Maximal paths -/

variable (G comp) in
/-- A path with a handle for each node of the component, or one that can grow at neither end. -/
def Maximal (p : List H) : Prop :=
  p.length = comp.length ∨
    (∀ b, p.getLast? = some b → G.followEdges b false = []) ∧
      ∀ f, p.head? = some f → G.followEdges f true = []

theorem StepCase.paths_maximal (hi : SafeInv G n comp s) (he : EndsInv G s)
    (h : StepCase G S n k s s') (hmax : ∀ p ∈ s.paths, Maximal G comp p) :
    ∀ p ∈ s'.paths, Maximal G comp p := by
  cases h with
  | insert hloc =>
    intro p hp
    rcases List.mem_append.1 hp with hp | hp
    · exact hmax p hp
    rw [List.mem_singleton.1 hp]
    by_cases hlt : s.path.length < s.nodeCoverage.length
    · exact .inr (he.insert_end hloc hlt)
    · exact .inl (le_antisymm hi.path_le (hi.length_nodeCoverage ▸ Nat.le_of_not_lt hlt))
  | _ => exact hmax

section Runs

variable (hG : G.WellFormed) (hc : ClosedComponent G comp) (hk : 0 < k)
include hG hc hk

theorem Reachable.paths_maximal (hs : Reachable G S n k comp s) :
    ∀ p ∈ s.paths, Maximal G comp p :=
  hs.induction hG hc hk (by simp [CoverState.init])
    fun hs hi h hmax => h.paths_maximal hi (hs.endsInv hG hc hk) hmax

/-- Every path of a component's cover has `|C|` handles or can grow at neither end. -/
theorem coverComponent_paths_maximal {paths : List (List H)}
    (h : coverComponent G S n k comp = .ok paths) : ∀ p ∈ paths, Maximal G comp p := by
  unfold coverComponent at h
  rcases run_of_potential_le (S := S) hG hc hk _ _ .init (le_of_eq potential_init) with
    ⟨hrun, -⟩ | ⟨s, hrun, hs, -⟩
  · rw [hrun] at h; cases h
  · rw [hrun] at h; cases h
    exact hs.paths_maximal hG hc hk

end Runs

theorem coverComponent_paths_maximal_twoSources :
    twoSourcesGraph.WellFormed ∧ ClosedComponent twoSourcesGraph [1, 3, 2] ∧ 0 < 2 ∧
      coverComponent twoSourcesGraph insertionStdSort 1 2 [1, 3, 2] = .ok [[2, 6]] ∧
      ∀ p ∈ [[2, 6]], Maximal twoSourcesGraph [1, 3, 2] p :=
  have hc := closedComponent_of_mem twoSourcesGraph_wellFormed (by decide)
    (List.mem_singleton_self [1, 3, 2])
  have h : coverComponent twoSourcesGraph insertionStdSort 1 2 [1, 3, 2] = .ok [[2, 6]] := by
    decide
  ⟨twoSourcesGraph_wellFormed, hc, by decide, h,
    coverComponent_paths_maximal twoSourcesGraph_wellFormed hc (by decide) h⟩

/-! ## The node counters -/

theorem sum_snd_modify_increaseCoverageNode :
    ∀ (l : List (Int × Nat)) (j : Nat) (hj : j < l.length), l[j].2 + 1 < 2 ^ 64 →
      ((l.modify increaseCoverageNode j).map Prod.snd).sum = (l.map Prod.snd).sum + 1
  | e :: l, 0, _, hlt => by
    have hlt : e.2 + 1 < 2 ^ 64 := hlt
    simp [increaseCoverageNode, increaseCoverage_of_lt hlt]
    omega
  | e :: l, j + 1, hj, hlt => by
    have := sum_snd_modify_increaseCoverageNode l j (by simpa using hj) (by simpa using hlt)
    simp only [List.modify_succ_cons, List.map_cons, List.sum_cons, this]
    omega

theorem bumpNode_of_not_mem {l : List (Int × Nat)} {id : Int} (h : id ∉ l.map Prod.fst) :
    bumpNode l id = l := by
  unfold bumpNode
  conv_rhs => rw [← List.map_id l]
  refine List.map_congr_left fun e he => ?_
  rw [if_neg fun (heq : e.1 = id) => h (heq ▸ List.mem_map_of_mem _ he)]
  rfl

theorem sum_snd_bumpNode :
    ∀ {l : List (Int × Nat)} {id : Int}, (l.map Prod.fst).Nodup → id ∈ l.map Prod.fst →
      (∀ e ∈ l, e.2 + 1 < 2 ^ 64) →
      ((bumpNode l id).map Prod.snd).sum = (l.map Prod.snd).sum + 1
  | [], _, _, hid, _ => by simp at hid
  | e :: l, id, hnd, hid, hlt => by
    rw [List.map_cons, List.nodup_cons] at hnd
    have hrest : bumpNode (e :: l) id = (if e.1 = id then increaseCoverageNode e else e) ::
        bumpNode l id := rfl
    rw [hrest]
    by_cases he : e.1 = id
    · -- The entry is the head; the tail has other ids.
      rw [if_pos he, bumpNode_of_not_mem (he ▸ hnd.1)]
      simp [increaseCoverageNode, increaseCoverage_of_lt (hlt e (List.mem_cons_self _ _))]
      omega
    · rw [if_neg he]
      have hid' : id ∈ l.map Prod.fst := (List.mem_cons.1 hid).resolve_left (Ne.symm he)
      have := sum_snd_bumpNode hnd.2 hid' fun e' he' => hlt e' (List.mem_cons_of_mem _ he')
      simp only [List.map_cons, List.sum_cons, this]
      omega

theorem StepCase.sum_nodeCoverage (hi : SafeInv G n comp s) (hc : ClosedComponent G comp)
    (hno : ∀ e ∈ s.nodeCoverage, e.2 + 1 < 2 ^ 64) (h : StepCase G S n k s s')
    (hsum : (s.nodeCoverage.map Prod.snd).sum = handleCount s) :
    (s'.nodeCoverage.map Prod.snd).sum = handleCount s' := by
  have hnd : (s.nodeCoverage.map Prod.fst).Nodup := hi.ids.nodup_iff.2 hc.nodup
  cases h with
  | @choose front hloc _ hfront =>
    have hperm := S.perm givePriorityNode s.nodeCoverage strictWeakOrder_givePriorityNode
    have hlen : (S.sort givePriorityNode s.nodeCoverage).length - 1 <
        (S.sort givePriorityNode s.nodeCoverage).length :=
      Nat.sub_lt (List.length_pos.2 fun h => by simp [h] at hfront) Nat.one_pos
    have hmod := sum_snd_modify_increaseCoverageNode _ _ hlen
      (hno _ (hperm.subset (List.getElem_mem hlen)))
    rw [((S.perm idLess _ strictWeakOrder_idLess).map Prod.snd).sum_eq, hmod,
      (hperm.map Prod.snd).sum_eq, hsum]
    simp [handleCount, hi.path_nil (by rw [hloc]; rfl)]
  | forwardStep hloc hback _ hb | backwardStep hloc hback _ hb =>
    have hbc := mem_of_bestAfter hi hc (by first
      | exact List.mem_of_getLast?_eq_some hback | exact List.mem_of_mem_head? hback) hb
    rw [sum_snd_bumpNode hnd (hi.ids.symm.subset hbc) hno, hsum]
    simp [handleCount]
    omega
  | insert => simpa [handleCount] using hsum
  | _ => exact hsum

section Runs

variable (hG : G.WellFormed) (hc : ClosedComponent G comp) (hk : 0 < k)
  (hbound : n * comp.length < worstCoverage)
include hG hc hk hbound

/-- The node counters of every reachable state add up to the handles placed. -/
theorem reachable_nodeCoverage_sum (hs : Reachable G S n k comp s) :
    (s.nodeCoverage.map Prod.snd).sum = (s.paths.map List.length).sum + s.path.length := by
  refine hs.induction hG hc hk (P := fun s => (s.nodeCoverage.map Prod.snd).sum = handleCount s)
    (by simp [CoverState.init, handleCount, noCoverage, Function.comp_def])
    (fun hs hi h hsum => ?_)
  -- No counter exceeds the handles placed, which stay below `worst_coverage()`.
  refine h.sum_nodeCoverage hi hc (fun e he => ?_) hsum
  have := (hs.bounded hG hc hk).node e he
  have := hi.handleCount_le
  unfold worstCoverage at hbound
  omega

end Runs

theorem reachable_nodeCoverage_sum_twoSources :
    twoSourcesGraph.WellFormed ∧ ClosedComponent twoSourcesGraph [1, 3, 2] ∧ 0 < 2 ∧
      3 * [1, 3, 2].length < worstCoverage ∧
      ∃ s, run twoSourcesGraph insertionStdSort 3 2 9 (CoverState.init [1, 3, 2]) = .ok s ∧
        Reachable twoSourcesGraph insertionStdSort 3 2 [1, 3, 2] s ∧
        (s.nodeCoverage.map Prod.snd).sum = (s.paths.map List.length).sum + s.path.length := by
  have hc := closedComponent_of_mem twoSourcesGraph_wellFormed (by decide)
    (List.mem_singleton_self [1, 3, 2])
  obtain ⟨s, hs⟩ : ∃ s, run twoSourcesGraph insertionStdSort 3 2 9
      (CoverState.init [1, 3, 2]) = .ok s := ⟨_, rfl⟩
  have hr : Reachable twoSourcesGraph insertionStdSort 3 2 [1, 3, 2] s := Reachable.run .init hs
  exact ⟨twoSourcesGraph_wellFormed, hc, by decide, by decide, s, hs, hr,
    reachable_nodeCoverage_sum twoSourcesGraph_wellFormed hc (by decide) (by decide) hr⟩

end GbwtGraph
