import GbwtGraph.PathCover.Steps

/-! # No run of the path cover fails but by reading an unassigned `best`

`SafeInv` holds in every reachable state, with no assumption on the counters: the node array
holds the ids of the component, sorted by id inside a path, and every handle the run has met is
a handle of the component. So every `find_first` finds its id and every window is sliced inside
the path.
-/

namespace GbwtGraph

variable {H : Type} {G : HandleGraph H} {S : StdSort (Int × Nat)} {n k : Nat} {comp : List Int}
  {s s' : CoverState H}

def Loc.inPath : Loc → Bool
  | .test | .forward | .backward | .insert => true
  | .seed | .done => false

theorem Loc.inPath_of_extending {l : Loc} (h : l.extending) : l.inPath := by
  cases l <;> simp_all [Loc.extending, Loc.inPath]

/-- What every reachable state keeps. -/
structure SafeInv (G : HandleGraph H) (n : Nat) (comp : List Int) (s : CoverState H) : Prop where
  ids : (s.nodeCoverage.map Prod.fst).Perm comp
  sorted : s.loc.inPath → SortedById s.nodeCoverage
  i_le : s.i ≤ n
  i_lt : s.loc.inPath → s.i < n
  i_done : s.loc = .done → s.i = n
  paths_length : s.paths.length = s.i
  path_nil : s.loc.inPath = false → s.path = []
  path_ne_nil : s.loc.inPath → s.path ≠ []
  path_mem : ∀ h ∈ s.path, G.getId h ∈ comp
  path_lt : s.loc.extending → s.path.length < comp.length
  path_le : s.path.length ≤ comp.length
  paths_mem : ∀ p ∈ s.paths, p ≠ [] ∧ (∀ h ∈ p, G.getId h ∈ comp) ∧ p.length ≤ comp.length
  best_mem : ∀ b, s.best = some b → G.getId b ∈ comp
  best_none : s.loc = .forward → s.best = none

theorem SafeInv.length_nodeCoverage (hi : SafeInv G n comp s) :
    s.nodeCoverage.length = comp.length := by
  simpa using hi.ids.length_eq

theorem SafeInv.ready (hi : SafeInv G n comp s) (hloc : s.loc.extending) : Ready G comp s :=
  ⟨hi.sorted (Loc.inPath_of_extending hloc), hi.ids,
    hi.path_ne_nil (Loc.inPath_of_extending hloc), hi.path_mem, hi.best_mem⟩

theorem SafeInv.nodeCoverage_ne_nil (hi : SafeInv G n comp s) (hc : ClosedComponent G comp) :
    s.nodeCoverage ≠ [] := by
  rw [← List.length_pos, hi.length_nodeCoverage]
  exact List.length_pos.2 hc.ne_nil

theorem safeInv_init : SafeInv G n comp (CoverState.init comp) where
  ids := by simp [CoverState.init, Function.comp_def]
  sorted := nofun
  i_le := Nat.zero_le n
  i_lt := nofun
  i_done := nofun
  paths_length := rfl
  path_nil _ := rfl
  path_ne_nil := nofun
  path_mem := by simp [CoverState.init]
  path_lt := nofun
  path_le := Nat.zero_le _
  paths_mem := by simp [CoverState.init]
  best_mem := by simp [CoverState.init]
  best_none _ := rfl

theorem mem_of_bestAfter (hi : SafeInv G n comp s) (hc : ClosedComponent G comp) {e b : H}
    {window : List H → H → Nat → Option (List H)} {goLeft : Bool} (he : e ∈ s.path)
    (hb : bestAfter G k window s (G.followEdges e goLeft) = some b) : G.getId b ∈ comp :=
  (bestAfter_mem hb).elim (hc.closed e goLeft b (hi.path_mem e he)) (hi.best_mem b)

variable [LinearOrder H]

theorem SafeInv.next (hG : G.WellFormed) (hc : ClosedComponent G comp)
    (hi : SafeInv G n comp s) (h : StepCase G S n k s s') : SafeInv G n comp s' := by
  cases h with
  | @choose front hloc hlt hfront =>
    have hperm := S.perm _ s.nodeCoverage strictWeakOrder_givePriorityNode
    have hids := (hperm.map Prod.fst).trans hi.ids
    have hfront' : front.1 ∈ comp :=
      hids.subset (List.mem_map_of_mem _ (List.mem_of_mem_head? hfront))
    have hmod := map_fst_modify_increaseCoverageNode (S.sort givePriorityNode s.nodeCoverage)
      ((S.sort givePriorityNode s.nodeCoverage).length - 1)
    refine { hi with
      i_done := nofun, ids := ?_, sorted := fun _ => sortedById_sort S ?_, i_lt := fun _ => hlt,
      path_nil := nofun, path_ne_nil := fun _ => List.cons_ne_nil _ _, path_mem := ?_,
      path_lt := nofun, path_le := List.length_pos.2 hc.ne_nil, best_none := nofun }
    · exact ((S.perm idLess _ strictWeakOrder_idLess).map Prod.fst).trans (hmod ▸ hids)
    · exact hmod ▸ hids.nodup_iff.2 hc.nodup
    · simpa [hG.getId_getHandle front.1 (hc.subset _ hfront')] using hfront'
  | finish hloc hn =>
    exact { hi with
      i_done := fun _ => le_antisymm hi.i_le hn, sorted := nofun, i_lt := nofun,
      path_nil := fun _ => hi.path_nil (by simp [hloc, Loc.inPath]),
      path_ne_nil := nofun, path_lt := nofun, best_none := nofun }
  | extend hloc hguard =>
    have hin : s.loc.inPath := by rw [hloc]; rfl
    have hlt : s.path.length < comp.length := by
      have := hi.length_nodeCoverage
      simp only [Bool.and_eq_true, decide_eq_true_eq] at hguard
      omega
    exact { hi with
      i_done := nofun, sorted := fun _ => hi.sorted hin, i_lt := fun _ => hi.i_lt hin,
      path_nil := nofun, path_ne_nil := fun _ => hi.path_ne_nil hin, path_lt := fun _ => hlt,
      best_mem := fun _ h => Option.noConfusion h, best_none := fun _ => rfl }
  | stop hloc =>
    have hin : s.loc.inPath := by rw [hloc]; rfl
    exact { hi with
      i_done := nofun, sorted := fun _ => hi.sorted hin, i_lt := fun _ => hi.i_lt hin,
      path_nil := nofun, path_ne_nil := fun _ => hi.path_ne_nil hin, path_lt := nofun,
      best_none := nofun }
  | forwardEnd hloc =>
    have hin : s.loc.extending := by rw [hloc]; rfl
    exact { hi with
      i_done := nofun, sorted := fun _ => hi.sorted (Loc.inPath_of_extending hin),
      i_lt := fun _ => hi.i_lt (Loc.inPath_of_extending hin), path_nil := nofun,
      path_ne_nil := fun _ => hi.path_ne_nil (Loc.inPath_of_extending hin),
      path_lt := fun _ => hi.path_lt hin, best_none := nofun }
  | forwardStep hloc hback _ hb =>
    have hin : s.loc.extending := by rw [hloc]; rfl
    have hbc := mem_of_bestAfter hi hc (List.mem_of_getLast?_eq_some hback) hb
    have hlt := hi.path_lt hin
    have := hi.length_nodeCoverage
    -- The path is inserted or extended backward next.
    have hin' : (if s.nodeCoverage.length ≤ s.path.length + 1 then Loc.insert
        else Loc.backward).inPath := by split <;> rfl
    have hext' : (if s.nodeCoverage.length ≤ s.path.length + 1 then Loc.insert
        else Loc.backward).extending → s.path.length + 1 < comp.length := by
      split
      · nofun
      · intro; omega
    exact { hi with
      i_done := fun h => (by dsimp only at h; split at h <;> cases h),
      ids := by simpa using hi.ids,
      sorted := fun _ => sortedById_bumpNode (hi.sorted (Loc.inPath_of_extending hin)) _,
      i_lt := fun _ => hi.i_lt (Loc.inPath_of_extending hin),
      path_nil := fun h => absurd (h.symm.trans hin') Bool.false_ne_true,
      path_ne_nil := fun _ => (by simp),
      path_mem := (by simpa [or_imp, forall_and] using ⟨hi.path_mem, hbc⟩),
      path_lt := fun h => (by simpa using hext' h), path_le := (by simp; omega),
      best_mem := fun _ h => (by cases h; exact hbc),
      best_none := fun h => (by dsimp only at h; split at h <;> cases h) }
  | backwardEnd hloc =>
    have hin : s.loc.extending := by rw [hloc]; rfl
    exact { hi with
      i_done := nofun, sorted := fun _ => hi.sorted (Loc.inPath_of_extending hin),
      i_lt := fun _ => hi.i_lt (Loc.inPath_of_extending hin), path_nil := nofun,
      path_ne_nil := fun _ => hi.path_ne_nil (Loc.inPath_of_extending hin), path_lt := nofun,
      best_none := nofun }
  | backwardStep hloc hfront _ hb =>
    have hin : s.loc.extending := by rw [hloc]; rfl
    have hbc := mem_of_bestAfter hi hc (List.mem_of_mem_head? hfront) hb
    have hlt := hi.path_lt hin
    exact { hi with
      i_done := nofun, ids := by simpa using hi.ids,
      sorted := fun _ => sortedById_bumpNode (hi.sorted (Loc.inPath_of_extending hin)) _,
      i_lt := fun _ => hi.i_lt (Loc.inPath_of_extending hin), path_nil := nofun,
      path_ne_nil := fun _ => List.cons_ne_nil _ _,
      path_mem := (by simpa [or_imp, forall_and] using ⟨hbc, hi.path_mem⟩),
      path_lt := nofun, path_le := (by simp; omega), best_mem := fun _ h => (by cases h; exact hbc),
      best_none := nofun }
  | insert hloc =>
    have hin : s.loc.inPath := by rw [hloc]; rfl
    exact { hi with
      i_done := nofun, sorted := nofun, i_le := hi.i_lt hin, i_lt := nofun,
      paths_length := by simp [hi.paths_length], path_nil := fun _ => rfl, path_ne_nil := nofun,
      path_mem := by simp, path_lt := nofun, path_le := by simp,
      paths_mem := fun p hp => (List.mem_append.1 hp).elim (hi.paths_mem p) fun hp' => by
        rw [List.mem_singleton.1 hp']; exact ⟨hi.path_ne_nil hin, hi.path_mem, hi.path_le⟩,
      best_none := nofun }
  | done => exact hi

theorem SafeInv.stepCase (hi : SafeInv G n comp s) (hc : ClosedComponent G comp) (hk : 0 < k)
    (h : step G S n k s = .ok s') : StepCase G S n k s s' :=
  step_cases (fun hl => hi.ready hl) hk hc (hi.nodeCoverage_ne_nil hc) h

theorem SafeInv.step_error (hi : SafeInv G n comp s) (hc : ClosedComponent G comp) (hk : 0 < k)
    {f : Fault} (h : step G S n k s = .error f) : f = .unassignedBest :=
  (GbwtGraph.step_error (fun hl => hi.ready hl) hk hc (hi.nodeCoverage_ne_nil hc) h).1

section Runs

variable (hG : G.WellFormed) (hc : ClosedComponent G comp) (hk : 0 < k)
include hG hc hk

theorem Reachable.safeInv (hs : Reachable G S n k comp s) : SafeInv G n comp s := by
  induction hs with
  | init => exact safeInv_init
  | step _ h ih => exact ih.next hG hc (ih.stepCase hc hk h)

theorem Reachable.induction {P : CoverState H → Prop} (h0 : P (CoverState.init comp))
    (hstep : ∀ {s s'}, Reachable G S n k comp s → SafeInv G n comp s → StepCase G S n k s s' →
      P s → P s')
    (hs : Reachable G S n k comp s) : P s := by
  induction hs with
  | init => exact h0
  | step hs' h ih =>
    have hi := hs'.safeInv hG hc hk
    exact hstep hs' hi (hi.stepCase hc hk h) ih

end Runs

theorem Reachable.run :
    ∀ {fuel : Nat} {s s' : CoverState H}, Reachable G S n k comp s →
      GbwtGraph.run G S n k fuel s = .ok s' → Reachable G S n k comp s'
  | 0, _, _, hs, h => by cases h; exact hs
  | fuel + 1, s, _, hs, h => by
    unfold GbwtGraph.run at h
    split at h
    · cases h; exact hs
    rcases hstep : GbwtGraph.step G S n k s with f | s₁ <;> rw [hstep] at h
    · cases h
    · exact Reachable.run (.step hs hstep) h

end GbwtGraph
