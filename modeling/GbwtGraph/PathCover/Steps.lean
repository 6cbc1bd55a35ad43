import GbwtGraph.PathCover.Machine

/-! # What each step of the path cover computes

`Ready` is what an extension needs of the state: the node array sorted by id over the ids of
the component, a nonempty path of handles of the component, and `best`, if assigned, a handle
of the component. Under it every lookup succeeds, and each function of `Machine.lean` has a
closed form here; the only way an extension can fail is a read of an unassigned `best`.
-/

namespace GbwtGraph

variable {H : Type} [LinearOrder H] {G : HandleGraph H} {k : Nat} {comp : List Int}

def Loc.extending : Loc → Bool
  | .forward | .backward => true
  | .seed | .test | .insert | .done => false

structure Ready (G : HandleGraph H) (comp : List Int) (s : CoverState H) : Prop where
  sorted : SortedById s.nodeCoverage
  ids : (s.nodeCoverage.map Prod.fst).Perm comp
  path_ne_nil : s.path ≠ []
  path_mem : ∀ h ∈ s.path, G.getId h ∈ comp
  best_mem : ∀ b, s.best = some b → G.getId b ∈ comp

def bumpNode (array : List (Int × Nat)) (id : Int) : List (Int × Nat) :=
  array.map fun e => if e.1 = id then increaseCoverageNode e else e

@[simp] theorem map_fst_bumpNode (array : List (Int × Nat)) (id : Int) :
    (bumpNode array id).map Prod.fst = array.map Prod.fst := by
  simp only [bumpNode, List.map_map]
  congr 1
  funext e
  simp only [Function.comp_apply]
  split <;> rfl

@[simp] theorem length_bumpNode (array : List (Int × Nat)) (id : Int) :
    (bumpNode array id).length = array.length := by simp [bumpNode]

theorem sortedById_bumpNode {array : List (Int × Nat)} (hs : SortedById array) (id : Int) :
    SortedById (bumpNode array id) := by
  unfold SortedById bumpNode
  exact List.Pairwise.map _ (fun a b h => by split <;> split <;> simpa [increaseCoverageNode]) hs

theorem modify_eq_bumpNode {array : List (Int × Nat)} (hs : SortedById array) {i : Nat}
    (hi : i < array.length) : array.modify increaseCoverageNode i = bumpNode array array[i].1 := by
  apply List.ext_getElem (by simp)
  intro j hj _
  simp only [List.length_modify] at hj
  simp only [List.getElem_modify, bumpNode, List.getElem_map]
  by_cases hji : i = j
  · subst hji; simp
  · -- Another index holds another id.
    have : array[j].1 ≠ array[i].1 := by
      rcases Nat.lt_or_gt_of_ne hji with h | h
      · exact ne_of_gt (by simpa using hs.rel_get_of_lt (a := ⟨i, hi⟩) (b := ⟨j, hj⟩) h)
      · exact ne_of_lt (by simpa using hs.rel_get_of_lt (a := ⟨j, hj⟩) (b := ⟨i, hi⟩) h)
    simp [hji, this]

omit [LinearOrder H] in
theorem Ready.findFirst (hr : Ready G comp s) {id : Int} (hid : id ∈ comp) :
    ∃ i, GbwtGraph.findFirst s.nodeCoverage id = some i ∧ s.nodeCoverage[i].1 = id :=
  findFirst_of_sortedById hr.sorted (hr.ids.mem_iff.2 hid)

def WindowDefined (window : List H → H → Nat → Option (List H)) (k : Nat) : Prop :=
  ∀ path x, 0 < k → k - 1 ≤ path.length → ∃ w, window path x k = some w

theorem windowDefined_forwardWindow : WindowDefined (forwardWindow G) k :=
  fun _ _ hk hp => ⟨_, forwardWindow_eq _ _ hk hp⟩

theorem windowDefined_backwardWindow : WindowDefined (backwardWindow G) k :=
  fun _ _ hk hp => ⟨_, backwardWindow_eq _ _ hk hp⟩

variable (G k)

def candidateScore (window : List H → H → Nat → Option (List H)) (s : CoverState H)
    (next : H) : Nat :=
  if s.path.length + 1 < k then coverageOf s.nodeCoverage (G.getId next)
  else s.pathCoverage ((window s.path next k).getD [])

def bestAfter (window : List H → H → Nat → Option (List H)) (s : CoverState H)
    (candidates : List H) : Option H :=
  (candidates.foldl (fun best c => updateBest best (candidateScore G k window s c) c)
    (worstCoverage, s.best)).2

variable {G k}

theorem foldlM_eq_ok {α β ε : Type} (f : β → α → Except ε β) (g : β → α → β) :
    ∀ (l : List α) (init : β), (∀ b, ∀ a ∈ l, f b a = .ok (g b a)) →
      l.foldlM f init = .ok (l.foldl g init)
  | [], _, _ => rfl
  | a :: l, init, h => by
    rw [List.foldlM_cons, h init a (List.mem_cons_self _ _)]
    exact foldlM_eq_ok f g l _ fun b a' ha' => h b a' (List.mem_cons_of_mem _ ha')

variable {window : List H → H → Nat → Option (List H)} {s : CoverState H}

omit [LinearOrder H] in
theorem candidateCoverage_eq (hr : Ready G comp s) (hk : 0 < k) (hw : WindowDefined window k)
    {next : H} (hnext : G.getId next ∈ comp) :
    candidateCoverage G k window s next = .ok (candidateScore G k window s next) := by
  unfold candidateCoverage candidateScore
  split
  · obtain ⟨i, hi, hid⟩ := hr.findFirst hnext
    simp only [hi, Fin.getElem_fin] at hid ⊢
    rw [← hid, coverageOf_getElem hr.sorted i.2]
    rfl
  · obtain ⟨w, hw⟩ := hw s.path next hk (by omega)
    simp only [hw]
    rfl

omit [LinearOrder H] in
theorem chooseBest_eq (hr : Ready G comp s) (hk : 0 < k) (hw : WindowDefined window k)
    {candidates : List H} (hc : ∀ c ∈ candidates, G.getId c ∈ comp) :
    chooseBest G k window s candidates =
      pure (candidates.foldl (fun best c => updateBest best (candidateScore G k window s c) c)
        (worstCoverage, s.best)) :=
  foldlM_eq_ok _ _ _ _ fun b c hc' => by
    simp only [candidateCoverage_eq hr hk hw (hc c hc')]
    rfl

theorem increaseCoverages_eq (hr : Ready G comp s) (hk : 0 < k) (hw : WindowDefined window k)
    {b : H} (hb : G.getId b ∈ comp) :
    increaseCoverages G k window s b =
      pure ((if k ≤ s.path.length + 1 then
          increasePathCoverage s.pathCoverage ((window s.path b k).getD [])
        else s.pathCoverage), bumpNode s.nodeCoverage (G.getId b)) := by
  obtain ⟨i, hi, hid⟩ := hr.findFirst hb
  have hmod := modify_eq_bumpNode hr.sorted i.2
  simp only [Fin.getElem_fin] at hid
  rw [hid] at hmod
  unfold increaseCoverages
  by_cases hlen : k ≤ s.path.length + 1
  · obtain ⟨w, hw⟩ := hw s.path b hk (by omega)
    simp [hlen, hw, hi, hmod]
  · simp [hlen, hi, hmod]

omit [LinearOrder H] in
theorem bestAfter_mem {candidates : List H} {b : H}
    (h : bestAfter G k window s candidates = some b) : b ∈ candidates ∨ s.best = some b :=
  foldl_updateBest_snd_mem _ h

section Extensions

variable (hr : Ready G comp s) (hk : 0 < k) (hc : ClosedComponent G comp)
include hr hk hc

theorem extendForward_eq {back : H} (hback : s.path.getLast? = some back) :
    extendForward G k s =
      if G.followEdges back false = [] then .ok { s with forwardSuccess := false, loc := .backward }
      else match bestAfter G k (forwardWindow G) s (G.followEdges back false) with
        | none => .error .unassignedBest
        | some b => .ok { s with
            pathCoverage := if k ≤ s.path.length + 1 then
                increasePathCoverage s.pathCoverage (minWindow G (s.path.rtake (k - 1) ++ [b]))
              else s.pathCoverage
            nodeCoverage := bumpNode s.nodeCoverage (G.getId b)
            path := s.path ++ [b]
            forwardSuccess := true
            best := some b
            loc := if s.nodeCoverage.length ≤ s.path.length + 1 then .insert else .backward } := by
  have hcand : ∀ c ∈ G.followEdges back false, G.getId c ∈ comp := fun c hc' =>
    hc.closed back false c (hr.path_mem back (List.mem_of_getLast?_eq_some hback)) hc'
  unfold extendForward bestAfter
  simp only [hback, chooseBest_eq hr hk windowDefined_forwardWindow hcand, pure_bind]
  by_cases hnil : G.followEdges back false = []
  · simp [hnil]; rfl
  generalize hr' : List.foldl _ (worstCoverage, s.best) (G.followEdges back false) = r
  obtain ⟨v, _ | b⟩ := r
  · simp [hnil]; rfl
  have hbc : G.getId b ∈ comp :=
    (foldl_updateBest_snd_mem _ (congrArg Prod.snd hr')).elim (hcand b) (hr.best_mem b)
  simp only [hnil, if_false, List.isEmpty_eq_false.2 hnil, Bool.false_eq_true,
    increaseCoverages_eq hr hk windowDefined_forwardWindow hbc, pure_bind]
  by_cases hlen : k ≤ s.path.length + 1
  · simp [hlen, forwardWindow_eq s.path b hk (by omega)]; rfl
  · simp [hlen]; rfl

theorem extendBackward_eq {front : H} (hfront : s.path.head? = some front) :
    extendBackward G k s =
      if G.followEdges front true = [] then .ok { s with backwardSuccess := false, loc := .test }
      else match bestAfter G k (backwardWindow G) s (G.followEdges front true) with
        | none => .error .unassignedBest
        | some b => .ok { s with
            pathCoverage := if k ≤ s.path.length + 1 then
                increasePathCoverage s.pathCoverage (minWindow G (b :: s.path.take (k - 1)))
              else s.pathCoverage
            nodeCoverage := bumpNode s.nodeCoverage (G.getId b)
            path := b :: s.path
            backwardSuccess := true
            best := some b
            loc := .test } := by
  have hcand : ∀ c ∈ G.followEdges front true, G.getId c ∈ comp := fun c hc' =>
    hc.closed front true c (hr.path_mem front (List.mem_of_mem_head? hfront)) hc'
  unfold extendBackward bestAfter
  simp only [hfront, chooseBest_eq hr hk windowDefined_backwardWindow hcand, pure_bind]
  by_cases hnil : G.followEdges front true = []
  · simp [hnil]; rfl
  generalize hr' : List.foldl _ (worstCoverage, s.best) (G.followEdges front true) = r
  obtain ⟨v, _ | b⟩ := r
  · simp [hnil]; rfl
  have hbc : G.getId b ∈ comp :=
    (foldl_updateBest_snd_mem _ (congrArg Prod.snd hr')).elim (hcand b) (hr.best_mem b)
  simp only [hnil, if_false, List.isEmpty_eq_false.2 hnil, Bool.false_eq_true,
    increaseCoverages_eq hr hk windowDefined_backwardWindow hbc, pure_bind]
  by_cases hlen : k ≤ s.path.length + 1
  · simp [hlen, backwardWindow_eq s.path b hk (by omega)]; rfl
  · simp [hlen]; rfl

end Extensions

/-! ## What one step does -/

variable (G S : StdSort (Int × Nat)) in
/-- The transitions of `step`, each with its guard, from a state where extensions are `Ready`. -/
inductive StepCase (G : HandleGraph H) (S : StdSort (Int × Nat)) (n k : Nat) (s : CoverState H) :
    CoverState H → Prop
  | choose {front : Int × Nat} (hloc : s.loc = .seed) (hi : s.i < n)
      (hfront : (S.sort givePriorityNode s.nodeCoverage).head? = some front) :
      StepCase G S n k s { s with
        nodeCoverage := S.sort idLess ((S.sort givePriorityNode s.nodeCoverage).modify
          increaseCoverageNode ((S.sort givePriorityNode s.nodeCoverage).length - 1))
        path := [G.getHandle front.1 false]
        forwardSuccess := true
        backwardSuccess := true
        loc := .test }
  | finish (hloc : s.loc = .seed) (hn : n ≤ s.i) : StepCase G S n k s { s with loc := .done }
  | extend (hloc : s.loc = .test)
      (hguard : (s.forwardSuccess || s.backwardSuccess) && s.path.length < s.nodeCoverage.length) :
      StepCase G S n k s { s with best := none, loc := .forward }
  | stop (hloc : s.loc = .test)
      (hguard : ((s.forwardSuccess || s.backwardSuccess) && s.path.length < s.nodeCoverage.length)
        = false) :
      StepCase G S n k s { s with loc := .insert }
  | forwardEnd {back : H} (hloc : s.loc = .forward) (hback : s.path.getLast? = some back)
      (hnil : G.followEdges back false = []) :
      StepCase G S n k s { s with forwardSuccess := false, loc := .backward }
  | forwardStep {back b : H} (hloc : s.loc = .forward) (hback : s.path.getLast? = some back)
      (hne : G.followEdges back false ≠ [])
      (hb : bestAfter G k (forwardWindow G) s (G.followEdges back false) = some b) :
      StepCase G S n k s { s with
        pathCoverage := if k ≤ s.path.length + 1 then
            increasePathCoverage s.pathCoverage (minWindow G (s.path.rtake (k - 1) ++ [b]))
          else s.pathCoverage
        nodeCoverage := bumpNode s.nodeCoverage (G.getId b)
        path := s.path ++ [b]
        forwardSuccess := true
        best := some b
        loc := if s.nodeCoverage.length ≤ s.path.length + 1 then .insert else .backward }
  | backwardEnd {front : H} (hloc : s.loc = .backward) (hfront : s.path.head? = some front)
      (hnil : G.followEdges front true = []) :
      StepCase G S n k s { s with backwardSuccess := false, loc := .test }
  | backwardStep {front b : H} (hloc : s.loc = .backward) (hfront : s.path.head? = some front)
      (hne : G.followEdges front true ≠ [])
      (hb : bestAfter G k (backwardWindow G) s (G.followEdges front true) = some b) :
      StepCase G S n k s { s with
        pathCoverage := if k ≤ s.path.length + 1 then
            increasePathCoverage s.pathCoverage (minWindow G (b :: s.path.take (k - 1)))
          else s.pathCoverage
        nodeCoverage := bumpNode s.nodeCoverage (G.getId b)
        path := b :: s.path
        backwardSuccess := true
        best := some b
        loc := .test }
  | insert (hloc : s.loc = .insert) :
      StepCase G S n k s
        { s with paths := s.paths ++ [s.path], path := [], i := s.i + 1, loc := .seed }
  | done (hloc : s.loc = .done) : StepCase G S n k s s

variable {S : StdSort (Int × Nat)} {n : Nat} {s' : CoverState H}

omit [LinearOrder H] in
theorem exists_head?_sort {l : List (Int × Nat)} (hne : l ≠ []) :
    ∃ front, (S.sort givePriorityNode l).head? = some front :=
  Option.ne_none_iff_exists'.1 fun hf => hne <| by
    rwa [List.head?_eq_none_iff, ← List.length_eq_zero,
      (S.perm _ _ strictWeakOrder_givePriorityNode).length_eq, List.length_eq_zero] at hf

variable (hr : s.loc.extending → Ready G comp s) (hk : 0 < k) (hc : ClosedComponent G comp)
include hr hk hc

/-- A step is a transition of `StepCase`, or reads `best` with nothing assigned to it. -/
theorem step_spec (hne : s.nodeCoverage ≠ []) :
    match step G S n k s with
    | .ok s' => StepCase G S n k s s'
    | .error f => f = .unassignedBest ∧
      ((s.loc = .forward ∧ ∃ back, s.path.getLast? = some back ∧ G.followEdges back false ≠ [] ∧
          bestAfter G k (forwardWindow G) s (G.followEdges back false) = none) ∨
        (s.loc = .backward ∧ ∃ front, s.path.head? = some front ∧ G.followEdges front true ≠ [] ∧
          bestAfter G k (backwardWindow G) s (G.followEdges front true) = none)) := by
  unfold step
  cases hloc : s.loc <;> dsimp only
  case seed =>
    split_ifs with hi
    · obtain ⟨front, hf⟩ := exists_head?_sort (S := S) hne
      unfold choosePath
      simp only [hf]
      exact .choose hloc hi hf
    · exact .finish hloc (by omega)
  case test =>
    unfold loopTest
    split_ifs with hg
    · exact .extend hloc hg
    · exact .stop hloc (Bool.eq_false_iff.2 hg)
  case forward =>
    have hr := hr (by rw [hloc]; rfl)
    obtain ⟨back, hback⟩ :=
      Option.ne_none_iff_exists'.1 (mt List.getLast?_eq_none_iff.1 hr.path_ne_nil)
    rw [extendForward_eq hr hk hc hback]
    by_cases hnil : G.followEdges back false = []
    · rw [if_pos hnil]
      exact .forwardEnd hloc hback hnil
    rw [if_neg hnil]
    cases hb : bestAfter G k (forwardWindow G) s (G.followEdges back false) with
    | none => exact ⟨rfl, .inl ⟨rfl, back, hback, hnil, hb⟩⟩
    | some b => exact .forwardStep hloc hback hnil hb
  case backward =>
    have hr := hr (by rw [hloc]; rfl)
    obtain ⟨front, hfront⟩ :=
      Option.ne_none_iff_exists'.1 (mt List.head?_eq_none_iff.1 hr.path_ne_nil)
    rw [extendBackward_eq hr hk hc hfront]
    by_cases hnil : G.followEdges front true = []
    · rw [if_pos hnil]
      exact .backwardEnd hloc hfront hnil
    rw [if_neg hnil]
    cases hb : bestAfter G k (backwardWindow G) s (G.followEdges front true) with
    | none => exact ⟨rfl, .inr ⟨rfl, front, hfront, hnil, hb⟩⟩
    | some b => exact .backwardStep hloc hfront hnil hb
  case insert => exact .insert hloc
  case done => exact .done hloc

theorem step_cases (hne : s.nodeCoverage ≠ []) (h : step G S n k s = .ok s') :
    StepCase G S n k s s' := by
  have := step_spec hr hk hc (S := S) (n := n) hne
  rwa [h] at this

theorem step_error {f : Fault} (hne : s.nodeCoverage ≠ []) (h : step G S n k s = .error f) :
    f = .unassignedBest ∧
      ((s.loc = .forward ∧ ∃ back, s.path.getLast? = some back ∧ G.followEdges back false ≠ [] ∧
          bestAfter G k (forwardWindow G) s (G.followEdges back false) = none) ∨
        (s.loc = .backward ∧ ∃ front, s.path.head? = some front ∧ G.followEdges front true ≠ [] ∧
          bestAfter G k (backwardWindow G) s (G.followEdges front true) = none)) := by
  have := step_spec hr hk hc (S := S) (n := n) hne
  rwa [h] at this

end GbwtGraph
