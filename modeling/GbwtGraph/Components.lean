import GbwtGraph.HandleGraph

/-! # `weakly_connected_components`

The graph is searched from each handle that `for_each_handle` visits, with a stack and the bit
vector `found` indexed by `id - min_id`. A read of `found` outside the vector is undefined
behaviour in the code; the model returns `none` there.
-/

namespace GbwtGraph

variable {H : Type}

/-- `found[i]` of the `sdsl::bit_vector`; `none` outside the vector. -/
def bitAt (found : List Bool) (i : Int) : Option Bool :=
  if 0 ≤ i then found[i.toNat]? else none

variable (G : HandleGraph H)

/-- The iterations of the `while` loop that `continue`: handles of `found` nodes are popped. -/
def popFound (found : List Bool) : List H → Option (List H)
  | [] => some []
  | h :: handles =>
    match bitAt found (G.getId h - G.minNodeId) with
    | none => none
    | some true => popFound found handles
    | some false => some (h :: handles)

/-- The `while` loop of `weakly_connected_components`, with the bits not set as fuel. -/
def explore : Nat → List Bool → List Int → List H → Option (List Bool × List Int)
  | marks, found, component, handles =>
    match popFound G found handles, marks with
    | none, _ => none
    | some [], _ => some (found, component)
    | some (_ :: _), 0 => none
    | some (h :: rest), marks + 1 =>
      explore marks (found.set (G.getId h - G.minNodeId).toNat true) (component ++ [G.getId h])
        ((G.followEdges h false ++ G.followEdges h true).reverse ++ rest)

/-- The callback of `for_each_handle`: a node not yet `found` starts a component. -/
def visitHandle (state : Option (List Bool × List (List Int))) (handle : H) :
    Option (List Bool × List (List Int)) := do
  let (found, components) ← state
  let seen ← bitAt found (G.getId handle - G.minNodeId)
  if seen then some (found, components)
  else do
    let (found, component) ← explore G (found.count false) found [] [handle]
    some (found, components ++ [component])

def weaklyConnectedComponents : Option (List (List Int)) :=
  (G.forEachHandle.foldl (visitHandle G)
    (some (List.replicate (G.maxNodeId + 1 - G.minNodeId).toNat false, []))).map Prod.snd

/-! ## The bit vector -/

theorem bitAt_eq_some {found : List Bool} {i : Int} {b : Bool} :
    bitAt found i = some b ↔ ∃ h : i.toNat < found.length, 0 ≤ i ∧ found[i.toNat] = b := by
  unfold bitAt
  split
  · rw [List.getElem?_eq_some_iff]
    exact ⟨fun ⟨h, e⟩ => ⟨h, by assumption, e⟩, fun ⟨h, _, e⟩ => ⟨h, e⟩⟩
  · simp_all

theorem bitAt_isSome {found : List Bool} {i : Int} (h0 : 0 ≤ i) (hi : i.toNat < found.length) :
    ∃ b, bitAt found i = some b :=
  ⟨found[i.toNat], bitAt_eq_some.2 ⟨hi, h0, rfl⟩⟩

theorem bitAt_set_self {found : List Bool} {i : Int} {b : Bool} (h : bitAt found i = some b) :
    bitAt (found.set i.toNat true) i = some true := by
  obtain ⟨hi, h0, -⟩ := bitAt_eq_some.1 h
  exact bitAt_eq_some.2 ⟨by simpa using hi, h0, by simp⟩

theorem bitAt_set_of_ne {found : List Bool} {i j : Int} (h0 : 0 ≤ i) (hj : 0 ≤ j) (hne : j ≠ i)
    (v : Bool) : bitAt (found.set i.toNat v) j = bitAt found j := by
  have : j.toNat ≠ i.toNat := by omega
  simp [bitAt, hj, List.getElem?_set, Ne.symm this]

theorem count_set_of_bitAt {found : List Bool} {i : Int} (h : bitAt found i = some false) :
    (found.set i.toNat true).count false + 1 = found.count false := by
  obtain ⟨hi, -, hb⟩ := bitAt_eq_some.1 h
  have hpos : 0 < found.count false := List.count_pos_iff.2 (hb ▸ List.getElem_mem hi)
  rw [List.count_set _ _ _ _ hi]
  simp [hb]
  omega

theorem bitAt_ne_false_of_count {found : List Bool} (h0 : found.count false = 0) (i : Int) :
    bitAt found i ≠ some false := by
  intro h
  obtain ⟨hi, -, hb⟩ := bitAt_eq_some.1 h
  exact (List.count_eq_zero.1 h0) (hb ▸ List.getElem_mem hi)

theorem bitAt_set_iff {found : List Bool} {i j : Int} {b : Bool} (h : bitAt found i = some b) :
    bitAt (found.set i.toNat true) j = some true ↔ j = i ∨ bitAt found j = some true := by
  by_cases hji : j = i
  · simp [hji, bitAt_set_self h]
  by_cases hj : 0 ≤ j
  · rw [bitAt_set_of_ne (bitAt_eq_some.1 h).2.1 hj hji]
    simp [hji]
  · simp [bitAt, hj, hji]

/-! ## One search -/

variable {G}

theorem bitAt_node (hG : G.WellFormed) {found : List Bool}
    (hlen : found.length = (G.maxNodeId + 1 - G.minNodeId).toNat) {x : Int} (hx : x ∈ G.nodeIds) :
    ∃ b, bitAt found (x - G.minNodeId) = some b := by
  have := hG.id_range x hx
  exact bitAt_isSome (by omega) (by omega)

theorem popFound_spec {found : List Bool} :
    ∀ {handles : List H}, (∀ h ∈ handles, ∃ b, bitAt found (G.getId h - G.minNodeId) = some b) →
      ∃ rest, popFound G found handles = some rest ∧ rest <:+ handles ∧
        (∀ h ∈ handles, h ∈ rest ∨ bitAt found (G.getId h - G.minNodeId) = some true) ∧
        ∀ t r, rest = t :: r → bitAt found (G.getId t - G.minNodeId) = some false
  | [], _ => ⟨[], rfl, List.suffix_refl _, by simp, by simp⟩
  | h :: handles, hr => by
    obtain ⟨b, hb⟩ := hr h (List.mem_cons_self _ _)
    cases b with
    | true =>
      obtain ⟨rest, hpop, hsuf, hpopped, htop⟩ :=
        popFound_spec fun h' h'm => hr h' (List.mem_cons_of_mem _ h'm)
      refine ⟨rest, by simp [popFound, hb, hpop], hsuf.trans (List.suffix_cons _ _), ?_, htop⟩
      simpa [hb] using hpopped
    | false =>
      exact ⟨h :: handles, by simp [popFound, hb], List.suffix_refl _, fun x hx => .inl hx,
        by simp_all⟩

/-- What the search from `start` keeps, beside the components `prior` found before it. -/
structure SearchInv (G : HandleGraph H) (start : Int) (prior : List Int) (found : List Bool)
    (component : List Int) (handles : List H) : Prop where
  length_found : found.length = (G.maxNodeId + 1 - G.minNodeId).toNat
  found_iff : ∀ x, bitAt found (x - G.minNodeId) = some true ↔ x ∈ prior ∨ x ∈ component
  nodup : component.Nodup
  disjoint : ∀ x ∈ component, x ∉ prior
  nodes : ∀ x ∈ component, x ∈ G.nodeIds
  stack_nodes : ∀ h ∈ handles, G.getId h ∈ G.nodeIds
  connected : ∀ x ∈ component, G.Connected start x
  stack_connected : ∀ h ∈ handles, G.Connected start (G.getId h)
  start_seen : start ∈ prior ∨ start ∈ component ∨ ∃ h ∈ handles, G.getId h = start
  pending : ∀ x ∈ component, ∀ y, G.Linked x y →
    y ∈ prior ∨ y ∈ component ∨ ∃ h ∈ handles, G.getId h = y

namespace SearchInv

variable {start : Int} {prior : List Int} {found : List Bool} {component : List Int}
  {handles rest : List H}

theorem pop (inv : SearchInv G start prior found component handles) (hsuf : rest <:+ handles)
    (hpopped : ∀ h ∈ handles, h ∈ rest ∨ bitAt found (G.getId h - G.minNodeId) = some true) :
    SearchInv G start prior found component rest := by
  -- A handle that was popped has a found node, so its id is in `prior` or the component.
  have hseen : ∀ y, (∃ h ∈ handles, G.getId h = y) →
      y ∈ prior ∨ y ∈ component ∨ ∃ h ∈ rest, G.getId h = y := by
    rintro y ⟨h, hh, rfl⟩
    rcases hpopped h hh with hr | hf
    · exact .inr (.inr ⟨h, hr, rfl⟩)
    · exact ((inv.found_iff _).1 hf).elim .inl (.inr ∘ .inl)
  refine ⟨inv.length_found, inv.found_iff, inv.nodup, inv.disjoint, inv.nodes,
    fun h hh => inv.stack_nodes h (hsuf.subset hh), inv.connected,
    fun h hh => inv.stack_connected h (hsuf.subset hh), ?_, ?_⟩
  · rcases inv.start_seen with h | h | h
    · exact .inl h
    · exact .inr (.inl h)
    · exact hseen _ h
  · intro x hx y hxy
    rcases inv.pending x hx y hxy with h | h | h
    · exact .inl h
    · exact .inr (.inl h)
    · exact hseen _ h

theorem visit (hG : G.WellFormed) {h : H}
    (inv : SearchInv G start prior found component (h :: rest))
    (hnew : bitAt found (G.getId h - G.minNodeId) = some false) :
    SearchInv G start prior (found.set (G.getId h - G.minNodeId).toNat true)
      (component ++ [G.getId h])
      ((G.followEdges h false ++ G.followEdges h true).reverse ++ rest) := by
  have hh : h ∈ h :: rest := List.mem_cons_self _ _
  have hold : G.getId h ∉ prior ∧ G.getId h ∉ component :=
    not_or.1 ((inv.found_iff (G.getId h)).not.1 (by rw [hnew]; simp))
  have hpush : ∀ p ∈ G.followEdges h false ++ G.followEdges h true,
      G.getId p ∈ G.nodeIds ∧ G.Linked (G.getId h) (G.getId p) := by
    intro p hp
    rcases List.mem_append.1 hp with hp | hp
    · exact ⟨hG.edge_closed h _ p (inv.stack_nodes h hh) hp, hG.linked_of_mem hp⟩
    · exact ⟨hG.edge_closed h _ p (inv.stack_nodes h hh) hp, hG.linked_of_mem hp⟩
  refine ⟨by simpa using inv.length_found, fun x => ?_, ?_, ?_, ?_, ?_, ?_, ?_, ?_, ?_⟩
  · have e : x - G.minNodeId = G.getId h - G.minNodeId ↔ x = G.getId h := by omega
    rw [bitAt_set_iff hnew, inv.found_iff, e]
    simp only [List.mem_append, List.mem_singleton]
    exact or_comm.trans or_assoc
  · exact List.nodup_append.2 ⟨inv.nodup, by simp, by simpa using hold.2⟩
  · simp only [List.mem_append, List.mem_singleton]
    rintro x (hx | rfl)
    · exact inv.disjoint x hx
    · exact hold.1
  · simp only [List.mem_append, List.mem_singleton]
    rintro x (hx | rfl)
    · exact inv.nodes x hx
    · exact inv.stack_nodes h hh
  · simp only [List.mem_append, List.mem_reverse]
    rintro p (hp | hp)
    · exact (hpush p (List.mem_append.2 hp)).1
    · exact inv.stack_nodes p (List.mem_cons_of_mem _ hp)
  · simp only [List.mem_append, List.mem_singleton]
    rintro x (hx | rfl)
    · exact inv.connected x hx
    · exact inv.stack_connected h hh
  · simp only [List.mem_append, List.mem_reverse]
    rintro p (hp | hp)
    · exact (inv.stack_connected h hh).tail (hpush p (List.mem_append.2 hp)).2
    · exact inv.stack_connected p (List.mem_cons_of_mem _ hp)
  · rcases inv.start_seen with hs | hs | ⟨h', hh', rfl⟩
    · exact .inl hs
    · exact .inr (.inl (List.mem_append_left _ hs))
    · rcases List.mem_cons.1 hh' with rfl | hr
      · exact .inr (.inl (by simp))
      · exact .inr (.inr ⟨h', by simp [hr], rfl⟩)
  · intro x hx y hxy
    rcases List.mem_append.1 hx with hx | hx
    · rcases inv.pending x hx y hxy with hy | hy | ⟨h', hh', rfl⟩
      · exact .inl hy
      · exact .inr (.inl (List.mem_append_left _ hy))
      · rcases List.mem_cons.1 hh' with rfl | hr
        · exact .inr (.inl (by simp))
        · exact .inr (.inr ⟨h', by simp [hr], rfl⟩)
    · -- The new node: its neighbours were just pushed.
      obtain rfl := List.mem_singleton.1 hx
      obtain ⟨p, hp, rfl⟩ := hG.exists_mem_followEdges_of_linked hxy
      exact .inr (.inr ⟨p, List.mem_append_left _ (List.mem_reverse.2 hp), rfl⟩)

end SearchInv

theorem explore_spec (hG : G.WellFormed) {start : Int} {prior : List Int} (marks : Nat) :
    ∀ {found : List Bool} {component : List Int} {handles : List H},
      SearchInv G start prior found component handles → marks = found.count false →
      ∃ found' component', explore G marks found component handles = some (found', component') ∧
        SearchInv G start prior found' component' [] := by
  induction marks with
  | zero =>
    intro found component handles inv hmarks
    obtain ⟨rest, hpop, hsuf, hpopped, htop⟩ := popFound_spec fun h hh =>
      bitAt_node hG inv.length_found (inv.stack_nodes h hh)
    cases rest with
    | nil => exact ⟨found, component, by unfold explore; rw [hpop], inv.pop hsuf hpopped⟩
    | cons t r => exact absurd (htop t r rfl) (bitAt_ne_false_of_count hmarks.symm _)
  | succ marks ih =>
    intro found component handles inv hmarks
    obtain ⟨rest, hpop, hsuf, hpopped, htop⟩ := popFound_spec fun h hh =>
      bitAt_node hG inv.length_found (inv.stack_nodes h hh)
    cases rest with
    | nil => exact ⟨found, component, by unfold explore; rw [hpop], inv.pop hsuf hpopped⟩
    | cons t r =>
      have hnew := htop t r rfl
      unfold explore
      rw [hpop]
      exact ih ((inv.pop hsuf hpopped).visit hG hnew) (by have := count_set_of_bitAt hnew; omega)

/-! ## All components -/

/-- The components so far: the set bits, split into nonempty, closed and connected sets. -/
structure ComponentsInv (G : HandleGraph H) (found : List Bool) (components : List (List Int)) :
    Prop where
  length_found : found.length = (G.maxNodeId + 1 - G.minNodeId).toNat
  found_iff : ∀ x, bitAt found (x - G.minNodeId) = some true ↔ x ∈ components.flatten
  nodup : components.flatten.Nodup
  ne_nil : ∀ c ∈ components, c ≠ []
  nodes : ∀ x ∈ components.flatten, x ∈ G.nodeIds
  closed : ∀ c ∈ components, ∀ x ∈ c, ∀ y, G.Linked x y → y ∈ c
  connected : ∀ c ∈ components, ∀ x ∈ c, ∀ y ∈ c, G.Connected x y

theorem componentsInv_init :
    ComponentsInv G (List.replicate (G.maxNodeId + 1 - G.minNodeId).toNat false) [] := by
  refine ⟨by simp, fun x => ?_, by simp, by simp, by simp, by simp, by simp⟩
  simp only [List.flatten_nil, List.not_mem_nil, iff_false]
  intro h
  obtain ⟨hi, -, hb⟩ := bitAt_eq_some.1 h
  simp at hb

theorem visitHandle_spec (hG : G.WellFormed) {found : List Bool} {components : List (List Int)}
    (inv : ComponentsInv G found components) {handle : H} (hh : G.getId handle ∈ G.nodeIds) :
    ∃ found' components', visitHandle G (some (found, components)) handle =
        some (found', components') ∧ ComponentsInv G found' components' ∧
      (∀ x ∈ components.flatten, x ∈ components'.flatten) ∧
      G.getId handle ∈ components'.flatten := by
  obtain ⟨b, hb⟩ := bitAt_node hG inv.length_found hh
  cases b with
  | true =>
    exact ⟨found, components, by simp [visitHandle, hb], inv, fun _ => id, (inv.found_iff _).1 hb⟩
  | false =>
    have hnew : G.getId handle ∉ components.flatten := fun h => by
      rw [← inv.found_iff, hb] at h; cases h
    have start : SearchInv G (G.getId handle) components.flatten found [] [handle] :=
      ⟨inv.length_found, by simpa using inv.found_iff, List.nodup_nil, by simp, by simp,
        by simpa using hh, by simp, by simpa using Relation.ReflTransGen.refl,
        .inr (.inr ⟨handle, List.mem_singleton_self _, rfl⟩), by simp⟩
    obtain ⟨found', component, hexp, sinv⟩ := explore_spec hG _ start rfl
    have hstart : G.getId handle ∈ component := by
      rcases sinv.start_seen with h | h | ⟨_, h, _⟩
      · exact absurd h hnew
      · exact h
      · cases h
    refine ⟨found', components ++ [component], by simp [visitHandle, hb, hexp], ⟨sinv.length_found,
      fun x => by simp [sinv.found_iff], ?_, ?_, ?_, ?_, ?_⟩, by simp_all, by simp [hstart]⟩
    · simp only [List.flatten_append, List.flatten_cons, List.flatten_nil, List.append_nil]
      exact List.nodup_append.2 ⟨inv.nodup, sinv.nodup, fun x hx hx' => sinv.disjoint x hx' hx⟩
    · simp only [List.mem_append, List.mem_singleton]
      rintro c (hc | rfl)
      · exact inv.ne_nil c hc
      · exact List.ne_nil_of_mem hstart
    · simp only [List.flatten_append, List.mem_append, List.flatten_cons, List.flatten_nil,
        List.append_nil]
      rintro x (hx | hx)
      · exact inv.nodes x hx
      · exact sinv.nodes x hx
    · simp only [List.mem_append, List.mem_singleton]
      rintro c (hc | rfl) x hx y hxy
      · exact inv.closed c hc x hx y hxy
      · rcases sinv.pending x hx y hxy with hy | hy | ⟨_, h, _⟩
        · -- A node of an earlier component would have put `x` in that component too.
          obtain ⟨c', hc', hyc'⟩ := List.mem_flatten.1 hy
          exact absurd (List.mem_flatten.2
            ⟨c', hc', inv.closed c' hc' y hyc' x (HandleGraph.linked_symm hxy)⟩)
            (sinv.disjoint x hx)
        · exact hy
        · cases h
    · simp only [List.mem_append, List.mem_singleton]
      rintro c (hc | rfl) x hx y hy
      · exact inv.connected c hc x hx y hy
      · exact (sinv.connected x hx).symm.trans (sinv.connected y hy)

theorem foldl_visitHandle (hG : G.WellFormed) :
    ∀ (handles : List H), (∀ h ∈ handles, G.getId h ∈ G.nodeIds) →
      ∀ {found : List Bool} {components : List (List Int)}, ComponentsInv G found components →
      ∃ found' components', handles.foldl (visitHandle G) (some (found, components)) =
          some (found', components') ∧ ComponentsInv G found' components' ∧
        (∀ x ∈ components.flatten, x ∈ components'.flatten) ∧
        ∀ h ∈ handles, G.getId h ∈ components'.flatten
  | [], _, found, components, inv => ⟨found, components, rfl, inv, fun _ => id, by simp⟩
  | h :: handles, hh, _, _, inv => by
    obtain ⟨found₁, components₁, hv, inv₁, hsub₁, hmem₁⟩ :=
      visitHandle_spec hG inv (hh h (List.mem_cons_self _ _))
    obtain ⟨found', components', hf, inv', hsub, hmem⟩ :=
      foldl_visitHandle hG handles (fun h' h'm => hh h' (List.mem_cons_of_mem _ h'm)) inv₁
    refine ⟨found', components', by rw [List.foldl_cons, hv, hf], inv',
      fun x hx => hsub x (hsub₁ x hx), ?_⟩
    rintro h' (_ | ⟨_, h'm⟩)
    · exact hsub _ hmem₁
    · exact hmem h' h'm

/-- A partition of the node ids into components, two ids together exactly when connected. -/
theorem weaklyConnectedComponents_partition (hG : G.WellFormed) :
    ∃ components, weaklyConnectedComponents G = some components ∧
      components.flatten.Perm G.nodeIds ∧ (∀ c ∈ components, c ≠ []) ∧
      ∀ x ∈ G.nodeIds, ∀ y ∈ G.nodeIds, (∃ c ∈ components, x ∈ c ∧ y ∈ c) ↔ G.Connected x y := by
  obtain ⟨found, components, hf, inv, -, hall⟩ := foldl_visitHandle hG G.forEachHandle
    (fun h hh => List.mem_map_of_mem _ hh) componentsInv_init
  have hnodes : ∀ x ∈ G.nodeIds, x ∈ components.flatten := by
    intro x hx
    obtain ⟨h, hh, rfl⟩ := List.mem_map.1 hx
    exact hall h hh
  refine ⟨components, by simp [weaklyConnectedComponents, hf], ?_, inv.ne_nil, ?_⟩
  · exact (List.perm_ext_iff_of_nodup inv.nodup hG.nodup_nodeIds).2 fun x =>
      ⟨inv.nodes x, hnodes x⟩
  · rintro x hx y -
    refine ⟨fun ⟨c, hc, hxc, hyc⟩ => inv.connected c hc x hxc y hyc, fun hxy => ?_⟩
    obtain ⟨c, hc, hxc⟩ := List.mem_flatten.1 (hnodes x hx)
    refine ⟨c, hc, hxc, ?_⟩
    induction hxy with
    | refl => exact hxc
    | tail _ hlink ih => exact inv.closed c hc _ ih _ hlink

theorem weaklyConnectedComponents_partition_twoSources :
    twoSourcesGraph.WellFormed ∧ ∃ components,
      weaklyConnectedComponents twoSourcesGraph = some components ∧
      components.flatten.Perm twoSourcesGraph.nodeIds ∧ (∀ c ∈ components, c ≠ []) ∧
      ∀ x ∈ twoSourcesGraph.nodeIds, ∀ y ∈ twoSourcesGraph.nodeIds,
        (∃ c ∈ components, x ∈ c ∧ y ∈ c) ↔ twoSourcesGraph.Connected x y :=
  ⟨twoSourcesGraph_wellFormed, weaklyConnectedComponents_partition twoSourcesGraph_wellFormed⟩

/-- What the path cover needs of a component: nonempty, no id twice, closed under edges. -/
structure ClosedComponent (G : HandleGraph H) (component : List Int) : Prop where
  ne_nil : component ≠ []
  nodup : component.Nodup
  subset : ∀ x ∈ component, x ∈ G.nodeIds
  closed : ∀ h b p, G.getId h ∈ component → p ∈ G.followEdges h b → G.getId p ∈ component

theorem weaklyConnectedComponents_isSome (hG : G.WellFormed) :
    ∃ components, weaklyConnectedComponents G = some components := by
  obtain ⟨found, components, hf, -⟩ := foldl_visitHandle hG G.forEachHandle
    (fun h hh => List.mem_map_of_mem _ hh) componentsInv_init
  exact ⟨components, by simp [weaklyConnectedComponents, hf]⟩

theorem ClosedComponent.length_le (hG : G.WellFormed) {c : List Int} (hc : ClosedComponent G c) :
    c.length ≤ G.getNodeCount := by
  have := (hc.nodup.subperm hc.subset).length_le
  simp only [HandleGraph.nodeIds, List.length_map] at this
  rw [hG.nodeCount_eq]
  exact this

theorem closedComponent_of_mem (hG : G.WellFormed) {components : List (List Int)}
    (hw : weaklyConnectedComponents G = some components) {c : List Int} (hc : c ∈ components) :
    ClosedComponent G c := by
  obtain ⟨found, components', hf, inv, -, -⟩ := foldl_visitHandle hG G.forEachHandle
    (fun h hh => List.mem_map_of_mem _ hh) componentsInv_init
  obtain rfl : components' = components := by simpa [weaklyConnectedComponents, hf] using hw
  exact ⟨inv.ne_nil c hc, (List.nodup_flatten.1 inv.nodup).1 c hc,
    fun x hx => inv.nodes x (List.mem_flatten_of_mem hc hx),
    fun h b p hh hp => inv.closed c hc _ hh _ (hG.linked_of_mem hp)⟩

end GbwtGraph
