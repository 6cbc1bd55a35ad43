import Mathlib

/-! # The `HandleGraph` interface that `path_cover.cpp` reads

A handle is an oriented reference to a node. The code only uses the interface, so the
handle type `H` is a parameter and the graph is the record of the methods it calls.
-/

namespace GbwtGraph

/-- The methods of `HandleGraph` that `path_cover.cpp` calls; the lists are in callback order. -/
structure HandleGraph (H : Type) where
  minNodeId : Int
  maxNodeId : Int
  getNodeCount : Nat
  forEachHandle : List H
  getId : H → Int
  getIsReverse : H → Bool
  getHandle : Int → Bool → H
  flip : H → H
  followEdges : H → Bool → List H

variable {H : Type}

namespace HandleGraph

def nodeIds (G : HandleGraph H) : List Int := G.forEachHandle.map G.getId

def Adjacent (G : HandleGraph H) (x y : Int) : Prop :=
  ∃ h p, G.getId h = x ∧ p ∈ G.followEdges h false ∧ G.getId p = y

def Linked (G : HandleGraph H) (x y : Int) : Prop := G.Adjacent x y ∨ G.Adjacent y x

def Connected (G : HandleGraph H) : Int → Int → Prop := Relation.ReflTransGen G.Linked

theorem linked_symm {G : HandleGraph H} {x y : Int} (h : G.Linked x y) : G.Linked y x := h.symm

theorem Connected.symm {G : HandleGraph H} {x y : Int} (h : G.Connected x y) : G.Connected y x :=
  Relation.ReflTransGen.symmetric (fun _ _ => linked_symm) h

/-- A bidirected graph behind the interface, its edges between ids in the id range. -/
structure WellFormed (G : HandleGraph H) : Prop where
  flip_flip : ∀ h, G.flip (G.flip h) = h
  getId_flip : ∀ h, G.getId (G.flip h) = G.getId h
  eq_or_eq_flip : ∀ h h', G.getId h = G.getId h' → h = h' ∨ h = G.flip h'
  getId_getHandle : ∀ id ∈ G.nodeIds, ∀ b, G.getId (G.getHandle id b) = id
  mem_left_iff : ∀ h p, p ∈ G.followEdges h true ↔ h ∈ G.followEdges p false
  mem_flip_iff : ∀ h p, p ∈ G.followEdges (G.flip h) false ↔ G.flip p ∈ G.followEdges h true
  nodup_nodeIds : G.nodeIds.Nodup
  nodeCount_eq : G.getNodeCount = G.forEachHandle.length
  id_range : ∀ x ∈ G.nodeIds, G.minNodeId ≤ x ∧ x ≤ G.maxNodeId
  edge_closed : ∀ h b p, G.getId h ∈ G.nodeIds → p ∈ G.followEdges h b → G.getId p ∈ G.nodeIds

def IsWalk (G : HandleGraph H) : List H → Prop
  | [] => True
  | [_] => True
  | h :: h' :: rest => h' ∈ G.followEdges h false ∧ G.IsWalk (h' :: rest)

@[simp] theorem isWalk_nil (G : HandleGraph H) : G.IsWalk [] := trivial

@[simp] theorem isWalk_singleton (G : HandleGraph H) (h : H) : G.IsWalk [h] := trivial

@[simp] theorem isWalk_cons_cons (G : HandleGraph H) (h h' : H) (rest : List H) :
    G.IsWalk (h :: h' :: rest) ↔ h' ∈ G.followEdges h false ∧ G.IsWalk (h' :: rest) := Iff.rfl

theorem IsWalk.cons {G : HandleGraph H} {b : H} {p : List H} (hp : G.IsWalk p)
    (hb : ∀ f, p.head? = some f → f ∈ G.followEdges b false) : G.IsWalk (b :: p) := by
  cases p with
  | nil => trivial
  | cons f rest => exact ⟨hb f rfl, hp⟩

theorem IsWalk.append_singleton {G : HandleGraph H} {b : H} :
    ∀ {p : List H}, G.IsWalk p → (∀ l, p.getLast? = some l → b ∈ G.followEdges l false) →
      G.IsWalk (p ++ [b])
  | [], _, _ => trivial
  | [a], _, hb => ⟨hb a rfl, trivial⟩
  | a :: a' :: rest, ⟨ha, hp⟩, hb =>
    ⟨ha, IsWalk.append_singleton hp fun l hl => hb l (by simpa [List.getLast?_cons_cons] using hl)⟩

namespace WellFormed

variable {G : HandleGraph H} (hG : G.WellFormed)
include hG

theorem mem_flip_left_iff (h p : H) :
    p ∈ G.followEdges (G.flip h) true ↔ G.flip p ∈ G.followEdges h false :=
  calc p ∈ G.followEdges (G.flip h) true ↔ G.flip h ∈ G.followEdges p false := hG.mem_left_iff _ _
    _ ↔ h ∈ G.followEdges (G.flip p) true := by
      simpa only [hG.flip_flip] using hG.mem_flip_iff (G.flip p) (G.flip h)
    _ ↔ G.flip p ∈ G.followEdges h false := hG.mem_left_iff _ _

theorem linked_of_mem {h p : H} {b : Bool} (hp : p ∈ G.followEdges h b) :
    G.Linked (G.getId h) (G.getId p) := by
  cases b with
  | false => exact .inl ⟨h, p, rfl, hp, rfl⟩
  | true => exact .inr ⟨p, h, rfl, (hG.mem_left_iff h p).1 hp, rfl⟩

theorem exists_mem_followEdges_of_linked {h : H} {y : Int} (hy : G.Linked (G.getId h) y) :
    ∃ p ∈ G.followEdges h false ++ G.followEdges h true, G.getId p = y := by
  rcases hy with ⟨h', p, hh', hp, rfl⟩ | ⟨h', p, rfl, hp, hph⟩
  · rcases hG.eq_or_eq_flip h' h hh' with rfl | rfl
    · exact ⟨p, List.mem_append_left _ hp, rfl⟩
    · exact ⟨G.flip p, List.mem_append_right _ ((hG.mem_flip_iff h p).1 hp), hG.getId_flip p⟩
  · rcases hG.eq_or_eq_flip p h hph with rfl | rfl
    · exact ⟨h', List.mem_append_right _ ((hG.mem_left_iff p h').2 hp), rfl⟩
    · refine ⟨G.flip h', List.mem_append_left _ ?_, hG.getId_flip h'⟩
      exact (hG.mem_flip_left_iff h h').1 ((hG.mem_left_iff (G.flip h) h').2 hp)

end WellFormed

/-! ## Graphs given by their edges -/

/-- `flip` of a handle packed as `2 * id + is_reverse`. -/
def packedFlip (h : Int) : Int := if h % 2 = 0 then h + 1 else h - 1

def ofEdges (minId maxId : Int) (ids : List Int) (edges : List (Int × Int)) : HandleGraph Int where
  minNodeId := minId
  maxNodeId := maxId
  getNodeCount := ids.length
  forEachHandle := ids.map (2 * ·)
  getId h := h / 2
  getIsReverse h := h % 2 = 1
  getHandle id b := 2 * id + if b then 1 else 0
  flip := packedFlip
  followEdges h b :=
    if b then (edges.filter (·.2 = h)).map Prod.fst else (edges.filter (·.1 = h)).map Prod.snd

section OfEdges

variable {minId maxId : Int} {ids : List Int} {edges : List (Int × Int)}

@[simp] theorem nodeIds_ofEdges : (ofEdges minId maxId ids edges).nodeIds = ids := by
  simp [nodeIds, ofEdges, Function.comp_def]

theorem packedFlip_packedFlip (h : Int) : packedFlip (packedFlip h) = h := by
  unfold packedFlip; split_ifs <;> omega

theorem mem_followEdges_ofEdges {h p : Int} {b : Bool} :
    p ∈ (ofEdges minId maxId ids edges).followEdges h b ↔
      (if b then (p, h) else (h, p)) ∈ edges := by
  cases b <;> simp [ofEdges, and_comm]

theorem ofEdges_wellFormed (hnodup : ids.Nodup) (hrange : ∀ x ∈ ids, minId ≤ x ∧ x ≤ maxId)
    (hflip : ∀ e ∈ edges, (packedFlip e.2, packedFlip e.1) ∈ edges)
    (hends : ∀ e ∈ edges, e.1 / 2 ∈ ids ∧ e.2 / 2 ∈ ids) :
    (ofEdges minId maxId ids edges).WellFormed where
  flip_flip := packedFlip_packedFlip
  getId_flip h := by simp only [ofEdges, packedFlip]; split_ifs <;> omega
  eq_or_eq_flip h h' hid := by simp only [ofEdges, packedFlip] at hid ⊢; split_ifs <;> omega
  getId_getHandle id _ b := by simp only [ofEdges]; split_ifs <;> omega
  mem_left_iff h p := by simp only [mem_followEdges_ofEdges, if_true, if_false, Bool.false_eq_true]
  mem_flip_iff h p := by
    simp only [mem_followEdges_ofEdges, if_true, if_false, Bool.false_eq_true]
    exact ⟨fun he => packedFlip_packedFlip h ▸ hflip _ he,
      fun he => packedFlip_packedFlip p ▸ hflip _ he⟩
  nodup_nodeIds := by simpa using hnodup
  nodeCount_eq := by simp [ofEdges]
  id_range := by simpa using hrange
  edge_closed h b p _ hp := by
    rw [mem_followEdges_ofEdges] at hp
    rw [nodeIds_ofEdges]
    cases b
    · exact (hends _ hp).2
    · exact (hends _ hp).1

end OfEdges

end HandleGraph

/-- Nodes `1` and `2` each have an edge into node `3`. -/
def twoSourcesGraph : HandleGraph Int :=
  HandleGraph.ofEdges 1 3 [1, 2, 3] [(2, 6), (4, 6), (7, 3), (7, 5)]

theorem twoSourcesGraph_wellFormed : twoSourcesGraph.WellFormed :=
  HandleGraph.ofEdges_wellFormed (by decide) (by decide) (by decide) (by decide)

/-- An edge from node `1` to node `2`; `for_each_handle` lists node `2` first. -/
def twoNodesGraph : HandleGraph Int :=
  HandleGraph.ofEdges 1 2 [2, 1] [(2, 4), (5, 3)]

theorem twoNodesGraph_wellFormed : twoNodesGraph.WellFormed :=
  HandleGraph.ofEdges_wellFormed (by decide) (by decide) (by decide) (by decide)

end GbwtGraph
