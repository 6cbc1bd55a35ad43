import Mathlib

/-! # `SimpleCoverage` and the standard library calls around it

Counters are `size_t`, so an increment wraps at `2 ^ 64`. A node coverage entry is
`std::pair<nid_t, size_t>`, here `Int × Nat`.
-/

namespace GbwtGraph

/-! ## `SimpleCoverage` -/

def noCoverage : Nat := 0

/-- `SimpleCoverage::worst_coverage()`: the largest `size_t`. -/
def worstCoverage : Nat := 2 ^ 64 - 1

def increaseCoverage (coverage : Nat) : Nat := (coverage + 1) % 2 ^ 64

def increaseCoverageNode (node : Int × Nat) : Int × Nat := (node.1, increaseCoverage node.2)

def givePriority (a b : Nat) : Bool := a < b

def givePriorityNode (a b : Int × Nat) : Bool := givePriority a.2 b.2

/-- `operator<` of `std::pair`. -/
def pairLess (a b : Int × Nat) : Bool := a.1 < b.1 || (!decide (b.1 < a.1) && a.2 < b.2)

/-- `find_first`: `std::lower_bound`, then its two asserts; `none` is a failed assert. -/
def findFirst (array : List (Int × Nat)) (id : Int) : Option (Fin array.length) :=
  let i := array.findIdx fun e => !pairLess e (id, noCoverage)
  if h : i < array.length then
    if array[i].1 = id then some ⟨i, h⟩ else none
  else none

@[simp] theorem increaseCoverageNode_fst (node : Int × Nat) :
    (increaseCoverageNode node).1 = node.1 := rfl

theorem increaseCoverage_of_lt {c : Nat} (h : c + 1 < 2 ^ 64) : increaseCoverage c = c + 1 :=
  Nat.mod_eq_of_lt h

def idLess (a b : Int × Nat) : Bool := a.1 < b.1

def SortedById (array : List (Int × Nat)) : Prop := array.Sorted fun a b => a.1 < b.1

theorem findFirst_of_sortedById {array : List (Int × Nat)} {id : Int} (hs : SortedById array)
    (hid : id ∈ array.map Prod.fst) :
    ∃ i, findFirst array id = some i ∧ array[i].1 = id := by
  obtain ⟨e, he, rfl⟩ := List.mem_map.1 hid
  obtain ⟨j, hj, rfl⟩ := List.getElem_of_mem he
  -- Every entry before `j` has a smaller id, and entry `j` is the one looked up.
  have hidx : array.findIdx (fun e' => !pairLess e' (array[j].1, noCoverage)) = j := by
    rw [List.findIdx_eq hj]
    refine ⟨by simp [pairLess, noCoverage], fun i hi => ?_⟩
    have := List.Sorted.rel_get_of_lt hs (a := ⟨i, by omega⟩) (b := ⟨j, hj⟩) hi
    simp only [List.get_eq_getElem] at this
    simp [pairLess, this]
  exact ⟨⟨j, hj⟩, by simp [findFirst, hidx, hj], rfl⟩

def coverageOf (array : List (Int × Nat)) (id : Int) : Nat :=
  ((array.find? fun e => e.1 = id).map Prod.snd).getD noCoverage

theorem SortedById.eq_of_fst_eq {array : List (Int × Nat)} (hs : SortedById array)
    {e e' : Int × Nat} (he : e ∈ array) (he' : e' ∈ array) (h : e.1 = e'.1) : e = e' := by
  induction array with
  | nil => cases he
  | cons a l ih =>
    have hs' := List.sorted_cons.1 hs
    rcases List.mem_cons.1 he with rfl | hl
    · rcases List.mem_cons.1 he' with rfl | hl'
      · rfl
      · exact absurd h (ne_of_lt (hs'.1 e' hl'))
    · rcases List.mem_cons.1 he' with rfl | hl'
      · exact absurd h.symm (ne_of_lt (hs'.1 e hl))
      · exact ih hs'.2 hl hl'

theorem coverageOf_of_mem {array : List (Int × Nat)} (hs : SortedById array) {e : Int × Nat}
    (he : e ∈ array) : coverageOf array e.1 = e.2 := by
  obtain ⟨e', he'⟩ : ∃ e', array.find? (fun x => x.1 = e.1) = some e' :=
    Option.isSome_iff_exists.1 (List.find?_isSome.2 ⟨e, he, by simp⟩)
  have hid : e'.1 = e.1 := by simpa using List.find?_some he'
  simp [coverageOf, he', hs.eq_of_fst_eq (List.mem_of_find?_eq_some he') he hid]

theorem coverageOf_getElem {array : List (Int × Nat)} (hs : SortedById array) {i : Nat}
    (hi : i < array.length) : coverageOf array array[i].1 = array[i].2 :=
  coverageOf_of_mem hs (List.getElem_mem _)

/-! ## `std::sort` -/

section Sorting

variable {α : Type}

structure StrictWeakOrder (comp : α → α → Bool) : Prop where
  asymm : ∀ a b, comp a b → comp b a = false
  neg_trans : ∀ a b c, comp a c → comp a b ∨ comp b c

/-- `std::sort`, of which only the contract is assumed: equal elements end in any order. -/
structure StdSort (α : Type) where
  sort : (α → α → Bool) → List α → List α
  perm : ∀ comp l, StrictWeakOrder comp → (sort comp l).Perm l
  sorted : ∀ comp l, StrictWeakOrder comp → (sort comp l).Sorted fun a b => comp b a = false

/-- Insertion sort, which libstdc++ runs on at most 16 elements: equal ones keep their order. -/
def insertionStdSort : StdSort α where
  sort comp l := l.insertionSort fun a b => comp b a = false
  perm comp l _ := List.perm_insertionSort _ l
  sorted comp l hc := by
    have : IsTotal α fun a b => comp b a = false :=
      ⟨fun a b => by
        by_cases h : comp b a
        · exact .inr (hc.asymm b a h)
        · exact .inl (by simpa using h)⟩
    have : IsTrans α fun a b => comp b a = false :=
      ⟨fun a b c hab hbc => by
        by_contra hca
        rcases hc.neg_trans c b a (by simpa using hca) with h | h <;> simp_all⟩
    exact List.sorted_insertionSort _ l

end Sorting

theorem strictWeakOrder_givePriorityNode : StrictWeakOrder givePriorityNode where
  asymm a b h := by simp_all [givePriorityNode, givePriority]; omega
  neg_trans a b c h := by simp_all [givePriorityNode, givePriority]; omega

theorem strictWeakOrder_idLess : StrictWeakOrder idLess where
  asymm a b h := by simp_all [idLess]; omega
  neg_trans a b c h := by simp_all [idLess]; omega

theorem sortedById_sort (S : StdSort (Int × Nat)) {l : List (Int × Nat)}
    (hl : (l.map Prod.fst).Nodup) : SortedById (S.sort idLess l) := by
  have hnd := ((S.perm idLess l strictWeakOrder_idLess).map Prod.fst).nodup_iff.2 hl
  rw [List.Nodup, List.pairwise_map] at hnd
  exact ((S.sorted idLess l strictWeakOrder_idLess).and hnd).imp fun h =>
    lt_of_le_of_ne (by simpa [idLess] using h.1) h.2

@[simp] theorem map_fst_modify_increaseCoverageNode (l : List (Int × Nat)) (j : Nat) :
    (l.modify increaseCoverageNode j).map Prod.fst = l.map Prod.fst := by
  apply List.ext_getElem (by simp)
  intro i _ _
  simp only [List.getElem_map, List.getElem_modify]
  split <;> rfl

/-! ## `update_best` -/

section UpdateBest

variable {H : Type}

def updateBest (best : Nat × Option H) (coverage : Nat) (candidate : H) : Nat × Option H :=
  if givePriority coverage best.1 then (coverage, some candidate) else best

def IsFirstMinimum (score : H → Nat) (candidates : List H) (h : H) : Prop :=
  ∃ pre post, candidates = pre ++ h :: post ∧ (∀ c ∈ pre, score h < score c) ∧
    ∀ c ∈ post, score h ≤ score c

theorem IsFirstMinimum.mem {score : H → Nat} {candidates : List H} {h : H}
    (hm : IsFirstMinimum score candidates h) : h ∈ candidates := by
  obtain ⟨pre, post, rfl, -⟩ := hm
  simp

theorem foldl_updateBest (score : H → Nat) :
    ∀ (candidates : List H) (v : Nat) (b : Option H),
      let r := candidates.foldl (fun best c => updateBest best (score c) c) (v, b)
      (r = (v, b) ∧ ∀ c ∈ candidates, v ≤ score c) ∨
        ∃ h, IsFirstMinimum score candidates h ∧ score h < v ∧ r = (score h, some h)
  | [], v, b => .inl ⟨rfl, by simp⟩
  | x :: xs, v, b => by
    have hstep : updateBest (v, b) (score x) x =
        if score x < v then (score x, some x) else (v, b) := by
      simp [updateBest, givePriority]
    simp only [List.foldl_cons, hstep]
    by_cases hx : score x < v
    · rw [if_pos hx]
      right
      rcases foldl_updateBest score xs (score x) (some x) with
        ⟨hr, hall⟩ | ⟨h, ⟨pre, post, rfl, hpre, hpost⟩, hlt, hr⟩
      · exact ⟨x, ⟨[], xs, rfl, by simp, hall⟩, hx, hr⟩
      · refine ⟨h, ⟨x :: pre, post, rfl, ?_, hpost⟩, by omega, hr⟩
        simpa [hlt] using hpre
    · rw [if_neg hx]
      rcases foldl_updateBest score xs v b with
        ⟨hr, hall⟩ | ⟨h, ⟨pre, post, rfl, hpre, hpost⟩, hlt, hr⟩
      · exact .inl ⟨hr, by simpa [show v ≤ score x by omega] using hall⟩
      · refine .inr ⟨h, ⟨x :: pre, post, rfl, ?_, hpost⟩, hlt, hr⟩
        simpa [show score h < score x by omega] using hpre

theorem foldl_updateBest_of_lt (score : H → Nat) {candidates : List H} {v : Nat} (b : Option H)
    (hne : candidates ≠ []) (hlt : ∀ c ∈ candidates, score c < v) :
    ∃ h, IsFirstMinimum score candidates h ∧
      candidates.foldl (fun best c => updateBest best (score c) c) (v, b) = (score h, some h) := by
  rcases foldl_updateBest score candidates v b with ⟨-, hall⟩ | ⟨h, hmin, -, hr⟩
  · obtain ⟨c, hc⟩ := List.exists_mem_of_ne_nil _ hne
    exact absurd (hall c hc) (by have := hlt c hc; omega)
  · exact ⟨h, hmin, hr⟩

theorem foldl_updateBest_snd_mem (score : H → Nat) {candidates : List H} {v : Nat}
    {b₀ : Option H} {h : H}
    (hb : (candidates.foldl (fun best c => updateBest best (score c) c) (v, b₀)).2 = some h) :
    h ∈ candidates ∨ b₀ = some h := by
  rcases foldl_updateBest score candidates v b₀ with ⟨hr, -⟩ | ⟨h', ⟨pre, post, rfl, -⟩, -, hr⟩
  · rw [hr] at hb; exact .inr hb
  · rw [hr] at hb
    cases hb
    exact .inl (by simp)

end UpdateBest

end GbwtGraph
