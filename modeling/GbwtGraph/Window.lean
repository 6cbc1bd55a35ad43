import GbwtGraph.HandleGraph

/-! # Windows and their reverse complements

`reverse_complement`, `forward_window` and `backward_window` of `path_cover.cpp`. A window is
stored under the smaller of itself and its reverse complement, where `<` on
`std::vector<handle_t>` is the lexicographic order, `List.Lex` here.
-/

namespace GbwtGraph

variable {H : Type} (G : HandleGraph H)

def reverseComplement (forward : List H) : List H := forward.reverse.map G.flip

theorem take_reverseComplement (P : List H) (n : Nat) :
    (reverseComplement G P).take n = reverseComplement G (P.rtake n) := by
  simp [reverseComplement, List.rtake, ← List.map_take, List.take_reverse]

@[simp] theorem reverseComplement_append_singleton (P : List H) (s : H) :
    reverseComplement G (P ++ [s]) = G.flip s :: reverseComplement G P := by
  simp [reverseComplement]

theorem reverseComplement_involutive {G : HandleGraph H} (hflip : ∀ h, G.flip (G.flip h) = h)
    (w : List H) : reverseComplement G (reverseComplement G w) = w := by
  simp [reverseComplement, ← List.map_reverse, Function.comp_def, hflip]

variable [LinearOrder H]

/-- The last two lines of `forward_window` and `backward_window`. -/
def minWindow (forward : List H) : List H :=
  let reverse := reverseComplement G forward
  if forward < reverse then forward else reverse

/-- `forward_window`; `none` where `path.end() - (k - 1)` would leave the deque. -/
def forwardWindow (path : List H) (successor : H) (k : Nat) : Option (List H) :=
  if 0 < k ∧ k - 1 ≤ path.length then
    some (minWindow G (path.drop (path.length - (k - 1)) ++ [successor]))
  else none

def backwardWindow (path : List H) (predecessor : H) (k : Nat) : Option (List H) :=
  if 0 < k ∧ k - 1 ≤ path.length then some (minWindow G (predecessor :: path.take (k - 1)))
  else none

theorem minWindow_eq_min (w : List H) : minWindow G w = min w (reverseComplement G w) := by
  rw [min_def_lt]; rfl

variable {G}

theorem minWindow_reverseComplement (hflip : ∀ h, G.flip (G.flip h) = h) (w : List H) :
    minWindow G (reverseComplement G w) = minWindow G w := by
  rw [minWindow_eq_min, minWindow_eq_min, reverseComplement_involutive hflip, min_comm]

theorem forwardWindow_eq (P : List H) (s : H) {k : Nat} (hk : 0 < k) (hP : k - 1 ≤ P.length) :
    forwardWindow G P s k = some (minWindow G (P.rtake (k - 1) ++ [s])) := by
  simp [forwardWindow, hk, hP, List.rtake]

theorem backwardWindow_eq (P : List H) (s : H) {k : Nat} (hk : 0 < k) (hP : k - 1 ≤ P.length) :
    backwardWindow G P s k = some (minWindow G (s :: P.take (k - 1))) := by
  simp [backwardWindow, hk, hP]

/-- A forward window is the backward window of the reverse complement: the smaller reading. -/
theorem forwardWindow_eq_backwardWindow (hflip : ∀ h, G.flip (G.flip h) = h) (P : List H)
    (s : H) (k : Nat) (hk : 1 ≤ k) (hP : k - 1 ≤ P.length) :
    forwardWindow G P s k = backwardWindow G (reverseComplement G P) (G.flip s) k ∧
      forwardWindow G P s k =
        some (min (P.rtake (k - 1) ++ [s]) (reverseComplement G (P.rtake (k - 1) ++ [s]))) := by
  have hrc : k - 1 ≤ (reverseComplement G P).length := by simpa [reverseComplement] using hP
  have hw : G.flip s :: (reverseComplement G P).take (k - 1) =
      reverseComplement G (P.rtake (k - 1) ++ [s]) := by
    rw [take_reverseComplement, reverseComplement_append_singleton]
  rw [forwardWindow_eq P s hk hP, backwardWindow_eq _ _ hk hrc, hw,
    minWindow_reverseComplement hflip, minWindow_eq_min]
  exact ⟨rfl, rfl⟩

theorem forwardWindow_eq_backwardWindow_twoSources :
    (∀ h, twoSourcesGraph.flip (twoSourcesGraph.flip h) = h) ∧ 1 ≤ 2 ∧ 2 - 1 ≤ [2].length ∧
      forwardWindow twoSourcesGraph [2] 6 2 =
        backwardWindow twoSourcesGraph (reverseComplement twoSourcesGraph [2])
          (twoSourcesGraph.flip 6) 2 ∧
      forwardWindow twoSourcesGraph [2] 6 2 = some (min ([2].rtake (2 - 1) ++ [6])
        (reverseComplement twoSourcesGraph ([2].rtake (2 - 1) ++ [6]))) :=
  ⟨twoSourcesGraph_wellFormed.flip_flip, by decide, by decide,
    forwardWindow_eq_backwardWindow twoSourcesGraph_wellFormed.flip_flip [2] 6 2
      (by decide) (by decide)⟩

/-! ## The windows of a path -/

variable (G)

def windowKeys (k : Nat) : List H → List (List H)
  | [] => []
  | h :: t =>
    if k ≤ t.length + 1 then
      min ((h :: t).take k) (reverseComplement G ((h :: t).take k)) :: windowKeys k t
    else []

@[simp] theorem windowKeys_nil (k : Nat) : windowKeys G k [] = [] := rfl

theorem length_windowKeys {k : Nat} (hk : 0 < k) (p : List H) :
    (windowKeys G k p).length = p.length + 1 - k := by
  induction p with
  | nil => simp [windowKeys]; omega
  | cons h t ih =>
    rw [windowKeys]
    split <;> simp [ih] <;> omega

theorem windowKeys_cons {k : Nat} (hk : 0 < k) (b : H) (p : List H) :
    windowKeys G k (b :: p) =
      (if k - 1 ≤ p.length then [minWindow G (b :: p.take (k - 1))] else []) ++
        windowKeys G k p := by
  obtain ⟨k, rfl⟩ : ∃ j, k = j + 1 := ⟨k - 1, by omega⟩
  rw [windowKeys]
  by_cases hp : k ≤ p.length
  · simp [hp, minWindow_eq_min]
  · have : windowKeys G (k + 1) p = [] := by
      cases p with
      | nil => rfl
      | cons _ t => simp only [List.length_cons] at hp; simp [windowKeys]; omega
    simp [hp, this]

theorem windowKeys_of_length_lt {k : Nat} {p : List H} (hp : p.length < k) :
    windowKeys G k p = [] := by
  cases p with
  | nil => rfl
  | cons h t => simp only [List.length_cons] at hp; rw [windowKeys, if_neg (by omega)]

omit [LinearOrder H] in
theorem rtake_cons_of_le {n : Nat} (a : H) {t : List H} (hn : n ≤ t.length) :
    (a :: t).rtake n = t.rtake n := by
  simp only [List.rtake, List.length_cons]
  rw [show t.length + 1 - n = (t.length - n) + 1 by omega, List.drop_succ_cons]

theorem windowKeys_append_singleton {k : Nat} (hk : 0 < k) (p : List H) (b : H) :
    windowKeys G k (p ++ [b]) =
      windowKeys G k p ++
        (if k - 1 ≤ p.length then [minWindow G (p.rtake (k - 1) ++ [b])] else []) := by
  induction p with
  | nil =>
    rcases Nat.lt_or_ge 1 k with h1 | h1
    · rw [List.nil_append, windowKeys_of_length_lt G (by simpa using h1), if_neg (by simp; omega)]
      rfl
    · obtain rfl : k = 1 := by omega
      simp [windowKeys, minWindow_eq_min, List.rtake]
  | cons a t ih =>
    have e : windowKeys G k (a :: (t ++ [b])) =
        if k ≤ t.length + 2 then
          min ((a :: (t ++ [b])).take k) (reverseComplement G ((a :: (t ++ [b])).take k)) ::
            windowKeys G k (t ++ [b])
        else [] := by
      rw [windowKeys]; simp
    rw [List.cons_append, e, ih, windowKeys]
    by_cases hlt : k ≤ t.length + 1
    · -- The new window starts after `a`.
      have htake : (a :: (t ++ [b])).take k = (a :: t).take k := by
        rw [← List.cons_append, List.take_append_of_le_length (by simpa using hlt)]
      rw [if_pos (by omega), if_pos hlt, if_pos (by omega), if_pos (by simp; omega),
        rtake_cons_of_le a (by omega), htake]
      simp
    · by_cases heq : k = t.length + 2
      · -- The new window is the whole path.
        rw [if_pos (by omega), if_neg hlt, if_neg (by omega), if_pos (by simp; omega),
          windowKeys_of_length_lt G (by omega), List.take_of_length_le (by simp; omega)]
        simp [List.rtake, heq, minWindow_eq_min]
      · rw [if_neg (by omega), if_neg hlt, if_neg (by simp; omega)]
        rfl

end GbwtGraph
