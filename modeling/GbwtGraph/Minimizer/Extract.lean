import GbwtGraph.Minimizer.Kmer

/-! # The minimizers of a sequence

`minimizers` reads the sequence once with the two accumulators of the kmers, and gives each
window of `w` consecutive kmers its least record, the leftmost of equal ones; a window whose
least record is the one emitted last adds nothing. The code keeps the candidates of the current
window in a buffer; the model takes the minimum of each window, which is what the buffer keeps
at its front.

Modelled from the spec and the minimizer tests: the header of the index is not among the
sources. Where they differ the model follows the tests: a character that is not a base only
breaks the kmers that contain it, a window keeps the candidates it had before it (the spec clears
them), and the records come in the order of their kmers, not of their offsets (a kmer read in
reverse is placed at its last base).
-/

namespace GbwtGraph

/-! ## The records of the kmers -/

/-- One slot per character: the record of the kmer that ends there, if any. -/
def scanKmers (k : Nat) : KmerState → Nat → List Char → List (Option Minimizer)
  | _, _, [] => []
  | st, i, c :: cs =>
    let st := st.push k c
    (if st.valid = k then some (minimizerAt k (i + 1 - k) st.forward st.reverse) else none) ::
      scanKmers k st (i + 1) cs

def candidates (k : Nat) (cs : List Char) : List (Option Minimizer) :=
  (scanKmers k .empty 0 cs).drop (k - 1)

variable {k w : Nat} {cs : List Char}

theorem take_succ_eq_append {s : List Char} {i : Nat} (hi : i < s.length) :
    s.take (i + 1) = s.take i ++ [s[i]] := by
  rw [List.take_succ, List.getElem?_eq_getElem hi, Option.toList_some]

theorem slot_ofRun (s : List Char) {i : Nat} (hi : i < s.length) :
    (if (KmerState.ofRun k (baseRun (s.take (i + 1)))).valid = k then
      some (minimizerAt k (i + 1 - k) (KmerState.ofRun k (baseRun (s.take (i + 1)))).forward
        (KmerState.ofRun k (baseRun (s.take (i + 1)))).reverse) else none) =
      if k ≤ i + 1 then kmerAt k s (i + 1 - k) else none := by
  have hq : (s.take (i + 1)).length = i + 1 := by simp; omega
  have hr := length_baseRun_le (s.take (i + 1))
  have hm := mapM_drop_baseRun (s.take (i + 1)) k
  rw [hq, List.drop_take] at hm
  simp only [KmerState.ofRun]
  by_cases h : k ≤ (baseRun (s.take (i + 1))).length
  · have hlen : (lastBases k (baseRun (s.take (i + 1)))).length = k := by
      rw [length_lastBases]; omega
    rw [Nat.sub_sub_self (by omega)] at hm
    rw [hlen, if_pos rfl, if_pos (by omega), kmerAt, if_pos (by omega), hm.1 h, Nat.sub_self,
      pow_zero, Nat.mul_one]
    rfl
  · have hlen : (lastBases k (baseRun (s.take (i + 1)))).length ≠ k := by
      rw [length_lastBases]; omega
    rw [if_neg hlen]
    split
    · next hki =>
      rw [Nat.sub_sub_self hki] at hm
      rw [kmerAt, if_pos (by omega), hm.2 (by omega) hki]
      rfl
    · rfl

theorem scanKmers_ofRun (hk : 0 < k) (s : List Char) : ∀ n i, i + n = s.length →
    scanKmers k (.ofRun k (baseRun (s.take i))) i (s.drop i) =
      (List.range' i n).map fun e => if k ≤ e + 1 then kmerAt k s (e + 1 - k) else none := by
  intro n
  induction n with
  | zero =>
    intro i hi
    subst hi
    rw [List.drop_length]
    rfl
  | succ n ih =>
    intro i hi
    have hlt : i < s.length := by omega
    rw [List.drop_eq_getElem_cons hlt, scanKmers, push_ofRun hk (baseRun_lt _),
      ← baseRun_append_singleton, ← take_succ_eq_append hlt, slot_ofRun s hlt, ih (i + 1) (by omega),
      List.range'_succ, List.map_cons]

theorem candidates_eq (hk : 0 < k) (cs : List Char) :
    candidates k cs = (List.range (cs.length + 1 - k)).map (kmerAt k cs) := by
  have hscan := scanKmers_ofRun hk cs cs.length 0 (Nat.zero_add _)
  rw [List.take_zero, show baseRun [] = [] from rfl, ofRun_nil, List.drop_zero] at hscan
  rw [candidates, hscan]
  refine List.ext_getElem (by simp; omega) fun j h₁ h₂ => ?_
  simp only [List.getElem_drop, List.getElem_map, List.getElem_range', List.getElem_range]
  rw [if_pos (by omega)]
  congr 1
  omega

theorem kmerAt_start (hk : 0 < k) {j : Nat} {m : Minimizer} (h : kmerAt k cs j = some m) :
    m.start k = j := by
  unfold kmerAt at h
  split at h
  · obtain ⟨bs, -, rfl⟩ := Option.map_eq_some'.1 h
    exact minimizerAt_start hk _ _ _
  · cases h

/-! ## The least record of a window -/

/-- A slot replaces the best so far only when strictly before it: the first equal one stays. -/
def pickMin : Option Minimizer → Option Minimizer → Option Minimizer
  | best, none => best
  | none, some m => some m
  | some b, some m => if m.before b then some m else some b

def windowMin (window : List (Option Minimizer)) : Option Minimizer := window.foldl pickMin none

/-- `m` at slot `i` is the least record of the window, and the leftmost of equal ones. -/
structure LeftmostMin (l : List (Option Minimizer)) (i : Nat) (m : Minimizer) : Prop where
  mem : l[i]? = some (some m)
  least : ∀ (j : Nat) (m' : Minimizer), l[j]? = some (some m') → m'.before m = false
  leftmost : ∀ j < i, ∀ m' : Minimizer, l[j]? = some (some m') → m.before m' = true

theorem windowMin_append_singleton (l : List (Option Minimizer)) (x : Option Minimizer) :
    windowMin (l ++ [x]) = pickMin (windowMin l) x := by
  simp [windowMin]

theorem getElem?_append_singleton_eq_some {α : Type} {l : List α} {x y : α} {j : Nat} :
    (l ++ [x])[j]? = some y ↔ l[j]? = some y ∨ j = l.length ∧ x = y := by
  rcases Nat.lt_trichotomy j l.length with h | rfl | h
  · simp [List.getElem?_append_left h, h.ne]
  · simp
  · rw [List.getElem?_eq_none (by simp; omega), List.getElem?_eq_none h.le]
    simp only [reduceCtorEq, false_or, false_iff, not_and]
    omega

theorem pickMin_eq_none_iff (best x : Option Minimizer) :
    pickMin best x = none ↔ best = none ∧ x = none := by
  rcases best with _ | b <;> rcases x with _ | y <;> simp only [pickMin] <;> (try split_ifs) <;> simp

theorem windowMin_eq_none_iff (l : List (Option Minimizer)) :
    windowMin l = none ↔ ∀ x ∈ l, x = none := by
  induction l using List.reverseRecOn with
  | nil => simp [windowMin]
  | append_singleton l x ih =>
    rw [windowMin_append_singleton, pickMin_eq_none_iff, ih]
    simp [or_imp, forall_and]

theorem leftmostMin_append_singleton {l : List (Option Minimizer)} {i : Nat} {b : Minimizer}
    (h : LeftmostMin l i b) (x : Option Minimizer) :
    (pickMin (some b) x = some b → LeftmostMin (l ++ [x]) i b) ∧
      ∀ y, x = some y → y.before b = true → LeftmostMin (l ++ [x]) l.length y := by
  have hi : i < l.length := (List.getElem?_eq_some_iff.1 h.mem).1
  refine ⟨fun hx => ⟨by simp [List.getElem?_append_left hi, h.mem], fun j m' hj => ?_,
    fun j hj m' hm => ?_⟩, fun y hy hyb => ⟨by simp [hy], fun j m' hj => ?_, fun j hj m' hm => ?_⟩⟩
  · rcases getElem?_append_singleton_eq_some.1 hj with hj | ⟨-, rfl⟩
    · exact h.least j m' hj
    · cases hmb : m'.before b
      · rfl
      · simp only [pickMin, hmb, if_true, Option.some.injEq] at hx
        rw [hx, before_irrefl] at hmb
        cases hmb
  · rcases getElem?_append_singleton_eq_some.1 hm with hm | ⟨rfl, -⟩
    · exact h.leftmost j hj m' hm
    · omega
  · rcases getElem?_append_singleton_eq_some.1 hj with hj | ⟨-, rfl⟩
    · have := h.least j m' hj
      cases hm : m'.before y
      · rfl
      · rw [before_trans hm hyb] at this; cases this
    · obtain rfl := Option.some.inj hy
      exact before_irrefl _
  · rcases getElem?_append_singleton_eq_some.1 hm with hm | ⟨rfl, -⟩
    · have := h.least j m' hm
      cases hb : b.before m'
      · obtain ⟨h₁, h₂, h₃⟩ := eq_rank_of_not_before hb this
        simp only [Minimizer.before, h₁, h₂, h₃] at hyb ⊢
        exact hyb
      · exact before_trans hyb hb
    · omega

theorem windowMin_leftmostMin (l : List (Option Minimizer)) {m : Minimizer}
    (h : windowMin l = some m) : ∃ i, LeftmostMin l i m := by
  induction l using List.reverseRecOn generalizing m with
  | nil => cases h
  | append_singleton l x ih =>
    rw [windowMin_append_singleton] at h
    rcases hw : windowMin l with _ | b
    · -- Every earlier slot is empty, so the new one holds the only record.
      have hnone := (windowMin_eq_none_iff l).1 hw
      rw [hw] at h
      cases x with
      | none => cases h
      | some y =>
        cases h
        refine ⟨l.length, by simp, fun j m' hj => ?_, fun j hj m' hm => ?_⟩
        · rcases getElem?_append_singleton_eq_some.1 hj with hj | ⟨-, h⟩
          · cases hnone _ (List.mem_iff_getElem?.2 ⟨j, hj⟩)
          · cases h; exact before_irrefl _
        · rcases getElem?_append_singleton_eq_some.1 hm with hm | ⟨rfl, -⟩
          · cases hnone _ (List.mem_iff_getElem?.2 ⟨j, hm⟩)
          · omega
    · obtain ⟨i, hi⟩ := ih hw
      rw [hw] at h
      have hstep := leftmostMin_append_singleton hi x
      cases x with
      | none =>
        obtain rfl : b = m := Option.some.inj h
        exact ⟨i, hstep.1 rfl⟩
      | some y =>
        simp only [pickMin] at h
        split at h
        · next hyb => cases h; exact ⟨_, hstep.2 _ rfl hyb⟩
        · cases h; exact ⟨i, hstep.1 (by simp [pickMin, *])⟩

theorem LeftmostMin.unique {l : List (Option Minimizer)} {i i' : Nat} {m m' : Minimizer}
    (h : LeftmostMin l i m) (h' : LeftmostMin l i' m') : m = m' := by
  rcases Nat.lt_trichotomy i i' with hlt | rfl | hlt
  · have := h'.leftmost i hlt m h.mem
    rw [h.least i' m' h'.mem] at this
    cases this
  · simpa using h.mem.symm.trans h'.mem
  · have := h.leftmost i' hlt m' h'.mem
    rw [h'.least i m h.mem] at this
    cases this

theorem windowMin_eq_some_iff (l : List (Option Minimizer)) (m : Minimizer) :
    windowMin l = some m ↔ ∃ i, LeftmostMin l i m := by
  refine ⟨windowMin_leftmostMin l, fun ⟨i, hi⟩ => ?_⟩
  rcases hw : windowMin l with _ | m₀
  · cases (windowMin_eq_none_iff l).1 hw _ (List.mem_iff_getElem?.2 ⟨i, hi.mem⟩)
  · obtain ⟨i₀, hi₀⟩ := windowMin_leftmostMin l hw
    rw [hi₀.unique hi]

/-! ## The minimizers -/

def windowMins (w : Nat) (slots : List (Option Minimizer)) : List (Option Minimizer) :=
  (List.range (slots.length + 1 - w)).map fun t => windowMin ((slots.drop t).take w)

def emitMin (out : List Minimizer) : Option Minimizer → List Minimizer
  | none => out
  | some m => if out.getLast? = some m then out else out ++ [m]

/-- `minimizers`: the least record of each window of `w` kmers, without repeats. -/
def minimizers (k w : Nat) (cs : List Char) : List Minimizer :=
  if cs.length < k + w - 1 then [] else (windowMins w (candidates k cs)).foldl emitMin []

/-- `minimizer`: the least record of all kmers, the leftmost of equal ones. -/
def minimizer (k : Nat) (cs : List Char) : Option Minimizer := windowMin (candidates k cs)

variable (k w cs) in
/-- `m` is the leftmost least record of the `w` kmers from `t`, a window inside the sequence. -/
def IsWindowMin (t : Nat) (m : Minimizer) : Prop :=
  t + k + w ≤ cs.length + 1 ∧ ∃ j, t ≤ j ∧ j < t + w ∧ kmerAt k cs j = some m ∧
    (∀ j', t ≤ j' → j' < t + w → ∀ m', kmerAt k cs j' = some m' → m'.before m = false) ∧
    ∀ j', t ≤ j' → j' < j → ∀ m', kmerAt k cs j' = some m' → m.before m' = true

theorem getElem?_map_range'_eq_some {f : Nat → Option Minimizer} {t w j : Nat}
    {x : Option Minimizer} : ((List.range' t w).map f)[j]? = some x ↔ j < w ∧ f (t + j) = x := by
  by_cases h : j < w
  · simp [List.getElem?_range' _ _ h, h]
  · rw [List.getElem?_eq_none (by simp; omega)]
    simp [h]

theorem leftmostMin_range'_iff (f : Nat → Option Minimizer) (t w i : Nat) (m : Minimizer) :
    LeftmostMin ((List.range' t w).map f) i m ↔ i < w ∧ f (t + i) = some m ∧
      (∀ j < w, ∀ m', f (t + j) = some m' → m'.before m = false) ∧
      ∀ j < i, ∀ m', f (t + j) = some m' → m.before m' = true := by
  constructor
  · rintro ⟨hmem, hleast, hleft⟩
    rw [getElem?_map_range'_eq_some] at hmem
    exact ⟨hmem.1, hmem.2, fun j hj m' h => hleast j m' (getElem?_map_range'_eq_some.2 ⟨hj, h⟩),
      fun j hj m' h => hleft j hj m' (getElem?_map_range'_eq_some.2 ⟨by omega, h⟩)⟩
  · rintro ⟨hi, hm, hleast, hleft⟩
    refine ⟨getElem?_map_range'_eq_some.2 ⟨hi, hm⟩, fun j m' h => ?_, fun j hj m' h => ?_⟩
    · rw [getElem?_map_range'_eq_some] at h
      exact hleast j h.1 m' h.2
    · exact hleft j hj m' (getElem?_map_range'_eq_some.1 h).2

theorem window_candidates (hk : 0 < k) {t : Nat} (ht : t + k + w ≤ cs.length + 1) :
    ((candidates k cs).drop t).take w = (List.range' t w).map (kmerAt k cs) := by
  rw [candidates_eq hk]
  refine List.ext_getElem (by simp; omega) fun j h₁ h₂ => ?_
  simp only [List.getElem_take, List.getElem_drop, List.getElem_map, List.getElem_range,
    List.getElem_range', Nat.one_mul]

theorem windowMin_window_eq_some_iff (hk : 0 < k) {t : Nat} (ht : t + k + w ≤ cs.length + 1)
    (m : Minimizer) :
    windowMin (((candidates k cs).drop t).take w) = some m ↔ IsWindowMin k w cs t m := by
  rw [window_candidates hk ht, windowMin_eq_some_iff, IsWindowMin]
  simp only [leftmostMin_range'_iff, ht, true_and]
  constructor
  · rintro ⟨i, hi, hm, hleast, hleft⟩
    refine ⟨t + i, by omega, by omega, hm, fun j' h₁ h₂ m' h => ?_, fun j' h₁ h₂ m' h => ?_⟩
    · exact hleast (j' - t) (by omega) m' (by rwa [Nat.add_sub_cancel' h₁])
    · exact hleft (j' - t) (by omega) m' (by rwa [Nat.add_sub_cancel' h₁])
  · rintro ⟨j, h₁, h₂, hm, hleast, hleft⟩
    refine ⟨j - t, by omega, by rwa [Nat.add_sub_cancel' h₁], fun j' hj' m' h => ?_,
      fun j' hj' m' h => ?_⟩
    · exact hleast (t + j') (by omega) (by omega) m' h
    · exact hleft (t + j') (by omega) (by omega) m' h

theorem mem_emitMin {out : List Minimizer} {x : Option Minimizer} {m : Minimizer} :
    m ∈ emitMin out x ↔ m ∈ out ∨ x = some m := by
  cases x with
  | none => simp [emitMin]
  | some b =>
    simp only [emitMin]
    split_ifs with h
    · refine ⟨.inl, fun hm => hm.elim id fun hb => ?_⟩
      cases hb
      exact List.mem_of_getLast?_eq_some h
    · simp [eq_comm]

theorem mem_foldl_emitMin (m : Minimizer) :
    ∀ (l : List (Option Minimizer)) (out : List Minimizer),
      m ∈ l.foldl emitMin out ↔ m ∈ out ∨ some m ∈ l
  | [], _ => by simp
  | x :: l, out => by
    rw [List.foldl_cons, mem_foldl_emitMin m l, mem_emitMin, List.mem_cons, eq_comm (a := some m)]
    tauto

theorem chain_foldl_emitMin (f : Minimizer → Nat) (P : Minimizer → Prop)
    (hinj : ∀ a b, P a → P b → f a = f b → a = b) :
    ∀ (l : List (Option Minimizer)) (out : List Minimizer),
      (∀ b, some b ∈ l → P b) → (∀ a ∈ out, P a) →
      l.Pairwise (fun x y => ∀ a b, x = some a → y = some b → f a ≤ f b) →
      (∀ a ∈ out, ∀ b, some b ∈ l → f a ≤ f b) →
      (out.map f).Chain' (· < ·) → ((l.foldl emitMin out).map f).Chain' (· < ·)
  | [], _, _, _, _, _, hc => hc
  | x :: l, out, hP, hout, hpw, hle, hc => by
    rw [List.pairwise_cons] at hpw
    have hP' : ∀ b, some b ∈ l → P b := fun b hb => hP b (List.mem_cons_of_mem _ hb)
    have hle' : ∀ a ∈ out, ∀ b, some b ∈ l → f a ≤ f b :=
      fun a ha b hb => hle a ha b (List.mem_cons_of_mem _ hb)
    rw [List.foldl_cons]
    cases x with
    | none => exact chain_foldl_emitMin f P hinj l out hP' hout hpw.2 hle' hc
    | some b =>
      simp only [emitMin]
      split_ifs with hlast
      · exact chain_foldl_emitMin f P hinj l out hP' hout hpw.2 hle' hc
      · have hb : P b := hP b (List.mem_cons_self _ _)
        refine chain_foldl_emitMin f P hinj l _ hP' (fun a ha => ?_) hpw.2 (fun a ha b' hb' => ?_) ?_
        · rcases List.mem_append.1 ha with ha | ha
          · exact hout a ha
          · rwa [List.mem_singleton.1 ha]
        · rcases List.mem_append.1 ha with ha | ha
          · exact hle' a ha b' hb'
          · rw [List.mem_singleton.1 ha]
            exact hpw.1 _ hb' b b' rfl rfl
        · -- The last record emitted is measured below `b`, and is not `b`.
          rw [List.map_append, List.chain'_append]
          refine ⟨hc, List.chain'_singleton _, fun x hx y hy => ?_⟩
          rw [List.getLast?_map] at hx
          obtain ⟨z, hz, rfl⟩ := Option.mem_map.1 hx
          obtain rfl : f b = y := by simpa using hy
          have hzb := hle z (List.mem_of_getLast?_eq_some hz) b (List.mem_cons_self _ _)
          refine lt_of_le_of_ne hzb fun heq => hlast ?_
          rw [← hinj z b (hout z (List.mem_of_getLast?_eq_some hz)) hb heq]
          exact hz

theorem IsWindowMin.start_le (hk : 0 < k) {t₁ t₂ : Nat} {a b : Minimizer} (hlt : t₁ < t₂)
    (ha : IsWindowMin k w cs t₁ a) (hb : IsWindowMin k w cs t₂ b) : a.start k ≤ b.start k := by
  obtain ⟨-, j₁, h₁, h₁', ha, -, hleft⟩ := ha
  obtain ⟨-, j₂, h₂, h₂', hb, hleast, -⟩ := hb
  rw [kmerAt_start hk ha, kmerAt_start hk hb]
  by_contra hj
  have hab := hleft j₂ (by omega) (by omega) b hb
  rw [hleast j₁ (by omega) (by omega) a ha] at hab
  cases hab

theorem mem_windowMins_iff (hk : 0 < k) (hw : 0 < w) (m : Minimizer) :
    some m ∈ windowMins w (candidates k cs) ↔ ∃ t, IsWindowMin k w cs t m := by
  have hlen : (candidates k cs).length = cs.length + 1 - k := by rw [candidates_eq hk]; simp
  simp only [windowMins, List.mem_map, List.mem_range, hlen]
  constructor
  · rintro ⟨t, ht, hm⟩
    exact ⟨t, (windowMin_window_eq_some_iff hk (by omega) m).1 hm⟩
  · rintro ⟨t, ht⟩
    exact ⟨t, by have := ht.1; omega, (windowMin_window_eq_some_iff hk ht.1 m).2 ht⟩

/-- The records `minimizers` emits are the leftmost least records of its windows. -/
theorem mem_minimizers_iff (hk : 0 < k) (hw : 0 < w) (m : Minimizer) :
    m ∈ minimizers k w cs ↔ ∃ t, IsWindowMin k w cs t m := by
  unfold minimizers
  split
  · simp only [List.not_mem_nil, false_iff, not_exists]
    intro t ht
    have := ht.1
    omega
  · rw [mem_foldl_emitMin, ← mem_windowMins_iff hk hw]
    simp

/-- The sequence of the `MinimizerExtraction` tests, with `k = 3` and `w = 2`. -/
theorem mem_minimizers_iff_extraction :
    0 < 3 ∧ 0 < 2 ∧ (⟨3, wangHash64 3, 2, false⟩ ∈ minimizers 3 2 "CGAATACAATACT".toList ↔
      ∃ t, IsWindowMin 3 2 "CGAATACAATACT".toList t ⟨3, wangHash64 3, 2, false⟩) :=
  ⟨by decide, by decide, mem_minimizers_iff (by decide) (by decide) _⟩

example : minimizers 3 2 "CGAATACAATACT".toList =
    [⟨54, wangHash64 54, 2, true⟩, ⟨3, wangHash64 3, 2, false⟩, ⟨51, wangHash64 51, 5, true⟩,
      ⟨59, wangHash64 59, 7, true⟩, ⟨3, wangHash64 3, 7, false⟩, ⟨51, wangHash64 51, 10, true⟩,
      ⟨7, wangHash64 7, 10, false⟩] := by
  decide

example : minimizers 3 3 "CGAATACAATACT".toList =
    [⟨3, wangHash64 3, 2, false⟩, ⟨59, wangHash64 59, 7, true⟩, ⟨3, wangHash64 3, 7, false⟩,
      ⟨51, wangHash64 51, 10, true⟩] := by
  decide

example : minimizers 3 2 "CGAATAxAATACT".toList =
    [⟨54, wangHash64 54, 2, true⟩, ⟨3, wangHash64 3, 2, false⟩, ⟨51, wangHash64 51, 5, true⟩,
      ⟨3, wangHash64 3, 7, false⟩, ⟨51, wangHash64 51, 10, true⟩, ⟨7, wangHash64 7, 10, false⟩] := by
  decide

/-- `minimizer` returns the leftmost least record of all kmers. -/
theorem minimizer_eq_some_iff (hk : 0 < k) (hlen : k ≤ cs.length) (m : Minimizer) :
    minimizer k cs = some m ↔ IsWindowMin k (cs.length + 1 - k) cs 0 m := by
  have hall : ((candidates k cs).drop 0).take (cs.length + 1 - k) = candidates k cs := by
    rw [List.drop_zero, List.take_of_length_le]
    rw [candidates_eq hk]
    simp
  rw [← windowMin_window_eq_some_iff hk (by omega), hall, minimizer]

theorem minimizer_eq_some_iff_extraction :
    0 < 3 ∧ 3 ≤ "CGAATACAATACT".toList.length ∧
      (minimizer 3 "CGAATACAATACT".toList = some ⟨3, wangHash64 3, 2, false⟩ ↔
        IsWindowMin 3 ("CGAATACAATACT".toList.length + 1 - 3) "CGAATACAATACT".toList 0
          ⟨3, wangHash64 3, 2, false⟩) :=
  ⟨by decide, by decide, minimizer_eq_some_iff (by decide) (by decide) _⟩

example : minimizer 3 "CGAATACAATACT".toList = some ⟨3, wangHash64 3, 2, false⟩ := by
  decide

/-- The kmers of the records `minimizers` emits start at strictly increasing positions. -/
theorem minimizers_start_lt (hk : 0 < k) (hw : 0 < w) (cs : List Char) :
    (minimizers k w cs).Pairwise fun a b => a.start k < b.start k := by
  unfold minimizers
  split
  · exact List.Pairwise.nil
  have hlen : (candidates k cs).length = cs.length + 1 - k := by rw [candidates_eq hk]; simp
  have hwin : ∀ t, t < (candidates k cs).length + 1 - w → ∀ m,
      windowMin (((candidates k cs).drop t).take w) = some m → IsWindowMin k w cs t m :=
    fun t ht m hm => (windowMin_window_eq_some_iff hk (by omega) m).1 hm
  have hchain := chain_foldl_emitMin (Minimizer.start k) (fun m => ∃ j, kmerAt k cs j = some m)
    (fun a b ⟨j, ha⟩ ⟨j', hb⟩ heq => by
      rw [kmerAt_start hk ha, kmerAt_start hk hb] at heq
      subst heq
      exact Option.some.inj (ha.symm.trans hb))
    (windowMins w (candidates k cs)) [] (fun b hb => ?_) (by simp) ?_ (by simp) List.chain'_nil
  · rw [List.chain'_iff_pairwise, List.pairwise_map] at hchain
    exact hchain
  · obtain ⟨t, ⟨-, j, -, -, hj, -⟩⟩ := (mem_windowMins_iff hk hw b).1 hb
    exact ⟨j, hj⟩
  · refine List.pairwise_map.2 ((List.pairwise_lt_range _).imp_of_mem fun ht₁ ht₂ hlt => ?_)
    intro a b ha hb
    exact (hwin _ (List.mem_range.1 ht₁) a ha).start_le hk hlt (hwin _ (List.mem_range.1 ht₂) b hb)

theorem minimizers_start_lt_extraction :
    0 < 3 ∧ 0 < 2 ∧
      (minimizers 3 2 "CGAATACAATACT".toList).Pairwise fun a b => a.start 3 < b.start 3 :=
  ⟨by decide, by decide, minimizers_start_lt (by decide) (by decide) _⟩

end GbwtGraph
