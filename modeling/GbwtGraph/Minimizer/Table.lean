import GbwtGraph.Minimizer.Probe

/-! # The index as a map from keys to sets of positions

What the spec calls the identity of an index: for each key, the set of its position codes.
`lookup` reads it off the cells, `MinimizerIndex.WF` is what `insert` keeps of the table and its
counters, and under it `find` returns the set in increasing order while `insert` adds one code to
the set of one key, through a rehash or not.
-/

namespace GbwtGraph

/-! ## Cells -/

/-- A value as the table keeps it: a code, or increasing codes, none of them `NO_VALUE`. -/
def CellValue.Valid : CellValue → Prop
  | .single code => code ≠ noValue
  | .multi codes => codes.Sorted (· < ·) ∧ 2 ≤ codes.length ∧ noValue ∉ codes

/-- What `unique_keys()` counts. -/
def CellValue.isSingle : CellValue → Bool
  | .single _ => true
  | .multi _ => false

def keyedCells (table : List Cell) : List Cell := table.filter fun c => c.key ≠ noKey

def lookup (table : List Cell) (key : Nat) : List Nat :=
  if key = noKey then [] else ((table.find? fun c => c.key = key).map fun c => c.value.codes).getD []

theorem getD_map_key (table : List Cell) (i : Nat) :
    (table.map Cell.key).getD i noKey = (table.getD i emptyCell).key := by
  simp only [List.getD_eq_getElem?_getD, List.getElem?_map]
  cases table[i]? <;> rfl

variable {T T' : List Cell}

theorem eq_of_mem_of_key_eq (hk : KeysInv (T.map Cell.key)) {c c' : Cell} (hc : c ∈ T)
    (hc' : c' ∈ T) (hne : c.key ≠ noKey) (heq : c.key = c'.key) : c = c' := by
  obtain ⟨i, hi, rfl⟩ := List.mem_iff_getElem.1 hc
  obtain ⟨j, hj, rfl⟩ := List.mem_iff_getElem.1 hc'
  have hg : ∀ n (h : n < T.length), (T.map Cell.key).getD n noKey = T[n].key := fun n h => by
    rw [getD_map_key, List.getD_eq_getElem _ _ h]
  obtain rfl := hk.distinct i (by simpa) j (by simpa) (by rwa [hg i hi])
    (by rw [hg i hi, hg j hj, heq])
  rfl

theorem lookup_of_mem (hk : KeysInv (T.map Cell.key)) {c : Cell} (hc : c ∈ T)
    (hne : c.key ≠ noKey) : lookup T c.key = c.value.codes := by
  rw [lookup, if_neg hne]
  have hsome : (T.find? fun c' => c'.key = c.key).isSome :=
    List.find?_isSome.2 ⟨c, hc, decide_eq_true rfl⟩
  obtain ⟨c', hc'⟩ := Option.isSome_iff_exists.1 hsome
  have hkey : c'.key = c.key := by simpa using List.find?_some hc'
  rw [hc', eq_of_mem_of_key_eq hk hc (List.mem_of_find?_eq_some hc') hne hkey.symm]
  rfl

theorem lookup_of_forall_ne {key : Nat} (h : ∀ c ∈ T, c.key ≠ key) : lookup T key = [] := by
  unfold lookup
  split_ifs
  · rfl
  · rw [List.find?_eq_none.2 fun c hc => by simpa using h c hc]
    rfl

theorem filter_set_perm {α : Type} [DecidableEq α] (p : α → Bool) {l : List α} {i : Nat}
    (hi : i < l.length) (a : α) :
    ((l.set i a).filter p ++ [l[i]].filter p).Perm (l.filter p ++ [a].filter p) := by
  have hl : l.filter p = (l.take i).filter p ++ [l[i]].filter p ++ (l.drop (i + 1)).filter p := by
    conv_lhs => rw [← List.take_append_drop i l, List.drop_eq_getElem_cons hi,
      ← List.singleton_append]
    simp only [List.filter_append, List.append_assoc]
  rw [List.perm_iff_count]
  intro x
  rw [hl, List.set_eq_take_append_cons_drop, if_pos hi, ← List.singleton_append]
  simp only [List.filter_append, List.count_append]
  omega

theorem keyedCells_set_of_empty {i : Nat} (hi : i < T.length) (hempty : T[i].key = noKey)
    {c : Cell} (hc : c.key ≠ noKey) : (keyedCells (T.set i c)).Perm (keyedCells T ++ [c]) := by
  have hset := filter_set_perm (fun c => decide (c.key ≠ noKey)) hi c
  rwa [show [T[i]].filter (fun c => decide (c.key ≠ noKey)) = [] by simp [hempty],
    show [c].filter (fun c => decide (c.key ≠ noKey)) = [c] by simp [hc], List.append_nil] at hset

theorem keyedCells_set_of_keyed {i : Nat} (hi : i < T.length) (hx : T[i].key ≠ noKey)
    {c : Cell} (hc : c.key ≠ noKey) :
    (keyedCells (T.set i c) ++ [T[i]]).Perm (keyedCells T ++ [c]) := by
  have hset := filter_set_perm (fun c => decide (c.key ≠ noKey)) hi c
  rwa [show [T[i]].filter (fun c => decide (c.key ≠ noKey)) = [T[i]] by simp [hx],
    show [c].filter (fun c => decide (c.key ≠ noKey)) = [c] by simp [hc]] at hset

theorem lookup_perm (hk : KeysInv (T.map Cell.key)) (hk' : KeysInv (T'.map Cell.key))
    {old new : List Cell} (hperm : (keyedCells T' ++ old).Perm (keyedCells T ++ new)) {key : Nat}
    (hkey : ∀ c ∈ old ++ new, c.key ≠ key) : lookup T' key = lookup T key := by
  by_cases hno : key = noKey
  · simp [lookup, hno]
  by_cases h : ∃ c ∈ T, c.key = key
  · obtain ⟨c, hc, rfl⟩ := h
    have hc' : c ∈ keyedCells T' ++ old :=
      hperm.symm.subset (List.mem_append_left _ (List.mem_filter.2 ⟨hc, by simpa using hno⟩))
    rcases List.mem_append.1 hc' with hc' | hc'
    · rw [lookup_of_mem hk' (List.mem_filter.1 hc').1 hno, lookup_of_mem hk hc hno]
    · exact absurd rfl (hkey c (List.mem_append_left _ hc'))
  · push_neg at h
    rw [lookup_of_forall_ne h, lookup_of_forall_ne fun c hc heq => ?_]
    have hc' : c ∈ keyedCells T ++ new :=
      hperm.subset (List.mem_append_left _ (List.mem_filter.2 ⟨hc, by simpa [heq] using hno⟩))
    rcases List.mem_append.1 hc' with hc' | hc'
    · exact h c (List.mem_filter.1 hc').1 heq
    · exact hkey c (List.mem_append_right _ hc') heq

/-! ## The invariant -/

/-- The table and the counters agree. -/
structure MinimizerIndex.Sound (idx : MinimizerIndex) : Prop where
  keysInv : KeysInv (idx.hashTable.map Cell.key)
  valid : ∀ c ∈ keyedCells idx.hashTable, c.value.Valid
  keys_eq : idx.keys = (keyedCells idx.hashTable).length
  values_eq : idx.values = ((keyedCells idx.hashTable).map fun c => c.value.codes.length).sum
  unique_eq : idx.unique = ((keyedCells idx.hashTable).filter fun c => c.value.isSingle).length

/-- What `insert` keeps: a sound index of `2 ^ n` cells within its `max_keys`. -/
structure MinimizerIndex.WF (idx : MinimizerIndex) : Prop where
  sound : idx.Sound
  capacity_pow : ∃ n, idx.hashTable.length = 2 ^ n
  maxKeys_eq : idx.maxKeys = maxKeysOf idx.hashTable.length
  keys_le : idx.keys ≤ idx.maxKeys

/-- The index as the spec sees it: the set of codes of each key. -/
def MinimizerIndex.contents (idx : MinimizerIndex) (key : Nat) : Finset Nat :=
  (lookup idx.hashTable key).toFinset

/-- `insert` as the spec sees it. -/
def insertContents (s : Nat → Finset Nat) (key code : Nat) (key' : Nat) : Finset Nat :=
  if key' = key ∧ key ≠ noKey ∧ code ≠ noValue then insert code (s key') else s key'

variable {idx idx' : MinimizerIndex}

theorem MinimizerIndex.Sound.of_perm (h : idx.Sound) (hk : KeysInv (idx'.hashTable.map Cell.key))
    {old new : List Cell}
    (hperm : (keyedCells idx'.hashTable ++ old).Perm (keyedCells idx.hashTable ++ new))
    (hvalid : ∀ c ∈ new, c.value.Valid) (hkeys : idx'.keys + old.length = idx.keys + new.length)
    (hvalues : idx'.values + (old.map fun c => c.value.codes.length).sum =
      idx.values + (new.map fun c => c.value.codes.length).sum)
    (hunique : idx'.unique + (old.filter fun c => c.value.isSingle).length =
      idx.unique + (new.filter fun c => c.value.isSingle).length) : idx'.Sound := by
  have hlen := hperm.length_eq
  have hsum := (hperm.map fun c => c.value.codes.length).sum_eq
  have hfil := (hperm.filter fun c => c.value.isSingle).length_eq
  simp only [List.length_append, List.map_append, List.sum_append, List.filter_append]
    at hlen hsum hfil
  have := h.keys_eq
  have := h.values_eq
  have := h.unique_eq
  refine ⟨hk, fun c hc => ?_, by omega, by omega, by omega⟩
  rcases List.mem_append.1 (hperm.subset (List.mem_append_left old hc)) with hc | hc
  · exact h.valid c hc
  · exact hvalid c hc

theorem lookup_sorted (h : idx.Sound) (key : Nat) : (lookup idx.hashTable key).Sorted (· < ·) := by
  by_cases hc : ∃ c ∈ idx.hashTable, c.key = key ∧ key ≠ noKey
  · obtain ⟨c, hc, rfl, hno⟩ := hc
    rw [lookup_of_mem h.keysInv hc hno]
    have hv := h.valid c (List.mem_filter.2 ⟨hc, by simpa using hno⟩)
    cases hcv : c.value with
    | single code => exact List.sorted_singleton code
    | multi codes => rw [hcv] at hv; exact hv.1
  · push_neg at hc
    by_cases hno : key = noKey
    · simp [lookup, hno]
    · rw [lookup_of_forall_ne fun c hc' heq => hno (hc c hc' heq)]
      exact List.sorted_nil

/-! ## Sorted insertion -/

theorem insertCode_spec {codes : List Nat} (hs : codes.Sorted (· < ·)) (code : Nat) :
    (insertCode code codes = none → code ∈ codes) ∧
      ∀ l, insertCode code codes = some l → l.Sorted (· < ·) ∧ l.Perm (code :: codes) := by
  have hsplit := List.takeWhile_append_dropWhile (fun x => decide (x < code)) codes
  have hlo : ∀ a ∈ codes.takeWhile (· < code), a < code := fun a ha => by
    simpa using List.mem_takeWhile_imp ha
  have hs' : (codes.takeWhile (· < code) ++ codes.dropWhile (· < code)).Sorted (· < ·) := by
    rwa [hsplit]
  simp only [List.Sorted, List.pairwise_append] at hs'
  -- Every code from the first one not below `code` on is at least `code`.
  have hhi : ∀ b ∈ codes.dropWhile (· < code), code ≤ b := by
    intro b hb
    have hne : codes.dropWhile (· < code) ≠ [] := List.ne_nil_of_mem hb
    have hhead := List.head_dropWhile_not (fun x => decide (x < code)) codes hne
    simp only [decide_eq_false_iff_not, not_lt] at hhead
    obtain ⟨h, t, ht⟩ := List.exists_cons_of_ne_nil hne
    simp only [ht, List.head_cons] at hhead
    rw [ht] at hb hs'
    rcases List.mem_cons.1 hb with rfl | hb
    · exact hhead
    · exact hhead.trans (List.rel_of_pairwise_cons hs'.2.1 hb).le
  unfold insertCode
  constructor
  · intro hnone
    split_ifs at hnone with hhead
    exact hsplit ▸ List.mem_append_right _ (List.mem_of_mem_head? hhead)
  · intro l hl
    split_ifs at hl with hhead
    cases hl
    refine ⟨?_, List.perm_middle.trans (by rw [hsplit])⟩
    simp only [List.Sorted, List.pairwise_append, List.pairwise_cons, List.mem_cons]
    refine ⟨hs'.1, ⟨fun b hb => lt_of_le_of_ne (hhi b hb) fun heq => ?_, hs'.2.1⟩,
      fun a ha b hb => hb.elim (fun hb => hb ▸ hlo a ha) (hs'.2.2 a ha b)⟩
    -- `b = code` in the codes from the first not below it: then it is the first.
    subst heq
    obtain ⟨h, t, ht⟩ := List.exists_cons_of_ne_nil (List.ne_nil_of_mem hb)
    rw [ht] at hb hhead hs'
    rcases List.mem_cons.1 hb with rfl | hb
    · exact hhead rfl
    · have := hhi h (by rw [ht]; exact List.mem_cons_self _ _)
      exact absurd (List.rel_of_pairwise_cons hs'.2.1 hb) (not_lt.2 this)

/-! ## Rehash -/

theorem length_filter_map_key (T : List Cell) :
    ((T.map Cell.key).filter (· ≠ noKey)).length = (keyedCells T).length := by
  rw [List.filter_map, List.length_map]
  rfl

theorem key_ne_of_mem_prefix {old pre rest : List Cell} {c p : Cell}
    (hold : KeysInv (old.map Cell.key)) (hpre : pre ++ c :: rest = old) (hc : c.key ≠ noKey)
    (hp : p ∈ pre) : p.key ≠ c.key := by
  obtain ⟨a, ha, rfl⟩ := List.mem_iff_getElem.1 hp
  intro heq
  have hlen : old.length = pre.length + rest.length + 1 := by rw [← hpre]; simp; omega
  have h₁ : (old.map Cell.key).getD a noKey = pre[a].key := by
    rw [getD_map_key, List.getD_eq_getElem _ _ (by omega)]
    simp only [← hpre, List.getElem_append_left ha]
  have h₂ : (old.map Cell.key).getD pre.length noKey = c.key := by
    rw [getD_map_key, List.getD_eq_getElem _ _ (by omega)]
    simp only [← hpre, List.getElem_append_right (le_refl _), Nat.sub_self, List.getElem_cons_zero]
  have := hold.distinct a (by simp; omega) pre.length (by simp; omega) (by rw [h₁, heq]; exact hc)
    (by rw [h₁, h₂, heq])
  omega

theorem foldlM_moveCell {old : List Cell} (hold : KeysInv (old.map Cell.key)) :
    ∀ (pre rest T : List Cell), pre ++ rest = old → KeysInv (T.map Cell.key) →
      (keyedCells T).Perm (keyedCells pre) → old.length < T.length →
      ∃ T', rest.foldlM moveCell T = some T' ∧ KeysInv (T'.map Cell.key) ∧
        (keyedCells T').Perm (keyedCells old) ∧ T'.length = T.length
  | pre, [], T, hpre, hk, hperm, _ => ⟨T, rfl, hk, by rwa [← hpre, List.append_nil], rfl⟩
  | pre, c :: rest, T, hpre, hk, hperm, hlen => by
    rw [List.foldlM_cons]
    have hpre' : (pre ++ [c]) ++ rest = old := by simpa using hpre
    by_cases hc : c.key = noKey
    · have hmove : moveCell T c = some T := if_pos hc
      rw [hmove]
      refine foldlM_moveCell hold (pre ++ [c]) rest T hpre' hk ?_ hlen
      simpa [keyedCells, hc] using hperm
    -- No cell of the new table has the key: its cells are those of the old one before `c`.
    have habs : ∀ j < (T.map Cell.key).length, (T.map Cell.key).getD j noKey ≠ c.key := by
      intro j hj heq
      rw [getD_map_key] at heq
      have hmem : T.getD j emptyCell ∈ keyedCells pre := hperm.subset (List.mem_filter.2
        ⟨getD_mem (by simpa using hj) _, decide_eq_true (by rw [heq]; exact hc)⟩)
      exact key_ne_of_mem_prefix hold hpre hc (List.mem_filter.1 hmem).1 heq
    have hfree : ((T.map Cell.key).filter (· ≠ noKey)).length < (T.map Cell.key).length := by
      rw [length_filter_map_key, hperm.length_eq, List.length_map]
      have : pre.length < old.length := by rw [← hpre]; simp
      exact lt_of_le_of_lt (List.length_filter_le _ _) (this.trans hlen)
    obtain ⟨e, he, hempty⟩ := exists_getD_eq_noKey hfree
    obtain ⟨i, hi, hil, hie, hk'⟩ := hk.findSlot_new hc habs he hempty
    have hil' : i < T.length := by simpa using hil
    have hmove : moveCell T c = some (T.set i c) := by
      simp only [moveCell, if_neg hc, findOffset, hi, Option.map_some']
    rw [hmove]
    -- The empty slot leaves and `c` comes in.
    rw [getD_map_key, List.getD_eq_getElem _ _ hil'] at hie
    have hset := keyedCells_set_of_empty hil' hie hc
    have hpc : keyedCells (pre ++ [c]) = keyedCells pre ++ [c] := by
      simp [keyedCells, List.filter_append, hc]
    obtain ⟨T', h₁, h₂, h₃, h₄⟩ := foldlM_moveCell hold (pre ++ [c]) rest (T.set i c) hpre'
      (by rwa [List.map_set]) (hpc ▸ hset.trans (hperm.append_right [c])) (by simpa using hlen)
    exact ⟨T', h₁, h₂, h₃, by simpa using h₄⟩

theorem MinimizerIndex.rehash_spec (h : idx.Sound) (hlen : 0 < idx.hashTable.length) :
    ∃ idx', idx.rehash = some idx' ∧ idx'.Sound ∧
      idx'.hashTable.length = 2 * idx.hashTable.length ∧
      idx'.maxKeys = maxKeysOf (2 * idx.hashTable.length) ∧ idx'.keys = idx.keys ∧
      idx'.contents = idx.contents := by
  obtain ⟨T', hT, hk', hperm, hlen'⟩ := foldlM_moveCell h.keysInv [] idx.hashTable
    (List.replicate (2 * idx.hashTable.length) emptyCell) rfl
    (by simpa [List.map_replicate, emptyCell] using keysInv_replicate _)
    (by simp [keyedCells, List.filter_replicate, emptyCell]) (by simp; omega)
  have hperm' : (keyedCells T' ++ []).Perm (keyedCells idx.hashTable ++ []) := by simpa using hperm
  refine ⟨{ idx with hashTable := T', maxKeys := maxKeysOf (2 * idx.hashTable.length) },
    by simp [MinimizerIndex.rehash, hT], h.of_perm hk' hperm' (by simp) rfl rfl rfl,
    by simpa using hlen', rfl, rfl, funext fun key => ?_⟩
  simp only [MinimizerIndex.contents]
  rw [lookup_perm h.keysInv hk' hperm' (by simp)]

/-! ## Insertion -/

theorem maxKeysOf_add_one_le {n : Nat} (hn : 0 < n) : maxKeysOf n + 1 ≤ maxKeysOf (2 * n) := by
  unfold maxKeysOf
  have hsum : n * 77 / 100 + n * 77 / 100 ≤ 2 * n * 77 / 100 := by
    rw [show 2 * n * 77 = n * 77 + n * 77 by ring]
    exact Nat.add_div_le_add_div _ _ _
  rcases Nat.lt_or_ge n 2 with h2 | h2
  · obtain rfl : n = 1 := by omega
    decide
  · have : 1 ≤ n * 77 / 100 := (Nat.le_div_iff_mul_le (by norm_num)).2 (by omega)
    omega

/-- One insertion: no fewer keys, and the same cells or twice as many past `max_keys`. -/
def MinimizerIndex.Grows (idx idx' : MinimizerIndex) : Prop :=
  idx.keys ≤ idx'.keys ∧ (idx'.hashTable.length = idx.hashTable.length ∨
    idx'.hashTable.length = 2 * idx.hashTable.length ∧ idx.maxKeys < idx'.keys)

theorem MinimizerIndex.grows_refl (idx : MinimizerIndex) : idx.Grows idx := ⟨le_rfl, Or.inl rfl⟩

theorem MinimizerIndex.insertKey_spec (hwf : idx.WF) {x code i : Nat} (hx : x ≠ noKey)
    (hcode : code ≠ noValue) (habs : ∀ c ∈ idx.hashTable, c.key ≠ x)
    (hi : i < idx.hashTable.length) (hempty : (idx.hashTable.getD i emptyCell).key = noKey)
    (hk : KeysInv ((idx.hashTable.map Cell.key).set i x)) :
    ∃ idx', idx.insertKey x code i = some idx' ∧ idx'.WF ∧
      idx'.contents = insertContents idx.contents x code ∧ idx.Grows idx' := by
  set c : Cell := ⟨x, .single code⟩
  set idx₁ : MinimizerIndex := { idx with
    hashTable := idx.hashTable.set i c
    keys := idx.keys + 1, values := idx.values + 1, unique := idx.unique + 1 }
  rw [List.getD_eq_getElem _ _ hi] at hempty
  have hperm : (keyedCells idx₁.hashTable ++ []).Perm (keyedCells idx.hashTable ++ [c]) := by
    rw [List.append_nil]
    exact keyedCells_set_of_empty hi hempty hx
  have hk₁ : KeysInv (idx₁.hashTable.map Cell.key) := by simpa [idx₁, List.map_set] using hk
  have hsound : idx₁.Sound := hwf.sound.of_perm hk₁ hperm (by simpa [c] using hcode) rfl
    (by simp [idx₁, c, CellValue.codes]) (by simp [idx₁, c, CellValue.isSingle])
  have hcontents : idx₁.contents = insertContents idx.contents x code := by
    funext key
    simp only [MinimizerIndex.contents, insertContents]
    by_cases hkey : key = x
    · subst hkey
      rw [if_pos ⟨rfl, hx, hcode⟩, lookup_of_forall_ne habs,
        show lookup idx₁.hashTable c.key = c.value.codes from lookup_of_mem hk₁
          (List.mem_iff_getElem.2 ⟨i, by simpa [idx₁] using hi, by simp [idx₁]⟩) hx]
      rfl
    · rw [if_neg fun h => hkey h.1,
        lookup_perm hwf.sound.keysInv hk₁ hperm (by simpa [c] using Ne.symm hkey)]
  obtain ⟨n, hn⟩ := hwf.capacity_pow
  have hlen : 0 < idx.hashTable.length := hn ▸ Nat.two_pow_pos n
  have hle := hwf.keys_le
  rw [hwf.maxKeys_eq] at hle
  have hdef : idx.insertKey x code i =
      if idx₁.maxKeys < idx₁.keys then idx₁.rehash else some idx₁ := rfl
  rw [hdef]
  split_ifs with hover
  · -- Over `max_keys`: the rehash doubles the table, and one more key fits.
    obtain ⟨idx₂, hre, hsound₂, hlen₂, hmax₂, hkeys₂, hcontents₂⟩ :=
      MinimizerIndex.rehash_spec hsound (by simpa [idx₁] using hlen)
    simp only [idx₁, List.length_set] at hlen₂ hmax₂ hkeys₂ hover
    refine ⟨idx₂, hre, ⟨hsound₂, ⟨n + 1, by rw [hlen₂, hn, pow_succ, Nat.mul_comm]⟩,
      by rw [hmax₂, hlen₂], ?_⟩, hcontents₂.trans hcontents,
      ⟨by omega, Or.inr ⟨hlen₂, by omega⟩⟩⟩
    have := maxKeysOf_add_one_le hlen
    omega
  · exact ⟨idx₁, rfl, ⟨hsound, hwf.capacity_pow.imp fun n hn => by simpa [idx₁] using hn,
      by simpa [idx₁] using hwf.maxKeys_eq, Nat.le_of_not_lt hover⟩, hcontents,
      ⟨Nat.le_succ _, Or.inl (List.length_set _ _ _)⟩⟩

theorem MinimizerIndex.WF.setValue (hwf : idx.WF) {i : Nat} (hi : i < idx.hashTable.length)
    (hx : idx.hashTable[i].key ≠ noKey) {v : CellValue} (hv : v.Valid) (values unique : Nat)
    (hvalues : values + idx.hashTable[i].value.codes.length = idx.values + v.codes.length)
    (hunique : unique + ([idx.hashTable[i]].filter fun c => c.value.isSingle).length = idx.unique +
      ([(⟨idx.hashTable[i].key, v⟩ : Cell)].filter fun c => c.value.isSingle).length) :
    ({ idx with
        hashTable := idx.hashTable.set i ⟨idx.hashTable[i].key, v⟩
        values := values
        unique := unique } : MinimizerIndex).WF ∧
      ∀ key, ({ idx with
        hashTable := idx.hashTable.set i ⟨idx.hashTable[i].key, v⟩
        values := values
        unique := unique } : MinimizerIndex).contents key =
          if key = idx.hashTable[i].key then v.codes.toFinset else idx.contents key := by
  have hset := keyedCells_set_of_keyed hi hx (c := ⟨idx.hashTable[i].key, v⟩) hx
  set c := idx.hashTable[i]
  set c' : Cell := ⟨c.key, v⟩
  -- The keys of the cells are those of before.
  have hkeyset : (idx.hashTable.map Cell.key).set i c.key = idx.hashTable.map Cell.key := by
    refine List.ext_getElem (by simp) fun j _ _ => ?_
    rw [List.getElem_set]
    split_ifs with h
    · subst h; simp [c]
    · rfl
  have hk' : KeysInv ((idx.hashTable.set i c').map Cell.key) := by
    rw [List.map_set, hkeyset]
    exact hwf.sound.keysInv
  have hlen : (idx.hashTable.set i c').length = idx.hashTable.length := List.length_set _ _ _
  refine ⟨⟨hwf.sound.of_perm hk' hset (by simpa using hv) (by simp) (by simpa using hvalues)
      hunique, hlen ▸ hwf.capacity_pow, by rw [hlen]; exact hwf.maxKeys_eq, hwf.keys_le⟩,
    fun key => ?_⟩
  simp only [MinimizerIndex.contents]
  split_ifs with hkey
  · subst hkey
    rw [show lookup (idx.hashTable.set i c') c.key = c'.value.codes from lookup_of_mem (c := c') hk'
      (List.mem_iff_getElem.2 ⟨i, by simpa using hi, by simp⟩) hx]
  · rw [lookup_perm hwf.sound.keysInv hk' hset (by simpa [c'] using Ne.symm hkey)]

theorem pair_valid {old code : Nat} (hne : old ≠ code) (hold : old ≠ noValue)
    (hcode : code ≠ noValue) :
    (CellValue.multi (if old < code then [old, code] else [code, old])).Valid := by
  refine ⟨?_, by split_ifs <;> simp, by split_ifs <;> simp [Ne.symm hold, Ne.symm hcode]⟩
  split_ifs with h <;> simp <;> omega

theorem toFinset_pair (old code : Nat) :
    (if old < code then [old, code] else [code, old]).toFinset = insert code {old} := by
  split_ifs <;> ext <;> simp [or_comm]

theorem MinimizerIndex.append_spec (hwf : idx.WF) {i code : Nat} (hi : i < idx.hashTable.length)
    (hx : idx.hashTable[i].key ≠ noKey) (hcode : code ≠ noValue) :
    (idx.append code i).WF ∧
      (idx.append code i).contents = insertContents idx.contents idx.hashTable[i].key code ∧
      idx.Grows (idx.append code i) := by
  have hmem : idx.hashTable[i] ∈ keyedCells idx.hashTable :=
    List.mem_filter.2 ⟨List.getElem_mem hi, by simpa using hx⟩
  have hold := lookup_of_mem hwf.sound.keysInv (List.getElem_mem hi) hx
  have hvalid := hwf.sound.valid _ hmem
  -- Away from the key, and at the key when the code is already there, nothing changes.
  have hsame : ∀ key, code ∈ idx.contents idx.hashTable[i].key →
      idx.contents key = insertContents idx.contents idx.hashTable[i].key code key := by
    intro key hin
    by_cases hkey : key = idx.hashTable[i].key
    · subst hkey
      simp [insertContents, hx, hcode, Finset.insert_eq_of_mem hin]
    · simp [insertContents, hkey]
  have hnew : ∀ {v : CellValue},
      v.codes.toFinset = Insert.insert code (idx.contents idx.hashTable[i].key) →
      ∀ key, (if key = idx.hashTable[i].key then v.codes.toFinset else idx.contents key) =
        insertContents idx.contents idx.hashTable[i].key code key := by
    intro v hv key
    split_ifs with hkey
    · subst hkey; simp [insertContents, hx, hcode, hv]
    · simp [insertContents, hkey]
  have hcodes : idx.contents idx.hashTable[i].key = idx.hashTable[i].value.codes.toFinset := by
    rw [MinimizerIndex.contents, hold]
  unfold MinimizerIndex.append
  rw [List.getD_eq_getElem _ _ hi]
  rcases hc : idx.hashTable[i] with ⟨x, old | codes⟩
  all_goals rw [hc] at hx hcodes hvalid hsame hnew; dsimp only at hx hcodes hvalid hsame hnew ⊢
  · simp only [CellValue.codes, List.toFinset_cons, List.toFinset_nil, insert_emptyc_eq] at hcodes
    by_cases heq : old = code
    · rw [if_pos heq]
      exact ⟨hwf, funext fun key => hsame key (hcodes ▸ heq ▸ Finset.mem_singleton_self _),
        idx.grows_refl⟩
    · -- A second code: the cell holds the sorted pair, and the key is no longer unique.
      rw [if_neg heq]
      have hunique : 0 < idx.unique := by
        rw [hwf.sound.unique_eq]
        exact List.length_pos_of_mem (List.mem_filter.2 ⟨hmem, by simp [hc, CellValue.isSingle]⟩)
      have hpair : (if old < code then [old, code] else [code, old]).length = 2 := by
        split_ifs <;> rfl
      have hset := hwf.setValue hi (by rwa [hc]) (pair_valid heq hvalid hcode)
        (idx.values + 1) (idx.unique - 1)
        (by simp only [hc, CellValue.codes, hpair, List.length_singleton])
        (by simp [hc, CellValue.isSingle]; omega)
      simp only [hc] at hset
      exact ⟨hset.1, funext fun k => (hset.2 k).trans
        (hnew (by simp only [CellValue.codes, toFinset_pair, hcodes]) k),
        ⟨le_rfl, Or.inl (List.length_set _ _ _)⟩⟩
  · simp only [CellValue.codes] at hcodes
    obtain ⟨hnone, hsome⟩ := insertCode_spec hvalid.1 code
    cases hins : insertCode code codes with
    | none =>
      exact ⟨hwf, funext fun key => hsame key (hcodes ▸ List.mem_toFinset.2 (hnone hins)),
        idx.grows_refl⟩
    | some l =>
      -- One more code in a list of codes.
      obtain ⟨hsorted, hperm⟩ := hsome l hins
      have hlen : l.length = codes.length + 1 := hperm.length_eq
      have hmany := hvalid.2.1
      have hset := hwf.setValue hi (by rwa [hc]) (v := .multi l)
        ⟨hsorted, by omega, fun h => ?_⟩ (idx.values + 1) idx.unique
        (by simp only [hc, CellValue.codes, hlen]; omega) (by simp [hc, CellValue.isSingle])
      · simp only [hc] at hset
        exact ⟨hset.1, funext fun k => (hset.2 k).trans
          (hnew (by simp only [CellValue.codes, hcodes, List.toFinset_eq_of_perm _ _ hperm,
            List.toFinset_cons]) k), ⟨le_rfl, Or.inl (List.length_set _ _ _)⟩⟩
      · rcases List.mem_cons.1 (hperm.subset h) with h | h
        · exact hcode h.symm
        · exact hvalid.2.2 h

theorem capacity_pos (hwf : idx.WF) : 0 < idx.hashTable.length := by
  obtain ⟨n, hn⟩ := hwf.capacity_pow
  rw [hn]
  exact Nat.two_pow_pos n

theorem findOffset_of_mem (hk : KeysInv (T.map Cell.key)) {i : Nat} (hi : i < T.length)
    (hx : T[i].key ≠ noKey) : findOffset T T[i].key (wangHash64 T[i].key) = some i := by
  have hg : (T.map Cell.key).getD i noKey = T[i].key := by
    rw [getD_map_key, List.getD_eq_getElem _ _ hi]
  have := hk.findSlot_getD (by simpa using hi) (hg ▸ hx)
  rwa [hg] at this

/-- `insert` refines `insertContents`, for a minimizer hashed by its key. -/
theorem MinimizerIndex.insert_spec (hwf : idx.WF) (m : Minimizer) (pos : Pos)
    (hm : m.hash = wangHash64 m.key) :
    ∃ idx', idx.insert m pos = some idx' ∧ idx'.WF ∧
      idx'.contents = insertContents idx.contents m.key pos.encode ∧ idx.Grows idx' := by
  unfold MinimizerIndex.insert
  rw [hm]
  generalize m.key = x
  by_cases hskip : x = noKey ∨ pos.encode = noValue
  · refine ⟨idx, if_pos hskip, hwf, funext fun key => ?_, idx.grows_refl⟩
    rw [insertContents, if_neg (by tauto)]
  rw [if_neg hskip]
  obtain ⟨hx, hcode⟩ := not_or.1 hskip
  by_cases hin : ∃ c ∈ idx.hashTable, c.key = x
  · -- A key of the table: one more code in its cell.
    obtain ⟨c, hc, rfl⟩ := hin
    obtain ⟨i, hi, rfl⟩ := List.mem_iff_getElem.1 hc
    rw [findOffset_of_mem hwf.sound.keysInv hi hx]
    dsimp only
    rw [List.getD_eq_getElem _ _ hi, if_neg hx, if_pos rfl]
    exact ⟨_, rfl, MinimizerIndex.append_spec hwf hi hx hcode⟩
  · -- A new key: the table has an empty cell, and the search stops at one.
    push_neg at hin
    have hfree : ((idx.hashTable.map Cell.key).filter (· ≠ noKey)).length <
        (idx.hashTable.map Cell.key).length := by
      rw [length_filter_map_key, List.length_map, ← hwf.sound.keys_eq]
      have := capacity_pos hwf
      calc idx.keys ≤ idx.maxKeys := hwf.keys_le
        _ = idx.hashTable.length * 77 / 100 := hwf.maxKeys_eq
        _ < idx.hashTable.length := by omega
    obtain ⟨e, he, hempty⟩ := exists_getD_eq_noKey hfree
    have habs : ∀ j < (idx.hashTable.map Cell.key).length,
        (idx.hashTable.map Cell.key).getD j noKey ≠ x := fun j hj => by
      rw [getD_map_key, List.getD_eq_getElem _ _ (by simpa using hj)]
      exact hin _ (List.getElem_mem _)
    obtain ⟨i, hslot, hi, hie, hk'⟩ := hwf.sound.keysInv.findSlot_new hx habs he hempty
    rw [List.length_map] at hi
    rw [getD_map_key] at hie
    rw [findOffset, hslot]
    dsimp only
    rw [if_pos hie]
    exact MinimizerIndex.insertKey_spec hwf hx hcode hin hi hie hk'

theorem MinimizerIndex.find_eq_lookup (h : idx.Sound) (m : Minimizer)
    (hm : m.hash = wangHash64 m.key) :
    idx.find m = (lookup idx.hashTable m.key).map Pos.decode := by
  unfold MinimizerIndex.find
  rw [hm]
  generalize m.key = x
  by_cases hx : x = noKey
  · rw [if_pos hx, lookup, if_pos hx, List.map_nil]
  rw [if_neg hx]
  by_cases hin : ∃ c ∈ idx.hashTable, c.key = x
  · obtain ⟨c, hc, rfl⟩ := hin
    obtain ⟨i, hi, rfl⟩ := List.mem_iff_getElem.1 hc
    rw [findOffset_of_mem h.keysInv hi hx]
    dsimp only
    rw [List.getD_eq_getElem _ _ hi, if_pos rfl, lookup_of_mem h.keysInv hc hx]
  · -- No cell has the key: wherever the search stops, the cell is another key's.
    push_neg at hin
    rw [lookup_of_forall_ne hin, List.map_nil]
    split
    · rfl
    · next offset _ =>
      rw [if_neg]
      by_cases ho : offset < idx.hashTable.length
      · rw [List.getD_eq_getElem _ _ ho]
        exact hin _ (List.getElem_mem ho)
      · rw [List.getD_eq_default _ _ (Nat.le_of_not_lt ho)]
        exact Ne.symm hx

theorem MinimizerIndex.find_eq_sort (h : idx.Sound) (m : Minimizer)
    (hm : m.hash = wangHash64 m.key) :
    idx.find m = ((idx.contents m.key).sort (· ≤ ·)).map Pos.decode := by
  rw [MinimizerIndex.find_eq_lookup h m hm, MinimizerIndex.contents]
  congr 1
  have hs := lookup_sorted h m.key
  exact (List.toFinset_sort _ hs.nodup).2 (hs.imp le_of_lt) |>.symm

end GbwtGraph
