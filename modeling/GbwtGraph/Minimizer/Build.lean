import GbwtGraph.Minimizer.Table

/-! # Building an index

An index built with `insert` from `MinimizerIndex(k, w)` is determined by the insertions alone:
the codes of a key are the distinct codes inserted with it, other than `NO_VALUE`, and the counters
behind `size()`, `values()` and `unique_keys()` count the keys, their codes, and the keys with one
code. This is what the tests of the index check after each run of insertions.
-/

namespace GbwtGraph

/-! ## The codes of a run -/

/-- The codes a run puts under a key, without `NO_VALUE`; none under `no_key()`. -/
def insertedCodes (ops : List (Minimizer × Pos)) (key : Nat) : Finset Nat :=
  if key = noKey then ∅
  else ((ops.filter fun op => op.1.key = key).map fun op => op.2.encode).toFinset.erase noValue

def insertedKeys (ops : List (Minimizer × Pos)) : Finset Nat :=
  (ops.map fun op => op.1.key).toFinset.filter fun key => (insertedCodes ops key).Nonempty

theorem mem_insertedCodes {ops : List (Minimizer × Pos)} {key code : Nat} :
    code ∈ insertedCodes ops key ↔
      key ≠ noKey ∧ code ≠ noValue ∧ ∃ op ∈ ops, op.1.key = key ∧ op.2.encode = code := by
  unfold insertedCodes
  split_ifs with hkey
  · simp only [Finset.not_mem_empty, hkey, ne_eq, not_true_eq_false, false_and]
  · simp only [Finset.mem_erase, List.mem_toFinset, List.mem_map, List.mem_filter,
      decide_eq_true_eq, ne_eq, hkey, not_false_eq_true, true_and, and_assoc]

theorem mem_insertedKeys {ops : List (Minimizer × Pos)} {key : Nat} :
    key ∈ insertedKeys ops ↔ (insertedCodes ops key).Nonempty := by
  rw [insertedKeys, Finset.mem_filter, List.mem_toFinset, and_iff_right_iff_imp]
  rintro ⟨code, hcode⟩
  obtain ⟨-, -, op, hop, hkey, -⟩ := mem_insertedCodes.1 hcode
  exact List.mem_map.2 ⟨op, hop, hkey⟩

theorem card_insertedKeys {ops : List (Minimizer × Pos)}
    (hnd : (ops.map fun op => op.1.key).Nodup)
    (hops : ∀ op ∈ ops, op.1.key ≠ noKey ∧ op.2.encode ≠ noValue) :
    (insertedKeys ops).card = ops.length := by
  rw [insertedKeys, Finset.filter_true_of_mem, List.toFinset_card_of_nodup hnd, List.length_map]
  intro key hkey
  obtain ⟨op, hop, rfl⟩ := List.mem_map.1 (List.mem_toFinset.1 hkey)
  exact ⟨op.2.encode, mem_insertedCodes.2 ⟨(hops op hop).1, (hops op hop).2, op, hop, rfl, rfl⟩⟩

@[simp]
theorem insertedCodes_nil (key : Nat) : insertedCodes [] key = ∅ := by
  simp [insertedCodes]

theorem insertContents_union_insertedCodes (s : Nat → Finset Nat) (op : Minimizer × Pos)
    (ops : List (Minimizer × Pos)) (key : Nat) :
    insertContents s op.1.key op.2.encode key ∪ insertedCodes ops key =
      s key ∪ insertedCodes (op :: ops) key := by
  unfold insertContents insertedCodes
  by_cases hkey : key = noKey
  · rw [if_neg fun h => h.2.1 (h.1 ▸ hkey), if_pos hkey, if_pos hkey]
  rw [if_neg hkey, if_neg hkey, List.filter_cons]
  by_cases hop : op.1.key = key
  · rw [if_pos (decide_eq_true hop), List.map_cons, List.toFinset_cons]
    by_cases hcode : op.2.encode = noValue
    · rw [if_neg fun h => h.2.2 hcode, hcode, Finset.erase_insert_eq_erase]
    · rw [if_pos ⟨hop.symm, fun h => hkey (hop ▸ h), hcode⟩, Finset.erase_insert_of_ne hcode,
        Finset.insert_union, Finset.union_insert]
  · rw [if_neg fun h => hop h.1.symm, if_neg (mt of_decide_eq_true hop)]

/-! ## Runs of insertions -/

variable {idx idx' : MinimizerIndex}

/-- `INITIAL_CAPACITY * 2 ^ n` cells, and more keys than each smaller such table holds. -/
def MinimizerIndex.LeastCapacity (idx : MinimizerIndex) : Prop :=
  ∃ n, idx.hashTable.length = initialCapacity * 2 ^ n ∧
    ∀ j < n, maxKeysOf (initialCapacity * 2 ^ j) < idx.keys

theorem MinimizerIndex.LeastCapacity.grows (h : idx.LeastCapacity) (hwf : idx.WF)
    (hg : idx.Grows idx') : idx'.LeastCapacity := by
  obtain ⟨n, hn, hless⟩ := h
  obtain ⟨hkeys, hsame | ⟨hdouble, hover⟩⟩ := hg
  · exact ⟨n, hsame.trans hn, fun j hj => (hless j hj).trans_le hkeys⟩
  · refine ⟨n + 1, by rw [hdouble, hn, pow_succ]; ring, fun j hj => ?_⟩
    rcases Nat.lt_succ_iff_lt_or_eq.1 hj with hj | rfl
    · exact (hless j hj).trans_le hkeys
    · rwa [← hn, ← hwf.maxKeys_eq]

theorem MinimizerIndex.insertAll_spec (hwf : idx.WF) (ops : List (Minimizer × Pos))
    (hops : ∀ op ∈ ops, op.1.hash = wangHash64 op.1.key) :
    ∃ idx', idx.insertAll ops = some idx' ∧ idx'.WF ∧
      (∀ key, idx'.contents key = idx.contents key ∪ insertedCodes ops key) ∧
      (idx.LeastCapacity → idx'.LeastCapacity) := by
  induction ops generalizing idx with
  | nil => exact ⟨idx, rfl, hwf, fun key => by simp, id⟩
  | cons op ops ih =>
    obtain ⟨idx₁, h₁, hwf₁, hc₁, hg₁⟩ :=
      MinimizerIndex.insert_spec hwf op.1 op.2 (hops op (List.mem_cons_self _ _))
    obtain ⟨idx', h', hwf', hc', hl'⟩ :=
      ih hwf₁ fun op' hop' => hops op' (List.mem_cons_of_mem _ hop')
    refine ⟨idx', ?_, hwf', fun key => ?_, fun hl => hl' (hl.grows hwf hg₁)⟩
    · simp only [MinimizerIndex.insertAll, List.foldlM_cons] at h' ⊢
      rw [h₁]
      exact h'
    · rw [hc', hc₁, insertContents_union_insertedCodes]

/-! ## The counters -/

theorem nodup_filter_ne_noKey : ∀ {ks : List Nat},
    (∀ i < ks.length, ∀ j < ks.length, ks.getD i noKey ≠ noKey →
      ks.getD i noKey = ks.getD j noKey → i = j) → (ks.filter (· ≠ noKey)).Nodup
  | [], _ => List.nodup_nil
  | a :: ks, h => by
    have ht : (ks.filter (· ≠ noKey)).Nodup := nodup_filter_ne_noKey fun i hi j hj hne heq =>
      Nat.succ_injective (h (i + 1) (by simpa using hi) (j + 1) (by simpa using hj) hne heq)
    rw [List.filter_cons]
    split_ifs with ha
    · refine List.nodup_cons.2 ⟨fun hmem => ?_, ht⟩
      obtain ⟨j, hj, hja⟩ := List.getElem_of_mem (List.mem_filter.1 hmem).1
      have := h 0 (by simp) (j + 1) (by simpa using hj) (by simpa using ha)
        (by rw [List.getD_cons_zero, List.getD_cons_succ, List.getD_eq_getElem _ _ hj, hja])
      omega
    · exact ht

variable (h : idx.Sound)
include h

theorem MinimizerIndex.Sound.nodup_keys : ((keyedCells idx.hashTable).map Cell.key).Nodup := by
  have := nodup_filter_ne_noKey h.keysInv.distinct
  rwa [List.filter_map] at this

theorem MinimizerIndex.Sound.codes_nodup {c : Cell} (hc : c ∈ keyedCells idx.hashTable) :
    c.value.codes.Nodup := by
  have hv := h.valid c hc
  cases hcv : c.value with
  | single code => exact List.nodup_singleton code
  | multi codes => rw [hcv] at hv; exact hv.1.nodup

theorem MinimizerIndex.Sound.contents_key {c : Cell} (hc : c ∈ keyedCells idx.hashTable) :
    idx.contents c.key = c.value.codes.toFinset := by
  obtain ⟨hmem, hne⟩ := List.mem_filter.1 hc
  rw [MinimizerIndex.contents, lookup_of_mem h.keysInv hmem (by simpa using hne)]

theorem MinimizerIndex.Sound.card_contents {c : Cell} (hc : c ∈ keyedCells idx.hashTable) :
    (idx.contents c.key).card = c.value.codes.length := by
  rw [h.contents_key hc, List.toFinset_card_of_nodup (h.codes_nodup hc)]

theorem MinimizerIndex.Sound.isSingle_iff {c : Cell} (hc : c ∈ keyedCells idx.hashTable) :
    c.value.isSingle = decide ((idx.contents c.key).card = 1) := by
  rw [h.card_contents hc]
  have hv := h.valid c hc
  cases hcv : c.value with
  | single code => rfl
  | multi codes =>
    rw [hcv] at hv
    have := hv.2.1
    simp only [CellValue.isSingle, CellValue.codes]
    rw [eq_comm, decide_eq_false_iff_not]
    omega

theorem MinimizerIndex.Sound.mem_keys_iff (key : Nat) :
    key ∈ (keyedCells idx.hashTable).map Cell.key ↔ (idx.contents key).Nonempty := by
  constructor
  · rintro hk
    obtain ⟨c, hc, rfl⟩ := List.mem_map.1 hk
    rw [h.contents_key hc, List.toFinset_nonempty_iff]
    have hv := h.valid c hc
    cases hcv : c.value with
    | single code => simp [CellValue.codes]
    | multi codes =>
      rw [hcv] at hv
      have := hv.2.1
      exact List.ne_nil_of_length_pos (show 0 < codes.length by omega)
  · rintro ⟨code, hcode⟩
    by_contra hk
    have hnil : lookup idx.hashTable key = [] := by
      by_cases hno : key = noKey
      · rw [lookup, if_pos hno]
      · exact lookup_of_forall_ne fun c hc heq =>
          hk (List.mem_map.2 ⟨c, List.mem_filter.2 ⟨hc, by simpa [heq] using hno⟩, heq⟩)
    rw [MinimizerIndex.contents, hnil] at hcode
    exact List.not_mem_nil _ (List.mem_toFinset.1 hcode)

theorem MinimizerIndex.Sound.counters {S : Finset Nat}
    (hS : ∀ key, key ∈ S ↔ (idx.contents key).Nonempty) :
    idx.keys = S.card ∧ idx.values = ∑ key ∈ S, (idx.contents key).card ∧
      idx.unique = (S.filter fun key => (idx.contents key).card = 1).card := by
  have hK := h.nodup_keys
  obtain rfl : S = ((keyedCells idx.hashTable).map Cell.key).toFinset := by
    ext key
    rw [hS, List.mem_toFinset, h.mem_keys_iff]
  refine ⟨?_, ?_, ?_⟩
  · rw [h.keys_eq, List.toFinset_card_of_nodup hK, List.length_map]
  · rw [h.values_eq, List.sum_toFinset _ hK, List.map_map]
    exact congrArg List.sum (List.map_congr_left fun c hc => (h.card_contents hc).symm)
  · have hfilter : ((keyedCells idx.hashTable).map Cell.key).toFinset.filter
          (fun key => (idx.contents key).card = 1) =
        (((keyedCells idx.hashTable).map Cell.key).filter
          fun key => decide ((idx.contents key).card = 1)).toFinset := by
      ext key
      simp
    rw [h.unique_eq, hfilter, List.toFinset_card_of_nodup (hK.filter _), List.filter_map,
      List.length_map]
    exact congrArg List.length (List.filter_congr fun c hc => h.isSingle_iff hc)

omit h

theorem keyedCells_new (k w : Nat) : keyedCells (MinimizerIndex.new k w).hashTable = [] := by
  show (List.replicate initialCapacity emptyCell).filter _ = []
  rw [List.filter_replicate, if_neg (by simp [emptyCell])]

theorem MinimizerIndex.new_wf (k w : Nat) : (MinimizerIndex.new k w).WF where
  sound :=
    { keysInv := by
        show KeysInv ((List.replicate initialCapacity emptyCell).map Cell.key)
        rw [List.map_replicate]
        exact keysInv_replicate _
      valid := by simp [keyedCells_new]
      keys_eq := by rw [keyedCells_new]; rfl
      values_eq := by rw [keyedCells_new]; rfl
      unique_eq := by rw [keyedCells_new]; rfl }
  capacity_pow := ⟨10, List.length_replicate _ _⟩
  maxKeys_eq := congrArg maxKeysOf (List.length_replicate _ _).symm
  keys_le := Nat.zero_le _

theorem MinimizerIndex.new_contents (k w key : Nat) : (MinimizerIndex.new k w).contents key = ∅ := by
  have := (MinimizerIndex.new_wf k w).sound.mem_keys_iff key
  rw [keyedCells_new] at this
  simpa [Finset.not_nonempty_iff_eq_empty] using this.symm

/-! ## Indexes built from empty -/

/-- An index built by a run holds the run's codes, and its counters count them. -/
theorem MinimizerIndex.build_spec (k w : Nat) (ops : List (Minimizer × Pos))
    (hops : ∀ op ∈ ops, op.1.hash = wangHash64 op.1.key) :
    ∃ idx, (MinimizerIndex.new k w).insertAll ops = some idx ∧ idx.WF ∧
      idx.contents = insertedCodes ops ∧ idx.keys = (insertedKeys ops).card ∧
      idx.values = ∑ key ∈ insertedKeys ops, (insertedCodes ops key).card ∧
      idx.unique = ((insertedKeys ops).filter fun key => (insertedCodes ops key).card = 1).card := by
  obtain ⟨idx, hrun, hwf, hc, -⟩ :=
    MinimizerIndex.insertAll_spec (MinimizerIndex.new_wf k w) ops hops
  have hcontents : idx.contents = insertedCodes ops := funext fun key => by
    rw [hc, MinimizerIndex.new_contents, Finset.empty_union]
  obtain ⟨hkeys, hvalues, hunique⟩ :=
    hwf.sound.counters fun key => by rw [hcontents]; exact mem_insertedKeys
  rw [hcontents] at hvalues hunique
  exact ⟨idx, hrun, hwf, hcontents, hkeys, hvalues, hunique⟩

theorem build_spec_multipleOccurrences :
    (∀ op ∈ [(getMinimizer 1, (⟨1, true, 1⟩ : Pos)), (getMinimizer 1, ⟨2, true, 2⟩),
      (getMinimizer 2, ⟨2, false, 2⟩)], op.1.hash = wangHash64 op.1.key) ∧
    ∃ idx, (MinimizerIndex.new 29 11).insertAll [(getMinimizer 1, ⟨1, true, 1⟩),
        (getMinimizer 1, ⟨2, true, 2⟩), (getMinimizer 2, ⟨2, false, 2⟩)] = some idx ∧ idx.WF ∧
      idx.contents = insertedCodes [(getMinimizer 1, ⟨1, true, 1⟩),
        (getMinimizer 1, ⟨2, true, 2⟩), (getMinimizer 2, ⟨2, false, 2⟩)] ∧
      idx.keys = (insertedKeys [(getMinimizer 1, ⟨1, true, 1⟩),
        (getMinimizer 1, ⟨2, true, 2⟩), (getMinimizer 2, ⟨2, false, 2⟩)]).card ∧
      idx.values = ∑ key ∈ insertedKeys [(getMinimizer 1, ⟨1, true, 1⟩),
        (getMinimizer 1, ⟨2, true, 2⟩), (getMinimizer 2, ⟨2, false, 2⟩)],
          (insertedCodes [(getMinimizer 1, ⟨1, true, 1⟩),
            (getMinimizer 1, ⟨2, true, 2⟩), (getMinimizer 2, ⟨2, false, 2⟩)] key).card ∧
      idx.unique = ((insertedKeys [(getMinimizer 1, ⟨1, true, 1⟩),
        (getMinimizer 1, ⟨2, true, 2⟩), (getMinimizer 2, ⟨2, false, 2⟩)]).filter fun key =>
          (insertedCodes [(getMinimizer 1, ⟨1, true, 1⟩),
            (getMinimizer 1, ⟨2, true, 2⟩), (getMinimizer 2, ⟨2, false, 2⟩)] key).card = 1).card :=
  ⟨by decide, MinimizerIndex.build_spec 29 11 _ (by decide)⟩

set_option maxRecDepth 20000 in
example : ((MinimizerIndex.new 29 11).insertAll [(getMinimizer 1, ⟨1, true, 1⟩),
    (getMinimizer 1, ⟨2, true, 2⟩), (getMinimizer 2, ⟨2, false, 2⟩),
    (getMinimizer 1, ⟨1, true, 1⟩)]).map (fun idx => (idx.keys, idx.values, idx.unique)) =
    some (2, 3, 1) := by
  decide

/-- `find` after a run returns the key's positions, each once, in the order of `pos_t`. -/
theorem MinimizerIndex.build_find (k w : Nat) (ops : List (Minimizer × Pos))
    (hops : ∀ op ∈ ops,
      op.1.hash = wangHash64 op.1.key ∧ op.2.id < 2 ^ 53 ∧ op.2.offset < 2 ^ offBits)
    (m : Minimizer) (hm : m.hash = wangHash64 m.key) :
    ∃ idx, (MinimizerIndex.new k w).insertAll ops = some idx ∧
      (idx.find m).Sorted (fun p q => p.order < q.order) ∧
      ∀ p, p ∈ idx.find m ↔ m.key ≠ noKey ∧ p.encode ≠ noValue ∧ ∃ op ∈ ops, op.1.key = m.key ∧ op.2 = p := by
  obtain ⟨idx, hrun, hwf, hc, -⟩ :=
    MinimizerIndex.insertAll_spec (MinimizerIndex.new_wf k w) ops fun op hop => (hops op hop).1
  have hcontents : idx.contents m.key = insertedCodes ops m.key := by
    rw [hc, MinimizerIndex.new_contents, Finset.empty_union]
  -- Every code under the key is the code of an inserted position, which it decodes back to.
  have hdecode : ∀ code ∈ insertedCodes ops m.key,
      ∃ p, p.encode = code ∧ Pos.decode code = p ∧ p.id < 2 ^ 53 ∧ p.offset < 2 ^ offBits :=
    fun code hcode => by
    obtain ⟨-, -, op, hop, -, rfl⟩ := mem_insertedCodes.1 hcode
    obtain ⟨-, hid, hoff⟩ := hops op hop
    exact ⟨op.2, rfl, decode_encode_of_lt hid hoff, hid, hoff⟩
  refine ⟨idx, hrun, ?_, fun p => ?_⟩
  · rw [MinimizerIndex.find_eq_sort hwf.sound m hm, hcontents, List.Sorted, List.pairwise_map]
    refine ((Finset.sort_sorted_lt _).imp_of_mem fun {a b} ha hb hab => ?_)
    obtain ⟨p, rfl, hpa, hp, hpo⟩ := hdecode a (Finset.mem_sort _ |>.1 ha)
    obtain ⟨q, rfl, hqb, hq, hqo⟩ := hdecode b (Finset.mem_sort _ |>.1 hb)
    rw [hpa, hqb]
    exact (encode_lt_encode_iff hp hq hpo hqo).1 hab
  · rw [MinimizerIndex.find_eq_sort hwf.sound m hm, hcontents, List.mem_map]
    simp only [Finset.mem_sort]
    constructor
    · rintro ⟨code, hcode, rfl⟩
      obtain ⟨hkey, hcode', op, hop, hopkey, rfl⟩ := mem_insertedCodes.1 hcode
      obtain ⟨-, hid, hoff⟩ := hops op hop
      rw [decode_encode_of_lt hid hoff]
      exact ⟨hkey, hcode', op, hop, hopkey, rfl⟩
    · rintro ⟨hkey, hcode, op, hop, hopkey, rfl⟩
      have hin : op.2.encode ∈ insertedCodes ops m.key :=
        mem_insertedCodes.2 ⟨hkey, hcode, op, hop, hopkey, rfl⟩
      obtain ⟨-, hid, hoff⟩ := hops op hop
      exact ⟨op.2.encode, hin, decode_encode_of_lt hid hoff⟩

theorem build_find_multipleOccurrences :
    (∀ op ∈ [(getMinimizer 1, (⟨2, true, 2⟩ : Pos)), (getMinimizer 2, ⟨2, false, 2⟩),
      (getMinimizer 1, ⟨1, true, 1⟩)],
        op.1.hash = wangHash64 op.1.key ∧ op.2.id < 2 ^ 53 ∧ op.2.offset < 2 ^ offBits) ∧
    (getMinimizer 1).hash = wangHash64 (getMinimizer 1).key ∧
    ∃ idx, (MinimizerIndex.new 29 11).insertAll [(getMinimizer 1, ⟨2, true, 2⟩),
        (getMinimizer 2, ⟨2, false, 2⟩), (getMinimizer 1, ⟨1, true, 1⟩)] = some idx ∧
      (idx.find (getMinimizer 1)).Sorted (fun p q => p.order < q.order) ∧
      ∀ p, p ∈ idx.find (getMinimizer 1) ↔ (getMinimizer 1).key ≠ noKey ∧ p.encode ≠ noValue ∧
        ∃ op ∈ [(getMinimizer 1, (⟨2, true, 2⟩ : Pos)), (getMinimizer 2, ⟨2, false, 2⟩),
          (getMinimizer 1, ⟨1, true, 1⟩)], op.1.key = (getMinimizer 1).key ∧ op.2 = p :=
  ⟨by decide, rfl, MinimizerIndex.build_find 29 11 _ (by decide) _ rfl⟩

set_option maxRecDepth 20000 in
example : ((MinimizerIndex.new 29 11).insertAll [(getMinimizer 1, ⟨2, true, 2⟩),
    (getMinimizer 2, ⟨2, false, 2⟩), (getMinimizer 1, ⟨1, true, 1⟩)]).map
      (·.find (getMinimizer 1)) = some [⟨1, true, 1⟩, ⟨2, true, 2⟩] := by
  decide

/-- After a run, the table is the least of `INITIAL_CAPACITY * 2 ^ n` cells to hold the keys. -/
theorem MinimizerIndex.build_capacity (k w : Nat) (ops : List (Minimizer × Pos))
    (hops : ∀ op ∈ ops, op.1.hash = wangHash64 op.1.key) :
    ∃ idx, (MinimizerIndex.new k w).insertAll ops = some idx ∧
      ∃ n, idx.hashTable.length = initialCapacity * 2 ^ n ∧
        idx.maxKeys = maxKeysOf idx.hashTable.length ∧ idx.keys ≤ idx.maxKeys ∧
        ∀ j < n, maxKeysOf (initialCapacity * 2 ^ j) < idx.keys := by
  obtain ⟨idx, hrun, hwf, -, hl⟩ :=
    MinimizerIndex.insertAll_spec (MinimizerIndex.new_wf k w) ops hops
  obtain ⟨n, hn, hless⟩ :=
    hl ⟨0, List.length_replicate _ _, fun j hj => absurd hj (Nat.not_lt_zero j)⟩
  exact ⟨idx, hrun, n, hn, hwf.maxKeys_eq, hwf.keys_le, hless⟩


/-- The insertions of the `Rehashing` test: keys `1` to `max_keys() + 1`. -/
def rehashingInsertions : List (Minimizer × Pos) :=
  (List.range (maxKeysOf initialCapacity + 1)).map fun i =>
    (getMinimizer (i + 1), ⟨i + 1, (i + 1) &&& 1 == 1, (i + 1) &&& offMask⟩)

theorem rehashingInsertions_spec :
    ∀ op ∈ rehashingInsertions, op.1.hash = wangHash64 op.1.key ∧ op.1.key ≠ noKey ∧
      op.2.encode ≠ noValue := by
  intro op hop
  obtain ⟨i, hi, rfl⟩ := List.mem_map.1 hop
  have hi : i < 789 := List.mem_range.1 hi
  refine ⟨rfl, by simp only [getMinimizer, noKey]; omega, ?_⟩
  rw [encode_eq_of_lt (by dsimp only; omega), noValue]
  dsimp only
  omega

/-- The `Rehashing` test: the table doubles once. -/
theorem build_capacity_rehashing :
    (∀ op ∈ rehashingInsertions, op.1.hash = wangHash64 op.1.key) ∧
    ∃ idx, (MinimizerIndex.new 29 11).insertAll rehashingInsertions = some idx ∧
      idx.hashTable.length = initialCapacity * 2 ^ 1 ∧
      idx.maxKeys = maxKeysOf idx.hashTable.length ∧ idx.keys ≤ idx.maxKeys ∧
      ∀ j < 1, maxKeysOf (initialCapacity * 2 ^ j) < idx.keys := by
  have hops := fun op hop => (rehashingInsertions_spec op hop).1
  obtain ⟨idx, hrun, n, hn, hmax, hle, hless⟩ := MinimizerIndex.build_capacity 29 11 _ hops
  obtain ⟨idx', hrun', hwf, hc, -⟩ :=
    MinimizerIndex.insertAll_spec (MinimizerIndex.new_wf 29 11) _ hops
  obtain rfl : idx = idx' := Option.some.inj (hrun.symm.trans hrun')
  have hnd : (rehashingInsertions.map fun op => op.1.key).Nodup := by
    simp only [rehashingInsertions, List.map_map, Function.comp_def, getMinimizer]
    exact (List.nodup_range _).map fun a b h => by simpa using h
  have hkeys : idx.keys = maxKeysOf initialCapacity + 1 := by
    rw [(hwf.sound.counters fun key => by
        rw [hc, MinimizerIndex.new_contents, Finset.empty_union, mem_insertedKeys]).1,
      card_insertedKeys hnd fun op hop => (rehashingInsertions_spec op hop).2]
    simp [rehashingInsertions]
  -- More keys than `max_keys()` of `INITIAL_CAPACITY` cells, fewer than that of twice as many.
  obtain rfl : n = 1 := by
    rcases n with _ | _ | n
    · rw [hmax, hn, hkeys] at hle
      exact absurd hle (by decide)
    · rfl
    · have := hless 1 (by omega)
      rw [hkeys] at this
      exact absurd this (by decide)
  exact ⟨hops, idx, hrun, hn, hmax, hle, hless⟩

end GbwtGraph
