import GbwtGraph.Minimizer.Position

/-! # Kmers, their keys and their hashes

A kmer of the minimizer index is `k` bases packed two bits a base, the first base highest. The
extraction reads the sequence one character at a time and keeps two accumulators: the key of the
last `k` bases and the key of their reverse complement. A kmer is recorded in the orientation
whose key hashes lower.

Modelled from the spec and from the minimizer tests in the sources: the header of the index is
not among them. Where the two differ the model follows the tests. The spec picks the orientation
with the smaller key; the tests expect `TCG` for `CGA` (key 54 over 24), and their comment lists
the 3-mers in the order of `wang_hash_64`, which the mix below reproduces.
-/

namespace GbwtGraph

/-! ## Bases and keys -/

/-- `CHAR_TO_PACK`: the two-bit code of a base in either case; `none` for other characters. -/
def packChar : Char → Option Nat
  | 'A' | 'a' => some 0
  | 'C' | 'c' => some 1
  | 'G' | 'g' => some 2
  | 'T' | 't' => some 3
  | _ => none

theorem packChar_lt {c : Char} {b : Nat} (h : packChar c = some b) : b < 4 := by
  unfold packChar at h
  split at h <;> cases h <;> decide

/-- Two bits a base, the first base highest. -/
def encodeBases (bs : List Nat) : Nat := bs.foldl (fun key b => key * 4 + b) 0

def reverseComplementBases (bs : List Nat) : List Nat := (bs.map (3 - ·)).reverse

theorem foldl_encodeBases (bs : List Nat) :
    ∀ acc, bs.foldl (fun key b => key * 4 + b) acc = acc * 4 ^ bs.length + encodeBases bs := by
  induction bs with
  | nil => simp [encodeBases]
  | cons b bs ih =>
    intro acc
    rw [show encodeBases (b :: bs) = bs.foldl (fun key b => key * 4 + b) (0 * 4 + b) from rfl,
      List.foldl_cons, ih, ih, List.length_cons, pow_succ]
    ring

@[simp] theorem encodeBases_nil : encodeBases [] = 0 := rfl

@[simp] theorem encodeBases_cons (b : Nat) (bs : List Nat) :
    encodeBases (b :: bs) = b * 4 ^ bs.length + encodeBases bs := by
  rw [encodeBases, List.foldl_cons, foldl_encodeBases]
  simp

@[simp] theorem encodeBases_append_singleton (bs : List Nat) (b : Nat) :
    encodeBases (bs ++ [b]) = encodeBases bs * 4 + b := by
  simp [encodeBases]

theorem encodeBases_lt {bs : List Nat} (h : ∀ b ∈ bs, b < 4) : encodeBases bs < 4 ^ bs.length := by
  induction bs with
  | nil => simp
  | cons b bs ih =>
    have hb : b * 4 ^ bs.length ≤ 3 * 4 ^ bs.length :=
      Nat.mul_le_mul_right _ (Nat.le_of_lt_succ (h b (List.mem_cons_self _ _)))
    have := ih fun b' hb' => h b' (List.mem_cons_of_mem _ hb')
    rw [encodeBases_cons, List.length_cons, pow_succ]
    omega

@[simp] theorem reverseComplementBases_nil : reverseComplementBases [] = [] := rfl

@[simp] theorem reverseComplementBases_cons (b : Nat) (bs : List Nat) :
    reverseComplementBases (b :: bs) = reverseComplementBases bs ++ [3 - b] := by
  simp [reverseComplementBases]

@[simp] theorem reverseComplementBases_append_singleton (bs : List Nat) (b : Nat) :
    reverseComplementBases (bs ++ [b]) = (3 - b) :: reverseComplementBases bs := by
  simp [reverseComplementBases]

@[simp] theorem length_reverseComplementBases (bs : List Nat) :
    (reverseComplementBases bs).length = bs.length := by
  simp [reverseComplementBases]

/-! ## The accumulators -/

/-- The two accumulators of the extraction and the bases read since a non-base, up to `k`. -/
structure KmerState where
  forward : Nat
  reverse : Nat
  valid : Nat
  deriving DecidableEq, Repr

def KmerState.empty : KmerState := ⟨0, 0, 0⟩

/-- One character into the accumulators: a base shifts in, any other character resets. -/
def KmerState.push (k : Nat) (st : KmerState) (c : Char) : KmerState :=
  match packChar c with
  | some b =>
    ⟨st.forward * 4 % 4 ^ k + b, st.reverse / 4 + (3 - b) * 4 ^ (k - 1), min (st.valid + 1) k⟩
  | none => .empty

/-! ## Hash and records -/

/-- `wang_hash_64`, on 64-bit words. -/
def wangHash64 (key : Nat) : Nat :=
  let key := (2 ^ 64 - 1 - key + (key <<< 21)) % 2 ^ 64
  let key := key ^^^ (key >>> 24)
  let key := (key + (key <<< 3) + (key <<< 8)) % 2 ^ 64
  let key := key ^^^ (key >>> 14)
  let key := (key + (key <<< 2) + (key <<< 4)) % 2 ^ 64
  let key := key ^^^ (key >>> 28)
  (key + (key <<< 31)) % 2 ^ 64

/-- `minimizer_type`: a key, its hash, an offset and the orientation of the key. -/
structure Minimizer where
  key : Nat
  hash : Nat
  offset : Nat
  isReverse : Bool
  deriving DecidableEq, Repr

/-- The kmer at `start` in the orientation that hashes lower; a reverse one sits at its end. -/
def minimizerAt (k start forward reverse : Nat) : Minimizer :=
  if wangHash64 reverse < wangHash64 forward then
    ⟨reverse, wangHash64 reverse, start + k - 1, true⟩
  else ⟨forward, wangHash64 forward, start, false⟩

def Minimizer.start (k : Nat) (m : Minimizer) : Nat :=
  if m.isReverse then m.offset + 1 - k else m.offset

/-- `operator<` of records: by hash, then key, then offset. -/
def Minimizer.before (a b : Minimizer) : Bool :=
  a.hash < b.hash || a.hash == b.hash && (a.key < b.key || a.key == b.key && a.offset < b.offset)

theorem minimizerAt_start (hk : 0 < k) (start forward reverse : Nat) :
    (minimizerAt k start forward reverse).start k = start := by
  unfold minimizerAt Minimizer.start; split <;> simp; omega

theorem before_irrefl (a : Minimizer) : a.before a = false := by
  simp [Minimizer.before]

theorem before_trans {a b c : Minimizer} (hab : a.before b = true) (hbc : b.before c = true) :
    a.before c = true := by
  simp only [Minimizer.before, Bool.or_eq_true, Bool.and_eq_true, decide_eq_true_eq,
    beq_iff_eq] at *
  omega

theorem eq_rank_of_not_before {a b : Minimizer} (hab : a.before b = false)
    (hba : b.before a = false) : a.hash = b.hash ∧ a.key = b.key ∧ a.offset = b.offset := by
  simp only [Minimizer.before, Bool.or_eq_false_iff, Bool.and_eq_false_iff, decide_eq_false_iff_not,
    beq_eq_false_iff_ne] at *
  omega

/-! ## What the accumulators hold

The accumulators refine a simpler state: the list of bases read since the last character that is
not one. They hold the key of its last `k` bases and, shifted into the high bits while fewer than
`k` are in, the key of their reverse complement. -/

def runPush (run : List Nat) (c : Char) : List Nat :=
  match packChar c with
  | some b => run ++ [b]
  | none => []

def baseRun (p : List Char) : List Nat := p.foldl runPush []

def lastBases (k : Nat) (run : List Nat) : List Nat := run.drop (run.length - k)

def KmerState.ofRun (k : Nat) (run : List Nat) : KmerState :=
  ⟨encodeBases (lastBases k run),
    encodeBases (reverseComplementBases (lastBases k run)) * 4 ^ (k - (lastBases k run).length),
    (lastBases k run).length⟩

@[simp] theorem baseRun_append_singleton (p : List Char) (c : Char) :
    baseRun (p ++ [c]) = runPush (baseRun p) c := by
  simp [baseRun]

theorem baseRun_lt (p : List Char) : ∀ b ∈ baseRun p, b < 4 := by
  induction p using List.reverseRecOn with
  | nil => simp [baseRun]
  | append_singleton p c ih =>
    rw [baseRun_append_singleton, runPush]
    split
    · next b hb =>
      intro b' hb'
      rcases List.mem_append.1 hb' with hb' | hb'
      · exact ih b' hb'
      · exact List.mem_singleton.1 hb' ▸ packChar_lt hb
    · simp

theorem lastBases_of_length_le {run : List Nat} (h : run.length ≤ k) : lastBases k run = run := by
  simp [lastBases, Nat.sub_eq_zero_of_le h]

theorem length_lastBases (k : Nat) (run : List Nat) :
    (lastBases k run).length = min run.length k := by
  simp only [lastBases, List.length_drop]
  omega

theorem lastBases_append_singleton (hk : 0 < k) {run : List Nat} (h : k ≤ run.length) (b : Nat) :
    ∃ f t, lastBases k run = f :: t ∧ lastBases k (run ++ [b]) = t ++ [b] := by
  have hlt : run.length - k < run.length := by omega
  refine ⟨run[run.length - k], run.drop (run.length - k + 1), List.drop_eq_getElem_cons hlt, ?_⟩
  rw [lastBases, List.length_append, List.length_singleton,
    List.drop_append_of_le_length (by omega)]
  congr 2
  omega

theorem ofRun_nil (k : Nat) : KmerState.ofRun k [] = .empty := by
  simp [KmerState.ofRun, lastBases, KmerState.empty]

theorem push_ofRun_short {run : List Nat} (hrun : ∀ b ∈ run, b < 4) (hlt : run.length < k)
    {b : Nat} :
    (⟨encodeBases run * 4 % 4 ^ k + b,
      encodeBases (reverseComplementBases run) * 4 ^ (k - run.length) / 4 + (3 - b) * 4 ^ (k - 1),
      min (run.length + 1) k⟩ : KmerState) = .ofRun k (run ++ [b]) := by
  obtain ⟨m, rfl⟩ : ∃ m, k = run.length + m + 1 := ⟨k - run.length - 1, by omega⟩
  have hlen : (run ++ [b]).length ≤ run.length + m + 1 := by simp
  have henc : encodeBases run * 4 < 4 ^ (run.length + m + 1) :=
    calc encodeBases run * 4 < 4 ^ run.length * 4 :=
          Nat.mul_lt_mul_of_pos_right (encodeBases_lt hrun) (by decide)
      _ = 4 ^ (run.length + 1) := (pow_succ _ _).symm
      _ ≤ 4 ^ (run.length + m + 1) := Nat.pow_le_pow_right (by decide) (by omega)
  simp only [KmerState.ofRun, lastBases_of_length_le hlen, encodeBases_append_singleton,
    Nat.mod_eq_of_lt henc, reverseComplementBases_append_singleton, encodeBases_cons,
    length_reverseComplementBases, List.length_append, List.length_singleton, KmerState.mk.injEq]
  refine ⟨trivial, ?_, by omega⟩
  rw [show run.length + m + 1 - run.length = m + 1 by omega,
    show run.length + m + 1 - 1 = run.length + m by omega,
    show run.length + m + 1 - (run.length + 1) = m by omega, pow_succ, ← Nat.mul_assoc,
    Nat.mul_div_cancel _ (by decide), pow_add]
  ring

theorem push_ofRun_full {f b : Nat} {t : List Nat} (hf : f < 4) (ht : ∀ b ∈ t, b < 4)
    (hk : t.length + 1 = k) :
    (⟨encodeBases (f :: t) * 4 % 4 ^ k + b,
      encodeBases (reverseComplementBases (f :: t)) * 4 ^ (k - (f :: t).length) / 4 +
        (3 - b) * 4 ^ (k - 1), min ((f :: t).length + 1) k⟩ : KmerState) =
      ⟨encodeBases (t ++ [b]), encodeBases (reverseComplementBases (t ++ [b])) *
        4 ^ (k - (t ++ [b]).length), (t ++ [b]).length⟩ := by
  subst hk
  have henc : encodeBases t * 4 < 4 ^ (t.length + 1) :=
    (pow_succ 4 t.length).symm ▸ Nat.mul_lt_mul_of_pos_right (encodeBases_lt ht) (by decide)
  simp only [encodeBases_cons, reverseComplementBases_cons, encodeBases_append_singleton,
    reverseComplementBases_append_singleton, length_reverseComplementBases, List.length_cons,
    List.length_append, List.length_singleton, List.length_nil, Nat.sub_self, pow_zero,
    Nat.mul_one, Nat.add_sub_cancel, KmerState.mk.injEq]
  refine ⟨?_, by omega, by omega⟩
  rw [Nat.add_mul, Nat.mul_assoc, ← pow_succ, Nat.add_comm (f * _), Nat.add_mul_mod_self_right,
    Nat.mod_eq_of_lt henc]

theorem push_ofRun (hk : 0 < k) {run : List Nat} (hrun : ∀ b ∈ run, b < 4) (c : Char) :
    (KmerState.ofRun k run).push k c = .ofRun k (runPush run c) := by
  unfold KmerState.push runPush
  split
  · next b hb =>
    by_cases hlt : run.length < k
    · rw [← push_ofRun_short hrun hlt]
      simp only [KmerState.ofRun, lastBases_of_length_le hlt.le]
    · obtain ⟨f, t, hft, hft'⟩ := lastBases_append_singleton hk (Nat.le_of_not_lt hlt) b
      have hlen : t.length + 1 = k := by
        have := length_lastBases k run
        rw [hft, List.length_cons] at this
        omega
      have hsub : ∀ b ∈ f :: t, b < 4 := fun b hb => hrun b (List.mem_of_mem_drop (hft.symm ▸ hb : b ∈ lastBases k run))
      simp only [KmerState.ofRun, hft, hft']
      rw [← push_ofRun_full (hsub f (List.mem_cons_self _ _))
        (fun b hb => hsub b (List.mem_cons_of_mem _ hb)) hlen]
  · exact (ofRun_nil k).symm

/-! ## The kmer at a start -/

def kmerAt (k : Nat) (cs : List Char) (j : Nat) : Option Minimizer :=
  if j + k ≤ cs.length then
    (((cs.drop j).take k).mapM packChar).map fun bs =>
      minimizerAt k j (encodeBases bs) (encodeBases (reverseComplementBases bs))
  else none

theorem length_baseRun_le (p : List Char) : (baseRun p).length ≤ p.length := by
  induction p using List.reverseRecOn with
  | nil => simp [baseRun]
  | append_singleton p c ih =>
    rw [baseRun_append_singleton, runPush]
    split
    · simp only [List.length_append, List.length_singleton]; omega
    · simp

theorem drop_append_singleton_sub {α : Type} (l : List α) (a : α) (k : Nat) :
    (l ++ [a]).drop (l.length + 1 - (k + 1)) = l.drop (l.length - k) ++ [a] := by
  rw [Nat.add_sub_add_right, List.drop_append_of_le_length (Nat.sub_le _ _)]

theorem mapM_append_singleton {α β : Type} (f : α → Option β) (l : List α) (a : α) :
    (l ++ [a]).mapM f = (l.mapM f).bind fun bs => (f a).map fun b => bs ++ [b] := by
  rw [List.mapM_append]
  simp only [List.mapM_cons, List.mapM_nil]
  cases l.mapM f <;> cases f a <;> rfl

theorem mapM_drop_baseRun (p : List Char) : ∀ k,
    (k ≤ (baseRun p).length →
      (p.drop (p.length - k)).mapM packChar = some (lastBases k (baseRun p))) ∧
    ((baseRun p).length < k → k ≤ p.length → (p.drop (p.length - k)).mapM packChar = none) := by
  induction p using List.reverseRecOn with
  | nil =>
    refine fun k => ⟨fun _ => ?_, fun h h' => by simp at h h'; omega⟩
    simp only [baseRun, lastBases, List.foldl_nil, List.drop_nil, List.mapM_nil]
    rfl
  | append_singleton p c ih =>
    intro k
    rw [baseRun_append_singleton, runPush]
    cases k with
    | zero =>
      refine ⟨fun _ => ?_, fun h => absurd h (Nat.not_lt_zero _)⟩
      simp only [Nat.sub_zero, List.drop_length, List.mapM_nil, lastBases]
      rfl
    | succ k =>
      split
      · next b hb =>
        simp only [List.length_append, List.length_singleton, drop_append_singleton_sub,
          mapM_append_singleton, hb]
        refine ⟨fun hle => ?_, fun hlt hle => ?_⟩
        · rw [(ih k).1 (by omega)]
          simp only [lastBases, List.length_append, List.length_singleton,
            drop_append_singleton_sub]
          rfl
        · rw [(ih k).2 (by omega) (by omega)]
          rfl
      · next hb =>
        refine ⟨fun hle => absurd hle (by simp), fun _ _ => ?_⟩
        simp only [List.length_append, List.length_singleton, drop_append_singleton_sub,
          mapM_append_singleton, hb]
        cases (p.drop (p.length - k)).mapM packChar <;> rfl

end GbwtGraph
