import GbwtGraph.Minimizer.Extract

/-! # Both orientations of a sequence

The minimizers of the reverse complement of a sequence are those of the sequence, last first,
each at the mirrored offset `L - 1 - offset` and in the other orientation: the check of the
`BothOrientations` test. Two things make this hold. `wang_hash_64` is a bijection of 64-bit
words, so a kmer of odd length, which differs from its reverse complement, has its two
orientations hashed apart and the orientation flag flips with the sequence. And a window whose
least record is its only record with that key has the same least record read either way; where a
key occurs twice in a window, the leftmost occurrence wins in both orientations, and these are
different kmers of the sequence.
-/

namespace GbwtGraph

/-! ## The hash is a bijection of 64-bit words -/

abbrev Words : Set Nat := Set.Iio (2 ^ 64)

/-- A step of the hash: one to one on 64-bit words, and into them. -/
def WordInj (f : Nat → Nat) : Prop := Set.InjOn f Words ∧ Set.MapsTo f Words Words

theorem WordInj.comp {f g : Nat → Nat} (hg : WordInj g) (hf : WordInj f) : WordInj (g ∘ f) :=
  ⟨hg.1.comp hf.1 hf.2, hg.2.comp hf.2⟩

theorem wordInj_xor_shiftRight {s : Nat} (hs : 0 < s) : WordInj fun x => x ^^^ x >>> s := by
  refine ⟨fun a (ha : a < 2 ^ 64) b (hb : b < 2 ^ 64) h => ?_, fun a (ha : a < 2 ^ 64) =>
    Nat.xor_lt_two_pow ha ((Nat.shiftRight_eq_div_pow a s ▸ Nat.div_le_self _ _).trans_lt ha)⟩
  have hbit : ∀ n i, 64 ≤ i + n → a.testBit i = b.testBit i := by
    intro n
    induction n with
    | zero =>
      intro i hi
      have hpow : 2 ^ 64 ≤ 2 ^ i := Nat.pow_le_pow_right (by norm_num) (by omega)
      rw [Nat.testBit_eq_false_of_lt (ha.trans_le hpow),
        Nat.testBit_eq_false_of_lt (hb.trans_le hpow)]
    | succ n ih =>
      intro i hi
      have hi' := congrArg (fun x => x.testBit i) h
      simp only [Nat.testBit_xor, Nat.testBit_shiftRight] at hi'
      rw [ih (s + i) (by omega)] at hi'
      simpa using hi'
  exact Nat.eq_of_testBit_eq fun i => hbit 64 i (by omega)

theorem wordInj_mul_add_mod {f : Nat → Nat} (c d : Nat) (hc : Nat.Coprime (2 ^ 64) c)
    (hf : ∀ x ∈ Words, f x = x * c + d) : WordInj fun x => f x % 2 ^ 64 := by
  refine ⟨fun a ha b hb h => ?_, fun _ _ => Nat.mod_lt _ (by norm_num)⟩
  simp only [hf a ha, hf b hb] at h
  exact (Nat.ModEq.cancel_right_of_coprime hc (Nat.ModEq.add_right_cancel' d h)).eq_of_lt_of_lt
    ha hb

theorem wangHash64_injOn : Set.InjOn wangHash64 Words := by
  have h₁ : WordInj fun x => (2 ^ 64 - 1 - x + (x <<< 21)) % 2 ^ 64 :=
    wordInj_mul_add_mod (2 ^ 21 - 1) (2 ^ 64 - 1) (by norm_num) fun x (hx : x < 2 ^ 64) => by
      rw [Nat.shiftLeft_eq]
      norm_num at hx ⊢
      omega
  have h₃ : WordInj fun x => (x + (x <<< 3) + (x <<< 8)) % 2 ^ 64 :=
    wordInj_mul_add_mod 265 0 (by norm_num) fun x _ => by simp only [Nat.shiftLeft_eq]; ring
  have h₅ : WordInj fun x => (x + (x <<< 2) + (x <<< 4)) % 2 ^ 64 :=
    wordInj_mul_add_mod 21 0 (by norm_num) fun x _ => by simp only [Nat.shiftLeft_eq]; ring
  have h₇ : WordInj fun x => (x + (x <<< 31)) % 2 ^ 64 :=
    wordInj_mul_add_mod (2 ^ 31 + 1) 0 (by norm_num) fun x _ => by
      simp only [Nat.shiftLeft_eq]; ring
  exact (h₇.comp ((wordInj_xor_shiftRight (by norm_num)).comp (h₅.comp
    ((wordInj_xor_shiftRight (by norm_num)).comp (h₃.comp
      ((wordInj_xor_shiftRight (by norm_num)).comp h₁)))))).1

/-! ## Reverse complements -/

/-- The complement `reverse_complement` takes: `A`, `T` and `C`, `G` swap; others become `N`. -/
def Sequence.complement : Char → Char
  | 'A' => 'T' | 'C' => 'G' | 'G' => 'C' | 'T' => 'A'
  | 'a' => 't' | 'c' => 'g' | 'g' => 'c' | 't' => 'a'
  | _ => 'N'

def Sequence.reverseComplement (cs : List Char) : List Char := (cs.map Sequence.complement).reverse

@[simp]
theorem Sequence.length_reverseComplement (cs : List Char) :
    (Sequence.reverseComplement cs).length = cs.length := by
  simp [Sequence.reverseComplement]

theorem packChar_complement (c : Char) :
    packChar (Sequence.complement c) = (packChar c).map (3 - ·) := by
  unfold Sequence.complement
  split
  all_goals first | rfl | skip
  rw [show packChar c = none by unfold packChar; split <;> simp_all]
  rfl

theorem mapM_packChar_eq_some {l : List Char} {bs : List Nat} (h : l.mapM packChar = some bs) :
    bs.length = l.length ∧ ∀ b ∈ bs, b < 4 := by
  induction l generalizing bs with
  | nil =>
    simp only [List.mapM_nil] at h
    cases h
    simp
  | cons c l ih =>
    simp only [List.mapM_cons, bind, Option.bind_eq_some, pure] at h
    obtain ⟨b, hb, bs', hbs', ⟨⟩⟩ := h
    obtain ⟨hlen, hlt⟩ := ih hbs'
    refine ⟨by simp [hlen], fun x hx => ?_⟩
    rcases List.mem_cons.1 hx with rfl | hx
    · exact packChar_lt hb
    · exact hlt x hx

theorem mapM_packChar_reverseComplement (l : List Char) :
    (Sequence.reverseComplement l).mapM packChar = (l.mapM packChar).map reverseComplementBases := by
  induction l with
  | nil => rfl
  | cons c l ih =>
    rw [Sequence.reverseComplement, List.map_cons, List.reverse_cons, mapM_append_singleton]
    rw [Sequence.reverseComplement] at ih
    rw [ih, packChar_complement, List.mapM_cons]
    cases packChar c <;> cases l.mapM packChar <;> simp [reverseComplementBases]

theorem reverseComplementBases_involutive {bs : List Nat} (h : ∀ b ∈ bs, b < 4) :
    reverseComplementBases (reverseComplementBases bs) = bs := by
  simp only [reverseComplementBases, List.map_reverse, List.reverse_reverse, List.map_map]
  exact (List.map_congr_left fun b hb => by have := h b hb; simp; omega).trans (List.map_id bs)

theorem encodeBases_injective {bs cs : List Nat} (hl : bs.length = cs.length)
    (hb : ∀ b ∈ bs, b < 4) (hc : ∀ c ∈ cs, c < 4) (h : encodeBases bs = encodeBases cs) :
    bs = cs := by
  induction bs generalizing cs with
  | nil => exact (List.length_eq_zero.1 hl.symm).symm
  | cons b bs ih =>
    obtain ⟨c, cs, rfl⟩ := List.exists_cons_of_length_eq_add_one hl.symm
    simp only [List.length_cons, Nat.add_right_cancel_iff] at hl
    simp only [List.mem_cons, forall_eq_or_imp] at hb hc
    simp only [encodeBases_cons, ← hl] at h
    have hlb := encodeBases_lt hb.2
    have hlc := encodeBases_lt hc.2
    rw [← hl] at hlc
    have hpos : 0 < 4 ^ bs.length := by positivity
    -- The first base is the quotient by `4 ^ length`, the rest the remainder.
    have hq := congrArg (· / 4 ^ bs.length) h
    have hr := congrArg (· % 4 ^ bs.length) h
    simp only [Nat.add_comm (_ * 4 ^ _), Nat.add_mul_div_right _ _ hpos, Nat.div_eq_of_lt hlb,
      Nat.div_eq_of_lt hlc, Nat.add_mul_mod_self_right, Nat.mod_eq_of_lt hlb,
      Nat.mod_eq_of_lt hlc, zero_add] at hq hr
    rw [hq, ih hl hb.2 hc.2 hr]

theorem ne_reverseComplementBases {bs : List Nat} (hodd : Odd bs.length) :
    bs ≠ reverseComplementBases bs := by
  intro h
  obtain ⟨n, hn⟩ := hodd
  have hi : n < bs.length := by omega
  have := congrArg (fun l => l[n]?) h
  simp only [reverseComplementBases] at this
  rw [List.getElem?_reverse (by simpa using hi), List.length_map,
    show bs.length - 1 - n = n by omega, List.getElem?_map, List.getElem?_eq_getElem hi] at this
  simp at this
  omega

theorem wangHash64_ne_of_odd {bs : List Nat} (hodd : Odd bs.length) (h32 : bs.length ≤ 32)
    (hb : ∀ b ∈ bs, b < 4) :
    wangHash64 (encodeBases bs) ≠ wangHash64 (encodeBases (reverseComplementBases bs)) := by
  have hrc : ∀ b ∈ reverseComplementBases bs, b < 4 := fun b h => by
    simp only [reverseComplementBases, List.mem_reverse, List.mem_map] at h
    omega
  have hlen : (reverseComplementBases bs).length = bs.length := by simp [reverseComplementBases]
  have hword : ∀ cs : List Nat, cs.length = bs.length → (∀ c ∈ cs, c < 4) →
      encodeBases cs ∈ Words := fun cs hl hc =>
    calc encodeBases cs < 4 ^ cs.length := encodeBases_lt hc
      _ ≤ 4 ^ 32 := Nat.pow_le_pow_right (by norm_num) (by omega)
      _ = 2 ^ 64 := by norm_num
  exact fun h => ne_reverseComplementBases hodd (encodeBases_injective hlen.symm hb hrc
    (wangHash64_injOn (hword bs rfl hb) (hword _ hlen hrc) h))

/-! ## The kmers of the reverse complement -/

/-- A record read from the other strand of `L` characters: mirrored, in the other orientation. -/
def Minimizer.mirror (L : Nat) (m : Minimizer) : Minimizer :=
  ⟨m.key, m.hash, L - 1 - m.offset, !m.isReverse⟩

theorem take_drop_reverse {α : Type} (l : List α) {j k : Nat} (h : j + k ≤ l.length) :
    (l.reverse.drop j).take k = ((l.drop (l.length - k - j)).take k).reverse := by
  refine List.ext_getElem
    (by simp only [List.length_take, List.length_drop, List.length_reverse]; omega)
    fun i h₁ h₂ => ?_
  simp only [List.getElem_take, List.getElem_drop, List.getElem_reverse, List.length_take,
    List.length_drop, List.length_reverse] at h₁ h₂ ⊢
  congr 1
  omega

theorem kmerAt_offset_lt {k : Nat} (hk : 0 < k) {cs : List Char} {j : Nat} {m : Minimizer}
    (h : kmerAt k cs j = some m) : m.offset < cs.length := by
  unfold kmerAt at h
  split at h
  · obtain ⟨bs, hbs, rfl⟩ := Option.map_eq_some'.1 h
    have := (mapM_packChar_eq_some hbs).1
    simp only [List.length_take, List.length_drop] at this
    unfold minimizerAt
    split <;> dsimp only <;> omega
  · cases h

variable {k : Nat} (hk : Odd k) (hk32 : k ≤ 32)
include hk hk32

theorem kmerAt_reverseComplement (cs : List Char) {j : Nat} (hj : j + k ≤ cs.length) :
    kmerAt k (Sequence.reverseComplement cs) j =
      (kmerAt k cs (cs.length - k - j)).map (Minimizer.mirror cs.length) := by
  have hk0 : 0 < k := hk.pos
  have hwindow : ((Sequence.reverseComplement cs).drop j).take k =
      Sequence.reverseComplement ((cs.drop (cs.length - k - j)).take k) := by
    simp only [Sequence.reverseComplement]
    rw [take_drop_reverse _ (by simpa using hj), List.length_map, List.map_take, List.map_drop]
  unfold kmerAt
  rw [if_pos (by simpa using hj), if_pos (by omega), hwindow, mapM_packChar_reverseComplement,
    Option.map_map, Option.map_map]
  cases hbs : ((cs.drop (cs.length - k - j)).take k).mapM packChar with
  | none => simp only [Option.map_none']
  | some bs =>
    obtain ⟨hlen, hlt⟩ := mapM_packChar_eq_some hbs
    simp only [List.length_take, List.length_drop] at hlen
    have hbk : bs.length = k := by omega
    have hne := wangHash64_ne_of_odd (hbk ▸ hk) (hbk ▸ hk32) hlt
    simp only [Option.map_some', Function.comp, reverseComplementBases_involutive hlt]
    unfold minimizerAt Minimizer.mirror
    split_ifs with h₁ h₂ h₂
    · exact absurd h₂ (Nat.lt_asymm h₁)
    · simp only [Bool.not_false, Option.some.injEq, Minimizer.mk.injEq, true_and, and_true]
      omega
    · simp only [Bool.not_true, Option.some.injEq, Minimizer.mk.injEq, true_and, and_true]
      omega
    · exact (hne (Nat.le_antisymm (Nat.le_of_not_lt h₂) (Nat.le_of_not_lt h₁))).elim

theorem candidates_reverseComplement (cs : List Char) :
    candidates k (Sequence.reverseComplement cs) =
      ((candidates k cs).map (Option.map (Minimizer.mirror cs.length))).reverse := by
  have hk0 : 0 < k := hk.pos
  rw [candidates_eq hk0, candidates_eq hk0, Sequence.length_reverseComplement]
  refine List.ext_getElem (by simp) fun t h₁ h₂ => ?_
  simp only [List.length_map, List.length_range] at h₁
  simp only [List.getElem_map, List.getElem_range, List.getElem_reverse, List.length_map,
    List.length_range]
  rw [kmerAt_reverseComplement hk hk32 cs (by omega)]
  congr 2
  omega

omit hk hk32

/-! ## The least record of a window read backward -/

section Mirror

variable {f : Minimizer → Minimizer} (hkey : ∀ m, (f m).key = m.key)
  (hhash : ∀ m, (f m).hash = m.hash)
include hkey hhash

theorem before_map_of_key_ne {a b : Minimizer} (h : a.key ≠ b.key) :
    (f a).before (f b) = a.before b := by
  have hb : (a.key == b.key) = false := beq_eq_false_iff_ne.2 h
  have hb' : ((f a).key == (f b).key) = false := by rw [hkey, hkey]; exact hb
  simp only [Minimizer.before, hb, hb', Bool.false_and, Bool.or_false, hkey, hhash]

theorem windowMin_map_reverse {l : List (Option Minimizer)}
    (hl : ∀ (i j : Nat) (a b : Minimizer), i ≠ j → l[i]? = some (some a) →
      l[j]? = some (some b) → a.key ≠ b.key) :
    windowMin (l.map (Option.map f)).reverse = (windowMin l).map f := by
  -- The slot `j` of the window read backward is the slot `l.length - 1 - j` of the window.
  have hrev : ∀ j x, (l.map (Option.map f)).reverse[j]? = some (some x) ↔
      ∃ y, j < l.length ∧ l[l.length - 1 - j]? = some (some y) ∧ f y = x := by
    intro j x
    by_cases hj : j < l.length
    · rw [List.getElem?_reverse (by simpa using hj), List.length_map, List.getElem?_map]
      constructor
      · intro h
        obtain ⟨o, ho, heq⟩ := Option.map_eq_some'.1 h
        obtain ⟨y, rfl, rfl⟩ := Option.map_eq_some'.1 heq
        exact ⟨y, hj, ho, rfl⟩
      · rintro ⟨y, -, hy, rfl⟩
        rw [hy]
        rfl
    · rw [List.getElem?_eq_none (by simpa using Nat.le_of_not_lt hj)]
      simp [hj]
  rcases hw : windowMin l with _ | m
  · rw [Option.map_none', windowMin_eq_none_iff]
    intro x hx
    obtain ⟨y, hy, rfl⟩ := List.mem_map.1 (List.mem_reverse.1 hx)
    rw [(windowMin_eq_none_iff l).1 hw y hy]
    rfl
  obtain ⟨i, hi⟩ := (windowMin_eq_some_iff l m).1 hw
  have hil : i < l.length := (List.getElem?_eq_some_iff.1 hi.mem).1
  have hmem : (l.map (Option.map f)).reverse[l.length - 1 - i]? = some (some (f m)) := by
    refine (hrev _ _).2 ⟨m, by omega, ?_, rfl⟩
    rw [show l.length - 1 - (l.length - 1 - i) = i by omega]
    exact hi.mem
  rw [Option.map_some', windowMin_eq_some_iff]
  refine ⟨l.length - 1 - i, ⟨hmem, fun j m' hj => ?_, fun j hj m' hm' => ?_⟩⟩
  · obtain ⟨y, hjl, hy, rfl⟩ := (hrev j m').1 hj
    by_cases hji : l.length - 1 - j = i
    · rw [hji, hi.mem] at hy
      cases hy
      exact before_irrefl _
    · rw [before_map_of_key_ne hkey hhash (hl _ _ _ _ hji hy hi.mem)]
      exact hi.least _ _ hy
  · obtain ⟨y, hjl, hy, rfl⟩ := (hrev j m').1 hm'
    have hne := hl _ _ _ _ (show i ≠ l.length - 1 - j by omega) hi.mem hy
    rw [before_map_of_key_ne hkey hhash hne]
    cases hmy : m.before y
    · exact absurd (eq_rank_of_not_before hmy (hi.least _ _ hy)).2.1 hne
    · rfl

theorem windowMins_map_reverse (w : Nat) {l : List (Option Minimizer)}
    (hl : ∀ (i j : Nat) (a b : Minimizer), i < j → j < i + w → l[i]? = some (some a) →
      l[j]? = some (some b) → a.key ≠ b.key) :
    windowMins w (l.map (Option.map f)).reverse = ((windowMins w l).map (Option.map f)).reverse := by
  refine List.ext_getElem (by simp [windowMins]) fun t h₁ h₂ => ?_
  simp only [windowMins, List.length_map, List.length_reverse, List.length_range] at h₁
  simp only [windowMins, List.getElem_map, List.getElem_range, List.getElem_reverse,
    List.length_map, List.length_range]
  rw [take_drop_reverse _ (by simp; omega), List.length_map, ← List.map_drop, ← List.map_take,
    windowMin_map_reverse hkey hhash, show l.length + 1 - w - 1 - t = l.length - w - t by omega]
  -- Two slots of a window are two slots of the list less than `w` apart.
  intro i j a b hij hi hj
  simp only [List.getElem?_take, List.getElem?_drop] at hi hj
  split_ifs at hi hj with hiw hjw
  rcases Nat.lt_or_gt_of_ne hij with h | h
  · exact hl _ _ _ _ (by omega) (by omega) hi hj
  · exact (hl _ _ _ _ (by omega) (by omega) hj hi).symm

end Mirror

/-! ## Emitting the least records -/

theorem emitMin_cons {a : Minimizer} {out : List Minimizer} (h : out ≠ [])
    (x : Option Minimizer) : emitMin (a :: out) x = a :: emitMin out x := by
  obtain ⟨b, rest, rfl⟩ := List.exists_cons_of_ne_nil h
  cases x with
  | none => rfl
  | some m =>
    simp only [emitMin, List.getLast?_cons_cons]
    split_ifs <;> rfl

theorem head?_emitMin {out : List Minimizer} (h : out ≠ []) (x : Option Minimizer) :
    (emitMin out x).head? = out.head? := by
  obtain ⟨b, rest, rfl⟩ := List.exists_cons_of_ne_nil h
  cases x with
  | none => rfl
  | some m =>
    simp only [emitMin]
    split_ifs <;> rfl

theorem foldl_emitMin_cons (a : Minimizer) (l : List (Option Minimizer)) :
    (some a :: l).foldl emitMin [] =
      if (l.foldl emitMin []).head? = some a then l.foldl emitMin []
      else a :: l.foldl emitMin [] := by
  induction l using List.reverseRecOn with
  | nil => rfl
  | append_singleton l x ih =>
    rw [← List.cons_append, List.foldl_append, List.foldl_append, ih]
    simp only [List.foldl_cons, List.foldl_nil]
    rcases hl : l.foldl emitMin [] with _ | ⟨c, rest⟩
    · cases x with
      | none => rfl
      | some b =>
        simp only [emitMin, List.getLast?_singleton, List.getLast?_nil, List.head?_nil,
          List.head?_cons, Option.some.injEq]
        by_cases hab : a = b
        · subst hab; simp
        · simp [hab, Ne.symm hab]
    · have hne : c :: rest ≠ [] := List.cons_ne_nil c rest
      rw [head?_emitMin hne, List.head?_cons]
      split_ifs
      · rfl
      · exact emitMin_cons hne x

theorem foldl_emitMin_reverse (l : List (Option Minimizer)) :
    l.reverse.foldl emitMin [] = (l.foldl emitMin []).reverse := by
  induction l with
  | nil => rfl
  | cons x l ih =>
    rw [List.reverse_cons, List.foldl_append, ih, List.foldl_cons, List.foldl_nil]
    cases x with
    | none => rfl
    | some a =>
      rw [foldl_emitMin_cons]
      simp only [emitMin, List.getLast?_reverse]
      split_ifs <;> simp

theorem emitMin_map {f : Minimizer → Minimizer} {P : Minimizer → Prop}
    (hf : ∀ a b, P a → P b → f a = f b → a = b) {out : List Minimizer} (hout : ∀ m ∈ out, P m)
    {x : Option Minimizer} (hx : ∀ m ∈ x, P m) :
    emitMin (out.map f) (x.map f) = (emitMin out x).map f := by
  cases x with
  | none => rfl
  | some m =>
    simp only [emitMin, Option.map_some', List.getLast?_map]
    by_cases hlast : out.getLast? = some m
    · rw [if_pos hlast, if_pos (by rw [hlast]; rfl)]
    · rw [if_neg hlast, if_neg, List.map_append, List.map_singleton]
      intro h
      obtain ⟨m', hm', heq⟩ := Option.map_eq_some'.1 h
      exact hlast (hm' ▸ congrArg some
        (hf _ _ (hout m' (List.mem_of_getLast?_eq_some hm')) (hx m rfl) heq))

theorem foldl_emitMin_map {f : Minimizer → Minimizer} {P : Minimizer → Prop}
    (hf : ∀ a b, P a → P b → f a = f b → a = b) (l : List (Option Minimizer))
    (hl : ∀ x ∈ l, ∀ m ∈ x, P m) :
    (l.map (Option.map f)).foldl emitMin [] = (l.foldl emitMin []).map f := by
  suffices ∀ out : List Minimizer, (∀ m ∈ out, P m) →
      (l.map (Option.map f)).foldl emitMin (out.map f) = (l.foldl emitMin out).map f from
    this [] (by simp)
  induction l with
  | nil => intro out _; rfl
  | cons x l ih =>
    intro out hout
    have hx : ∀ m ∈ x, P m := hl x (List.mem_cons_self _ _)
    rw [List.map_cons, List.foldl_cons, List.foldl_cons, emitMin_map hf hout hx]
    refine ih (fun y hy => hl y (List.mem_cons_of_mem _ hy)) _ fun m hm => ?_
    rcases mem_emitMin.1 hm with hm | rfl
    · exact hout m hm
    · exact hx m rfl

/-! ## The minimizers of the reverse complement -/

theorem mirror_key (L : Nat) (m : Minimizer) : (m.mirror L).key = m.key := rfl

theorem mirror_hash (L : Nat) (m : Minimizer) : (m.mirror L).hash = m.hash := rfl

theorem mirror_injOn {L : Nat} {a b : Minimizer} (ha : a.offset < L) (hb : b.offset < L)
    (h : a.mirror L = b.mirror L) : a = b := by
  obtain ⟨key, hash, offset, isReverse⟩ := a
  obtain ⟨key', hash', offset', isReverse'⟩ := b
  simp only [Minimizer.mirror, Minimizer.mk.injEq, Bool.not_inj_iff] at h ha hb ⊢
  obtain ⟨rfl, rfl, ho, rfl⟩ := h
  exact ⟨rfl, rfl, by omega, rfl⟩

theorem mem_of_mem_windowMins {w : Nat} {l : List (Option Minimizer)} {x : Option Minimizer}
    (hx : x ∈ windowMins w l) {m : Minimizer} (hm : m ∈ x) : some m ∈ l := by
  obtain ⟨t, -, rfl⟩ := List.mem_map.1 hx
  obtain ⟨i, hi⟩ := (windowMin_eq_some_iff _ m).1 hm
  exact List.mem_of_mem_drop (List.mem_of_mem_take (List.mem_iff_getElem?.2 ⟨i, hi.mem⟩))

/-- For odd `k ≤ 32`, the reverse complement has the same minimizers, mirrored, last first. -/
theorem minimizers_reverseComplement {k : Nat} (hk : Odd k) (hk32 : k ≤ 32) (w : Nat)
    (cs : List Char)
    (hkeys : ∀ j < cs.length, ∀ d < w, 0 < d →
      ∀ m ∈ kmerAt k cs j, ∀ m' ∈ kmerAt k cs (j + d), m.key ≠ m'.key) :
    minimizers k w (Sequence.reverseComplement cs) =
      ((minimizers k w cs).map (Minimizer.mirror cs.length)).reverse := by
  have hk0 : 0 < k := hk.pos
  unfold minimizers
  rw [Sequence.length_reverseComplement]
  split_ifs
  · rfl
  -- The slots of the candidates of the sequence hold its kmers.
  have hslot : ∀ (i : Nat) (a : Minimizer), (candidates k cs)[i]? = some (some a) →
      i < cs.length ∧ kmerAt k cs i = some a := fun i a h => by
    rw [candidates_eq hk0] at h
    obtain ⟨hi, ha⟩ := List.getElem?_eq_some_iff.1 h
    simp only [List.length_map, List.length_range] at hi
    simp only [List.getElem_map, List.getElem_range] at ha
    exact ⟨by omega, ha⟩
  rw [candidates_reverseComplement hk hk32, windowMins_map_reverse (mirror_key _) (mirror_hash _) w
    fun i j a b hij hji ha hb => hkeys i (hslot i a ha).1 (j - i) (by omega) (by omega) a
      (hslot i a ha).2 b (by rw [Nat.add_sub_cancel' hij.le]; exact (hslot j b hb).2),
    foldl_emitMin_reverse, foldl_emitMin_map (P := fun m => m.offset < cs.length)
      (fun a b ha hb h => mirror_injOn ha hb h)]
  intro x hx m hm
  have := mem_of_mem_windowMins hx hm
  obtain ⟨i, hi⟩ := List.mem_iff_getElem?.1 this
  exact kmerAt_offset_lt hk0 (hslot i m hi).2

/-- The `BothOrientations` test. -/
theorem minimizers_reverseComplement_bothOrientations :
    (Odd 3 ∧ 3 ≤ 32 ∧ ∀ j < 13, ∀ d < 2, 0 < d →
      ∀ m ∈ kmerAt 3 "CGAATACAATACT".toList j, ∀ m' ∈ kmerAt 3 "CGAATACAATACT".toList (j + d),
        m.key ≠ m'.key) ∧
    minimizers 3 2 (Sequence.reverseComplement "CGAATACAATACT".toList) =
      ((minimizers 3 2 "CGAATACAATACT".toList).map (Minimizer.mirror 13)).reverse :=
  ⟨⟨by decide, by decide, by decide⟩,
    minimizers_reverseComplement (by decide) (by decide) 2 _ (by decide)⟩

example : minimizers 3 2 (Sequence.reverseComplement "CGAATACAATACT".toList) =
    [⟨7, wangHash64 7, 2, true⟩, ⟨51, wangHash64 51, 2, false⟩, ⟨3, wangHash64 3, 5, true⟩,
      ⟨59, wangHash64 59, 5, false⟩, ⟨51, wangHash64 51, 7, false⟩, ⟨3, wangHash64 3, 10, true⟩,
      ⟨54, wangHash64 54, 10, false⟩] := by
  decide

end GbwtGraph
