import GbwtGraph.Minimizer.Index

/-! # Linear probing

Where `find_offset` stops, on the keys of the cells alone. The table keeps two facts about its
keys: no key other than `no_key()` is in two slots, and no slot between the slot of a key's hash
and the key's own slot is empty. From them the search for a key of the table stops at its slot,
the search for another key stops at an empty slot, and the new key put there keeps both facts.
-/

namespace GbwtGraph

/-! ## The search -/

theorem find?_map_range_eq_some {p : Nat → Bool} {g : Nat → Nat} :
    ∀ n i, ((List.range n).map g).find? p = some i ↔
      ∃ d < n, g d = i ∧ p i ∧ ∀ t < d, p (g t) = false
  | 0, _ => by simp
  | n + 1, i => by
    rw [List.range_succ, List.map_append, List.find?_append]
    rcases h : ((List.range n).map g).find? p with _ | j
    · -- No earlier attempt meets `p`, so the last one is the first that can.
      have hnone : ∀ t < n, p (g t) = false := fun t ht => by
        simpa using List.find?_eq_none.1 h (g t) (List.mem_map_of_mem g (List.mem_range.2 ht))
      rw [Option.none_or, List.map_singleton, List.find?_singleton]
      constructor
      · intro hb
        split at hb
        · next hp => cases hb; exact ⟨n, Nat.lt_succ_self n, rfl, hp, hnone⟩
        · cases hb
      · rintro ⟨d, hd, rfl, hp, -⟩
        obtain rfl : d = n := by
          by_contra hne
          rw [hnone d (by omega)] at hp
          cases hp
        rw [if_pos hp]
    · obtain ⟨d₀, hd₀, rfl, hp₀, hbefore₀⟩ := (find?_map_range_eq_some n j).1 h
      rw [show (some (g d₀)).or _ = some (g d₀) from rfl]
      constructor
      · rintro ⟨⟩
        exact ⟨d₀, by omega, rfl, hp₀, hbefore₀⟩
      · rintro ⟨d, hd, rfl, hp, hbefore⟩
        rcases Nat.lt_trichotomy d d₀ with hlt | rfl | hlt
        · rw [hbefore₀ d hlt] at hp; cases hp
        · rfl
        · rw [hbefore d₀ hlt] at hp₀; cases hp₀

variable {ks : List Nat} {key hash i : Nat}

theorem findSlot_eq_some_iff :
    findSlot ks key hash = some i ↔ ∃ d < ks.length, (hash + d) % ks.length = i ∧
      stopsAt ks key i ∧ ∀ t < d, stopsAt ks key ((hash + t) % ks.length) = false :=
  find?_map_range_eq_some _ _

theorem findSlot_eq_none_iff :
    findSlot ks key hash = none ↔ ∀ t < ks.length, stopsAt ks key ((hash + t) % ks.length) = false := by
  simp [findSlot, List.find?_eq_none]

theorem attempt_inj {n h d d' : Nat} (hd : d < n) (hd' : d' < n)
    (heq : (h + d) % n = (h + d') % n) : d = d' :=
  (Nat.ModEq.add_left_cancel' h heq).eq_of_lt_of_lt hd hd'

theorem exists_attempt {n e : Nat} (he : e < n) (h : Nat) : ∃ d < n, (h + d) % n = e := by
  have hr : h % n < n := Nat.mod_lt _ (by omega)
  by_cases hle : h % n ≤ e
  · refine ⟨e - h % n, by omega, ?_⟩
    rw [Nat.add_mod, Nat.mod_eq_of_lt (show e - h % n < n by omega), Nat.add_sub_cancel' hle,
      Nat.mod_eq_of_lt he]
  · refine ⟨e + n - h % n, by omega, ?_⟩
    rw [Nat.add_mod, Nat.mod_eq_of_lt (show e + n - h % n < n by omega),
      show h % n + (e + n - h % n) = e + n by omega, Nat.add_mod_right, Nat.mod_eq_of_lt he]

theorem getD_set_of_lt {α : Type} {l : List α} {i : Nat} (hi : i < l.length) (x : α) (j : Nat)
    (d : α) : (l.set i x).getD j d = if i = j then x else l.getD j d := by
  rw [List.getD_eq_getElem?_getD, List.getElem?_set, List.getD_eq_getElem?_getD]
  split_ifs <;> simp_all

theorem getD_mem {α : Type} {l : List α} {i : Nat} (hi : i < l.length) (d : α) : l.getD i d ∈ l := by
  rw [List.getD_eq_getElem _ _ hi]
  exact List.getElem_mem hi

/-! ## The keys of a table -/

/-- The keys as the search needs them: distinct, each reached before an empty slot. -/
structure KeysInv (ks : List Nat) : Prop where
  distinct : ∀ i < ks.length, ∀ j < ks.length, ks.getD i noKey ≠ noKey →
    ks.getD i noKey = ks.getD j noKey → i = j
  reach : ∀ i < ks.length, ks.getD i noKey ≠ noKey → ∃ d < ks.length,
    (wangHash64 (ks.getD i noKey) + d) % ks.length = i ∧
      ∀ t < d, ks.getD ((wangHash64 (ks.getD i noKey) + t) % ks.length) noKey ≠ noKey

theorem keysInv_replicate (n : Nat) : KeysInv (List.replicate n noKey) where
  distinct _ hi _ _ hne := absurd (by simp [List.getD_eq_getElem _ _ hi]) hne
  reach _ hi hne := absurd (by simp [List.getD_eq_getElem _ _ hi]) hne

theorem KeysInv.findSlot_getD (h : KeysInv ks) (hi : i < ks.length)
    (hne : ks.getD i noKey ≠ noKey) :
    findSlot ks (ks.getD i noKey) (wangHash64 (ks.getD i noKey)) = some i := by
  obtain ⟨d, hd, hslot, hbefore⟩ := h.reach i hi hne
  refine findSlot_eq_some_iff.2
    ⟨d, hd, hslot, by simp only [stopsAt, beq_self_eq_true, Bool.or_true], fun t ht => ?_⟩
  have hs : (wangHash64 (ks.getD i noKey) + t) % ks.length < ks.length :=
    Nat.mod_lt _ (Nat.zero_lt_of_lt hi)
  simp only [stopsAt, Bool.or_eq_false_iff, beq_eq_false_iff_ne]
  -- An earlier slot holds a key, and not this one: it would be this slot.
  refine ⟨hbefore t ht, fun heq => ?_⟩
  have := h.distinct _ hs i hi (hbefore t ht) heq
  exact Nat.ne_of_lt ht (attempt_inj (ht.trans hd) hd (this.trans hslot.symm))

theorem KeysInv.findSlot_new (h : KeysInv ks) {x : Nat} (hx : x ≠ noKey)
    (habs : ∀ j < ks.length, ks.getD j noKey ≠ x) {e : Nat} (he : e < ks.length)
    (hempty : ks.getD e noKey = noKey) :
    ∃ i, findSlot ks x (wangHash64 x) = some i ∧ i < ks.length ∧ ks.getD i noKey = noKey ∧
      KeysInv (ks.set i x) := by
  obtain ⟨i, hi⟩ : ∃ i, findSlot ks x (wangHash64 x) = some i := by
    rcases hf : findSlot ks x (wangHash64 x) with _ | i
    · obtain ⟨d, hd, hde⟩ := exists_attempt he (wangHash64 x)
      have := findSlot_eq_none_iff.1 hf d hd
      rw [hde, stopsAt, hempty, beq_self_eq_true, Bool.true_or] at this
      cases this
    · exact ⟨i, rfl⟩
  obtain ⟨d, hd, hslot, hstop, hbefore⟩ := findSlot_eq_some_iff.1 hi
  have hil : i < ks.length := hslot ▸ Nat.mod_lt _ (by omega)
  have hie : ks.getD i noKey = noKey := by
    simp only [stopsAt, Bool.or_eq_true, beq_iff_eq] at hstop
    exact hstop.resolve_right (habs i hil)
  -- The attempts before `d` meet slots other than `i` that hold keys.
  have hfull : ∀ t < d, (wangHash64 x + t) % ks.length ≠ i ∧
      ks.getD ((wangHash64 x + t) % ks.length) noKey ≠ noKey := fun t ht => by
    have := hbefore t ht
    simp only [stopsAt, Bool.or_eq_false_iff, beq_eq_false_iff_ne] at this
    exact ⟨fun heq => Nat.ne_of_lt ht (attempt_inj (ht.trans hd) hd (heq.trans hslot.symm)),
      this.1⟩
  refine ⟨i, hi, hil, hie, ⟨fun a ha b hb hne heq => ?_, fun a ha hne => ?_⟩⟩
  · rw [List.length_set] at ha hb
    rw [getD_set_of_lt hil] at hne heq
    rw [getD_set_of_lt hil] at heq
    split_ifs at hne heq with h₁ h₂ h₂
    · exact h₁.symm.trans h₂
    · exact absurd heq.symm (habs b hb)
    · exact absurd heq (habs a ha)
    · exact h.distinct a ha b hb hne heq
  · rw [List.length_set] at ha ⊢
    rw [getD_set_of_lt hil] at hne ⊢
    by_cases hia : i = a
    · subst hia
      rw [if_pos rfl]
      refine ⟨d, hd, hslot, fun t ht => ?_⟩
      rw [getD_set_of_lt hil, if_neg (hfull t ht).1.symm]
      exact (hfull t ht).2
    · rw [if_neg hia] at hne ⊢
      obtain ⟨d', hd', hslot', hbefore'⟩ := h.reach a ha hne
      refine ⟨d', hd', hslot', fun t ht => ?_⟩
      rw [getD_set_of_lt hil]
      split_ifs
      · exact hx
      · exact hbefore' t ht

theorem exists_getD_eq_noKey (h : (ks.filter (· ≠ noKey)).length < ks.length) :
    ∃ e < ks.length, ks.getD e noKey = noKey := by
  by_contra hne
  push_neg at hne
  rw [List.filter_eq_self.2 fun x hx => ?_] at h
  · exact Nat.lt_irrefl _ h
  obtain ⟨e, he, rfl⟩ := List.getElem_of_mem hx
  simpa [← List.getD_eq_getElem _ noKey he] using hne e he

end GbwtGraph
