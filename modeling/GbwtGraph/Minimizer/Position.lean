import Mathlib

/-! # Graph positions and their codes

The minimizer index stores a graph position, `pos_t`, as one 64-bit code: the offset in the low
`OFF_BITS` bits, the orientation above it, and the node id above that. Modelled from the spec:
the header of the index is not among the sources, and its tests use `make_pos_t`, `decode`,
`OFF_MASK` and `NO_VALUE`.
-/

namespace GbwtGraph

structure Pos where
  id : Nat
  isReverse : Bool
  offset : Nat
  deriving DecidableEq, Repr

/-- `OFF_BITS`, which the spec fixes at 10. -/
def offBits : Nat := 10

def offMask : Nat := 2 ^ offBits - 1

def noValue : Nat := 0

/-- `encode`; the three fields do not overlap, so the `|` are sums. -/
def Pos.encode (p : Pos) : Nat :=
  (p.id * 2 ^ (offBits + 1) + (if p.isReverse then 2 ^ offBits else 0) + p.offset % 2 ^ offBits)
    % 2 ^ 64

def Pos.decode (code : Nat) : Pos :=
  ⟨code / 2 ^ (offBits + 1), code / 2 ^ offBits % 2 = 1, code % 2 ^ offBits⟩

/-- The order of `pos_t`: by id, then orientation, then offset. -/
def Pos.order (p : Pos) : Lex (Nat × Lex (Bool × Nat)) := toLex (p.id, toLex (p.isReverse, p.offset))

/-! ## Round trips -/

theorem encode_eq_of_lt {p : Pos} (hid : p.id < 2 ^ 53) :
    p.encode = p.id * 2 ^ 11 + (if p.isReverse then 2 ^ 10 else 0) + p.offset % 2 ^ 10 := by
  unfold Pos.encode offBits
  apply Nat.mod_eq_of_lt
  have : p.offset % 2 ^ 10 < 2 ^ 10 := Nat.mod_lt _ (by decide)
  split <;> omega

/-- Every 64-bit code is the code of the position it decodes to. -/
theorem encode_decode {code : Nat} (hc : code < 2 ^ 64) : (Pos.decode code).encode = code := by
  have hid : code / 2 ^ 11 < 2 ^ 53 := by omega
  rw [encode_eq_of_lt hid]
  simp only [Pos.decode, offBits, decide_eq_true_eq]
  split <;> omega

/-- `decode(NO_VALUE)`, which the `EmptyKeysValues` test inserts, is coded as `NO_VALUE` again. -/
theorem encode_decode_noValue : noValue < 2 ^ 64 ∧ (Pos.decode noValue).encode = noValue :=
  ⟨by decide, encode_decode (by decide)⟩

theorem decode_encode {p : Pos} (hid : p.id < 2 ^ 53) :
    Pos.decode p.encode = ⟨p.id, p.isReverse, p.offset % 2 ^ offBits⟩ := by
  rw [encode_eq_of_lt hid]
  simp only [Pos.decode, offBits, Pos.mk.injEq]
  cases p.isReverse <;> simp <;> omega

theorem decode_encode_of_lt {p : Pos} (hid : p.id < 2 ^ 53) (hoff : p.offset < 2 ^ offBits) :
    Pos.decode p.encode = p := by
  rw [decode_encode hid, Nat.mod_eq_of_lt hoff]

/-- A position survives the code exactly when its id and offset fit in their bits. -/
theorem decode_encode_eq_iff (p : Pos) :
    Pos.decode p.encode = p ↔ p.id < 2 ^ 53 ∧ p.offset < 2 ^ offBits := by
  constructor
  · intro h
    have hlt : p.encode < 2 ^ 64 := Nat.mod_lt _ (by decide)
    have hid : (Pos.decode p.encode).id < 2 ^ 53 := by
      simp only [Pos.decode, offBits]; omega
    have hoff : (Pos.decode p.encode).offset < 2 ^ offBits := Nat.mod_lt _ (by decide)
    rw [h] at hid hoff
    exact ⟨hid, hoff⟩
  · rintro ⟨hid, hoff⟩
    exact decode_encode_of_lt hid hoff

/-- The positions that `encode` maps to `NO_VALUE`. -/
theorem encode_eq_noValue_iff (p : Pos) :
    p.encode = noValue ↔ p.id % 2 ^ 53 = 0 ∧ p.isReverse = false ∧ p.offset % 2 ^ offBits = 0 := by
  unfold Pos.encode noValue offBits
  cases p.isReverse <;> simp <;> omega

/-! ## The order of codes -/

theorem encode_lt_encode_iff {p q : Pos} (hp : p.id < 2 ^ 53) (hq : q.id < 2 ^ 53)
    (hpo : p.offset < 2 ^ offBits) (hqo : q.offset < 2 ^ offBits) :
    p.encode < q.encode ↔ p.order < q.order := by
  rw [encode_eq_of_lt hp, encode_eq_of_lt hq, Pos.order, Pos.order, Prod.Lex.lt_iff,
    Prod.Lex.lt_iff]
  simp only [offBits] at hpo hqo
  rw [Nat.mod_eq_of_lt hpo, Nat.mod_eq_of_lt hqo]
  cases p.isReverse <;> cases q.isReverse <;> simp [show ¬(true < false) by decide] <;> omega

end GbwtGraph
