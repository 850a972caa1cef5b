import Mathlib.Data.Prod.Lex
import LibNokogiri.Common

/-! # The order of versions

Versions are meant to be ordered by their major number, then by their minor
one. The comparison operators spell this out clause by clause. They agree with
the order on the pairs whose numbers do not pull in opposite directions, apart
from one more clause of `operator<` that looks at the wrong number.
-/

namespace LibNokogiri.VersionT

/-! ## The operators on numbers -/

section Operators

variable (a b : VersionT)

theorem eq_iff : a.eq b = true ↔ a.major.toNat = b.major.toNat ∧ a.minor.toNat = b.minor.toNat := by
  simp [eq, majorVersion, minorVersion, ← UInt32.toNat_inj]

theorem gt_iff :
    a.gt b = true ↔
      (b.major.toNat < a.major.toNat ∧ b.minor.toNat ≤ a.minor.toNat) ∨
        (b.major.toNat ≤ a.major.toNat ∧ b.minor.toNat < a.minor.toNat) := by
  simp [gt, majorVersion, minorVersion, UInt32.lt_iff_toNat_lt, UInt32.le_iff_toNat_le]

theorem lt_iff :
    a.lt b = true ↔
      (a.major.toNat < b.major.toNat ∧ a.minor.toNat ≤ b.minor.toNat) ∨
        (a.minor.toNat ≤ b.major.toNat ∧ a.minor.toNat < b.minor.toNat) := by
  simp [lt, majorVersion, minorVersion, UInt32.lt_iff_toNat_lt, UInt32.le_iff_toNat_le]

theorem ge_iff : a.ge b = true ↔ a.gt b = true ∨ a.eq b = true := by
  simp [ge]

theorem le_iff : a.le b = true ↔ a.lt b = true ∨ a.eq b = true := by
  simp [le]

end Operators

/-! ## The order meant -/

/-- A version among all pairs of numbers, ordered lexicographically. -/
def key (v : VersionT) : ℕ ×ₗ ℕ := toLex (v.major.toNat, v.minor.toNat)

theorem key_lt_iff (a b : VersionT) :
    a.key < b.key ↔
      a.major.toNat < b.major.toNat ∨
        a.major.toNat = b.major.toNat ∧ a.minor.toNat < b.minor.toNat :=
  Prod.Lex.toLex_lt_toLex

theorem key_eq_iff (a b : VersionT) :
    a.key = b.key ↔ a.major.toNat = b.major.toNat ∧ a.minor.toNat = b.minor.toNat := by
  rw [key, key, toLex_inj, Prod.mk.injEq]

structure PairLaws (a b : VersionT) : Prop where
  lt : a.lt b = true ↔ a.major < b.major ∨ a.major = b.major ∧ a.minor < b.minor
  gt : a.gt b = true ↔ b.lt a = true
  exactlyOne : (a.lt b = true ∧ a.eq b = false ∧ a.gt b = false) ∨
    (a.lt b = false ∧ a.eq b = true ∧ a.gt b = false) ∨
    (a.lt b = false ∧ a.eq b = false ∧ a.gt b = true)
  le : a.le b = true ↔ ¬ a.gt b = true
  ge : a.ge b = true ↔ ¬ a.lt b = true

structure OrderLaws (a b c : VersionT) : Prop where
  first : PairLaws a b
  second : PairLaws b c
  outer : PairLaws a c
  trans : a.lt b = true → b.lt c = true → a.lt c = true

/-! ## Where the operators keep the laws -/

/-- The numbers do not pull in opposite directions, and two different minor
versions of one major version are not both above it. -/
structure Aligned (a b : VersionT) : Prop where
  below : a.major < b.major → a.minor ≤ b.minor
  above : b.major < a.major → b.minor ≤ a.minor
  level : a.major = b.major → a.minor = b.minor ∨ a.minor ≤ a.major ∨ b.minor ≤ b.major

section Laws

variable {a b c : VersionT}

theorem Aligned.symm (h : Aligned a b) : Aligned b a where
  below := h.above
  above := h.below
  level := by
    intro hmajor
    rcases h.level hmajor.symm with hminor | hsmall | hsmall
    · exact .inl hminor.symm
    · exact .inr (.inr hsmall)
    · exact .inr (.inl hsmall)

theorem aligned_iff :
    Aligned a b ↔
      (a.major.toNat < b.major.toNat → a.minor.toNat ≤ b.minor.toNat) ∧
        (b.major.toNat < a.major.toNat → b.minor.toNat ≤ a.minor.toNat) ∧
        (a.major.toNat = b.major.toNat → a.minor.toNat = b.minor.toNat ∨
          a.minor.toNat ≤ a.major.toNat ∨ b.minor.toNat ≤ b.major.toNat) := by
  simp only [← UInt16.lt_iff_toNat_lt, ← UInt16.le_iff_toNat_le, UInt16.toNat_inj]
  exact ⟨fun h => ⟨h.below, h.above, h.level⟩, fun h => ⟨h.1, h.2.1, h.2.2⟩⟩

theorem Aligned.lt_iff_key (h : Aligned a b) : a.lt b = true ↔ a.key < b.key := by
  obtain ⟨hbelow, habove, hlevel⟩ := aligned_iff.mp h
  rw [lt_iff, key_lt_iff]
  omega

theorem Aligned.gt_iff_key (h : Aligned a b) : a.gt b = true ↔ b.key < a.key := by
  obtain ⟨hbelow, habove, _⟩ := aligned_iff.mp h
  rw [gt_iff, key_lt_iff]
  omega

theorem eq_iff_key : a.eq b = true ↔ a.key = b.key := by
  rw [eq_iff, key_eq_iff]

theorem Aligned.pairLaws (h : Aligned a b) : PairLaws a b where
  lt := by
    rw [h.lt_iff_key, key_lt_iff]
    simp only [UInt16.lt_iff_toNat_lt, ← UInt16.toNat_inj]
  gt := by rw [h.gt_iff_key, h.symm.lt_iff_key]
  exactlyOne := by
    simp only [← Bool.not_eq_true, h.lt_iff_key, h.gt_iff_key, eq_iff_key]
    rcases lt_trichotomy a.key b.key with hlt | heq | hgt
    · exact .inl ⟨hlt, hlt.ne, hlt.not_gt⟩
    · exact .inr (.inl ⟨heq.not_lt, heq, heq.not_gt⟩)
    · exact .inr (.inr ⟨hgt.not_gt, hgt.ne', hgt⟩)
  le := by rw [le_iff, h.lt_iff_key, h.gt_iff_key, eq_iff_key, not_lt, le_iff_lt_or_eq]
  ge := by
    rw [ge_iff, h.lt_iff_key, h.gt_iff_key, eq_iff_key, not_lt, le_iff_lt_or_eq, eq_comm]

theorem PairLaws.aligned (h : PairLaws a b) : Aligned a b := by
  have hlt := h.lt
  have hgt := h.gt
  have hone := h.exactlyOne
  simp only [← Bool.not_eq_true, lt_iff, gt_iff, eq_iff, UInt16.lt_iff_toNat_lt,
    ← UInt16.toNat_inj] at hlt hgt hone
  rw [aligned_iff]
  omega

end Laws

/-- The operators are those of the lexicographic order on three versions
exactly when these are aligned two by two. -/
theorem orderLaws_iff (a b c : VersionT) :
    OrderLaws a b c ↔ Aligned a b ∧ Aligned b c ∧ Aligned a c := by
  constructor
  · intro h
    exact ⟨h.first.aligned, h.second.aligned, h.outer.aligned⟩
  · rintro ⟨hab, hbc, hac⟩
    refine ⟨hab.pairLaws, hbc.pairLaws, hac.pairLaws, ?_⟩
    rw [hab.lt_iff_key, hbc.lt_iff_key, hac.lt_iff_key]
    exact lt_trans

/-- Version 3.0 is below 2.4 for `operator<`, and not above it for `operator>`. -/
theorem orderLaws_fails :
    lt ⟨3, 0⟩ ⟨2, 4⟩ = true ∧ gt ⟨3, 0⟩ ⟨2, 4⟩ = false ∧
      ¬ OrderLaws ⟨3, 0⟩ ⟨2, 4⟩ ⟨2, 4⟩ := by
  refine ⟨by decide, by decide, ?_⟩
  rintro ⟨⟨hlt, _⟩, _⟩
  revert hlt
  decide

end LibNokogiri.VersionT
