import LibNokogiri.Foundation.ByteCodec

/-! # Options of pcapng blocks

An option knows the length of its data without padding, and computes its size
in the file from that. The file pads the data of every option to 32 bits.
-/

namespace LibNokogiri.Pcapng

open ByteCodec

/-- An option type is any 16-bit value; the enumerators only name some of them. -/
structure OptionTypeT where
  value : UInt16
deriving DecidableEq

def OptionTypeT.end : OptionTypeT := ⟨0x0000⟩

def OptionTypeT.comment : OptionTypeT := ⟨0x0001⟩

structure OptionT where
  type : OptionTypeT
  length : UInt16
  multipleAllowed : Bool
deriving DecidableEq

namespace OptionT

def default : OptionT := { type := .end, length := 0, multipleAllowed := false }

/-- `size()`; the sum is an `int`. -/
def size (self : OptionT) : Nat := self.length.toNat + 4

end OptionT

def endOfOptionsT : OptionT := { type := .end, length := 0, multipleAllowed := false }

/-- A default option acts as the end of options. -/
example : OptionT.default = endOfOptionsT := rfl

theorem endOfOptionsT_length : endOfOptionsT.length.toNat = 0 := rfl

/-! ## The layout in the file -/

def padding (length : Nat) : Nat := (4 - length % 4) % 4

theorem padding_eq_zero_iff (length : Nat) : padding length = 0 ↔ length % 4 = 0 := by
  unfold padding
  omega

theorem padded_dvd (length : Nat) : 4 ∣ length + padding length := by
  unfold padding
  omega

structure StoredOption where
  option : OptionT
  data : Bytes
  data_length : data.length = option.length.toNat

namespace StoredOption

def «end» : StoredOption := ⟨endOfOptionsT, [], endOfOptionsT_length.symm⟩

/-- Type, length and data; the padding is no part of the length. -/
def bytes (order : Order) (self : StoredOption) : Bytes :=
  store order self.option.type.value ++ store order self.option.length ++
    (self.data ++ List.replicate (padding self.data.length) 0)

def layout (order : Order) (options : List StoredOption) : Bytes :=
  (options.map (bytes order)).flatten

def offset (order : Order) (options : List StoredOption) (count : Nat) : Nat :=
  (layout order (options.take count)).length

variable {order : Order} {options : List StoredOption}

theorem bytes_length (order : Order) (self : StoredOption) :
    (self.bytes order).length = self.option.size + padding self.option.length.toNat := by
  simp only [bytes, List.length_append, store_length, List.length_replicate, self.data_length,
    OptionT.size]
  have htype : Scalar.width UInt16 = 2 := rfl
  omega

theorem bytes_dvd (order : Order) (self : StoredOption) : 4 ∣ (self.bytes order).length := by
  have hpadded := padded_dvd self.option.length.toNat
  rw [bytes_length, OptionT.size]
  omega

theorem offset_dvd (order : Order) (options : List StoredOption) (count : Nat) :
    4 ∣ offset order options count := by
  unfold offset layout
  generalize options.take count = front
  induction front with
  | nil => exact Nat.dvd_zero 4
  | cons o front ih =>
      rw [List.map_cons, List.flatten_cons, List.length_append]
      exact Nat.dvd_add (o.bytes_dvd order) ih

def sizes (options : List StoredOption) (count : Nat) : Nat :=
  ((options.take count).map fun o => o.option.size).sum

/-- The sizes before an option add up to its offset, a multiple of 4. -/
def AddUp (order : Order) (options : List StoredOption) : Prop :=
  ∀ count, count ≤ options.length →
    sizes options count = offset order options count ∧ 4 ∣ sizes options count

/-- Padding is the only thing that `size()` leaves out. -/
theorem offset_eq (order : Order) (options : List StoredOption) (count : Nat) :
    offset order options count = sizes options count +
      ((options.take count).map fun o => padding o.option.length.toNat).sum := by
  unfold offset layout sizes
  generalize options.take count = front
  induction front with
  | nil => rfl
  | cons o front ih =>
      simp only [List.map_cons, List.flatten_cons, List.length_append, List.sum_cons,
        bytes_length, ih]
      omega

theorem addUp_iff_unpadded (order : Order) (options : List StoredOption) :
    AddUp order options ↔ ∀ o ∈ options, o.option.length.toNat % 4 = 0 := by
  constructor
  · intro h o ho
    obtain ⟨hsum, _⟩ := h options.length (Nat.le_refl _)
    rw [offset_eq, List.take_length] at hsum
    have hzero : ((options.map fun o => padding o.option.length.toNat).sum) = 0 := by omega
    rw [← padding_eq_zero_iff]
    exact List.sum_eq_zero_iff_forall_eq_nat.mp hzero _ (List.mem_map_of_mem ho)
  · intro h count _
    have hzero : ((options.take count).map fun o => padding o.option.length.toNat).sum = 0 := by
      apply List.sum_eq_zero_iff_forall_eq_nat.mpr
      intro n hn
      obtain ⟨o, ho, rfl⟩ := List.mem_map.mp hn
      exact (padding_eq_zero_iff _).mpr (h o (List.mem_of_mem_take ho))
    have hoffset := offset_eq order options count
    rw [hzero, Nat.add_zero] at hoffset
    have hdvd := offset_dvd order options count
    rw [hoffset] at hdvd
    exact ⟨hoffset.symm, hdvd⟩

/-- For a list that the end of options closes, the sizes add up exactly if no
data needs padding. -/
theorem addUp_iff (order : Order) (options : List StoredOption) :
    AddUp order (options ++ [.end]) ↔ ∀ o ∈ options, o.option.length.toNat % 4 = 0 := by
  rw [addUp_iff_unpadded]
  constructor
  · intro h o ho
    exact h o (List.mem_append_left _ ho)
  · intro h o ho
    rcases List.mem_append.mp ho with ho | ho
    · exact h o ho
    · obtain rfl := List.mem_singleton.mp ho
      rw [StoredOption.end, endOfOptionsT_length]

def letter : StoredOption := ⟨⟨.comment, 1, true⟩, [0x41], rfl⟩

/-- The comment says that it takes 5 bytes, and the end of options starts at 8. -/
theorem addUp_fails :
    sizes [letter, .end] 1 = 5 ∧ offset .little [letter, .end] 1 = 8 ∧
      ¬ AddUp .little ([letter] ++ [.end]) := by
  refine ⟨by decide, by decide, fun h => ?_⟩
  obtain ⟨hsum, _⟩ := h 1 (by decide)
  revert hsum
  decide

end StoredOption

end LibNokogiri.Pcapng
