import LibNokogiri.Foundation.Framing

/-! # Regular files as the kernel presents them

An open file description is a regular file with a position. A read returns
every requested byte that exists, `lseek` may go past the end, and a write
stores as many bytes as the kernel accepts. `size_t` and `off_t` are 64 bits
wide, so no file is longer than the largest `off_t`.
-/

namespace LibNokogiri.Internal

open ByteCodec Framing

/-- One past the largest `off_t`. -/
def offLimit : Nat := 2 ^ 63

/-- Conversion of a 64-bit integer expression to `std::ptrdiff_t` or `off_t`. -/
def ptrdiffT (n : Int) : Int := n.bmod (2 ^ 64)

/-- Conversion of an `off_t` to `std::uintptr_t`. -/
def uintptrT (n : Int) : Nat := (n % 2 ^ 64).toNat

theorem ptrdiffT_of_lt {n : Nat} (h : n < offLimit) : ptrdiffT n = n := by
  unfold offLimit at h
  unfold ptrdiffT
  rw [Int.bmod_eq_of_le] <;> omega

theorem ptrdiffT_ne_neg_one {n : Nat} (h : n < 2 ^ 64 - 1) : ptrdiffT n ≠ -1 := by
  intro heq
  simp only [ptrdiffT, Int.bmod] at heq
  split at heq <;> omega

@[simp] theorem uintptrT_natCast {n : Nat} (h : n < offLimit) : uintptrT n = n := by
  unfold offLimit at h
  unfold uintptrT
  omega

structure RegularFile where
  content : Bytes
  size_lt : content.length < offLimit
deriving DecidableEq

namespace RegularFile

def size (f : RegularFile) : Nat := f.content.length

def empty : RegularFile := ⟨[], by decide⟩

def cut (f : RegularFile) (count : Nat) : RegularFile where
  content := f.content.take count
  size_lt := Nat.lt_of_le_of_lt (List.length_take_le' count f.content) f.size_lt

def resized (f : RegularFile) (size : Nat) (h : size < offLimit) : RegularFile where
  content := f.content.take size ++ List.replicate (size - f.content.length) 0
  size_lt := by
    rw [List.length_append, List.length_take, List.length_replicate]
    omega

end RegularFile

structure OpenFile where
  file : RegularFile
  pos : Nat
deriving DecidableEq

inductive Whence
  | set
  | cur
  | «end»
deriving DecidableEq, Repr

inductive WriteOutcome
  | failed
  | accepted (count : Nat)
deriving DecidableEq, Repr

def WriteOutcome.stores (len : Nat) : WriteOutcome → Bool
  | .failed => false
  | .accepted count => decide (len ≤ count)

def AllStored (writes : Nat → WriteOutcome) : Nat → List Nat → Prop
  | _, [] => True
  | n, len :: lens => (writes n).stores len = true ∧ AllStored writes (n + 1) lens

instance AllStored.decidable (writes : Nat → WriteOutcome) :
    ∀ n lens, Decidable (AllStored writes n lens)
  | _, [] => inferInstanceAs (Decidable True)
  | n, _ :: lens =>
      have := AllStored.decidable writes (n + 1) lens
      inferInstanceAs (Decidable (_ ∧ _))

theorem allStored_cons (writes : Nat → WriteOutcome) (n len : Nat) (lens : List Nat) :
    AllStored writes n (len :: lens) ↔
      (writes n).stores len = true ∧ AllStored writes (n + 1) lens := Iff.rfl

/-- `read`: the bytes stored in the buffer; their number is the result. -/
def fdread (f : OpenFile) (bufferLen : Nat) : Bytes × OpenFile :=
  let bytes := slice f.file.content f.pos bufferLen
  (bytes, { f with pos := f.pos + bytes.length })

/-- `lseek`: the new position, or -1 with the position unchanged. -/
def fdseek (f : OpenFile) (offset : Int) (whence : Whence) : Int × OpenFile :=
  let base : Int :=
    match whence with
    | .set => 0
    | .cur => f.pos
    | .end => f.file.size
  let target := base + offset
  if 0 ≤ target ∧ target < offLimit then (target, { f with pos := target.toNat }) else (-1, f)

def fdtell (f : OpenFile) : Int := f.pos

/-- File contents after `data` is stored at `pos`. A hole reads as zeros, and
storing nothing makes none. -/
def overwrite (content : Bytes) (pos : Nat) (data : Bytes) : Bytes :=
  if data = [] then content
  else
    let front := content.take pos
    front ++ List.replicate (pos - front.length) 0 ++ data ++ content.drop (pos + data.length)

/-- `write`: the number of bytes stored, or -1. A file never outgrows `off_t`. -/
def fdwrite (f : OpenFile) (buffer : Bytes) (outcome : WriteOutcome) : Int × OpenFile :=
  match outcome with
  | .failed => (-1, f)
  | .accepted count =>
      let data := buffer.take count
      let content := overwrite f.file.content f.pos data
      if h : content.length < offLimit then
        (data.length, { file := ⟨content, h⟩, pos := f.pos + data.length })
      else (-1, f)

/-- `ftruncate`: 0, or -1 with the file unchanged. The position stays. -/
def fdtruncate (f : OpenFile) (size : Int) (granted : Bool) : Int × OpenFile :=
  if h : granted = true ∧ 0 ≤ size ∧ size < offLimit then
    (0, { f with file := f.file.resized size.toNat (by omega) })
  else (-1, f)

theorem fdseek_file (f : OpenFile) (offset : Int) (whence : Whence) :
    (fdseek f offset whence).2.file = f.file := by
  simp only [fdseek]
  cases whence <;> simp only <;> split <;> rfl

theorem fdseek_cases (f : OpenFile) (offset : Int) (whence : Whence) :
    (∃ pos : Nat, fdseek f offset whence = ((pos : Int), { f with pos })) ∨
      fdseek f offset whence = (-1, f) := by
  unfold fdseek
  extract_lets base target
  by_cases hrange : 0 ≤ target ∧ target < offLimit
  · left
    refine ⟨target.toNat, ?_⟩
    rw [if_pos hrange, Int.toNat_of_nonneg hrange.1]
  · right
    rw [if_neg hrange]

theorem fdseek_cur (f : OpenFile) (offset : Nat) :
    fdseek f offset .cur =
      if f.pos + offset < offLimit then
        (((f.pos + offset : Nat) : Int), { f with pos := f.pos + offset })
      else (-1, f) := by
  simp only [fdseek, ← Int.natCast_add, Int.toNat_natCast]
  by_cases h : f.pos + offset < offLimit
  · rw [if_pos h, if_pos (by omega)]
  · rw [if_neg h, if_neg (by omega)]

theorem fdseek_set (f : OpenFile) {offset : Nat} (h : offset < offLimit) :
    fdseek f offset .set = ((offset : Int), { f with pos := offset }) := by
  have hle : (0 : Int) ≤ (offset : Int) ∧ (offset : Int) < offLimit := by omega
  simp only [fdseek, Int.zero_add, if_pos hle, Int.toNat_natCast]

theorem fdtruncate_cases (f : OpenFile) (size : Int) (granted : Bool) :
    (granted = true ∧ ∃ n : Nat, size = n ∧ (fdtruncate f size granted).2.file.size = n ∧
        (n : Int) < offLimit) ∨
      (¬ (granted = true ∧ 0 ≤ size ∧ size < offLimit) ∧
        fdtruncate f size granted = (-1, f)) := by
  unfold fdtruncate
  split
  · rename_i hrange
    left
    obtain ⟨n, rfl⟩ := Int.eq_ofNat_of_zero_le hrange.2.1
    refine ⟨hrange.1, n, rfl, ?_, hrange.2.2⟩
    simp only [RegularFile.size, RegularFile.resized, Int.toNat_natCast, List.length_append,
      List.length_take, List.length_replicate]
    omega
  · rename_i hrange
    exact .inr ⟨hrange, rfl⟩

section Overwrite

variable {content data : Bytes} {pos : Nat}

theorem overwrite_of_le (h : pos ≤ content.length) :
    overwrite content pos data = content.take pos ++ (data ++ content.drop (pos + data.length)) := by
  by_cases hdata : data = []
  · simp [overwrite, hdata]
  · simp [overwrite, hdata, List.length_take_of_le h]

@[simp] theorem overwrite_nil (h : pos ≤ content.length) : overwrite content pos [] = content := by
  rw [overwrite_of_le h, List.nil_append, List.length_nil, Nat.add_zero, List.take_append_drop]

theorem overwrite_length (h : pos ≤ content.length) :
    (overwrite content pos data).length = max content.length (pos + data.length) := by
  rw [overwrite_of_le h]
  simp only [List.length_append, List.length_take, List.length_drop]
  omega

theorem overwrite_length_of_ne (content : Bytes) (pos : Nat) (h : data ≠ []) :
    (overwrite content pos data).length = max content.length (pos + data.length) := by
  simp only [overwrite, if_neg h, List.length_append, List.length_take, List.length_replicate,
    List.length_drop]
  omega

theorem overwrite_behind {copied : Bytes} {start : Nat} (hcopied : copied <+: content.drop start)
    (hdata : data ≠ []) :
    copied ++ data <+: (overwrite content (start + copied.length) data).drop start := by
  obtain ⟨rest, hrest⟩ := hcopied
  have hlen : copied.length + rest.length = content.length - start := by
    rw [← List.length_append, hrest, List.length_drop]
  generalize hend : start + copied.length = stop
  have hover : overwrite content stop data =
      (content.take stop ++ List.replicate (stop - (content.take stop).length) 0) ++
        (data ++ content.drop (stop + data.length)) := by
    simp only [overwrite, if_neg hdata, List.append_assoc]
  have hfront : (content.take stop ++
      List.replicate (stop - (content.take stop).length) 0).length = stop := by
    simp only [List.length_append, List.length_take, List.length_replicate]
    omega
  have hdrop : (content.take stop ++
      List.replicate (stop - (content.take stop).length) 0).drop start = copied := by
    by_cases hnil : copied = []
    · rw [hnil, List.length_nil] at hend
      rw [hnil]
      exact List.drop_of_length_le (by omega)
    · have hpos : 0 < copied.length := List.length_pos_iff.mpr hnil
      have hinside : stop ≤ content.length := by omega
      have hcount : stop - start = copied.length := by omega
      rw [List.length_take_of_le hinside, Nat.sub_self, List.replicate_zero, List.append_nil,
        List.drop_take, hcount, ← hrest, List.take_left]
  rw [hover, List.drop_append_of_le_length (by omega), hdrop, ← List.append_assoc]
  exact List.prefix_append _ _

theorem overwrite_overwrite (data' : Bytes) (h : pos ≤ content.length) :
    overwrite (overwrite content pos data) (pos + data.length) data' =
      overwrite content pos (data ++ data') := by
  have hfront : (content.take pos ++ data).length = pos + data.length := by
    rw [List.length_append, List.length_take_of_le h]
  have hle : pos + data.length ≤ (overwrite content pos data).length := by
    rw [overwrite_length h]
    exact Nat.le_max_right _ _
  rw [overwrite_of_le hle, overwrite_of_le h, overwrite_of_le h, ← List.append_assoc (content.take pos),
    List.take_left' hfront, ← List.drop_drop, List.drop_left' hfront, List.drop_drop]
  simp only [List.append_assoc, List.length_append, Nat.add_assoc]

theorem slice_overwrite (data : Bytes) (h : pos ≤ content.length) :
    slice (overwrite content pos data) pos data.length = data := by
  rw [overwrite_of_le h]
  exact slice_field (List.length_take_of_le h) rfl _

theorem slice_overwrite_of_disjoint {offset width : Nat} (h : pos ≤ content.length)
    (hdisjoint : offset + width ≤ pos ∨ pos + data.length ≤ offset) :
    slice (overwrite content pos data) offset width = slice content offset width := by
  have hfront : (content.take pos).length = pos := List.length_take_of_le h
  rw [overwrite_of_le h]
  rcases hdisjoint with hbefore | hbehind
  · rw [slice_append_left _ (by omega), slice_take hbefore]
  · obtain ⟨k, rfl⟩ := Nat.exists_eq_add_of_le hbehind
    rw [Nat.add_assoc, slice_skip hfront, slice_skip rfl, slice, slice, List.drop_drop,
      Nat.add_assoc]

theorem overwrite_slice {width : Nat} (h : pos + width ≤ content.length) :
    overwrite content pos (slice content pos width) = content := by
  rw [overwrite_of_le (by omega), slice_length_of_le h, slice, ← List.drop_drop,
    List.take_append_drop, List.take_append_drop]

end Overwrite

end LibNokogiri.Internal
