import LibNokogiri.Foundation.Framing

/-! # Records put together, appended and overwritten

What a scan finds is determined by the length fields it looks at, and a tiled
string is the concatenation of its records. So a scan passes over a tiled
string into whatever is appended to it, reads that as if it stood alone, and
takes no notice of bytes that change anywhere else.
-/

namespace Framing

open ByteCodec

theorem take_slice (bs : Bytes) (offset count width : Nat) :
    (slice bs offset (count + width)).take count = slice bs offset count := by
  rw [slice, slice, List.take_take, Nat.min_eq_left (Nat.le_add_right count width)]

theorem drop_slice (bs : Bytes) (offset count width : Nat) :
    (slice bs offset (count + width)).drop count = slice bs (offset + count) width := by
  rw [slice, slice, List.drop_take, List.drop_drop, Nat.add_sub_cancel_left]

namespace Format

variable {F : Format} {bs : Bytes} {pos : Nat} {es : List Entry}

def recordOf (F : Format) (bs : Bytes) (e : Entry) : Bytes :=
  slice bs e.offset (F.headerSize + e.length)

/-- The records of a tiling, put together, are the rest of the string. -/
theorem Tiles.flatMap_recordOf (h : F.Tiles bs pos es) :
    es.flatMap (F.recordOf bs) = bs.drop pos := by
  induction es generalizing pos with
  | nil =>
      have hend : pos = bs.length := h
      rw [hend, List.drop_length]
      rfl
  | cons e es ih =>
      have hoff : e.offset = pos := h.1
      rw [List.flatMap_cons, ih h.2.2, recordOf, hoff, slice, Nat.add_assoc, ← List.drop_drop,
        List.take_append_drop]

/-- The index of a layout finds its frames again, whatever their length fields
hold. -/
theorem map_recordOf_index (before : Bytes) (fs : List (Frame F)) :
    (index before.length fs).map (F.recordOf (before ++ layout fs)) = fs.map Frame.bytes := by
  induction fs generalizing before with
  | nil => rfl
  | cons f fs ih =>
      have happend : before ++ layout (f :: fs) = (before ++ f.bytes) ++ layout fs := by
        simp [layout]
      have hlen : before.length + f.bytes.length = (before ++ f.bytes).length := by simp
      have hfirst : F.recordOf (before ++ layout (f :: fs)) ⟨f.body.length, before.length⟩ =
          f.bytes := by
        rw [recordOf, ← f.bytes_length]
        exact slice_field rfl rfl _
      rw [index, List.map_cons, hfirst, hlen, happend, ih (before ++ f.bytes), List.map_cons]

/-! ## Appending -/

section Append

variable {after : Bytes}

theorem Fits.append (h : F.Fits bs pos) : F.Fits (bs ++ after) pos := by
  unfold Fits at *
  rw [List.length_append]
  omega

theorem lengthAt_append (h : F.Fits bs pos) : F.lengthAt (bs ++ after) pos = F.lengthAt bs pos := by
  rw [lengthAt, slice_append_left after h, lengthAt]

theorem entryAt_append (h : F.Fits bs pos) : F.entryAt (bs ++ after) pos = F.entryAt bs pos := by
  rw [entryAt, entryAt, lengthAt_append h]

/-- A scan passes over a tiled string and goes on behind it. -/
theorem Tiles.scan_append (h : F.Tiles bs pos es) (hafter : after ≠ []) :
    F.scan (bs ++ after) pos =
      (es ++ (F.scan (bs ++ after) bs.length).1, (F.scan (bs ++ after) bs.length).2) := by
  have hlonger : bs.length < (bs ++ after).length := by
    have hpos := List.length_pos_iff.mpr hafter
    rw [List.length_append]
    omega
  induction es generalizing pos with
  | nil =>
      have hend : pos = bs.length := h
      rw [hend]
      rfl
  | cons e es ih =>
      have hfits := h.fits
      have hentry : F.entryAt (bs ++ after) pos = e := by
        rw [entryAt_append hfits]
        exact h.head_eq.symm
      have hend : F.recordEnd (F.entryAt (bs ++ after) pos) ≠ (bs ++ after).length := by
        have hle := h.head_end_le
        rw [hentry]
        omega
      rw [scan_hop hfits.append hend, hentry, ih h.tail]
      rfl

end Append

/-! ## Moving a string -/

def moveEntry (distance : Nat) (e : Entry) : Entry := ⟨e.length, distance + e.offset⟩

section Shift

variable {before : Bytes}

theorem fits_shift : F.Fits (before ++ bs) (before.length + pos) ↔ F.Fits bs pos := by
  unfold Fits
  rw [List.length_append]
  omega

theorem entryAt_shift :
    F.entryAt (before ++ bs) (before.length + pos) = moveEntry before.length (F.entryAt bs pos) := by
  simp only [entryAt, moveEntry, lengthAt, Nat.add_assoc, slice_append_right]

theorem recordEnd_shift (e : Entry) (distance : Nat) :
    F.recordEnd (moveEntry distance e) = distance + F.recordEnd e := by
  simp only [recordEnd, moveEntry, Nat.add_assoc]

theorem scan_shift (F : Format) (before bs : Bytes) (pos : Nat) :
    F.scan (before ++ bs) (before.length + pos) =
      ((F.scan bs pos).1.map (moveEntry before.length), (F.scan bs pos).2) := by
  have hlength : ∀ n, before.length + n = (before ++ bs).length ↔ n = bs.length := by
    intro n
    rw [List.length_append]
    omega
  induction pos using scan.induct F bs with
  | case1 pos hfit hend =>
      have hend' : F.recordEnd (F.entryAt (before ++ bs) (before.length + pos)) =
          (before ++ bs).length := by
        rw [entryAt_shift, recordEnd_shift]
        exact (hlength _).mpr hend
      rw [scan_last hfit hend, scan_last (fits_shift.mpr hfit) hend', entryAt_shift]
      rfl
  | case2 pos hfit hend ih =>
      have hend' : F.recordEnd (F.entryAt (before ++ bs) (before.length + pos)) ≠
          (before ++ bs).length := by
        rw [entryAt_shift, recordEnd_shift]
        exact fun h => hend ((hlength _).mp h)
      rw [scan_hop hfit hend, scan_hop (fits_shift.mpr hfit) hend', entryAt_shift, recordEnd_shift,
        ih]
      rfl
  | case3 pos hfit =>
      rw [scan_short hfit, scan_short fun h => hfit (fits_shift.mp h)]
      rfl

end Shift

/-! ## Overwriting -/

/-- A string of the same length whose length fields are the same where the
scan looks is scanned alike. -/
theorem scan_overwritten {bs' : Bytes} (hlen : bs'.length = bs.length)
    (hsame : ∀ e ∈ (F.scan bs pos).1, F.lengthAt bs' e.offset = F.lengthAt bs e.offset) :
    F.scan bs' pos = F.scan bs pos :=
  scan_agree hlen rfl rfl rfl hsame

end Format

end Framing
