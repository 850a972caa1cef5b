import LibNokogiri.Foundation.ByteCodec

/-! # Length-prefixed records laid end to end

A record is a header of fixed size followed by a body, and a field inside the
header holds the body's length. `scan` hops from header to header and only
looks at the length fields. `Tiles` says that a list of entries partitions a
suffix of the byte string. The two agree on every byte string, well formed or
not, and both are stable under cutting the string at a record boundary.
-/

namespace Framing

open ByteCodec

def slice (bs : Bytes) (offset width : Nat) : Bytes := (bs.drop offset).take width

theorem slice_length (bs : Bytes) (offset width : Nat) :
    (slice bs offset width).length = min width (bs.length - offset) := by
  simp [slice]

theorem slice_length_of_le {bs : Bytes} {offset width : Nat}
    (h : offset + width ≤ bs.length) : (slice bs offset width).length = width := by
  rw [slice_length]
  omega

theorem slice_append_right (before bs : Bytes) (offset width : Nat) :
    slice (before ++ bs) (before.length + offset) width = slice bs offset width := by
  simp [slice, ← List.drop_drop]

theorem slice_append_left {bs : Bytes} (after : Bytes) {offset width : Nat}
    (h : offset + width ≤ bs.length) : slice (bs ++ after) offset width = slice bs offset width := by
  simp only [slice]
  rw [List.drop_append_of_le_length (by omega), List.take_append_of_le_length]
  rw [List.length_drop]
  omega

theorem slice_take {bs : Bytes} {count offset width : Nat} (h : offset + width ≤ count) :
    slice (bs.take count) offset width = slice bs offset width := by
  simp only [slice, List.drop_take, List.take_take]
  congr 1
  omega

theorem slice_skip {before : Bytes} {n : Nat} (h : before.length = n) (bs : Bytes)
    (offset width : Nat) : slice (before ++ bs) (n + offset) width = slice bs offset width := by
  rw [← h, slice_append_right]

theorem slice_front {front : Bytes} {width : Nat} (h : front.length = width) (bs : Bytes) :
    slice (front ++ bs) 0 width = front := by
  simp [slice, ← h]

theorem slice_field {before field : Bytes} {offset width : Nat} (hbefore : before.length = offset)
    (hfield : field.length = width) (after : Bytes) :
    slice (before ++ (field ++ after)) offset width = field := by
  have h := slice_skip hbefore (field ++ after) 0 width
  rw [Nat.add_zero] at h
  rw [h, slice_front hfield]

theorem slice_slice (bs : Bytes) (pos : Nat) {count offset width : Nat}
    (h : offset + width ≤ count) :
    slice (slice bs pos count) offset width = slice bs (pos + offset) width := by
  rw [slice.eq_1 bs pos count, slice_take h, slice, slice, List.drop_drop]

theorem take_append_slice (bs : Bytes) (offset width : Nat) :
    bs.take offset ++ slice bs offset width = bs.take (offset + width) :=
  List.take_add.symm

theorem slice_append_slice (bs : Bytes) (offset count width : Nat) :
    slice bs offset count ++ slice bs (offset + count) width = slice bs offset (count + width) := by
  rw [slice, slice, slice, ← List.drop_drop, List.take_add]

/-- Where a record keeps its length, and how long its header is. -/
structure Format where
  order : Order
  lengthOffset : Nat
  lengthWidth : Nat
  headerSize : Nat
  field_in_header : lengthOffset + lengthWidth ≤ headerSize
  header_pos : 0 < headerSize

structure Entry where
  length : Nat
  offset : Nat
deriving DecidableEq, Repr

namespace Format

variable (F : Format) (bs : Bytes)

def lengthAt (pos : Nat) : Nat :=
  decode F.order (slice bs (pos + F.lengthOffset) F.lengthWidth)

def entryAt (pos : Nat) : Entry := ⟨F.lengthAt bs pos, pos⟩

def recordEnd (e : Entry) : Nat := e.offset + F.headerSize + e.length

def Fits (pos : Nat) : Prop := pos + F.lengthOffset + F.lengthWidth ≤ bs.length

instance (pos : Nat) : Decidable (F.Fits bs pos) := inferInstanceAs (Decidable (_ ≤ _))

theorem lt_recordEnd (e : Entry) : e.offset < F.recordEnd e := by
  have h := F.header_pos
  unfold recordEnd
  omega

/-- Hop over the records from `pos` on. The flag says whether the last hop
landed on the end of the byte string. -/
def scan (pos : Nat) : List Entry × Bool :=
  if _ : F.Fits bs pos then
    if F.recordEnd (F.entryAt bs pos) = bs.length then
      ([F.entryAt bs pos], true)
    else
      let rest := scan (F.recordEnd (F.entryAt bs pos))
      (F.entryAt bs pos :: rest.1, rest.2)
  else ([], false)
termination_by bs.length + 1 - pos
decreasing_by
  have hfit : F.Fits bs pos := ‹_›
  have hlt : pos < F.recordEnd (F.entryAt bs pos) := F.lt_recordEnd (F.entryAt bs pos)
  unfold Fits at hfit
  omega

/-- The entries partition the byte string from `pos` to its end. -/
def Tiles : Nat → List Entry → Prop
  | pos, [] => pos = bs.length
  | pos, e :: es =>
      e.offset = pos ∧ e.length = F.lengthAt bs pos ∧ Tiles (pos + F.headerSize + e.length) es

variable {F bs}

theorem scan_short {pos : Nat} (h : ¬ F.Fits bs pos) : F.scan bs pos = ([], false) := by
  rw [scan, dif_neg h]

theorem scan_last {pos : Nat} (h : F.Fits bs pos)
    (hend : F.recordEnd (F.entryAt bs pos) = bs.length) :
    F.scan bs pos = ([F.entryAt bs pos], true) := by
  rw [scan, dif_pos h, if_pos hend]

theorem scan_hop {pos : Nat} (h : F.Fits bs pos)
    (hend : F.recordEnd (F.entryAt bs pos) ≠ bs.length) :
    F.scan bs pos =
      (F.entryAt bs pos :: (F.scan bs (F.recordEnd (F.entryAt bs pos))).1,
        (F.scan bs (F.recordEnd (F.entryAt bs pos))).2) := by
  rw [scan, dif_pos h, if_neg hend]

/-! ## Tilings -/

theorem Tiles.le {pos : Nat} {es : List Entry} (h : F.Tiles bs pos es) : pos ≤ bs.length := by
  induction es generalizing pos with
  | nil => exact Nat.le_of_eq h
  | cons e es ih =>
      have hrest := ih h.2.2
      omega

theorem Tiles.head_eq {pos : Nat} {e : Entry} {es : List Entry} (h : F.Tiles bs pos (e :: es)) :
    e = F.entryAt bs pos := by
  obtain ⟨hoff, hlen, _⟩ := h
  cases e
  simp_all [entryAt]

theorem Tiles.tail {pos : Nat} {e : Entry} {es : List Entry} (h : F.Tiles bs pos (e :: es)) :
    F.Tiles bs (F.recordEnd e) es := by
  obtain ⟨hoff, _, hrest⟩ := h
  subst hoff
  exact hrest

theorem Tiles.head_end_le {pos : Nat} {e : Entry} {es : List Entry}
    (h : F.Tiles bs pos (e :: es)) : F.recordEnd e ≤ bs.length := h.tail.le

theorem Tiles.fits {pos : Nat} {e : Entry} {es : List Entry} (h : F.Tiles bs pos (e :: es)) :
    F.Fits bs pos := by
  have hle := h.head_end_le
  have hfield := F.field_in_header
  rw [recordEnd, h.1] at hle
  unfold Fits
  omega

theorem Tiles.mem {pos : Nat} {es : List Entry} (h : F.Tiles bs pos es) {e : Entry}
    (he : e ∈ es) :
    pos ≤ e.offset ∧ e.length = F.lengthAt bs e.offset ∧ F.recordEnd e ≤ bs.length := by
  induction es generalizing pos with
  | nil => cases he
  | cons d es ih =>
      rcases List.mem_cons.mp he with rfl | he
      · exact ⟨Nat.le_of_eq h.1.symm, by rw [h.1]; exact h.2.1, h.head_end_le⟩
      · obtain ⟨hpos, hlen, hend⟩ := ih h.2.2 he
        exact ⟨by omega, hlen, hend⟩

theorem Tiles.next {pos : Nat} {es : List Entry} (h : F.Tiles bs pos es) {i : Nat}
    (hi : i + 1 < es.length) : es[i + 1].offset = F.recordEnd es[i] := by
  induction es generalizing pos i with
  | nil => simp at hi
  | cons e es ih =>
      cases i with
      | zero =>
          cases es with
          | nil => simp at hi
          | cons d ds => exact h.tail.1
      | succ i =>
          simpa using ih h.2.2 (by simpa using hi)

theorem Tiles.last {pos : Nat} {es : List Entry} (h : F.Tiles bs pos es) (hne : es ≠ []) :
    F.recordEnd (es.getLast hne) = bs.length := by
  induction es generalizing pos with
  | nil => exact absurd rfl hne
  | cons e es ih =>
      cases es with
      | nil => exact h.tail
      | cons d ds => simpa using ih h.2.2 (by simp)

/-- Acceptance is sound: an accepted scan partitions the string. -/
theorem tiles_of_scan {pos : Nat} (h : (F.scan bs pos).2 = true) :
    F.Tiles bs pos (F.scan bs pos).1 ∧ (F.scan bs pos).1 ≠ [] := by
  induction pos using scan.induct F bs with
  | case1 pos hfit hend =>
      rw [scan_last hfit hend]
      exact ⟨⟨rfl, rfl, hend⟩, by simp⟩
  | case2 pos hfit hend ih =>
      rw [scan_hop hfit hend] at h ⊢
      exact ⟨⟨rfl, rfl, (ih h).1⟩, by simp⟩
  | case3 pos hfit => rw [scan_short hfit] at h; cases h

/-- Acceptance is complete: a partition into at least one record is found. -/
theorem scan_of_tiles {pos : Nat} {es : List Entry} (h : F.Tiles bs pos es) (hne : es ≠ []) :
    F.scan bs pos = (es, true) := by
  induction es generalizing pos with
  | nil => exact absurd rfl hne
  | cons e es ih =>
      have hfit := h.fits
      have he := h.head_eq
      have htail := h.tail
      rw [he] at htail ⊢
      cases es with
      | nil => exact scan_last hfit htail
      | cons d ds =>
          have hlt : F.recordEnd (F.entryAt bs pos) ≠ bs.length := by
            have hle := htail.head_end_le
            have hpos := F.lt_recordEnd d
            have hoff := htail.1
            omega
          rw [scan_hop hfit hlt, ih htail (by simp)]

/-! ## What any scan returns -/

theorem scan_mem {pos : Nat} {e : Entry} (h : e ∈ (F.scan bs pos).1) :
    pos ≤ e.offset ∧ e.length = F.lengthAt bs e.offset ∧ F.Fits bs e.offset := by
  induction pos using scan.induct F bs with
  | case1 pos hfit hend =>
      rw [scan_last hfit hend] at h
      obtain rfl := List.mem_singleton.mp h
      exact ⟨Nat.le_refl _, rfl, hfit⟩
  | case2 pos hfit hend ih =>
      rw [scan_hop hfit hend] at h
      rcases List.mem_cons.mp h with rfl | h
      · exact ⟨Nat.le_refl _, rfl, hfit⟩
      · obtain ⟨hpos, hrest⟩ := ih h
        have hlt := F.lt_recordEnd (F.entryAt bs pos)
        exact ⟨Nat.le_trans (Nat.le_of_lt hlt) hpos, hrest⟩
  | case3 pos hfit => simp [scan_short hfit] at h

/-- Two formats on two strings of one length hop over the same records when they
read the same lengths wherever one of them looks. -/
theorem scan_agree {G : Format} {bs' : Bytes} (hlen : bs'.length = bs.length)
    (hoffset : G.lengthOffset = F.lengthOffset) (hwidth : G.lengthWidth = F.lengthWidth)
    (hheader : G.headerSize = F.headerSize) {pos : Nat}
    (hlength : ∀ e ∈ (F.scan bs pos).1, G.lengthAt bs' e.offset = F.lengthAt bs e.offset) :
    G.scan bs' pos = F.scan bs pos := by
  have hfits : ∀ pos, G.Fits bs' pos ↔ F.Fits bs pos := by
    intro pos
    rw [Fits, Fits, hoffset, hwidth, hlen]
  have hrecordEnd : ∀ e, G.recordEnd e = F.recordEnd e := by
    intro e
    rw [recordEnd, recordEnd, hheader]
  induction pos using scan.induct F bs with
  | case1 pos hfit hend =>
      have hentry : G.entryAt bs' pos = F.entryAt bs pos :=
        congrArg (Entry.mk · pos) (hlength (F.entryAt bs pos) (by simp [scan_last hfit hend]))
      rw [scan_last hfit hend,
        scan_last ((hfits pos).mpr hfit) (by rw [hrecordEnd, hentry, hlen]; exact hend), hentry]
  | case2 pos hfit hend ih =>
      rw [scan_hop hfit hend] at hlength
      have hentry : G.entryAt bs' pos = F.entryAt bs pos :=
        congrArg (Entry.mk · pos) (hlength (F.entryAt bs pos) List.mem_cons_self)
      rw [scan_hop hfit hend,
        scan_hop ((hfits pos).mpr hfit) (by rw [hrecordEnd, hentry, hlen]; exact hend), hentry,
        hrecordEnd, ih fun e he => hlength e (List.mem_cons_of_mem _ he)]
  | case3 pos hfit => rw [scan_short hfit, scan_short (fun h => hfit ((hfits pos).mp h))]

theorem scan_congr {G : Format} (hoffset : G.lengthOffset = F.lengthOffset)
    (hwidth : G.lengthWidth = F.lengthWidth) (hheader : G.headerSize = F.headerSize) {pos : Nat}
    (hlength : ∀ e ∈ (F.scan bs pos).1, G.lengthAt bs e.offset = F.lengthAt bs e.offset) :
    G.scan bs pos = F.scan bs pos :=
  scan_agree rfl hoffset hwidth hheader hlength

/-! ## Cutting the byte string -/

section Cut

variable {count : Nat}

theorem lengthAt_take {pos : Nat} (h : F.Fits (bs.take count) pos) :
    F.lengthAt (bs.take count) pos = F.lengthAt bs pos := by
  have hle : pos + F.lengthOffset + F.lengthWidth ≤ count := by
    have hmin : (bs.take count).length ≤ count := List.length_take_le count bs
    exact Nat.le_trans h hmin
  rw [lengthAt, slice_take hle, lengthAt]

theorem Tiles.overshot {pos : Nat} {e : Entry} {es : List Entry} (h : F.Tiles bs pos (e :: es))
    (hover : count < F.recordEnd e) : ∀ d ∈ e :: es, F.recordEnd d ≠ count := by
  intro d hd
  rcases List.mem_cons.mp hd with rfl | hd
  · exact Nat.ne_of_gt hover
  · have hle := (h.tail.mem hd).1
    have hgt := F.lt_recordEnd d
    omega

/-- A tiled string cut at `count` is accepted exactly when `count` is the end
of a record, and then with the entries up to that record. -/
theorem scan_take {pos : Nat} {es : List Entry} (h : F.Tiles bs pos es)
    (hpos : pos < count) (hcount : count ≤ bs.length) :
    (∃ k, ∃ hk : k < es.length, F.recordEnd es[k] = count ∧
        F.scan (bs.take count) pos = (es.take (k + 1), true)) ∨
      ((∀ e ∈ es, F.recordEnd e ≠ count) ∧ (F.scan (bs.take count) pos).2 = false) := by
  have hlen : (bs.take count).length = count := by simp [hcount]
  induction es generalizing pos with
  | nil =>
      have hend : pos = bs.length := h
      omega
  | cons e es ih =>
      have hoff : e.offset = pos := h.1
      have hlt := F.lt_recordEnd e
      by_cases hfit : F.Fits (bs.take count) pos
      · have hentry : F.entryAt (bs.take count) pos = e := by
          rw [entryAt, lengthAt_take hfit]
          exact h.head_eq.symm
        by_cases hend : F.recordEnd e = count
        · left
          refine ⟨0, by simp, hend, ?_⟩
          rw [scan_last hfit (by rw [hentry, hlen]; exact hend), hentry]
          rfl
        · have hhop := scan_hop hfit (by rw [hentry, hlen]; exact hend)
          rw [hentry] at hhop
          by_cases hinside : F.recordEnd e < count
          · -- the cut falls behind this record: hop over it and look at the rest
            rcases ih h.tail hinside with ⟨k, hk, hkend, hscan⟩ | ⟨hnone, hscan⟩
            · left
              refine ⟨k + 1, by simpa using hk, by simpa using hkend, ?_⟩
              rw [hhop, hscan]
              rfl
            · right
              refine ⟨?_, by rw [hhop]; exact hscan⟩
              intro d hd
              rcases List.mem_cons.mp hd with rfl | hd
              · exact hend
              · exact hnone d hd
          · -- the cut falls inside the body: the hop overshoots and finds no length
            have hshort : ¬ F.Fits (bs.take count) (F.recordEnd e) := by
              unfold Fits
              omega
            exact .inr ⟨h.overshot (by omega), by rw [hhop, scan_short hshort]⟩
      · -- the cut falls before the end of the length field
        have hover : count < F.recordEnd e := by
          have hfield := F.field_in_header
          unfold Fits at hfit
          unfold recordEnd
          omega
        exact .inr ⟨h.overshot hover, by rw [scan_short hfit]⟩

end Cut

/-! ## Writing records -/

/-- A record as bytes. Nothing is said about what its length field holds. -/
structure Frame (F : Format) where
  header : Bytes
  body : Bytes
  header_length : header.length = F.headerSize

namespace Frame

def bytes (f : Frame F) : Bytes := f.header ++ f.body

def field (f : Frame F) : Nat := decode F.order (slice f.header F.lengthOffset F.lengthWidth)

theorem bytes_length (f : Frame F) : f.bytes.length = F.headerSize + f.body.length := by
  simp [bytes, f.header_length]

end Frame

def layout (fs : List (Frame F)) : Bytes := fs.flatMap Frame.bytes

/-- The entries of frames laid out from `pos` on, by the sizes of their bodies. -/
def index : Nat → List (Frame F) → List Entry
  | _, [] => []
  | pos, f :: fs => ⟨f.body.length, pos⟩ :: index (pos + f.bytes.length) fs

@[simp] theorem index_length (pos : Nat) (fs : List (Frame F)) :
    (index pos fs).length = fs.length := by
  induction fs generalizing pos with
  | nil => rfl
  | cons f fs ih => simp [index, ih]

theorem lengthAt_layout (before after : Bytes) (f : Frame F) :
    F.lengthAt (before ++ (f.bytes ++ after)) before.length = f.field := by
  have hfield : F.lengthOffset + F.lengthWidth ≤ f.header.length := by
    rw [f.header_length]
    exact F.field_in_header
  rw [lengthAt, slice_append_right, Frame.bytes, List.append_assoc, slice_append_left _ hfield,
    Frame.field]

/-- Frames tile by the sizes of their bodies exactly when every length field
holds the size of its own body. -/
theorem tiles_layout_iff (before : Bytes) (fs : List (Frame F)) :
    F.Tiles (before ++ layout fs) before.length (index before.length fs) ↔
      ∀ f ∈ fs, f.field = f.body.length := by
  induction fs generalizing before with
  | nil => simp [layout, index, Tiles]
  | cons f fs ih =>
      have happend : before ++ layout (f :: fs) = (before ++ f.bytes) ++ layout fs := by
        simp [layout]
      have hfield : F.lengthAt (before ++ layout (f :: fs)) before.length = f.field :=
        lengthAt_layout before (layout fs) f
      have hnext : before.length + F.headerSize + f.body.length =
          (before ++ f.bytes).length := by
        rw [List.length_append, f.bytes_length]
        omega
      have hlen : before.length + f.bytes.length = (before ++ f.bytes).length := by simp
      have hrest := ih (before ++ f.bytes)
      simp only [index, Tiles, true_and, List.forall_mem_cons, hfield, hnext, hlen]
      rw [happend, hrest]
      exact and_congr_left' eq_comm

end Format

end Framing
