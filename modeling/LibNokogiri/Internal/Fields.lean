import LibNokogiri.Foundation.Shifts
import LibNokogiri.Internal.Fd

/-! # Integers of a given byte order in a file

`readLE`, `writeLE`, `readBE` and `writeBE` put integers together from bytes
and take them apart by shifts, with one overload for each unsigned type; the
signed types go through these. The byte order of the host has no part in it.
-/

namespace LibNokogiri.Internal

open ByteCodec Framing

namespace FdT

/-! ## The overloads -/

section Unsigned

variable {α : Type} [Scalar α]

/-- A read of an unsigned type: an array of zeros is read into, and the value is
put together from it whatever the read gave. -/
def readPlaces (places : List (Nat × Nat)) (self : Fd) : Bool × α × Fd :=
  let r := self.readArray (List.replicate (Scalar.width α) 0)
  (r.1, Scalar.ofNat (gather places r.2.1), r.2.2)

def writeShifts (shifts : List Nat) (self : Fd) (value : α) (outcome : WriteOutcome) : Bool × Fd :=
  self.write (scatter shifts (Scalar.toNat value)) outcome

end Unsigned

variable (self : Fd) (outcome : WriteOutcome)

def readLE16 : Bool × UInt16 × Fd := self.readPlaces [(1, 8), (0, 0)]

def writeLE16 (value : UInt16) : Bool × Fd := self.writeShifts [0, 8] value outcome

def readLE32 : Bool × UInt32 × Fd := self.readPlaces [(3, 24), (2, 16), (1, 8), (0, 0)]

def writeLE32 (value : UInt32) : Bool × Fd := self.writeShifts [0, 8, 16, 24] value outcome

def readLE64 : Bool × UInt64 × Fd :=
  self.readPlaces [(7, 56), (6, 48), (5, 40), (4, 32), (3, 24), (2, 16), (1, 8), (0, 0)]

def writeLE64 (value : UInt64) : Bool × Fd :=
  self.writeShifts [0, 8, 16, 24, 32, 40, 48, 56] value outcome

def readBE16 : Bool × UInt16 × Fd := self.readPlaces [(0, 8), (1, 0)]

def writeBE16 (value : UInt16) : Bool × Fd := self.writeShifts [8, 0] value outcome

def readBE32 : Bool × UInt32 × Fd := self.readPlaces [(0, 24), (1, 16), (2, 8), (3, 0)]

def writeBE32 (value : UInt32) : Bool × Fd := self.writeShifts [24, 16, 8, 0] value outcome

def readBE64 : Bool × UInt64 × Fd :=
  self.readPlaces [(0, 56), (1, 48), (2, 40), (3, 32), (4, 24), (5, 16), (6, 8), (7, 0)]

def writeBE64 (value : UInt64) : Bool × Fd :=
  self.writeShifts [56, 48, 40, 32, 24, 16, 8, 0] value outcome

/-- `readLE(T &)` and `readBE(T &)` for a signed `T`, behind the unsigned overload. -/
def readSigned {α β : Type} (cast : α → β) (r : Bool × α × Fd) : Bool × β × Fd :=
  (r.1, cast r.2.1, r.2.2)

end FdT

inductive FieldT
  | uint16
  | uint32
  | uint64
  | int16
  | int32
  | int64
deriving DecidableEq, Repr

namespace FieldT

def Value : FieldT → Type
  | .uint16 => UInt16
  | .uint32 => UInt32
  | .uint64 => UInt64
  | .int16 => Int16
  | .int32 => Int32
  | .int64 => Int64

instance scalar : (t : FieldT) → Scalar t.Value
  | .uint16 => inferInstanceAs (Scalar UInt16)
  | .uint32 => inferInstanceAs (Scalar UInt32)
  | .uint64 => inferInstanceAs (Scalar UInt64)
  | .int16 => inferInstanceAs (Scalar Int16)
  | .int32 => inferInstanceAs (Scalar Int32)
  | .int64 => inferInstanceAs (Scalar Int64)

def read (self : Fd) : (t : FieldT) → Order → Bool × t.Value × Fd
  | .uint16, .little => self.readLE16
  | .uint32, .little => self.readLE32
  | .uint64, .little => self.readLE64
  | .int16, .little => FdT.readSigned UInt16.toInt16 self.readLE16
  | .int32, .little => FdT.readSigned UInt32.toInt32 self.readLE32
  | .int64, .little => FdT.readSigned UInt64.toInt64 self.readLE64
  | .uint16, .big => self.readBE16
  | .uint32, .big => self.readBE32
  | .uint64, .big => self.readBE64
  | .int16, .big => FdT.readSigned UInt16.toInt16 self.readBE16
  | .int32, .big => FdT.readSigned UInt32.toInt32 self.readBE32
  | .int64, .big => FdT.readSigned UInt64.toInt64 self.readBE64

def write (self : Fd) (outcome : WriteOutcome) : (t : FieldT) → Order → t.Value → Bool × Fd
  | .uint16, .little, value => self.writeLE16 outcome value
  | .uint32, .little, value => self.writeLE32 outcome value
  | .uint64, .little, value => self.writeLE64 outcome value
  | .int16, .little, value => self.writeLE16 outcome (Int16.toUInt16 value)
  | .int32, .little, value => self.writeLE32 outcome (Int32.toUInt32 value)
  | .int64, .little, value => self.writeLE64 outcome (Int64.toUInt64 value)
  | .uint16, .big, value => self.writeBE16 outcome value
  | .uint32, .big, value => self.writeBE32 outcome value
  | .uint64, .big, value => self.writeBE64 outcome value
  | .int16, .big, value => self.writeBE16 outcome (Int16.toUInt16 value)
  | .int32, .big, value => self.writeBE32 outcome (Int32.toUInt32 value)
  | .int64, .big, value => self.writeBE64 outcome (Int64.toUInt64 value)

theorem write_eq (self : Fd) (outcome : WriteOutcome) (t : FieldT) (order : Order)
    (value : t.Value) :
    t.write self outcome order value = self.write (store order value) outcome := by
  cases order with
  | little =>
      have h := scatter_reverse (Scalar.width t.Value) (Scalar.toNat value)
      cases t <;> exact congrArg (fun bytes => self.write bytes outcome) h
  | big =>
      have h := scatter_placesLE (Scalar.width t.Value) (Scalar.toNat value)
      cases t <;> exact congrArg (fun bytes => self.write bytes outcome) h

section Read

variable {self : Fd} {f : RegularFile} {pos : Nat}

theorem readPlaces_of_le {α : Type} [Scalar α] (order : Order) (hfd : self.fd = some ⟨f, pos⟩)
    (h : pos + Scalar.width α ≤ f.size) :
    (self.readPlaces (places order (Scalar.width α)) : Bool × α × Fd) =
      (true, load order (slice f.content pos (Scalar.width α)),
        self.movedTo f (pos + Scalar.width α)) := by
  have hread : self.readArray (List.replicate (Scalar.width α) 0) =
      (true, slice f.content pos (Scalar.width α), self.movedTo f (pos + Scalar.width α)) := by
    rw [FdT.readArray_of_le hfd, List.length_replicate]
    rwa [List.length_replicate]
  have hgather := gather_places order (slice f.content pos (Scalar.width α))
  rw [slice_length_of_le h] at hgather
  rw [FdT.readPlaces, hread]
  simp only [hgather, load]

theorem read_of_le (t : FieldT) (order : Order) (hfd : self.fd = some ⟨f, pos⟩)
    (h : pos + Scalar.width t.Value ≤ f.size) :
    t.read self order =
      (true, load order (slice f.content pos (Scalar.width t.Value)),
        self.movedTo f (pos + Scalar.width t.Value)) := by
  cases t with
  | uint16 =>
      have hread := readPlaces_of_le (α := UInt16) order hfd h
      cases order <;> exact hread
  | uint32 =>
      have hread := readPlaces_of_le (α := UInt32) order hfd h
      cases order <;> exact hread
  | uint64 =>
      have hread := readPlaces_of_le (α := UInt64) order hfd h
      cases order <;> exact hread
  | int16 =>
      have hread := readPlaces_of_le (α := UInt16) order hfd h
      cases order <;> exact congrArg (FdT.readSigned UInt16.toInt16) hread
  | int32 =>
      have hread := readPlaces_of_le (α := UInt32) order hfd h
      cases order <;> exact congrArg (FdT.readSigned UInt32.toInt32) hread
  | int64 =>
      have hread := readPlaces_of_le (α := UInt64) order hfd h
      cases order <;> exact congrArg (FdT.readSigned UInt64.toInt64) hread

end Read

end FieldT

/-! ## Fields one after another -/

structure Field where
  order : Order
  type : FieldT
  value : type.Value

namespace Field

def width (x : Field) : Nat := Scalar.width x.type.Value

def bytes (x : Field) : Bytes := store x.order x.value

def reversed (x : Field) : Field :=
  { order := x.order.flip, type := x.type, value := bswap x.value }

def bytesOf (fields : List Field) : Bytes := (fields.map bytes).flatten

/-- What its bytes give when they are read in some order. -/
def readAs (x : Field) (order : Order) : Field :=
  { order, type := x.type, value := load order x.bytes }

theorem readAs_order (x : Field) : x.readAs x.order = x := by
  cases x with
  | mk order type value => rw [readAs, bytes, load_store]

theorem readAs_flip (x : Field) : x.readAs x.order.flip = x.reversed := by
  have h := load_flip_store x.order.flip x.value
  rw [Order.flip_flip] at h
  rw [readAs, reversed, bytes, h]

@[simp] theorem bytes_length (x : Field) : x.bytes.length = x.width := store_length x.order x.value

theorem width_pos (x : Field) : 0 < x.width := by
  cases x with
  | mk order type value => cases type <;> exact Nat.succ_pos _

theorem bytes_ne_nil (x : Field) : x.bytes ≠ [] := by
  apply List.ne_nil_of_length_pos
  rw [bytes_length]
  exact x.width_pos

@[simp] theorem bytesOf_cons (x : Field) (fields : List Field) :
    bytesOf (x :: fields) = x.bytes ++ bytesOf fields := rfl

end Field

namespace FdT

/-- Write the fields one after another; the n-th `write` call stores what
`writes n` says. -/
def writeFields (writes : Nat → WriteOutcome) : Nat → List Field → Fd → List Bool × Fd
  | _, [], self => ([], self)
  | n, x :: fields, self =>
      let w := x.type.write self (writes n) x.order x.value
      let rest := writeFields writes (n + 1) fields w.2
      (w.1 :: rest.1, rest.2)

/-- Read a value of each type in the order that goes with it. -/
def readFields : List (Order × FieldT) → Fd → List (Bool × Field) × Fd
  | [], self => ([], self)
  | (order, type) :: tags, self =>
      let r := type.read self order
      let rest := readFields tags r.2.2
      ((r.1, { order, type, value := r.2.1 }) :: rest.1, rest.2)

variable {self : Fd} {f : RegularFile} {pos : Nat}

theorem write_behind {copied data : Bytes} {outcome : WriteOutcome}
    (hfd : self.fd = some ⟨f, pos + copied.length⟩) (hcopied : copied <+: f.content.drop pos)
    (hdata : data ≠ []) (hstores : outcome.stores data.length = true)
    (hroom : pos + (copied ++ data).length < offLimit) :
    (self.write data outcome).1 = true ∧
      ∃ g : RegularFile, (self.write data outcome).2.fd = some ⟨g, pos + (copied ++ data).length⟩ ∧
        copied ++ data <+: g.content.drop pos := by
  cases outcome with
  | failed => cases hstores
  | accepted count =>
      have hall : data.take count = data := List.take_of_length_le (of_decide_eq_true hstores)
      have hlen := overwrite_length_of_ne f.content (pos + copied.length) hdata
      have hsize := f.size_lt
      rw [List.length_append, ← Nat.add_assoc] at hroom ⊢
      have hlt : (overwrite f.content (pos + copied.length) data).length < offLimit := by omega
      simp only [write, hfd, fdwrite, hall, dif_pos hlt, beq_self_eq_true, true_and]
      exact ⟨_, rfl, overwrite_behind hcopied hdata⟩

/-- The fields written so far stand at `pos`; writing the rest extends them. -/
theorem writeFields_behind {writes : Nat → WriteOutcome} {n : Nat} {fields : List Field}
    {copied : Bytes} (hfd : self.fd = some ⟨f, pos + copied.length⟩)
    (hcopied : copied <+: f.content.drop pos) (hstored : AllStored writes n (fields.map Field.width))
    (hroom : pos + (copied ++ Field.bytesOf fields).length < offLimit) :
    (self.writeFields writes n fields).1 = fields.map (fun _ => true) ∧
      ∃ g : RegularFile, (self.writeFields writes n fields).2.fd =
          some ⟨g, pos + (copied ++ Field.bytesOf fields).length⟩ ∧
        copied ++ Field.bytesOf fields <+: g.content.drop pos := by
  induction fields generalizing self f n copied with
  | nil =>
      simp only [Field.bytesOf, List.map_nil, List.flatten_nil, List.append_nil]
      exact ⟨rfl, f, hfd, hcopied⟩
  | cons x fields ih =>
      rw [Field.bytesOf_cons, ← List.append_assoc] at hroom ⊢
      obtain ⟨hstores, hrest⟩ := hstored
      rw [Field.width, ← store_length x.order x.value] at hstores
      have hlen : pos + (copied ++ x.bytes).length < offLimit := by
        rw [List.length_append] at hroom
        omega
      obtain ⟨hok, g, hg, hfront⟩ := write_behind hfd hcopied x.bytes_ne_nil hstores hlen
      obtain ⟨hoks, hend⟩ := ih hg hfront hrest hroom
      simp only [writeFields, FieldT.write_eq, List.map_cons]
      exact ⟨congrArg₂ List.cons hok hoks, hend⟩

/-- Fields that stand behind `pos` are read one after another, each in the
order that goes with it. -/
theorem readFields_of_prefix (order : Field → Order) {fields : List Field}
    (hfd : self.fd = some ⟨f, pos⟩) (hfields : Field.bytesOf fields <+: f.content.drop pos) :
    self.readFields (fields.map fun x => (order x, x.type)) =
      (fields.map fun x => (true, x.readAs (order x)),
        self.movedTo f (pos + (Field.bytesOf fields).length)) := by
  induction fields generalizing self pos with
  | nil =>
      simp only [Field.bytesOf, List.map_nil, List.flatten_nil, List.length_nil, Nat.add_zero,
        readFields, movedTo, ← hfd]
  | cons x fields ih =>
      obtain ⟨rest, hrest⟩ := hfields
      rw [Field.bytesOf_cons, List.append_assoc] at hrest
      have hle : pos + x.width ≤ f.size := by
        have h := congrArg List.length hrest
        have hwidth := x.width_pos
        rw [List.length_append, Field.bytes_length, List.length_drop] at h
        unfold RegularFile.size
        omega
      have hslice : slice f.content pos x.width = x.bytes := by
        rw [slice, ← hrest, ← x.bytes_length, List.take_left]
      have htail : Field.bytesOf fields <+: f.content.drop (pos + x.width) := by
        rw [← List.drop_drop, ← hrest, ← x.bytes_length, List.drop_left]
        exact List.prefix_append _ _
      have hread : x.type.read self (order x) =
          (true, load (order x) x.bytes, self.movedTo f (pos + x.width)) := by
        rw [← hslice]
        exact FieldT.read_of_le x.type (order x) hfd hle
      rw [List.map_cons, readFields, hread, ih (movedTo_fd _ _ _) htail, Field.bytesOf_cons,
        List.length_append, Field.bytes_length, Nat.add_assoc]
      rfl

/-- Fields written in their orders are read back as they were, up to where the
writing ended; in the other orders they are read reversed. No byte order of the
host appears in it. -/
theorem fields_roundTrip {writes : Nat → WriteOutcome} {fields : List Field}
    (hfd : self.fd = some ⟨f, pos⟩) (hstored : AllStored writes 0 (fields.map Field.width))
    (hroom : pos + (Field.bytesOf fields).length < offLimit) :
    let written := self.writeFields writes 0 fields
    let rewound := written.2.seek pos .set
    let restored := rewound.2.readFields (fields.map fun x => (x.order, x.type))
    let swapped := rewound.2.readFields (fields.map fun x => (x.order.flip, x.type))
    written.1 = fields.map (fun _ => true) ∧
      rewound.1 = pos ∧ (pos = 0 → written.2.head = (true, rewound.2)) ∧
      restored.1 = fields.map (fun x => (true, x)) ∧ restored.2.tell = written.2.tell ∧
      swapped.1 = fields.map (fun x => (true, x.reversed)) := by
  intro written rewound restored swapped
  have hstart : self.fd = some ⟨f, pos + ([] : Bytes).length⟩ := hfd
  obtain ⟨hoks, g, hend, hfront⟩ :=
    writeFields_behind hstart (List.nil_prefix) hstored hroom
  have hpos : pos < offLimit := Nat.lt_of_le_of_lt (Nat.le_add_right _ _) hroom
  obtain ⟨hlands, hrewound⟩ : rewound.1 = pos ∧ rewound.2.fd = some ⟨g, pos⟩ :=
    seek_set_fd hend hpos
  have hrestored : restored = _ := readFields_of_prefix Field.order hrewound hfront
  have hswapped : swapped = _ := readFields_of_prefix (fun x => x.order.flip) hrewound hfront
  have hhead : pos = 0 → written.2.head = (true, rewound.2) := by
    intro hzero
    subst hzero
    have htrue : (rewound.1 == 0) = true := by rw [hlands]; rfl
    exact Prod.ext htrue rfl
  have htell : restored.2.tell = written.2.tell := by
    rw [hrestored, tell_eq (movedTo_fd _ _ _)]
    exact (tell_eq hend).symm
  refine ⟨hoks, hlands, hhead, ?_, htell, ?_⟩
  · rw [hrestored]
    exact List.map_congr_left fun x _ => congrArg (Prod.mk true) x.readAs_order
  · rw [hswapped]
    exact List.map_congr_left fun x _ => congrArg (Prod.mk true) x.readAs_flip

theorem fields_roundTrip_sample :
    let fields : List Field :=
      [{ order := .little, type := .uint16, value := (0x1234 : UInt16) },
       { order := .big, type := .int32, value := (-2 : Int32) }]
    let self : Fd := { fd := some ⟨RegularFile.empty, 0⟩ }
    let written := self.writeFields (fun _ => .accepted 8) 0 fields
    (written.2.head.2.readFields (fields.map fun x => (x.order, x.type))).1 =
      fields.map (fun x => (true, x)) := by
  intro fields self written
  have h := @fields_roundTrip self RegularFile.empty 0 (fun _ => .accepted 8) fields rfl
    (by decide) (by decide)
  rw [h.2.2.1 rfl]
  exact h.2.2.2.1

end FdT

end LibNokogiri.Internal
