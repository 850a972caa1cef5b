import LibNokogiri.Pcap.Retrieval

/-! # Reading back what was written

The decoders applied to the documented layout, for files in the host's byte
order and in the other one at once. Headers of a swapped file come out with
every multi-byte field reversed unless the reader swaps it back.
-/

namespace LibNokogiri.Pcap

open ByteCodec Framing Internal

/-! ## File headers -/

section FileHeader

variable (host : Order) (swapped : Bool) (h : CaptureHeader) (rest : Bytes)

theorem fileKind_bytes :
    fileKind host (h.bytes (host.flipIf swapped) ++ rest) = some (swapped, h.variant) := by
  have hlen : 4 ≤ (h.bytes (host.flipIf swapped) ++ rest).length := by
    rw [List.length_append, CaptureHeader.bytes_length]
    omega
  refine (fileKind_iff hlen).mpr ⟨h.unswapped, ?_⟩
  simp only [CaptureHeader.bytes, List.append_assoc]
  exact slice_front (store_length _ _) _

theorem headed_bytes :
    headed host (h.bytes (host.flipIf swapped) ++ rest) = some (swapped, h.variant) := by
  have hlen : 24 ≤ (h.bytes (host.flipIf swapped) ++ rest).length := by
    rw [List.length_append, CaptureHeader.bytes_length]
    omega
  rw [headed, if_pos hlen, fileKind_bytes]

private theorem field_bytes {α : Type} [Scalar α] {before : Bytes} {offset : Nat} (value : α)
    (after : Bytes) (hbefore : before.length = offset) :
    swapIf swapped (load host (slice (before ++ (store (host.flipIf swapped) value ++ after))
      offset (Scalar.width α))) = value := by
  rw [slice_field hbefore (store_length _ _), swapIf_load_store]

theorem headerAt_bytes :
    headerAt host swapped h.variant (h.bytes (host.flipIf swapped) ++ rest) = h.decoded := by
  simp only [headerAt, CaptureHeader.bytes, List.append_assoc, CaptureHeader.decoded]
  congr 1
  · congr 1
    · exact field_bytes host swapped h.major _ (store_length _ _)
    · rw [← List.append_assoc]
      exact field_bytes host swapped h.minor _ (by simp only [List.length_append, store_length]; rfl)
  · iterate 2 rw [← List.append_assoc]
    exact field_bytes host swapped h.tzOffset _ (by simp only [List.length_append, store_length]; rfl)
  · iterate 3 rw [← List.append_assoc]
    exact field_bytes host swapped h.timestampFigs _
      (by simp only [List.length_append, store_length]; rfl)
  · iterate 4 rw [← List.append_assoc]
    exact field_bytes host swapped h.pcklenMax _
      (by simp only [List.length_append, store_length]; rfl)
  · iterate 5 rw [← List.append_assoc]
    congr 2
    exact field_bytes host swapped h.network _
      (by simp only [List.length_append, store_length]; rfl)

end FileHeader

/-! ## Packet headers -/

/-- The header as a reader sees it that does not swap. -/
def PacketHeaderT.swapIf (swapped : Bool) (h : PacketHeaderT) : PacketHeaderT where
  timestamp := ByteCodec.swapIf swapped h.timestamp
  useconds := ByteCodec.swapIf swapped h.useconds
  capturedLen := ByteCodec.swapIf swapped h.capturedLen
  actualLen := ByteCodec.swapIf swapped h.actualLen

/-- The last two fields are single bytes and look the same in either order. -/
def PacketHeaderModifiedT.swapIf (swapped : Bool) (h : PacketHeaderModifiedT) :
    PacketHeaderModifiedT where
  baseHeader := h.baseHeader.swapIf swapped
  interfaceIndex := ByteCodec.swapIf swapped h.interfaceIndex
  protocol := ByteCodec.swapIf swapped h.protocol
  type := h.type
  padding := h.padding

@[simp] theorem PacketHeaderT.swapIf_false (h : PacketHeaderT) : h.swapIf false = h := rfl

@[simp] theorem PacketHeaderModifiedT.swapIf_false (h : PacketHeaderModifiedT) :
    h.swapIf false = h := rfl

section PacketHeader

variable (host : Order) (swapped : Bool)

private theorem load_field {α : Type} [Scalar α] {before : Bytes} {offset : Nat} (value : α)
    (after : Bytes) (hbefore : before.length = offset) :
    load host (slice (before ++ (store (host.flipIf swapped) value ++ after)) offset
      (Scalar.width α)) = ByteCodec.swapIf swapped value := by
  rw [slice_field hbefore (store_length _ _), load_store_flipIf]

theorem ofBytes_bytes (h : PacketHeaderT) :
    Pod.ofBytes host (h.bytes (host.flipIf swapped)) = h.swapIf swapped := by
  have hlast : h.bytes (host.flipIf swapped) = h.bytes (host.flipIf swapped) ++ [] := by simp
  rw [hlast]
  simp only [Pod.ofBytes, PacketHeaderT.bytes, List.append_assoc, PacketHeaderT.swapIf]
  congr 1
  · exact load_field host swapped h.timestamp _ (rfl : ([] : Bytes).length = 0)
  · exact load_field host swapped h.useconds _ (store_length _ _)
  · rw [← List.append_assoc]
    exact load_field host swapped h.capturedLen _
      (by simp only [List.length_append, store_length]; rfl)
  · iterate 2 rw [← List.append_assoc]
    exact load_field host swapped h.actualLen _
      (by simp only [List.length_append, store_length]; rfl)

theorem ofBytes_bytes_modified (h : PacketHeaderModifiedT) :
    Pod.ofBytes host (h.bytes (host.flipIf swapped)) = h.swapIf swapped := by
  have hlast : h.bytes (host.flipIf swapped) = h.bytes (host.flipIf swapped) ++ [] := by simp
  rw [hlast]
  simp only [Pod.ofBytes, PacketHeaderModifiedT.bytes, List.append_assoc,
    PacketHeaderModifiedT.swapIf]
  congr 1
  · rw [slice_front (PacketHeaderT.bytes_length _ _)]
    exact ofBytes_bytes host swapped h.baseHeader
  · exact load_field host swapped h.interfaceIndex _ (PacketHeaderT.bytes_length _ _)
  · rw [← List.append_assoc]
    exact load_field host swapped h.protocol _
      (by simp only [List.length_append, store_length, PacketHeaderT.bytes_length]; rfl)
  · iterate 2 rw [← List.append_assoc]
    refine (load_field host swapped h.type _ ?_).trans (swapIf_of_width_one rfl swapped h.type)
    simp only [List.length_append, store_length, PacketHeaderT.bytes_length]
    rfl
  · iterate 3 rw [← List.append_assoc]
    refine (load_field host swapped h.padding _ ?_).trans (swapIf_of_width_one rfl swapped h.padding)
    simp only [List.length_append, store_length, PacketHeaderT.bytes_length]
    rfl

/-- The record as a reader sees its header that does not swap. -/
def Record.seenHeader (swapped : Bool) (variant : PcapVariantT) (r : Record) : PktHeaderT :=
  match variant with
  | .modified => .modified (r.header.swapIf swapped)
  | _ => .standard (r.header.baseHeader.swapIf swapped)

theorem Record.seenHeader_capturedLen (variant : PcapVariantT) (r : Record) :
    (r.seenHeader swapped variant).capturedLen =
      (ByteCodec.swapIf swapped r.header.baseHeader.capturedLen).toNat := by
  cases variant <;> rfl

theorem pktHeaderOf_headerBytes (variant : PcapVariantT) (r : Record) :
    pktHeaderOf host variant (r.headerBytes (host.flipIf swapped) variant) =
      r.seenHeader swapped variant := by
  cases variant <;>
    simp only [pktHeaderOf, Record.headerBytes, Record.seenHeader, ofBytes_bytes,
      ofBytes_bytes_modified]

end PacketHeader

/-! ## Records in a file -/

section Records

variable (host : Order) (swapped : Bool) (variant : PcapVariantT) (r : Record)

def Record.placed (order : Order) (variant : PcapVariantT) (r : Record) (before after : Bytes) :
    Bytes :=
  before ++ (r.headerBytes order variant ++ (r.body ++ after))

/-- What `get_packet` finds at a record. Only the length it sees decides how
much of the rest of the file becomes the packet. -/
theorem packetIn_placed (before after : Bytes) :
    packetIn host variant (r.placed (host.flipIf swapped) variant before after) before.length =
      if (ByteCodec.swapIf swapped r.header.baseHeader.capturedLen).toNat ≤
          (r.body ++ after).length then
        some ⟨(r.body ++ after).take
          (ByteCodec.swapIf swapped r.header.baseHeader.capturedLen).toNat,
          r.seenHeader swapped variant⟩
      else none := by
  have hsize := r.headerBytes_length (host.flipIf swapped) variant
  have hheader : slice (r.placed (host.flipIf swapped) variant before after) before.length
      (packetHeaderSize variant) = r.headerBytes (host.flipIf swapped) variant :=
    slice_field rfl hsize _
  have hbody : ∀ n, slice (r.placed (host.flipIf swapped) variant before after)
      (before.length + packetHeaderSize variant) n = (r.body ++ after).take n := by
    intro n
    have hskip := slice_skip hsize (r.body ++ after) 0 n
    rw [Nat.add_zero] at hskip
    rw [Record.placed, slice_append_right, hskip]
    simp [slice]
  have hlen : (r.placed (host.flipIf swapped) variant before after).length =
      before.length + packetHeaderSize variant + (r.body ++ after).length := by
    simp only [Record.placed, List.length_append, hsize]
    omega
  simp only [packetIn, pktHeaderIn, hheader, pktHeaderOf_headerBytes,
    Record.seenHeader_capturedLen, hbody, hlen]
  split <;> split
  · rfl
  · omega
  · omega
  · rfl

end Records

namespace CaptureValue

variable (c : CaptureValue)

/-! ## Captures as tiled files -/

def frames (host order : Order) : List (Format.Frame (recordFormat host c.header.variant)) :=
  c.records.map (Record.frame host order c.header.variant)

theorem bytes_eq_layout (host order : Order) :
    c.bytes order = c.header.bytes order ++ Format.layout (c.frames host order) := by
  simp only [bytes, frames, Format.layout, List.flatMap_map]
  rfl

theorem index_eq (host order : Order) :
    c.index = Format.index (c.header.bytes order).length (c.frames host order) := by
  have h : ∀ pos rs, index.go c pos rs =
      Format.index pos (rs.map (Record.frame host order c.header.variant)) := by
    intro pos rs
    induction rs generalizing pos with
    | nil => rfl
    | cons r rs ih =>
        have hlen := (Record.frame host order c.header.variant r).bytes_length
        simp only [List.map_cons, index.go, Format.index, ih, hlen, Nat.add_assoc]
        rfl
  rw [CaptureHeader.bytes_length]
  exact h 24 c.records

@[simp] theorem index_length : c.index.length = c.records.length := by
  rw [c.index_eq .little .little, Format.index_length]
  simp [frames]

theorem frame_field (host : Order) (swapped : Bool) (variant : PcapVariantT) (r : Record) :
    (r.frame host (host.flipIf swapped) variant).field =
      (ByteCodec.swapIf swapped r.header.baseHeader.capturedLen).toNat := by
  have hslice : slice (r.headerBytes (host.flipIf swapped) variant) 8 4 =
      store (host.flipIf swapped) r.header.baseHeader.capturedLen := by
    cases variant <;>
      simp only [Record.headerBytes, PacketHeaderModifiedT.bytes, PacketHeaderT.bytes,
        List.append_assoc] <;>
      rw [← List.append_assoc] <;>
      exact slice_field (by simp only [List.length_append, store_length]; rfl) (store_length _ _) _
  have hload := toNat_load host (store_length (host.flipIf swapped) r.header.baseHeader.capturedLen)
  rw [load_store_flipIf] at hload
  rw [Format.Frame.field]
  exact (congrArg (decode host) hslice).trans hload.symm

/-- A capture file is tiled by its own index exactly when the reader sees
every captured length as it was meant. -/
theorem tiles_iff (host : Order) (swapped : Bool) :
    (recordFormat host c.header.variant).Tiles (c.bytes (host.flipIf swapped)) 24 c.index ↔
      ∀ r ∈ c.records, ByteCodec.swapIf swapped r.header.baseHeader.capturedLen =
        r.header.baseHeader.capturedLen := by
  have h := Format.tiles_layout_iff (c.header.bytes (host.flipIf swapped))
    (c.frames host (host.flipIf swapped))
  rw [← c.bytes_eq_layout, ← c.index_eq, CaptureHeader.bytes_length] at h
  rw [h]
  simp only [frames, List.forall_mem_map, frame_field]
  constructor
  · intro hall r hr
    apply UInt32.toNat_inj.mp
    rw [hall r hr]
    exact r.body_length
  · intro hall r hr
    rw [hall r hr]
    exact r.body_length.symm

end CaptureValue

end LibNokogiri.Pcap
