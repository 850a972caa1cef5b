import LibNokogiri.Internal.StoredGzip
import LibNokogiri.Pcap.Decoding

/-! # Decode undoes encode

A capture written in the host's byte order is accepted, indexed by its own
records, and every one of them is read back.
-/

namespace LibNokogiri.Pcap

open ByteCodec Framing Internal PcapT

theorem sniff_bytes (order : Order) (h : CaptureHeader) (rest : Bytes) :
    sniff (h.bytes order ++ rest) = .uncompressed := by
  have hlen : (store order h.variant.value).length = 4 := store_length _ _
  have hfront : (h.bytes order ++ rest).take 2 = (store order h.variant.value).take 2 := by
    simp only [CaptureHeader.bytes, List.append_assoc]
    apply List.take_append_of_le_length
    omega
  have hsize : ¬ (h.bytes order ++ rest).length < 2 := by
    rw [List.length_append, CaptureHeader.bytes_length]
    omega
  have hmagic : (store order h.variant.value).take 2 ≠ gzipHeader := by
    have hunswapped := h.unswapped
    cases order <;> cases hv : h.variant <;>
      first
        | decide
        | (rw [hv] at hunswapped; cases hunswapped)
  rw [sniff, if_neg hsize, hfront, if_neg hmagic]

theorem settled_bytes (order : Order) (h : CaptureHeader) (rest : Bytes)
    {compression : CaptureCompressionT} (hplain : compression ≠ .compressed) :
    settled compression (h.bytes order ++ rest) ≠ .compressed := by
  unfold settled
  split
  · rw [sniff_bytes]
    decide
  · exact hplain

section Construct

variable (host : Order) (z : Zlib) (os : Opens) (f : RegularFile)
  (file : String) (compression : CaptureCompressionT) (readOnly prefetch : Bool)

/-- What construction makes of a file with a complete header, in either byte
order and whatever follows the header. -/
theorem construct_headed (swapped : Bool) (h : CaptureHeader) (rest : Bytes)
    (hopen : os.capture = some f) (hplain : compression ≠ .compressed)
    (hcontent : f.content = h.bytes (host.flipIf swapped) ++ rest) :
    (construct host z os file compression readOnly prefetch).Reads host f ∧
      headed host f.content = some (swapped, h.variant) ∧
      headerAt host swapped h.variant f.content = h.decoded := by
  have hmode : settled compression f.content ≠ .compressed := by
    rw [hcontent]
    exact settled_bytes _ h rest hplain
  refine ⟨?_, ?_, ?_⟩
  · rw [construct_plain host z file compression readOnly prefetch hopen hmode]
    exact parse_reads (opened_unread compression _ f file readOnly prefetch)
  · rw [hcontent]
    exact headed_bytes host swapped h rest
  · rw [hcontent]
    exact headerAt_bytes host swapped h rest

variable (c : CaptureValue)

/-- A non-empty capture that the reader sees the lengths of is indexed by its
own records. -/
theorem indexOf_capture (swapped : Bool) (hcontent : f.content = c.bytes (host.flipIf swapped))
    (hrecords : c.records ≠ [])
    (hseen : ∀ r ∈ c.records, swapIf swapped r.header.baseHeader.capturedLen =
      r.header.baseHeader.capturedLen) :
    indexOf host f.content = (c.index, true) := by
  have hheaded : headed host f.content = some (swapped, c.header.variant) := by
    rw [hcontent]
    exact headed_bytes host swapped c.header _
  have hne : c.index ≠ [] := by
    intro hnil
    apply hrecords
    have hlen := c.index_length
    rw [hnil] at hlen
    exact List.length_eq_zero_iff.mp hlen.symm
  rw [indexOf_headed hheaded, hcontent]
  exact Format.scan_of_tiles ((c.tiles_iff host swapped).mpr hseen) hne

end Construct

def sampleCapture : CaptureValue where
  header :=
    { variant := .standard, unswapped := rfl, major := 2, minor := 4, tzOffset := 0
      timestampFigs := 0, pcklenMax := 65535, network := 1 }
  records :=
    [{ header := ⟨⟨100, 7, 0, 60⟩, 0, 0, 0, 0⟩, body := [], body_length := rfl },
      { header := ⟨⟨101, 8, 3, 3⟩, 0, 0, 0, 0⟩, body := [10, 20, 30], body_length := rfl }]

def sampleFile (order : Order) : RegularFile where
  content := sampleCapture.bytes order
  size_lt := by cases order <;> decide

def opening (f : RegularFile) : Opens where
  capture := some f
  temporary := some RegularFile.empty
  temporaryName := "temporary.pcap"
  writes := fun _ => .accepted blockSize

end LibNokogiri.Pcap
