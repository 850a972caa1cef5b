import LibNokogiri.Pcap.RoundTrip

/-! # The file header as a codec

`read_header` accepts the magic numbers of five variants in either byte order,
and nothing else. What it keeps of a header gives back the header's bytes, up
to the upper half of the data link type, and a header is read alike in both
byte orders.
-/

namespace LibNokogiri.Pcap

open ByteCodec Framing Internal PcapT

/-! ## What is accepted -/

def KnownMagic (content : Bytes) : Prop :=
  ∃ (order : Order) (variant : PcapVariantT), variant.isUnswapped = true ∧
    slice content 0 4 = store order variant.value

theorem knownMagic_iff {content : Bytes} (host : Order) (hlen : 4 ≤ content.length) :
    KnownMagic content ↔ ∃ swapped variant, fileKind host content = some (swapped, variant) := by
  simp only [fileKind_iff hlen]
  constructor
  · rintro ⟨order, variant, hunswapped, hmagic⟩
    cases host <;> cases order
    · exact ⟨false, variant, hunswapped, hmagic⟩
    · exact ⟨true, variant, hunswapped, hmagic⟩
    · exact ⟨true, variant, hunswapped, hmagic⟩
    · exact ⟨false, variant, hunswapped, hmagic⟩
  · rintro ⟨swapped, variant, hunswapped, hmagic⟩
    exact ⟨host.flipIf swapped, variant, hunswapped, hmagic⟩

section Accepts

variable {host : Order} {self : PcapT} {f : RegularFile}

theorem readHeader_accepted (hfd : self.file.fd = some ⟨f, 0⟩)
    (hneeds : self.needsSwapping = false) (haccept : (self.readHeader host).1 = true) :
    ∃ swapped variant, headed host f.content = some (swapped, variant) ∧
      self.readHeader host =
        (true, { self with
          file := self.file.movedTo f 24
          needsSwapping := swapped
          header := headerAt host swapped variant f.content }) := by
  cases hheaded : headed host f.content with
  | none =>
      rw [readHeader_unheaded hfd hheaded] at haccept
      cases haccept
  | some kind =>
      obtain ⟨swapped, variant⟩ := kind
      obtain ⟨hsize, hkind⟩ := headed_some hheaded
      exact ⟨swapped, variant, rfl, readHeader_of_le hfd hsize hkind hneeds⟩

theorem readHeader_accepts_iff (hfd : self.file.fd = some ⟨f, 0⟩)
    (hneeds : self.needsSwapping = false) :
    (self.readHeader host).1 = true ↔ 24 ≤ f.size ∧ KnownMagic f.content := by
  constructor
  · intro haccept
    obtain ⟨swapped, variant, hheaded, _⟩ := readHeader_accepted hfd hneeds haccept
    obtain ⟨hsize, hkind⟩ := headed_some hheaded
    exact ⟨hsize, (knownMagic_iff host (by omega)).mpr ⟨swapped, variant, hkind⟩⟩
  · rintro ⟨hsize, hknown⟩
    have hlen : 24 ≤ f.content.length := hsize
    obtain ⟨swapped, variant, hkind⟩ := (knownMagic_iff host (by omega)).mp hknown
    rw [readHeader_of_le hfd hsize hkind hneeds]

end Accepts

/-! ## The fields of a header -/

def headerFields (content : Bytes) : List Bytes :=
  [slice content 0 4, slice content 4 2, slice content 6 2, slice content 8 4,
    slice content 12 4, slice content 16 4, slice content 20 4]

theorem headerFields_flatten (content : Bytes) :
    (headerFields content).flatten = content.take 24 := by
  have hsum : ∀ a b, content.take a ++ slice content a b = content.take (a + b) :=
    take_append_slice content
  have hfront : slice content 0 4 = content.take 4 := rfl
  simp only [headerFields, List.flatten_cons, List.flatten_nil, List.append_nil, hfront,
    ← List.append_assoc, hsum]

def reverseFields (content : Bytes) : Bytes := ((headerFields content).map List.reverse).flatten

/-- `header()` in the documented layout, each field swapped if need be. -/
def FileHeaderT.bytes (host : Order) (needsSwapping : Bool) (h : FileHeaderT) : Bytes :=
  [store host (swapIf needsSwapping h.variant.value),
    store host (swapIf needsSwapping h.version.major),
    store host (swapIf needsSwapping h.version.minor),
    store host (swapIf needsSwapping h.tzOffset),
    store host (swapIf needsSwapping h.timestampFigs),
    store host (swapIf needsSwapping h.pcklenMax),
    store host (swapIf needsSwapping h.network.value.toUInt32)].flatten

/-- The data link type stored in a file, in the file's own byte order. -/
def dataLinkType (host : Order) (content : Bytes) : UInt32 :=
  load (host.flipIf (swappedFile host content)) (slice content 20 4)

theorem toUInt16_toUInt32_eq (word : UInt32) :
    word.toUInt16.toUInt32 = word ↔ word.toNat < 2 ^ 16 := by
  rw [← UInt32.toNat_inj]
  simp only [UInt16.toNat_toUInt32, UInt32.toNat_toUInt16]
  have hlt := Nat.mod_lt word.toNat (by decide : 0 < 2 ^ 16)
  constructor
  · intro heq
    omega
  · exact Nat.mod_eq_of_lt

section Reencode

variable {host : Order} {self : PcapT} {f : RegularFile}

theorem store_swapIf_load {α : Type} [Scalar α] (host : Order) (swapped : Bool) {bs : Bytes}
    (h : bs.length = Scalar.width α) :
    store host (swapIf swapped (swapIf swapped (load host bs : α))) = bs := by
  rw [swapIf_swapIf, store_load host h]

theorem store_narrowed_iff (host : Order) (swapped : Bool) {bs : Bytes} (h : bs.length = 4) :
    store host (swapIf swapped
        (swapIf swapped (load host bs : UInt32)).toUInt16.toUInt32) = bs ↔
      (swapIf swapped (load host bs : UInt32)).toNat < 2 ^ 16 := by
  rw [← toUInt16_toUInt32_eq, eq_comm, ← load_eq_iff host h, eq_comm, swapIf_eq_iff]

/-- What `read_header` keeps of a header gives back its 24 bytes exactly when
the data link type fits the 16 bits of its type. -/
theorem reencode_iff (hfd : self.file.fd = some ⟨f, 0⟩) (hneeds : self.needsSwapping = false)
    (haccept : (self.readHeader host).1 = true) :
    let parsed := (self.readHeader host).2
    parsed.header.bytes host parsed.needsSwapping = f.content.take 24 ↔
      (dataLinkType host f.content).toNat < 2 ^ 16 := by
  intro parsed
  obtain ⟨swapped, variant, hheaded, hread⟩ := readHeader_accepted hfd hneeds haccept
  obtain ⟨hsize, hkind⟩ := headed_some hheaded
  have hwidth : ∀ offset width, offset + width ≤ 24 →
      (slice f.content offset width).length = width := fun _ _ h => slice_length_of_le (by omega)
  have hmagic : store host (swapIf swapped variant.value) = slice f.content 0 4 := by
    rw [← store_flipIf]
    exact ((fileKind_iff (by omega)).mp hkind).2.symm
  have hlink : dataLinkType host f.content =
      swapIf swapped (load host (slice f.content 20 4)) := by
    rw [dataLinkType, swappedFile_eq hkind]
    exact load_flipIf host swapped (hwidth 20 4 (by decide))
  have hmajor : store host (swapIf swapped
      (swapIf swapped (load host (slice f.content 4 2) : UInt16))) = slice f.content 4 2 :=
    store_swapIf_load host swapped (hwidth 4 2 (by decide))
  have hminor : store host (swapIf swapped
      (swapIf swapped (load host (slice f.content 6 2) : UInt16))) = slice f.content 6 2 :=
    store_swapIf_load host swapped (hwidth 6 2 (by decide))
  have htz : store host (swapIf swapped
      (swapIf swapped (load host (slice f.content 8 4) : Int32))) = slice f.content 8 4 :=
    store_swapIf_load host swapped (hwidth 8 4 (by decide))
  have hword : ∀ offset, offset + 4 ≤ 24 → store host (swapIf swapped
      (swapIf swapped (load host (slice f.content offset 4) : UInt32))) =
        slice f.content offset 4 :=
    fun offset h => store_swapIf_load host swapped (hwidth offset 4 h)
  rw [← headerFields_flatten, hlink, ← store_narrowed_iff host swapped (hwidth 20 4 (by decide))]
  simp only [parsed, hread, FileHeaderT.bytes, headerAt, headerFields, hmagic, hmajor, hminor, htz,
    hword 12 (by decide), hword 16 (by decide), List.flatten_cons, List.flatten_nil,
    List.append_nil, List.append_cancel_left_eq]

end Reencode

def flaggedHeader : CaptureHeader := { sampleCapture.header with network := 0x24000001 }

def flaggedFile : RegularFile where
  content := flaggedHeader.bytes .little
  size_lt := by decide

def unreadOn (f : RegularFile) : PcapT :=
  setUp (openFile (some f) "sample.pcap" false) .uncompressed true false

theorem reencode_sample :
    let parsed := ((unreadOn (sampleFile .big)).readHeader .little).2
    parsed.header.bytes .little parsed.needsSwapping = (sampleFile .big).content.take 24 ↔
      (dataLinkType .little (sampleFile .big).content).toNat < 2 ^ 16 :=
  reencode_iff rfl rfl (by decide +kernel)

/-- The flag is lost: what is left is link type 1. -/
theorem reencode_fails :
    let parsed := (unreadOn flaggedFile).readHeader .little
    parsed.1 = true ∧ parsed.2.header.network = ⟨1⟩ ∧
      parsed.2.header.bytes .little parsed.2.needsSwapping ≠ flaggedFile.content.take 24 := by
  decide +kernel

/-! ## Headers in the other byte order -/

section Reversed

variable {host : Order} {content reversed : Bytes}

theorem headerFields_lengths (hlen : 24 ≤ content.length) :
    (headerFields content).map List.length = [4, 2, 2, 4, 4, 4, 4] := by
  have hwidth : ∀ offset width, offset + width ≤ 24 →
      (slice content offset width).length = width := fun _ _ h => slice_length_of_le (by omega)
  simp [headerFields, hwidth]

theorem headerFields_reversed (hlen : 24 ≤ content.length)
    (hreversed : reversed.take 24 = reverseFields content) :
    24 ≤ reversed.length ∧ headerFields reversed = (headerFields content).map List.reverse := by
  have hsame : ((headerFields content).map List.reverse).map List.length =
      [4, 2, 2, 4, 4, 4, 4] := by
    rw [← headerFields_lengths hlen, List.map_map]
    simp [Function.comp_def]
  have hlen' : 24 ≤ reversed.length := by
    have htotal := congrArg List.length hreversed
    rw [reverseFields, List.length_flatten, hsame, List.length_take] at htotal
    simp only [List.sum_cons, List.sum_nil] at htotal
    omega
  refine ⟨hlen', List.eq_iff_flatten_eq.mpr ⟨?_, ?_⟩⟩
  · rw [headerFields_flatten]
    exact hreversed
  · rw [headerFields_lengths hlen', hsame]

/-- A header and the one with every field reversed read the same, as files of
opposite byte order. -/
theorem headed_reversed (hreversed : reversed.take 24 = reverseFields content) {swapped : Bool}
    {variant : PcapVariantT} (hheaded : headed host content = some (swapped, variant)) :
    headed host reversed = some (!swapped, variant) ∧
      headerAt host (!swapped) variant reversed = headerAt host swapped variant content := by
  obtain ⟨hlen, hkind⟩ := headed_some hheaded
  obtain ⟨hlen', hfields⟩ := headerFields_reversed hlen hreversed
  simp only [headerFields, List.map_cons, List.map_nil, List.cons.injEq, and_true] at hfields
  obtain ⟨hmagic, hmajor, hminor, htz, hfigs, hmax, hlink⟩ := hfields
  have hread : ∀ {α : Type} [Scalar α] (bs : Bytes), bs.length = Scalar.width α →
      swapIf (!swapped) (load host bs.reverse : α) = swapIf swapped (load host bs) := by
    intro α _ bs hbs
    rw [load_reverse host hbs, swapIf_not_bswap]
  constructor
  · rw [headed, if_pos hlen']
    obtain ⟨hunswapped, hvalue⟩ := (fileKind_iff (by omega)).mp hkind
    refine (fileKind_iff (by omega)).mpr ⟨hunswapped, ?_⟩
    rw [hmagic, hvalue, store_reverse, Order.flip_flipIf]
  · have hwidth : ∀ offset width, offset + width ≤ 24 →
        (slice content offset width).length = width := fun _ _ h => slice_length_of_le (by omega)
    rw [headerAt, headerAt, hmajor, hminor, htz, hfigs, hmax, hlink,
      hread _ (hwidth 4 2 (by decide)), hread _ (hwidth 6 2 (by decide)),
      hread _ (hwidth 8 4 (by decide)), hread _ (hwidth 12 4 (by decide)),
      hread _ (hwidth 16 4 (by decide)), hread _ (hwidth 20 4 (by decide))]

variable {self : PcapT} {f : RegularFile}

/-- `read_header` accepts exactly the files with a magic number and a whole
header, and a header with every field reversed is the same header of a file in
the other byte order. -/
theorem readHeader_grammar (hfd : self.file.fd = some ⟨f, 0⟩)
    (hneeds : self.needsSwapping = false) :
    ((self.readHeader host).1 = true ↔ 24 ≤ f.size ∧ KnownMagic f.content) ∧
      ((self.readHeader host).1 = true →
        (self.readHeader host).2.file.tell = 24 ∧
        ∀ (g : RegularFile) (other : PcapT), other.file.fd = some ⟨g, 0⟩ →
          other.needsSwapping = false → g.content.take 24 = reverseFields f.content →
          (other.readHeader host).1 = true ∧
            (other.readHeader host).2.header = (self.readHeader host).2.header ∧
            (other.readHeader host).2.needsSwapping =
              !(self.readHeader host).2.needsSwapping) := by
  refine ⟨readHeader_accepts_iff hfd hneeds, fun haccept => ?_⟩
  obtain ⟨swapped, variant, hheaded, hread⟩ := readHeader_accepted hfd hneeds haccept
  constructor
  · rw [hread]
    exact FdT.tell_eq (FdT.movedTo_fd self.file f 24)
  · intro g other hfd' hneeds' hreversed
    obtain ⟨hheaded', hheader⟩ := headed_reversed hreversed hheaded
    obtain ⟨hsize, hkind⟩ := headed_some hheaded'
    rw [hread, readHeader_of_le hfd' hsize hkind hneeds']
    exact ⟨rfl, hheader, rfl⟩

theorem readHeader_grammar_sample :
    let parsed := fun order => (unreadOn (sampleFile order)).readHeader .little
    (parsed .little).1 = true ∧ (parsed .little).2.file.tell = 24 ∧
      (parsed .big).1 = true ∧ (parsed .big).2.header = (parsed .little).2.header ∧
      (parsed .big).2.needsSwapping = !(parsed .little).2.needsSwapping := by
  have haccept : ((unreadOn (sampleFile .little)).readHeader .little).1 = true := by
    decide +kernel
  obtain ⟨htell, hreversed⟩ := (readHeader_grammar rfl rfl).2 haccept
  exact ⟨haccept, htell, hreversed (sampleFile .big) (unreadOn (sampleFile .big)) rfl rfl
    (by decide +kernel)⟩

end Reversed

end LibNokogiri.Pcap
