import LibNokogiri.Pcap.RoundTrip

/-! # Which files are accepted

Whatever a file holds, the index of an accepted capture partitions what
follows the file header. Cut files are accepted at the end of a record, and
nowhere else.
-/

namespace LibNokogiri.Pcap

open ByteCodec Framing Internal PcapT

/-! ## Acceptance is sound -/

structure Partitions (host : Order) (variant : PcapVariantT) (content : Bytes)
    (packets : List PacketStorageT) : Prop where
  nonempty : packets ≠ []
  first : ∀ h : 0 < packets.length, packets[0].offset = 24
  next : ∀ (i : Nat) (h : i + 1 < packets.length),
    packets[i + 1].offset =
      packets[i].offset + packetHeaderSize variant + packets[i].len.toNat
  length : ∀ storage ∈ packets, storage.len = load host (slice content (storage.offset + 8) 4)
  last : (packets.getLast nonempty).offset + packetHeaderSize variant +
    (packets.getLast nonempty).len.toNat = content.length

theorem partitions_of_tiles {host : Order} {variant : PcapVariantT} {content : Bytes}
    {es : List Entry} (h : (recordFormat host variant).Tiles content 24 es) (hne : es ≠ []) :
    Partitions host variant content (es.map stored) := by
  have hlen : ∀ e ∈ es, (stored e).len.toNat = e.length := by
    intro e he
    have hentry : (stored e).entry = e := by
      apply entry_stored
      rw [(h.mem he).2.1]
      exact lengthAt_lt host variant content e.offset
    exact congrArg Entry.length hentry
  refine ⟨by simpa using hne, ?_, ?_, ?_, ?_⟩
  · intro hpos
    cases es with
    | nil => exact absurd rfl hne
    | cons e es => exact h.1
  · intro i hi
    have hi' : i + 1 < es.length := by simpa using hi
    simp only [List.getElem_map, hlen es[i] (List.getElem_mem _)]
    exact h.next hi'
  · intro storage hmem
    obtain ⟨e, he, rfl⟩ := List.mem_map.mp hmem
    obtain ⟨_, hlength, hend⟩ := h.mem he
    apply UInt32.toNat_inj.mp
    have hfit : (recordFormat host variant).Fits content e.offset := by
      have hfield := (recordFormat host variant).field_in_header
      unfold Format.recordEnd at hend
      unfold Format.Fits
      omega
    rw [hlen e he, hlength]
    exact (toNat_lengthAt hfit).symm
  · rw [List.getLast_map]
    rw [hlen _ (List.getLast_mem hne)]
    exact h.last hne

/-- An accepted capture holds a file whose magic number selects a variant, and
its index partitions that file. The file is the opened one, or on the
compressed path the temporary one. -/
theorem construct_sound (host : Order) (z : Zlib) (os : Opens) (file : String)
    (compression : CaptureCompressionT) (readOnly prefetch : Bool)
    (hvalid : (construct host z os file compression readOnly prefetch).valid = true) :
    let capture := construct host z os file compression readOnly prefetch
    ∃ f swapped variant,
      capture.file.OnFile f ∧
      (∀ g, os.capture = some g → settled compression g.content ≠ .compressed → f = g) ∧
      fileKind host f.content = some (swapped, variant) ∧
      capture.header.variant = variant ∧
      Partitions host variant f.content capture.packets := by
  intro capture
  rcases construct_cases host z os file compression readOnly prefetch with
    ⟨f, hparsed, hplain⟩ | hbare
  · have hreads := hparsed.reads
    rw [hreads.valid] at hvalid
    cases hheaded : headed host f.content with
    | none =>
        simp only [indexOf, hheaded] at hvalid
        cases hvalid
    | some kind =>
        obtain ⟨swapped, variant⟩ := kind
        have hindex := indexOf_headed hheaded
        have hheader := hreads.header swapped variant hheaded
        rw [hindex] at hvalid
        obtain ⟨htiles, hne⟩ := Format.tiles_of_scan hvalid
        have hpartitions := partitions_of_tiles htiles hne
        rw [← hindex, ← hreads.packets] at hpartitions
        exact ⟨f, swapped, variant, hreads.onFile, hplain, (headed_some hheaded).2,
          congrArg FileHeaderT.variant hheader, hpartitions⟩
  · rw [hbare.valid] at hvalid
    cases hvalid

theorem construct_sound_sample :
    let capture := construct .little storedZlib (opening (sampleFile .little)) "sample.pcap"
      .autodetect true false
    ∃ f swapped variant,
      capture.file.OnFile f ∧
      (∀ g, (opening (sampleFile .little)).capture = some g →
        settled .autodetect g.content ≠ .compressed → f = g) ∧
      fileKind .little f.content = some (swapped, variant) ∧
      capture.header.variant = variant ∧
      Partitions .little variant f.content capture.packets :=
  construct_sound .little storedZlib (opening (sampleFile .little)) "sample.pcap" .autodetect true
    false (by decide +kernel)

/-! ## The truncation law -/

def CaptureValue.boundary (c : CaptureValue) (k : Nat) : Nat :=
  24 + ((c.records.take k).map fun r => packetHeaderSize c.header.variant + r.body.length).sum

theorem CaptureValue.recordEnd_index (host : Order) (c : CaptureValue) {k : Nat}
    (hk : k < c.index.length) :
    (recordFormat host c.header.variant).recordEnd c.index[k] = c.boundary (k + 1) := by
  have h : ∀ (rs : List Record) (pos k : Nat) (hk : k < (CaptureValue.index.go c pos rs).length),
      (recordFormat host c.header.variant).recordEnd (CaptureValue.index.go c pos rs)[k] =
        pos + ((rs.take (k + 1)).map fun r =>
          packetHeaderSize c.header.variant + r.body.length).sum := by
    intro rs
    induction rs with
    | nil => intro pos k hk; simp [CaptureValue.index.go] at hk
    | cons r rs ih =>
        intro pos k hk
        cases k with
        | zero => simp [CaptureValue.index.go, Format.recordEnd, recordFormat, Nat.add_assoc]
        | succ k =>
            have hrest := ih (pos + packetHeaderSize c.header.variant + r.body.length) k
              (by simpa [CaptureValue.index.go] using hk)
            simp only [CaptureValue.index.go, List.getElem_cons_succ, hrest, List.take_succ_cons,
              List.map_cons, List.sum_cons]
            omega
  exact h c.records 24 k hk

section Truncation

variable (host : Order) (z : Zlib) (os : Opens) (file : String)
  (compression : CaptureCompressionT) (readOnly prefetch : Bool) (c : CaptureValue)
  (f : RegularFile)

def openedOn (f : RegularFile) : PcapT :=
  construct host z { os with capture := some f } file compression readOnly prefetch

/-- The law at one cut: the cut file is accepted exactly at a record boundary,
and then with the records in front of it. -/
def CutLaw (count : Nat) : Prop :=
  let original := openedOn host z os file compression readOnly prefetch f
  let cut := openedOn host z os file compression readOnly prefetch (f.cut count)
  (cut.valid = true ↔ ∃ k, k ≤ c.records.length ∧ c.boundary k = count) ∧
    (cut.valid = true → ∃ k, k ≤ c.records.length ∧ c.boundary k = count ∧
      cut.packetCount = k ∧ cut.packets = original.packets.take k)

theorem cut_reads (hplain : compression ≠ .compressed) (hcontent : f.content = c.bytes host)
    {count : Nat} (hcount : 24 ≤ count) :
    (openedOn host z os file compression readOnly prefetch (f.cut count)).Reads host
        (f.cut count) ∧
      indexOf host (f.cut count).content =
        (recordFormat host c.header.variant).scan (f.content.take count) 24 := by
  have hsplit : (f.cut count).content = c.header.bytes host ++
      (c.records.flatMap fun r => r.headerBytes host c.header.variant ++ r.body).take
        (count - 24) := by
    have hlen : (c.header.bytes host).length = 24 := c.header.bytes_length host
    change f.content.take count = _
    rw [hcontent, CaptureValue.bytes, List.take_append, hlen, List.take_of_length_le (by omega)]
  obtain ⟨hreads, hheaded, _⟩ := construct_headed host z { os with capture := some (f.cut count) }
    (f.cut count) file compression readOnly prefetch false c.header _ rfl hplain hsplit
  exact ⟨hreads, indexOf_headed hheaded⟩

theorem cut_header (hplain : compression ≠ .compressed) (hcontent : f.content = c.bytes host)
    (hsize : 24 ≤ f.size) :
    (openedOn host z os file compression readOnly prefetch (f.cut 24)).valid = false := by
  obtain ⟨hreads, hindex⟩ :=
    cut_reads host z os file compression readOnly prefetch c f hplain hcontent (Nat.le_refl 24)
  have hlen : (f.content.take 24).length = 24 := List.length_take_of_le hsize
  have hshort : ¬ (recordFormat host c.header.variant).Fits (f.content.take 24) 24 := by
    unfold Format.Fits
    rw [hlen]
    simp [recordFormat]
  rw [hreads.valid, hindex, Format.scan_short hshort]

/-- Behind the header, a cut ends a record and leaves a prefix of the index, or
ends none and leaves nothing valid. -/
theorem cut_behind (hplain : compression ≠ .compressed) (hcontent : f.content = c.bytes host)
    {count : Nat} (hcount : 24 < count) (hsize : count ≤ f.size) :
    let original := openedOn host z os file compression readOnly prefetch f
    let cut := openedOn host z os file compression readOnly prefetch (f.cut count)
    (∃ k, k < c.records.length ∧ c.boundary (k + 1) = count ∧ cut.valid = true ∧
        cut.packetCount = k + 1 ∧ cut.packets = original.packets.take (k + 1)) ∨
      ((∀ k, k ≤ c.records.length → c.boundary k ≠ count) ∧ cut.valid = false) := by
  intro original cut
  obtain ⟨hreads, hindex⟩ := cut_reads host z os file compression readOnly prefetch c f hplain
    hcontent (Nat.le_of_lt hcount)
  have htiles := (c.tiles_iff host false).mpr fun _ _ => rfl
  rw [Order.flipIf_false, ← hcontent] at htiles
  rcases Format.scan_take htiles hcount hsize with ⟨k, hk, hend, hscan⟩ | ⟨hnone, hscan⟩
  · left
    have hrecords : k < c.records.length := by rwa [c.index_length] at hk
    have hne : c.records ≠ [] := by
      intro hnil
      rw [hnil] at hrecords
      exact absurd hrecords (Nat.not_lt_zero k)
    obtain ⟨horiginal, _, _⟩ := construct_headed host z { os with capture := some f } f file
      compression readOnly prefetch false c.header _ rfl hplain hcontent
    have hpackets : original.packets = c.index.map stored := by
      rw [show original.packets = _ from horiginal.packets,
        indexOf_capture host f c false hcontent hne fun _ _ => rfl]
    have hcut : cut.packets = original.packets.take (k + 1) := by
      rw [hpackets, hreads.packets, hindex, hscan, List.map_take]
    refine ⟨k, hrecords, ?_, ?_, ?_, hcut⟩
    · rw [← c.recordEnd_index host hk]
      exact hend
    · rw [hreads.valid, hindex, hscan]
    · rw [packetCount, hcut, hpackets, List.length_take, List.length_map, c.index_length]
      omega
  · right
    constructor
    · intro k hk hbound
      cases k with
      | zero => exact absurd hbound (Nat.ne_of_lt hcount)
      | succ k =>
          have hk' : k < c.index.length := by
            rw [c.index_length]
            exact hk
          apply hnone _ (List.getElem_mem hk')
          rw [c.recordEnd_index host hk', hbound]
    · rw [hreads.valid, hindex, hscan]

/-- Every cut obeys the law but the one right behind the file header: there
the end-of-file flag is still clear, and the loop looks for a record. -/
theorem cutLaw_iff (hplain : compression ≠ .compressed) (hcontent : f.content = c.bytes host)
    {count : Nat} (hcount : 24 ≤ count) (hsize : count ≤ f.size) :
    CutLaw host z os file compression readOnly prefetch c f count ↔ count ≠ 24 := by
  constructor
  · rintro hlaw rfl
    have hvalid := hlaw.1.mpr ⟨0, Nat.zero_le _, rfl⟩
    rw [cut_header host z os file compression readOnly prefetch c f hplain hcontent hsize] at hvalid
    cases hvalid
  · intro hne
    have hlt : 24 < count := Nat.lt_of_le_of_ne hcount (Ne.symm hne)
    rcases cut_behind host z os file compression readOnly prefetch c f hplain hcontent hlt hsize with
      ⟨k, hk, hbound, hvalid, hpackets⟩ | ⟨hnone, hinvalid⟩
    · exact ⟨⟨fun _ => ⟨k + 1, hk, hbound⟩, fun _ => hvalid⟩,
        fun _ => ⟨k + 1, hk, hbound, hpackets⟩⟩
    · have hvacuous : (openedOn host z os file compression readOnly prefetch
          (f.cut count)).valid ≠ true := by
        rw [hinvalid]
        exact Bool.false_ne_true
      refine ⟨⟨fun h => absurd h hvacuous, ?_⟩, fun h => absurd h hvacuous⟩
      rintro ⟨k, hk, hbound⟩
      exact absurd hbound (hnone k hk)

end Truncation

theorem cutLaw_sample :
    CutLaw .little storedZlib (opening (sampleFile .little)) "sample.pcap" .autodetect true false
        sampleCapture (sampleFile .little) 40 ↔ 40 ≠ 24 :=
  cutLaw_iff .little storedZlib (opening (sampleFile .little)) "sample.pcap" .autodetect true false
    sampleCapture (sampleFile .little) (by decide) rfl (by decide) (by decide)

theorem cutLaw_refused :
    ¬ CutLaw .little storedZlib (opening (sampleFile .little)) "sample.pcap" .autodetect true
      false sampleCapture (sampleFile .little) 24 := by
  rintro ⟨haccept, _⟩
  have hvalid := haccept.mpr ⟨0, by decide, rfl⟩
  revert hvalid
  decide +kernel

end LibNokogiri.Pcap
