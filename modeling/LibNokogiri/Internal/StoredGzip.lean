import LibNokogiri.Internal.Decompression

/-! # Gzip files that hold one stored block

A concrete reader for the zlib parameter: a gzip member whose deflate stream is
a single uncompressed block, or any other file, which zlib passes through. A
file that ends inside the member gives up the bytes it has, and the missing
end is reported as `Z_BUF_ERROR` once a read has run into it.
-/

namespace LibNokogiri.Internal

open ByteCodec Framing

structure StoredHandle where
  data : Bytes
  cutOff : Bool
  overread : Bool := false
deriving DecidableEq

/-- Ten bytes of member header, one of block header, two of length and its
complement, the data, and the checksum and size that close the member. -/
def storedGzip (data : Bytes) (crc : UInt32) : Bytes :=
  gzipHeader ++ [8, 0, 0, 0, 0, 0, 0, 3, 1] ++
    (store .little (UInt16.ofNat data.length) ++
      (store .little (~~~ UInt16.ofNat data.length) ++
        (data ++ (store .little crc ++ store .little (UInt32.ofNat data.length)))))

def openStored (bs : Bytes) : StoredHandle :=
  if bs.take 2 = gzipHeader then
    let len := decode .little (slice bs 11 2)
    { data := (bs.drop 15).take len, cutOff := decide ((bs.drop 15).length < len + 8) }
  else { data := bs, cutOff := false }

def storedZlib : Zlib where
  Handle := StoredHandle
  gzdopen f := some (openStored (f.file.content.drop f.pos))
  gzread h len := (some (h.data.take len),
    { h with data := h.data.drop len, overread := h.overread || decide (h.data.length < len) })
  gzerror h := if h.cutOff && h.overread then bufError else 0
  pending h := h.data.length
  gzread_length h len bytes heq := by
    cases heq
    exact List.length_take_le len h.data
  gzread_pending h len bytes heq := by
    cases heq
    simp only [List.length_take, List.length_drop]
    omega

theorem storedZlib_after (h : StoredHandle) (lens : List Nat) :
    (storedZlib.after h lens : StoredHandle).data = h.data.drop lens.sum := by
  induction lens generalizing h with
  | nil => rfl
  | cons len lens ih =>
      have hrest := ih { h with data := h.data.drop len,
                                overread := h.overread || decide (h.data.length < len) }
      rw [List.drop_drop] at hrest
      exact hrest

theorem storedZlib_delivers (h : StoredHandle) : storedZlib.Delivers h h.data := by
  intro lens _ len _
  have hafter := storedZlib_after h lens
  simp only [storedZlib] at hafter ⊢
  rw [hafter]

theorem storedZlib_overread (h : StoredHandle) (lens : List Nat)
    (hover : h.overread = true ∨ h.data.length < lens.sum) :
    (storedZlib.after h lens : StoredHandle).overread = true ∧
      (storedZlib.after h lens : StoredHandle).cutOff = h.cutOff := by
  induction lens generalizing h with
  | nil =>
      rcases hover with hover | hover
      · exact ⟨hover, rfl⟩
      · exact absurd hover (Nat.not_lt_zero _)
  | cons len lens ih =>
      apply ih { h with data := h.data.drop len,
                        overread := h.overread || decide (h.data.length < len) }
      rcases hover with hover | hover
      · exact .inl (by simp [hover])
      · by_cases hlen : h.data.length < len
        · exact .inl (by simp [hlen])
        · right
          simp only [List.sum_cons, List.length_drop] at hover ⊢
          omega

/-- A member that ends early reports it, and otherwise looks complete. -/
theorem storedZlib_cutOff (h : StoredHandle) {b : Bytes} (hcut : h.cutOff = true)
    (hfront : h.data <+: b) : storedZlib.CutOff h b h.data where
  front := hfront
  delivers := storedZlib_delivers h
  reported := by
    intro lens _ hover
    obtain ⟨hoverread, hstill⟩ := storedZlib_overread h lens (.inr hover)
    simp only [storedZlib] at hoverread hstill ⊢
    simp [hoverread, hstill, hcut]

/-! ## Reading a member -/

def storedFront (len : Nat) : Bytes :=
  gzipHeader ++ [8, 0, 0, 0, 0, 0, 0, 3, 1] ++
    (store .little (UInt16.ofNat len) ++ store .little (~~~ UInt16.ofNat len))

def storedTrailer (len : Nat) (crc : UInt32) : Bytes :=
  store .little crc ++ store .little (UInt32.ofNat len)

theorem storedGzip_eq (data : Bytes) (crc : UInt32) :
    storedGzip data crc = storedFront data.length ++ (data ++ storedTrailer data.length crc) := by
  simp only [storedGzip, storedFront, storedTrailer, List.append_assoc]

theorem storedFront_length (len : Nat) : (storedFront len).length = 15 := by
  simp only [storedFront, List.length_append, store_length]
  rfl

theorem storedTrailer_length (len : Nat) (crc : UInt32) : (storedTrailer len crc).length = 8 := by
  simp only [storedTrailer, List.length_append, store_length]
  rfl

theorem storedFront_magic (len : Nat) (rest : Bytes) :
    (storedFront len ++ rest).take 2 = gzipHeader := rfl

theorem storedFront_len {len : Nat} (hlen : len < 2 ^ 16) (rest : Bytes) :
    decode .little (slice (storedFront len ++ rest) 11 2) = len := by
  have hslice : slice (storedFront len ++ rest) 11 2 = store .little (UInt16.ofNat len) := by
    have hsplit : storedFront len ++ rest =
        (gzipHeader ++ [8, 0, 0, 0, 0, 0, 0, 3, 1]) ++
          (store .little (UInt16.ofNat len) ++ (store .little (~~~ UInt16.ofNat len) ++ rest)) := by
      simp only [storedFront, List.append_assoc]
    rw [hsplit]
    exact slice_field rfl (store_length .little (UInt16.ofNat len)) _
  rw [hslice]
  exact (decode_encode .little (Scalar.toNat_lt (UInt16.ofNat len))).trans
    (UInt16.toNat_ofNat_of_lt hlen)

theorem storedFront_drop (len : Nat) (rest : Bytes) : (storedFront len ++ rest).drop 15 = rest :=
  List.drop_left' (storedFront_length len)

theorem replicate_storedGzip_length (n : Nat) (data : Bytes) (crc : UInt32) :
    (List.replicate n (storedGzip data crc)).flatten.length = n * (data.length + 23) := by
  have hmember : (storedGzip data crc).length = data.length + 23 := by
    rw [storedGzip_eq, List.length_append, List.length_append, storedFront_length,
      storedTrailer_length]
    omega
  rw [List.length_flatten, List.map_replicate, hmember, List.sum_replicate_nat]

/-- A member cut `cut` bytes into its data, or not at all, opens on the bytes
before the cut. -/
theorem openStored_take {data : Bytes} (crc : UInt32) (hdata : data.length < 2 ^ 16) (cut : Nat) :
    openStored ((storedGzip data crc).take (15 + cut)) =
      { data := data.take cut, cutOff := decide (cut < data.length + 8) } := by
  have hsplit : (storedGzip data crc).take (15 + cut) =
      storedFront data.length ++ (data ++ storedTrailer data.length crc).take cut := by
    rw [storedGzip_eq, ← storedFront_length data.length, List.take_length_add_append]
  have hdata' : ((data ++ storedTrailer data.length crc).take cut).take data.length =
      data.take cut := by
    rw [List.take_take, Nat.min_comm, ← List.take_take, List.take_left]
  have hcut : decide (((data ++ storedTrailer data.length crc).take cut).length <
      data.length + 8) = decide (cut < data.length + 8) := by
    rw [List.length_take, List.length_append, storedTrailer_length]
    apply decide_eq_decide.mpr
    omega
  rw [hsplit, openStored, if_pos (storedFront_magic _ _)]
  simp only [storedFront_len hdata, storedFront_drop, hdata', hcut]

/-! ## Several members -/

/-- The data of complete members that follow each other; what is no member ends
them. -/
def openMembers : Nat → Bytes → Bytes
  | 0, _ => []
  | fuel + 1, bs =>
      if bs.take 2 = gzipHeader then
        let len := decode .little (slice bs 11 2)
        (bs.drop 15).take len ++ openMembers fuel (bs.drop (15 + len + 8))
      else []

/-- A reader of gzip files with any number of such members. -/
def membersZlib : Zlib :=
  { storedZlib with
    gzdopen := fun f =>
      let bs := f.file.content.drop f.pos
      some { data := openMembers bs.length bs, cutOff := false } }

theorem membersZlib_after (h : StoredHandle) (lens : List Nat) :
    membersZlib.after h lens = storedZlib.after h lens := by
  induction lens generalizing h with
  | nil => rfl
  | cons len lens ih => exact ih (storedZlib.gzread h len).2

theorem membersZlib_delivers (h : StoredHandle) : membersZlib.Delivers h h.data := by
  intro lens hlens len hlen
  rw [membersZlib_after]
  exact storedZlib_delivers h lens hlens len hlen

theorem openMembers_storedGzip (fuel : Nat) {data : Bytes} (crc : UInt32)
    (hdata : data.length < 2 ^ 16) (rest : Bytes) :
    openMembers (fuel + 1) (storedGzip data crc ++ rest) = data ++ openMembers fuel rest := by
  have hsplit : storedGzip data crc ++ rest =
      storedFront data.length ++ (data ++ (storedTrailer data.length crc ++ rest)) := by
    simp only [storedGzip_eq, List.append_assoc]
  have hbehind : (storedGzip data crc ++ rest).drop (15 + data.length + 8) = rest := by
    rw [storedGzip_eq]
    apply List.drop_left'
    rw [List.length_append, List.length_append, storedFront_length, storedTrailer_length,
      Nat.add_assoc]
  rw [openMembers, hsplit, if_pos (storedFront_magic _ _)]
  simp only [storedFront_len hdata, storedFront_drop, List.take_left]
  rw [← hsplit, hbehind]

theorem openMembers_nil (fuel : Nat) : openMembers fuel [] = [] := by
  cases fuel <;> rfl

theorem openMembers_replicate {data : Bytes} (crc : UInt32) (hdata : data.length < 2 ^ 16)
    {n fuel : Nat} (h : n ≤ fuel) :
    openMembers fuel (List.replicate n (storedGzip data crc)).flatten =
      (List.replicate n data).flatten := by
  induction n generalizing fuel with
  | zero => exact openMembers_nil fuel
  | succ n ih =>
      obtain ⟨fuel, rfl⟩ : ∃ k, fuel = k + 1 := ⟨fuel - 1, by omega⟩
      rw [List.replicate_succ, List.replicate_succ, List.flatten_cons, List.flatten_cons,
        openMembers_storedGzip fuel crc hdata, ih (Nat.le_of_succ_le_succ h)]

theorem membersZlib_gzdopen (f : RegularFile) {data : Bytes} (crc : UInt32)
    (hdata : data.length < 2 ^ 16) {n : Nat}
    (hcontent : f.content = (List.replicate n (storedGzip data crc)).flatten) :
    membersZlib.gzdopen ⟨f, 0⟩ =
      some ({ data := (List.replicate n data).flatten, cutOff := false } : StoredHandle) := by
  have hfuel : n ≤ f.content.length := by
    rw [hcontent, replicate_storedGzip_length]
    exact Nat.le_mul_of_pos_right n (Nat.succ_pos _)
  have hopen : membersZlib.gzdopen ⟨f, 0⟩ =
      some ({ data := openMembers f.content.length f.content, cutOff := false } : StoredHandle) :=
    rfl
  rw [hopen]
  generalize f.content.length = fuel at hfuel
  rw [hcontent, openMembers_replicate crc hdata hfuel]

end LibNokogiri.Internal
