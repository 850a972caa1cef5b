import LibNokogiri.Foundation.ByteCodec

/-! # Byte strings taken apart by shifts

Encoders that shift a number right and keep the low byte, and decoders that
shift bytes left and or them together, each with a list of the positions it
uses. With the right lists they are the byte codecs of either order.
-/

namespace ByteCodec

/-- The bytes of `n` at the given bit positions. -/
def scatter (shifts : List Nat) (n : Nat) : Bytes :=
  shifts.map fun shift => UInt8.ofNat (n >>> shift)

/-- The bytes at the given indices, each at its bit position. -/
def gather : List (Nat × Nat) → Bytes → Nat
  | [], _ => 0
  | (index, shift) :: places, bs => (bs.getD index 0).toNat <<< shift ||| gather places bs

/-- Index and bit position of the bytes of a little-endian number, the highest
byte first. -/
def placesLE : Nat → List (Nat × Nat)
  | 0 => []
  | width + 1 => (width, 8 * width) :: placesLE width

def placesBE (width : Nat) : List (Nat × Nat) :=
  (placesLE width).map fun place => (width - 1 - place.1, place.2)

def places : Order → Nat → List (Nat × Nat)
  | .little => placesLE
  | .big => placesBE

/-! ## The last byte of a little-endian number -/

theorem encodeLE_concat (width n : Nat) :
    encodeLE (width + 1) n = encodeLE width n ++ [UInt8.ofNat (n >>> (8 * width))] := by
  induction width generalizing n with
  | zero =>
      have hbyte : UInt8.ofNat (n % 256) = UInt8.ofNat n := by
        rw [← UInt8.toNat_inj, UInt8.toNat_ofNat', UInt8.toNat_ofNat', Nat.mod_mod]
      simp [encodeLE, hbyte]
  | succ width ih =>
      have hshift : (n / 256) >>> (8 * width) = n >>> (8 * (width + 1)) := by
        rw [Nat.mul_succ, Nat.add_comm, Nat.shiftRight_add, Nat.shiftRight_eq_div_pow n 8,
          show 2 ^ 8 = 256 from rfl]
      rw [encodeLE, ih, hshift]
      rfl

theorem decodeLE_concat (bs : Bytes) (b : UInt8) :
    decodeLE (bs ++ [b]) = 2 ^ (8 * bs.length) * b.toNat + decodeLE bs := by
  induction bs with
  | nil => simp [decodeLE]
  | cons c bs ih =>
      have hpow : 2 ^ (8 * (bs.length + 1)) * b.toNat = 256 * (2 ^ (8 * bs.length) * b.toNat) := by
        rw [Nat.mul_succ, Nat.pow_add, Nat.mul_comm (2 ^ (8 * bs.length)), Nat.mul_assoc]
      rw [List.cons_append, decodeLE, ih, List.length_cons, hpow, decodeLE]
      omega

/-! ## Encoding -/

theorem scatter_placesLE (width n : Nat) :
    scatter ((placesLE width).map Prod.snd) n = encode .big width n := by
  induction width with
  | zero => rfl
  | succ width ih =>
      simp only [encode, encodeLE_concat, List.reverse_append] at ih ⊢
      rw [← ih]
      rfl

theorem scatter_reverse (width n : Nat) :
    scatter ((placesLE width).map Prod.snd).reverse n = encode .little width n := by
  have h := scatter_placesLE width n
  rw [scatter] at h ⊢
  rw [List.map_reverse, h, encode, encode, List.reverse_reverse]

/-! ## Decoding -/

theorem gather_take (bs : Bytes) {width : Nat} (h : width ≤ bs.length) :
    gather (placesLE width) bs = decodeLE (bs.take width) := by
  induction width with
  | zero => rfl
  | succ width ih =>
      have hlen : (bs.take width).length = width := List.length_take_of_le (Nat.le_of_succ_le h)
      have hlow : decodeLE (bs.take width) < 2 ^ (8 * width) := by
        have hlt := decodeLE_lt (bs.take width)
        rwa [hlen, show 256 = 2 ^ 8 from rfl, ← Nat.pow_mul] at hlt
      have hbyte : bs.getD width 0 = bs[width] := (List.getElem_eq_getD 0).symm
      rw [placesLE, gather, ih (Nat.le_of_succ_le h), hbyte, List.take_succ_eq_append_getElem h,
        decodeLE_concat, hlen, ← Nat.shiftLeft_add_eq_or_of_lt hlow, Nat.shiftLeft_eq,
        Nat.mul_comm]

theorem gather_mirror {bs : Bytes} {places : List (Nat × Nat)}
    (h : ∀ place ∈ places, place.1 < bs.length) :
    gather (places.map fun place => (bs.length - 1 - place.1, place.2)) bs =
      gather places bs.reverse := by
  induction places with
  | nil => rfl
  | cons place places ih =>
      have hlt : place.1 < bs.length := h place List.mem_cons_self
      have hbyte : bs.getD (bs.length - 1 - place.1) 0 = bs.reverse.getD place.1 0 := by
        rw [List.getD_eq_getElem?_getD, List.getD_eq_getElem?_getD, List.getElem?_reverse hlt]
      rw [List.map_cons, gather, gather, hbyte, ih fun p hp => h p (List.mem_cons_of_mem _ hp)]

theorem placesLE_lt {width : Nat} {place : Nat × Nat} (h : place ∈ placesLE width) :
    place.1 < width := by
  induction width with
  | zero => cases h
  | succ width ih =>
      rcases List.mem_cons.mp h with rfl | h
      · exact Nat.lt_succ_self width
      · exact Nat.lt_succ_of_lt (ih h)

theorem gather_places (o : Order) (bs : Bytes) : gather (places o bs.length) bs = decode o bs := by
  cases o with
  | little => rw [places, gather_take bs (Nat.le_refl _), List.take_length, decode]
  | big =>
      have hle : bs.length ≤ bs.reverse.length := by rw [List.length_reverse]
      rw [places, placesBE, gather_mirror fun _ => placesLE_lt, gather_take bs.reverse hle,
        List.take_of_length_le (Nat.le_of_eq List.length_reverse), decode]

end ByteCodec
