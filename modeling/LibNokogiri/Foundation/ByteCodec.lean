import Mathlib.Algebra.Order.Ring.Int
/-! # Fixed-width integers as byte strings

Encoders and decoders of naturals in a given number of bytes, in either byte
order, and the typed view of them for machine integers. Reading in the order
opposite to the one that was written is byte reversal, and that is the only
way the two orders are related below.
-/

namespace ByteCodec

abbrev Bytes := List UInt8

inductive Order
  | little
  | big
deriving DecidableEq, Repr

def Order.flip : Order → Order
  | .little => .big
  | .big => .little

@[simp] theorem Order.flip_flip (o : Order) : o.flip.flip = o := by cases o <;> rfl

/-! ## Natural numbers in a fixed number of bytes -/

def encodeLE : Nat → Nat → Bytes
  | 0, _ => []
  | width + 1, n => UInt8.ofNat (n % 256) :: encodeLE width (n / 256)

def decodeLE : Bytes → Nat
  | [] => 0
  | b :: bs => b.toNat + 256 * decodeLE bs

@[simp] theorem encodeLE_length (width n : Nat) : (encodeLE width n).length = width := by
  induction width generalizing n with
  | zero => rfl
  | succ width ih => simp [encodeLE, ih]

theorem decodeLE_lt (bs : Bytes) : decodeLE bs < 256 ^ bs.length := by
  induction bs with
  | nil => simp [decodeLE]
  | cons b bs ih =>
      have hb : b.toNat < 256 := b.toNat_lt
      simp only [decodeLE, List.length_cons, Nat.pow_succ]
      omega

theorem decodeLE_encodeLE {width n : Nat} (h : n < 256 ^ width) :
    decodeLE (encodeLE width n) = n := by
  induction width generalizing n with
  | zero =>
      have hn : n = 0 := by simpa using h
      simp [encodeLE, decodeLE, hn]
  | succ width ih =>
      have hdiv : n / 256 < 256 ^ width := by
        apply Nat.div_lt_of_lt_mul
        rwa [Nat.pow_succ, Nat.mul_comm] at h
      have hbyte : (UInt8.ofNat (n % 256)).toNat = n % 256 := by
        rw [UInt8.toNat_ofNat']
        omega
      simp only [encodeLE, decodeLE, ih hdiv, hbyte]
      exact Nat.mod_add_div n 256

theorem encodeLE_decodeLE (bs : Bytes) : encodeLE bs.length (decodeLE bs) = bs := by
  induction bs with
  | nil => rfl
  | cons b bs ih =>
      have hb : b.toNat < 256 := b.toNat_lt
      have hmod : (b.toNat + 256 * decodeLE bs) % 256 = b.toNat := by omega
      have hdiv : (b.toNat + 256 * decodeLE bs) / 256 = decodeLE bs := by omega
      simp only [List.length_cons, decodeLE, encodeLE, hmod, hdiv, ih, UInt8.ofNat_toNat]

def encode (o : Order) (width n : Nat) : Bytes :=
  match o with
  | .little => encodeLE width n
  | .big => (encodeLE width n).reverse

def decode (o : Order) (bs : Bytes) : Nat :=
  match o with
  | .little => decodeLE bs
  | .big => decodeLE bs.reverse

@[simp] theorem encode_length (o : Order) (width n : Nat) :
    (encode o width n).length = width := by
  cases o <;> simp [encode]

theorem decode_lt (o : Order) (bs : Bytes) : decode o bs < 256 ^ bs.length := by
  cases o with
  | little => exact decodeLE_lt bs
  | big => simpa [decode] using decodeLE_lt bs.reverse

theorem decode_encode (o : Order) {width n : Nat} (h : n < 256 ^ width) :
    decode o (encode o width n) = n := by
  cases o with
  | little => exact decodeLE_encodeLE h
  | big => simpa [decode, encode] using decodeLE_encodeLE h

theorem encode_decode (o : Order) (bs : Bytes) :
    encode o bs.length (decode o bs) = bs := by
  cases o with
  | little => exact encodeLE_decodeLE bs
  | big =>
      have h := encodeLE_decodeLE bs.reverse
      rw [List.length_reverse] at h
      simp [encode, decode, h]

theorem encode_flip (o : Order) (width n : Nat) :
    encode o.flip width n = (encode o width n).reverse := by
  cases o <;> simp [encode, Order.flip]

/-- Byte reversal of a `width`-byte value. -/
def byteswap (width n : Nat) : Nat := decode .big (encode .little width n)

theorem byteswap_lt (width n : Nat) : byteswap width n < 256 ^ width := by
  simpa [byteswap] using decode_lt .big (encode .little width n)

theorem decode_flip_encode (o : Order) (width n : Nat) :
    decode o.flip (encode o width n) = byteswap width n := by
  cases o with
  | little => rfl
  | big => simp [byteswap, decode, encode, Order.flip]

theorem decode_flip_eq (o : Order) (bs : Bytes) :
    decode o.flip bs = byteswap bs.length (decode o bs) := by
  rw [← decode_flip_encode o, encode_decode]

theorem decode_reverse (o : Order) (bs : Bytes) : decode o bs.reverse = decode o.flip bs := by
  cases o <;> simp [decode, Order.flip]

theorem encode_byteswap (o : Order) (width n : Nat) :
    encode o width (byteswap width n) = encode o.flip width n := by
  have h := encode_decode o (encode o.flip width n)
  have hd : decode o (encode o.flip width n) = byteswap width n := by
    simpa using decode_flip_encode o.flip width n
  rwa [encode_length, hd] at h

theorem byteswap_byteswap {width n : Nat} (h : n < 256 ^ width) :
    byteswap width (byteswap width n) = n := by
  rw [byteswap, encode_byteswap]
  exact decode_encode .big h

/-! ## Machine integers -/

/-- A type whose values are exactly the naturals below `256 ^ width`. -/
class Scalar (α : Type) where
  width : Nat
  toNat : α → Nat
  ofNat : Nat → α
  toNat_lt : ∀ a, toNat a < 256 ^ width
  ofNat_toNat : ∀ a, ofNat (toNat a) = a
  toNat_ofNat : ∀ n, n < 256 ^ width → toNat (ofNat n) = n

instance : Scalar UInt8 where
  width := 1
  toNat := UInt8.toNat
  ofNat := UInt8.ofNat
  toNat_lt a := a.toNat_lt
  ofNat_toNat _ := UInt8.ofNat_toNat
  toNat_ofNat _ h := UInt8.toNat_ofNat_of_lt h

instance : Scalar UInt16 where
  width := 2
  toNat := UInt16.toNat
  ofNat := UInt16.ofNat
  toNat_lt a := a.toNat_lt
  ofNat_toNat _ := UInt16.ofNat_toNat
  toNat_ofNat _ h := UInt16.toNat_ofNat_of_lt h

instance : Scalar UInt32 where
  width := 4
  toNat := UInt32.toNat
  ofNat := UInt32.ofNat
  toNat_lt a := a.toNat_lt
  ofNat_toNat _ := UInt32.ofNat_toNat
  toNat_ofNat _ h := UInt32.toNat_ofNat_of_lt h

instance : Scalar UInt64 where
  width := 8
  toNat := UInt64.toNat
  ofNat := UInt64.ofNat
  toNat_lt a := a.toNat_lt
  ofNat_toNat _ := UInt64.ofNat_toNat
  toNat_ofNat _ h := UInt64.toNat_ofNat_of_lt h

instance : Scalar Int16 where
  width := 2
  toNat a := a.toUInt16.toNat
  ofNat n := (UInt16.ofNat n).toInt16
  toNat_lt a := a.toUInt16.toNat_lt
  ofNat_toNat _ := by simp
  toNat_ofNat n h := UInt16.toNat_ofNat_of_lt h

instance : Scalar Int32 where
  width := 4
  toNat a := a.toUInt32.toNat
  ofNat n := (UInt32.ofNat n).toInt32
  toNat_lt a := a.toUInt32.toNat_lt
  ofNat_toNat _ := by simp
  toNat_ofNat n h := UInt32.toNat_ofNat_of_lt h

instance : Scalar Int64 where
  width := 8
  toNat a := a.toUInt64.toNat
  ofNat n := (UInt64.ofNat n).toInt64
  toNat_lt a := a.toUInt64.toNat_lt
  ofNat_toNat _ := by simp
  toNat_ofNat n h := UInt64.toNat_ofNat_of_lt h

section Scalars

variable {α : Type} [Scalar α]

/-- The object representation of `a` on a machine with byte order `o`. -/
def store (o : Order) (a : α) : Bytes := encode o (Scalar.width α) (Scalar.toNat a)

def load (o : Order) (bs : Bytes) : α := Scalar.ofNat (decode o bs)

def bswap (a : α) : α := Scalar.ofNat (byteswap (Scalar.width α) (Scalar.toNat a))

@[simp] theorem store_length (o : Order) (a : α) :
    (store o a).length = Scalar.width α := by
  simp [store]

@[simp] theorem load_store (o : Order) (a : α) : load o (store o a) = a := by
  rw [load, store, decode_encode o (Scalar.toNat_lt a), Scalar.ofNat_toNat]

theorem toNat_load (o : Order) {bs : Bytes} (h : bs.length = Scalar.width α) :
    Scalar.toNat (load o bs : α) = decode o bs :=
  Scalar.toNat_ofNat _ (h ▸ decode_lt o bs)

theorem store_load (o : Order) {bs : Bytes} (h : bs.length = Scalar.width α) :
    store o (load o bs : α) = bs := by
  rw [store, toNat_load o h, ← h, encode_decode]

theorem toNat_bswap (a : α) :
    Scalar.toNat (bswap a) = byteswap (Scalar.width α) (Scalar.toNat a) :=
  Scalar.toNat_ofNat _ (byteswap_lt _ _)

/-- Reading in the order opposite to the writer's gives the reversed value. -/
@[simp] theorem load_flip_store (o : Order) (a : α) :
    load o (store o.flip a) = bswap a := by
  have h := decode_flip_encode o.flip (Scalar.width α) (Scalar.toNat a)
  rw [Order.flip_flip] at h
  rw [load, store, h, bswap]

theorem store_flip (o : Order) (a : α) : store o.flip a = store o (bswap a) := by
  rw [store, store, toNat_bswap, encode_byteswap]

theorem store_reverse (o : Order) (a : α) : (store o a).reverse = store o.flip a :=
  (encode_flip o _ _).symm

@[simp] theorem bswap_bswap (a : α) : bswap (bswap a) = a := by
  rw [bswap, toNat_bswap, byteswap_byteswap (Scalar.toNat_lt a), Scalar.ofNat_toNat]

theorem load_eq_iff (o : Order) {bs : Bytes} (h : bs.length = Scalar.width α) {a : α} :
    load o bs = a ↔ bs = store o a := by
  constructor
  · intro hload
    rw [← hload, store_load o h]
  · intro hstore
    rw [hstore, load_store]

theorem load_reverse (o : Order) {bs : Bytes} (h : bs.length = Scalar.width α) :
    load o bs.reverse = bswap (load o bs : α) := by
  rw [load, decode_reverse, decode_flip_eq, bswap, toNat_load o h, h]

/-- A single byte is its own reversal. -/
theorem bswap_of_width_one (h : Scalar.width α = 1) (a : α) : bswap a = a := by
  have hlen : (store Order.little a).length = 1 := by rw [store_length, h]
  obtain ⟨b, hb⟩ := List.length_eq_one_iff.mp hlen
  have hflip : store Order.little.flip a = store Order.little a := by
    rw [← store_reverse, hb]
    rfl
  rw [← load_flip_store Order.little a, hflip, load_store]

/-! ## Files of either order -/

/-- The order of a file, from the host's and whether it needs swapping. -/
def Order.flipIf (o : Order) (swapped : Bool) : Order := if swapped then o.flip else o

@[simp] theorem Order.flipIf_false (o : Order) : o.flipIf false = o := rfl

@[simp] theorem Order.flipIf_true (o : Order) : o.flipIf true = o.flip := rfl

theorem Order.flip_flipIf (o : Order) (swapped : Bool) :
    (o.flipIf swapped).flip = o.flipIf (!swapped) := by
  cases swapped <;> simp

def swapIf (swapped : Bool) (a : α) : α := if swapped then bswap a else a

@[simp] theorem swapIf_swapIf (swapped : Bool) (a : α) : swapIf swapped (swapIf swapped a) = a := by
  cases swapped <;> simp [swapIf]

theorem swapIf_eq_iff (swapped : Bool) {a b : α} : swapIf swapped a = b ↔ a = swapIf swapped b := by
  constructor
  · intro h
    rw [← h, swapIf_swapIf]
  · intro h
    rw [h, swapIf_swapIf]

@[simp] theorem swapIf_not_bswap (swapped : Bool) (a : α) :
    swapIf (!swapped) (bswap a) = swapIf swapped a := by
  cases swapped <;> simp [swapIf]

@[simp] theorem swapIf_load_store (o : Order) (swapped : Bool) (a : α) :
    swapIf swapped (load o (store (o.flipIf swapped) a)) = a := by
  cases swapped <;> simp [swapIf, Order.flipIf]

@[simp] theorem load_store_flipIf (o : Order) (swapped : Bool) (a : α) :
    load o (store (o.flipIf swapped) a) = swapIf swapped a := by
  cases swapped <;> simp [swapIf, Order.flipIf]

theorem store_flipIf (o : Order) (swapped : Bool) (a : α) :
    store (o.flipIf swapped) a = store o (swapIf swapped a) := by
  cases swapped with
  | false => rfl
  | true => exact store_flip o a

theorem load_flipIf (o : Order) (swapped : Bool) {bs : Bytes} (h : bs.length = Scalar.width α) :
    load (o.flipIf swapped) bs = swapIf swapped (load o bs : α) := by
  have hstore := store_load (α := α) (o.flipIf swapped) h
  rw [store_flipIf] at hstore
  rw [(load_eq_iff o h).mpr hstore.symm, swapIf_swapIf]

theorem swapIf_of_width_one (h : Scalar.width α = 1) (swapped : Bool) (a : α) :
    swapIf swapped a = a := by
  cases swapped with
  | false => rfl
  | true => exact bswap_of_width_one h a

end Scalars

end ByteCodec
