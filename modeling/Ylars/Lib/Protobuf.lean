import Ylars.Lib.LittleEndian

/-!
# The wire format of protocol buffers

A message is a sequence of fields.  A field is a tag, its number and the wire type of its
value, and a value: a varint, some bytes with their length before them, or four or eight
bytes.  A varint has seven bits in a byte, the lowest ones first, and the top bit set in
every byte but its last.

`read` takes the fields off some bytes, up to the first that is not one; the groups of the
old format are not read.  A message type says with `merge` what a field does to a message,
and `parse` merges the fields into one as they come.
-/

namespace Ylars.Lib.Protobuf

/-! ## Varints -/

/-- The varint of a number, in at most `n` bytes. -/
def varint : ℕ → ℕ → List UInt8
  | 0, _ => []
  | n + 1, x =>
      if x < 128 then [UInt8.ofNat x] else UInt8.ofNat (x % 128 + 128) :: varint n (x / 128)

/-- The varint at the front of some bytes, in at most `n` bytes, and the bytes behind it. -/
def readVarint : ℕ → List UInt8 → Option (ℕ × List UInt8)
  | 0, _ => none
  | _ + 1, [] => none
  | n + 1, b :: bs =>
      if b.toNat < 128 then some (b.toNat, bs)
      else (readVarint n bs).map fun p ↦ (b.toNat - 128 + 128 * p.1, p.2)

/-- A number that needs a second byte may have one. -/
theorem pos_of_lt_pow {x n : ℕ} (h : x < 128 ^ (n + 1)) (hx : ¬x < 128) : 0 < n := by
  rcases Nat.eq_zero_or_pos n with rfl | hpos
  · rw [zero_add, Nat.pow_one] at h
    exact absurd h hx
  · exact hpos

/-- Reading back a varint. -/
theorem readVarint_varint (n x : ℕ) (rest : List UInt8) (h : x < 128 ^ n) (hn : 0 < n) :
    readVarint n (varint n x ++ rest) = some (x, rest) := by
  induction n generalizing x with
  | zero => cases hn
  | succ n ih =>
      rw [varint]
      split
      · rename_i hx
        have hb : (UInt8.ofNat x).toNat = x := by
          rw [UInt8.toNat_ofNat']
          omega
        rw [List.singleton_append, readVarint, hb, if_pos hx]
      · rename_i hx
        have hb : (UInt8.ofNat (x % 128 + 128)).toNat = x % 128 + 128 := by
          rw [UInt8.toNat_ofNat']
          omega
        have hn' := pos_of_lt_pow h hx
        have hdiv : x / 128 < 128 ^ n := by
          rw [Nat.pow_succ, Nat.mul_comm] at h
          exact Nat.div_lt_of_lt_mul h
        rw [List.cons_append, readVarint, hb, if_neg (by omega), ih _ hdiv hn']
        simp only [Option.map_some, Option.some.injEq, Prod.mk.injEq, and_true]
        omega

theorem length_varint_pos (n x : ℕ) : 0 < (varint (n + 1) x).length := by
  rw [varint]
  split
  · exact Nat.one_pos
  · exact Nat.succ_pos _

/-- A number of `7 * k` bits has at most `k` bytes. -/
theorem length_varint_le {x k : ℕ} (n : ℕ) (h : x < 128 ^ k) (hk : 0 < k) :
    (varint n x).length ≤ k := by
  induction n generalizing x k with
  | zero => exact Nat.zero_le k
  | succ n ih =>
      rw [varint]
      split
      · exact hk
      · rename_i hx
        obtain ⟨k, rfl⟩ : ∃ j, k = j + 1 := ⟨k - 1, by omega⟩
        have hk' := pos_of_lt_pow h hx
        rw [Nat.pow_succ, Nat.mul_comm] at h
        exact Nat.succ_le_succ (ih (Nat.div_lt_of_lt_mul h) hk')

/-- A number of more than `7 * k` bits has more than `k` bytes. -/
theorem lt_length_varint {n x k : ℕ} (h : 128 ^ k ≤ x) (hk : k < n) :
    k < (varint n x).length := by
  induction k generalizing n x with
  | zero =>
      obtain ⟨n, rfl⟩ : ∃ m, n = m + 1 := ⟨n - 1, by omega⟩
      exact length_varint_pos n x
  | succ k ih =>
      obtain ⟨n, rfl⟩ : ∃ m, n = m + 1 := ⟨n - 1, by omega⟩
      have hbig : ¬x < 128 := by
        have hpos := Nat.pow_le_pow_right (n := 128) (by decide) (Nat.le_add_left 1 k)
        omega
      have hdiv : 128 ^ k ≤ x / 128 := by
        rw [Nat.pow_succ] at h
        exact (Nat.le_div_iff_mul_le (by decide)).mpr h
      rw [varint, if_neg hbig, List.length_cons]
      exact Nat.succ_lt_succ (ih hdiv (Nat.lt_of_succ_lt_succ hk))

/-! ## Fields -/

/-- The value of a field. -/
inductive Value where
  | varint (x : ℕ)
  | fixed64 (bs : List UInt8)
  | bytes (bs : List UInt8)
  | fixed32 (bs : List UInt8)
deriving DecidableEq, Repr

namespace Value

/-- The wire type, which the tag has in its three low bits. -/
def wireType : Value → ℕ
  | varint _ => 0
  | fixed64 _ => 1
  | bytes _ => 2
  | fixed32 _ => 5

/-- What stands behind the tag. -/
def payload : Value → List UInt8
  | varint x => Protobuf.varint 10 x
  | fixed64 bs => bs
  | bytes bs => Protobuf.varint 5 bs.length ++ bs
  | fixed32 bs => bs

/-- A value that can be written. -/
def Legal : Value → Prop
  | varint x => x < 2 ^ 64
  | fixed64 bs => bs.length = 8
  | bytes bs => bs.length < 2 ^ 31
  | fixed32 bs => bs.length = 4

end Value

/-- A field. -/
structure Field where
  num : ℕ
  value : Value
deriving DecidableEq, Repr

/-- Some bytes taken off the front, if there are so many. -/
def takeBytes (n : ℕ) (bs : List UInt8) : Option (List UInt8 × List UInt8) :=
  if bs.length < n then none else some (bs.take n, bs.drop n)

theorem takeBytes_append {n : ℕ} {bs : List UInt8} (rest : List UInt8) (h : bs.length = n) :
    takeBytes n (bs ++ rest) = some (bs, rest) := by
  rw [takeBytes, if_neg (by rw [List.length_append]; omega), List.take_left' h,
    List.drop_left' h]

namespace Field

/-- A field on the wire. -/
def encode (f : Field) : List UInt8 :=
  varint 5 (8 * f.num + f.value.wireType) ++ f.value.payload

/-- A field that can be written. -/
structure Legal (f : Field) : Prop where
  pos : 0 < f.num
  num : f.num < 2 ^ 29
  value : f.value.Legal

end Field

/-- The value at the front of some bytes, behind a tag with the wire type `wireType`. -/
def readValue (wireType : ℕ) (bs : List UInt8) : Option (Value × List UInt8) :=
  match wireType with
  | 0 => (readVarint 10 bs).map fun p ↦ (.varint p.1, p.2)
  | 1 => (takeBytes 8 bs).map fun p ↦ (.fixed64 p.1, p.2)
  | 2 => (readVarint 5 bs).bind fun p ↦ (takeBytes p.1 p.2).map fun q ↦ (.bytes q.1, q.2)
  | 5 => (takeBytes 4 bs).map fun p ↦ (.fixed32 p.1, p.2)
  | _ => none

/-- The field at the front of some bytes. -/
def readField (bs : List UInt8) : Option (Field × List UInt8) :=
  (readVarint 5 bs).bind fun p ↦
    if p.1 / 8 = 0 then none
    else (readValue (p.1 % 8) p.2).map fun q ↦ (⟨p.1 / 8, q.1⟩, q.2)

/-- Reading back a value. -/
theorem readValue_payload {v : Value} (h : v.Legal) (rest : List UInt8) :
    readValue v.wireType (v.payload ++ rest) = some (v, rest) := by
  cases v with
  | varint x =>
      have hx : x < 128 ^ 10 := Nat.lt_trans h (by decide)
      simp only [Value.wireType, Value.payload, readValue, readVarint_varint 10 x rest hx
        (by decide), Option.map_some]
  | fixed64 bs =>
      have hbs : bs.length = 8 := h
      simp only [Value.wireType, Value.payload, readValue, takeBytes_append rest hbs,
        Option.map_some]
  | bytes bs =>
      have hbs : bs.length < 128 ^ 5 := Nat.lt_trans h (by decide)
      simp only [Value.wireType, Value.payload, readValue, List.append_assoc,
        readVarint_varint 5 _ (bs ++ rest) hbs (by decide), Option.bind_some,
        takeBytes_append rest rfl, Option.map_some]
  | fixed32 bs =>
      have hbs : bs.length = 4 := h
      simp only [Value.wireType, Value.payload, readValue, takeBytes_append rest hbs,
        Option.map_some]

theorem Value.wireType_lt (v : Value) : v.wireType < 8 := by
  cases v <;> simp [wireType]

/-- Reading back a field. -/
theorem readField_encode {f : Field} (h : f.Legal) (rest : List UInt8) :
    readField (f.encode ++ rest) = some (f, rest) := by
  have hwt := f.value.wireType_lt
  have hpos := h.pos
  have hnum := h.num
  have htag : 8 * f.num + f.value.wireType < 128 ^ 5 := by omega
  have hdiv : (8 * f.num + f.value.wireType) / 8 = f.num := by omega
  have hmod : (8 * f.num + f.value.wireType) % 8 = f.value.wireType := by omega
  rw [readField, Field.encode, List.append_assoc, readVarint_varint 5 _ _ htag (by decide)]
  simp only [Option.bind_some, hdiv, hmod, readValue_payload h.value, Option.map_some]
  rw [if_neg (by omega)]

/-! ## Messages -/

/-- The fields of some bytes, at most `n`, up to the first that is not one, and whether that
is all. -/
def readN : ℕ → List UInt8 → List Field × Bool
  | _, [] => ([], true)
  | 0, _ :: _ => ([], false)
  | n + 1, b :: bs =>
      match readField (b :: bs) with
      | none => ([], false)
      | some (f, rest) => (f :: (readN n rest).1, (readN n rest).2)

/-- The fields of some bytes. -/
def read (bs : List UInt8) : List Field × Bool := readN bs.length bs

/-- Some fields on the wire. -/
def encode (fs : List Field) : List UInt8 := fs.flatMap Field.encode

@[simp] theorem encode_nil : encode [] = [] := rfl

@[simp] theorem encode_cons (f : Field) (fs : List Field) :
    encode (f :: fs) = f.encode ++ encode fs := List.flatMap_cons

@[simp] theorem encode_append (fs gs : List Field) : encode (fs ++ gs) = encode fs ++ encode gs :=
  List.flatMap_append

theorem length_encode_le_mul {n : ℕ} {fs : List Field} (h : ∀ f ∈ fs, f.encode.length ≤ n) :
    (encode fs).length ≤ n * fs.length := by
  induction fs with
  | nil => exact Nat.zero_le _
  | cons f fs ih =>
      have hf := h f List.mem_cons_self
      have hfs := ih fun g hg ↦ h g (List.mem_cons_of_mem f hg)
      rw [encode_cons, List.length_append, List.length_cons, Nat.mul_succ]
      omega

theorem mul_le_length_encode {n : ℕ} {fs : List Field} (h : ∀ f ∈ fs, n ≤ f.encode.length) :
    n * fs.length ≤ (encode fs).length := by
  induction fs with
  | nil => exact Nat.zero_le _
  | cons f fs ih =>
      have hf := h f List.mem_cons_self
      have hfs := ih fun g hg ↦ h g (List.mem_cons_of_mem f hg)
      rw [encode_cons, List.length_append, List.length_cons, Nat.mul_succ]
      omega

theorem Field.length_encode_pos (f : Field) : 0 < f.encode.length := by
  rw [Field.encode, List.length_append]
  exact Nat.add_pos_left (length_varint_pos 4 _) _

/-- Reading back the fields. -/
theorem read_encode {fs : List Field} (h : ∀ f ∈ fs, f.Legal) : read (encode fs) = (fs, true) := by
  suffices key : ∀ n, (encode fs).length ≤ n → readN n (encode fs) = (fs, true) from
    key _ le_rfl
  induction fs with
  | nil =>
      intro n _
      cases n <;> rfl
  | cons f fs ih =>
      intro n hn
      have hf := h f List.mem_cons_self
      have hpos := f.length_encode_pos
      rw [encode_cons, List.length_append] at hn
      obtain ⟨n, rfl⟩ : ∃ m, n = m + 1 := ⟨n - 1, by omega⟩
      obtain ⟨b, bs, hb⟩ := List.exists_cons_of_length_pos
        (show 0 < (f.encode ++ encode fs).length by rw [List.length_append]; omega)
      rw [encode_cons, hb, readN, ← hb, readField_encode hf]
      simp only [ih (fun g hg ↦ h g (List.mem_cons_of_mem f hg)) n (by omega)]

section

variable {M : Type} (merge : M → Field → M × Bool)

/-- Merge some fields, up to the first that fails. -/
def mergeAll : M → List Field → M × Bool
  | m, [] => (m, true)
  | m, f :: fs =>
      if (merge m f).2 then mergeAll (merge m f).1 fs else ((merge m f).1, false)

/-- `ParseFromArray`: what the bytes make of the message `m`, and whether they are well
formed. -/
def parse (m : M) (bs : List UInt8) : M × Bool :=
  ((mergeAll merge m (read bs).1).1, (mergeAll merge m (read bs).1).2 && (read bs).2)

variable {merge} {m m' : M} {fs : List Field}

theorem mergeAll_append (h : mergeAll merge m fs = (m', true)) (gs : List Field) :
    mergeAll merge m (fs ++ gs) = mergeAll merge m' gs := by
  induction fs generalizing m with
  | nil =>
      obtain ⟨rfl, -⟩ := Prod.mk.inj h
      rfl
  | cons f fs ih =>
      rw [mergeAll] at h
      split at h
      · rename_i hf
        rw [List.cons_append, mergeAll, if_pos hf]
        exact ih h
      · cases (Prod.mk.inj h).2

theorem parse_encode (hfs : ∀ f ∈ fs, f.Legal) (h : mergeAll merge m fs = (m', true)) :
    parse merge m (encode fs) = (m', true) := by
  rw [parse, read_encode hfs, h]
  rfl

end

/-! ## The fields of proto3 -/

/-- A `uint32` field, which is left out when it is zero. -/
def uint32Field (num : ℕ) (x : UInt32) : List Field :=
  if x = 0 then [] else [⟨num, .varint x.toNat⟩]

/-- An `int32` field, whose sign is extended to 64 bits. -/
def int32Field (num : ℕ) (x : Int32) : List Field :=
  if x = 0 then [] else [⟨num, .varint x.toInt64.toUInt64.toNat⟩]

/-- A `bool` field. -/
def boolField (num : ℕ) (b : Bool) : List Field := if b then [⟨num, .varint 1⟩] else []

/-- A field that is a message. -/
def messageField (num : ℕ) (fs : List Field) : Field := ⟨num, .bytes (encode fs)⟩

theorem legal_varint {num x : ℕ} (hpos : 0 < num) (hnum : num < 2 ^ 29) (hx : x < 2 ^ 64) :
    ∀ f ∈ [(⟨num, .varint x⟩ : Field)], f.Legal :=
  List.forall_mem_singleton.mpr ⟨hpos, hnum, hx⟩

theorem legal_uint32Field {num : ℕ} (hpos : 0 < num) (hnum : num < 2 ^ 29) (x : UInt32) :
    ∀ f ∈ uint32Field num x, f.Legal := by
  rw [uint32Field]
  split
  · exact List.forall_mem_nil _
  · exact legal_varint hpos hnum (Nat.lt_trans x.toNat_lt (by decide))

theorem legal_int32Field {num : ℕ} (hpos : 0 < num) (hnum : num < 2 ^ 29) (x : Int32) :
    ∀ f ∈ int32Field num x, f.Legal := by
  rw [int32Field]
  split
  · exact List.forall_mem_nil _
  · exact legal_varint hpos hnum x.toInt64.toUInt64.toNat_lt

theorem legal_boolField {num : ℕ} (hpos : 0 < num) (hnum : num < 2 ^ 29) (b : Bool) :
    ∀ f ∈ boolField num b, f.Legal := by
  rw [boolField]
  split
  · exact legal_varint hpos hnum (by decide)
  · exact List.forall_mem_nil _

theorem legal_messageField {num : ℕ} (hpos : 0 < num) (hnum : num < 2 ^ 29) {fs : List Field}
    (h : (encode fs).length < 2 ^ 31) : (messageField num fs).Legal := ⟨hpos, hnum, h⟩

/-- Merging a `uint32` field sets it, when it was zero. -/
theorem mergeAll_uint32Field {M : Type} {merge : M → Field → M × Bool} {m : M} {num : ℕ}
    {x : UInt32} (set : UInt32 → M) (hzero : set 0 = m)
    (hmerge : ∀ n, merge m ⟨num, .varint n⟩ = (set (UInt32.ofNat n), true)) :
    mergeAll merge m (uint32Field num x) = (set x, true) := by
  rw [uint32Field]
  split
  · rename_i hx
    rw [hx, hzero]
    rfl
  · rw [mergeAll, hmerge, if_pos rfl, mergeAll, UInt32.ofNat_toNat]

/-- The low 32 bits of a sign-extended number are the number. -/
theorem toInt32_ofNat_signExtend (x : Int32) :
    (UInt32.ofNat x.toInt64.toUInt64.toNat).toInt32 = x := by
  apply Int32.toBitVec_inj.mp
  have e : (UInt32.ofNat x.toInt64.toUInt64.toNat).toInt32.toBitVec =
      BitVec.ofNat 32 (x.toBitVec.signExtend 64).toNat := rfl
  rw [e]
  apply BitVec.eq_of_toNat_eq
  rw [BitVec.toNat_ofNat, BitVec.toNat_signExtend, BitVec.toNat_setWidth]
  have hx := x.toBitVec.isLt
  split <;> omega

/-- Merging an `int32` field sets it, when it was zero. -/
theorem mergeAll_int32Field {M : Type} {merge : M → Field → M × Bool} {m : M} {num : ℕ}
    {x : Int32} (set : Int32 → M) (hzero : set 0 = m)
    (hmerge : ∀ n, merge m ⟨num, .varint n⟩ = (set (UInt32.ofNat n).toInt32, true)) :
    mergeAll merge m (int32Field num x) = (set x, true) := by
  rw [int32Field]
  split
  · rename_i hx
    rw [hx, hzero]
    rfl
  · rw [mergeAll, hmerge, if_pos rfl, mergeAll, toInt32_ofNat_signExtend]

/-- Merging a `bool` field sets it, when it was false. -/
theorem mergeAll_boolField {M : Type} {merge : M → Field → M × Bool} {m : M} {num : ℕ}
    {b : Bool} (set : Bool → M) (hzero : set false = m)
    (hmerge : ∀ n, merge m ⟨num, .varint n⟩ = (set (n != 0), true)) :
    mergeAll merge m (boolField num b) = (set b, true) := by
  cases b with
  | false =>
      rw [hzero]
      rfl
  | true =>
      rw [boolField, if_pos rfl, mergeAll, hmerge, if_pos rfl]
      rfl

theorem length_encode_varint_le {num k x : ℕ} (h : num < 16) (hx : x < 128 ^ k) (hk : 0 < k) :
    (encode [⟨num, .varint x⟩]).length ≤ k + 1 := by
  have htag : (varint 5 (8 * num + 0)).length ≤ 1 := length_varint_le 5 (by omega) (by decide)
  have hval := length_varint_le 10 hx hk
  simp only [encode_cons, encode_nil, List.append_nil, Field.encode, Value.wireType, Value.payload,
    List.length_append]
  omega

theorem length_uint32Field_le (num : ℕ) (h : num < 16) (x : UInt32) :
    (encode (uint32Field num x)).length ≤ 6 := by
  rw [uint32Field]
  split
  · exact Nat.zero_le _
  · exact length_encode_varint_le h (Nat.lt_trans x.toNat_lt (by decide)) (by decide)

theorem length_int32Field_le (num : ℕ) (h : num < 16) (x : Int32) :
    (encode (int32Field num x)).length ≤ 11 := by
  rw [int32Field]
  split
  · exact Nat.zero_le _
  · exact length_encode_varint_le h (Nat.lt_trans x.toInt64.toUInt64.toNat_lt (by decide))
      (by decide)

theorem length_boolField_le (num : ℕ) (h : num < 16) (b : Bool) :
    (encode (boolField num b)).length ≤ 2 := by
  rw [boolField]
  split
  · exact length_encode_varint_le h (show 1 < 128 ^ 1 by decide) (by decide)
  · exact Nat.zero_le _

end Ylars.Lib.Protobuf
