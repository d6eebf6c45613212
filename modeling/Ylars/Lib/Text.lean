import Mathlib.Data.List.TakeWhile
import Ylars.Lib.LittleEndian

/-!
# Numbers and addresses as text

`atoi` reads a decimal number, `inetNtoa` writes an address as four decimal octets, and
`inetAton` reads one in any of the forms that it allows: one to four numbers with dots
between them, each of them decimal, octal or hexadecimal, of which the last one fills the
octets that are left.  An address is a word in network byte order, whose bytes in memory are
its octets from left to right; `htonl` brings a number into this order on a little-endian
machine.
-/

namespace Ylars.Lib.Text

/-! ## Decimal numbers -/

/-- `isspace`. -/
def isSpace (c : Char) : Bool := c.toNat == 32 || (9 ≤ c.toNat && c.toNat ≤ 13)

/-- The number that the leading decimal digits make, zero if there is none. -/
def leadingDigits (s : List Char) : ℕ := Nat.ofDigitChars 10 (s.takeWhile Char.isDigit) 0

/-- The number at the start of a text, behind white space and a sign. -/
def leadingInt (s : List Char) : Int :=
  match s.dropWhile isSpace with
  | '-' :: ds => -leadingDigits ds
  | '+' :: ds => leadingDigits ds
  | ds => leadingDigits ds

/-- `LONG_MAX`. -/
def longMax : Int := 9223372036854775807

/-- `strtol` with base 10, which saturates. -/
def strtol (s : String) : Int := max (-longMax - 1) (min (leadingInt s.toList) longMax)

/-- `atoi`: the low 32 bits, as a signed number. -/
def atoi (s : String) : Int32 := Int32.ofInt (strtol s)

/-- A digit is neither a space nor a sign. -/
theorem isDigit_sound {c : Char} (h : c.isDigit) : isSpace c = false ∧ c ≠ '-' ∧ c ≠ '+' := by
  have hc : 48 ≤ c.toNat := by
    simp only [Char.isDigit, Bool.and_eq_true, decide_eq_true_eq] at h
    exact h.1
  refine ⟨?_, ?_, ?_⟩
  · simp only [isSpace, Bool.or_eq_false_iff, beq_eq_false_iff_ne, Bool.and_eq_false_iff,
      decide_eq_false_iff_not]
    omega
  · rintro rfl
    exact absurd hc (by decide)
  · rintro rfl
    exact absurd hc (by decide)

/-- The digits of a number make the number. -/
theorem leadingInt_toDigits (n : ℕ) : leadingInt (Nat.toDigits 10 n) = n := by
  have hdigit : ∀ c ∈ Nat.toDigits 10 n, c.isDigit := fun c hc ↦
    Nat.isDigit_of_mem_toDigits (by decide) (by decide) hc
  have hdrop : (Nat.toDigits 10 n).dropWhile isSpace = Nat.toDigits 10 n := by
    cases hd : Nat.toDigits 10 n with
    | nil => rfl
    | cons c cs =>
        rw [List.dropWhile_cons, (isDigit_sound (hdigit c (hd ▸ List.mem_cons_self))).1]
        rfl
  have hlead : leadingDigits (Nat.toDigits 10 n) = n := by
    rw [leadingDigits, List.takeWhile_eq_self_iff.mpr hdigit, Nat.ofDigitChars_ten_toDigits]
  unfold leadingInt
  rw [hdrop]
  split
  · rename_i hd
    exact absurd rfl (isDigit_sound (hdigit '-' (hd ▸ List.mem_cons_self))).2.1
  · rename_i hd
    exact absurd rfl (isDigit_sound (hdigit '+' (hd ▸ List.mem_cons_self))).2.2
  · rw [hlead]

theorem strtol_repr {n : ℕ} (h : n < 2 ^ 63) : strtol n.repr = n := by
  rw [strtol, Nat.toList_repr, leadingInt_toDigits, longMax]
  omega

/-- `atoi` gives the bits of an unsigned word back as a signed number. -/
theorem atoi_repr (x : UInt32) : atoi x.toNat.repr = x.toInt32 := by
  have hx := x.toNat_lt
  rw [atoi, strtol_repr (by omega), Int32.ofInt_eq_ofNat]
  apply Int32.toBitVec_inj.mp
  simp

/-! ## Byte order -/

/-- `htonl` and `ntohl`: the bytes in the opposite order. -/
def htonl (x : UInt32) : UInt32 :=
  UInt32.ofNat (LittleEndian.ofBytes (LittleEndian.toBytes 4 x.toNat).reverse)

theorem toBytes_ofNat_ofBytes {bs : List UInt8} (h : bs.length = 4) :
    LittleEndian.toBytes 4 (UInt32.ofNat (LittleEndian.ofBytes bs)).toNat = bs := by
  have hlt := LittleEndian.ofBytes_lt bs
  have hinv := LittleEndian.toBytes_ofBytes bs
  rw [h] at hlt hinv
  rw [UInt32.toNat_ofNat_of_lt' (by simpa using hlt), hinv]

theorem ofNat_ofBytes_toBytes (x : UInt32) :
    UInt32.ofNat (LittleEndian.ofBytes (LittleEndian.toBytes 4 x.toNat)) = x := by
  rw [LittleEndian.ofBytes_toBytes 4 _ (by have := x.toNat_lt; omega), UInt32.ofNat_toNat]

theorem toBytes_htonl (x : UInt32) :
    LittleEndian.toBytes 4 (htonl x).toNat = (LittleEndian.toBytes 4 x.toNat).reverse :=
  toBytes_ofNat_ofBytes (by simp)

@[simp] theorem htonl_htonl (x : UInt32) : htonl (htonl x) = x := by
  rw [htonl, toBytes_htonl, List.reverse_reverse, ofNat_ofBytes_toBytes]

/-! ## Addresses -/

/-- Octets with dots between them. -/
def dotted (octets : List UInt8) : String :=
  ".".intercalate (octets.map fun b ↦ b.toNat.repr)

/-- `inet_ntoa`. -/
def inetNtoa (addr : UInt32) : String := dotted (LittleEndian.toBytes 4 addr.toNat)

/-- The text of an address, its high octet first. -/
def dottedQuad (ip : UInt32) : String := dotted (LittleEndian.toBytes 4 ip.toNat).reverse

/-- The value of a hexadecimal digit. -/
def hexDigit (c : Char) : Option ℕ :=
  if c.isDigit then some (c.toNat - 48)
  else if 'a' ≤ c ∧ c ≤ 'f' then some (c.toNat - 87)
  else if 'A' ≤ c ∧ c ≤ 'F' then some (c.toNat - 55)
  else none

/-- A hexadecimal number. -/
def hexNumber (ds : List Char) : Option ℕ :=
  if ds = [] then none else (ds.mapM hexDigit).map fun ns ↦ ns.foldl (fun n d ↦ 16 * n + d) 0

/-- An octal number, `0` for no digit. -/
def octalNumber (ds : List Char) : Option ℕ :=
  if ds.all fun c ↦ '0' ≤ c ∧ c ≤ '7' then some (Nat.ofDigitChars 8 ds 0) else none

/-- A decimal number. -/
def decimalNumber (ds : List Char) : Option ℕ :=
  if ds = [] then none
  else if ds.all Char.isDigit then some (Nat.ofDigitChars 10 ds 0) else none

/-- A number in a base that its first characters tell. -/
def readNumber : List Char → Option ℕ
  | '0' :: 'x' :: ds => hexNumber ds
  | '0' :: 'X' :: ds => hexNumber ds
  | '0' :: ds => octalNumber ds
  | ds => decimalNumber ds

/-- The octets of an address that has been read as `init` and `last`. -/
def fillOctets (init : List ℕ) (last : ℕ) : Option (List UInt8) :=
  if init.length < 4 ∧ (∀ n ∈ init, n < 256) ∧ last < 256 ^ (4 - init.length) then
    some (init.map UInt8.ofNat ++ (LittleEndian.toBytes (4 - init.length) last).reverse)
  else none

/-- The octets of an address, from the numbers between its dots. -/
def addressOctets (parts : List ℕ) : Option (List UInt8) :=
  match parts.getLast? with
  | none => none
  | some last => fillOctets parts.dropLast last

/-- `inet_aton`: the address, `none` where it returns 0.  What follows a space is ignored. -/
def inetAton (s : String) : Option UInt32 :=
  let parts := (s.toList.takeWhile fun c ↦ !isSpace c).splitOn '.'
  ((parts.mapM readNumber).bind addressOctets).map fun octets ↦
    UInt32.ofNat (LittleEndian.ofBytes octets)

theorem readNumber_octet (b : UInt8) : readNumber (Nat.toDigits 10 b.toNat) = some b.toNat := by
  have key : ∀ n < 256, readNumber (Nat.toDigits 10 n) = some n := by decide +kernel
  exact key _ b.toNat_lt

theorem isDigit_of_mem_octet {b : UInt8} {c : Char} (h : c ∈ Nat.toDigits 10 b.toNat) :
    c.isDigit := Nat.isDigit_of_mem_toDigits (by decide) (by decide) h

theorem toList_dotted (octets : List UInt8) :
    (dotted octets).toList = ['.'].intercalate (octets.map fun b ↦ Nat.toDigits 10 b.toNat) := by
  rw [dotted, String.toList_intercalate, List.map_map]
  congr 1
  exact List.map_congr_left fun b _ ↦ Nat.toList_repr

/-- A character of a joined list is the separator or of one of its parts. -/
theorem mem_intercalate_singleton {α : Type} {x c : α} {ls : List (List α)}
    (h : c ∈ [x].intercalate ls) : c = x ∨ ∃ l ∈ ls, c ∈ l := by
  induction ls with
  | nil => cases h
  | cons l ls ih =>
      cases ls with
      | nil =>
          rw [List.intercalate_singleton] at h
          exact .inr ⟨l, List.mem_cons_self, h⟩
      | cons l' ls =>
          rw [List.intercalate_cons_cons, List.append_assoc] at h
          rcases List.mem_append.mp h with h | h
          · exact .inr ⟨l, List.mem_cons_self, h⟩
          · rcases List.mem_append.mp h with h | h
            · exact .inl (List.mem_singleton.mp h)
            · exact (ih h).imp_right fun ⟨l₁, hl₁, hc⟩ ↦ ⟨l₁, List.mem_cons_of_mem l hl₁, hc⟩

theorem addressOctets_map {octets : List UInt8} (h : octets.length = 4) :
    addressOctets (octets.map UInt8.toNat) = some octets := by
  obtain ⟨init, last, rfl⟩ : ∃ init last, octets = init ++ [last] :=
    (List.eq_nil_or_concat' octets).resolve_left fun e ↦ by simp [e] at h
  have hinit : init.length = 3 := by simpa using h
  have hlast : LittleEndian.toBytes 1 last.toNat = [last] :=
    congrArg (· :: []) UInt8.ofNat_toNat
  have hmap : (init.map UInt8.toNat).map UInt8.ofNat = init := by
    rw [List.map_map]
    exact (List.map_congr_left fun b _ ↦ UInt8.ofNat_toNat).trans (List.map_id init)
  have hfits : (init.map UInt8.toNat).length < 4 ∧ (∀ n ∈ init.map UInt8.toNat, n < 256) ∧
      last.toNat < 256 ^ (4 - (init.map UInt8.toNat).length) := by
    rw [List.length_map, hinit]
    refine ⟨by decide, fun n hn ↦ ?_, last.toNat_lt⟩
    obtain ⟨b, -, rfl⟩ := List.mem_map.mp hn
    exact b.toNat_lt
  have hfill : fillOctets (init.map UInt8.toNat) last.toNat = some (init ++ [last]) := by
    rw [fillOctets, if_pos hfits, hmap, List.length_map, hinit, hlast]
    rfl
  simpa [addressOctets] using hfill

/-- Reading back the octets of an address. -/
theorem inetAton_dotted {octets : List UInt8} (h : octets.length = 4) :
    inetAton (dotted octets) = some (UInt32.ofNat (LittleEndian.ofBytes octets)) := by
  have hspace : (dotted octets).toList.takeWhile (fun c ↦ !isSpace c) = (dotted octets).toList := by
    refine List.takeWhile_eq_self_iff.mpr fun c hc ↦ ?_
    rw [toList_dotted] at hc
    rcases mem_intercalate_singleton hc with rfl | ⟨l, hl, hc⟩
    · rfl
    · obtain ⟨b, -, rfl⟩ := List.mem_map.mp hl
      rw [(isDigit_sound (isDigit_of_mem_octet hc)).1]
      rfl
  have hsplit : (dotted octets).toList.splitOn '.' =
      octets.map fun b ↦ Nat.toDigits 10 b.toNat := by
    rw [toList_dotted]
    refine List.splitOn_intercalate '.' (fun l hl hdot ↦ ?_) fun e ↦ ?_
    · obtain ⟨b, -, rfl⟩ := List.mem_map.mp hl
      exact absurd (isDigit_of_mem_octet hdot) (by decide)
    · rw [List.map_eq_nil_iff.mp e] at h
      cases h
  have hread : (octets.map fun b ↦ Nat.toDigits 10 b.toNat).mapM readNumber =
      some (octets.map UInt8.toNat) := by
    rw [List.mapM_map]
    have hfun : (readNumber ∘ fun b : UInt8 ↦ Nat.toDigits 10 b.toNat) =
        fun b ↦ some b.toNat := funext readNumber_octet
    rw [hfun]
    exact List.mapM_pure
  rw [inetAton, hspace, hsplit, hread, Option.bind_some, addressOctets_map h, Option.map_some]

/-- **`inet_aton` undoes `inet_ntoa`.** -/
theorem inetAton_inetNtoa (addr : UInt32) : inetAton (inetNtoa addr) = some addr := by
  rw [inetNtoa, inetAton_dotted (by simp), ofNat_ofBytes_toBytes]

theorem inetNtoa_htonl (ip : UInt32) : inetNtoa (htonl ip) = dottedQuad ip := by
  rw [inetNtoa, toBytes_htonl, dottedQuad]

theorem dottedQuad_inj {a b : UInt32} (h : dottedQuad a = dottedQuad b) : a = b := by
  rw [← inetNtoa_htonl, ← inetNtoa_htonl] at h
  have haddr := congrArg inetAton h
  rw [inetAton_inetNtoa, inetAton_inetNtoa] at haddr
  rw [← htonl_htonl a, Option.some.inj haddr, htonl_htonl]

/-- The other forms of an address. -/
example : inetAton "0x7f.1" = some (htonl 0x7f000001) ∧ inetAton "010.0.0.256" = none := by
  decide +kernel

end Ylars.Lib.Text
