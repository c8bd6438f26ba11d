import Mathlib

/-! # Machine words and their big-endian bytes

Byte strings are compared lexicographically, first byte first.  Big-endian
encodings of one width are the ones whose byte order is the numeric order, so
a store that sorts raw keys also sorts the numbers written into them.
-/

instance UInt8.instLinearOrder : LinearOrder UInt8 where
  le_refl := UInt8.le_refl
  le_trans _ _ _ := UInt8.le_trans
  le_antisymm _ _ := UInt8.le_antisymm
  le_total := UInt8.le_total
  lt_iff_le_not_ge a b := by
    rw [UInt8.lt_iff_toNat_lt, UInt8.le_iff_toNat_le, UInt8.le_iff_toNat_le]
    omega
  toDecidableLE := inferInstance
  toDecidableEq := inferInstance
  toDecidableLT := inferInstance

instance UInt64.instLinearOrder : LinearOrder UInt64 where
  le_refl := UInt64.le_refl
  le_trans _ _ _ := UInt64.le_trans
  le_antisymm _ _ := UInt64.le_antisymm
  le_total := UInt64.le_total
  lt_iff_le_not_ge a b := by
    rw [UInt64.lt_iff_toNat_lt, UInt64.le_iff_toNat_le, UInt64.le_iff_toNat_le]
    omega
  toDecidableLE := inferInstance
  toDecidableEq := inferInstance
  toDecidableLT := inferInstance

/-- A raw key or value of a byte store. -/
abbrev Bytes := List UInt8

/-- Between strings of one length the comparison ends before what follows them. -/
theorem Bytes.append_lt {a b c d : Bytes} (sizes : a.length = b.length) (less : a < b) :
    a ++ c < b ++ d := by
  induction a generalizing b with
  | nil =>
      have : b = [] := List.length_eq_zero_iff.mp sizes.symm
      simp [this] at less
  | cons x a ih =>
      cases b with
      | nil => simp at sizes
      | cons y b =>
          rw [List.cons_append, List.cons_append, List.cons_lt_cons_iff]
          rcases List.cons_lt_cons_iff.mp less with first | ⟨same, rest⟩
          · exact .inl first
          · exact .inr ⟨same, ih (by simpa using sizes) rest⟩

namespace BigEndian

/-- The `w` big-endian bytes of `n`, most significant first. -/
def encode : (w n : Nat) → Bytes
  | 0, _ => []
  | w + 1, n => UInt8.ofNat (n / 256 ^ w) :: encode w (n % 256 ^ w)

/-- The number written in a big-endian byte string. -/
def decode : Bytes → Nat
  | [] => 0
  | b :: bs => b.toNat * 256 ^ bs.length + decode bs

@[simp] theorem length_encode (w n : Nat) : (encode w n).length = w := by
  induction w generalizing n with
  | zero => rfl
  | succ w ih => simp only [encode, List.length_cons, ih]

private theorem top_byte {w n : Nat} (small : n < 256 ^ (w + 1)) :
    (UInt8.ofNat (n / 256 ^ w)).toNat = n / 256 ^ w := by
  have : n / 256 ^ w < 256 := by
    apply Nat.div_lt_of_lt_mul
    rwa [pow_succ] at small
  exact UInt8.toNat_ofNat_of_lt' this

theorem decode_encode {w n : Nat} (small : n < 256 ^ w) : decode (encode w n) = n := by
  induction w generalizing n with
  | zero =>
      simp only [pow_zero, Nat.lt_one_iff] at small
      simp only [encode, decode, small]
  | succ w ih =>
      have rest : n % 256 ^ w < 256 ^ w := Nat.mod_lt _ (Nat.pow_pos (by decide))
      simp only [encode, decode, length_encode, ih rest, top_byte small]
      exact Nat.div_add_mod' n (256 ^ w)

/-- Bytes of one width compare as the numbers they write. -/
theorem encode_lt_encode {w a b : Nat} (ha : a < 256 ^ w) (hb : b < 256 ^ w) :
    encode w a < encode w b ↔ a < b := by
  induction w generalizing a b with
  | zero =>
      simp only [pow_zero, Nat.lt_one_iff] at ha hb
      simp only [encode, ha, hb, lt_self_iff_false]
  | succ w ih =>
      have pos : 0 < 256 ^ w := Nat.pow_pos (by decide)
      have remA := Nat.mod_lt a pos
      have remB := Nat.mod_lt b pos
      have splitA := Nat.div_add_mod a (256 ^ w)
      have splitB := Nat.div_add_mod b (256 ^ w)
      rw [encode, encode, List.cons_lt_cons_iff, ih remA remB, UInt8.lt_iff_toNat_lt,
        ← UInt8.toNat_inj, top_byte ha, top_byte hb]
      constructor
      · rintro (quotient | ⟨same, rest⟩)
        · exact Nat.lt_of_div_lt_div quotient
        · rw [← splitA, ← splitB, same]
          omega
      · intro less
        rcases Nat.lt_or_eq_of_le (Nat.div_le_div_right (c := 256 ^ w) less.le) with quotient | same
        · exact .inl quotient
        · refine .inr ⟨same, ?_⟩
          rw [← splitA, ← splitB, same] at less
          omega

end BigEndian

namespace UInt64

/-- `u64::to_be_bytes`. -/
def toBeBytes (x : UInt64) : Bytes := BigEndian.encode 8 x.toNat

/-- `u64::from_be_bytes`, on the eight bytes it is given. -/
def fromBeBytes (bs : Bytes) : UInt64 := UInt64.ofNat (BigEndian.decode bs)

private theorem toNat_small (x : UInt64) : x.toNat < 256 ^ 8 := x.toNat_lt

@[simp] theorem length_toBeBytes (x : UInt64) : x.toBeBytes.length = 8 :=
  BigEndian.length_encode 8 x.toNat

@[simp] theorem fromBeBytes_toBeBytes (x : UInt64) : fromBeBytes x.toBeBytes = x := by
  simp only [fromBeBytes, toBeBytes, BigEndian.decode_encode x.toNat_small, UInt64.ofNat_toNat]

theorem toBeBytes_strictMono : StrictMono toBeBytes := by
  intro a b less
  exact (BigEndian.encode_lt_encode a.toNat_small b.toNat_small).mpr
    (UInt64.lt_iff_toNat_lt.mp less)

theorem toBeBytes_injective : Function.Injective toBeBytes :=
  toBeBytes_strictMono.injective

end UInt64

namespace Int64

/-- `i64::to_be_bytes`: the bytes of the two's-complement word. -/
def toBeBytes (x : Int64) : Bytes := x.toUInt64.toBeBytes

/-- `i64::from_be_bytes`, on the eight bytes it is given. -/
def fromBeBytes (bs : Bytes) : Int64 := (UInt64.fromBeBytes bs).toInt64

@[simp] theorem length_toBeBytes (x : Int64) : x.toBeBytes.length = 8 :=
  UInt64.length_toBeBytes x.toUInt64

@[simp] theorem fromBeBytes_toBeBytes (x : Int64) : fromBeBytes x.toBeBytes = x := by
  simp only [fromBeBytes, toBeBytes, UInt64.fromBeBytes_toBeBytes]
  rfl

end Int64

/-! ## When words compute integers -/

theorem UInt64.toInt_toInt64 (x : UInt64) : x.toInt64.toInt = (x.toNat : Int).bmod (2 ^ 64) :=
  BitVec.toInt_eq_toNat_bmod x.toBitVec

theorem UInt64.toInt64_exact (x : UInt64) : x.toInt64.toInt = x.toNat ↔ x.toNat < 2 ^ 63 := by
  constructor
  · intro same
    have bound := x.toInt64.toInt_lt
    omega
  · intro small
    rw [UInt64.toInt_toInt64]
    exact Int.bmod_eq_of_le (by omega) (by omega)

/-- A word that is not negative is read the same with and without a sign. -/
theorem Int64.toInt_of_nonneg {x : Int64} (nonneg : 0 ≤ x) : x.toInt = x.toUInt64.toNat := by
  have signed : x.toInt = (x.toUInt64.toNat : Int).bmod (2 ^ 64) := x.toUInt64.toInt_toInt64
  have above : 0 ≤ x.toInt := Int64.le_iff_toInt_le.mp nonneg
  have below := x.toUInt64.toNat_lt
  rw [Int.bmod_def] at signed
  split_ifs at signed <;> omega

theorem Int64.toUInt64_lt_of_nonneg {x y : Int64} (nonneg : 0 ≤ x) (nonneg' : 0 ≤ y) :
    x.toUInt64 < y.toUInt64 ↔ x < y := by
  rw [UInt64.lt_iff_toNat_lt, Int64.lt_iff_toInt_lt, Int64.toInt_of_nonneg nonneg,
    Int64.toInt_of_nonneg nonneg', Nat.cast_lt]

theorem Int64.toUInt64_injective : Function.Injective Int64.toUInt64 :=
  Function.LeftInverse.injective Int64.toInt64_toUInt64

theorem Int64.sub_exact (a b : Int64) : (a - b).toInt = a.toInt - b.toInt ↔
    -2 ^ 63 ≤ a.toInt - b.toInt ∧ a.toInt - b.toInt < 2 ^ 63 := by
  constructor
  · intro same
    have below := (a - b).toInt_lt
    have above := (a - b).le_toInt
    omega
  · rintro ⟨above, below⟩
    rw [Int64.toInt_sub]
    exact Int.bmod_eq_of_le (by omega) (by omega)

theorem Int64.mul_exact (a b : Int64) : (a * b).toInt = a.toInt * b.toInt ↔
    -2 ^ 63 ≤ a.toInt * b.toInt ∧ a.toInt * b.toInt < 2 ^ 63 := by
  constructor
  · intro same
    have below := (a * b).toInt_lt
    have above := (a * b).le_toInt
    omega
  · rintro ⟨above, below⟩
    rw [Int64.toInt_mul]
    exact Int.bmod_eq_of_le (by omega) (by omega)

namespace String

/-- The UTF-8 bytes of a string, as `str::as_bytes` gives them. -/
def utf8 (s : String) : Bytes := s.toByteArray.data.toList

/-- `String::from_utf8`: the string whose bytes these are, when they are valid. -/
def ofUtf8 (bs : Bytes) : Option String := String.fromUTF8? ⟨bs.toArray⟩

@[simp] theorem ofUtf8_utf8 (s : String) : ofUtf8 s.utf8 = some s := by
  change String.fromUTF8? s.toByteArray = some s
  simp only [String.fromUTF8?, dif_pos s.isValidUTF8]
  rfl

theorem utf8_injective : Function.Injective utf8 := by
  intro a b same
  have decoded := congrArg ofUtf8 same
  simpa using decoded

end String
