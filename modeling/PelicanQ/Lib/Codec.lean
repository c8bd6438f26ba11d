import PelicanQ.Lib.Words

/-! # Serializers

A `Codec` is what a storage layer relies on: reading back what was written
gives the value written.  A `Wire` is the compositional form, whose reader
stops exactly where its writer stopped; wires for the parts of a record make a
wire for the record.  Integers have a fixed width and are little-endian,
sequences carry a 64-bit count, options a tag byte.
-/

/-- A serializer and its deserializer, with the text of a failed read. -/
structure Codec (α : Type) where
  encode : α → Bytes
  decode : Bytes → Except String α
  decode_encode : ∀ a, decode (encode a) = .ok a

theorem Codec.encode_injective {α : Type} (c : Codec α) : Function.Injective c.encode := by
  intro a b same
  have decoded := c.decode_encode a
  rw [same, c.decode_encode] at decoded
  exact (Except.ok.inj decoded).symm

/-- A reader that consumes exactly what the writer produced. -/
structure Wire (α : Type) where
  write : α → Bytes
  read : Bytes → Except String (α × Bytes)
  read_write : ∀ a rest, read (write a ++ rest) = .ok (a, rest)

namespace Wire

variable {α β : Type}

/-- Read one value and ignore whatever follows it. -/
def toCodec (w : Wire α) : Codec α where
  encode := w.write
  decode bytes := (w.read bytes).map Prod.fst
  decode_encode a := by
    have whole := w.read_write a []
    rw [List.append_nil] at whole
    rw [whole]
    rfl

/-- Carry a wire along a bijection. -/
def imap (w : Wire α) (forth : α → β) (back : β → α) (inverse : ∀ b, forth (back b) = b) : Wire β where
  write b := w.write (back b)
  read bytes := (w.read bytes).map fun (a, rest) => (forth a, rest)
  read_write b rest := by
    rw [w.read_write]
    simp only [Except.map, inverse]

def pair (wa : Wire α) (wb : Wire β) : Wire (α × β) where
  write p := wa.write p.1 ++ wb.write p.2
  read bytes := do
    let (a, bytes) ← wa.read bytes
    let (b, bytes) ← wb.read bytes
    pure ((a, b), bytes)
  read_write p rest := by
    simp only [List.append_assoc, wa.read_write, wb.read_write, bind, Except.bind, pure, Except.pure]

def byte : Wire UInt8 where
  write b := [b]
  read
    | [] => .error "unexpected end of input"
    | b :: rest => .ok (b, rest)
  read_write _ _ := rfl

/-- The `w` little-endian bytes of a number that fits them. -/
def fixed (w : Nat) : Wire (Fin (256 ^ w)) where
  write n := (BigEndian.encode w n).reverse
  read bytes :=
    if w ≤ bytes.length then
      .ok (Fin.ofNat (256 ^ w) (BigEndian.decode (bytes.take w).reverse), bytes.drop w)
    else .error "unexpected end of input"
  read_write n rest := by
    have size : (BigEndian.encode w n).reverse.length = w := by simp
    have enough : w ≤ ((BigEndian.encode w n).reverse ++ rest).length := by
      rw [List.length_append, size]
      omega
    rw [if_pos enough, List.take_left' size, List.drop_left' size, List.reverse_reverse,
      BigEndian.decode_encode n.isLt]
    simp only [Fin.ofNat, Nat.mod_eq_of_lt n.isLt]

def u32 : Wire UInt32 :=
  (fixed 4).imap (fun n => UInt32.ofNatLT n.val n.isLt) (fun x => ⟨x.toNat, x.toNat_lt⟩)
    UInt32.ofNatLT_toNat

def u64 : Wire UInt64 :=
  (fixed 8).imap (fun n => UInt64.ofNatLT n.val n.isLt) (fun x => ⟨x.toNat, x.toNat_lt⟩)
    UInt64.ofNatLT_toNat

def i64 : Wire Int64 :=
  u64.imap UInt64.toInt64 Int64.toUInt64 fun _ => rfl

def option (w : Wire α) : Wire (Option α) where
  write
    | none => [0]
    | some a => 1 :: w.write a
  read
    | 0 :: rest => .ok (none, rest)
    | 1 :: rest => (w.read rest).map fun (a, rest) => (some a, rest)
    | _ => .error "invalid option tag"
  read_write a rest := by
    cases a with
    | none => rfl
    | some a => simp only [List.cons_append, w.read_write, Except.map]

/-- A run of ones ended by a zero. -/
private def readUnary : Bytes → Except String (Nat × Bytes)
  | [] => .error "unexpected end of input"
  | b :: rest =>
      if b = 0 then .ok (0, rest) else (readUnary rest).map fun (n, rest) => (n + 1, rest)

private theorem readUnary_replicate (n : Nat) (rest : Bytes) :
    readUnary (List.replicate n 1 ++ 0 :: rest) = .ok (n, rest) := by
  induction n with
  | zero => rfl
  | succ n ih => simp [List.replicate_succ, readUnary, ih, Except.map]

/-- A count of `w` bytes below `escape`, which itself marks a unary count. -/
private def count (w : Nat) (escape : Fin (256 ^ w)) : Wire Nat where
  write n :=
    if small : n < escape.val then (fixed w).write ⟨n, small.trans escape.isLt⟩
    else (fixed w).write escape ++ (List.replicate n 1 ++ [0])
  read bytes := do
    let (n, bytes) ← (fixed w).read bytes
    if n.val < escape.val then pure (n.val, bytes) else readUnary bytes
  read_write n rest := by
    split_ifs with small
    · simp only [(fixed w).read_write, bind, Except.bind, small, if_true, pure, Except.pure]
    · have unary := readUnary_replicate n rest
      simp only [List.append_assoc, (fixed w).read_write, bind, Except.bind, lt_self_iff_false,
        if_false, List.singleton_append, unary]

/-- A sequence length as a 64-bit count.  No sequence in memory is as long as
    the largest count; it marks the lengths that need more than 64 bits, which
    exist here only because lists are unbounded. -/
def length : Wire Nat := count 8 ⟨18446744073709551615, by norm_num⟩

private def readMany (w : Wire α) : Nat → Bytes → Except String (List α × Bytes)
  | 0, bytes => .ok ([], bytes)
  | n + 1, bytes => do
      let (a, bytes) ← w.read bytes
      let (as, bytes) ← readMany w n bytes
      pure (a :: as, bytes)

private theorem readMany_flatMap (w : Wire α) (as : List α) (rest : Bytes) :
    readMany w as.length (as.flatMap w.write ++ rest) = .ok (as, rest) := by
  induction as with
  | nil => rfl
  | cons a as ih =>
      simp only [List.flatMap_cons, List.length_cons, readMany, List.append_assoc, w.read_write,
        bind, Except.bind, ih, pure, Except.pure]

def list (w : Wire α) : Wire (List α) where
  write as := length.write as.length ++ as.flatMap w.write
  read bytes := do
    let (n, bytes) ← length.read bytes
    readMany w n bytes
  read_write as rest := by
    simp only [List.append_assoc, length.read_write, bind, Except.bind, readMany_flatMap]

def string : Wire String where
  write s := (list byte).write s.utf8
  read bytes := do
    let (raw, bytes) ← (list byte).read bytes
    match String.ofUtf8 raw with
    | some s => pure (s, bytes)
    | none => .error "invalid utf-8"
  read_write s rest := by
    simp only [(list byte).read_write, bind, Except.bind, String.ofUtf8_utf8, pure, Except.pure]

end Wire
