import LsmKv.Error

/-!
# Records and their encoding

`[seq:8][type:1][key_len:4][key][val_len:4][val]`, all little-endian; `type` is
0 for a put and 1 for a tombstone.

**Results.**
* `Record.decodeAt_encode`: a record that fits its fields is read back at any
  offset of a larger buffer, and the cursor ends behind it.
* `Record.encode_prefix_of_decodeAt`: a put is only ever read where its bytes are.
-/

namespace LsmKv

open Foundation

/-- A single versioned mutation; no value means a tombstone. -/
structure Record where
  key : Bytes
  value : Option Bytes
  seq : Nat
  deriving DecidableEq, Repr

namespace Record

/-- `Record::put`. -/
def put (key value : Bytes) (seq : Nat) : Record := ⟨key, some value, seq⟩

/-- `Record::tombstone`. -/
def tombstone (key : Bytes) (seq : Nat) : Record := ⟨key, none, seq⟩

/-- Length of the value field. -/
def valueLen (r : Record) : Nat := (r.value.map List.length).getD 0

/-- `Record::encoded_len`. -/
def encodedLen (r : Record) : Nat := 8 + 1 + 4 + r.key.length + 4 + r.valueLen

/-- `Record::encode_into`, as the bytes it appends. -/
def encode (r : Record) : Bytes :=
  le 8 r.seq ++
    [if r.value.isSome then 0 else 1] ++
    le 4 r.key.length ++ r.key ++
    match r.value with
    | some v => le 4 v.length ++ v
    | none => le 4 0

end Record

/-- A bounds-checked read of `n` bytes at `pos`: the bytes and the new position.
The record reader and the table index reader differ in the text of the error. -/
def readBytes (truncated : String) (buf : Bytes) (pos n : Nat) : Except Error (Bytes × Nat) :=
  if pos + n ≤ buf.length then .ok ((buf.drop pos).take n, pos + n)
  else .error (.corrupt truncated)

/-- `Reader::bytes`. -/
def Reader.bytes (buf : Bytes) (pos n : Nat) : Except Error (Bytes × Nat) :=
  readBytes "record truncated" buf pos n

/-- `Reader::u8`, `u32` and `u64`: a little-endian field of `w` bytes. -/
def Reader.uint (w : Nat) (buf : Bytes) (pos : Nat) : Except Error (Nat × Nat) := do
  let (b, pos) ← Reader.bytes buf pos w
  return (ofLe b, pos)

/-- `Record::decode_at`: the record at `pos` and the position behind it. -/
def Record.decodeAt (buf : Bytes) (pos : Nat) : Except Error (Record × Nat) := do
  let (seq, p) ← Reader.uint 8 buf pos
  let (kind, p) ← Reader.uint 1 buf p
  let (keyLen, p) ← Reader.uint 4 buf p
  let (key, p) ← Reader.bytes buf p keyLen
  let (valLen, p) ← Reader.uint 4 buf p
  let (val, p) ← Reader.bytes buf p valLen
  match kind with
  | 0 => return (⟨key, some val, seq⟩, p)
  | 1 => return (⟨key, none, seq⟩, p)
  | other => throw (.corrupt ("bad record type " ++ toString other))

/-- A record whose parts fit the fields they are written to. -/
structure Record.Fits (r : Record) : Prop where
  key : r.key.length < 2 ^ 32
  value : r.valueLen < 2 ^ 32
  seq : r.seq < 2 ^ 64

instance (r : Record) : Decidable r.Fits :=
  decidable_of_iff (r.key.length < 2 ^ 32 ∧ r.valueLen < 2 ^ 32 ∧ r.seq < 2 ^ 64)
    ⟨fun h => ⟨h.1, h.2.1, h.2.2⟩, fun h => ⟨h.key, h.value, h.seq⟩⟩

@[simp] theorem Record.length_encode (r : Record) : r.encode.length = r.encodedLen := by
  obtain ⟨key, value, seq⟩ := r
  cases value with
  | none => simp [Record.encode, Record.encodedLen, Record.valueLen]; omega
  | some v => simp [Record.encode, Record.encodedLen, Record.valueLen]; omega

section Cursor

variable {buf b rest : Bytes} {pos : Nat}

/-- The cursor behind the bytes it stood in front of. -/
theorem drop_behind (hd : buf.drop pos = b ++ rest) : buf.drop (pos + b.length) = rest := by
  rw [← List.drop_drop, hd, List.drop_left]

theorem behind_le (hpos : pos ≤ buf.length) (hd : buf.drop pos = b ++ rest) :
    pos + b.length ≤ buf.length := by
  have := congrArg List.length hd
  rw [List.length_drop, List.length_append] at this
  omega

/-- The bytes in front of the cursor are read. -/
theorem readBytes_of_drop (truncated : String) (hpos : pos ≤ buf.length)
    (hd : buf.drop pos = b ++ rest) :
    readBytes truncated buf pos b.length = .ok (b, pos + b.length) := by
  unfold readBytes
  rw [if_pos (behind_le hpos hd), hd, List.take_left]

/-- A field in front of the cursor is read. -/
theorem Reader.uint_of_drop {w n : Nat} (hn : n < 256 ^ w) (hpos : pos ≤ buf.length)
    (hd : buf.drop pos = le w n ++ rest) :
    Reader.uint w buf pos = .ok (n, pos + w) := by
  have h := readBytes_of_drop "record truncated" hpos hd
  rw [length_le] at h
  unfold Reader.uint Reader.bytes
  rw [h]
  simp [bind, Except.bind, pure, Except.pure, ofLe_le hn]

end Cursor

/-- What a computation needs to succeed. -/
theorem bind_eq_ok {ε α β : Type} {x : Except ε α} {f : α → Except ε β} {b : β}
    (h : x >>= f = .ok b) : ∃ a, x = .ok a ∧ f a = .ok b := by
  cases x with
  | error e => cases h
  | ok a => exact ⟨a, rfl, h⟩

/-- What was read stood in front of the cursor. -/
theorem readBytes_eq_ok {truncated : String} {buf b : Bytes} {pos n p : Nat}
    (h : readBytes truncated buf pos n = .ok (b, p)) :
    b <+: buf.drop pos ∧ b.length = n ∧ p = pos + n := by
  unfold readBytes at h
  split_ifs at h with hle
  cases h
  refine ⟨List.take_prefix _ _, ?_, rfl⟩
  rw [List.length_take, List.length_drop]
  omega

theorem readBytes_le {truncated : String} {buf b : Bytes} {pos n p : Nat}
    (h : readBytes truncated buf pos n = .ok (b, p)) : p ≤ buf.length := by
  unfold readBytes at h
  split_ifs at h with hle
  cases h
  exact hle

theorem Reader.uint_eq_ok {w : Nat} {buf : Bytes} {pos n p : Nat}
    (h : Reader.uint w buf pos = .ok (n, p)) :
    le w n <+: buf.drop pos ∧ p = pos + w := by
  obtain ⟨⟨b, q⟩, hb, hn⟩ := bind_eq_ok h
  obtain ⟨hpre, hlen, hq⟩ := readBytes_eq_ok hb
  cases hn
  exact ⟨by rw [← hlen, le_ofLe]; exact hpre, hq⟩

/-- Two pieces of a buffer, one behind the other. -/
theorem prefix_append {a b buf : Bytes} {pos n : Nat} (ha : a <+: buf.drop pos)
    (hn : a.length = n) (hb : b <+: buf.drop (pos + n)) : a ++ b <+: buf.drop pos := by
  subst hn
  obtain ⟨t, ht⟩ := ha
  rw [← List.drop_drop, ← ht, List.drop_left] at hb
  rw [← ht]
  exact (List.prefix_append_right_inj a).mpr hb

/-- The bytes of a record, field by field. -/
theorem Record.encode_eq (r : Record) :
    r.encode = le 8 r.seq ++ (le 1 (if r.value.isSome then 0 else 1) ++
      (le 4 r.key.length ++ (r.key ++ (le 4 r.valueLen ++ r.value.getD [])))) := by
  cases hv : r.value with
  | none => simp [Record.encode, Record.valueLen, hv, le]
  | some v => simp [Record.encode, Record.valueLen, hv, le]

/-- Where the length of the key stands. -/
theorem Record.keyField (r : Record) (rest : Bytes) :
    ((r.encode ++ rest).drop 9).take 4 = le 4 r.key.length := by
  rw [r.encode_eq]
  simp only [List.append_assoc]
  rw [show 9 = 8 + 1 from rfl, ← List.drop_drop, List.drop_left' (length_le _ _),
    List.drop_left' (length_le _ _), List.take_left' (length_le _ _)]

/-- A record in front of the cursor is read back. -/
theorem Record.decodeAt_of_drop {r : Record} (hr : r.Fits) {buf rest : Bytes} {pos : Nat}
    (hpos : pos ≤ buf.length) (hd : buf.drop pos = r.encode ++ rest) :
    Record.decodeAt buf pos = .ok (r, pos + r.encodedLen) := by
  have hk : r.key.length < 256 ^ 4 := by have := hr.key; norm_num at this ⊢; omega
  have hv : r.valueLen < 256 ^ 4 := by have := hr.value; norm_num at this ⊢; omega
  have hs : r.seq < 256 ^ 8 := by have := hr.seq; norm_num at this ⊢; omega
  have ht : (if r.value.isSome then 0 else 1) < 256 ^ 1 := by split_ifs <;> norm_num
  have hval : (r.value.getD []).length = r.valueLen := by
    cases h : r.value <;> simp [Record.valueLen, h]
  rw [r.encode_eq] at hd
  simp only [List.append_assoc] at hd
  -- one cursor fact per field
  have d1 := drop_behind hd
  have p1 := behind_le hpos hd
  have d2 := drop_behind d1
  have p2 := behind_le p1 d1
  have d3 := drop_behind d2
  have p3 := behind_le p2 d2
  have d4 := drop_behind d3
  have p4 := behind_le p3 d3
  have d5 := drop_behind d4
  have p5 := behind_le p4 d4
  simp only [length_le] at d1 p1 d2 p2 d3 p3 d4 p4 d5 p5
  have f4 := readBytes_of_drop "record truncated" p3 d3
  have f6 := readBytes_of_drop "record truncated" p5 d5
  rw [hval] at f6
  unfold Record.decodeAt Reader.bytes
  rw [Reader.uint_of_drop hs hpos hd]
  simp only [bind, Except.bind, pure, Except.pure]
  rw [Reader.uint_of_drop ht p1 d1]
  simp only
  rw [Reader.uint_of_drop hk p2 d2]
  simp only
  rw [f4]
  simp only
  rw [Reader.uint_of_drop hv p4 d4]
  simp only
  rw [f6]
  have hlen : pos + 8 + 1 + 4 + r.key.length + 4 + r.valueLen = pos + r.encodedLen := by
    simp only [Record.encodedLen]
    omega
  simp only [hlen]
  obtain ⟨key, value, seq⟩ := r
  cases value <;> rfl

/-- A put that is read stands in front of the cursor as it is written. -/
theorem Record.encode_prefix_of_decodeAt {key value : Bytes} {seq pos p : Nat} {buf : Bytes}
    (h : Record.decodeAt buf pos = .ok (Record.put key value seq, p)) :
    (Record.put key value seq).encode <+: buf.drop pos := by
  unfold Record.decodeAt at h
  obtain ⟨⟨n₁, p₁⟩, h₁, h⟩ := bind_eq_ok h
  obtain ⟨⟨n₂, p₂⟩, h₂, h⟩ := bind_eq_ok h
  obtain ⟨⟨n₃, p₃⟩, h₃, h⟩ := bind_eq_ok h
  obtain ⟨⟨b₄, p₄⟩, h₄, h⟩ := bind_eq_ok h
  obtain ⟨⟨n₅, p₅⟩, h₅, h⟩ := bind_eq_ok h
  obtain ⟨⟨b₆, p₆⟩, h₆, h⟩ := bind_eq_ok h
  obtain ⟨c₁, rfl⟩ := Reader.uint_eq_ok h₁
  obtain ⟨c₂, rfl⟩ := Reader.uint_eq_ok h₂
  obtain ⟨c₃, rfl⟩ := Reader.uint_eq_ok h₃
  obtain ⟨c₄, l₄, rfl⟩ := readBytes_eq_ok h₄
  obtain ⟨c₅, rfl⟩ := Reader.uint_eq_ok h₅
  obtain ⟨c₆, l₆, rfl⟩ := readBytes_eq_ok h₆
  -- a tombstone or a bad type byte gives no put
  have hkind : n₂ = 0 ∧ b₄ = key ∧ b₆ = value ∧ n₁ = seq := by
    simp only at h
    split at h
    · cases h
      exact ⟨rfl, rfl, rfl, rfl⟩
    · cases h
    · cases h
  obtain ⟨rfl, rfl, rfl, rfl⟩ := hkind
  subst l₄ l₆
  rw [Record.encode_eq]
  have hvl : (Record.put b₄ b₆ n₁).valueLen = b₆.length := rfl
  simp only [Record.put, Option.isSome_some, if_true, Option.getD_some] at hvl ⊢
  rw [hvl]
  -- from the last field to the first
  have e₅ := prefix_append c₅ (length_le _ _) c₆
  have e₄ := prefix_append c₄ rfl e₅
  have e₃ := prefix_append c₃ (length_le _ _) e₄
  have e₂ := prefix_append c₂ (length_le _ _) e₃
  exact prefix_append c₁ (length_le _ _) e₂

/-- A record that fits its fields is read back at any offset of a buffer. -/
theorem Record.decodeAt_encode {r : Record} (hr : r.Fits) (front rest : Bytes) :
    Record.decodeAt (front ++ r.encode ++ rest) front.length =
      .ok (r, front.length + r.encodedLen) := by
  have hd : (front ++ r.encode ++ rest).drop front.length = r.encode ++ rest := by
    rw [List.append_assoc, List.drop_left]
  exact Record.decodeAt_of_drop hr (by simp) hd

end LsmKv
