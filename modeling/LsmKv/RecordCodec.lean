import LsmKv.Record

/-!
# Decoding records in place

`Record.decodeMoving` is `decode_at` with its two cursors: the reader, which is moved
field by field and stays where a failing read left it, and the caller's position, which
is only set at the end.

**Results.**
* `Record.decodeMoving_eq`: it returns what `Record.decodeAt` does, and moves the
  position only then.
* `record_codec`: concatenated encodings decode one after another, whatever stands
  around them; a failure leaves the position, a success moves it on inside the buffer.
-/

namespace LsmKv

open Foundation

/-- `record::Reader`: a place in a buffer. -/
structure Reader where
  buf : Bytes
  pos : Nat
  deriving DecidableEq, Repr

/-- A method of the reader; what it moved stays moved when it fails. -/
abbrev ReaderM := ExceptT Error (StateM Reader)

/-- `Reader::bytes`. -/
def Reader.next (n : Nat) : ReaderM Bytes := do
  let r ← get
  if r.pos + n ≤ r.buf.length then
    set { r with pos := r.pos + n }
    return (r.buf.drop r.pos).take n
  else throw (.corrupt "record truncated")

/-- `Reader::u8`, `u32` and `u64`. -/
def Reader.field (w : Nat) : ReaderM Nat := do
  let b ← Reader.next w
  return ofLe b

namespace Record

/-- The body of `Record::decode_at`, on its reader. -/
def read : ReaderM Record := do
  let seq ← Reader.field 8
  let kind ← Reader.field 1
  let keyLen ← Reader.field 4
  let key ← Reader.next keyLen
  let valLen ← Reader.field 4
  let val ← Reader.next valLen
  match kind with
  | 0 => return ⟨key, some val, seq⟩
  | 1 => return ⟨key, none, seq⟩
  | other => throw (.corrupt ("bad record type " ++ toString other))

/-- `Record::decode_at`: what it returns, and where it leaves `pos`. -/
def decodeMoving (buf : Bytes) (pos : Nat) : Except Error Record × Nat :=
  match read.run.run ⟨buf, pos⟩ with
  | (.ok record, r) => (.ok record, r.pos)
  | (.error e, _) => (.error e, pos)

/-- `count` records, one after another, up to the first failure. -/
def decodeRun : Nat → Bytes → Nat → Except Error (List Record) × Nat
  | 0, _, pos => (.ok [], pos)
  | count + 1, buf, pos =>
      match decodeMoving buf pos with
      | (.error e, pos) => (.error e, pos)
      | (.ok r, pos) =>
          match decodeRun count buf pos with
          | (.error e, pos) => (.error e, pos)
          | (.ok rs, pos) => (.ok (r :: rs), pos)

end Record

section Follows

variable {α β : Type}

/-- A method of the reader does what a function of the position does; where that fails,
the reader may be anywhere. -/
def Follows (m : ReaderM α) (f : Bytes → Nat → Except Error (α × Nat)) : Prop :=
  ∀ buf pos,
    (∃ a p, f buf pos = .ok (a, p) ∧ m.run.run ⟨buf, pos⟩ = (.ok a, ⟨buf, p⟩)) ∨
      ∃ e r, f buf pos = .error e ∧ m.run.run ⟨buf, pos⟩ = (.error e, r)

theorem follows_pure (a : α) : Follows (pure a) (fun _ pos => .ok (a, pos)) :=
  fun _ pos => Or.inl ⟨a, pos, rfl, rfl⟩

theorem follows_throw (e : Error) :
    Follows (throw e : ReaderM α) (fun _ _ => .error e) :=
  fun _ _ => Or.inr ⟨e, _, rfl, rfl⟩

theorem Follows.bind {m : ReaderM α} {f : Bytes → Nat → Except Error (α × Nat)}
    {k : α → ReaderM β} {g : α → Bytes → Nat → Except Error (β × Nat)} (hm : Follows m f)
    (hk : ∀ a, Follows (k a) (g a)) :
    Follows (m >>= k) (fun buf pos => f buf pos >>= fun ap => g ap.1 buf ap.2) := by
  intro buf pos
  rcases hm buf pos with ⟨a, p, hf, hrun⟩ | ⟨e, r, hf, hrun⟩
  · have hstep : (m >>= k).run.run ⟨buf, pos⟩ = (k a).run.run ⟨buf, p⟩ := by
      rw [ExceptT.run_bind, StateT.run_bind, hrun]
      rfl
    have hg : (f buf pos >>= fun ap => g ap.1 buf ap.2) = g a buf p := by
      rw [hf]
      rfl
    simp only [hstep, hg]
    exact hk a buf p
  · refine Or.inr ⟨e, r, by simp only [hf]; rfl, ?_⟩
    rw [ExceptT.run_bind, StateT.run_bind, hrun]
    rfl

theorem follows_next (n : Nat) :
    Follows (Reader.next n) (fun buf pos => Reader.bytes buf pos n) := by
  intro buf pos
  unfold Reader.bytes readBytes
  by_cases h : pos + n ≤ buf.length
  · refine Or.inl ⟨_, _, if_pos h, ?_⟩
    show (ExceptT.run (if pos + n ≤ buf.length then _ else _) : StateM Reader _) ⟨buf, pos⟩ = _
    rw [if_pos h]
    rfl
  · refine Or.inr ⟨_, ⟨buf, pos⟩, if_neg h, ?_⟩
    show (ExceptT.run (if pos + n ≤ buf.length then _ else _) : StateM Reader _) ⟨buf, pos⟩ = _
    rw [if_neg h]
    rfl

theorem follows_field (w : Nat) : Follows (Reader.field w) (Reader.uint w) :=
  (follows_next w).bind fun b => follows_pure (ofLe b)

/-- The last step of `decode_at`: the type byte decides what the record is. -/
theorem follows_kind (key val : Bytes) (seq kind : Nat) :
    Follows
      (match kind with
        | 0 => return ⟨key, some val, seq⟩
        | 1 => return ⟨key, none, seq⟩
        | other => throw (.corrupt ("bad record type " ++ toString other)) : ReaderM Record)
      (fun _ pos =>
        match kind with
        | 0 => return (⟨key, some val, seq⟩, pos)
        | 1 => return (⟨key, none, seq⟩, pos)
        | other => throw (.corrupt ("bad record type " ++ toString other))) := by
  match kind with
  | 0 => exact follows_pure _
  | 1 => exact follows_pure _
  | kind + 2 => exact follows_throw _

/-- The body of `decode_at` on its reader is the function of the position. -/
theorem follows_read : Follows Record.read Record.decodeAt :=
  (follows_field 8).bind fun seq => (follows_field 1).bind fun kind =>
    (follows_field 4).bind fun keyLen => (follows_next keyLen).bind fun key =>
      (follows_field 4).bind fun valLen => (follows_next valLen).bind fun val =>
        follows_kind key val seq kind

end Follows

namespace Record

variable {buf : Bytes} {pos p : Nat} {r : Record}

/-- What `decode_at` returns and where it leaves the position. -/
theorem decodeMoving_eq (buf : Bytes) (pos : Nat) :
    decodeMoving buf pos =
      match decodeAt buf pos with
      | .ok (r, p) => (.ok r, p)
      | .error e => (.error e, pos) := by
  unfold decodeMoving
  rcases follows_read buf pos with ⟨r, p, hf, hrun⟩ | ⟨e, r, hf, hrun⟩
  · rw [hrun, hf]
  · rw [hrun, hf]

/-- A record that is read stands inside the buffer, in no fewer bytes than it encodes to. -/
theorem decodeAt_bounds (h : decodeAt buf pos = .ok (r, p)) :
    pos + r.encodedLen ≤ p ∧ p ≤ buf.length := by
  unfold decodeAt at h
  obtain ⟨⟨n₁, p₁⟩, h₁, h⟩ := bind_eq_ok h
  obtain ⟨⟨n₂, p₂⟩, h₂, h⟩ := bind_eq_ok h
  obtain ⟨⟨n₃, p₃⟩, h₃, h⟩ := bind_eq_ok h
  obtain ⟨⟨b₄, p₄⟩, h₄, h⟩ := bind_eq_ok h
  obtain ⟨⟨n₅, p₅⟩, h₅, h⟩ := bind_eq_ok h
  obtain ⟨⟨b₆, p₆⟩, h₆, h⟩ := bind_eq_ok h
  have hr : p₆ = p ∧ r.key = b₄ ∧ r.valueLen ≤ b₆.length := by
    simp only at h
    split at h
    · cases h
      exact ⟨rfl, rfl, le_rfl⟩
    · cases h
      exact ⟨rfl, rfl, Nat.zero_le _⟩
    · cases h
  have hend := readBytes_le h₆
  obtain ⟨_, e₁⟩ := Reader.uint_eq_ok h₁
  obtain ⟨_, e₂⟩ := Reader.uint_eq_ok h₂
  obtain ⟨_, e₃⟩ := Reader.uint_eq_ok h₃
  obtain ⟨_, hkey, e₄⟩ := readBytes_eq_ok h₄
  obtain ⟨_, e₅⟩ := Reader.uint_eq_ok h₅
  obtain ⟨_, hval, e₆⟩ := readBytes_eq_ok h₆
  rw [encodedLen, hr.2.1]
  omega

/-- Records in front of the cursor are read back, one after another. -/
theorem decodeRun_of_drop {rs : List Record} {rest : Bytes} (hfits : ∀ r ∈ rs, r.Fits)
    (hpos : pos ≤ buf.length) (hd : buf.drop pos = rs.flatMap encode ++ rest) :
    decodeRun rs.length buf pos = (.ok rs, pos + (rs.flatMap encode).length) := by
  induction rs generalizing pos with
  | nil => rfl
  | cons r rs ih =>
      rw [List.flatMap_cons, List.append_assoc] at hd
      have hhere := decodeAt_of_drop (hfits r (by simp)) hpos hd
      have hrest := ih (fun x hx => hfits x (List.mem_cons_of_mem _ hx)) (behind_le hpos hd)
        (drop_behind hd)
      rw [length_encode] at hrest
      simp only [List.length_cons, decodeRun, decodeMoving_eq, hhere, hrest]
      rw [List.flatMap_cons, List.length_append, length_encode, Nat.add_assoc]

/-- Concatenated encodings decode uniquely. -/
theorem flatMap_encode_inj {rs rs' : List Record} (hfits : ∀ r ∈ rs, r.Fits)
    (hfits' : ∀ r ∈ rs', r.Fits) (h : rs.flatMap encode = rs'.flatMap encode) : rs = rs' := by
  have hlong : ∀ (r : Record) (l : List Record), (r :: l).flatMap encode ≠ [] := by
    intro r l hnil
    have := congrArg List.length hnil
    rw [List.flatMap_cons, List.length_append, length_encode, List.length_nil] at this
    simp only [encodedLen] at this
    omega
  induction rs generalizing rs' with
  | nil =>
      cases rs' with
      | nil => rfl
      | cons r' rs' => exact absurd h.symm (hlong r' rs')
  | cons r rs ih =>
      cases rs' with
      | nil => exact absurd h (hlong r rs)
      | cons r' rs' =>
          rw [List.flatMap_cons, List.flatMap_cons] at h
          have hhere := decodeAt_encode (hfits r (by simp)) [] (rs.flatMap encode)
          have hthere := decodeAt_encode (hfits' r' (by simp)) [] (rs'.flatMap encode)
          rw [List.nil_append, h] at hhere
          rw [List.nil_append, hhere] at hthere
          have hr : r = r' := by
            cases hthere
            rfl
          subst hr
          rw [ih (fun x hx => hfits x (List.mem_cons_of_mem _ hx))
            (fun x hx => hfits' x (List.mem_cons_of_mem _ hx)) (List.append_cancel_left h)]

end Record

/-- Encoded records decode one after another at the end of any bytes and in front of any
others, each moving the position by its encoded length and the last one to the bytes
behind them; so equal encodings are of equal records.  A failing decode leaves the position,
a successful one moves it by 17 at least and not past the end. -/
theorem record_codec :
    (∀ (rs : List Record) (front rest : Bytes), (∀ r ∈ rs, r.Fits) →
      (∀ a r b, rs = a ++ r :: b →
        Record.decodeMoving (front ++ rs.flatMap Record.encode ++ rest)
            (front.length + (a.flatMap Record.encode).length) =
          (.ok r, front.length + (a.flatMap Record.encode).length + r.encodedLen)) ∧
      Record.decodeRun rs.length (front ++ rs.flatMap Record.encode ++ rest) front.length =
        (.ok rs, front.length + (rs.flatMap Record.encode).length) ∧
      (front ++ rs.flatMap Record.encode ++ rest).drop
        (front.length + (rs.flatMap Record.encode).length) = rest ∧
      ∀ rs' : List Record, (∀ r ∈ rs', r.Fits) →
        rs.flatMap Record.encode = rs'.flatMap Record.encode → rs = rs') ∧
    ∀ buf pos,
      (∀ e p, Record.decodeMoving buf pos = (.error e, p) → p = pos) ∧
      ∀ r p, Record.decodeMoving buf pos = (.ok r, p) → pos + 17 ≤ p ∧ p ≤ buf.length := by
  refine ⟨fun rs front rest hfits => ⟨?_, ?_, ?_, ?_⟩, fun buf pos => ⟨?_, ?_⟩⟩
  · rintro a r b rfl
    have hsplit : front ++ (a ++ r :: b).flatMap Record.encode ++ rest =
        (front ++ a.flatMap Record.encode) ++ r.encode ++ (b.flatMap Record.encode ++ rest) := by
      simp
    have hr := Record.decodeAt_encode (hfits r (by simp)) (front ++ a.flatMap Record.encode)
      (b.flatMap Record.encode ++ rest)
    rw [List.length_append] at hr
    rw [Record.decodeMoving_eq, hsplit, hr]
  · have hd : (front ++ rs.flatMap Record.encode ++ rest).drop front.length =
        rs.flatMap Record.encode ++ rest := by
      rw [List.append_assoc, List.drop_left]
    exact Record.decodeRun_of_drop hfits (by simp) hd
  · rw [← List.length_append, List.drop_left]
  · exact fun rs' hfits' h => Record.flatMap_encode_inj hfits hfits' h
  · intro e p h
    rw [Record.decodeMoving_eq] at h
    split at h
    · cases h
    · exact (Prod.mk.inj h).2.symm
  · intro r p h
    rw [Record.decodeMoving_eq] at h
    split at h
    · rename_i hok
      cases h
      have hbounds := Record.decodeAt_bounds hok
      rw [Record.encodedLen] at hbounds
      omega
    · cases h

/-- A put and a tombstone between other bytes. -/
theorem record_codec_two :
    Record.decodeRun 2 ([7] ++ [Record.put [1] [2, 3] 5, Record.tombstone [1] 4].flatMap
        Record.encode ++ [8, 9]) 1 =
      (.ok [Record.put [1] [2, 3] 5, Record.tombstone [1] 4], 39) :=
  (record_codec.1 [Record.put [1] [2, 3] 5, Record.tombstone [1] 4] [7] [8, 9] (by decide)).2.1

end LsmKv
