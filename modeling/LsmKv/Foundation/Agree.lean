import LsmKv.Foundation.Volume

/-!
# What an operation leaves alone

`SameExcept ps v v'` says that `v'` binds every name outside `ps` to the same
inode as `v`, with the same contents, and that a file which at most linked names
are bound to is not written.  Specifications of operations that write a few files
are stated with it.

**Results.**  One lemma per operation of a volume, and the composition rule
`SameExcept.trans`.  `truncateAt` is the truncating open of a name that may or
may not be bound.
-/

namespace LsmKv
namespace Foundation
namespace Volume

variable {ν : Type} [DecidableEq ν]

/-- The last sync of its directory found the name as it is now. -/
def Covered (v : Volume ν) (p : ν) : Prop := v.settled p = v.lookup p

/-- A sync of a directory covers its names. -/
theorem covered_syncNames {v : Volume ν} {p : ν} {d : ν → Bool} (hp : d p = true) :
    (v.syncNames d).Covered p := by
  unfold Covered
  rw [settled_syncNames, if_pos hp]
  rfl

section SameExcept

variable [Shares ν] {v v₁ v₂ : Volume ν} {ps qs : List ν} {p q : ν} {i : Nat}

/-- No name that is written through is bound to the file: it has linked names, or
none at all. -/
structure Still (v : Volume ν) (i : Nat) : Prop where
  below : i < v.fresh
  names : ∀ {r}, v.lookup r = some i → Shares.may r

/-- Names outside `ps` are bound as before, to the same contents. -/
structure SameExcept (ps : List ν) (v v' : Volume ν) : Prop where
  names : ∀ r, r ∉ ps → v'.lookup r = v.lookup r
  files : ∀ r, r ∉ ps → v'.file r = v.file r
  sound : v.Sound → v'.Sound
  still : ∀ i, v.Still i → v'.Still i ∧ v'.inodes i = v.inodes i
  covered : ∀ r, r ∉ ps → v.Covered r → v'.Covered r

theorem SameExcept.refl (ps : List ν) (v : Volume ν) : SameExcept ps v v :=
  ⟨fun _ _ => rfl, fun _ _ => rfl, id, fun _ h => ⟨h, rfl⟩, fun _ _ h => h⟩

theorem SameExcept.mono (h : SameExcept ps v v₁) (hsub : ps ⊆ qs) : SameExcept qs v v₁ :=
  ⟨fun r hr => h.names r (fun hp => hr (hsub hp)), fun r hr => h.files r (fun hp => hr (hsub hp)),
    h.sound, h.still, fun r hr => h.covered r (fun hp => hr (hsub hp))⟩

theorem SameExcept.trans (h₁ : SameExcept ps v v₁) (h₂ : SameExcept ps v₁ v₂) :
    SameExcept ps v v₂ :=
  ⟨fun r hr => (h₂.names r hr).trans (h₁.names r hr),
    fun r hr => (h₂.files r hr).trans (h₁.files r hr), fun hs => h₂.sound (h₁.sound hs),
    fun i hi => ⟨(h₂.still i (h₁.still i hi).1).1,
      (h₂.still i (h₁.still i hi).1).2.trans (h₁.still i hi).2⟩,
    fun r hr hc => h₂.covered r hr (h₁.covered r hr hc)⟩

/-- A bound name outside `ps` keeps its inode. -/
theorem SameExcept.inode (h : SameExcept ps v v₁) (hp : p ∉ ps) (hl : v.lookup p = some i) :
    v₁.lookup p = some i ∧ v₁.inodes i = v.inodes i := by
  have hl₁ := (h.names p hp).trans hl
  refine ⟨hl₁, ?_⟩
  have hf := h.files p hp
  rw [file_of_lookup hl, file_of_lookup hl₁] at hf
  exact Option.some.inj hf

theorem sameExcept_modify (hs : v.Sound) (hne : ¬ Shares.may p) (hp : v.lookup p = some i)
    {f : Inode → Inode}
    (hf : (f (v.inodes i)).synced ≤ (f (v.inodes i)).bytes.length) :
    SameExcept [p] v (v.modify i f) := by
  refine ⟨fun r _ => rfl, fun r hr => ?_, fun hs => hs.modify hf, fun j hj => ⟨?_, ?_⟩,
    fun _ _ hc => hc⟩
  · rw [file_modify_of_lookup hs hne hp, if_neg (by simpa using hr)]
  · exact ⟨hj.below, hj.names⟩
  · rw [inodes_modify, if_neg]
    rintro rfl
    exact hne (hj.names hp)

theorem sameExcept_append (hs : v.Sound) (hne : ¬ Shares.may p) (hp : v.lookup p = some i)
    (b : Bytes) : SameExcept [p] v (v.append i b) :=
  sameExcept_modify hs hne hp (by
    have := hs.durable i
    simp only [List.length_append]
    omega)

theorem sameExcept_sync (hs : v.Sound) (hne : ¬ Shares.may p) (hp : v.lookup p = some i) :
    SameExcept [p] v (v.sync i) := sameExcept_modify hs hne hp (by simp)

theorem sameExcept_create (hs : v.Sound) : SameExcept [p] v (v.create p) := by
  refine ⟨fun r hr => ?_, fun r hr => ?_, Sound.create, fun j hj => ⟨⟨?_, ?_⟩, ?_⟩,
    fun r hr hc => ?_⟩
  · rw [lookup_create, if_neg (by simpa using hr)]
  · rw [file_create hs, if_neg (by simpa using hr)]
  · exact lt_trans hj.below (Nat.lt_succ_self _)
  · intro r hr
    rw [lookup_create] at hr
    split_ifs at hr
    · cases hr
      exact absurd hj.below (lt_irrefl _)
    · exact hj.names hr
  · rw [inodes_create, if_neg (ne_of_lt hj.below)]
  · unfold Covered at hc ⊢
    rw [lookup_create, if_neg (by simpa using hr), ← hc]
    rfl

theorem sameExcept_rename (hne : ¬ Shares.may p) (hp : v.lookup p = some i) :
    SameExcept [p, q] v (v.rename p q) := by
  have hname : ∀ r, r ∉ [p, q] → (v.rename p q).lookup r = v.lookup r := by
    intro r hr
    simp only [List.mem_cons, List.not_mem_nil, or_false, not_or] at hr
    rw [lookup_rename v p q r i hp, if_neg hr.2, if_neg hr.1]
  refine ⟨hname, fun r hr => ?_, fun hs => hs.rename hne, fun j hj => ⟨⟨?_, ?_⟩, ?_⟩,
    fun r hr hc => ?_⟩
  · simp only [List.mem_cons, List.not_mem_nil, or_false, not_or] at hr
    rw [file_rename hp, if_neg hr.2, if_neg hr.1]
  · rw [fresh_rename]
    exact hj.below
  · intro r hr
    rw [lookup_rename v p q r i hp] at hr
    split_ifs at hr
    · cases hr
      exact absurd (hj.names hp) hne
    · exact hj.names hr
  · rw [inodes_rename]
  · unfold Covered at hc ⊢
    rw [hname r hr, ← hc, settled_rename]

theorem sameExcept_remove : SameExcept [p] v (v.remove p) := by
  refine ⟨fun r hr => ?_, fun r hr => ?_, Sound.remove, fun j hj => ⟨⟨hj.below, ?_⟩, rfl⟩,
    fun r hr hc => ?_⟩
  · rw [lookup_remove, if_neg (by simpa using hr)]
  · rw [file_remove, if_neg (by simpa using hr)]
  · intro r hr
    rw [lookup_remove] at hr
    split_ifs at hr
    exact hj.names hr
  · unfold Covered at hc ⊢
    rw [lookup_remove, if_neg (by simpa using hr), ← hc]
    rfl

theorem sameExcept_syncNames (ps : List ν) (d : ν → Bool) : SameExcept ps v (v.syncNames d) :=
  ⟨fun _ _ => rfl, fun _ _ => rfl, fun hs => hs.syncNames d,
    fun _ hi => ⟨⟨hi.below, hi.names⟩, rfl⟩,
    fun r _ hc => by
      unfold Covered at hc ⊢
      rw [settled_syncNames]
      split_ifs
      · rfl
      · exact hc⟩

/-- A settled name that another file is renamed to is not settled. -/
theorem not_covered_rename (hs : v.Sound) (hne : ¬ Shares.may p) (hp : v.lookup p = some i)
    (hpq : q ≠ p) (hq : v.Covered q) : ¬ (v.rename p q).Covered q := by
  intro hcov
  unfold Covered at hq hcov
  rw [settled_rename, lookup_rename v p q q i hp, if_pos rfl, hq] at hcov
  exact hpq (hs.alone hne hp hcov)

end SameExcept

/-- The inode a truncating open of `p` returns. -/
def inodeAt (v : Volume ν) (p : ν) : Nat := (v.lookup p).getD v.fresh

/-- The effect of a truncating open of `p`. -/
def truncateAt (v : Volume ν) (p : ν) : Volume ν :=
  match v.lookup p with
  | some i => v.truncate i
  | none => v.create p

section TruncateAt

variable {v : Volume ν} {p : ν}

theorem lookup_truncateAt (v : Volume ν) (p : ν) :
    (v.truncateAt p).lookup p = some (v.inodeAt p) := by
  unfold truncateAt inodeAt
  cases h : v.lookup p with
  | none => simp
  | some i => simpa using h

theorem inodes_truncateAt (v : Volume ν) (p : ν) :
    (v.truncateAt p).inodes (v.inodeAt p) = ⟨[], 0⟩ := by
  unfold truncateAt inodeAt
  cases h : v.lookup p with
  | none => simp
  | some i => simp

theorem sameExcept_truncateAt [Shares ν] (hs : v.Sound) (hne : ¬ Shares.may p) :
    SameExcept [p] v (v.truncateAt p) := by
  unfold truncateAt
  cases h : v.lookup p with
  | none => exact sameExcept_create hs
  | some i => exact sameExcept_modify hs hne h (by simp)

end TruncateAt

section Bound

variable {v : Volume ν} {p : ν} {i : Nat} {b b' : Bytes} {n : Nat}

/-- `p` is bound to inode `i`, with bytes `b` of which `n` are durable. -/
structure Bound (v : Volume ν) (p : ν) (i : Nat) (b : Bytes) (n : Nat) : Prop where
  name : v.lookup p = some i
  inode : v.inodes i = ⟨b, n⟩

theorem Bound.file (h : v.Bound p i b n) : v.file p = some ⟨b, n⟩ := by
  rw [file_of_lookup h.name, h.inode]

theorem Bound.append (h : v.Bound p i b n) (b' : Bytes) :
    (v.append i b').Bound p i (b ++ b') n :=
  ⟨h.name, by rw [inodes_append, if_pos rfl, h.inode]⟩

theorem Bound.sync (h : v.Bound p i b n) : (v.sync i).Bound p i b b.length :=
  ⟨h.name, by rw [inodes_sync, if_pos rfl, h.inode]⟩

theorem Bound.syncNames (h : v.Bound p i b n) (d : ν → Bool) :
    (v.syncNames d).Bound p i b n := ⟨h.name, h.inode⟩

theorem Bound.rename {q : ν} (h : v.Bound p i b n) : (v.rename p q).Bound q i b n :=
  ⟨by rw [lookup_rename v p q q i h.name, if_pos rfl], by rw [inodes_rename]; exact h.inode⟩

theorem bound_truncateAt (v : Volume ν) (p : ν) :
    (v.truncateAt p).Bound p (v.inodeAt p) [] 0 :=
  ⟨lookup_truncateAt v p, inodes_truncateAt v p⟩

/-- A name an operation leaves alone stays bound as it was. -/
theorem Bound.same [Shares ν] {v' : Volume ν} {ps : List ν} (h : v.Bound p i b n)
    (hs : SameExcept ps v v') (hp : p ∉ ps) : v'.Bound p i b n :=
  ⟨(hs.inode hp h.name).1, (hs.inode hp h.name).2.trans h.inode⟩

theorem Bound.unique {j m : Nat} (h : v.Bound p i b n) (h' : v.Bound p j b' m) :
    i = j ∧ b = b' ∧ n = m := by
  have hij : i = j := Option.some.inj (h.name.symm.trans h'.name)
  subst hij
  have := h.inode.symm.trans h'.inode
  cases this
  exact ⟨rfl, rfl, rfl⟩

/-- After a crash a file keeps its durable part and some of the rest. -/
theorem Bound.crash (h : v.Bound p i b n) (keep : Nat → Nat) :
    ∃ m, n ≤ m ∧ (v.crash keep).Bound p i (b.take m) (b.take m).length :=
  ⟨max n (keep i), le_max_left _ _, h.name, by simp [Volume.crash, h.inode]⟩

/-- A file that is durable as a whole survives a crash. -/
theorem Bound.crash_synced (h : v.Bound p i b n) (hn : b.length ≤ n) (keep : Nat → Nat) :
    (v.crash keep).Bound p i b b.length := by
  obtain ⟨m, hm, hb⟩ := h.crash keep
  rw [List.take_of_length_le (le_trans hn hm)] at hb
  exact hb

/-- The volumes of an append on the way: some initial part of it is there. -/
structure Appending [Shares ν] (v₀ : Volume ν) (p : ν) (i : Nat) (b : Bytes) (n : Nat)
    (more : Bytes) (v : Volume ν) : Prop where
  same : SameExcept [p] v₀ v
  part : ∃ k n', n ≤ n' ∧ v.Bound p i (b ++ more.take k) n'

end Bound

end Volume
end Foundation
end LsmKv
