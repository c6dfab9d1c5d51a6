import LsmKv.Foundation.Bytes
import Mathlib.Data.List.AList

/-!
# A volume that can lose power

A volume binds names to inodes.  An inode holds the bytes appended so far and
the length of the part a sync has made durable.  Name operations take effect
in order and at once; a crash keeps every name and cuts each inode's unsynced
bytes at an arbitrary place (`crash`).  An open descriptor is an inode number,
so it follows a renamed file and survives the removal of its name.

`settled` remembers the names as the last sync of their directory found them.

**Results.**  The effect of every operation on `lookup` and on `file`, the
inode a name is bound to.  `Sound` is the invariant of all of them: descriptors
are below `fresh`, only names that may be linked share an inode, and the durable
part is a part.
-/

namespace LsmKv
namespace Foundation

/-- Bytes of a file and the length of their durable part. -/
structure Inode where
  bytes : Bytes
  synced : Nat
  deriving DecidableEq, Repr

/-- Names, inodes, and the next unused inode number. -/
structure Volume (ν : Type) [DecidableEq ν] where
  entries : AList (fun _ : ν => Nat)
  inodes : Nat → Inode
  fresh : Nat
  settled : ν → Option Nat

namespace Volume

variable {ν : Type} [DecidableEq ν]

/-- A volume without files. -/
def empty : Volume ν := ⟨∅, fun _ => ⟨[], 0⟩, 0, fun _ => none⟩

/-- The inode number a name is bound to. -/
def lookup (v : Volume ν) (p : ν) : Option Nat := v.entries.lookup p

/-- The inode a name is bound to. -/
def file (v : Volume ν) (p : ν) : Option Inode := (v.lookup p).map v.inodes

/-- Every bound name, in no particular order. -/
def names (v : Volume ν) : List ν := v.entries.keys

/-- Change one inode. -/
def modify (v : Volume ν) (i : Nat) (f : Inode → Inode) : Volume ν :=
  { v with inodes := fun j => if j = i then f (v.inodes i) else v.inodes j }

/-- Append to an open file. -/
def append (v : Volume ν) (i : Nat) (b : Bytes) : Volume ν :=
  v.modify i (fun x => { x with bytes := x.bytes ++ b })

/-- Make everything written to an open file durable. -/
def sync (v : Volume ν) (i : Nat) : Volume ν :=
  v.modify i (fun x => { x with synced := x.bytes.length })

/-- Cut an open file to nothing. -/
def truncate (v : Volume ν) (i : Nat) : Volume ν :=
  v.modify i (fun _ => ⟨[], 0⟩)

/-- Bind a name to a new empty file. -/
def create (v : Volume ν) (p : ν) : Volume ν :=
  { v with
    entries := v.entries.insert p v.fresh
    inodes := fun j => if j = v.fresh then ⟨[], 0⟩ else v.inodes j
    fresh := v.fresh + 1 }

/-- Rebind `q` to the file of `p` and drop the name `p`. -/
def rename (v : Volume ν) (p q : ν) : Volume ν :=
  match v.lookup p with
  | none => v
  | some i => { v with entries := (v.entries.erase p).insert q i }

/-- Drop a name. -/
def remove (v : Volume ν) (p : ν) : Volume ν :=
  { v with entries := v.entries.erase p }

/-- Bind a second name to the file of `p`. -/
def link (v : Volume ν) (p q : ν) : Volume ν :=
  match v.lookup p with
  | none => v
  | some i => { v with entries := v.entries.insert q i }

/-- Settle the names of a directory. -/
def syncNames (v : Volume ν) (inDir : ν → Bool) : Volume ν :=
  { v with settled := fun p => if inDir p then v.lookup p else v.settled p }

/-- Loss of power: inode `i` keeps its durable part and at most `keep i` bytes
in all. -/
def crash (v : Volume ν) (keep : Nat → Nat) : Volume ν :=
  { v with
    inodes := fun i =>
      let b := (v.inodes i).bytes.take (max (v.inodes i).synced (keep i))
      ⟨b, b.length⟩ }

section Lookup

variable (v : Volume ν) (p q r : ν) (i : Nat)

@[simp] theorem lookup_empty : (empty : Volume ν).lookup p = none := rfl

@[simp] theorem lookup_modify (f : Inode → Inode) : (v.modify i f).lookup p = v.lookup p := rfl

@[simp] theorem lookup_append (b : Bytes) : (v.append i b).lookup p = v.lookup p := rfl

@[simp] theorem lookup_sync : (v.sync i).lookup p = v.lookup p := rfl

@[simp] theorem lookup_truncate : (v.truncate i).lookup p = v.lookup p := rfl

@[simp] theorem lookup_syncNames (d : ν → Bool) : (v.syncNames d).lookup p = v.lookup p := rfl

@[simp] theorem lookup_crash (keep : Nat → Nat) : (v.crash keep).lookup p = v.lookup p := rfl

@[simp] theorem lookup_create :
    (v.create p).lookup r = if r = p then some v.fresh else v.lookup r := by
  split_ifs with h
  · subst h
    exact AList.lookup_insert _
  · exact AList.lookup_insert_ne h

@[simp] theorem lookup_remove :
    (v.remove p).lookup r = if r = p then none else v.lookup r := by
  split_ifs with h
  · subst h
    exact AList.lookup_erase _ _
  · exact AList.lookup_erase_ne h

theorem lookup_rename (hp : v.lookup p = some i) :
    (v.rename p q).lookup r =
      if r = q then some i else if r = p then none else v.lookup r := by
  unfold rename
  rw [hp]
  show AList.lookup r ((v.entries.erase p).insert q i) = _
  split_ifs with hq hp'
  · subst hq
    exact AList.lookup_insert _
  · subst hp'
    rw [AList.lookup_insert_ne hq, AList.lookup_erase]
  · rw [AList.lookup_insert_ne hq, AList.lookup_erase_ne hp']
    rfl

theorem mem_names_iff : p ∈ v.names ↔ (v.lookup p).isSome := by
  unfold names lookup
  rw [AList.lookup_isSome, AList.mem_keys]

end Lookup

section Inodes

variable (v : Volume ν) (p q r : ν) (i j : Nat)

@[simp] theorem inodes_modify (f : Inode → Inode) :
    (v.modify i f).inodes j = if j = i then f (v.inodes i) else v.inodes j := rfl

@[simp] theorem inodes_append (b : Bytes) :
    (v.append i b).inodes j =
      if j = i then { v.inodes i with bytes := (v.inodes i).bytes ++ b } else v.inodes j := rfl

@[simp] theorem inodes_sync :
    (v.sync i).inodes j =
      if j = i then { v.inodes i with synced := (v.inodes i).bytes.length }
      else v.inodes j := rfl

@[simp] theorem inodes_truncate :
    (v.truncate i).inodes j = if j = i then ⟨[], 0⟩ else v.inodes j := rfl

@[simp] theorem inodes_create :
    (v.create p).inodes j = if j = v.fresh then ⟨[], 0⟩ else v.inodes j := rfl

@[simp] theorem inodes_rename : (v.rename p q).inodes = v.inodes := by
  unfold rename
  cases v.lookup p <;> rfl

@[simp] theorem inodes_remove : (v.remove p).inodes = v.inodes := rfl

@[simp] theorem inodes_syncNames (d : ν → Bool) : (v.syncNames d).inodes = v.inodes := rfl

@[simp] theorem settled_rename : (v.rename p q).settled = v.settled := by
  unfold rename
  cases v.lookup p <;> rfl

@[simp] theorem settled_syncNames (d : ν → Bool) :
    (v.syncNames d).settled p = if d p then v.lookup p else v.settled p := rfl

@[simp] theorem fresh_modify (f : Inode → Inode) : (v.modify i f).fresh = v.fresh := rfl

@[simp] theorem fresh_append (b : Bytes) : (v.append i b).fresh = v.fresh := rfl

@[simp] theorem fresh_sync : (v.sync i).fresh = v.fresh := rfl

@[simp] theorem fresh_truncate : (v.truncate i).fresh = v.fresh := rfl

@[simp] theorem fresh_create : (v.create p).fresh = v.fresh + 1 := rfl

@[simp] theorem fresh_rename : (v.rename p q).fresh = v.fresh := by
  unfold rename
  cases v.lookup p <;> rfl

@[simp] theorem fresh_remove : (v.remove p).fresh = v.fresh := rfl

@[simp] theorem fresh_syncNames (d : ν → Bool) : (v.syncNames d).fresh = v.fresh := rfl

@[simp] theorem fresh_crash (keep : Nat → Nat) : (v.crash keep).fresh = v.fresh := rfl

end Inodes

section Append

variable (v : Volume ν) (i : Nat)

theorem modify_eq_self {f : Inode → Inode} (h : f (v.inodes i) = v.inodes i) :
    v.modify i f = v := by
  have : (v.modify i f).inodes = v.inodes := by
    funext j
    rw [inodes_modify]
    split_ifs with hj
    · rw [hj, h]
    · rfl
  cases v
  simp_all [modify]

@[simp] theorem append_nil : v.append i [] = v := modify_eq_self v i (by simp)

/-- Appending twice is appending once. -/
theorem append_append (a b : Bytes) : (v.append i a).append i b = v.append i (a ++ b) := by
  unfold append modify
  simp only [if_true, List.append_assoc, Volume.mk.injEq, true_and, and_true]
  funext j
  split_ifs <;> rfl

end Append

/-- Which names may be hard links to one file. -/
class Shares (ν : Type) where
  may : ν → Prop

section Sound

variable [Shares ν] {v : Volume ν} {p q : ν} {i : Nat}

/-- No dangling descriptors, no shared inodes but those of linked names, durable
parts are parts. -/
structure Sound (v : Volume ν) : Prop where
  below : ∀ {p i}, v.lookup p = some i → i < v.fresh
  apart : ∀ {p q i}, v.lookup p = some i → v.lookup q = some i →
    p = q ∨ Shares.may p ∧ Shares.may q
  durable : ∀ i, (v.inodes i).synced ≤ (v.inodes i).bytes.length

/-- A name that is not linked has its inode for itself. -/
theorem Sound.alone (h : v.Sound) (hp : ¬ Shares.may p) (hl : v.lookup p = some i)
    (hq : v.lookup q = some i) : q = p :=
  (h.apart hq hl).resolve_right fun hmay => hp hmay.2

theorem sound_empty : (empty : Volume ν).Sound where
  below h := by simp at h
  apart h := by simp at h
  durable _ := by simp [empty]

theorem Sound.modify (h : v.Sound) {f : Inode → Inode}
    (hf : (f (v.inodes i)).synced ≤ (f (v.inodes i)).bytes.length) :
    (v.modify i f).Sound where
  below := h.below
  apart := h.apart
  durable j := by
    rw [inodes_modify]
    split_ifs
    · exact hf
    · exact h.durable j

theorem Sound.append (h : v.Sound) (b : Bytes) : (v.append i b).Sound :=
  h.modify (by
    have := h.durable i
    simp only [List.length_append]
    omega)

theorem Sound.sync (h : v.Sound) : (v.sync i).Sound :=
  h.modify (by simp)

theorem Sound.create (h : v.Sound) : (v.create p).Sound where
  below {r j} hr := by
    rw [lookup_create] at hr
    rw [fresh_create]
    split_ifs at hr
    · cases hr
      omega
    · have := h.below hr
      omega
  apart {r s j} hr hs := by
    rw [lookup_create] at hr hs
    split_ifs at hr hs with h1 h2 h2
    · exact Or.inl (h1.trans h2.symm)
    · cases hr
      exact absurd (h.below hs) (lt_irrefl _)
    · cases hs
      exact absurd (h.below hr) (lt_irrefl _)
    · exact h.apart hr hs
  durable j := by
    rw [inodes_create]
    split_ifs
    · simp
    · exact h.durable j

theorem Sound.rename (h : v.Sound) (hne : ¬ Shares.may p) : (v.rename p q).Sound := by
  cases hp : v.lookup p with
  | none =>
      have : v.rename p q = v := by simp [Volume.rename, hp]
      rw [this]
      exact h
  | some i =>
      refine ⟨?_, ?_, ?_⟩
      · intro r j hr
        rw [lookup_rename v p q r i hp] at hr
        rw [fresh_rename]
        split_ifs at hr
        · cases hr
          exact h.below hp
        · exact h.below hr
      · intro r s j hr hs
        rw [lookup_rename v p q _ i hp] at hr hs
        split_ifs at hr hs with h1 h2 h3 h4 h5
        · exact Or.inl (h1.trans h2.symm)
        · cases hr
          exact absurd (h.alone hne hp hs) h3
        · cases hs
          exact absurd (h.alone hne hp hr) h4
        · exact h.apart hr hs
      · intro j
        rw [inodes_rename]
        exact h.durable j

theorem Sound.remove (h : v.Sound) : (v.remove p).Sound where
  below {r j} hr := by
    rw [lookup_remove] at hr
    split_ifs at hr
    exact h.below hr
  apart {r s j} hr hs := by
    rw [lookup_remove] at hr hs
    split_ifs at hr hs
    exact h.apart hr hs
  durable := h.durable

theorem Sound.syncNames (h : v.Sound) (d : ν → Bool) : (v.syncNames d).Sound :=
  ⟨h.below, h.apart, h.durable⟩

theorem Sound.crash (h : v.Sound) (keep : Nat → Nat) : (v.crash keep).Sound :=
  ⟨h.below, h.apart, fun _ => by simp [Volume.crash]⟩

end Sound

section File

variable {v : Volume ν} {p q r : ν} {i : Nat}

theorem file_of_lookup (h : v.lookup p = some i) : v.file p = some (v.inodes i) := by
  simp [file, h]

theorem file_eq_none_iff : v.file p = none ↔ v.lookup p = none := by
  simp [file]

/-- A change of one open file shows at the name bound to it. -/
theorem file_modify (f : Inode → Inode) :
    (v.modify i f).file r =
      if v.lookup r = some i then some (f (v.inodes i)) else v.file r := by
  unfold file
  rw [lookup_modify]
  cases hr : v.lookup r with
  | none => simp
  | some j =>
      by_cases hj : j = i
      · simp [hj]
      · simp [hj]

/-- A change of an open file whose name is `p`. -/
theorem file_modify_of_lookup [Shares ν] (h : v.Sound) (hne : ¬ Shares.may p)
    (hp : v.lookup p = some i) (f : Inode → Inode) :
    (v.modify i f).file r = if r = p then some (f (v.inodes i)) else v.file r := by
  rw [file_modify]
  by_cases hr : r = p
  · subst hr
    simp [hp]
  · have : v.lookup r ≠ some i := fun hr' => hr (h.alone hne hp hr')
    simp [hr, this]

theorem file_create [Shares ν] (h : v.Sound) :
    (v.create p).file r = if r = p then some ⟨[], 0⟩ else v.file r := by
  unfold file
  rw [lookup_create]
  split_ifs
  · simp
  · cases hr : v.lookup r with
    | none => rfl
    | some j =>
        have : j ≠ v.fresh := ne_of_lt (h.below hr)
        simp [this]

theorem file_rename (hp : v.lookup p = some i) :
    (v.rename p q).file r =
      if r = q then v.file p else if r = p then none else v.file r := by
  unfold file
  rw [lookup_rename v p q r i hp, inodes_rename, hp]
  split_ifs <;> rfl

@[simp] theorem file_remove :
    (v.remove p).file r = if r = p then none else v.file r := by
  unfold file
  rw [lookup_remove, inodes_remove]
  split_ifs <;> rfl

@[simp] theorem file_syncNames (d : ν → Bool) : (v.syncNames d).file r = v.file r := rfl

theorem file_crash (keep : Nat → Nat) :
    (v.crash keep).file r = (v.lookup r).map (fun i =>
      let b := (v.inodes i).bytes.take (max (v.inodes i).synced (keep i))
      ⟨b, b.length⟩) := rfl

/-- A file whose bytes are all durable survives a crash as it is. -/
theorem file_crash_of_synced (keep : Nat → Nat) {b : Bytes}
    (h : v.file r = some ⟨b, b.length⟩) :
    (v.crash keep).file r = some ⟨b, b.length⟩ := by
  unfold file at h ⊢
  rw [lookup_crash]
  cases hr : v.lookup r with
  | none => simp [hr] at h
  | some i =>
      have hi : v.inodes i = ⟨b, b.length⟩ := by simpa [hr] using h
      have ht : b.take (max b.length (keep i)) = b :=
        List.take_of_length_le (le_max_left _ _)
      simp [Volume.crash, hi, ht]

/-- After a crash a file is an initial part of what it was, with at least its
durable part. -/
theorem file_crash_cut (keep : Nat → Nat) {x : Inode} (h : v.file r = some x) :
    ∃ n, x.synced ≤ n ∧
      (v.crash keep).file r = some ⟨x.bytes.take n, (x.bytes.take n).length⟩ := by
  unfold file at h ⊢
  rw [lookup_crash]
  cases hr : v.lookup r with
  | none => simp [hr] at h
  | some i =>
      have hi : v.inodes i = x := by simpa [hr] using h
      exact ⟨max x.synced (keep i), le_max_left _ _, by simp [Volume.crash, hi]⟩

theorem file_crash_none (keep : Nat → Nat) (h : v.file r = none) :
    (v.crash keep).file r = none := by
  rw [file_eq_none_iff] at h ⊢
  exact h

end File

end Volume

end Foundation
end LsmKv
