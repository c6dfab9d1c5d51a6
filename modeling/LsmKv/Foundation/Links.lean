import LsmKv.Foundation.Agree

/-!
# Second names, and owners of names

A file may get a second name.  It stays what it is for everybody who has it open or finds it
under the other name, since only names that are never written through may be linked.

`Within d v v'` says that on the way from `v` to `v'` only names of `d` were touched.  Owners of
disjoint names on one volume, even of linked ones, leave each other's files alone.

**Results.**  `sameExcept_link`, and the rules of `Within`.
-/

namespace LsmKv
namespace Foundation
namespace Volume

variable {ν : Type} [DecidableEq ν]

section Link

variable {v : Volume ν} {p q r : ν} {i n : Nat} {b : Bytes}

theorem lookup_link (hp : v.lookup p = some i) :
    (v.link p q).lookup r = if r = q then some i else v.lookup r := by
  unfold link
  rw [hp]
  show AList.lookup r (v.entries.insert q i) = _
  split_ifs with h
  · subst h
    exact AList.lookup_insert _
  · exact AList.lookup_insert_ne h

@[simp] theorem inodes_link : (v.link p q).inodes = v.inodes := by
  unfold link
  cases v.lookup p <;> rfl

@[simp] theorem fresh_link : (v.link p q).fresh = v.fresh := by
  unfold link
  cases v.lookup p <;> rfl

@[simp] theorem settled_link : (v.link p q).settled = v.settled := by
  unfold link
  cases v.lookup p <;> rfl

/-- The second name is bound to the same file. -/
theorem Bound.link (h : v.Bound p i b n) : (v.link p q).Bound q i b n :=
  ⟨by rw [lookup_link h.name, if_pos rfl], by rw [inodes_link]; exact h.inode⟩

variable [Shares ν]

theorem Sound.link (h : v.Sound) (hp : Shares.may p) (hq : Shares.may q)
    (hl : v.lookup p = some i) : (v.link p q).Sound where
  below {r j} hr := by
    rw [lookup_link hl] at hr
    rw [fresh_link]
    split_ifs at hr
    · cases hr
      exact h.below hl
    · exact h.below hr
  apart {r s j} hr hs := by
    have hother : ∀ {x}, v.lookup x = some i → Shares.may x := fun hx =>
      (h.apart hx hl).elim (fun hxp => hxp ▸ hp) And.left
    rw [lookup_link hl] at hr hs
    split_ifs at hr hs with h₁ h₂ h₂
    · exact Or.inl (h₁.trans h₂.symm)
    · cases hr
      exact Or.inr ⟨h₁ ▸ hq, hother hs⟩
    · cases hs
      exact Or.inr ⟨hother hr, h₂ ▸ hq⟩
    · exact h.apart hr hs
  durable j := by
    rw [inodes_link]
    exact h.durable j

/-- A second name leaves all other names alone. -/
theorem sameExcept_link (hp : Shares.may p) (hq : Shares.may q) (hl : v.lookup p = some i) :
    SameExcept [q] v (v.link p q) := by
  have hname : ∀ r, r ∉ [q] → (v.link p q).lookup r = v.lookup r := by
    intro r hr
    rw [lookup_link hl, if_neg (by simpa using hr)]
  refine ⟨hname, fun r hr => ?_, fun hs => hs.link hp hq hl, fun j hj => ⟨⟨?_, ?_⟩, ?_⟩,
    fun r hr hc => ?_⟩
  · unfold file
    rw [hname r hr, inodes_link]
  · rw [fresh_link]
    exact hj.below
  · intro r hr
    rw [lookup_link hl] at hr
    split_ifs at hr with hrq
    · exact hrq ▸ hq
    · exact hj.names hr
  · rw [inodes_link]
  · unfold Covered at hc ⊢
    rw [hname r hr, ← hc, settled_link]

end Link

section Within

variable [Shares ν] {d : ν → Prop} {v v₁ v₂ : Volume ν} {ps : List ν} {p : ν} {i n : Nat}
variable {b : Bytes}

/-- Only names of `d` are touched. -/
def Within (d : ν → Prop) (v v' : Volume ν) : Prop := ∃ ps, SameExcept ps v v' ∧ ∀ p ∈ ps, d p

theorem Within.refl (d : ν → Prop) (v : Volume ν) : Within d v v :=
  ⟨[], .refl _ _, by simp⟩

theorem SameExcept.within (h : SameExcept ps v v₁) (hps : ∀ p ∈ ps, d p) : Within d v v₁ :=
  ⟨ps, h, hps⟩

theorem Within.mono {d' : ν → Prop} (h : Within d v v₁) (hd : ∀ p, d p → d' p) :
    Within d' v v₁ := by
  obtain ⟨ps, hsame, hps⟩ := h
  exact ⟨ps, hsame, fun p hp => hd p (hps p hp)⟩

theorem Within.trans (h₁ : Within d v v₁) (h₂ : Within d v₁ v₂) : Within d v v₂ := by
  obtain ⟨ps, hps, hd⟩ := h₁
  obtain ⟨qs, hqs, hd'⟩ := h₂
  refine ⟨ps ++ qs, (hps.mono (by simp)).trans (hqs.mono (by simp)), fun p hp => ?_⟩
  rcases List.mem_append.mp hp with hp | hp
  · exact hd p hp
  · exact hd' p hp

theorem Within.sound (h : Within d v v₁) (hs : v.Sound) : v₁.Sound := by
  obtain ⟨_, hsame, _⟩ := h
  exact hsame.sound hs

theorem Within.lookup (h : Within d v v₁) (hp : ¬ d p) : v₁.lookup p = v.lookup p := by
  obtain ⟨_, hsame, hd⟩ := h
  exact hsame.names p fun hmem => hp (hd p hmem)

theorem Within.covered (h : Within d v v₁) (hp : ¬ d p) (hc : v.Covered p) : v₁.Covered p := by
  obtain ⟨ps, hsame, hps⟩ := h
  exact hsame.covered p (fun hmem => hp (hps p hmem)) hc

/-- A name of another owner stays bound as it was. -/
theorem Bound.within (h : v.Bound p i b n) (hw : Within d v v₁) (hp : ¬ d p) :
    v₁.Bound p i b n := by
  obtain ⟨_, hsame, hd⟩ := hw
  exact h.same hsame fun hmem => hp (hd p hmem)

end Within

end Volume
end Foundation
end LsmKv
