import LsmKv.Fs

/-!
# Methods that report what they do

A method of type `Noted ν σ α` is a method of type `M σ α` that also reports a list of
notes.  The notes are there to be judged: erasing them gives the method back, and whether all
notes of a method pass is decided part by part.

**Results.**
* `Noted.erase_bind` and its like: the method behind a noted one.
* `Noted.safe_bind` and its like: the notes of a composed method pass when those of its
  parts do, each part in the state it is run in.
-/

namespace LsmKv

namespace M

variable {σ α β : Type}

theorem ofExcept_bind (r : Except Error α) (f : α → Except Error β) :
    (ofExcept (r >>= f) : M σ β) = ofExcept r >>= fun a => ofExcept (f a) := by
  cases r with
  | error e => rfl
  | ok a => rfl

theorem ofExcept_ite {p : Prop} [Decidable p] (r r' : Except Error α) :
    (ofExcept (if p then r else r') : M σ α) = if p then ofExcept r else ofExcept r' := by
  split
  · rfl
  · rfl

end M

/-- A method on `σ` that reports notes. -/
def Noted (ν σ α : Type) : Type := σ → World → List ν × (Except Error α × σ × World)

namespace Noted

variable {ν σ α β : Type}

protected def pure (a : α) : Noted ν σ α := fun s w => ([], (.ok a, s, w))

protected def bind (m : Noted ν σ α) (f : α → Noted ν σ β) : Noted ν σ β := fun s w =>
  match m s w with
  | (notes, (.ok a, s', w')) =>
      match f a s' w' with
      | (more, out) => (notes ++ more, out)
  | (notes, (.error e, s', w')) => (notes, (.error e, s', w'))

instance : Monad (Noted ν σ) where
  pure := Noted.pure
  bind := Noted.bind

/-- Report a note. -/
def note (n : ν) : Noted ν σ Unit := fun s w => ([n], (.ok (), s, w))

/-- A method that has nothing to report. -/
def ofM (m : M σ α) : Noted ν σ α := fun s w => ([], m s w)

/-- Run a method and hand its outcome on as a value. -/
def attempt (m : Noted ν σ α) : Noted ν σ (Except Error α) := fun s w =>
  match m s w with
  | (notes, (r, s', w')) => (notes, (.ok r, s', w'))

/-- The loop over a list that collects results. -/
def collect (f : α → Noted ν σ β) : List α → Noted ν σ (List β)
  | [] => pure []
  | a :: l => do
      let b ← f a
      let bs ← collect f l
      return b :: bs

/-- The method without its notes. -/
def erase (m : Noted ν σ α) : M σ α := fun s w => (m s w).2

/-- All notes of a run pass. -/
def Safe (ok : ν → Prop) (m : Noted ν σ α) (s : σ) (w : World) : Prop := ∀ n ∈ (m s w).1, ok n

section Erase

@[simp] theorem erase_pure (a : α) : (pure a : Noted ν σ α).erase = pure a := rfl

@[simp] theorem erase_note (n : ν) : (note n : Noted ν σ Unit).erase = pure () := rfl

@[simp] theorem erase_ofM (m : M σ α) : (ofM m : Noted ν σ α).erase = m := rfl

theorem erase_bind (m : Noted ν σ α) (f : α → Noted ν σ β) :
    (m >>= f).erase = m.erase >>= fun a => (f a).erase := by
  funext s w
  show (Noted.bind m f s w).2 = M.bind m.erase (fun a => (f a).erase) s w
  unfold Noted.bind M.bind erase
  rcases m s w with ⟨notes, _ | a, s', w'⟩
  · rfl
  · rfl

@[simp] theorem erase_attempt (m : Noted ν σ α) : m.attempt.erase = M.attempt m.erase := rfl

@[simp] theorem erase_ite {p : Prop} [Decidable p] (m m' : Noted ν σ α) :
    (if p then m else m').erase = if p then m.erase else m'.erase := by
  split
  · rfl
  · rfl

/-- A note in front changes nothing. -/
theorem erase_note_bind (n : ν) (f : Unit → Noted ν σ β) :
    (note n >>= f).erase = (f ()).erase := by
  rw [erase_bind, erase_note, pure_bind]

theorem erase_collect (f : α → Noted ν σ β) (l : List α) :
    (collect f l).erase = M.collect (fun a => (f a).erase) l := by
  induction l with
  | nil => rfl
  | cons a l ih =>
      rw [collect, erase_bind, M.collect_cons]
      refine bind_congr fun b => ?_
      rw [erase_bind, ih]
      rfl

end Erase

section Safe

variable {ok : ν → Prop} {s : σ} {w : World}

theorem safe_pure (a : α) : Safe ok (pure a : Noted ν σ α) s w :=
  fun _ h => absurd h (by simp [pure, Noted.pure])

theorem safe_ofM (m : M σ α) : Safe ok (ofM m) s w := fun _ h => absurd h (by simp [ofM])

theorem safe_note {n : ν} : Safe ok (note n : Noted ν σ Unit) s w ↔ ok n := by
  simp [Safe, note]

theorem safe_attempt {m : Noted ν σ α} : Safe ok m.attempt s w ↔ Safe ok m s w := Iff.rfl

theorem safe_bind {m : Noted ν σ α} {f : α → Noted ν σ β} :
    Safe ok (m >>= f) s w ↔ Safe ok m s w ∧
      ∀ a s' w', m.erase s w = (.ok a, s', w') → Safe ok (f a) s' w' := by
  show Safe ok (Noted.bind m f) s w ↔ _
  unfold Safe erase Noted.bind
  rcases m s w with ⟨notes, _ | a, s', w'⟩
  · simp
  · refine ⟨fun h => ⟨fun n hn => h n (List.mem_append_left _ hn), ?_⟩, ?_⟩
    · intro a₁ s₁ w₁ heq n hn
      cases heq
      exact h n (List.mem_append_right _ hn)
    · rintro ⟨hm, hf⟩ n hn
      rcases List.mem_append.mp hn with hn | hn
      · exact hm n hn
      · exact hf a s' w' rfl n hn

/-- A part whose outcome is known. -/
theorem safe_bind_ok {m : Noted ν σ α} {f : α → Noted ν σ β} {a : α} {s' : σ} {w' : World}
    (h : m.erase s w = (.ok a, s', w')) :
    Safe ok (m >>= f) s w ↔ Safe ok m s w ∧ Safe ok (f a) s' w' := by
  rw [safe_bind, h]
  refine and_congr_right fun _ => ⟨fun hf => hf a s' w' rfl, ?_⟩
  intro hf a₁ s₁ w₁ heq
  cases heq
  exact hf

theorem safe_note_bind {n : ν} {f : Unit → Noted ν σ β} :
    Safe ok (note n >>= f) s w ↔ ok n ∧ Safe ok (f ()) s w := by
  rw [safe_bind_ok rfl, safe_note]

theorem safe_ofM_bind {m : M σ α} {f : α → Noted ν σ β} {a : α} {s' : σ} {w' : World}
    (h : m s w = (.ok a, s', w')) : Safe ok (ofM m >>= f) s w ↔ Safe ok (f a) s' w' :=
  (safe_bind_ok (m := ofM m) h).trans (and_iff_right (safe_ofM m))

/-- The loop over a list, with an invariant of the states between its turns. -/
theorem safe_collect {f : α → Noted ν σ β} (Inv : σ → World → Prop) {l : List α}
    (hstep : ∀ a ∈ l, ∀ s w, Inv s w → Safe ok (f a) s w ∧
      Inv ((f a).erase s w).2.1 ((f a).erase s w).2.2) (h : Inv s w) :
    Safe ok (collect f l) s w := by
  induction l generalizing s w with
  | nil => exact safe_pure []
  | cons a l ih =>
      obtain ⟨hsafe, hinv⟩ := hstep a (List.mem_cons_self) s w h
      refine safe_bind.mpr ⟨hsafe, fun b s' w' hrun => ?_⟩
      rw [hrun] at hinv
      refine safe_bind.mpr ⟨ih (fun a' ha' => hstep a' (List.mem_cons_of_mem _ ha')) hinv, ?_⟩
      exact fun _ _ _ _ => safe_pure _

end Safe

end Noted

end LsmKv
