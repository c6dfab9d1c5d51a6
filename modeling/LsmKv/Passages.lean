import LsmKv.Returned
import Mathlib.Order.Defs.Unbundled

/-!
# The volumes a method passes

A method of the engine makes several changes to the volume one after another, and threads that
hold none of its locks may return between two of them.  `Along R m` says that every volume `m`
passes is in the relation `R` to the one it starts from, in any world and whether `m` fails or
not.

**Results.**
* `Along.bind`, `Along.each`: what every part does, the whole does.
* `along_logRecords`, `along_recordTable`: an append to the log or to the manifest leaves all
  directory entries as they are.
* `finishCompaction_covers`: what the rest of a compaction leaves settled on its way.
-/

namespace LsmKv

open Foundation Volume

section Along

variable {σ τ α β : Type} {R : Volume Path → Volume Path → Prop}

/-- Every volume `m` passes, called on `s`, is in the relation `R` to the one it starts from. -/
def AlongFrom (R : Volume Path → Volume Path → Prop) (m : M σ α) (s : σ) : Prop :=
  ∀ w, ∃ vs, (m s w).2.2.visited = vs ++ w.visited ∧ ∀ v ∈ vs, R w.vol v

/-- The same whatever it is called on. -/
def Along (R : Volume Path → Volume Path → Prop) (m : M σ α) : Prop := ∀ s, AlongFrom R m s

theorem AlongFrom.passes {m : M σ α} {s s' : σ} (h : AlongFrom R m s) {w w' : World}
    {r : Except Error α} {v : Volume Path} (hrun : m s w = (r, s', w')) (hv : w.Passes w' v) :
    R w.vol v := by
  obtain ⟨vs, hvs, hR⟩ := h w
  obtain ⟨us, hus, hmem⟩ := hv
  rw [hrun] at hvs
  exact hR v (List.append_cancel_right (hus.symm.trans hvs) ▸ hmem)

/-- A method that passes nothing. -/
theorem Along.of_fixes {m : M σ α} (h : Fixes (fun _ w => w.visited) m) : Along R m :=
  fun s w => ⟨[], h s w, by simp⟩

theorem Along.touch {f : Volume Path → Volume Path} (h : ∀ v, R v (f v)) :
    Along R (Fs.touch f : M σ Unit) :=
  fun _ w => ⟨[f w.vol], rfl, by simpa using h w.vol⟩

theorem Along.attempt {m : M σ α} (h : Along R m) : Along R (M.attempt m) := fun s w => h s w

theorem Along.zoom {get : σ → τ} {set : σ → τ → σ} {m : M τ α} (h : Along R m) :
    Along R (M.zoom get set m) := fun s w => h (get s) w

theorem Along.append {i : Nat} (h : ∀ v b, R v (v.append i b)) (b : Bytes) :
    Along R (File.append i b : M σ Unit) := by
  intro s w
  unfold File.append
  split
  · exact ⟨[_], rfl, by simpa using h _ _⟩
  · exact ⟨[_], rfl, by simpa using h _ _⟩
  · exact ⟨[_], rfl, by simpa using h _ _⟩

variable [IsPreorder (Volume Path) R]

/-- Where a method ends, it has passed or started. -/
theorem rel_of_visited {w w' : World} {vs : List (Volume Path)}
    (hvs : w'.visited = vs ++ w.visited) (hR : ∀ v ∈ vs, R w.vol v) : R w.vol w'.vol := by
  cases vs with
  | nil =>
      rw [show w'.vol = w.vol from (List.cons.inj hvs).1]
      exact refl_of R w.vol
  | cons u us =>
      rw [show w'.vol = u from (List.cons.inj hvs).1]
      exact hR u List.mem_cons_self

theorem AlongFrom.ends {m : M σ α} {s s' : σ} (h : AlongFrom R m s) {w w' : World}
    {r : Except Error α} (hrun : m s w = (r, s', w')) : R w.vol w'.vol := by
  obtain ⟨vs, hvs, hR⟩ := h w
  rw [hrun] at hvs
  exact rel_of_visited hvs hR

theorem AlongFrom.bind {m : M σ α} {f : α → M σ β} {s : σ} (hm : AlongFrom R m s)
    (hf : ∀ a s₁ w w₁, m s w = (.ok a, s₁, w₁) → AlongFrom R (f a) s₁) :
    AlongFrom R (m >>= f) s := by
  intro w
  obtain ⟨vs, hvs, hR⟩ := hm w
  rw [M.bind_apply]
  rcases hrun : m s w with ⟨_ | a, s₁, w₁⟩
  · rw [hrun] at hvs
    exact ⟨vs, hvs, hR⟩
  · rw [hrun] at hvs
    obtain ⟨us, hus, hS⟩ := hf a s₁ w w₁ hrun w₁
    have hvs : w₁.visited = vs ++ w.visited := hvs
    refine ⟨us ++ vs, ?_, fun v hv => ?_⟩
    · rw [List.append_assoc, ← hvs]
      exact hus
    · rcases List.mem_append.mp hv with hv | hv
      · exact trans_of R (rel_of_visited hvs hR) (hS v hv)
      · exact hR v hv

theorem Along.bind {m : M σ α} {f : α → M σ β} (hm : Along R m) (hf : ∀ a, Along R (f a)) :
    Along R (m >>= f) :=
  fun s => (hm s).bind fun a s₁ _ _ _ => hf a s₁

/-- What a method passes behind a first change. -/
theorem AlongFrom.behind_touch {f : Volume Path → Volume Path} {g : Unit → M σ β} {s s' : σ}
    {w w' : World} {r : Except Error β} {v : Volume Path} (hg : AlongFrom R (g ()) s)
    (hrun : (Fs.touch f >>= g) s w = (r, s', w')) (hv : w.Passes w' v) : R (f w.vol) v := by
  rw [M.bind_ok (Fs.touch_apply f)] at hrun
  obtain ⟨us, hus, hR⟩ := hg (w.touch f)
  obtain ⟨vs, hvs, hmem⟩ := hv
  rw [hrun] at hus
  have heq : vs = us ++ [f w.vol] := by
    refine List.append_cancel_right (hvs.symm.trans (hus.trans ?_))
    simp
  rw [heq] at hmem
  rcases List.mem_append.mp hmem with hmem | hmem
  · exact hR v hmem
  · rw [List.mem_singleton.mp hmem]
    exact refl_of R _

theorem Along.each {f : α → M σ Unit} (l : List α) (hf : ∀ a ∈ l, Along R (f a)) :
    Along R (M.each f l) := by
  induction l with
  | nil => exact .of_fixes (Fixes.pure ())
  | cons a l ih =>
      exact (hf a List.mem_cons_self).bind fun _ =>
        ih fun b hb => hf b (List.mem_cons_of_mem _ hb)

section Buffers

variable (happend : ∀ v i b, R v (v.append i b)) (hsync : ∀ v i, R v (v.sync i))

include hsync in
omit [IsPreorder (Volume Path) R] in
theorem Along.syncAs (i : Nat) (mode : SyncMode) : Along R (File.syncAs i mode : M σ Unit) := by
  cases mode with
  | durable => exact .touch fun v => hsync v i
  | barrier => exact .of_fixes (Fixes.pure ())
  | none => exact .of_fixes (Fixes.pure ())

include happend in
theorem Along.flush : Along R BufAppend.flush := by
  refine Along.bind (.of_fixes fun _ _ => rfl) fun b => ?_
  split
  · exact .of_fixes (Fixes.pure ())
  · refine Along.bind (Along.append (fun v b => happend v _ b) _).attempt fun r => ?_
    cases r with
    | error e => exact .of_fixes (Fixes.bind (fun _ _ => rfl) fun _ => Fixes.fail e)
    | ok _ => exact .of_fixes fun _ _ => rfl

include happend in
theorem Along.write (bytes : Bytes) : Along R (BufAppend.write bytes) := by
  refine Along.bind (.of_fixes fun _ _ => rfl) fun _ =>
    Along.bind (.of_fixes fun _ _ => rfl) fun b => ?_
  split
  · exact .flush happend
  · exact .of_fixes (Fixes.pure ())

include happend hsync in
theorem Along.sync : Along R BufAppend.sync := by
  refine (Along.flush happend).bind fun _ => Along.bind (.of_fixes fun _ _ => rfl) fun b => ?_
  refine Along.bind (Along.syncAs hsync _ _).attempt fun r => ?_
  cases r with
  | error e => exact .of_fixes (Fixes.bind (fun _ _ => rfl) fun _ => Fixes.fail e)
  | ok _ => exact .of_fixes (Fixes.pure ())

include happend hsync in
/-- A batch goes to the manifest. -/
theorem Along.appendEdits (env : Env) (edits : List VersionEdit) :
    Along R (DbInner.onManifest (Manifest.appendBatch env edits)) := by
  refine (Along.bind (Along.each _ fun edit _ => ?_) fun _ => (Along.sync happend hsync).zoom).zoom
  exact Along.bind (.of_fixes fun _ _ => rfl) fun _ => (Along.write happend _).zoom.bind fun _ =>
    (Along.write happend _).zoom.bind fun _ => (Along.write happend _).zoom

end Buffers

end Along

section Entries

/-- The directory entries, as they are and as they are settled, are the same. -/
def EntriesKept (v v' : Volume Path) : Prop := v'.lookup = v.lookup ∧ v'.settled = v.settled

instance : IsPreorder (Volume Path) EntriesKept where
  refl _ := ⟨rfl, rfl⟩
  trans _ _ _ h₁ h₂ := ⟨h₂.1.trans h₁.1, h₂.2.trans h₁.2⟩

theorem EntriesKept.covered_iff {v v' : Volume Path} (h : EntriesKept v v') (p : Path) :
    v'.Covered p ↔ v.Covered p := by
  unfold Covered
  rw [h.1, h.2]

/-- An append to the log leaves the directory entries. -/
theorem along_logRecords (env : Env) (records : List Record) :
    Along EntriesKept (DbInner.logRecords env records) := by
  have happend : ∀ (v : Volume Path) (i : Nat) (b : Bytes), EntriesKept v (v.append i b) :=
    fun _ _ _ => ⟨rfl, rfl⟩
  refine (Along.bind (.of_fixes fun _ _ => rfl) fun wal => ?_).zoom
  split
  · exact .of_fixes (Fixes.pure ())
  · split
    · exact .of_fixes (Fixes.fail _)
    · exact (Along.write happend _).zoom.bind fun _ => (Along.write happend _).zoom.bind fun _ =>
        (Along.write happend _).zoom.bind fun _ => (Along.flush happend).zoom.bind fun _ =>
          Along.syncAs (fun _ _ => ⟨rfl, rfl⟩) _ _

/-- So does an append to the manifest. -/
theorem along_recordTable (env : Env) (id nextSstId nextSeq : Nat) :
    Along EntriesKept (DbInner.recordTable env id nextSstId nextSeq) :=
  Along.appendEdits (fun _ _ _ => ⟨rfl, rfl⟩) (fun _ _ => ⟨rfl, rfl⟩) env _

end Entries

section Settled

/-- Settled names of a directory stay settled, but for those in `gone`. -/
def StaysSettled (dir : String) (gone : List Path) (v v' : Volume Path) : Prop :=
  ∀ p : Path, p.dir = dir → p ∉ gone → v.Covered p → v'.Covered p

instance (dir : String) (gone : List Path) :
    IsPreorder (Volume Path) (StaysSettled dir gone) where
  refl _ := fun _ _ _ h => h
  trans _ _ _ h₁ h₂ := fun p hdir hp h => h₂ p hdir hp (h₁ p hdir hp h)

/-- The rest of a compaction syncs the directory first; behind that it unsettles the tables it
removes and no other name. -/
theorem finishCompaction_covers {env : Env} {db db' : DbInner} {bloomEnabled : Bool}
    {run : List SsTable} {maxId : Nat} {w w' : World} {r : Except Error Unit} {v : Volume Path}
    (hrun : DbInner.finishCompaction env db.dir bloomEnabled run maxId db w = (r, db', w'))
    (hv : w.Passes w' v) (p : Path) (hdir : p.dir = db.dir)
    (hp : p ∉ (run.take (run.length - 1)).map fun t => sstPath db.dir t.id) : v.Covered p := by
  set gone := (run.take (run.length - 1)).map fun t => sstPath db.dir t.id with hgone
  have hentries : ∀ v v' : Volume Path, EntriesKept v v' → StaysSettled db.dir gone v v' :=
    fun _ _ h p _ _ hcov => (h.covered_iff p).mpr hcov
  have hopen : Along (StaysSettled db.dir gone) (openSsTable db.dir bloomEnabled maxId :
      M DbInner SsTable) := by
    refine .of_fixes (Fixes.bind (Fixes.openTable (fun i off n s w => ?_) _ _) fun _ =>
      Fixes.pure _)
    unfold File.readAt
    split
    · rfl
    · rfl
  unfold DbInner.finishCompaction DbInner.settleTable at hrun
  rw [bind_assoc] at hrun
  refine AlongFrom.behind_touch (R := StaysSettled db.dir gone) ?_ hrun hv p hdir hp
    (covered_syncNames (by simpa using hdir))
  refine (hopen db).bind fun table db₁ w w₁ hrun₁ => ?_
  obtain rfl : db₁ = db := Fixes.of_run id (Keeps.openSsTable _ _ _) hrun₁
  refine (Along.appendEdits (fun v i b => hentries v (v.append i b) ⟨rfl, rfl⟩)
    (fun v i => hentries v (v.sync i) ⟨rfl, rfl⟩) env _ db₁).bind fun _ db₂ w w₂ hrun₂ => ?_
  have hdir₂ : db₂.dir = db₁.dir := Fixes.of_run DbInner.dir (fun _ _ => rfl) hrun₂
  refine AlongFrom.bind (Along.of_fixes (fun _ _ => rfl) _) fun self db₃ w w₃ hself => ?_
  cases hself
  split
  · exact Along.of_fixes (Fixes.fail _) _
  · split
    · exact Along.of_fixes (Fixes.fail _) _
    · refine Along.bind (.of_fixes fun _ _ => rfl) (fun _ => ?_) db₂
      rw [hdir₂]
      refine Along.bind (Along.each _ fun id hid => ?_) fun _ => .touch fun v p _ hp =>
        (sameExcept_syncNames gone (fun q : Path => q.dir = db₁.dir)).covered p hp
      refine Along.bind (.of_fixes (Fixes.existing _)) fun _ => .touch fun v p _ hp hcov => ?_
      obtain ⟨t, ht, rfl⟩ := List.mem_map.mp hid
      refine sameExcept_remove.covered p (fun hmem => hp ?_) hcov
      rw [List.mem_singleton.mp hmem]
      exact List.mem_map.mpr ⟨t, ht, rfl⟩

end Settled

end LsmKv
