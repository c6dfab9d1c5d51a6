import LsmKv.Compact

/-!
# What a call that returned Ok did

The specifications of the other modules run a method in a quiet world and say what it does.
Here the world is any world: appends may be refused and reads may be short, and all that is
known is that the call returned Ok.  What it did to the handle follows from its text, since
every part of it returned Ok too and most parts leave the handle as it is.

**Results.**
* `Fixes`, `Keeps`: methods that leave a view of the state, or their object, as it is.
* `compactStep_inv`, `flushInner_inv`, `maintain_inv`: what a step that returned Ok did to the
  handle.
-/

namespace LsmKv

open Foundation

section Fixes

variable {σ τ α β γ : Type}

/-- A method that leaves a view of its object and of the world as it is. -/
def Fixes (view : σ → World → γ) (m : M σ α) : Prop :=
  ∀ s w, view (m s w).2.1 (m s w).2.2 = view s w

variable {view : σ → World → γ}

theorem Fixes.pure (a : α) : Fixes view (pure a : M σ α) := fun _ _ => rfl

theorem Fixes.fail (e : Error) : Fixes view (M.fail e : M σ α) := fun _ _ => rfl

theorem Fixes.ofExcept (r : Except Error α) : Fixes view (M.ofExcept r : M σ α) := fun _ _ => rfl

theorem Fixes.bind {m : M σ α} {f : α → M σ β} (hm : Fixes view m) (hf : ∀ a, Fixes view (f a)) :
    Fixes view (m >>= f) := by
  intro s w
  have hs := hm s w
  rw [M.bind_apply]
  generalize m s w = out at hs ⊢
  obtain ⟨_ | a, s', w'⟩ := out
  · exact hs
  · exact (hf a s' w').trans hs

theorem Fixes.collect {f : α → M σ β} (hf : ∀ a, Fixes view (f a)) (l : List α) :
    Fixes view (M.collect f l) := by
  induction l with
  | nil => exact Fixes.pure []
  | cons a l ih => exact (hf a).bind fun b => ih.bind fun bs => Fixes.pure _

theorem Fixes.each {f : α → M σ Unit} (hf : ∀ a, Fixes view (f a)) (l : List α) :
    Fixes view (M.each f l) := by
  induction l with
  | nil => exact Fixes.pure ()
  | cons a l ih => exact (hf a).bind fun _ => ih

theorem Fixes.existing (p : Path) : Fixes view (Fs.existing p : M σ Nat) := by
  refine Fixes.bind (fun _ _ => rfl) fun v => ?_
  split
  · exact Fixes.pure _
  · exact Fixes.fail _

theorem Fixes.fileSize (i : Nat) : Fixes view (File.size i : M σ Nat) :=
  Fixes.bind (fun _ _ => rfl) fun _ => Fixes.pure _

section Reads

variable (hread : ∀ i off n, Fixes view (File.readAt i off n : M σ Bytes))

include hread

theorem Fixes.readExactLoop (i off n fuel : Nat) (acc : Bytes) :
    Fixes view (File.readExactLoop i off n fuel acc : M σ Bytes) := by
  induction fuel generalizing acc with
  | zero =>
      unfold File.readExactLoop
      split
      · exact Fixes.fail _
      · exact Fixes.pure _
  | succ fuel ih =>
      unfold File.readExactLoop
      split
      · refine (hread _ _ _).bind fun b => ?_
        split
        · exact Fixes.fail _
        · exact ih _
      · exact Fixes.pure _

theorem Fixes.readExactAt (i off n : Nat) : Fixes view (File.readExactAt i off n : M σ Bytes) :=
  Fixes.readExactLoop hread i off n n []

theorem Fixes.openTable (p : Path) (bloomEnabled : Bool) :
    Fixes view (SsTableReader.openTable p bloomEnabled : M σ SsTableReader) := by
  refine (Fixes.existing p).bind fun file => (Fixes.fileSize file).bind fun fileLen => ?_
  split
  · exact Fixes.fail _
  · refine (Fixes.readExactAt hread _ _ _).bind fun footer => ?_
    split
    · exact Fixes.fail _
    · dsimp only
      split
      · exact Fixes.fail _
      · exact (Fixes.readExactAt hread _ _ _).bind fun _ => (Fixes.ofExcept _).bind fun _ =>
          (Fixes.readExactAt hread _ _ _).bind fun _ => (Fixes.ofExcept _).bind fun _ =>
            Fixes.pure _

theorem Fixes.loadBlock (env : Env) (reader : SsTableReader) (e : IndexEntry) :
    Fixes view (reader.loadBlock env e : M σ (List Record)) := by
  refine (Fixes.readExactAt hread _ _ _).bind fun comp => ?_
  split
  · exact Fixes.fail _
  · exact Fixes.ofExcept _

end Reads

end Fixes

section Keeps

variable {σ τ α β : Type}

/-- A method that leaves its object as it is. -/
abbrev Keeps (m : M σ α) : Prop := Fixes (fun s _ => s) m

/-- A method that returned has left a part of its object as it was, whether it failed or not. -/
theorem Fixes.of_run {γ : Type} (view : σ → γ) {m : M σ α} {s s' : σ} {w w' : World}
    {r : Except Error α} (h : Fixes (fun s _ => view s) m) (hrun : m s w = (r, s', w')) :
    view s' = view s := by
  have := h s w
  rwa [hrun] at this

/-- A method that leaves its object as it is leaves every part of it. -/
theorem fixes_of_keeps {γ : Type} (view : σ → γ) {m : M σ α} (h : Keeps m) :
    Fixes (fun s _ => view s) m := fun s w => congrArg view (h s w)

theorem Keeps.on (t : τ) (m : M τ α) : Keeps (M.on t m : M σ (α × τ)) := by
  intro s w
  unfold M.on
  rcases m t w with ⟨_ | a, t', w'⟩
  · rfl
  · rfl

theorem Keeps.create (p : Path) : Keeps (Fs.create p : M σ Nat) := by
  refine Fixes.bind (fun _ _ => rfl) fun v => ?_
  split
  · exact Fixes.pure _
  · exact Fixes.bind (fun _ _ => rfl) fun _ => Fixes.pure _

theorem Keeps.openTruncate (p : Path) : Keeps (Fs.openFile p .truncate : M σ Nat) := by
  refine Fixes.bind (fun _ _ => rfl) fun v => ?_
  split
  · exact Fixes.bind (fun _ _ => rfl) fun _ => Fixes.pure _
  · exact Keeps.create p

theorem Keeps.rename (p q : Path) : Keeps (Fs.rename p q : M σ Unit) :=
  (Fixes.existing p).bind fun _ _ _ => rfl

theorem Keeps.remove (p : Path) : Keeps (Fs.remove p : M σ Unit) :=
  (Fixes.existing p).bind fun _ _ _ => rfl

theorem Keeps.size (p : Path) : Keeps (Fs.size p : M σ Nat) :=
  (Fixes.existing p).bind fun _ => Fixes.bind (fun _ _ => rfl) fun _ => Fixes.pure _

theorem Keeps.readAt (i off n : Nat) : Keeps (File.readAt i off n : M σ Bytes) := by
  intro s w
  unfold File.readAt
  split
  · rfl
  · rfl

theorem Keeps.openSsTable (dir : String) (bloomEnabled : Bool) (id : Nat) :
    Keeps (openSsTable dir bloomEnabled id : M σ SsTable) :=
  (Fixes.openTable Keeps.readAt _ _).bind fun _ => Fixes.pure _

theorem Keeps.iterAll (env : Env) (reader : SsTableReader) :
    Keeps (reader.iterAll env : M σ (List Record)) :=
  (Fixes.collect (fun e => Fixes.loadBlock Keeps.readAt env reader e) _).bind fun _ =>
    Fixes.pure _

theorem Keeps.writeTable (env : Env) (p : Path) (records : List Record) :
    Keeps (SsTableWriter.write env p records : M σ Nat) :=
  (Keeps.openTruncate p).bind fun _ => (Keeps.on _ _).bind fun _ => (Keeps.on _ _).bind fun _ =>
    Fixes.pure _

theorem Keeps.createWal (p : Path) (sync : SyncMode) : Keeps (Wal.create p sync : M σ Wal) :=
  (Keeps.openTruncate p).bind fun _ => (Keeps.on _ _).bind fun _ => (Keeps.on _ _).bind fun _ =>
    Fixes.pure _

theorem Keeps.syncDir (dir : String) : Keeps (Fs.syncDir dir : M σ Unit) := fun _ _ => rfl

theorem Keeps.compact (env : Env) (p : Path) (inputs : List SsTableReader) (dropping : Bool)
    (minSeq : Nat) : Keeps (compact env p inputs dropping minSeq : M σ Nat) :=
  (Fixes.collect (fun r => Keeps.iterAll env r) _).bind fun _ => Keeps.writeTable _ _ _

theorem Keeps.pickCompaction (tables : List SsTable) (threshold : Nat) :
    Keeps (pickCompaction tables threshold : M σ (Option (Nat × Nat))) := by
  unfold LsmKv.pickCompaction
  split
  · exact Fixes.pure _
  · exact (Fixes.collect (fun t => Keeps.size _) _).bind fun _ => Fixes.pure _

end Keeps

section Inversion

variable {σ τ α β : Type} {s s' : σ} {w w' : World}

theorem ok_of_bind {m : M σ α} {f : α → M σ β} {b : β} (h : (m >>= f) s w = (.ok b, s', w')) :
    ∃ a s₁ w₁, m s w = (.ok a, s₁, w₁) ∧ f a s₁ w₁ = (.ok b, s', w') := by
  rw [M.bind_apply] at h
  rcases hm : m s w with ⟨_ | a, s₁, w₁⟩
  · rw [hm] at h
    cases h
  · rw [hm] at h
    exact ⟨a, s₁, w₁, rfl, h⟩

/-- A first part that leaves the object as it is. -/
theorem Keeps.ok_of_bind {m : M σ α} {f : α → M σ β} {b : β} (hm : Keeps m)
    (h : (m >>= f) s w = (.ok b, s', w')) :
    ∃ a w₁, m s w = (.ok a, s, w₁) ∧ f a s w₁ = (.ok b, s', w') := by
  obtain ⟨a, s₁, w₁, hrun, hrest⟩ := LsmKv.ok_of_bind h
  have hs : s₁ = s := by
    have hkept := hm s w
    rwa [hrun] at hkept
  rw [hs] at hrun hrest
  exact ⟨a, w₁, hrun, hrest⟩

theorem ok_of_zoom {get : σ → τ} {set : σ → τ → σ} {m : M τ α} {a : α}
    (h : M.zoom get set m s w = (.ok a, s', w')) : ∃ t, s' = set s t := by
  rw [M.zoom_apply] at h
  exact ⟨_, (Prod.ext_iff.mp (Prod.ext_iff.mp h).2).1.symm⟩

variable {db db' : DbInner}

theorem ok_of_latching {m : M DbInner α} {a : α}
    (h : DbInner.latching m db w = (.ok a, db', w')) : m db w = (.ok a, db', w') := by
  unfold DbInner.latching at h
  obtain ⟨r, db₁, w₁, hrun, h⟩ := ok_of_bind h
  rw [M.attempt_apply] at hrun
  cases r with
  | error e => cases h
  | ok b =>
      cases h
      generalize m db w = out at hrun ⊢
      obtain ⟨r, db₂, w₂⟩ := out
      cases hrun
      rfl

theorem health_error {e : Error} (h : db.failed = some e) :
    DbInner.health db w = (.error (.poisoned e.text), db, w) := by
  unfold DbInner.health
  rw [M.bind_ok (M.self_apply _ _), h]
  rfl

theorem ok_of_health (h : DbInner.health db w = (.ok (), db', w')) : db' = db ∧ w' = w := by
  unfold DbInner.health at h
  rw [M.bind_ok (M.self_apply _ _)] at h
  cases hfailed : db.failed with
  | some e =>
      simp only [hfailed] at h
      cases h
  | none =>
      simp only [hfailed] at h
      cases h
      exact ⟨rfl, rfl⟩

/-- A merge of `k` tables of a handle into one. -/
structure Merges (k : Nat) (db db' : DbInner) : Prop where
  tables : db'.sstables.length + k = db.sstables.length + 1
  some_table : 1 ≤ k
  inside : k ≤ db.sstables.length
  enough : db.opts.compactionThreshold ≤ k
  opts : db'.opts = db.opts
  active : db'.active = db.active
  frozen : db'.frozen = db.frozen

theorem publishCompaction_inv {env : Env} {run : List SsTable} {maxId : Nat}
    (h : DbInner.publishCompaction env run maxId db w = (.ok (), db', w')) :
    db'.sstables.length + run.length = db.sstables.length + 1 ∧ db'.opts = db.opts ∧
      db'.active = db.active ∧ db'.frozen = db.frozen := by
  unfold DbInner.publishCompaction at h
  rw [M.bind_ok (M.self_apply _ _)] at h
  obtain ⟨_, w₁, _, h⟩ := (Keeps.rename _ _).ok_of_bind h
  obtain ⟨_, w₂, _, h⟩ := (Keeps.syncDir _).ok_of_bind h
  obtain ⟨table, w₃, _, h⟩ := (Keeps.openSsTable _ _ _).ok_of_bind h
  obtain ⟨_, db₁, w₄, hman, h⟩ := ok_of_bind h
  obtain ⟨manifest, rfl⟩ := ok_of_zoom hman
  rw [M.bind_ok (M.self_apply _ _)] at h
  cases hpos : db.sstables.findIdx? (fun t => decide (t.id = maxId)) with
  | none =>
      simp only [hpos] at h
      cases h
  | some endPos =>
      simp only [hpos] at h
      split at h
      · cases h
      · next hrun =>
          rw [M.bind_ok (M.update_apply _ _ _)] at h
          obtain ⟨_, w₅, _, h⟩ := Keeps.ok_of_bind (Fixes.each (fun id => Keeps.remove _) _) h
          cases h
          have hlt := (List.findIdx?_eq_some_iff_getElem.mp hpos).1
          refine ⟨?_, rfl, rfl, rfl⟩
          simp only [List.length_append, List.length_take, List.length_drop, List.length_singleton]
          omega

theorem exists_head? {l : List α} (h : 0 < l.length) : ∃ a, l.head? = some a := by
  cases l with
  | nil => simp at h
  | cons a l => exact ⟨a, rfl⟩

theorem exists_getLast? {l : List α} (h : 0 < l.length) : ∃ a, l.getLast? = some a :=
  ⟨l.getLast (List.length_pos_iff.mp h), List.getLast?_eq_getLast_of_ne_nil _⟩

theorem length_of_collect {f : α → M σ β} {l : List α} {bs : List β}
    (h : M.collect f l s w = (.ok bs, s', w')) : bs.length = l.length := by
  induction l generalizing s w bs with
  | nil =>
      cases h
      rfl
  | cons a l ih =>
      obtain ⟨b, s₁, w₁, _, hrest⟩ := ok_of_bind h
      obtain ⟨bs', s₂, w₂, hcoll, hret⟩ := ok_of_bind hrest
      cases hret
      rw [List.length_cons, List.length_cons, ih hcoll]

theorem pickCompaction_inv {tables : List SsTable} {threshold : Nat} {picked : Option (Nat × Nat)}
    (h : (pickCompaction tables threshold : M σ _) s w = (.ok picked, s', w')) :
    ∃ sizes : List Nat, sizes.length = tables.length ∧ picked = pickRun sizes threshold := by
  unfold pickCompaction at h
  split at h
  · next hfew =>
      cases h
      refine ⟨tables.map fun _ => 0, List.length_map _, ?_⟩
      rw [pickRun, if_pos (by rw [List.length_map]; exact hfew)]
  · obtain ⟨sizes, s₁, w₁, hsizes, hret⟩ := ok_of_bind h
    cases hret
    exact ⟨sizes, length_of_collect hsizes, rfl⟩

/-- With a threshold of one or zero there is a run wherever there is a table. -/
theorem pickRun_ne_none {sizes : List Nat} {threshold : Nat} (hne : sizes ≠ [])
    (hone : threshold ≤ 1) : pickRun sizes threshold ≠ none := by
  have hpos : 0 < sizes.length := List.length_pos_iff.mpr hne
  have hzero : 0 < (sizes.map tier).length := by rwa [List.length_map]
  have hlt := lt_tierEnd hzero
  rw [pickRun, if_neg (by omega), pickLoop, if_pos (by rwa [List.length_map])]
  dsimp only
  rw [if_pos (by omega)]
  simp

/-- What a compaction step that returned Ok did, in any world: nothing, because no run was
found, or a merge of a run that is long enough. -/
theorem compactStep_inv {env : Env} {r : Bool}
    (h : DbInner.compactStep env db w = (.ok r, db', w')) :
    (r = false ∧ db' = db ∧
        (db.sstables = [] ∨ 2 ≤ db.opts.compactionThreshold)) ∨
      (r = true ∧ ∃ k, Merges k db db') := by
  unfold DbInner.compactStep at h
  obtain ⟨_, db₁, w₁, hhealth, hstep⟩ := ok_of_bind h
  obtain ⟨rfl, rfl⟩ := ok_of_health hhealth
  have hstep := ok_of_latching hstep
  unfold DbInner.compactStepImpl at hstep
  rw [M.bind_ok (M.self_apply _ _)] at hstep
  obtain ⟨picked, w₂, hpick, hstep⟩ := (Keeps.pickCompaction _ _).ok_of_bind hstep
  obtain ⟨sizes, hlen, rfl⟩ := pickCompaction_inv hpick
  cases hrun : pickRun sizes db₁.opts.compactionThreshold with
  | none =>
      rw [hrun] at hstep
      cases hstep
      refine Or.inl ⟨rfl, rfl, ?_⟩
      by_contra hno
      obtain ⟨hne, hthr⟩ := not_or.mp hno
      refine pickRun_ne_none ?_ (by omega) hrun
      rintro rfl
      exact hne (List.length_eq_zero_iff.mp hlen.symm)
  | some ab =>
      obtain ⟨a, b⟩ := ab
      obtain ⟨hab, hb, hthr⟩ := pickRun_bounds hrun
      rw [hrun] at hstep
      dsimp only at hstep
      obtain ⟨run, hrunEq⟩ : ∃ run, run = (db₁.sstables.take b).drop a := ⟨_, rfl⟩
      have hrunLen : run.length = b - a := by
        rw [hrunEq, List.length_drop, List.length_take]
        omega
      obtain ⟨first, hfirst⟩ := exists_head? (l := run) (by omega)
      obtain ⟨last, hlast⟩ := exists_getLast? (l := run) (by omega)
      obtain ⟨oldest, holdest⟩ := exists_head? (l := db₁.sstables) (by omega)
      simp only [← hrunEq, hfirst, hlast, holdest] at hstep
      obtain ⟨_, w₃, _, hstep⟩ := (Keeps.compact _ _ _ _ _).ok_of_bind hstep
      obtain ⟨_, db₂, w₄, hpublish, hret⟩ := ok_of_bind hstep
      cases hret
      obtain ⟨htables, hopts, hactive, hfrozen⟩ := publishCompaction_inv hpublish
      exact Or.inr ⟨rfl, b - a, ⟨by omega, by omega, by omega, hthr, hopts, hactive, hfrozen⟩⟩

theorem rewriteWal_inv {env : Env} (h : DbInner.rewriteWal env db w = (.ok (), db', w')) :
    ∃ wal, db' = { db with wal := wal } := by
  unfold DbInner.rewriteWal at h
  rw [M.bind_ok (M.self_apply _ _)] at h
  obtain ⟨_, w₁, _, h⟩ := (Keeps.createWal _ _).ok_of_bind h
  obtain ⟨_, w₂, _, h⟩ := (Keeps.on _ _).ok_of_bind h
  obtain ⟨_, w₃, _, h⟩ := (Keeps.on _ _).ok_of_bind h
  obtain ⟨⟨_, fresh⟩, w₄, _, h⟩ := (Keeps.on _ _).ok_of_bind h
  obtain ⟨_, w₅, _, h⟩ := (Keeps.syncDir _).ok_of_bind h
  cases h
  exact ⟨fresh, rfl⟩

/-- A flush of a MemTable that holds something. -/
structure Flushes (db db' : DbInner) : Prop where
  tables : db'.sstables.length = db.sstables.length + 1
  opts : db'.opts = db.opts
  active : db'.active.isEmpty = true
  frozen : db'.frozen = none

/-- What a flush that returned Ok did, in any world: nothing, because there was nothing in
memory, or one table more. -/
theorem flushInner_inv {env : Env} (h : DbInner.flushInner env db w = (.ok (), db', w')) :
    (db.active.isEmpty = true ∧ db' = db) ∨ (db.active.isEmpty = false ∧ Flushes db db') := by
  unfold DbInner.flushInner at h
  obtain ⟨_, db₁, w₁, hhealth, hflush⟩ := ok_of_bind h
  obtain ⟨rfl, rfl⟩ := ok_of_health hhealth
  have hflush := ok_of_latching hflush
  unfold DbInner.flushImpl at hflush
  rw [M.bind_ok (M.self_apply _ _)] at hflush
  cases hempty : db₁.active.isEmpty with
  | true =>
      rw [if_pos hempty] at hflush
      cases hflush
      exact Or.inl ⟨rfl, rfl⟩
  | false =>
      rw [if_neg (by rw [hempty]; simp)] at hflush
      dsimp only at hflush
      rw [M.bind_ok (M.update_apply _ _ _), M.bind_ok (M.update_apply _ _ _)] at hflush
      obtain ⟨_, w₂, _, hflush⟩ := (Keeps.writeTable _ _ _).ok_of_bind hflush
      obtain ⟨_, w₃, _, hflush⟩ := (Keeps.rename _ _).ok_of_bind hflush
      obtain ⟨_, w₄, _, hflush⟩ := (Keeps.syncDir _).ok_of_bind hflush
      obtain ⟨table, w₅, _, hflush⟩ := (Keeps.openSsTable _ _ _).ok_of_bind hflush
      rw [M.bind_ok (M.self_apply _ _)] at hflush
      obtain ⟨_, db₂, w₆, hman, hflush⟩ := ok_of_bind hflush
      obtain ⟨manifest, rfl⟩ := ok_of_zoom hman
      rw [M.bind_ok (M.update_apply _ _ _)] at hflush
      obtain ⟨_, db₃, w₇, hwal, hflush⟩ := ok_of_bind hflush
      obtain ⟨wal, rfl⟩ := rewriteWal_inv hwal
      cases hflush
      exact Or.inr ⟨rfl, ⟨by simp, rfl, rfl, rfl⟩⟩

/-- A maintenance step that returned Ok flushed what was due, or it was a compaction step. -/
theorem maintain_inv {env : Env} {r : Bool}
    (h : DbInner.maintain env db w = (.ok r, db', w')) :
    (db.flushIsDue = true ∧ r = true ∧ DbInner.flushInner env db w = (.ok (), db', w')) ∨
      (db.flushIsDue = false ∧ DbInner.compactStep env db w = (.ok r, db', w')) := by
  unfold DbInner.maintain at h
  rw [M.bind_ok (M.self_apply _ _)] at h
  cases hdue : db.flushIsDue with
  | true =>
      rw [if_pos hdue] at h
      obtain ⟨_, db₁, w₁, hflush, hret⟩ := ok_of_bind h
      cases hret
      exact Or.inl ⟨rfl, rfl, hflush⟩
  | false =>
      rw [if_neg (by rw [hdue]; simp)] at h
      exact Or.inr ⟨rfl, h⟩

end Inversion

end LsmKv
