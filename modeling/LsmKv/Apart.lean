import LsmKv.Checkpoint

/-!
# Databases on one volume

A step of a database touches names of its own directory only, and never writes a file that a
table may be linked to.  So databases in different directories of one volume go on beside each
other, whatever tables they share.

A `Fleet` is a family of handles with threads inside, all on one volume.

**Results.**
* `Files.within`: a step stays within the directory of its handle.
* `Files.elsewhere`: and keeps the files of every other.
* `Fleet.Steps.keeps`: so every order of steps keeps the files and the ledger of all of them.
-/

namespace LsmKv

open Foundation Volume Versioning

/-- The names of a directory. -/
def InDir (dir : String) (p : Path) : Prop := p.dir = dir

section Open

variable {σ : Type} {s : σ} {env : Env} {w w' : World} {dir : String} {db : DbInner}
variable {st : ManifestState} {tables : List (Nat × List Record)} {log : List Record}

theorem mem_reclaimed {v : Volume Path} {p : Path} (h : p ∈ reclaimed v dir st) : p.dir = dir := by
  unfold reclaimed at h
  obtain ⟨hlisted, _⟩ := List.mem_filter.mp h
  exact (((list_spec v dir).2 p).mp hlisted).1

/-- An open stays within its directory, all the way. -/
theorem assemble_within (opts : Options) (hq : w.Quiet) (hfree : lockPath dir ∉ w.locks)
    (himg : Image env dir w.vol st tables log)
    (hrun : (assemble env dir opts : M σ DbInner) s w = (.ok db, s, w')) :
    World.Grew { w with locks := lockPath dir :: w.locks } w' (Within (InDir dir) w.vol) := by
  obtain ⟨g, c, n, i, b, m, hg, hcur, hman, hst⟩ := himg.manifest
  obtain ⟨w₁, w₂, j, hroll, hok, -⟩ :=
    assemble_parts (s := s) opts hq himg.sound hfree hg hcur hman hst
  obtain ⟨w₃, db', hrun₃, _, _, _, _, hgrew₃⟩ := recoverFrom_quiet (s := s) opts
    (Manifest.handle dir (Manifest.nextGen g) j) hroll.grew.quiet (hroll.sound himg.sound)
    himg.ids himg.fit (hroll.files_kept himg.files) (by rw [hroll.walBytes]; exact himg.log)
  cases (hok db' w₃ hrun₃).symm.trans hrun
  have hlock : Within (InDir dir) w.vol w₁.vol := hroll.lock.within (by simp [InDir])
  have hrolled : Within (InDir dir) w.vol w₂.vol :=
    hlock.trans (hroll.same.within (by simp [InDir]))
  refine ((hroll.lockGrew.mono fun u hu => hu.within (by simp [InDir])).trans
    (hroll.grew.mono fun u hu => hlock.trans ?_)).trans
    (hgrew₃.mono fun u hu => hrolled.trans (hu.1.within fun p hp => ?_))
  · rcases hu with hsame | ⟨hsame, _⟩
    · exact hsame.within (by simp [InDir])
    · exact hsame.within (by simp [InDir])
  · rcases List.mem_cons.mp hp with rfl | hp
    · rfl
    · exact mem_reclaimed hp

/-- A directory whose lock is held is not opened. -/
theorem acquireDirLock_held (hheld : lockPath dir ∈ w.locks) :
    ∃ w', (acquireDirLock dir : M σ Unit) s w = (.error (.locked dir), s, w') := by
  unfold acquireDirLock
  rw [M.bind_ok Fs.fileExists_apply]
  cases hl : w.vol.lookup (lockPath dir) with
  | some i =>
      have hopen : (Fs.openFile (lockPath dir) .lock : M σ Nat) s w =
          (.error (.io .wouldBlock), s, w) := by
        simp only [Fs.openFile, Fs.create, Fs.volume, M.bind_apply, hl, M.pure_apply, Fs.takeLock,
          hheld, if_true]
      exact ⟨w, by rw [M.bind_ok (M.attempt_eq hopen)]; rfl⟩
  | none =>
      have hheld' : lockPath dir ∈ (w.touch fun v => v.create (lockPath dir)).locks := hheld
      have hopen : (Fs.openFile (lockPath dir) .lock : M σ Nat) s w =
          (.error (.io .wouldBlock), s, w.touch fun v => v.create (lockPath dir)) := by
        simp only [Fs.openFile, Fs.create, Fs.volume, M.bind_apply, hl, Fs.touch_apply,
          M.pure_apply, Fs.takeLock, hheld', if_true]
      exact ⟨_, by rw [M.bind_ok (M.attempt_eq hopen)]; rfl⟩

theorem free_of_assemble {opts : Options}
    (hrun : (assemble env dir opts : M σ DbInner) s w = (.ok db, s, w')) :
    lockPath dir ∉ w.locks := by
  intro hheld
  obtain ⟨w₁, hlock⟩ := acquireDirLock_held (s := s) hheld
  unfold assemble at hrun
  rw [M.bind_error hlock] at hrun
  cases hrun

end Open

section Within

variable {env : Env} {s s' : System} {held held' : Held} {l : Label}

/-- A step on the handle stays within its directory, all the way. -/
theorem Effect.within (h : Effect env l s held s' held') (hq : s.w.Quiet)
    (hl : l.onHandle = true) :
    s.w.Grew s'.w (Within (InDir s.db.dir) s.w.vol) ∧ s'.db.dir = s.db.dir := by
  cases h with
  | log stage fits synced same grew =>
      refine ⟨grew.mono fun v hv => ?_, rfl⟩
      obtain ⟨i, n, hb, happ⟩ := hv
      exact happ.same.within (by simp [InDir])
  | write stage same grew => exact ⟨grew.mono fun v hv => hv.within (by simp [InDir]), rfl⟩
  | place table stage covered same grew =>
      exact ⟨grew.mono fun v hv => hv.within (by simp [InDir]), rfl⟩
  | record stage manifest same grew =>
      exact ⟨grew.mono fun v hv => hv.same.within (by simp [InDir]), rfl⟩
  | relog wal stage free synced covered same grew =>
      refine ⟨grew.mono fun v hv => ?_, rfl⟩
      rcases hv with hsame | ⟨hsame, _⟩
      · exact hsame.within (by simp [InDir])
      · exact hsame.within (by simp [InDir])
  | merge stage same grew => exact ⟨grew.mono fun v hv => hv.within (by simp [InDir]), rfl⟩
  | name stage free same grew =>
      exact ⟨grew.mono fun v hv => hv ▸ same.within (by simp [InDir]), rfl⟩
  | finish sstables stage picked covered manifest same grew =>
      refine ⟨grew.mono fun v hv => ?_, rfl⟩
      cases hv with
      | recording same => exact same.within (by simp [InDir])
      | removing gone part same =>
          refine same.within fun p hp => ?_
          rcases List.mem_cons.mp hp with rfl | hp
          · rfl
          · obtain ⟨t, _, rfl⟩ := List.mem_map.mp hp
            rfl
  | reopen opts idle loading live opened => cases hl
  | _ => exact ⟨.refl hq, rfl⟩

/-- What closing a handle leaves. -/
theorem close_eq {db db' : DbInner} {w w' : World} (h : DbInner.close db w = (.ok (), db', w')) :
    w' = { w with locks := w.locks.filter (fun q => q ≠ lockPath db.dir) } := by
  have hclose : DbInner.close db w =
      (.ok (), db, { w with locks := w.locks.filter (fun q => q ≠ lockPath db.dir) }) := rfl
  have := hclose.symm.trans h
  simp only [Prod.mk.injEq] at this
  exact this.2.2.symm

/-- A step stays within the directory of its handle, on its way and in the end. -/
theorem Files.within (h : Files env s held) (hfits : Fits env l s) (hstep : Step env l s s') :
    (∀ v, s.w.Passes s'.w v → Within (InDir s.db.dir) s.w.vol v) ∧
      Within (InDir s.db.dir) s.w.vol s'.w.vol ∧ s'.db.dir = s.db.dir := by
  obtain ⟨held', heff, _⟩ := h.step hfits hstep
  by_cases hl : l.onHandle = true
  · obtain ⟨hgrew, hdir⟩ := heff.within h.quiet hl
    refine ⟨fun v hv => hgrew.of_passes hv, ?_, hdir⟩
    rcases hgrew.ends with heq | hwithin
    · rw [heq]
      exact .refl _ _
    · exact hwithin
  · cases hstep with
    | @reopen _ db db' w w' opts writer flusher compactor loading live closed run =>
        have hw := close_eq closed
        have hq : w.Quiet := by
          rw [hw]
          exact ⟨h.quiet.accepts, h.quiet.reads⟩
        have hvol : w.vol = s.w.vol := by rw [hw]
        have hvisited : w.visited = s.w.visited := by rw [hw]; rfl
        obtain ⟨himg, _⟩ := h.image flusher compactor
        rw [← hvol] at himg ⊢
        have hgrew := assemble_within opts hq (free_of_assemble run) himg run
        refine ⟨fun v hv => ?_, ?_, ?_⟩
        · obtain ⟨vs, hvs, hmem⟩ := hv
          exact hgrew.of_passes ⟨vs, hvs.trans (by rw [← hvisited]; rfl), hmem⟩
        · rcases hgrew.ends with heq | hwithin
          · rw [show w'.vol = w.vol from heq]
            exact .refl _ _
          · exact hwithin
        · cases heff with
          | reopen _ _ _ _ opened => exact opened.inDir
    | _ => exact absurd rfl hl

/-- Files are kept that no step of another directory touches. -/
theorem Files.elsewhere (h : Files env s held) {w : World} (hq : w.Quiet)
    (hw : Within (fun p => p.dir ≠ s.db.dir) s.w.vol w.vol) :
    Files env { s with w := w } held := by
  obtain ⟨ps, hsame, hps⟩ := hw
  have hnot : ∀ p : Path, p.dir = s.db.dir → p ∉ ps := fun p hp hmem => hps p hmem hp
  obtain ⟨g, i, hman⟩ := h.manifest
  obtain ⟨j, n, hlog⟩ := h.log
  exact
    { h with
      quiet := hq
      sound := hsame.sound h.sound
      read := h.read.same hsame
      files := fun t ht hold => by
        obtain ⟨i, hb⟩ := h.files t ht hold
        exact ⟨i, hb.same hsame (hnot _ rfl)⟩
      manifest := ⟨g, i, hman.same hsame (hnot _ rfl) (hnot _ rfl) (hnot _ rfl)⟩
      wal := h.wal.same hsame (hnot _ rfl)
      log := ⟨j, n, hlog.same hsame (hnot _ rfl)⟩
      flusher := h.flusher.same hsame fun id _ => ⟨hnot _ rfl, hnot _ rfl⟩
      compactor := h.compactor.same hsame fun t _ => ⟨hnot _ rfl, hnot _ rfl⟩ }

end Within

/-- Handles with threads inside. -/
def Fleet (ι : Type) : Type := ι → System

namespace Fleet

variable {ι : Type} {env : Env} {f g : Fleet ι}

/-- A step of one of them; the others find themselves in the new world. -/
def Step (env : Env) (i : ι) (l : Label) (f g : Fleet ι) : Prop :=
  Fits env l (f i) ∧ LsmKv.Step env l (f i) (g i) ∧ ∀ j, j ≠ i → g j = { f j with w := (g i).w }

/-- Steps in any order. -/
def Steps (env : Env) : Fleet ι → Fleet ι → Prop :=
  Relation.ReflTransGen (fun f g => ∃ i l, Step env i l f g)

/-- Handles in different directories of one world, with their files and their ledgers. -/
structure Apart (env : Env) (f : Fleet ι) : Prop where
  world : ∀ i j, (f i).w = (f j).w
  dirs : ∀ i j, i ≠ j → (f i).db.dir ≠ (f j).db.dir
  files : ∀ i, ∃ held, Files env (f i) held ∧ Ledger (f i) held

/-- A step of one database keeps all of them. -/
theorem Apart.step {i : ι} {l : Label} (h : Apart env f) (hstep : Step env i l f g) :
    Apart env g ∧ ∀ j, (f j).written <+: (g j).written := by
  obtain ⟨hfits, hmove, hothers⟩ := hstep
  obtain ⟨held, hfiles, hledger⟩ := h.files i
  obtain ⟨held', heff, hfiles'⟩ := hfiles.step hfits hmove
  obtain ⟨-, hwithin, hdir⟩ := hfiles.within hfits hmove
  have hdirs : ∀ j, (g j).db.dir = (f j).db.dir := by
    intro j
    by_cases hj : j = i
    · rw [hj]
      exact hdir
    · rw [hothers j hj]
  have hworld : ∀ j, (g j).w = (g i).w := by
    intro j
    by_cases hj : j = i
    · rw [hj]
    · rw [hothers j hj]
  refine ⟨⟨fun j k => (hworld j).trans (hworld k).symm, fun j k hjk => ?_, fun j => ?_⟩,
    fun j => ?_⟩
  · rw [hdirs j, hdirs k]
    exact h.dirs j k hjk
  · by_cases hj : j = i
    · rw [hj]
      exact ⟨held', hfiles', hledger.step hfiles.toStored heff⟩
    · obtain ⟨heldj, hfilesj, hledgerj⟩ := h.files j
      rw [hothers j hj]
      refine ⟨heldj, hfilesj.elsewhere hfiles'.quiet ?_, { hledgerj with }⟩
      rw [h.world j i]
      refine hwithin.mono fun p hp hpj => h.dirs j i hj ?_
      rw [← hpj]
      exact hp
  · by_cases hj : j = i
    · rw [hj]
      exact (hledger.before hmove).written
    · rw [hothers j hj]

/-- Every order of steps keeps all of them. -/
theorem Apart.run (h : Apart env f) (hrun : Steps env f g) :
    Apart env g ∧ ∀ j, (f j).written <+: (g j).written := by
  induction hrun with
  | refl => exact ⟨h, fun _ => List.prefix_rfl⟩
  | tail _ hlast ih =>
      obtain ⟨i, l, hstep⟩ := hlast
      obtain ⟨hapart, hmore⟩ := ih.1.step hstep
      exact ⟨hapart, fun j => (ih.2 j).trans (hmore j)⟩

/-- Every database shows what was written to it. -/
theorem Apart.shows (h : Apart env f) (i : ι) :
    ShowsMap env u64Max (mapAfter (f i).written) (f i).db (f i).w := by
  obtain ⟨_, hfiles, hledger⟩ := h.files i
  exact hfiles.shows hledger

/-- One of them has moved on. -/
def moved [DecidableEq ι] (f : Fleet ι) (i : ι) (s : System) : Fleet ι := fun j =>
  if j = i then s else { f j with w := s.w }

/-- A run of one of them. -/
theorem steps_moved [DecidableEq ι] {ok : Label → System → Prop}
    (hok : ∀ l s, ok l s → Fits env l s) (f : Fleet ι) (i : ι) {s s' : System}
    (h : LsmKv.Steps env ok s s') : Steps env (f.moved i s) (f.moved i s') := by
  induction h with
  | refl => exact .refl
  | @tail a b _ hlast ih =>
      obtain ⟨l, hl, hstep⟩ := hlast
      refine .tail ih ⟨i, l, ?_, ?_, fun j hj => ?_⟩
      · simpa [moved] using hok l a hl
      · simpa [moved] using hstep
      · simp [moved, hj]

end Fleet

end LsmKv
