import LsmKv.Effects
import LsmKv.Passages
import LsmKv.Schedules
import LsmKv.Stock

/-!
# Names that survive a loss of power

A name that was created or renamed survives a loss of power only if the directory was synced
afterwards.  A recovery starts from four kinds of names: the log, `CURRENT`, the manifest that
`CURRENT` names, and the tables which that manifest has live.

The first open of a directory creates the log behind its last sync of the directory, so the
name of the log is not settled when the first writes return.  The next sync of the directory,
by a flush, by a compaction or by another open, settles it, and from there on two renames leave
a name unsettled until the directory is synced behind them: the one of a merge, and the one of
the rewritten log.

**Results.**
* `Catalogue.recoveryNames_eq`: the names a recovery starts from.
* `Aired`, `Aired.step`: every step keeps them settled.
* `Aired.settled_passing`: where they are settled on the way of a step.
* `names_settled_by_sync`: from a sync of the directory on, all of them are settled when a write
  returns, but for the windows between a rename and the sync behind it.
-/

namespace LsmKv

open Foundation Volume

/-- The log, `CURRENT`, a manifest, and the tables it has live. -/
def vitalNames (dir : String) (generation : Nat) (st : ManifestState) : List Path :=
  walPath dir :: currentPath dir :: manifestPath dir generation ::
    st.liveTables.keys.map (sstPath dir)

/-- The names a recovery starts from, as it finds them: through `CURRENT` and the manifest. -/
def recoveryNames (env : Env) (dir : String) (v : Volume Path) : Option (List Path) := do
  let current ← v.file (currentPath dir)
  let generation ← (parseCurrent current.bytes).toOption
  let manifest ← v.file (manifestPath dir generation)
  let st ← (replayManifestBytes env (manifestPath dir generation) manifest.bytes).toOption
  return vitalNames dir generation st

/-- All names a recovery starts from are there, and survive a loss of power. -/
def NamesSettled (env : Env) (dir : String) (v : Volume Path) : Prop :=
  ∃ names, recoveryNames env dir v = some names ∧ ∀ p ∈ names, v.Covered p

theorem dir_vitalNames {dir : String} {generation : Nat} {st : ManifestState} {p : Path}
    (h : p ∈ vitalNames dir generation st) : p.dir = dir := by
  simp only [vitalNames, List.mem_cons, List.mem_map] at h
  rcases h with rfl | rfl | rfl | ⟨id, _, rfl⟩ <;> rfl

/-- The way from `CURRENT` to the tables. -/
theorem recoveryNames_of_bound {env : Env} {dir : String} {v : Volume Path} {g c m i n : Nat}
    {b : Bytes} {st : ManifestState} (hg : g ≤ u64Max)
    (hcur : v.Bound (currentPath dir) c (currentBytes g) m)
    (hman : v.Bound (manifestPath dir g) i b n)
    (hreplay : replayManifestBytes env (manifestPath dir g) b = .ok st) :
    recoveryNames env dir v = some (vitalNames dir g st) := by
  simp only [recoveryNames, hcur.file, hman.file, Option.bind_eq_bind, Option.bind_some,
    parseCurrent_currentBytes hg, Except.toOption, hreplay, Option.pure_def]

theorem NamesSettled.log {env : Env} {dir : String} {v : Volume Path}
    (h : NamesSettled env dir v) : v.Covered (walPath dir) := by
  obtain ⟨names, hnames, hcov⟩ := h
  refine hcov _ ?_
  simp only [recoveryNames, Option.bind_eq_bind, Option.bind_eq_some_iff, Option.pure_def,
    Option.some.injEq] at hnames
  obtain ⟨_, _, _, _, _, _, _, _, rfl⟩ := hnames
  exact List.mem_cons_self

section Reopen

variable {σ : Type} {s s' : σ} {env : Env} {w w' : World} {dir : String} {db : DbInner}
variable {st : ManifestState} {tables : List (Nat × List Record)} {log : List Record}

/-- An open that finds a log leaves all names settled. -/
theorem assemble_covers (opts : Options) (hq : w.Quiet) (hfree : lockPath dir ∉ w.locks)
    (himg : Image env dir w.vol st tables log) (hwal : w.vol.lookup (walPath dir) ≠ none)
    (hrun : (assemble env dir opts : M σ DbInner) s w = (.ok db, s', w')) :
    ∀ p ∈ vitalNames dir db.manifest.generation st, w'.vol.Covered p := by
  obtain ⟨g, c, n, i, b, m, hg, hcur, hman, hst⟩ := himg.manifest
  obtain ⟨w₁, w₂, j, hroll, hok, -⟩ :=
    assemble_parts (s := s) opts hq himg.sound hfree hg hcur hman hst
  obtain ⟨w₃, db', hrun₃, hmandb, _, hsame₃, hcov₃, _⟩ := recoverFrom_quiet (s := s)
    opts (Manifest.handle dir (Manifest.nextGen g) j) hroll.grew.quiet (hroll.sound himg.sound)
    himg.ids himg.fit (hroll.files_kept himg.files) (by rw [hroll.walBytes]; exact himg.log)
  cases (hok db' w₃ hrun₃).symm.trans hrun
  have hkeep : ∀ p : Path, p.dir = dir → p ≠ walPath dir → p ≠ manifestPath dir g →
      reclaimable dir st p = false → w'.vol.Covered p := by
    intro p hdir hp hne hr
    refine hsame₃.covered p ?_ (hroll.covered p hdir hne)
    simp only [List.mem_cons, not_or]
    exact ⟨hp, not_mem_reclaimed _ hr⟩
  intro p hp
  simp only [vitalNames, List.mem_cons, List.mem_map] at hp
  rcases hp with rfl | rfl | rfl | ⟨id, hid, rfl⟩
  · refine hcov₃ ?_ (hroll.covered _ rfl (by simp))
    rw [hroll.same.names _ (by simp), hroll.lock.names _ (by simp)]
    exact hwal
  · exact hkeep _ rfl (by simp) (by simp) (by simp)
  · rw [hmandb]
    refine hkeep _ rfl (by simp) ?_ (by simp)
    intro heq
    have hgone := hroll.gone
    rw [← heq] at hgone
    exact absurd (hroll.live.holds.name.symm.trans hgone) (by simp)
  · exact hkeep _ rfl (by simp) (by simp) (reclaimable_live hid)

end Reopen

/-- The table of a flush that has its name, until the live set has it. -/
def Flusher.placedId : Flusher → List Nat
  | .placed _ id _ | .counted _ id _ _ _ | .recorded _ id _ => [id]
  | _ => []

/-- The names that matter while threads are inside, without the one a merge has just taken. -/
def System.aired (s : System) (held : Held) : List Path :=
  walPath s.db.dir :: currentPath s.db.dir :: manifestPath s.db.dir s.db.manifest.generation ::
    (((held.tables.map Prod.fst).filter (fun id => s.compactor.replaced ≠ some id) ++
      s.flusher.placedId).map (sstPath s.db.dir))

/-- They survive a loss of power. -/
def Aired (s : System) (held : Held) : Prop :=
  ∀ p ∈ s.aired held, s.w.vol.Covered p

/-- The steps that sync the directory behind whatever they create or rename. -/
def Label.settles : Label → Bool
  | .place | .relog | .finish | .reopen _ => true
  | _ => false

section Aired

variable {env : Env} {s s' : System} {held held' : Held} {l : Label}

theorem System.mem_aired {p : Path} : p ∈ s.aired held ↔
    p = walPath s.db.dir ∨ p = currentPath s.db.dir ∨
      p = manifestPath s.db.dir s.db.manifest.generation ∨
      (∃ t ∈ held.tables, s.compactor.replaced ≠ some t.1 ∧ p = sstPath s.db.dir t.1) ∨
      ∃ id ∈ s.flusher.placedId, p = sstPath s.db.dir id := by
  simp only [aired, List.mem_cons, List.mem_map, List.mem_append, List.mem_filter,
    decide_eq_true_eq]
  constructor
  · rintro (h | h | h | ⟨_, ⟨⟨t, ht, rfl⟩, hne⟩ | hid, rfl⟩)
    · exact Or.inl h
    · exact Or.inr (Or.inl h)
    · exact Or.inr (Or.inr (Or.inl h))
    · exact Or.inr (Or.inr (Or.inr (Or.inl ⟨t, ht, hne, rfl⟩)))
    · exact Or.inr (Or.inr (Or.inr (Or.inr ⟨_, hid, rfl⟩)))
  · rintro (h | h | h | ⟨t, ht, hne, rfl⟩ | ⟨id, hid, rfl⟩)
    · exact Or.inl h
    · exact Or.inr (Or.inl h)
    · exact Or.inr (Or.inr (Or.inl h))
    · exact Or.inr (Or.inr (Or.inr ⟨_, Or.inl ⟨⟨t, ht, rfl⟩, hne⟩, rfl⟩))
    · exact Or.inr (Or.inr (Or.inr ⟨_, Or.inr hid, rfl⟩))

theorem System.dir_aired {p : Path} (hp : p ∈ s.aired held) : p.dir = s.db.dir := by
  rcases mem_aired.mp hp with rfl | rfl | rfl | ⟨t, _, _, rfl⟩ | ⟨id, _, rfl⟩ <;> rfl

/-- What it takes for the names of one state to be among those of another. -/
theorem System.aired_subset (hdir : s'.db.dir = s.db.dir) (hman : s'.db.manifest = s.db.manifest)
    (htables : ∀ t ∈ held'.tables, s'.compactor.replaced ≠ some t.1 →
      (t ∈ held.tables ∧ s.compactor.replaced ≠ some t.1) ∨ t.1 ∈ s.flusher.placedId)
    (hplaced : s'.flusher.placedId ⊆ s.flusher.placedId) : s'.aired held' ⊆ s.aired held := by
  intro p hp
  rw [mem_aired, hdir, hman] at hp
  rw [mem_aired]
  rcases hp with h | h | h | ⟨t, ht, hne, rfl⟩ | ⟨id, hid, rfl⟩
  · exact Or.inl h
  · exact Or.inr (Or.inl h)
  · exact Or.inr (Or.inr (Or.inl h))
  · rcases htables t ht hne with ⟨hin, hold⟩ | hin
    · exact Or.inr (Or.inr (Or.inr (Or.inl ⟨t, hin, hold, rfl⟩)))
    · exact Or.inr (Or.inr (Or.inr (Or.inr ⟨_, hin, rfl⟩)))
  · exact Or.inr (Or.inr (Or.inr (Or.inr ⟨id, hplaced hid, rfl⟩)))

/-- The manifest leads to the tables. -/
theorem Catalogue.recoveryNames_eq (h : Catalogue env s held) :
    recoveryNames env s.db.dir s.w.vol =
      some (vitalNames s.db.dir s.db.manifest.generation (applyAll held.edits)) := by
  obtain ⟨g, i, hman⟩ := h.manifest
  obtain ⟨c, hc⟩ := hman.live.named.current
  have hgen : s.db.manifest.generation = g := by rw [hman.handle]; rfl
  rw [hgen]
  exact recoveryNames_of_bound hman.generation hc hman.live.holds
    (replayManifest_manifestBytes hman.fits)

theorem Flusher.recordedId_subset (f : Flusher) : f.recordedId ⊆ f.placedId := by
  cases f <;> simp [recordedId, placedId]

/-- While no merge has just taken a name, all names are settled. -/
theorem Aired.settled (h : Aired s held) (hf : Files env s held)
    (hc : s.compactor.replaced = none) : NamesSettled env s.db.dir s.w.vol := by
  refine ⟨_, hf.catalogue.recoveryNames_eq, fun p hp => h p (System.mem_aired.mpr ?_)⟩
  simp only [vitalNames, hf.live, List.mem_cons, List.mem_map, List.mem_append] at hp
  rcases hp with hp | hp | hp | ⟨_, ⟨t, ht, rfl⟩ | hid, rfl⟩
  · exact Or.inl hp
  · exact Or.inr (Or.inl hp)
  · exact Or.inr (Or.inr (Or.inl hp))
  · exact Or.inr (Or.inr (Or.inr (Or.inl ⟨t, ht, by simp [hc], rfl⟩)))
  · exact Or.inr (Or.inr (Or.inr (Or.inr ⟨_, s.flusher.recordedId_subset hid, rfl⟩)))

/-- A step that creates and renames none of the names keeps them. -/
theorem Aired.same (h : Aired s held) {ps : List Path} (hsame : SameExcept ps s.w.vol s'.w.vol)
    (hsub : s'.aired held' ⊆ s.aired held) (hnot : ∀ p ∈ ps, p ∉ s'.aired held') :
    Aired s' held' :=
  fun p hp => hsame.covered p (fun hin => hnot p hin hp) (h p (hsub hp))

/-- So does a step that creates and renames nothing at all. -/
theorem Aired.named (h : Aired s held) (hkept : EntriesKept s.w.vol s'.w.vol)
    (hsub : s'.aired held' ⊆ s.aired held) : Aired s' held' :=
  fun p hp => (hkept.covered_iff p).mpr (h p (hsub hp))

theorem Aired.of_covered (h : ∀ p : Path, p.dir = s.db.dir → s.w.vol.Covered p) : Aired s held :=
  fun p hp => h p (System.dir_aired hp)

/-- An append to the log renames nothing, on its way or in the end. -/
theorem Step.log_entries (h : Step env .log s s') :
    EntriesKept s.w.vol s'.w.vol ∧ ∀ v, s.w.Passes s'.w v → EntriesKept s.w.vol v := by
  cases h with
  | log stage run =>
      exact ⟨(along_logRecords env _ _).ends run,
        fun v hv => (along_logRecords env _ _).passes run hv⟩

/-- Nor does an append to the manifest. -/
theorem Step.record_entries (h : Step env .record s s') :
    EntriesKept s.w.vol s'.w.vol ∧ ∀ v, s.w.Passes s'.w v → EntriesKept s.w.vol v := by
  cases h with
  | record stage run =>
      exact ⟨(along_recordTable env _ _ _ _).ends run,
        fun v hv => (along_recordTable env _ _ _ _).passes run hv⟩

/-- A reopen settles all names. -/
theorem Aired.reopen (hf : Files env s held) {opts : Options} (hdir : s'.db.dir = s.db.dir)
    (h : Step env (.reopen opts) s s') :
    Aired s' { held with edits := (applyAll held.edits).snapshotEdits } := by
  cases h with
  | @reopen _ db db' w w' opts writer flusher compactor loading live closed run =>
      obtain ⟨himg, _⟩ := hf.image flusher compactor
      obtain ⟨i, n, hlog⟩ := hf.log
      have hw : w = { s.w with locks := s.w.locks.filter (fun q => q ≠ lockPath s.db.dir) } :=
        (congrArg (fun r => r.2.2) closed).symm
      have hvol : w.vol = s.w.vol := by rw [hw]
      have hquiet : w.Quiet := by rw [hw]; exact ⟨hf.quiet.accepts, hf.quiet.reads⟩
      have hfree : lockPath s.db.dir ∉ w.locks := by simp [hw]
      rw [← hvol] at himg
      have hcov := assemble_covers opts hquiet hfree himg (by simp [hvol, hlog.bound.name]) run
      intro p hp
      refine hcov p ?_
      rw [System.mem_aired, show db'.dir = s.db.dir from hdir] at hp
      simp only [vitalNames, himg.ids, List.mem_cons, List.mem_map]
      rcases hp with hp | hp | hp | ⟨t, ht, _, rfl⟩ | ⟨id, hid, _⟩
      · exact Or.inl hp
      · exact Or.inr (Or.inl hp)
      · exact Or.inr (Or.inr (Or.inl hp))
      · exact Or.inr (Or.inr (Or.inr ⟨_, ⟨t, ht, rfl⟩, rfl⟩))
      · rw [flusher] at hid
        cases hid

/-- A step that syncs the directory settles all names. -/
theorem Effect.airs (h : Effect env l s held s' held') (hf : Files env s held)
    (hstep : Step env l s s') (hl : l.settles = true) : Aired s' held' := by
  cases h with
  | place table stage covered same grew => exact .of_covered covered
  | relog wal stage free synced covered same grew => exact .of_covered covered
  | finish sstables stage picked covered manifest same grew => exact .of_covered covered
  | reopen opts idle loading live opened => exact .reopen hf opened.inDir hstep
  | _ => cases hl

/-- Every step keeps the names settled. -/
theorem Aired.step (h : Aired s held) (hf : Files env s held)
    (he : Effect env l s held s' held') (hstep : Step env l s s') : Aired s' held' := by
  by_cases hl : l.settles = true
  · exact he.airs hf hstep hl
  cases he with
  | place | relog | finish | reopen => exact absurd rfl hl
  | number | insert | load | register | drop =>
      exact h.named ⟨rfl, rfl⟩ (List.Subset.refl _)
  | log stage fits synced same grew => exact h.named hstep.log_entries.1 (List.Subset.refl _)
  | record stage manifest same grew =>
      refine h.named hstep.record_entries.1 (System.aired_subset rfl rfl ?_ ?_)
      · exact fun t ht hne => Or.inl ⟨ht, hne⟩
      · simp [stage, Flusher.placedId]
  | freeze | count | clear =>
      refine h.named ⟨rfl, rfl⟩ (System.aired_subset rfl rfl ?_ ?_)
      · exact fun t ht hne => Or.inl ⟨ht, hne⟩
      · simp_all [Flusher.placedId]
  | publish stage =>
      refine h.named ⟨rfl, rfl⟩ (System.aired_subset rfl rfl ?_ (by simp [Flusher.placedId]))
      intro t ht hne
      rcases List.mem_append.mp ht with ht | ht
      · exact Or.inl ⟨ht, hne⟩
      · cases List.mem_singleton.mp ht
        exact Or.inr (by simp [stage, Flusher.placedId])
  | list | choose | abandon | bound =>
      refine h.named ⟨rfl, rfl⟩ (System.aired_subset rfl rfl ?_ (List.Subset.refl _))
      intro t ht _
      exact Or.inl ⟨ht, by simp_all [Compactor.replaced]⟩
  | write stage same grew =>
      refine h.same same (System.aired_subset rfl rfl ?_ (by simp [Flusher.placedId])) ?_
      · exact fun t ht hne => Or.inl ⟨ht, hne⟩
      · simp [System.mem_aired]
  | merge stage same grew =>
      refine h.same same (System.aired_subset rfl rfl ?_ (List.Subset.refl _)) ?_
      · exact fun t ht _ => Or.inl ⟨ht, by simp [stage, Compactor.replaced]⟩
      · simp [System.mem_aired]
  | name stage free same grew =>
      -- the name the merge takes is left out from here on
      refine h.same same (System.aired_subset rfl rfl ?_ (List.Subset.refl _)) ?_
      · exact fun t ht _ => Or.inl ⟨ht, by simp [stage, Compactor.replaced]⟩
      · simp [System.mem_aired, free, Flusher.placedId, Compactor.replaced]

end Aired

/-- The name a merge has just taken does not survive a loss of power. -/
def Exposed (s : System) : Prop :=
  ∀ id, s.compactor.replaced = some id → ¬ s.w.vol.Covered (sstPath s.db.dir id)

/-- Whether a name that a section from `s` has just taken by a rename waits for the sync of the
directory behind it, at a volume `v` on the way of the section. -/
def Awaiting (env : Env) (s : System) (v : Volume Path) : Label → Prop
  -- the rename is all there is to the section
  | .name => True
  -- the sync is the first thing it does
  | .finish => False
  | .relog => v = (DbInner.replaceWal env s.db s.w).2.2.vol
  | _ => s.compactor.publishing = true

section Windows

variable {env : Env} {s s' : System} {held held' : Held} {l : Label} {v : Volume Path}

/-- While a flush is under way no merge has taken a name. -/
theorem Catalogue.unreplaced (h : Catalogue env s held) (hne : s.flusher ≠ .free) :
    s.compactor.replaced = none := by
  cases hstage : s.compactor with
  | named c minSeq => exact absurd (h.exclusive (by rw [hstage]; rfl)) hne
  | _ => rfl

/-- The table a merge replaces is live. -/
theorem Catalogue.replaced_mem (h : Catalogue env s held) {id : Nat}
    (hid : s.compactor.replaced = some id) : ∃ t ∈ held.tables, t.1 = id := by
  have hback := h.compactor
  cases hstage : s.compactor with
  | named c minSeq =>
      rw [hstage] at hback hid
      obtain ⟨front, stale, last, back, hp, _⟩ := hback
      cases hid
      exact ⟨last, hp.mem, hp.maxId.symm⟩
  | _ =>
      rw [hstage] at hid
      cases hid

theorem Exposed.step (h : Exposed s) (ha : Aired s held) (hf : Files env s held)
    (he : Effect env l s held s' held') (hstep : Step env l s s') : Exposed s' := by
  have hflush : s.flusher ≠ .free → s'.compactor = s.compactor → Exposed s' := by
    intro hne heq id hid
    rw [heq, hf.catalogue.unreplaced hne] at hid
    cases hid
  cases he with
  | number | insert | load | register | drop => exact h
  | log stage fits synced same grew =>
      exact fun id hid hcov => h id hid ((hstep.log_entries.1.covered_iff _).mp hcov)
  | freeze free full =>
      intro id hid
      rw [Compactor.replaced_eq_none_iff.mpr free.2] at hid
      cases hid
  | write stage | place table stage | count stage | record stage | publish stage
  | relog wal stage | clear stage => exact hflush (by simp [stage]) rfl
  | list | choose | abandon | bound | merge | finish =>
      intro id hid
      cases hid
  | @name _ _ w c minSeq stage free same grew =>
      intro id hid
      cases hid
      have hback := hf.compactor
      rw [stage] at hback
      obtain ⟨front, stale, last, back, hp, -, i, hb⟩ := hback
      cases hstep with
      | name _ _ run =>
          cases (Fs.rename_some hb.name).symm.trans run
          refine not_covered_rename hf.sound (by simp) hb.name (by simp)
            (ha _ (System.mem_aired.mpr (Or.inr (Or.inr (Or.inr (Or.inl ⟨last, hp.mem, ?_, ?_⟩))))))
          · simp [stage, Compactor.replaced]
          · rw [hp.maxId]
  | reopen opts idle loading live opened =>
      intro id hid
      rw [show s.compactor = .free from idle.compactor] at hid
      cases hid

/-- The names a recovery starts from depend on `CURRENT` and the manifest alone. -/
theorem recoveryNames_same {dir : String} {u : Volume Path} {ps : List Path}
    (hsame : SameExcept ps u v) (hcur : currentPath dir ∉ ps)
    (hman : ∀ g, manifestPath dir g ∉ ps) : recoveryNames env dir v = recoveryNames env dir u := by
  unfold recoveryNames
  simp only [hsame.files _ hcur, hsame.files _ (hman _)]

theorem namesSettled_iff {dir : String} {names : List Path}
    (h : recoveryNames env dir v = some names) :
    NamesSettled env dir v ↔ ∀ p ∈ names, v.Covered p := by
  constructor
  · rintro ⟨names', hnames, hcov⟩
    cases h.symm.trans hnames
    exact hcov
  · exact fun hcov => ⟨names, h, hcov⟩

/-- Between two sections the names are settled unless a merge has just taken one. -/
theorem Aired.settled_iff (h : Aired s held) (he : Exposed s) (hf : Files env s held) :
    NamesSettled env s.db.dir s.w.vol ↔ s.compactor.publishing = false := by
  rw [← Compactor.replaced_eq_none_iff]
  refine ⟨fun hs => ?_, h.settled hf⟩
  by_contra hne
  obtain ⟨id, hid⟩ := Option.ne_none_iff_exists'.mp hne
  obtain ⟨t, ht, rfl⟩ := hf.catalogue.replaced_mem hid
  refine he _ hid ((namesSettled_iff hf.catalogue.recoveryNames_eq).mp hs _ ?_)
  simp only [vitalNames, hf.live, List.mem_cons, List.mem_map, List.mem_append]
  exact Or.inr (Or.inr (Or.inr ⟨_, Or.inl ⟨t, ht, rfl⟩, rfl⟩))

/-- They stay settled where none of them is created or renamed. -/
theorem Aired.settled_beside (h : Aired s held) (hf : Files env s held)
    (hc : s.compactor.replaced = none) {ps : List Path} (hsame : SameExcept ps s.w.vol v)
    (hcur : currentPath s.db.dir ∉ ps) (hman : ∀ g, manifestPath s.db.dir g ∉ ps)
    (hwal : walPath s.db.dir ∉ ps)
    (hsst : ∀ id ∈ (applyAll held.edits).liveTables.keys, sstPath s.db.dir id ∉ ps) :
    NamesSettled env s.db.dir v := by
  have hnames := hf.catalogue.recoveryNames_eq
  have hsettled := (namesSettled_iff hnames).mp (h.settled hf hc)
  refine (namesSettled_iff ((recoveryNames_same hsame hcur hman).trans hnames)).mpr fun p hp =>
    hsame.covered p ?_ (hsettled p hp)
  simp only [vitalNames, List.mem_cons, List.mem_map] at hp
  rcases hp with rfl | rfl | rfl | ⟨id, hid, rfl⟩
  · exact hwal
  · exact hcur
  · exact hman _
  · exact hsst id hid

/-- The part of an append that has reached the manifest counts. -/
theorem ManifestOpen.recoveryNames_part {dir : String} {u : Volume Path} {m : Manifest}
    {edits batch : List VersionEdit} {g j k n : Nat} {ps : List Path}
    (h : ManifestOpen env dir u m edits g j) (hne : edits ≠ []) (hbatch : ∀ e ∈ batch, e.Fits)
    (hsame : SameExcept ps u v) (hcur : currentPath dir ∉ ps)
    (hb : v.Bound (manifestPath dir g) j
      (manifestBytes env edits ++ (editFrames env batch).take k) n) :
    recoveryNames env dir v = some (vitalNames dir g
      (applyAll (edits ++ batch.take (wholeEdits env batch k)))) := by
  obtain ⟨c, hc⟩ := h.live.named.current
  exact recoveryNames_of_bound h.generation (hc.same hsame hcur) hb
    (replayManifest_cut hne h.fits hbatch k)

/-- A table that edits leave live was live before, or they add it. -/
theorem mem_keys_foldl_apply {id : Nat} {edits : List VersionEdit} {st : ManifestState}
    (h : id ∈ (edits.foldl ManifestState.apply st).liveTables.keys) :
    id ∈ st.liveTables.keys ∨ .addTable id ∈ edits := by
  induction edits generalizing st with
  | nil => exact Or.inl h
  | cons e edits ih =>
      rcases ih h with h | h
      · obtain ⟨x, hx, rfl⟩ := List.mem_map.mp h
        cases e with
        | addTable id =>
            rcases SortedMap.mem_insertEntry hx with rfl | hx
            · exact Or.inr List.mem_cons_self
            · exact Or.inl (List.mem_map.mpr ⟨x, hx, rfl⟩)
        | deleteTable id =>
            exact Or.inl (List.mem_map.mpr ⟨x, List.mem_of_mem_filter hx, rfl⟩)
        | setNextSstId | setNextSeq => exact Or.inl (List.mem_map.mpr ⟨x, hx, rfl⟩)
      · exact Or.inr (List.mem_cons_of_mem _ h)

/-- The readers of a picked run but its newest table have the ids of the stale tables. -/
theorem Picked.take_run {sstables : List SsTable}
    {tables front stale back : List (Nat × List Record)}
    {c : DbInner.Choice} {last : Nat × List Record} {dir : String} {bloomEnabled : Bool}
    (h : Picked sstables tables c front stale last back)
    (hread : TablesRead env dir bloomEnabled v sstables tables) :
    (c.run.take (c.run.length - 1)).map SsTable.id = stale.map Prod.fst := by
  obtain ⟨F, S, L, B, _, hrun, _, _, hS, _⟩ := h.read hread
  rw [hrun, List.length_append, List.length_singleton, Nat.add_sub_cancel, List.take_left]
  exact TablesRead.ids hS

theorem Picked.stale_lt_maxId {sstables : List SsTable}
    {tables front stale back : List (Nat × List Record)} {c : DbInner.Choice}
    {last : Nat × List Record} (h : Picked sstables tables c front stale last back)
    (hids : (tables.map Prod.fst).Pairwise (· < ·)) : ∀ t ∈ stale, t.1 < c.maxId := by
  intro t ht
  rw [h.tables, List.map_append, List.map_append, List.map_append] at hids
  rw [h.maxId]
  have hrun := (List.pairwise_append.mp (List.pairwise_append.mp hids).1).2.1
  exact (List.pairwise_append.mp hrun).2.2 _ (List.mem_map.mpr ⟨t, ht, rfl⟩) _ (by simp)

theorem Step.finish_run (h : Step env .finish s s') : ∃ c minSeq db,
    s.compactor = .named c minSeq ∧ DbInner.finishCompaction env s.db.dir s.db.opts.bloomEnabled
      c.run c.maxId s.db s.w = (.ok (), db, s'.w) := by
  cases h with
  | finish stage run => exact ⟨_, _, _, stage, run⟩

/-- The rest of a compaction has the names settled all along: it unsettles those of the stale
tables only, and only once the manifest does not have them any more. -/
theorem Aired.settled_finishing (h : Aired s held) (hf : Files env s held)
    (he : Effect env .finish s held s' held') (hstep : Step env .finish s s')
    (hv : s.w.Passes s'.w v) : NamesSettled env s.db.dir v := by
  obtain ⟨c', minSeq', db, stage', run⟩ := hstep.finish_run
  cases he with
  | @finish _ _ w c minSeq g j front stale back last sstables stage picked _ manifest _ grew =>
      cases stage.symm.trans stage'
      have hcov : ∀ p : Path, p.dir = s.db.dir →
          p ∉ stale.map (fun t => sstPath s.db.dir t.1) → v.Covered p := by
        intro p hdir hp
        refine finishCompaction_covers run hv p hdir fun hmem => hp ?_
        have hids := congrArg (List.map (sstPath s.db.dir)) (picked.take_run hf.read)
        rw [List.map_map, List.map_map] at hids
        exact hids ▸ hmem
      have hlive := hf.live
      rw [hf.exclusive (by rw [stage]; rfl)] at hlive
      have hkeys : (applyAll held.edits).liveTables.keys = held.tables.map Prod.fst :=
        hlive.trans (List.append_nil _)
      have hmem : ∀ t ∈ stale, t ∈ held.tables := by
        intro t ht
        rw [picked.tables]
        exact List.mem_append_left _ (List.mem_append_right _ (List.mem_append_left _ ht))
      have hdelete := deleteEdits_fit manifest.fits hkeys hmem
      cases grew.of_passes hv with
      | @recording k n same bound durable =>
          refine ⟨_, manifest.recoveryNames_part hf.recorded hdelete same (by simp) bound,
            fun p hp => ?_⟩
          by_cases hstale : p ∈ stale.map (fun t => sstPath s.db.dir t.1)
          · obtain ⟨t, ht, rfl⟩ := List.mem_map.mp hstale
            refine same.covered _ (by simp) (h _ (System.mem_aired.mpr ?_))
            refine Or.inr (Or.inr (Or.inr (Or.inl ⟨t, hmem t ht, ?_, rfl⟩)))
            rw [stage]
            exact fun heq => picked.stale_lt_maxId hf.ids t ht |>.ne (Option.some.inj heq).symm
          · exact hcov p (dir_vitalNames hp) hstale
      | removing gone part same bound =>
          have hfits : ∀ e ∈ held.edits ++ deleteEdits stale, e.Fits := fun e he =>
            (List.mem_append.mp he).elim (manifest.fits e) (hdelete e)
          refine ⟨vitalNames s.db.dir g (applyAll (held.edits ++ deleteEdits stale)), ?_,
            fun p hp => hcov p (dir_vitalNames hp) fun hstale => ?_⟩
          · obtain ⟨cur, hcur⟩ := manifest.live.named.current
            exact recoveryNames_of_bound manifest.generation (hcur.same same (by simp)) bound
              (replayManifest_manifestBytes hfits)
          · obtain ⟨t, ht, rfl⟩ := List.mem_map.mp hstale
            have hkey : t.1 ∈ (applyAll (held.edits ++ deleteEdits stale)).liveTables.keys := by
              simpa [vitalNames] using hp
            rw [applyAll, List.foldl_append, keys_foldl_delete, List.mem_filter] at hkey
            exact (of_decide_eq_true hkey.2) (List.mem_map.mpr ⟨t, ht, rfl⟩)

/-- On the way of an append to the manifest the names are settled: the table it adds has a
settled name already. -/
theorem Aired.settled_recording (h : Aired s held) (hf : Files env s held)
    (he : Effect env .record s held s' held') (hstep : Step env .record s s')
    (hv : s.w.Passes s'.w v) : NamesSettled env s.db.dir v := by
  have hkept := hstep.record_entries.2 v hv
  cases he with
  | @record _ _ w m id table a b g j stage manifest same grew =>
      have hnone := hf.catalogue.unreplaced (by simp [stage])
      have hback := hf.flusher
      have hlive := hf.live
      rw [stage] at hback hlive
      obtain ⟨hflush, -, -, ha, hb⟩ := hback
      obtain ⟨k, n, -, hbound⟩ := (grew.of_passes hv).part
      refine ⟨_, manifest.recoveryNames_part hf.recorded (hflush.edits_fit ha hb)
        (grew.of_passes hv).same (by simp) hbound,
        fun p hp => (hkept.covered_iff p).mpr (h p (System.mem_aired.mpr ?_))⟩
      obtain rfl : s.db.manifest.generation = g := by rw [manifest.handle]; rfl
      simp only [vitalNames, List.mem_cons, List.mem_map] at hp
      rcases hp with hp | hp | hp | ⟨x, hx, rfl⟩
      · exact Or.inl hp
      · exact Or.inr (Or.inl hp)
      · exact Or.inr (Or.inr (Or.inl hp))
      · rw [applyAll, List.foldl_append] at hx
        rcases mem_keys_foldl_apply hx with hx | hx
        · obtain ⟨t, ht, rfl⟩ := List.mem_map.mp (List.append_nil _ ▸ hlive ▸ hx)
          exact Or.inr (Or.inr (Or.inr (Or.inl ⟨t, ht, by simp [hnone], rfl⟩)))
        · obtain rfl : x = id := by simpa [flushEdits] using List.mem_of_mem_take hx
          exact Or.inr (Or.inr (Or.inr (Or.inr ⟨x, by simp [stage, Flusher.placedId], rfl⟩)))

/-- While the log is replaced the names are settled but for the moment behind the rename. -/
theorem Aired.settled_relogging (h : Aired s held) (hf : Files env s held)
    (he : Effect env .relog s held s' held') (hstep : Step env .relog s s')
    (hv : s.w.Passes s'.w v) :
    NamesSettled env s.db.dir v ↔ v ≠ (DbInner.replaceWal env s.db s.w).2.2.vol := by
  obtain ⟨w₁, i, u, hrun₁, hbound, hsame, hvol, hgrew⟩ :=
    replaceWal_quiet env s.db hf.quiet hf.sound
  have hnone : s.compactor.replaced = none := by
    cases he with
    | relog wal stage => exact hf.catalogue.unreplaced (by simp [stage])
  have hwal : u.Covered (walPath s.db.dir) :=
    hsame.covered _ (by simp) (h _ List.mem_cons_self)
  have hrenamed : ¬ w₁.vol.Covered (walPath s.db.dir) := by
    rw [hvol]
    exact not_covered_rename (hsame.sound hf.sound) (by simp) hbound.name (by simp) hwal
  -- settled and behind the rename exclude each other
  have hiff : ∀ {v}, NamesSettled env s.db.dir v → (NamesSettled env s.db.dir v ↔ v ≠ w₁.vol) :=
    fun hset => iff_of_true hset fun heq => hrenamed (heq ▸ hset.log)
  rw [hrun₁]
  cases hstep with
  | @relog _ db w m stage free run =>
      cases (rewriteWal_of_replaceWal hrun₁).symm.trans run
      rcases hgrew.passes_before hv with rfl | hv
      · cases he with
        | relog wal _ _ _ covered same =>
            refine hiff ⟨_, (recoveryNames_same same (by simp) (by simp)).trans
              hf.catalogue.recoveryNames_eq, fun p hp => covered p (dir_vitalNames hp)⟩
      · rcases hgrew.of_passes hv with hsame | rfl
        · exact hiff (h.settled_beside hf hnone hsame (by simp) (by simp) (by simp) (by simp))
        · exact iff_of_false (fun hset => hrenamed hset.log) (by simp)

/-- At every volume on the way of a section the names are settled, unless one that was taken
by a rename waits for the sync of the directory. -/
theorem Aired.settled_passing (h : Aired s held) (hex : Exposed s) (hf : Files env s held)
    (hf' : Files env s' held') (he : Effect env l s held s' held') (hstep : Step env l s s')
    (hl : ∀ opts, l ≠ .reopen opts)
    (hv : s.w.Passes s'.w v) : NamesSettled env s.db.dir v ↔ ¬ Awaiting env s v l := by
  have hflush : s.flusher ≠ .free → ¬ s.compactor.publishing = true :=
    fun hne hpub => hne (hf.exclusive hpub)
  cases l with
  | relog => exact h.settled_relogging hf he hstep hv
  | finish => exact iff_of_true (h.settled_finishing hf he hstep hv) not_false
  | log =>
      have hkept := hstep.log_entries.2 v hv
      cases he with
      | log stage fits synced same grew =>
          obtain ⟨i, n, -, happ⟩ := grew.of_passes hv
          have hnames : recoveryNames env s.db.dir v = recoveryNames env s.db.dir s.w.vol :=
            recoveryNames_same happ.same (by simp) (by simp)
          have hsettled := h.settled_iff hex hf
          rw [← Bool.not_eq_true] at hsettled
          simp only [NamesSettled, hnames, hkept.covered_iff]
          exact hsettled
  | record =>
      refine iff_of_true (h.settled_recording hf he hstep hv) ?_
      cases he with
      | record stage => exact hflush (by simp [stage])
  | name =>
      have hsettled := (h.step hf he hstep).settled_iff (hex.step h hf he hstep) hf'
      cases he with
      | name stage free same grew =>
          rw [grew.of_passes hv]
          exact hsettled.trans (iff_of_false (by simp [Compactor.publishing]) (by simp [Awaiting]))
  | write =>
      cases he with
      | write stage same grew =>
          exact iff_of_true (h.settled_beside hf (hf.catalogue.unreplaced (by simp [stage]))
            (grew.of_passes hv) (by simp) (by simp) (by simp) (by simp)) (hflush (by simp [stage]))
  | place =>
      cases he with
      | @place _ _ w m id table stage covered same grew =>
          refine iff_of_true (h.settled_beside hf (hf.catalogue.unreplaced (by simp [stage]))
            (grew.of_passes hv) (by simp) (by simp) (by simp) fun x hx => ?_)
            (hflush (by simp [stage]))
          have hback := hf.flusher
          have hlive := hf.live
          rw [stage] at hback hlive
          have hkeys : (applyAll held.edits).liveTables.keys = held.tables.map Prod.fst :=
            hlive.trans (List.append_nil _)
          rw [hkeys] at hx
          obtain ⟨t, ht, rfl⟩ := List.mem_map.mp hx
          exact (above_paths s.db.dir hback.1.above t ht).2
  | merge =>
      cases he with
      | merge stage same grew =>
          refine iff_of_true (h.settled_beside hf (by rw [stage]; rfl)
            (grew.of_passes hv) (by simp) (by simp) (by simp) (by simp)) ?_
          simp [Awaiting, stage, Compactor.publishing]
  | reopen opts => exact absurd rfl (hl opts)
  | _ =>
      cases he
      exact absurd hv World.not_passes_self

end Windows

section Runs

variable {env : Env} {dir : String} {s s' : System} {held held' : Held} {l : Label}

/-- No step leaves the directory. -/
theorem Effect.dir_eq (h : Effect env l s held s' held') : s'.db.dir = s.db.dir := by
  cases h with
  | reopen opts idle loading live opened => exact opened.inDir
  | _ => rfl

/-- A database on a fresh directory stays in it, with its files in order. -/
theorem Reached.files (h : Reached env dir (Fits env) s) :
    ∃ held, Files env s held ∧ s.db.dir = dir := by
  obtain ⟨opts, v, db, w, hfresh, hopen, hrun⟩ := h
  obtain ⟨db', w', hopen', hopened, hfiles⟩ := Files.fresh (w := World.start v) env opts
    (World.quiet_start v) (by simp [World.start]) hfresh
  cases hopen'.symm.trans hopen
  refine hrun.keeps (P := fun s => ∃ held, Files env s held ∧ s.db.dir = dir) ?_
    ⟨_, hfiles, hopened.inDir⟩
  rintro l s s' ⟨held, hf, hdir⟩ hfits hstep
  obtain ⟨held', heff, hf'⟩ := hf.step hfits hstep
  exact ⟨held', hf', heff.dir_eq.trans hdir⟩

/-- Names that are settled stay so along a run, but for the one a merge takes. -/
theorem Steps.aired (h : Steps env (Fits env) s s')
    (hs : ∃ held, Files env s held ∧ s.db.dir = dir ∧ Aired s held ∧ Exposed s) :
    ∃ held, Files env s' held ∧ s'.db.dir = dir ∧ Aired s' held ∧ Exposed s' := by
  refine h.keeps (P := fun s => ∃ held, Files env s held ∧ s.db.dir = dir ∧ Aired s held ∧
    Exposed s) ?_ hs
  rintro l s s' ⟨held, hf, hdir, haired, hexposed⟩ hfits hstep
  obtain ⟨held', heff, hf'⟩ := hf.step hfits hstep
  exact ⟨held', hf', heff.dir_eq.trans hdir, haired.step hf heff hstep,
    hexposed.step haired hf heff hstep⟩

/-- A sync of the directory leaves no name of a merge behind. -/
theorem Effect.unreplaced (h : Effect env l s held s' held') (hf : Files env s held)
    (hl : l.settles = true) : s'.compactor.replaced = none := by
  cases h with
  | place table stage => exact hf.catalogue.unreplaced (by simp [stage])
  | relog wal stage => exact hf.catalogue.unreplaced (by simp [stage])
  | finish => rfl
  | reopen opts idle =>
      show s.compactor.replaced = none
      rw [idle.compactor]
      rfl
  | _ => cases hl

/-- In every interleaving, from the first sync of the directory on that follows the creation of
the log (by a flush that names its table or replaces the log, by a compaction that finishes, or
by another open), every name a recovery starts from is settled, and so when a write returns,
exactly while no name taken by a rename waits for the sync of the directory behind it.  Between
two sections that is the name of a merge.  On the way of a section it is that name or, between
the two last changes of the section that replaces the log, the log itself. -/
theorem names_settled_by_sync (env : Env) (dir : String) {s₀ s₁ s₂ : System} {l : Label}
    (h₀ : Reached env dir (Fits env) s₀) (hl : l.settles = true) (hfits : Fits env l s₀)
    (h₁ : Step env l s₀ s₁) (h₂ : Steps env (Fits env) s₁ s₂) :
    (NamesSettled env dir s₂.w.vol ↔ s₂.compactor.publishing = false) ∧
      ∀ l' s₃ v, Fits env l' s₂ → Step env l' s₂ s₃ → (∀ opts, l' ≠ .reopen opts) →
        s₂.w.Passes s₃.w v → (NamesSettled env dir v ↔ ¬ Awaiting env s₂ v l') := by
  obtain ⟨held₀, hf₀, hdir₀⟩ := h₀.files
  obtain ⟨held₁, heff, hf₁⟩ := hf₀.step hfits h₁
  have hexposed₁ : Exposed s₁ := by
    intro id hid
    rw [heff.unreplaced hf₀ hl] at hid
    cases hid
  obtain ⟨held₂, hf₂, hdir₂, haired, hexposed⟩ := h₂.aired
    ⟨held₁, hf₁, heff.dir_eq.trans hdir₀, heff.airs hf₀ h₁ hl, hexposed₁⟩
  rw [← hdir₂]
  refine ⟨haired.settled_iff hexposed hf₂, fun l' s₃ v hfits₃ h₃ hopen hv => ?_⟩
  obtain ⟨held₃, heff₃, hf₃⟩ := hf₂.step hfits₃ h₃
  exact haired.settled_passing hexposed hf₂ hf₃ heff₃ h₃ hopen hv

/-- A write that returns behind the first flush, and an empty batch that returns while the
flush replaces the log. -/
theorem names_settled_by_sync_flushed :
    ∃ s₀ s₁ s₂ s₃ s₄, Reached Stock.env "db" (Fits Stock.env) s₀ ∧ Step Stock.env .place s₀ s₁ ∧
      Steps Stock.env (Fits Stock.env) s₁ s₂ ∧ Step Stock.env .insert s₂ s₃ ∧
      NamesSettled Stock.env "db" s₃.w.vol ∧ Step Stock.env .relog s₃ s₄ ∧
      ∀ v, s₃.w.Passes s₄.w v → (NamesSettled Stock.env "db" v ↔
        v ≠ (DbInner.replaceWal Stock.env s₃.db s₃.w).2.2.vol) := by
  have hrun : ((System.start Stock.env "db" Options.default).bind
      (System.execAll Stock.env (fun _ _ => true)
        (System.writeSteps [([1], some [2])] ++ [.freeze, .write]))).any (fun s₀ =>
      (System.exec Stock.env .place s₀).any fun s₁ =>
        (System.execAll Stock.env (fun _ _ => true)
          [.count, .record, .publish, .number [([1], none)], .log] s₁).any fun s₂ =>
            (System.exec Stock.env .insert s₂).any fun s₃ => !s₃.compactor.publishing &&
              (System.exec Stock.env .relog s₃).isSome) = true := by
    decide +kernel
  obtain ⟨s₀, hreached, hrun₀⟩ := System.execAll_any hrun
  obtain ⟨s₁, hplace, hrun₁⟩ := exists_of_any hrun₀
  obtain ⟨s₂, hsteps, hrun₂⟩ := exists_of_any hrun₁
  obtain ⟨s₃, hinsert, htest⟩ := exists_of_any hrun₂
  obtain ⟨hpub, hrelog⟩ := Bool.and_eq_true_iff.mp htest
  obtain ⟨s₄, hs₄⟩ := Option.isSome_iff_exists.mp hrelog
  have h₀ := hreached.weaken fun _ _ h => h.1
  have h₁ := System.exec_step hplace
  have h₂ := (System.execAll_steps hsteps).weaken fun _ _ h => h.1
  have h₃ := System.exec_step hinsert
  have h₄ := System.exec_step hs₄
  obtain ⟨hrest, hway⟩ := names_settled_by_sync Stock.env "db"
    (l := .place) h₀ rfl trivial h₁ (h₂.tail ⟨.insert, trivial, h₃⟩)
  exact ⟨s₀, s₁, s₂, s₃, s₄, h₀, h₁, h₂, h₃, hrest.mpr (by simpa using hpub), h₄,
    fun v hv => hway .relog s₄ v trivial h₄ (by simp) hv⟩

/-- The first write to a fresh directory returns, under `Durable`, while the name of the log it
is in would not survive a loss of power. -/
theorem first_write_log_unsettled :
    ∃ s s', Reached Stock.env "db" (Fits Stock.env) s ∧ s.db.opts.syncWal = .durable ∧
      Step Stock.env .insert s s' ∧ s'.w.vol.settled (walPath "db") = none ∧
      ¬ NamesSettled Stock.env "db" s'.w.vol := by
  have hrun : ((System.start Stock.env "db" Options.default).bind
      (System.execAll Stock.env (fun _ _ => true) [.number [([1], some [2])], .log])).any
      (fun s => decide (s.db.opts.syncWal = .durable) &&
        (System.exec Stock.env .insert s).any fun s' =>
          decide (s'.w.vol.settled (walPath "db") = none ∧
            s'.w.vol.lookup (walPath "db") ≠ none)) = true := by
    decide +kernel
  obtain ⟨s, hreached, htest⟩ := System.execAll_any hrun
  obtain ⟨hsync, hinsert⟩ := Bool.and_eq_true_iff.mp htest
  obtain ⟨s', hs', hnames⟩ := exists_of_any hinsert
  obtain ⟨hsettled, hlookup⟩ := of_decide_eq_true hnames
  refine ⟨s, s', hreached.weaken fun _ _ h => h.1, of_decide_eq_true hsync, System.exec_step hs',
    hsettled, fun h => hlookup ?_⟩
  have hlog := h.log
  unfold Covered at hlog
  exact hlog.symm.trans hsettled

end Runs

end LsmKv
