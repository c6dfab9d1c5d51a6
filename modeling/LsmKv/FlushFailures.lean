import LsmKv.Crash
import LsmKv.Failures
import LsmKv.Steady
import LsmKv.TableIds

/-!
# Flushes that fail

A flush that fails gives up its lock, leaves the frozen slot as it is and latches the failure;
`health` is asked before a lock is taken, so threads that have passed it may go on behind the
failure.

A `Crowd` is a handle with the threads inside it, those that are past `health` and wait for
their lock, and the failures nobody has latched yet.

**Results.**
* `Fails.stranded`: whichever call of a flush fails, the directory holds all that was written,
  in tables, a manifest and a log that an open can read.
* `failed_flush_keeps_writes`: so no write is lost, as long as no flush freezes and no compaction
  publishes over a slot that a failed flush has left, no compaction fails while it publishes, and
  no write goes into a log that refuses it or has lost its name.
* `second_flush_loses_write`: a flush that does freeze over such a slot loses a write.
* `poisoned_handle_drains`: once a failure is latched, no more writes come in than there were
  threads past the check.
-/

namespace LsmKv

open Foundation Volume Versioning

/-- A handle, and the threads at its door. -/
structure Crowd where
  sys : System
  /-- Writes that are past `health` and wait for the WAL lock. -/
  writers : Nat
  /-- Flushes that are past `health` and wait for the flush lock. -/
  flushes : Nat
  /-- Compaction steps that are past `health` and wait for the compaction lock. -/
  compactions : Nat
  /-- Failures that are not latched yet. -/
  failures : List Error

/-- What a thread may do next. -/
inductive Move
  | enterWrite
  | enterFlush
  | enterCompaction
  | take (l : Label)
  /-- A flush finds nothing to do. -/
  | pass
  /-- The log refuses a batch. -/
  | refuse
  | fail (l : Label) (e : Error)
  | latch (e : Error)

/-- Whether a thread asks `health`. -/
def Move.enters : Move → Bool
  | .enterWrite | .enterFlush | .enterCompaction => true
  | _ => false

/-- The sections of threads that hold their lock, and those of snapshots. -/
def Label.inside : Label → Bool
  | .number _ | .freeze | .list | .reopen _ => false
  | _ => true

theorem Label.opens_of_inside {l : Label} (h : l.inside = true) : l.opens = false := by
  cases l <;> first | rfl | cases h

/-- One move of one thread. -/
inductive Crowd.Step (env : Env) : Move → Crowd → Crowd → Prop
  | enterWrite {x : Crowd} {db : DbInner} {w : World}
      (healthy : DbInner.health x.sys.db x.sys.w = (.ok (), db, w)) :
      Crowd.Step env .enterWrite x { x with writers := x.writers + 1 }
  | enterFlush {x : Crowd} {db : DbInner} {w : World}
      (healthy : DbInner.health x.sys.db x.sys.w = (.ok (), db, w)) :
      Crowd.Step env .enterFlush x { x with flushes := x.flushes + 1 }
  | enterCompaction {x : Crowd} {db : DbInner} {w : World}
      (healthy : DbInner.health x.sys.db x.sys.w = (.ok (), db, w)) :
      Crowd.Step env .enterCompaction x { x with compactions := x.compactions + 1 }
  | write {x : Crowd} {s : System} {n : Nat} {batch : WriteBatch} (waiting : x.writers = n + 1)
      (step : LsmKv.Step env (.number batch) x.sys s) :
      Crowd.Step env (.take (.number batch)) x { x with sys := s, writers := n }
  | flush {x : Crowd} {s : System} {n : Nat} (waiting : x.flushes = n + 1)
      (step : LsmKv.Step env .freeze x.sys s) :
      Crowd.Step env (.take .freeze) x { x with sys := s, flushes := n }
  | pass {x : Crowd} {db : DbInner} {w : World} {n : Nat} (waiting : x.flushes = n + 1)
      (free : x.sys.flushLockFree)
      (run : DbInner.freeze x.sys.db x.sys.w = (.ok none, db, w)) :
      Crowd.Step env .pass x { x with flushes := n }
  | compact {x : Crowd} {s : System} {n : Nat} (waiting : x.compactions = n + 1)
      (step : LsmKv.Step env .list x.sys s) :
      Crowd.Step env (.take .list) x { x with sys := s, compactions := n }
  | go {x : Crowd} {s : System} {l : Label} (inside : l.inside = true)
      (step : LsmKv.Step env l x.sys s) : Crowd.Step env (.take l) x { x with sys := s }
  | refuse {x : Crowd} {s : System} (refuses : Refuses env x.sys s) :
      Crowd.Step env .refuse x { x with sys := s }
  | fail {x : Crowd} {l : Label} {e : Error} {db : DbInner} {v : Volume Path}
      (fails : Fails env e l x.sys db) (breaks : x.sys.BreaksAt env l v) :
      Crowd.Step env (.fail l e) x
        { x with
          sys := x.sys.gaveUp l db (x.sys.w.touch (fun _ => v))
          failures := e :: x.failures }
  | latch {x : Crowd} {e : Error} {r : Except Error Unit} {db : DbInner} {w : World}
      (failed : e ∈ x.failures)
      (run : (DbInner.latch e : M DbInner Unit) x.sys.db x.sys.w = (r, db, w)) :
      Crowd.Step env (.latch e) x
        { x with
          sys := { x.sys with db := db, w := w }
          failures := x.failures.erase e }

/-- Moves one after another, each of which `ok` admits. -/
def Crowd.Moves (env : Env) (ok : Move → Crowd → Prop) : Crowd → Crowd → Prop :=
  Relation.ReflTransGen (fun x y => ∃ m, ok m x ∧ Crowd.Step env m x y)

/-- The states of a database opened on a fresh directory. -/
def Crowd.Reached (env : Env) (dir : String) (ok : Move → Crowd → Prop) (x : Crowd) : Prop :=
  ∃ opts v db w, FreshDir dir v ∧
    (assemble env dir opts : M Unit DbInner) () (World.start v) = (.ok db, (), w) ∧
    Crowd.Moves env ok ⟨System.opened db w, 0, 0, 0, []⟩ x

/-- What a move writes fits the formats; a flush freezes and a compaction names its table only
where the frozen slot is empty, a compaction does not fail from the naming of its table on, and a
write goes into the log only where the handle has the file of that name open and the log takes
it. -/
structure Crowd.Minds (env : Env) (m : Move) (x : Crowd) : Prop where
  takes : ∀ l, m = .take l → Fits env l x.sys
  fails : ∀ l e, m = .fail l e → Fits env l x.sys ∧ l ≠ .name ∧ l ≠ .finish
  slot : m = .take .freeze ∨ m = .take .name → x.sys.db.frozen = none
  log : m = .take .log →
    x.sys.w.vol.lookup (walPath x.sys.db.dir) = some x.sys.db.wal.file.file
  accepted : m ≠ .refuse

section Recovers

variable {env : Env} {dir : String} {v : Volume Path} {g : Nat}
variable {edits batch : List VersionEdit} {tables : Nat → List (Nat × List Record)}

/-- An open finds the edits that are whole, and all of a log that is whole. -/
theorem Salvage.image (h : Salvage env dir g v edits batch tables) {log : List (List Record)}
    {i n : Nat} (hfits : ∀ b ∈ log, BatchFits b)
    (hlog : v.Bound (walPath dir) i (logBytes env newestLog log) n) :
    ∃ j, Image env dir v (applyAll (edits ++ batch.take j)) (tables j) log.flatten := by
  obtain ⟨c, hcur⟩ := h.current
  obtain ⟨k, cut, m, hman, _⟩ := h.manifest
  have hle := wholeEdits_le env batch cut
  refine ⟨wholeEdits env batch cut, h.sound, ⟨g, c, _, k, _, m, h.generation, hcur, hman,
    replayManifest_cut h.recorded h.editsFit h.batchFit cut⟩, h.live _ hle, h.fit _ hle,
    h.files _ hle, ?_⟩
  have hwhole : replayBytes env ((logBytes env newestLog log).take _) = _ :=
    replayBytes_take hfits (logBytes env newestLog log).length
  rw [List.take_length, List.take_of_length_le
    (le_wholeBatches le_rfl (by rw [List.take_length]))] at hwhole
  unfold walBytes
  rw [hlog.file]
  exact hwhole

/-- Salvage is kept where neither the manifest nor a table is written. -/
theorem Salvage.same (h : Salvage env dir g v edits batch tables) {v' : Volume Path}
    {ps : List Path} (hsame : SameExcept ps v v') (hcur : currentPath dir ∉ ps)
    (hman : manifestPath dir g ∉ ps) (hsst : ∀ id, sstPath dir id ∉ ps) :
    Salvage env dir g v' edits batch tables := by
  obtain ⟨c, hc⟩ := h.current
  obtain ⟨i, k, n, hb, hn⟩ := h.manifest
  exact
    { h with
      sound := hsame.sound h.sound
      current := ⟨c, hc.same hsame hcur⟩
      manifest := ⟨i, k, n, hb.same hsame hman, hn⟩
      files := fun j hj t ht => by
        obtain ⟨i, hb⟩ := h.files j hj t ht
        exact ⟨i, hb.same hsame (hsst _)⟩ }

/-- What an open shows of a directory whose tables, manifest and log hold what a ledger says. -/
theorem Ledger.recovers {s : System} {held : Held} (h : Ledger s held)
    (hseq : s.db.nextSeq ≤ u64Max)
    (hsalvage : Salvage env s.db.dir g v held.edits s.flusher.coming
      (fun j => s.flusher.tablesAt held.tables j))
    (hfits : ∀ b ∈ held.log, BatchFits b) {i n : Nat}
    (hlog : v.Bound (walPath s.db.dir) i (logBytes env newestLog held.log) n) (opts : Options) :
    ∃ n db w', s.written.length ≤ n ∧ n ≤ s.history.length ∧
      (assemble env s.db.dir opts : M Unit DbInner) () (World.start v) = (.ok db, (), w') ∧
      ShowsMap env u64Max (mapAfter (s.history.take n)) db w' := by
  obtain ⟨j, himg⟩ := hsalvage.image hfits hlog
  obtain ⟨w', db, hrun, hs', hopen, _, hgrew⟩ := assemble_quiet (s := ()) (w := World.start v)
    opts (World.quiet_start _) (by simp [World.start]) himg
  -- the log replays as a whole, as if all of it were durable
  have hway : LogOnWay env s held (v.sync i) held.log.length held.log held.log.length :=
    ⟨logCut_self hfits hlog.sync
      (Or.inr ⟨le_rfl, fun _ _ hb => le_of_eq (hlog.sync.unique hb).2.2⟩),
      Or.inl ⟨rfl, Or.inl rfl⟩⟩
  obtain ⟨a, n, hfrom, hap, hn, hn', hspan⟩ := h.log_span hway le_rfl
  rw [List.take_length] at hspan
  exact ⟨n, db, w', hn, hn', hrun,
    h.opened_shows hseq hgrew.quiet hs' himg.fit hopen hfrom hap hn hspan⟩

end Recovers

/-- What holds of a handle on which a flush has failed: `f` is how far the flush had come, and
the log backs the batches from `k` on. -/
structure Stranded (env : Env) (s : System) (f : Flusher) (k : Nat) (held : Held) : Prop where
  quiet : s.w.Quiet
  seq : s.db.nextSeq ≤ u64Max
  stopped : s.flusher = .free
  slot : s.db.frozen ≠ none
  unnamed : s.compactor.publishing = false
  read : TablesRead env s.db.dir s.db.opts.bloomEnabled s.w.vol s.db.sstables held.tables
  fit : TablesFit env held.tables
  ids : (held.tables.map Prod.fst).Pairwise (· < ·)
  compactor : s.compactor.Backed env s.db.dir s.w.vol s.db.sstables held.tables
  salvage : ∃ g, Salvage env s.db.dir g s.w.vol held.edits f.coming
    (fun j => f.tablesAt held.tables j)
  log : ∃ i n, s.w.vol.Bound (walPath s.db.dir) i (logBytes env newestLog held.log) n ∧
    (s.db.wal.file.file = i →
      s.db.wal = Wal.handle i (walPath s.db.dir) s.db.opts.syncWal newestLog)
  batches : ∀ b ∈ held.log, BatchFits b
  numbered : ∀ records, s.writer = .numbered records → records ≠ []
  ledger : Ledger { s with flusher := f, loggedFrom := k } held

section Failing

variable {env : Env} {s s' : System} {held : Held} {l : Label} {e : Error} {db : DbInner}
variable {v : Volume Path}

/-- The fresh log is not the file of the old one. -/
theorem rewriteWal_apart {w w' : World} {db db' : DbInner} {j : Nat} (hq : w.Quiet)
    (hs : w.vol.Sound) (hlog : w.vol.lookup (walPath db.dir) = some j)
    (hrun : DbInner.rewriteWal env db w = (.ok (), db', w')) : db'.wal.file.file ≠ j := by
  have hne : ¬ Shares.may (walTmpPath db.dir) := by simp
  obtain ⟨w₁, i, hrun₁, hb₁, hsame₁, hgrew₁⟩ :=
    Wal.create_bound (s := db) env (walTmpPath db.dir) db.opts.syncWal hq hs hne
  obtain ⟨w₂, n₂, hrun₂, hb₂, hsame₂, hgrew₂⟩ := Wal.appendEach_bound env
    db.opts.syncWal db.active.iter hgrew₁.quiet (hsame₁.sound hs) hne hb₁
  obtain ⟨w₃, hrun₃, hb₃, _, _⟩ := Wal.syncAll_bound db.opts.syncWal
    newestLog hgrew₂.quiet (hsame₂.sound (hsame₁.sound hs)) hne hb₂
  have hfile : db'.wal.file.file = i := by
    unfold DbInner.rewriteWal at hrun
    rw [M.bind_ok (M.self_apply _ _), M.bind_ok hrun₁, M.bind_ok (M.on_ok hrun₂)] at hrun
    dsimp only at hrun
    rw [M.bind_ok (M.on_ok hrun₃)] at hrun
    dsimp only at hrun
    rw [M.bind_ok (M.on_ok (Wal.renameTo_apply (walPath db.dir) hb₃.name))] at hrun
    cases hrun
    rfl
  rw [hfile]
  rintro rfl
  -- both names would be bound to one file once the fresh log is created
  have hboth := (hsame₁.names (walPath db.dir) (by simp)).trans hlog
  have := (hsame₁.sound hs).alone hne hb₁.name hboth
  simp at this

theorem Flusher.slot_ne_none {f : Flusher} (h : f ≠ .free) : f.slot ≠ none := by
  cases f with
  | free => exact absurd rfl h
  | _ => simp [Flusher.slot]

/-- While a flush is under way no compaction has named its table. -/
theorem Catalogue.unnamed (h : Catalogue env s held) (hbusy : s.flusher ≠ .free) :
    s.compactor.publishing = false := by
  by_contra hpub
  exact hbusy (h.exclusive (by simpa using hpub))

/-- The handle and the files that a failed flush leaves. -/
theorem Stored.stranded (h : Stored env s held) (hbusy : s.flusher ≠ .free) {ps : List Path}
    (hsame : SameExcept ps s.w.vol v)
    (hps : ∀ t ∈ held.tables, sstTmpPath s.db.dir t.1 ∉ ps ∧ sstPath s.db.dir t.1 ∉ ps)
    {f : Flusher} {g k : Nat} {log : List (List Record)} (nextSstId : Nat) (manifest : Manifest)
    (hsalvage : Salvage env s.db.dir g v held.edits f.coming (fun j => f.tablesAt held.tables j))
    (hlog : ∃ i n, v.Bound (walPath s.db.dir) i (logBytes env newestLog log) n ∧
      (s.db.wal.file.file = i →
        s.db.wal = Wal.handle i (walPath s.db.dir) s.db.opts.syncWal newestLog))
    (hbatches : ∀ b ∈ log, BatchFits b)
    (hledger : Ledger { s with flusher := f, loggedFrom := k } { held with log := log }) :
    Stranded env
      { s with
        db := { s.db with nextSstId := nextSstId, manifest := manifest }
        w := s.w.touch (fun _ => v)
        flusher := .free } f k { held with log := log } where
  quiet := h.quiet.touch (fun _ => v)
  seq := h.seq
  stopped := rfl
  slot := by
    show s.db.frozen ≠ none
    rw [h.slot]
    exact Flusher.slot_ne_none hbusy
  unnamed := h.unnamed hbusy
  read := h.read.same hsame
  fit := h.fit
  ids := h.ids
  compactor := h.compactor.same hsame hps
  salvage := ⟨g, hsalvage⟩
  log := hlog
  batches := hbatches
  numbered := h.numbered
  ledger := { hledger with }

/-- A failure that has touched neither the log nor the manifest nor a table. -/
theorem Stored.stranded_aside (h : Stored env s held) (hl : Ledger s held)
    (hbusy : s.flusher ≠ .free) {ps : List Path} (hsame : SameExcept ps s.w.vol v)
    (hwal : walPath s.db.dir ∉ ps) (hcur : currentPath s.db.dir ∉ ps)
    (hman : ∀ g, manifestPath s.db.dir g ∉ ps)
    (hps : ∀ t ∈ held.tables, sstTmpPath s.db.dir t.1 ∉ ps ∧ sstPath s.db.dir t.1 ∉ ps)
    (hcoming : ∀ j ≤ s.flusher.coming.length, ∀ t ∈ s.flusher.tablesAt held.tables j,
      sstPath s.db.dir t.1 ∉ ps) (nextSstId : Nat) (manifest : Manifest) :
    Stranded env
      { s with
        db := { s.db with nextSstId := nextSstId, manifest := manifest }
        w := s.w.touch (fun _ => v)
        flusher := .free } s.flusher s.loggedFrom held := by
  obtain ⟨i, n, hlog⟩ := h.log
  exact h.stranded hbusy hsame hps nextSstId manifest
    (h.salvage (Compactor.replaced_eq_none_iff.mpr (h.unnamed hbusy)) hsame hcur hcoming
      (h.manifestPart hsame hman _))
    ⟨i, n, hlog.bound.same hsame hwal, fun _ => hlog.handle⟩ h.batches { hl with }

/-- A failure while the edits of a flush are recorded. -/
theorem Stored.stranded_record (h : Stored env s held) (hl : Ledger s held) {m : MemTable}
    {id a b : Nat} {table : SsTable} (stage : s.flusher = .counted m id table a b)
    (hstep : Step env .record s s') (hbreaks : s.w.Breaks s'.w v) (nextSstId : Nat)
    (manifest : Manifest) :
    ∃ f k held', Stranded env
      { s with
        db := { s.db with nextSstId := nextSstId, manifest := manifest }
        w := s.w.touch (fun _ => v)
        flusher := .free } f k held' := by
  have hbusy : s.flusher ≠ .free := by simp [stage]
  obtain ⟨_, heff, _⟩ := h.step (l := .record) trivial hstep
  cases heff with
  | @record _ _ _ _ _ _ _ _ g _ stage' hman same grew =>
      cases stage.symm.trans stage'
      have happ := grew.breaks hbreaks
        ⟨.refl _ _, 0, _, le_rfl, by simpa using hman.live.holds⟩
        fun u i b n hu hu' => hu.cut hu' n
      obtain ⟨k, n', hn', hb⟩ := happ.part
      obtain rfl : s.db.manifest.generation = g := by rw [hman.handle]; rfl
      obtain ⟨i, n, hlog⟩ := h.log
      have hsalvage := h.salvage (Compactor.replaced_eq_none_iff.mpr (h.unnamed hbusy)) happ.same
        (by simp) (by simp) (by rw [stage]; exact ⟨_, k, n', hb, hn'⟩)
      exact ⟨_, _, _, h.stranded hbusy happ.same (by simp) _ _ hsalvage
        ⟨i, n, hlog.bound.same happ.same (by simp), fun _ => hlog.handle⟩ h.batches { hl with }⟩

/-- A failure while the log is replaced. -/
theorem Stored.stranded_relog (h : Stored env s held) (hl : Ledger s held) {m : MemTable}
    (stage : s.flusher = .published m) (free : s.writer = .free) (hstep : Step env .relog s s')
    (hbreaks : s.w.Breaks s'.w v) (nextSstId : Nat) (manifest : Manifest) :
    ∃ f k held', Stranded env
      { s with
        db := { s.db with nextSstId := nextSstId, manifest := manifest }
        w := s.w.touch (fun _ => v)
        flusher := .free } f k held' := by
  have hbusy : s.flusher ≠ .free := by simp [stage]
  obtain ⟨w', i, hrun, _, _, _, _, hgrew⟩ := h.toCatalogue.afterRelog stage
  obtain ⟨j, n, hlog⟩ := h.log
  have hapart : i ≠ j := rewriteWal_apart h.quiet h.sound hlog.bound.name hrun
  cases hstep with
  | relog stage' free' run =>
      cases hrun.symm.trans run
      -- the name of the log tells on which side of the rename the run is
      have hon := hgrew.breaks hbreaks (Or.inl (.refl _ _)) (by
        rintro u c b n (hu | ⟨hu, hb⟩) (hu' | ⟨hu', hb'⟩)
        · exact Or.inl (hu.cut hu' n)
        · exact absurd ((hlog.bound.same hu (by simp)).name.symm.trans hb'.name)
            (by simpa using hapart.symm)
        · exact absurd (hb.name.symm.trans (hlog.bound.same hu' (by simp)).name)
            (by simpa using hapart)
        · exact Or.inr ⟨hu.cut hu' n, hb.cut hb' n⟩)
      rcases hon with hsame | ⟨hsame, hb⟩
      · exact ⟨_, _, _, h.stranded_aside hl hbusy hsame (by simp) (by simp) (by simp)
          (by simp) (by simp) _ _⟩
      · have hsalvage := h.salvage (Compactor.replaced_eq_none_iff.mpr (h.unnamed hbusy)) hsame
          (by simp) (by simp) (h.manifestPart hsame (by simp) _)
        rw [stage] at hsalvage
        have hfile : s.db.wal.file.file = j := by rw [hlog.handle]; rfl
        have hledger := hl.afterRelog stage free (w := s.w) s.db.wal
        refine ⟨.relogged m, s.frozenAt, _,
          h.stranded hbusy hsame (by simp) _ _ hsalvage
            ⟨i, _, hb, fun heq => absurd (heq.symm.trans hfile) hapart⟩ ?_ { hledger with }⟩
        intro b hb
        obtain ⟨r, hr, rfl⟩ := List.mem_map.mp hb
        exact h.memory r hr

/-- Whichever call of a flush fails, all that was written is in the directory. -/
theorem Fails.stranded (hfail : Fails env e l s db) (hflush : l.inFlush = true)
    (hbreaks : s.BreaksAt env l v) (h : Stored env s held) (hl : Ledger s held)
    (hfits : Fits env l s) :
    ∃ f k held', Stranded env
      { s with db := db, w := s.w.touch (fun _ => v), flusher := .free } f k held' := by
  have hbusy := (hfail.flush_stages hflush s.w).1
  obtain ⟨nextSstId, manifest, rfl⟩ := hfail.flush_handle hflush
  rcases hbreaks with rfl | ⟨s', hstep, hbreaks⟩
  · exact ⟨_, _, _, h.stranded_aside hl hbusy (.refl [] _) (by simp) (by simp) (by simp) (by simp)
      (by simp) _ _⟩
  · cases hfail with
    | write stage _ =>
        obtain ⟨_, heff, _⟩ := h.step hfits hstep
        cases heff with
        | write stage' same grew =>
            have hsame := grew.breaks hbreaks (.refl _ _) fun u i b n hu hu' => hu.cut hu' n
            have hbelow := (h.stage stage).1.2
            refine ⟨_, _, _, h.stranded_aside hl hbusy hsame (by simp) (by simp) (by simp) ?_
              (by simp) _ _⟩
            exact fun t ht => by simp [ne_of_lt (hbelow t ht)]
    | place stage _ =>
        obtain ⟨_, heff, _⟩ := h.step hfits hstep
        cases heff with
        | place table stage' covered same grew =>
            cases stage.symm.trans stage'
            have hsame := grew.breaks hbreaks (.refl _ _) fun u i b n hu hu' => hu.cut hu' n
            have hpaths := above_paths s.db.dir (h.stage stage).1.1.above
            refine ⟨_, _, _, h.stranded_aside hl hbusy hsame (by simp) (by simp) (by simp) hpaths
              ?_ _ _⟩
            rw [stage]
            exact fun j _ t ht => (hpaths t ht).2
    | record stage _ => exact h.stranded_record hl stage hstep hbreaks _ _
    | relog stage free _ => exact h.stranded_relog hl stage free hstep hbreaks _ _
    | choose | merge | name | finish => cases hflush

end Failing

section Merging

variable {env : Env} {s : System} {held : Held} {l : Label} {v : Volume Path}

/-- A compaction that fails before it names its table has written to a scratch file at most. -/
theorem merge_breaks (hq : s.w.Quiet) (hs : s.w.vol.Sound)
    (hread : TablesRead env s.db.dir s.db.opts.bloomEnabled s.w.vol s.db.sstables held.tables)
    (hfit : TablesFit env held.tables)
    (hback : s.compactor.Backed env s.db.dir s.w.vol s.db.sstables held.tables)
    (hl : l = .choose ∨ l = .merge) (hbreaks : s.BreaksAt env l v) :
    ∃ ps, SameExcept ps s.w.vol v ∧
      ∀ p ∈ ps, ∃ t ∈ held.tables, p = sstTmpPath s.db.dir t.1 := by
  rcases hbreaks with rfl | ⟨s', hstep, hbreaks⟩
  · exact ⟨[], .refl _ _, by simp⟩
  · cases hstep with
    | choose stage run =>
        obtain ⟨r, hsame⟩ := DbInner.chooseRun_same _ s.db s.w
        cases hsame.symm.trans run
        exact ⟨[], (World.Grew.refl hq).breaks hbreaks (.refl _ _) fun u i b n hu hu' =>
          hu.cut hu' n, by simp⟩
    | merge stage run =>
        rw [stage] at hback
        obtain ⟨front, stale, last, back, hp⟩ := hback
        obtain ⟨_, w', i, hrun, _, _, hgrew⟩ := hp.merges s.db _ hq hs hread hfit
        cases hrun.symm.trans run
        refine ⟨_, hgrew.breaks hbreaks (.refl _ _) fun u i b n hu hu' => hu.cut hu' n, ?_⟩
        simp only [List.mem_singleton, forall_eq]
        exact ⟨last, hp.mem, by rw [hp.maxId]⟩
    | _ => simp at hl

/-- It leaves the files in order. -/
theorem Stored.merge_gaveUp (h : Stored env s held) (hl : l = .choose ∨ l = .merge)
    (hold : s.compactor.publishing = false) (hbreaks : s.BreaksAt env l v) :
    Stored env { s with w := s.w.touch (fun _ => v), compactor := .free } held := by
  obtain ⟨ps, hsame, hps⟩ := merge_breaks h.quiet h.sound h.read h.fit h.compactor hl hbreaks
  have hnot : ∀ p : Path, (∀ t ∈ held.tables, p ≠ sstTmpPath s.db.dir t.1) → p ∉ ps := by
    intro p hp hmem
    obtain ⟨t, ht, rfl⟩ := hps p hmem
    exact hp t ht rfl
  obtain ⟨g, j, hman⟩ := h.manifest
  have hcat : Catalogue env { s with w := s.w.touch (fun _ => v), compactor := .free } held :=
    { h.toCatalogue with
      quiet := h.quiet.touch (fun _ => v)
      sound := hsame.sound h.sound
      exclusive := nofun
      read := h.read.same hsame
      files := fun t ht _ => by
        obtain ⟨i, hb⟩ := h.files t ht (by simp [Compactor.replaced_eq_none_iff.mpr hold])
        exact ⟨i, hb.same hsame (hnot _ (by simp))⟩
      manifest := ⟨g, j, hman.same hsame (hnot _ (by simp)) (hnot _ (by simp)) (hnot _ (by simp))⟩
      wal := h.wal.same hsame (hnot _ (by simp))
      flusher := h.flusher.same hsame fun id hid =>
        ⟨hnot _ fun t ht => by simp [ne_of_gt (hid t ht)], hnot _ (by simp)⟩
      compactor := trivial }
  exact h.besides hcat hsame (hnot _ (by simp)) rfl rfl rfl (fun _ h => h) rfl rfl rfl

end Merging

section Behind

variable {env : Env} {s s' : System} {f : Flusher} {k : Nat} {held : Held} {l : Label}

/-- A batch goes behind a log the handle has open. -/
theorem logRecords_bound {w : World} {db : DbInner} {i n : Nat} {log : List (List Record)}
    {records : List Record} (hq : w.Quiet) (hs : w.vol.Sound)
    (hb : w.vol.Bound (walPath db.dir) i (logBytes env newestLog log) n)
    (hwal : db.wal = Wal.handle i (walPath db.dir) db.opts.syncWal newestLog)
    (hne : records ≠ []) :
    ∃ w' n', DbInner.logRecords env records db w = (.ok (), db, w') ∧ w'.Quiet ∧
      w'.vol.Bound (walPath db.dir) i (logBytes env newestLog (log ++ [records])) n' ∧
      SameExcept [walPath db.dir] w.vol w'.vol := by
  obtain ⟨w', n', hrun, hb', _, hsame, hgrew⟩ := Wal.appendBatch_bound env db.opts.syncWal hq hs
    (by simp) hb hne (takes_newestLog records)
  have hbytes : logBytes env newestLog log ++
      (Wal.handle i (walPath db.dir) db.opts.syncWal newestLog).frameOf env records =
        logBytes env newestLog (log ++ [records]) := by
    rw [logBytes_append, logPayloads, List.map_singleton, frames_cons, frames_nil,
      List.append_nil]
    rfl
  rw [hbytes] at hb'
  rw [← hwal] at hrun
  exact ⟨w', n', M.zoom_eq DbInner.wal (fun self wal => { self with wal := wal }) (s := db) hrun,
    hgrew.quiet, hb', hsame⟩

/-- Neither the log nor the manifest nor a table is written. -/
theorem Stranded.aside (h : Stranded env s f k held) {w : World} {ps : List Path} (hq : w.Quiet)
    (hsame : SameExcept ps s.w.vol w.vol)
    (hps : ∀ p ∈ ps, ∃ t ∈ held.tables, p = sstTmpPath s.db.dir t.1) {c : Compactor}
    (hpub : c.publishing = false)
    (hback : c.Backed env s.db.dir w.vol s.db.sstables held.tables) :
    Stranded env { s with w := w, compactor := c } f k held := by
  have hnot : ∀ p : Path, (∀ t ∈ held.tables, p ≠ sstTmpPath s.db.dir t.1) → p ∉ ps := by
    intro p hp hmem
    obtain ⟨t, ht, rfl⟩ := hps p hmem
    exact hp t ht rfl
  obtain ⟨g, hsalvage⟩ := h.salvage
  obtain ⟨i, n, hb, hhandle⟩ := h.log
  exact
    { h with
      quiet := hq
      unnamed := hpub
      read := h.read.same hsame
      compactor := hback
      salvage := ⟨g, hsalvage.same hsame (hnot _ (by simp)) (hnot _ (by simp)) fun id =>
        hnot _ (by simp)⟩
      log := ⟨i, n, hb.same hsame (hnot _ (by simp)), hhandle⟩
      ledger := { h.ledger with } }

/-- A compaction behind a failed flush that goes on without naming its table. -/
theorem Stranded.afterPick (h : Stranded env s f k held) {c : Compactor}
    (hpub : c.publishing = false)
    (hback : c.Backed env s.db.dir s.w.vol s.db.sstables held.tables) :
    Stranded env { s with compactor := c } f k held :=
  h.aside h.quiet (.refl [] _) (by simp) hpub hback

/-- Behind a failed flush writers, snapshots and the merge of a compaction keep what there is. -/
theorem Stranded.step (h : Stranded env s f k held) (hfits : Fits env l s)
    (hslot : l = .freeze ∨ l = .name → s.db.frozen = none)
    (hlog : l = .log → s.w.vol.lookup (walPath s.db.dir) = some s.db.wal.file.file)
    (hopens : l.opens = false) (hstep : Step env l s s') : ∃ held', Stranded env s' f k held' := by
  have hfree := h.stopped
  cases hstep with
  | number batch hne free run =>
      cases (takeNumbers_eq hfits).symm.trans run
      refine ⟨held, { h with seq := hfits, numbered := ?_, ledger := ?_ }⟩
      · intro records heq
        cases heq
        exact numberRecords_ne_nil s.db.nextSeq hne
      · exact { h.ledger.afterNumber free batch with }
  | @log _ db w records stage run =>
      obtain ⟨i, n, hb, hhandle⟩ := h.log
      obtain ⟨g, hsalvage⟩ := h.salvage
      have hwal := hhandle (Option.some.inj ((hlog rfl).symm.trans hb.name))
      obtain ⟨w', n', hrun, hq, hb', hsame⟩ := logRecords_bound h.quiet hsalvage.sound hb hwal
        (h.numbered _ stage)
      cases hrun.symm.trans run
      have hfit : BatchFits s.writer.pending := hfits
      rw [stage] at hfit
      refine ⟨{ held with log := held.log ++ [records] },
        { h with
          quiet := hq
          read := h.read.same hsame
          compactor := h.compactor.same hsame (by simp)
          salvage := ⟨g, hsalvage.same hsame (by simp) (by simp) (by simp)⟩
          log := ⟨i, n', hb', fun _ => hwal⟩
          batches := ?_
          numbered := by simp
          ledger := { h.ledger.afterLog (w := w) stage with } }⟩
      intro b hmem
      rcases List.mem_append.mp hmem with hmem | hmem
      · exact h.batches b hmem
      · rw [List.mem_singleton.mp hmem]
        exact hfit
  | insert stage run =>
      cases run
      exact ⟨held, { h with numbered := by simp, ledger := { h.ledger.afterInsert stage with } }⟩
  | freeze free run => exact absurd (hslot (Or.inl rfl)) h.slot
  | name stage free run => exact absurd (hslot (Or.inr rfl)) h.slot
  | list free run =>
      cases run
      exact ⟨held, h.afterPick rfl ⟨[], by simp⟩⟩
  | choose stage run =>
      have hback := h.compactor
      rw [stage] at hback
      have hpicked := picked_of_listed h.read h.ids hback run
      obtain ⟨r, hsame⟩ := DbInner.chooseRun_same _ s.db s.w
      cases hsame.symm.trans run
      exact ⟨held, h.afterPick rfl hpicked⟩
  | abandon stage run =>
      obtain ⟨r, hsame⟩ := DbInner.chooseRun_same _ s.db s.w
      cases hsame.symm.trans run
      exact ⟨held, h.afterPick rfl trivial⟩
  | bound stage run =>
      cases run
      have hback := h.compactor
      rw [stage] at hback
      exact ⟨held, h.afterPick rfl hback⟩
  | merge stage run =>
      have hback := h.compactor
      rw [stage] at hback
      obtain ⟨front, stale, last, back, hp⟩ := hback
      obtain ⟨g, hsalvage⟩ := h.salvage
      obtain ⟨hiter, w', i, hrun, hb, hsame, hgrew⟩ :=
        hp.merges s.db _ h.quiet hsalvage.sound h.read h.fit
      cases hrun.symm.trans run
      refine ⟨held, h.aside hgrew.quiet hsame ?_ rfl
        ⟨front, stale, last, back, hp, hfits _ _ _ stage (by rw [hiter]), i, hb⟩⟩
      simp only [List.mem_singleton, forall_eq]
      exact ⟨last, hp.mem, by rw [hp.maxId]⟩
  | finish stage run =>
      have hpub := h.unnamed
      rw [stage] at hpub
      cases hpub
  | load run =>
      cases run
      exact ⟨held, { h with ledger := { h.ledger with } }⟩
  | register loaded run =>
      cases run
      exact ⟨held, { h with ledger := { h.ledger with } }⟩
  | @drop _ db w horizon alive run =>
      obtain ⟨snapshots, hrun⟩ := dropSnapshot_same horizon s.db s.w
      cases hrun.symm.trans run
      exact ⟨held, { h with ledger := { h.ledger with } }⟩
  | write stage run | place stage run | count stage run | record stage run
  | publish stage run | relog stage free run | clear stage run =>
      rw [hfree] at stage
      cases stage
  | reopen => cases hopens

/-- A compaction that fails behind a failed flush. -/
theorem Stranded.merge_gaveUp (h : Stranded env s f k held) (hl : l = .choose ∨ l = .merge)
    {v : Volume Path} (hbreaks : s.BreaksAt env l v) :
    Stranded env { s with w := s.w.touch (fun _ => v), compactor := .free } f k held := by
  obtain ⟨g, hsalvage⟩ := h.salvage
  obtain ⟨ps, hsame, hps⟩ :=
    merge_breaks h.quiet hsalvage.sound h.read h.fit h.compactor hl hbreaks
  exact h.aside (h.quiet.touch _) hsame hps rfl trivial

theorem Stranded.recovers (h : Stranded env s f k held) (opts : Options) :
    ∃ n db w', s.written.length ≤ n ∧ n ≤ s.history.length ∧
      (assemble env s.db.dir opts : M Unit DbInner) () (World.start s.w.vol) = (.ok db, (), w') ∧
      ShowsMap env u64Max (mapAfter (s.history.take n)) db w' := by
  obtain ⟨g, hsalvage⟩ := h.salvage
  obtain ⟨i, n, hb, _⟩ := h.log
  exact h.ledger.recovers h.seq hsalvage h.batches hb opts

end Behind

section Crowd

variable {env : Env} {dir : String} {x y : Crowd} {m : Move}

/-- The directory of a crowd holds all that was written. -/
def Crowd.Kept (env : Env) (x : Crowd) : Prop :=
  (∃ held, Stored env x.sys held ∧ Ledger x.sys held) ∨ ∃ f k held, Stranded env x.sys f k held

/-- A section of a thread keeps what the directory holds. -/
theorem Crowd.Kept.take {s : System} {l : Label} (h : x.Kept env) (hopens : l.opens = false)
    (hminds : x.Minds env (.take l)) (hstep : LsmKv.Step env l x.sys s)
    (writers flushes compactions : Nat) :
    Crowd.Kept env ⟨s, writers, flushes, compactions, x.failures⟩ := by
  have hfits := hminds.takes l rfl
  rcases h with ⟨held, hstored, hledger⟩ | ⟨f, k, held, hstranded⟩
  · obtain ⟨held', heff, hstored'⟩ := hstored.step hfits hstep
    exact Or.inl ⟨held', hstored', hledger.step hstored heff⟩
  · obtain ⟨held', hstranded'⟩ := hstranded.step hfits
      (fun hl => hminds.slot (hl.imp (congrArg _) (congrArg _)))
      (fun hl => hminds.log (by rw [hl])) hopens hstep
    exact Or.inr ⟨f, k, held', hstranded'⟩

/-- So does a section that fails. -/
theorem Crowd.Kept.fail {l : Label} {e : Error} {db : DbInner} {v : Volume Path} (h : x.Kept env)
    (hminds : x.Minds env (.fail l e)) (hfails : Fails env e l x.sys db)
    (hbreaks : x.sys.BreaksAt env l v) (failures : List Error) :
    Crowd.Kept env
      { x with
        sys := x.sys.gaveUp l db (x.sys.w.touch (fun _ => v))
        failures := failures } := by
  obtain ⟨hfits, hname, hfinish⟩ := hminds.fails l e rfl
  cases hflush : l.inFlush with
  | true =>
      rw [System.gaveUp_flush hflush]
      rcases h with ⟨held, hstored, hledger⟩ | ⟨f, k, held, hstranded⟩
      · exact Or.inr (hfails.stranded hflush hbreaks hstored hledger hfits)
      · exact absurd hstranded.stopped (hfails.flush_stages hflush x.sys.w).1
  | false =>
      have hl := hfails.merging hflush hname hfinish
      rw [System.gaveUp_merge hflush, hfails.merge_handle hl]
      rcases h with ⟨held, hstored, hledger⟩ | ⟨f, k, held, hstranded⟩
      · exact Or.inl ⟨held, hstored.merge_gaveUp hl (hfails.unnamed hl) hbreaks,
          { hledger with }⟩
      · exact Or.inr ⟨f, k, held, hstranded.merge_gaveUp hl hbreaks⟩

/-- Every move a thread makes with care keeps what the directory holds. -/
theorem Crowd.Kept.step (h : x.Kept env) (hminds : x.Minds env m) (hstep : Crowd.Step env m x y) :
    y.Kept env := by
  cases hstep with
  | enterWrite healthy | enterFlush healthy | enterCompaction healthy | pass waiting free run =>
      exact h
  | write waiting step => exact h.take rfl hminds step _ _ _
  | flush waiting step => exact h.take rfl hminds step _ _ _
  | compact waiting step => exact h.take rfl hminds step _ _ _
  | go inside step => exact h.take (Label.opens_of_inside inside) hminds step _ _ _
  | refuse refuses => exact absurd rfl hminds.accepted
  | fail fails breaks => exact h.fail hminds fails breaks _
  | latch failed run =>
      cases run
      rcases h with ⟨held, hstored, hledger⟩ | ⟨f, k, held, hstranded⟩
      · exact Or.inl ⟨held, { hstored with }, { hledger with }⟩
      · exact Or.inr ⟨f, k, held, { hstranded with ledger := { hstranded.ledger with } }⟩

theorem Crowd.Reached.kept (h : Crowd.Reached env dir (Crowd.Minds env) x) : x.Kept env := by
  obtain ⟨opts, v, db, w, hfresh, hopen, hmoves⟩ := h
  induction hmoves with
  | refl =>
      obtain ⟨db', w', hopen', hopened, hfiles⟩ := Files.fresh (w := World.start v) env opts
        (World.quiet_start v) (by simp [World.start]) hfresh
      cases hopen'.symm.trans hopen
      have hactive : db.active.iter = [] := by
        rw [show db.active = _ from (Prod.ext_iff.mp hopened.memory).1]
        rfl
      exact Or.inl ⟨_, hfiles.toStored, Ledger.opened hactive⟩
  | tail _ hlast ih =>
      obtain ⟨m, hminds, hstep⟩ := hlast
      exact ih.step hminds hstep

/-- Let threads write to a database, flush it, compact it and take snapshots of it, in any order,
with any filesystem call of any flush failing, and any of a compaction before it names its table.
As long as no flush freezes and no compaction names its table over the slot a failed flush has
left, and no write goes into a log that refuses it or has lost its name, the next open of the
directory, at any moment when no compaction is publishing, succeeds and shows the writes in the
order of the log, with every inserted one in it. -/
theorem failed_flush_keeps_writes (env : Env) (dir : String)
    (h : Crowd.Reached env dir (Crowd.Minds env) x)
    (unpublished : x.sys.compactor.publishing = false) (opts : Options) :
    ∃ n db w', x.sys.written.length ≤ n ∧ n ≤ x.sys.history.length ∧
      (assemble env x.sys.db.dir opts : M Unit DbInner) () (World.start x.sys.w.vol) =
        (.ok db, (), w') ∧
      ShowsMap env u64Max (mapAfter (x.sys.history.take n)) db w' := by
  rcases h.kept with ⟨held, hstored, hledger⟩ | ⟨f, k, held, hstranded⟩
  · obtain ⟨i, n, hlog⟩ := hstored.log
    have hsalvage := hstored.salvage (Compactor.replaced_eq_none_iff.mpr unpublished) (.refl [] _)
      (by simp) (by simp) (hstored.manifestPart (.refl [] _) (by simp) _)
    exact hledger.recovers hstored.seq hsalvage hstored.batches hlog.bound opts
  · exact hstranded.recovers opts

end Crowd

section Embedding

variable {env : Env} {dir : String} {s s' : System} {l : Label} {ok : Move → Crowd → Prop}

theorem Crowd.Moves.tail {x y z : Crowd} {m : Move} (h : Crowd.Moves env ok x y) (hok : ok m y)
    (hstep : Crowd.Step env m y z) : Crowd.Moves env ok x z :=
  Relation.ReflTransGen.tail h ⟨m, hok, hstep⟩

/-- A section, its thread entering just before it takes its lock. -/
theorem Crowd.Moves.of_step {x : Crowd} (hhealthy : x.sys.db.failed = none)
    (hopens : l.opens = false) (henter : ∀ m, m.enters = true → ok m x)
    (hok : ∀ y : Crowd, y.sys = x.sys → ok (.take l) y) (hstep : LsmKv.Step env l x.sys s') :
    Crowd.Moves env ok x { x with sys := s' } := by
  have hhealth := health_ok (w := x.sys.w) hhealthy
  cases l with
  | number batch =>
      exact (Crowd.Moves.tail .refl (henter _ rfl) (.enterWrite hhealth)).tail (hok _ rfl)
        (.write rfl hstep)
  | freeze =>
      exact (Crowd.Moves.tail .refl (henter _ rfl) (.enterFlush hhealth)).tail (hok _ rfl)
        (.flush rfl hstep)
  | list =>
      exact (Crowd.Moves.tail .refl (henter _ rfl) (.enterCompaction hhealth)).tail (hok _ rfl)
        (.compact rfl hstep)
  | reopen => cases hopens
  | _ => exact Crowd.Moves.tail .refl (hok _ rfl) (.go rfl hstep)

/-- A run of sections of a healthy handle. -/
theorem Crowd.Moves.of_steps {test : Label → System → Prop} (writers flushes compactions : Nat)
    (failures : List Error) (hhealthy : s.db.failed = none)
    (hopens : ∀ l a, test l a → l.opens = false)
    (henter : ∀ m x, m.enters = true → ok m x)
    (hok : ∀ l (y : Crowd), test l y.sys → ok (.take l) y) (h : Steps env test s s') :
    Crowd.Moves env ok ⟨s, writers, flushes, compactions, failures⟩
        ⟨s', writers, flushes, compactions, failures⟩ ∧ s'.db.failed = none := by
  induction h with
  | refl => exact ⟨.refl, hhealthy⟩
  | tail _ hlast ih =>
      obtain ⟨hmoves, hstill⟩ := ih
      obtain ⟨l, htest, hstep⟩ := hlast
      have hl := hopens l _ htest
      refine ⟨Relation.ReflTransGen.trans hmoves ?_,
        (hstep.failed_eq hl).trans hstill⟩
      exact Crowd.Moves.of_step hstill hl (fun m => henter m _)
        (fun y hy => hok l y (by rw [hy]; exact htest)) hstep

/-- Whether a thread may take a section with care. -/
def System.careful (l : Label) (s : System) : Bool :=
  match l with
  | .freeze | .name => s.db.frozen.isNone
  | .log => s.w.vol.lookup (walPath s.db.dir) == some s.db.wal.file.file
  | .reopen _ => false
  | _ => true

theorem Crowd.minds_of_careful {x : Crowd} (hfits : Fits env l x.sys)
    (h : x.sys.careful l = true) : x.Minds env (.take l) where
  takes := by
    rintro _ ⟨⟩
    exact hfits
  fails := by simp
  slot := by
    intro hl
    simp only [Move.take.injEq] at hl
    rcases hl with rfl | rfl
    · simpa [System.careful] using h
    · simpa [System.careful] using h
  log := by
    rintro ⟨⟩
    simpa [System.careful] using h
  accepted := by simp

/-- A run of careful sections. -/
theorem Crowd.Moves.of_careful (writers flushes compactions : Nat) (failures : List Error)
    (hhealthy : s.db.failed = none)
    (h : Steps env (fun l s => Fits env l s ∧ s.careful l = true) s s') :
    Crowd.Moves env (Crowd.Minds env) ⟨s, writers, flushes, compactions, failures⟩
        ⟨s', writers, flushes, compactions, failures⟩ ∧ s'.db.failed = none := by
  refine Crowd.Moves.of_steps writers flushes compactions failures hhealthy ?_ ?_ ?_ h
  · rintro l a ⟨_, hcareful⟩
    cases l <;> first | rfl | cases hcareful
  · intro m x henters
    cases m with
    | enterWrite | enterFlush | enterCompaction =>
        exact ⟨by simp, by simp, by simp, by simp, by simp⟩
    | _ => cases henters
  · rintro l y ⟨hfits, hcareful⟩
    exact Crowd.minds_of_careful hfits hcareful

/-- A section of a flush whose appends the filesystem decides the fate of, if it fails. -/
def System.failing (env : Env) (fates : List (Option Nat)) (s : System) :
    Option (Label × Error × DbInner) :=
  match s.flusher with
  | .frozen m =>
      match (do
        let id ← DbInner.takeSstId
        DbInner.writeTable env s.db.dir id m
        return id) s.db { s.w with refusals := fates } with
      | (.error e, db, _) => some (.write, e, db)
      | _ => none
  | .counted _ id _ a b =>
      match DbInner.recordTable env id a b s.db { s.w with refusals := fates } with
      | (.error e, db, _) => some (.record, e, db)
      | _ => none
  | _ => none

theorem System.fails_of_failing {fates : List (Option Nat)} {e : Error} {db : DbInner}
    (h : s.failing env fates = some (l, e, db)) : Fails env e l s db := by
  unfold failing at h
  split at h
  · rename_i m hstage
    split at h
    · rename_i hrun
      cases h
      exact .write hstage hrun
    · cases h
  · rename_i hstage
    split at h
    · rename_i hrun
      cases h
      exact .record hstage hrun
    · cases h
  · cases h

/-- The crowd behind a flush that has failed before it has written anything. -/
def System.leaves (s : System) (l : Label) (e : Error) (db : DbInner) : Crowd :=
  ⟨s.gaveUp l db (s.w.touch (fun _ => s.w.vol)), 0, 0, 0, [e]⟩

theorem System.inFlush_of_failing {fates : List (Option Nat)} {e : Error} {db : DbInner}
    (h : s.failing env fates = some (l, e, db)) : l.inFlush = true := by
  unfold failing at h
  split at h
  · split at h
    · cases h
      rfl
    · cases h
  · split at h
    · cases h
      rfl
    · cases h
  · cases h

/-- A flush may fail before it has written anything. -/
theorem Reached.leaves {fates : List (Option Nat)} {e : Error} {db : DbInner}
    (h : Reached env dir (fun l s => Fits env l s ∧ s.careful l = true) s)
    (hfailing : s.failing env fates = some (l, e, db)) (hfits : Fits env l s) :
    Crowd.Reached env dir (Crowd.Minds env) (s.leaves l e db) ∧ db.failed = none := by
  obtain ⟨opts, v, db₀, w, hfresh, hopen, hsteps⟩ := h
  obtain ⟨db', w', hopen', hopened, _⟩ := Files.fresh (w := World.start v) env opts
    (World.quiet_start v) (by simp [World.start]) hfresh
  cases hopen'.symm.trans hopen
  obtain ⟨hmoves, hhealthy⟩ := Crowd.Moves.of_careful 0 0 0 [] hopened.healthy hsteps
  have hfails := System.fails_of_failing hfailing
  have hflush := System.inFlush_of_failing hfailing
  refine ⟨⟨opts, v, db₀, w, hfresh, hopen,
    hmoves.tail (m := .fail l e) ?_ (.fail hfails (Or.inl rfl))⟩,
    hfails.failed_eq.trans hhealthy⟩
  refine ⟨by simp, ?_, by simp, by simp, by simp⟩
  rintro _ _ ⟨⟩
  refine ⟨hfits, ?_, ?_⟩ <;>
    · rintro rfl
      cases hflush

end Embedding

/-- A flush fails when it records its table, while two tables are merged beside it.  The merge
and a further write go on behind it. -/
theorem failed_flush_keeps_writes_merging :
    ∃ x, Crowd.Reached Stock.env "db" (Crowd.Minds Stock.env) x ∧
      x.sys.compactor.publishing = false ∧
      (x.failures.length = 1 ∧ x.sys.db.frozen.isSome ∧ x.sys.written.length = 4 ∧
        (x.sys.w.vol.lookup (sstTmpPath "db" 1)).isSome) ∧
      ∃ n db w', 4 ≤ n ∧ n ≤ x.sys.history.length ∧
        (assemble Stock.env x.sys.db.dir Options.default : M Unit DbInner) ()
          (World.start x.sys.w.vol) = (.ok db, (), w') ∧
        ShowsMap Stock.env u64Max (mapAfter (x.sys.history.take n)) db w' := by
  have hrun : ((System.start Stock.env "db" ⟨100, .durable, 2, true⟩).bind
      (System.execAll Stock.env (fun l s => s.careful l)
        (System.writeSteps [([1], some [2])] ++ System.flushSteps ++
          System.writeSteps [([3], some [4])] ++ System.flushSteps ++ System.mergeSteps.take 3 ++
          System.writeSteps [([5], some [6])] ++ System.flushSteps.take 4))).any
      (fun s => (s.failing Stock.env [some 0]).any fun (l, e, db) => s.fitting Stock.env l &&
        (System.execAll Stock.env (fun l s => s.careful l)
          (.merge :: System.writeSteps [([7], some [8])]) (s.leaves l e db).sys).any fun s' =>
            decide (s'.compactor.publishing = false ∧ s'.db.frozen.isSome ∧
              s'.written.length = 4 ∧ (s'.w.vol.lookup (sstTmpPath "db" 1)).isSome)) = true := by
    decide +kernel
  obtain ⟨s, hreached, htest⟩ := System.execAll_any hrun
  obtain ⟨⟨l, e, db⟩, hfailing, htest⟩ := exists_of_any htest
  obtain ⟨hfitting, htest⟩ := Bool.and_eq_true_iff.mp htest
  obtain ⟨s', hsteps, htest⟩ := exists_of_any htest
  obtain ⟨hpub, hslot, hwritten, htmp⟩ := of_decide_eq_true htest
  obtain ⟨⟨opts, v, db₀, w₀, hfresh, hopen, hmoves⟩, hhealthy⟩ :=
    hreached.leaves hfailing (System.fits_of_fitting hfitting)
  obtain ⟨hmore, _⟩ := Crowd.Moves.of_careful 0 0 0 [e] (by simpa [System.leaves] using hhealthy)
    (System.execAll_steps hsteps)
  have hcrowd : Crowd.Reached Stock.env "db" (Crowd.Minds Stock.env) ⟨s', 0, 0, 0, [e]⟩ :=
    ⟨opts, v, db₀, w₀, hfresh, hopen, Relation.ReflTransGen.trans hmoves hmore⟩
  have hkept := failed_flush_keeps_writes Stock.env "db" hcrowd hpub Options.default
  rw [show s'.written.length = 4 from hwritten] at hkept
  exact ⟨_, hcrowd, hpub, ⟨rfl, hslot, hwritten, htmp⟩, hkept⟩

theorem Crowd.Moves.weaken {env : Env} {ok ok' : Move → Crowd → Prop} {x y : Crowd}
    (h : Crowd.Moves env ok x y) (hok : ∀ m a, ok m a → ok' m a) : Crowd.Moves env ok' x y :=
  Relation.ReflTransGen.mono (fun _ _ ⟨m, hm, hstep⟩ => ⟨m, hok _ _ hm, hstep⟩) _ _ h

/-- A second flush that has passed the check before the first one, failing, has poisoned the
handle freezes over its slot and rewrites the log: what the first flush had frozen is gone. -/
theorem second_flush_loses_write :
    ∃ x, Crowd.Reached Stock.env "db" (fun _ _ => True) x ∧ x.sys.db.frozen.isNone ∧
      (mapAfter x.sys.written).find? [1] = some [2] ∧
      ∃ db w', (assemble Stock.env "db" Options.default : M Unit DbInner) ()
          (World.start x.sys.w.vol) = (.ok db, (), w') ∧
        (DbInner.get Stock.env [1] db w').1.toOption = some none := by
  have hrun : ((System.start Stock.env "db" Options.default).bind
      (System.execAll Stock.env (fun l s => s.careful l) (System.writeSteps [([1], some [2])] ++
        [.freeze]))).any
      (fun s => (s.failing Stock.env [some 0]).any fun (l, e, db) => s.fitting Stock.env l &&
        (System.execAll Stock.env (fun l _ => !l.opens) (System.writeSteps [([3], some [4])] ++
          System.flushSteps) (s.leaves l e db).sys).any fun s' =>
            decide (s'.db.frozen.isNone ∧ (mapAfter s'.written).find? [1] = some [2]) &&
            (System.startOn Stock.env "db" Options.default s'.w.vol).any fun s'' =>
              decide ((DbInner.get Stock.env [1] s''.db s''.w).1.toOption = some none)) = true := by
    decide +kernel
  obtain ⟨s, hreached, htest⟩ := System.execAll_any hrun
  obtain ⟨⟨l, e, db₁⟩, hfailing, htest⟩ := exists_of_any htest
  obtain ⟨hfitting, hrest⟩ := Bool.and_eq_true_iff.mp htest
  obtain ⟨s', hsteps, hrest⟩ := exists_of_any hrest
  obtain ⟨hshape, hopen⟩ := Bool.and_eq_true_iff.mp hrest
  obtain ⟨hslot, hmap⟩ := of_decide_eq_true hshape
  obtain ⟨s'', hs'', hget⟩ := exists_of_any hopen
  obtain ⟨db, w, hassemble, rfl⟩ := System.startOn_eq_some hs''
  obtain ⟨⟨opts, v, db₀, w₀, hfresh, hfirst, hmoves⟩, hhealthy⟩ :=
    hreached.leaves hfailing (System.fits_of_fitting hfitting)
  obtain ⟨hmore, _⟩ := Crowd.Moves.of_steps 0 0 0 [e] (by simpa [System.leaves] using hhealthy)
    (fun l a htest => by simpa using htest.2) (fun _ _ _ => trivial) (fun _ _ _ => trivial)
    (System.execAll_steps hsteps)
  exact ⟨_, ⟨opts, v, db₀, w₀, hfresh, hfirst,
    Relation.ReflTransGen.trans (hmoves.weaken fun _ _ _ => trivial) hmore⟩, hslot, hmap, db, w,
    hassemble, of_decide_eq_true hget⟩

section Poisoned

variable {env : Env} {l : Label} {s s' : System} {m : Move} {x y : Crowd}
variable {ok : Move → Crowd → Prop}

/-- The threads of a crowd that may still add a batch, and the batches there are. -/
def Crowd.account (x : Crowd) : Nat :=
  x.sys.written.length + x.sys.writer.batches.length + x.writers

/-- Every section but the first of a write leaves the account as it is. -/
theorem Step.account_eq (hl : ∀ batch, l ≠ .number batch) (hopens : l.opens = false)
    (h : Step env l s s') :
    s'.written.length + s'.writer.batches.length = s.written.length + s.writer.batches.length := by
  cases h with
  | number batch => exact absurd rfl (hl batch)
  | reopen => cases hopens
  | log stage run => simp [stage, Writer.batches]
  | insert stage run => simp [stage, Writer.batches]
  | _ => rfl

/-- On a poisoned handle no move raises the account, and the latch stays as it is. -/
theorem Crowd.Step.drains (h : Crowd.Step env m x y) (hfailed : x.sys.db.failed ≠ none) :
    y.sys.db.failed = x.sys.db.failed ∧ y.account ≤ x.account := by
  have hsick : ∀ {db w}, DbInner.health x.sys.db x.sys.w ≠ (.ok (), db, w) := by
    intro db w hok
    obtain ⟨e, he⟩ := Option.ne_none_iff_exists'.mp hfailed
    rw [health_error he] at hok
    cases hok
  cases h with
  | enterWrite healthy | enterFlush healthy | enterCompaction healthy => exact absurd healthy hsick
  | write waiting step =>
      refine ⟨step.failed_eq rfl, ?_⟩
      cases step with
      | number batch hne free run =>
          simp only [Crowd.account, free, Writer.batches, waiting, List.length_nil,
            List.length_singleton]
          omega
  | flush waiting step | compact waiting step =>
      have := step.account_eq (by simp) rfl
      exact ⟨step.failed_eq rfl, by simp only [Crowd.account]; omega⟩
  | pass waiting free run => exact ⟨rfl, le_rfl⟩
  | go inside step =>
      have hopens := Label.opens_of_inside inside
      have := step.account_eq (by rintro batch rfl; cases inside) hopens
      exact ⟨step.failed_eq hopens, by simp only [Crowd.account]; omega⟩
  | refuse refuses =>
      cases refuses with
      | mk stage run =>
          refine ⟨Fixes.of_run DbInner.failed (fun _ _ => rfl) run, ?_⟩
          simp only [Crowd.account, Writer.batches, List.length_nil]
          omega
  | fail fails breaks =>
      refine ⟨?_, by simp [Crowd.account]⟩
      rw [System.gaveUp_db]
      exact fails.failed_eq
  | latch failed run =>
      cases run
      obtain ⟨e, he⟩ := Option.ne_none_iff_exists'.mp hfailed
      exact ⟨by simp [he], le_rfl⟩

/-- Once a failure is latched it is never replaced, and the handle accepts no more batches than
the one under way and one for every thread that was already past the check. -/
theorem poisoned_handle_drains (env : Env) (h : Crowd.Moves env ok x y)
    (hfailed : x.sys.db.failed ≠ none) :
    y.sys.db.failed = x.sys.db.failed ∧
      y.sys.written.length ≤ x.sys.written.length + x.sys.writer.batches.length + x.writers := by
  have hrun : y.sys.db.failed = x.sys.db.failed ∧ y.account ≤ x.account := by
    induction h with
    | refl => exact ⟨rfl, le_rfl⟩
    | tail _ hlast ih =>
        obtain ⟨m, _, hstep⟩ := hlast
        obtain ⟨hsame, hle⟩ := hstep.drains (by rw [ih.1]; exact hfailed)
        exact ⟨hsame.trans ih.1, hle.trans ih.2⟩
  refine ⟨hrun.1, ?_⟩
  have := hrun.2
  simp only [Crowd.account] at this
  omega

/-- A writer that was past the check when the handle was poisoned takes its numbers all the
same. -/
theorem poisoned_handle_drains_late :
    ∃ x y, Crowd.Moves Stock.env (fun _ _ => True) x y ∧ x.writers = 1 ∧ y.writers = 0 ∧
      x.sys.db.failed = some (.io .other) ∧ y.sys.db.failed = some (.io .other) ∧
      y.sys.written.length ≤ 1 + 0 + 1 := by
  have hrun : ((System.start Stock.env "db" Options.default).bind
      (System.execAll Stock.env (fun l _ => l.plain) (System.writeSteps [([1], some [2])]))).any
      (fun s => decide (s.written.length = 1 ∧ s.writer.batches.length = 0) &&
        (System.exec Stock.env (.number [([3], some [4])])
          { s with db := { s.db with failed := some (.io .other) } }).isSome) = true := by
    decide +kernel
  obtain ⟨s, _, htest⟩ := System.execAll_any hrun
  obtain ⟨hshape, hmore⟩ := Bool.and_eq_true_iff.mp htest
  obtain ⟨hwritten, hwriter⟩ := of_decide_eq_true hshape
  obtain ⟨s', hs'⟩ := Option.isSome_iff_exists.mp hmore
  have hmoves : Crowd.Moves Stock.env (fun _ _ => True)
      ⟨{ s with db := { s.db with failed := some (.io .other) } }, 1, 0, 0, []⟩ ⟨s', 0, 0, 0, []⟩ :=
    Crowd.Moves.tail .refl trivial (.write rfl (System.exec_step hs'))
  obtain ⟨hsame, hbound⟩ := poisoned_handle_drains Stock.env hmoves (by simp)
  refine ⟨_, _, hmoves, rfl, rfl, rfl, hsame, hbound.trans (le_of_eq ?_)⟩
  simp only [hwritten, hwriter]

end Poisoned

end LsmKv
