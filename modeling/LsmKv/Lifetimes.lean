import LsmKv.Strata
import LsmKv.TableIds

/-!
# A directory that crashes again and again

A directory is opened, written to and flushed, crashes, is opened again, and so on; a crash may
come inside a section, and inside an open.  What each crash leaves is cut at arbitrary places of
the unsynced bytes, but for two: it does not leave a part of a frame at the end of the log, which
the next appends would follow, and it does not leave a flush's table in the manifest without the
next table id.

**Results.**
* `Life`: such a life, with the history of every era of it.
* `Alive.crash`, `AtRest.opens`: what a crash leaves at rest, and what an open makes of it.
* `writes_survive_crashes`: every write that ever returned is there, in the order of the log.
-/

namespace LsmKv

open Foundation Volume Versioning

/-- The log of a volume is the batches `B`, or is still without its header. -/
def LogWhole (env : Env) (dir : String) (v : Volume Path) (B : List (List Record)) : Prop :=
  walBytes v dir = some [] ∧ B = [] ∨ walBytes v dir = some (logBytes env newestLog B)

/-- The log of a volume ends where a frame ends. -/
def Untorn (env : Env) (dir : String) (v : Volume Path) : Prop :=
  ∃ B, (∀ b ∈ B, BatchFits b) ∧ LogWhole env dir v B

/-- The time from an open to a crash: the batches that were numbered, in order, and how many of
them were inserted. -/
structure Era where
  history : List (List Record)
  returned : Nat

/-- The life of a fresh directory under a durable log. -/
inductive Life (env : Env) (dir : String) : List Era → Site → Prop
  | fresh {v : Volume Path} (fresh : FreshDir dir v) : Life env dir [] (.down v)
  | opened {eras : List Era} {v : Volume Path} {opts : Options} {db : DbInner} {w : World}
      (earlier : Life env dir eras (.down v)) (durable : opts.syncWal = .durable)
      (run : (assemble env dir opts : M Unit DbInner) () (World.start v) = (.ok db, (), w)) :
      Life env dir eras (.up (System.opened db w))
  | step {eras : List Era} {l : Label} {s s' : System} (earlier : Life env dir eras (.up s))
      (plain : Plain env l s) (step : Step env l s s') : Life env dir eras (.up s')
  | crashed {eras : List Era} {s : System} {v : Volume Path}
      (earlier : Life env dir eras (.up s)) (passing : Passing env (Plain env) s v)
      (keep : Nat → Nat) (whole : ¬ SplitsFlush env s (v.crash keep))
      (untorn : Untorn env dir (v.crash keep)) :
      Life env dir (eras ++ [⟨s.history, s.written.length⟩]) (.down (v.crash keep))
  /-- A crash inside an open other than the first. -/
  | crashedOpening {eras : List Era} {v u : Volume Path} {opts : Options}
      {r : Except Error DbInner} {w : World} (earlier : Life env dir eras (.down v))
      (named : v.lookup (currentPath dir) ≠ none)
      (run : (assemble env dir opts : M Unit DbInner) () (World.start v) = (r, (), w))
      (passed : u ∈ w.visited) (keep : Nat → Nat) (untorn : Untorn env dir (u.crash keep)) :
      Life env dir eras (.down (u.crash keep))

/-- `W` has of every era a beginning of its history, with every batch that was inserted. -/
def Recalls (eras : List Era) (W : List (List Record)) : Prop :=
  ∃ parts : List (List (List Record)), W = parts.flatten ∧
    List.Forall₂ (fun era part => part <+: era.history ∧ era.returned ≤ part.length) eras parts

theorem Recalls.concat {eras : List Era} {W : List (List Record)} (h : Recalls eras W) (era : Era)
    {n : Nat} (hn : era.returned ≤ n) (hn' : n ≤ era.history.length) :
    Recalls (eras ++ [era]) (W ++ era.history.take n) := by
  obtain ⟨parts, rfl, hparts⟩ := h
  refine ⟨parts ++ [era.history.take n], by simp, ?_⟩
  refine List.rel_append hparts (.cons ⟨List.take_prefix n _, ?_⟩ .nil)
  rw [List.length_take, min_eq_left hn']
  exact hn

/-- A handle that is open on a history that began with `H`. -/
structure Alive (env : Env) (dir : String) (H : List (List Record)) (s : System) (held : Held)
    (f a e : Nat) : Prop where
  inDir : s.db.dir = dir
  unmerged : s.compactor = .free
  files : Files env s held
  logged : Logged s held
  strata : Strata (H ++ s.written) s held f a e

/-- A directory at rest that has the history `W`. -/
structure AtRest (env : Env) (dir : String) (v : Volume Path) (W : List (List Record))
    (st : ManifestState) (tables : List (Nat × List Record)) (B : List (List Record)) (a p : Nat) :
    Prop where
  ordered : Ordered env dir v st tables
  synced : Files.LogSynced dir v
  fits : ∀ b ∈ B, BatchFits b
  log : LogWhole env dir v B
  remnant : Remnant W st tables B.flatten a p

section Log

variable {env : Env} {dir : String} {v u : Volume Path} {B : List (List Record)}

theorem LogWhole.opened (h : LogWhole env dir v B) :
    walOpened (walBytes v dir) = logBytes env newestLog B := by
  rcases h with ⟨hnil, rfl⟩ | hbytes
  · rw [hnil, logBytes_nil]
    rfl
  · rw [hbytes, walOpened_logBytes]

theorem LogWhole.replays (h : LogWhole env dir v B) (hfits : ∀ b ∈ B, BatchFits b) :
    replayOption env (walBytes v dir) = .ok B.flatten := by
  rcases h with ⟨hnil, rfl⟩ | hbytes
  · rw [hnil]
    rfl
  · rw [hbytes]
    exact replayBytes_logBytes newestLog_ne (classify_newestLog _ _) hfits
      (fun b _ => takes_newestLog b)

/-- A log that has a batch is left alone by an open. -/
theorem LogWhole.synced (h : LogWhole env dir v B) (hne : B ≠ []) (hkept : LogKept dir v u)
    (hsync : Files.LogSynced dir v) : Files.LogSynced dir u := by
  rcases h with ⟨_, rfl⟩ | hbytes
  · exact absurd rfl hne
  · rcases hkept with hfile | ⟨hnil, _⟩
    · intro x hx
      exact hsync x (hfile ▸ hx)
    · rw [hbytes] at hnil
      have hlen := congrArg List.length (show logBytes env newestLog B = [] from hnil)
      rw [length_logBytes_newest] at hlen
      simp [headerLen] at hlen

/-- After a crash all there is of a log is durable. -/
theorem logSynced_crash (dir : String) (v : Volume Path) (keep : Nat → Nat) :
    Files.LogSynced dir (v.crash keep) := by
  intro x hx
  rw [file_crash] at hx
  obtain ⟨i, _, rfl⟩ := Option.map_eq_some_iff.mp hx
  rfl

/-- The manifest of a volume determines its state. -/
theorem Shelf.unique {st st' : ManifestState} {tables tables' : List (Nat × List Record)}
    (h : Shelf env dir v st tables) (h' : Shelf env dir v st' tables') : st = st' := by
  obtain ⟨g, c, i, b, hg, hc, hb, hst⟩ := h.rests.named
  obtain ⟨g', c', i', b', hg', hc', hb', hst'⟩ := h'.rests.named
  obtain rfl : g = g' := by
    have hparse := parseCurrent_currentBytes hg
    rw [(hc.unique hc').2.1, parseCurrent_currentBytes hg'] at hparse
    exact (Except.ok.inj hparse).symm
  obtain rfl : b = b' := (hb.unique hb').2.1
  exact Except.ok.inj (hst.symm.trans hst')

end Log

section Opening

variable {env : Env} {dir : String} {v : Volume Path} {W B : List (List Record)}
variable {st : ManifestState} {tables : List (Nat × List Record)} {a p : Nat}

/-- On its way an open leaves the log alone, but for its header. -/
theorem Shelf.opens_logKept {log : List Record} (h : Shelf env dir v st tables) (opts : Options)
    (hlog : replayOption env (walBytes v dir) = .ok log) :
    ∃ db w, (assemble env dir opts : M Unit DbInner) () (World.start v) = (.ok db, (), w) ∧
      ∀ u ∈ w.visited, LogKept dir v u := by
  obtain ⟨g, c, i, b, hg, hcur, hman, hst⟩ := h.rests.named
  obtain ⟨w₁, w₂, j, hroll, hok, -⟩ := assemble_parts (s := ()) (w := World.start v) opts
    (World.quiet_start v) h.rests.sound (by simp [World.start]) hg hcur hman hst
  obtain ⟨w₃, db, hrun₃, _, _, _, _, hgrew₃⟩ := recoverFrom_quiet (s := ()) opts
    (Manifest.handle dir (Manifest.nextGen g) j) hroll.grew.quiet (hroll.sound h.rests.sound) h.ids
    h.fit (hroll.files_kept h.files) (by rw [hroll.walBytes]; exact hlog)
  have hgrew : World.Grew { World.start v with locks := [lockPath dir] } w₃ (LogKept dir v) := by
    refine ((hroll.lockGrew.mono fun u hu => Or.inl (hu.files _ (by simp))).trans
      (hroll.grew.mono fun u hu => Or.inl ?_)).trans (hgrew₃.mono fun u hu => ?_)
    · rw [← hroll.lock.files (walPath dir) (by simp)]
      rcases hu with hsame | ⟨hsame, _⟩
      · exact hsame.files _ (by simp)
      · exact hsame.files _ (by simp)
    · have hkept := hu.2
      unfold LogKept at hkept
      rw [hroll.wal, hroll.walBytes] at hkept
      exact hkept
  refine ⟨db, w₃, hok db w₃ hrun₃, fun u hu => ?_⟩
  obtain ⟨vs, hvs, hall⟩ := hgrew.visited
  rw [hvs] at hu
  rcases List.mem_append.mp hu with hu | hu
  · exact hall u hu
  · obtain rfl : u = v := by simpa [World.start, World.visited] using hu
    exact Or.inl rfl

theorem AtRest.image (h : AtRest env dir v W st tables B a p) :
    Image env dir v st tables B.flatten :=
  h.ordered.shelf.image (h.log.replays h.fits)

/-- An open brings the history back. -/
theorem AtRest.opens (h : AtRest env dir v W st tables B a p) (opts : Options) :
    ∃ db w, (assemble env dir opts : M Unit DbInner) () (World.start v) = (.ok db, (), w) ∧
      db.opts = opts ∧
      Alive env dir W (System.opened db w) ⟨tables, st.snapshotEdits, newestLog, B⟩ a a p := by
  obtain ⟨w, db, hrun, hs, hopen, hman, hgrew⟩ := assemble_quiet (s := ()) (w := World.start v)
    opts (World.quiet_start v) (by simp [World.start]) h.image
  obtain ⟨db', w', hrun', hkept⟩ := h.ordered.shelf.opens_logKept opts h.image.log
  cases hrun'.symm.trans hrun
  rw [show walOpened (walBytes (World.start v).vol dir) = _ from h.log.opened] at hopen
  refine ⟨db, w, hrun, hopen.withOpts, hopen.inDir, rfl, ?_, ?_, ?_⟩
  · exact Files.opened (s := System.opened db w) ⟨rfl, rfl, rfl⟩ hgrew.quiet hs hopen hman
      (by simp [ManifestState.snapshotEdits]) (applyAll_snapshotEdits st) h.ordered.shelf.ids
      h.ordered.shelf.rising h.ordered.shelf.fit h.fits h.ordered.above
  · intro _ hne
    show Files.LogSynced db.dir w.vol
    rw [hopen.inDir]
    exact h.log.synced hne (hkept _ (by simp [World.visited])) h.synced
  · rw [show W ++ (System.opened db w).written = W from List.append_nil W]
    exact h.remnant.opened hopen (applyAll_snapshotEdits st)

/-- What a crash inside an open leaves is tables, manifest and log as they were, wherever it
cuts the header the open may be writing. -/
theorem AtRest.left_opening (h : AtRest env dir v W st tables B a p) {u : Volume Path}
    {opts : Options} {r : Except Error DbInner} {w : World}
    (hrun : (assemble env dir opts : M Unit DbInner) () (World.start v) = (r, (), w))
    (hu : u ∈ w.visited) (keep : Nat → Nat) :
    Shelf env dir (u.crash keep) st tables ∧
      replayOption env (walBytes (u.crash keep) dir) = .ok B.flatten := by
  obtain ⟨r', w', hrun', ⟨vs, hvs, hshelves⟩, _⟩ := Shelf.opens (s := ()) (w := World.start v) opts
    h.ordered.shelf (World.quiet_start v) (by simp [World.start])
  cases hrun'.symm.trans hrun
  obtain ⟨db, w', hrun', hkept⟩ := h.ordered.shelf.opens_logKept opts h.image.log
  cases hrun'.symm.trans hrun
  have hshelf : Shelf env dir u st tables := by
    rw [hvs] at hu
    rcases List.mem_append.mp hu with hu | hu
    · exact hshelves u hu
    · obtain rfl : u = v := by simpa [World.start, World.visited] using hu
      exact h.ordered.shelf
  exact ⟨hshelf.crash keep, replay_crash_of_logKept (hkept u hu) h.image.log h.synced keep⟩

/-- A crash inside an open changes nothing. -/
theorem AtRest.crashedOpening (h : AtRest env dir v W st tables B a p) {u : Volume Path}
    {opts : Options} {r : Except Error DbInner} {w : World}
    (hrun : (assemble env dir opts : M Unit DbInner) () (World.start v) = (r, (), w))
    (hu : u ∈ w.visited) (keep : Nat → Nat) (huntorn : Untorn env dir (u.crash keep)) :
    ∃ B', AtRest env dir (u.crash keep) W st tables B' a p := by
  obtain ⟨hshelf, hreplay⟩ := h.left_opening hrun hu keep
  obtain ⟨B', hfits, hwhole⟩ := huntorn
  have hsame : B'.flatten = B.flatten := by
    rw [hwhole.replays hfits] at hreplay
    exact Except.ok.inj hreplay
  exact ⟨B',
    { h with
      ordered := ⟨hshelf, h.ordered.above⟩
      synced := logSynced_crash dir u keep
      fits := hfits
      log := hwhole
      remnant := by rw [hsame]; exact h.remnant }⟩

end Opening

section Crashing

variable {env : Env} {dir : String} {H : List (List Record)} {s s' : System} {held : Held}
variable {f a e : Nat} {v : Volume Path} {l : Label}

theorem Passing.weaken {ok ok' : Label → System → Prop} (hok : ∀ l s, ok l s → ok' l s)
    (h : Passing env ok s v) : Passing env ok' s v :=
  h.imp_right fun ⟨l, s', vs, hl, hrest⟩ => ⟨l, s', vs, hok l s hl, hrest⟩

/-- A step of writers, snapshots and flushes leaves the setup of a handle as it is. -/
theorem Effect.plain_setup {held' : Held} (h : Effect env l s held s' held')
    (hl : l.plain = true) :
    s'.db.dir = s.db.dir ∧ s'.db.opts = s.db.opts ∧ s'.compactor = s.compactor := by
  cases h with
  | list | choose | abandon | bound | merge | name | finish | reopen => cases hl
  | _ => exact ⟨rfl, rfl, rfl⟩

theorem Alive.step (h : Alive env dir H s held f a e) (hl : Plain env l s)
    (hstep : Step env l s s') :
    ∃ held' f' a' e', s'.db.opts = s.db.opts ∧ Alive env dir H s' held' f' a' e' := by
  obtain ⟨held', heff, hfiles⟩ := h.files.step hl.1 hstep
  obtain ⟨f', a', e', hstrata⟩ := h.strata.step hl.2 heff
  obtain ⟨hdir, hopts, hcomp⟩ := heff.plain_setup hl.2
  exact ⟨held', f', a', e', hopts, hdir.trans h.inDir, hcomp.trans h.unmerged, hfiles,
    h.logged.step hl.2 heff, hstrata⟩

/-- What there is to recover when a crash comes. -/
theorem Alive.wreck (h : Alive env dir H s held f a e) (hsync : s.db.opts.syncWal = .durable)
    (hv : Passing env (Plain env) s v) :
    ∃ B q, LogOnWay env s held v held.log.length B q ∧
      Wreck env dir v held.edits s.flusher.coming
        (fun j => s.flusher.tablesAt held.tables j) B q := by
  have := h.files.wreck h.unmerged (h.logged.durably env hsync) hv
  rwa [h.inDir] at this

/-- The ids that a crash leaves are below the next one, unless it splits the edits of a flush. -/
theorem Alive.ids_left (h : Alive env dir H s held f a e) (hv : Passing env (Plain env) s v)
    {keep : Nat → Nat} {st : ManifestState} {tables : List (Nat × List Record)}
    (hshelf : Shelf env dir (v.crash keep) st tables)
    (hwhole : ¬ SplitsFlush env s (v.crash keep)) : ∀ t ∈ tables, t.1 < st.nextSstId := by
  obtain ⟨st', tables', hshelf', habove⟩ := h.files.catalogue.leaves_passing
    (hv.weaken fun _ _ hl => hl.1) keep
  rw [h.inDir] at hshelf'
  obtain rfl := hshelf'.unique hshelf
  intro t ht
  have hmem : t.1 ∈ tables'.map Prod.fst := by
    rw [← hshelf'.ids, hshelf.ids]
    exact List.mem_map_of_mem ht
  obtain ⟨t', ht', heq⟩ := List.mem_map.mp hmem
  rw [← heq]
  exact habove.mpr hwhole t' ht'

/-- A crash leaves a beginning of the history with every inserted batch. -/
theorem Alive.crash (h : Alive env dir H s held f a e) (hsync : s.db.opts.syncWal = .durable)
    (hv : Passing env (Plain env) s v) (keep : Nat → Nat)
    (hwhole : ¬ SplitsFlush env s (v.crash keep))
    (huntorn : Untorn env dir (v.crash keep)) :
    ∃ n st tables B i p, s.written.length ≤ n ∧ n ≤ s.history.length ∧
      AtRest env dir (v.crash keep) (H ++ s.history.take n) st tables B i p := by
  obtain ⟨B, q, hway, hwreck⟩ := h.wreck hsync hv
  obtain ⟨g, hsalvage⟩ := hwreck.salvage
  obtain ⟨j, _, hshelf, _⟩ := hsalvage.crash keep
  obtain ⟨k, hk, hreplay⟩ := hwreck.log.crash keep
  obtain ⟨n, i, p, hn, hn', hremnant⟩ := h.strata.remnant h.files hway hk j
  obtain ⟨B', hfits, hlog⟩ := huntorn
  have hsame : B'.flatten = (B.take k).flatten := by
    rw [hlog.replays hfits] at hreplay
    exact Except.ok.inj hreplay
  have hall : H ++ s.written ++ s.writer.batches = H ++ s.history := by
    rw [List.append_assoc, System.history]
  rw [hall, List.length_append] at hn'
  rw [List.length_append] at hn
  rw [hall, ← hsame, List.take_append, List.take_of_length_le (by omega)] at hremnant
  exact ⟨n - H.length, _, _, B', i, p, by omega, by omega,
    ⟨hshelf, h.ids_left hv hshelf hwhole⟩, logSynced_crash dir v keep, hfits, hlog, hremnant⟩

end Crashing

/-- What is in a directory through its life. -/
def Site.Recalls (env : Env) (dir : String) (eras : List Era) : Site → Prop
  | .up s => s.db.opts.syncWal = .durable ∧
      ∃ H held f a e, LsmKv.Recalls eras H ∧ Alive env dir H s held f a e
  | .down v => eras = [] ∧ FreshDir dir v ∨
      ∃ W st tables B a p, LsmKv.Recalls eras W ∧ AtRest env dir v W st tables B a p

/-- The first open. -/
theorem Alive.fresh (env : Env) {dir : String} {v : Volume Path} (h : FreshDir dir v)
    (opts : Options) :
    ∃ db w held, (assemble env dir opts : M Unit DbInner) () (World.start v) = (.ok db, (), w) ∧
      db.opts = opts ∧ Alive env dir [] (System.opened db w) held 0 0 0 := by
  obtain ⟨db, w, hrun, hopen, hfiles⟩ := Files.fresh (w := World.start v) env opts
    (World.quiet_start v) (by simp [World.start]) h
  have hremnant : Remnant [] (applyAll (migrationEdits [])) []
      ([] : List (List Record)).flatten 0 0 :=
    ⟨.nil, by simp, .nil, le_rfl, le_rfl, by simp [span], by simp [span]⟩
  exact ⟨db, w, _, hrun, hopen.withOpts, hopen.inDir, rfl, hfiles, fun _ hne => absurd rfl hne,
    hremnant.opened hopen rfl⟩

/-- Every open of a directory brings the history back. -/
theorem Site.Recalls.opens {env : Env} {dir : String} {eras : List Era} {v : Volume Path}
    (h : Site.Recalls env dir eras (.down v)) (opts : Options) :
    ∃ db w H held f a e,
      (assemble env dir opts : M Unit DbInner) () (World.start v) = (.ok db, (), w) ∧
      db.opts = opts ∧ LsmKv.Recalls eras H ∧
      Alive env dir H (System.opened db w) held f a e := by
  rcases h with ⟨rfl, hfresh⟩ | ⟨W, st, tables, B, a, p, hrec, hrest⟩
  · obtain ⟨db, w, held, hrun, hopts, halive⟩ := Alive.fresh env hfresh opts
    exact ⟨db, w, [], held, 0, 0, 0, hrun, hopts, ⟨[], rfl, .nil⟩, halive⟩
  · obtain ⟨db, w, hrun, hopts, halive⟩ := hrest.opens opts
    exact ⟨db, w, W, _, _, _, _, hrun, hopts, hrec, halive⟩

theorem Life.recalls {env : Env} {dir : String} {eras : List Era} {site : Site}
    (h : Life env dir eras site) : site.Recalls env dir eras := by
  induction h with
  | fresh fresh => exact Or.inl ⟨rfl, fresh⟩
  | @opened eras v opts db w _ durable run ih =>
      obtain ⟨db', w', H, held, f, a, e, hrun, hopts, hrec, halive⟩ := ih.opens opts
      cases hrun.symm.trans run
      exact ⟨by rw [← durable, ← hopts]; rfl, H, held, f, a, e, hrec, halive⟩
  | step _ plain step ih =>
      obtain ⟨hsync, H, held, f, a, e, hrec, halive⟩ := ih
      obtain ⟨held', f', a', e', hopts, halive'⟩ := halive.step plain step
      exact ⟨by rw [hopts]; exact hsync, H, held', f', a', e', hrec, halive'⟩
  | crashed _ passing keep whole untorn ih =>
      obtain ⟨hsync, H, held, f, a, e, hrec, halive⟩ := ih
      obtain ⟨n, st, tables, B, i, p, hn, hn', hrest⟩ :=
        halive.crash hsync passing keep whole untorn
      exact Or.inr ⟨_, st, tables, B, i, p, hrec.concat ⟨_, _⟩ hn hn', hrest⟩
  | crashedOpening _ named run passed keep untorn ih =>
      rcases ih with ⟨_, hfresh⟩ | ⟨W, st, tables, B, a, p, hrec, hrest⟩
      · exact absurd (hfresh.empty _ rfl) named
      · obtain ⟨B', hrest'⟩ := hrest.crashedOpening run passed keep untorn
        exact Or.inr ⟨W, st, tables, B', a, p, hrec, hrest'⟩

section Schedules

variable {env : Env} {dir : String} {eras : List Era} {s s' : System}

/-- Schedules without merges are part of a life. -/
theorem Life.execAll {ls : List Label} (h : Life env dir eras (.up s))
    (hrun : System.execAll env (fun l _ => l.plain) ls s = some s') : Life env dir eras (.up s') :=
  (System.execAll_steps hrun).keeps (P := fun s => Life env dir eras (.up s))
    (fun _ _ _ earlier plain step => earlier.step plain step) h

/-- So is a crash that leaves the batches `B` in the log. -/
theorem Life.falls {keep : Nat → Nat} (B : List (List Record)) (h : Life env dir eras (.up s))
    (hleft : ¬ SplitsFlush env s (s.w.vol.crash keep) ∧ (∀ b ∈ B, BatchFits b) ∧
      walBytes (s.w.vol.crash keep) dir = some (logBytes env newestLog B)) :
    Life env dir (eras ++ [⟨s.history, s.written.length⟩]) (.down (s.w.vol.crash keep)) :=
  h.crashed (Or.inl rfl) keep hleft.1 ⟨B, hleft.2.1, Or.inr hleft.2.2⟩

/-- So is an open. -/
theorem Life.starts {opts : Options} {v : Volume Path} (h : Life env dir eras (.down v))
    (durable : opts.syncWal = .durable) (hopen : System.startOn env dir opts v = some s) :
    Life env dir eras (.up s) := by
  obtain ⟨db, w, hrun, rfl⟩ := System.startOn_eq_some hopen
  exact h.opened durable hrun

/-- And so is a crash inside an open that leaves the batches `B` in the log. -/
theorem Life.fallsOpening {opts : Options} {v u : Volume Path} {k : Nat} {keep : Nat → Nat}
    (B : List (List Record)) (h : Life env dir eras (.down v))
    (hopen : System.startOn env dir opts v = some s) (hu : s.w.visited[k]? = some u)
    (hleft : v.lookup (currentPath dir) ≠ none ∧ (∀ b ∈ B, BatchFits b) ∧
      walBytes (u.crash keep) dir = some (logBytes env newestLog B)) :
    Life env dir eras (.down (u.crash keep)) := by
  obtain ⟨db, w, hrun, rfl⟩ := System.startOn_eq_some hopen
  exact h.crashedOpening hleft.1 hrun (List.mem_of_getElem? hu) keep
    ⟨B, hleft.2.1, Or.inr hleft.2.2⟩

end Schedules

end LsmKv
