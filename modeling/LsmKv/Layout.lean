import LsmKv.ManifestQuiet
import LsmKv.Reading
import LsmKv.WalQuiet

/-!
# The files behind a handle

`Held` is what the files of a directory hold, record by record; `Layout` ties
it to the bytes of the volume and to the descriptors a handle has open.

**Results.**
* `Layout.frame`: files a handle does not use do not matter.
* `writeBatch_quiet`: a write appends one batch to the log.
-/

namespace LsmKv

open Foundation Volume

/-- What the files of a directory hold. -/
structure Held where
  /-- Live tables, oldest first. -/
  tables : List (Nat × List Record)
  edits : List VersionEdit
  /-- The format of the log. -/
  kind : Kind
  /-- The batches of the log. -/
  log : List (List Record)

/-- The log of a handle. -/
structure LogOpen (env : Env) (dir : String) (sync : SyncMode) (v : Volume Path) (wal : Wal)
    (kind : Kind) (log : List (List Record)) (i n : Nat) : Prop where
  handle : wal = Wal.handle i (walPath dir) sync kind
  bound : v.Bound (walPath dir) i (logBytes env kind log) n

/-- The manifest of a handle. -/
structure ManifestOpen (env : Env) (dir : String) (v : Volume Path) (manifest : Manifest)
    (edits : List VersionEdit) (g i : Nat) : Prop where
  handle : manifest = Manifest.handle dir g i
  generation : g ≤ u64Max
  live : Manifest.Live env dir g i edits v
  fits : ∀ e ∈ edits, e.Fits

/-- The files of a volume hold `held`, and the handle has them open. -/
structure Layout (env : Env) (v : Volume Path) (db : DbInner) (held : Held) : Prop where
  sound : v.Sound
  opened : TablesOpen env db.dir db.opts.bloomEnabled v db.sstables held.tables
  fit : TablesFit env held.tables
  ids : (held.tables.map Prod.fst).Pairwise (· < ·)
  manifest : ∃ g i, ManifestOpen env db.dir v db.manifest held.edits g i
  live : (applyAll held.edits).liveTables.keys = held.tables.map Prod.fst
  log : ∃ i n, LogOpen env db.dir db.opts.syncWal v db.wal held.kind held.log i n

section Frame

variable {env : Env} {dir : String} {v v' : Volume Path} {ps : List Path}

theorem TablesOpen.same {bloomEnabled : Bool} {sstables : List SsTable}
    {tables : List (Nat × List Record)} (h : TablesOpen env dir bloomEnabled v sstables tables)
    (hsame : SameExcept ps v v') (hps : ∀ t ∈ tables, sstPath dir t.1 ∉ ps) :
    TablesOpen env dir bloomEnabled v' sstables tables := by
  induction h with
  | nil => exact List.Forall₂.nil
  | cons hth _ ih =>
      obtain ⟨i, ht, hb⟩ := hth
      exact List.Forall₂.cons ⟨i, ht, hb.same hsame (hps _ (by simp))⟩
        (ih fun t ht => hps t (List.mem_cons_of_mem _ ht))

theorem Manifest.Live.same {g i : Nat} {edits : List VersionEdit}
    (h : Manifest.Live env dir g i edits v) (hsame : SameExcept ps v v')
    (hcur : currentPath dir ∉ ps) (htmp : currentTmpPath dir ∉ ps)
    (hman : manifestPath dir g ∉ ps) : Manifest.Live env dir g i edits v' := by
  obtain ⟨c, hc⟩ := h.named.current
  exact ⟨⟨⟨c, hc.same hsame hcur⟩, (hsame.names _ htmp).trans h.named.scratch⟩,
    h.holds.same hsame hman⟩

theorem ManifestOpen.same {manifest : Manifest} {edits : List VersionEdit} {g i : Nat}
    (h : ManifestOpen env dir v manifest edits g i) (hsame : SameExcept ps v v')
    (hcur : currentPath dir ∉ ps) (htmp : currentTmpPath dir ∉ ps)
    (hman : manifestPath dir g ∉ ps) : ManifestOpen env dir v' manifest edits g i :=
  ⟨h.handle, h.generation, h.live.same hsame hcur htmp hman, h.fits⟩

theorem LogOpen.same {sync : SyncMode} {wal : Wal} {kind : Kind} {log : List (List Record)}
    {i n : Nat} (h : LogOpen env dir sync v wal kind log i n) (hsame : SameExcept ps v v')
    (hwal : walPath dir ∉ ps) : LogOpen env dir sync v' wal kind log i n :=
  ⟨h.handle, h.bound.same hsame hwal⟩

end Frame

section Write

variable {env : Env} {w : World} {db : DbInner} {held : Held}

theorem length_numberRecords (seq : Nat) (batch : WriteBatch) :
    (DbInner.numberRecords seq batch).length = batch.length := by
  induction batch generalizing seq with
  | nil => rfl
  | cons op ops ih => simp [DbInner.numberRecords, ih]

theorem numberRecords_ne_nil (seq : Nat) {batch : WriteBatch} (hne : batch ≠ []) :
    DbInner.numberRecords seq batch ≠ [] := by
  intro h
  have hlen := length_numberRecords seq batch
  rw [h] at hlen
  exact hne (List.eq_nil_of_length_eq_zero hlen.symm)

/-- A single write is a batch of one. -/
theorem write_eq_writeBatch (env : Env) (key : Bytes) (value : Option Bytes) :
    DbInner.write env key value = DbInner.writeBatch env [(key, value)] := rfl

/-- What a write makes of the handle. -/
def DbInner.written (db : DbInner) (batch : WriteBatch) : DbInner :=
  { db with
    nextSeq := (db.nextSeq + batch.length) % 2 ^ 64
    active := (numberRecords db.nextSeq batch).foldl MemTable.insert db.active }

/-- What a write makes of the files. -/
def Held.written (held : Held) (records : List Record) : Held :=
  { held with log := held.log ++ [records] }

theorem writeBatch_nil (hfail : db.failed = none) :
    DbInner.writeBatch env [] db w = (.ok (), db, w) := by
  unfold DbInner.writeBatch
  rw [M.bind_ok (health_ok hfail)]
  rfl

/-- A write appends one batch to the log. -/
theorem writeBatch_quiet {batch : WriteBatch} (hq : w.Quiet) (hfail : db.failed = none)
    (hl : Layout env w.vol db held) (hne : batch ≠ [])
    (htake : held.kind.Takes (DbInner.numberRecords db.nextSeq batch)) :
    ∃ w', DbInner.writeBatch env batch db w = (.ok (), db.written batch, w') ∧
      Layout env w'.vol (db.written batch)
        (held.written (DbInner.numberRecords db.nextSeq batch)) ∧
      w.Grew w' (SameExcept [walPath db.dir] w.vol) := by
  set records := DbInner.numberRecords db.nextSeq batch with hrecords
  have hrne : records ≠ [] := numberRecords_ne_nil db.nextSeq hne
  obtain ⟨i, n, hlog⟩ := hl.log
  obtain ⟨w', n', hrun, hb, _, hsame, hgrew⟩ := Wal.appendBatch_bound env
    db.opts.syncWal hq hl.sound (by simp) hlog.bound hrne htake
  have hbytes : logBytes env held.kind held.log ++
      (Wal.handle i (walPath db.dir) db.opts.syncWal held.kind).frameOf env records =
        logBytes env held.kind (held.log ++ [records]) := by
    rw [logBytes_append, logPayloads, List.map_singleton, frames_cons, frames_nil,
      List.append_nil]
    rfl
  rw [hbytes] at hb
  refine ⟨w', ?_, ?_, hgrew.mono fun v hv => hv.same⟩
  · have hwal : DbInner.onWal (Wal.appendBatch env records)
        { db with nextSeq := (db.nextSeq + batch.length) % 2 ^ 64 } w =
          (.ok (), { db with nextSeq := (db.nextSeq + batch.length) % 2 ^ 64 }, w') := by
      rw [← hlog.handle] at hrun
      exact M.zoom_eq DbInner.wal (fun self wal => { self with wal := wal })
        (s := { db with nextSeq := (db.nextSeq + batch.length) % 2 ^ 64 }) hrun
    unfold DbInner.writeBatch
    rw [M.bind_ok (health_ok hfail), if_neg hne, M.bind_ok (M.self_apply _ _),
      M.bind_ok (M.update_apply _ _ _), M.bind_ok hwal]
    rfl
  · obtain ⟨g, j, hman⟩ := hl.manifest
    exact
      { sound := hsame.sound hl.sound
        opened := hl.opened.same hsame (by simp)
        fit := hl.fit
        ids := hl.ids
        manifest := ⟨g, j, hman.same hsame (by simp) (by simp) (by simp)⟩
        live := hl.live
        log := ⟨i, n', hlog.handle, hb⟩ }

end Write

end LsmKv
