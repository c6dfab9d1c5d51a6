import LsmKv.Backing

/-!
# What a step does

`Effect` says what a step makes of the handle, of the stages and of what the
files hold, without a word about how the bytes get there.  Everything that is
proved about the interleavings is proved from it.

**Results.**
* `Stored.step`: a step from a state whose files are in order has its effect, and
  leaves the files in order.
* `Steps.files`: so they are in every state a run reaches.
-/

namespace LsmKv

open Foundation Volume

/-- What a step makes of a system and of what its files hold. -/
inductive Effect (env : Env) : Label → System → Held → System → Held → Prop
  | number {s : System} {held : Held} (batch : WriteBatch) (some : batch ≠ [])
      (free : s.writer = .free) (seqs : s.db.nextSeq + batch.length ≤ u64Max) :
      Effect env (.number batch) s held
        { s with
          db := { s.db with nextSeq := s.db.nextSeq + batch.length }
          writer := .numbered (DbInner.numberRecords s.db.nextSeq batch) } held
  | log {s : System} {held : Held} {w : World} {records : List Record}
      (stage : s.writer = .numbered records) (fits : BatchFits records)
      (synced : s.db.opts.syncWal = .durable → Files.LogSynced s.db.dir w.vol)
      (same : SameExcept [walPath s.db.dir] s.w.vol w.vol)
      (grew : s.w.Grew w (Files.Logging env s.db.dir held.log records s.w.vol)) :
      Effect env .log s held { s with w := w, writer := .logged records }
        { held with log := held.log ++ [records] }
  | insert {s : System} {held : Held} {records : List Record}
      (stage : s.writer = .logged records) :
      Effect env .insert s held
        { s with
          db := { s.db with active := records.foldl MemTable.insert s.db.active }
          writer := .free
          written := s.written ++ [records] } held
  | freeze {s : System} {held : Held} (free : s.flushLockFree)
      (full : s.db.active.isEmpty = false) :
      Effect env .freeze s held
        { s with
          db :=
            { s.db with
              active := MemTable.new s.db.opts.memtableThreshold
              frozen := some s.db.active }
          flusher := .frozen s.db.active
          frozenFrom := s.frozenAt
          frozenAt := s.written.length } held
  | write {s : System} {held : Held} {w : World} {m : MemTable}
      (stage : s.flusher = .frozen m)
      (same : SameExcept [sstTmpPath s.db.dir s.db.nextSstId] s.w.vol w.vol)
      (grew : s.w.Grew w (SameExcept [sstTmpPath s.db.dir s.db.nextSstId] s.w.vol)) :
      Effect env .write s held
        { s with
          db := { s.db with nextSstId := s.db.nextSstId + 1 }
          w := w
          flusher := .written m s.db.nextSstId } held
  | place {s : System} {held : Held} {w : World} {m : MemTable} {id : Nat} (table : SsTable)
      (stage : s.flusher = .written m id)
      (covered : ∀ p : Path, p.dir = s.db.dir → w.vol.Covered p)
      (same : SameExcept [sstTmpPath s.db.dir id, sstPath s.db.dir id] s.w.vol w.vol)
      (grew : s.w.Grew w
        (SameExcept [sstTmpPath s.db.dir id, sstPath s.db.dir id] s.w.vol)) :
      Effect env .place s held { s with w := w, flusher := .placed m id table } held
  | count {s : System} {held : Held} {m : MemTable} {id : Nat} {table : SsTable}
      (stage : s.flusher = .placed m id table) :
      Effect env .count s held
        { s with flusher := .counted m id table s.db.nextSstId s.db.nextSeq } held
  | record {s : System} {held : Held} {w : World} {m : MemTable} {id : Nat} {table : SsTable}
      {a b g j : Nat} (stage : s.flusher = .counted m id table a b)
      (manifest : ManifestOpen env s.db.dir s.w.vol s.db.manifest held.edits g j)
      (same : SameExcept [manifestPath s.db.dir g] s.w.vol w.vol)
      (grew : s.w.Grew w (Appending s.w.vol (manifestPath s.db.dir g) j
        (manifestBytes env held.edits) (manifestBytes env held.edits).length
        (editFrames env (flushEdits id a b)))) :
      Effect env .record s held { s with w := w, flusher := .recorded m id table }
        { held with edits := held.edits ++ flushEdits id a b }
  | publish {s : System} {held : Held} {m : MemTable} {id : Nat} {table : SsTable}
      (stage : s.flusher = .recorded m id table) :
      Effect env .publish s held
        { s with
          db := { s.db with sstables := s.db.sstables ++ [table] }
          flusher := .published m
          publishedAt := s.frozenAt }
        { held with tables := held.tables ++ [(id, m.iter)] }
  | relog {s : System} {held : Held} {w : World} {m : MemTable} {i : Nat} (wal : Wal)
      (stage : s.flusher = .published m) (free : s.writer = .free)
      (synced : Files.LogSynced s.db.dir w.vol)
      (covered : ∀ p : Path, p.dir = s.db.dir → w.vol.Covered p)
      (same : SameExcept [walTmpPath s.db.dir, walPath s.db.dir] s.w.vol w.vol)
      (grew : s.w.Grew w
        (Rewriting env s.db.dir i (s.db.active.iter.map (fun r => [r])) s.w.vol)) :
      Effect env .relog s held
        { s with
          db := { s.db with wal := wal }
          w := w
          flusher := .relogged m
          loggedFrom := s.frozenAt }
        { held with log := s.db.active.iter.map (fun r => [r]) }
  | clear {s : System} {held : Held} {m : MemTable} (stage : s.flusher = .relogged m) :
      Effect env .clear s held
        { s with db := { s.db with frozen := none }, flusher := .free } held
  | list {s : System} {held : Held} (free : s.compactor = .free) :
      Effect env .list s held { s with compactor := .listed s.db.sstables } held
  | choose {s : System} {held : Held} {tables : List SsTable} (c : DbInner.Choice)
      (stage : s.compactor = .listed tables) :
      Effect env .choose s held { s with compactor := .chosen c } held
  | abandon {s : System} {held : Held} {tables : List SsTable}
      (stage : s.compactor = .listed tables) :
      Effect env .abandon s held { s with compactor := .free } held
  | bound {s : System} {held : Held} {c : DbInner.Choice} (stage : s.compactor = .chosen c) :
      Effect env .bound s held { s with compactor := .bounded c s.db.minSnapshotSeq } held
  | merge {s : System} {held : Held} {w : World} {c : DbInner.Choice} {minSeq : Nat}
      (stage : s.compactor = .bounded c minSeq)
      (same : SameExcept [sstTmpPath s.db.dir c.maxId] s.w.vol w.vol)
      (grew : s.w.Grew w (SameExcept [sstTmpPath s.db.dir c.maxId] s.w.vol)) :
      Effect env .merge s held { s with w := w, compactor := .merged c minSeq } held
  | name {s : System} {held : Held} {w : World} {c : DbInner.Choice} {minSeq : Nat}
      (stage : s.compactor = .merged c minSeq) (free : s.flusher = .free)
      (same : SameExcept [sstTmpPath s.db.dir c.maxId, sstPath s.db.dir c.maxId] s.w.vol w.vol)
      (grew : s.w.Grew w (fun v => v = w.vol)) :
      Effect env .name s held { s with w := w, compactor := .named c minSeq } held
  | finish {s : System} {held : Held} {w : World} {c : DbInner.Choice} {minSeq g j : Nat}
      {front stale back : List (Nat × List Record)} {last : Nat × List Record}
      (sstables : List SsTable) (stage : s.compactor = .named c minSeq)
      (picked : Picked s.db.sstables held.tables c front stale last back)
      (covered : ∀ p : Path, p.dir = s.db.dir → w.vol.Covered p)
      (manifest : ManifestOpen env s.db.dir s.w.vol s.db.manifest held.edits g j)
      (same : SameExcept (manifestPath s.db.dir g :: stale.map (fun t => sstPath s.db.dir t.1))
        s.w.vol w.vol)
      (grew : s.w.Grew w (Finishing env s.db.dir g j held.edits stale s.w.vol)) :
      Effect env .finish s held
        { s with
          db := { s.db with sstables := sstables }
          w := w
          compactor := .free
          droppedAt := if c.dropTombstones then s.publishedAt else s.droppedAt }
        (held.compacted front stale last back (c.out minSeq stale last))
  | load {s : System} {held : Held} :
      Effect env .load s held { s with loading := s.db.nextSeq :: s.loading } held
  | register {s : System} {held : Held} {horizon : Nat} (loaded : horizon ∈ s.loading) :
      Effect env (.register horizon) s held
        { s with
          db :=
            { s.db with
              snapshots := s.db.snapshots.insert horizon
                ((s.db.snapshots.find? horizon).getD 0 + 1) }
          loading := s.loading.erase horizon
          live := horizon :: s.live } held
  | drop {s : System} {held : Held} {horizon : Nat} (snapshots : SortedMap Nat Nat)
      (alive : horizon ∈ s.live)
      (run : DbInner.dropSnapshot horizon s.db s.w =
        (.ok (), { s.db with snapshots := snapshots }, s.w)) :
      Effect env (.drop horizon) s held
        { s with
          db := { s.db with snapshots := snapshots }
          live := s.live.erase horizon } held
  | reopen {s : System} {held : Held} {db : DbInner} {w : World} (opts : Options)
      (idle : s.Idle) (loading : s.loading = []) (live : s.live = [])
      (opened : Opened env s.db.dir opts w.vol db (applyAll held.edits) held.tables
        held.log.flatten (logBytes env newestLog held.log)) :
      Effect env (.reopen opts) s held { s with db := db, w := w }
        { held with edits := (applyAll held.edits).snapshotEdits }

section Step

variable {env : Env} {s s' : System} {held : Held} {l : Label}

/-- Dropping a snapshot touches nothing but the horizons. -/
theorem dropSnapshot_same (horizon : Nat) (db : DbInner) (w : World) :
    ∃ snapshots, DbInner.dropSnapshot horizon db w =
      (.ok (), { db with snapshots := snapshots }, w) := by
  unfold DbInner.dropSnapshot
  rw [M.update_apply]
  cases db.snapshots.find? horizon with
  | none => exact ⟨db.snapshots, rfl⟩
  | some count =>
      dsimp only
      split_ifs
      · exact ⟨_, rfl⟩
      · exact ⟨_, rfl⟩

/-- The numbers of a batch, while they do not run out. -/
theorem takeNumbers_eq {db : DbInner} {w : World} {batch : WriteBatch}
    (h : db.nextSeq + batch.length ≤ u64Max) :
    DbInner.takeNumbers batch db w =
      (.ok (DbInner.numberRecords db.nextSeq batch),
        { db with nextSeq := db.nextSeq + batch.length }, w) := by
  have hmod : (db.nextSeq + batch.length) % 2 ^ 64 = db.nextSeq + batch.length :=
    Nat.mod_eq_of_lt (by
      unfold u64Max at h
      omega)
  unfold DbInner.takeNumbers
  rw [M.bind_ok (M.self_apply _ _), M.bind_ok (M.update_apply _ _ _), hmod]
  rfl

theorem freeze_some {db db' : DbInner} {w w' : World} {m : MemTable}
    (h : DbInner.freeze db w = (.ok (some m), db', w')) :
    db.active.isEmpty = false ∧ m = db.active ∧ w' = w ∧
      db' =
        { db with
          active := MemTable.new db.opts.memtableThreshold
          frozen := some db.active } := by
  unfold DbInner.freeze at h
  rw [M.bind_ok (M.self_apply _ _)] at h
  cases hempty : db.active.isEmpty with
  | true =>
      rw [hempty] at h
      cases h
  | false =>
      rw [hempty] at h
      cases h
      exact ⟨rfl, rfl, rfl, rfl⟩

/-- The run a compaction picks among the tables it has listed. -/
theorem picked_of_listed {dir : String} {bloomEnabled : Bool} {v : Volume Path}
    {sstables listed : List SsTable} {tables : List (Nat × List Record)} {db db' : DbInner}
    {w w' : World} {c : DbInner.Choice} (hread : TablesRead env dir bloomEnabled v sstables tables)
    (hids : (tables.map Prod.fst).Pairwise (· < ·)) (hlisted : ∃ B, sstables = listed ++ B)
    (hrun : DbInner.chooseRun listed db w = (.ok (some c), db', w')) :
    ∃ front stale last back, Picked sstables tables c front stale last back := by
  obtain ⟨F, S, L, B, first, oldest, htables, hrun, hmax, hfirst, holdest, hdrop⟩ :=
    DbInner.chooseRun_some hrun
  obtain ⟨rest, hsst⟩ := hlisted
  exact picked_of_run hread hids (hsst.trans (by rw [htables, List.append_assoc])) hrun hmax hfirst
    (by
      rw [hsst, List.head?_append, holdest]
      rfl) hdrop

/-- A step has its effect and leaves the files in order. -/
theorem Stored.step (h : Stored env s held) (hfits : Fits env l s) (hstep : Step env l s s') :
    ∃ held', Effect env l s held s' held' ∧ Stored env s' held' := by
  cases hstep with
  | number batch hne hfree run =>
      cases (takeNumbers_eq hfits).symm.trans run
      exact ⟨held, .number batch hne hfree hfits, h.afterNumber hne hfits⟩
  | log stage run =>
      have hfit : BatchFits s.writer.pending := hfits
      rw [stage] at hfit
      obtain ⟨w', hrun, hfiles, hsync, hsame, hgrew⟩ := h.afterLog (h.numbered _ stage) hfit
      cases hrun.symm.trans run
      exact ⟨_, .log stage hfit hsync hsame hgrew, hfiles⟩
  | insert stage run =>
      cases run
      exact ⟨held, .insert stage, h.afterInsert stage⟩
  | freeze free run =>
      obtain ⟨hfull, rfl, rfl, rfl⟩ := freeze_some run
      exact ⟨held, .freeze free hfull, h.afterFreeze free⟩
  | write stage run =>
      obtain ⟨w', hrun, hfiles, hsame, hgrew⟩ := h.afterWrite stage hfits.1 (hfits.2 _ stage)
      cases hrun.symm.trans run
      exact ⟨held, .write stage hsame hgrew, hfiles⟩
  | place stage run =>
      obtain ⟨w', table, hrun, hfiles, hcov, hsame, hgrew⟩ := h.afterPlace stage
      cases hrun.symm.trans run
      exact ⟨held, .place _ stage hcov hsame hgrew, hfiles⟩
  | count stage run =>
      cases run
      exact ⟨held, .count stage, h.afterCount stage⟩
  | record stage run =>
      obtain ⟨w', hrun, hfiles, g, j, hman, hsame, hgrew⟩ := h.afterRecord stage
      cases hrun.symm.trans run
      exact ⟨_, .record stage hman hsame hgrew, hfiles⟩
  | publish stage run =>
      cases run
      exact ⟨_, .publish stage, h.afterPublish stage⟩
  | relog stage free run =>
      obtain ⟨w', wal, i, hrun, hfiles, hsync, hcov, hsame, hgrew⟩ := h.afterRelog stage
      cases hrun.symm.trans run
      exact ⟨_, .relog wal stage free hsync hcov hsame hgrew, hfiles⟩
  | clear stage run =>
      cases run
      exact ⟨held, .clear stage, h.afterClear stage⟩
  | list free run =>
      cases run
      exact ⟨held, .list free,
        h.afterPick (by simp [free, Compactor.replaced]) rfl ⟨[], by simp⟩⟩
  | choose stage run =>
      have hback := h.compactor
      rw [stage] at hback
      have hpicked := picked_of_listed h.read h.ids hback run
      obtain ⟨r, hsame⟩ := DbInner.chooseRun_same _ s.db s.w
      cases hsame.symm.trans run
      exact ⟨held, .choose _ stage,
        h.afterPick (by simp [stage, Compactor.replaced]) rfl hpicked⟩
  | abandon stage run =>
      obtain ⟨r, hsame⟩ := DbInner.chooseRun_same _ s.db s.w
      cases hsame.symm.trans run
      exact ⟨held, .abandon stage,
        h.afterPick (by simp [stage, Compactor.replaced]) rfl trivial⟩
  | bound stage run =>
      cases run
      have hback := h.compactor
      rw [stage] at hback
      exact ⟨held, .bound stage,
        h.afterPick (by simp [stage, Compactor.replaced]) rfl hback⟩
  | merge stage run =>
      obtain ⟨w', hrun, hfiles, hsame, hgrew⟩ :=
        h.afterMerge stage fun inputs => hfits _ _ inputs stage
      cases hrun.symm.trans run
      exact ⟨held, .merge stage hsame hgrew, hfiles⟩
  | name stage free run =>
      obtain ⟨w', hrun, hfiles, hsame, hgrew⟩ := h.afterName stage free
      cases hrun.symm.trans run
      exact ⟨held, .name stage free hsame hgrew, hfiles⟩
  | finish stage run =>
      obtain ⟨w', sstables, front, stale, last, back, hrun, hpicked, _, hfiles, hcov, g, j, hman,
        hsame, hgrew⟩ := h.afterFinish stage
      cases hrun.symm.trans run
      exact ⟨_, .finish sstables stage hpicked hcov hman hsame hgrew, hfiles⟩
  | load run =>
      cases run
      exact ⟨held, .load, { h with }⟩
  | register loaded run =>
      cases run
      exact ⟨held, .register loaded, { h with }⟩
  | @drop _ db w horizon alive run =>
      obtain ⟨snapshots, hrun⟩ := dropSnapshot_same horizon s.db s.w
      cases hrun.symm.trans run
      exact ⟨held, .drop snapshots alive hrun, { h with }⟩
  | reopen opts writer flusher compactor loading live closed run =>
      obtain ⟨w₁, db', w', hclosed, hrun, hopen, hfiles⟩ :=
        h.afterReopen ⟨writer, flusher, compactor⟩ opts
      cases hclosed.symm.trans closed
      cases hrun.symm.trans run
      exact ⟨_, .reopen opts ⟨writer, flusher, compactor⟩ loading live hopen, hfiles⟩

/-- No section touches the latch, and an open starts with an empty one. -/
theorem Effect.healthy {held' : Held} (h : Effect env l s held s' held')
    (hs : s.db.failed = none) : s'.db.failed = none := by
  cases h with
  | reopen _ _ _ _ opened => exact opened.healthy
  | _ => exact hs

theorem Files.step (h : Files env s held) (hfits : Fits env l s) (hstep : Step env l s s') :
    ∃ held', Effect env l s held s' held' ∧ Files env s' held' := by
  obtain ⟨held', heff, hstored⟩ := h.toStored.step hfits hstep
  exact ⟨held', heff, hstored, heff.healthy h.healthy⟩

/-- In every state reached the files are in order. -/
theorem Steps.files {ok : Label → System → Prop} (hok : ∀ l s, ok l s → Fits env l s)
    (h : Steps env ok s s') (hs : ∃ held, Files env s held) : ∃ held, Files env s' held := by
  refine h.keeps (P := fun s => ∃ held, Files env s held) ?_ hs
  rintro l s s' ⟨held, hfiles⟩ hl hstep
  obtain ⟨held', _, hfiles'⟩ := hfiles.step (hok l s hl) hstep
  exact ⟨held', hfiles'⟩

end Step

end LsmKv
