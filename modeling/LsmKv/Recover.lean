import LsmKv.Flush

/-!
# Opening a directory when nothing fails

`Image` is what an open finds: a manifest that replays to a state, a file for
every live table, and a log that replays.  Scratch files, orphaned tables and
earlier generations of the manifest may lie beside them.

**Results.**
* `reclaim_quiet`: the reclamation removes scratch files and orphans, no more.
* `recoverFrom_quiet`: tables and log, once the manifest is open.
* `assemble_quiet`: an image is opened.
-/

namespace LsmKv

open Foundation Volume

section Lock

variable {σ : Type} {s : σ} {w : World}

/-- The lock of a directory nobody holds is taken. -/
theorem acquireDirLock_quiet (dir : String) (hq : w.Quiet) (hs : w.vol.Sound)
    (hfree : lockPath dir ∉ w.locks) :
    ∃ w', (acquireDirLock dir : M σ Unit) s w = (.ok (), s, w') ∧
      SameExcept [lockPath dir] w.vol w'.vol ∧
      World.Grew { w with locks := lockPath dir :: w.locks } w'
        (SameExcept [lockPath dir] w.vol) := by
  have hq' : World.Quiet { w with locks := lockPath dir :: w.locks } := ⟨hq.accepts, hq.reads⟩
  unfold acquireDirLock
  rw [M.bind_ok Fs.fileExists_apply]
  cases hl : w.vol.lookup (lockPath dir) with
  | some i =>
      have hopen : (Fs.openFile (lockPath dir) .lock : M σ Nat) s w =
          (.ok i, s, { w with locks := lockPath dir :: w.locks }) := by
        simp only [Fs.openFile, Fs.create, Fs.volume, M.bind_apply, hl, M.pure_apply, Fs.takeLock,
          hfree, if_false]
      refine ⟨{ w with locks := lockPath dir :: w.locks }, ?_, SameExcept.refl _ _,
        World.Grew.refl hq'⟩
      rw [M.bind_ok (M.attempt_eq hopen)]
      rfl
  | none =>
      set w₁ : World := World.touch { w with locks := lockPath dir :: w.locks }
        (fun v => v.create (lockPath dir)) with hw₁
      have hopen : (Fs.openFile (lockPath dir) .lock : M σ Nat) s w =
          (.ok w.vol.fresh, s, w₁) := by
        have hfree' : lockPath dir ∉ (w.touch fun v => v.create (lockPath dir)).locks := hfree
        simp only [Fs.openFile, Fs.create, Fs.volume, M.bind_apply, hl, Fs.touch_apply,
          M.pure_apply, Fs.takeLock, hfree', if_false]
        rfl
      have h₁ : SameExcept [lockPath dir] w.vol w₁.vol := sameExcept_create hs
      refine ⟨w₁.touch (fun v => v.syncNames (fun p => p.dir = dir)), ?_,
        h₁.trans (sameExcept_syncNames _ _), ?_⟩
      · rw [M.bind_ok (M.attempt_eq hopen)]
        rfl
      · exact (World.Grew.touch hq' h₁).trans
          (World.Grew.touch (hq'.touch _) (h₁.trans (sameExcept_syncNames _ _)))

end Lock

section Reclaim

variable {σ : Type} {s : σ} {w : World} {dir : String} {state : ManifestState}

/-- Whether the reclamation removes a file. -/
def reclaimable (dir : String) (state : ManifestState) (path : Path) : Bool :=
  if path = lockPath dir then false
  else
    match path.name.parseSstId with
    | some id => (state.liveTables.find? id).isNone
    | none => path.name.isScratch

theorem reclaim_eq (path : Path) :
    (reclaim dir state path : M σ Unit) =
      if reclaimable dir state path then Fs.remove path else pure () := by
  unfold reclaim reclaimable
  by_cases hlock : path = lockPath dir
  · rw [if_pos hlock, if_pos hlock]
    rfl
  · rw [if_neg hlock, if_neg hlock]
    cases path.name.parseSstId with
    | some id => rfl
    | none => rfl

/-- The reclamation removes the files it may and leaves the others. -/
theorem reclaim_quiet (dir : String) (state : ManifestState) (paths : List Path)
    (hq : w.Quiet) (hnd : paths.Nodup)
    (hthere : ∀ p ∈ paths, ∃ i, w.vol.lookup p = some i) :
    ∃ w', (M.each (reclaim dir state) paths : M σ Unit) s w = (.ok (), s, w') ∧
      SameExcept (paths.filter (reclaimable dir state)) w.vol w'.vol ∧
      (∀ p ∈ paths.filter (reclaimable dir state), w'.vol.lookup p = none) ∧
      w.Grew w' (SameExcept (paths.filter (reclaimable dir state)) w.vol) := by
  induction paths generalizing w with
  | nil => exact ⟨w, rfl, SameExcept.refl _ _, by simp, World.Grew.refl hq⟩
  | cons p ps ih =>
      have hnot := (List.nodup_cons.mp hnd).1
      rw [M.each_cons, reclaim_eq]
      cases hp : reclaimable dir state p with
      | false =>
          obtain ⟨w', hrun, hsame, hgone, hgrew⟩ := ih hq (List.nodup_cons.mp hnd).2
            (fun q hq => hthere q (List.mem_cons_of_mem _ hq))
          rw [List.filter_cons_of_neg (by simp [hp])]
          exact ⟨w', hrun, hsame, hgone, hgrew⟩
      | true =>
          obtain ⟨i, hi⟩ := hthere p (by simp)
          set w₁ := w.touch (fun v => v.remove p)
          have h₁ : SameExcept [p] w.vol w₁.vol := sameExcept_remove
          have hne : ∀ q ∈ ps, q ∉ [p] := by
            intro q hq h
            rw [List.mem_singleton] at h
            exact hnot (h ▸ hq)
          obtain ⟨w', hrun, hsame, hgone, hgrew⟩ := ih (hq.touch _) (List.nodup_cons.mp hnd).2
            (fun q hq => by
              obtain ⟨k, hk⟩ := hthere q (List.mem_cons_of_mem _ hq)
              exact ⟨k, (h₁.names q (hne q hq)).trans hk⟩)
          rw [List.filter_cons_of_pos hp]
          have hall : ∀ v, SameExcept (ps.filter (reclaimable dir state)) w₁.vol v →
              SameExcept (p :: ps.filter (reclaimable dir state)) w.vol v := fun v hv =>
            (h₁.mono (by simp)).trans (hv.mono (by simp))
          refine ⟨w', ?_, hall _ hsame, ?_, ?_⟩
          · rw [if_pos rfl, M.bind_ok (Fs.remove_some hi), hrun]
          · intro q hq
            rcases List.mem_cons.mp hq with rfl | hq
            · rw [hsame.names q (fun h => hnot (List.mem_filter.mp h).1)]
              show (w.vol.remove q).lookup q = none
              rw [lookup_remove, if_pos rfl]
            · exact hgone q hq
          · exact (World.Grew.touch hq (h₁.mono (by simp))).trans (hgrew.mono hall)

/-- The files an open lists are there, each once. -/
theorem list_spec (v : Volume Path) (dir : String) :
    (v.names.filter (fun p => p.dir = dir)).Nodup ∧
      ∀ p, p ∈ v.names.filter (fun p => p.dir = dir) ↔ p.dir = dir ∧ ∃ i, v.lookup p = some i := by
  refine ⟨v.entries.nodupKeys.filter _, fun p => ?_⟩
  rw [List.mem_filter, v.mem_names_iff, Option.isSome_iff_exists]
  simp only [decide_eq_true_eq]
  exact and_comm

/-- What the reclamation of a directory may remove. -/
def reclaimed (v : Volume Path) (dir : String) (state : ManifestState) : List Path :=
  (v.names.filter (fun p => p.dir = dir)).filter (reclaimable dir state)

theorem not_mem_reclaimed (v : Volume Path) {p : Path} (h : reclaimable dir state p = false) :
    p ∉ reclaimed v dir state := by
  intro hp
  rw [(List.mem_filter.mp hp).2] at h
  cases h

@[simp] theorem reclaimable_wal (dir : String) (state : ManifestState) :
    reclaimable dir state (walPath dir) = false := by
  simp [reclaimable, FileName.parseSstId, FileName.isScratch]

@[simp] theorem reclaimable_manifest (g : Nat) :
    reclaimable dir state (manifestPath dir g) = false := by
  simp [reclaimable, FileName.parseSstId, FileName.isScratch]

@[simp] theorem reclaimable_current : reclaimable dir state (currentPath dir) = false := by
  simp [reclaimable, FileName.parseSstId, FileName.isScratch]

@[simp] theorem reclaimable_currentTmp : reclaimable dir state (currentTmpPath dir) = false := by
  simp [reclaimable, FileName.parseSstId, FileName.isScratch]

theorem reclaimable_live {id : Nat} (h : id ∈ state.liveTables.keys) :
    reclaimable dir state (sstPath dir id) = false := by
  obtain ⟨e, he, rfl⟩ := List.mem_map.mp h
  have hfind : state.liveTables.find? e.1 = some e.2 := state.liveTables.find?_eq_some_iff.mpr he
  simp [reclaimable, FileName.parseSstId, hfind]

end Reclaim

section Tables

variable {σ : Type} {s : σ} {env : Env} {w : World} {dir : String}

/-- Opening the live tables. -/
theorem collect_openSsTable (bloomEnabled : Bool) {tables : List (Nat × List Record)}
    (hq : w.Quiet) (hfit : TablesFit env tables)
    (hfiles : ∀ t ∈ tables, ∃ i,
      w.vol.Bound (sstPath dir t.1) i (tableBytes env t.2) (tableBytes env t.2).length) :
    ∃ sstables, (M.collect (openSsTable dir bloomEnabled) (tables.map Prod.fst) :
        M σ (List SsTable)) s w = (.ok sstables, s, w) ∧
      TablesOpen env dir bloomEnabled w.vol sstables tables := by
  induction tables with
  | nil => exact ⟨[], rfl, List.Forall₂.nil⟩
  | cons t ts ih =>
      obtain ⟨i, hb⟩ := hfiles t (by simp)
      have hopen := openSsTable_quiet (s := s) bloomEnabled hq hb
        (hfit.fits t (by simp))
      obtain ⟨rest, hrun, hrest⟩ := ih hfit.tail fun u hu => hfiles u (List.mem_cons_of_mem _ hu)
      refine ⟨_ :: rest, ?_, List.Forall₂.cons ⟨i, rfl, hb⟩ hrest⟩
      rw [List.map_cons, M.collect_cons, M.bind_ok hopen, M.bind_ok hrun]
      rfl

end Tables

section Log

variable {σ : Type} {s : σ} {env : Env} {w : World} {dir : String}

/-- The bytes of the log in a volume, if there is one. -/
def walBytes (v : Volume Path) (dir : String) : Option Bytes :=
  (v.file (walPath dir)).map Inode.bytes

/-- What a log replays to. -/
def replayOption (env : Env) : Option Bytes → Except Error (List Record)
  | none => .ok []
  | some b => replayBytes env b

/-- The log after it was opened for appending: a new or empty one has a header. -/
def walOpened : Option Bytes → Bytes
  | none => logFront newestLog
  | some b => if b = [] then logFront newestLog else b

/-- The log of `v` is that of `v₀`, or `v₀` had none to speak of and a header is
being written. -/
def LogKept (dir : String) (v₀ v : Volume Path) : Prop :=
  v.file (walPath dir) = v₀.file (walPath dir) ∨
    ((walBytes v₀ dir).getD [] = [] ∧
      ∃ x, v.file (walPath dir) = some x ∧ x.bytes <+: logFront newestLog)

theorem replay_eq (env : Env) (dir : String) (hq : w.Quiet) :
    (Wal.replay env (walPath dir) : M σ (List Record)) s w =
      (replayOption env (walBytes w.vol dir), s, w) := by
  unfold walBytes
  cases hl : w.vol.lookup (walPath dir) with
  | none =>
      rw [Wal.replay_none hl, (file_eq_none_iff).mpr hl]
      rfl
  | some i =>
      rw [Wal.replay_some hq hl, file_of_lookup hl]
      rfl

/-- A log that replays can be opened for appending. -/
theorem openAppend_eq (env : Env) (sync : SyncMode) {log : List Record}
    (hq : w.Quiet) (hs : w.vol.Sound)
    (hlog : replayOption env (walBytes w.vol dir) = .ok log) :
    ∃ w' i n kind, (Wal.openAppend (walPath dir) sync : M σ Wal) s w =
        (.ok (Wal.handle i (walPath dir) sync kind), s, w') ∧
      w'.vol.Bound (walPath dir) i (walOpened (walBytes w.vol dir)) n ∧
      classify (walOpened (walBytes w.vol dir)) walMagic walVersion "the write-ahead log" =
        .ok kind ∧
      kind ≠ .empty ∧
      SameExcept [walPath dir] w.vol w'.vol ∧
      (w.vol.lookup (walPath dir) ≠ none → w.vol.Covered (walPath dir) →
        w'.vol.Covered (walPath dir)) ∧
      w.Grew w' (fun v => SameExcept [walPath dir] w.vol v ∧ LogKept dir w.vol v) := by
  have hfront : classify (logFront newestLog) walMagic walVersion "the write-ahead log" =
      .ok newestLog := by
    have := classify_newestLog [] "the write-ahead log"
    rwa [List.append_nil] at this
  unfold LogKept
  unfold walBytes at hlog ⊢
  cases hl : w.vol.lookup (walPath dir) with
  | none =>
      obtain ⟨w', hrun, hvol, hgrew⟩ := Wal.openAppend_absent sync s hq hl
      have h₁ : SameExcept [walPath dir] w.vol (w.vol.create (walPath dir)) :=
        sameExcept_create hs
      have hb₁ : (w.vol.create (walPath dir)).Bound (walPath dir) w.vol.fresh [] 0 :=
        ⟨by simp, by simp⟩
      have h₂ := h₁.trans (sameExcept_append (h₁.sound hs) (by simp) hb₁.name (logFront newestLog))
      rw [(file_eq_none_iff).mpr hl]
      refine ⟨w', _, 0, newestLog, hrun, ?_, hfront, newestLog_ne, by rw [hvol]; exact h₂,
        fun hne => absurd rfl hne, hgrew.mono ?_⟩
      · rw [hvol]
        exact hb₁.append _
      · rintro v (rfl | rfl)
        · exact ⟨h₁, Or.inr ⟨rfl, _, hb₁.file, List.nil_prefix⟩⟩
        · exact ⟨h₂, Or.inr ⟨rfl, _, (hb₁.append _).file, List.prefix_refl _⟩⟩
  | some i =>
      rw [file_of_lookup hl] at hlog ⊢
      simp only [Option.map_some, replayOption] at hlog ⊢
      by_cases hb : (w.vol.inodes i).bytes = []
      · obtain ⟨w', hrun, hvol, hgrew⟩ := Wal.openAppend_empty sync s hq hl hb
        have hb₁ : w.vol.Bound (walPath dir) i [] (w.vol.inodes i).synced :=
          ⟨hl, by rw [← hb]⟩
        have h₁ := sameExcept_append hs (by simp) hl (logFront newestLog)
        rw [walOpened, if_pos hb]
        refine ⟨w', i, _, newestLog, hrun, by rw [hvol]; exact hb₁.append _, hfront,
          newestLog_ne, by rw [hvol]; exact h₁, by rw [hvol]; exact fun _ hcov => hcov,
          hgrew.mono ?_⟩
        rintro v rfl
        exact ⟨h₁, Or.inr ⟨hb, _, (hb₁.append _).file, List.prefix_refl _⟩⟩
      · obtain ⟨kind, hkind, _⟩ := bind_eq_ok hlog
        have hrun := Wal.openAppend_nonempty (s := s) sync hq hl hb hkind
        rw [walOpened, if_neg hb]
        exact ⟨w, i, _, kind, hrun, ⟨hl, rfl⟩, hkind, classify_ne_empty hb hkind,
          SameExcept.refl _ _, fun _ hcov => hcov, World.Grew.refl hq⟩

end Log

/-- What an open finds in a directory. -/
structure Image (env : Env) (dir : String) (v : Volume Path) (st : ManifestState)
    (tables : List (Nat × List Record)) (log : List Record) : Prop where
  sound : v.Sound
  manifest : ∃ g c n i b m, g ≤ u64Max ∧ v.Bound (currentPath dir) c (currentBytes g) n ∧
    v.Bound (manifestPath dir g) i b m ∧
    replayManifestBytes env (manifestPath dir g) b = .ok st
  ids : st.liveTables.keys = tables.map Prod.fst
  fit : TablesFit env tables
  files : ∀ t ∈ tables, ∃ i,
    v.Bound (sstPath dir t.1) i (tableBytes env t.2) (tableBytes env t.2).length
  log : replayOption env (walBytes v dir) = .ok log

/-- A handle as an open leaves it. -/
structure Opened (env : Env) (dir : String) (opts : Options) (v : Volume Path) (db : DbInner)
    (st : ManifestState) (tables : List (Nat × List Record)) (log : List Record)
    (wal : Bytes) : Prop where
  inDir : db.dir = dir
  withOpts : db.opts = opts
  frozen : db.frozen = none
  snapshots : db.snapshots = SortedMap.empty
  healthy : db.failed = none
  nextSstId : db.nextSstId = st.nextSstId
  memory : (db.active, db.nextSeq) =
    replayInto log (MemTable.new opts.memtableThreshold) st.nextSeq
  opened : TablesOpen env dir opts.bloomEnabled v db.sstables tables
  wal : ∃ i n kind, db.wal = Wal.handle i (walPath dir) opts.syncWal kind ∧
    v.Bound (walPath dir) i wal n ∧
    classify wal walMagic walVersion "the write-ahead log" = .ok kind ∧ kind ≠ .empty

section Recover

variable {σ : Type} {s : σ} {env : Env} {w : World} {dir : String} {opts : Options}
variable {st : ManifestState} {tables : List (Nat × List Record)} {log : List Record}

/-- What is not live is reclaimed and what is live is opened. -/
theorem reclaim_open (opts : Options) (hq : w.Quiet)
    (hids : st.liveTables.keys = tables.map Prod.fst) (hfit : TablesFit env tables)
    (hfiles : ∀ t ∈ tables, ∃ i,
      w.vol.Bound (sstPath dir t.1) i (tableBytes env t.2) (tableBytes env t.2).length) :
    ∃ w₁ sstables,
      (M.each (reclaim dir st) (w.vol.names.filter (fun p => p.dir = dir)) : M σ Unit) s w =
        (.ok (), s, w₁) ∧
      (M.collect (openSsTable dir opts.bloomEnabled) st.liveTables.keys : M σ (List SsTable)) s
        w₁ = (.ok sstables, s, w₁) ∧
      TablesOpen env dir opts.bloomEnabled w₁.vol sstables tables ∧
      walBytes w₁.vol dir = walBytes w.vol dir ∧
      SameExcept (reclaimed w.vol dir st) w.vol w₁.vol ∧
      w.Grew w₁ (SameExcept (reclaimed w.vol dir st) w.vol) := by
  obtain ⟨hnd, hmem⟩ := list_spec w.vol dir
  obtain ⟨w₁, hrun₁, hsame₁, _, hgrew₁⟩ := reclaim_quiet (s := s) dir st
    (w.vol.names.filter (fun p => p.dir = dir)) hq hnd (fun p hp => ((hmem p).mp hp).2)
  change SameExcept (reclaimed w.vol dir st) w.vol w₁.vol at hsame₁
  change w.Grew w₁ (SameExcept (reclaimed w.vol dir st) w.vol) at hgrew₁
  have hfiles₁ : ∀ t ∈ tables, ∃ i,
      w₁.vol.Bound (sstPath dir t.1) i (tableBytes env t.2) (tableBytes env t.2).length := by
    intro t ht
    obtain ⟨i, hb⟩ := hfiles t ht
    refine ⟨i, hb.same hsame₁ (not_mem_reclaimed _ (reclaimable_live ?_))⟩
    rw [hids]
    exact List.mem_map.mpr ⟨t, ht, rfl⟩
  obtain ⟨sstables, hrun₂, hopened⟩ := collect_openSsTable (s := s) opts.bloomEnabled
    hgrew₁.quiet hfit hfiles₁
  refine ⟨w₁, sstables, hrun₁, by rw [hids]; exact hrun₂, hopened, ?_, hsame₁, hgrew₁⟩
  unfold walBytes
  rw [hsame₁.files _ (not_mem_reclaimed _ (reclaimable_wal dir st))]

/-- A log that does not replay fails the open behind the reclamation. -/
theorem recoverFrom_corrupt (opts : Options) (manifest : Manifest) {e : Error} (hq : w.Quiet)
    (hids : st.liveTables.keys = tables.map Prod.fst) (hfit : TablesFit env tables)
    (hfiles : ∀ t ∈ tables, ∃ i,
      w.vol.Bound (sstPath dir t.1) i (tableBytes env t.2) (tableBytes env t.2).length)
    (hlog : replayOption env (walBytes w.vol dir) = .error e) :
    ∃ w', (recoverFrom env dir opts manifest st : M σ DbInner) s w = (.error e, s, w') ∧
      w.Grew w' (SameExcept (reclaimed w.vol dir st) w.vol) := by
  obtain ⟨w₁, sstables, hrun₁, hrun₂, _, hwal₁, _, hgrew₁⟩ := reclaim_open (s := s) opts hq hids
    hfit hfiles
  have hreplay := replay_eq env dir (s := s) hgrew₁.quiet
  rw [hwal₁, hlog] at hreplay
  refine ⟨w₁, ?_, hgrew₁⟩
  unfold recoverFrom
  rw [M.bind_ok (Fs.list_apply dir), M.bind_ok hrun₁, M.bind_ok hrun₂, M.bind_error hreplay]

/-- Tables and log, once the manifest is open. -/
theorem recoverFrom_quiet (opts : Options) (manifest : Manifest) (hq : w.Quiet) (hs : w.vol.Sound)
    (hids : st.liveTables.keys = tables.map Prod.fst) (hfit : TablesFit env tables)
    (hfiles : ∀ t ∈ tables, ∃ i,
      w.vol.Bound (sstPath dir t.1) i (tableBytes env t.2) (tableBytes env t.2).length)
    (hlog : replayOption env (walBytes w.vol dir) = .ok log) :
    ∃ w' db, (recoverFrom env dir opts manifest st : M σ DbInner) s w = (.ok db, s, w') ∧
      db.manifest = manifest ∧
      Opened env dir opts w'.vol db st tables log (walOpened (walBytes w.vol dir)) ∧
      SameExcept (walPath dir :: reclaimed w.vol dir st) w.vol w'.vol ∧
      (w.vol.lookup (walPath dir) ≠ none → w.vol.Covered (walPath dir) →
        w'.vol.Covered (walPath dir)) ∧
      w.Grew w' (fun v => SameExcept (walPath dir :: reclaimed w.vol dir st) w.vol v ∧
        LogKept dir w.vol v) := by
  obtain ⟨w₁, sstables, hrun₁, hrun₂, hopened, hwal₁, hsame₁, hgrew₁⟩ := reclaim_open (s := s)
    opts hq hids hfit hfiles
  have hreplay := replay_eq env dir (s := s) hgrew₁.quiet
  rw [hwal₁, hlog] at hreplay
  obtain ⟨w₃, i, n, kind, hrun₃, hb₃, hkind, hne, hsame₃, hcov₃, hgrew₃⟩ :=
    openAppend_eq env (s := s) opts.syncWal hgrew₁.quiet (hsame₁.sound hs)
      (by rw [hwal₁]; exact hlog)
  rw [hwal₁] at hb₃ hkind
  have hall : ∀ v, SameExcept [walPath dir] w₁.vol v →
      SameExcept (walPath dir :: reclaimed w.vol dir st) w.vol v := fun v hv =>
    (hsame₁.mono (by simp)).trans (hv.mono (by simp))
  refine ⟨w₃, {
    dir := dir
    opts := opts
    wal := Wal.handle i (walPath dir) opts.syncWal kind
    active := (replayInto log (MemTable.new opts.memtableThreshold) st.nextSeq).1
    frozen := none
    sstables := sstables
    nextSstId := st.nextSstId
    nextSeq := (replayInto log (MemTable.new opts.memtableThreshold) st.nextSeq).2
    manifest := manifest
    snapshots := SortedMap.empty
    failed := none }, ?_, rfl, ?_, hall _ hsame₃, ?_, ?_⟩
  · unfold recoverFrom
    rw [M.bind_ok (Fs.list_apply dir), M.bind_ok hrun₁, M.bind_ok hrun₂, M.bind_ok hreplay]
    dsimp only
    rw [M.bind_ok hrun₃]
    rfl
  · exact
      { inDir := rfl
        withOpts := rfl
        frozen := rfl
        snapshots := rfl
        healthy := rfl
        nextSstId := rfl
        memory := rfl
        opened := hopened.same hsame₃ (by simp)
        wal := ⟨i, n, kind, rfl, hb₃, hkind, hne⟩ }
  · intro hthere hcov
    have hnot := not_mem_reclaimed w.vol (reclaimable_wal dir st)
    exact hcov₃ (by rwa [hsame₁.names _ hnot]) (hsame₁.covered _ hnot hcov)
  · have hlogfile := hsame₁.files _ (not_mem_reclaimed w.vol
      (reclaimable_wal dir st))
    refine (hgrew₁.mono fun v hv => ⟨hv.mono (by simp),
      Or.inl (hv.files _ (not_mem_reclaimed _ (reclaimable_wal dir st)))⟩).trans (hgrew₃.mono ?_)
    rintro v ⟨hv, hkept⟩
    refine ⟨hall v hv, ?_⟩
    unfold LogKept at hkept ⊢
    rwa [hlogfile, hwal₁] at hkept

section Parts

variable {w₁ w₂ : World}

/-- An open that has its lock returns what the rest returns. -/
theorem assemble_ok {db : DbInner} (hlock : (acquireDirLock dir : M σ Unit) s w = (.ok (), s, w₁))
    (hrest : (recover env dir opts : M σ DbInner) s w₁ = (.ok db, s, w₂)) :
    (assemble env dir opts : M σ DbInner) s w = (.ok db, s, w₂) := by
  unfold assemble
  rw [M.bind_ok hlock, M.bind_ok (M.attempt_eq hrest)]
  rfl

/-- If the rest fails, the lock is given back. -/
theorem assemble_error {e : Error}
    (hlock : (acquireDirLock dir : M σ Unit) s w = (.ok (), s, w₁))
    (hrest : (recover env dir opts : M σ DbInner) s w₁ = (.error e, s, w₂)) :
    (assemble env dir opts : M σ DbInner) s w =
      (.error e, s, { w₂ with locks := w₂.locks.filter (fun q => q ≠ lockPath dir) }) := by
  unfold assemble
  rw [M.bind_ok hlock, M.bind_ok (M.attempt_eq hrest)]
  rfl

/-- In a directory that has a manifest the rest begins with it. -/
theorem recover_named (hcur : w.vol.lookup (currentPath dir) ≠ none) :
    (recover env dir opts : M σ DbInner) s w =
      (Manifest.openManifest env dir >>= fun x => recoverFrom env dir opts x.1 x.2) s w := by
  have hpresent : (Manifest.isPresent dir : M σ Bool) s w = (.ok true, s, w) := by
    unfold Manifest.isPresent
    rw [Fs.fileExists_apply, Option.isSome_iff_ne_none.mpr hcur]
  unfold recover
  rw [M.bind_ok hpresent]
  rfl

/-- An open up to its tables: it has the lock in `w₁`, and in `w₂` the manifest of generation
`g` has made way for the next one. -/
structure RolledOver (env : Env) (dir : String) (st : ManifestState) (g j : Nat)
    (w w₁ w₂ : World) : Prop where
  lock : SameExcept [lockPath dir] w.vol w₁.vol
  lockGrew : World.Grew { w with locks := lockPath dir :: w.locks } w₁
    (SameExcept [lockPath dir] w.vol)
  live : Manifest.Live env dir (Manifest.nextGen g) j st.snapshotEdits w₂.vol
  gone : w₂.vol.lookup (manifestPath dir g) = none
  covered : ∀ p : Path, p.dir = dir → p ≠ manifestPath dir g → w₂.vol.Covered p
  same : SameExcept [manifestPath dir (Manifest.nextGen g), currentTmpPath dir, currentPath dir,
    manifestPath dir g] w₁.vol w₂.vol
  grew : w₁.Grew w₂ (Manifest.Rolling env dir g (Manifest.nextGen g) j st w₁.vol)

namespace RolledOver

variable {g j : Nat}

theorem sound (h : RolledOver env dir st g j w w₁ w₂) (hs : w.vol.Sound) : w₂.vol.Sound :=
  h.same.sound (h.lock.sound hs)

theorem table (h : RolledOver env dir st g j w w₁ w₂) {id i n : Nat} {b : Bytes}
    (hb : w.vol.Bound (sstPath dir id) i b n) : w₂.vol.Bound (sstPath dir id) i b n :=
  (hb.same h.lock (by simp)).same h.same (by simp)

theorem files_kept (h : RolledOver env dir st g j w w₁ w₂)
    (hfiles : ∀ t ∈ tables, ∃ i,
      w.vol.Bound (sstPath dir t.1) i (tableBytes env t.2) (tableBytes env t.2).length) :
    ∀ t ∈ tables, ∃ i,
      w₂.vol.Bound (sstPath dir t.1) i (tableBytes env t.2) (tableBytes env t.2).length := by
  intro t ht
  obtain ⟨i, hb⟩ := hfiles t ht
  exact ⟨i, h.table hb⟩

theorem wal (h : RolledOver env dir st g j w w₁ w₂) :
    w₂.vol.file (walPath dir) = w.vol.file (walPath dir) := by
  rw [h.same.files _ (by simp), h.lock.files _ (by simp)]

theorem walBytes (h : RolledOver env dir st g j w w₁ w₂) :
    LsmKv.walBytes w₂.vol dir = LsmKv.walBytes w.vol dir := by
  unfold LsmKv.walBytes
  rw [h.wal]

/-- The new manifest stays as it is where only the log and what is not live are touched. -/
theorem manifestOpen (h : RolledOver env dir st g j w w₁ w₂) {b : Bytes} {m : Manifest}
    {v : Volume Path} (hst : replayManifestBytes env (manifestPath dir g) b = .ok st)
    (hm : m = Manifest.handle dir (Manifest.nextGen g) j)
    (hsame : SameExcept (walPath dir :: reclaimed w₂.vol dir st) w₂.vol v) :
    ManifestOpen env dir v m st.snapshotEdits (Manifest.nextGen g) j := by
  have hkeep : ∀ p : Path, p ≠ walPath dir → reclaimable dir st p = false →
      p ∉ walPath dir :: reclaimed w₂.vol dir st := by
    intro p hp hr hmem
    rcases List.mem_cons.mp hmem with heq | hmem
    · exact hp heq
    · exact not_mem_reclaimed _ hr hmem
  exact ⟨hm, Manifest.nextGen_le g, h.live.same hsame (hkeep _ (by simp) (by simp))
    (hkeep _ (by simp) (by simp)) (hkeep _ (by simp) (by simp)),
    snapshotEdits_fit (fits_of_replay hst)⟩

end RolledOver

/-- The parts of an open in a directory that has a manifest. -/
theorem assemble_parts (opts : Options) {g c n i m : Nat} {b : Bytes} (hq : w.Quiet)
    (hs : w.vol.Sound) (hfree : lockPath dir ∉ w.locks) (hg : g ≤ u64Max)
    (hcur : w.vol.Bound (currentPath dir) c (currentBytes g) n)
    (hman : w.vol.Bound (manifestPath dir g) i b m)
    (hst : replayManifestBytes env (manifestPath dir g) b = .ok st) :
    ∃ w₁ w₂ j, RolledOver env dir st g j w w₁ w₂ ∧
      (∀ db w', (recoverFrom env dir opts (Manifest.handle dir (Manifest.nextGen g) j) st :
          M σ DbInner) s w₂ = (.ok db, s, w') →
        (assemble env dir opts : M σ DbInner) s w = (.ok db, s, w')) ∧
      ∀ e w', (recoverFrom env dir opts (Manifest.handle dir (Manifest.nextGen g) j) st :
          M σ DbInner) s w₂ = (.error e, s, w') →
        (assemble env dir opts : M σ DbInner) s w =
          (.error e, s, { w' with locks := w'.locks.filter (fun q => q ≠ lockPath dir) }) := by
  obtain ⟨w₁, hrun₁, hsame₁, hgrew₁⟩ := acquireDirLock_quiet (s := s) dir hq hs hfree
  obtain ⟨w₂, j, hrun₂, hlive, hgone, hcov, hsame₂, hgrew₂⟩ :=
    Manifest.openManifest_quiet (s := s) env hgrew₁.quiet (hsame₁.sound hs) hg
      (hcur.same hsame₁ (by simp)) (hman.same hsame₁ (by simp)) hst
  have hnamed : w₁.vol.lookup (currentPath dir) ≠ none := by
    rw [(hcur.same hsame₁ (by simp)).name]
    simp
  have hrecover : (recover env dir opts : M σ DbInner) s w₁ =
      recoverFrom env dir opts (Manifest.handle dir (Manifest.nextGen g) j) st s w₂ := by
    rw [recover_named hnamed, M.bind_ok hrun₂]
  exact ⟨w₁, w₂, j, ⟨hsame₁, hgrew₁, hlive, hgone, hcov, hsame₂, hgrew₂⟩,
    fun db w' hrun => assemble_ok hrun₁ (hrecover.trans hrun),
    fun e w' hrun => assemble_error hrun₁ (hrecover.trans hrun)⟩

end Parts

/-- An image is kept where nothing but the log is written, up to what the log replays to. -/
theorem Image.relogged {v v' : Volume Path} {ps : List Path} {log' : List Record}
    (h : Image env dir v st tables log) (hsame : SameExcept ps v v')
    (hsst : ∀ t ∈ tables, sstPath dir t.1 ∉ ps) (hcur : currentPath dir ∉ ps)
    (hman : ∀ g, manifestPath dir g ∉ ps)
    (hlog : replayOption env (walBytes v' dir) = .ok log') : Image env dir v' st tables log' := by
  obtain ⟨g, c, n, i, b, m, hg, hc, hm, hst⟩ := h.manifest
  refine ⟨hsame.sound h.sound, ⟨g, c, n, i, b, m, hg, hc.same hsame hcur,
    hm.same hsame (hman g), hst⟩, h.ids, h.fit, fun t ht => ?_, hlog⟩
  obtain ⟨k, hk⟩ := h.files t ht
  exact ⟨k, hk.same hsame (hsst t ht)⟩

/-- An image whose lock is free is opened. -/
theorem assemble_quiet (opts : Options) (hq : w.Quiet) (hfree : lockPath dir ∉ w.locks)
    (himg : Image env dir w.vol st tables log) :
    ∃ w' db, (assemble env dir opts : M σ DbInner) s w = (.ok db, s, w') ∧
      w'.vol.Sound ∧
      Opened env dir opts w'.vol db st tables log (walOpened (walBytes w.vol dir)) ∧
      (∃ g i, ManifestOpen env dir w'.vol db.manifest st.snapshotEdits g i) ∧
      World.Grew { w with locks := lockPath dir :: w.locks } w' (fun _ => True) := by
  obtain ⟨g, c, n, i, b, m, hg, hcur, hman, hst⟩ := himg.manifest
  obtain ⟨w₁, w₂, j, hroll, hok, -⟩ :=
    assemble_parts (s := s) opts hq himg.sound hfree hg hcur hman hst
  obtain ⟨w₃, db, hrun, hmandb, hopened, hsame, _, hgrew⟩ := recoverFrom_quiet (s := s)
    opts (Manifest.handle dir (Manifest.nextGen g) j) hroll.grew.quiet (hroll.sound himg.sound)
    himg.ids himg.fit (hroll.files_kept himg.files) (by rw [hroll.walBytes]; exact himg.log)
  rw [hroll.walBytes] at hopened
  refine ⟨w₃, db, hok db w₃ hrun, hsame.sound (hroll.sound himg.sound), hopened,
    ⟨_, _, hroll.manifestOpen hst hmandb hsame⟩, ?_⟩
  exact ((hroll.lockGrew.mono fun _ _ => trivial).trans (hroll.grew.mono fun _ _ => trivial)).trans
    (hgrew.mono fun _ _ => trivial)

end Recover

end LsmKv
