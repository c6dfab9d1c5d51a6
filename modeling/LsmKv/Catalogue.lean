import LsmKv.System

/-!
# Tables and manifest behind a system

`Catalogue` is what holds of the tables and of the manifest of a directory while
threads are inside its handle: what the readers are open on, what the manifest
names and, depending on how far each thread has come, the tables on their way.
It does not ask what the log holds, only that the handle has it open.  Every
section of every thread, run where `Catalogue` holds and fed with data that fit
the formats, leaves `Catalogue` behind.

**Results.**
* `Picked`: a run of neighbouring tables stays in its place while tables are added
  behind it.
* `Catalogue.log`, `Catalogue.write`, `Catalogue.place`, `Catalogue.record`,
  `Catalogue.publish`, `Catalogue.relog`, `Catalogue.merge`, `Catalogue.name`,
  `Catalogue.finish`, …: one lemma for each section.
-/

namespace LsmKv

open Foundation Volume

/-- The tables a compaction has picked, in their place among the live ones. -/
structure Picked (sstables : List SsTable) (tables : List (Nat × List Record))
    (c : DbInner.Choice) (front stale : List (Nat × List Record)) (last : Nat × List Record)
    (back : List (Nat × List Record)) : Prop where
  tables : tables = front ++ (stale ++ [last]) ++ back
  run : ∃ F S L B, sstables = F ++ (S ++ [L]) ++ B ∧ c.run = S ++ [L] ∧
    F.length = front.length ∧ S.length = stale.length
  maxId : c.maxId = last.1
  drop : c.dropTombstones = decide (front = [])

/-- The records the merge of a picked run writes. -/
def DbInner.Choice.out (c : DbInner.Choice) (minSeq : Nat) (stale : List (Nat × List Record))
    (last : Nat × List Record) : List Record :=
  mergedRecords (stale ++ [last]) c.dropTombstones minSeq

/-- A file that holds a table, durably. -/
structure TableFile (env : Env) (v : Volume Path) (path : Path) (records : List Record) :
    Prop where
  fits : TableFits env records
  bound : ∃ i, v.Bound path i (tableBytes env records) (tableBytes env records).length

/-- The table of a flush has its name and is open. -/
def Placed (env : Env) (dir : String) (bloomEnabled : Bool) (v : Volume Path) (m : MemTable)
    (id : Nat) (table : SsTable) : Prop :=
  ∃ i, table = ⟨id, readerOf env (sstPath dir id) i bloomEnabled m.iter⟩ ∧
    v.Bound (sstPath dir id) i (tableBytes env m.iter) (tableBytes env m.iter).length

/-- The id of a flush is above those of the live tables. -/
structure Flushing (env : Env) (tables : List (Nat × List Record)) (m : MemTable)
    (id nextSstId : Nat) : Prop where
  next : nextSstId = id + 1
  small : id + 1 < 2 ^ 64
  above : ∀ t ∈ tables, t.1 < id
  fits : TableFits env m.iter

theorem Flushing.edits_fit {env : Env} {tables : List (Nat × List Record)} {m : MemTable}
    {id nextSstId a b : Nat} (h : Flushing env tables m id nextSstId) (ha : a = id + 1)
    (hb : b < 2 ^ 64) : ∀ e ∈ flushEdits id a b, e.Fits := by
  have hsmall := h.small
  intro e he
  simp only [flushEdits, List.mem_cons, List.not_mem_nil, or_false] at he
  rcases he with rfl | rfl | rfl
  · exact Nat.lt_of_succ_lt hsmall
  · exact lt_of_eq_of_lt ha hsmall
  · exact hb

/-- The id the manifest names before the live set has the table. -/
def Flusher.recordedId : Flusher → List Nat
  | .recorded _ id _ => [id]
  | _ => []

/-- The file of a flush, and the counters. -/
def Flusher.Backed (env : Env) (dir : String) (bloomEnabled : Bool) (v : Volume Path)
    (tables : List (Nat × List Record)) (nextSstId : Nat) (st : ManifestState) : Flusher → Prop
  | .written m id => Flushing env tables m id nextSstId ∧ st.nextSstId = id ∧
      ∃ i, v.Bound (sstTmpPath dir id) i (tableBytes env m.iter) (tableBytes env m.iter).length
  | .placed m id table => Flushing env tables m id nextSstId ∧ st.nextSstId = id ∧
      Placed env dir bloomEnabled v m id table
  | .counted m id table a b => Flushing env tables m id nextSstId ∧ st.nextSstId = id ∧
      Placed env dir bloomEnabled v m id table ∧ a = id + 1 ∧ b < 2 ^ 64
  | .recorded m id table => Flushing env tables m id nextSstId ∧ st.nextSstId = id + 1 ∧
      Placed env dir bloomEnabled v m id table
  | .free | .frozen _ | .published _ | .relogged _ => st.nextSstId = nextSstId ∧
      ∀ t ∈ tables, t.1 < nextSstId

/-- The name the merge of a compaction has taken from a live table. -/
def Compactor.replaced : Compactor → Option Nat
  | .named c _ => some c.maxId
  | _ => none

theorem Compactor.replaced_eq_none_iff {c : Compactor} :
    c.replaced = none ↔ c.publishing = false := by
  cases c <;> simp [replaced, publishing]

/-- The run of a compaction, and the file of its merge. -/
def Compactor.Backed (env : Env) (dir : String) (v : Volume Path) (sstables : List SsTable)
    (tables : List (Nat × List Record)) : Compactor → Prop
  | .free => True
  | .listed ts => ∃ B, sstables = ts ++ B
  | .chosen c | .bounded c _ => ∃ front stale last back,
      Picked sstables tables c front stale last back
  | .merged c minSeq => ∃ front stale last back,
      Picked sstables tables c front stale last back ∧
        TableFile env v (sstTmpPath dir c.maxId) (c.out minSeq stale last)
  | .named c minSeq => ∃ front stale last back,
      Picked sstables tables c front stale last back ∧
        TableFile env v (sstPath dir c.maxId) (c.out minSeq stale last)

/-- Nobody is inside the handle. -/
structure System.Idle (s : System) : Prop where
  writer : s.writer = .free
  flusher : s.flusher = .free
  compactor : s.compactor = .free

/-- The handle has the log open, whatever is in it and in its buffer. -/
def LogHandle (dir : String) (v : Volume Path) (wal : Wal) : Prop :=
  v.lookup (walPath dir) = some wal.file.file

theorem LogHandle.same {dir : String} {v v' : Volume Path} {wal : Wal} {ps : List Path}
    (h : LogHandle dir v wal) (hsame : SameExcept ps v v') (hp : walPath dir ∉ ps) :
    LogHandle dir v' wal := (hsame.names _ hp).trans h

/-- What holds of the tables and of the manifest while threads are inside the handle. -/
structure Catalogue (env : Env) (s : System) (held : Held) : Prop where
  quiet : s.w.Quiet
  sound : s.w.vol.Sound
  seq : s.db.nextSeq ≤ u64Max
  slot : s.db.frozen = s.flusher.slot
  exclusive : s.compactor.publishing = true → s.flusher = .free
  read : TablesRead env s.db.dir s.db.opts.bloomEnabled s.w.vol s.db.sstables held.tables
  fit : TablesFit env held.tables
  ids : (held.tables.map Prod.fst).Pairwise (· < ·)
  files : ∀ t ∈ held.tables, s.compactor.replaced ≠ some t.1 → ∃ i,
    s.w.vol.Bound (sstPath s.db.dir t.1) i (tableBytes env t.2) (tableBytes env t.2).length
  manifest : ∃ g i, ManifestOpen env s.db.dir s.w.vol s.db.manifest held.edits g i
  recorded : held.edits ≠ []
  live : (applyAll held.edits).liveTables.keys =
    held.tables.map Prod.fst ++ s.flusher.recordedId
  wal : LogHandle s.db.dir s.w.vol s.db.wal
  flusher : s.flusher.Backed env s.db.dir s.db.opts.bloomEnabled s.w.vol held.tables
    s.db.nextSstId (applyAll held.edits)
  compactor : s.compactor.Backed env s.db.dir s.w.vol s.db.sstables held.tables

section Frame

variable {env : Env} {dir : String} {bloomEnabled : Bool} {v v' : Volume Path} {ps : List Path}
variable {sstables : List SsTable} {tables : List (Nat × List Record)}

/-- Readers keep the files they are open on. -/
theorem TablesRead.same (h : TablesRead env dir bloomEnabled v sstables tables)
    (hsame : SameExcept ps v v') : TablesRead env dir bloomEnabled v' sstables tables := by
  refine List.Forall₂.imp ?_ h
  rintro t u ⟨i, ht, hstill, hbytes⟩
  obtain ⟨hstill', hbytes'⟩ := hsame.still i hstill
  exact ⟨i, ht, hstill', hbytes'.trans hbytes⟩

theorem TableFile.same {path : Path} {records : List Record}
    (h : TableFile env v path records) (hsame : SameExcept ps v v') (hp : path ∉ ps) :
    TableFile env v' path records := by
  obtain ⟨i, hb⟩ := h.bound
  exact ⟨h.fits, i, hb.same hsame hp⟩

theorem Placed.same {m : MemTable} {id : Nat} {table : SsTable}
    (h : Placed env dir bloomEnabled v m id table) (hsame : SameExcept ps v v')
    (hp : sstPath dir id ∉ ps) : Placed env dir bloomEnabled v' m id table := by
  obtain ⟨i, ht, hb⟩ := h
  exact ⟨i, ht, hb.same hsame hp⟩

/-- Names below those of a flush do not matter to it. -/
theorem Flusher.Backed.same {f : Flusher} {nextSstId : Nat} {st : ManifestState}
    (h : f.Backed env dir bloomEnabled v tables nextSstId st) (hsame : SameExcept ps v v')
    (hps : ∀ id, (∀ t ∈ tables, t.1 < id) → sstTmpPath dir id ∉ ps ∧ sstPath dir id ∉ ps) :
    f.Backed env dir bloomEnabled v' tables nextSstId st := by
  cases f with
  | free => exact h
  | frozen m => exact h
  | published m => exact h
  | relogged m => exact h
  | written m id =>
      obtain ⟨hf, hst, i, hb⟩ := h
      exact ⟨hf, hst, i, hb.same hsame (hps id hf.above).1⟩
  | placed m id table =>
      obtain ⟨hf, hst, hp⟩ := h
      exact ⟨hf, hst, hp.same hsame (hps id hf.above).2⟩
  | counted m id table a b =>
      obtain ⟨hf, hst, hp, hab⟩ := h
      exact ⟨hf, hst, hp.same hsame (hps id hf.above).2, hab⟩
  | recorded m id table =>
      obtain ⟨hf, hst, hp⟩ := h
      exact ⟨hf, hst, hp.same hsame (hps id hf.above).2⟩

theorem Picked.mem {c : DbInner.Choice} {front stale back : List (Nat × List Record)}
    {last : Nat × List Record} (h : Picked sstables tables c front stale last back) :
    last ∈ tables := by
  rw [h.tables]
  simp

/-- Names other than those of live tables do not matter to a compaction. -/
theorem Compactor.Backed.same {c : Compactor} (h : c.Backed env dir v sstables tables)
    (hsame : SameExcept ps v v')
    (hps : ∀ t ∈ tables, sstTmpPath dir t.1 ∉ ps ∧ sstPath dir t.1 ∉ ps) :
    c.Backed env dir v' sstables tables := by
  cases c with
  | free => trivial
  | listed ts => exact h
  | chosen c => exact h
  | bounded c minSeq => exact h
  | merged c minSeq =>
      obtain ⟨front, stale, last, back, hp, hfile⟩ := h
      refine ⟨front, stale, last, back, hp, hfile.same hsame ?_⟩
      rw [hp.maxId]
      exact (hps last hp.mem).1
  | named c minSeq =>
      obtain ⟨front, stale, last, back, hp, hfile⟩ := h
      refine ⟨front, stale, last, back, hp, hfile.same hsame ?_⟩
      rw [hp.maxId]
      exact (hps last hp.mem).2

end Frame

section Picked

variable {env : Env} {dir : String} {bloomEnabled : Bool} {v : Volume Path}
variable {sstables : List SsTable} {tables : List (Nat × List Record)} {c : DbInner.Choice}
variable {front stale back : List (Nat × List Record)} {last : Nat × List Record}

/-- A table behind the run leaves it in its place. -/
theorem Picked.concat (h : Picked sstables tables c front stale last back) (table : SsTable)
    (entry : Nat × List Record) :
    Picked (sstables ++ [table]) (tables ++ [entry]) c front stale last (back ++ [entry]) := by
  obtain ⟨F, S, L, B, hsst, hrun, hF, hS⟩ := h.run
  refine ⟨?_, ⟨F, S, L, B ++ [table], ?_, hrun, hF, hS⟩, h.maxId, h.drop⟩
  · rw [h.tables, List.append_assoc]
  · rw [hsst, List.append_assoc]

theorem Compactor.Backed.concat {k : Compactor} (h : k.Backed env dir v sstables tables)
    (table : SsTable) (entry : Nat × List Record) :
    k.Backed env dir v (sstables ++ [table]) (tables ++ [entry]) := by
  cases k with
  | free => trivial
  | listed ts =>
      obtain ⟨B, hB⟩ := h
      exact ⟨B ++ [table], by rw [hB, List.append_assoc]⟩
  | chosen c =>
      obtain ⟨front, stale, last, back, hp⟩ := h
      exact ⟨front, stale, last, _, hp.concat table entry⟩
  | bounded c minSeq =>
      obtain ⟨front, stale, last, back, hp⟩ := h
      exact ⟨front, stale, last, _, hp.concat table entry⟩
  | merged c minSeq =>
      obtain ⟨front, stale, last, back, hp, hfile⟩ := h
      exact ⟨front, stale, last, _, hp.concat table entry, hfile⟩
  | named c minSeq =>
      obtain ⟨front, stale, last, back, hp, hfile⟩ := h
      exact ⟨front, stale, last, _, hp.concat table entry, hfile⟩

/-- Readers of a list in two parts. -/
theorem TablesRead.split {F B : List SsTable}
    (h : TablesRead env dir bloomEnabled v (F ++ B) (front ++ back))
    (hlen : F.length = front.length) :
    TablesRead env dir bloomEnabled v F front ∧ TablesRead env dir bloomEnabled v B back := by
  constructor
  · have := List.forall₂_take front.length h
    rwa [← hlen, List.take_left, hlen, List.take_left] at this
  · have := List.forall₂_drop front.length h
    rwa [← hlen, List.drop_left, hlen, List.drop_left] at this

theorem TablesRead.parts {F B : List SsTable}
    (h : TablesRead env dir bloomEnabled v (F ++ B) tables) :
    ∃ front back, tables = front ++ back ∧ F.length = front.length ∧
      TablesRead env dir bloomEnabled v F front ∧ TablesRead env dir bloomEnabled v B back := by
  have hlen := h.length_eq
  rw [List.length_append] at hlen
  have hfront : F.length = (tables.take F.length).length := by
    rw [List.length_take]
    omega
  rw [← List.take_append_drop F.length tables] at h
  exact ⟨_, _, (List.take_append_drop F.length tables).symm, hfront, h.split hfront⟩

/-- A run of neighbouring readers is a picked run. -/
theorem picked_of_run {F S B : List SsTable} {L first oldest : SsTable}
    (hread : TablesRead env dir bloomEnabled v sstables tables)
    (hids : (tables.map Prod.fst).Pairwise (· < ·)) (hsst : sstables = F ++ (S ++ [L]) ++ B)
    (hrun : c.run = S ++ [L]) (hmax : c.maxId = L.id) (hfirst : (S ++ [L]).head? = some first)
    (holdest : sstables.head? = some oldest)
    (hdrop : c.dropTombstones = decide (first.id = oldest.id)) :
    ∃ front stale last back, Picked sstables tables c front stale last back := by
  have hread' := hread
  rw [hsst] at hread
  obtain ⟨fr, back, htables, _, hfr, _⟩ := hread.parts
  obtain ⟨front, run, rfl, hF, _, hR⟩ := hfr.parts
  obtain ⟨stale, lasts, rfl, hS, _, hL⟩ := hR.parts
  obtain ⟨last, rfl⟩ : ∃ last, lasts = [last] := by
    cases hL with
    | cons _ hnil => cases hnil; exact ⟨_, rfl⟩
  have hlast : L.id = last.1 := by
    have := hL.ids
    simpa using this
  refine ⟨front, stale, last, back, htables, ⟨F, S, L, B, hsst, hrun, hF, hS⟩,
    hmax.trans hlast, ?_⟩
  rw [hdrop, decide_eq_decide]
  constructor
  · -- a table in front of the run would have a lower id
    intro heq
    cases F with
    | nil => exact List.eq_nil_of_length_eq_zero hF.symm
    | cons o os =>
        have hinc := hids
        rw [← hread'.ids, hsst] at hinc
        rw [hsst] at holdest
        cases holdest
        obtain ⟨rest, hrest⟩ : ∃ rest, S ++ [L] = first :: rest := by
          cases hSL : S ++ [L] with
          | nil => simp at hSL
          | cons a l =>
              rw [hSL] at hfirst
              cases hfirst
              exact ⟨l, rfl⟩
        rw [hrest, List.pairwise_map] at hinc
        have hlt := (List.pairwise_append.mp (List.pairwise_append.mp hinc).1).2.2 oldest
          (by simp) first (by simp)
        omega
  · intro hfront
    rw [hfront] at hF
    have hnil : F = [] := List.eq_nil_of_length_eq_zero hF
    rw [hsst, hnil, List.nil_append, List.head?_append, hfirst] at holdest
    cases holdest
    rfl

/-- The readers of a picked run and of what lies around it. -/
theorem Picked.read (h : Picked sstables tables c front stale last back)
    (hread : TablesRead env dir bloomEnabled v sstables tables) :
    ∃ F S L B, sstables = F ++ (S ++ [L]) ++ B ∧ c.run = S ++ [L] ∧ L.id = last.1 ∧
      TablesRead env dir bloomEnabled v F front ∧ TablesRead env dir bloomEnabled v S stale ∧
      TablesRead env dir bloomEnabled v (S ++ [L]) (stale ++ [last]) ∧
      TablesRead env dir bloomEnabled v B back := by
  obtain ⟨F, S, L, B, hsst, hrun, hF, hS⟩ := h.run
  rw [hsst, h.tables] at hread
  obtain ⟨hFR, hB⟩ := hread.split (by simp [hF, hS])
  obtain ⟨hFront, hR⟩ := hFR.split hF
  obtain ⟨hStale, hL⟩ := hR.split hS
  have hid : L.id = last.1 := by
    have := hL.ids
    simpa using this
  exact ⟨F, S, L, B, hsst, hrun, hid, hFront, hStale, hR, hB⟩

/-- A picked run is read and merged beside. -/
theorem Picked.merges (h : Picked sstables tables c front stale last back) {w : World}
    (db : DbInner) (minSeq : Nat) (hq : w.Quiet) (hs : w.vol.Sound)
    (hread : TablesRead env dir bloomEnabled w.vol sstables tables)
    (hfit : TablesFit env tables) :
    M.collect (fun r : SsTableReader => r.iterAll env) (c.run.map SsTable.reader) db w =
        (.ok ((stale ++ [last]).map Prod.snd), db, w) ∧
      ∃ w' i, DbInner.mergeRun env dir c minSeq db w = (.ok (), db, w') ∧
        w'.vol.Bound (sstTmpPath dir c.maxId) i (tableBytes env (c.out minSeq stale last))
          (tableBytes env (c.out minSeq stale last)).length ∧
        SameExcept [sstTmpPath dir c.maxId] w.vol w'.vol ∧
        w.Grew w' (SameExcept [sstTmpPath dir c.maxId] w.vol) := by
  obtain ⟨F, S, L, B, hsst, hrun, _, _, _, hR, _⟩ := h.read hread
  have hfitrun : TablesFit env (stale ++ [last]) := by
    refine ⟨fun t ht => hfit.fits t ?_, fun t ht => hfit.sorted t ?_⟩ <;>
      · rw [h.tables]
        exact List.mem_append_left _ (List.mem_append_right _ ht)
  have hiter := collect_iterAll (s := db) hq hR hfitrun
  rw [← hrun] at hiter
  obtain ⟨w', i, hwrite, hb, hsame, hgrew⟩ := SsTableWriter.write_quiet (s := db) env
    (sstTmpPath dir c.maxId) (c.out minSeq stale last) hq hs (by simp)
  refine ⟨hiter, w', i, ?_, hb, hsame, hgrew⟩
  have hcompact : (compact env (sstTmpPath dir c.maxId) (c.run.map SsTable.reader)
      c.dropTombstones minSeq : M DbInner Nat) db w =
        (.ok (c.out minSeq stale last).length, db, w') := by
    unfold compact
    rw [M.bind_ok hiter]
    exact hwrite
  unfold DbInner.mergeRun
  rw [M.bind_ok hcompact]
  rfl

end Picked

section Paths

variable {tables : List (Nat × List Record)} {id : Nat}

/-- The names of a table above the live ones are none of theirs. -/
theorem above_paths (dir : String) (h : ∀ t ∈ tables, t.1 < id) :
    ∀ t ∈ tables, sstTmpPath dir t.1 ∉ [sstTmpPath dir id, sstPath dir id] ∧
      sstPath dir t.1 ∉ [sstTmpPath dir id, sstPath dir id] := by
  intro t ht
  have hne : t.1 ≠ id := ne_of_lt (h t ht)
  simp [hne]

end Paths

namespace Catalogue

variable {env : Env} {s : System} {held : Held} {m : MemTable} {id : Nat} {table : SsTable}

/-- While a flush is under way no compaction publishes. -/
theorem busy (h : Catalogue env s held) (hne : s.flusher ≠ .free) {f : Flusher} :
    s.compactor.publishing = true → f = .free :=
  fun hp => absurd (h.exclusive hp) hne

/-- What the stage of the flush says. -/
theorem stage (h : Catalogue env s held) {f : Flusher} (hf : s.flusher = f) :
    f.Backed env s.db.dir s.db.opts.bloomEnabled s.w.vol held.tables s.db.nextSstId
        (applyAll held.edits) ∧
      (applyAll held.edits).liveTables.keys = held.tables.map Prod.fst ++ f.recordedId ∧
      s.db.frozen = f.slot := by
  rw [← hf]
  exact ⟨h.flusher, h.live, h.slot⟩

section Write

/-- The writer's own steps, as long as they write to nothing but the log. -/
theorem afterLogged (h : Catalogue env s held) {w' : World} {wal : Wal} (hq : w'.Quiet)
    (hsame : SameExcept [walPath s.db.dir] s.w.vol w'.vol)
    (hwal : LogHandle s.db.dir w'.vol wal) (writer : Writer) :
    Catalogue env { s with db := { s.db with wal := wal }, w := w', writer := writer } held := by
  obtain ⟨g, j, hman⟩ := h.manifest
  exact
    { h with
      quiet := hq
      sound := hsame.sound h.sound
      read := h.read.same hsame
      files := fun t ht hne => by
        obtain ⟨k, hk⟩ := h.files t ht hne
        exact ⟨k, hk.same hsame (by simp)⟩
      manifest := ⟨g, j, hman.same hsame (by simp) (by simp) (by simp)⟩
      wal := hwal
      flusher := h.flusher.same hsame (by simp)
      compactor := h.compactor.same hsame (by simp) }

end Write

section Flush

theorem afterFreeze (h : Catalogue env s held) (hfree : s.flushLockFree) :
    Catalogue env
      { s with
        db :=
          { s.db with
            active := MemTable.new s.db.opts.memtableThreshold
            frozen := some s.db.active }
        flusher := .frozen s.db.active
        frozenFrom := s.frozenAt
        frozenAt := s.written.length } held := by
  obtain ⟨hback, hlive, _⟩ := h.stage hfree.1
  exact
    { h with
      slot := rfl
      exclusive := fun hp => by
        rw [hfree.2] at hp
        cases hp
      live := hlive
      flusher := hback }

theorem afterWrite (h : Catalogue env s held) (hstage : s.flusher = .frozen m)
    (hid : s.db.nextSstId + 1 < 2 ^ 64) (hfits : TableFits env m.iter) :
    ∃ w', (do
        let id ← DbInner.takeSstId
        DbInner.writeTable env s.db.dir id m
        return id) s.db s.w =
          (.ok s.db.nextSstId, { s.db with nextSstId := s.db.nextSstId + 1 }, w') ∧
      Catalogue env
        { s with
          db := { s.db with nextSstId := s.db.nextSstId + 1 }
          w := w'
          flusher := .written m s.db.nextSstId } held ∧
      SameExcept [sstTmpPath s.db.dir s.db.nextSstId] s.w.vol w'.vol ∧
      s.w.Grew w' (SameExcept [sstTmpPath s.db.dir s.db.nextSstId] s.w.vol) := by
  set id := s.db.nextSstId with hidef
  set db₁ : DbInner := { s.db with nextSstId := id + 1 } with hdb₁
  obtain ⟨w', i, hrun, hb, hsame, hgrew⟩ := SsTableWriter.write_quiet (s := db₁) env
    (sstTmpPath s.db.dir id) m.iter h.quiet h.sound (by simp)
  obtain ⟨⟨hst, habove⟩, hlive, hslot⟩ := h.stage hstage
  obtain ⟨g, j, hman⟩ := h.manifest
  refine ⟨w', ?_, ?_, hsame, hgrew⟩
  · have hmod : (id + 1) % 2 ^ 64 = id + 1 := Nat.mod_eq_of_lt hid
    have htake : DbInner.takeSstId s.db s.w = (.ok id, db₁, s.w) := by
      unfold DbInner.takeSstId
      rw [M.bind_ok (M.self_apply _ _), M.bind_ok (M.update_apply _ _ _), ← hidef, hmod]
      rfl
    have hwrite : DbInner.writeTable env s.db.dir id m db₁ s.w = (.ok (), db₁, w') := by
      unfold DbInner.writeTable
      rw [M.bind_ok hrun]
      rfl
    rw [M.bind_ok htake, M.bind_ok hwrite]
    rfl
  · exact
      { h with
        quiet := hgrew.quiet
        sound := hsame.sound h.sound
        slot := hslot
        exclusive := h.busy (by simp [hstage])
        read := h.read.same hsame
        files := fun t ht hne => by
          obtain ⟨k, hk⟩ := h.files t ht hne
          exact ⟨k, hk.same hsame (by simp)⟩
        manifest := ⟨g, j, hman.same hsame (by simp) (by simp) (by simp)⟩
        live := hlive
        wal := h.wal.same hsame (by simp)
        flusher := ⟨⟨rfl, hid, habove, hfits⟩, hst, i, hb⟩
        compactor := h.compactor.same hsame fun t ht => by
          have hne : t.1 ≠ id := ne_of_lt (habove t ht)
          simp [hne] }

theorem afterPlace (h : Catalogue env s held) (hstage : s.flusher = .written m id) :
    ∃ w' table, (do
        DbInner.nameTable s.db.dir id
        DbInner.settleTable s.db.dir s.db.opts.bloomEnabled id) s.db s.w =
          (.ok table, s.db, w') ∧
      Catalogue env { s with w := w', flusher := .placed m id table } held ∧
      (∀ p : Path, p.dir = s.db.dir → w'.vol.Covered p) ∧
      SameExcept [sstTmpPath s.db.dir id, sstPath s.db.dir id] s.w.vol w'.vol ∧
      s.w.Grew w' (SameExcept [sstTmpPath s.db.dir id, sstPath s.db.dir id] s.w.vol) := by
  obtain ⟨⟨hf, hst, i, hb⟩, hlive, hslot⟩ := h.stage hstage
  set tmp := sstTmpPath s.db.dir id with htmp
  set dest := sstPath s.db.dir id with hdest
  set w₁ := s.w.touch (fun v => v.rename tmp dest)
  set w₂ := w₁.touch (fun v => v.syncNames (fun p => p.dir = s.db.dir))
  have hb₁ : w₁.vol.Bound dest i (tableBytes env m.iter) (tableBytes env m.iter).length :=
    hb.rename
  have h₁ : SameExcept [tmp, dest] s.w.vol w₁.vol := sameExcept_rename (by simp [htmp]) hb.name
  have h₂ : SameExcept [tmp, dest] s.w.vol w₂.vol := h₁.trans (sameExcept_syncNames _ _)
  have hq₁ : w₁.Quiet := h.quiet.touch _
  have hq₂ : w₂.Quiet := hq₁.touch _
  have hsettle := settleTable_quiet s.db s.db.opts.bloomEnabled hq₁ hb₁ hf.fits
  have hpaths := above_paths s.db.dir hf.above
  obtain ⟨g, j, hman⟩ := h.manifest
  refine ⟨w₂, ⟨id, readerOf env dest i s.db.opts.bloomEnabled m.iter⟩, ?_, ?_,
    fun p hp => covered_syncNames (by simpa using hp), h₂, ?_⟩
  · rw [M.bind_ok (show DbInner.nameTable s.db.dir id s.db s.w = _ from Fs.rename_some hb.name)]
    exact hsettle
  · exact
      { h with
        quiet := hq₂
        sound := h₂.sound h.sound
        slot := hslot
        exclusive := h.busy (by simp [hstage])
        read := h.read.same h₂
        files := fun t ht hne => by
          obtain ⟨k, hk⟩ := h.files t ht hne
          exact ⟨k, hk.same h₂ (hpaths t ht).2⟩
        manifest := ⟨g, j, hman.same h₂ (by simp [htmp, hdest]) (by simp [htmp, hdest])
          (by simp [htmp, hdest])⟩
        live := hlive
        wal := h.wal.same h₂ (by simp [htmp, hdest])
        flusher := ⟨hf, hst, i, rfl, hb₁.syncNames _⟩
        compactor := h.compactor.same h₂ hpaths }
  · exact (World.Grew.touch h.quiet h₁).trans (World.Grew.touch hq₁ h₂)

theorem afterCount (h : Catalogue env s held) (hstage : s.flusher = .placed m id table) :
    Catalogue env { s with flusher := .counted m id table s.db.nextSstId s.db.nextSeq } held := by
  obtain ⟨⟨hf, hst, hp⟩, hlive, hslot⟩ := h.stage hstage
  have hseq : s.db.nextSeq < 2 ^ 64 := by
    have := h.seq
    unfold u64Max at this
    omega
  exact
    { h with
      slot := hslot
      exclusive := h.busy (by simp [hstage])
      live := hlive
      flusher := ⟨hf, hst, hp, hf.next, hseq⟩ }

theorem afterRecord (h : Catalogue env s held) {a b : Nat}
    (hstage : s.flusher = .counted m id table a b) :
    ∃ w', DbInner.recordTable env id a b s.db s.w = (.ok (), s.db, w') ∧
      Catalogue env { s with w := w', flusher := .recorded m id table }
        { held with edits := held.edits ++ flushEdits id a b } ∧
      ∃ g j, ManifestOpen env s.db.dir s.w.vol s.db.manifest held.edits g j ∧
        SameExcept [manifestPath s.db.dir g] s.w.vol w'.vol ∧
        s.w.Grew w' (Appending s.w.vol (manifestPath s.db.dir g) j (manifestBytes env held.edits)
          (manifestBytes env held.edits).length (editFrames env (flushEdits id a b))) := by
  obtain ⟨⟨hf, hst, hp, ha, hb⟩, hlive, hslot⟩ := h.stage hstage
  obtain ⟨g, j, hman⟩ := h.manifest
  obtain ⟨w', hrun, hman', hsame, hgrew⟩ := appendEdits_quiet s.db (flushEdits id a b) h.quiet
    h.sound hman (hf.edits_fit ha hb)
  refine ⟨w', hrun, ?_, g, j, hman, hsame, hgrew⟩
  have hold : (applyAll held.edits).liveTables.keys = held.tables.map Prod.fst :=
    hlive.trans (List.append_nil _)
  have hkeys : ∀ x ∈ (applyAll held.edits).liveTables.keys, x < id := by
    rw [hold]
    intro x hx
    obtain ⟨t, ht, rfl⟩ := List.mem_map.mp hx
    exact hf.above t ht
  have hkeys' : (applyAll (held.edits ++ flushEdits id a b)).liveTables.keys =
      held.tables.map Prod.fst ++ [id] := by
    rw [applyAll_append]
    show ((applyAll held.edits).liveTables.insert id ()).keys = _
    rw [keys_insert_last hkeys, hold]
  have hnext : (applyAll (held.edits ++ flushEdits id a b)).nextSstId = id + 1 := by
    rw [applyAll_append]
    exact ha
  exact
    { h with
      quiet := hgrew.quiet
      sound := hsame.sound h.sound
      slot := hslot
      exclusive := h.busy (by simp [hstage])
      read := h.read.same hsame
      files := fun t ht hne => by
        obtain ⟨k, hk⟩ := h.files t ht hne
        exact ⟨k, hk.same hsame (by simp)⟩
      manifest := ⟨g, j, hman'⟩
      recorded := by simp [flushEdits]
      live := hkeys'
      wal := h.wal.same hsame (by simp)
      flusher := ⟨hf, hnext, hp.same hsame (by simp)⟩
      compactor := h.compactor.same hsame (by simp) }

theorem afterPublish (h : Catalogue env s held) (hstage : s.flusher = .recorded m id table) :
    Catalogue env
      { s with
        db := { s.db with sstables := s.db.sstables ++ [table] }
        flusher := .published m
        publishedAt := s.frozenAt }
      { held with tables := held.tables ++ [(id, m.iter)] } := by
  obtain ⟨⟨hf, hst, i, htable, hb⟩, hlive, hslot⟩ := h.stage hstage
  have hopen : TablesOpen env s.db.dir s.db.opts.bloomEnabled s.w.vol [table] [(id, m.iter)] :=
    List.Forall₂.cons ⟨i, htable, hb⟩ List.Forall₂.nil
  have hnext := hf.next
  exact
    { h with
      slot := hslot
      exclusive := h.busy (by simp [hstage])
      read := List.rel_append h.read (hopen.read h.sound)
      fit := h.fit.concat hf.fits (sortedRun_iter m)
      ids := ids_concat h.ids hf.above
      files := fun t ht hne => by
        rcases List.mem_append.mp ht with ht | ht
        · exact h.files t ht hne
        · rw [List.mem_singleton.mp ht]
          exact ⟨i, hb⟩
      live := by
        rw [hlive]
        simp [Flusher.recordedId]
      flusher := by
        refine ⟨hst.trans hnext.symm, fun t ht => ?_⟩
        show t.1 < s.db.nextSstId
        rcases List.mem_append.mp ht with ht | ht
        · have := hf.above t ht
          omega
        · rw [List.mem_singleton.mp ht, hnext]
          exact Nat.lt_succ_self _
      compactor := h.compactor.concat table (id, m.iter) }

theorem afterRelog (h : Catalogue env s held) (hstage : s.flusher = .published m) :
    ∃ w' i,
      DbInner.rewriteWal env s.db s.w =
        (.ok (), { s.db with wal := Wal.handle i (walPath s.db.dir) s.db.opts.syncWal newestLog },
          w') ∧
      Catalogue env
        { s with
          db := { s.db with wal := Wal.handle i (walPath s.db.dir) s.db.opts.syncWal newestLog }
          w := w'
          flusher := .relogged m
          loggedFrom := s.frozenAt } held ∧
      w'.vol.Bound (walPath s.db.dir) i
        (logBytes env newestLog (s.db.active.iter.map (fun r => [r])))
        (logBytes env newestLog (s.db.active.iter.map (fun r => [r]))).length ∧
      (∀ p : Path, p.dir = s.db.dir → w'.vol.Covered p) ∧
      SameExcept [walTmpPath s.db.dir, walPath s.db.dir] s.w.vol w'.vol ∧
      s.w.Grew w'
        (Rewriting env s.db.dir i (s.db.active.iter.map (fun r => [r])) s.w.vol) := by
  obtain ⟨hback, hlive, hslot⟩ := h.stage hstage
  obtain ⟨g, j, hman⟩ := h.manifest
  obtain ⟨w', i, hrun, hb, hsame, hcov, hgrew⟩ := rewriteWal_quiet env s.db h.quiet h.sound
  refine ⟨w', i, hrun, ?_, hb, hcov, hsame, hgrew⟩
  exact
    { h with
      quiet := hgrew.quiet
      sound := hsame.sound h.sound
      slot := hslot
      exclusive := h.busy (by simp [hstage])
      read := h.read.same hsame
      files := fun t ht hne => by
        obtain ⟨k, hk⟩ := h.files t ht hne
        exact ⟨k, hk.same hsame (by simp)⟩
      manifest := ⟨g, j, hman.same hsame (by simp) (by simp) (by simp)⟩
      live := hlive
      wal := hb.name
      flusher := hback
      compactor := h.compactor.same hsame (by simp) }

theorem afterClear (h : Catalogue env s held) (hstage : s.flusher = .relogged m) :
    Catalogue env { s with db := { s.db with frozen := none }, flusher := .free } held := by
  obtain ⟨hback, hlive, _⟩ := h.stage hstage
  exact
    { h with
      slot := rfl
      exclusive := fun _ => rfl
      live := hlive
      flusher := hback }

end Flush

section Compaction

variable {c : DbInner.Choice} {minSeq : Nat}

/-- A compaction that has not named its merge, and does not now. -/
theorem afterPick (h : Catalogue env s held) (hold : s.compactor.replaced = none) {k : Compactor}
    (hpub : k.publishing = false)
    (hback : k.Backed env s.db.dir s.w.vol s.db.sstables held.tables) :
    Catalogue env { s with compactor := k } held where
  __ := h
  exclusive := fun hp => by
    rw [show k.publishing = true from hp] at hpub
    cases hpub
  files := fun t ht _ => h.files t ht (by simp [hold])
  compactor := hback

theorem afterMerge (h : Catalogue env s held) (hstage : s.compactor = .bounded c minSeq)
    (hfits : ∀ inputs,
      (M.collect (fun r : SsTableReader => r.iterAll env) (c.run.map SsTable.reader) s.db s.w).1 =
        .ok inputs →
      TableFits env (compactRecords inputs c.dropTombstones minSeq)) :
    ∃ w', DbInner.mergeRun env s.db.dir c minSeq s.db s.w = (.ok (), s.db, w') ∧
      Catalogue env { s with w := w', compactor := .merged c minSeq } held ∧
      SameExcept [sstTmpPath s.db.dir c.maxId] s.w.vol w'.vol ∧
      s.w.Grew w' (SameExcept [sstTmpPath s.db.dir c.maxId] s.w.vol) := by
  have hback := h.compactor
  rw [hstage] at hback
  obtain ⟨front, stale, last, back, hp⟩ := hback
  obtain ⟨hiter, w', i, hrun, hb, hsame, hgrew⟩ :=
    hp.merges s.db minSeq h.quiet h.sound h.read h.fit
  have hout : TableFits env (c.out minSeq stale last) := hfits _ (by rw [hiter])
  have hbelow : ∀ id, (∀ t ∈ held.tables, t.1 < id) → id ≠ c.maxId := by
    intro id hid
    rw [hp.maxId]
    exact ne_of_gt (hid last hp.mem)
  obtain ⟨g, j, hman⟩ := h.manifest
  refine ⟨w', hrun, ?_, hsame, hgrew⟩
  exact
    { h with
      quiet := hgrew.quiet
      sound := hsame.sound h.sound
      exclusive := by simp [Compactor.publishing]
      read := h.read.same hsame
      files := fun t ht _ => by
        obtain ⟨k, hk⟩ := h.files t ht (by simp [hstage, Compactor.replaced])
        exact ⟨k, hk.same hsame (by simp)⟩
      manifest := ⟨g, j, hman.same hsame (by simp) (by simp) (by simp)⟩
      wal := h.wal.same hsame (by simp)
      flusher := h.flusher.same hsame fun id hid => by simp [hbelow id hid]
      compactor := ⟨front, stale, last, back, hp, hout, i, hb⟩ }

theorem afterName (h : Catalogue env s held) (hstage : s.compactor = .merged c minSeq)
    (hfree : s.flusher = .free) :
    ∃ w', DbInner.nameTable s.db.dir c.maxId s.db s.w = (.ok (), s.db, w') ∧
      Catalogue env { s with w := w', compactor := .named c minSeq } held ∧
      SameExcept [sstTmpPath s.db.dir c.maxId, sstPath s.db.dir c.maxId] s.w.vol w'.vol ∧
      s.w.Grew w' (fun v => v = w'.vol) := by
  have hback := h.compactor
  rw [hstage] at hback
  obtain ⟨front, stale, last, back, hp, hfits, i, hb⟩ := hback
  set tmp := sstTmpPath s.db.dir c.maxId with htmp
  set dest := sstPath s.db.dir c.maxId with hdest
  set w' := s.w.touch (fun v => v.rename tmp dest)
  have hsame : SameExcept [tmp, dest] s.w.vol w'.vol :=
    sameExcept_rename (by simp [htmp]) hb.name
  have hq : w'.Quiet := h.quiet.touch _
  have hbelow : ∀ id, (∀ t ∈ held.tables, t.1 < id) → id ≠ c.maxId := by
    intro id hid
    rw [hp.maxId]
    exact ne_of_gt (hid last hp.mem)
  obtain ⟨g, j, hman⟩ := h.manifest
  refine ⟨w', Fs.rename_some hb.name, ?_, hsame, World.Grew.touch h.quiet rfl⟩
  exact
    { h with
      quiet := hq
      sound := hsame.sound h.sound
      exclusive := fun _ => hfree
      read := h.read.same hsame
      files := fun t ht hne => by
        obtain ⟨k, hk⟩ := h.files t ht (by simp [hstage, Compactor.replaced])
        have hne' : t.1 ≠ c.maxId := fun heq => hne (by simp [Compactor.replaced, heq])
        exact ⟨k, hk.same hsame (by simp [htmp, hdest, hne'])⟩
      manifest := ⟨g, j, hman.same hsame (by simp [htmp, hdest]) (by simp [htmp, hdest])
        (by simp [htmp, hdest])⟩
      wal := h.wal.same hsame (by simp [htmp, hdest])
      flusher := h.flusher.same hsame fun id hid => by simp [htmp, hdest, hbelow id hid]
      compactor := ⟨front, stale, last, back, hp, hfits, i, hb.rename⟩ }

theorem afterFinish (h : Catalogue env s held) (hstage : s.compactor = .named c minSeq) :
    ∃ w' sstables front stale last back,
      DbInner.finishCompaction env s.db.dir s.db.opts.bloomEnabled c.run c.maxId s.db s.w =
        (.ok (), { s.db with sstables := sstables }, w') ∧
      Picked s.db.sstables held.tables c front stale last back ∧
      TableFile env s.w.vol (sstPath s.db.dir c.maxId) (c.out minSeq stale last) ∧
      (∃ F B table, s.db.sstables = F ++ c.run ++ B ∧ sstables = F ++ [table] ++ B ∧
        table.id = c.maxId) ∧
      Catalogue env
        { s with
          db := { s.db with sstables := sstables }
          w := w'
          compactor := .free
          droppedAt := if c.dropTombstones then s.publishedAt else s.droppedAt }
        (held.compacted front stale last back (c.out minSeq stale last)) ∧
      (∀ p : Path, p.dir = s.db.dir → w'.vol.Covered p) ∧
      ∃ g j, ManifestOpen env s.db.dir s.w.vol s.db.manifest held.edits g j ∧
        SameExcept (manifestPath s.db.dir g :: stale.map (fun t => sstPath s.db.dir t.1))
          s.w.vol w'.vol ∧
        s.w.Grew w' (Finishing env s.db.dir g j held.edits stale s.w.vol) := by
  have hback := h.compactor
  rw [hstage] at hback
  obtain ⟨front, stale, last, back, hp, hfits, i, hb⟩ := hback
  have hfree : s.flusher = .free := h.exclusive (by simp [hstage, Compactor.publishing])
  obtain ⟨⟨hst, habove⟩, hlive, hslot⟩ := h.stage hfree
  have hlive' : (applyAll held.edits).liveTables.keys = held.tables.map Prod.fst :=
    hlive.trans (List.append_nil _)
  have hat : RunAt held front stale last back := ⟨hp.tables, h.ids⟩
  obtain ⟨hfl, hsl, hbl, hfs, hbs, hstale⟩ := hat.parts
  obtain ⟨F, S, L, B, hsst, hrun, hL, hF, hS, _, hB⟩ := hp.read h.read
  have hstalemem : ∀ t ∈ stale, t ∈ held.tables := by
    intro t ht
    rw [hp.tables]
    simp [ht]
  obtain ⟨g, j, hman⟩ := h.manifest
  obtain ⟨w', hfin, hman', hsame, hcov, hgrew⟩ := finishCompaction_quiet h.quiet h.sound hman
    (deleteEdits_fit hman.fits hlive' hstalemem) hb hfits hsst (hL.trans hp.maxId.symm)
    (by rw [hp.maxId]; exact hat.apart hF hS) hS.ids (hstale.imp fun h => ne_of_lt h)
    (fun t ht => by
      obtain ⟨k, hk⟩ := h.files t (hstalemem t ht) (by
        simp only [hstage, Compactor.replaced, hp.maxId, ne_eq, Option.some.injEq]
        exact ne_of_gt (hsl t ht))
      exact ⟨k, hk.name⟩)
  rw [← hrun] at hfin
  have hkeep : ∀ t : Nat × List Record, (∀ u ∈ stale, t.1 ≠ u.1) →
      sstPath s.db.dir t.1 ∉
        manifestPath s.db.dir g :: stale.map (fun t => sstPath s.db.dir t.1) :=
    fun t => not_mem_stalePaths
  have hb' := hb.same hsame (by
    rw [hp.maxId]
    exact hkeep last fun u hu => ne_of_gt (hsl u hu))
  rw [hp.maxId] at hb'
  have hother : ∀ t ∈ held.tables, t.1 ≠ last.1 → (∀ u ∈ stale, t.1 ≠ u.1) → ∃ i,
      w'.vol.Bound (sstPath s.db.dir t.1) i (tableBytes env t.2) (tableBytes env t.2).length := by
    intro t ht hne hu
    obtain ⟨k, hk⟩ := h.files t ht (by
      simp only [hstage, Compactor.replaced, hp.maxId, ne_eq, Option.some.injEq]
      exact Ne.symm hne)
    exact ⟨k, hk.same hsame (hkeep t hu)⟩
  have hnew : TablesOpen env s.db.dir s.db.opts.bloomEnabled w'.vol
      [⟨c.maxId, readerOf env (sstPath s.db.dir c.maxId) i s.db.opts.bloomEnabled
        (c.out minSeq stale last)⟩] [(last.1, c.out minSeq stale last)] :=
    List.Forall₂.cons ⟨i, by rw [hp.maxId], hb'⟩ List.Forall₂.nil
  have hsound := hsame.sound h.sound
  refine ⟨w', _, front, stale, last, back, hfin, hp, ⟨hfits, i, hb⟩,
    ⟨F, B, _, by rw [hsst, hrun], rfl, rfl⟩, ?_, hcov, g, j, hman, hsame, hgrew⟩
  exact
    { h with
      quiet := hgrew.quiet
      sound := hsound
      exclusive := fun _ => hfree
      read := List.rel_append (List.rel_append (hF.same hsame) (hnew.read hsound))
        (hB.same hsame)
      fit := hat.fit h.fit hfits (hat.sorted_merged h.fit _ _)
      ids := hat.ids_compacted _
      files := by
        intro t ht _
        rcases List.mem_append.mp ht with ht | ht
        · rcases List.mem_append.mp ht with ht | ht
          · exact hother t (by rw [hp.tables]; simp [ht]) (ne_of_lt (hfl t ht))
              fun u hu => ne_of_lt (hfs t ht u hu)
          · rw [List.mem_singleton.mp ht]
            exact ⟨i, hb'⟩
        · exact hother t (by rw [hp.tables]; simp [ht]) (ne_of_gt (hbl t ht))
            fun u hu => ne_of_gt (hbs t ht u hu)
      manifest := ⟨g, j, hman'⟩
      recorded := List.append_ne_nil_of_left_ne_nil h.recorded _
      live := by
        show (applyAll (held.edits ++ deleteEdits stale)).liveTables.keys = _
        rw [hfree, applyAll_append, hat.live hlive' (c.out minSeq stale last)]
        exact (List.append_nil _).symm
      wal := h.wal.same hsame (by simp)
      flusher := by
        rw [hfree]
        refine ⟨(Standing.applyAll_deleteEdits held.edits stale).1.trans hst, fun t ht => ?_⟩
        have hold : ∀ t ∈ front ++ [last] ++ back, t.1 < s.db.nextSstId := by
          intro t ht
          refine habove t ?_
          rw [hp.tables]
          simp only [List.mem_append, List.mem_singleton] at ht ⊢
          tauto
        rcases List.mem_append.mp ht with ht | ht
        · rcases List.mem_append.mp ht with ht | ht
          · exact hold t (by simp [ht])
          · rw [List.mem_singleton.mp ht]
            exact hold last (by simp)
        · exact hold t (by simp [ht])
      compactor := trivial }

end Compaction

section Open

variable {dir : String} {opts : Options} {db : DbInner} {w : World}

/-- An open leaves tables and manifest in order, whatever it replayed. -/
theorem opened {st : ManifestState} {tables : List (Nat × List Record)} {records : List Record}
    {wal : Bytes} {edits : List VersionEdit} (hidle : s.Idle) (hq : w.Quiet) (hs : w.vol.Sound)
    (hopen : Opened env dir opts w.vol db st tables records wal)
    (hman : ∃ g i, ManifestOpen env dir w.vol db.manifest edits g i) (hne : edits ≠ [])
    (hst : applyAll edits = st) (hkeys : st.liveTables.keys = tables.map Prod.fst)
    (hids : (tables.map Prod.fst).Pairwise (· < ·)) (hfit : TablesFit env tables)
    (habove : ∀ t ∈ tables, t.1 < st.nextSstId) (kind : Kind) (log : List (List Record)) :
    Catalogue env { s with db := db, w := w } ⟨tables, edits, kind, log⟩ := by
  obtain ⟨_, hflusher, hcompactor⟩ := hidle
  have hdir := hopen.inDir
  have hopts := hopen.withOpts
  have hmem := Prod.ext_iff.mp hopen.memory
  have hseq : st.nextSeq ≤ u64Max := by
    obtain ⟨g, i, hman⟩ := hman
    have := (fits_applyAll hman.fits).seq
    rw [hst] at this
    unfold u64Max
    omega
  subst hdir hopts hst
  exact
    { quiet := hq
      sound := hs
      seq := le_of_eq_of_le hmem.2 (replayInto_snd_le _ _ hseq)
      slot := by
        rw [hflusher]
        exact hopen.frozen
      exclusive := fun _ => hflusher
      read := hopen.opened.read hs
      fit := hfit
      ids := hids
      files := fun t ht _ => TablesOpen.bound (w := w) hopen.opened t ht
      manifest := hman
      recorded := hne
      live := by
        rw [hflusher]
        exact hkeys.trans (List.append_nil _).symm
      wal := by
        obtain ⟨i, n, kind, hwal, hb, _⟩ := hopen.wal
        show w.vol.lookup (walPath _) = some db.wal.file.file
        rw [hwal]
        exact hb.name
      flusher := by
        rw [hflusher]
        refine ⟨hopen.nextSstId.symm, fun t ht => ?_⟩
        rw [show db.nextSstId = _ from hopen.nextSstId]
        exact habove t ht
      compactor := by
        rw [hcompactor]
        trivial }

end Open

end Catalogue

end LsmKv
