import LsmKv.Engine
import Mathlib.Logic.Relation

/-!
# Threads inside the engine

A `System` is a handle with threads inside it.  Every lock has at most one holder,
so it is enough to know how far the holder of each lock has come: the writer that
has the WAL lock, the flush that has the flush lock, the compaction that has the
compaction lock.  Any number of threads may be waiting for them.

Beside the handle a system remembers what has happened: the batches inserted so
far, and how far into them the freezes, the tables and the log have come.

**Results.**
* `Step`: one section of one thread.
* `Steps`, `Reached`: the interleavings of a database on a fresh directory.
* `Steps.keeps`: what every step keeps holds all along a run.
-/

namespace LsmKv

open Foundation Volume Versioning

/-- How far the holder of the WAL lock has come. -/
inductive Writer
  | free
  /-- The batch has its sequence numbers. -/
  | numbered (records : List Record)
  /-- It is in the log. -/
  | logged (records : List Record)

/-- Records that have their numbers and are not inserted yet. -/
def Writer.pending : Writer → List Record
  | .free => []
  | .numbered records => records
  | .logged records => records

/-- Records that are in the log and not inserted yet. -/
def Writer.ahead : Writer → List (List Record)
  | .free => []
  | .numbered _ => []
  | .logged records => [records]

/-- How far the flush under way has come. -/
inductive Flusher
  | free
  | frozen (m : MemTable)
  /-- The table is written beside. -/
  | written (m : MemTable) (id : Nat)
  /-- It has its name and is open. -/
  | placed (m : MemTable) (id : Nat) (table : SsTable)
  /-- The counters are loaded. -/
  | counted (m : MemTable) (id : Nat) (table : SsTable) (nextSstId nextSeq : Nat)
  /-- The manifest names the table. -/
  | recorded (m : MemTable) (id : Nat) (table : SsTable)
  /-- It is in the live set. -/
  | published (m : MemTable)
  /-- The log is rewritten. -/
  | relogged (m : MemTable)

/-- What the frozen slot holds. -/
def Flusher.slot : Flusher → Option MemTable
  | .free => none
  | .frozen m => some m
  | .written m _ => some m
  | .placed m _ _ => some m
  | .counted m _ _ _ _ => some m
  | .recorded m _ _ => some m
  | .published m => some m
  | .relogged m => some m

/-- Whether the frozen records are in the frozen slot only. -/
def Flusher.unpublished : Flusher → Bool
  | .free => false
  | .published _ => false
  | .relogged _ => false
  | _ => true

/-- Whether the log still has the frozen records. -/
def Flusher.unlogged : Flusher → Bool
  | .free => false
  | .relogged _ => false
  | _ => true

/-- How far the compaction under way has come. -/
inductive Compactor
  | free
  | listed (tables : List SsTable)
  | chosen (c : DbInner.Choice)
  /-- The lowest horizon is read. -/
  | bounded (c : DbInner.Choice) (minSeq : Nat)
  /-- The merge is written beside. -/
  | merged (c : DbInner.Choice) (minSeq : Nat)
  /-- It has its name; the compaction holds the flush lock. -/
  | named (c : DbInner.Choice) (minSeq : Nat)

/-- Whether the compaction holds the flush lock. -/
def Compactor.publishing : Compactor → Bool
  | .named _ _ => true
  | _ => false

/-- A handle with threads inside. -/
structure System where
  db : DbInner
  w : World
  writer : Writer
  flusher : Flusher
  compactor : Compactor
  /-- Horizons of snapshots that are loaded and not registered yet. -/
  loading : List Nat
  /-- Horizons of the snapshots that are alive. -/
  live : List Nat
  /-- The batches inserted so far. -/
  written : List (List Record)
  /-- The last freeze took the batches from `frozenFrom` up to `frozenAt`. -/
  frozenFrom : Nat
  frozenAt : Nat
  /-- The batches before are in tables. -/
  publishedAt : Nat
  /-- The log backs the batches from here on. -/
  loggedFrom : Nat
  /-- Merges have dropped tombstones of the batches before. -/
  droppedAt : Nat

/-- A handle nobody is inside. -/
def System.opened (db : DbInner) (w : World) : System :=
  ⟨db, w, .free, .free, .free, [], [], [], 0, 0, 0, 0, 0⟩

/-- Whether the flush lock is free. -/
def System.flushLockFree (s : System) : Prop :=
  s.flusher = .free ∧ s.compactor.publishing = false

/-- The steps of the threads. -/
inductive Label
  | number (batch : WriteBatch)
  | log
  | insert
  | freeze
  | write
  | place
  | count
  | record
  | publish
  | relog
  | clear
  | list
  | choose
  | abandon
  | bound
  | merge
  | name
  | finish
  | load
  | register (horizon : Nat)
  | drop (horizon : Nat)
  | reopen (opts : Options)
  deriving DecidableEq

/-- One section of one thread. -/
inductive Step (env : Env) : Label → System → System → Prop
  | number {s : System} {db : DbInner} {w : World} {records : List Record} (batch : WriteBatch)
      (some : batch ≠ []) (free : s.writer = .free)
      (run : DbInner.takeNumbers batch s.db s.w = (.ok records, db, w)) :
      Step env (.number batch) s { s with db := db, w := w, writer := .numbered records }
  | log {s : System} {db : DbInner} {w : World} {records : List Record}
      (stage : s.writer = .numbered records)
      (run : DbInner.logRecords env records s.db s.w = (.ok (), db, w)) :
      Step env .log s { s with db := db, w := w, writer := .logged records }
  | insert {s : System} {db : DbInner} {w : World} {records : List Record}
      (stage : s.writer = .logged records)
      (run : DbInner.insertRecords records s.db s.w = (.ok (), db, w)) :
      Step env .insert s
        { s with db := db, w := w, writer := .free, written := s.written ++ [records] }
  | freeze {s : System} {db : DbInner} {w : World} {m : MemTable} (free : s.flushLockFree)
      (run : DbInner.freeze s.db s.w = (.ok (some m), db, w)) :
      Step env .freeze s
        { s with
          db := db
          w := w
          flusher := .frozen m
          frozenFrom := s.frozenAt
          frozenAt := s.written.length }
  | write {s : System} {db : DbInner} {w : World} {m : MemTable} {id : Nat}
      (stage : s.flusher = .frozen m)
      (run : (do
        let id ← DbInner.takeSstId
        DbInner.writeTable env s.db.dir id m
        return id) s.db s.w = (.ok id, db, w)) :
      Step env .write s { s with db := db, w := w, flusher := .written m id }
  | place {s : System} {db : DbInner} {w : World} {m : MemTable} {id : Nat} {table : SsTable}
      (stage : s.flusher = .written m id)
      (run : (do
        DbInner.nameTable s.db.dir id
        DbInner.settleTable s.db.dir s.db.opts.bloomEnabled id) s.db s.w = (.ok table, db, w)) :
      Step env .place s { s with db := db, w := w, flusher := .placed m id table }
  | count {s : System} {db : DbInner} {w : World} {m : MemTable} {id : Nat} {table : SsTable}
      {counters : Nat × Nat} (stage : s.flusher = .placed m id table)
      (run : DbInner.loadCounters s.db s.w = (.ok counters, db, w)) :
      Step env .count s
        { s with db := db, w := w, flusher := .counted m id table counters.1 counters.2 }
  | record {s : System} {db : DbInner} {w : World} {m : MemTable} {id : Nat} {table : SsTable}
      {nextSstId nextSeq : Nat} (stage : s.flusher = .counted m id table nextSstId nextSeq)
      (run : DbInner.recordTable env id nextSstId nextSeq s.db s.w = (.ok (), db, w)) :
      Step env .record s { s with db := db, w := w, flusher := .recorded m id table }
  | publish {s : System} {db : DbInner} {w : World} {m : MemTable} {id : Nat} {table : SsTable}
      (stage : s.flusher = .recorded m id table)
      (run : DbInner.publishTable table s.db s.w = (.ok (), db, w)) :
      Step env .publish s
        { s with db := db, w := w, flusher := .published m, publishedAt := s.frozenAt }
  | relog {s : System} {db : DbInner} {w : World} {m : MemTable}
      (stage : s.flusher = .published m) (free : s.writer = .free)
      (run : DbInner.rewriteWal env s.db s.w = (.ok (), db, w)) :
      Step env .relog s
        { s with db := db, w := w, flusher := .relogged m, loggedFrom := s.frozenAt }
  | clear {s : System} {db : DbInner} {w : World} {m : MemTable} (stage : s.flusher = .relogged m)
      (run : DbInner.clearFrozen s.db s.w = (.ok (), db, w)) :
      Step env .clear s { s with db := db, w := w, flusher := .free }
  | list {s : System} {db : DbInner} {w : World} {tables : List SsTable}
      (free : s.compactor = .free) (run : DbInner.listTables s.db s.w = (.ok tables, db, w)) :
      Step env .list s { s with db := db, w := w, compactor := .listed tables }
  | choose {s : System} {db : DbInner} {w : World} {tables : List SsTable} {c : DbInner.Choice}
      (stage : s.compactor = .listed tables)
      (run : DbInner.chooseRun tables s.db s.w = (.ok (some c), db, w)) :
      Step env .choose s { s with db := db, w := w, compactor := .chosen c }
  | abandon {s : System} {db : DbInner} {w : World} {tables : List SsTable}
      (stage : s.compactor = .listed tables)
      (run : DbInner.chooseRun tables s.db s.w = (.ok none, db, w)) :
      Step env .abandon s { s with db := db, w := w, compactor := .free }
  | bound {s : System} {db : DbInner} {w : World} {c : DbInner.Choice} {minSeq : Nat}
      (stage : s.compactor = .chosen c)
      (run : DbInner.lowestHorizon s.db s.w = (.ok minSeq, db, w)) :
      Step env .bound s { s with db := db, w := w, compactor := .bounded c minSeq }
  | merge {s : System} {db : DbInner} {w : World} {c : DbInner.Choice} {minSeq : Nat}
      (stage : s.compactor = .bounded c minSeq)
      (run : DbInner.mergeRun env s.db.dir c minSeq s.db s.w = (.ok (), db, w)) :
      Step env .merge s { s with db := db, w := w, compactor := .merged c minSeq }
  | name {s : System} {db : DbInner} {w : World} {c : DbInner.Choice} {minSeq : Nat}
      (stage : s.compactor = .merged c minSeq) (free : s.flusher = .free)
      (run : DbInner.nameTable s.db.dir c.maxId s.db s.w = (.ok (), db, w)) :
      Step env .name s { s with db := db, w := w, compactor := .named c minSeq }
  | finish {s : System} {db : DbInner} {w : World} {c : DbInner.Choice} {minSeq : Nat}
      (stage : s.compactor = .named c minSeq)
      (run : DbInner.finishCompaction env s.db.dir s.db.opts.bloomEnabled c.run c.maxId s.db s.w =
        (.ok (), db, w)) :
      Step env .finish s
        { s with
          db := db
          w := w
          compactor := .free
          droppedAt := if c.dropTombstones then s.publishedAt else s.droppedAt }
  | load {s : System} {db : DbInner} {w : World} {horizon : Nat}
      (run : DbInner.loadHorizon s.db s.w = (.ok horizon, db, w)) :
      Step env .load s { s with db := db, w := w, loading := horizon :: s.loading }
  | register {s : System} {db : DbInner} {w : World} {horizon : Nat}
      (loaded : horizon ∈ s.loading)
      (run : DbInner.registerHorizon horizon s.db s.w = (.ok (), db, w)) :
      Step env (.register horizon) s
        { s with
          db := db
          w := w
          loading := s.loading.erase horizon
          live := horizon :: s.live }
  | drop {s : System} {db : DbInner} {w : World} {horizon : Nat} (alive : horizon ∈ s.live)
      (run : DbInner.dropSnapshot horizon s.db s.w = (.ok (), db, w)) :
      Step env (.drop horizon) s { s with db := db, w := w, live := s.live.erase horizon }
  | reopen {s : System} {db db' : DbInner} {w w' : World} (opts : Options)
      (writer : s.writer = .free) (flusher : s.flusher = .free) (compactor : s.compactor = .free)
      (loading : s.loading = []) (live : s.live = [])
      (closed : DbInner.close s.db s.w = (.ok (), db, w))
      (run : (assemble env s.db.dir opts : M Unit DbInner) () w = (.ok db', (), w')) :
      Step env (.reopen opts) s { s with db := db', w := w' }

/-- What a step is about to write fits the file formats, and no counter runs out. -/
def Fits (env : Env) : Label → System → Prop
  | .number batch, s => s.db.nextSeq + batch.length ≤ u64Max
  | .log, s => BatchFits s.writer.pending
  | .write, s => s.db.nextSstId + 1 < 2 ^ 64 ∧
      ∀ m, s.flusher = .frozen m → TableFits env m.iter
  | .merge, s => ∀ c minSeq inputs, s.compactor = .bounded c minSeq →
      (M.collect (fun r : SsTableReader => r.iterAll env) (c.run.map SsTable.reader) s.db s.w).1 =
        .ok inputs →
      TableFits env (compactRecords inputs c.dropTombstones minSeq)
  | _, _ => True

/-- Steps one after another, each of which `ok` admits. -/
def Steps (env : Env) (ok : Label → System → Prop) : System → System → Prop :=
  Relation.ReflTransGen (fun a b => ∃ l, ok l a ∧ Step env l a b)

/-- The states of a database opened on a fresh directory. -/
def Reached (env : Env) (dir : String) (ok : Label → System → Prop) (s : System) : Prop :=
  ∃ opts v db w, FreshDir dir v ∧
    (assemble env dir opts : M Unit DbInner) () (World.start v) = (.ok db, (), w) ∧
    Steps env ok (System.opened db w) s

/-- What every admitted step keeps holds all along a run. -/
theorem Steps.keeps {env : Env} {ok : Label → System → Prop} {P : System → Prop}
    (hstep : ∀ l s s', P s → ok l s → Step env l s s' → P s') {s s' : System}
    (h : Steps env ok s s') (hs : P s) : P s' := by
  induction h with
  | refl => exact hs
  | tail _ hlast ih =>
      obtain ⟨l, hok, hl⟩ := hlast
      exact hstep l _ _ ih hok hl

theorem Steps.weaken {env : Env} {ok ok' : Label → System → Prop} {s s' : System}
    (h : Steps env ok s s') (himp : ∀ l s, ok l s → ok' l s) : Steps env ok' s s' :=
  Relation.ReflTransGen.mono (fun _ _ ⟨l, hok, hl⟩ => ⟨l, himp l _ hok, hl⟩) _ _ h

end LsmKv
