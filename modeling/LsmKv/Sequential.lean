import LsmKv.Engine
import LsmKv.Stock

/-!
# Calls one after another refine an ordered map

`Reaches` is the run of a database from its first open: any sequence of writes,
flushes, compactions, snapshots and clean reopenings, made one after another and
each with data that fit the file formats, beside the maps that a caller would
keep.

**Results.**
* `sequential_refinement`: in every state of every run all reads agree with the
  maps, and every call whose data fit returns Ok.
-/

namespace LsmKv

open Foundation Volume

/-- What callers expect: the current map, and that of every live snapshot. -/
structure Spec where
  now : SortedMap Bytes Bytes
  pinned : List (Nat × SortedMap Bytes Bytes)

/-- A flush and every merge of the loop behind it fit the formats. -/
def FlushAllFits (env : Env) (fuel : Nat) (db : DbInner) (w : World) : Prop :=
  FlushFits env db ∧ ∀ db₁ w₁, DbInner.flushInner env db w = (.ok (), db₁, w₁) →
    LoopFits env fuel db₁ w₁

/-- What `maintain` is about to do fits the formats. -/
def MaintainFits (env : Env) (db : DbInner) (w : World) : Prop :=
  (db.flushIsDue = true → FlushFits env db) ∧
    (db.flushIsDue = false → CompactionFits env db w)

/-- The runs of a database on a fresh directory, one call after another. -/
inductive Reaches (env : Env) (dir : String) : DbInner → World → Spec → Prop
  | opened {opts : Options} {v : Volume Path} {db : DbInner} {w : World}
      (fresh : FreshDir dir v) (two : 2 ≤ opts.compactionThreshold)
      (run : (assemble env dir opts : M Unit DbInner) () (World.start v) = (.ok db, (), w)) :
      Reaches env dir db w ⟨SortedMap.empty, []⟩
  | put {db db' : DbInner} {w w' : World} {spec : Spec} (key value : Bytes)
      (earlier : Reaches env dir db w spec) (fits : WriteFits db [(key, some value)])
      (run : DbInner.write env key (some value) db w = (.ok (), db', w')) :
      Reaches env dir db' w' { spec with now := spec.now.insert key value }
  | delete {db db' : DbInner} {w w' : World} {spec : Spec} (key : Bytes)
      (earlier : Reaches env dir db w spec) (fits : WriteFits db [(key, none)])
      (run : DbInner.write env key none db w = (.ok (), db', w')) :
      Reaches env dir db' w' { spec with now := spec.now.erase key }
  | writeBatch {db db' : DbInner} {w w' : World} {spec : Spec} (batch : WriteBatch)
      (earlier : Reaches env dir db w spec) (fits : WriteFits db batch)
      (run : DbInner.writeBatch env batch db w = (.ok (), db', w')) :
      Reaches env dir db' w' { spec with now := applyBatch spec.now batch }
  | flush {db db' : DbInner} {w w' : World} {spec : Spec} (fuel : Nat)
      (earlier : Reaches env dir db w spec) (fits : FlushAllFits env fuel db w)
      (run : DbInner.flush env fuel db w = (.ok true, db', w')) : Reaches env dir db' w' spec
  | flushOnly {db db' : DbInner} {w w' : World} {spec : Spec}
      (earlier : Reaches env dir db w spec) (fits : FlushFits env db)
      (run : DbInner.flushInner env db w = (.ok (), db', w')) : Reaches env dir db' w' spec
  | maintain {db db' : DbInner} {w w' : World} {spec : Spec} {worked : Bool}
      (earlier : Reaches env dir db w spec) (fits : MaintainFits env db w)
      (run : DbInner.maintain env db w = (.ok worked, db', w')) : Reaches env dir db' w' spec
  | snapshot {db db' : DbInner} {w w' : World} {spec : Spec} {horizon : Nat}
      (earlier : Reaches env dir db w spec)
      (run : DbInner.snapshot db w = (.ok horizon, db', w')) :
      Reaches env dir db' w' { spec with pinned := (horizon, spec.now) :: spec.pinned }
  | dropSnapshot {db db' : DbInner} {w w' : World} {spec : Spec}
      {front rest : List (Nat × SortedMap Bytes Bytes)} {p : Nat × SortedMap Bytes Bytes}
      (earlier : Reaches env dir db w spec) (live : spec.pinned = front ++ p :: rest)
      (run : DbInner.dropSnapshot p.1 db w = (.ok (), db', w')) :
      Reaches env dir db' w' { spec with pinned := front ++ rest }
  | reopen {db db₁ db' : DbInner} {w w₁ w' : World} {spec : Spec} {opts : Options}
      (earlier : Reaches env dir db w spec) (unpinned : spec.pinned = [])
      (two : 2 ≤ opts.compactionThreshold)
      (closed : DbInner.close db w = (.ok (), db₁, w₁))
      (run : (assemble env dir opts : M Unit DbInner) () w₁ = (.ok db', (), w')) :
      Reaches env dir db' w' spec

/-- All reads of a handle answer from the maps. -/
structure Agrees (env : Env) (db : DbInner) (w : World) (spec : Spec) : Prop where
  get : ∀ key, DbInner.get env key db w = (.ok (spec.now.find? key), db, w)
  getAt : ∀ p ∈ spec.pinned, ∀ key,
    DbInner.getAt env key p.1 db w = (.ok (p.2.find? key), db, w)
  scan : ∀ start stop limit, DbInner.scan env start stop limit db w =
    (.ok ((entriesWithin spec.now start stop).take limit), db, w)
  scanAt : ∀ p ∈ spec.pinned, ∀ start stop limit,
    DbInner.scanAt env start stop limit p.1 db w =
      (.ok ((entriesWithin p.2 start stop).take limit), db, w)

/-- Every call whose data fit returns Ok. -/
structure Succeeds (env : Env) (dir : String) (db : DbInner) (w : World) (spec : Spec) :
    Prop where
  write : ∀ key value, WriteFits db [(key, value)] →
    ∃ db' w', DbInner.write env key value db w = (.ok (), db', w')
  writeBatch : ∀ batch, WriteFits db batch →
    ∃ db' w', DbInner.writeBatch env batch db w = (.ok (), db', w')
  flush : ∀ fuel, db.sstables.length + 1 < fuel → FlushAllFits env fuel db w →
    ∃ db' w', DbInner.flush env fuel db w = (.ok true, db', w')
  flushOnly : FlushFits env db → ∃ db' w', DbInner.flushInner env db w = (.ok (), db', w')
  maintain : MaintainFits env db w →
    ∃ worked db' w', DbInner.maintain env db w = (.ok worked, db', w')
  snapshot : ∃ horizon db', DbInner.snapshot db w = (.ok horizon, db', w)
  dropSnapshot : ∀ p ∈ spec.pinned, ∃ db', DbInner.dropSnapshot p.1 db w = (.ok (), db', w)
  reopen : spec.pinned = [] → ∀ opts, ∃ w₁ db' w', DbInner.close db w = (.ok (), db, w₁) ∧
    (assemble env dir opts : M Unit DbInner) () w₁ = (.ok db', (), w')

section Refinement

variable {env : Env} {dir : String} {db : DbInner} {w : World} {spec : Spec} {held : Held}

/-- The invariant of a run. -/
def Sequenced (env : Env) (dir : String) (db : DbInner) (w : World) (spec : Spec) : Prop :=
  ∃ held, Engine env w db held spec.now spec.pinned ∧ db.dir = dir ∧
    2 ≤ db.opts.compactionThreshold

theorem sequenced_write {db' : DbInner} {w' : World} {batch : WriteBatch}
    (h : Sequenced env dir db w spec) (hfits : WriteFits db batch)
    (hrun : DbInner.writeBatch env batch db w = (.ok (), db', w')) :
    Sequenced env dir db' w' { spec with now := applyBatch spec.now batch } := by
  obtain ⟨held, heng, hdir, htwo⟩ := h
  obtain ⟨db₁, held₁, w₁, hrun₁, heng₁, hdir₁, hopts₁⟩ := heng.write hfits
  rw [hrun] at hrun₁
  cases hrun₁
  exact ⟨held₁, heng₁, hdir₁.trans hdir, by rw [hopts₁]; exact htwo⟩

theorem sequenced_moves {db' : DbInner} {held' : Held} {w' : World}
    (heng : Engine env w db held spec.now spec.pinned) (hdir : db.dir = dir)
    (htwo : 2 ≤ db.opts.compactionThreshold) (hmoves : ManyMoves (db, held) (db', held'))
    (hst : Standing env w' db' held') : Sequenced env dir db' w' spec := by
  obtain ⟨h1, h2, _, _⟩ := hmoves.same
  exact ⟨held', ⟨hst, heng.stands.manyMoves hmoves⟩, h1.trans hdir, by rw [h2]; exact htwo⟩

/-- Every state of every run keeps the invariant. -/
theorem sequenced_of_reaches (h : Reaches env dir db w spec) : Sequenced env dir db w spec := by
  induction h with
  | @opened opts v db w fresh two run =>
      obtain ⟨db₁, w₁, held, hrun, heng, hdir, hopts⟩ := engine_fresh env opts
        (World.quiet_start v) (by simp [World.start]) fresh
      rw [run] at hrun
      cases hrun
      exact ⟨held, heng, hdir, by rw [hopts]; exact two⟩
  | put key value _ fits run ih => exact sequenced_write ih fits run
  | delete key _ fits run ih => exact sequenced_write ih fits run
  | writeBatch batch _ fits run ih => exact sequenced_write ih fits run
  | flush fuel _ fits run ih =>
      obtain ⟨held, heng, hdir, htwo⟩ := ih
      obtain ⟨r, db₁, held₁, w₁, hrun₁, hmoves, hst, _, _⟩ :=
        heng.standing.flush fits.1 fits.2
      rw [run] at hrun₁
      cases hrun₁
      exact sequenced_moves heng hdir htwo hmoves hst
  | flushOnly _ fits run ih =>
      obtain ⟨held, heng, hdir, htwo⟩ := ih
      obtain ⟨db₁, held₁, w₁, hrun₁, hmoves, hst, _, _⟩ := heng.standing.flushInner fits
      rw [run] at hrun₁
      cases hrun₁
      exact sequenced_moves heng hdir htwo hmoves hst
  | maintain _ fits run ih =>
      obtain ⟨held, heng, hdir, htwo⟩ := ih
      obtain ⟨r, db₁, held₁, w₁, hrun₁, hmoves, hst, _⟩ :=
        heng.standing.maintain fits.1 fits.2
      rw [run] at hrun₁
      cases hrun₁
      exact sequenced_moves heng hdir htwo hmoves hst
  | snapshot _ run ih =>
      obtain ⟨held, heng, hdir, htwo⟩ := ih
      obtain ⟨db₁, hrun₁, heng₁, hdir₁, hopts₁⟩ := heng.snapshot
      rw [run] at hrun₁
      cases hrun₁
      exact ⟨held, heng₁, hdir₁.trans hdir, by rw [hopts₁]; exact htwo⟩
  | dropSnapshot _ live run ih =>
      obtain ⟨held, heng, hdir, htwo⟩ := ih
      obtain ⟨db₁, hrun₁, heng₁, hdir₁, hopts₁⟩ := heng.dropSnapshot live
      rw [run] at hrun₁
      cases hrun₁
      exact ⟨held, heng₁, hdir₁.trans hdir, by rw [hopts₁]; exact htwo⟩
  | @reopen _ _ _ _ _ _ spec opts _ unpinned two closed run ih =>
      obtain ⟨held, heng, hdir, _⟩ := ih
      rw [unpinned] at heng
      obtain ⟨w₁, db₂, w₂, held₂, hclose, hrun, heng₂, hdir₂, hopts₂⟩ := heng.reopen opts
      rw [closed] at hclose
      cases hclose
      rw [hdir, run] at hrun
      cases hrun
      refine ⟨held₂, ?_, hdir₂.trans hdir, by rw [hopts₂]; exact two⟩
      rw [unpinned]
      exact heng₂

theorem agrees_of_sequenced (h : Sequenced env dir db w spec) : Agrees env db w spec := by
  obtain ⟨held, heng, _⟩ := h
  exact ⟨heng.get, fun p hp => heng.getAt hp, heng.scan, fun p hp => heng.scanAt hp⟩

theorem succeeds_of_sequenced (h : Sequenced env dir db w spec) :
    Succeeds env dir db w spec := by
  obtain ⟨held, heng, hdir, htwo⟩ := h
  refine ⟨?_, ?_, ?_, ?_, ?_, ⟨_, _, rfl⟩, ?_, ?_⟩
  · intro key value hfits
    obtain ⟨db₁, _, w₁, hrun, _⟩ := heng.write hfits
    exact ⟨db₁, w₁, hrun⟩
  · intro batch hfits
    obtain ⟨db₁, _, w₁, hrun, _⟩ := heng.write hfits
    exact ⟨db₁, w₁, hrun⟩
  · intro fuel hfuel hfits
    obtain ⟨r, db₁, _, w₁, hrun, _, _, _, hend⟩ := heng.standing.flush hfits.1 hfits.2
    rw [hend htwo hfuel] at hrun
    exact ⟨db₁, w₁, hrun⟩
  · intro hfits
    obtain ⟨db₁, _, w₁, hrun, _⟩ := heng.standing.flushInner hfits
    exact ⟨db₁, w₁, hrun⟩
  · intro hfits
    obtain ⟨r, db₁, _, w₁, hrun, _⟩ := heng.standing.maintain hfits.1 hfits.2
    exact ⟨r, db₁, w₁, hrun⟩
  · intro p hp
    obtain ⟨front, rest, hlive⟩ := List.append_of_mem hp
    obtain ⟨db₁, hrun, _⟩ := heng.dropSnapshot hlive
    exact ⟨db₁, hrun⟩
  · intro hpinned opts
    rw [hpinned] at heng
    obtain ⟨w₁, db₂, w₂, _, hclose, hrun, _⟩ := heng.reopen opts
    rw [hdir] at hrun
    exact ⟨w₁, db₂, w₂, hclose, hrun⟩

end Refinement

/-- A fresh directory can be opened; and in every state of every run of calls one
after another, whose data fit the file formats, reads agree with the ordered map
that applied the same mutations, with that of its moment for every live snapshot,
and every call whose data fit returns Ok. -/
theorem sequential_refinement (env : Env) (dir : String) :
    (∀ opts v, FreshDir dir v → ∃ db w,
      (assemble env dir opts : M Unit DbInner) () (World.start v) = (.ok db, (), w)) ∧
    ∀ db w spec, Reaches env dir db w spec →
      Agrees env db w spec ∧ Succeeds env dir db w spec := by
  refine ⟨fun opts v hfresh => ?_, fun db w spec h => ?_⟩
  · obtain ⟨db, w, _, hrun, _⟩ := engine_fresh env opts (World.quiet_start v)
      (by simp [World.start]) hfresh
    exact ⟨db, w, hrun⟩
  · have hseq := sequenced_of_reaches h
    exact ⟨agrees_of_sequenced hseq, succeeds_of_sequenced hseq⟩

section Schedule

variable {env : Env} {dir : String}

/-- A handle, the world it is in, and the maps beside it. -/
structure Beheld where
  db : DbInner
  w : World
  spec : Spec

/-- What a call that returns Ok leaves. -/
def Beheld.after {α : Type} (out : Except Error α × DbInner × World) (spec : α → Spec) :
    Option Beheld :=
  match out with
  | (.ok a, db, w) => some ⟨db, w, spec a⟩
  | _ => none

theorem Beheld.after_eq_some {α : Type} {out : Except Error α × DbInner × World}
    {spec : α → Spec} {x : Beheld} (h : Beheld.after out spec = some x) :
    ∃ a, out = (.ok a, x.db, x.w) ∧ x.spec = spec a := by
  obtain ⟨_ | a, db, w⟩ := out
  · cases h
  · cases h
    exact ⟨a, rfl, rfl⟩

/-- A call of a schedule. -/
inductive Request
  | put (key value : Bytes)
  | delete (key : Bytes)
  | flushOnly
  | maintain
  | snapshot

/-- One call, if its data fit and it returns Ok. -/
def Request.exec (env : Env) (x : Beheld) : Request → Option Beheld
  | .put key value =>
      if WriteFits x.db [(key, some value)] then
        Beheld.after (DbInner.write env key (some value) x.db x.w) fun _ =>
          { x.spec with now := x.spec.now.insert key value }
      else none
  | .delete key =>
      if WriteFits x.db [(key, none)] then
        Beheld.after (DbInner.write env key none x.db x.w) fun _ =>
          { x.spec with now := x.spec.now.erase key }
      else none
  | .flushOnly =>
      if FlushFits env x.db then
        Beheld.after (DbInner.flushInner env x.db x.w) fun _ => x.spec
      else none
  | .maintain =>
      if FlushFits env x.db ∧ compactionFitting env x.db x.w = true then
        Beheld.after (DbInner.maintain env x.db x.w) fun _ => x.spec
      else none
  | .snapshot =>
      Beheld.after (DbInner.snapshot x.db x.w) fun horizon =>
        { x.spec with pinned := (horizon, x.spec.now) :: x.spec.pinned }

theorem Request.exec_reaches {x y : Beheld} {r : Request}
    (h : Reaches env dir x.db x.w x.spec) (hrun : r.exec env x = some y) :
    Reaches env dir y.db y.w y.spec := by
  cases r with
  | put key value =>
      simp only [exec] at hrun
      split_ifs at hrun with hfits
      obtain ⟨_, hout, hspec⟩ := Beheld.after_eq_some hrun
      rw [hspec]
      exact .put key value h hfits hout
  | delete key =>
      simp only [exec] at hrun
      split_ifs at hrun with hfits
      obtain ⟨_, hout, hspec⟩ := Beheld.after_eq_some hrun
      rw [hspec]
      exact .delete key h hfits hout
  | flushOnly =>
      simp only [exec] at hrun
      split_ifs at hrun with hfits
      obtain ⟨_, hout, hspec⟩ := Beheld.after_eq_some hrun
      rw [hspec]
      exact .flushOnly h hfits hout
  | maintain =>
      simp only [exec] at hrun
      split_ifs at hrun with hfits
      obtain ⟨_, hout, hspec⟩ := Beheld.after_eq_some hrun
      rw [hspec]
      exact .maintain h ⟨fun _ => hfits.1, fun _ => compactionFits_of_fitting hfits.2⟩ hout
  | snapshot =>
      simp only [exec] at hrun
      obtain ⟨_, hout, hspec⟩ := Beheld.after_eq_some hrun
      rw [hspec]
      exact .snapshot h hout

/-- Calls one after another. -/
def Request.execAll (env : Env) : List Request → Beheld → Option Beheld
  | [], x => some x
  | r :: rs, x => (r.exec env x).bind (execAll env rs)

theorem Request.execAll_reaches {x y : Beheld} {rs : List Request}
    (h : Reaches env dir x.db x.w x.spec) (hrun : execAll env rs x = some y) :
    Reaches env dir y.db y.w y.spec := by
  induction rs generalizing x with
  | nil =>
      cases hrun
      exact h
  | cons r rs ih =>
      obtain ⟨z, hz, hrest⟩ := Option.bind_eq_some_iff.mp hrun
      exact ih (exec_reaches h hz) hrest

/-- A handle on an empty volume. -/
def Beheld.start (env : Env) (dir : String) (opts : Options) : Option Beheld :=
  match (assemble env dir opts : M Unit DbInner) () (World.start Volume.empty) with
  | (.ok db, _, w) => some ⟨db, w, ⟨SortedMap.empty, []⟩⟩
  | _ => none

theorem Beheld.start_reaches {opts : Options} {x : Beheld} (two : 2 ≤ opts.compactionThreshold)
    (h : Beheld.start env dir opts = some x) : Reaches env dir x.db x.w x.spec := by
  unfold Beheld.start at h
  split at h
  · rename_i db u w hopen
    cases h
    exact .opened ⟨sound_empty, fun _ _ => rfl⟩ two hopen
  · cases h

end Schedule

/-- A key is put, seen by a snapshot, flushed and deleted; another one is put and flushed; and
the two tables are merged. -/
theorem sequential_refinement_merged :
    ∃ x : Beheld, Reaches Stock.env "db" x.db x.w x.spec ∧ x.db.sstables.length = 1 ∧
      DbInner.get Stock.env [1] x.db x.w = (.ok none, x.db, x.w) ∧
      DbInner.get Stock.env [3] x.db x.w = (.ok (some [4]), x.db, x.w) ∧
      ∃ p ∈ x.spec.pinned,
        DbInner.getAt Stock.env [1] p.1 x.db x.w = (.ok (some [2]), x.db, x.w) := by
  have hrun : ((Beheld.start Stock.env "db" ⟨100, .durable, 2, true⟩).bind
      (Request.execAll Stock.env [.put [1] [2], .snapshot, .flushOnly, .delete [1], .put [3] [4],
        .flushOnly, .maintain])).any
      (fun x => decide (x.db.sstables.length = 1 ∧ x.spec.now.find? [1] = none ∧
        x.spec.now.find? [3] = some [4]) &&
          x.spec.pinned.any fun p => decide (p.2.find? [1] = some [2])) = true := by
    decide +kernel
  obtain ⟨x, hx, htest⟩ := (Option.any_eq_true _ _).mp hrun
  obtain ⟨x₀, hstart, hcalls⟩ := Option.bind_eq_some_iff.mp hx
  obtain ⟨hshape, hpinned⟩ := Bool.and_eq_true_iff.mp htest
  obtain ⟨htables, hgone, hthere⟩ := of_decide_eq_true hshape
  obtain ⟨p, hp, hseen⟩ := List.any_eq_true.mp hpinned
  have hreaches := Request.execAll_reaches (Beheld.start_reaches (by decide) hstart) hcalls
  have hagree := ((sequential_refinement Stock.env "db").2 _ _ _ hreaches).1
  refine ⟨x, hreaches, htables, ?_, ?_, p, hp, ?_⟩
  · rw [hagree.get [1], hgone]
  · rw [hagree.get [3], hthere]
  · rw [hagree.getAt p hp [1], of_decide_eq_true hseen]

end LsmKv
