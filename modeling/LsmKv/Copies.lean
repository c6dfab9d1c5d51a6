import LsmKv.Copying
import LsmKv.MigrateCrash
import LsmKv.Names

/-!
# What a checkpoint shows

Power fails between the sections of the source or inside one, and the volumes of that moment
are the `Copying.Passing` ones.  Names take effect in order: a crash loses unsynced bytes and
no name.  The names inside the directory of the checkpoint are covered by its own `sync_dir`;
the entry of that directory in its parent is not, as `checkpoint` never syncs the parent.

**Results.**
* `checkpoint_shows_cut`: once the checkpoint has returned, the names in its directory are
  settled and it opens, after a crash at any moment, to the map of a beginning of the writes
  with all in it that were in at the call.
* `checkpoint_independent`: the source and the opened copy then show their own writes only.
* `interrupted_checkpoint_opens`: a checkpoint that is cut short opens too, with the tables
  linked so far.
-/

namespace LsmKv

open Foundation Volume Versioning

section Results

variable {env : Env} {dir copy : String} {x : Copying}

/-- The volumes a source and its checkpoint pass through on the way to their next state. -/
def Copying.Passing (env : Env) (copy : String) (x : Copying) (v : Volume Path) : Prop :=
  v = x.sys.w.vol ∨ ∃ e y, Copying.Step env copy e x y ∧ x.sys.w.Passes y.sys.w v

/-- The names a recovery of a checkpoint starts from are settled if all names of its directory
are. -/
theorem Stocked.namesSettled {v : Volume Path} {W : List (List Record)}
    (h : Stocked env copy v W) (hcov : ∀ p : Path, p.dir = copy → v.Covered p) :
    NamesSettled env copy v := by
  obtain ⟨st, tables, _, hshelf⟩ := h.described
  obtain ⟨g, c, i, b, hg, hcur, hman, hreplay⟩ := hshelf.rests.named
  exact ⟨_, recoveryNames_of_bound hg hcur hman hreplay, fun p hp => hcov p (dir_vitalNames hp)⟩

/-- A finished checkpoint is kept at every moment of what its source does. -/
theorem Copying.Kept.passing {since upto : Nat} {v : Volume Path} (h : x.Kept env copy)
    (hdone : x.copier = .done since upto) (hv : Copying.Passing env copy x v) :
    Stocked env copy v (x.sys.written.take upto) ∧ ∀ p : Path, p.dir = copy → v.Covered p := by
  obtain ⟨held, hfiles, _, _, hback⟩ := h
  rw [hdone] at hback
  obtain ⟨_, _, hne, hstocked, hcov⟩ := hback
  rcases hv with rfl | ⟨e, y, hstep, hpasses⟩
  · exact ⟨hstocked, hcov⟩
  -- only the source has something left to do
  cases hstep with
  | go fits _ step =>
      have hwithin := (hfiles.within fits step).1 v hpasses
      have hother : ∀ p : Path, p.dir = copy → ¬ InDir x.sys.db.dir p :=
        fun p hp hin => hne (hp.symm.trans hin)
      exact ⟨hstocked.within hwithin hother,
        fun p hp => hwithin.covered (hother p hp) (hcov p hp)⟩
  | call away => cases hdone.symm.trans away
  | freeze stage => cases hdone.symm.trans stage
  | pass stage => cases hdone.symm.trans stage
  | clear stage => cases hdone.symm.trans stage
  | find stage => cases hdone.symm.trans stage
  | refuse stage => cases hdone.symm.trans stage
  | list stage => cases hdone.symm.trans stage
  | link stage => cases hdone.symm.trans stage
  | state stage => cases hdone.symm.trans stage
  | record stage => cases hdone.symm.trans stage
  | settle stage => cases hdone.symm.trans stage

/-- Let a checkpoint be made of a database while writers, flushes, compactions and snapshots go
on.  Once it has returned, and at every moment of whatever the source does then, the names a
recovery of its directory starts from are covered by a sync of that directory.  If power fails
at such a moment the directory opens and shows the map after the first `upto` writes, and all
that were in when the checkpoint was called are among them. -/
theorem checkpoint_shows_cut (env : Env) (dir copy : String) {since upto : Nat}
    {v : Volume Path} (h : Copying.Reached env dir copy x)
    (hdone : x.copier = .done since upto) (hv : Copying.Passing env copy x v)
    (keep : Nat → Nat) (opts : Options) :
    since ≤ upto ∧ upto ≤ x.sys.written.length ∧ NamesSettled env copy v ∧
      ∃ db w', (assemble env copy opts : M Unit DbInner) ()
          (World.start (v.crash keep)) = (.ok db, (), w') ∧
        ShowsMap env u64Max (mapAfter (x.sys.written.take upto)) db w' := by
  have hkept := h.kept
  obtain ⟨hstocked, hcov⟩ := hkept.passing hdone hv
  obtain ⟨held, _, _, _, hback⟩ := hkept
  rw [hdone] at hback
  obtain ⟨hsince, hupto, _⟩ := hback
  obtain ⟨db, w', _, hrun, hfiles, hledger, _⟩ := Stocked.opened (s := ())
    (w := World.start (v.crash keep)) (hstocked.crash keep) (World.quiet_start _)
    (by simp [World.start]) opts
  exact ⟨hsince, hupto, hstocked.namesSettled hcov, db, w', hrun, hfiles.shows hledger⟩

/-- What a finished checkpoint has counted. -/
def Copier.finished : Copier → Option (Nat × Nat)
  | .done a n => some (a, n)
  | _ => none

theorem Copier.eq_done {c : Copier} {a n : Nat} (h : c.finished = some (a, n)) :
    c = .done a n := by
  cases c with
  | done a' n' =>
      cases h
      rfl
  | _ => cases h

/-- What is shown of a checkpoint of one batch, with a second one written while it is made and
power failing at any moment while the source then writes a table with it. -/
theorem checkpoint_shows_cut_flushed :
    ∃ x y, Copying.Reached Stock.env "db" "copy" x ∧ x.copier = .done 1 1 ∧
      x.sys.written.length = 2 ∧ Copying.Step Stock.env "copy" (.go .write) x y ∧
      x.sys.w.past.length + 2 ≤ y.sys.w.past.length ∧
      ∀ v, x.sys.w.Passes y.sys.w v → NamesSettled Stock.env "copy" v ∧
        ∃ db w', (assemble Stock.env "copy" Options.default : M Unit DbInner) ()
            (World.start (v.crash fun _ => 0)) = (.ok db, (), w') ∧
          ShowsMap Stock.env u64Max (mapAfter (x.sys.written.take 1)) db w' := by
  have hrun : ((System.start Stock.env "db" Options.default).bind fun s =>
      Copying.execAll Stock.env "copy" ((System.writeSteps [([1], some [2])]).map .go ++
        Copying.checkpointErrands.take 12 ++ (System.writeSteps [([3], some [4])]).map .go ++
        Copying.checkpointErrands.drop 12 ++ [.go .freeze]) ⟨s, .away⟩).any
      (fun x => decide (x.copier.finished = some (1, 1) ∧ x.sys.written.length = 2) &&
        (Copying.exec Stock.env "copy" (.go .write) x).any fun y =>
          decide (x.sys.w.past.length + 2 ≤ y.sys.w.past.length)) = true := by
    decide +kernel
  obtain ⟨x, hreached, htest⟩ := Copying.execAll_any hrun
  obtain ⟨hends, htest⟩ := Bool.and_eq_true_iff.mp htest
  obtain ⟨hdone, hwritten⟩ := of_decide_eq_true hends
  obtain ⟨y, hy, hlong⟩ := exists_of_any htest
  have hstep := Copying.exec_step hy
  exact ⟨x, y, hreached, Copier.eq_done hdone, hwritten, hstep, of_decide_eq_true hlong,
    fun v hv => (checkpoint_shows_cut Stock.env "db" "copy" hreached (Copier.eq_done hdone)
      (Or.inr ⟨_, y, hstep, hv⟩) (fun _ => 0) Options.default).2.2⟩

/-- The source and an open copy of it. -/
def Copying.pair (s : System) (db : DbInner) (w : World) (W : List (List Record)) : Fleet Bool
  | true => { s with w := w }
  | false => System.copied db w W

/-- Let the directory of a checkpoint be opened while the source goes on, and let both run in
any order from there.  Each shows the map of its own writes, the copy's being those of the
checkpoint and what is written to the copy. -/
theorem checkpoint_independent (env : Env) (dir copy : String) {since upto : Nat}
    {opts : Options} {db : DbInner} {w : World} {f : Fleet Bool}
    (h : Copying.Reached env dir copy x) (hdone : x.copier = .done since upto)
    (hopen : (assemble env copy opts : M Unit DbInner) () x.sys.w = (.ok db, (), w))
    (hrun : Fleet.Steps env (Copying.pair x.sys db w (x.sys.written.take upto)) f) :
    x.sys.written <+: (f true).written ∧ x.sys.written.take upto <+: (f false).written ∧
      ∀ i, ShowsMap env u64Max (mapAfter (f i).written) (f i).db (f i).w := by
  obtain ⟨held, hfiles, hledger, _, hback⟩ := h.kept
  rw [hdone] at hback
  obtain ⟨_, _, hne, hstocked, _⟩ := hback
  obtain ⟨db', w', held', hrun', hfiles', hledger', hwithin, hdir⟩ :=
    hstocked.opened (s := ()) hfiles.quiet (free_of_assemble hopen) opts
  cases hrun'.symm.trans hopen
  have hapart : Fleet.Apart env (Copying.pair x.sys db w (x.sys.written.take upto)) := by
    refine ⟨fun i j => by cases i <;> cases j <;> rfl, fun i j hij => ?_, fun i => ?_⟩
    · have hdb : db.dir ≠ x.sys.db.dir := by
        rw [hdir]
        exact hne
      cases i with
      | true =>
          cases j with
          | true => exact absurd rfl hij
          | false => exact hdb.symm
      | false =>
          cases j with
          | true => exact hdb
          | false => exact absurd rfl hij
    · cases i with
      | true =>
          refine ⟨held, hfiles.elsewhere hfiles'.quiet (hwithin.mono fun p hp hin => hne ?_),
            { hledger with }⟩
          exact hp.symm.trans hin
      | false => exact ⟨held', hfiles', hledger'⟩
  obtain ⟨hapart', hmore⟩ := hapart.run hrun
  exact ⟨hmore true, hmore false, hapart'.shows⟩

/-- A copy is opened beside its source. -/
def Copying.openCopy (env : Env) (copy : String) (opts : Options) (n : Nat) (x : Copying) :
    Option System :=
  match (assemble env copy opts : M Unit DbInner) () x.sys.w with
  | (.ok db, _, w) => some (System.copied db w (x.sys.written.take n))
  | _ => none

theorem Copying.openCopy_eq_some {opts : Options} {n : Nat} {s : System}
    (h : x.openCopy env copy opts n = some s) :
    (assemble env copy opts : M Unit DbInner) () x.sys.w = (.ok s.db, (), s.w) ∧
      s = System.copied s.db s.w (x.sys.written.take n) := by
  unfold Copying.openCopy at h
  split at h
  · rename_i db u w hopen
    cases h
    exact ⟨hopen, rfl⟩
  · cases h

/-- A batch is written to the source and another to the copy. -/
theorem checkpoint_independent_diverged :
    ∃ x db w f, Copying.Reached Stock.env "db" "copy" x ∧ x.copier = .done 1 1 ∧
      (assemble Stock.env "copy" Options.default : M Unit DbInner) () x.sys.w =
        (.ok db, (), w) ∧
      Fleet.Steps Stock.env (Copying.pair x.sys db w (x.sys.written.take 1)) f ∧
      (f true).written.length = 2 ∧ (f false).written.length = 2 ∧
      ∀ i, ShowsMap Stock.env u64Max (mapAfter (f i).written) (f i).db (f i).w := by
  have hrun : ((System.start Stock.env "db" Options.default).bind fun s =>
      Copying.execAll Stock.env "copy" ((System.writeSteps [([1], some [2])]).map .go ++
        Copying.checkpointErrands) ⟨s, .away⟩).any
      (fun x => decide (x.copier.finished = some (1, 1)) &&
        (x.openCopy Stock.env "copy" Options.default 1).any fun c =>
          (System.execAll Stock.env (fun _ _ => true) (System.writeSteps [([3], some [4])])
            { x.sys with w := c.w }).any fun a =>
            decide (a.written.length = 2) &&
            (System.execAll Stock.env (fun _ _ => true) (System.writeSteps [([1], none)])
              { c with w := a.w }).any fun b => decide (b.written.length = 2)) = true := by
    decide +kernel
  obtain ⟨x, hreached, htest⟩ := Copying.execAll_any hrun
  obtain ⟨hfinished, htest⟩ := Bool.and_eq_true_iff.mp htest
  have hdone := Copier.eq_done (of_decide_eq_true hfinished)
  obtain ⟨c, hc, htest⟩ := exists_of_any htest
  obtain ⟨hopen, hcopied⟩ := Copying.openCopy_eq_some hc
  obtain ⟨a, ha, htest⟩ := exists_of_any htest
  obtain ⟨hla, htest⟩ := Bool.and_eq_true_iff.mp htest
  obtain ⟨b, hb, hlb⟩ := exists_of_any htest
  set f₀ := Copying.pair x.sys c.db c.w (x.sys.written.take 1) with hf₀
  have hstart : f₀.moved true { x.sys with w := c.w } = f₀ := by
    funext i
    cases i <;> rfl
  have hsecond : (f₀.moved true a).moved false { c with w := a.w } = f₀.moved true a := by
    funext i
    cases i with
    | true => rfl
    | false =>
        rw [hcopied]
        rfl
  have h₁ := Fleet.steps_moved (fun _ _ h => h.1) f₀ true (System.execAll_steps ha)
  have h₂ := Fleet.steps_moved (fun _ _ h => h.1) (f₀.moved true a) false
    (System.execAll_steps hb)
  rw [hstart] at h₁
  rw [hsecond] at h₂
  have hall := Relation.ReflTransGen.trans h₁ h₂
  obtain ⟨_, _, hshows⟩ := checkpoint_independent Stock.env "db" "copy" hreached hdone hopen hall
  exact ⟨x, c.db, c.w, _, hreached, hdone, hopen, hall, of_decide_eq_true hla,
    of_decide_eq_true hlb, hshows⟩

/-- The tables a checkpoint without a manifest has linked so far. -/
def Copying.linkedIds (x : Copying) : Option (List Nat) :=
  match x.copier with
  | .linking _ _ tables left => some ((tables.take (tables.length - left.length)).map SsTable.id)
  | .stated _ _ _ => some (x.sys.db.sstables.map SsTable.id)
  | _ => none

/-- Linked tables without a manifest are a directory to migrate. -/
theorem Linked.phase2 {v : Volume Path} {tables : List (Nat × List Record)}
    (h : Linked env copy v tables) (hs : v.Sound)
    (hids : (tables.map Prod.fst).Pairwise (· < ·)) (hsmall : ∀ t ∈ tables, t.1 < 2 ^ 64)
    (hfit : TablesFit env tables) : Phase2 env copy v tables [] := by
  have habsent : ∀ name : FileName, (∀ id, name ≠ .sst id) → v.lookup ⟨copy, name⟩ = none := by
    intro name hname
    cases hl : v.lookup ⟨copy, name⟩ with
    | none => rfl
    | some j =>
        obtain ⟨x, _, heq⟩ := h.only _ j rfl hl
        simp only [sstPath, Path.mk.injEq, true_and] at heq
        exact absurd heq (hname x.1)
  have hwal : v.file (walPath copy) = none := file_eq_none_iff.mpr (habsent .wal (by simp))
  refine ⟨hs, habsent .current (by simp), hids, hsmall, hfit, h.files, fun p i id hp hl hid => ?_,
    ?_, fun x hx => ?_⟩
  · obtain ⟨t, ht, rfl⟩ := h.only p i hp hl
    cases hid
    exact ⟨rfl, List.mem_map_of_mem ht⟩
  · unfold walBytes
    rw [hwal]
    rfl
  · rw [hwal] at hx
    cases hx

/-- What is linked while the manifest is not written. -/
theorem Copying.Kept.linked (h : x.Kept env copy) {ids : List Nat} (hids : x.linkedIds = some ids) :
    ∃ tables, Phase2 env copy x.sys.w.vol tables [] ∧ tables.map Prod.fst = ids := by
  obtain ⟨held, hfiles, hledger, _, hback⟩ := h
  have hread : x.sys.db.sstables.map SsTable.id = held.tables.map Prod.fst :=
    TablesRead.ids hfiles.read
  have hphase : ∀ {a n k}, Locked x.sys copy a n →
      Linked env copy x.sys.w.vol (held.tables.take k) →
      Phase2 env copy x.sys.w.vol (held.tables.take k) [] := by
    intro a n k hlock hlinked
    have hdescribes := hfiles.describes hledger hlock
    refine hlinked.phase2 hfiles.sound ?_ (fun t ht => ?_) ?_
    · rw [List.map_take]
      exact hfiles.ids.sublist (List.take_sublist _ _)
    · exact lt_trans (hdescribes.above t (List.mem_of_mem_take ht)) hdescribes.fits.sst
    · exact ⟨fun t ht => hfiles.fit.fits t (List.mem_of_mem_take ht),
        fun t ht => hfiles.fit.sorted t (List.mem_of_mem_take ht)⟩
  cases hcopier : x.copier with
  | linking a n tables left =>
      rw [hcopier] at hback
      obtain ⟨hlock, rfl, k, rfl, hlinked⟩ := hback
      refine ⟨_, hphase hlock hlinked, ?_⟩
      simp only [Copying.linkedIds, hcopier, Option.some.injEq] at hids
      have hlen : x.sys.db.sstables.length = held.tables.length :=
        List.Forall₂.length_eq hfiles.read
      rw [← hids, List.map_take, List.map_take, hread, List.take_eq_take_iff, List.length_drop,
        List.length_map]
      omega
  | stated a n st =>
      rw [hcopier] at hback
      obtain ⟨hlock, hlinked, _⟩ := hback
      rw [← List.take_length (l := held.tables)] at hlinked
      refine ⟨_, hphase hlock hlinked, ?_⟩
      simp only [Copying.linkedIds, hcopier, Option.some.injEq] at hids
      rw [← hids, hread, List.take_length]
  | _ =>
      simp only [Copying.linkedIds, hcopier] at hids
      cases hids

/-- A checkpoint that is cut short before `CURRENT` is in place is not refused: its directory
opens with the tables linked so far, whatever else was written, and hands out sequence numbers
from 0 again. -/
theorem interrupted_checkpoint_opens (env : Env) (dir copy : String) {ids : List Nat}
    {v : Volume Path} (h : Copying.Reached env dir copy x) (hids : x.linkedIds = some ids)
    (hv : v = x.sys.w.vol ∨
      ∃ y, Copying.Step env copy .record x y ∧ x.sys.w.Passes y.sys.w v)
    (hcur : v.lookup (currentPath copy) = none) (keep : Nat → Nat) (opts : Options) :
    ∃ db w', (assemble env copy opts : M Unit DbInner) () (World.start (v.crash keep)) =
        (.ok db, (), w') ∧
      db.sstables.map SsTable.id = ids ∧ db.active.iter = [] ∧ db.nextSeq = 0 := by
  have hkept := h.kept
  obtain ⟨tables, hphase, rfl⟩ := hkept.linked hids
  have hphase' : Phase2 env copy v tables [] := by
    rcases hv with rfl | ⟨y, hstep, hpasses⟩
    · exact hphase
    · obtain ⟨held, hfiles, hledger, _, hback⟩ := hkept
      cases hstep with
      | record stage run =>
          rw [stage] at hback
          obtain ⟨hlock, hlinked, hdescribes⟩ := hback
          obtain ⟨w, hrun, _, _, hgrew⟩ := hfiles.afterManifest hlock hlinked hdescribes
          cases hrun.symm.trans run
          rcases hgrew.of_passes hpasses with hsame | ⟨_, hnamed, _⟩
          · exact hphase.same hsame (by simp [FileName.parseSstId]) (by simp) (by simp)
          · obtain ⟨c, hc⟩ := hnamed.current
            rw [hc.name] at hcur
            cases hcur
  obtain ⟨w', db, i, hrun, hopen, _⟩ := assemble_migrating (s := ())
    (w := World.start (v.crash keep)) opts (World.quiet_start _) (by simp [World.start])
    (hphase'.crash keep)
  have hmem := Prod.ext_iff.mp hopen.memory
  refine ⟨db, w', hrun, TablesOpen.ids hopen.opened, ?_, ?_⟩
  · rw [show db.active = _ from hmem.1]
    rfl
  · rw [show db.nextSeq = _ from hmem.2, applyAll_migrationEdits]
    rfl

/-- The first of two tables is linked. -/
theorem interrupted_checkpoint_opens_halfway :
    ∃ x, Copying.Reached Stock.env "db" "copy" x ∧ x.linkedIds = some [0] ∧
      x.sys.db.sstables.map SsTable.id = [0, 1] ∧
      ∃ db w', (assemble Stock.env "copy" Options.default : M Unit DbInner) ()
          (World.start (x.sys.w.vol.crash fun _ => 0)) = (.ok db, (), w') ∧
        db.sstables.map SsTable.id = [0] ∧ db.active.iter = [] ∧ db.nextSeq = 0 := by
  have hrun : ((System.start Stock.env "db" Options.default).bind fun s =>
      Copying.execAll Stock.env "copy" ((System.writeSteps [([1], some [2])] ++
        System.flushSteps ++ System.writeSteps [([3], some [4])]).map .go ++
        Copying.checkpointErrands.take 12) ⟨s, .away⟩).any
      (fun x => decide (x.linkedIds = some [0] ∧ x.sys.db.sstables.map SsTable.id = [0, 1] ∧
        x.sys.w.vol.lookup (currentPath "copy") = none)) = true := by
    decide +kernel
  obtain ⟨x, hreached, htest⟩ := Copying.execAll_any hrun
  obtain ⟨hids, htables, hcur⟩ := of_decide_eq_true htest
  exact ⟨x, hreached, hids, htables, interrupted_checkpoint_opens Stock.env "db" "copy" hreached
    hids (Or.inl rfl) hcur (fun _ => 0) Options.default⟩

end Results

end LsmKv
