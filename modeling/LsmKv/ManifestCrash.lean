import LsmKv.LogFiles

/-!
# The manifest across generations and crashes

`ManifestRuns` is the life of a manifest: opens, each of which rolls it over into
a new generation, appends, and crashes at any point of either.  Beside the volume
it keeps what the user knows: the state the last completed open returned, the
edits handed over since, and how many of them were acknowledged.

**Results.**
* `Rests.opens`: a manifest at rest is opened, and a crash on the way leaves one
  that the next open reads the same.
* `live_append`: so does a crash inside an append, with some of its edits.
* `manifest_crash_consistent`: every open of every run returns what the last one
  did with a part of the later edits applied that has all acknowledged ones.
-/

namespace LsmKv

open Foundation Volume

/-- A manifest between two calls, and what its user knows of it. -/
structure ManifestSite where
  vol : Volume Path
  /-- The handle of the last completed open, unless power was lost since. -/
  handle : Option Manifest
  /-- What that open returned. -/
  base : ManifestState
  /-- The edits handed to `append_batch` since. -/
  appended : List VersionEdit
  /-- How many of them were in calls that returned Ok. -/
  acked : Nat

/-- The runs of a manifest that has an edit.  It is found in a directory, in any
format, or was created there; every call starts from the volume the last one
left, and a crash strikes at any volume a call passes through. -/
inductive ManifestRuns (env : Env) (dir : String) : ManifestSite → Prop
  | found {v : Volume Path} {g c i : Nat} {kind : Kind} {edits : List VersionEdit}
      (sound : v.Sound) (generation : g ≤ u64Max)
      (current : v.Bound (currentPath dir) c (currentBytes g) (currentBytes g).length)
      (format : kind ∈ manifestFormats)
      (told : Told manifestMagic (manifestBytesOf env kind edits) kind)
      (holds : v.Bound (manifestPath dir g) i (manifestBytesOf env kind edits)
        (manifestBytesOf env kind edits).length)
      (some_edit : edits ≠ []) (fits : ∀ e ∈ edits, e.Fits) :
      ManifestRuns env dir ⟨v, none, applyAll edits, [], 0⟩
  | created {v : Volume Path} {m m' : Manifest} {w w' : World} {edits : List VersionEdit}
      (sound : v.Sound)
      (run : (Manifest.create dir : M Unit Manifest) () (World.start v) = (.ok m, (), w))
      (first : Manifest.appendBatch env edits m w = (.ok (), m', w'))
      (some_edit : edits ≠ []) (fits : ∀ e ∈ edits, e.Fits) :
      ManifestRuns env dir ⟨w'.vol, some m', applyAll edits, [], 0⟩
  | opened {s : ManifestSite} {m : Manifest} {st : ManifestState} {w' : World}
      (earlier : ManifestRuns env dir s)
      (run : (Manifest.openManifest env dir : M Unit _) () (World.start s.vol) =
        (.ok (m, st), (), w')) :
      ManifestRuns env dir ⟨w'.vol, some m, st, [], 0⟩
  | appended {s : ManifestSite} {m m' : Manifest} {w' : World} {edits : List VersionEdit}
      (earlier : ManifestRuns env dir s) (open_ : s.handle = some m) (fits : ∀ e ∈ edits, e.Fits)
      (run : Manifest.appendBatch env edits m (World.start s.vol) = (.ok (), m', w')) :
      ManifestRuns env dir
        { s with
          vol := w'.vol
          handle := some m'
          appended := s.appended ++ edits
          acked := (s.appended ++ edits).length }
  | openCrashed {s : ManifestSite} {r : Except Error (Manifest × ManifestState)} {w' : World}
      {v : Volume Path} (earlier : ManifestRuns env dir s)
      (run : (Manifest.openManifest env dir : M Unit _) () (World.start s.vol) = (r, (), w'))
      (passed : v ∈ w'.visited) (keep : Nat → Nat) :
      ManifestRuns env dir { s with vol := v.crash keep, handle := none }
  | appendCrashed {s : ManifestSite} {m m' : Manifest} {r : Except Error Unit} {w' : World}
      {v : Volume Path} {edits : List VersionEdit} (earlier : ManifestRuns env dir s)
      (open_ : s.handle = some m) (fits : ∀ e ∈ edits, e.Fits)
      (run : Manifest.appendBatch env edits m (World.start s.vol) = (r, m', w'))
      (passed : v ∈ w'.visited) (keep : Nat → Nat) :
      ManifestRuns env dir
        { s with vol := v.crash keep, handle := none, appended := s.appended ++ edits }

/-- `CURRENT` names a manifest that replays to `st`, and both are durable. -/
structure Rests (env : Env) (dir : String) (v : Volume Path) (st : ManifestState) : Prop where
  sound : v.Sound
  named : ∃ g c i b, g ≤ u64Max ∧
    v.Bound (currentPath dir) c (currentBytes g) (currentBytes g).length ∧
    v.Bound (manifestPath dir g) i b b.length ∧
    replayManifestBytes env (manifestPath dir g) b = .ok st

section Steps

variable {env : Env} {dir : String} {v : Volume Path} {st : ManifestState} {g i : Nat}
variable {edits : List VersionEdit}

theorem rests_of_live (hs : v.Sound) (hg : g ≤ u64Max) (hlive : Manifest.Live env dir g i edits v)
    (hfit : ∀ e ∈ edits, e.Fits) : Rests env dir v (applyAll edits) := by
  obtain ⟨c, hc⟩ := hlive.named.current
  exact ⟨hs, g, c, i, _, hg, hc, hlive.holds, replayManifest_manifestBytes hfit⟩

theorem Rests.crash (h : Rests env dir v st) (keep : Nat → Nat) :
    Rests env dir (v.crash keep) st := by
  obtain ⟨g, c, i, b, hg, hc, hb, hr⟩ := h.named
  exact ⟨h.sound.crash keep, g, c, i, b, hg, hc.crash_synced le_rfl keep,
    hb.crash_synced le_rfl keep, hr⟩

/-- On the way of a rollover `CURRENT` names the old generation or the new one. -/
theorem rests_of_rolling {u : Volume Path} {c j : Nat} {b : Bytes} (hs : v.Sound) (hg : g ≤ u64Max)
    (hc : v.Bound (currentPath dir) c (currentBytes g) (currentBytes g).length)
    (hb : v.Bound (manifestPath dir g) i b b.length)
    (hr : replayManifestBytes env (manifestPath dir g) b = .ok st)
    (hu : Manifest.Rolling env dir g (Manifest.nextGen g) j st v u) : Rests env dir u st := by
  rcases hu with hbefore | ⟨hafter, hlive⟩
  · have hold : manifestPath dir g ∉
        [manifestPath dir (Manifest.nextGen g), currentTmpPath dir] := by
      simpa [Manifest.manifestPath_inj] using Ne.symm (Manifest.nextGen_ne g)
    exact ⟨hbefore.sound hs, g, c, i, b, hg, hc.same hbefore (by simp), hb.same hbefore hold, hr⟩
  · have := rests_of_live (hafter.sound hs) (Manifest.nextGen_le g) hlive
      (snapshotEdits_fit (fits_of_replay hr))
    rwa [applyAll_snapshotEdits] at this

/-- A manifest at rest is opened, and what the open leaves on its way is at rest
with the same state. -/
theorem Rests.opens (h : Rests env dir v st) :
    ∃ g j w', (Manifest.openManifest env dir : M Unit (Manifest × ManifestState)) ()
        (World.start v) = (.ok (Manifest.handle dir g j, st), (), w') ∧
      g ≤ u64Max ∧ w'.vol.Sound ∧ Manifest.Live env dir g j st.snapshotEdits w'.vol ∧
      (∀ e ∈ st.snapshotEdits, e.Fits) ∧ ∀ u ∈ w'.visited, Rests env dir u st := by
  obtain ⟨g, c, i, b, hg, hc, hb, hr⟩ := h.named
  obtain ⟨w', j, hrun, hlive, _, _, hsame, hgrew⟩ := Manifest.openManifest_quiet (s := ()) env
    (World.quiet_start v) h.sound hg hc hb hr
  have hfit := snapshotEdits_fit (fits_of_replay hr)
  have hnew := Manifest.nextGen_le g
  refine ⟨_, j, w', hrun, hnew, hsame.sound h.sound, hlive, hfit, ?_⟩
  intro u hu
  rcases hgrew.mem_visited hu with hu | hu
  · rw [List.mem_singleton.mp (show u ∈ [v] from hu)]
    exact h
  · exact rests_of_rolling h.sound hg hc hb hr hu

/-- An append to a manifest that has edits returns Ok, and a crash on its way
leaves a manifest with some first part of its edits. -/
theorem live_append (hs : v.Sound) (hg : g ≤ u64Max) (hlive : Manifest.Live env dir g i edits v)
    (hne : edits ≠ []) (hfit : ∀ e ∈ edits, e.Fits) {batch : List VersionEdit}
    (hbatch : ∀ e ∈ batch, e.Fits) :
    ∃ w', Manifest.appendBatch env batch (Manifest.handle dir g i) (World.start v) =
        (.ok (), Manifest.handle dir g i, w') ∧
      w'.vol.Sound ∧ Manifest.Live env dir g i (edits ++ batch) w'.vol ∧
      ∀ u ∈ w'.visited, ∀ keep, ∃ n,
        Rests env dir (u.crash keep) (applyAll (edits ++ batch.take n)) := by
  obtain ⟨w', hrun, hb, hsame, hgrew⟩ := Manifest.appendBatch_quiet env dir g [] batch
    (World.quiet_start v) hs (by simp) hlive.holds
  rw [List.nil_append, ← manifestBytes_append] at hb
  obtain ⟨c, hc⟩ := hlive.named.current
  refine ⟨w', hrun, hsame.sound hs, ⟨⟨⟨c, hc.same hsame (by simp)⟩,
    (hsame.names _ (by simp)).trans hlive.named.scratch⟩, hb⟩, ?_⟩
  intro u hu keep
  rcases hgrew.mem_visited hu with hu | ⟨husame, k, n, hn, hpart⟩
  · refine ⟨0, ?_⟩
    rw [List.mem_singleton.mp (show u ∈ [v] from hu), List.take_zero, List.append_nil]
    exact (rests_of_live hs hg hlive hfit).crash keep
  · obtain ⟨m, hm, hcut⟩ := hpart.crash keep
    have hlen : (manifestBytes env edits).length ≤ m := le_trans hn hm
    rw [List.nil_append, List.take_append, List.take_of_length_le hlen, List.take_take] at hcut
    exact ⟨_, (husame.sound hs).crash keep, g, c, i, _, hg,
      (hc.same husame (by simp)).crash_synced le_rfl keep, hcut,
      replayManifest_cut hne hfit hbatch _⟩

end Steps

/-- The invariant of a run: what rests on the volume is the base and some part of
the later edits, and a handle's manifest has all of them. -/
structure SiteHolds (env : Env) (dir : String) (s : ManifestSite) : Prop where
  rests : ∃ n, s.acked ≤ n ∧ n ≤ s.appended.length ∧
    Rests env dir s.vol ((s.appended.take n).foldl ManifestState.apply s.base)
  handle : ∀ m, s.handle = some m → ∃ g i edits, m = Manifest.handle dir g i ∧ g ≤ u64Max ∧
    edits ≠ [] ∧ (∀ e ∈ edits, e.Fits) ∧ Manifest.Live env dir g i edits s.vol ∧
    applyAll edits = s.appended.foldl ManifestState.apply s.base

section Run

variable {env : Env} {dir : String} {s : ManifestSite}

/-- A site with a handle, from the edits its manifest holds. -/
theorem siteHolds_of_live {g i : Nat} {edits : List VersionEdit} {m : Manifest}
    (hm : m = Manifest.handle dir g i) (hs : s.vol.Sound) (hg : g ≤ u64Max) (hne : edits ≠ [])
    (hfit : ∀ e ∈ edits, e.Fits) (hlive : Manifest.Live env dir g i edits s.vol)
    (hst : applyAll edits = s.appended.foldl ManifestState.apply s.base)
    (hacked : s.acked ≤ s.appended.length) (hhandle : s.handle = some m) :
    SiteHolds env dir s := by
  refine ⟨⟨s.appended.length, hacked, le_rfl, ?_⟩, ?_⟩
  · rw [List.take_length, ← hst]
    exact rests_of_live hs hg hlive hfit
  · intro m' hm'
    rw [hhandle] at hm'
    cases hm'
    exact ⟨g, i, edits, hm, hg, hne, hfit, hlive, hst⟩

theorem snapshotEdits_ne_nil (st : ManifestState) : st.snapshotEdits ≠ [] := by
  simp [ManifestState.snapshotEdits]

/-- Every site of every run keeps the invariant. -/
theorem siteHolds_of_runs (h : ManifestRuns env dir s) : SiteHolds env dir s := by
  induction h with
  | found sound generation current format told holds some_edit fits =>
      refine ⟨⟨0, le_rfl, le_rfl, sound, _, _, _, _, generation, current, holds, ?_⟩, by simp⟩
      exact replayManifest_format _ format told fits
  | @created v m m' w w' edits sound run first some_edit fits =>
      obtain ⟨w₁, i, hrun, hlive, hsame, hgrew⟩ := Manifest.create_quiet (s := ()) env dir
        (World.quiet_start v) sound
      rw [run] at hrun
      cases hrun
      have hs₁ := hsame.sound sound
      obtain ⟨w₂, hrun₂, hb₂, hsame₂, _⟩ := Manifest.appendBatch_quiet env dir 0 [] edits
        hgrew.quiet hs₁ (by simp) hlive.holds
      rw [show Manifest.handleWith dir 0 i [] = Manifest.handle dir 0 i from rfl, first] at hrun₂
      cases hrun₂
      rw [List.nil_append, ← manifestBytes_append, List.nil_append] at hb₂
      obtain ⟨c, hc⟩ := hlive.named.current
      exact siteHolds_of_live rfl (hsame₂.sound hs₁) (by decide) some_edit fits
        ⟨⟨⟨c, hc.same hsame₂ (by simp)⟩,
          (hsame₂.names _ (by simp)).trans hlive.named.scratch⟩, hb₂⟩ rfl le_rfl rfl
  | opened _ run ih =>
      obtain ⟨n, _, _, hrests⟩ := ih.rests
      obtain ⟨g, j, w₁, hrun, hg, hs, hlive, hfit, _⟩ := hrests.opens
      rw [run] at hrun
      cases hrun
      exact siteHolds_of_live rfl hs hg (snapshotEdits_ne_nil _) hfit hlive
        (applyAll_snapshotEdits _) le_rfl rfl
  | @appended s m m' w' batch _ open_ fits run ih =>
      obtain ⟨g, i, edits, rfl, hg, hne, hfit, hlive, hst⟩ := ih.handle m open_
      obtain ⟨_, _, _, hrests⟩ := ih.rests
      obtain ⟨w₁, hrun, hs, hlive₁, _⟩ := live_append hrests.sound hg hlive hne hfit fits
      rw [run] at hrun
      cases hrun
      refine siteHolds_of_live rfl hs hg (by simp [hne])
        (fun e he => (List.mem_append.mp he).elim (hfit e) (fits e)) hlive₁ ?_ le_rfl rfl
      rw [applyAll_append, hst, List.foldl_append]
  | openCrashed _ run passed keep ih =>
      obtain ⟨n, hacked, hn, hrests⟩ := ih.rests
      obtain ⟨g, j, w₁, hrun, _, _, _, _, hway⟩ := hrests.opens
      rw [run] at hrun
      cases hrun
      exact ⟨⟨n, hacked, hn, (hway _ passed).crash keep⟩, by simp⟩
  | @appendCrashed s m m' r w' v batch _ open_ fits run passed keep ih =>
      obtain ⟨g, i, edits, rfl, hg, hne, hfit, hlive, hst⟩ := ih.handle m open_
      obtain ⟨n₀, hacked, hn₀, hrests⟩ := ih.rests
      obtain ⟨w₁, hrun, _, _, hway⟩ := live_append hrests.sound hg hlive hne hfit fits
      rw [run] at hrun
      cases hrun
      obtain ⟨n, hn⟩ := hway v passed keep
      have hle : s.acked ≤ s.appended.length + (batch.take n).length := by omega
      refine ⟨⟨s.appended.length + (batch.take n).length, hle, ?_, ?_⟩, by simp⟩
      · rw [List.length_append, List.length_take]
        omega
      · have htake : (s.appended ++ batch).take (s.appended.length + (batch.take n).length) =
            s.appended ++ batch.take n := by
          rw [List.take_length_add_append, List.length_take]
          simp
        rw [applyAll_append, hst, ← List.foldl_append] at hn
        show Rests env dir _ (((s.appended ++ batch).take _).foldl _ _)
        rw [htake]
        exact hn

end Run

/-- In every run of a manifest with an edit, an open succeeds and returns what
the last completed one did, with a first part of the edits handed over since
applied in order, among them all that were acknowledged; a crash anywhere inside
that open does not change what the next one returns; and appends succeed. -/
theorem manifest_crash_consistent (env : Env) (dir : String) (s : ManifestSite)
    (h : ManifestRuns env dir s) :
    (∃ m st w', (Manifest.openManifest env dir : M Unit (Manifest × ManifestState)) ()
        (World.start s.vol) = (.ok (m, st), (), w') ∧
      (∃ n, s.acked ≤ n ∧ n ≤ s.appended.length ∧
        st = (s.appended.take n).foldl ManifestState.apply s.base) ∧
      ∀ v ∈ w'.visited, ∀ keep, ∃ m' w'',
        (Manifest.openManifest env dir : M Unit (Manifest × ManifestState)) ()
          (World.start (v.crash keep)) = (.ok (m', st), (), w'')) ∧
    ∀ m, s.handle = some m → ∀ edits : List VersionEdit, (∀ e ∈ edits, e.Fits) →
      ∃ m' w', Manifest.appendBatch env edits m (World.start s.vol) = (.ok (), m', w') := by
  have hinv := siteHolds_of_runs h
  obtain ⟨n, hacked, hn, hrests⟩ := hinv.rests
  refine ⟨?_, ?_⟩
  · obtain ⟨g, j, w', hrun, _, _, _, _, hway⟩ := hrests.opens
    refine ⟨_, _, w', hrun, ⟨n, hacked, hn, rfl⟩, ?_⟩
    intro v hv keep
    obtain ⟨g', j', w'', hrun', _⟩ := ((hway v hv).crash keep).opens
    exact ⟨_, w'', hrun'⟩
  · intro m hm edits hedits
    obtain ⟨g, i, held, rfl, hg, hne, hfit, hlive, _⟩ := hinv.handle m hm
    obtain ⟨w', hrun, _⟩ := live_append hrests.sound hg hlive hne hfit hedits
    exact ⟨_, w', hrun⟩

/-- A manifest created with one edit has an append, a crash anywhere inside another one, and an
open that rolls it over: the open after that returns what it did. -/
theorem manifest_crash_consistent_rolled :
    ∃ m m' v w, Manifest.appendBatch Stock.env [.addTable 1, .setNextSstId 2] m (World.start v) =
        (.ok (), m', w) ∧
      ∀ u ∈ w.visited, ∀ keep, ∃ m₁ st w₁,
        (Manifest.openManifest Stock.env "db" : M Unit _) () (World.start (u.crash keep)) =
          (.ok (m₁, st), (), w₁) ∧
        (∃ n, 1 ≤ n ∧ n ≤ 3 ∧ st = (([.addTable 0, .addTable 1, .setNextSstId 2] :
          List VersionEdit).take n).foldl ManifestState.apply (applyAll [.setNextSstId 1])) ∧
        ManifestRuns Stock.env "db" ⟨w₁.vol, some m₁, st, [], 0⟩ ∧
        ∃ m₂ w₂, (Manifest.openManifest Stock.env "db" : M Unit _) () (World.start w₁.vol) =
          (.ok (m₂, st), (), w₂) := by
  obtain ⟨w, i, hrun, hlive, hsame, hgrew⟩ := Manifest.create_quiet (s := ()) Stock.env "db"
    (World.quiet_start Volume.empty) sound_empty
  obtain ⟨w', hfirst, _⟩ := Manifest.appendBatch_quiet Stock.env "db" 0 [] [.setNextSstId 1]
    hgrew.quiet (hsame.sound sound_empty) (by simp) hlive.holds
  have hcreated := ManifestRuns.created sound_empty hrun hfirst (by simp) (by decide)
  obtain ⟨m, w₁, hacked⟩ := (manifest_crash_consistent Stock.env "db" _ hcreated).2 _ rfl
    [.addTable 0] (by decide)
  have happended := hcreated.appended rfl (by decide) hacked
  obtain ⟨m', w₂, hcut⟩ := (manifest_crash_consistent Stock.env "db" _ happended).2 _ rfl
    [.addTable 1, .setNextSstId 2] (by decide)
  refine ⟨m, m', w₁.vol, w₂, hcut, fun u hu keep => ?_⟩
  have hcrashed := happended.appendCrashed rfl (by decide) hcut hu keep
  obtain ⟨⟨m₁, st, w₃, hopen, hst, _⟩, _⟩ := manifest_crash_consistent Stock.env "db" _ hcrashed
  have hrolled := hcrashed.opened hopen
  obtain ⟨⟨m₂, st', w₄, hagain, ⟨n, _, _, hsame⟩, _⟩, _⟩ :=
    manifest_crash_consistent Stock.env "db" _ hrolled
  rw [List.take_nil] at hsame
  cases hsame
  exact ⟨m₁, st, w₃, hopen, hst, hrolled, m₂, w₄, hagain⟩

end LsmKv
