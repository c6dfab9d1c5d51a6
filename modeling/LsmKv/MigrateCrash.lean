import LsmKv.Migrate
import LsmKv.Stock

/-!
# A crash during the first open

`Manifest::create` publishes `CURRENT` before the edits that name the tables are
in the manifest, and the open that follows a crash takes tables no edit names
for orphans.  The next open therefore serves all tables only if the crash came
before `CURRENT` or left the edits whole (`Settled`); with no tables at all it
may also have left none of them.

**Results.**
* `servesAll_firstOpen_iff`: this is exactly when it does.
* `first_open_crash_deletes_table`: a crash behind the rename of `CURRENT` costs
  a table its file.
-/

namespace LsmKv

open Foundation Volume

/-- The next open of a directory succeeds and serves `tables` from their files. -/
def ServesAll (env : Env) (dir : String) (opts : Options) (v : Volume Path)
    (tables : List (Nat × List Record)) : Prop :=
  ∃ db w', (assemble env dir opts : M Unit DbInner) () (World.start v) = (.ok db, (), w') ∧
    TablesOpen env dir opts.bloomEnabled w'.vol db.sstables tables

/-- `CURRENT` is not there, or the edits that name the tables are there whole;
with no tables, none of them will do. -/
def Settled (env : Env) (dir : String) (v : Volume Path)
    (tables : List (Nat × List Record)) : Prop :=
  v.lookup (currentPath dir) = none ∨
    (v.file (manifestPath dir 0)).map Inode.bytes =
      some (manifestBytes env (migrationEdits (tables.map Prod.fst))) ∨
    (tables = [] ∧ (v.file (manifestPath dir 0)).map Inode.bytes = some (manifestBytes env []))

section Crash

variable {env : Env} {dir : String} {v v₀ : Volume Path}
variable {tables : List (Nat × List Record)} {log : List Record}

/-- A log at rest, and one whose header was being written, replay as before. -/
theorem replay_crash_of_logKept (hkept : LogKept dir v₀ v)
    (hlog : replayOption env (walBytes v₀ dir) = .ok log)
    (hrest : ∀ x, v₀.file (walPath dir) = some x → x.synced = x.bytes.length)
    (keep : Nat → Nat) : replayOption env (walBytes (v.crash keep) dir) = .ok log := by
  unfold walBytes at hlog ⊢
  rcases hkept with hfile | ⟨hnone, x, hx, hpre⟩
  · cases hv : v₀.file (walPath dir) with
    | none =>
        rw [file_crash_none keep (hfile.trans hv)]
        rw [hv] at hlog
        exact hlog
    | some x =>
        have hx : x = ⟨x.bytes, x.bytes.length⟩ := by rw [← hrest x hv]
        rw [hx] at hv
        rw [file_crash_of_synced keep (hfile.trans hv)]
        rw [hv] at hlog
        exact hlog
  · have hnil : log = [] := by
      unfold walBytes at hnone
      cases hv : (v₀.file (walPath dir)).map Inode.bytes with
      | none =>
          rw [hv] at hlog
          cases hlog
          rfl
      | some b =>
          rw [hv] at hlog hnone
          rw [show b = [] from hnone] at hlog
          cases hlog
          rfl
    obtain ⟨n, _, hn⟩ := file_crash_cut keep hx
    obtain ⟨t, ht⟩ := hpre
    have hcut : x.bytes.take n = (logBytes env newestLog []).take (min n x.bytes.length) := by
      rw [logBytes_nil, ← ht, List.take_append_of_le_length (min_le_right _ _),
        ← List.take_take, List.take_length]
    rw [hn, hnil]
    show replayBytes env (x.bytes.take n) = .ok []
    rw [hcut, replayBytes_take (by simp)]
    simp

theorem Phase2.crash (h : Phase2 env dir v tables log) (keep : Nat → Nat) :
    Phase2 env dir (v.crash keep) tables log :=
  { sound := h.sound.crash keep
    unnamed := h.unnamed
    ids := h.ids
    small := h.small
    fit := h.fit
    files := fun t ht => by
      obtain ⟨i, hb⟩ := h.files t ht
      exact ⟨i, hb.crash_synced le_rfl keep⟩
    listed := h.listed
    log := replay_crash_of_logKept (Or.inl rfl) h.log h.rest keep
    rest := fun x hx => by
      cases hv : v.file (walPath dir) with
      | none =>
          rw [file_crash_none keep hv] at hx
          cases hx
      | some y =>
          obtain ⟨n, _, hn⟩ := file_crash_cut keep hv
          rw [hn] at hx
          cases hx
          rfl }

end Crash

section Reopen

variable {env : Env} {dir : String} {opts : Options} {v : Volume Path}
variable {tables : List (Nat × List Record)} {log : List Record}

/-- A manifest that does not replay fails the open. -/
theorem assemble_torn (opts : Options) {c n i m : Nat} {b : Bytes} {e : Error} (hs : v.Sound)
    (hcur : v.Bound (currentPath dir) c (currentBytes 0) n)
    (hman : v.Bound (manifestPath dir 0) i b m)
    (hbad : replayManifestBytes env (manifestPath dir 0) b = .error e) :
    ∃ w', (assemble env dir opts : M Unit DbInner) () (World.start v) = (.error e, (), w') ∧
      ∀ u ∈ w'.visited, SameExcept [lockPath dir] v u := by
  have hq := World.quiet_start v
  obtain ⟨w₁, hrun₁, hsame₁, hgrew₁⟩ := acquireDirLock_quiet (s := ()) dir hq hs
    (by simp [World.start])
  have hcur₁ := hcur.same hsame₁ (by simp)
  have hman₁ := hman.same hsame₁ (by simp)
  have hreplay := Manifest.replay_quiet env (s := ()) hgrew₁.quiet hman₁
  rw [hbad] at hreplay
  have hopen : (Manifest.openManifest env dir : M Unit (Manifest × ManifestState)) () w₁ =
      (.error e, (), w₁) := by
    unfold Manifest.openManifest
    rw [M.bind_ok (Manifest.readCurrent_quiet hgrew₁.quiet (by decide) hcur₁),
      M.bind_error hreplay]
  have hrecover : (recover env dir opts : M Unit DbInner) () w₁ = (.error e, (), w₁) := by
    rw [recover_named (by rw [hcur₁.name]; simp), M.bind_error hopen]
  refine ⟨_, assemble_error hrun₁ hrecover, fun u hu => ?_⟩
  rcases hgrew₁.mem_visited (show u ∈ w₁.visited from hu) with hu | hu
  · rw [List.mem_singleton.mp (show u ∈ [v] from hu)]
    exact .refl _ _
  · exact hu

/-- What an open makes of a directory whose manifest has some part of the edits
of a migration. -/
theorem servesAll_named_iff {c i k n m : Nat} (hs : v.Sound)
    (hids : (tables.map Prod.fst).Pairwise (· < ·)) (hsmall : ∀ t ∈ tables, t.1 < 2 ^ 64)
    (hfit : TablesFit env tables)
    (hfiles : ∀ t ∈ tables, ∃ i,
      v.Bound (sstPath dir t.1) i (tableBytes env t.2) (tableBytes env t.2).length)
    (hlog : replayOption env (walBytes v dir) = .ok log)
    (hcur : v.Bound (currentPath dir) c (currentBytes 0) n)
    (hman : v.Bound (manifestPath dir 0) i
      (manifestFront ++ (editFrames env (migrationEdits (tables.map Prod.fst))).take k) m) :
    ServesAll env dir opts v tables ↔ Settled env dir v tables := by
  set ids := tables.map Prod.fst with hidsdef
  set edits := migrationEdits ids with hedits
  have hefit : ∀ e ∈ edits, e.Fits := by
    refine migrationEdits_fit fun id hid => ?_
    obtain ⟨t, ht, rfl⟩ := List.mem_map.mp hid
    exact hsmall t ht
  have hlen : edits.length = tables.length + 1 := by simp [hedits, migrationEdits, hidsdef]
  have hbytes : (v.file (manifestPath dir 0)).map Inode.bytes =
      some (manifestFront ++ (editFrames env edits).take k) := by rw [hman.file]; rfl
  have hlookup : v.lookup (currentPath dir) ≠ none := by rw [hcur.name]; simp
  have hframes := length_editFrames env edits
  -- whether the open goes through depends on the first frame
  by_cases hread : wholeEdits env edits k ≠ 0 ∨ k = 0
  · set j := wholeEdits env edits k with hj
    have hjle : j ≤ edits.length := wholeEdits_le env edits k
    have himg : Image env dir v (applyAll (edits.take j)) (tables.take (j - 1)) log :=
      { sound := hs
        manifest := ⟨0, c, n, i, _, m, by decide, hcur, hman, replayManifest_take hefit k hread⟩
        ids := by rw [hedits, keys_migrationEdits_take hids, hidsdef, List.map_take]
        fit := ⟨fun t ht => hfit.fits t (List.mem_of_mem_take ht),
          fun t ht => hfit.sorted t (List.mem_of_mem_take ht)⟩
        files := fun t ht => hfiles t (List.mem_of_mem_take ht)
        log := hlog }
    obtain ⟨w', db, hrun, _, hopened, _, _⟩ := assemble_quiet (s := ()) opts
      (World.quiet_start v) (by simp [World.start]) himg
    have hserves : ServesAll env dir opts v tables ↔ tables.take (j - 1) = tables := by
      constructor
      · rintro ⟨db', w'', hrun', hopen'⟩
        rw [hrun] at hrun'
        cases hrun'
        have h1 := hopened.opened.length_eq
        have h2 := List.Forall₂.length_eq hopen'
        exact List.take_of_length_le (by rw [List.length_take] at h1; omega)
      · intro h
        have hall := hopened.opened
        rw [h] at hall
        exact ⟨db, w', hrun, hall⟩
    rw [hserves]
    constructor
    · intro h
      have hge : tables.length ≤ j - 1 := by
        have := congrArg List.length h
        rw [List.length_take] at this
        omega
      by_cases hj0 : j = 0
      · -- nothing whole: the cut is right behind the header, and there are no tables
        have hk0 : k = 0 := by
          rcases hread with h | h
          · exact absurd hj0 h
          · exact h
        have ht0 : tables = [] := List.eq_nil_of_length_eq_zero (by omega)
        refine Or.inr (Or.inr ⟨ht0, ?_⟩)
        rw [hbytes, hk0]
        rfl
      · have hjlen : edits.length ≤ j := by omega
        have hwhole := (le_wholeEdits_iff env (le_refl edits.length)).mp hjlen
        refine Or.inr (Or.inl ?_)
        rw [hbytes, List.take_of_length_le (by omega)]
        rfl
    · rintro (h | h | ⟨h, _⟩)
      · exact absurd h hlookup
      · rw [hbytes, manifestBytes] at h
        have hcut := congrArg List.length (List.append_cancel_left (Option.some.inj h))
        rw [List.length_take, hframes] at hcut
        have hk : editFrameLen * edits.length ≤ k := by omega
        have := (le_wholeEdits_iff env (le_refl edits.length)).mpr hk
        exact List.take_of_length_le (by omega)
      · rw [h]
        simp
  · rw [not_or, not_not] at hread
    obtain ⟨hwhole, hk⟩ := hread
    have hshort : k < editFrameLen := by
      by_contra hge
      have hone : 1 ≤ edits.length := by omega
      have := (le_wholeEdits_iff env hone (n := k)).mpr (by omega)
      omega
    have hne : (editFrames env edits).take k ≠ [] := by
      intro h
      have := congrArg List.length h
      rw [List.length_take, hframes, List.length_nil, hlen] at this
      simp only [editFrameLen] at this hshort
      omega
    obtain ⟨e, he⟩ := replayManifest_first_torn (manifestPath dir 0) hwhole hne
    obtain ⟨w', hrun, _⟩ := assemble_torn opts hs hcur hman he
    constructor
    · rintro ⟨db, w'', hrun', _⟩
      rw [hrun] at hrun'
      cases hrun'
    · rintro (h | h | ⟨_, h⟩)
      · exact absurd h hlookup
      · rw [hbytes, manifestBytes] at h
        have hcut := congrArg List.length (List.append_cancel_left (Option.some.inj h))
        rw [List.length_take, hframes, hlen] at hcut
        simp only [editFrameLen] at hcut hshort
        omega
      · rw [hbytes, manifestBytes] at h
        exact absurd (List.append_cancel_left (Option.some.inj h)) hne

end Reopen

section FirstOpen

variable {env : Env} {dir : String} {v v₀ : Volume Path}
variable {tables : List (Nat × List Record)} {log : List Record}

/-- A first open passes only through the volumes of `FirstOpen`. -/
theorem firstOpen_of_visited (opts : Options) (h : Phase2 env dir v₀ tables log)
    (hv : v ∈ ((assemble env dir opts : M Unit DbInner) () (World.start v₀)).2.2.visited) :
    FirstOpen env dir tables v₀ v := by
  obtain ⟨w', db, i, hrun, _, _, _, hgrew⟩ := assemble_migrating (s := ()) opts
    (World.quiet_start v₀) (by simp [World.start]) h
  obtain ⟨vs, hvs, hall⟩ := hgrew.visited
  rw [hrun] at hv
  have hv' : v ∈ vs ++ [v₀] := by
    rw [show w'.visited = vs ++ [v₀] from hvs] at hv
    exact hv
  rcases List.mem_append.mp hv' with hv | hv
  · exact hall v hv
  · rw [List.mem_singleton.mp hv]
    exact .unnamed (SameExcept.refl _ _)

/-- After a crash at any point of the first open of a directory without a
manifest, the next open serves every table exactly if the crash came before
`CURRENT` was there, or left the edits that name the tables whole; with no
tables, also if it left none of them. -/
theorem servesAll_firstOpen_iff (env : Env) (dir : String) (opts opts' : Options)
    (tables : List (Nat × List Record)) (log : List Record) (v₀ v : Volume Path)
    (h : Phase2 env dir v₀ tables log)
    (hv : v ∈ ((assemble env dir opts : M Unit DbInner) () (World.start v₀)).2.2.visited)
    (keep : Nat → Nat) :
    ServesAll env dir opts' (v.crash keep) tables ↔ Settled env dir (v.crash keep) tables := by
  have hbound : ∀ {v : Volume Path} {t : Nat × List Record}, t ∈ tables →
      v.file (sstPath dir t.1) = v₀.file (sstPath dir t.1) → ∃ i,
        (v.crash keep).Bound (sstPath dir t.1) i (tableBytes env t.2)
          (tableBytes env t.2).length := by
    intro v t ht hfile
    obtain ⟨i, hb⟩ := h.files t ht
    rw [hb.file] at hfile
    obtain ⟨j, hj, hinode⟩ := Option.map_eq_some_iff.mp hfile
    exact ⟨j, Bound.crash_synced ⟨hj, hinode⟩ le_rfl keep⟩
  cases firstOpen_of_visited opts h hv with
  | unnamed same =>
      have hc : Phase2 env dir (v.crash keep) tables log :=
        (h.same same (by simp [FileName.parseSstId]) (by simp) (by simp)).crash keep
      obtain ⟨w', db, i, hrun, hopened, _⟩ := assemble_migrating (s := ()) opts'
        (World.quiet_start _) (by simp [World.start]) hc
      exact ⟨fun _ => Or.inl hc.unnamed, fun _ => ⟨db, w', hrun, hopened.opened⟩⟩
  | naming same named durable part =>
      obtain ⟨c, hc⟩ := named.current
      obtain ⟨m, hm, hb⟩ := part.crash keep
      rw [List.take_append, List.take_of_length_le (le_trans durable hm), List.take_take] at hb
      exact servesAll_named_iff ((same.sound h.sound).crash keep) h.ids h.small h.fit
        (fun t ht => hbound ht (same.files _ (by simp)))
        (replay_crash_of_logKept (Or.inl (same.files _ (by simp))) h.log h.rest keep)
        (hc.crash_synced le_rfl keep) hb
  | named sound live files logKept =>
      obtain ⟨c, hc⟩ := live.named.current
      have hb := live.holds.crash_synced le_rfl keep
      rw [manifestBytes, ← List.take_length (l := editFrames env _)] at hb
      exact servesAll_named_iff (sound.crash keep) h.ids h.small h.fit
        (fun t ht => hbound ht (files t ht)) (replay_crash_of_logKept logKept h.log h.rest keep)
        (hc.crash_synced le_rfl keep) hb

end FirstOpen

section Instance

/-- A table with one record. -/
def someTable : Nat × List Record := (0, [Record.put [1] [2] 0])

/-- A directory that holds `someTable` and nothing else. -/
def oneTable : Volume Path :=
  ((Volume.empty.create (sstPath "db" 0)).append 0 (tableBytes Stock.env someTable.2)).sync 0

theorem phase2_oneTable : Phase2 Stock.env "db" oneTable [someTable] [] where
  sound := ((sound_empty.create).append _).sync
  unnamed := rfl
  ids := by simp
  small := by simp [someTable]
  fit := ⟨by simpa using (show TableFits Stock.env someTable.2 by decide +kernel),
    by simp [someTable, SortedRun]⟩
  files := by
    intro t ht
    rw [List.mem_singleton.mp ht]
    exact ⟨0, rfl, rfl⟩
  listed := by
    intro p i id hdir hl hid
    have hp : p = sstPath "db" 0 := by
      by_contra hne
      have : oneTable.lookup p = none := by
        show (Volume.empty.create (sstPath "db" 0)).lookup p = none
        rw [lookup_create, if_neg hne]
        rfl
      rw [this] at hl
      cases hl
    subst hp
    cases hid
    exact ⟨rfl, by simp [someTable]⟩
  log := rfl
  rest := by
    intro x hx
    cases hx

/-- The volumes of the first open of `oneTable`, latest first. -/
def oneTableVisited : List (Volume Path) :=
  ((assemble Stock.env "db" Options.default : M Unit DbInner) ()
    (World.start oneTable)).2.2.visited

/-- One of them. -/
def oneTableAt (n : Nat) : Volume Path := oneTableVisited[n]?.getD Volume.empty

theorem oneTableAt_mem {n : Nat} (h : (oneTableVisited[n]?).isSome = true) :
    oneTableAt n ∈ oneTableVisited := by
  obtain ⟨v, hv⟩ := Option.isSome_iff_exists.mp h
  refine List.mem_of_getElem? (i := n) ?_
  rw [oneTableAt, hv]
  rfl

/-- A crash between the append of the edits that name the table and its sync: the table is
served if all of their bytes survive, and lost if thirty of them do. -/
theorem servesAll_firstOpen_iff_oneTable :
    ServesAll Stock.env "db" Options.default ((oneTableAt 3).crash fun _ => 42) [someTable] ∧
      ¬ ServesAll Stock.env "db" Options.default ((oneTableAt 3).crash fun _ => 30)
        [someTable] := by
  have hiff := servesAll_firstOpen_iff Stock.env "db" Options.default Options.default [someTable]
    [] oneTable (oneTableAt 3) phase2_oneTable (oneTableAt_mem (by decide +kernel))
  refine ⟨(hiff _).mpr (Or.inr (Or.inl (by decide +kernel))), fun hserves => ?_⟩
  rcases (hiff _).mp hserves with hcurrent | hwhole | ⟨hnone, _⟩
  · exact absurd hcurrent (by decide +kernel)
  · exact absurd hwhole (by decide +kernel)
  · cases hnone

/-- A crash right behind the rename of `CURRENT`: the next open succeeds, serves
no table, and has removed the file of the one there was. -/
theorem first_open_crash_deletes_table :
    oneTableAt 5 ∈ oneTableVisited ∧
      (let reopened := (assemble Stock.env "db" Options.default : M Unit DbInner) ()
        (World.start ((oneTableAt 5).crash fun _ => 0))
      reopened.1.toOption.map DbInner.sstables = some [] ∧
        reopened.2.2.vol.lookup (sstPath "db" 0) = none) ∧
      ¬ ServesAll Stock.env "db" Options.default ((oneTableAt 5).crash fun _ => 0)
        [someTable] := by
  have hrun : ((assemble Stock.env "db" Options.default : M Unit DbInner) ()
      (World.start ((oneTableAt 5).crash fun _ => 0))).1.toOption.map DbInner.sstables =
        some [] := by decide +kernel
  refine ⟨oneTableAt_mem (by decide +kernel), ⟨hrun, by decide +kernel⟩, ?_⟩
  rintro ⟨db, w', hopen, htables⟩
  rw [hopen] at hrun
  have hnil : db.sstables = [] := Option.some.inj hrun
  rw [hnil] at htables
  cases htables

end Instance

end LsmKv
