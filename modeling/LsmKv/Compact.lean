import LsmKv.Compacted
import LsmKv.Flush

/-!
# A compaction when nothing fails

**Results.**
* `pickCompaction_quiet`, `pickRun_bounds`: a compaction merges a run of
  neighbouring tables.
* `compactStepImpl_quiet`: the run is replaced by its merge, under the id of its
  newest table.
* `Compacting`: the volumes a compaction passes through, which is where a crash
  may strike.
-/

namespace LsmKv

open Foundation Volume

section Pick

theorem le_tierEnd (tiers : List Nat) (i fuel j : Nat) : j ≤ tierEnd tiers i fuel j := by
  induction fuel generalizing j with
  | zero => exact le_rfl
  | succ fuel ih =>
      unfold tierEnd
      split_ifs
      · exact le_trans (Nat.le_succ j) (ih (j + 1))
      · exact le_rfl

theorem tierEnd_le (tiers : List Nat) (i fuel : Nat) {j : Nat} (hj : j ≤ tiers.length) :
    tierEnd tiers i fuel j ≤ tiers.length := by
  induction fuel generalizing j with
  | zero => exact hj
  | succ fuel ih =>
      unfold tierEnd
      split_ifs with h
      · exact ih h.1
      · exact hj

theorem lt_tierEnd {tiers : List Nat} {i : Nat} (hi : i < tiers.length) :
    i < tierEnd tiers i (tiers.length - i) i := by
  obtain ⟨fuel, hfuel⟩ : ∃ fuel, tiers.length - i = fuel + 1 := ⟨tiers.length - i - 1, by omega⟩
  rw [hfuel]
  unfold tierEnd
  rw [if_pos ⟨hi, rfl⟩]
  exact le_tierEnd tiers i fuel (i + 1)

theorem pickLoop_bounds {tiers : List Nat} {threshold fuel i a b : Nat}
    (h : pickLoop tiers threshold fuel i = some (a, b)) :
    a < b ∧ b ≤ tiers.length ∧ threshold ≤ b - a := by
  induction fuel generalizing i with
  | zero => cases h
  | succ fuel ih =>
      unfold pickLoop at h
      split_ifs at h with hi
      dsimp only at h
      split_ifs at h with ht
      · cases h
        exact ⟨lt_tierEnd hi, tierEnd_le tiers _ _ (le_of_lt hi), ht⟩
      · exact ih h

/-- A picked run lies within the tables and has at least `threshold` of them. -/
theorem pickRun_bounds {sizes : List Nat} {threshold a b : Nat}
    (h : pickRun sizes threshold = some (a, b)) :
    a < b ∧ b ≤ sizes.length ∧ threshold ≤ b - a := by
  unfold pickRun at h
  split_ifs at h
  have := pickLoop_bounds h
  rwa [List.length_map] at this

variable {env : Env} {w : World} {dir : String} {bloomEnabled : Bool}
variable {sstables : List SsTable} {tables : List (Nat × List Record)}

theorem collect_size {σ : Type} {s : σ}
    (h : TablesOpen env dir bloomEnabled w.vol sstables tables) :
    M.collect (fun t : SsTable => Fs.size t.reader.path) sstables s w =
      (.ok (tables.map (fun t => (tableBytes env t.2).length)), s, w) := by
  induction h with
  | nil => rfl
  | cons hth _ ih =>
      obtain ⟨i, rfl, hb⟩ := hth
      have hsize := Fs.size_some (s := s) hb.name
      rw [hb.inode] at hsize
      rw [M.collect_cons, M.bind_ok (show Fs.size (SsTableReader.path _) s w = _ from hsize),
        M.bind_ok ih]
      rfl

/-- The run a compaction picks, from the sizes of the files. -/
def pickHeld (env : Env) (tables : List (Nat × List Record)) (threshold : Nat) :
    Option (Nat × Nat) :=
  if tables.length < threshold then none
  else pickRun (tables.map (fun t => (tableBytes env t.2).length)) threshold

theorem pickCompaction_quiet {σ : Type} {s : σ} (threshold : Nat)
    (h : TablesOpen env dir bloomEnabled w.vol sstables tables) :
    (pickCompaction sstables threshold : M σ (Option (Nat × Nat))) s w =
      (.ok (pickHeld env tables threshold), s, w) := by
  have hlen : sstables.length = tables.length := h.length_eq
  unfold pickCompaction pickHeld
  rw [hlen]
  split_ifs
  · rfl
  · rw [M.bind_ok (collect_size h)]
    rfl

theorem pickHeld_bounds {threshold a b : Nat} (h : pickHeld env tables threshold = some (a, b)) :
    a < b ∧ b ≤ tables.length ∧ threshold ≤ b - a := by
  unfold pickHeld at h
  split_ifs at h
  have := pickRun_bounds h
  rwa [List.length_map] at this

theorem collect_iterAll {σ : Type} {s : σ} (hq : w.Quiet)
    (h : TablesRead env dir bloomEnabled w.vol sstables tables) (hfit : TablesFit env tables) :
    M.collect (fun r : SsTableReader => r.iterAll env) (sstables.map SsTable.reader) s w =
      (.ok (tables.map Prod.snd), s, w) := by
  induction h with
  | nil => rfl
  | @cons t h ts hs hth _ ih =>
      obtain ⟨i, rfl, _, hb⟩ := hth
      have hall := iterAll_eq (s := s) (sstPath dir h.1) bloomEnabled hq
        (by rw [hb]) (hfit.fits h (by simp))
      rw [List.map_cons, M.collect_cons, M.bind_ok hall, M.bind_ok (ih hfit.tail)]
      rfl

/-- The tables a picked run lies between: `stale` and `last` are the run. -/
theorem pickHeld_split {threshold a b : Nat} (h : pickHeld env tables threshold = some (a, b)) :
    ∃ front stale last back, tables = front ++ (stale ++ [last]) ++ back ∧ a = front.length ∧
      b = front.length + (stale.length + 1) ∧ threshold ≤ stale.length + 1 := by
  obtain ⟨hab, hb, hthr⟩ := pickHeld_bounds h
  have hlen : ((tables.take b).drop a).length = b - a := by
    rw [List.length_drop, List.length_take]
    omega
  obtain ⟨stale, last, hrun⟩ : ∃ stale last, (tables.take b).drop a = stale ++ [last] := by
    rcases List.eq_nil_or_concat ((tables.take b).drop a) with h | ⟨stale, last, h⟩
    · rw [h] at hlen
      simp at hlen
      omega
    · exact ⟨stale, last, by rw [h, List.concat_eq_append]⟩
  rw [hrun, List.length_append, List.length_singleton] at hlen
  refine ⟨tables.take a, stale, last, tables.drop b, ?_, ?_, ?_, by omega⟩
  · have hfront : tables.take a = (tables.take b).take a := by
      rw [List.take_take, min_eq_left (le_of_lt hab)]
    rw [← hrun, hfront, List.take_append_drop, List.take_append_drop]
  · rw [List.length_take]
    omega
  · rw [List.length_take]
    omega

/-- The open tables of a list in two parts. -/
theorem TablesOpen.split {front back : List (Nat × List Record)}
    (h : TablesOpen env dir bloomEnabled w.vol sstables (front ++ back)) :
    ∃ f b, sstables = f ++ b ∧ f.length = front.length ∧
      TablesOpen env dir bloomEnabled w.vol f front ∧
      TablesOpen env dir bloomEnabled w.vol b back := by
  have hlen : sstables.length = front.length + back.length := by
    rw [h.length_eq, List.length_append]
  refine ⟨sstables.take front.length, sstables.drop front.length,
    (List.take_append_drop _ _).symm, by rw [List.length_take]; omega, ?_, ?_⟩
  · have := List.forall₂_take front.length h
    rwa [List.take_left] at this
  · have := List.forall₂_drop front.length h
    rwa [List.drop_left] at this

theorem TablesOpen.bound (h : TablesOpen env dir bloomEnabled w.vol sstables tables) :
    ∀ t ∈ tables, ∃ i,
      w.vol.Bound (sstPath dir t.1) i (tableBytes env t.2) (tableBytes env t.2).length := by
  induction h with
  | nil => simp
  | cons hth _ ih =>
      obtain ⟨i, _, hb⟩ := hth
      intro t ht
      rcases List.mem_cons.mp ht with rfl | ht
      · exact ⟨i, hb⟩
      · exact ih t ht

theorem TablesRead.ids {v : Volume Path}
    (h : TablesRead env dir bloomEnabled v sstables tables) :
    sstables.map SsTable.id = tables.map Prod.fst := by
  induction h with
  | nil => rfl
  | cons hth _ ih =>
      obtain ⟨i, rfl, _⟩ := hth
      rw [List.map_cons, List.map_cons, ih]

theorem TablesOpen.ids (h : TablesOpen env dir bloomEnabled w.vol sstables tables) :
    sstables.map SsTable.id = tables.map Prod.fst := by
  induction h with
  | nil => rfl
  | cons hth _ ih =>
      obtain ⟨i, rfl, _⟩ := hth
      rw [List.map_cons, List.map_cons, ih]

end Pick

section Publish

/-- The records a compaction of `run` writes. -/
def mergedRecords (run : List (Nat × List Record)) (dropTombstones : Bool) (minSeq : Nat) :
    List Record := compactRecords (run.map Prod.snd) dropTombstones minSeq

/-- The edits that drop the tables a merge stands for. -/
def deleteEdits (stale : List (Nat × List Record)) : List VersionEdit :=
  stale.map (fun t => .deleteTable t.1)

/-- What a compaction makes of the files. -/
def Held.compacted (held : Held) (front stale : List (Nat × List Record))
    (last : Nat × List Record) (back : List (Nat × List Record)) (out : List Record) : Held :=
  { held with
    tables := front ++ [(last.1, out)] ++ back
    edits := held.edits ++ deleteEdits stale }

/-- The volumes of a compaction on the way.  Before the rename only the scratch
file differs; behind it the merge stands under the id of the newest input, the
manifest has some part of the deletions, and a file is removed only when all of
them are durable. -/
inductive Compacting (env : Env) (dir : String) (g j : Nat) (edits : List VersionEdit)
    (stale : List (Nat × List Record)) (id : Nat) (out : List Record) (v₀ : Volume Path) :
    Volume Path → Prop
  | beside {v : Volume Path} (same : SameExcept [sstTmpPath dir id] v₀ v) :
      Compacting env dir g j edits stale id out v₀ v
  | renamed {v : Volume Path} {i k n : Nat}
      (same : SameExcept [sstTmpPath dir id, sstPath dir id, manifestPath dir g] v₀ v)
      (merged : v.Bound (sstPath dir id) i (tableBytes env out) (tableBytes env out).length)
      (manifest : v.Bound (manifestPath dir g) j
        (manifestBytes env edits ++ (editFrames env (deleteEdits stale)).take k) n)
      (durable : (manifestBytes env edits).length ≤ n) :
      Compacting env dir g j edits stale id out v₀ v
  | removing {v : Volume Path} {i : Nat} (gone : List (Nat × List Record))
      (part : ∀ t ∈ gone, t ∈ stale)
      (same : SameExcept ([sstTmpPath dir id, sstPath dir id, manifestPath dir g] ++
        gone.map (fun t => sstPath dir t.1)) v₀ v)
      (merged : v.Bound (sstPath dir id) i (tableBytes env out) (tableBytes env out).length)
      (manifest : v.Bound (manifestPath dir g) j (manifestBytes env (edits ++ deleteEdits stale))
        (manifestBytes env (edits ++ deleteEdits stale)).length) :
      Compacting env dir g j edits stale id out v₀ v

variable {env : Env} {w : World} {dir : String}

/-- Removing tables one after another. -/
theorem removeEach_quiet {σ : Type} {s : σ} (dir : String) (stale : List (Nat × List Record))
    (hq : w.Quiet)
    (hnd : (stale.map Prod.fst).Nodup)
    (hthere : ∀ t ∈ stale, ∃ i, w.vol.lookup (sstPath dir t.1) = some i) :
    ∃ w', (M.each (fun id => Fs.remove (sstPath dir id)) (stale.map Prod.fst) : M σ Unit) s w =
        (.ok (), s, w') ∧
      SameExcept (stale.map (fun t => sstPath dir t.1)) w.vol w'.vol ∧
      w.Grew w' (fun v => ∃ gone : List (Nat × List Record), (∀ t ∈ gone, t ∈ stale) ∧
        SameExcept (gone.map (fun t => sstPath dir t.1)) w.vol v) := by
  induction stale generalizing w with
  | nil => exact ⟨w, rfl, SameExcept.refl _ _, World.Grew.refl hq⟩
  | cons t ts ih =>
      obtain ⟨i, hi⟩ := hthere t (by simp)
      set w₁ := w.touch (fun v => v.remove (sstPath dir t.1))
      have h₁ : SameExcept [sstPath dir t.1] w.vol w₁.vol := sameExcept_remove
      have hnot : ∀ x ∈ ts, sstPath dir x.1 ∉ [sstPath dir t.1] := by
        intro x hx h
        simp only [List.mem_singleton, Path.mk.injEq, true_and, FileName.sst.injEq] at h
        apply (List.nodup_cons.mp hnd).1
        rw [← h]
        exact List.mem_map.mpr ⟨x, hx, rfl⟩
      obtain ⟨w₂, hrun, hsame, hgrew⟩ := ih (hq.touch _) (List.nodup_cons.mp hnd).2
        (fun x hx => by
          obtain ⟨k, hk⟩ := hthere x (List.mem_cons_of_mem _ hx)
          exact ⟨k, (h₁.names _ (hnot x hx)).trans hk⟩)
      refine ⟨w₂, ?_, (h₁.mono (by simp)).trans (hsame.mono (by simp)), ?_⟩
      · rw [List.map_cons, M.each_cons, M.bind_ok (Fs.remove_some hi), hrun]
      · refine World.Grew.trans (World.Grew.touch (f := fun v => v.remove (sstPath dir t.1)) hq
          ⟨[t], by simp, h₁⟩) (hgrew.mono ?_)
        rintro v ⟨gone, hgone, hv⟩
        refine ⟨t :: gone, ?_, (h₁.mono (by simp)).trans (hv.mono (by simp))⟩
        intro x hx
        rcases List.mem_cons.mp hx with rfl | hx
        · simp
        · exact List.mem_cons_of_mem _ (hgone x hx)

theorem findIdx?_append_cons {α : Type} {p : α → Bool} {xs ys : List α} {x : α}
    (hxs : ∀ y ∈ xs, p y = false) (hx : p x = true) :
    (xs ++ x :: ys).findIdx? p = some xs.length := by
  induction xs with
  | nil => simp [List.findIdx?_cons, hx]
  | cons y xs ih =>
      have hy := hxs y (by simp)
      rw [List.cons_append, List.findIdx?_cons, hy,
        ih fun z hz => hxs z (List.mem_cons_of_mem _ hz)]
      rfl

/-- The deletions leave the other tables live. -/
theorem keys_foldl_delete (stale : List (Nat × List Record)) (st : ManifestState) :
    ((deleteEdits stale).foldl ManifestState.apply st).liveTables.keys =
      st.liveTables.keys.filter (fun id => decide (id ∉ stale.map Prod.fst)) := by
  induction stale generalizing st with
  | nil => simp [deleteEdits]
  | cons t ts ih =>
      have hkeys : (st.apply (.deleteTable t.1)).liveTables.keys =
          st.liveTables.keys.filter (fun id => decide (id ≠ t.1)) := by
        show ((st.liveTables.entries.filter _).map Prod.fst) = _
        rw [SortedMap.keys, List.filter_map]
        rfl
      show ((deleteEdits ts).foldl ManifestState.apply
        (st.apply (.deleteTable t.1))).liveTables.keys = _
      rw [ih, hkeys, List.filter_filter]
      congr 1
      funext id
      simp only [List.map_cons, List.mem_cons, not_or, Bool.decide_and]
      rw [Bool.and_comm]

variable {db : DbInner} {held : Held}
variable {front stale back : List (Nat × List Record)} {last : Nat × List Record}

/-- The tables of a layout around a run, with distinct ids. -/
structure RunAt (held : Held) (front stale : List (Nat × List Record))
    (last : Nat × List Record) (back : List (Nat × List Record)) : Prop where
  tables : held.tables = front ++ (stale ++ [last]) ++ back
  ids : (held.tables.map Prod.fst).Pairwise (· < ·)

theorem RunAt.parts (h : RunAt held front stale last back) :
    (∀ t ∈ front, t.1 < last.1) ∧ (∀ t ∈ stale, t.1 < last.1) ∧ (∀ t ∈ back, last.1 < t.1) ∧
      (∀ t ∈ front, ∀ u ∈ stale, t.1 < u.1) ∧ (∀ t ∈ back, ∀ u ∈ stale, u.1 < t.1) ∧
      (stale.map Prod.fst).Pairwise (· < ·) := by
  have hids := h.ids
  rw [h.tables, List.pairwise_map] at hids
  obtain ⟨h1, h2, h3⟩ := List.pairwise_append.mp hids
  obtain ⟨h4, h5, h6⟩ := List.pairwise_append.mp h1
  obtain ⟨h7, _, h8⟩ := List.pairwise_append.mp h5
  refine ⟨fun t ht => h6 t ht last (by simp), fun t ht => h8 t ht last (by simp),
    fun t ht => h3 last (by simp) t ht, fun t ht u hu => h6 t ht u (by simp [hu]),
    fun t ht u hu => h3 u (by simp [hu]) t ht, List.pairwise_map.mpr h7⟩

/-- What is live once a stretch of the tables is deleted. -/
theorem keys_deleted {tables A D B : List (Nat × List Record)} {st : ManifestState}
    (htables : tables = A ++ D ++ B) (hids : (tables.map Prod.fst).Pairwise (· < ·))
    (hst : st.liveTables.keys = tables.map Prod.fst) :
    ((deleteEdits D).foldl ManifestState.apply st).liveTables.keys = (A ++ B).map Prod.fst := by
  rw [htables, List.pairwise_map] at hids
  obtain ⟨hAD, -, hB⟩ := List.pairwise_append.mp hids
  obtain ⟨-, -, hA⟩ := List.pairwise_append.mp hAD
  have hkeep : ∀ l : List (Nat × List Record), (∀ t ∈ l, ∀ u ∈ D, t.1 ≠ u.1) →
      (l.map Prod.fst).filter (fun id => decide (id ∉ D.map Prod.fst)) = l.map Prod.fst := by
    intro l hl
    rw [List.filter_eq_self]
    intro id hid
    obtain ⟨t, ht, rfl⟩ := List.mem_map.mp hid
    rw [decide_eq_true_eq]
    intro hmem
    obtain ⟨u, hu, heq⟩ := List.mem_map.mp hmem
    exact hl t ht u hu heq.symm
  have hdrop : (D.map Prod.fst).filter (fun id => decide (id ∉ D.map Prod.fst)) = [] := by
    rw [List.filter_eq_nil_iff]
    intro id hid hdec
    exact of_decide_eq_true hdec hid
  rw [keys_foldl_delete, hst, htables]
  simp only [List.map_append, List.filter_append]
  rw [hkeep A fun t ht u hu => ne_of_lt (hA t ht u hu),
    hkeep B fun t ht u hu => ne_of_gt (hB u (List.mem_append_right _ hu) t ht), hdrop,
    List.append_nil]

/-- What is live once the deletions are applied. -/
theorem RunAt.live (h : RunAt held front stale last back) {st : ManifestState}
    (hst : st.liveTables.keys = held.tables.map Prod.fst) (out : List Record) :
    ((deleteEdits stale).foldl ManifestState.apply st).liveTables.keys =
      (front ++ [(last.1, out)] ++ back).map Prod.fst := by
  have htables : held.tables = front ++ stale ++ ([last] ++ back) := by
    rw [h.tables]
    simp
  rw [keys_deleted htables h.ids hst]
  simp

/-- The volumes of the publish section once the merge has its name: the manifest
has some part of the deletions, and a file is removed only when all of them are
durable. -/
inductive Finishing (env : Env) (dir : String) (g j : Nat) (edits : List VersionEdit)
    (stale : List (Nat × List Record)) (v₀ : Volume Path) : Volume Path → Prop
  | recording {v : Volume Path} {k n : Nat} (same : SameExcept [manifestPath dir g] v₀ v)
      (manifest : v.Bound (manifestPath dir g) j
        (manifestBytes env edits ++ (editFrames env (deleteEdits stale)).take k) n)
      (durable : (manifestBytes env edits).length ≤ n) :
      Finishing env dir g j edits stale v₀ v
  | removing {v : Volume Path} (gone : List (Nat × List Record)) (part : ∀ t ∈ gone, t ∈ stale)
      (same : SameExcept (manifestPath dir g :: gone.map (fun t => sstPath dir t.1)) v₀ v)
      (manifest : v.Bound (manifestPath dir g) j (manifestBytes env (edits ++ deleteEdits stale))
        (manifestBytes env (edits ++ deleteEdits stale)).length) :
      Finishing env dir g j edits stale v₀ v

/-- The position of a run whose newest table has the only such id. -/
theorem findIdx?_run {F S B : List SsTable} {L : SsTable} {maxId : Nat} (hL : L.id = maxId)
    (hold : ∀ t ∈ F ++ S, t.id ≠ maxId) :
    (F ++ (S ++ [L]) ++ B).findIdx? (fun t => decide (t.id = maxId)) = some (F ++ S).length := by
  have hreassoc : F ++ (S ++ [L]) ++ B = (F ++ S) ++ L :: B := by simp
  rw [hreassoc]
  refine findIdx?_append_cons (fun y hy => ?_) ?_
  · rw [decide_eq_false_iff_not]
    exact hold y hy
  · rw [decide_eq_true_eq]
    exact hL

/-- The rest of the publish section: the merge takes the place of the run. -/
theorem finishCompaction_quiet {edits : List VersionEdit} {g j i maxId : Nat} {out : List Record}
    {F S B : List SsTable} {L : SsTable} (hq : w.Quiet) (hs : w.vol.Sound)
    (hman : ManifestOpen env db.dir w.vol db.manifest edits g j)
    (hdel : ∀ e ∈ deleteEdits stale, e.Fits)
    (hb : w.vol.Bound (sstPath db.dir maxId) i (tableBytes env out) (tableBytes env out).length)
    (hfits : TableFits env out) (hsst : db.sstables = F ++ (S ++ [L]) ++ B)
    (hL : L.id = maxId) (hold : ∀ t ∈ F ++ S, t.id ≠ maxId)
    (hS : S.map SsTable.id = stale.map Prod.fst) (hnd : (stale.map Prod.fst).Nodup)
    (hthere : ∀ t ∈ stale, ∃ k, w.vol.lookup (sstPath db.dir t.1) = some k) :
    ∃ w', DbInner.finishCompaction env db.dir db.opts.bloomEnabled (S ++ [L]) maxId db w =
        (.ok (), { db with sstables := F ++
          [⟨maxId, readerOf env (sstPath db.dir maxId) i db.opts.bloomEnabled out⟩] ++ B }, w') ∧
      ManifestOpen env db.dir w'.vol db.manifest (edits ++ deleteEdits stale) g j ∧
      SameExcept (manifestPath db.dir g :: stale.map (fun t => sstPath db.dir t.1))
        w.vol w'.vol ∧
      (∀ p : Path, p.dir = db.dir → w'.vol.Covered p) ∧
      w.Grew w' (Finishing env db.dir g j edits stale w.vol) := by
  set man := manifestPath db.dir g with hmanp
  set table : SsTable := ⟨maxId, readerOf env (sstPath db.dir maxId) i db.opts.bloomEnabled out⟩
  set w₁ := w.touch (fun v => v.syncNames (fun p => p.dir = db.dir))
  have h₁ : SameExcept [man] w.vol w₁.vol := sameExcept_syncNames _ _
  have hsettle := settleTable_quiet db db.opts.bloomEnabled hq hb hfits
  -- the deletions
  have hman₁ : ManifestOpen env db.dir w₁.vol db.manifest edits g j :=
    hman.same (sameExcept_syncNames [] _) (by simp) (by simp) (by simp)
  obtain ⟨w₂, hrun₂, hman₂, hsame₂, hgrew₂⟩ := appendEdits_quiet db (deleteEdits stale)
    (hq.touch _) (h₁.sound hs) hman₁ hdel
  have h₂ : SameExcept [man] w.vol w₂.vol := h₁.trans hsame₂
  -- the stale files
  set db' : DbInner := { db with sstables := F ++ [table] ++ B } with hdb'
  obtain ⟨w₃, hrun₃, hsame₃, hgrew₃⟩ := removeEach_quiet (s := db') db.dir stale hgrew₂.quiet hnd
    (fun t ht => by
      obtain ⟨k, hk⟩ := hthere t ht
      exact ⟨k, (h₂.names _ (by simp [hmanp])).trans hk⟩)
  set w₄ := w₃.touch (fun v => v.syncNames (fun p => p.dir = db.dir))
  have hgone : ∀ (gone : List (Nat × List Record)) (v : Volume Path),
      SameExcept (gone.map (fun t => sstPath db.dir t.1)) w₂.vol v →
      SameExcept (man :: gone.map (fun t => sstPath db.dir t.1)) w.vol v ∧
        ManifestOpen env db.dir v db.manifest (edits ++ deleteEdits stale) g j := by
    intro gone v hv
    exact ⟨(h₂.mono (by simp)).trans (hv.mono (List.subset_cons_self _ _)),
      hman₂.same hv (by simp) (by simp) (by simp)⟩
  have hend := hgone stale w₄.vol (hsame₃.trans (sameExcept_syncNames _ _))
  refine ⟨w₄, ?_, hend.2, hend.1, fun p hp => covered_syncNames (by simpa using hp), ?_⟩
  · have hids : (((S ++ [L]).take ((S ++ [L]).length - 1)).map SsTable.id) =
        stale.map Prod.fst := by
      rw [List.length_append, List.length_singleton, Nat.add_sub_cancel, List.take_left, hS]
    have hedits : (stale.map Prod.fst).map VersionEdit.deleteTable = deleteEdits stale := by
      simp [deleteEdits]
    have hfind : db.sstables.findIdx? (fun t => decide (t.id = maxId)) =
        some (F ++ S).length := by
      rw [hsst]
      exact findIdx?_run hL hold
    have hlens : ¬ (F ++ S).length + 1 < (S ++ [L]).length := by simp
    have hstart : (F ++ S).length + 1 - (S ++ [L]).length = F.length := by simp
    have htake : db.sstables.take F.length = F := by
      rw [hsst, List.append_assoc, List.take_left]
    have hdrop : db.sstables.drop ((F ++ S).length + 1) = B := by
      rw [hsst, List.drop_left']
      simp
      omega
    unfold DbInner.finishCompaction
    rw [M.bind_ok hsettle]
    dsimp only
    rw [hids, hedits, M.bind_ok hrun₂, M.bind_ok (M.self_apply _ _), hfind]
    dsimp only
    rw [if_neg hlens, hstart, M.bind_ok (M.update_apply _ _ _), htake, hdrop, M.bind_ok hrun₃]
    rfl
  · refine World.Grew.trans (World.Grew.touch hq ?_) (World.Grew.trans (hgrew₂.mono ?_)
      (World.Grew.trans (hgrew₃.mono ?_) (World.Grew.touch hgrew₃.quiet ?_)))
    · refine .recording (k := 0) h₁ ?_ le_rfl
      rw [List.take_zero, List.append_nil]
      exact hman₁.live.holds
    · rintro v ⟨hv, k, n, hn, hbound⟩
      exact .recording (h₁.trans hv) hbound hn
    · rintro v ⟨gone, hpart, hv⟩
      exact .removing gone hpart (hgone gone v hv).1 (hgone gone v hv).2.live.holds
    · exact .removing stale (fun _ h => h) hend.1 hend.2.live.holds

/-- The ids of a run and of the tables in front of it. -/
theorem RunAt.apart (h : RunAt held front stale last back) {v : Volume Path} {F S : List SsTable}
    {dir : String} {bloomEnabled : Bool} (hF : TablesRead env dir bloomEnabled v F front)
    (hS : TablesRead env dir bloomEnabled v S stale) : ∀ t ∈ F ++ S, t.id ≠ last.1 := by
  obtain ⟨hfl, hsl, _⟩ := h.parts
  intro t ht
  have hid : t.id ∈ (F ++ S).map SsTable.id := List.mem_map.mpr ⟨t, ht, rfl⟩
  rw [List.map_append, hF.ids, hS.ids, ← List.map_append] at hid
  obtain ⟨u, hu, heq⟩ := List.mem_map.mp hid
  rw [← heq]
  rcases List.mem_append.mp hu with hu | hu
  · exact ne_of_lt (hfl u hu)
  · exact ne_of_lt (hsl u hu)

/-- The tables around a run and its merge can be read back. -/
theorem RunAt.fit (h : RunAt held front stale last back) (hfit : TablesFit env held.tables)
    {out : List Record} (hfits : TableFits env out) (hsorted : SortedRun out) :
    TablesFit env (front ++ [(last.1, out)] ++ back) := by
  have hold : ∀ t ∈ front ++ [(last.1, out)] ++ back, t = (last.1, out) ∨ t ∈ held.tables := by
    intro t ht
    rw [h.tables]
    rcases List.mem_append.mp ht with ht | ht
    · rcases List.mem_append.mp ht with ht | ht
      · exact Or.inr (by simp [ht])
      · exact Or.inl (List.mem_singleton.mp ht)
    · exact Or.inr (by simp [ht])
  refine ⟨fun t ht => ?_, fun t ht => ?_⟩
  · rcases hold t ht with rfl | ht
    · exact hfits
    · exact hfit.fits t ht
  · rcases hold t ht with rfl | ht
    · exact hsorted
    · exact hfit.sorted t ht

theorem RunAt.ids_compacted (h : RunAt held front stale last back) (out : List Record) :
    ((front ++ [(last.1, out)] ++ back).map Prod.fst).Pairwise (· < ·) := by
  have hids := h.ids
  rw [h.tables, List.map_append, List.map_append] at hids
  refine List.Pairwise.sublist ?_ hids
  simp only [List.map_append]
  refine List.Sublist.append (List.Sublist.append (List.Sublist.refl _) ?_) (List.Sublist.refl _)
  exact List.sublist_append_right _ _

/-- A run of tables that can be read back merges into a sorted run. -/
theorem RunAt.sorted_merged (h : RunAt held front stale last back)
    (hfit : TablesFit env held.tables) (dropTombstones : Bool) (minSeq : Nat) :
    SortedRun (mergedRecords (stale ++ [last]) dropTombstones minSeq) := by
  refine sortedRun_compactRecords _ _ ?_
  intro l hl
  obtain ⟨u, hu, rfl⟩ := List.mem_map.mp hl
  refine hfit.sorted u ?_
  rw [h.tables]
  exact List.mem_append_left _ (List.mem_append_right _ hu)

/-- A table that is not stale keeps its name. -/
theorem not_mem_stalePaths {dir : String} {g id : Nat} (h : ∀ u ∈ stale, id ≠ u.1) :
    sstPath dir id ∉ manifestPath dir g :: stale.map (fun t => sstPath dir t.1) := by
  intro hmem
  rcases List.mem_cons.mp hmem with hmem | hmem
  · simp at hmem
  · obtain ⟨u, hu, heq⟩ := List.mem_map.mp hmem
    simp only [Path.mk.injEq, true_and, FileName.sst.injEq] at heq
    exact h u hu heq.symm

/-- The deletions of live tables fit. -/
theorem deleteEdits_fit {edits : List VersionEdit} {tables : List (Nat × List Record)}
    (hfits : ∀ e ∈ edits, e.Fits) (hlive : (applyAll edits).liveTables.keys = tables.map Prod.fst)
    (hsub : ∀ t ∈ stale, t ∈ tables) : ∀ e ∈ deleteEdits stale, e.Fits := by
  intro e he
  obtain ⟨t, ht, rfl⟩ := List.mem_map.mp he
  have hid : t.1 ∈ (applyAll edits).liveTables.keys := by
    rw [hlive]
    exact List.mem_map.mpr ⟨t, hsub t ht, rfl⟩
  exact (fits_applyAll hfits).ids _ hid

/-- The publish section: the merge takes the place of the run. -/
theorem publishCompaction_quiet {w₀ : World} {out : List Record} {i : Nat} {F S B : List SsTable}
    {L : SsTable} (hl : Layout env w₀.vol db held) (hat : RunAt held front stale last back)
    (hsst : db.sstables = F ++ (S ++ [L]) ++ B)
    (hF : TablesOpen env db.dir db.opts.bloomEnabled w₀.vol F front)
    (hS : TablesOpen env db.dir db.opts.bloomEnabled w₀.vol S stale)
    (hL : L.id = last.1) {g j : Nat}
    (hman : ManifestOpen env db.dir w₀.vol db.manifest held.edits g j)
    (hfits : TableFits env out) (hq : w.Quiet)
    (hsame : SameExcept [sstTmpPath db.dir last.1] w₀.vol w.vol)
    (hb : w.vol.Bound (sstTmpPath db.dir last.1) i (tableBytes env out)
      (tableBytes env out).length) :
    ∃ w', DbInner.publishCompaction env (S ++ [L]) last.1 db w =
        (.ok (), { db with sstables := F ++
          [⟨last.1, readerOf env (sstPath db.dir last.1) i db.opts.bloomEnabled out⟩] ++ B }, w') ∧
      w'.vol.Bound (sstPath db.dir last.1) i (tableBytes env out) (tableBytes env out).length ∧
      ManifestOpen env db.dir w'.vol db.manifest (held.edits ++ deleteEdits stale) g j ∧
      SameExcept ([sstTmpPath db.dir last.1, sstPath db.dir last.1, manifestPath db.dir g] ++
        stale.map (fun t => sstPath db.dir t.1)) w₀.vol w'.vol ∧
      (∃ v, w.Passes w' v ∧ SameExcept [sstTmpPath db.dir last.1, sstPath db.dir last.1] w₀.vol v ∧
        v.Bound (sstPath db.dir last.1) i (tableBytes env out) (tableBytes env out).length) ∧
      w.Grew w' (Compacting env db.dir g j held.edits stale last.1 out w₀.vol) := by
  obtain ⟨_, hsl, _, _, _, hstale⟩ := hat.parts
  set tmp := sstTmpPath db.dir last.1 with htmp
  set dest := sstPath db.dir last.1 with hdest
  set man := manifestPath db.dir g with hmanp
  set w₁ := w.touch (fun v => v.rename tmp dest)
  have hb₁ : w₁.vol.Bound dest i (tableBytes env out) (tableBytes env out).length := hb.rename
  have h₁ : SameExcept [tmp, dest] w₀.vol w₁.vol :=
    (hsame.mono (by simp)).trans (sameExcept_rename (by simp [htmp]) hb.name)
  have hman₁ : ManifestOpen env db.dir w₁.vol db.manifest held.edits g j :=
    hman.same h₁ (by simp [htmp, hdest]) (by simp [htmp, hdest]) (by simp [htmp, hdest])
  have hkept : ∀ t ∈ stale, sstPath db.dir t.1 ∉ [tmp, dest] := by
    intro t ht
    have hne := hsl t ht
    simp only [htmp, hdest, List.mem_cons, Path.mk.injEq, true_and, reduceCtorEq,
      FileName.sst.injEq, List.not_mem_nil, or_false, false_or]
    omega
  obtain ⟨w₂, hrun₂, hman₂, hsame₂, _, hgrew₂⟩ := finishCompaction_quiet (hq.touch _)
    (h₁.sound hl.sound) hman₁ (deleteEdits_fit hman.fits hl.live fun t ht => by
      rw [hat.tables]
      simp [ht]) hb₁ hfits hsst hL (hat.apart (hF.read hl.sound) (hS.read hl.sound)) hS.ids
    (hstale.imp fun h => ne_of_lt h) (fun t ht => by
      obtain ⟨k, hk⟩ := hS.bound t ht
      exact ⟨k, (h₁.names _ (hkept t ht)).trans hk.name⟩)
  have hdestgone : ∀ gone : List (Nat × List Record), (∀ t ∈ gone, t ∈ stale) →
      dest ∉ man :: gone.map (fun t => sstPath db.dir t.1) :=
    fun gone hgone => not_mem_stalePaths fun u hu => ne_of_gt (hsl u (hgone u hu))
  have hall : ∀ (gone : List (Nat × List Record)) (v : Volume Path),
      SameExcept (man :: gone.map (fun t => sstPath db.dir t.1)) w₁.vol v →
      SameExcept ([tmp, dest, man] ++ gone.map (fun t => sstPath db.dir t.1)) w₀.vol v :=
    fun gone v hv => (h₁.mono (by simp)).trans (hv.mono (by simp))
  refine ⟨w₂, ?_, hb₁.same hsame₂ (hdestgone stale fun _ h => h), hman₂, hall stale _ hsame₂,
    ⟨w₁.vol, hgrew₂.passes_touch, h₁, hb₁⟩, ?_⟩
  · rw [DbInner.publishCompaction_sections, M.bind_ok (M.self_apply _ _)]
    rw [M.bind_ok (show DbInner.nameTable db.dir last.1 db w = _ from Fs.rename_some hb.name)]
    exact hrun₂
  · refine World.Grew.trans (World.Grew.touch hq ?_) (hgrew₂.mono ?_)
    · refine .renamed (k := 0) (h₁.mono (by simp [htmp, hdest])) hb₁ ?_ le_rfl
      rw [List.take_zero, List.append_nil]
      exact hman₁.live.holds
    · intro v hv
      cases hv with
      | recording same manifest durable =>
          exact .renamed (hall [] v same) (hb₁.same same (hdestgone [] (by simp))) manifest durable
      | removing gone part same manifest =>
          exact .removing gone part (hall gone v same) (hb₁.same same (hdestgone gone part))
            manifest

/-- A run contains the oldest table when nothing stands in front of it. -/
theorem RunAt.oldest (h : RunAt held front stale last back) :
    ∃ first oldest, (stale ++ [last]).head? = some first ∧ held.tables.head? = some oldest ∧
      (first.1 = oldest.1 ↔ front = []) := by
  obtain ⟨first, rest, hfirst⟩ : ∃ first rest, stale ++ [last] = first :: rest :=
    List.exists_cons_of_ne_nil (by simp)
  cases hfront : front with
  | nil =>
      refine ⟨first, first, by rw [hfirst]; rfl, ?_, by simp⟩
      rw [h.tables, hfront, hfirst]
      rfl
  | cons o os =>
      refine ⟨first, o, by rw [hfirst]; rfl, ?_, ?_⟩
      · rw [h.tables, hfront]
        rfl
      · have hids := h.ids
        rw [h.tables, hfirst, hfront, List.pairwise_map] at hids
        have hlt := (List.pairwise_append.mp (List.pairwise_append.mp hids).1).2.2 o (by simp)
          first (by simp)
        simp only [reduceCtorEq, iff_false]
        omega

/-- The records the compaction of a run writes. -/
def DbInner.mergeOut (db : DbInner) (front stale : List (Nat × List Record))
    (last : Nat × List Record) : List Record :=
  mergedRecords (stale ++ [last]) (decide (front = [])) db.minSnapshotSeq

/-- A compaction of a picked run. -/
theorem compactStepImpl_quiet (hq : w.Quiet) (hl : Layout env w.vol db held) {a b : Nat}
    (hpick : pickHeld env held.tables db.opts.compactionThreshold = some (a, b))
    (hat : RunAt held front stale last back) (ha : a = front.length)
    (hb : b = front.length + (stale.length + 1))
    (hfits : TableFits env (db.mergeOut front stale last)) {g j : Nat}
    (hman : ManifestOpen env db.dir w.vol db.manifest held.edits g j) :
    ∃ w' sstables, DbInner.compactStepImpl env db w =
        (.ok true, { db with sstables := sstables }, w') ∧
      Layout env w'.vol { db with sstables := sstables }
        (held.compacted front stale last back (db.mergeOut front stale last)) ∧
      (∃ v i, w.Passes w' v ∧ SameExcept [sstTmpPath db.dir last.1, sstPath db.dir last.1] w.vol v ∧
        v.Bound (sstPath db.dir last.1) i (tableBytes env (db.mergeOut front stale last))
          (tableBytes env (db.mergeOut front stale last)).length) ∧
      w.Grew w' (Compacting env db.dir g j held.edits stale last.1
        (db.mergeOut front stale last) w.vol) := by
  set out := db.mergeOut front stale last with hout
  have hopened := hl.opened
  rw [hat.tables] at hopened
  obtain ⟨FR, B, hsst, hFRlen, hFR, hB⟩ := hopened.split
  obtain ⟨F, R, hFRsplit, hFlen, hF, hR⟩ := hFR.split
  obtain ⟨S, Ls, hRsplit, hSlen, hS, hLs⟩ := hR.split
  obtain ⟨L, rfl⟩ : ∃ L, Ls = [L] := by
    cases hLs with
    | cons _ hnil => cases hnil; exact ⟨_, rfl⟩
  subst hRsplit hFRsplit
  have hL : L.id = last.1 := by
    have := hLs.ids
    simpa using this
  -- the inputs are read, merged and written beside
  have hfitrun : TablesFit env (stale ++ [last]) := by
    refine ⟨fun t ht => hl.fit.fits t ?_, fun t ht => hl.fit.sorted t ?_⟩ <;>
      · rw [hat.tables]
        exact List.mem_append_left _ (List.mem_append_right _ ht)
  have hiter := collect_iterAll (s := db) hq (hR.read hl.sound) hfitrun
  obtain ⟨w₁, i, hrun₁, hb₁, hsame₁, hgrew₁⟩ :=
    SsTableWriter.write_quiet (s := db) env (sstTmpPath db.dir last.1) out hq hl.sound
      (by simp)
  obtain ⟨w', hrun₂, hb₂, hmb₂, hsame₂, ⟨v, hpass, hnamed⟩, hgrew₂⟩ :=
    publishCompaction_quiet hl hat hsst hF hS hL hman hfits hgrew₁.quiet hsame₁ hb₁
  refine ⟨w', F ++ [⟨last.1, readerOf env (sstPath db.dir last.1) i db.opts.bloomEnabled out⟩] ++ B,
    ?_, ?_, ⟨v, i, hgrew₁.passes hpass, hnamed⟩,
    World.Grew.trans (hgrew₁.mono fun v hv => .beside hv) hgrew₂⟩
  · obtain ⟨first, oldest, hfirst, holdest, hzero⟩ := hat.oldest
    have hids : ∀ {l : List SsTable} {t : List (Nat × List Record)},
        TablesOpen env db.dir db.opts.bloomEnabled w.vol l t → ∀ {x}, t.head? = some x →
          ∃ y, l.head? = some y ∧ y.id = x.1 := by
      intro l t hlt x hx
      cases hlt with
      | nil => cases hx
      | cons hth _ =>
          obtain ⟨_, rfl, _⟩ := hth
          cases hx
          exact ⟨_, rfl, rfl⟩
    obtain ⟨y₁, hy₁, hid₁⟩ := hids hR hfirst
    obtain ⟨y₂, hy₂, hid₂⟩ := hids hl.opened holdest
    have hrun : (db.sstables.take b).drop a = S ++ [L] := by
      have hlen : ((F ++ (S ++ [L])).length) = b := by
        simp only [List.length_append, List.length_singleton]
        omega
      rw [hsst, ← hlen, List.take_left, ha, ← hFlen, List.drop_left]
    have hlast : (S ++ [L]).getLast? = some L := by simp
    have hdrop : decide (y₁.id = y₂.id) = decide (front = []) := by
      rw [hid₁, hid₂, decide_eq_decide]
      exact hzero
    unfold DbInner.compactStepImpl
    rw [M.bind_ok (M.self_apply _ _), M.bind_ok (pickCompaction_quiet _ hl.opened), hpick]
    dsimp only
    rw [hrun, hy₁, hlast, hy₂]
    dsimp only
    rw [hdrop, hL]
    have hcompact : (compact env (sstTmpPath db.dir last.1) ((S ++ [L]).map SsTable.reader)
        (decide (front = [])) db.minSnapshotSeq : M DbInner Nat) db w =
          (.ok out.length, db, w₁) := by
      unfold compact
      rw [M.bind_ok hiter]
      exact hrun₁
    rw [M.bind_ok hcompact, M.bind_ok hrun₂]
    rfl
  · obtain ⟨hfl, hsl, hbl, hfs, hbs, _⟩ := hat.parts
    have hkeep : ∀ t : Nat × List Record, t.1 ≠ last.1 → (∀ u ∈ stale, t.1 ≠ u.1) →
        sstPath db.dir t.1 ∉ [sstTmpPath db.dir last.1, sstPath db.dir last.1,
          manifestPath db.dir g] ++ stale.map (fun t => sstPath db.dir t.1) := by
      intro t h1 h2 h
      rcases List.mem_append.mp h with h | h
      · simp only [List.mem_cons, Path.mk.injEq, true_and, reduceCtorEq, FileName.sst.injEq,
          List.not_mem_nil, or_false, false_or] at h
        exact h1 h
      · obtain ⟨u, hu, heq⟩ := List.mem_map.mp h
        simp only [Path.mk.injEq, true_and, FileName.sst.injEq] at heq
        exact h2 u hu heq.symm
    refine
      { sound := hsame₂.sound hl.sound
        opened := ?_
        fit := ?_
        ids := ?_
        manifest := ?_
        live := ?_
        log := ?_ }
    · refine List.rel_append (List.rel_append ?_ ?_) ?_
      · exact hF.same hsame₂ fun t ht =>
          hkeep t (ne_of_lt (hfl t ht)) fun u hu => ne_of_lt (hfs t ht u hu)
      · exact List.Forall₂.cons ⟨i, rfl, hb₂⟩ List.Forall₂.nil
      · exact hB.same hsame₂ fun t ht =>
          hkeep t (ne_of_gt (hbl t ht)) fun u hu => ne_of_gt (hbs t ht u hu)
    · exact hat.fit hl.fit hfits (hat.sorted_merged hl.fit _ _)
    · exact hat.ids_compacted out
    · exact ⟨g, j, hmb₂⟩
    · show (applyAll (held.edits ++ deleteEdits stale)).liveTables.keys = _
      rw [applyAll_append]
      exact hat.live hl.live out
    · obtain ⟨k, n, hlog⟩ := hl.log
      exact ⟨k, n, hlog.same hsame₂ (by simp)⟩

/-- Nothing to compact. -/
theorem compactStepImpl_none (hl : Layout env w.vol db held)
    (hpick : pickHeld env held.tables db.opts.compactionThreshold = none) :
    DbInner.compactStepImpl env db w = (.ok false, db, w) := by
  unfold DbInner.compactStepImpl
  rw [M.bind_ok (M.self_apply _ _), M.bind_ok (pickCompaction_quiet _ hl.opened), hpick]
  rfl

theorem compactStep_ok {r : Bool} {db' : DbInner} {w' : World} (hfail : db.failed = none)
    (h : DbInner.compactStepImpl env db w = (.ok r, db', w')) :
    DbInner.compactStep env db w = (.ok r, db', w') := by
  unfold DbInner.compactStep
  rw [M.bind_ok (health_ok hfail), latching_ok h]

end Publish

end LsmKv
