import LsmKv.Sequential
import LsmKv.Steady
import LsmKv.WalResume

/-!
# Writes whose append is refused

A write whose append the filesystem refuses returns the error and leaves the MemTable as it
was.  The bytes stay in the buffer of the log, and some of them may be in the file.  A later
write appends the buffer as a whole, and so brings back a write that failed, or goes behind a
part of a frame where no replay comes to.  Without a later write the file ends inside a frame,
and a replay leaves that part out.

**Results.**
* `Wal.appendBatch_drained`: an append in any world, on a handle with nothing buffered.
* `refused_writes`: in every run of writes and refusals the handle reads the writes that
  returned Ok, and no others; so does the directory opened again, if only the last call of the
  run may have failed.
-/

namespace LsmKv

open Foundation Volume

section Drained

variable {env : Env} {w : World} {b : BufAppend} {bytes : Bytes}

/-- A write that the buffer takes. -/
theorem BufAppend.write_small (h : (b.buf ++ bytes).length < b.cap) :
    BufAppend.write bytes b w = (.ok (), { b with buf := b.buf ++ bytes }, w) := by
  unfold BufAppend.write
  rw [M.bind_ok (M.update_apply _ _ _), M.bind_ok (M.self_apply _ _), if_neg (Nat.not_le.mpr h)]
  rfl

theorem File.append_self {σ : Type} (s : σ) (w : World) (i : Nat) (bytes : Bytes) :
    ((File.append i bytes : M σ Unit) s w).2.1 = s := by
  unfold File.append
  split <;> rfl

/-- A flush hands the buffer over, and keeps it if it is refused. -/
theorem BufAppend.flush_eq (h : b.buf ≠ []) :
    BufAppend.flush b w = match (File.append b.file b.buf : M BufAppend Unit) b w with
      | (.ok _, _, w') => (.ok (), { b with buf := [] }, w')
      | (.error e, _, w') => (.error e, { b with writeFailed := true }, w') := by
  have hself := File.append_self b w b.file b.buf
  unfold BufAppend.flush
  rw [M.bind_ok (M.self_apply _ _), if_neg h, M.bind_apply, M.attempt_apply]
  generalize (File.append b.file b.buf : M BufAppend Unit) b w = out at hself ⊢
  obtain ⟨_ | _, b', w'⟩ := out
  · cases hself
    rfl
  · cases hself
    rfl

/-- The last write of a frame and the flush hand the buffer over once. -/
theorem BufAppend.write_flush (h : b.buf ++ bytes ≠ []) :
    (BufAppend.write bytes >>= fun _ => BufAppend.flush) b w =
      BufAppend.flush { b with buf := b.buf ++ bytes } w := by
  by_cases hsmall : (b.buf ++ bytes).length < b.cap
  · rw [M.bind_ok (BufAppend.write_small hsmall)]
  · -- the write has handed everything over, and the flush finds nothing
    have hwrite : BufAppend.write bytes b w =
        BufAppend.flush { b with buf := b.buf ++ bytes } w := by
      unfold BufAppend.write
      rw [M.bind_ok (M.update_apply _ _ _), M.bind_ok (M.self_apply _ _),
        if_pos (Nat.not_lt.mp hsmall)]
    rw [M.bind_apply, hwrite, BufAppend.flush_eq h]
    generalize (File.append _ _ : M BufAppend Unit) _ w = out
    obtain ⟨_ | _, b', w'⟩ := out
    · rfl
    · rfl

variable {wal : Wal} {records : List Record}

/-- An append on a handle with nothing buffered hands the file one frame. -/
theorem Wal.appendBatch_drained (hd : wal.Drained) (hcap : 8 < wal.file.cap) (hne : records ≠ [])
    (htake : wal.counted = true ∨ records.length = 1) :
    Wal.appendBatch env records wal w =
      match (File.append wal.file.file (wal.frameOf env records) : M Wal Unit) wal w with
      | (.ok _, _, w') => File.syncAs wal.file.file wal.sync wal w'
      | (.error e, _, w') => (.error e, { wal with file :=
          { wal.file with buf := wal.frameOf env records, writeFailed := true } }, w') := by
  have hcond : ¬ (wal.counted = false ∧ records.length > 1) := by
    rintro ⟨hc, hl⟩
    rcases htake with ht | ht
    · simp [ht] at hc
    · omega
  set crc := le 4 (wal.checksum.hash env (batchPayload wal.counted records)).toNat with hcrc
  set len := le 4 (batchPayload wal.counted records).length with hlen
  set payload := batchPayload wal.counted records with hpayload
  have hfront : (crc ++ len).length = 8 := by simp [hcrc, hlen]
  have hframe : crc ++ len ++ payload = wal.frameOf env records := by
    simp [hcrc, hlen, hpayload, Wal.frameOf, frame]
  -- the three writes and the flush, as one method of the file
  have hbuf : (M.each BufAppend.write [crc, len, payload] >>= fun _ => BufAppend.flush) wal.file w =
      BufAppend.flush { wal.file with buf := wal.frameOf env records } w := by
    have hnil : M.each BufAppend.write [] = pure () := rfl
    have hempty : wal.file.buf = [] := hd
    simp only [M.each_cons, hnil, bind_assoc, pure_bind]
    rw [M.bind_ok (BufAppend.write_small (by rw [hempty]; simp [hcrc]; omega)),
      M.bind_ok (BufAppend.write_small (by rw [hempty, List.nil_append, hfront]; exact hcap)),
      BufAppend.write_flush (by simp [hempty, hcrc, le])]
    simp only [hempty, List.nil_append, hframe]
  have hseq := Wal.onFile_writes BufAppend.flush crc len payload
  unfold Wal.appendBatch
  rw [M.bind_ok (M.self_apply wal w), if_neg hne, if_neg hcond]
  have hall : (Wal.onFile (M.each BufAppend.write [crc, len, payload] >>= fun _ =>
      BufAppend.flush) >>= fun _ => File.syncAs wal.file.file wal.sync) wal w =
        (do
          Wal.onFile (BufAppend.write crc)
          Wal.onFile (BufAppend.write len)
          Wal.onFile (BufAppend.write payload)
          Wal.onFile BufAppend.flush
          File.syncAs wal.file.file wal.sync : M Wal Unit) wal w := by
    rw [hseq]
    simp only [bind_assoc]
  refine hall.symm.trans ?_
  have hne' : wal.frameOf env records ≠ [] := by
    rw [← hframe]
    simp [hcrc, le]
  rw [M.bind_apply, Wal.onFile, M.zoom_apply, hbuf, BufAppend.flush_eq hne']
  have hsame := hd.eq
  unfold File.append
  rcases w.refusals with _ | ⟨_ | k, rest⟩
  · simp only [hsame]
  · simp only [hsame]
  · rfl

/-- An append is taken, and then it does what it does in a quiet world; or it is refused, and
leaves a part of the frame that is not the whole. -/
theorem Wal.appendBatch_fates (env : Env) (hd : wal.Drained) (hcap : 8 < wal.file.cap)
    (hne : records ≠ []) (htake : wal.counted = true ∨ records.length = 1) (hw : w.refusals = [])
    (fates : List (Option Nat)) :
    (∃ w' rest, w'.refusals = [] ∧ Wal.appendBatch env records wal w = (.ok (), wal, w') ∧
      Wal.appendBatch env records wal { w with refusals := fates } =
        (.ok (), wal, { w' with refusals := rest })) ∨
    ∃ e wal' w' n, Wal.appendBatch env records wal { w with refusals := fates } =
        (.error e, wal', w') ∧ n < (wal.frameOf env records).length ∧
      w'.vol = w.vol.append wal.file.file ((wal.frameOf env records).take n) := by
  have hlen : 0 < (wal.frameOf env records).length := by
    rw [Wal.frameOf, length_frame]
    omega
  obtain ⟨vol, past, locks, refusals, reads⟩ := w
  cases hw
  simp only [Wal.appendBatch_drained hd hcap hne htake, File.append]
  rcases fates with _ | ⟨_ | k, rest⟩
  · left
    cases wal.sync <;> exact ⟨_, [], rfl, rfl, rfl⟩
  · left
    cases wal.sync <;> exact ⟨_, rest, rfl, rfl, rfl⟩
  · right
    exact ⟨_, _, _, _, rfl, by omega, rfl⟩

end Drained

/-- A write, by what became of its append. -/
theorem writeBatch_of_append {env : Env} {db : DbInner} {w w' : World} {batch : WriteBatch}
    {r : Except Error Unit} {wal : Wal} (hfail : db.failed = none) (hne : batch ≠ [])
    (happend : Wal.appendBatch env (DbInner.numberRecords db.nextSeq batch) db.wal w =
      (r, wal, w')) :
    DbInner.writeBatch env batch db w = match r with
      | .ok _ => (.ok (), { db.written batch with wal := wal }, w')
      | .error e => (.error e, { db with
          nextSeq := (db.nextSeq + batch.length) % 2 ^ 64
          wal := wal }, w') := by
  have hwal : DbInner.onWal (Wal.appendBatch env (DbInner.numberRecords db.nextSeq batch))
      { db with nextSeq := (db.nextSeq + batch.length) % 2 ^ 64 } w =
        (r, { db with nextSeq := (db.nextSeq + batch.length) % 2 ^ 64, wal := wal }, w') :=
    M.zoom_eq DbInner.wal (fun self wal => { self with wal := wal })
      (s := { db with nextSeq := (db.nextSeq + batch.length) % 2 ^ 64 }) happend
  unfold DbInner.writeBatch
  rw [M.bind_ok (health_ok hfail), if_neg hne, M.bind_ok (M.self_apply _ _),
    M.bind_ok (M.update_apply _ _ _), M.bind_apply, hwal]
  cases r with
  | ok _ => rfl
  | error e => rfl

namespace Legible

variable {env : Env} {w w' : World} {db db' : DbInner} {held : Held}
variable {now : SortedMap Bytes Bytes}

/-- What an append leaves in the log does not change what is read. -/
theorem beside (h : Legible env w db held now []) {fates : List (Option Nat)} {i : Nat}
    (next : Nat) {wal : Wal} {active : MemTable} {records : List (List Record)}
    {now' : SortedMap Bytes Bytes}
    (hb : Beside (walPath db.dir) i { w with refusals := fates } w') (hi : wal.file.file = i)
    (hc : Carries { db with nextSeq := next, active := active }
      { held with log := records } now' [])
    (hseq : next ≤ u64Max) :
    Legible env { w' with refusals := [] }
      { db with nextSeq := next, active := active, wal := wal } { held with log := records }
        now' [] where
  quiet := ⟨rfl, hb.reads.trans h.quiet.reads⟩
  sound := hb.same.sound h.sound
  log := hb.name.trans (congrArg some hi.symm)
  healthy := h.healthy
  opened := h.opened.same hb.same (by simp)
  fit := h.fit
  carries := ⟨hc.frozen, hc.sorted, hc.serving, hc.snapshots⟩
  seq := hseq

/-- A write that returned applies its mutations, or none of them. -/
theorem attempted (h : Legible env w db held now []) {fates : List (Option Nat)}
    {batch : WriteBatch} (hroom : db.nextSeq + batch.length ≤ u64Max) {r : Except Error Unit}
    (hrun : DbInner.writeBatch env batch db { w with refusals := fates } = (r, db', w')) :
    ∃ held', Legible env { w' with refusals := [] } db' held'
        (if r.isOk then applyBatch now batch else now) [] ∧ db'.dir = db.dir := by
  by_cases hne : batch = []
  · subst hne
    cases hrun.symm.trans (writeBatch_nil h.healthy)
    exact ⟨held, ⟨⟨rfl, h.quiet.reads⟩, h.sound, h.log, h.healthy, h.opened, h.fit, h.carries,
      h.seq⟩, rfl⟩
  · have hmod : (db.nextSeq + batch.length) % 2 ^ 64 = db.nextSeq + batch.length :=
      Nat.mod_eq_of_lt (by
        unfold u64Max at hroom
        omega)
    obtain ⟨hi, hb⟩ := Steady.appendBatch env (p := walPath db.dir) (by simp)
      (DbInner.numberRecords db.nextSeq batch) db.wal { w with refusals := fates } rfl h.sound h.log
    generalize happend : Wal.appendBatch env (DbInner.numberRecords db.nextSeq batch) db.wal
      { w with refusals := fates } = out at hi hb
    obtain ⟨r₀, wal, w₁⟩ := out
    have hwrite := hrun.symm.trans (writeBatch_of_append h.healthy hne happend)
    cases r₀ with
    | ok _ =>
        cases hwrite
        have hc := h.carries.written hroom (DbInner.numberRecords db.nextSeq batch)
        exact ⟨_, h.beside _ hb hi hc (hmod.le.trans hroom), rfl⟩
    | error e =>
        cases hwrite
        refine ⟨held, h.beside ((db.nextSeq + batch.length) % 2 ^ 64) hb hi
          ⟨h.carries.frozen, h.carries.sorted, ?_, h.carries.snapshots⟩ (hmod.le.trans hroom), rfl⟩
        show Serving _ ((db.nextSeq + batch.length) % 2 ^ 64) now []
        rw [hmod]
        exact h.carries.serving.skip (Nat.le_add_right _ _)

end Legible

/-- Runs of writes from a handle, one call after another: what each returned, latest first, and
the map of those that returned Ok.  The filesystem decides the fate of the appends of each. -/
inductive Attempted (env : Env) (db₀ : DbInner) (w₀ : World) (now₀ : SortedMap Bytes Bytes) :
    List Bool → DbInner → World → SortedMap Bytes Bytes → Prop
  | start : Attempted env db₀ w₀ now₀ [] db₀ w₀ now₀
  | write {oks : List Bool} {db db' : DbInner} {w w' : World} {now : SortedMap Bytes Bytes}
      {r : Except Error Unit} (fates : List (Option Nat)) (batch : WriteBatch)
      (earlier : Attempted env db₀ w₀ now₀ oks db w now) (fits : WriteFits db batch)
      (run : DbInner.writeBatch env batch db { w with refusals := fates } = (r, db', w')) :
      Attempted env db₀ w₀ now₀ (r.isOk :: oks) db' { w' with refusals := [] }
        (if r.isOk then applyBatch now batch else now)

section Outcomes

variable {env : Env} {db db' : DbInner} {w w' : World} {held : Held} {now : SortedMap Bytes Bytes}
variable {batch : WriteBatch} {fates : List (Option Nat)}

/-- The handle on the log of an engine has nothing buffered. -/
theorem Engine.log (h : Engine env w db held now []) :
    db.wal.Drained ∧ 8 < db.wal.file.cap ∧ db.wal.counted = true ∧
      db.wal.checksum = walChecksum newestLog ∧
      ∃ n, w.vol.Bound (walPath db.dir) db.wal.file.file (logBytes env newestLog held.log) n := by
  obtain ⟨i, n, hlog⟩ := h.standing.layout.log
  have hb := hlog.bound
  rw [h.stands.kind] at hb
  rw [hlog.handle, h.stands.kind]
  exact ⟨rfl, show 8 < max appendBufferBytes 1 by decide, rfl, rfl, n, hb⟩

/-- A write that returned Ok is the write of a quiet world. -/
theorem Engine.taken (h : Engine env w db held now []) (hfits : WriteFits db batch)
    (hrun : DbInner.writeBatch env batch db { w with refusals := fates } = (.ok (), db', w')) :
    ∃ held', Engine env { w' with refusals := [] } db' held' (applyBatch now batch) [] ∧
      db'.dir = db.dir := by
  have hquiet : DbInner.writeBatch env batch db w = (.ok (), db', { w' with refusals := [] }) := by
    by_cases hne : batch = []
    · subst hne
      cases hrun.symm.trans (writeBatch_nil h.standing.healthy)
      rw [World.refusals_nil h.standing.quiet.accepts]
      exact writeBatch_nil h.standing.healthy
    · obtain ⟨hd, hcap, hcounted, -⟩ := h.log
      rcases Wal.appendBatch_fates env hd hcap (numberRecords_ne_nil db.nextSeq hne)
        (Or.inl hcounted) h.standing.quiet.accepts fates with
        ⟨w₁, rest, hw₁, hquiet, htaken⟩ | ⟨e, wal, w₁, n, hrefused, -⟩
      · cases hrun.symm.trans (writeBatch_of_append h.standing.healthy hne htaken)
        rw [writeBatch_of_append h.standing.healthy hne hquiet]
        exact congrArg _ (congrArg _ (World.refusals_nil hw₁).symm)
      · cases hrun.symm.trans (writeBatch_of_append h.standing.healthy hne hrefused)
  obtain ⟨db₁, held₁, w₁, hrun₁, hengine, hdir, -⟩ := h.write hfits
  cases hquiet.symm.trans hrun₁
  exact ⟨held₁, hengine, hdir⟩

/-- A write that failed leaves a part of its frame behind the log, and a replay leaves it out. -/
theorem Engine.failed (h : Engine env w db held now []) (hfits : WriteFits db batch) {e : Error}
    (hrun : DbInner.writeBatch env batch db { w with refusals := fates } = (.error e, db', w')) :
    Image env db.dir w'.vol (applyAll held.edits) held.tables held.log.flatten := by
  have hne : batch ≠ [] := by
    rintro rfl
    cases hrun.symm.trans (writeBatch_nil h.standing.healthy)
  obtain ⟨hd, hcap, hcounted, hsum, n, hb⟩ := h.log
  rcases Wal.appendBatch_fates env hd hcap (numberRecords_ne_nil db.nextSeq hne)
    (Or.inl hcounted) h.standing.quiet.accepts fates with
    ⟨w₁, rest, -, -, htaken⟩ | ⟨e, wal, w₁, k, hrefused, hk, hvol⟩
  · cases hrun.symm.trans (writeBatch_of_append h.standing.healthy hne htaken)
  · cases hrun.symm.trans (writeBatch_of_append h.standing.healthy hne hrefused)
    set part := db.wal.frameOf env (DbInner.numberRecords db.nextSeq batch) with hpart
    obtain ⟨himg, -⟩ := h.standing.layout.image h.stands.kind h.stands.fits
    have hsame := sameExcept_append h.standing.layout.sound (by simp) hb.name (part.take k)
    rw [← hvol] at hsame
    have hwal : walBytes w'.vol db.dir =
        some (logBytes env newestLog held.log ++ part.take k) := by
      rw [walBytes, hvol, (hb.append _).file]
      rfl
    have htorn : nextFrame ((walChecksum newestLog).hash env) (part.take k) = none := by
      rw [hpart, Wal.frameOf, hsum] at hk ⊢
      exact nextFrame_torn (hfits.fits.length _) (List.take_prefix _ _)
        (lt_of_le_of_lt (List.length_take_le _ _) hk)
    refine himg.relogged hsame (by simp) (by simp) (by simp) ?_
    rw [hwal]
    exact replayBytes_newest_append h.stands.fits htorn

end Outcomes

section Runs

variable {env : Env} {dir : String} {db₀ db : DbInner} {w₀ w : World}
variable {now₀ now : SortedMap Bytes Bytes} {held₀ held : Held} {oks : List Bool}

/-- Every state of such a run can be read. -/
theorem Attempted.legible (h : Attempted env db₀ w₀ now₀ oks db w now)
    (h₀ : Legible env w₀ db₀ held₀ now₀ []) :
    ∃ held, Legible env w db held now [] ∧ db.dir = db₀.dir := by
  induction h with
  | start => exact ⟨held₀, h₀, rfl⟩
  | write fates batch _ fits run ih =>
      obtain ⟨held, hl, hdir⟩ := ih
      obtain ⟨held', hl', hdir'⟩ := hl.attempted fits.seqs run
      exact ⟨held', hl', hdir'.trans hdir⟩

/-- A run in which every write returned Ok is one of a quiet world. -/
theorem Attempted.engine (h : Attempted env db₀ w₀ now₀ oks db w now)
    (h₀ : Engine env w₀ db₀ held₀ now₀ []) (hoks : ∀ ok ∈ oks, ok = true) :
    ∃ held, Engine env w db held now [] ∧ db.dir = db₀.dir := by
  induction h with
  | start => exact ⟨held₀, h₀, rfl⟩
  | @write oks db db' w w' now r fates batch _ fits run ih =>
      obtain ⟨held, hengine, hdir⟩ := ih fun ok hok => hoks ok (List.mem_cons_of_mem _ hok)
      cases r with
      | ok _ =>
          obtain ⟨held', hengine', hdir'⟩ := hengine.taken fits run
          exact ⟨held', hengine', hdir'.trans hdir⟩
      | error e => cases hoks _ List.mem_cons_self

/-- If only the last write may have failed, then what the files hold is what an engine stood
for that reads the same. -/
theorem Attempted.image (h : Attempted env db₀ w₀ now₀ oks db w now)
    (h₀ : Engine env w₀ db₀ held₀ now₀ []) (hoks : ∀ ok ∈ oks.tail, ok = true) :
    ∃ db₁ w₁ held, Engine env w₁ db₁ held now [] ∧
      Image env db₀.dir w.vol (applyAll held.edits) held.tables held.log.flatten := by
  have hwhole : ∀ {db w now}, Attempted env db₀ w₀ now₀ oks db w now → (∀ ok ∈ oks, ok = true) →
      ∃ db₁ w₁ held, Engine env w₁ db₁ held now [] ∧
        Image env db₀.dir w.vol (applyAll held.edits) held.tables held.log.flatten := by
    intro db w now h hall
    obtain ⟨held, hengine, hdir⟩ := h.engine h₀ hall
    rw [← hdir]
    exact ⟨db, w, held, hengine,
      (hengine.standing.layout.image hengine.stands.kind hengine.stands.fits).1⟩
  cases h with
  | start => exact hwhole .start (by simp)
  | @write oks db db' w w' now r fates batch earlier fits run =>
      cases r with
      | ok a =>
          refine hwhole (.write fates batch earlier fits run) fun ok hok => ?_
          rcases List.mem_cons.mp hok with rfl | hok
          · rfl
          · exact hoks ok hok
      | error e =>
          obtain ⟨held, hengine, hdir⟩ := earlier.engine h₀ hoks
          have himg := hengine.failed fits run
          rw [hdir] at himg
          exact ⟨db, w, held, hengine, himg⟩

end Runs

/-- A handle whose lookups and walks answer from a map. -/
structure ReadsAs (env : Env) (db : DbInner) (w : World) (now : SortedMap Bytes Bytes) : Prop where
  get : ∀ key, DbInner.get env key db w = (.ok (now.find? key), db, w)
  scan : ∀ start stop limit, DbInner.scan env start stop limit db w =
    (.ok ((entriesWithin now start stop).take limit), db, w)

theorem Legible.readsAs {env : Env} {w : World} {db : DbInner} {held : Held}
    {now : SortedMap Bytes Bytes} (h : Legible env w db held now []) : ReadsAs env db w now :=
  ⟨h.get, h.scan⟩

/-- In every run of writes whose appends may be refused, the handle reads the writes that
returned Ok and no others.  If only the last of them may have failed, so does the directory
closed and opened again. -/
theorem refused_writes (env : Env) (dir : String) (db₀ : DbInner) (w₀ : World)
    (now₀ : SortedMap Bytes Bytes) (h₀ : Reaches env dir db₀ w₀ ⟨now₀, []⟩) (oks : List Bool)
    (db : DbInner) (w : World) (now : SortedMap Bytes Bytes)
    (h : Attempted env db₀ w₀ now₀ oks db w now) :
    ReadsAs env db w now ∧
      ((∀ ok ∈ oks.tail, ok = true) → ∀ opts, ∃ w₁ db' w',
        DbInner.close db w = (.ok (), db, w₁) ∧
          (assemble env dir opts : M Unit DbInner) () w₁ = (.ok db', (), w') ∧
          ReadsAs env db' w' now) := by
  obtain ⟨held₀, hengine₀, hdir₀, -⟩ := sequenced_of_reaches h₀
  obtain ⟨held, hlegible, hdir⟩ := h.legible hengine₀.legible
  refine ⟨hlegible.readsAs, fun hoks opts => ?_⟩
  obtain ⟨db₁, w₁, held₁, hengine₁, himg⟩ := h.image hengine₀ hoks
  set closed : World :=
    { w with locks := w.locks.filter (fun q => q ≠ lockPath db.dir) } with hclosed
  obtain ⟨w', db', hrun, hs', hopen, -, hgrew⟩ := assemble_quiet (s := ()) (w := closed) opts
    ⟨hlegible.quiet.accepts, hlegible.quiet.reads⟩ (by simp [hclosed, hdir]) himg
  obtain ⟨hnext, hserving⟩ := hengine₁.serving_again hopen
  rw [hdir₀] at hrun
  refine ⟨closed, db', w', rfl, hrun, Legible.readsAs (hopen.legible hgrew.quiet hs' himg.fit ?_
    hserving)⟩
  rw [hnext]
  exact hengine₁.standing.seq

/-- A put that is refused after three bytes, and the directory closed and opened again. -/
theorem refused_writes_one :
    ∃ db₀ w₀ e db w db' w', Reaches Stock.env "db" db₀ w₀ ⟨SortedMap.empty, []⟩ ∧
      DbInner.write Stock.env [1] (some [2]) db₀ { w₀ with refusals := [some 3] } =
        (.error e, db, w) ∧
      DbInner.get Stock.env [1] db w = (.ok none, db, w) ∧
      (assemble Stock.env "db" Options.default : M Unit DbInner) ()
        (DbInner.close db w).2.2 = (.ok db', (), w') ∧
      DbInner.get Stock.env [1] db' w' = (.ok none, db', w') := by
  have hfresh : FreshDir "db" Volume.empty := ⟨sound_empty, fun _ _ => rfl⟩
  obtain ⟨db₀, w₀, held, hrun, -⟩ := engine_fresh Stock.env Options.default
    (World.quiet_start Volume.empty) (by decide) hfresh
  have hreaches : Reaches Stock.env "db" db₀ w₀ ⟨SortedMap.empty, []⟩ :=
    .opened hfresh (by decide) hrun
  set out := DbInner.writeBatch Stock.env [([1], some [2])] db₀
    { w₀ with refusals := [some 3] } with hout
  obtain ⟨hseq, hfails, hspent⟩ :
      db₀.nextSeq = 0 ∧ out.1.isOk = false ∧ out.2.2.refusals = [] := by
    have hvalues := congrArg (fun r => r.1.toOption.map fun db =>
      let out := DbInner.writeBatch Stock.env [([1], some [2])] db
        { r.2.2 with refusals := [some 3] }
      (db.nextSeq, out.1.isOk, out.2.2.refusals)) hrun
    simpa using Option.some.inj (hvalues.symm.trans
      (show _ = some (0, false, []) by decide +kernel))
  have hfits : WriteFits db₀ [([1], some [2])] := by
    constructor
    · rw [hseq]
      decide
    · rw [hseq]
      decide
  obtain ⟨r, db, w⟩ := out
  cases r with
  | ok a => cases hfails
  | error e =>
      have hattempted : Attempted Stock.env db₀ w₀ SortedMap.empty [false] db
          { w with refusals := [] } SortedMap.empty :=
        .write [some 3] [([1], some [2])] .start hfits hout.symm
      rw [World.refusals_nil hspent] at hattempted
      obtain ⟨hhandle, hagain⟩ := refused_writes Stock.env "db" db₀ w₀ SortedMap.empty hreaches
        [false] db w SortedMap.empty hattempted
      obtain ⟨w₁, db', w', hclose, hopen, hreads⟩ := hagain (by simp) Options.default
      cases hclose
      exact ⟨db₀, w₀, e, db, w, db', w', hreaches, hout.symm, hhandle.get [1], hopen,
        hreads.get [1]⟩

/-- Whether each of two puts returned Ok, and the lookups of their keys in the directory opened
again. -/
structure PutsReopened where
  first : Bool
  second : Bool
  lookups : Option (Option Bytes × Option Bytes)
  deriving DecidableEq

/-- The first of two puts is refused after `part` bytes and the second is not. -/
def refusedThenTaken (part : Nat) (db : DbInner) (w : World) : PutsReopened :=
  let first := DbInner.write Stock.env [1] (some [2]) db { w with refusals := [some part] }
  let second := DbInner.write Stock.env [3] (some [4]) first.2.1 first.2.2
  let closed := DbInner.close second.2.1 second.2.2
  let opened := (assemble Stock.env "db" Options.default : M Unit DbInner) () closed.2.2
  let lookups : M DbInner (Option Bytes × Option Bytes) := do
    let one ← DbInner.get Stock.env [1]
    let three ← DbInner.get Stock.env [3]
    return (one, three)
  ⟨first.1.isOk, second.1.isOk,
    opened.1.toOption.bind fun db => (lookups db opened.2.2).1.toOption⟩

/-- A put that was refused as a whole comes back behind the next one; one that was refused
after three bytes takes the next one, which returned Ok, with it. -/
theorem refused_write_comes_back :
    ∃ db w, (assemble Stock.env "db" Options.default : M Unit DbInner) ()
        (World.start Volume.empty) = (.ok db, (), w) ∧
      refusedThenTaken 0 db w = ⟨false, true, some (some [2], some [4])⟩ ∧
      refusedThenTaken 3 db w = ⟨false, true, some (none, none)⟩ := by
  have hfresh : FreshDir "db" Volume.empty := ⟨sound_empty, fun _ _ => rfl⟩
  obtain ⟨db, w, held, hrun, -⟩ := engine_fresh Stock.env Options.default
    (World.quiet_start Volume.empty) (by decide) hfresh
  have hthen := fun part => congrArg (fun r => r.1.toOption.map fun db =>
    refusedThenTaken part db r.2.2) hrun
  exact ⟨db, w, hrun, Option.some.inj ((hthen 0).symm.trans (by decide +kernel)),
    Option.some.inj ((hthen 3).symm.trans (by decide +kernel))⟩

end LsmKv
