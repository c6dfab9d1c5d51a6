import LsmKv.FsQuiet
import LsmKv.WalLog

/-!
# The log's methods when nothing fails

**Results.**
* `Wal.appendBatch_quiet`: an append puts one frame behind the file; on the way
  the file has some initial part of it.
* `Wal.create_quiet`, `Wal.openAppend_quiet`, `Wal.replay_quiet`: the other
  methods in the same form.
-/

namespace LsmKv

open Foundation

namespace Wal

variable {env : Env} {w : World} {wal : Wal} {path : Path}

/-- The frame an append writes. -/
def frameOf (env : Env) (wal : Wal) (records : List Record) : Bytes :=
  frame (wal.checksum.hash env) (batchPayload wal.counted records)

/-- The handle has nothing buffered. -/
def Drained (wal : Wal) : Prop := wal.file.buf = []

theorem Drained.eq (h : wal.Drained) : { wal with file := { wal.file with buf := [] } } = wal := by
  obtain ⟨⟨file, buf, cap, failed⟩, path, sync, checksum, counted⟩ := wal
  cases h
  rfl

/-- Three writes and a last step on the file are one method of the file. -/
theorem onFile_writes (m : M BufAppend Unit) (a b c : Bytes) :
    onFile (M.each BufAppend.write [a, b, c] >>= fun _ => m) = (do
      onFile (BufAppend.write a)
      onFile (BufAppend.write b)
      onFile (BufAppend.write c)
      onFile m : M Wal Unit) := by
  have hz := fun (m : M BufAppend Unit) (f : Unit → M BufAppend Unit) =>
    M.zoom_bind Wal.file (fun self file => { self with file := file })
      (fun _ _ => rfl) (fun _ _ _ => rfl) m f
  have hnil : M.each BufAppend.write [] = pure () := rfl
  simp only [M.each_cons, hnil, bind_assoc, pure_bind, onFile, ← hz]

/-- An append of a batch the format takes. -/
theorem appendBatch_quiet (env : Env) (wal : Wal) (hq : w.Quiet) (hd : wal.Drained)
    {records : List Record}
    (hne : records ≠ []) (htake : wal.counted = true ∨ records.length = 1) :
    ∃ w', appendBatch env records wal w = (.ok (), wal, w') ∧
      w'.vol = syncedAs wal.sync wal.file.file
        (w.vol.append wal.file.file (wal.frameOf env records)) ∧
      w.Grew w' (fun v =>
        (∃ n, v = w.vol.append wal.file.file ((wal.frameOf env records).take n)) ∨
          v = syncedAs wal.sync wal.file.file
            (w.vol.append wal.file.file (wal.frameOf env records))) := by
  have hcond : ¬ (wal.counted = false ∧ records.length > 1) := by
    rintro ⟨hc, hl⟩
    rcases htake with ht | ht
    · simp [ht] at hc
    · omega
  obtain ⟨w₁, hrun₁, hvol₁, hgrew₁⟩ := BufAppend.writeFlush_quiet (b := wal.file) hq
    [le 4 (wal.checksum.hash env (batchPayload wal.counted records)).toNat,
      le 4 (batchPayload wal.counted records).length, batchPayload wal.counted records]
  have hbytes : wal.file.buf ++
      [le 4 (wal.checksum.hash env (batchPayload wal.counted records)).toNat,
        le 4 (batchPayload wal.counted records).length,
        batchPayload wal.counted records].flatten = wal.frameOf env records := by
    rw [show wal.file.buf = [] from hd]
    simp [frameOf, frame]
  rw [hbytes] at hvol₁ hgrew₁
  have hfile := M.zoom_eq Wal.file (fun self file => { self with file := file })
    (s := wal) hrun₁
  simp only [hd.eq] at hfile
  obtain ⟨w₂, hrun₂, hvol₂, hgrew₂⟩ :=
    File.syncAs_grew (s := wal) (i := wal.file.file) hgrew₁.quiet wal.sync
  rw [hvol₁] at hvol₂ hgrew₂
  refine ⟨w₂, ?_, hvol₂, ?_⟩
  · unfold appendBatch
    rw [M.bind_ok (M.self_apply wal w), if_neg hne, if_neg hcond]
    have hseq := onFile_writes BufAppend.flush
      (le 4 (wal.checksum.hash env (batchPayload wal.counted records)).toNat)
      (le 4 (batchPayload wal.counted records).length) (batchPayload wal.counted records)
    have hall := M.bind_ok (f := fun _ => File.syncAs wal.file.file wal.sync)
      (show onFile _ wal w = _ from hfile)
    rw [hseq, hrun₂] at hall
    simpa only [bind_assoc] using hall
  · exact World.Grew.trans (hgrew₁.mono fun v hv => Or.inl hv)
      (hgrew₂.mono fun v hv => Or.inr hv)

/-- An append of nothing does nothing. -/
theorem appendBatch_nil : appendBatch env [] wal w = (.ok (), wal, w) := rfl

/-- Appends one after another put their frames behind the file; an empty batch
has none. -/
theorem appendEach_quiet (env : Env) {batches : List (List Record)} (hq : w.Quiet)
    (hd : wal.Drained)
    (htake : ∀ b ∈ batches, wal.counted = true ∨ b.length ≤ 1) :
    ∃ w', M.each (appendBatch env) batches wal w = (.ok (), wal, w') ∧
      w'.Quiet ∧ w'.vol.lookup = w.vol.lookup ∧
      (w'.vol.inodes wal.file.file).bytes =
        (w.vol.inodes wal.file.file).bytes ++
          (batches.filter (· ≠ [])).flatMap (wal.frameOf env) := by
  induction batches generalizing w with
  | nil => exact ⟨w, rfl, hq, rfl, by simp⟩
  | cons b bs ih =>
      have hrest : ∀ x ∈ bs, wal.counted = true ∨ x.length ≤ 1 :=
        fun x hx => htake x (by simp [hx])
      by_cases hb : b = []
      · subst hb
        obtain ⟨w₂, hrun₂, hq₂, hnames₂, hbytes₂⟩ := ih hq hrest
        refine ⟨w₂, ?_, hq₂, hnames₂, by simpa using hbytes₂⟩
        rw [M.each_cons, M.bind_ok appendBatch_nil, hrun₂]
      · have hone : wal.counted = true ∨ b.length = 1 := by
          rcases htake b (by simp) with h | h
          · exact Or.inl h
          · have := List.length_pos_iff.mpr hb
            exact Or.inr (by omega)
        obtain ⟨w₁, hrun₁, hvol₁, hgrew₁⟩ := appendBatch_quiet env wal hq hd hb hone
        obtain ⟨w₂, hrun₂, hq₂, hnames₂, hbytes₂⟩ := ih hgrew₁.quiet hrest
        have hnames₁ : w₁.vol.lookup = w.vol.lookup := by
          rw [hvol₁]
          unfold syncedAs
          split_ifs <;> rfl
        have hbytes₁ : (w₁.vol.inodes wal.file.file).bytes =
            (w.vol.inodes wal.file.file).bytes ++ wal.frameOf env b := by
          rw [hvol₁]
          unfold syncedAs
          split_ifs <;> simp
        refine ⟨w₂, ?_, hq₂, hnames₂.trans hnames₁, ?_⟩
        · rw [M.each_cons, M.bind_ok hrun₁, hrun₂]
        · rw [hbytes₂, hbytes₁, List.filter_cons_of_pos (by simpa using hb),
            List.flatMap_cons, List.append_assoc]

/-- A handle on inode `i` for a log of format `kind`. -/
def handle (i : Nat) (path : Path) (sync : SyncMode) (kind : Kind) : Wal :=
  { file := BufAppend.new i
    path := path
    sync := sync
    checksum := walChecksum kind
    counted := kind.counted }

theorem drained_handle (i : Nat) (sync : SyncMode) (kind : Kind) :
    (handle i path sync kind).Drained := rfl

/-- The frames a handle writes are those of its format. -/
theorem flatMap_frameOf_handle (i : Nat) (sync : SyncMode) (kind : Kind)
    (batches : List (List Record)) :
    batches.flatMap ((handle i path sync kind).frameOf env) =
      frames ((walChecksum kind).hash env) (logPayloads kind batches) := by
  simp only [frames, logPayloads, List.flatMap_map]
  rfl

section Methods

variable {σ : Type} {s : σ} {i : Nat} {sync : SyncMode}

/-- The header of a new log is flushed before the handle is handed out. -/
theorem writeHeader_quiet (path : Path) (sync : SyncMode) (i : Nat) (s : σ) (hq : w.Quiet) :
    ∃ w', (do
        let (_, wal) ← M.on (handle i path sync newestLog)
          (onFile (BufAppend.write (encodeHeader walMagic walVersion)))
        let (_, wal) ← M.on wal (onFile BufAppend.flush)
        return wal : M σ Wal) s w = (.ok (handle i path sync newestLog), s, w') ∧
      w'.vol = w.vol.append i (logFront newestLog) ∧
      w.Grew w' (fun v => v = w.vol.append i (logFront newestLog)) := by
  have hsmall : ¬ (BufAppend.new i).cap ≤ (encodeHeader walMagic walVersion).length := by
    rw [length_encodeHeader]
    show ¬ max appendBufferBytes 1 ≤ 8
    decide
  have hwrite : BufAppend.write (encodeHeader walMagic walVersion) (BufAppend.new i) w =
      (.ok (), { BufAppend.new i with buf := encodeHeader walMagic walVersion }, w) := by
    have hbuf : (BufAppend.new i).buf = [] := rfl
    simp only [BufAppend.write, M.bind_apply, M.update_apply, M.self_apply, hbuf,
      List.nil_append]
    rw [if_neg hsmall]
    rfl
  obtain ⟨w', hflush, hvol, hgrew⟩ := BufAppend.flush_quiet
    (b := { BufAppend.new i with buf := encodeHeader walMagic walVersion }) hq
  refine ⟨w', ?_, hvol, hgrew⟩
  have h₁ := M.on_ok (s := s) (show onFile _ (handle i path sync newestLog) w = _ from
    M.zoom_eq Wal.file (fun self file => { self with file := file }) hwrite)
  rw [M.bind_ok h₁]
  have h₂ := M.on_ok (s := s) (show onFile _ (_ : Wal) w = _ from
    M.zoom_eq Wal.file (fun self file => { self with file := file })
      (s := { handle i path sync newestLog with
        file := { BufAppend.new i with buf := encodeHeader walMagic walVersion } }) hflush)
  simp only
  rw [M.bind_ok h₂]
  rfl

/-- What the rest of `open_append` does with a log that has bytes in it: nothing more. -/
theorem openAppend_of_front {n : Nat} {kind : Kind} {w' : World} (sync : SyncMode)
    (hfront : (openFront path : M σ (Nat × Nat × Kind)) s w = (.ok (i, n, kind), s, w'))
    (hn : n ≠ 0) (hkind : kind ≠ .empty) :
    (openAppend path sync : M σ Wal) s w = (.ok (handle i path sync kind), s, w') := by
  unfold openAppend
  rw [M.bind_ok hfront]
  simp only [if_neg hkind, if_neg hn]
  rfl

/-- An empty log is opened without a read. -/
theorem openFront_nil (hl : w.vol.lookup path = some i) (he : (w.vol.inodes i).bytes = []) :
    (openFront path : M σ (Nat × Nat × Kind)) s w = (.ok (i, 0, .empty), s, w) := by
  unfold openFront
  rw [M.bind_ok (Fs.openAppend_some hl), M.bind_ok File.size_apply, he]
  rfl

/-- Opening an empty log goes on to the header. -/
theorem openAppend_nil (sync : SyncMode) (hl : w.vol.lookup path = some i)
    (he : (w.vol.inodes i).bytes = []) :
    (openAppend path sync : M σ Wal) s w = (do
        let (_, wal) ← M.on (handle i path sync newestLog)
          (onFile (BufAppend.write (encodeHeader walMagic walVersion)))
        let (_, wal) ← M.on wal (onFile BufAppend.flush)
        return wal : M σ Wal) s w := by
  unfold openAppend
  rw [M.bind_ok (openFront_nil hl he)]
  rfl

/-- Opening a log that has bytes in it for appending. -/
theorem openAppend_nonempty (sync : SyncMode) (hq : w.Quiet) (hl : w.vol.lookup path = some i)
    (hne : (w.vol.inodes i).bytes ≠ []) {kind : Kind}
    (hk : classify (w.vol.inodes i).bytes walMagic walVersion "the write-ahead log" =
      .ok kind) :
    (openAppend path sync : M σ Wal) s w = (.ok (handle i path sync kind), s, w) := by
  have hlen : (w.vol.inodes i).bytes.length ≠ 0 := by simpa using hne
  refine openAppend_of_front sync ?_ hlen (classify_ne_empty hne hk)
  unfold openFront
  rw [M.bind_ok (Fs.openAppend_some hl), M.bind_ok File.size_apply, if_neg hlen,
    M.bind_ok (File.readAt_quiet hq 0 headerLen)]
  simp only [List.drop_zero, classify_take, hk]
  rfl

/-- Opening an empty log for appending writes the header. -/
theorem openAppend_empty (sync : SyncMode) (s : σ) (hq : w.Quiet) (hl : w.vol.lookup path = some i)
    (he : (w.vol.inodes i).bytes = []) :
    ∃ w', (openAppend path sync : M σ Wal) s w = (.ok (handle i path sync newestLog), s, w') ∧
      w'.vol = w.vol.append i (logFront newestLog) ∧
      w.Grew w' (fun v => v = w.vol.append i (logFront newestLog)) := by
  obtain ⟨w', hrun, hvol, hgrew⟩ := writeHeader_quiet path sync i s hq
  refine ⟨w', ?_, hvol, hgrew⟩
  rw [openAppend_nil sync hl he]
  exact hrun

/-- Opening an absent log for appending creates it. -/
theorem openAppend_absent (sync : SyncMode) (s : σ) (hq : w.Quiet) (hl : w.vol.lookup path = none) :
    ∃ w', (openAppend path sync : M σ Wal) s w =
        (.ok (handle w.vol.fresh path sync newestLog), s, w') ∧
      w'.vol = (w.vol.create path).append w.vol.fresh (logFront newestLog) ∧
      w.Grew w' (fun v => v = w.vol.create path ∨
        v = (w.vol.create path).append w.vol.fresh (logFront newestLog)) := by
  have hq₁ : (w.touch fun v => v.create path).Quiet := hq.touch _
  have hl₁ : (w.touch fun v => v.create path).vol.lookup path = some w.vol.fresh := by
    simp
  have he₁ : ((w.touch fun v => v.create path).vol.inodes w.vol.fresh).bytes = [] := by
    simp
  obtain ⟨w', hrun, hvol, hgrew⟩ := openAppend_empty sync s hq₁ hl₁ he₁
  refine ⟨w', ?_, hvol, ?_⟩
  · have hfront : (openFront path : M σ (Nat × Nat × Kind)) s w =
        openFront path s (w.touch fun v => v.create path) := by
      unfold openFront
      rw [M.bind_ok (Fs.openAppend_none hl), M.bind_ok (Fs.openAppend_some hl₁)]
    unfold openAppend at hrun ⊢
    rw [M.bind_apply, hfront]
    exact hrun
  · exact World.Grew.trans (World.Grew.touch hq (Or.inl rfl)) (hgrew.mono fun v hv => Or.inr hv)

/-- A new log holds its header. -/
theorem create_quiet (path : Path) (sync : SyncMode) (s : σ) (hq : w.Quiet) :
    ∃ i w', (create path sync : M σ Wal) s w = (.ok (handle i path sync newestLog), s, w') ∧
      w'.Quiet ∧ w'.vol.lookup path = some i ∧
      (w'.vol.inodes i).bytes = logFront newestLog := by
  cases hl : w.vol.lookup path with
  | none =>
      obtain ⟨w', hrun, hvol, hgrew⟩ := writeHeader_quiet path sync w.vol.fresh s
        (hq.touch fun v => v.create path)
      refine ⟨w.vol.fresh, w', ?_, hgrew.quiet, by simp [hvol], by simp [hvol]⟩
      unfold create
      rw [M.bind_ok (Fs.openTruncate_none hl)]
      exact hrun
  | some i =>
      obtain ⟨w', hrun, hvol, hgrew⟩ := writeHeader_quiet path sync i s
        (hq.touch fun v => v.truncate i)
      refine ⟨i, w', ?_, hgrew.quiet, by simp [hvol, hl], by simp [hvol]⟩
      unfold create
      rw [M.bind_ok (Fs.openTruncate_some hl)]
      exact hrun

/-- Replaying a log that is there. -/
theorem replay_some (hq : w.Quiet) (hl : w.vol.lookup path = some i) :
    (replay env path : M σ (List Record)) s w =
      (replayBytes env (w.vol.inodes i).bytes, s, w) := by
  unfold replay
  rw [M.bind_ok (M.attempt_eq (Fs.openRead_some hl))]
  simp only
  rw [M.bind_ok (File.readAll_quiet hq)]
  rfl

/-- Replaying a log that is not there. -/
theorem replay_none (hl : w.vol.lookup path = none) :
    (replay env path : M σ (List Record)) s w = (.ok [], s, w) := by
  unfold replay
  rw [M.bind_ok (M.attempt_eq (Fs.openRead_none hl))]
  rfl

end Methods

section Files

open Volume

variable {σ : Type} {s : σ} {i n : Nat} {sync : SyncMode} {b : Bytes} {kind : Kind}

/-- An append puts one frame behind the file. -/
theorem appendBatch_bound (env : Env) (sync : SyncMode) {records : List Record} (hq : w.Quiet)
    (hs : w.vol.Sound) (hpath : ¬ Shares.may path) (hb : w.vol.Bound path i b n)
    (hne : records ≠ []) (htake : kind.Takes records) :
    ∃ w' n', appendBatch env records (handle i path sync kind) w =
        (.ok (), handle i path sync kind, w') ∧
      w'.vol.Bound path i (b ++ (handle i path sync kind).frameOf env records) n' ∧
      (sync = .durable →
        n' = (b ++ (handle i path sync kind).frameOf env records).length) ∧
      SameExcept [path] w.vol w'.vol ∧
      w.Grew w' (Appending w.vol path i b n ((handle i path sync kind).frameOf env records)) := by
  set wal := handle i path sync kind
  set more := wal.frameOf env records
  obtain ⟨w', hrun, hvol, hgrew⟩ :=
    appendBatch_quiet env wal hq (drained_handle i sync kind) hne htake
  rw [show wal.file.file = i from rfl, show wal.sync = sync from rfl] at hvol hgrew
  have hpart := fun b' => sameExcept_append hs hpath hb.name b'
  have hdur : n ≤ b.length := by
    have := hs.durable i
    rwa [hb.inode] at this
  have hlast : SameExcept [path] w.vol (syncedAs sync i (w.vol.append i more)) ∧
      ∃ n', n ≤ n' ∧ (syncedAs sync i (w.vol.append i more)).Bound path i (b ++ more) n' ∧
        (sync = .durable → n' = (b ++ more).length) := by
    unfold syncedAs
    split_ifs with hsync
    · refine ⟨(hpart more).trans (sameExcept_sync ((hpart _).sound hs) hpath (hb.append more).name),
        _, ?_, (hb.append more).sync, fun _ => rfl⟩
      rw [List.length_append]
      omega
    · exact ⟨hpart more, n, le_rfl, hb.append more, fun h => absurd h hsync⟩
  obtain ⟨hsame, n', hn', hbound, hfull⟩ := hlast
  refine ⟨w', n', hrun, by rw [hvol]; exact hbound, hfull, by rw [hvol]; exact hsame,
    hgrew.mono ?_⟩
  rintro v (⟨k, rfl⟩ | rfl)
  · exact ⟨hpart _, k, n, le_rfl, hb.append _⟩
  · exact ⟨hsame, more.length, n', hn', by rw [List.take_length]; exact hbound⟩

/-- A new log holds its header. -/
theorem create_bound (env : Env) (path : Path) (sync : SyncMode) (hq : w.Quiet)
    (hs : w.vol.Sound) (hpath : ¬ Shares.may path) :
    ∃ w' i, (create path sync : M σ Wal) s w = (.ok (handle i path sync newestLog), s, w') ∧
      w'.vol.Bound path i (logBytes env newestLog []) 0 ∧
      SameExcept [path] w.vol w'.vol ∧ w.Grew w' (SameExcept [path] w.vol) := by
  have h₁ := sameExcept_truncateAt hs hpath
  have hb₁ := bound_truncateAt w.vol path
  obtain ⟨w', hrun, hvol, hgrew⟩ := writeHeader_quiet path sync (w.vol.inodeAt path) s
    (hq.touch fun v => v.truncateAt path)
  have h₂ := h₁.trans (sameExcept_append (h₁.sound hs) hpath hb₁.name (logFront newestLog))
  refine ⟨w', w.vol.inodeAt path, ?_, ?_, by rw [hvol]; exact h₂,
    (World.Grew.touch hq h₁).trans (hgrew.mono ?_)⟩
  · unfold create
    rw [M.bind_ok (Fs.openTruncate_apply path)]
    exact hrun
  · rw [hvol]
    have := hb₁.append (logFront newestLog)
    rwa [List.nil_append, ← List.append_nil (logFront newestLog)] at this
  · rintro v rfl
    exact h₂

/-- Records appended one by one to a new log. -/
theorem appendEach_bound (env : Env) (sync : SyncMode) (records : List Record)
    {batches : List (List Record)} (hq : w.Quiet) (hs : w.vol.Sound) (hpath : ¬ Shares.may path)
    (hb : w.vol.Bound path i (logBytes env newestLog batches) n) :
    ∃ w' n', M.each (append env) records (handle i path sync newestLog) w =
        (.ok (), handle i path sync newestLog, w') ∧
      w'.vol.Bound path i (logBytes env newestLog (batches ++ records.map (fun r => [r]))) n' ∧
      SameExcept [path] w.vol w'.vol ∧ w.Grew w' (SameExcept [path] w.vol) := by
  induction records generalizing w batches n with
  | nil => exact ⟨w, n, rfl, by simpa using hb, SameExcept.refl _ _, World.Grew.refl hq⟩
  | cons r rs ih =>
      obtain ⟨w₁, n₁, hrun₁, hb₁, _, hsame₁, hgrew₁⟩ := appendBatch_bound env
        sync hq hs hpath hb (by simp) (takes_newestLog [r])
      have hlog : logBytes env newestLog batches ++
          (handle i path sync newestLog).frameOf env [r] =
            logBytes env newestLog (batches ++ [[r]]) := by
        rw [logBytes_append]
        simp [frames, logPayloads, frameOf]
        rfl
      rw [hlog] at hb₁
      obtain ⟨w₂, n₂, hrun₂, hb₂, hsame₂, hgrew₂⟩ := ih hgrew₁.quiet (hsame₁.sound hs) hb₁
      refine ⟨w₂, n₂, ?_, ?_, hsame₁.trans hsame₂, ?_⟩
      · rw [M.each_cons, M.bind_ok (show append env r _ w = _ from hrun₁), hrun₂]
      · rw [List.map_cons]
        simpa using hb₂
      · exact (hgrew₁.mono fun v hv => hv.same).trans (hgrew₂.mono fun v hv => hsame₁.trans hv)

/-- Making a log durable. -/
theorem syncAll_bound (sync : SyncMode) (kind : Kind) (hq : w.Quiet) (hs : w.vol.Sound)
    (hpath : ¬ Shares.may path) (hb : w.vol.Bound path i b n) :
    ∃ w', syncAll (handle i path sync kind) w = (.ok (), handle i path sync kind, w') ∧
      w'.vol.Bound path i b b.length ∧ SameExcept [path] w.vol w'.vol ∧
      w.Grew w' (SameExcept [path] w.vol) := by
  obtain ⟨w₁, hrun₁, hvol₁, hgrew₁⟩ :=
    BufAppend.flush_quiet (b := (handle i path sync kind).file) hq
  have hsame : w.vol.append (handle i path sync kind).file.file
      (handle i path sync kind).file.buf = w.vol := append_nil _ _
  simp only [hsame] at hvol₁ hgrew₁
  have hflush : onFile BufAppend.flush (handle i path sync kind) w =
      (.ok (), handle i path sync kind, w₁) :=
    M.zoom_eq Wal.file (fun self file => { self with file := file })
      (s := handle i path sync kind) hrun₁
  have hlast : SameExcept [path] w.vol (w₁.vol.sync i) := by
    rw [hvol₁]
    exact sameExcept_sync hs hpath hb.name
  refine ⟨w₁.touch (fun v => v.sync i), ?_, ?_, hlast, ?_⟩
  · unfold syncAll
    rw [M.bind_ok hflush]
    rfl
  · rw [World.vol_touch, hvol₁]
    exact hb.sync
  · refine World.Grew.trans (hgrew₁.mono ?_) (World.Grew.touch hgrew₁.quiet hlast)
    rintro v rfl
    exact SameExcept.refl _ _

/-- Renaming a log; the handle follows it. -/
theorem renameTo_apply (dest : Path) (hl : w.vol.lookup path = some i) :
    renameTo dest (handle i path sync kind) w =
      (.ok (), handle i dest sync kind, w.touch (fun v => v.rename path dest)) := by
  unfold renameTo
  rw [M.bind_ok (M.self_apply _ _),
    M.bind_ok (Fs.rename_some (p := (handle i path sync kind).path) hl)]
  rfl

end Files

end Wal

end LsmKv
