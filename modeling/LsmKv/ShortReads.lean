import LsmKv.LogFiles

/-!
# Logs on a file system with short reads

`File::read_at` may return fewer bytes than it was asked for.  `Wal::replay` reads the file
in a loop that goes on behind a short read; `Wal::open_append` takes the format of the log
from one call.

**Results.**
* `readAll_eq`: reading a whole file is not affected by short reads.
* `Unread.appendEach`: appends do not read.
* `appendKind_eq`: the format `open_append` sees is that of a headerless log whenever its
  read is short.
* `open_append_classifies_iff`: the two agree, and what is appended is read back, exactly
  when that read returns the whole header or the log has none.
-/

namespace LsmKv

open Foundation

namespace World

/-- The world with other limits on the coming reads. -/
def withReads (w : World) (reads : List Nat) : World := { w with shortReads := reads }

@[simp] theorem vol_withReads (w : World) (reads : List Nat) :
    (w.withReads reads).vol = w.vol := rfl

/-- How many bytes the next read of a header may return. -/
def firstRead (w : World) : Nat :=
  match w.shortReads with
  | [] => headerLen
  | c :: _ => min headerLen (max 1 c)

theorem firstRead_pos (w : World) : 0 < w.firstRead := by
  unfold firstRead headerLen
  split <;> omega

theorem firstRead_le (w : World) : w.firstRead ≤ headerLen := by
  unfold firstRead headerLen
  split <;> omega

end World

section Unread

variable {σ τ α β : Type}

/-- A method that reads no file: the limits on reads pass through it. -/
def Unread (m : M σ α) : Prop :=
  ∀ s w reads, m s (w.withReads reads) = ((m s w).1, (m s w).2.1, (m s w).2.2.withReads reads)

theorem Unread.pure (a : α) : Unread (pure a : M σ α) := fun _ _ _ => rfl

theorem Unread.bind {m : M σ α} {f : α → M σ β} (hm : Unread m) (hf : ∀ a, Unread (f a)) :
    Unread (m >>= f) := by
  intro s w reads
  rw [M.bind_apply, M.bind_apply, hm s w reads]
  rcases m s w with ⟨_ | a, s', w'⟩
  · rfl
  · exact hf a s' w' reads

theorem Unread.zoom {get : σ → τ} {set : σ → τ → σ} {m : M τ α} (hm : Unread m) :
    Unread (M.zoom get set m) := by
  intro s w reads
  rw [M.zoom_apply, M.zoom_apply, hm (get s) w reads]

theorem Unread.attempt {m : M σ α} (hm : Unread m) : Unread (M.attempt m) := by
  intro s w reads
  rw [M.attempt_apply, M.attempt_apply, hm s w reads]

theorem Unread.on {t : τ} {m : M τ α} (hm : Unread m) : Unread (M.on t m : M σ (α × τ)) := by
  intro s w reads
  unfold M.on
  rw [hm t w reads]
  rcases m t w with ⟨_ | a, t', w'⟩
  · rfl
  · rfl

theorem Unread.each {f : α → M σ Unit} (hf : ∀ a, Unread (f a)) (l : List α) :
    Unread (M.each f l) := by
  induction l with
  | nil => exact Unread.pure ()
  | cons a l ih => exact Unread.bind (hf a) fun _ => ih

theorem Unread.fileAppend (i : Nat) (b : Bytes) : Unread (File.append i b : M σ Unit) := by
  rintro s ⟨vol, past, locks, refusals, shortReads⟩ reads
  rcases refusals with _ | ⟨_ | n, rest⟩
  all_goals rfl

theorem Unread.syncAs (i : Nat) (mode : SyncMode) : Unread (File.syncAs i mode : M σ Unit) := by
  intro s w reads
  cases mode with
  | durable => rfl
  | barrier => rfl
  | none => rfl

theorem Unread.flush : Unread BufAppend.flush := by
  refine Unread.bind (fun _ _ _ => rfl) fun self => ?_
  split
  · exact Unread.pure ()
  · refine Unread.bind (Unread.attempt (Unread.fileAppend _ _)) fun r => ?_
    cases r with
    | error e => exact fun _ _ _ => rfl
    | ok u => exact fun _ _ _ => rfl

theorem Unread.write (b : Bytes) : Unread (BufAppend.write b) := by
  refine Unread.bind (fun _ _ _ => rfl) fun _ => Unread.bind (fun _ _ _ => rfl) fun self => ?_
  split
  · exact Unread.flush
  · exact Unread.pure ()

/-- Appending to a log reads no file. -/
theorem Unread.appendBatch (env : Env) (records : List Record) :
    Unread (Wal.appendBatch env records) := by
  refine Unread.bind (fun _ _ _ => rfl) fun self => ?_
  split
  · exact Unread.pure ()
  · split
    · exact fun _ _ _ => rfl
    · exact (Unread.zoom (Unread.write _)).bind fun _ =>
        (Unread.zoom (Unread.write _)).bind fun _ =>
        (Unread.zoom (Unread.write _)).bind fun _ =>
        (Unread.zoom Unread.flush).bind fun _ => Unread.syncAs _ _

theorem Unread.appendEach (env : Env) (batches : List (List Record)) :
    Unread (M.each (Wal.appendBatch env) batches) :=
  Unread.each (Unread.appendBatch env) batches

/-- Nor does writing the header of a new one. -/
theorem Unread.header (i : Nat) (path : Path) (sync : SyncMode) :
    Unread (do
      let (_, wal) ← M.on (Wal.handle i path sync newestLog)
        (Wal.onFile (BufAppend.write (encodeHeader walMagic walVersion)))
      let (_, wal) ← M.on wal (Wal.onFile BufAppend.flush)
      return wal : M σ Wal) :=
  (Unread.zoom (Unread.write _)).on.bind fun _ =>
    (Unread.zoom Unread.flush).on.bind fun _ => Unread.pure _

/-- A run of a method that reads nothing, from the run where no read is short. -/
theorem Unread.run {m : M σ α} (hm : Unread m) {s s' : σ} {w w' : World} {r : Except Error α}
    (h : m s (w.withReads []) = (r, s', w')) : m s w = (r, s', w'.withReads w.shortReads) := by
  have hback := hm s (w.withReads []) w.shortReads
  rw [h] at hback
  exact hback

end Unread

section Reads

variable {σ : Type} {s : σ} {w : World} {i : Nat}

theorem readAt_eq (i off n : Nat) (s : σ) (w : World) :
    ∃ c reads, (n = 0 ∨ 0 < c) ∧ (File.readAt i off n : M σ Bytes) s w =
      (.ok (((w.vol.inodes i).bytes.drop off).take (min n c)), s, w.withReads reads) := by
  obtain ⟨vol, past, locks, refusals, shortReads⟩ := w
  cases shortReads with
  | nil => exact ⟨n, [], by omega, by rw [Nat.min_self]; rfl⟩
  | cons c rest => exact ⟨max 1 c, rest, by omega, rfl⟩

/-- The loop of `read_exact_at` goes on behind a short read. -/
theorem readExactLoop_eq (i off n : Nat) (fuel have_ : Nat)
    (hle : off + n ≤ (w.vol.inodes i).bytes.length) (hn : have_ ≤ n) (hfuel : n ≤ have_ + fuel) :
    ∃ reads, (File.readExactLoop i off n fuel
        (((w.vol.inodes i).bytes.drop off).take have_) : M σ Bytes) s w =
      (.ok (((w.vol.inodes i).bytes.drop off).take n), s, w.withReads reads) := by
  have hlen : ∀ k, k ≤ n → (((w.vol.inodes i).bytes.drop off).take k).length = k := by
    intro k hk
    rw [List.length_take, List.length_drop]
    omega
  induction fuel generalizing w have_ with
  | zero =>
      have heq : have_ = n := by omega
      subst heq
      refine ⟨w.shortReads, ?_⟩
      rw [File.readExactLoop, if_neg (by rw [hlen have_ le_rfl]; omega)]
      rfl
  | succ fuel ih =>
      rw [File.readExactLoop, hlen have_ hn]
      by_cases hdone : have_ < n
      · obtain ⟨c, reads, hc, hread⟩ := readAt_eq i (off + have_) (n - have_) s w
        have hpos : 0 < min (n - have_) c := by omega
        have hpart : ((w.vol.inodes i).bytes.drop (off + have_)).take (min (n - have_) c) ≠ [] := by
          intro h
          have := congrArg List.length h
          rw [List.length_take, List.length_drop, List.length_nil] at this
          omega
        have hjoin : ((w.vol.inodes i).bytes.drop off).take have_ ++
            ((w.vol.inodes i).bytes.drop (off + have_)).take (min (n - have_) c) =
              ((w.vol.inodes i).bytes.drop off).take (have_ + min (n - have_) c) := by
          rw [List.take_add, List.drop_drop]
        rw [if_pos hdone, M.bind_ok hread, if_neg hpart, hjoin]
        obtain ⟨reads', hrest⟩ := ih (w := w.withReads reads) (have_ + min (n - have_) c) hle
          (by omega) (by omega) hlen
        exact ⟨reads', hrest⟩
      · have heq : have_ = n := by omega
        subst heq
        exact ⟨w.shortReads, by rw [if_neg hdone]; rfl⟩

/-- Reading a whole file is not affected by short reads. -/
theorem readAll_eq (i : Nat) (s : σ) (w : World) :
    ∃ reads, (File.readAll i : M σ Bytes) s w =
      (.ok (w.vol.inodes i).bytes, s, w.withReads reads) := by
  obtain ⟨reads, h⟩ := readExactLoop_eq (s := s) (w := w) i 0 (w.vol.inodes i).bytes.length
    (w.vol.inodes i).bytes.length 0 (by omega) (by omega) (by omega)
  rw [List.take_zero, List.drop_zero, List.take_length] at h
  refine ⟨reads, ?_⟩
  rw [File.readAll, M.bind_ok File.size_apply]
  exact h

/-- The replay of a log depends on the volume only. -/
theorem replay_result (env : Env) (path : Path) (s : σ) (w : World) :
    (Wal.replay env path : M σ (List Record)).result s w =
      match w.vol.lookup path with
      | some i => replayBytes env (w.vol.inodes i).bytes
      | none => .ok [] := by
  unfold M.result Wal.replay
  cases hl : w.vol.lookup path with
  | none =>
      rw [M.bind_ok (M.attempt_eq (Fs.openRead_none hl))]
      rfl
  | some i =>
      obtain ⟨reads, h⟩ := readAll_eq i s w
      rw [M.bind_ok (M.attempt_eq (Fs.openRead_some hl))]
      dsimp only
      rw [M.bind_ok h]
      rfl

end Reads

/-- The format `Wal::open_append` takes a log to have. -/
def Wal.appendKind {σ : Type} (path : Path) : M σ Kind := do
  let (_, _, kind) ← Wal.openFront path
  return kind

section Opening

variable {σ : Type} {s : σ} {env : Env} {w : World} {path : Path} {i : Nat} {sync : SyncMode}

theorem readFront_eq (i : Nat) (s : σ) (w : World) :
    (File.readAt i 0 headerLen : M σ Bytes) s w =
      (.ok ((w.vol.inodes i).bytes.take w.firstRead), s, w.withReads w.shortReads.tail) := by
  obtain ⟨vol, past, locks, refusals, shortReads⟩ := w
  cases shortReads with
  | nil => rfl
  | cons c rest => rfl

/-- A part of the header does not show the format. -/
theorem classify_part {bytes : Bytes} (hne : bytes ≠ []) {n : Nat} (hn : 0 < n)
    (hlt : n < headerLen) (magic : Bytes) (newest : Nat) (what : String) :
    classify (bytes.take n) magic newest what = .ok .legacy := by
  have hfront : bytes.take n ≠ [] := by
    intro h
    rcases List.take_eq_nil_iff.mp h with h | h
    · omega
    · exact hne h
  have hshort : ¬ (headerLen ≤ (bytes.take n).length ∧ (bytes.take n).take 4 = magic) := by
    rintro ⟨h, -⟩
    rw [List.length_take] at h
    omega
  rw [classify, if_neg hfront, if_neg hshort]

/-- What the first read shows of a log that has bytes in it. -/
theorem classify_firstRead {kind : Kind} (hne : (w.vol.inodes i).bytes ≠ [])
    (hk : classify (w.vol.inodes i).bytes walMagic walVersion "the write-ahead log" = .ok kind) :
    classify ((w.vol.inodes i).bytes.take w.firstRead) walMagic walVersion
        "the write-ahead log" =
      .ok (if w.firstRead = headerLen then kind else .legacy) := by
  by_cases hfull : w.firstRead = headerLen
  · rw [if_pos hfull, hfull, classify_take, hk]
  · have := w.firstRead_le
    rw [if_neg hfull]
    exact classify_part hne w.firstRead_pos (by omega) _ _ _

theorem openFront_firstRead {kind : Kind} (hl : w.vol.lookup path = some i)
    (hne : (w.vol.inodes i).bytes ≠ [])
    (hk : classify (w.vol.inodes i).bytes walMagic walVersion "the write-ahead log" = .ok kind) :
    (Wal.openFront path : M σ (Nat × Nat × Kind)) s w =
      (.ok (i, (w.vol.inodes i).bytes.length, if w.firstRead = headerLen then kind else .legacy),
        s, w.withReads w.shortReads.tail) := by
  have hlen : (w.vol.inodes i).bytes.length ≠ 0 := by simpa using hne
  unfold Wal.openFront
  rw [M.bind_ok (Fs.openAppend_some hl), M.bind_ok File.size_apply, if_neg hlen,
    M.bind_ok (readFront_eq i s w)]
  simp only [classify_firstRead hne hk]
  rfl

/-- Opening a log that has bytes in it takes the format its first read shows. -/
theorem openAppend_firstRead {kind : Kind} (sync : SyncMode) (hl : w.vol.lookup path = some i)
    (hne : (w.vol.inodes i).bytes ≠ [])
    (hk : classify (w.vol.inodes i).bytes walMagic walVersion "the write-ahead log" = .ok kind) :
    (Wal.openAppend path sync : M σ Wal) s w =
      (.ok (Wal.handle i path sync (if w.firstRead = headerLen then kind else .legacy)), s,
        w.withReads w.shortReads.tail) := by
  have hlen : (w.vol.inodes i).bytes.length ≠ 0 := by simpa using hne
  refine Wal.openAppend_of_front sync (openFront_firstRead hl hne hk) hlen ?_
  split
  · exact classify_ne_empty hne hk
  · decide

theorem appendKind_eq {kind : Kind} (hl : w.vol.lookup path = some i)
    (hne : (w.vol.inodes i).bytes ≠ [])
    (hk : classify (w.vol.inodes i).bytes walMagic walVersion "the write-ahead log" = .ok kind) :
    (Wal.appendKind path : M σ Kind).result s w =
      .ok (if w.firstRead = headerLen then kind else .legacy) := by
  unfold M.result Wal.appendKind
  rw [M.bind_ok (openFront_firstRead hl hne hk)]
  rfl

/-- Appends through an open that hands out the handle it hands out where no read is short
run as they run there. -/
theorem appendLog_withReads {wal : Wal} {w₁ w' : World} {reads : List Nat}
    {more : List (List Record)} {r : Except Error Unit}
    (hopen : (Wal.openAppend path sync : M Unit Wal) () w = (.ok wal, (), w₁.withReads reads))
    (hquiet : (Wal.openAppend path sync : M Unit Wal) () (w.withReads []) = (.ok wal, (), w₁))
    (hrun : appendLog env path sync more () w = (r, (), w')) :
    ∃ w₂, appendLog env path sync more () (w.withReads []) = (r, (), w₂) ∧ w'.vol = w₂.vol := by
  have hrest : Unread (do
      let _ ← M.on wal (M.each (Wal.appendBatch env) more)
      return () : M Unit Unit) :=
    (Unread.appendEach env more).on.bind fun _ => Unread.pure ()
  unfold appendLog at hrun ⊢
  rw [M.bind_ok hopen, hrest () w₁ reads] at hrun
  rw [M.bind_ok hquiet]
  generalize (M.on wal (M.each (Wal.appendBatch env) more) >>= fun _ => pure () :
    M Unit Unit) () w₁ = out at hrun ⊢
  obtain ⟨r', s', w₂⟩ := out
  cases hrun
  exact ⟨w₂, rfl, rfl⟩

end Opening

/-- A log of one of the formats, whole, on a file system that takes every append. -/
structure IntactLog (env : Env) (w : World) (path : Path) (i : Nat) (kind : Kind)
    (batches : List (List Record)) : Prop where
  accepts : w.refusals = []
  name : w.vol.lookup path = some i
  format : kind ∈ walFormats
  bytes : (w.vol.inodes i).bytes = logBytes env kind batches
  told : Told walMagic (logBytes env kind batches) kind
  fits : ∀ b ∈ batches, BatchFits b
  takes : ∀ b ∈ batches, kind.Takes b

/-- What is appended to the log at `path`, with every append returning Ok, is read back
behind `records`. -/
def ReadsBack (env : Env) (w : World) (path : Path) (records : List Record) : Prop :=
  ∀ sync more w', (∀ b ∈ more, BatchFits b) →
    appendLog env path sync more () w = (.ok (), (), w') →
    (Wal.replay env path : M Unit (List Record)).result () w' = .ok (records ++ more.flatten)

/-- The record of 17 zero bytes: without a count in front it reads as an empty batch with
something behind it. -/
def zeroRecord : Record := Record.put [] [] 0

theorem addBatch_zeroRecord (records : List Record) :
    addBatch true records (batchPayload false [zeroRecord]) =
      .error (.corrupt "trailing bytes in WAL frame") := rfl

section Intact

variable {env : Env} {w : World} {path : Path} {i : Nat} {kind : Kind}
variable {batches : List (List Record)}

theorem IntactLog.quiet (h : IntactLog env w path i kind batches) : (w.withReads []).Quiet :=
  ⟨h.accepts, rfl⟩

theorem IntactLog.classify (h : IntactLog env w path i kind batches)
    (hne : (w.vol.inodes i).bytes ≠ []) (rest : Bytes) :
    classify ((w.vol.inodes i).bytes ++ rest) walMagic walVersion "the write-ahead log" =
      .ok kind := by
  rw [h.bytes] at hne ⊢
  exact classify_logBytes h.format hne h.told rest _

/-- Where every open hands out the handle it hands out when no read is short, appends are
read back. -/
theorem IntactLog.readsBack (h : IntactLog env w path i kind batches)
    (hopen : ∀ sync, ∃ wal w₁ reads,
      (Wal.openAppend path sync : M Unit Wal) () w = (.ok wal, (), w₁.withReads reads) ∧
      (Wal.openAppend path sync : M Unit Wal) () (w.withReads []) = (.ok wal, (), w₁)) :
    ReadsBack env w path batches.flatten := by
  intro sync more w' hmore hrun
  obtain ⟨wal, w₁, reads, hopen, hopen'⟩ := hopen sync
  obtain ⟨w₂, hrun₂, hvol⟩ := appendLog_withReads hopen hopen' hrun
  have hmt := takes_of_appendLog_ok h.quiet h.name h.bytes h.format h.told hrun₂
  obtain ⟨w₃, hrun₃, hreplay⟩ := appendLog_format sync h.format h.quiet h.name h.bytes h.told
    h.fits h.takes hmore hmt
  cases hrun₂.symm.trans hrun₃
  have hresult := congrArg Prod.fst hreplay
  rw [replay_result, hvol, ← replay_result env path () w₂]
  exact hresult

theorem IntactLog.readsBack_nil (h : IntactLog env w path i kind batches)
    (hnil : (w.vol.inodes i).bytes = []) : ReadsBack env w path batches.flatten := by
  refine h.readsBack fun sync => ?_
  obtain ⟨w₁, hrun, -⟩ := Wal.openAppend_empty sync () h.quiet h.name hnil
  refine ⟨_, w₁, w.shortReads, ?_, hrun⟩
  rw [Wal.openAppend_nil (w := w.withReads []) sync h.name hnil] at hrun
  rw [Wal.openAppend_nil sync h.name hnil]
  exact (Unread.header i path sync).run hrun

/-- So it is where the first read shows a format with the same checksum and frames. -/
theorem IntactLog.readsBack_same (h : IntactLog env w path i kind batches)
    (hne : (w.vol.inodes i).bytes ≠ [])
    (hsame : ∀ sync, Wal.handle i path sync
      (if w.firstRead = headerLen then kind else .legacy) = Wal.handle i path sync kind) :
    ReadsBack env w path batches.flatten := by
  have hclass := h.classify hne []
  rw [List.append_nil] at hclass
  refine h.readsBack fun sync =>
    ⟨Wal.handle i path sync kind, w.withReads [], w.shortReads.tail, ?_, ?_⟩
  · rw [openAppend_firstRead sync h.name hne hclass, hsame sync]
    rfl
  · exact openAppend_firstRead (w := w.withReads []) sync h.name hne hclass

/-- A frame without a count behind a log of counted frames is refused or not seen,
depending on the checksum. -/
theorem IntactLog.misread (h : IntactLog env w path i kind batches) (hcounted : kind.counted = true)
    (hne : (w.vol.inodes i).bytes ≠ []) :
    replayBytes env ((w.vol.inodes i).bytes ++
        frame ((walChecksum .legacy).hash env) (batchPayload false [zeroRecord])) ≠
      .ok (batches.flatten ++ [zeroRecord]) := by
  have hkind := ne_empty_of_walFormats h.format
  have hfuel := length_le_length_frames ((walChecksum kind).hash env) (logPayloads kind batches)
  have hnext : nextFrame ((walChecksum kind).hash env)
      (frame ((walChecksum .legacy).hash env) (batchPayload false [zeroRecord]) ++ []) = _ :=
    nextFrame_frame ((walChecksum .legacy).hash env) (by decide) []
  have hlt : (logPayloads kind batches).length < (logFront kind ++
      (frames ((walChecksum kind).hash env) (logPayloads kind batches) ++
        frame ((walChecksum .legacy).hash env) (batchPayload false [zeroRecord]))).length + 1 := by
    simp only [List.length_append]
    omega
  rw [replayBytes_of_classify hkind (h.classify hne _), h.bytes, logBytes, List.append_assoc,
    drop_framesStart hkind]
  rw [List.append_nil] at hnext
  split_ifs at hnext
  · rw [replayFrames_refused (logPayloads_lt h.fits) hnext (foldlM_addBatch h.fits h.takes [])
      (by rw [hcounted]; exact addBatch_zeroRecord _) _ hlt]
    simp
  · rw [replayFrames_frames_append _ (logPayloads_lt h.fits) hnext _ _ hlt,
      foldlM_addBatch h.fits h.takes]
    simp

/-- A counted log whose header is not read whole gets a frame without a count. -/
theorem IntactLog.not_readsBack (h : IntactLog env w path i kind batches)
    (hcounted : kind.counted = true) (hne : (w.vol.inodes i).bytes ≠ [])
    (hshort : w.firstRead ≠ headerLen) : ¬ ReadsBack env w path batches.flatten := by
  intro hback
  have hclass := h.classify hne []
  rw [List.append_nil] at hclass
  have hopen := openAppend_firstRead (s := ()) (w := w) .durable h.name hne hclass
  rw [if_neg hshort] at hopen
  have htake : ∀ b ∈ [[zeroRecord]], Kind.legacy.counted = true ∨ b.length ≤ 1 := by decide
  obtain ⟨w', hrun, -, hl', hb'⟩ := handle_appends env path .durable i h.quiet htake
  have happend : appendLog env path .durable [[zeroRecord]] () w =
      (.ok (), (), w'.withReads w.shortReads.tail) := by
    unfold appendLog
    rw [M.bind_ok hopen, M.bind_ok (M.on_ok
      ((Unread.appendEach env _).run (w := w.withReads w.shortReads.tail) hrun))]
    rfl
  have hread := hback .durable [[zeroRecord]] _ (by decide) happend
  rw [replay_result, World.vol_withReads, hl', World.vol_withReads, h.name] at hread
  refine h.misread hcounted hne ?_
  have hframe : frames ((walChecksum .legacy).hash env)
      (logPayloads .legacy (framed [[zeroRecord]])) =
        frame ((walChecksum .legacy).hash env) (batchPayload false [zeroRecord]) :=
    List.append_nil _
  rw [World.vol_withReads] at hb'
  rw [← hframe, ← hb']
  exact hread

/-- `open_append` sees the format that a replay sees, and what is appended to an intact log
is read back behind it, exactly when the log is empty or without a header or the first read
returns the whole header.  What is appended is read back also from a log of version 1, whose
frames are those of a log without a header. -/
theorem open_append_classifies_iff (h : IntactLog env w path i kind batches) :
    ((Wal.appendKind path : M Unit Kind).result () w =
          classify (w.vol.inodes i).bytes walMagic walVersion "the write-ahead log" ∧
        ReadsBack env w path batches.flatten ↔
      (w.vol.inodes i).bytes = [] ∨ kind = .legacy ∨ w.firstRead = headerLen) ∧
    (ReadsBack env w path batches.flatten ↔
      (w.vol.inodes i).bytes = [] ∨ kind = .legacy ∨ kind = .versioned 1 ∨
        w.firstRead = headerLen) := by
  by_cases hnil : (w.vol.inodes i).bytes = []
  · have hsees : (Wal.appendKind path : M Unit Kind).result () w =
        classify (w.vol.inodes i).bytes walMagic walVersion "the write-ahead log" := by
      unfold M.result Wal.appendKind
      rw [M.bind_ok (Wal.openFront_nil h.name hnil), hnil]
      rfl
    have hback := h.readsBack_nil hnil
    exact ⟨iff_of_true ⟨hsees, hback⟩ (Or.inl hnil), iff_of_true hback (Or.inl hnil)⟩
  · have hclass := h.classify hnil []
    rw [List.append_nil] at hclass
    rw [appendKind_eq h.name hnil hclass, hclass]
    by_cases hfull : w.firstRead = headerLen
    · have hback := h.readsBack_same hnil (fun sync => by rw [if_pos hfull])
      rw [if_pos hfull]
      exact ⟨iff_of_true ⟨rfl, hback⟩ (by simp [hfull]), iff_of_true hback (by simp [hfull])⟩
    · rw [if_neg hfull]
      have hformat := h.format
      simp only [walFormats, List.mem_cons, List.not_mem_nil, or_false] at hformat
      rcases hformat with rfl | rfl | rfl | rfl
      · have hback := h.readsBack_same hnil (fun sync => by rw [if_neg hfull])
        exact ⟨iff_of_true ⟨rfl, hback⟩ (by simp), iff_of_true hback (by simp)⟩
      · have hback := h.readsBack_same hnil (fun sync => by rw [if_neg hfull]; rfl)
        exact ⟨iff_of_false (by simp) (by simp [hnil, hfull]), iff_of_true hback (by simp)⟩
      · have hback := h.not_readsBack rfl hnil hfull
        exact ⟨iff_of_false (by simp) (by simp [hnil, hfull]),
          iff_of_false hback (by simp [hnil, hfull])⟩
      · have hback := h.not_readsBack rfl hnil hfull
        exact ⟨iff_of_false (by simp) (by simp [hnil, hfull]),
          iff_of_false hback (by simp [hnil, hfull])⟩

end Intact

/-- A log of one record whose header is read whole. -/
theorem open_append_classifies_iff_whole :
    let w := (holding (logBytes Stock.env newestLog [[Record.put [1] [2] 0]])).withReads [8]
    (Wal.appendKind someLog : M Unit Kind).result () w =
        classify (w.vol.inodes 0).bytes walMagic walVersion "the write-ahead log" ∧
      ReadsBack Stock.env w someLog [Record.put [1] [2] 0] := by
  intro w
  have h : IntactLog Stock.env w someLog 0 newestLog [[Record.put [1] [2] 0]] :=
    { accepts := rfl
      name := lookup_holding _
      format := by decide
      bytes := bytes_holding _
      told := by decide +kernel
      fits := by decide
      takes := fun b _ => takes_newestLog b }
  exact (open_append_classifies_iff h).1.mpr (Or.inr (Or.inr rfl))

/-- The same log, of whose header the first read returns three bytes: `open_append` takes it
for one without a header, and the record appended next is not read back. -/
theorem short_read_loses_append :
    let w := (holding (logBytes Stock.env newestLog [[Record.put [1] [2] 0]])).withReads [3]
    let run := appendLog Stock.env someLog .durable [[Record.put [3] [4] 1]] () w
    (Wal.appendKind someLog : M Unit Kind).result () w = .ok .legacy ∧
      classify (w.vol.inodes 0).bytes walMagic walVersion "the write-ahead log" =
        .ok (.versioned 3) ∧
      run.1 = .ok () ∧
      (Wal.replay Stock.env someLog : M Unit (List Record)).result () run.2.2 =
        .ok [Record.put [1] [2] 0] := by
  decide +kernel

end LsmKv
