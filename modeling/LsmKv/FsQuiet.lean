import LsmKv.Foundation.Agree
import LsmKv.Fs

/-!
# The filesystem when nothing fails

What each operation of the seam does in a quiet world, as an equation: the
result, the object it leaves, and the world.  `World.Grew w w' C` says that a
run from `w` to `w'` stayed quiet, kept the locks, and that every volume it
passed through satisfies `C`; the specifications of buffered writers are stated
with it, since where a full buffer spills is not of interest to a caller.

**Results.**
* `BufAppend.writeAll_quiet`: a sequence of writes, wherever the buffer spills,
  leaves the volume with some initial part of the bytes appended.
* `BufAppend.writeSync_quiet`: after the sync all of them are there and durable.
-/

namespace LsmKv

open Foundation

/-- A quiet run from `w` to `w'` through volumes that satisfy `C`. -/
structure World.Grew (w w' : World) (C : Volume Path → Prop) : Prop where
  quiet : w'.Quiet
  locks : w'.locks = w.locks
  visited : ∃ vs, w'.visited = vs ++ w.visited ∧ ∀ v ∈ vs, C v

namespace World

variable {w w₁ w₂ : World} {C D : Volume Path → Prop}

theorem Grew.refl (hq : w.Quiet) : w.Grew w C := ⟨hq, rfl, [], rfl, by simp⟩

theorem Grew.touch (hq : w.Quiet) {f : Volume Path → Volume Path} (hC : C (f w.vol)) :
    w.Grew (w.touch f) C :=
  ⟨hq.touch f, rfl, [f w.vol], rfl, by simpa using hC⟩

/-- What a run has visited, it started from or passed. -/
theorem Grew.mem_visited {v : Volume Path} (h : w.Grew w₁ C) (hv : v ∈ w₁.visited) :
    v ∈ w.visited ∨ C v := by
  obtain ⟨vs, hvs, hC⟩ := h.visited
  rw [hvs] at hv
  rcases List.mem_append.mp hv with hv | hv
  · exact Or.inr (hC v hv)
  · exact Or.inl hv

theorem Grew.mono (h : w.Grew w₁ C) (hCD : ∀ v, C v → D v) : w.Grew w₁ D := by
  obtain ⟨hq, hl, vs, hvs, hC⟩ := h
  exact ⟨hq, hl, vs, hvs, fun v hv => hCD v (hC v hv)⟩

theorem Grew.trans (h₁ : w.Grew w₁ C) (h₂ : w₁.Grew w₂ C) : w.Grew w₂ C := by
  obtain ⟨_, hl₁, vs₁, hvs₁, hC₁⟩ := h₁
  obtain ⟨hq₂, hl₂, vs₂, hvs₂, hC₂⟩ := h₂
  refine ⟨hq₂, hl₂.trans hl₁, vs₂ ++ vs₁, by rw [hvs₂, hvs₁, List.append_assoc], ?_⟩
  intro v hv
  rcases List.mem_append.mp hv with hv | hv
  · exact hC₂ v hv
  · exact hC₁ v hv

/-- A run from `w` to `w'` leaves the volume `v` behind it, or ends in it. -/
def Passes (w w' : World) (v : Volume Path) : Prop := ∃ vs, w'.visited = vs ++ w.visited ∧ v ∈ vs

/-- A run that touches nothing passes nothing. -/
theorem not_passes_self {v : Volume Path} : ¬ w.Passes w v := by
  rintro ⟨vs, hvs, hmem⟩
  have hnil : vs = [] := List.append_cancel_right (hvs.symm.trans (List.nil_append _).symm)
  rw [hnil] at hmem
  cases hmem

theorem Grew.of_passes {v : Volume Path} (h : w.Grew w₁ C) (hv : w.Passes w₁ v) : C v := by
  obtain ⟨vs, hvs, hmem⟩ := hv
  obtain ⟨vs', hvs', hC⟩ := h.visited
  have : vs = vs' := List.append_cancel_right (hvs.symm.trans hvs')
  exact hC v (this ▸ hmem)

/-- Where a run ends, it has passed or started. -/
theorem Grew.ends (h : w.Grew w₁ C) : w₁.vol = w.vol ∨ C w₁.vol := by
  obtain ⟨vs, hvs, hC⟩ := h.visited
  cases vs with
  | nil => exact Or.inl (List.cons.inj hvs).1
  | cons u us =>
      rw [show w₁.vol = u from (List.cons.inj hvs).1]
      exact Or.inr (hC u List.mem_cons_self)

theorem Grew.passes_touch {f : Volume Path → Volume Path} (h : (w.touch f).Grew w₁ C) :
    w.Passes w₁ (f w.vol) := by
  obtain ⟨vs, hvs, -⟩ := h.visited
  exact ⟨vs ++ [f w.vol], by rw [hvs, visited_touch]; simp, by simp⟩

theorem Grew.passes {v : Volume Path} (h : w.Grew w₁ C) (hv : w₁.Passes w₂ v) :
    w.Passes w₂ v := by
  obtain ⟨vs₁, hvs₁, -⟩ := h.visited
  obtain ⟨vs, hvs, hmem⟩ := hv
  exact ⟨vs ++ vs₁, by rw [hvs, hvs₁, List.append_assoc], List.mem_append_left _ hmem⟩

/-- A last change is behind all the others. -/
theorem Grew.passes_before {f : Volume Path → Volume Path} {v : Volume Path} (h : w.Grew w₁ C)
    (hv : w.Passes (w₁.touch f) v) : v = f w₁.vol ∨ w.Passes w₁ v := by
  obtain ⟨us, hus, -⟩ := h.visited
  obtain ⟨vs, hvs, hmem⟩ := hv
  rw [visited_touch, hus] at hvs
  have heq : vs = f w₁.vol :: us := List.append_cancel_right (hvs.symm.trans (by simp))
  rw [heq] at hmem
  exact (List.mem_cons.mp hmem).imp id fun hmem => ⟨us, hus, hmem⟩

end World

namespace M

variable {σ τ α : Type}

theorem zoom_eq (get : σ → τ) (set : σ → τ → σ) {m : M τ α} {s : σ} {t : τ} {w w' : World}
    {r : Except Error α} (h : m (get s) w = (r, t, w')) :
    zoom get set m s w = (r, set s t, w') := by
  rw [zoom_apply, h]

theorem attempt_eq {m : M σ α} {s s' : σ} {w w' : World} {r : Except Error α}
    (h : m s w = (r, s', w')) : attempt m s w = (.ok r, s', w') := by
  rw [attempt_apply, h]

/-- Two methods of a part, one after the other, are a method of the part. -/
theorem zoom_bind {β : Type} (get : σ → τ) (set : σ → τ → σ) (hget : ∀ s t, get (set s t) = t)
    (hset : ∀ s t t', set (set s t) t' = set s t') (m : M τ α) (f : α → M τ β) :
    (zoom get set m >>= fun a => zoom get set (f a)) = zoom get set (m >>= f) := by
  funext s w
  rw [zoom_apply, bind_apply, bind_apply, zoom_apply]
  rcases m (get s) w with ⟨r, t, w'⟩
  cases r with
  | error e => rfl
  | ok a => simp only [zoom_apply, hget, hset]

end M

section Quiet

variable {σ : Type} {s : σ} {w : World} {p q : Path} {i : Nat}

theorem Fs.touch_apply (f : Volume Path → Volume Path) :
    (Fs.touch f : M σ Unit) s w = (.ok (), s, w.touch f) := rfl

theorem Fs.list_apply (dir : String) :
    (Fs.list dir : M σ (List Path)) s w =
      (.ok (w.vol.names.filter (fun p => p.dir = dir)), s, w) := rfl

theorem Fs.existing_some (h : w.vol.lookup p = some i) :
    (Fs.existing p : M σ Nat) s w = (.ok i, s, w) := by
  simp only [Fs.existing, Fs.volume, M.bind_apply, h, M.pure_apply]

theorem Fs.existing_none (h : w.vol.lookup p = none) :
    (Fs.existing p : M σ Nat) s w = (.error (.io .notFound), s, w) := by
  simp only [Fs.existing, Fs.volume, M.bind_apply, h, M.fail_apply]

theorem Fs.openRead_some (h : w.vol.lookup p = some i) :
    (Fs.openFile p .read : M σ Nat) s w = (.ok i, s, w) := Fs.existing_some h

theorem Fs.openRead_none (h : w.vol.lookup p = none) :
    (Fs.openFile p .read : M σ Nat) s w = (.error (.io .notFound), s, w) := Fs.existing_none h

theorem Fs.openAppend_some (h : w.vol.lookup p = some i) :
    (Fs.openFile p .append : M σ Nat) s w = (.ok i, s, w) := by
  simp only [Fs.openFile, Fs.create, Fs.volume, M.bind_apply, h, M.pure_apply]

theorem Fs.openAppend_none (h : w.vol.lookup p = none) :
    (Fs.openFile p .append : M σ Nat) s w =
      (.ok w.vol.fresh, s, w.touch (fun v => v.create p)) := by
  simp only [Fs.openFile, Fs.create, Fs.volume, M.bind_apply, h, Fs.touch_apply, M.pure_apply]

theorem Fs.openTruncate_some (h : w.vol.lookup p = some i) :
    (Fs.openFile p .truncate : M σ Nat) s w = (.ok i, s, w.touch (fun v => v.truncate i)) := by
  simp only [Fs.openFile, Fs.volume, M.bind_apply, h, Fs.touch_apply, M.pure_apply]

theorem Fs.openTruncate_none (h : w.vol.lookup p = none) :
    (Fs.openFile p .truncate : M σ Nat) s w =
      (.ok w.vol.fresh, s, w.touch (fun v => v.create p)) := by
  simp only [Fs.openFile, Fs.create, Fs.volume, M.bind_apply, h, Fs.touch_apply, M.pure_apply]

/-- A truncating open, whether or not the file is there. -/
theorem Fs.openTruncate_apply (p : Path) :
    (Fs.openFile p .truncate : M σ Nat) s w =
      (.ok (w.vol.inodeAt p), s, w.touch (fun v => v.truncateAt p)) := by
  cases h : w.vol.lookup p with
  | none =>
      rw [Fs.openTruncate_none h]
      simp only [World.touch, Volume.truncateAt, Volume.inodeAt, h, Option.getD_none]
  | some i =>
      rw [Fs.openTruncate_some h]
      simp only [World.touch, Volume.truncateAt, Volume.inodeAt, h, Option.getD_some]

theorem Fs.rename_some (h : w.vol.lookup p = some i) :
    (Fs.rename p q : M σ Unit) s w = (.ok (), s, w.touch (fun v => v.rename p q)) := by
  simp only [Fs.rename, M.bind_apply, Fs.existing_some h, Fs.touch_apply]

theorem Fs.remove_some (h : w.vol.lookup p = some i) :
    (Fs.remove p : M σ Unit) s w = (.ok (), s, w.touch (fun v => v.remove p)) := by
  simp only [Fs.remove, M.bind_apply, Fs.existing_some h, Fs.touch_apply]

theorem Fs.size_some (h : w.vol.lookup p = some i) :
    (Fs.size p : M σ Nat) s w = (.ok (w.vol.inodes i).bytes.length, s, w) := by
  simp only [Fs.size, M.bind_apply, Fs.existing_some h, Fs.volume, M.pure_apply]

theorem Fs.size_none (h : w.vol.lookup p = none) :
    (Fs.size p : M σ Nat) s w = (.error (.io .notFound), s, w) := by
  simp only [Fs.size, M.bind_apply, Fs.existing_none h]

theorem Fs.fileExists_apply :
    (Fs.fileExists p : M σ Bool) s w = (.ok (w.vol.lookup p).isSome, s, w) := by
  cases h : w.vol.lookup p with
  | none =>
      simp only [Fs.fileExists, M.bind_apply, M.attempt_eq (Fs.size_none h), M.pure_apply]
      rfl
  | some i =>
      simp only [Fs.fileExists, M.bind_apply, M.attempt_eq (Fs.size_some h), M.pure_apply]
      rfl

theorem Fs.syncDir_apply (dir : String) :
    (Fs.syncDir dir : M σ Unit) s w =
      (.ok (), s, w.touch (fun v => v.syncNames (fun p => p.dir = dir))) := rfl

theorem File.size_apply :
    (File.size i : M σ Nat) s w = (.ok (w.vol.inodes i).bytes.length, s, w) := rfl

theorem File.append_quiet (hq : w.Quiet) (b : Bytes) :
    (File.append i b : M σ Unit) s w = (.ok (), s, w.touch (fun v => v.append i b)) := by
  unfold File.append
  rw [hq.accepts]

theorem File.readAt_quiet (hq : w.Quiet) (off n : Nat) :
    (File.readAt i off n : M σ Bytes) s w =
      (.ok (((w.vol.inodes i).bytes.drop off).take n), s, w) := by
  unfold File.readAt
  rw [hq.reads]

/-- The loop needs one read when no read is short. -/
theorem File.readExactAt_quiet (hq : w.Quiet) {off n : Nat}
    (hle : off + n ≤ (w.vol.inodes i).bytes.length) :
    (File.readExactAt i off n : M σ Bytes) s w =
      (.ok (((w.vol.inodes i).bytes.drop off).take n), s, w) := by
  have hlen : (((w.vol.inodes i).bytes.drop off).take n).length = n := by
    rw [List.length_take, List.length_drop]
    omega
  cases n with
  | zero => simp [File.readExactAt, File.readExactLoop]
  | succ n =>
      have hne : ((w.vol.inodes i).bytes.drop off).take (n + 1) ≠ [] := by
        intro h
        simp [h] at hlen
      have hdone : ∀ fuel, (File.readExactLoop i off (n + 1) fuel
          (((w.vol.inodes i).bytes.drop off).take (n + 1)) : M σ Bytes) s w =
            (.ok (((w.vol.inodes i).bytes.drop off).take (n + 1)), s, w) := by
        intro fuel
        cases fuel <;> simp [File.readExactLoop, hlen]
      unfold File.readExactAt File.readExactLoop
      simp only [List.length_nil, Nat.zero_lt_succ, if_true, Nat.add_zero, Nat.sub_zero,
        M.bind_apply, File.readAt_quiet hq, hne, if_false, List.nil_append]
      exact hdone n

theorem File.readAll_quiet (hq : w.Quiet) :
    (File.readAll i : M σ Bytes) s w = (.ok (w.vol.inodes i).bytes, s, w) := by
  simp only [File.readAll, M.bind_apply, File.size_apply]
  rw [File.readExactAt_quiet hq (by simp)]
  simp

/-- The effect of a sync of a given strength. -/
def syncedAs (mode : SyncMode) (i : Nat) (v : Volume Path) : Volume Path :=
  if mode = .durable then v.sync i else v

theorem File.syncAs_grew (hq : w.Quiet) (mode : SyncMode) :
    ∃ w', (File.syncAs i mode : M σ Unit) s w = (.ok (), s, w') ∧
      w'.vol = syncedAs mode i w.vol ∧ w.Grew w' (fun v => v = syncedAs mode i w.vol) := by
  cases mode with
  | durable => exact ⟨_, rfl, rfl, World.Grew.touch hq rfl⟩
  | barrier => exact ⟨w, rfl, rfl, World.Grew.refl hq⟩
  | none => exact ⟨w, rfl, rfl, World.Grew.refl hq⟩

end Quiet

namespace BufAppend

variable {w : World} {b : BufAppend}

/-- A flush appends what is in the buffer. -/
theorem flush_quiet (hq : w.Quiet) :
    ∃ w', flush b w = (.ok (), { b with buf := [] }, w') ∧
      w'.vol = w.vol.append b.file b.buf ∧
      w.Grew w' (fun v => v = w.vol.append b.file b.buf) := by
  by_cases h : b.buf = []
  · refine ⟨w, ?_, by simp [h], World.Grew.refl hq⟩
    simp only [flush, M.bind_apply, M.self_apply, h, if_true, M.pure_apply]
    cases b
    simp_all
  · refine ⟨w.touch (fun v => v.append b.file b.buf), ?_, rfl, World.Grew.touch hq rfl⟩
    simp only [flush, M.bind_apply, M.self_apply, h, if_false,
      M.attempt_eq (File.append_quiet hq b.buf), M.update_apply]

/-- A write appends some part of the buffer and keeps the rest. -/
theorem write_quiet (hq : w.Quiet) (bytes : Bytes) :
    ∃ w' done left, write bytes b w = (.ok (), { b with buf := left }, w') ∧
      b.buf ++ bytes = done ++ left ∧ w'.vol = w.vol.append b.file done ∧
      w.Grew w' (fun v => v = w.vol.append b.file done) := by
  by_cases hfull : b.cap ≤ (b.buf ++ bytes).length
  · obtain ⟨w', hrun, hvol, hgrew⟩ := flush_quiet (b := { b with buf := b.buf ++ bytes }) hq
    refine ⟨w', b.buf ++ bytes, [], ?_, by simp, hvol, hgrew⟩
    simp only [write, M.bind_apply, M.update_apply, M.self_apply]
    rw [if_pos hfull]
    exact hrun
  · refine ⟨w, [], b.buf ++ bytes, ?_, by simp, by simp, World.Grew.refl hq⟩
    simp only [write, M.bind_apply, M.update_apply, M.self_apply]
    rw [if_neg hfull]
    rfl

/-- Several writes append some initial part of their bytes and keep the rest;
on the way the file has some initial part of them. -/
theorem writeAll_quiet (hq : w.Quiet) (parts : List Bytes) :
    ∃ w' done left, M.each write parts b w = (.ok (), { b with buf := left }, w') ∧
      b.buf ++ parts.flatten = done ++ left ∧ w'.vol = w.vol.append b.file done ∧
      w.Grew w' (fun v => ∃ n, v = w.vol.append b.file ((b.buf ++ parts.flatten).take n)) := by
  induction parts generalizing b w with
  | nil =>
      exact ⟨w, [], b.buf, rfl, by simp, by simp, World.Grew.refl hq⟩
  | cons x xs ih =>
      obtain ⟨w₁, d₁, l₁, hrun₁, hsplit₁, hvol₁, hgrew₁⟩ := write_quiet (b := b) hq x
      obtain ⟨w₂, d₂, l₂, hrun₂, hsplit₂, hvol₂, hgrew₂⟩ :=
        ih (b := { b with buf := l₁ }) hgrew₁.quiet
      have hall : b.buf ++ (x :: xs).flatten = d₁ ++ (l₁ ++ xs.flatten) := by
        rw [List.flatten_cons, ← List.append_assoc, hsplit₁, List.append_assoc]
      refine ⟨w₂, d₁ ++ d₂, l₂, ?_, ?_, ?_, ?_⟩
      · rw [M.each_cons, M.bind_ok hrun₁, hrun₂]
      · rw [hall]
        simp only at hsplit₂
        rw [hsplit₂, List.append_assoc]
      · rw [hvol₂, hvol₁, Volume.append_append]
      · refine World.Grew.trans (hgrew₁.mono ?_) (hgrew₂.mono ?_)
        · rintro v rfl
          exact ⟨d₁.length, by rw [hall, List.take_left]⟩
        · rintro v ⟨n, rfl⟩
          refine ⟨d₁.length + n, ?_⟩
          simp only
          rw [hvol₁, Volume.append_append, hall, List.take_length_add_append]

/-- Writes and a flush append all the bytes. -/
theorem writeFlush_quiet (hq : w.Quiet) (parts : List Bytes) :
    ∃ w', (M.each write parts >>= fun _ => flush) b w = (.ok (), { b with buf := [] }, w') ∧
      w'.vol = w.vol.append b.file (b.buf ++ parts.flatten) ∧
      w.Grew w' (fun v => ∃ n, v = w.vol.append b.file ((b.buf ++ parts.flatten).take n)) := by
  obtain ⟨w₁, done, left, hrun₁, hsplit, hvol₁, hgrew₁⟩ := writeAll_quiet (b := b) hq parts
  obtain ⟨w₂, hrun₂, hvol₂, hgrew₂⟩ := flush_quiet (b := { b with buf := left }) hgrew₁.quiet
  have hfull : w₁.vol.append b.file left =
      w.vol.append b.file (b.buf ++ parts.flatten) := by
    rw [hvol₁, Volume.append_append, hsplit]
  simp only [hfull] at hvol₂ hgrew₂
  refine ⟨w₂, by rw [M.bind_ok hrun₁, hrun₂], hvol₂, hgrew₁.trans (hgrew₂.mono ?_)⟩
  rintro v rfl
  exact ⟨(b.buf ++ parts.flatten).length, by rw [List.take_length]⟩

/-- The sync of a writer makes the whole file durable. -/
theorem sync_quiet (hq : w.Quiet) :
    ∃ w', sync b w = (.ok (), { b with buf := [] }, w') ∧
      w'.vol = (w.vol.append b.file b.buf).sync b.file ∧
      w.Grew w' (fun v => v = w.vol.append b.file b.buf ∨
        v = (w.vol.append b.file b.buf).sync b.file) := by
  obtain ⟨w₁, hrun₁, hvol₁, hgrew₁⟩ := flush_quiet (b := b) hq
  refine ⟨w₁.touch (fun v => v.sync b.file), ?_, by rw [World.vol_touch, hvol₁], ?_⟩
  · have hsync : (M.attempt (File.syncAs b.file .durable) : M BufAppend _)
        { b with buf := [] } w₁ =
          (.ok (.ok ()), { b with buf := [] }, w₁.touch (fun v => v.sync b.file)) := rfl
    unfold sync
    rw [M.bind_ok hrun₁, M.bind_ok (M.self_apply _ _), M.bind_ok hsync]
    rfl
  · refine World.Grew.trans (hgrew₁.mono fun v hv => Or.inl hv)
      (World.Grew.touch hgrew₁.quiet (Or.inr ?_))
    rw [hvol₁]

/-- Writes and a sync append all the bytes and make them durable. -/
theorem writeSync_quiet (hq : w.Quiet) (parts : List Bytes) :
    ∃ w', (M.each write parts >>= fun _ => sync) b w = (.ok (), { b with buf := [] }, w') ∧
      w'.vol = (w.vol.append b.file (b.buf ++ parts.flatten)).sync b.file ∧
      w.Grew w' (fun v =>
        (∃ n, v = w.vol.append b.file ((b.buf ++ parts.flatten).take n)) ∨
          v = (w.vol.append b.file (b.buf ++ parts.flatten)).sync b.file) := by
  obtain ⟨w₁, done, left, hrun₁, hsplit, hvol₁, hgrew₁⟩ := writeAll_quiet (b := b) hq parts
  obtain ⟨w₂, hrun₂, hvol₂, hgrew₂⟩ := sync_quiet (b := { b with buf := left }) hgrew₁.quiet
  have hfull : w₁.vol.append b.file left =
      w.vol.append b.file (b.buf ++ parts.flatten) := by
    rw [hvol₁, Volume.append_append, hsplit]
  simp only [hfull] at hvol₂ hgrew₂
  refine ⟨w₂, by rw [M.bind_ok hrun₁, hrun₂], hvol₂, ?_⟩
  refine World.Grew.trans (hgrew₁.mono fun v hv => Or.inl hv) (hgrew₂.mono ?_)
  rintro v (rfl | rfl)
  · exact Or.inl ⟨(b.buf ++ parts.flatten).length, by rw [List.take_length]⟩
  · exact Or.inr rfl

end BufAppend

end LsmKv
