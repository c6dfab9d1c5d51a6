import LsmKv.Runs
import LsmKv.Scan

/-!
# What a scan returns

The merge walks sorted runs in version order across all of them, so the first
record of a key below the horizon is the newest one in the pool of the runs,
whichever run it stands in.

**Results.**
* `Merge.next_over`: one turn returns the least key whose read is a value, and
  leaves the others.
* `Merge.collect_over`: a scan returns the keys of the range whose read below
  the horizon is a value, ascending, at most `limit` of them.
-/

namespace LsmKv

open Foundation Versioning

/-- Before the end of the range. -/
def Before (stop : Option Bytes) (k : Bytes) : Prop :=
  match stop with
  | some e => k < e
  | none => True

/-- A key of the range whose read is a value and that is not behind the merge. -/
def Pending (runs : List (List Record)) (seqBound : Nat) (stop behind : Option Bytes)
    (k v : Bytes) : Prop :=
  recordVersions.Reads (pool runs) k seqBound (some v) ∧ Before stop k ∧ behind ≠ some k

section Lists

variable {α : Type}

theorem modify_append (a : List α) (x : α) (b : List α) (f : α → α) :
    (a ++ x :: b).modify a.length f = a ++ f x :: b := by
  induction a with
  | nil => rfl
  | cons y a ih => simp [List.modify_succ_cons, ih]

theorem append_cons_of_getElem? {l : List α} {i : Nat} {x : α} (h : l[i]? = some x) :
    ∃ a b, l = a ++ x :: b ∧ a.length = i := by
  obtain ⟨hi, hx⟩ := List.getElem?_eq_some_iff.mp h
  refine ⟨l.take i, l.drop (i + 1), ?_, ?_⟩
  · rw [← hx, ← List.drop_eq_getElem_cons hi, List.take_append_drop]
  · rw [List.length_take]
    omega

end Lists

namespace Merge

/-- A source that has yet to hand out `l`. -/
def peek (l : List Record) : Peeking := Peeking.new (l.map .ok)

/-- A merge that has yet to walk `runs`. -/
def ofRuns (runs : List (List Record)) (seqBound : Nat) (stop behind : Option Bytes) : Merge :=
  ⟨runs.map peek, seqBound, stop, behind⟩

theorem new_eq_over (runs : List (List Record)) (seqBound : Nat) (stop : Option Bytes) :
    new (runs.map (fun l => l.map .ok)) seqBound stop = ofRuns runs seqBound stop none := by
  simp only [new, ofRuns, List.map_map]
  rfl

section Over

variable {runs : List (List Record)} {seqBound : Nat} {stop behind : Option Bytes}

theorem better_iff {a b : Record} : better a b = true ↔ a.version < b.version := by
  unfold better Record.version
  rw [decide_eq_true_eq, versionKey_lt_iff]

/-- The search for the next source finds the least head. -/
theorem nextSourceLoop_peek (i : Nat) (runs : List (List Record)) (best : Option (Nat × Record)) :
    (nextSourceLoop i (runs.map peek) best = none ∧ best = none ∧ ∀ l ∈ runs, l = []) ∨
      ∃ n r, nextSourceLoop i (runs.map peek) best = some (n, .ok r) ∧
        (best = some (n, r) ∨ ∃ j rest, n = i + j ∧ runs[j]? = some (r :: rest)) ∧
        (∀ b, best = some b → r.version ≤ b.2.version) ∧
        ∀ l ∈ runs, ∀ x rest, l = x :: rest → r.version ≤ x.version := by
  induction runs generalizing i best with
  | nil =>
      cases best with
      | none => exact Or.inl ⟨rfl, rfl, by simp⟩
      | some b => exact Or.inr ⟨b.1, b.2, rfl, Or.inl rfl, by simp, by simp⟩
  | cons l ls ih =>
      cases l with
      | nil =>
          have hstep : nextSourceLoop i (([] :: ls).map peek) best =
              nextSourceLoop (i + 1) (ls.map peek) best := rfl
          rw [hstep]
          rcases ih (i + 1) best with ⟨h1, h2, h3⟩ | ⟨n, r, h1, h2, h3, h4⟩
          · exact Or.inl ⟨h1, h2, by simpa using h3⟩
          · refine Or.inr ⟨n, r, h1, ?_, h3, ?_⟩
            · rcases h2 with h2 | ⟨j, rest, rfl, hj⟩
              · exact Or.inl h2
              · exact Or.inr ⟨j + 1, rest, by omega, by simpa using hj⟩
            · intro l' hl' x rest hx
              rcases List.mem_cons.mp hl' with rfl | hl'
              · cases hx
              · exact h4 l' hl' x rest hx
      | cons a rest =>
          -- the head of this source, or the best one before it
          obtain ⟨best', hstep, hbest', ha, hold⟩ : ∃ b' : Nat × Record,
              nextSourceLoop i (((a :: rest) :: ls).map peek) best =
                nextSourceLoop (i + 1) (ls.map peek) (some b') ∧
              (b' = (i, a) ∨ best = some b') ∧ b'.2.version ≤ a.version ∧
              ∀ b, best = some b → b'.2.version ≤ b.2.version := by
            cases best with
            | none => exact ⟨(i, a), rfl, Or.inl rfl, le_rfl, by simp⟩
            | some b =>
                by_cases hbetter : better a b.2 = true
                · refine ⟨(i, a), ?_, Or.inl rfl, le_rfl, ?_⟩
                  · show (if better a b.2 = true then _ else _) = _
                    rw [if_pos hbetter]
                  · rintro b' hb'
                    cases hb'
                    exact le_of_lt (better_iff.mp hbetter)
                · refine ⟨b, ?_, Or.inr rfl, ?_, ?_⟩
                  · show (if better a b.2 = true then _ else _) = _
                    rw [if_neg hbetter]
                  · rw [better_iff] at hbetter
                    exact not_lt.mp hbetter
                  · rintro b' hb'
                    cases hb'
                    exact le_rfl
          rw [hstep]
          rcases ih (i + 1) (some best') with ⟨_, h2, _⟩ | ⟨n, r, h1, h2, h3, h4⟩
          · cases h2
          · have hle := h3 best' rfl
            refine Or.inr ⟨n, r, h1, ?_, fun b hb => le_trans hle (hold b hb), ?_⟩
            · rcases h2 with h2 | ⟨j, rest', rfl, hj⟩
              · cases h2
                rcases hbest' with h | h
                · cases h
                  exact Or.inr ⟨0, rest, rfl, rfl⟩
                · exact Or.inl h
              · exact Or.inr ⟨j + 1, rest', by omega, by simpa using hj⟩
            · intro l' hl' x rest' hx
              rcases List.mem_cons.mp hl' with rfl | hl'
              · cases hx
                exact le_trans hle ha
              · exact h4 l' hl' x rest' hx

/-- The next source has the least record of all. -/
theorem nextSource_over (seqBound : Nat) (stop behind : Option Bytes)
    (hsorted : ∀ l ∈ runs, SortedRun l) :
    ((ofRuns runs seqBound stop behind).nextSource = none ∧ ∀ l ∈ runs, l = []) ∨
      ∃ i r rest, (ofRuns runs seqBound stop behind).nextSource = some (i, .ok r) ∧
        runs[i]? = some (r :: rest) ∧ ∀ r' ∈ pool runs, r.version ≤ r'.version := by
  rcases nextSourceLoop_peek 0 runs none with ⟨h1, _, h3⟩ | ⟨n, r, h1, h2, _, h4⟩
  · exact Or.inl ⟨h1, h3⟩
  · right
    rcases h2 with h2 | ⟨j, rest, hn, hj⟩
    · cases h2
    · refine ⟨n, r, rest, h1, by rw [hn, Nat.zero_add]; exact hj, ?_⟩
      rintro r' ⟨l, hl, hr'⟩
      cases l with
      | nil => cases hr'
      | cons x xs =>
          have hx := h4 (x :: xs) hl x xs rfl
          rcases List.mem_cons.mp hr' with rfl | hr'
          · exact hx
          · exact le_trans hx ((List.pairwise_cons.mp (hsorted _ hl)).1 r' hr')

theorem setSource_advance (i : Nat) :
    (ofRuns runs seqBound stop behind).setSource i Peeking.advance =
      ofRuns (runs.modify i List.tail) seqBound stop behind := by
  unfold setSource ofRuns
  congr 1
  induction runs generalizing i with
  | nil => simp
  | cons l ls ih =>
      cases i with
      | zero => cases l <;> rfl
      | succ i => simp [List.modify_succ_cons, ih]

theorem setSource_drained (i : Nat) :
    (ofRuns runs seqBound stop behind).setSource i (fun _ => Peeking.drained) =
      ofRuns (runs.modify i (fun _ => [])) seqBound stop behind := by
  unfold setSource ofRuns
  congr 1
  induction runs generalizing i with
  | nil => simp
  | cons l ls ih =>
      cases i with
      | zero => rfl
      | succ i => simp [List.modify_succ_cons, ih]

theorem remaining_over :
    (ofRuns runs seqBound stop behind).remaining = (runs.map List.length).sum := by
  unfold remaining ofRuns
  rw [List.map_map]
  congr 1
  apply List.map_congr_left
  intro l _
  cases l with
  | nil => rfl
  | cons a l => simp [peek, Peeking.new]

end Over

section Step

variable {runs : List (List Record)} {seqBound i : Nat} {stop behind : Option Bytes}
variable {r : Record} {rest : List Record}

theorem pool_modify_tail (h : runs[i]? = some (r :: rest)) :
    pool runs = pool (runs.modify i List.tail) ∪ {r} := by
  obtain ⟨a, b, rfl, rfl⟩ := append_cons_of_getElem? h
  rw [modify_append, pool_append, pool_append, pool_cons, pool_cons]
  ext x
  simp only [Set.mem_union, mem_ofList, List.mem_cons, Set.mem_singleton_iff, List.tail_cons]
  tauto

theorem pool_modify_nil (h : runs[i]? = some (r :: rest)) :
    pool runs = pool (runs.modify i (fun _ => [])) ∪ ofList (r :: rest) := by
  obtain ⟨a, b, rfl, rfl⟩ := append_cons_of_getElem? h
  rw [modify_append, pool_append, pool_append, pool_cons, pool_cons]
  ext x
  simp only [Set.mem_union, mem_ofList, List.not_mem_nil, false_or]
  tauto

theorem sum_modify_lt (h : runs[i]? = some (r :: rest)) {f : List Record → List Record}
    (hf : (f (r :: rest)).length < (r :: rest).length) :
    ((runs.modify i f).map List.length).sum < (runs.map List.length).sum := by
  obtain ⟨a, b, rfl, rfl⟩ := append_cons_of_getElem? h
  rw [modify_append]
  simp only [List.map_append, List.map_cons, List.sum_append, List.sum_cons]
  omega

theorem sorted_modify (hsorted : ∀ l ∈ runs, SortedRun l) (h : runs[i]? = some (r :: rest))
    {f : List Record → List Record} (hf : SortedRun (f (r :: rest))) :
    ∀ l ∈ runs.modify i f, SortedRun l := by
  obtain ⟨a, b, rfl, rfl⟩ := append_cons_of_getElem? h
  rw [modify_append]
  intro l hl
  rcases List.mem_append.mp hl with hl | hl
  · exact hsorted l (by simp [hl])
  · rcases List.mem_cons.mp hl with rfl | hl
    · exact hf
    · exact hsorted l (by simp [hl])

/-- Taking away records a read does not see leaves the read. -/
theorem reads_union_iff {S T : Set Record} {k : Bytes} {v : Option Bytes}
    (hT : ∀ x ∈ T, ¬ (x.key = k ∧ x.seq < seqBound)) :
    recordVersions.Reads (S ∪ T) k seqBound v ↔ recordVersions.Reads S k seqBound v := by
  have hvis : ∀ x, recordVersions.Visible (S ∪ T) k seqBound x ↔
      recordVersions.Visible S k seqBound x := by
    intro x
    constructor
    · rintro ⟨hx | hx, hk⟩
      · exact ⟨hx, hk⟩
      · exact absurd hk (hT x hx)
    · exact fun hx => hx.mono Set.subset_union_left
  exact ⟨fun h => h.congr hvis, fun h => h.congr fun x => (hvis x).symm⟩

/-- The least record of the pool, if it is visible, answers its key. -/
theorem newest_of_least (hr : r ∈ pool runs) (hleast : ∀ x ∈ pool runs, r.version ≤ x.version)
    (hq : r.seq < seqBound) : recordVersions.Newest (pool runs) r.key seqBound r := by
  refine ⟨⟨hr, rfl, hq⟩, ?_⟩
  rintro x ⟨hx, hk, _⟩
  rcases version_le_iff.mp (hleast x hx) with hlt | ⟨_, hle⟩
  · exact absurd hk.symm (ne_of_lt hlt)
  · exact hle

/-- What holds of a merge between two turns: the runs are sorted, no two
records share a version, and nothing before the key it is at is left. -/
structure Ready (runs : List (List Record)) (behind : Option Bytes) : Prop where
  sorted : ∀ l ∈ runs, SortedRun l
  onePerSeq : recordVersions.OnePerSeq (pool runs)
  ahead : ∀ d, behind = some d → ∀ x ∈ pool runs, d ≤ x.key

theorem Ready.tail (hr : Ready runs behind) (h : runs[i]? = some (r :: rest)) :
    Ready (runs.modify i List.tail) behind := by
  have hsub : pool (runs.modify i List.tail) ⊆ pool runs := by
    rw [pool_modify_tail h]
    exact Set.subset_union_left
  refine ⟨sorted_modify hr.sorted h ?_, hr.onePerSeq.mono hsub, fun d hd x hx =>
    hr.ahead d hd x (hsub hx)⟩
  exact (List.pairwise_cons.mp (hr.sorted _ (List.mem_of_getElem? h))).2

theorem Ready.drained (hr : Ready runs behind) (h : runs[i]? = some (r :: rest)) :
    Ready (runs.modify i (fun _ => [])) behind := by
  have hsub : pool (runs.modify i (fun _ => [])) ⊆ pool runs := by
    rw [pool_modify_nil h]
    exact Set.subset_union_left
  exact ⟨sorted_modify hr.sorted h List.Pairwise.nil, hr.onePerSeq.mono hsub, fun d hd x hx =>
    hr.ahead d hd x (hsub hx)⟩

theorem Ready.advance (hr : Ready runs behind) (hleast : ∀ x ∈ pool runs, r.version ≤ x.version) :
    Ready runs (some r.key) :=
  ⟨hr.sorted, hr.onePerSeq, fun d hd x hx => by
    cases hd
    exact key_le_of_version_le (hleast x hx)⟩

theorem mem_of_pending {k v : Bytes} (h : Pending runs seqBound stop behind k v) :
    ∃ x ∈ pool runs, x.key = k := by
  rcases h.1 with ⟨x, hx, _⟩ | ⟨_, hnone⟩
  · exact ⟨x, hx.1.1, hx.1.2.1⟩
  · cases hnone

/-- Behind the least record's key, the other keys stay pending. -/
theorem pending_tail_iff (hready : Ready runs behind) (hi : runs[i]? = some (r :: rest))
    (hleast : ∀ x ∈ pool runs, r.version ≤ x.version) (k v : Bytes) :
    Pending (runs.modify i List.tail) seqBound stop (some r.key) k v ↔
      Pending runs seqBound stop behind k v ∧ k ≠ r.key := by
  have hreads : k ≠ r.key →
      (recordVersions.Reads (pool runs) k seqBound (some v) ↔
        recordVersions.Reads (pool (runs.modify i List.tail)) k seqBound (some v)) := by
    intro hk
    rw [pool_modify_tail hi]
    apply reads_union_iff
    rintro x hx ⟨hxk, _⟩
    rw [Set.mem_singleton_iff.mp hx] at hxk
    exact hk hxk.symm
  constructor
  · intro hp
    have hk : k ≠ r.key := fun h => hp.2.2 (by rw [h])
    have hp' : recordVersions.Reads (pool runs) k seqBound (some v) := (hreads hk).mpr hp.1
    refine ⟨⟨hp', hp.2.1, ?_⟩, hk⟩
    intro hbehind
    have hrk := hready.ahead k hbehind r ⟨_, List.mem_of_getElem? hi, by simp⟩
    rcases hp' with ⟨x, hx, _⟩ | ⟨_, hnone⟩
    · have hxk := key_le_of_version_le (hleast x hx.1.1)
      rw [show x.key = k from hx.1.2.1] at hxk
      exact hk (le_antisymm hrk hxk)
    · cases hnone
  · rintro ⟨hp, hk⟩
    exact ⟨(hreads hk).mp hp.1, hp.2.1, fun h => hk (by simpa using h.symm)⟩

/-- What one turn of the merge returns: the least pending key, or the end. -/
def Turns (runs : List (List Record)) (seqBound : Nat) (stop behind : Option Bytes)
    (result : Option (Except Error (Bytes × Bytes) × Merge)) : Prop :=
  (result = none ∧ ∀ k v, ¬ Pending runs seqBound stop behind k v) ∨
    ∃ k v runs', result = some (.ok (k, v), ofRuns runs' seqBound stop (some k)) ∧
      Ready runs' (some k) ∧ (runs'.map List.length).sum < (runs.map List.length).sum ∧
      Pending runs seqBound stop behind k v ∧
      (∀ k' v', Pending runs seqBound stop behind k' v' → k ≤ k') ∧
      ∀ k' v', Pending runs' seqBound stop (some k) k' v' ↔
        Pending runs seqBound stop behind k' v' ∧ k' ≠ k

/-- A record that is passed over changes nothing. -/
theorem Turns.skip {runs₁ : List (List Record)} {behind₁ : Option Bytes}
    {result : Option (Except Error (Bytes × Bytes) × Merge)}
    (h : Turns runs₁ seqBound stop behind₁ result)
    (hlt : (runs₁.map List.length).sum < (runs.map List.length).sum)
    (hp : ∀ k v, Pending runs₁ seqBound stop behind₁ k v ↔
      Pending runs seqBound stop behind k v) :
    Turns runs seqBound stop behind result := by
  rcases h with ⟨hnone, hno⟩ | ⟨k, v, runs', hsome, hready, hsum, hkv, hleast, hiff⟩
  · exact Or.inl ⟨hnone, fun k v hkv => hno k v ((hp k v).mpr hkv)⟩
  · refine Or.inr ⟨k, v, runs', hsome, hready, by omega, (hp k v).mp hkv, ?_, ?_⟩
    · exact fun k' v' hk' => hleast k' v' ((hp k' v').mpr hk')
    · intro k' v'
      rw [hiff, hp]

/-- One turn of the merge, given enough fuel. -/
theorem next_over (seqBound : Nat) (stop : Option Bytes) (fuel : Nat)
    (runs : List (List Record)) (behind : Option Bytes)
    (hready : Ready runs behind) (hfuel : (runs.map List.length).sum < fuel) :
    Turns runs seqBound stop behind (next fuel (ofRuns runs seqBound stop behind)) := by
  induction fuel generalizing runs behind with
  | zero => omega
  | succ fuel ih =>
      rcases nextSource_over seqBound stop behind hready.sorted with
        ⟨hnone, hempty⟩ | ⟨i, r, rest, hsome, hi, hleast⟩
      · left
        refine ⟨by simp only [next, hnone], ?_⟩
        intro k v hp
        obtain ⟨x, ⟨l, hl, hx⟩, _⟩ := mem_of_pending hp
        rw [hempty l hl] at hx
        cases hx
      · have hmem : r ∈ pool runs := ⟨_, List.mem_of_getElem? hi, by simp⟩
        have htail : ((runs.modify i List.tail).map List.length).sum <
            (runs.map List.length).sum := sum_modify_lt hi (by simp)
        simp only [next, hsome, setSource_advance, setSource_drained]
        split_ifs with hpast hdone hseq
        · -- the rest of the source is past the end of the range
          have hlt : ((runs.modify i (fun _ => [])).map List.length).sum <
              (runs.map List.length).sum := sum_modify_lt hi (by simp)
          refine (ih _ behind (hready.drained hi) (by omega)).skip hlt ?_
          intro k v
          unfold Pending
          refine and_congr_left ?_
          rintro ⟨hbefore, _⟩
          rw [pool_modify_nil hi]
          refine (reads_union_iff ?_).symm
          rintro x hx ⟨hxk, _⟩
          have hrx : r.key ≤ x.key :=
            key_le_of_version_le (hleast x ⟨_, List.mem_of_getElem? hi, hx⟩)
          cases hstop : stop with
          | none => simp [pastEnd, ofRuns, hstop] at hpast
          | some e =>
              have he : e ≤ r.key := by simpa [pastEnd, ofRuns, hstop] using hpast
              have hke : k < e := by simpa [Before, hstop] using hbefore
              rw [hxk] at hrx
              exact absurd hke (not_lt.mpr (le_trans he hrx))
        · -- an older version of the key that was just answered
          have hdone' : behind = some r.key := hdone
          subst hdone'
          refine (ih _ _ (hready.tail hi) (by omega)).skip htail ?_
          intro k v
          rw [pending_tail_iff hready hi hleast]
          exact ⟨fun h => h.1, fun h => ⟨h, fun hk => h.2.2 (by rw [hk])⟩⟩
        · -- a version at or above the horizon
          refine (ih _ behind (hready.tail hi) (by omega)).skip htail ?_
          intro k v
          unfold Pending
          refine and_congr_left ?_
          intro _
          rw [pool_modify_tail hi]
          refine (reads_union_iff ?_).symm
          rintro x hx ⟨_, hxs⟩
          rw [Set.mem_singleton_iff.mp hx] at hxs
          exact absurd hxs (not_lt.mpr hseq)
        · have hnewest := newest_of_least hmem hleast (not_le.mp hseq)
          have hready' : Ready (runs.modify i List.tail) (some r.key) :=
            (hready.advance hleast).tail hi
          cases hv : r.value with
          | none =>
              refine (ih _ (some r.key) hready' (by omega)).skip htail ?_
              intro k v
              rw [pending_tail_iff hready hi hleast]
              refine ⟨fun h => h.1, fun h => ⟨h, ?_⟩⟩
              rintro rfl
              have := Reads.unique hready.onePerSeq (Or.inl ⟨r, hnewest, hv⟩) h.1
              cases this
          | some v =>
              right
              refine ⟨r.key, v, runs.modify i List.tail, rfl, hready', htail, ?_, ?_, ?_⟩
              · refine ⟨Or.inl ⟨r, hnewest, hv⟩, ?_, hdone⟩
                cases hstop : stop with
                | none => trivial
                | some e =>
                    have he : ¬ e ≤ r.key := by simpa [pastEnd, ofRuns, hstop] using hpast
                    exact not_le.mp he
              · intro k' v' hp
                obtain ⟨x, hx, rfl⟩ := mem_of_pending hp
                exact key_le_of_version_le (hleast x hx)
              · exact pending_tail_iff hready hi hleast

/-- The pairs a merge has yet to yield. -/
structure Yields (runs : List (List Record)) (seqBound : Nat) (stop behind : Option Bytes)
    (all : List (Bytes × Bytes)) : Prop where
  increasing : KeysIncrease all
  mem : ∀ k v, (k, v) ∈ all ↔ Pending runs seqBound stop behind k v

theorem Yields.nil (h : ∀ k v, ¬ Pending runs seqBound stop behind k v) :
    Yields runs seqBound stop behind [] :=
  ⟨List.Pairwise.nil, by simpa using h⟩

/-- The least pending pair comes before the rest. -/
theorem Yields.cons {runs' : List (List Record)} {k v : Bytes} {all : List (Bytes × Bytes)}
    (hready : Ready runs behind) (hkv : Pending runs seqBound stop behind k v)
    (hleast : ∀ k' v', Pending runs seqBound stop behind k' v' → k ≤ k')
    (hiff : ∀ k' v', Pending runs' seqBound stop (some k) k' v' ↔
      Pending runs seqBound stop behind k' v' ∧ k' ≠ k)
    (h : Yields runs' seqBound stop (some k) all) :
    Yields runs seqBound stop behind ((k, v) :: all) := by
  constructor
  · refine List.pairwise_cons.mpr ⟨?_, h.increasing⟩
    rintro ⟨k', v'⟩ hk'
    have hp := (hiff k' v').mp ((h.mem k' v').mp hk')
    exact lt_of_le_of_ne (hleast k' v' hp.1) (Ne.symm hp.2)
  · intro k' v'
    rw [List.mem_cons, h.mem, hiff]
    constructor
    · rintro (heq | hp)
      · cases heq
        exact hkv
      · exact hp.1
    · intro hp
      by_cases hk : k' = k
      · subst hk
        left
        have := Reads.unique hready.onePerSeq hkv.1 hp.1
        cases this
        rfl
      · exact Or.inr ⟨hp, hk⟩

/-- A scan over sorted runs returns the first pending keys in order. -/
theorem collect_over (seqBound : Nat) (stop : Option Bytes) (fuel : Nat)
    (runs : List (List Record)) (behind : Option Bytes)
    (hready : Ready runs behind) (hfuel : (runs.map List.length).sum < fuel) :
    ∃ all : List (Bytes × Bytes), Yields runs seqBound stop behind all ∧
      ∀ limit, collect limit fuel (ofRuns runs seqBound stop behind) = .ok (all.take limit) := by
  obtain ⟨n, hn⟩ : ∃ n, (runs.map List.length).sum < n := ⟨fuel, hfuel⟩
  induction n generalizing runs behind with
  | zero => omega
  | succ n ih =>
      rcases next_over seqBound stop fuel runs behind hready hfuel with
        ⟨hnone, hno⟩ | ⟨k, v, runs', hsome, hready', hlt, hkv, hleast, hiff⟩
      · refine ⟨[], Yields.nil hno, fun limit => ?_⟩
        cases limit with
        | zero => rfl
        | succ limit => simp [collect, hnone]
      · obtain ⟨all, hyields, hrun⟩ := ih runs' (some k) hready' (by omega) (by omega)
        refine ⟨(k, v) :: all, Yields.cons hready hkv hleast hiff hyields, fun limit => ?_⟩
        cases limit with
        | zero => rfl
        | succ limit =>
            simp only [collect, hsome, hrun limit, List.take_succ_cons]
            rfl

end Step

end Merge

end LsmKv
