import LsmKv.ScanMerge

/-!
# A scan over sources that fail

A source may end in an error: a block that cannot be read.  An error at the head of a
source goes first, so that nothing is yielded that the rest of the source could have
changed.

**Results.**
* `Merge.next_tells`: until it fails, a merge does what it does over any continuation of
  the sources.
* `merge_exact`: what is yielded before the first error is a beginning of the reference
  result, and all of it if no error comes; an error comes only from a source that fails
  before the end of the range.
-/

namespace LsmKv

open Foundation Versioning

/-- A source that hands out `records` and then may fail. -/
def sourceItems (records : List Record) (failure : Option Error) : List Item :=
  records.map .ok ++ failure.toList.map .error

/-- The reference result: for each key before the end, ascending, the value of its newest
record below the bound; tombstoned keys are left out. -/
structure Reference (runs : List (List Record)) (seqBound : Nat) (stop : Option Bytes)
    (all : List (Bytes × Bytes)) : Prop where
  increasing : KeysIncrease all
  mem : ∀ k v, (k, v) ∈ all ↔
    recordVersions.Reads (pool runs) k seqBound (some v) ∧ Before stop k

namespace Merge

/-- The pairs that are pulled out of a merge until it ends or fails, and its failure. -/
def drain : Nat → Merge → List (Bytes × Bytes) × Option Error
  | 0, _ => ([], none)
  | turns + 1, m =>
      match next (m.remaining + 1) m with
      | none => ([], none)
      | some (.error e, _) => ([], some e)
      | some (.ok kv, m) => (kv :: (drain turns m).1, (drain turns m).2)

/-- All that can be pulled out of a merge. -/
def pull (m : Merge) : List (Bytes × Bytes) × Option Error := drain (m.remaining + 1) m

/-- A merge that has yet to walk `items`. -/
def ofItems (items : List (List Item)) (seqBound : Nat) (stop behind : Option Bytes) : Merge :=
  ⟨items.map Peeking.new, seqBound, stop, behind⟩

/-- Records that continue what a source hands out. -/
def Tells (items : List Item) (l : List Record) : Prop :=
  items = l.map .ok ∨ ∃ front e rest, items = front.map .ok ++ [.error e] ∧ l = front ++ rest

/-- A source that fails only behind the end of the range. -/
def Excused (stop : Option Bytes) (items : List Item) : Prop :=
  (∃ e, .error e ∈ items) → ∃ r, .ok r ∈ items ∧ ∃ k, stop = some k ∧ k ≤ r.key

/-- A source that hands out records of the range and then fails. -/
def Blamed (stop : Option Bytes) (e : Error) (items : List Item) : Prop :=
  ∃ front : List Record, items = front.map .ok ++ [.error e] ∧ ∀ r ∈ front, Before stop r.key

section Tells

variable {items : List Item} {l : List Record} {r : Record} {stop : Option Bytes}

theorem Tells.cases (h : Tells items l) :
    (items = [] ∧ l = []) ∨ (∃ e, items = [.error e]) ∨
      ∃ r items' l', items = .ok r :: items' ∧ l = r :: l' ∧ Tells items' l' := by
  rcases h with rfl | ⟨front, e, rest, rfl, rfl⟩
  · cases l with
    | nil => exact Or.inl ⟨rfl, rfl⟩
    | cons r l => exact Or.inr (Or.inr ⟨r, _, l, rfl, rfl, Or.inl rfl⟩)
  · cases front with
    | nil => exact Or.inr (Or.inl ⟨e, rfl⟩)
    | cons r front =>
        exact Or.inr (Or.inr ⟨r, _, _, rfl, rfl, Or.inr ⟨front, e, rest, rfl, rfl⟩⟩)

theorem tells_nil : Tells [] [] := Or.inl rfl

theorem excused_nil : Excused stop [] := by
  rintro ⟨e, he⟩
  cases he

theorem Excused.cons (h : Excused stop items) : Excused stop (.ok r :: items) := by
  rintro ⟨e, he⟩
  obtain ⟨x, hx, hpast⟩ := h ⟨e, by simpa using he⟩
  exact ⟨x, List.mem_cons_of_mem _ hx, hpast⟩

theorem Blamed.cons {e : Error} (h : Blamed stop e items) (hr : Before stop r.key) :
    Blamed stop e (.ok r :: items) := by
  obtain ⟨front, rfl, hfront⟩ := h
  exact ⟨r :: front, rfl, List.forall_mem_cons.mpr ⟨hr, hfront⟩⟩

theorem not_blamed_nil {e : Error} : ¬ Blamed stop e [] := by
  rintro ⟨front, hnil, _⟩
  simp at hnil

/-- A key that is not past the end. -/
theorem before_of_not_any {key : Bytes} (h : ¬ stop.any (fun e => decide (e ≤ key)) = true) :
    Before stop key := by
  cases stop with
  | none => trivial
  | some e => exact lt_of_not_ge fun hle => h (by simpa using hle)

end Tells

section Items

variable {items : List (List Item)} {runs : List (List Record)} {seqBound i : Nat}
variable {stop behind : Option Bytes} {r : Record}

theorem setSource_items (i : Nat) (f : Peeking → Peeking) (g : List Item → List Item)
    (hfg : ∀ l, f (Peeking.new l) = Peeking.new (g l)) :
    (ofItems items seqBound stop behind).setSource i f =
      ofItems (items.modify i g) seqBound stop behind := by
  unfold setSource ofItems
  congr 1
  induction items generalizing i with
  | nil => simp
  | cons l ls ih =>
      cases i with
      | zero => simp [hfg]
      | succ i => simp [List.modify_succ_cons, ih]

theorem done_ofItems : (ofItems items seqBound stop behind).done = behind := rfl

theorem done_ofRuns : (ofRuns runs seqBound stop behind).done = behind := rfl

theorem seqBound_ofItems : (ofItems items seqBound stop behind).seqBound = seqBound := rfl

theorem seqBound_ofRuns : (ofRuns runs seqBound stop behind).seqBound = seqBound := rfl

theorem pastEnd_ofItems (key : Bytes) :
    (ofItems items seqBound stop behind).pastEnd key = stop.any (fun e => decide (e ≤ key)) := by
  cases stop <;> rfl

theorem pastEnd_ofRuns (key : Bytes) :
    (ofRuns runs seqBound stop behind).pastEnd key = stop.any (fun e => decide (e ≤ key)) := by
  cases stop <;> rfl

theorem remaining_items :
    (ofItems items seqBound stop behind).remaining = (items.map List.length).sum := by
  unfold remaining ofItems
  rw [List.map_map]
  congr 1
  apply List.map_congr_left
  intro l _
  cases l with
  | nil => rfl
  | cons a l => simp [Peeking.new]

/-- Without an error in front, the next source is the one of the continued runs. -/
theorem nextSourceLoop_tells (htells : List.Forall₂ Tells items runs) (i : Nat)
    (best : Option (Nat × Record)) :
    (∃ j e, nextSourceLoop i (items.map Peeking.new) best = some (j, .error e) ∧
        [.error e] ∈ items) ∨
      (nextSourceLoop i (items.map Peeking.new) best = nextSourceLoop i (runs.map peek) best ∧
        ∀ l ∈ items, ∀ e, l ≠ [.error e]) := by
  induction htells generalizing i best with
  | nil => exact Or.inr ⟨rfl, by simp⟩
  | @cons s l items runs hs _ ih =>
      rcases hs.cases with ⟨rfl, rfl⟩ | ⟨e, rfl⟩ | ⟨r, s', l', rfl, rfl, _⟩
      · have hskip : ∀ ps, nextSourceLoop i (Peeking.new [] :: ps) best =
            nextSourceLoop (i + 1) ps best := fun _ => rfl
        rw [List.map_cons, List.map_cons, hskip, show peek [] = Peeking.new [] from rfl, hskip]
        rcases ih (i + 1) best with ⟨j, e, herr, hmem⟩ | ⟨heq, hno⟩
        · exact Or.inl ⟨j, e, herr, List.mem_cons_of_mem _ hmem⟩
        · exact Or.inr ⟨heq, by simpa using hno⟩
      · exact Or.inl ⟨i, e, rfl, by simp⟩
      · obtain ⟨best', hbest⟩ : ∃ b, ∀ p ps, p.head = some (.ok r) →
            nextSourceLoop i (p :: ps) best = nextSourceLoop (i + 1) ps b := by
          cases best with
          | none =>
              refine ⟨some (i, r), fun p ps hp => ?_⟩
              rw [nextSourceLoop, hp]
          | some b =>
              refine ⟨if better r b.2 then some (i, r) else some b, fun p ps hp => ?_⟩
              rw [nextSourceLoop, hp]
              dsimp only
              split_ifs <;> rfl
        rw [List.map_cons, List.map_cons, hbest _ _ rfl, hbest _ _ rfl]
        rcases ih (i + 1) best' with ⟨j, e, herr, hmem⟩ | ⟨heq, hno⟩
        · exact Or.inl ⟨j, e, herr, List.mem_cons_of_mem _ hmem⟩
        · refine Or.inr ⟨heq, ?_⟩
          intro x hx e
          rcases List.mem_cons.mp hx with rfl | hx
          · simp
          · exact hno x hx e

/-- What a turn over failing sources and a turn over their continuations have in common. -/
def Agrees (items : List (List Item)) (seqBound : Nat) (stop : Option Bytes)
    (result result' : Option (Except Error (Bytes × Bytes) × Merge)) : Prop :=
  (∃ e m, result = some (.error e, m) ∧ ∃ s ∈ items, Blamed stop e s) ∨
    (result = none ∧ result' = none ∧ ∀ s ∈ items, Excused stop s) ∨
    ∃ kv items' runs', result = some (.ok kv, ofItems items' seqBound stop (some kv.1)) ∧
      result' = some (.ok kv, ofRuns runs' seqBound stop (some kv.1)) ∧
      List.Forall₂ Tells items' runs' ∧
      (items'.map List.length).sum < (items.map List.length).sum ∧
      ((∀ s ∈ items', Excused stop s) → ∀ s ∈ items, Excused stop s) ∧
      ∀ e, (∃ s ∈ items', Blamed stop e s) → ∃ s ∈ items, Blamed stop e s

/-- An item that is passed over changes nothing. -/
theorem Agrees.skip {items₁ : List (List Item)}
    {result result' : Option (Except Error (Bytes × Bytes) × Merge)}
    (h : Agrees items₁ seqBound stop result result')
    (hlt : (items₁.map List.length).sum < (items.map List.length).sum)
    (hexcused : (∀ s ∈ items₁, Excused stop s) → ∀ s ∈ items, Excused stop s)
    (hblamed : ∀ e, (∃ s ∈ items₁, Blamed stop e s) → ∃ s ∈ items, Blamed stop e s) :
    Agrees items seqBound stop result result' := by
  rcases h with ⟨e, m, herr, hfrom⟩ | ⟨hnone, hnone', hall⟩ |
    ⟨kv, items', runs', h₁, h₂, h₃, h₄, h₅, h₆⟩
  · exact Or.inl ⟨e, m, herr, hblamed e hfrom⟩
  · exact Or.inr (Or.inl ⟨hnone, hnone', hexcused hall⟩)
  · exact Or.inr (Or.inr ⟨kv, items', runs', h₁, h₂, h₃, by omega, fun h => hexcused (h₅ h),
      fun e h => hblamed e (h₆ e h)⟩)

/-- The source that hands out a record, between the others. -/
theorem Tells.split {A B : List (List Record)} {rest : List Record}
    (htells : List.Forall₂ Tells items (A ++ (r :: rest) :: B))
    (hno : ∀ l ∈ items, ∀ e, l ≠ [.error e]) :
    ∃ A' s B', items = A' ++ (.ok r :: s) :: B' ∧ A'.length = A.length ∧
      List.Forall₂ Tells A' A ∧ Tells s rest ∧ List.Forall₂ Tells B' B := by
  induction A generalizing items with
  | nil =>
      obtain ⟨s, B', hs, hB, rfl⟩ := List.forall₂_cons_right_iff.mp htells
      rcases hs.cases with ⟨_, hnil⟩ | ⟨e, rfl⟩ | ⟨x, s', l', rfl, hcons, hs'⟩
      · cases hnil
      · exact absurd rfl (hno _ (by simp) e)
      · cases hcons
        exact ⟨[], s', B', rfl, rfl, .nil, hs', hB⟩
  | cons a A ih =>
      obtain ⟨s, items, hs, hrest, rfl⟩ := List.forall₂_cons_right_iff.mp htells
      obtain ⟨A', s', B', rfl, hlen, hA, hs', hB⟩ := ih hrest
        fun l hl => hno l (List.mem_cons_of_mem _ hl)
      exact ⟨s :: A', s', B', rfl, by simp [hlen], .cons hs hA, hs', hB⟩

theorem Tells.all_nil (htells : List.Forall₂ Tells items runs) (hempty : ∀ l ∈ runs, l = [])
    (hno : ∀ l ∈ items, ∀ e, l ≠ [.error e]) : ∀ s ∈ items, s = [] := by
  induction htells with
  | nil => simp
  | @cons s l items runs hs _ ih =>
      intro x hx
      rcases List.mem_cons.mp hx with rfl | hx
      · rcases hs.cases with ⟨hnil, _⟩ | ⟨e, he⟩ | ⟨r, s', l', _, hcons, _⟩
        · exact hnil
        · exact absurd he (hno _ (by simp) e)
        · rw [hempty l (by simp)] at hcons
          cases hcons
      · exact ih (fun l hl => hempty l (List.mem_cons_of_mem _ hl))
          (fun l hl => hno l (List.mem_cons_of_mem _ hl)) x hx

/-- One turn: until it fails, a merge does what it does over any continuation of its
sources. -/
theorem next_tells (seqBound : Nat) (stop : Option Bytes) (fuel fuel' : Nat)
    (items : List (List Item)) (runs : List (List Record)) (behind : Option Bytes)
    (htells : List.Forall₂ Tells items runs) (hfuel : (items.map List.length).sum < fuel)
    (hfuel' : (runs.map List.length).sum < fuel') :
    Agrees items seqBound stop (next fuel (ofItems items seqBound stop behind))
      (next fuel' (ofRuns runs seqBound stop behind)) := by
  induction fuel generalizing fuel' items runs behind with
  | zero => omega
  | succ fuel ih =>
      obtain ⟨fuel', rfl⟩ : ∃ n, fuel' = n + 1 := ⟨fuel' - 1, by omega⟩
      rcases nextSourceLoop_tells htells 0 none with ⟨j, e, herr, hmem⟩ | ⟨heq, hno⟩
      · left
        have hsource : (ofItems items seqBound stop behind).nextSource = some (j, .error e) := herr
        exact ⟨e, (ofItems items seqBound stop behind).setSource j Peeking.advance,
          by simp only [next, hsource], _, hmem, [], rfl, by simp⟩
      have hsame : (ofItems items seqBound stop behind).nextSource =
          (ofRuns runs seqBound stop behind).nextSource := heq
      rcases nextSourceLoop_peek 0 runs none with ⟨hnone, _, hempty⟩ | ⟨n, r, hsome, hat, _, _⟩
      · have hnone' : (ofRuns runs seqBound stop behind).nextSource = none := hnone
        refine Or.inr (Or.inl ⟨by simp only [next, hsame, hnone'], by simp only [next, hnone'], ?_⟩)
        intro s hs
        rw [Tells.all_nil htells hempty hno s hs]
        exact excused_nil
      · obtain ⟨rest, hi⟩ : ∃ rest, runs[n]? = some (r :: rest) := by
          rcases hat with hbest | ⟨j, rest, hn, hj⟩
          · cases hbest
          · exact ⟨rest, by rw [hn, Nat.zero_add]; exact hj⟩
        have hsource : (ofRuns runs seqBound stop behind).nextSource = some (n, .ok r) := hsome
        obtain ⟨A, B, rfl, rfl⟩ := append_cons_of_getElem? hi
        obtain ⟨A', s, B', rfl, hlen, hA, hs, hB⟩ := Tells.split htells hno
        have hadvance : (ofItems (A' ++ (.ok r :: s) :: B') seqBound stop behind).setSource
            A.length Peeking.advance = ofItems (A' ++ s :: B') seqBound stop behind := by
          rw [setSource_items _ _ List.tail fun _ => rfl, ← hlen, modify_append]
          rfl
        have hdrained : (ofItems (A' ++ (.ok r :: s) :: B') seqBound stop behind).setSource
            A.length (fun _ => Peeking.drained) =
            ofItems (A' ++ [] :: B') seqBound stop behind := by
          rw [setSource_items _ _ (fun _ => []) fun _ => rfl, ← hlen, modify_append]
        have hadvance' : (ofRuns (A ++ (r :: rest) :: B) seqBound stop behind).setSource
            A.length Peeking.advance = ofRuns (A ++ rest :: B) seqBound stop behind := by
          rw [setSource_advance, modify_append]
          rfl
        have hdrained' : (ofRuns (A ++ (r :: rest) :: B) seqBound stop behind).setSource
            A.length (fun _ => Peeking.drained) = ofRuns (A ++ [] :: B) seqBound stop behind := by
          rw [setSource_drained, modify_append]
        have htells' : List.Forall₂ Tells (A' ++ s :: B') (A ++ rest :: B) :=
          List.rel_append hA (.cons hs hB)
        simp only [List.map_append, List.map_cons, List.sum_append, List.sum_cons,
          List.length_cons] at hfuel hfuel'
        have hlt : ((A' ++ s :: B').map List.length).sum <
            ((A' ++ (.ok r :: s) :: B').map List.length).sum := by
          simp only [List.map_append, List.map_cons, List.sum_append, List.sum_cons,
            List.length_cons]
          omega
        have hexcused : (∀ x ∈ A' ++ s :: B', Excused stop x) →
            ∀ x ∈ A' ++ (.ok r :: s) :: B', Excused stop x := by
          intro h x hx
          rcases List.mem_append.mp hx with hx | hx
          · exact h x (by simp [hx])
          · rcases List.mem_cons.mp hx with rfl | hx
            · exact (h s (by simp)).cons
            · exact h x (by simp [hx])
        have hblamed : Before stop r.key → ∀ e, (∃ x ∈ A' ++ s :: B', Blamed stop e x) →
            ∃ x ∈ A' ++ (.ok r :: s) :: B', Blamed stop e x := by
          rintro hbefore e ⟨x, hx, hfrom⟩
          rcases List.mem_append.mp hx with hx | hx
          · exact ⟨x, by simp [hx], hfrom⟩
          · rcases List.mem_cons.mp hx with rfl | hx
            · exact ⟨_, by simp, hfrom.cons hbefore⟩
            · exact ⟨x, by simp [hx], hfrom⟩
        have hskip : Before stop r.key → ∀ behind', Agrees (A' ++ (.ok r :: s) :: B') seqBound stop
            (next fuel (ofItems (A' ++ s :: B') seqBound stop behind'))
            (next fuel' (ofRuns (A ++ rest :: B) seqBound stop behind')) := fun hbefore behind' =>
          (ih fuel' _ _ behind' htells'
            (by simp only [List.map_append, List.map_cons, List.sum_append, List.sum_cons]; omega)
            (by simp only [List.map_append, List.map_cons, List.sum_append,
                  List.sum_cons]; omega)).skip hlt hexcused (hblamed hbefore)
        simp only [next, hsame, hsource, hadvance, hdrained, hadvance', hdrained', pastEnd_ofItems,
          pastEnd_ofRuns, done_ofItems, done_ofRuns, seqBound_ofItems, seqBound_ofRuns]
        split_ifs with hpast hdone hseq
        · -- both drop the source, and with it the error that was to come
          refine (ih fuel' (A' ++ [] :: B') (A ++ [] :: B) behind
            (List.rel_append hA (.cons tells_nil hB)) ?_ ?_).skip ?_ ?_ ?_
          · simp only [List.map_append, List.map_cons, List.sum_append, List.sum_cons,
              List.length_nil]
            omega
          · simp only [List.map_append, List.map_cons, List.sum_append, List.sum_cons,
              List.length_nil]
            omega
          · simp
          · intro h x hx
            rcases List.mem_append.mp hx with hx | hx
            · exact h x (by simp [hx])
            · rcases List.mem_cons.mp hx with rfl | hx
              · obtain ⟨k, hk, hle⟩ := (Option.any_eq_true _ _).mp hpast
                exact fun _ => ⟨r, by simp, k, hk, of_decide_eq_true hle⟩
              · exact h x (by simp [hx])
          · rintro e ⟨x, hx, hfrom⟩
            rcases List.mem_append.mp hx with hx | hx
            · exact ⟨x, by simp [hx], hfrom⟩
            · rcases List.mem_cons.mp hx with rfl | hx
              · exact absurd hfrom not_blamed_nil
              · exact ⟨x, by simp [hx], hfrom⟩
        · exact hskip (before_of_not_any hpast) behind
        · exact hskip (before_of_not_any hpast) behind
        · cases r.value with
          | none => exact hskip (before_of_not_any hpast) (some r.key)
          | some v =>
              exact Or.inr (Or.inr ⟨(r.key, v), A' ++ s :: B', A ++ rest :: B, rfl, rfl,
                htells', hlt, hexcused, hblamed (before_of_not_any hpast)⟩)

theorem ofRuns_inj {runs' : List (List Record)} {behind' : Option Bytes}
    (h : ofRuns runs seqBound stop behind = ofRuns runs' seqBound stop behind') : runs = runs' := by
  have hpeek : Function.Injective peek := by
    intro l l' hl
    cases l with
    | nil =>
        cases l' with
        | nil => rfl
        | cons r' l' => cases (Peeking.mk.inj hl).2
    | cons r l =>
        cases l' with
        | nil => cases (Peeking.mk.inj hl).2
        | cons r' l' =>
            obtain ⟨htail, hhead⟩ := Peeking.mk.inj hl
            have hok : Function.Injective (Except.ok : Record → Item) :=
              fun _ _ h => Except.ok.inj h
            cases hhead
            rw [List.map_injective_iff.mpr hok htail]
  exact List.map_injective_iff.mpr hpeek (Merge.mk.inj h).1

/-- What is pulled out of a merge: a beginning of what any continuation of its sources
yields, and all of it if no error comes.  An error comes from a source that fails before the
end of the range. -/
theorem drain_tells (seqBound : Nat) (stop : Option Bytes) (turns : Nat)
    (items : List (List Item)) (runs : List (List Record)) (behind : Option Bytes)
    (htells : List.Forall₂ Tells items runs) (hready : Ready runs behind)
    (hturns : (items.map List.length).sum < turns) :
    ∃ all, Yields runs seqBound stop behind all ∧
      (drain turns (ofItems items seqBound stop behind)).1 <+: all ∧
      ((drain turns (ofItems items seqBound stop behind)).2 = none →
        (drain turns (ofItems items seqBound stop behind)).1 = all ∧
          ∀ s ∈ items, Excused stop s) ∧
      ∀ e, (drain turns (ofItems items seqBound stop behind)).2 = some e →
        ∃ s ∈ items, Blamed stop e s := by
  induction turns generalizing items runs behind with
  | zero => omega
  | succ turns ih =>
      have hagree := next_tells seqBound stop ((items.map List.length).sum + 1)
        ((runs.map List.length).sum + 1) items runs behind htells (by omega) (by omega)
      have hturn := next_over seqBound stop ((runs.map List.length).sum + 1) runs behind hready
        (by omega)
      have hremaining : (ofItems items seqBound stop behind).remaining =
          (items.map List.length).sum := remaining_items
      rw [← hremaining] at hagree
      rcases hagree with ⟨e, m, herr, hfrom⟩ | ⟨hnone, hnone', hall⟩ |
        ⟨kv, items', runs', hres, hres', htells', hlt, hexcused, hblamed⟩
      · obtain ⟨all, hyields, _⟩ := collect_over seqBound stop _ runs behind hready
          (Nat.lt_succ_self _)
        have hdrain : drain (turns + 1) (ofItems items seqBound stop behind) = ([], some e) := by
          simp only [drain, herr]
        rw [hdrain]
        refine ⟨all, hyields, List.nil_prefix, nofun, fun e' he => ?_⟩
        cases he
        exact hfrom
      · have hdrain : drain (turns + 1) (ofItems items seqBound stop behind) = ([], none) := by
          simp only [drain, hnone]
        rcases hturn with ⟨_, hno⟩ | ⟨k, v, runs', hsome, _⟩
        · rw [hdrain]
          exact ⟨[], Yields.nil hno, List.prefix_refl _, fun _ => ⟨rfl, hall⟩, nofun⟩
        · rw [hnone'] at hsome
          cases hsome
      · rcases hturn with ⟨hnone, _⟩ | ⟨k, v, runs'', hsome, hready', _, hkv, hleast, hiff⟩
        · rw [hres'] at hnone
          cases hnone
        · rw [hres'] at hsome
          obtain ⟨hkv', hm⟩ := Prod.mk.inj (Option.some.inj hsome)
          cases hkv'
          cases ofRuns_inj hm
          obtain ⟨all, hyields, hpre, hend, hfails⟩ :=
            ih items' runs' (some k) htells' hready' (by omega)
          have hdrain : drain (turns + 1) (ofItems items seqBound stop behind) =
              ((k, v) :: (drain turns (ofItems items' seqBound stop (some k))).1,
                (drain turns (ofItems items' seqBound stop (some k))).2) := by
            simp only [drain, hres]
          rw [hdrain]
          refine ⟨(k, v) :: all, Yields.cons hready hkv hleast hiff hyields,
            List.cons_prefix_cons.mpr ⟨rfl, hpre⟩, fun h => ?_, fun e he => hblamed e (hfails e he)⟩
          obtain ⟨heq, hall⟩ := hend h
          exact ⟨congrArg _ heq, hexcused hall⟩

end Items

end Merge

theorem tells_sourceItems {s : List Record × Option Error} {l : List Record}
    (h : if s.2 = none then l = s.1 else s.1 <+: l) : Merge.Tells (sourceItems s.1 s.2) l := by
  unfold sourceItems
  cases hs : s.2 with
  | none =>
      rw [if_pos hs] at h
      exact Or.inl (by simp [h])
  | some e =>
      rw [if_neg (by simp [hs])] at h
      obtain ⟨rest, rfl⟩ := h
      exact Or.inr ⟨s.1, e, rest, rfl, rfl⟩

theorem blamed_sourceItems {s : List Record × Option Error} {stop : Option Bytes} {e : Error}
    (h : Merge.Blamed stop e (sourceItems s.1 s.2)) :
    s.2 = some e ∧ ∀ r ∈ s.1, Before stop r.key := by
  obtain ⟨front, heq, hfront⟩ := h
  unfold sourceItems at heq
  cases hs : s.2 with
  | none =>
      rw [hs] at heq
      have hmem : (.error e : Item) ∈ front.map .ok ++ [.error e] := by simp
      rw [← heq] at hmem
      simp at hmem
  | some e' =>
      rw [hs] at heq
      obtain ⟨hrecords, hlast⟩ := List.append_inj' heq rfl
      have hok : Function.Injective (Except.ok : Record → Item) := fun _ _ h => Except.ok.inj h
      rw [List.map_injective_iff.mpr hok hrecords]
      simp only [Option.toList, List.map_cons, List.map_nil, List.cons.injEq,
        Except.error.injEq, and_true] at hlast
      exact ⟨by rw [hlast], hfront⟩

/-- Sources that are sorted and may fail.  What the merge yields before its first error is a
beginning of the reference result over every sorted continuation of the sources that
fail.  If no error comes it is the reference result over the records in front of the
errors, each of which stands behind a record at or past the end.  An error that comes is one
that stands behind none. -/
theorem merge_exact (sources : List (List Record × Option Error)) (seqBound : Nat)
    (stop : Option Bytes)
    (hsorted : ∀ s ∈ sources, SortedRun s.1)
    (hone : recordVersions.OnePerSeq (pool (sources.map Prod.fst))) :
    let out := (Merge.new (sources.map fun s => sourceItems s.1 s.2) seqBound stop).pull
    (∀ runs, List.Forall₂ (fun s l => if s.2 = none then l = s.1 else s.1 <+: l) sources runs →
      (∀ l ∈ runs, SortedRun l) → recordVersions.OnePerSeq (pool runs) →
      ∃ all, Reference runs seqBound stop all ∧ out.1 <+: all) ∧
    (out.2 = none →
      Reference (sources.map Prod.fst) seqBound stop out.1 ∧
        ∀ s ∈ sources, s.2 ≠ none → ∃ r ∈ s.1, ∃ k, stop = some k ∧ k ≤ r.key) ∧
    ∀ e, out.2 = some e → ∃ s ∈ sources, s.2 = some e ∧ ∀ r ∈ s.1, Before stop r.key := by
  intro out
  have hpull : ∀ runs, List.Forall₂ (fun s l => if s.2 = none then l = s.1 else s.1 <+: l) sources
        runs → (∀ l ∈ runs, SortedRun l) → recordVersions.OnePerSeq (pool runs) →
      ∃ all, Reference runs seqBound stop all ∧ out.1 <+: all ∧ (out.2 = none →
        out.1 = all ∧ ∀ s ∈ sources, Merge.Excused stop (sourceItems s.1 s.2)) ∧
        ∀ e, out.2 = some e → ∃ s ∈ sources, Merge.Blamed stop e (sourceItems s.1 s.2) := by
    intro runs hruns hsorted hone
    have htells : List.Forall₂ Merge.Tells (sources.map fun s => sourceItems s.1 s.2) runs :=
      List.forall₂_map_left_iff.mpr (hruns.imp fun s l h => tells_sourceItems h)
    obtain ⟨all, ⟨hinc, hmem⟩, hpre, hend, hfails⟩ := Merge.drain_tells seqBound stop
      (((sources.map fun s => sourceItems s.1 s.2).map List.length).sum + 1) _ runs none htells
      ⟨hsorted, hone, fun d hd => by cases hd⟩ (Nat.lt_succ_self _)
    have hremaining : (Merge.new (sources.map fun s => sourceItems s.1 s.2) seqBound
        stop).remaining = ((sources.map fun s => sourceItems s.1 s.2).map List.length).sum :=
      Merge.remaining_items
    have hout : out = Merge.drain _ (Merge.ofItems (sources.map fun s => sourceItems s.1 s.2)
        seqBound stop none) := rfl
    rw [hremaining] at hout
    rw [← hout] at hpre hend hfails
    refine ⟨all, ⟨hinc, fun k v => (hmem k v).trans ?_⟩, hpre, fun h => ?_, fun e he => ?_⟩
    · simp [Pending]
    · obtain ⟨heq, hall⟩ := hend h
      exact ⟨heq, fun s hs => hall _ (List.mem_map.mpr ⟨s, hs, rfl⟩)⟩
    · obtain ⟨_, hmem, hfrom⟩ := hfails e he
      obtain ⟨s, hs, rfl⟩ := List.mem_map.mp hmem
      exact ⟨s, hs, hfrom⟩
  have hself : List.Forall₂ (fun s l => if s.2 = none then l = s.1 else s.1 <+: l) sources
      (sources.map Prod.fst) :=
    List.forall₂_map_right_iff.mpr (List.forall₂_same.mpr fun s _ => by split_ifs <;> simp)
  obtain ⟨all, href, _, hend, hfails⟩ := hpull _ hself
    (fun l hl => by
      obtain ⟨s, hs, rfl⟩ := List.mem_map.mp hl
      exact hsorted s hs) hone
  refine ⟨fun runs hruns hsorted hone => ?_, fun hnone => ?_, fun e he => ?_⟩
  · obtain ⟨all, href, hpre, _⟩ := hpull runs hruns hsorted hone
    exact ⟨all, href, hpre⟩
  · obtain ⟨heq, hall⟩ := hend hnone
    refine ⟨heq ▸ href, fun s hs hfails => ?_⟩
    obtain ⟨e, he⟩ := Option.ne_none_iff_exists'.mp hfails
    obtain ⟨r, hr, hpast⟩ := hall s hs ⟨e, by simp [sourceItems, he]⟩
    exact ⟨r, by simpa [sourceItems, he] using hr, hpast⟩
  · obtain ⟨s, hs, hfrom⟩ := hfails e he
    exact ⟨s, hs, blamed_sourceItems hfrom⟩

/-- A source that fails past the end of the range, beside one that does not fail. -/
theorem merge_exact_unread :
    (Merge.new [sourceItems [Record.put [1] [2] 0, Record.put [5] [6] 1]
        (some (.corrupt "block")),
      sourceItems [Record.tombstone [1] 3, Record.put [2] [4] 2] none] 9 (some [5])).pull =
        ([([2], [4])], none) ∧
      Reference [[Record.put [1] [2] 0, Record.put [5] [6] 1],
        [Record.tombstone [1] 3, Record.put [2] [4] 2]] 9 (some [5]) [([2], [4])] := by
  have hsorted : ∀ s ∈ [([Record.put [1] [2] 0, Record.put [5] [6] 1],
      some (Error.corrupt "block")), ([Record.tombstone [1] 3, Record.put [2] [4] 2], none)],
      SortedRun s.1 := by
    unfold SortedRun
    decide
  have hone : ∀ l ∈ [[Record.put [1] [2] 0, Record.put [5] [6] 1],
        [Record.tombstone [1] 3, Record.put [2] [4] 2]],
      ∀ l' ∈ [[Record.put [1] [2] 0, Record.put [5] [6] 1],
        [Record.tombstone [1] 3, Record.put [2] [4] 2]],
      ∀ r ∈ l, ∀ r' ∈ l', r.key = r'.key → r.seq = r'.seq → r = r' := by
    decide
  have hpull : (Merge.new [sourceItems [Record.put [1] [2] 0, Record.put [5] [6] 1]
        (some (.corrupt "block")),
      sourceItems [Record.tombstone [1] 3, Record.put [2] [4] 2] none] 9 (some [5])).pull =
        ([([2], [4])], none) := by
    rfl
  refine ⟨hpull, ?_⟩
  have hexact := (merge_exact _ 9 (some [5]) hsorted (by
    rintro r ⟨l, hl, hr⟩ r' ⟨l', hl', hr'⟩
    exact hone l hl l' hl' r hr r' hr')).2.1 (congrArg Prod.snd hpull)
  exact hexact.1

end LsmKv
