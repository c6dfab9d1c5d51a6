import LsmKv.Record

/-!
# The scan merge

A k-way walk over sources sorted by key ascending and sequence descending that
keeps, for each key, the first record below the horizon, and leaves out the
keys whose first visible record is a tombstone.
-/

namespace LsmKv

open Foundation

/-- `scan::Item`: one record from one source, or the source's failure. -/
abbrev Item := Except Error Record

/-- `Peeking`: a source with one item held back. -/
structure Peeking where
  iter : List Item
  head : Option Item

namespace Peeking

/-- `Peeking::new`. -/
def new (iter : List Item) : Peeking := ⟨iter.tail, iter.head?⟩

/-- `Peeking::advance`, as the source it leaves. -/
def advance (p : Peeking) : Peeking := ⟨p.iter.tail, p.iter.head?⟩

/-- A source that has been dropped. -/
def drained : Peeking := ⟨[], none⟩

end Peeking

/-- `scan::Merge`. -/
structure Merge where
  sources : List Peeking
  seqBound : Nat
  stop : Option Bytes
  done : Option Bytes

namespace Merge

/-- `Merge::new`. -/
def new (sources : List (List Item)) (seqBound : Nat) (stop : Option Bytes) : Merge :=
  ⟨sources.map Peeking.new, seqBound, stop, none⟩

/-- Whether a record sorts before the best one so far. -/
def better (head current : Record) : Bool :=
  decide (head.key < current.key ∨ (head.key = current.key ∧ current.seq < head.seq))

/-- The loop of `Merge::next_source` from source `i` on; `best` is the index
and the head of the best source so far. -/
def nextSourceLoop : Nat → List Peeking → Option (Nat × Record) → Option (Nat × Item)
  | _, [], best => best.map (fun b => (b.1, .ok b.2))
  | i, p :: ps, best =>
      match p.head with
      | some (.error e) => some (i, .error e)
      | none => nextSourceLoop (i + 1) ps best
      | some (.ok r) =>
          match best with
          | none => nextSourceLoop (i + 1) ps (some (i, r))
          | some (j, current) =>
              if better r current then nextSourceLoop (i + 1) ps (some (i, r))
              else nextSourceLoop (i + 1) ps (some (j, current))

/-- `Merge::next_source`, with the head it points at. -/
def nextSource (m : Merge) : Option (Nat × Item) := nextSourceLoop 0 m.sources none

/-- Replace source `i`. -/
def setSource (m : Merge) (i : Nat) (f : Peeking → Peeking) : Merge :=
  { m with sources := m.sources.modify i f }

/-- Whether a key is at or past the end of the range. -/
def pastEnd (m : Merge) (key : Bytes) : Bool :=
  match m.stop with
  | some e => decide (e ≤ key)
  | none => false

/-- `Merge::next`, run until it returns: the item and the merge it leaves. -/
def next : Nat → Merge → Option (Except Error (Bytes × Bytes) × Merge)
  | 0, _ => none
  | fuel + 1, m =>
      match m.nextSource with
      | none => none
      | some (i, .error e) => some (.error e, m.setSource i Peeking.advance)
      | some (i, .ok record) =>
          if m.pastEnd record.key then next fuel (m.setSource i (fun _ => Peeking.drained))
          else
            let m := m.setSource i Peeking.advance
            if m.done = some record.key then next fuel m
            else if record.seq ≥ m.seqBound then next fuel m
            else
              let m := { m with done := some record.key }
              match record.value with
              | some value => some (.ok (record.key, value), m)
              | none => next fuel m

/-- The items that are left in the sources. -/
def remaining (m : Merge) : Nat :=
  (m.sources.map (fun p => p.iter.length + (if p.head.isSome then 1 else 0))).sum

/-- The loop of `scan_at` that collects at most `limit` results. -/
def collect : Nat → Nat → Merge → Except Error (List (Bytes × Bytes))
  | 0, _, _ => .ok []
  | limit + 1, fuel, m =>
      match next fuel m with
      | none => .ok []
      | some (.error e, _) => .error e
      | some (.ok kv, m) => do
          let rest ← collect limit fuel m
          return kv :: rest

end Merge

end LsmKv
