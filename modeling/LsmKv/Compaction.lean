import LsmKv.SsTable
import Mathlib.Data.List.Sort

/-!
# Compaction

A k-way merge of tables by key and input position, then per key: every version
a snapshot may see and the newest one below the horizon, with the trailing
tombstones peeled off when nothing older is left to shadow.
-/

namespace LsmKv

open Foundation

/-- `MergeItem`. -/
structure MergeItem where
  record : Record
  inputIdx : Nat
  deriving DecidableEq, Repr

/-- `MergeItem::cmp`: key, then input position. -/
def MergeItem.precedes (a b : MergeItem) : Bool :=
  decide (a.record.key < b.record.key ∨
    (a.record.key = b.record.key ∧ a.inputIdx ≤ b.inputIdx))

/-- The least item of a heap and the rest of it; `Reverse` makes the heap pop
the least. -/
def popLeast : List MergeItem → Option (MergeItem × List MergeItem)
  | [] => none
  | a :: heap =>
      match popLeast heap with
      | none => some (a, [])
      | some (b, rest) => if a.precedes b then some (a, b :: rest) else some (b, a :: rest)

/-- The merge loop: what is left of each input, and the heap of heads. -/
def mergeLoop : Nat → List (List Record) → List MergeItem → List Record
  | 0, _, _ => []
  | fuel + 1, iters, heap =>
      match popLeast heap with
      | none => []
      | some (item, heap) =>
          match (iters[item.inputIdx]?).getD [] with
          | [] => item.record :: mergeLoop fuel iters heap
          | next :: rest =>
              item.record ::
                mergeLoop fuel (iters.set item.inputIdx rest) (⟨next, item.inputIdx⟩ :: heap)

/-- The heads of the inputs, each with its position. -/
def firstHeads : Nat → List (List Record) → List MergeItem
  | _, [] => []
  | idx, [] :: rest => firstHeads (idx + 1) rest
  | idx, (r :: _) :: rest => ⟨r, idx⟩ :: firstHeads (idx + 1) rest

/-- The key-ascending stream of all records of the inputs. -/
def mergeStream (inputs : List (List Record)) : List Record :=
  mergeLoop (inputs.flatten.length + 1) (inputs.map List.tail) (firstHeads 0 inputs)

/-- Newest first; equal sequence numbers keep their order. -/
def sortNewestFirst (group : List Record) : List Record :=
  group.insertionSort (fun a b => b.seq ≤ a.seq)

/-- The versions of one key that are kept: all at or above the horizon, and the
newest one below it. -/
def keepVersions (minSnapshotSeq : Nat) : Bool → List Record → List Record
  | _, [] => []
  | newestBelowTaken, r :: rs =>
      if r.seq ≥ minSnapshotSeq then r :: keepVersions minSnapshotSeq newestBelowTaken rs
      else if newestBelowTaken = false then r :: keepVersions minSnapshotSeq true rs
      else keepVersions minSnapshotSeq newestBelowTaken rs

/-- Peel trailing tombstones. -/
def peelTombstones (kept : List Record) : List Record :=
  (kept.reverse.dropWhile (fun r => r.value.isNone)).reverse

/-- What one key's versions become. -/
def compactGroup (dropTombstones : Bool) (minSnapshotSeq : Nat) (group : List Record) :
    List Record :=
  let kept := keepVersions minSnapshotSeq false (sortNewestFirst group)
  if dropTombstones then peelTombstones kept else kept

/-- The loop over the groups of equal keys. -/
def compactGroups (dropTombstones : Bool) (minSnapshotSeq : Nat) :
    Nat → List Record → List Record
  | 0, _ => []
  | _ + 1, [] => []
  | fuel + 1, r :: rs =>
      compactGroup dropTombstones minSnapshotSeq (r :: rs.takeWhile (fun x => x.key = r.key)) ++
        compactGroups dropTombstones minSnapshotSeq fuel
          (rs.dropWhile (fun x => x.key = r.key))

/-- The records `compact` writes for the records of its inputs. -/
def compactRecords (inputs : List (List Record)) (dropTombstones : Bool)
    (minSnapshotSeq : Nat) : List Record :=
  let stream := mergeStream inputs
  compactGroups dropTombstones minSnapshotSeq stream.length stream

/-- `compaction::compact`. -/
def compact {σ : Type} (env : Env) (outPath : Path) (inputs : List SsTableReader)
    (dropTombstones : Bool) (minSnapshotSeq : Nat) : M σ Nat := do
  let iters ← M.collect (fun r => r.iterAll env) inputs
  SsTableWriter.write env outPath (compactRecords iters dropTombstones minSnapshotSeq)

end LsmKv
