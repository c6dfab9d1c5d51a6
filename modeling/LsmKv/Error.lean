import LsmKv.Foundation.Bytes

/-!
# Errors and file names

The engine's error type with its texts, and the names of the files it keeps in
a database directory.  A file name is a value of `FileName`, one constructor for
each pattern the source formats or parses; `FileName.text` is the pattern.
-/

namespace LsmKv

/-- The kinds of I/O error the engine tells apart. -/
inductive ErrorKind
  | notFound
  | wouldBlock
  | unexpectedEof
  | other
  deriving DecidableEq, Repr

/-- `ErrorKind`'s own description. -/
def ErrorKind.text : ErrorKind → String
  | .notFound => "entity not found"
  | .wouldBlock => "operation would block"
  | .unexpectedEof => "file ended before the requested bytes"
  | .other => "other error"

/-- `error::Error`, and one more case for a panic of the thread. -/
inductive Error
  | io (kind : ErrorKind)
  | corrupt (msg : String)
  | badFormat (msg : String)
  | locked (dir : String)
  | poisoned (msg : String)
  | panic (msg : String)
  deriving DecidableEq, Repr

/-- The display text of an error. -/
def Error.text : Error → String
  | .io kind => "io error: " ++ kind.text
  | .corrupt msg => "corrupt data: " ++ msg
  | .badFormat msg => "unsupported sstable format: " ++ msg
  | .locked dir => "database directory is already open by another handle: " ++ dir
  | .poisoned msg => "engine poisoned by an earlier failure: " ++ msg
  | .panic msg => msg

/-- The files of a database directory. -/
inductive FileName
  | lock
  | current
  | currentTmp
  | manifest (generation : Nat)
  | wal
  | walTmp
  | sst (id : Nat)
  | sstTmp (id : Nat)
  | other (name : String)
  deriving DecidableEq, Repr

/-- Decimal digits of `n`, padded with zeros to at least `width`. -/
def padded (width n : Nat) : String :=
  let digits := Nat.toDigits 10 n
  String.ofList (List.replicate (width - digits.length) '0' ++ digits)

/-- The name as the source formats it. -/
def FileName.text : FileName → String
  | .lock => "LOCK"
  | .current => "CURRENT"
  | .currentTmp => "CURRENT.tmp"
  | .manifest generation => "MANIFEST-" ++ padded 6 generation
  | .wal => "wal.log"
  | .walTmp => "wal.log.tmp"
  | .sst id => "sst_" ++ padded 10 id ++ ".db"
  | .sstTmp id => "sst_" ++ padded 10 id ++ ".db.tmp"
  | .other name => name

/-- The digits of a `u64` in a name. -/
def parseDigits (digits : List Char) : Option Nat :=
  let digits := if digits.head? = some '+' then digits.tail else digits
  if digits = [] then none
  else if digits.all Char.isDigit then
    let n := digits.foldl (fun acc d => 10 * acc + (d.toNat - 48)) 0
    if n < 2 ^ 64 then some n else none
  else none

/-- `parse_sst_id` on a name that is not in the engine's own form. -/
def parseSstText (name : List Char) : Option Nat :=
  if "sst_".toList.isPrefixOf name then
    let rest := name.drop 4
    if ".db".toList.isSuffixOf rest then parseDigits (rest.take (rest.length - 3)) else none
  else none

/-- `parse_sst_id`. -/
def FileName.parseSstId : FileName → Option Nat
  | .sst id => some id
  | .other name => parseSstText name.toList
  | _ => none

/-- The scratch names an open removes: `*.db.tmp` and `wal.log.tmp`. -/
def FileName.isScratch : FileName → Bool
  | .sstTmp _ => true
  | .walTmp => true
  | .other name => ".db.tmp".toList.isSuffixOf name.toList
  | _ => false

/-- A file of a directory. -/
structure Path where
  dir : String
  name : FileName
  deriving DecidableEq, Repr

/-- `Path::display`. -/
def Path.display (p : Path) : String := p.dir ++ "/" ++ p.name.text

/-- `u64::MAX`. -/
def u64Max : Nat := 2 ^ 64 - 1

end LsmKv
