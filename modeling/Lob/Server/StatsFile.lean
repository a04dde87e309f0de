/-
  Lob.Server.StatsFile — the snapshot as a file, and the pages that poll it (`write_json_file`
  in `telemetry.cpp`, from `run_telemetry` in `engine_server.cpp`).

  Each system call of the telemetry thread is a move, the text reaches the disk in pieces,
  and a poll opens the file by its name and reads it in pieces, with anything in between. A
  call that fails does what the source does then: without the temporary file it gives up;
  when a write fails the rest of the text is lost and what there is takes the path's name all
  the same, the source not looking at the stream; after a failed rename the temporary file
  stays. Any files may be there at the start, an earlier run's among them. The files are as
  POSIX has them. `docs` is the history of the documents, `short` are those of them whose
  write failed, by their numbers, and `polls` is the history of the polls that found a file.
-/

import Lob.Base.Files
import Lob.Telemetry.Json

namespace Lob

open Base

/-- `path` and `path + ".tmp"`. -/
inductive StatsName where
  | path
  | tmp
  deriving DecidableEq, Repr

/-- How far `write_json_file` is. -/
inductive Writing where
  | idle
  | opening (text : List Char)
  | writing (file : Nat) (rest : List Char)
  | removing
  | renaming
  deriving DecidableEq, Repr

structure Poll where
  file : Nat
  got : List Char := []
  ended : Bool := false
  deriving DecidableEq, Repr

/-- Reads up to `n` of what is left of the file. -/
def Poll.read (p : Poll) (data : List Char) (n : Nat) : Poll :=
  if p.got.length < data.length then { p with got := p.got ++ (data.drop p.got.length).take n }
  else { p with ended := true }

structure StatsServer (B D : Type) where
  monitor : Monitor B
  files : Files StatsName Char := {}
  writing : Writing := .idle
  docs : List (DashboardDocument D) := []
  short : List Nat := []
  polls : List Poll := []

namespace StatsServer

variable {B D : Type} [Book B] (fmt : D → List Char) (s : StatsServer B D)

/-- `json << '\n'`. -/
def text (d : DashboardDocument D) : List Char := d.toJson fmt ++ ['\n']

inductive Move (D : Type) where
  | server (mv : Monitor.Move)
  | copy (doc : DashboardDocument D)
  | create (ok : Bool)
  | write (n : Nat)
  | fail
  | remove (ok : Bool)
  | rename (ok : Bool)
  | poll
  | read (k n : Nat)

/-- The copy under the lock, with the fields the telemetry thread sets, and `to_json`. -/
def copy (doc : DashboardDocument D) : Option (StatsServer B D) :=
  if s.writing = .idle ∧ doc.toDashboardSnapshot = s.monitor.snap ∧ doc.host = "" then
    (s.monitor.step .telemetry).map fun m =>
      { s with monitor := m, writing := .opening (text fmt doc), docs := s.docs ++ [doc] }
  else none

def create (ok : Bool) : Option (StatsServer B D) :=
  match s.writing with
  | .opening text =>
    if ok then
      let (i, files) := s.files.truncate .tmp
      some { s with files := files, writing := .writing i text }
    else some { s with writing := .idle }
  | _ => none

/-- What is buffered reaches the file; the last of it when the file is closed. -/
def write (n : Nat) : Option (StatsServer B D) :=
  match s.writing with
  | .writing i rest =>
    let left := rest.drop n
    some
      { s with
        files := s.files.append i (rest.take n)
        writing := if left.isEmpty then .removing else .writing i left }
  | _ => none

/-- The stream goes bad: it takes no more of the text, and is closed. -/
def fail : Option (StatsServer B D) :=
  match s.writing with
  | .writing _ _ => some { s with writing := .removing, short := s.short ++ [s.docs.length - 1] }
  | _ => none

def remove (ok : Bool) : Option (StatsServer B D) :=
  match s.writing with
  | .removing => some { s with files := if ok then s.files.remove .path else s.files, writing := .renaming }
  | _ => none

def rename (ok : Bool) : Option (StatsServer B D) :=
  match s.writing with
  | .renaming => some { s with files := if ok then s.files.rename .tmp .path else s.files, writing := .idle }
  | _ => none

/-- A page asks for the file. -/
def poll : StatsServer B D :=
  match s.files.dir .path with
  | some i => { s with polls := s.polls ++ [{ file := i }] }
  | none => s

def read (k n : Nat) : StatsServer B D := { s with polls := s.polls.modify k fun p => p.read (s.files.data p.file) n }

def step : Move D → Option (StatsServer B D)
  | .server mv => if mv = .telemetry then none else (s.monitor.step mv).map fun m => { s with monitor := m }
  | .copy doc => s.copy fmt doc
  | .create ok => s.create ok
  | .write n => s.write n
  | .fail => s.fail
  | .remove ok => s.remove ok
  | .rename ok => s.rename ok
  | .poll => some s.poll
  | .read k n => some (s.read k n)

/-- After a history of moves, newest first. -/
def after : List (Move D) → Option (StatsServer B D)
  | [] => some s
  | mv :: h => (after h).bind fun s => s.step fmt mv

end StatsServer

end Lob
