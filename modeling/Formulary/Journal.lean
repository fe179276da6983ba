import Formulary.LogPath
import Formulary.Reading.Form
import Formulary.Text.Lines

/-!
# The journal

Readers note what they do in a journal. Two settings decide whether a note is
recorded: how much the journal is asked to say, and the threshold of the channel
that its records go through, or of the channel above where it has none of its own.
A record that passes reaches every handler on the channel, and those who listen on
the channel above it.

The journal is only opened when it is first needed. Until it is configured it
installs nothing of its own; configuring it replaces every handler.
-/

namespace Formulary

/-- How much a journal says. -/
inductive Verbosity where
  | silent
  | minimal
  | verbose
deriving DecidableEq, Repr

namespace Verbosity

def all : List Verbosity := [.silent, .minimal, .verbose]

def name : Verbosity → String
  | .silent => "SILENT"
  | .minimal => "MINIMAL"
  | .verbose => "VERBOSE"

def ofName? (name : String) : Option Verbosity := all.find? fun v => v.name == name

end Verbosity

/-- The weight of a record, and the least weight that a channel lets pass. -/
structure Severity where
  weight : Int
deriving DecidableEq, Repr

namespace Severity

/-- no threshold of its own -/
def unset : Severity := ⟨0⟩
def debug : Severity := ⟨10⟩
def info : Severity := ⟨20⟩
def warning : Severity := ⟨30⟩
def error : Severity := ⟨40⟩
def critical : Severity := ⟨50⟩

def all : List Severity := [unset, debug, info, warning, error, critical]

def name (s : Severity) : String :=
  match s.weight with
  | 0 => "NOTSET"
  | 10 => "DEBUG"
  | 20 => "INFO"
  | 30 => "WARNING"
  | 40 => "ERROR"
  | 50 => "CRITICAL"
  | other => "Level " ++ toString other

def ofName? (name : String) : Option Severity := all.find? fun s => s.name == name

/-- Whether a channel with this threshold lets debug records pass. -/
def admitsDebug (threshold : Severity) : Bool := threshold.weight ≤ debug.weight

end Severity

/-- Who receives the records of the channel. -/
inductive Handler where
  | console
  | file (file : LogFile)
  /-- added from outside, under a label or as one that nobody else holds; it does nothing that can
  be seen here -/
  | bystander (label? : Option Nat)
deriving DecidableEq, Repr

namespace Handler

def name : Handler → String
  | .console => "StreamHandler"
  | .file _ => "FileHandler"
  | .bystander _ => "NullHandler"

/-- Bystanders together with one more, which comes last unless it is there under its label. -/
def join (handlers : List Handler) (label? : Option Nat) : List Handler :=
  if label?.isSome ∧ .bystander label? ∈ handlers then handlers
  else handlers ++ [.bystander label?]

end Handler

/-- What an open journal was told. -/
structure JournalSettings where
  verbosity : Verbosity := .minimal
  toFile : Bool := false
  path? : Option LogPath := none
deriving DecidableEq, Repr

structure Journal where
  /-- none as long as the journal has not been needed -/
  opened? : Option JournalSettings := none
  threshold : Severity := .unset
  /-- the threshold of the channel above -/
  above : Severity := .warning
  /-- where its files are kept -/
  disk : Disk := {}
  handlers : List Handler := []
  /-- every file opened so far, with its records -/
  files : List (LogFile × List String) := []

/-- What one step sends out: the records to all who listen, and those on the console. -/
structure Emission where
  records : List String := []
  console : List String := []

/-- What a step leads to: what was read, if it reads, what it sends out, and why it could not
be done. -/
structure JournalReply where
  reading? : Option ReadResult := none
  sent : Emission := {}
  fault? : Option PathFault := none

/-- What can happen to a journal. -/
inductive JournalEvent where
  | setVerbosity (v : Verbosity)
  /-- with a path for the file, or none; it is done at a time, which a path can be made from -/
  | configure (v : Verbosity) (toFile : Bool) (path? : Option String) (time : String)
  | setThreshold (s : Severity)
  | addBystander (label? : Option Nat := none)
  | note (message : String)
  | read (form : Form) (text : String) (registry : Registry := Registry.standard)

namespace Journal

def settings (j : Journal) : JournalSettings := j.opened?.getD {}

/-- The text of a record that carries a note. -/
def recordText (message : String) : String := "DEBUG: " ++ message

/-- A record as it is written on the console and in files. -/
def line (clock record : String) : String :=
  clock ++ " - " ++ Severity.debug.name ++ " - " ++ record

/-- The lines of a console or a file that records were written to. -/
def lines (clock : String) (records : List String) : List (List Char) :=
  Text.printed (records.map (line clock))

/-- What is noted of texts that are read takes one line a record. -/
theorem lines_notes {clock : String} (hclock : Text.OnOneLine clock.toList) (r : Registry)
    (form : Form) (text : String) :
    let records := (form.readWith r text).notes.map recordText
    lines clock records = records.map fun record => (line clock record).toList := by
  intro records
  have hlines : ∀ s ∈ records.map (line clock), Text.OnOneLine s.toList := by
    intro s hs
    obtain ⟨record, hrecord, rfl⟩ := List.mem_map.mp hs
    obtain ⟨note, hnote, rfl⟩ := List.mem_map.mp hrecord
    have hnote := Form.onOneLine_of_mem_notes hnote
    simp only [line, recordText, String.toList_append, Text.onOneLine_append]
    exact ⟨⟨⟨⟨hclock, by decide⟩, by decide⟩, by decide⟩, by decide, hnote⟩
  rw [lines, Text.printed_eq hlines, List.map_map]
  rfl

def hasOpened (j : Journal) (file : LogFile) : Bool := (j.files.lookup file).isSome

/-- The records in the file that is found at a path. -/
def recordsAt? (j : Journal) (path : LogPath) : Option (List String) :=
  (j.disk.find? path).bind fun file => j.files.lookup file

/-- A file made to exist, with its records kept if it does already. -/
def openFile (files : List (LogFile × List String)) (file : LogFile) :
    List (LogFile × List String) :=
  if (files.lookup file).isSome then files else files ++ [(file, [])]

def appendRecord (files : List (LogFile × List String)) (file : LogFile) (record : String) :
    List (LogFile × List String) :=
  files.map fun (f, records) => if f = file then (f, records ++ [record]) else (f, records)

/-- The threshold in effect: a channel without one takes that of the channel above. -/
def effective (j : Journal) : Severity := if j.threshold = .unset then j.above else j.threshold

/-- Whether notes are recorded and let through. -/
def isListening (j : Journal) : Bool :=
  j.settings.verbosity == .verbose && j.effective.admitsDebug

/-- A note: its record goes to every handler, or nowhere. -/
def note (j : Journal) (message : String) : Emission × Journal :=
  let j := { j with opened? := some j.settings }
  if j.isListening then
    let record := recordText message
    let console := (j.handlers.filter (· == .console)).map fun _ => record
    let files := j.handlers.foldl (fun files h =>
      match h with
      | .file file => appendRecord files file record
      | _ => files) j.files
    (⟨[record], console⟩, { j with files })
  else ({}, j)

/-- Several notes, one after the other. -/
def noteAll (j : Journal) (messages : List String) : Emission × Journal :=
  messages.foldl (fun (sent, j) message =>
    let (more, j) := j.note message
    (⟨sent.records ++ more.records, sent.console ++ more.console⟩, j)) ({}, j)

/-- A journal set up anew. Its old handlers are gone and its console is there even if the file
cannot be opened; what it was told counts only if it can. -/
def configure (j : Journal) (v : Verbosity) (toFile : Bool) (path? : Option String)
    (time : String) : JournalReply × Journal :=
  let console : List Handler := if v = .silent then [] else [.console]
  let ready := { j with threshold := .debug, handlers := console }
  if toFile then
    let path := LogPath.choose path? time
    match j.disk.target j.hasOpened path with
    | .error fault => ({ fault? := some fault }, ready)
    | .ok file =>
      ({}, { ready with
        opened? := some ⟨v, true, some path⟩
        handlers := console ++ [.file file]
        files := openFile j.files file })
  else ({}, { ready with opened? := some ⟨v, false, path?.map .given⟩ })

/-- One step: what it leads to, and the journal after it. -/
def step (j : Journal) : JournalEvent → JournalReply × Journal
  | .setVerbosity v => ({}, { j with opened? := some { j.settings with verbosity := v } })
  | .configure v toFile path? time => j.configure v toFile path? time
  | .setThreshold s => ({}, { j with threshold := s })
  | .addBystander label? => ({}, { j with handlers := Handler.join j.handlers label? })
  | .note message =>
    let (sent, j) := j.note message
    ({ sent }, j)
  | .read form text registry =>
    let r := form.readWith registry text
    let (sent, j) := j.noteAll r.notes
    ({ reading? := some r, sent }, j)

end Journal
end Formulary
