import Formulary.Journal
import Formulary.Proofs.Journal.Opening
import Mathlib.Data.List.Basic
import Mathlib.Data.List.Induction
import Mathlib.Data.List.Nodup

/-!
# What a journal installs and delivers

A run of a journal, told from its events alone. Its handlers are those of the last
event that configures it and the bystanders that joined since. Whoever installed
them, every handler gets the same records, each as often as it is there, and what
the journal installs is there once (`Journal.Sound`). So a step delivers the notes
that its event leaves, or nothing if the journal is not listening.
-/

namespace Formulary

namespace JournalEvent

def isConfigure : JournalEvent → Bool
  | .configure _ _ _ _ => true
  | _ => false

/-- What a bystander is added under, if one is added. -/
def bystander? : JournalEvent → Option (Option Nat)
  | .addBystander label? => some label?
  | _ => none

/-- The threshold that is set. -/
def threshold? : JournalEvent → Option Severity
  | .setThreshold s => some s
  | .configure _ _ _ _ => some .debug
  | _ => none

/-- The verbosity that is set; one that comes with a file that cannot be opened does not count. -/
def verbosity? (reply : JournalReply) : JournalEvent → Option Verbosity
  | .setVerbosity v => some v
  | .configure v _ _ _ => if reply.fault? = none then some v else none
  | _ => none

/-- How many notes an event leaves: a bracketed text is noted if it is accepted, and of a flat text
that words were set aside and that not just one item is on the stack. -/
def noteCount : JournalEvent → Nat
  | .note _ => 1
  | .read (.bracketed p) text r => if ((Dialect.mk p r).parse text).isOk then 1 else 0
  | .read .flat text r =>
    (if (Flat.parse r text).ignored = [] then 0 else 1) +
      (if (Flat.parse r text).height = 1 then 0 else 1)
  | _ => 0

/-- The notes that an event leaves. -/
def notes : JournalEvent → List String
  | .note message => [message]
  | .read form text r => (form.readWith r text).notes
  | _ => []

theorem length_notes (e : JournalEvent) : e.notes.length = e.noteCount := by
  cases e with
  | setVerbosity v | configure v toFile path? time | setThreshold s | addBystander label? => rfl
  | note message => rfl
  | read form text r =>
      cases form with
      | bracketed p =>
          rw [notes, noteCount, Form.readWith]
          cases (Dialect.mk p r).parse text <;> rfl
      | flat =>
          rw [notes, noteCount, Form.readWith, Form.flatNotes, List.length_append]
          simp only [List.isEmpty_iff, apply_ite List.length, List.length_nil, List.length_singleton]

end JournalEvent

namespace Handler

/-- The handlers that the events add from outside. -/
def bystanders (events : List JournalEvent) : List Handler :=
  (events.filterMap JournalEvent.bystander?).foldl join []

/-- The handlers that a journal installs: its console unless it is silent, and its file. -/
def installed (v : Verbosity) (file? : Option LogFile) : List Handler :=
  (if v = .silent then [] else [console]) ++ file?.toList.map file

/-- Whether a handler is one that a journal installs. -/
def isOwn : Handler → Bool
  | .bystander _ => false
  | _ => true

theorem isOwn_of_mem_installed {v : Verbosity} {file? : Option LogFile} :
    ∀ h ∈ installed v file?, h.isOwn = true := by
  cases v <;> cases file? <;> simp [installed, isOwn]

theorem nodup_installed (v : Verbosity) (file? : Option LogFile) : (installed v file?).Nodup := by
  cases v <;> cases file? <;> simp [installed]

theorem file_mem_installed_iff {v : Verbosity} {file? : Option LogFile} {f : LogFile} :
    .file f ∈ installed v file? ↔ f ∈ file? := by
  cases v <;> simp [installed]

/-- What a journal has installed does not matter to those who join. -/
theorem join_append {own : List Handler} (hown : ∀ h ∈ own, h.isOwn = true)
    (handlers : List Handler) (label? : Option Nat) :
    join (own ++ handlers) label? = own ++ join handlers label? := by
  have hnot : .bystander label? ∉ own := by
    intro hmem
    cases hown _ hmem
  simp only [join, List.mem_append, hnot, false_or]
  split
  · rfl
  · rw [List.append_assoc]

theorem foldl_join_append {own : List Handler} (hown : ∀ h ∈ own, h.isOwn = true)
    (labels : List (Option Nat)) (handlers : List Handler) :
    labels.foldl join (own ++ handlers) = own ++ labels.foldl join handlers := by
  induction labels generalizing handlers with
  | nil => rfl
  | cons label? labels ih => rw [List.foldl_cons, join_append hown, ih, List.foldl_cons]

theorem filter_isOwn_join (handlers : List Handler) (label? : Option Nat) :
    (join handlers label?).filter isOwn = handlers.filter isOwn := by
  rw [join]
  split
  · rfl
  · rw [List.filter_append]
    exact List.append_nil _

end Handler

namespace Journal

/-- The journal after some events; nothing has happened to it before. -/
def after (disk : Disk) (above : Severity) (events : List JournalEvent) : Journal :=
  events.foldl (fun j e => (j.step e).2) { disk, above }

theorem after_concat (disk : Disk) (above : Severity) (events : List JournalEvent)
    (e : JournalEvent) :
    after disk above (events ++ [e]) = ((after disk above events).step e).2 :=
  List.foldl_concat ..

/-! ## Notes -/

/-- What is outside a journal stays as it was: the disk, and the threshold of the channel above. -/
structure SameOutside (j j' : Journal) : Prop where
  disk : j'.disk = j.disk
  above : j'.above = j.above

theorem SameOutside.trans {j j' j'' : Journal} (h : SameOutside j j') (h' : SameOutside j' j'') :
    SameOutside j j'' :=
  ⟨h'.disk.trans h.disk, h'.above.trans h.above⟩

/-- A journal with the same settings, thresholds and handlers. -/
structure SameSetup (j j' : Journal) : Prop where
  settings : j'.settings = j.settings
  threshold : j'.threshold = j.threshold
  outside : SameOutside j j'
  handlers : j'.handlers = j.handlers

theorem SameSetup.isListening {j j' : Journal} (h : SameSetup j j') :
    j'.isListening = j.isListening := by
  rw [Journal.isListening, Journal.isListening, effective, effective, h.settings, h.threshold,
    h.outside.above]

theorem SameSetup.trans {j j' j'' : Journal} (h : SameSetup j j') (h' : SameSetup j' j'') :
    SameSetup j j'' :=
  ⟨h'.settings.trans h.settings, h'.threshold.trans h.threshold, h.outside.trans h'.outside,
    h'.handlers.trans h.handlers⟩

theorem isListening_iff (j : Journal) :
    j.isListening = true ↔
      j.settings.verbosity = .verbose ∧ j.effective.weight ≤ Severity.debug.weight := by
  simp [isListening, Severity.admitsDebug]

theorem note_of_listening {j : Journal} (h : j.isListening = true) (message : String) :
    j.note message =
      (⟨[recordText message], (j.handlers.filter (· == .console)).map fun _ => recordText message⟩,
        { j with
          opened? := some j.settings
          files := j.handlers.foldl (fun files h =>
            match h with
            | .file file => appendRecord files file (recordText message)
            | _ => files) j.files }) :=
  if_pos h

theorem note_of_not_listening {j : Journal} (h : j.isListening = false) (message : String) :
    j.note message = ({}, { j with opened? := some j.settings }) :=
  if_neg (Bool.eq_false_iff.mp h)

theorem sameSetup_note (j : Journal) (message : String) : SameSetup j (j.note message).2 := by
  cases h : j.isListening with
  | true =>
      rw [note_of_listening h]
      exact ⟨rfl, rfl, ⟨rfl, rfl⟩, rfl⟩
  | false =>
      rw [note_of_not_listening h]
      exact ⟨rfl, rfl, ⟨rfl, rfl⟩, rfl⟩

theorem lookup_appendRecord (files : List (LogFile × List String)) (file g : LogFile)
    (record : String) :
    (appendRecord files g record).lookup file =
      (files.lookup file).map (· ++ if file = g then [record] else []) := by
  induction files with
  | nil => rfl
  | cons entry files ih =>
      obtain ⟨f, records⟩ := entry
      rw [appendRecord, List.map_cons]
      by_cases hfile : file = f
      · subst hfile
        by_cases hg : file = g <;> simp [hg]
      · have hne : (file == f) = false := beq_eq_false_iff_ne.mpr hfile
        rw [appendRecord] at ih
        by_cases hg : f = g <;> simp only [hg, if_true, if_false, List.lookup_cons] at hne ⊢ <;>
          simp only [hne, ih]

/-- A file gets a record once for every time that it is among the handlers. -/
theorem lookup_foldl_appendRecord (handlers : List Handler) (record : String) (file : LogFile)
    (files : List (LogFile × List String)) :
    (handlers.foldl (fun files h =>
        match h with
        | .file g => appendRecord files g record
        | _ => files) files).lookup file =
      (files.lookup file).map (· ++ List.replicate (handlers.count (.file file)) record) := by
  induction handlers generalizing files with
  | nil => simp
  | cons h handlers ih =>
      rw [List.foldl_cons, ih]
      cases h with
      | console | bystander label? => simp
      | file g =>
          rw [lookup_appendRecord, Option.map_map]
          by_cases hg : file = g
          · subst hg
            simp [Function.comp_def, List.replicate_succ]
          · simp [Function.comp_def, hg, Ne.symm hg]

/-- What the journal installed is among its handlers once, and its files are there. -/
structure Sound (j : Journal) : Prop where
  single : (j.handlers.filter Handler.isOwn).Nodup
  opened : ∀ file, .file file ∈ j.handlers → ∃ records, j.files.lookup file = some records

/-- What a handler gets of the records that are sent. -/
def received (j : Journal) (h : Handler) (records : List String) : List String :=
  if h ∈ j.handlers then records else []

theorem received_nil (j : Journal) (h : Handler) : j.received h [] = [] := by
  rw [received, ite_self]

theorem received_append (j : Journal) (h : Handler) (xs ys : List String) :
    j.received h (xs ++ ys) = j.received h xs ++ j.received h ys := by
  simp only [received]
  split <;> rfl

theorem SameSetup.received {j j' : Journal} (hsetup : SameSetup j j') (h : Handler)
    (records : List String) : j'.received h records = j.received h records := by
  rw [Journal.received, Journal.received, hsetup.handlers]

theorem Sound.replicate_eq {j : Journal} (hj : j.Sound) {h : Handler} (hown : h.isOwn = true)
    (record : String) :
    List.replicate (j.handlers.count h) record = j.received h [record] := by
  have hmem : h ∈ j.handlers.filter Handler.isOwn ↔ h ∈ j.handlers := by
    simp [List.mem_filter, hown]
  rw [← List.count_filter hown, List.Nodup.count hj.single, received]
  simp only [hmem]
  split <;> rfl

/-- What a step sends, and where it goes: to all who listen, and among these to the console and to
the files. -/
structure Delivers (j : Journal) (sending : List String) (sent : Emission) (j' : Journal) :
    Prop where
  records : sent.records = sending
  console : sent.console = j.received .console sending
  files : ∀ file before, j.files.lookup file = some before →
    j'.files.lookup file = some (before ++ j.received (.file file) sending)

theorem delivers_nothing {j j' : Journal}
    (h : ∀ file records, j.files.lookup file = some records →
      j'.files.lookup file = some records) : Delivers j [] {} j' where
  records := rfl
  console := (received_nil j _).symm
  files file before hbefore := by rw [h file before hbefore, received_nil, List.append_nil]

theorem Sound.note_delivers {j : Journal} (hj : j.Sound) (message : String) :
    Delivers j (if j.isListening then [recordText message] else []) (j.note message).1
      (j.note message).2 := by
  cases h : j.isListening with
  | true =>
      rw [note_of_listening h, if_pos rfl]
      refine ⟨rfl, ?_, ?_⟩
      · rw [List.filter_beq, List.map_replicate]
        exact hj.replicate_eq rfl _
      · intro file before hbefore
        rw [lookup_foldl_appendRecord, hbefore, hj.replicate_eq rfl]
        rfl
  | false =>
      rw [note_of_not_listening h]
      exact delivers_nothing fun _ _ hrecords => hrecords

/-- What is sent to a sound journal leaves it sound. -/
theorem Sound.of_delivers {j j' : Journal} {sending : List String} {sent : Emission} (hj : j.Sound)
    (hsetup : SameSetup j j') (h : Delivers j sending sent j') : j'.Sound where
  single := by rw [hsetup.handlers]; exact hj.single
  opened file hfile := by
    rw [hsetup.handlers] at hfile
    obtain ⟨before, hbefore⟩ := hj.opened file hfile
    exact ⟨_, h.files file before hbefore⟩

theorem noteAll_concat (j : Journal) (messages : List String) (message : String) :
    j.noteAll (messages ++ [message]) =
      (⟨(j.noteAll messages).1.records ++ ((j.noteAll messages).2.note message).1.records,
          (j.noteAll messages).1.console ++ ((j.noteAll messages).2.note message).1.console⟩,
        ((j.noteAll messages).2.note message).2) :=
  List.foldl_concat ..

theorem sameSetup_noteAll (j : Journal) (messages : List String) :
    SameSetup j (j.noteAll messages).2 := by
  induction messages using List.reverseRecOn with
  | nil => exact ⟨rfl, rfl, ⟨rfl, rfl⟩, rfl⟩
  | append_singleton messages message ih =>
      rw [noteAll_concat]
      exact ih.trans (sameSetup_note _ message)

/-- Several notes are delivered one after the other. -/
theorem Sound.noteAll_delivers {j : Journal} (hj : j.Sound) (messages : List String) :
    Delivers j (if j.isListening then messages.map recordText else []) (j.noteAll messages).1
      (j.noteAll messages).2 := by
  induction messages using List.reverseRecOn with
  | nil =>
      rw [List.map_nil, ite_self]
      exact delivers_nothing fun _ _ hrecords => hrecords
  | append_singleton messages message ih =>
      have hsetup := sameSetup_noteAll j messages
      have hlast := (hj.of_delivers hsetup ih).note_delivers message
      rw [hsetup.isListening] at hlast
      have hall : (if j.isListening then (messages ++ [message]).map recordText else []) =
          (if j.isListening then messages.map recordText else []) ++
            if j.isListening then [recordText message] else [] := by
        cases j.isListening with
        | true => exact List.map_append
        | false => rfl
      rw [noteAll_concat, hall]
      refine ⟨?_, ?_, ?_⟩
      · rw [ih.records, hlast.records]
      · rw [ih.console, hlast.console, hsetup.received, received_append]
      · intro file before hbefore
        rw [hlast.files file _ (ih.files file before hbefore), hsetup.received, received_append,
          List.append_assoc]

/-! ## Steps -/

theorem lookup_openFile {files : List (LogFile × List String)} {file : LogFile}
    {records : List String} (h : files.lookup file = some records) (opened : LogFile) :
    (openFile files opened).lookup file = some records := by
  rw [openFile]
  split
  · exact h
  · rw [List.lookup_append, h, Option.some_or]

theorem exists_lookup_openFile (files : List (LogFile × List String)) (file : LogFile) :
    ∃ records, (openFile files file).lookup file = some records := by
  rw [openFile]
  split
  · next h => exact Option.isSome_iff_exists.mp h
  · next h =>
      rw [Option.not_isSome_iff_eq_none] at h
      exact ⟨[], by simp [List.lookup_append, h]⟩

/-- How a journal is configured: it installs what it is told to, but for a file that cannot be
opened, and nothing that is in a file is lost. -/
structure Configures (j : Journal) (v : Verbosity) (toFile : Bool) (path : LogPath)
    (file? : Option LogFile) (reply : JournalReply) (j' : Journal) : Prop where
  handlers : j'.handlers = Handler.installed v file?
  file : ∀ file, file? = some file ↔
    toFile = true ∧ file.place = j.disk.place path ∧ j.disk.Opens file
  fault : reply.fault? = none ↔ file?.isSome = toFile
  sent : reply.sent = {}
  files : ∀ file records, j.files.lookup file = some records → j'.files.lookup file = some records
  opened : ∀ file ∈ file?, ∃ records, j'.files.lookup file = some records
  threshold : j'.threshold = .debug
  outside : SameOutside j j'
  verbosity : j'.settings.verbosity = if reply.fault? = none then v else j.settings.verbosity

theorem exists_configures (j : Journal) (v : Verbosity) (toFile : Bool) (path? : Option String)
    (time : String) :
    ∃ file?, Configures j v toFile (.choose path? time) file? (j.configure v toFile path? time).1
      (j.configure v toFile path? time).2 := by
  cases toFile with
  | false =>
      refine ⟨none, ?_⟩
      constructor <;> simp [configure, Handler.installed, settings, SameOutside.mk]
  | true =>
      have htarget : ∀ file, j.disk.target j.hasOpened (.choose path? time) = .ok file ↔ _ :=
        fun file => Disk.target_eq_ok_iff
      cases hresult : j.disk.target j.hasOpened (.choose path? time) with
      | error fault =>
          have hnone : ∀ file : LogFile, ¬ (file.place = j.disk.place (.choose path? time) ∧
              j.disk.Opens file) := by
            intro file h
            rw [(htarget file).mpr h] at hresult
            cases hresult
          refine ⟨none, ?_⟩
          constructor <;>
            simp [configure, Handler.installed, settings, SameOutside.mk, hresult, hnone]
      | ok file =>
          simp only [configure, if_true, hresult]
          exact ⟨some file, {
            handlers := rfl
            file := fun f => by
              rw [← htarget f, hresult, Except.ok.injEq, Option.some_inj]
              exact (and_iff_right rfl).symm
            fault := iff_of_true rfl rfl
            sent := rfl
            files := fun f records hrecords => lookup_openFile hrecords file
            opened := fun f hf => Option.some.inj hf ▸ exists_lookup_openFile j.files file
            threshold := rfl
            outside := ⟨rfl, rfl⟩
            verbosity := rfl }⟩

/-- Only an event that configures the journal does more to its handlers than to add a bystander. -/
theorem handlers_step (j : Journal) {e : JournalEvent} (he : e.isConfigure = false) :
    (j.step e).2.handlers = e.bystander?.toList.foldl Handler.join j.handlers := by
  cases e with
  | configure v toFile path? time => cases he
  | setVerbosity v | setThreshold s | addBystander label? => rfl
  | note message => exact (sameSetup_note j message).handlers
  | read form text r => exact (sameSetup_noteAll j _).handlers

theorem threshold_step (j : Journal) (e : JournalEvent) :
    (j.step e).2.threshold = e.threshold?.getD j.threshold := by
  cases e with
  | configure v toFile path? time =>
      exact (exists_configures j v toFile path? time).choose_spec.threshold
  | setVerbosity v | setThreshold s | addBystander label? => rfl
  | note message => exact (sameSetup_note j message).threshold
  | read form text r => exact (sameSetup_noteAll j _).threshold

theorem sameOutside_step (j : Journal) (e : JournalEvent) : SameOutside j (j.step e).2 := by
  cases e with
  | configure v toFile path? time =>
      exact (exists_configures j v toFile path? time).choose_spec.outside
  | setVerbosity v | setThreshold s | addBystander label? => exact ⟨rfl, rfl⟩
  | note message => exact (sameSetup_note j message).outside
  | read form text r => exact (sameSetup_noteAll j _).outside

theorem verbosity_step (j : Journal) (e : JournalEvent) :
    (j.step e).2.settings.verbosity =
      (e.verbosity? (j.step e).1).getD j.settings.verbosity := by
  cases e with
  | configure v toFile path? time =>
      obtain ⟨file?, h⟩ := exists_configures j v toFile path? time
      rw [step, JournalEvent.verbosity?, h.verbosity]
      split <;> rfl
  | setVerbosity v | setThreshold s | addBystander label? => rfl
  | note message => exact congrArg JournalSettings.verbosity (sameSetup_note j message).settings
  | read form text r => exact congrArg JournalSettings.verbosity (sameSetup_noteAll j _).settings

/-- **Step.** The notes that an event leaves are delivered while the journal is listening, and
nothing else is. -/
theorem Sound.step_delivers {j : Journal} (hj : j.Sound) (e : JournalEvent) :
    Delivers j (if j.isListening then e.notes.map recordText else []) (j.step e).1.sent
      (j.step e).2 := by
  cases e with
  | configure v toFile path? time =>
      obtain ⟨file?, h⟩ := exists_configures j v toFile path? time
      change Delivers j (if j.isListening then [] else []) (j.configure v toFile path? time).1.sent _
      rw [h.sent, ite_self]
      exact delivers_nothing h.files
  | setVerbosity v | setThreshold s | addBystander label? =>
      change Delivers j (if j.isListening then [] else []) {} _
      rw [ite_self]
      exact delivers_nothing fun _ _ hrecords => hrecords
  | note message => exact hj.note_delivers message
  | read form text r => exact hj.noteAll_delivers _

theorem Sound.step {j : Journal} (hj : j.Sound) (e : JournalEvent) : (j.step e).2.Sound := by
  have hdelivers := hj.step_delivers e
  cases e with
  | configure v toFile path? time =>
      obtain ⟨file?, h⟩ := exists_configures j v toFile path? time
      refine ⟨?_, ?_⟩
      · rw [Journal.step, h.handlers]
        exact (Handler.nodup_installed v file?).filter _
      · intro file hfile
        rw [Journal.step, h.handlers] at hfile
        exact h.opened file (Handler.file_mem_installed_iff.mp hfile)
  | setVerbosity v | setThreshold s => exact ⟨hj.single, hj.opened⟩
  | addBystander label? =>
      refine ⟨?_, ?_⟩
      · rw [Journal.step, Handler.filter_isOwn_join]
        exact hj.single
      · intro file hfile
        refine hj.opened file ?_
        rw [Journal.step, Handler.join] at hfile
        split at hfile
        · exact hfile
        · simpa using hfile
  | note message => exact hj.of_delivers (sameSetup_note j message) hdelivers
  | read form text r => exact hj.of_delivers (sameSetup_noteAll j _) hdelivers

/-! ## Runs -/

theorem sound_after (disk : Disk) (above : Severity) (events : List JournalEvent) :
    (after disk above events).Sound := by
  induction events using List.reverseRecOn with
  | nil => exact ⟨List.nodup_nil, fun file hfile => absurd hfile List.not_mem_nil⟩
  | append_singleton events e ih =>
      rw [after_concat]
      exact ih.step e

theorem sameOutside_after (disk : Disk) (above : Severity) (events : List JournalEvent) :
    SameOutside { disk, above } (after disk above events) := by
  induction events using List.reverseRecOn with
  | nil => exact ⟨rfl, rfl⟩
  | append_singleton events e ih =>
      rw [after_concat]
      exact ih.trans (sameOutside_step _ e)

/-- The threshold is the one that was set last, be it from outside or by configuring the journal. -/
theorem threshold_after (disk : Disk) (above : Severity) (events : List JournalEvent) :
    (after disk above events).threshold =
      (events.reverse.findSome? JournalEvent.threshold?).getD .unset := by
  induction events using List.reverseRecOn with
  | nil => rfl
  | append_singleton events e ih =>
      rw [after_concat, threshold_step, ih, List.reverse_append, List.reverse_singleton,
        List.singleton_append, List.findSome?_cons]
      cases e.threshold? <;> rfl

/-- While the journal is not configured, bystanders join its handlers and that is all. -/
theorem handlers_foldl_step (j : Journal) {events : List JournalEvent}
    (h : ∀ e ∈ events, e.isConfigure = false) :
    (events.foldl (fun j e => (j.step e).2) j).handlers =
      (events.filterMap JournalEvent.bystander?).foldl Handler.join j.handlers := by
  induction events using List.reverseRecOn with
  | nil => rfl
  | append_singleton events e ih =>
      obtain ⟨hevents, he⟩ := List.forall_mem_append.mp h
      rw [List.foldl_concat, handlers_step _ (he e List.mem_cons_self), ih hevents,
        List.filterMap_append, List.foldl_append]
      cases he : e.bystander? <;> simp [he]

/-- **Handlers and records.** A journal that was never configured has the bystanders that joined and
the threshold that was set from outside. One that was configured has what was installed then, its
console unless it was to be silent and its file if it was to keep one, and behind that the
bystanders that joined since. The file is the one where the path leads; only if that cannot be opened
there is none, and configuring the journal fails. A step delivers a record for every note that its
event leaves if the journal is verbose and the threshold in effect lets debug records pass, and else
none; a record goes to the console and to the files that are among the handlers. -/
theorem handlers_and_records (disk : Disk) (above : Severity) (events : List JournalEvent) :
    let j := after disk above events
    ((∀ e ∈ events, e.isConfigure = false) → j.handlers = Handler.bystanders events) ∧
    (∀ earlier v toFile path? time later,
      events = earlier ++ .configure v toFile path? time :: later →
      (∀ e ∈ later, e.isConfigure = false) →
      let reply := ((after disk above earlier).step (.configure v toFile path? time)).1
      ∃ file?, j.handlers = Handler.installed v file? ++ Handler.bystanders later ∧
        (∀ file, file? = some file ↔ toFile = true ∧
          file.place = disk.place (.choose path? time) ∧ disk.Opens file) ∧
        (reply.fault? = none ↔ file?.isSome = toFile)) ∧
    j.threshold = (events.reverse.findSome? JournalEvent.threshold?).getD .unset ∧
    j.above = above ∧
    (events = [] → j.settings.verbosity = .minimal) ∧
    ∀ e : JournalEvent,
      let reply := (j.step e).1
      let j' := (j.step e).2
      j'.settings.verbosity = (e.verbosity? reply).getD j.settings.verbosity ∧
      reply.sent.records.length =
        (if j.settings.verbosity = .verbose ∧ j.effective.weight ≤ Severity.debug.weight
          then e.noteCount else 0) ∧
      reply.sent.console = (if .console ∈ j.handlers then reply.sent.records else []) ∧
      (∀ file, .file file ∈ j.handlers → ∃ records, j.files.lookup file = some records) ∧
      ∀ file records, j.files.lookup file = some records →
        j'.files.lookup file =
          some (records ++ if .file file ∈ j.handlers then reply.sent.records else []) := by
  intro j
  have hsound : j.Sound := sound_after disk above events
  refine ⟨handlers_foldl_step _, ?_, threshold_after disk above events,
    (sameOutside_after disk above events).above, ?_, ?_⟩
  · rintro earlier v toFile path? time later rfl hlater
    obtain ⟨file?, h⟩ := exists_configures (after disk above earlier) v toFile path? time
    have hdisk : (after disk above earlier).disk = disk := (sameOutside_after disk above earlier).disk
    refine ⟨file?, ?_, hdisk ▸ h.file, h.fault⟩
    have hj : j = later.foldl (fun j e => (j.step e).2)
        ((after disk above earlier).configure v toFile path? time).2 := List.foldl_append ..
    have hown : ∀ h ∈ Handler.installed v file?, h.isOwn = true := Handler.isOwn_of_mem_installed
    have hjoin := Handler.foldl_join_append hown (later.filterMap JournalEvent.bystander?) []
    rw [List.append_nil] at hjoin
    rw [hj, handlers_foldl_step _ hlater, h.handlers, hjoin, Handler.bystanders]
  · rintro rfl
    rfl
  · intro e reply j'
    have hdelivers := hsound.step_delivers e
    refine ⟨verbosity_step j e, ?_, ?_, hsound.opened, ?_⟩
    · rw [hdelivers.records, ← JournalEvent.length_notes]
      simp only [← isListening_iff, apply_ite List.length, List.length_map, List.length_nil]
    · rw [hdelivers.console, hdelivers.records]
      rfl
    · intro file records hrecords
      rw [hdelivers.files file records hrecords, hdelivers.records]
      rfl

/-- A disk that has one directory besides the working directory. -/
def diskWithTmp : Disk where
  working := ["work"]
  entry? place := if place = ["tmp"] then some .directory else none

/-- A journal that is to keep a file at a path. -/
def keepingFileAt (path : String) : JournalEvent := .configure .verbose true (some path) ""

theorem opens_inTmp : diskWithTmp.Opens ⟨["tmp"], "parse.log"⟩ where
  reached p hp := by
    obtain rfl | ⟨q, rfl, hq⟩ := List.prefix_cons_iff.mp hp
    · rfl
    · rw [List.prefix_nil.mp hq]
      decide
  free := by decide
  unlocked := rfl

theorem not_opens_inLogs (name : String) : ¬ diskWithTmp.Opens ⟨["logs"], name⟩ := by
  intro h
  have hlogs := h.reached ["logs"] List.prefix_rfl
  revert hlogs
  decide

/-- A journal keeps its file in a directory that is there, until it is configured anew; where there
is no directory, it has only its console. -/
theorem handlers_and_records_inDirectory :
    let kept := [keepingFileAt "/tmp/parse.log", .read .flat "x y"]
    (after diskWithTmp .warning kept).handlers = [.console, .file ⟨["tmp"], "parse.log"⟩] ∧
    (after diskWithTmp .warning kept).recordsAt? (.given "/tmp/parse.log") =
      some ["DEBUG: Flat postfix input 'x y' left 2 items on the stack"] ∧
    (after diskWithTmp .warning (kept ++ [.configure .silent false none ""])).handlers = [] ∧
    (after diskWithTmp .warning [keepingFileAt "/logs/parse.log"]).handlers = [.console] := by
  intro kept
  refine ⟨?_, ?_, ?_, ?_⟩
  · obtain ⟨-, hlast, -⟩ := handlers_and_records diskWithTmp .warning kept
    obtain ⟨file?, hhandlers, hfile, -⟩ :=
      hlast [] .verbose true (some "/tmp/parse.log") "" _ rfl (by decide)
    have hopened := (hfile ⟨["tmp"], "parse.log"⟩).mpr ⟨rfl, by decide +kernel, opens_inTmp⟩
    rw [hhandlers, hopened]
    rfl
  · obtain ⟨-, -, -, -, -, hstep⟩ :=
      handlers_and_records diskWithTmp .warning [keepingFileAt "/tmp/parse.log"]
    obtain ⟨-, -, -, -, hrecords⟩ := hstep (.read .flat "x y")
    have hread := hrecords ⟨["tmp"], "parse.log"⟩ [] (by decide +kernel)
    have hfound : diskWithTmp.find? (.given "/tmp/parse.log") = some ⟨["tmp"], "parse.log"⟩ := by
      decide +kernel
    rw [recordsAt?, (sameOutside_after diskWithTmp .warning kept).disk, hfound]
    refine hread.trans ?_
    decide +kernel
  · obtain ⟨-, hlast, -⟩ := handlers_and_records diskWithTmp .warning
      (kept ++ [.configure .silent false none ""])
    obtain ⟨file?, hhandlers, hfile, -⟩ := hlast kept .silent false none "" [] rfl
      (List.forall_mem_nil _)
    cases file? with
    | none => rw [hhandlers]; rfl
    | some file => cases ((hfile file).mp rfl).1
  · obtain ⟨-, hlast, -⟩ := handlers_and_records diskWithTmp .warning
      [keepingFileAt "/logs/parse.log"]
    obtain ⟨file?, hhandlers, hfile, -⟩ :=
      hlast [] .verbose true (some "/logs/parse.log") "" [] rfl (List.forall_mem_nil _)
    cases file? with
    | none => rw [hhandlers]; rfl
    | some file =>
        obtain ⟨-, hplace, hopens⟩ := (hfile file).mp rfl
        have hlogs : diskWithTmp.place (.given "/logs/parse.log") =
            LogFile.place ⟨["logs"], "parse.log"⟩ := by decide +kernel
        rw [LogFile.place_inj.mp (hplace.trans hlogs)] at hopens
        exact absurd hopens (not_opens_inLogs _)

end Journal
end Formulary
