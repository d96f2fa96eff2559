import SecondBrain.Framework.Dispatch

set_option autoImplicit false

/-! Daily notes and their protected marker sections. -/

namespace SecondBrain

namespace Daily

def template : Text := "x/Templates/Daily Template.md".toList

structure Section where
  name : Text
  marker : Text
  writable : Bool

def sections : List Section :=
  [⟨"agenda".toList, "agenda".toList, false⟩,
    ⟨"daily-log".toList, "daily-captures".toList, true⟩,
    ⟨"last-light".toList, "last-light-summary".toList, true⟩]

/-- Where the text between the two markers of a section starts and stops. -/
def markerRange (content name : Text) : Option (Nat × Nat) := do
  let start ← Text.find (sectionStart name) content
  let stop ← Text.find (sectionEnd name) content
  if start + (sectionStart name).length ≤ stop then
    some (start + (sectionStart name).length, stop)
  else none

/-- `str::get` of a range. -/
def slice (content : Text) (start stop : Nat) : Text := (content.drop start).take (stop - start)

def markersMissing (marker : Text) : VaultWriteError :=
  .new .markersMissing ("Markers missing for section: ".toList ++ marker)

/-- What an append hands to the writer as the new text of the section. -/
def appendedSection (note marker content : Text) : Except VaultWriteError Text :=
  match markerRange note marker with
  | none => .error (markersMissing marker)
  | some (start, stop) =>
    let existing := Text.trim (slice note start stop)
    .ok (if existing = [] then content else Text.trimEnd existing ++ '\n' :: content)

/-- The section that the template has for a marker, with both markers. -/
def templateBlock (template marker : Text) : Option Text :=
  (markerRange template marker).map fun (start, stop) =>
    slice template (start - (sectionStart marker).length) (stop + (sectionEnd marker).length)

/-- One turn of the loop of a repair: the block that is missing. -/
def missingBlock (note template marker : Text) : Option Text :=
  if Text.contains (sectionStart marker) note && Text.contains (sectionEnd marker) note then none
  else templateBlock template marker

def missingBlocks (note template : Text) : List Text :=
  sections.filterMap fun entry => missingBlock note template entry.marker

/-- The text that a repair writes, if anything is missing. -/
def repairedText (note template : Text) : Option Text :=
  match missingBlocks note template with
  | [] => none
  | blocks => some (Text.trimEnd note ++ "\n\n".toList ++ "\n\n".toList.intercalate blocks ++ ['\n'])

/-- The section that an append names. -/
def writableSection (name : Text) : Except DispatchError Section :=
  match sections.find? (·.name = name) with
  | none => .error (.coded "section_missing".toList ("Daily note section is not configured: ".toList ++ name))
  | some entry =>
    if entry.writable then .ok entry
    else .error (.coded "section_not_writable".toList ("Daily note section is not writable: ".toList ++ name))

def path (date : Text) : Text := "Calendar/Days/".toList ++ date ++ ".md".toList

variable (reader : VaultReader) (writer : VaultWriter) (fuel : Nat)

def read (path : Text) : ToolProg ReadNoteResult := (reader.readNote path).mapError readError

/-- `daily_note_get` makes the note from the template when it is missing. -/
def get (date : Text) : ToolProg ReadNoteResult := do
  match ← (reader.readNote (path date)).attempt with
  | .ok note => return note
  | .error error =>
    if isMissing error then
      let template ← read reader template
      let _ ← (writer.createNote (path date) template.content none fuel).mapError .write
      read reader (path date)
    else .fail (readError error)

/-- `daily_note_append`. The note is read before the writer takes its lock. -/
def append (date : Text) (args : Arguments) : ToolProg ReadNoteResult := do
  let content ← .ofExcept id (string args "content".toList)
  let base ← .ofExcept id (string args "base_sha256".toList)
  let section' ← .ofExcept id (optionalString args "section".toList)
  let note ← read reader (path date)
  let entry ← .ofExcept id (writableSection (section'.getD "daily-log".toList))
  let content ← .ofExcept .write (appendedSection note.content entry.marker content)
  let _ ← (writer.replaceSectionByMarker (path date) entry.marker content base fuel).mapError .write
  read reader (path date)

/-- `daily_note_repair_markers`. -/
def repair (date : Text) (args : Arguments) : ToolProg ReadNoteResult := do
  let base ← .ofExcept id (string args "base_sha256".toList)
  let note ← read reader (path date)
  let template ← read reader template
  match repairedText note.content template.content with
  | none => return note
  | some repaired =>
    let _ ← (writer.replaceNote (path date) repaired base none fuel).mapError .write
    read reader (path date)

/-- The daily tools, for a date that was parsed. -/
def daily (name date : Text) (args : Arguments) : ToolProg ReadNoteResult :=
  if name = "daily_note_get".toList then get reader writer fuel date
  else if name = "daily_note_append".toList then append reader writer fuel date args
  else if name = "daily_note_repair_markers".toList then repair reader writer fuel date args
  else .fail (.unknownTool name)

end Daily

end SecondBrain
