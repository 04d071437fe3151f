import TreeImage.Extract.Report
import TreeImage.Image.Basic
import TreeImage.Json.Basic

set_option autoImplicit false

/-! # Reports and listings as JSON -/

namespace TreeImage

/-- The members that show an outcome. -/
def Outcome.jsonMembers : Outcome → List (String × Json)
  | .failed kind message =>
    [("outcome", .string "failed"), ("error", .string kind.name), ("message", .string message)]
  | o => [("outcome", .string o.name)]

/-- An outcome on its own. -/
def Outcome.toJson (o : Outcome) : Json := .ofMembers o.jsonMembers

/-- The report of one entry. -/
def EntryReport.toJson (e : EntryReport) : Json :=
  .ofMembers ([("path", .string e.path), ("kind", .string e.kind.name)] ++ e.outcome.jsonMembers)

/-- The counts of a report. -/
def Counts.toJson (c : Counts) : Json :=
  .ofMembers
    [("created", .number c.created), ("skipped_unchanged", .number c.skippedUnchanged),
     ("overwritten", .number c.overwritten), ("diverged", .number c.diverged),
     ("failed", .number c.failed), ("not_attempted", .number c.notAttempted)]

/-- A report. -/
def Report.toJson (r : Report) : Json :=
  .ofMembers
    [("target", .string r.target.display), ("entries", .array (r.entries.map (·.toJson))),
     ("counts", r.counts.toJson), ("bytes_written", .number r.bytesWritten),
     ("cancelled", .bool r.cancelled)]

/-- The result of a run. -/
def resultJson : Except ExtractError Report → Json
  | .ok report => .ofMembers [("status", .string report.status.name), ("report", report.toJson)]
  | .error e => .ofMembers
      [("status", .string Status.fatal.name),
       ("error", .ofMembers [("kind", .string e.kind.name), ("message", .string e.message)])]

/-- An entry of a listing. -/
def Entry.listingJson (e : Entry) : Json :=
  .ofMembers
    [("path", .string e.path), ("kind", .string e.kind.name), ("size", .number e.size.toNat),
     ("digest", .string e.digest.toHex)]

end TreeImage
