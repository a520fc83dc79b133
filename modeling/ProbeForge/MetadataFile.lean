import ProbeForge.Files
import ProbeForge.Json.Reader
import ProbeForge.Universe

/-!
# Metadata files

A metadata file is a JSON object with an entry for each database object.
-/

namespace ProbeForge.MetadataFile

def read (files : Files) (path : String) : Except Fault Universe := do
  let place := Place.ofPath path
  if !files.contains place then refuse (.metadataMissing path)
  else
    match Json.read? (← files.read place) with
    | some value => Universe.ofJson value
    | none => refuse (.metadataNotJson path)

end ProbeForge.MetadataFile
