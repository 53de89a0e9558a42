import Cutout.Run
/-! The program: takes from the disk what the command line and its configuration name, runs, and
puts back what has changed. -/
namespace Cutout.Disk

def diskName (place : Place) : String :=
  match place with
  | "/" :: rest => "/" ++ "/".intercalate rest
  | names => "/".intercalate names

/-- No file has this name. It stands below a directory to show that it is there. -/
def standIn : String := "/"

def lookAt (files : Files) (place : Place) : IO Files := do
  if place.isEmpty || files.isFile place then return files
  let name := diskName place
  let directory ← try (← IO.FS.realPath name).isDir catch _ => pure false
  if directory then return files.put (place ++ [standIn]) (.text "")
  try return files.put place (.bytes (← IO.FS.readBinFile name)) catch _ => return files

def look (files : Files) (path : Path) : IO Files := do
  let place := Files.reach path
  (List.range place.length).foldlM (fun files n => lookAt files (place.take (n + 1))) files

def gather (c : CommandLine) : IO Files := do
  let files ← (c.input :: Config.candidates c.config).foldlM look Files.empty
  match Config.load files c.config with
  | .error _ => return files
  | .ok config =>
    let outputs := config.entries.map fun e => config.outputPath e c.directory
    let areas := config.entries.filterMap fun e => e.geojson.map config.resolve
    (outputs ++ areas).foldlM look files

def directoryOf (place : Place) : String := diskName place.dropLast

def save (before after : Files) : IO Unit := do
  for place in after.made do
    if !place.isEmpty then IO.FS.createDirAll (diskName place)
  for (place, content) in after.entries do
    if (before.get? place).map Content.toBytes != some content.toBytes then
      if 1 < place.length then IO.FS.createDirAll (directoryOf place)
      IO.FS.writeBinFile (diskName place) content.toBytes
  for (place, _) in before.entries do
    if !after.isFile place then IO.FS.removeFile (diskName place)

def execute (c : CommandLine) : IO UInt32 := do
  let files ← gather c
  let report := c.run files
  for note in report.notes do
    if c.shows note then IO.eprintln note.line
  (← IO.getStdout).putStr report.output
  save files report.files
  match report.result with
  | .ok () => return 0
  | .error fault =>
    IO.eprintln fault.text
    return 1

end Cutout.Disk

open Cutout in
def main (args : List String) : IO UInt32 := do
  match CommandLine.parse args with
  | .ok c => Disk.execute c
  | .error .help =>
    IO.print CommandLine.usageText
    return 0
  | .error .version =>
    IO.println CommandLine.versionText
    return 0
  | .error fault =>
    IO.eprintln s!"error: {fault.message}"
    return 2
