import KinQuery.Console
import Std.Time

/-! The program at its prompt. It looks at the files once before the first query, takes the
time of queries, and writes the dictionary whenever it has changed. -/
namespace KinQuery.Program
open Console

/-- The date of today on the clock of the machine. -/
def today : IO Date := do
  let now ← Std.Time.PlainDate.now
  match Date.make? now.year now.month.val.toNat now.day.val.toNat with
  | some date => return date
  | none => throw (.userError "the clock shows no date")

/-- The variables of the environment that hold settings. -/
def environment : IO (List (String × String)) :=
  Settings.usualVariables.filterMapM fun name => do
    return (← IO.getEnv name).map fun value => (name, value)

def isFolder (path : String) : IO Bool := do
  try
    let place ← IO.FS.realPath path
    place.isDir
  catch _ => return false

/-- The beginnings of a path, which lead to the folders that it goes through. -/
def beginnings (path : String) : List String :=
  let steps := Place.steps path
  ((List.range steps.length).map fun n => "/".intercalate (steps.take (n + 1))).filter
    fun beginning => !beginning.isEmpty

/-- What there is at some paths: the texts of files, and folders in which files may be put. -/
def look (paths : List String) : IO Folder := do
  let mut files := []
  let mut folders := []
  for path in paths do
    for folder in beginnings path do
      if ← isFolder folder then
        folders := Place.ofPath folder :: folders
    try
      files := (path, ← IO.FS.readFile path) :: files
    catch _ => pure ()
  return { Folder.ofList files with folders }

/-- Writes the dictionary if its file is no longer what it was. -/
def keepDictionary (path : String) (before after : Dictionary) : IO Unit :=
  match after.file.bind (·.text) with
  | some text =>
    if before.file.bind (·.text) = some text then pure () else IO.FS.writeFile path text
  | none => pure ()

/-- A time in nanoseconds, told in milliseconds with three places. -/
def milliseconds (nanoseconds : Nat) : String :=
  let micros := (nanoseconds + 500) / 1000
  toString (micros / 1000) ++ "." ++ Date.padded 3 (micros % 1000) ++ " ms"

/-- Answers lines until there are no more; `elapsed` is how long the last query took. -/
partial def answerLines (path : String) (input output : IO.FS.Stream) (s : Service)
    (elapsed : Nat) : IO UInt32 := do
  output.putStr (Output.prompt.text "")
  output.flush
  let line ← input.getLine
  let command := Command.ofLine line
  if line.isEmpty || command = .quit then return 0
  let started ← IO.monoNanosNow
  let (result, next) ← IO.lazyPure fun _ => obey usualDepth command s
  let finished ← IO.monoNanosNow
  keepDictionary path s.session.dictionary next.session.dictionary
  match result with
  | .error failure =>
    IO.eprintln failure.message
    return 1
  | .ok printed =>
    for piece in printed do
      output.putStr (piece.text (milliseconds elapsed))
    answerLines path input output next (if next.asked = s.asked then elapsed else finished - started)

def run : IO UInt32 := do
  let beginning ← look (Settings.candidates settingsName)
  match Settings.load beginning settingsName (← environment) with
  | .error failure =>
    IO.eprintln failure.message
    return 1
  | .ok settings =>
    let path := settings.kinshipDictionary
    let folder ← look settings.paths
    match settings.openSession folder (← today) with
    | .error failure =>
      IO.eprintln failure.message
      return 1
    | .ok opened =>
      let (result, ready) := settings.prepare folder usualDepth opened
      keepDictionary path opened.dictionary ready.dictionary
      match result with
      | .error halt =>
        IO.eprintln halt.message
        return 1
      | .ok () => answerLines path (← IO.getStdin) (← IO.getStdout) { session := ready } 0

end KinQuery.Program

def main : IO UInt32 :=
  KinQuery.Program.run
